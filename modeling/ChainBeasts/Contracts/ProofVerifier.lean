import ChainBeasts.Evm.Word
import ChainBeasts.Machine

/-! # `ProofVerifier.sol` and `ZkVerifier.sol`

A root is verified when its attestation counter has reached the quorum, or after a proof set the
counter to the quorum outright. The counter counts *calls*: nothing records who attested. So a
quorum of calls is a quorum of validators only as long as nobody attests twice
(`distinct_attesters_of_verify`), and one address alone reaches it by attesting again
(`single_attester_reaches_quorum`). -/

namespace ChainBeasts.Contracts

open ChainBeasts.Evm ChainBeasts.Machine

/-- `ZkVerifier.verify`: the digest of the proof bytes. -/
def ZkVerifier.verify (keccak256 : Bytes → Bytes32) (proof : Bytes) : Bytes32 := keccak256 proof

structure ProofVerifier where
  quorum : U256
  attestations : Bytes32 → U256
  proven : Bytes32 → Bool
  zkVerifier : Address

namespace ProofVerifier

def deploy (verifier : Address) : ProofVerifier := ⟨3, fun _ => 0, fun _ => false, verifier⟩

def attest (s : ProofVerifier) (rootHash : Bytes32) : Option ProofVerifier := do
  let count ← checkedAdd (s.attestations rootHash) 1
  return { s with attestations := Function.update s.attestations rootHash count }

/-- `zk` is what the verifier contract at an address answers, `none` when that call reverts. -/
def submitProof (zk : Address → Bytes → Option Bytes32) (s : ProofVerifier) (rootHash : Bytes32)
    (proof : Bytes) : Option ProofVerifier := do
  require (¬ s.proven rootHash)
  let computed ← zk s.zkVerifier proof
  require (computed = rootHash)
  return { s with
    proven := Function.update s.proven rootHash true
    attestations := Function.update s.attestations rootHash s.quorum }

def verify (s : ProofVerifier) (rootHash : Bytes32) : Bool :=
  decide (s.quorum ≤ s.attestations rootHash)

def setQuorum (s : ProofVerifier) (newQuorum : U256) : Option ProofVerifier :=
  return { s with quorum := newQuorum }

def setVerifier (s : ProofVerifier) (verifier : Address) : Option ProofVerifier :=
  return { s with zkVerifier := verifier }

/-- The external functions that write; none of them restricts its sender. -/
inductive Call where
  | attest (rootHash : Bytes32)
  | submitProof (rootHash : Bytes32) (proof : Bytes)
  | setQuorum (newQuorum : U256)
  | setVerifier (verifier : Address)
  deriving DecidableEq

def step (zk : Address → Bytes → Option Bytes32) (s : ProofVerifier) (tx : Tx Call) :
    Option ProofVerifier :=
  match tx.call with
  | .attest rootHash => s.attest rootHash
  | .submitProof rootHash proof => s.submitProof zk rootHash proof
  | .setQuorum newQuorum => s.setQuorum newQuorum
  | .setVerifier verifier => s.setVerifier verifier

variable {zk : Address → Bytes → Option Bytes32} {s s' : ProofVerifier}

theorem attest_cases {r : Bytes32} (h : s.attest r = some s') :
    ∃ count, count.toNat = (s.attestations r).toNat + 1 ∧
      s' = { s with attestations := Function.update s.attestations r count } := by
  simp only [attest, Option.bind_eq_bind, Option.bind_eq_some_iff, checkedAdd_eq_some,
    Option.pure_def, Option.some.injEq] at h
  obtain ⟨count, hcount, rfl⟩ := h
  exact ⟨count, hcount, rfl⟩

theorem submit_proof_cases {r : Bytes32} {proof : Bytes}
    (h : s.submitProof zk r proof = some s') :
    s.proven r = false ∧ zk s.zkVerifier proof = some r ∧
      s' = { s with
        proven := Function.update s.proven r true
        attestations := Function.update s.attestations r s.quorum } := by
  simp only [submitProof, Option.bind_eq_bind, Option.bind_eq_some_iff, require_eq_some,
    Option.pure_def, Option.some.injEq] at h
  obtain ⟨_, hproven, computed, hzk, _, rfl, rfl⟩ := h
  exact ⟨by simpa using hproven, hzk, rfl⟩

/-! ## Who attested -/

/-- The senders of the `attest(rootHash)` calls, in order and with repetitions. -/
def attesters (rootHash : Bytes32) (txs : List (Tx Call)) : List Address :=
  txs.filterMap fun tx => if tx.call = .attest rootHash then some tx.sender else none

@[simp] theorem attesters_concat (r : Bytes32) (txs : List (Tx Call)) (tx : Tx Call) :
    attesters r (txs ++ [tx]) =
      attesters r txs ++ if tx.call = .attest r then [tx.sender] else [] := by
  by_cases h : tx.call = .attest r <;> simp [attesters, h]

/-- The counter of a root that no proof has marked is at most the number of `attest` calls. -/
def CountsCalls (s : ProofVerifier) (txs : List (Tx Call)) : Prop :=
  ∀ r, s.proven r = false → (s.attestations r).toNat ≤ (attesters r txs).length

theorem CountsCalls.step {txs : List (Tx Call)} {tx : Tx Call} (hs : CountsCalls s txs)
    (h : step zk s tx = some s') : CountsCalls s' (txs ++ [tx]) := by
  intro r hr
  rw [attesters_concat, List.length_append]
  obtain ⟨sender, call⟩ := tx
  cases call with
  | attest q =>
      obtain ⟨count, hcount, rfl⟩ := attest_cases h
      have hold := hs r hr
      by_cases hq : r = q
      · subst hq
        simp only [Function.update_self, if_true, List.length_singleton]
        omega
      · simp only [Function.update_of_ne hq]
        omega
  | submitProof q proof =>
      obtain ⟨-, -, rfl⟩ := submit_proof_cases h
      by_cases hq : r = q
      · subst hq
        simp [Function.update_self] at hr
      · simp only [Function.update_of_ne hq] at hr ⊢
        have hold := hs r hr
        omega
  | setQuorum q =>
      cases h
      exact Nat.le_add_right_of_le (hs r hr)
  | setVerifier v =>
      cases h
      exact Nat.le_add_right_of_le (hs r hr)

/-- The state after the transactions `txs`, from deployment. -/
def run (zk : Address → Bytes → Option Bytes32) (verifier : Address) (txs : List (Tx Call)) :
    ProofVerifier :=
  exec (revert (ProofVerifier.step zk)) (deploy verifier) txs

theorem countsCalls_run (zk : Address → Bytes → Option Bytes32) (verifier : Address)
    (txs : List (Tx Call)) : CountsCalls (run zk verifier txs) txs := by
  apply run_induction
  · intro r _
    simp [deploy]
  · intro s txs tx hs
    cases h : ProofVerifier.step zk s tx with
    | some s' => rw [revert_some h]; exact hs.step h
    | none =>
        rw [revert_none h]
        intro r hr
        rw [attesters_concat, List.length_append]
        exact Nat.le_add_right_of_le (hs r hr)

/-- `txs` never sets the quorum to anything but the deployed value. -/
def KeepsQuorum (txs : List (Tx Call)) : Prop :=
  ∀ tx ∈ txs, ∀ q, tx.call = .setQuorum q → q = 3

theorem quorum_step {tx : Tx Call} (h : ProofVerifier.step zk s tx = some s')
    (hq : ∀ q, tx.call = .setQuorum q → q = 3) (hs : s.quorum = 3) : s'.quorum = 3 := by
  obtain ⟨sender, call⟩ := tx
  cases call with
  | attest r => obtain ⟨_, _, rfl⟩ := attest_cases h; exact hs
  | submitProof r proof => obtain ⟨_, _, rfl⟩ := submit_proof_cases h; exact hs
  | setQuorum q => cases h; exact hq q rfl
  | setVerifier v => cases h; exact hs

theorem quorum_run {txs : List (Tx Call)} (hq : KeepsQuorum txs) (verifier : Address) :
    (run zk verifier txs).quorum = 3 :=
  trace_induction (fun m => ∀ q, m.call.call = .setQuorum q → q = 3) (fun s _ => s.quorum = 3) rfl
    (fun _ _ _ _ hs hstep hkept => quorum_step hstep hkept hs) txs
    fun _ hm => hq _ (mem_of_mem_trace hm)

/-! ## Quorums of distinct validators -/

/-- A verified root without a proof was attested by at least `quorum` distinct addresses. -/
def QuorumIsDistinct (s : ProofVerifier) (txs : List (Tx Call)) (r : Bytes32) : Prop :=
  s.verify r = true → s.proven r = false → s.quorum.toNat ≤ (attesters r txs).toFinset.card

instance (s : ProofVerifier) (txs : List (Tx Call)) (r : Bytes32) :
    Decidable (QuorumIsDistinct s txs r) :=
  inferInstanceAs (Decidable (_ → _ → _))

/-- A list whose first `n` entries exist and are distinct has at least `n` distinct entries. -/
theorem le_card_of_take_nodup {α : Type} [DecidableEq α] {l : List α} {n : Nat}
    (hn : n ≤ l.length) (h : (l.take n).Nodup) : n ≤ l.toFinset.card := by
  have hcard : (l.take n).toFinset.card = n := by
    rw [List.toFinset_card_of_nodup h, List.length_take, Nat.min_eq_left hn]
  calc n = (l.take n).toFinset.card := hcard.symm
    _ ≤ l.toFinset.card := Finset.card_le_card fun x hx => by
        rw [List.mem_toFinset] at hx ⊢
        exact List.mem_of_mem_take hx

/-- **When the quorum is one of distinct validators.** As long as the first three attestations of
a root come from distinct addresses, every state of every run that keeps the deployed quorum has
the property. -/
theorem distinct_attesters_of_verify (zk : Address → Bytes → Option Bytes32) (verifier : Address)
    {txs : List (Tx Call)} {r : Bytes32} (hq : KeepsQuorum txs)
    (hfirst : ((attesters r txs).take 3).Nodup) :
    QuorumIsDistinct (run zk verifier txs) txs r := by
  intro hv hp
  have hquorum : (run zk verifier txs).quorum = 3 := quorum_run hq verifier
  have hcount := countsCalls_run zk verifier txs r hp
  have hreached : (run zk verifier txs).quorum.toNat ≤
      ((run zk verifier txs).attestations r).toNat := by
    simpa [verify, BitVec.le_def] using hv
  rw [hquorum] at hreached ⊢
  exact le_card_of_take_nodup (le_trans hreached hcount) hfirst

/-- Three validators, one of them attesting a second time after the quorum. -/
theorem distinct_attesters_of_verify_three :
    3 ≤ (attesters 7
      [⟨1, .attest 7⟩, ⟨2, .attest 7⟩, ⟨3, .attest 7⟩, ⟨1, .attest 7⟩]).toFinset.card :=
  @distinct_attesters_of_verify (fun _ _ => none) 9
    [⟨1, .attest 7⟩, ⟨2, .attest 7⟩, ⟨3, .attest 7⟩, ⟨1, .attest 7⟩] 7
    (by simp [KeepsQuorum]) (by decide) (by decide) (by decide)

/-- One address attests three times: the root is verified by a quorum of one. -/
theorem single_attester_reaches_quorum :
    ¬ QuorumIsDistinct
      (run (fun _ _ => none) 9 [⟨1, .attest 7⟩, ⟨1, .attest 7⟩, ⟨1, .attest 7⟩])
      [⟨1, .attest 7⟩, ⟨1, .attest 7⟩, ⟨1, .attest 7⟩] 7 := by
  decide

end ProofVerifier

end ChainBeasts.Contracts
