import ChainBeasts.Contracts.ProofVerifier

/-! # How long a proof counts

`submit_proof` marks its root as proven and, as its comment has it, satisfies the quorum. `verify`
never reads the mark: it compares a counter, set to the quorum of the moment, with the quorum of
another one. So a proof counts until somebody raises the quorum, and it takes away the attestations
beyond the quorum that were there before it. `Keeps` is the condition on a call under which neither
happens. -/

namespace ChainBeasts.Contracts

open ChainBeasts.Evm ChainBeasts.Machine

namespace ProofVerifier

variable {zk : Address → Bytes → Option Bytes32} {verifier : Address} {s s' : ProofVerifier}
  {txs : List (Tx Call)}

/-- The accepted transactions of a run. -/
def moves (zk : Address → Bytes → Option Bytes32) (verifier : Address) (txs : List (Tx Call)) :
    List (Move ProofVerifier (Tx Call)) :=
  trace (step zk) (deploy verifier) txs

/-- A proof of `r` is among the accepted transactions. -/
def Submitted (r : Bytes32) (ms : List (Move ProofVerifier (Tx Call))) : Prop :=
  ∃ m ∈ ms, ∃ proof, m.call.call = .submitProof r proof

theorem Submitted.mono {r : Bytes32} {ms ms' : List (Move ProofVerifier (Tx Call))}
    (h : Submitted r ms) (hsub : ∀ m ∈ ms, m ∈ ms') : Submitted r ms' := by
  obtain ⟨m, hm, hproof⟩ := h
  exact ⟨m, hsub m hm, hproof⟩

/-- Whenever a proof of a root has been accepted, the root is verified. -/
def Permanent (zk : Address → Bytes → Option Bytes32) (verifier : Address) (txs : List (Tx Call)) :
    Prop :=
  ∀ before, before <+: txs → ∀ r, Submitted r (moves zk verifier before) →
    (run zk verifier before).verify r = true

/-- No accepted proof takes attestations away. -/
def NeverLowers (zk : Address → Bytes → Option Bytes32) (verifier : Address)
    (txs : List (Tx Call)) : Prop :=
  ∀ m ∈ moves zk verifier txs, ∀ q proof, m.call.call = .submitProof q proof →
    ∀ r, m.pre.attestations r ≤ m.post.attestations r

/-- The call finds no more attestations of its root than the quorum, or leaves the quorum within
reach of every proven root. -/
def Keeps (s : ProofVerifier) : Call → Prop
  | .submitProof r _ => s.attestations r ≤ s.quorum
  | .setQuorum q => ∀ r, s.proven r = true → q ≤ s.attestations r
  | .attest _ => True
  | .setVerifier _ => True

/-! ## The mark -/

/-- The mark says what it should. -/
theorem proven_iff_submitted (zk : Address → Bytes → Option Bytes32) (verifier : Address)
    (txs : List (Tx Call)) (r : Bytes32) :
    (run zk verifier txs).proven r = true ↔ Submitted r (moves zk verifier txs) := by
  refine trace_run_induction
    (P := fun s ms => s.proven r = true ↔ Submitted r ms) ?_ ?_ txs
  · simp [deploy, Submitted]
  · intro s ms tx s' hs hstep
    have hold : ∀ m : Move ProofVerifier (Tx Call), Submitted r (ms ++ [m]) ↔
        Submitted r ms ∨ ∃ proof, m.call.call = .submitProof r proof := by
      intro m
      simp [Submitted, or_and_right, exists_or]
    obtain ⟨sender, call⟩ := tx
    rw [hold, ← hs]
    cases call with
    | attest q =>
        obtain ⟨_, _, rfl⟩ := attest_cases hstep
        simp
    | submitProof q proof =>
        obtain ⟨_, _, rfl⟩ := submit_proof_cases hstep
        by_cases hq : r = q
        · simp [hq]
        · simp [Function.update_of_ne hq, Ne.symm hq]
    | setQuorum q =>
        cases hstep
        simp
    | setVerifier v =>
        cases hstep
        simp

/-! ## One transaction -/

/-- Every marked root has its quorum. -/
def Satisfied (s : ProofVerifier) : Prop := ∀ r, s.proven r = true → s.quorum ≤ s.attestations r

theorem satisfied_step {tx : Tx Call} (hs : s.Satisfied)
    (hstep : ProofVerifier.step zk s tx = some s') (hkeeps : s.Keeps tx.call) : s'.Satisfied := by
  obtain ⟨sender, call⟩ := tx
  intro r hr
  cases call with
  | attest q =>
      obtain ⟨count, hcount, rfl⟩ := attest_cases hstep
      have hold := hs r hr
      by_cases hq : r = q
      · subst hq
        show s.quorum ≤ Function.update s.attestations r count r
        rw [Function.update_self, BitVec.le_def, hcount]
        exact Nat.le_succ_of_le (BitVec.le_def.mp hold)
      · show s.quorum ≤ Function.update s.attestations q count r
        rw [Function.update_of_ne hq]
        exact hold
  | submitProof q proof =>
      obtain ⟨_, _, rfl⟩ := submit_proof_cases hstep
      by_cases hq : r = q
      · subst hq
        show s.quorum ≤ Function.update s.attestations r s.quorum r
        rw [Function.update_self]
        exact BitVec.le_refl _
      · simp only [Function.update_of_ne hq] at hr ⊢
        exact hs r hr
  | setQuorum q =>
      cases hstep
      exact hkeeps r hr
  | setVerifier v =>
      cases hstep
      exact hs r hr

/-- What a proof does to the attestations: those of its root become the quorum. -/
theorem submit_proof_lowers_iff {q : Bytes32} {proof : Bytes}
    (h : s.submitProof zk q proof = some s') :
    (∀ r, s.attestations r ≤ s'.attestations r) ↔ s.attestations q ≤ s.quorum := by
  obtain ⟨_, _, rfl⟩ := submit_proof_cases h
  constructor
  · intro hall
    have hq := hall q
    simp only [Function.update_self] at hq
    exact hq
  · intro hle r
    by_cases hr : r = q
    · subst hr
      simp only [Function.update_self]
      exact hle
    · simp only [Function.update_of_ne hr]
      exact BitVec.le_refl _

/-! ## Runs -/

theorem satisfied_run (hkeeps : ∀ m ∈ moves zk verifier txs, m.pre.Keeps m.call.call) :
    (run zk verifier txs).Satisfied := by
  refine trace_induction (fun m : Move ProofVerifier (Tx Call) => m.pre.Keeps m.call.call)
    (fun s _ => Satisfied s) ?_ ?_ txs hkeeps
  · intro r hr
    simp [deploy] at hr
  · intro s _ tx s' hs hstep hok
    exact satisfied_step hs hstep hok

theorem mem_moves_mono {before : List (Tx Call)} (h : before <+: txs) :
    ∀ m ∈ moves zk verifier before, m ∈ moves zk verifier txs := by
  obtain ⟨after, rfl⟩ := h
  intro m hm
  unfold moves
  rw [trace_append]
  exact List.mem_append_left _ hm

/-- **When a proof counts for ever.** In a run the proven roots stay verified, and no proof lowers an
attestation counter, if and only if every accepted call `Keeps`: no proof meets more attestations
than the quorum, and no new quorum is above the counter of a proven root. -/
theorem permanent_iff_keeps (zk : Address → Bytes → Option Bytes32) (verifier : Address)
    (txs : List (Tx Call)) :
    Permanent zk verifier txs ∧ NeverLowers zk verifier txs ↔
      ∀ m ∈ moves zk verifier txs, m.pre.Keeps m.call.call := by
  constructor
  · rintro ⟨hpermanent, hnever⟩ m hm
    have hstep := step_of_mem_trace hm
    obtain ⟨before, hbefore, hpre, hpost⟩ := exists_prefix_of_mem_trace hm
    obtain ⟨pre, ⟨sender, call⟩, post⟩ := m
    cases call with
    | attest q => exact trivial
    | setVerifier v => exact trivial
    | submitProof q proof =>
        exact (submit_proof_lowers_iff hstep).mp (hnever _ hm q proof rfl)
    | setQuorum q =>
        intro r hr
        have hearlier : Submitted r (moves zk verifier before) := by
          rw [← proven_iff_submitted]
          unfold run
          rw [hpre]
          exact hr
        have hverified := hpermanent _ hbefore r
          (hearlier.mono (mem_moves_mono (List.prefix_append _ _)))
        unfold run at hverified
        rw [hpost] at hverified
        have hpost' : post = { pre with quorum := q } := (Option.some.inj hstep).symm
        subst hpost'
        exact of_decide_eq_true hverified
  · intro hkeeps
    constructor
    · intro before hbefore r hr
      rw [← proven_iff_submitted] at hr
      have hsatisfied : (run zk verifier before).Satisfied :=
        satisfied_run fun m hm => hkeeps m (mem_moves_mono hbefore m hm)
      exact decide_eq_true (hsatisfied r hr)
    · intro m hm q proof hcall
      have hstep := step_of_mem_trace hm
      have hle := hkeeps m hm
      unfold ProofVerifier.step at hstep
      rw [hcall] at hstep hle
      exact (submit_proof_lowers_iff hstep).mpr hle

/-- Somebody raises the quorum to 4 after the proof, and the root is no longer verified; four
attestations before the proof become three. -/
theorem proof_outvoted :
    ¬ Permanent (fun _ _ => some 7) 9 [⟨1, .submitProof 7 []⟩, ⟨2, .setQuorum 4⟩] ∧
      ¬ NeverLowers (fun _ _ => some 7) 9
        [⟨1, .attest 7⟩, ⟨2, .attest 7⟩, ⟨3, .attest 7⟩, ⟨4, .attest 7⟩, ⟨5, .submitProof 7 []⟩] := by
  constructor
  · intro hpermanent
    have hverified := hpermanent _ (List.prefix_refl _) 7
      ((proven_iff_submitted _ _ _ _).mp (by decide))
    exact absurd hverified (by decide)
  · intro hnever
    have hle := hnever _ (List.getLast_mem (by decide)) 7 [] rfl 7
    exact absurd hle (by decide)

end ProofVerifier

end ChainBeasts.Contracts
