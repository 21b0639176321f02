import ChainBeasts.Contracts.BridgeNetwork
import ChainBeasts.Contracts.ProofVerifier

/-! # The network behind the deployed verifiers

Each chain runs `ProofVerifier` with the deployed `ZkVerifier`, and its bridge asks that contract.
The proof of a root is any buffer with that digest, so the packed tuple of an invented departure
proves its own root, and one account mints from nothing (`outsider_mints`).

An arrival is authentic when its tuple has departed, or at least two and at least a quorum of
distinct addresses attested its root. That is so as long as proofs are submitted for emitted roots
only, nobody attests a root twice, and the quorum stays at two or more (`arrivals_authentic`). -/

namespace ChainBeasts.Contracts

open ChainBeasts.Evm ChainBeasts.Machine

/-! ## One chain and its verifier -/

/-- One chain with its verifier; `attested` is the log of the `Attested` events. -/
structure Node where
  chain : Chain
  verifier : ProofVerifier
  attested : List (Bytes32 × Address)

namespace Node

/-- A transaction goes to the chain's contracts or to the verifier. -/
inductive Call where
  | chain (call : Chain.Call)
  | verifier (call : ProofVerifier.Call)

/-- The contract at `zkAddr` is the deployed `ZkVerifier`; `other` is whatever is deployed
elsewhere. -/
def zkAt (keccak256 : Bytes → Bytes32) (zkAddr : Address) (other : Address → Bytes → Option Bytes32)
    (a : Address) (proof : Bytes) : Option Bytes32 :=
  if a = zkAddr then some (ZkVerifier.verify keccak256 proof) else other a proof

/-- The `Attested` event of a call. -/
def attests (sender : Address) : ProofVerifier.Call → List (Bytes32 × Address)
  | .attest rootHash => [(rootHash, sender)]
  | _ => []

def deploy (d : Deployment) (verifier zkAddr : Address) : Node :=
  ⟨Chain.deploy d verifier, ProofVerifier.deploy zkAddr, []⟩

def step (keccak256 : Bytes → Bytes32) (zk : Address → Bytes → Option Bytes32) (d : Deployment)
    (s : Node) (tx : Tx Call) : Option Node :=
  match tx.call with
  | .chain call =>
      (s.chain.step keccak256 d s.verifier.verify ⟨tx.sender, call⟩).map fun chain =>
        { s with chain }
  | .verifier call =>
      (s.verifier.step zk ⟨tx.sender, call⟩).map fun verifier =>
        { s with verifier, attested := s.attested ++ attests tx.sender call }

/-- The addresses that attested `r` in the log, in order and with repetitions. -/
def attesters (log : List (Bytes32 × Address)) (r : Bytes32) : List Address :=
  log.filterMap fun entry => if entry.1 = r then some entry.2 else none

theorem attesters_concat (log : List (Bytes32 × Address)) (q r : Bytes32) (sender : Address) :
    attesters (log ++ [(q, sender)]) r = attesters log r ++ if q = r then [sender] else [] := by
  by_cases h : q = r <;> simp [attesters, h]

/-- Every root that is not in `emitted` was attested once for each count, by distinct addresses, and
the quorum is at least two. -/
structure Trusted (emitted : Bytes32 → Prop) (s : Node) : Prop where
  quorum : 2 ≤ s.verifier.quorum.toNat
  counted : ∀ r, ¬ emitted r → (s.verifier.attestations r).toNat ≤ (attesters s.attested r).length
  distinct : ∀ r, (attesters s.attested r).Nodup

theorem deploy_trusted (emitted : Bytes32 → Prop) (d : Deployment) (verifier zkAddr : Address) :
    Trusted emitted (deploy d verifier zkAddr) where
  quorum := by simp [deploy, ProofVerifier.deploy]
  counted r _ := by simp [deploy, ProofVerifier.deploy]
  distinct r := List.nodup_nil

theorem Trusted.mono {emitted emitted' : Bytes32 → Prop} {s : Node} (h : s.Trusted emitted)
    (hsub : ∀ r, emitted r → emitted' r) : s.Trusted emitted' :=
  ⟨h.quorum, fun r hr => h.counted r fun he => hr (hsub r he), h.distinct⟩

/-- The calls that keep the verifier trusted: a proof of an emitted root, an attestation by an
address that has not attested the root, a quorum of at least two. -/
def Careful (emitted : Bytes32 → Prop) (s : Node) (sender : Address) : ProofVerifier.Call → Prop
  | .attest r => sender ∉ attesters s.attested r
  | .submitProof r _ => emitted r
  | .setQuorum q => 2 ≤ q.toNat
  | .setVerifier _ => True

instance (emitted : Bytes32 → Prop) [DecidablePred emitted] (s : Node) (sender : Address)
    (call : ProofVerifier.Call) : Decidable (s.Careful emitted sender call) :=
  match call with
  | .attest r => inferInstanceAs (Decidable (sender ∉ attesters s.attested r))
  | .submitProof r _ => inferInstanceAs (Decidable (emitted r))
  | .setQuorum q => inferInstanceAs (Decidable (2 ≤ q.toNat))
  | .setVerifier _ => inferInstanceAs (Decidable True)

/-- **One verifier call.** -/
theorem Trusted.verifierStep {emitted : Bytes32 → Prop} {s : Node} (h : s.Trusted emitted)
    {zk : Address → Bytes → Option Bytes32} {sender : Address} {call : ProofVerifier.Call}
    {verifier : ProofVerifier} (hstep : s.verifier.step zk ⟨sender, call⟩ = some verifier)
    (hcall : s.Careful emitted sender call) :
    ({ s with verifier, attested := s.attested ++ attests sender call } : Node).Trusted
      emitted := by
  cases call with
  | attest q =>
      obtain ⟨count, hcount, rfl⟩ := ProofVerifier.attest_cases hstep
      refine ⟨h.quorum, ?_, ?_⟩
      · -- the counter and the log of `q` grow together
        intro r hr
        have hold := h.counted r hr
        show (Function.update s.verifier.attestations q count r).toNat ≤ _
        rw [attests, attesters_concat, List.length_append]
        by_cases hq : q = r
        · subst hq
          rw [Function.update_self, if_pos rfl, List.length_singleton]
          omega
        · rw [Function.update_of_ne (Ne.symm hq)]
          omega
      · intro r
        show (attesters (s.attested ++ [(q, sender)]) r).Nodup
        rw [attesters_concat]
        by_cases hq : q = r
        · subst hq
          rw [if_pos rfl]
          exact List.Nodup.append (h.distinct q) (List.nodup_singleton sender)
            (List.disjoint_singleton.mpr hcall)
        · rw [if_neg hq, List.append_nil]
          exact h.distinct r
  | submitProof q proof =>
      obtain ⟨-, -, rfl⟩ := ProofVerifier.submit_proof_cases hstep
      simp only [attests, List.append_nil]
      -- only the counter of an emitted root is set, and those are not counted
      refine ⟨h.quorum, ?_, h.distinct⟩
      intro r hr
      have hne : r ≠ q := by
        rintro rfl
        exact hr hcall
      show (Function.update s.verifier.attestations q _ r).toNat ≤ _
      rw [Function.update_of_ne hne]
      exact h.counted r hr
  | setQuorum q =>
      obtain rfl := Option.some.inj hstep
      simp only [attests, List.append_nil]
      exact ⟨hcall, h.counted, h.distinct⟩
  | setVerifier a =>
      obtain rfl := Option.some.inj hstep
      simp only [attests, List.append_nil]
      exact ⟨h.quorum, h.counted, h.distinct⟩

/-- At least a quorum, and at least two, distinct addresses attested `r`. -/
def Attested (s : Node) (r : Bytes32) : Prop :=
  s.verifier.quorum.toNat ≤ (attesters s.attested r).toFinset.card ∧
    2 ≤ (attesters s.attested r).toFinset.card

instance (s : Node) (r : Bytes32) : Decidable (s.Attested r) :=
  inferInstanceAs (Decidable (_ ∧ _))

/-- A trusted verifier accepts an unemitted root only when it is attested. -/
theorem Trusted.attested_of_verify {emitted : Bytes32 → Prop} {s : Node} (h : s.Trusted emitted)
    {r : Bytes32} (hr : ¬ emitted r) (hv : s.verifier.verify r = true) : s.Attested r := by
  have hreached : s.verifier.quorum.toNat ≤ (s.verifier.attestations r).toNat := by
    simpa [ProofVerifier.verify, BitVec.le_def] using hv
  have hcount := h.counted r hr
  have hquorum := h.quorum
  have hcard := List.toFinset_card_of_nodup (h.distinct r)
  constructor <;> omega

end Node

/-! ## The network -/

abbrev VerifiedNetwork (n : Nat) := Fin n → Node

namespace VerifiedNetwork

variable {n : Nat} {keccak256 : Bytes → Bytes32} {zk : Fin n → Address → Bytes → Option Bytes32}
  {d : Fin n → Deployment} {net net' : VerifiedNetwork n}

/-- The chains without their verifiers. -/
def chains (net : VerifiedNetwork n) : Network n := fun i => (net i).chain

abbrev NodeMove (n : Nat) := Move (VerifiedNetwork n) (Network.On n Node.Call)

def deploy (d : Fin n → Deployment) (verifier zkAddr : Fin n → Address) : VerifiedNetwork n :=
  fun i => Node.deploy (d i) (verifier i) (zkAddr i)

def step (keccak256 : Bytes → Bytes32) (zk : Fin n → Address → Bytes → Option Bytes32)
    (d : Fin n → Deployment) (net : VerifiedNetwork n) (c : Network.On n Node.Call) :
    Option (VerifiedNetwork n) :=
  ((net c.on).step keccak256 (zk c.on) (d c.on) c.tx).map (Function.update net c.on)

/-- The accepted transactions of a run from deployment, with the deployed `ZkVerifier` on every
chain. -/
def moves (keccak256 : Bytes → Bytes32) (d : Fin n → Deployment) (verifier zkAddr : Fin n → Address)
    (other : Fin n → Address → Bytes → Option Bytes32) (cs : List (Network.On n Node.Call)) :
    List (NodeMove n) :=
  trace (step keccak256 (fun i => Node.zkAt keccak256 (zkAddr i) (other i)) d)
    (deploy d verifier zkAddr) cs

/-- The buffers the bridges hash in the moves `tr`. -/
def hashed (d : Fin n → Deployment) (tr : List (NodeMove n)) : List Bytes :=
  tr.flatMap fun m =>
    match m.call.tx.call with
    | .chain call => (m.pre m.call.on).chain.hashes (d m.call.on) ⟨m.call.tx.sender, call⟩
    | .verifier _ => []

/-- The tuple of an arrival has departed: a bridge on the source chain announced it. -/
def Departed (d : Fin n → Deployment) (net : VerifiedNetwork n) (t : U256) (account : Address)
    (src : U256) (w : Bytes) (dna : Bytes32) : Prop :=
  ∃ i, (d i).chainId = src ∧ ∃ e ∈ (net i).chain.out,
    e.tokenId = t ∧ e.owner = account ∧ e.genesisWeights = w ∧ e.dna = dna

/-- **Authenticity** of a transaction on chain `on`: if it is an arrival, its tuple has departed or
its root was attested by distinct addresses. -/
def AuthenticCall (keccak256 : Bytes → Bytes32) (d : Fin n → Deployment) (net : VerifiedNetwork n)
    (on : Fin n) : Node.Call → Prop
  | .chain (.bridgeIn _ t toAddr src _ w dna _) =>
      Departed d net t toAddr src w dna ∨
        (net on).Attested (keccak256 (Chain.preimage t toAddr src w dna))
  | _ => True

def Authentic (keccak256 : Bytes → Bytes32) (d : Fin n → Deployment) (m : NodeMove n) : Prop :=
  AuthenticCall keccak256 d m.pre m.call.on m.call.tx.call

/-- What a transaction on chain `on` must be to keep the verifiers trusted. -/
def CarefulCall (net : VerifiedNetwork n) (on : Fin n) (sender : Address) : Node.Call → Prop
  | .chain _ => True
  | .verifier call => (net on).Careful net.chains.Emitted sender call

def Careful (m : NodeMove n) : Prop := CarefulCall m.pre m.call.on m.call.tx.sender m.call.tx.call

instance (d : Fin n → Deployment) (net : VerifiedNetwork n) (t : U256) (account : Address)
    (src : U256) (w : Bytes) (dna : Bytes32) : Decidable (Departed d net t account src w dna) :=
  inferInstanceAs (Decidable (∃ i, _ ∧ ∃ e ∈ (net i).chain.out, _))

instance (keccak256 : Bytes → Bytes32) (d : Fin n → Deployment) (m : NodeMove n) :
    Decidable (Authentic keccak256 d m) :=
  let decideCall : ∀ call, Decidable (AuthenticCall keccak256 d m.pre m.call.on call)
    | .chain (.bridgeIn ..) => inferInstanceAs (Decidable (_ ∨ _))
    | .chain (.bridgeOut ..) => isTrue trivial
    | .chain (.nft ..) => isTrue trivial
    | .verifier _ => isTrue trivial
  decideCall m.call.tx.call

instance (m : NodeMove n) : Decidable (Careful m) :=
  let decideCall : ∀ call, Decidable (CarefulCall m.pre m.call.on m.call.tx.sender call)
    | .chain _ => isTrue trivial
    | .verifier call =>
        inferInstanceAs (Decidable ((m.pre m.call.on).Careful m.pre.chains.Emitted _ call))
  decideCall m.call.tx.call

/-- Every emitted root is the digest of a hashed buffer, that of its own event. -/
def Rooted (keccak256 : Bytes → Bytes32) (d : Fin n → Deployment) (bs : List Bytes)
    (net : VerifiedNetwork n) : Prop :=
  ∀ i, ∀ e ∈ (net i).chain.out,
    Chain.preimage e.tokenId e.owner (d i).chainId e.genesisWeights e.dna ∈ bs ∧
      e.rootHash =
        keccak256 (Chain.preimage e.tokenId e.owner (d i).chainId e.genesisWeights e.dna)

/-- The state of the network as long as every move is careful. -/
structure Sound (keccak256 : Bytes → Bytes32) (d : Fin n → Deployment) (bs : List Bytes)
    (net : VerifiedNetwork n) : Prop where
  wired : ∀ i, (net i).chain.Wired (d i)
  trusted : ∀ i, (net i).Trusted net.chains.Emitted
  rooted : Rooted keccak256 d bs net

theorem sound_deploy (bs : List Bytes) {verifier zkAddr : Fin n → Address}
    (hver : ∀ i, verifier i ≠ zeroAddress) :
    Sound keccak256 d bs (deploy d verifier zkAddr) where
  wired i := Chain.deploy_wired (hver i)
  trusted i := Node.deploy_trusted _ _ _ _
  rooted i e he := by simp [deploy, Node.deploy, Chain.deploy] at he

/-- An accepted transaction is one of the chain or one of the verifier. -/
theorem step_cases {c : Network.On n Node.Call} (h : step keccak256 zk d net c = some net') :
    (∃ call s', c.tx.call = .chain call ∧
        (net c.on).chain.step keccak256 (d c.on) (net c.on).verifier.verify ⟨c.tx.sender, call⟩ =
          some s' ∧
        net' = Function.update net c.on { net c.on with chain := s' }) ∨
      ∃ call v, c.tx.call = .verifier call ∧
        (net c.on).verifier.step (zk c.on) ⟨c.tx.sender, call⟩ = some v ∧
        net' = Function.update net c.on { net c.on with
          verifier := v, attested := (net c.on).attested ++ Node.attests c.tx.sender call } := by
  obtain ⟨i, sender, call⟩ := c
  obtain ⟨node, hnode, rfl⟩ := Option.map_eq_some_iff.mp h
  cases call with
  | chain call =>
      obtain ⟨s', hs, rfl⟩ := Option.map_eq_some_iff.mp hnode
      exact Or.inl ⟨call, s', rfl, hs, rfl⟩
  | verifier call =>
      obtain ⟨v, hv, rfl⟩ := Option.map_eq_some_iff.mp hnode
      exact Or.inr ⟨call, v, rfl, hv, rfl⟩

theorem chains_update (i : Fin n) (node : Node) :
    chains (Function.update net i node) = Function.update net.chains i node.chain := by
  funext j
  by_cases hj : j = i
  · subst hj
    simp [chains]
  · simp [chains, Function.update_of_ne hj]

/-- A chain's transaction keeps the network sound. -/
theorem Sound.chainStep {bs : List Bytes} (hs : Sound keccak256 d bs net) {i : Fin n}
    {tx : Tx Chain.Call} {s' : Chain}
    (h : (net i).chain.step keccak256 (d i) (net i).verifier.verify tx = some s')
    (hbs : (net i).chain.hashes (d i) tx ⊆ bs) :
    Sound keccak256 d bs (Function.update net i { net i with chain := s' }) := by
  refine ⟨?_, ?_, ?_⟩
  · intro j
    by_cases hj : j = i
    · subst hj
      rw [Function.update_self]
      exact (hs.wired j).step h
    · rw [Function.update_of_ne hj]
      exact hs.wired j
  · -- events are only ever added, so an emitted root stays emitted
    have hgrow : ∀ r, net.chains.Emitted r →
        (chains (Function.update net i { net i with chain := s' })).Emitted r := by
      rintro r ⟨e, he, hr⟩
      rw [chains_update]
      exact ⟨e, (Network.mem_events_update (Chain.step_out h) e).mpr (Or.inl he), hr⟩
    intro j
    by_cases hj : j = i
    · subst hj
      rw [Function.update_self]
      obtain ⟨quorum, counted, distinct⟩ := (hs.trusted j).mono hgrow
      exact ⟨quorum, counted, distinct⟩
    · rw [Function.update_of_ne hj]
      exact (hs.trusted j).mono hgrow
  · intro j e he
    by_cases hj : j = i
    · subst hj
      rw [Function.update_self, Chain.step_out h, List.mem_append] at he
      rcases he with hold | hnew
      · exact hs.rooted j e hold
      · obtain ⟨hmem, hroot⟩ := Chain.root_of_emits hnew
        exact ⟨hbs hmem, hroot⟩
    · rw [Function.update_of_ne hj] at he
      exact hs.rooted j e he

/-- A careful verifier call keeps the network sound. -/
theorem Sound.verifierStep {bs : List Bytes} (hs : Sound keccak256 d bs net) {i : Fin n}
    {zk : Address → Bytes → Option Bytes32} {sender : Address} {call : ProofVerifier.Call}
    {v : ProofVerifier} (h : (net i).verifier.step zk ⟨sender, call⟩ = some v)
    (hcall : (net i).Careful net.chains.Emitted sender call) :
    Sound keccak256 d bs (Function.update net i { net i with
      verifier := v, attested := (net i).attested ++ Node.attests sender call }) := by
  refine ⟨?_, ?_, ?_⟩
  · intro j
    by_cases hj : j = i
    · subst hj
      rw [Function.update_self]
      exact hs.wired j
    · rw [Function.update_of_ne hj]
      exact hs.wired j
  · intro j
    rw [chains_update, show (net i).chain = net.chains i from rfl, Function.update_eq_self]
    by_cases hj : j = i
    · subst hj
      rw [Function.update_self]
      exact (hs.trusted j).verifierStep h hcall
    · rw [Function.update_of_ne hj]
      exact hs.trusted j
  · intro j e he
    by_cases hj : j = i
    · subst hj
      rw [Function.update_self] at he
      exact hs.rooted j e he
    · rw [Function.update_of_ne hj] at he
      exact hs.rooted j e he

/-- In a sound network an accepted arrival is authentic. -/
theorem Sound.authentic {bs : List Bytes} (hs : Sound keccak256 d bs net)
    (hfree : Chain.CollisionFree keccak256 bs) {c : Network.On n Node.Call}
    (h : step keccak256 zk d net c = some net')
    (hbs : hashed d [⟨net, c, net'⟩] ⊆ bs) : Authentic keccak256 d ⟨net, c, net'⟩ := by
  obtain ⟨on, sender, call⟩ := c
  rcases step_cases h with ⟨call, s', rfl, hstep, -⟩ | ⟨call, v, rfl, -⟩
  -- a call on the verifier is no arrival
  swap
  · trivial
  cases call with
  | nft env call => trivial
  | bridgeOut t dst => trivial
  | bridgeIn env t toAddr src dst w dna proof =>
      show Departed d net t toAddr src w dna ∨ (net on).Attested _
      have hverify := (Chain.step_redeems hstep rfl).2 (hs.wired on).verifier
      by_cases hemitted :
          net.chains.Emitted (keccak256 (Chain.preimage t toAddr src w dna))
      · left
        obtain ⟨e, he, hroot⟩ := hemitted
        obtain ⟨i, hi⟩ := Network.mem_events.mp he
        obtain ⟨hmem, hdigest⟩ := hs.rooted i e hi
        have hmem' : Chain.preimage t toAddr src w dna ∈ bs :=
          hbs (by simp [hashed, Chain.hashes])
        obtain ⟨h₁, h₂, h₃, h₄, h₅⟩ :=
          Chain.preimage_inj (hfree _ hmem _ hmem' (hdigest.symm.trans hroot))
        exact ⟨i, h₃, e, hi, h₁, h₂, h₄, h₅⟩
      · right
        exact (hs.trusted on).attested_of_verify hemitted hverify

/-- **When arrivals are authentic.** Every chain has its verifier and no two of the hashed buffers
collide. If every accepted call on a verifier submits a proof of an emitted root, or attests a root
for the first time for its sender, or sets the quorum to two or more, then every accepted arrival is
authentic. -/
theorem arrivals_authentic (keccak256 : Bytes → Bytes32) (d : Fin n → Deployment)
    {verifier : Fin n → Address} (zkAddr : Fin n → Address)
    (other : Fin n → Address → Bytes → Option Bytes32) (hver : ∀ i, verifier i ≠ zeroAddress)
    (cs : List (Network.On n Node.Call))
    (hfree : Chain.CollisionFree keccak256 (hashed d (moves keccak256 d verifier zkAddr other cs)))
    (hcareful : ∀ m ∈ moves keccak256 d verifier zkAddr other cs, Careful m) :
    ∀ m ∈ moves keccak256 d verifier zkAddr other cs, Authentic keccak256 d m := by
  let bs := hashed d (moves keccak256 d verifier zkAddr other cs)
  let ok : NodeMove n → Prop := fun m => hashed d [m] ⊆ bs ∧ Careful m
  let P : VerifiedNetwork n → List (NodeMove n) → Prop := fun net tr =>
    Sound keccak256 d bs net ∧ ∀ m ∈ tr, Authentic keccak256 d m
  suffices hrun : P (exec (revert (step keccak256
      (fun i => Node.zkAt keccak256 (zkAddr i) (other i)) d)) (deploy d verifier zkAddr) cs)
      (moves keccak256 d verifier zkAddr other cs) from hrun.2
  apply trace_induction ok P
  · exact ⟨sound_deploy bs hver, by simp⟩
  · rintro s tr c s' ⟨hs, htr⟩ hstep ⟨hbs, hc⟩
    refine ⟨?_, ?_⟩
    · rcases step_cases hstep with ⟨call, t, hcall, hchain, rfl⟩ | ⟨call, v, hcall, hver, rfl⟩
      · exact hs.chainStep hchain (by simpa [hashed, hcall] using hbs)
      · exact hs.verifierStep hver (by simpa [Careful, CarefulCall, hcall] using hc)
    · intro m hm
      rcases List.mem_append.mp hm with hold | hnew
      · exact htr m hold
      · obtain rfl := List.mem_singleton.mp hnew
        exact hs.authentic hfree hstep hbs
  · intro m hm
    refine ⟨?_, hcareful m hm⟩
    intro b hb
    simp only [hashed, List.flatMap_cons, List.flatMap_nil, List.append_nil] at hb
    exact List.mem_flatMap.mpr ⟨m, hm, hb⟩

/-- The accepted calls of a run on chains 1, 2 and 3. -/
def sampleMoves (cs : List (Network.On 3 Node.Call)) : List (NodeMove 3) :=
  moves Chain.sampleDigest Network.sampleNetwork (fun _ => 12) (fun _ => 13) (fun _ _ _ => none) cs

/-- Account 7's departure for chain 2, attested there by three validators and redeemed. -/
def attestedArrival : List (Network.On 3 Node.Call) :=
  let dna := Chain.sampleDigest (packWord 0 ++ packAddress 7)
  let root := Chain.sampleDigest (Chain.preimage 1 7 1 [1, 2] dna)
  [⟨Network.home, 7, .chain (.nft ⟨0, 0, false⟩ (.hatch [1, 2]))⟩,
    ⟨Network.home, 7, .chain (.nft ⟨0, 0, false⟩ (.approve 11 1))⟩,
    ⟨Network.home, 7, .chain (.bridgeOut 1 2)⟩,
    ⟨Network.abroad, 21, .verifier (.attest root)⟩, ⟨Network.abroad, 22, .verifier (.attest root)⟩,
    ⟨Network.abroad, 23, .verifier (.attest root)⟩,
    ⟨Network.abroad, 8, .chain (.bridgeIn ⟨0, 0, false⟩ 1 7 1 2 [1, 2] dna [])⟩]

theorem arrivals_authentic_seven :
    (sampleMoves attestedArrival).length = 7 ∧
      ∀ m ∈ sampleMoves attestedArrival, Authentic Chain.sampleDigest Network.sampleNetwork m :=
  ⟨by decide +kernel,
    arrivals_authentic _ _ _ _ (by decide) _ (by decide +kernel) (by decide +kernel)⟩

/-- Account 8 proves the root of an invented departure with its packed tuple, and mints. -/
def outsiderArrival : List (Network.On 3 Node.Call) :=
  let tuple := Chain.preimage 5 8 1 [9] 3
  [⟨Network.abroad, 8, .verifier (.submitProof (Chain.sampleDigest tuple) tuple)⟩,
    ⟨Network.abroad, 8, .chain (.bridgeIn ⟨0, 0, false⟩ 5 8 1 2 [9] 3 [])⟩]

/-- Token 5 of nowhere: no bridge announced it, nobody attested it, and account 8 owns it. -/
theorem outsider_mints :
    let tr := sampleMoves outsiderArrival
    (∀ m ∈ tr, m.call.tx.sender = 8) ∧ (∃ m ∈ tr, (m.post 1).chain.nft.ownerOf 5 = 8) ∧
      ¬ ∀ m ∈ tr, Authentic Chain.sampleDigest Network.sampleNetwork m := by
  refine ⟨?_, ?_, ?_⟩ <;> decide +kernel

end VerifiedNetwork

end ChainBeasts.Contracts
