import ChainBeasts.Contracts.BridgeCustody

/-! # One root for each departure?

The root of a departure is the digest of token, owner, chain, weights and dna. Nothing counts: a
token that its owner sends out a second time leaves under the root it left under before, and the
other side has processed that root (`same_root_twice`). The weights and the dna do not help, since a
token that can leave keeps its record for good (`Announced`). So the roots of a run are distinct
exactly when no account sends the same token out twice (`roots_distinct_iff`).

What a root does not lack is a reading: the packed fields cannot be cut in another way
(`arrival_spends_own_claim`). -/

namespace ChainBeasts.Contracts.Chain

open ChainBeasts.Evm ChainBeasts.Machine

/-- An accepted transaction, with the verifier's answers. -/
abbrev Happening := Move Chain ((Bytes32 → Bool) × Tx Call)

/-- The accepted transactions of a run, in order. -/
def moves (keccak256 : Bytes → Bytes32) (d : Deployment) (verifier : Address)
    (txs : List ((Bytes32 → Bool) × Tx Call)) : List Happening :=
  trace (fun s (vtx : (Bytes32 → Bool) × Tx Call) => step keccak256 d vtx.1 s vtx.2)
    (deploy d verifier) txs

/-- The buffers hashed in the transactions `tr`. -/
def hashed (d : Deployment) (tr : List Happening) : List Bytes :=
  tr.flatMap fun m => hashes d m.pre m.call.2

/-- The token that a transaction sends out, and the account that does. -/
def departure (m : Happening) : Option (U256 × Address) :=
  match m.call.2.call with
  | .bridgeOut tokenId _ => some (tokenId, m.call.2.sender)
  | _ => none

/-- The buffer an arrival of the departure hashes, on any chain. -/
def claimed (d : Deployment) (e : BridgeOut) : Bytes :=
  preimage e.tokenId e.owner d.chainId e.genesisWeights e.dna

/-- The departures of `s` carry different roots. So each is redeemable, once, on a bridge that has
redeemed none or some of the earlier ones: its root is not processed yet, and is from then on. -/
structure RootsDistinct (keccak256 : Bytes → Bytes32) (d : Deployment) (s : Chain) : Prop where
  distinct : (s.out.map (·.rootHash)).Nodup
  unblocked : ∀ before e after, s.out = before ++ e :: after → ∀ dest : CreatureNFTBridge,
    (∀ r, dest.processed r = true → ∃ e' ∈ before, e'.rootHash = r) →
    dest.processed (keccak256 (claimed d e)) = false
  once : ∀ e ∈ s.out, ∀ d' verify env dst proof (dest dest' : Chain),
    dest.bridgeIn keccak256 d' verify env e.tokenId e.owner d.chainId dst e.genesisWeights e.dna
      proof = some dest' →
    dest'.bridge.processed (keccak256 (claimed d e)) = true

/-! ## The same root twice -/

/-- Token 1 leaves, is released again by an arrival nobody checks, and leaves for the same chain
once more. -/
def twiceOut : List ((Bytes32 → Bool) × Tx Call) :=
  let dna := sampleDigest (packWord 0 ++ packAddress 7)
  [(fun _ => false, ⟨7, .nft ⟨0, 0, false⟩ (.hatch [1, 2])⟩),
    (fun _ => false, ⟨7, .nft ⟨0, 0, false⟩ (.approve 11 1)⟩),
    (fun _ => false, ⟨7, .bridgeOut 1 2⟩),
    (fun _ => false, ⟨7, .bridgeIn ⟨0, 0, false⟩ 1 7 2 1 [1, 2] dna []⟩),
    (fun _ => false, ⟨7, .nft ⟨0, 0, false⟩ (.approve 11 1)⟩),
    (fun _ => false, ⟨7, .bridgeOut 1 2⟩)]

/-- **The second departure cannot be told from the first**, though no two buffers of the run
collide. -/
theorem same_root_twice : ¬ ∀ keccak256 d verifier txs,
    CollisionFree keccak256 (hashed d (moves keccak256 d verifier txs)) →
    RootsDistinct keccak256 d (run keccak256 d verifier txs) := by
  intro hclaim
  have hroots := hclaim sampleDigest sampleDeployment zeroAddress twiceOut (by decide +kernel)
  have hsame : ¬ ((run sampleDigest sampleDeployment zeroAddress twiceOut).out.map
      (·.rootHash)).Nodup := by
    decide +kernel
  exact hsame hroots.distinct

/-! ## What the events are -/

variable {keccak256 : Bytes → Bytes32} {d : Deployment} {verify : Bytes32 → Bool} {s s' : Chain}
  {tr : List Happening}

/-- The log of the departures so far: who sent what, under which root, with the one record its token
ever has. -/
structure Announced (keccak256 : Bytes → Bytes32) (d : Deployment) (s : Chain)
    (tr : List Happening) : Prop where
  custody : s.Custody d
  sent : s.out.map (fun e => (e.tokenId, e.owner)) = tr.filterMap departure
  roots : ∀ e ∈ s.out, e.rootHash = keccak256 (claimed d e)
  hashed : ∀ e ∈ s.out, claimed d e ∈ hashed d tr
  record : ∀ e ∈ s.out, ∀ e' ∈ s.out, e.tokenId = e'.tokenId → e.record = e'.record

theorem departure_emits {vtx : (Bytes32 → Bool) × Tx Call} (s' : Chain) :
    (emits keccak256 d s vtx.2).map (fun e => (e.tokenId, e.owner)) =
      (departure ⟨s, vtx, s'⟩).toList := by
  obtain ⟨verify, sender, call⟩ := vtx
  cases call with
  | nft env call => rfl
  | bridgeOut t dst => rfl
  | bridgeIn env t toAddr src dst w dna proof => rfl

/-- A transaction emits one event at most. -/
theorem emits_unique {tx : Tx Call} {e e' : BridgeOut} (he : e ∈ emits keccak256 d s tx)
    (he' : e' ∈ emits keccak256 d s tx) : e = e' := by
  obtain ⟨sender, call⟩ := tx
  cases call with
  | bridgeOut t dst => exact (List.mem_singleton.mp he).trans (List.mem_singleton.mp he').symm
  | nft env call => exact absurd he List.not_mem_nil
  | bridgeIn env t toAddr src dst w dna proof => exact absurd he List.not_mem_nil

/-- A departure announces the record its token has always left with. -/
theorem Custody.emits_record (hs : s.Custody d) {tx : Tx Call}
    (h : Chain.step keccak256 d verify s tx = some s') {e e' : BridgeOut}
    (he : e ∈ emits keccak256 d s tx) (he' : e' ∈ s.out) (htoken : e'.tokenId = e.tokenId) :
    e'.record = e.record := by
  obtain ⟨sender, call⟩ := tx
  cases call with
  | nft env call => simp [emits] at he
  | bridgeIn env t toAddr src dst w dna proof => simp [emits] at he
  | bridgeOut t dst =>
      obtain rfl := List.mem_singleton.mp he
      obtain ⟨_, -, hout⟩ := Option.bind_eq_some_iff.mp h
      -- a mirror never leaves, and the record of any other token is the one announced before
      obtain ⟨-, hmirror, -⟩ := bridgeOut_cases hout
      have htoken' : e'.tokenId = t := htoken
      have hrecord := hs.records e' he' (by rw [htoken']; exact hmirror)
      rw [htoken'] at hrecord
      exact hrecord.symm

theorem Announced.step (hs : Announced keccak256 d s tr) {vtx : (Bytes32 → Bool) × Tx Call}
    (h : Chain.step keccak256 d vtx.1 s vtx.2 = some s') :
    Announced keccak256 d s' (tr ++ [⟨s, vtx, s'⟩]) := by
  have hout := step_out h
  have hhashed : Chain.hashed d (tr ++ [⟨s, vtx, s'⟩]) = Chain.hashed d tr ++ hashes d s vtx.2 := by
    simp [Chain.hashed]
  refine ⟨hs.custody.step h, ?_, ?_, ?_, ?_⟩
  · rw [hout, List.map_append, List.filterMap_append, hs.sent, departure_emits s']
    cases hdep : departure ⟨s, vtx, s'⟩ <;> simp [hdep]
  · rw [hout]
    exact List.forall_mem_append.mpr ⟨hs.roots, fun e he => (root_of_emits he).2⟩
  · rw [hout, hhashed]
    refine List.forall_mem_append.mpr ⟨fun e he => ?_, fun e he => ?_⟩
    · exact List.mem_append_left _ (hs.hashed e he)
    · exact List.mem_append_right _ (root_of_emits he).1
  · rw [hout]
    intro e he e' he' htoken
    rcases List.mem_append.mp he with hold | hnew
    · rcases List.mem_append.mp he' with hold' | hnew'
      · exact hs.record e hold e' hold' htoken
      · exact hs.custody.emits_record h hnew' hold htoken
    · rcases List.mem_append.mp he' with hold' | hnew'
      · exact (hs.custody.emits_record h hnew hold' htoken.symm).symm
      · rw [emits_unique hnew hnew']

theorem run_announced (keccak256 : Bytes → Bytes32) (d : Deployment) (verifier : Address)
    (txs : List ((Bytes32 → Bool) × Tx Call)) :
    Announced keccak256 d (run keccak256 d verifier txs) (moves keccak256 d verifier txs) := by
  apply trace_run_induction (P := Announced keccak256 d)
  · refine ⟨deploy_custody d verifier, rfl, ?_, ?_, ?_⟩
    all_goals
      intro e he
      exact absurd he List.not_mem_nil
  · intro s tr vtx s' hs h
    exact hs.step h

/-! ## When the roots are distinct -/

/-- Two departures have one root when they have one token and one owner, and only then. -/
theorem Announced.root_eq_iff (hs : Announced keccak256 d s tr)
    (hfree : CollisionFree keccak256 (Chain.hashed d tr)) {e e' : BridgeOut} (he : e ∈ s.out)
    (he' : e' ∈ s.out) :
    e.rootHash = e'.rootHash ↔ (e.tokenId, e.owner) = (e'.tokenId, e'.owner) := by
  rw [hs.roots e he, hs.roots e' he', Prod.mk.injEq]
  constructor
  · intro hroot
    have hsame := hfree _ (hs.hashed e he) _ (hs.hashed e' he') hroot
    obtain ⟨htoken, howner, -⟩ := preimage_inj hsame
    exact ⟨htoken, howner⟩
  · rintro ⟨htoken, howner⟩
    obtain ⟨hweights, hdna⟩ := Creature.mk.inj (hs.record e he e' he' htoken)
    rw [claimed, claimed, htoken, howner, hweights, hdna]

theorem Announced.nodup_iff (hs : Announced keccak256 d s tr)
    (hfree : CollisionFree keccak256 (Chain.hashed d tr)) :
    (s.out.map (·.rootHash)).Nodup ↔ (tr.filterMap departure).Nodup := by
  rw [← hs.sent, List.Nodup, List.Nodup, List.pairwise_map, List.pairwise_map]
  apply List.Pairwise.iff_of_mem
  intro e e' he he'
  exact not_congr (hs.root_eq_iff hfree he he')

/-- **When every departure has its own root.** Where no two buffers of the run collide: exactly when
no account has sent the same token out twice. -/
theorem roots_distinct_iff (keccak256 : Bytes → Bytes32) (d : Deployment) (verifier : Address)
    (txs : List ((Bytes32 → Bool) × Tx Call))
    (hfree : CollisionFree keccak256 (hashed d (moves keccak256 d verifier txs))) :
    RootsDistinct keccak256 d (run keccak256 d verifier txs) ↔
      ((moves keccak256 d verifier txs).filterMap departure).Nodup := by
  have hs := run_announced keccak256 d verifier txs
  rw [← hs.nodup_iff hfree]
  refine ⟨RootsDistinct.distinct, fun hdistinct => ⟨hdistinct, ?_, ?_⟩⟩
  · intro before e after hsplit dest hdest
    have he : e ∈ (run keccak256 d verifier txs).out := by
      rw [hsplit]
      exact List.mem_append_right _ List.mem_cons_self
    rw [← hs.roots e he]
    by_contra hprocessed
    obtain ⟨e', he', hroot⟩ := hdest _ (by simpa using hprocessed)
    rw [hsplit, List.map_append, List.map_cons] at hdistinct
    obtain ⟨-, -, hapart⟩ := List.nodup_append.mp hdistinct
    exact hapart _ (List.mem_map_of_mem he') _ List.mem_cons_self hroot
  · intro e he d' verify env dst proof dest dest' h
    obtain ⟨-, -, -, hproc, -⟩ := bridgeIn_cases h
    rw [hproc]
    exact Function.update_self _ _ _

/-- Token 1 leaves once. -/
theorem roots_distinct_once :
    RootsDistinct sampleDigest sampleDeployment
      (run sampleDigest sampleDeployment zeroAddress (twiceOut.take 3)) :=
  (roots_distinct_iff _ _ _ _ (by decide +kernel)).mpr (by decide +kernel)

/-! ## A buffer has one reading

The weights are the one field without a fixed width, and they stand between fields that have one. So
the two ends of a buffer are where they are whatever its length (`Packed.encode_inj`), and an arrival
spends the root of its own fields only. -/

/-- What a departure announces is the digest of the fields it announces. -/
theorem bridgeOut_root {sender : Address} {t dst : U256}
    (h : s.bridgeOut keccak256 d sender t dst = some s') :
    ∃ e, s'.out = s.out ++ [e] ∧ e.tokenId = t ∧ e.owner = sender ∧
      e.record = s.nft.creatures t ∧ e.rootHash = keccak256 (claimed d e) := by
  obtain ⟨-, -, rfl⟩ := bridgeOut_cases h
  exact ⟨_, rfl, rfl, rfl, rfl, rfl⟩

theorem preimage_eq_iff {t u : U256} {a b : Address} {src src' : U256} {w₁ w₂ : Bytes}
    {dna dna' : Bytes32} : preimage t a src w₁ dna = preimage u b src' w₂ dna' ↔
      t = u ∧ a = b ∧ src = src' ∧ w₁ = w₂ ∧ dna = dna' := by
  refine ⟨preimage_inj, ?_⟩
  rintro ⟨rfl, rfl, rfl, rfl, rfl⟩
  rfl

/-- The root of an arrival, and no other root, is marked by it. -/
theorem bridgeIn_marks {env : CreatureNFT.Env} {t src dst : U256} {toAddr : Address}
    {w proof buffer : Bytes} {dna : Bytes32}
    (h : s.bridgeIn keccak256 d verify env t toAddr src dst w dna proof = some s')
    (hfree : CollisionFree keccak256 [preimage t toAddr src w dna, buffer]) :
    s'.bridge.processed (keccak256 buffer) = true ↔
      s.bridge.processed (keccak256 buffer) = true ∨ preimage t toAddr src w dna = buffer := by
  obtain ⟨-, -, -, hproc, -⟩ := bridgeIn_cases h
  rw [hproc]
  by_cases hroot : keccak256 buffer = keccak256 (preimage t toAddr src w dna)
  · have hsame : buffer = preimage t toAddr src w dna := by
      apply hfree _ _ _ _ hroot
      · exact List.mem_cons_of_mem _ (List.mem_singleton_self _)
      · exact List.mem_cons_self
    simp [hsame]
  · have hother : preimage t toAddr src w dna ≠ buffer := fun hsame =>
      hroot (congrArg keccak256 hsame.symm)
    rw [Function.update_of_ne hroot]
    simp [hother]

/-- **No shifted boundaries.** Equal buffers have equal fields, whatever the lengths of the weights.
So an arrival spends its own claim only: a root announced by any departure, or claimed by any other
arrival, with which the digest does not collide, is as open after it as before unless token, account,
source chain, weights and dna are all the same. -/
theorem arrival_spends_own_claim (keccak256 : Bytes → Bytes32) :
    (∀ t u a b src src' w₁ w₂ dna dna',
      preimage t a src w₁ dna = preimage u b src' w₂ dna' →
        t = u ∧ a = b ∧ src = src' ∧ w₁ = w₂ ∧ dna = dna') ∧
    (∀ d sender t dst (s s' : Chain), s.bridgeOut keccak256 d sender t dst = some s' →
      ∃ e, s'.out = s.out ++ [e] ∧ e.tokenId = t ∧ e.owner = sender ∧
        e.record = s.nft.creatures t ∧ e.rootHash = keccak256 (claimed d e)) ∧
    ∀ d verify env t a src dst w₁ dna proof (s s' : Chain),
      s.bridgeIn keccak256 d verify env t a src dst w₁ dna proof = some s' →
      ∀ u b src' w₂ dna',
        CollisionFree keccak256 [preimage t a src w₁ dna, preimage u b src' w₂ dna'] →
        (s'.bridge.processed (keccak256 (preimage u b src' w₂ dna')) = true ↔
          s.bridge.processed (keccak256 (preimage u b src' w₂ dna')) = true ∨
            t = u ∧ a = b ∧ src = src' ∧ w₁ = w₂ ∧ dna = dna') := by
  refine ⟨?_, ?_, ?_⟩
  · intro t u a b src src' w₁ w₂ dna dna' h
    exact preimage_inj h
  · intro d sender t dst s s' h
    exact bridgeOut_root h
  · intro d verify env t a src dst w₁ dna proof s s' h u b src' w₂ dna' hfree
    rw [← preimage_eq_iff]
    exact bridgeIn_marks h hfree

/-- The arrival of token 5 with weights `[1, 2]` leaves a claim of weights `[1]` open. -/
theorem arrival_spends_own_claim_five :
    (run sampleDigest sampleDeployment zeroAddress
      [(fun _ => false, ⟨7, .bridgeIn ⟨0, 0, false⟩ 5 7 2 1 [1, 2] 3 []⟩)]).bridge.processed
        (sampleDigest (preimage 5 7 2 [1] 3)) ≠ true := by
  intro h
  have hspent := ((arrival_spends_own_claim sampleDigest).2.2 sampleDeployment (fun _ => false)
    ⟨0, 0, false⟩ 5 7 2 1 [1, 2] 3 [] (deploy sampleDeployment zeroAddress) _ rfl 5 7 2 [1] 3
    (by decide +kernel)).mp h
  obtain hopen | ⟨-, -, -, hweights, -⟩ := hspent
  · exact absurd hopen (by decide)
  · exact absurd hweights (by decide)

end ChainBeasts.Contracts.Chain
