import ChainBeasts.Contracts.BridgeCustody
import ChainBeasts.Contracts.BridgeNetwork

/-! # Where a genome comes from

A creature's weights and dna are written when it is hatched or bred. A bridge announces them with a
departure, and whoever makes the arrival on another chain repeats them; the receiving bridge writes
what it is told. The root binds them, so on every chain of a network whose verifiers know what was
emitted, a token that has an owner carries a genome that a token of its id was born with
(`genomes_born`). -/

namespace ChainBeasts.Contracts

open ChainBeasts.Evm ChainBeasts.Machine

/-! ## One call -/

namespace CreatureNFT

/-- The call has given out the id `t`. -/
def Births (s s' : CreatureNFT) (t : U256) : Prop := s.nextId = t ∧ s'.hatched = s.hatched ++ [t]

end CreatureNFT

namespace Chain

variable {keccak256 : Bytes → Bytes32} {d : Deployment} {s s' : Chain} {t : U256}

/-- **A user's call.** A token with an owner was born in it, or had an owner before and the same
record. -/
theorem Settled.user_genome (hs : s.Settled d) {sender : Address} (hu : IsUser d sender)
    {env : CreatureNFT.Env} {call : CreatureNFT.Call} {nft : CreatureNFT}
    (h : s.nft.step keccak256 d.nftAddr env sender call = some nft)
    (howned : nft.ownerOf t ≠ zeroAddress) :
    s.nft.Births nft t ∨
      s.nft.ownerOf t ≠ zeroAddress ∧ nft.creatures t = s.nft.creatures t := by
  have huser : sender ≠ s.nft.bridge := by
    rw [hs.bridge]
    exact hu.2.2
  have hset : s.nft.bridge ≠ zeroAddress := by
    rw [hs.bridge]
    exact d.bridge_ne_zero
  obtain ⟨hmove, -⟩ := CreatureNFT.step_user hset huser h
  have hkept : s.nft.ownerOf t ≠ zeroAddress → nft.creatures t = s.nft.creatures t := by
    intro hbefore
    apply CreatureNFT.user_creature huser h
    rintro rfl
    exact hbefore (hs.fresh _ (Nat.le_refl _))
  cases hmove with
  | quiet owners approvals ids log =>
      rw [owners] at howned
      exact Or.inr ⟨howned, hkept howned⟩
  | approved u toAddr owner owners approvals ids log =>
      rw [owners] at howned
      exact Or.inr ⟨howned, hkept howned⟩
  | moved u toAddr auth owners approvals ids log =>
      have hbefore : s.nft.ownerOf t ≠ zeroAddress := by
        by_cases htu : t = u
        · rw [htu]
          exact (hs.circulates_of_auth hu auth).1
        · rwa [owners, Function.update_of_ne htu] at howned
      exact Or.inr ⟨hbefore, hkept hbefore⟩
  | hatched owner owners approvals ids log =>
      by_cases ht : t = s.nft.nextId
      · subst ht
        exact Or.inl ⟨rfl, log⟩
      · rw [owners, Function.update_of_ne ht] at howned
        exact Or.inr ⟨howned, hkept howned⟩

theorem owned_of_update {owners : U256 → Address} {u : U256} {toAddr : Address}
    (h : Function.update owners u toAddr t ≠ zeroAddress) (htu : t ≠ u) :
    owners t ≠ zeroAddress := by
  rwa [Function.update_of_ne htu] at h

/-- What an accepted transaction can do to the record of a token that has an owner afterwards. -/
theorem Settled.genome_cases (hs : s.Settled d) {verify : Bytes32 → Bool} {tx : Tx Call}
    (h : Chain.step keccak256 d verify s tx = some s') (howned : s'.nft.ownerOf t ≠ zeroAddress) :
    s.nft.Births s'.nft t ∨
      s.nft.ownerOf t ≠ zeroAddress ∧ s'.nft.creatures t = s.nft.creatures t ∨
      ∃ env toAddr src dst w dna proof, tx.call = .bridgeIn env t toAddr src dst w dna proof ∧
        s'.nft.creatures t = ⟨w, dna⟩ := by
  obtain ⟨hu, hcall⟩ := step_cases h
  rcases hcall with ⟨env, call, nft, -, rfl, hnft⟩ | ⟨u, dst, -, hout⟩ |
    ⟨env, u, toAddr, src, dst, w, dna, proof, hc, hin⟩
  · rcases hs.user_genome hu hnft howned with hborn | hkept
    · exact Or.inl hborn
    · exact Or.inr (Or.inl hkept)
  · obtain ⟨howner, -, rfl⟩ := bridgeOut_cases hout
    refine Or.inr (Or.inl ⟨?_, rfl⟩)
    by_cases htu : t = u
    · rw [htu, howner]
      exact hu.1
    · exact owned_of_update howned htu
  · obtain ⟨-, -, -, -, -, hcase⟩ := bridgeIn_cases hin
    rcases hcase with ⟨-, hmove, -⟩ | ⟨-, hmint, -⟩
    · -- a locked token keeps its record
      obtain ⟨howner, -, hnft⟩ := CreatureNFT.transferFrom_cases hmove
      rw [hnft] at howned ⊢
      refine Or.inr (Or.inl ⟨?_, rfl⟩)
      by_cases htu : t = u
      · rw [htu, howner]
        exact d.bridge_ne_zero
      · exact owned_of_update howned htu
    · obtain ⟨-, -, nextId, -, hnft⟩ := CreatureNFT.mintFromBridge_cases hmint
      rw [hnft] at howned ⊢
      by_cases htu : t = u
      · subst htu
        exact Or.inr (Or.inr ⟨env, toAddr, src, dst, w, dna, proof, hc, Function.update_self _ _ _⟩)
      · refine Or.inr (Or.inl ⟨?_, Function.update_of_ne htu _ _⟩)
        exact owned_of_update howned htu

/-- The log of the hatchings only grows. -/
theorem Settled.hatched_grows (hs : s.Settled d) {verify : Bytes32 → Bool} {tx : Tx Call}
    (h : Chain.step keccak256 d verify s tx = some s') :
    ∃ new, s'.nft.hatched = s.nft.hatched ++ new := by
  obtain ⟨hu, hcall⟩ := step_cases h
  rcases hcall with ⟨env, call, nft, -, rfl, hnft⟩ | ⟨u, dst, -, hout⟩ |
    ⟨env, u, toAddr, src, dst, w, dna, proof, -, hin⟩
  · obtain ⟨hmove, -⟩ := CreatureNFT.step_user (by rw [hs.bridge]; exact d.bridge_ne_zero)
      (by rw [hs.bridge]; exact hu.2.2) hnft
    cases hmove with
    | quiet _ _ _ log => exact ⟨[], by rw [log, List.append_nil]⟩
    | approved _ _ _ _ _ _ log => exact ⟨[], by rw [log, List.append_nil]⟩
    | moved _ _ _ _ _ _ log => exact ⟨[], by rw [log, List.append_nil]⟩
    | hatched _ _ _ _ log => exact ⟨[s.nft.nextId], log⟩
  · obtain ⟨-, -, rfl⟩ := bridgeOut_cases hout
    exact ⟨[], (List.append_nil _).symm⟩
  · obtain ⟨-, hhatched, -⟩ := bridgeIn_owner hs.bridge hin
    exact ⟨[], by rw [hhatched, List.append_nil]⟩

/-- A token that is announced has an owner. -/
theorem owned_of_emits {verify : Bytes32 → Bool} {tx : Tx Call} {e : BridgeOut}
    (h : Chain.step keccak256 d verify s tx = some s') (he : e ∈ emits keccak256 d s tx) :
    s.nft.ownerOf e.tokenId ≠ zeroAddress ∧ e.record = s.nft.creatures e.tokenId := by
  obtain ⟨sender, call⟩ := tx
  obtain ⟨hu, hcall⟩ := step_cases h
  rcases hcall with ⟨env, call, nft, rfl, -, -⟩ | ⟨u, dst, rfl, hout⟩ |
    ⟨env, u, toAddr, src, dst, w, dna, proof, rfl, -⟩
  · simp [emits] at he
  · obtain ⟨howner, -, -⟩ := bridgeOut_cases hout
    obtain rfl := List.mem_singleton.mp he
    exact ⟨howner ▸ hu.1, rfl⟩
  · simp [emits] at he

end Chain

/-! ## The network -/

namespace Network

variable {n : Nat} {keccak256 : Bytes → Bytes32} {d : Fin n → Deployment} {net net' : Network n}
  {t : U256} {c : Creature}

/-- One of the moves hatched or bred a token `t` with the genome `c`. -/
def Born (tr : List (NetworkMove n)) (t : U256) (c : Creature) : Prop :=
  ∃ m ∈ tr, (m.pre m.call.on).nft.Births (m.post m.call.on).nft t ∧
    (m.post m.call.on).nft.creatures t = c

theorem Born.append {tr more : List (NetworkMove n)} (h : Born tr t c) : Born (tr ++ more) t c := by
  obtain ⟨m, hm, hbirth⟩ := h
  exact ⟨m, List.mem_append_left _ hm, hbirth⟩

/-- The state `net` reached by the moves `tr`, whose buffers are among `bs`: every genome was born,
and every event has one and the root of it. -/
structure Genomes (keccak256 : Bytes → Bytes32) (d : Fin n → Deployment) (bs : List Bytes)
    (net : Network n) (tr : List (NetworkMove n)) : Prop where
  wired : ∀ i, (net i).Wired (d i)
  owned : ∀ i t, (net i).nft.ownerOf t ≠ zeroAddress → Born tr t ((net i).nft.creatures t)
  announced : ∀ e ∈ net.events, Born tr e.tokenId e.record
  roots : ∀ e ∈ net.events, ∃ src,
    Chain.preimage e.tokenId e.owner src e.genesisWeights e.dna ∈ bs ∧
      e.rootHash = keccak256 (Chain.preimage e.tokenId e.owner src e.genesisWeights e.dna)
  counted : ∀ t c, Born tr t c → 0 < net.hatches t
  unique : ∀ t, net.hatches t ≤ 1 → ∀ c c', Born tr t c → Born tr t c' → c = c'

theorem genomes_deploy (bs : List Bytes) {verifier : Fin n → Address}
    (hver : ∀ i, verifier i ≠ zeroAddress) :
    Genomes keccak256 d bs (deploy d verifier) [] where
  wired i := Chain.deploy_wired (hver i)
  owned i t h := absurd rfl h
  announced e he := by simp [mem_events, deploy, Chain.deploy] at he
  roots e he := by simp [mem_events, deploy, Chain.deploy] at he
  counted t c h := by simp [Born] at h
  unique t _ c c' h := by simp [Born] at h

/-- A genome told with an arrival that the verifier accepts is one that was announced. -/
theorem Genomes.verified {bs : List Bytes} {tr : List (NetworkMove n)}
    (hs : Genomes keccak256 d bs net tr) (hfree : Chain.CollisionFree keccak256 bs)
    {toAddr : Address} {src : U256} {w : Bytes} {dna : Bytes32}
    (hbs : Chain.preimage t toAddr src w dna ∈ bs)
    (hemitted : net.Emitted (keccak256 (Chain.preimage t toAddr src w dna))) :
    Born tr t ⟨w, dna⟩ := by
  obtain ⟨e, he, hroot⟩ := hemitted
  obtain ⟨src', hmem, hdigest⟩ := hs.roots e he
  have hsame := hfree _ hmem _ hbs (hdigest.symm.trans hroot)
  obtain ⟨htoken, -, -, hweights, hdna⟩ := Chain.preimage_inj hsame
  have hborn := hs.announced e he
  rwa [htoken, BridgeOut.record, hweights, hdna] at hborn

/-- A hatching more on one chain is one more in the network. -/
theorem hatches_update (i : Fin n) (s' : Chain) (t : U256) :
    hatches (Function.update net i s') t + (net i).hatches t = net.hatches t + s'.hatches t :=
  sum_update (fun _ (s : Chain) => s.hatches t) net i s'

/-- **One transaction.** -/
theorem Genomes.step {bs : List Bytes} {tr : List (NetworkMove n)} {c : On n Chain.Call}
    (hs : Genomes keccak256 d bs net tr) (hfree : Chain.CollisionFree keccak256 bs)
    (h : step keccak256 d net c = some net') (hbs : (net c.on).hashes (d c.on) c.tx ⊆ bs) :
    Genomes keccak256 d bs net' (tr ++ [⟨net, c, net'⟩]) := by
  have hwired := step_wired hs.wired h
  have hevents := mem_events_step h
  obtain ⟨s', hstep, rfl⟩ := step_cases h
  have hsettled := (hs.wired c.on).settled
  obtain ⟨new, hnew⟩ := hsettled.hatched_grows hstep
  have hcount : ∀ t, hatches (Function.update net c.on s') t = net.hatches t + new.count t := by
    intro t
    have hsum : _ + (net c.on).hatches t = net.hatches t + s'.hatches t :=
      hatches_update c.on s' t
    have hgrown : s'.hatches t = (net c.on).hatches t + new.count t := by
      rw [Chain.hatches, hnew, List.count_append]
      rfl
    omega
  -- a birth is one of before, or this one
  have hbirth : ∀ t x, Born (tr ++ [⟨net, c, Function.update net c.on s'⟩]) t x →
      Born tr t x ∨ new = [t] ∧ s'.nft.creatures t = x := by
    rintro t x ⟨m, hm, hb, hx⟩
    rcases List.mem_append.mp hm with hold | hlast
    · exact Or.inl ⟨m, hold, hb, hx⟩
    · right
      rw [List.mem_singleton.mp hlast] at hb hx
      simp only [Function.update_self] at hb hx
      exact ⟨List.append_cancel_left (hnew.symm.trans hb.2), hx⟩
  refine ⟨hwired, ?_, ?_, ?_, ?_, ?_⟩
  · intro i t howned
    by_cases hi : i = c.on
    · subst hi
      rw [Function.update_self] at howned ⊢
      rcases hsettled.genome_cases hstep howned with hb | ⟨hbefore, hkept⟩ |
        ⟨env, toAddr, src, dst, w, dna, proof, hcall, hrecord⟩
      · have hpost : Function.update net c.on s' c.on = s' := Function.update_self _ _ _
        refine ⟨_, List.mem_append_right _ (List.mem_singleton_self _), ?_, ?_⟩
        · show (net c.on).nft.Births (Function.update net c.on s' c.on).nft t
          rwa [hpost]
        · show (Function.update net c.on s' c.on).nft.creatures t = s'.nft.creatures t
          rw [hpost]
      · rw [hkept]
        exact (hs.owned _ t hbefore).append
      · rw [hrecord]
        have hredeems : Chain.redeems keccak256 c.tx.call =
            some (t, keccak256 (Chain.preimage t toAddr src w dna)) := by
          rw [hcall]
          rfl
        have haccepted := (Chain.step_redeems hstep hredeems).2 (hs.wired c.on).verifier
        refine (hs.verified hfree (hbs ?_) (of_decide_eq_true haccepted)).append
        rw [Chain.hashes, hcall]
        exact List.mem_singleton_self _
    · rw [Function.update_of_ne hi] at howned ⊢
      exact (hs.owned i t howned).append
  · intro e he
    rcases (hevents e).mp he with hold | hemitted
    · exact (hs.announced e hold).append
    · obtain ⟨howned, hrecord⟩ := Chain.owned_of_emits hstep hemitted
      rw [hrecord]
      exact (hs.owned c.on _ howned).append
  · intro e he
    rcases (hevents e).mp he with hold | hemitted
    · exact hs.roots e hold
    · obtain ⟨hmem, hroot⟩ := Chain.root_of_emits hemitted
      exact ⟨_, hbs hmem, hroot⟩
  · intro t x hb
    rw [hcount]
    rcases hbirth t x hb with hold | ⟨hone, -⟩
    · have hpos := hs.counted t x hold
      omega
    · rw [hone, List.count_singleton_self]
      omega
  · intro t hle x x' hx hx'
    rw [hcount] at hle
    have hnone : new = [t] → ∀ y, ¬ Born tr t y := by
      intro hone y hy
      have hpos := hs.counted t y hy
      rw [hone, List.count_singleton_self] at hle
      omega
    rcases hbirth t x hx with hold | ⟨hone, hnow⟩
    · rcases hbirth t x' hx' with hold' | ⟨hone, -⟩
      · exact hs.unique t (by omega) x x' hold hold'
      · exact absurd hold (hnone hone x)
    · rcases hbirth t x' hx' with hold' | ⟨-, hnow'⟩
      · exact absurd hold' (hnone hone x')
      · exact hnow.symm.trans hnow'

theorem genomes_run {verifier : Fin n → Address} (hver : ∀ i, verifier i ≠ zeroAddress)
    (cs : List (On n Chain.Call))
    (hfree : Chain.CollisionFree keccak256 (hashed d (moves keccak256 d verifier cs))) :
    Genomes keccak256 d (hashed d (moves keccak256 d verifier cs)) (run keccak256 d verifier cs)
      (moves keccak256 d verifier cs) := by
  let ok : NetworkMove n → Prop := fun m =>
    (m.pre m.call.on).hashes (d m.call.on) m.call.tx ⊆ hashed d (moves keccak256 d verifier cs)
  apply trace_induction ok (Genomes keccak256 d (hashed d (moves keccak256 d verifier cs)))
  · exact genomes_deploy _ hver
  · intro s tr c s' hs hstep hbs
    exact hs.step hfree hstep hbs
  · intro m hm
    exact fun b hb => List.mem_flatMap.mpr ⟨m, hm, hb⟩

/-- Wherever a token has an owner, its weights and dna are those that a token of this id was hatched
or bred with on some chain; and if that happened once, they are the same on every chain. -/
def Inborn (net : Network n) (tr : List (NetworkMove n)) : Prop :=
  (∀ i t, (net i).nft.ownerOf t ≠ zeroAddress → Born tr t ((net i).nft.creatures t)) ∧
    ∀ t, net.hatches t ≤ 1 → ∀ i j, (net i).nft.ownerOf t ≠ zeroAddress →
      (net j).nft.ownerOf t ≠ zeroAddress → (net i).nft.creatures t = (net j).nft.creatures t

/-- **A genome is inborn**, in every run of a network where every chain has a verifier and no two of
the buffers hashed collide. -/
theorem genomes_born (keccak256 : Bytes → Bytes32) (d : Fin n → Deployment)
    {verifier : Fin n → Address} (hver : ∀ i, verifier i ≠ zeroAddress) (cs : List (On n Chain.Call))
    (hfree : Chain.CollisionFree keccak256 (hashed d (moves keccak256 d verifier cs))) :
    Inborn (run keccak256 d verifier cs) (moves keccak256 d verifier cs) := by
  have hs := genomes_run hver cs hfree
  refine ⟨hs.owned, ?_⟩
  intro t hle i j hi hj
  exact hs.unique t hle _ _ (hs.owned i t hi) (hs.owned j t hj)

/-- Token 1 of account 7 is locked on chain 1 and a mirror on chain 2. -/
theorem genomes_born_seven :
    Inborn (run Chain.sampleDigest sampleNetwork (fun _ => 12)
        (departureOfSeven ++ [⟨1, arrivalOfSeven⟩]))
      (moves Chain.sampleDigest sampleNetwork (fun _ => 12)
        (departureOfSeven ++ [⟨1, arrivalOfSeven⟩])) :=
  genomes_born _ _ (by decide) _ (by decide +kernel)

end Network

end ChainBeasts.Contracts
