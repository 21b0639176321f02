import ChainBeasts.Pouw.Chain

/-! # What every run of the chain keeps

`Consistent` ties the containers of a `PoUWChain` to its blocks: the indices count them, the
finalized set is the set of their roots, a creature's epochs are `0, 1, 2, …` and `nextEpoch`
holds the next one, and the balances are the sums over a miner's blocks. `finalize_checkpoint` is
the only call that appends, so `append_consistent` is the whole argument. That a block was
attested or proven is a fact about the moment it was appended and is proved against the calls made
so far (`Backed`). -/

namespace ChainBeasts.Pouw

open ChainBeasts.Machine

namespace PoUWChain
variable {F : Type}

/-- The blocks of a creature, in chain order. -/
def blocksOf (s : PoUWChain F) (c : U32) : List (Block F) := s.chain.filter (·.creatureId = c)

/-- The energy spent over a miner's blocks. -/
def spentBy (s : PoUWChain F) (m : String) : Nat :=
  ((s.chain.filter (·.miner = m)).map (·.energySpent.toNat)).sum

structure Consistent (s : PoUWChain F) : Prop where
  index : ∀ i blk, s.chain[i]? = some blk → blk.index = BitVec.ofNat 32 (i + 1)
  roots : (s.chain.map Block.rootHash).Nodup
  finalized : ∀ r, s.finalized r = true ↔ r ∈ s.chain.map Block.rootHash
  epochs : ∀ c, (s.blocksOf c).map Block.epochId =
    (List.range (s.blocksOf c).length).map (BitVec.ofNat 32)
  next : ∀ c, s.nextEpoch c =
    if s.blocksOf c = [] then none else some (BitVec.ofNat 32 (s.blocksOf c).length)
  energy : ∀ m, s.energyBalance m = BitVec.ofNat 64 (s.spentBy m)
  core : ∀ m, s.coreBalance m = BitVec.ofNat 64 (s.spentBy m)

theorem new_consistent (quorum : SizeT) : (new quorum : PoUWChain F).Consistent where
  index := by simp [new]
  roots := by simp [new]
  finalized := by simp [new]
  epochs := by simp [new, blocksOf]
  next := by simp [new, blocksOf]
  energy := by simp [new, energyBalance, spentBy]
  core := by simp [new, coreBalance, spentBy]

/-! ## Appending a block -/

/-- The block `append` adds. -/
def newBlock (s : PoUWChain F) (r : String) (it : Pending F) : Block F :=
  { index := BitVec.ofNat 32 (s.chain.length + 1)
    creatureId := it.creatureId
    epochId := it.epochId
    rootHash := r
    miner := it.miner
    loss := it.loss
    energySpent := it.energySpent }

theorem append_chain (s : PoUWChain F) (r : String) (it : Pending F) :
    (s.append r it).chain = s.chain ++ [s.newBlock r it] := rfl

theorem append_blocksOf (s : PoUWChain F) (r : String) (it : Pending F) (c : U32) :
    (s.append r it).blocksOf c =
      s.blocksOf c ++ if it.creatureId = c then [s.newBlock r it] else [] := by
  simp only [blocksOf, append_chain, List.filter_append, newBlock]
  by_cases h : it.creatureId = c <;> simp [h]

theorem append_spentBy (s : PoUWChain F) (r : String) (it : Pending F) (m : String) :
    (s.append r it).spentBy m =
      s.spentBy m + if it.miner = m then it.energySpent.toNat else 0 := by
  simp only [spentBy, append_chain, List.filter_append, newBlock, List.map_append,
    List.sum_append]
  by_cases h : it.miner = m <;> simp [h]

/-- What a block pays a miner. -/
def reward (it : Pending F) (m : String) : U64 :=
  if it.miner = m then it.energySpent.setWidth 64 else 0

theorem append_energyBalance (s : PoUWChain F) (r : String) (it : Pending F) (m : String) :
    (s.append r it).energyBalance m = s.energyBalance m + reward it m := by
  simp only [energyBalance, append, reward]
  by_cases h : it.miner = m
  · subst h
    simp
  · simp [h, Ne.symm h]

theorem append_coreBalance (s : PoUWChain F) (r : String) (it : Pending F) (m : String) :
    (s.append r it).coreBalance m = s.coreBalance m + reward it m := by
  simp only [coreBalance, append, reward, corePerEnergy]
  by_cases h : it.miner = m
  · subst h
    simp
  · simp [h, Ne.symm h]

/-- A balance that agrees with the sum of the spent energy agrees again after the block. -/
theorem balance_append {b : U64} {n : Nat} (h : b = BitVec.ofNat 64 n) (e : U32) :
    b + e.setWidth 64 = BitVec.ofNat 64 (n + e.toNat) := by
  have hwide : e.setWidth 64 = BitVec.ofNat 64 e.toNat := by
    apply BitVec.eq_of_toNat_eq
    simp
  rw [h, BitVec.ofNat_add, hwide]

/-- **The append lemma.** A block with a fresh root and the expected epoch keeps the containers
consistent. -/
theorem append_consistent {s : PoUWChain F} {r : String} {it : Pending F} (hs : s.Consistent)
    (hfresh : s.finalized r = false) (hepoch : it.epochId = (s.nextEpoch it.creatureId).getD 0) :
    (s.append r it).Consistent := by
  have hexpected : it.epochId = BitVec.ofNat 32 (s.blocksOf it.creatureId).length := by
    rw [hepoch, hs.next]
    split
    · next h => simp [h]
    · rfl
  have hnew : r ∉ s.chain.map Block.rootHash := by
    rw [← hs.finalized, hfresh]
    simp
  refine ⟨?_, ?_, ?_, ?_, ?_, ?_, ?_⟩
  · intro i blk hblk
    rw [append_chain, List.getElem?_append] at hblk
    split at hblk
    · exact hs.index i blk hblk
    · next hi =>
        obtain ⟨h0, rfl⟩ : i - s.chain.length = 0 ∧ s.newBlock r it = blk := by
          simpa [List.getElem?_singleton] using hblk
        have hlen : i = s.chain.length := by omega
        rw [hlen, newBlock]
  · rw [append_chain, List.map_append, List.map_singleton]
    exact List.nodup_append.mpr ⟨hs.roots, by simp, by
      intro a ha b hb
      obtain rfl : b = r := by simpa [newBlock] using hb
      rintro rfl
      exact hnew ha⟩
  · intro q
    rw [append_chain, List.map_append, List.mem_append, ← hs.finalized]
    by_cases hq : q = r
    · simp [append, newBlock, hq]
    · simp [append, newBlock, hq]
  · intro c
    rw [append_blocksOf]
    by_cases hc : it.creatureId = c
    · subst hc
      simp only [if_true, List.map_append, List.length_append, List.length_singleton,
        List.range_succ, hs.epochs it.creatureId, List.map_singleton, newBlock, hexpected]
    · simp [hc, hs.epochs c]
  · intro c
    rw [append_blocksOf]
    by_cases hc : it.creatureId = c
    · subst hc
      simp [append, hexpected, BitVec.ofNat_add]
    · simp [append, hc, Ne.symm hc, hs.next c]
  · intro m
    rw [append_spentBy]
    by_cases hm : it.miner = m
    · subst hm
      simpa [append, energyBalance] using balance_append (hs.energy it.miner) it.energySpent
    · simpa [append, energyBalance, hm, Ne.symm hm] using hs.energy m
  · intro m
    rw [append_spentBy]
    by_cases hm : it.miner = m
    · subst hm
      simpa [append, coreBalance, corePerEnergy] using
        balance_append (hs.core it.miner) it.energySpent
    · simpa [append, coreBalance, hm, Ne.symm hm] using hs.core m

variable [LossValue F]

theorem next_consistent {s : PoUWChain F} (hs : s.Consistent) (c : Call F) :
    (s.next c).Consistent := by
  -- the other calls touch none of the containers `Consistent` speaks of
  cases c with
  | submitCheckpoint => exact ⟨hs.1, hs.2, hs.3, hs.4, hs.5, hs.6, hs.7⟩
  | attest => exact ⟨hs.1, hs.2, hs.3, hs.4, hs.5, hs.6, hs.7⟩
  | submitProof => exact ⟨hs.1, hs.2, hs.3, hs.4, hs.5, hs.6, hs.7⟩
  | finalizeCheckpoint r =>
      rcases s.finalize_checkpoint_cases r with h | ⟨it, -, -, hfin, hepoch, -, h⟩
      · simpa only [next, h] using hs
      · simpa only [next, h] using append_consistent hs hfin hepoch

theorem run_consistent (quorum : SizeT) (cs : List (Call F)) : (run quorum cs).Consistent :=
  run_induction (P := fun (s : PoUWChain F) _ => s.Consistent) (new_consistent quorum)
    (fun _ _ c hs => next_consistent hs c) cs

/-! ## What a block was finalized on -/

/-- The call is an attestation of `r`. -/
def isAttest (r : String) : Call F → Bool
  | .attest rootHash => rootHash == r
  | _ => false

/-- How often `r` was attested in the calls `cs`. -/
def attestations (r : String) (cs : List (Call F)) : Nat := cs.countP (isAttest r)

/-- The counters are bounded by the attestations made, and the quorum is the one of construction. -/
structure Counted (quorum : SizeT) (s : PoUWChain F) (cs : List (Call F)) : Prop where
  quorum : s.validator.quorum = quorum
  counts : ∀ r n, s.validator.counts r = some n → n.toNat ≤ attestations r cs

theorem Counted.next {quorum : SizeT} {s : PoUWChain F} {cs : List (Call F)}
    (hs : Counted quorum s cs) (c : Call F) : Counted quorum (s.next c) (cs ++ [c]) := by
  have hmono : ∀ r, attestations r cs ≤ attestations r (cs ++ [c]) := by
    intro r
    simp [attestations]
  cases c with
  | submitCheckpoint => exact ⟨hs.1, fun r n h => Nat.le_trans (hs.2 r n h) (hmono r)⟩
  | submitProof => exact ⟨hs.1, fun r n h => Nat.le_trans (hs.2 r n h) (hmono r)⟩
  | finalizeCheckpoint r =>
      rcases s.finalize_checkpoint_cases r with h | ⟨it, -, -, -, -, -, h⟩
      · rw [PoUWChain.next, h]
        exact ⟨hs.1, fun r n h => Nat.le_trans (hs.2 r n h) (hmono r)⟩
      · rw [PoUWChain.next, h]
        exact ⟨hs.1, fun r n h => Nat.le_trans (hs.2 r n h) (hmono r)⟩
  | attest q =>
      refine ⟨hs.1, fun r n h => ?_⟩
      simp only [PoUWChain.next, attest, Validator.attest] at h
      by_cases hr : r = q
      · subst hr
        rw [Function.update_self, Option.some.injEq] at h
        have hold : ((s.validator.counts r).getD 0).toNat ≤ attestations r cs := by
          cases hc : s.validator.counts r with
          | none => simp
          | some k => exact hs.2 r k hc
        have hone : attestations r (cs ++ [.attest r]) = attestations r cs + 1 := by
          simp [attestations, isAttest]
        -- the counter may wrap, which only lowers it
        rw [hone, ← h, BitVec.toNat_add]
        exact Nat.le_trans (Nat.mod_le _ _) (Nat.add_le_add_right hold 1)
      · rw [Function.update_of_ne hr] at h
        exact Nat.le_trans (hs.2 r n h) (hmono r)

theorem run_counted (quorum : SizeT) (cs : List (Call F)) :
    Counted quorum (run quorum cs) cs :=
  run_induction (P := Counted quorum) ⟨rfl, fun r n h => by simp [new, Validator.new] at h⟩
    (fun _ _ c hs => hs.next c) cs

theorem quorum_le_attestations {quorum : SizeT} {cs : List (Call F)} {r : String}
    (h : (run quorum cs).validator.hasQuorum r = true) : quorum.toNat ≤ attestations r cs := by
  have hc := run_counted quorum cs
  unfold Validator.hasQuorum at h
  split at h
  · exact absurd h (by simp)
  · next n hn =>
      rw [decide_eq_true_eq, hc.quorum, BitVec.le_def] at h
      exact Nat.le_trans h (hc.counts r n hn)

/-- Block `i` of the chain was appended by a `finalize_checkpoint` of its root among the calls `cs`,
at a moment when the root had a quorum of attestations or was proven. -/
def Backed (quorum : SizeT) (cs : List (Call F)) (i : Nat) (blk : Block F) : Prop :=
  ∃ pre post, cs = pre ++ .finalizeCheckpoint blk.rootHash :: post ∧
    (run quorum pre).chain.length = i ∧
    (quorum.toNat ≤ attestations blk.rootHash pre ∨
      (run quorum pre).proven blk.rootHash = true)

theorem Backed.concat {quorum : SizeT} {cs : List (Call F)} {i : Nat} {blk : Block F}
    (h : Backed quorum cs i blk) (c : Call F) : Backed quorum (cs ++ [c]) i blk := by
  obtain ⟨pre, post, rfl, hi, hb⟩ := h
  exact ⟨pre, post ++ [c], by simp, hi, hb⟩

theorem run_backed (quorum : SizeT) (cs : List (Call F)) :
    ∀ i blk, (run quorum cs).chain[i]? = some blk → Backed quorum cs i blk := by
  induction cs using List.reverseRecOn with
  | nil => intro i blk h; simp [run, new] at h
  | append_singleton cs c ih =>
      intro i blk h
      rw [run, exec_concat, ← run] at h
      cases c with
      | submitCheckpoint => exact (ih i blk h).concat _
      | attest => exact (ih i blk h).concat _
      | submitProof => exact (ih i blk h).concat _
      | finalizeCheckpoint r =>
          rcases (run quorum cs).finalize_checkpoint_cases r with
            hrefused | ⟨it, -, hbacking, -, -, -, happended⟩
          · rw [next, hrefused] at h
            exact (ih i blk h).concat _
          · rw [next, happended, append_chain, List.getElem?_append] at h
            split at h
            · exact (ih i blk h).concat _
            · next hi =>
                obtain ⟨h0, rfl⟩ :
                    i - (run quorum cs).chain.length = 0 ∧ (run quorum cs).newBlock r it = blk := by
                  simpa [List.getElem?_singleton] using h
                exact ⟨cs, [], rfl, by omega, hbacking.imp_left quorum_le_attestations⟩

/-- **Every run.** Whatever is submitted, attested, proven and finalized in whatever order: the
containers agree with the blocks, every block was attested by a quorum or proven when it was
appended, and a refused finalization changes nothing. -/
theorem run_invariants (quorum : SizeT) (cs : List (Call F)) :
    (run quorum cs).Consistent ∧
      (∀ i blk, (run quorum cs).chain[i]? = some blk → Backed quorum cs i blk) ∧
      ∀ r, ((run quorum cs).finalizeCheckpoint r).1 = false →
        ((run quorum cs).finalizeCheckpoint r).2 = run quorum cs := by
  refine ⟨run_consistent quorum cs, run_backed quorum cs, fun r h => ?_⟩
  rcases (run quorum cs).finalize_checkpoint_cases r with hrefused | ⟨it, -, -, -, -, -, happended⟩
  · rw [hrefused]
  · rw [happended] at h
    exact absurd h (by simp)

end PoUWChain

end ChainBeasts.Pouw
