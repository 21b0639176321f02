import ChainBeasts.Interleaving
import ChainBeasts.Pouw.LossRule
import Mathlib.Data.Set.Basic

/-! # Programs on disjoint roots and creatures do not disturb each other

The containers of a `PoUWChain` are keyed by root or by creature, except for the chain and the
balances. `Joined` puts a chain together from two: each is matched on its own roots and creatures,
and the balances add up. A call acts on the part it belongs to (`Matches.own`) and leaves the other
part matched (`Matches.frame`), which is what the interleaving rule asks for
(`interleaving_independent`). -/

namespace ChainBeasts.Pouw

open ChainBeasts.Interleaving

namespace PoUWChain
variable {F : Type}

/-- What a call answers, and the state it leaves. Only `finalize_checkpoint` answers. -/
def answer [LossValue F] (s : PoUWChain F) (c : Call F) : Option Bool × PoUWChain F :=
  match c with
  | .finalizeCheckpoint rootHash => (some (s.finalizeCheckpoint rootHash).1, s.next c)
  | _ => (none, s.next c)

/-- The root a call names. -/
def Call.root : Call F → String
  | .submitCheckpoint _ _ rootHash _ _ _ => rootHash
  | .attest rootHash => rootHash
  | .submitProof rootHash => rootHash
  | .finalizeCheckpoint rootHash => rootHash

/-- The creature a call names, if it names one. -/
def Call.creature : Call F → Option U32
  | .submitCheckpoint creatureId _ _ _ _ _ => some creatureId
  | _ => none

/-- The blocks of a creature in chain order, without their indices. -/
def subchain (s : PoUWChain F) (c : U32) : List (Block F) :=
  (s.blocksOf c).map fun blk => { blk with index := 0 }

/-! ## The parts of a chain -/

/-- The roots and creatures that belong to a part. -/
structure Part where
  roots : Set String
  creatures : Set U32

/-- The call belongs to the part. -/
def Part.Has (A : Part) (c : Call F) : Prop :=
  c.root ∈ A.roots ∧ ∀ k ∈ c.creature, k ∈ A.creatures

/-- `s` and `t` agree on the roots and creatures of the part, and the checkpoints that wait under
its roots are of its creatures. -/
structure Matches (A : Part) (s t : PoUWChain F) : Prop where
  quorum : s.validator.quorum = t.validator.quorum
  counts : ∀ r ∈ A.roots, s.validator.counts r = t.validator.counts r
  pending : ∀ r ∈ A.roots, s.pending r = t.pending r
  finalized : ∀ r ∈ A.roots, s.finalized r = t.finalized r
  proven : ∀ r ∈ A.roots, s.proven r = t.proven r
  nextEpoch : ∀ k ∈ A.creatures, s.nextEpoch k = t.nextEpoch k
  lastLoss : ∀ k ∈ A.creatures, s.lastLoss k = t.lastLoss k
  subchain : ∀ k ∈ A.creatures, s.subchain k = t.subchain k
  owned : ∀ r ∈ A.roots, ∀ it, t.pending r = some it → it.creatureId ∈ A.creatures

variable {A B : Part} {s t : PoUWChain F} {r : String} {it : Pending F}

theorem append_subchain (s : PoUWChain F) (r : String) (it : Pending F) (k : U32) :
    (s.append r it).subchain k = s.subchain k ++
      if it.creatureId = k then
        [⟨0, it.creatureId, it.epochId, r, it.miner, it.loss, it.energySpent⟩] else [] := by
  simp only [subchain, append_blocksOf, List.map_append]
  by_cases h : it.creatureId = k
  · simp [h, newBlock]
  · simp [h]

/-- A block of the part is appended on both sides. -/
theorem Matches.append (h : Matches A s t) : Matches A (s.append r it) (t.append r it) where
  quorum := h.quorum
  counts := h.counts
  pending q hq := by
    by_cases hqr : q = r
    · simp [PoUWChain.append, hqr]
    · simp [PoUWChain.append, hqr, h.pending q hq]
  finalized q hq := by
    by_cases hqr : q = r
    · simp [PoUWChain.append, hqr]
    · simp [PoUWChain.append, hqr, h.finalized q hq]
  proven q hq := by
    by_cases hqr : q = r
    · simp [PoUWChain.append, hqr]
    · simp [PoUWChain.append, hqr, h.proven q hq]
  nextEpoch k hk := by
    by_cases hki : k = it.creatureId
    · simp [PoUWChain.append, hki]
    · simp [PoUWChain.append, hki, h.nextEpoch k hk]
  lastLoss k hk := by
    by_cases hki : k = it.creatureId
    · simp [PoUWChain.append, hki]
    · simp [PoUWChain.append, hki, h.lastLoss k hk]
  subchain k hk := by
    rw [append_subchain, append_subchain, h.subchain k hk]
  owned q hq other hother := by
    by_cases hqr : q = r
    · simp [PoUWChain.append, hqr] at hother
    · simp only [PoUWChain.append, Function.update_of_ne hqr] at hother
      exact h.owned q hq other hother

/-- A block of another part is appended on one side. -/
theorem Matches.append_frame (h : Matches A s t) (hr : r ∉ A.roots)
    (hk : it.creatureId ∉ A.creatures) : Matches A (s.append r it) t where
  quorum := h.quorum
  counts := h.counts
  pending q hq := by
    have hne : q ≠ r := fun e => hr (e ▸ hq)
    simp [PoUWChain.append, hne, h.pending q hq]
  finalized q hq := by
    have hne : q ≠ r := fun e => hr (e ▸ hq)
    simp [PoUWChain.append, hne, h.finalized q hq]
  proven q hq := by
    have hne : q ≠ r := fun e => hr (e ▸ hq)
    simp [PoUWChain.append, hne, h.proven q hq]
  nextEpoch k hkA := by
    have hne : k ≠ it.creatureId := fun e => hk (e ▸ hkA)
    simp [PoUWChain.append, hne, h.nextEpoch k hkA]
  lastLoss k hkA := by
    have hne : k ≠ it.creatureId := fun e => hk (e ▸ hkA)
    simp [PoUWChain.append, hne, h.lastLoss k hkA]
  subchain k hkA := by
    have hne : it.creatureId ≠ k := fun e => hk (e ▸ hkA)
    rw [append_subchain, if_neg hne, List.append_nil, h.subchain k hkA]
  owned := h.owned

/-! ## One call -/

section
variable [LossValue F]

/-- Matched chains decide alike on a root of the part: both refuse, or both append the same entry,
whose creature is of the part. -/
theorem Matches.finalize (h : Matches A s t) (hr : r ∈ A.roots) :
    (s.finalizeCheckpoint r = (false, s) ∧ t.finalizeCheckpoint r = (false, t)) ∨
      ∃ it, t.pending r = some it ∧ it.creatureId ∈ A.creatures ∧
        s.finalizeCheckpoint r = (true, s.append r it) ∧
        t.finalizeCheckpoint r = (true, t.append r it) := by
  have hquorum : s.validator.hasQuorum r = t.validator.hasQuorum r := by
    simp only [Validator.hasQuorum, h.counts r hr, h.quorum]
  simp only [finalizeCheckpoint, hquorum, h.pending r hr, h.finalized r hr, h.proven r hr]
  by_cases hq : ¬ t.validator.hasQuorum r ∧ ¬ t.proven r
  · rw [if_pos hq, if_pos hq]
    exact Or.inl ⟨rfl, rfl⟩
  rw [if_neg hq, if_neg hq]
  cases hp : t.pending r with
  | none => exact Or.inl ⟨rfl, rfl⟩
  | some it =>
      have hk := h.owned r hr it hp
      simp only [h.nextEpoch _ hk, h.lastLoss _ hk]
      split_ifs
      · exact Or.inl ⟨rfl, rfl⟩
      · exact Or.inl ⟨rfl, rfl⟩
      · exact Or.inl ⟨rfl, rfl⟩
      · exact Or.inr ⟨it, rfl, hk, rfl, rfl⟩

omit [LossValue F] in
/-- A checkpoint of the part starts to wait on both sides. -/
theorem Matches.submit (h : Matches A s t) (hk : it.creatureId ∈ A.creatures) :
    Matches A { s with pending := Function.update s.pending r (some it) }
      { t with pending := Function.update t.pending r (some it) } := by
  refine ⟨h.quorum, h.counts, ?_, h.finalized, h.proven, h.nextEpoch, h.lastLoss, h.subchain, ?_⟩
  · intro q hq
    by_cases hqr : q = r
    · simp [hqr]
    · simp [hqr, h.pending q hq]
  · intro q hq other hother
    by_cases hqr : q = r
    · simp only [hqr, Function.update_self, Option.some.injEq] at hother
      exact hother ▸ hk
    · simp only [Function.update_of_ne hqr] at hother
      exact h.owned q hq other hother

/-- What a call pays each miner, the same on both sides. -/
def Pays (s s' : PoUWChain F) (paid : String → U64) : Prop :=
  ∀ m, s'.energyBalance m = s.energyBalance m + paid m ∧
    s'.coreBalance m = s.coreBalance m + paid m

/-- **A call of the part** answers alike on both sides, keeps them matched and pays the same. -/
theorem Matches.own (h : Matches A s t) {c : Call F} (hc : A.Has c) :
    (s.answer c).1 = (t.answer c).1 ∧ Matches A (s.answer c).2 (t.answer c).2 ∧
      ∃ paid, Pays s (s.answer c).2 paid ∧ Pays t (t.answer c).2 paid := by
  obtain ⟨hr, hk⟩ := hc
  cases c with
  | submitCheckpoint k e r m l es =>
      refine ⟨rfl, h.submit (hk k rfl), fun _ => 0, ?_, ?_⟩
      · exact fun m => ⟨(BitVec.add_zero _).symm, (BitVec.add_zero _).symm⟩
      · exact fun m => ⟨(BitVec.add_zero _).symm, (BitVec.add_zero _).symm⟩
  | attest r =>
      refine ⟨rfl, ⟨h.quorum, ?_, h.pending, h.finalized, h.proven, h.nextEpoch, h.lastLoss,
        h.subchain, h.owned⟩, fun _ => 0, ?_, ?_⟩
      · intro q hq
        simp only [answer, next, attest, Validator.attest, h.counts r hr]
        by_cases hqr : q = r
        · simp [hqr]
        · simp [hqr, h.counts q hq]
      · exact fun m => ⟨(BitVec.add_zero _).symm, (BitVec.add_zero _).symm⟩
      · exact fun m => ⟨(BitVec.add_zero _).symm, (BitVec.add_zero _).symm⟩
  | submitProof r =>
      refine ⟨rfl, ⟨h.quorum, h.counts, h.pending, h.finalized, ?_, h.nextEpoch, h.lastLoss,
        h.subchain, h.owned⟩, fun _ => 0, ?_, ?_⟩
      · intro q hq
        simp only [answer, next, submitProof]
        by_cases hqr : q = r
        · simp [hqr]
        · simp [hqr, h.proven q hq]
      · exact fun m => ⟨(BitVec.add_zero _).symm, (BitVec.add_zero _).symm⟩
      · exact fun m => ⟨(BitVec.add_zero _).symm, (BitVec.add_zero _).symm⟩
  | finalizeCheckpoint r =>
      replace hr : r ∈ A.roots := hr
      rcases h.finalize hr with ⟨hs, ht⟩ | ⟨it, -, -, hs, ht⟩
      · simp only [answer, next, hs, ht]
        refine ⟨trivial, h, fun _ => 0, ?_, ?_⟩
        · exact fun m => ⟨(BitVec.add_zero _).symm, (BitVec.add_zero _).symm⟩
        · exact fun m => ⟨(BitVec.add_zero _).symm, (BitVec.add_zero _).symm⟩
      · simp only [answer, next, hs, ht]
        refine ⟨trivial, h.append, reward it, ?_, ?_⟩
        · exact fun m => ⟨append_energyBalance s r it m, append_coreBalance s r it m⟩
        · exact fun m => ⟨append_energyBalance t r it m, append_coreBalance t r it m⟩

/-- The parts share neither a root nor a creature. -/
structure Apart (A B : Part) : Prop where
  roots : ∀ r ∈ A.roots, r ∉ B.roots
  creatures : ∀ k ∈ A.creatures, k ∉ B.creatures

theorem Apart.symm (h : Apart A B) : Apart B A :=
  ⟨fun r hB hA => h.roots r hA hB, fun k hB hA => h.creatures k hA hB⟩

/-- **A call of another part** leaves the part matched. `u` is what the other part is matched with:
it says whose creatures the other part finalizes. -/
theorem Matches.frame {u : PoUWChain F} (hAB : Apart A B) (hB : Matches B s t) (hA : Matches A s u)
    {c : Call F} (hc : A.Has c) : Matches B (s.answer c).2 t := by
  obtain ⟨hr, hk⟩ := hc
  have hne : ∀ q ∈ B.roots, q ≠ c.root := fun q hq e => hAB.roots _ hr (e ▸ hq)
  cases c with
  | submitCheckpoint k e r m l es =>
      refine ⟨hB.quorum, hB.counts, ?_, hB.finalized, hB.proven, hB.nextEpoch, hB.lastLoss,
        hB.subchain, hB.owned⟩
      intro q hq
      have hqr : q ≠ r := hne q hq
      simp only [answer, next, submitCheckpoint, Function.update_of_ne hqr]
      exact hB.pending q hq
  | attest r =>
      refine ⟨hB.quorum, ?_, hB.pending, hB.finalized, hB.proven, hB.nextEpoch, hB.lastLoss,
        hB.subchain, hB.owned⟩
      intro q hq
      have hqr : q ≠ r := hne q hq
      simp only [answer, next, attest, Validator.attest, Function.update_of_ne hqr]
      exact hB.counts q hq
  | submitProof r =>
      refine ⟨hB.quorum, hB.counts, hB.pending, hB.finalized, ?_, hB.nextEpoch, hB.lastLoss,
        hB.subchain, hB.owned⟩
      intro q hq
      have hqr : q ≠ r := hne q hq
      simp only [answer, next, submitProof, Function.update_of_ne hqr]
      exact hB.proven q hq
  | finalizeCheckpoint r =>
      replace hr : r ∈ A.roots := hr
      rcases hA.finalize hr with ⟨hs, -⟩ | ⟨it, -, hkA, hs, -⟩
      · simp only [answer, next, hs]
        exact hB
      · simp only [answer, next, hs]
        exact hB.append_frame (hAB.roots r hr) (hAB.creatures _ hkA)

/-! ## Any interleaving -/

/-- `s` is put together from `a` and `b`: each is matched on its part, and the balances add up. -/
structure Joined (A B : Part) (s a b : PoUWChain F) : Prop where
  left : Matches A s a
  right : Matches B s b
  energy : ∀ m, s.energyBalance m = a.energyBalance m + b.energyBalance m
  core : ∀ m, s.coreBalance m = a.coreBalance m + b.coreBalance m

omit [LossValue F] in
theorem Joined.symm {a b : PoUWChain F} (h : Joined A B s a b) : Joined B A s b a where
  left := h.right
  right := h.left
  energy m := by rw [h.energy, BitVec.add_comm]
  core m := by rw [h.core, BitVec.add_comm]

theorem Joined.step {a b : PoUWChain F} (hAB : Apart A B) (h : Joined A B s a b) {c : Call F}
    (hc : A.Has c) :
    (s.answer c).1 = (a.answer c).1 ∧ Joined A B (s.answer c).2 (a.answer c).2 b := by
  obtain ⟨hanswer, hleft, paid, hs, ha⟩ := h.left.own hc
  refine ⟨hanswer, hleft, h.right.frame hAB h.left hc, ?_, ?_⟩
  · intro m
    rw [(hs m).1, (ha m).1, h.energy, BitVec.add_assoc, BitVec.add_assoc, BitVec.add_comm (paid m)]
  · intro m
    rw [(hs m).2, (ha m).2, h.core, BitVec.add_assoc, BitVec.add_assoc, BitVec.add_comm (paid m)]

theorem joined_separates (hAB : Apart A B) :
    Separates (answer (F := F)) A.Has B.Has (Joined A B) where
  left h hc := h.step hAB hc
  right h hc := by
    obtain ⟨hanswer, hnext⟩ := h.symm.step hAB.symm hc
    exact ⟨hanswer, hnext.symm⟩

omit [LossValue F] in
theorem new_matches (A : Part) (quorum : SizeT) :
    Matches A (new quorum : PoUWChain F) (new quorum) where
  quorum := rfl
  counts _ _ := rfl
  pending _ _ := rfl
  finalized _ _ := rfl
  proven _ _ := rfl
  nextEpoch _ _ := rfl
  lastLoss _ _ := rfl
  subchain _ _ := rfl
  owned _ _ _ h := nomatch h

omit [LossValue F] in
theorem new_joined (quorum : SizeT) :
    Joined A B (new quorum : PoUWChain F) (new quorum) (new quorum) where
  left := new_matches A quorum
  right := new_matches B quorum
  energy _ := rfl
  core _ := rfl

/-- The roots named by the calls. -/
def rootsOf (cs : List (Call F)) : List String := cs.map Call.root

/-- The creatures named by the calls. -/
def creaturesOf (cs : List (Call F)) : List U32 := cs.filterMap Call.creature

/-- The part of the first program. -/
def partOf (cs : List (Call F)) : Part := ⟨{r | r ∈ rootsOf cs}, {k | k ∈ creaturesOf cs}⟩

/-- Everything else. -/
def Part.others (A : Part) : Part := ⟨{r | r ∉ A.roots}, {k | k ∉ A.creatures}⟩

omit [LossValue F] in
theorem partOf_has {cs : List (Call F)} {c : Call F} (h : c ∈ cs) : (partOf cs).Has c :=
  ⟨List.mem_map_of_mem h, fun _ hk => List.mem_filterMap.mpr ⟨c, h, hk⟩⟩

theorem apart_others (A : Part) : Apart A A.others :=
  ⟨fun _ h hn => hn h, fun _ h hn => hn h⟩

omit [LossValue F] in
/-- Two chains put together from the same parts show the same creatures and balances. -/
theorem Joined.agree {a b s' : PoUWChain F} (h : Joined A A.others s a b)
    (h' : Joined A A.others s' a b) :
    (∀ k, s.subchain k = s'.subchain k ∧ s.nextEpoch k = s'.nextEpoch k ∧
      s.lastLoss k = s'.lastLoss k) ∧
    ∀ m, s.energyBalance m = s'.energyBalance m ∧ s.coreBalance m = s'.coreBalance m := by
  refine ⟨fun k => ?_, fun m => ?_⟩
  · by_cases hk : k ∈ A.creatures
    · rw [h.left.subchain k hk, h.left.nextEpoch k hk, h.left.lastLoss k hk]
      rw [h'.left.subchain k hk, h'.left.nextEpoch k hk, h'.left.lastLoss k hk]
      exact ⟨rfl, rfl, rfl⟩
    · rw [h.right.subchain k hk, h.right.nextEpoch k hk, h.right.lastLoss k hk]
      rw [h'.right.subchain k hk, h'.right.nextEpoch k hk, h'.right.lastLoss k hk]
      exact ⟨rfl, rfl, rfl⟩
  · rw [h.energy, h'.energy, h.core, h'.core]
    exact ⟨rfl, rfl⟩

/-- `answer` moves the chain as `next` does. -/
theorem after_eq_run (quorum : SizeT) (cs : List (Call F)) :
    after answer (new quorum) cs = run quorum cs := by
  have hnext : (fun (s : PoUWChain F) c => (s.answer c).2) = next := by
    funext s c
    cases c <;> rfl
  simp only [after, run, hnext]

/-- **Order independence.** Two programs on disjoint roots and disjoint creatures, interleaved in
any way, get the answers they get when the first runs before the second; every creature has the same
blocks up to their indices, the same next epoch and the same last loss, and every balance is the
same. -/
theorem interleaving_independent (quorum : SizeT) (cs : List (Call F ⊕ Call F))
    (hroots : (rootsOf (first cs)).Disjoint (rootsOf (second cs)))
    (hcreatures : (creaturesOf (first cs)).Disjoint (creaturesOf (second cs))) :
    first (answers answer (new quorum) cs) = first (answers answer (new quorum) (inOrder cs)) ∧
    second (answers answer (new quorum) cs) = second (answers answer (new quorum) (inOrder cs)) ∧
    (∀ k, (run quorum (merged cs)).subchain k = (run quorum (merged (inOrder cs))).subchain k ∧
      (run quorum (merged cs)).nextEpoch k = (run quorum (merged (inOrder cs))).nextEpoch k ∧
      (run quorum (merged cs)).lastLoss k = (run quorum (merged (inOrder cs))).lastLoss k) ∧
    ∀ m, (run quorum (merged cs)).energyBalance m =
        (run quorum (merged (inOrder cs))).energyBalance m ∧
      (run quorum (merged cs)).coreBalance m =
        (run quorum (merged (inOrder cs))).coreBalance m := by
  let A := partOf (first cs)
  have hmine : ∀ c ∈ first cs, A.Has c := fun c hc => partOf_has hc
  have hyours : ∀ c ∈ second cs, A.others.Has c := by
    intro c hc
    obtain ⟨hr, hk⟩ := partOf_has hc
    exact ⟨fun hmem => hroots hmem hr, fun _ hck hmem => hcreatures hmem (hk _ hck)⟩
  obtain ⟨hfirst, hsecond, a, b, hJ, hJ'⟩ :=
    (joined_separates (apart_others A)).order_irrelevant cs (new_joined quorum) hmine hyours
  rw [after_eq_run] at hJ hJ'
  exact ⟨hfirst, hsecond, hJ.agree hJ'⟩

/-- Creature 1 under root "a" and creature 2 under root "b", mined by the same miner. -/
def twoMiners : List (Call Int ⊕ Call Int) :=
  [.inl (.submitCheckpoint 1 0 "a" "miner" 3 4), .inr (.submitCheckpoint 2 0 "b" "miner" 5 6),
    .inr (.submitProof "b"), .inl (.submitProof "a"), .inr (.finalizeCheckpoint "b"),
    .inl (.finalizeCheckpoint "a"), .inr (.finalizeCheckpoint "b")]

theorem interleaving_independent_two :
    (run 1 (merged twoMiners)).energyBalance "miner" =
      (run 1 (merged (inOrder twoMiners))).energyBalance "miner" :=
  ((interleaving_independent 1 twoMiners
    (by simp [List.Disjoint, rootsOf, twoMiners, Call.root])
    (by simp [List.Disjoint, creaturesOf, twoMiners, Call.creature])).2.2.2 "miner").1

end

end PoUWChain

end ChainBeasts.Pouw
