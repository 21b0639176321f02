import ChainBeasts.Pouw.ChainInvariants
import Mathlib.Algebra.Order.Ring.Int
import Mathlib.Data.List.Chain
import Mathlib.Order.Defs.LinearOrder

/-! # The loss rule of the chain

`finalize_checkpoint` refuses a loss above the creature's last one. It marks "no last loss" by `-1`
and skips the rule below zero, but a loss may be negative itself: then the mark and the loss are
confused, and the next loss may rise. `losses_fall_iff` says that these finalizations are the only
ones that escape the rule. Losses are exact here: a linear order in which the literals of the source
are what they say. -/

namespace ChainBeasts.Pouw

open ChainBeasts.Machine

/-- Losses as exact ordered numbers: no NaN, and `-1 < 0`. -/
class ExactLoss (F : Type) extends LinearOrder F, LossValue F where
  ge_iff : ∀ x y : F, LossValue.ge x y = true ↔ y ≤ x
  gt_iff : ∀ x y : F, LossValue.gt x y = true ↔ y < x
  minusOne_lt : (LossValue.minusOne : F) < LossValue.zero

/-- The integers: what a `float` holds exactly up to `2^24`. -/
instance : ExactLoss Int where
  zero := 0
  minusOne := -1
  ge x y := decide (y ≤ x)
  gt x y := decide (y < x)
  ge_iff _ _ := decide_eq_true_iff
  gt_iff _ _ := decide_eq_true_iff
  minusOne_lt := by decide

namespace PoUWChain
variable {F : Type}

/-! ## When a checkpoint is appended -/

/-- Everything `finalize_checkpoint` asks of an entry before it looks at the loss. -/
structure Ready (s : PoUWChain F) (r : String) (it : Pending F) : Prop where
  backed : s.validator.hasQuorum r = true ∨ s.proven r = true
  pending : s.pending r = some it
  fresh : s.finalized r = false
  epoch : it.epochId = (s.nextEpoch it.creatureId).getD 0

/-- A ready entry is appended unless its loss regresses. -/
theorem finalize_of_ready [LossValue F] {s : PoUWChain F} {r : String} {it : Pending F}
    (h : s.Ready r it) (hl : ¬ s.regresses it) :
    s.finalizeCheckpoint r = (true, s.append r it) := by
  obtain ⟨hb, hp, hf, he⟩ := h
  have hbacked : ¬ (¬ s.validator.hasQuorum r ∧ ¬ s.proven r) := by
    rintro ⟨hq, hpr⟩
    exact hb.elim hq hpr
  have hfresh : ¬ s.finalized r = true := by simp [hf]
  rw [finalizeCheckpoint, if_neg hbacked, hp]
  dsimp only
  rw [if_neg hfresh, if_neg (not_not.mpr he)]
  exact if_neg hl

/-- An entry whose loss regresses is refused. -/
theorem finalize_of_regresses [LossValue F] {s : PoUWChain F} {r : String} {it : Pending F}
    (hp : s.pending r = some it) (hl : s.regresses it) : s.finalizeCheckpoint r = (false, s) := by
  obtain hrefused | ⟨other, hpending, -, -, -, hkept, -⟩ := s.finalize_checkpoint_cases r
  · exact hrefused
  · rw [hp] at hpending
    cases hpending
    exact absurd hl hkept

/-- The losses of a creature's blocks, in chain order. -/
def lossesOf (s : PoUWChain F) (k : U32) : List F := (s.blocksOf k).map Block.loss

theorem append_lossesOf (s : PoUWChain F) (r : String) (it : Pending F) (k : U32) :
    (s.append r it).lossesOf k =
      s.lossesOf k ++ if it.creatureId = k then [it.loss] else [] := by
  simp only [lossesOf, append_blocksOf, List.map_append]
  by_cases h : it.creatureId = k
  · simp [h, newBlock]
  · simp [h]

/-- The last loss of a creature is the one of its last block. -/
def Remembers (s : PoUWChain F) : Prop := ∀ k, s.lastLoss k = (s.lossesOf k).getLast?

theorem append_remembers {s : PoUWChain F} {r : String} {it : Pending F} (h : s.Remembers) :
    (s.append r it).Remembers := by
  intro k
  rw [append_lossesOf]
  by_cases hk : it.creatureId = k
  · subst hk
    simp [append]
  · rw [if_neg hk, List.append_nil, ← h k]
    exact Function.update_of_ne (Ne.symm hk) _ _

/-! ## The rule -/

section
variable [ExactLoss F]

/-- Each loss is at most the one before it. -/
def NeverRises (ls : List F) : Prop := ls.IsChain fun earlier later => later ≤ earlier

/-- The call does not slip past the loss rule: a ready checkpoint of a creature whose last loss is
negative has no higher loss. -/
def RespectsSign (s : PoUWChain F) (c : Call F) : Prop :=
  ∀ r it prev, c = .finalizeCheckpoint r → s.Ready r it → s.lastLoss it.creatureId = some prev →
    prev < LossValue.zero → it.loss ≤ prev

/-- What the source's guard says of exact losses. -/
theorem regresses_iff {s : PoUWChain F} {it : Pending F} :
    s.regresses it ↔ ∃ prev, s.lastLoss it.creatureId = some prev ∧
      LossValue.zero ≤ prev ∧ prev < it.loss := by
  simp only [regresses, ExactLoss.ge_iff, ExactLoss.gt_iff]
  cases h : s.lastLoss it.creatureId with
  | none =>
      -- the sentinel is below zero
      simp only [Option.getD_none, reduceCtorEq, false_and, exists_false, iff_false, not_and]
      intro hzero
      exact absurd hzero (not_le.mpr ExactLoss.minusOne_lt)
  | some prev => simp

/-- The losses never rise past an appended entry exactly when it is no higher than the last one. -/
theorem neverRises_append {s : PoUWChain F} {r : String} {it : Pending F} (hs : s.Remembers) :
    (∀ k, NeverRises ((s.append r it).lossesOf k)) ↔
      (∀ k, NeverRises (s.lossesOf k)) ∧
        ∀ prev, s.lastLoss it.creatureId = some prev → it.loss ≤ prev := by
  have hrule : ∀ k, NeverRises ((s.append r it).lossesOf k) ↔
      NeverRises (s.lossesOf k) ∧ (it.creatureId = k →
        ∀ prev, s.lastLoss it.creatureId = some prev → it.loss ≤ prev) := by
    intro k
    rw [append_lossesOf, NeverRises, List.isChain_append]
    by_cases hk : it.creatureId = k
    · subst hk
      simp [NeverRises, hs it.creatureId]
    · simp [NeverRises, hk]
  constructor
  · intro hall
    exact ⟨fun k => ((hrule k).mp (hall k)).1, ((hrule _).mp (hall it.creatureId)).2 rfl⟩
  · rintro ⟨hall, hnew⟩ k
    exact (hrule k).mpr ⟨hall k, fun _ => hnew⟩

/-- **One call.** It keeps every creature's losses falling exactly when it respects the sign. -/
theorem neverRises_next {s : PoUWChain F} (hs : s.Remembers) (c : Call F) :
    (∀ k, NeverRises ((s.next c).lossesOf k)) ↔
      (∀ k, NeverRises (s.lossesOf k)) ∧ s.RespectsSign c := by
  cases c with
  | submitCheckpoint => simp [RespectsSign, next, submitCheckpoint, lossesOf, blocksOf]
  | attest => simp [RespectsSign, next, attest, lossesOf, blocksOf]
  | submitProof => simp [RespectsSign, next, submitProof, lossesOf, blocksOf]
  | finalizeCheckpoint r =>
      rcases s.finalize_checkpoint_cases r with h | ⟨it, hp, hb, hf, he, hl, h⟩
      · -- a refused checkpoint was not ready or regressed, so its last loss is not negative
        have hrespects : s.RespectsSign (.finalizeCheckpoint r) := by
          intro q it prev hcall hready hprev hneg
          cases hcall
          by_contra hle
          have hfine : ¬ s.regresses it := by
            rw [regresses_iff]
            rintro ⟨p, hpp, hzero, -⟩
            rw [hprev] at hpp
            cases hpp
            exact absurd hzero (not_le.mpr hneg)
          rw [finalize_of_ready hready hfine] at h
          cases h
        simp only [next, h, hrespects, and_true]
      · have hready : s.Ready r it := ⟨hb, hp, hf, he⟩
        rw [next, h, neverRises_append hs]
        refine and_congr_right fun _ => ?_
        constructor
        · intro hall q other prev hcall hother hprev _
          cases hcall
          have hsame := hother.pending
          rw [hp] at hsame
          cases hsame
          exact hall prev hprev
        · intro hrespects prev hprev
          rcases lt_or_ge prev LossValue.zero with hneg | hzero
          · exact hrespects r it prev rfl hready hprev hneg
          · by_contra hle
            exact hl (regresses_iff.mpr ⟨prev, hprev, hzero, not_le.mp hle⟩)

theorem next_remembers {s : PoUWChain F} (hs : s.Remembers) (c : Call F) :
    (s.next c).Remembers := by
  cases c with
  | submitCheckpoint => exact hs
  | attest => exact hs
  | submitProof => exact hs
  | finalizeCheckpoint r =>
      rcases s.finalize_checkpoint_cases r with h | ⟨it, -, -, -, -, -, h⟩
      · rw [next, h]
        exact hs
      · rw [next, h]
        exact append_remembers hs

/-- The calls of the run `cs` with the states around them. -/
def calls (quorum : SizeT) (cs : List (Call F)) : List (Move (PoUWChain F) (Call F)) :=
  history next (new quorum) cs

/-- **The loss rule, exactly.** In a run from construction the losses of every creature's blocks never
rise if and only if every finalization respects the sign. -/
theorem losses_fall_iff (quorum : SizeT) (cs : List (Call F)) :
    (∀ k, NeverRises ((run quorum cs).lossesOf k)) ↔
      ∀ m ∈ calls quorum cs, m.pre.RespectsSign m.call := by
  let P (s : PoUWChain F) (tr : List (Move (PoUWChain F) (Call F))) : Prop :=
    s.Remembers ∧ ((∀ k, NeverRises (s.lossesOf k)) ↔ ∀ m ∈ tr, m.pre.RespectsSign m.call)
  have hrun : P (run quorum cs) (calls quorum cs) := by
    apply history_induction (fun _ => True) P
    · refine ⟨fun k => rfl, ?_⟩
      simp [NeverRises, lossesOf, blocksOf, new]
    · rintro s tr c ⟨hs, ih⟩ -
      refine ⟨next_remembers hs c, ?_⟩
      rw [neverRises_next hs c, ih]
      simp [or_imp, forall_and]
    · exact fun _ _ => trivial
  exact hrun.2

/-- Two checkpoints of creature 1, proven; the first with loss -2, the second with loss -1. -/
def negativeRise : List (Call Int) :=
  [.submitCheckpoint 1 0 "r0" "miner" (-2) 4, .submitProof "r0", .finalizeCheckpoint "r0",
    .submitCheckpoint 1 1 "r1" "miner" (-1) 4, .submitProof "r1", .finalizeCheckpoint "r1"]

/-- Both are appended, and the loss has risen. -/
theorem losses_rise_below_zero : ¬ ∀ k, NeverRises ((run 1 negativeRise).lossesOf k) := by
  intro h
  have hlosses : (run 1 negativeRise).lossesOf 1 = [-2, -1] := by decide +kernel
  have hone := h 1
  rw [hlosses] at hone
  exact absurd hone (by simp [NeverRises])

end

end PoUWChain

end ChainBeasts.Pouw
