import ChainBeasts.Battle.Animation
import ChainBeasts.Contracts.CoinToss
import ChainBeasts.Evm.Word

/-! # Whose turn comes

`_fight` of the contract and `run` of the animator toss the same coin, the low bit of one generator.
The animator's loop is a `Tossing` as well, however its integers overflow, so what the generator does
to the turns holds of both: while it is not stuck at zero, either side has its turn within 33 rounds,
and a battle that is still open sees a strike after 33 idle rounds at most
(`generator_deals_turns`). -/

namespace ChainBeasts.Battle

namespace BattleAnimator

variable {I : IntArith} {a b : CreatureStats} {s : Recording}

/-- The stamina left of a side, `a`'s for `true`. -/
def Recording.sta (s : Recording) (side : Bool) : Int :=
  if side then s.score.staA else s.score.staB

theorem body_idle (h : s.sta s.turn ≤ 0) : (loop I a b).body s =
    { s with state := rng s.state, turn := decide (rng s.state &&& 1 ≠ 0) } := by
  have hunable : ¬ s.able := Int.not_lt.mpr h
  rw [body_eq, if_neg hunable]

def tossing (I : IntArith) (a b : CreatureStats) : Matchmaker.Tossing (loop I a b) where
  state := Recording.state
  turn := Recording.turn
  sta := Recording.sta
  state_body s := by
    rw [body_eq, rng_eq]
  turn_body s := by
    rw [body_eq, rng_eq]
  guard_sta s h := by
    have hsta := (of_decide_eq_true h).2.2
    rcases hsta with hA | hB
    · exact ⟨true, hA⟩
    · exact ⟨false, hB⟩
  idle_body s h := by
    rw [body_idle h]
    exact ⟨rfl, rfl⟩

end BattleAnimator

open Matchmaker (rng)

theorem rng_bijective : Function.Bijective rng :=
  Finite.injective_iff_bijective.mp Matchmaker.rng_injective

theorem rng_eq_zero_iff (state : BitVec 32) : rng state = 0 ↔ state = 0 := by
  constructor
  · exact not_imp_not.mp Matchmaker.rng_ne_zero
  · rintro rfl
    exact Matchmaker.rng_zero

/-- **The generator and the turns it deals.** It is a bijection of the 32-bit words that takes only
zero to zero. From a state other than zero, either low bit shows within 33 steps, so in both loops
either side's turn comes within 33 rounds, again and again, and no more than 33 rounds in a row are
idle. -/
theorem generator_deals_turns :
    BattleAnimator.rng = rng ∧ Function.Bijective rng ∧ (∀ state, rng state = 0 ↔ state = 0) ∧
      (∀ state, state ≠ 0 → ∀ side, ∃ k, 1 ≤ k ∧ k ≤ 33 ∧
        decide (rng^[k] state &&& 1 ≠ 0) = side) ∧
      (∀ a b (s : Matchmaker.Fight), s.state ≠ 0 → (Matchmaker.tossing a b).DealsTurns s) ∧
      (∀ I a b (s : BattleAnimator.Recording), s.state ≠ 0 →
        (BattleAnimator.tossing I a b).DealsTurns s) := by
  refine ⟨BattleAnimator.rng_eq, rng_bijective, rng_eq_zero_iff, ?_, ?_, ?_⟩
  · intro state hstate side
    exact Matchmaker.next_coin_shows hstate side
  · intro a b s hs
    exact (Matchmaker.tossing a b).deals_turns hs
  · intro I a b s hs
    exact (BattleAnimator.tossing I a b).deals_turns hs

/-- A match that is seeded with 7. -/
theorem seven_deals_turns : (Matchmaker.tossing ⟨1, 5, 1, 1⟩ ⟨1, 5, 1, 2⟩).DealsTurns
    (Matchmaker.start ⟨1, 5, 1, 1⟩ ⟨1, 5, 1, 2⟩ 7) :=
  generator_deals_turns.2.2.2.2.1 _ _ _ (by decide)

end ChainBeasts.Battle
