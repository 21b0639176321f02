import ChainBeasts.Duel
import Mathlib.Logic.Function.Iterate

/-! # The on-chain matchmaker

`_fight` of `contracts/Matchmaker.sol`: a xorshift generator, seeded with the exclusive or of the
ids, tosses a coin for every turn. Hit points and stamina are `int256` values that start as `int32`
and are lowered by an `int32` fewer than `2 ^ 32` times, so that checked arithmetic never refuses;
they are modelled as integers. `fight_follows` reads a fight as a duel on the schedule of the coin. -/

namespace ChainBeasts.Matchmaker

structure Stats where
  power : BitVec 32
  defense : BitVec 32
  stamina : BitVec 32
  id : BitVec 32
  deriving DecidableEq

/-- `_rng`: one xorshift step. -/
def rng (state : BitVec 32) : BitVec 32 :=
  let state := state ^^^ (state <<< 13)
  let state := state ^^^ (state >>> 17)
  state ^^^ (state <<< 5)

/-- The local variables of `_fight`. -/
structure Fight where
  hpA : Int
  hpB : Int
  staA : Int
  staB : Int
  state : BitVec 32
  turn : Bool

def loop (a b : Stats) : While.Loop Fight where
  guard s := decide (0 < s.hpA ∧ 0 < s.hpB ∧ (0 < s.staA ∨ 0 < s.staB))
  body s :=
    let s :=
      if s.turn = true ∧ 0 < s.staA then
        { s with hpB := s.hpB - a.power.toInt, staA := s.staA - 1 }
      else if s.turn = false ∧ 0 < s.staB then
        { s with hpA := s.hpA - b.power.toInt, staB := s.staB - 1 }
      else s
    let state := rng s.state
    { s with state, turn := decide (state &&& 1 ≠ 0) }

/-- The generator before its first step. -/
def seeded (a b : Stats) (seed : BitVec 32) : BitVec 32 := if seed ≠ 0 then seed else a.id ^^^ b.id

def start (a b : Stats) (seed : BitVec 32) : Fight where
  hpA := a.defense.toInt
  hpB := b.defense.toInt
  staA := a.stamina.toInt
  staB := b.stamina.toInt
  state := rng (seeded a b seed)
  turn := decide (rng (seeded a b seed) &&& 1 ≠ 0)

def winner (a b : Stats) (s : Fight) : BitVec 32 := if s.hpA ≥ s.hpB then a.id else b.id

/-- `_fight(a, b, seed)`, given up after `n` rounds of its loop. -/
def fight (a b : Stats) (seed : BitVec 32) (n : Nat) : Option (BitVec 32) :=
  ((loop a b).run n (start a b seed)).map (winner a b)

/-! ## The fight as a duel -/

/-- Whose turn `t` the coin makes it: `a`'s if it is `true`. -/
def coin (a b : Stats) (seed : BitVec 32) (t : Nat) : Bool :=
  decide (rng^[t + 1] (seeded a b seed) &&& 1 ≠ 0)

/-- The duel of `a` and `b` on a given schedule, every strike at full strength. -/
def duel (a b : Stats) (turnA : Nat → Bool) : Duel where
  lifeA := a.defense.toInt
  lifeB := b.defense.toInt
  staminaA := a.stamina.toInt
  staminaB := b.stamina.toInt
  dealtA k := k * a.power.toInt
  dealtB k := k * b.power.toInt
  turnA

variable {a b : Stats} {turnA : Nat → Bool}

theorem duel_dealtA (k : Nat) :
    (duel a b turnA).dealtA (k + 1) = (duel a b turnA).dealtA k + a.power.toInt := by
  simp only [duel]
  push_cast
  ring

theorem duel_dealtB (k : Nat) :
    (duel a b turnA).dealtB (k + 1) = (duel a b turnA).dealtB k + b.power.toInt := by
  simp only [duel]
  push_cast
  ring

theorem duel_begin :
    (duel a b turnA).Scored Duel.begin a.defense.toInt b.defense.toInt a.stamina.toInt
      b.stamina.toInt := by
  refine ⟨?_, ?_, ?_, ?_⟩ <;> simp [duel, Duel.leftA, Duel.leftB, Duel.begin]

/-- The variables of the loop after the turns of a tally. -/
def Follows (a b : Stats) (seed : BitVec 32) (s : Fight) (x : Tally) : Prop :=
  (duel a b (coin a b seed)).Scored x s.hpA s.hpB s.staA s.staB ∧
    s.state = rng^[x.turns + 1] (seeded a b seed) ∧ s.turn = coin a b seed x.turns

theorem follows_body {seed : BitVec 32} {s : Fight} {x : Tally} (h : Follows a b seed s x) :
    Follows a b seed ((loop a b).body s) ((duel a b (coin a b seed)).loop.body x) := by
  obtain ⟨hscored, hstate, hturn⟩ := h
  have hnext : rng s.state = rng^[x.turns + 1 + 1] (seeded a b seed) := by
    rw [Function.iterate_succ_apply', hstate]
  refine ⟨?_, ?_, ?_⟩
  · unfold loop
    cases hcoin : s.turn with
    | true =>
        have hsched : (duel a b (coin a b seed)).turnA x.turns = true := hturn.symm.trans hcoin
        by_cases hable : 0 < s.staA
        · simp only [hcoin, hable, and_self, if_true]
          exact hscored.strikeA hsched hable (duel_dealtA _)
        · simp only [hcoin, hable, and_false, if_false, Bool.true_eq_false, false_and]
          exact hscored.restA hsched hable
    | false =>
        have hsched : (duel a b (coin a b seed)).turnA x.turns = false := hturn.symm.trans hcoin
        by_cases hable : 0 < s.staB
        · simp only [hcoin, hable, Bool.false_eq_true, false_and, and_self, if_false, if_true]
          exact hscored.strikeB hsched hable (duel_dealtB _)
        · simp only [hcoin, hable, Bool.false_eq_true, false_and, and_false, if_false]
          exact hscored.restB hsched hable
  · rw [Duel.body_turns, ← hnext]
    unfold loop
    simp only
    split <;> [rfl; split <;> rfl]
  · rw [Duel.body_turns, coin, ← hnext]
    unfold loop
    simp only
    split <;> [rfl; split <;> rfl]

/-- **A fight is a duel on the schedule of the coin.** -/
theorem fight_follows {seed : BitVec 32} {n : Nat} {w : BitVec 32}
    (h : fight a b seed n = some w) :
    ∃ x, (duel a b (coin a b seed)).loop.Returns Duel.begin x ∧
      w = if (duel a b (coin a b seed)).leftB x ≤ (duel a b (coin a b seed)).leftA x then a.id
        else b.id := by
  obtain ⟨s, hrun, hw⟩ := Option.map_eq_some_iff.mp h
  have hbegin : Follows a b seed (start a b seed) Duel.begin := ⟨duel_begin, rfl, rfl⟩
  obtain ⟨x, hx, hfollows⟩ := While.Loop.Returns.simulation (Follows a b seed)
    (fun t y hty => hty.1.guard) (fun t y hty _ => follows_body hty) hbegin ⟨n, hrun⟩
  refine ⟨x, hx, ?_⟩
  rw [← hw, winner, hfollows.1.hpA, hfollows.1.hpB]

end ChainBeasts.Matchmaker
