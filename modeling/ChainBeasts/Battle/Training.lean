import ChainBeasts.Battle.Agreement
import ChainBeasts.Contracts.CoinToss

/-! # Training never loses a battle

The coin of the matchmaker knows the ids and the seed only, so a trained creature meets the same
turns. What a win is made of, read off the duel (`wins_iff`), can only improve with power, hit
points and, unless the strikes heal the foe, stamina (`wins_mono`). -/

namespace ChainBeasts.Battle

open Matchmaker (Stats duel coin)

variable {a a' b : Stats} {turnA : Nat → Bool} {x : Tally}

/-- `a` after training. More stamina is only safe for a creature whose strikes do not heal. -/
structure Trained (a a' : Stats) : Prop where
  id : a'.id = a.id
  power : a.power.toInt ≤ a'.power.toInt
  defense : a.defense.toInt ≤ a'.defense.toInt
  stamina : a.stamina.toInt ≤ a'.stamina.toInt
  spends : a'.stamina = a.stamina ∨ 0 ≤ a.power.toInt

/-- `a` ends a duel on a given schedule with no less than `b`. -/
def Wins (a b : Stats) (turnA : Nat → Bool) : Prop :=
  if Over a b then b.defense.toInt ≤ a.defense.toInt
  else if Fatal a b ∧ Fatal b a then
    blows a b ≤ (duel a b turnA).turnsA (blows a b + blows b a - 1)
  else Ahead a b (a.stamina.toInt.toNat * a.power.toInt) (b.stamina.toInt.toNat * b.power.toInt)

theorem wins_iff (hrun : (duel a b turnA).loop.Returns Duel.begin x) :
    (duel a b turnA).leftB x ≤ (duel a b turnA).leftA x ↔ Wins a b turnA := by
  unfold Wins
  by_cases hover : Over a b
  · rw [if_pos hover]
    -- no turn is taken
    have hguard : (duel a b turnA).loop.guard Duel.begin = false := by
      rw [← Matchmaker.duel_begin.guard, ← over_iff]
      exact hover
    rw [hrun.unique (While.Loop.returns_done hguard), ← Matchmaker.duel_begin.hpA,
      ← Matchmaker.duel_begin.hpB]
  · rw [if_neg hover]
    rw [over_iff, Bool.not_eq_false, decide_eq_true_eq] at hover
    exact duel_verdict hover.1 hover.2.1 hrun

/-! ## What training improves -/

theorem total_trained (h : Trained a a') :
    a.stamina.toInt.toNat * a.power.toInt ≤ a'.stamina.toInt.toNat * a'.power.toInt := by
  have hpower : (a.stamina.toInt.toNat : Int) * a.power.toInt ≤
      a.stamina.toInt.toNat * a'.power.toInt :=
    Int.mul_le_mul_of_nonneg_left h.power (by omega)
  have hstamina := h.stamina
  rcases h.spends with hsame | hnonneg
  · rw [hsame]
    exact hpower
  · have hmore : (a.stamina.toInt.toNat : Int) * a'.power.toInt ≤
        a'.stamina.toInt.toNat * a'.power.toInt :=
      Int.mul_le_mul_of_nonneg_right (by omega) (Int.le_trans hnonneg h.power)
    exact Int.le_trans hpower hmore

theorem fatal_trained (h : Trained a a') (hfatal : Fatal a b) : Fatal a' b :=
  Int.le_trans hfatal (total_trained h)

theorem fatal_of_fatal_trained (h : Trained a a') (hfatal : Fatal b a') : Fatal b a :=
  Int.le_trans h.defense hfatal

theorem not_over_trained (h : Trained a a') (hover : ¬ Over a b) : ¬ Over a' b := by
  have hdefense := h.defense
  have hstamina := h.stamina
  unfold Over at hover ⊢
  omega

/-- The turns are a matter of the schedule. -/
theorem turnsA_duel (n : Nat) :
    (duel a b turnA).turnsA n = Nat.count (fun t => turnA t = true) n := rfl

/-- A race is won by as much or more. -/
theorem race_trained (h : Trained a a') (ha : 0 < a.defense.toInt) (hb : 0 < b.defense.toInt)
    (hA : Fatal a b) (hB : Fatal b a')
    (hwins : blows a b ≤ (duel a b turnA).turnsA (blows a b + blows b a - 1)) :
    blows a' b ≤ (duel a b turnA).turnsA (blows a' b + blows b a' - 1) := by
  have ha' : 0 < a'.defense.toInt := Int.lt_of_lt_of_le ha h.defense
  have hpowerA := Duel.pos_of_fatal hb hA
  have hpowerB := Duel.pos_of_fatal ha' hB
  have hfewer : blows a' b ≤ blows a b := Duel.strikes_le_of_stronger hb hpowerA h.power
  have hmore : blows b a ≤ blows b a' := Duel.strikes_le_of_weaker ha h.defense hpowerB
  have hposA : 0 < blows a' b :=
    Duel.strikes_pos hb (Int.lt_of_lt_of_le hpowerA h.power)
  have hposB : 0 < blows b a := Duel.strikes_pos ha hpowerB
  exact Duel.race_mono hposA hfewer hposB hmore hwins

/-- Both were out of stamina, and now `a` is not. -/
theorem wins_of_revived (h : Trained a a') (hover : Over a b) (hover' : ¬ Over a' b)
    (hwins : b.defense.toInt ≤ a.defense.toInt) : Wins a' b turnA := by
  have htotal := total_trained h
  have hdefense := h.defense
  have hnone : b.stamina.toInt.toNat = 0 := by
    unfold Over at hover hover'
    omega
  have hzero : a.stamina.toInt.toNat = 0 := by
    unfold Over at hover hover'
    omega
  have hsafe : ¬ Fatal b a' := by
    unfold Over at hover'
    unfold Fatal
    rw [hnone]
    omega
  unfold Wins
  rw [if_neg hover', if_neg (fun hboth => hsafe hboth.2)]
  unfold Ahead
  rw [hzero] at htotal
  rw [hnone]
  omega

/-- A race stays won, unless `a` comes to survive all of `b`'s strikes. -/
theorem wins_of_race (h : Trained a a') (hover : ¬ Over a b) (hA : Fatal a b)
    (hwins : blows a b ≤ (duel a b turnA).turnsA (blows a b + blows b a - 1)) :
    Wins a' b turnA := by
  have halive : 0 < a.defense.toInt ∧ 0 < b.defense.toInt := by
    unfold Over at hover
    omega
  have hA' := fatal_trained h hA
  unfold Wins
  rw [if_neg (not_over_trained h hover)]
  by_cases hB' : Fatal b a'
  · rw [if_pos ⟨hA', hB'⟩, turnsA_duel, ← turnsA_duel (a := a) (b := b)]
    exact race_trained h halive.1 halive.2 hA hB' hwins
  · rw [if_neg (fun hboth => hB' hboth.2)]
    unfold Ahead
    unfold Fatal at hA' hB'
    omega

theorem wins_of_ahead (h : Trained a a') (hover : ¬ Over a b) (hrace : ¬ (Fatal a b ∧ Fatal b a))
    (hwins : Ahead a b (a.stamina.toInt.toNat * a.power.toInt)
      (b.stamina.toInt.toNat * b.power.toInt)) : Wins a' b turnA := by
  have htotal := total_trained h
  have hdefense := h.defense
  unfold Ahead at hwins
  have hrace' : ¬ (Fatal a' b ∧ Fatal b a') := by
    rintro ⟨-, hB⟩
    have hB' := fatal_of_fatal_trained h hB
    apply hrace
    refine ⟨?_, hB'⟩
    unfold Fatal at hB' ⊢
    omega
  unfold Wins
  rw [if_neg (not_over_trained h hover), if_neg hrace']
  unfold Ahead
  omega

/-- **Training keeps a win**, on any schedule. -/
theorem wins_mono (h : Trained a a') (hwins : Wins a b turnA) : Wins a' b turnA := by
  unfold Wins at hwins
  by_cases hover : Over a b
  · rw [if_pos hover] at hwins
    by_cases hover' : Over a' b
    · rw [Wins, if_pos hover']
      exact Int.le_trans hwins h.defense
    · exact wins_of_revived h hover hover' hwins
  · rw [if_neg hover] at hwins
    by_cases hrace : Fatal a b ∧ Fatal b a
    · rw [if_pos hrace] at hwins
      exact wins_of_race h hover hrace.1 hwins
    · rw [if_neg hrace] at hwins
      exact wins_of_ahead h hover hrace hwins

/-! ## On chain -/

theorem coin_trained (h : Trained a a') (seed : BitVec 32) : coin a' b seed = coin a b seed := by
  unfold coin Matchmaker.seeded
  rw [h.id]

/-- Creatures with different ids settle every match. -/
theorem fight_returns (seed : BitVec 32) (hids : a.id ≠ b.id) :
    ∃ n w, Matchmaker.fight a b seed n = some w :=
  Matchmaker.fight_returns_iff.mpr (Matchmaker.ends_iff.mpr fun h => hids h.1.2)

/-- **Training a creature never turns a won match into a lost one.** -/
theorem training_keeps_win {a a' b : Stats} {seed : BitVec 32} (hids : a.id ≠ b.id)
    (h : Trained a a') (hwin : ∃ n, Matchmaker.fight a b seed n = some a.id) :
    ∃ n, Matchmaker.fight a' b seed n = some a'.id := by
  obtain ⟨n, hrun⟩ := hwin
  obtain ⟨x, hx, hw⟩ := Matchmaker.fight_follows hrun
  have hwins : Wins a b (coin a b seed) := by
    rw [← wins_iff hx]
    by_contra hlost
    rw [if_neg hlost] at hw
    exact hids hw
  have hids' : a'.id ≠ b.id := by rw [h.id]; exact hids
  obtain ⟨n', w', hrun'⟩ := fight_returns seed hids'
  obtain ⟨x', hx', hw'⟩ := Matchmaker.fight_follows hrun'
  refine ⟨n', ?_⟩
  rw [hrun', hw', if_pos]
  rw [wins_iff hx', coin_trained h]
  exact wins_mono h hwins

/-- Creature 1 wins its match against creature 2, and does so with twice the power. -/
theorem training_keeps_win_double :
    ∃ n, Matchmaker.fight (duellist 1 4) (duellist 2 1) 0 n = some (duellist 1 4).id := by
  have hwin : Matchmaker.fight (duellist 1 2) (duellist 2 1) 0 5 = some (duellist 1 2).id := by
    decide
  exact training_keeps_win (a := duellist 1 2) (by decide)
    ⟨rfl, by decide, by decide, by decide, Or.inl rfl⟩ ⟨5, hwin⟩

end ChainBeasts.Battle
