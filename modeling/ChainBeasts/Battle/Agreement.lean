import ChainBeasts.Battle.Arena
import ChainBeasts.Contracts.Matchmaker

/-! # One rule, three implementations

The battle rule is written three times: in the battlefield engine, in the matchmaker contract, and
in `fight` of the web simulator, which lets `a` begin and alternates. Each is a duel, on the schedule
of its own, and the engine's is the only one with blocking. `RulesAgree` says what has to be the case
for the three to name the same winner; nothing in it is computed by a fight.

* If both creatures are fatal to each other, only the order of the strikes matters.
* Otherwise only the totals matter, and the blocked strikes of the engine are the difference. -/

namespace ChainBeasts

/-! ## The web simulator -/

namespace Simulator

/-- A creature object; its numbers are exact as long as they are small. -/
structure Creature where
  id : BitVec 32
  power : Int
  defense : Int
  stamina : Int

/-- The local variables of `fight`. -/
structure Bout where
  hpA : Int
  hpB : Int
  staA : Int
  staB : Int
  aTurn : Bool

def loop (a b : Creature) : While.Loop Bout where
  guard s := decide (0 < s.hpA ∧ 0 < s.hpB ∧ (0 < s.staA ∨ 0 < s.staB))
  body s :=
    let s :=
      if s.aTurn then
        if 0 < s.staA then { s with hpB := s.hpB - a.power, staA := s.staA - 1 } else s
      else
        if 0 < s.staB then { s with hpA := s.hpA - b.power, staB := s.staB - 1 } else s
    { s with aTurn := !s.aTurn }

def start (a b : Creature) : Bout where
  hpA := a.defense
  hpB := b.defense
  staA := a.stamina
  staB := b.stamina
  aTurn := true

def winner (a b : Creature) (s : Bout) : BitVec 32 := if s.hpA ≥ s.hpB then a.id else b.id

/-- `fight(a, b)`, given up after `n` rounds of its loop. -/
def fight (a b : Creature) (n : Nat) : Option (BitVec 32) :=
  ((loop a b).run n (start a b)).map (winner a b)

end Simulator

open Matchmaker (Stats duel duel_begin duel_dealtA duel_dealtB coin)

namespace Matchmaker.Stats

/-- The same creature in the engine, without items. -/
def engine (s : Stats) : Battle.CreatureStats :=
  ⟨s.id, s.power.toInt, s.defense.toInt, s.stamina.toInt, []⟩

/-- The same creature in the browser. -/
def browser (s : Stats) : Simulator.Creature :=
  ⟨s.id, s.power.toInt, s.defense.toInt, s.stamina.toInt⟩

end Matchmaker.Stats

namespace Simulator

variable {a b : Stats}

/-- The schedule of the web simulator. -/
def inTurn (t : Nat) : Bool := decide (t % 2 = 0)

/-- The variables of the loop after the turns of a tally. -/
def Follows (a b : Stats) (s : Bout) (x : Tally) : Prop :=
  (duel a b inTurn).Scored x s.hpA s.hpB s.staA s.staB ∧ s.aTurn = inTurn x.turns

theorem follows_body {s : Bout} {x : Tally} (h : Follows a b s x) :
    Follows a b ((loop a.browser b.browser).body s) ((duel a b inTurn).loop.body x) := by
  obtain ⟨hscored, hturn⟩ := h
  have hflip : (!s.aTurn) = inTurn (x.turns + 1) := by
    rw [hturn, inTurn, inTurn]
    grind
  refine ⟨?_, ?_⟩
  · unfold loop
    cases hcoin : s.aTurn with
    | true =>
        have hsched : (duel a b inTurn).turnA x.turns = true := hturn.symm.trans hcoin
        by_cases hable : 0 < s.staA
        · simp only [hcoin, hable, if_true]
          exact hscored.strikeA hsched hable (duel_dealtA _)
        · simp only [hcoin, hable, if_true, if_false]
          exact hscored.restA hsched hable
    | false =>
        have hsched : (duel a b inTurn).turnA x.turns = false := hturn.symm.trans hcoin
        by_cases hable : 0 < s.staB
        · simp only [hcoin, hable, Bool.false_eq_true, if_false, if_true]
          exact hscored.strikeB hsched hable (duel_dealtB _)
        · simp only [hcoin, hable, Bool.false_eq_true, if_false]
          exact hscored.restB hsched hable
  · rw [Duel.body_turns, ← hflip]
    unfold loop
    simp only
    split <;> split <;> rfl

/-- **A fight in the browser is a duel in alternate turns**, begun by `a`. -/
theorem fight_follows {n : Nat} {w : BitVec 32} (h : fight a.browser b.browser n = some w) :
    ∃ x, (duel a b inTurn).loop.Returns Duel.begin x ∧
      w = if (duel a b inTurn).leftB x ≤ (duel a b inTurn).leftA x then a.id else b.id := by
  obtain ⟨s, hrun, hw⟩ := Option.map_eq_some_iff.mp h
  have hbegin : Follows a b (start a.browser b.browser) Duel.begin := ⟨duel_begin, rfl⟩
  obtain ⟨x, hx, hfollows⟩ := While.Loop.Returns.simulation (Follows a b)
    (fun t y hty => hty.1.guard) (fun t y hty _ => follows_body hty) hbegin ⟨n, hrun⟩
  refine ⟨x, hx, ?_⟩
  rw [← hw, winner, hfollows.1.hpA, hfollows.1.hpB]
  rfl

end Simulator

namespace Battle

open BattleEngine (clearBoard skirmish closeFirst)

variable {a b : Stats} {x : Tally}

/-! ## What decides a fight -/

/-- The loop is not entered. -/
def Over (a b : Stats) : Prop :=
  a.defense.toInt ≤ 0 ∨ b.defense.toInt ≤ 0 ∨ (a.stamina.toInt ≤ 0 ∧ b.stamina.toInt ≤ 0)

/-- `a` has the stamina to bring `b` down. -/
def Fatal (a b : Stats) : Prop := b.defense.toInt ≤ a.stamina.toInt.toNat * a.power.toInt

instance (a b : Stats) : Decidable (Over a b) := inferInstanceAs (Decidable (_ ∨ _ ∨ _))
instance (a b : Stats) : Decidable (Fatal a b) := inferInstanceAs (Decidable (_ ≤ _))

/-- The strikes that takes. -/
def blows (a b : Stats) : Nat := Duel.strikes b.defense.toInt a.power.toInt

/-- `a` does not end up with less than `b`, when they deal `dealtA` and `dealtB`. -/
def Ahead (a b : Stats) (dealtA dealtB : Int) : Prop :=
  b.defense.toInt - dealtA ≤ a.defense.toInt - dealtB

instance (a b : Stats) (dealtA dealtB : Int) : Decidable (Ahead a b dealtA dealtB) :=
  inferInstanceAs (Decidable (_ ≤ _))

theorem fatal_facts (hlife : 0 < b.defense.toInt) (h : Fatal a b) :
    (blows a b : Int) ≤ a.stamina.toInt ∧ 0 < blows a b ∧
      ∀ k : Nat, 0 < b.defense.toInt - k * a.power.toInt ↔ k < blows a b := by
  have hpower := Duel.pos_of_fatal hlife h
  have hpos := Duel.strikes_pos hlife hpower
  have henough := (Duel.le_mul_iff_strikes hlife hpower _).mp h
  refine ⟨?_, hpos, ?_⟩
  · unfold blows
    omega
  · intro k
    have hk := Duel.le_mul_iff_strikes hlife hpower k
    unfold blows
    omega

/-- **A fight at full strength.** -/
theorem duel_verdict {turnA : Nat → Bool} (ha : 0 < a.defense.toInt) (hb : 0 < b.defense.toInt)
    (hrun : (duel a b turnA).loop.Returns Duel.begin x) :
    (duel a b turnA).leftB x ≤ (duel a b turnA).leftA x ↔
      if Fatal a b ∧ Fatal b a then
        blows a b ≤ (duel a b turnA).turnsA (blows a b + blows b a - 1)
      else Ahead a b (a.stamina.toInt.toNat * a.power.toInt) (b.stamina.toInt.toNat * b.power.toInt)
    := by
  by_cases hboth : Fatal a b ∧ Fatal b a
  · rw [if_pos hboth]
    obtain ⟨hm, hmpos, hA⟩ := fatal_facts hb hboth.1
    obtain ⟨hn, hnpos, hB⟩ := fatal_facts ha hboth.2
    exact Duel.Returns.race hm hn ⟨hmpos, hnpos⟩ (fun t _ _ => hA _) (fun t _ _ => hB _) hrun
  · rw [if_neg hboth]
    exact Duel.Returns.settled (fun k hk => Duel.fatal_mono hb hk)
      (fun k hk => Duel.fatal_mono ha hk) hboth hrun

theorem skirmish_turnsA {f : Nat} (hf : f ≤ 1) (t : Nat) :
    (skirmish a.engine b.engine f).turnsA t = (t + f) / 2 := by
  rcases Nat.le_one_iff_eq_zero_or_eq_one.mp hf with rfl | rfl
  · exact Duel.turnsA_alternate' rfl t
  · apply Duel.turnsA_alternate
    funext t
    simp only [skirmish]
    grind

/-- As long as nobody has had more turns than it has stamina for, no strike has been blocked. -/
theorem skirmish_unblocked {f t : Nat} (hf : f ≤ 1)
    (hA : (skirmish a.engine b.engine f).turnsA t ≤ a.stamina.toInt.toNat)
    (hB : (skirmish a.engine b.engine f).turnsB t ≤ b.stamina.toInt.toNat) :
    (skirmish a.engine b.engine f).dealtA ((skirmish a.engine b.engine f).turnsA t) =
        (skirmish a.engine b.engine f).turnsA t * a.power.toInt ∧
      (skirmish a.engine b.engine f).dealtB ((skirmish a.engine b.engine f).turnsB t) =
        (skirmish a.engine b.engine f).turnsB t * b.power.toInt := by
  have hsum := Duel.turns_add (d := skirmish a.engine b.engine f) t
  have hturns := skirmish_turnsA (a := a) (b := b) hf t
  refine ⟨?_, ?_⟩
  · apply Duel.blunted_of_le
    show _ ≤ b.stamina.toInt.toNat + f
    omega
  · apply Duel.blunted_of_le
    show _ ≤ a.stamina.toInt.toNat + (1 - f)
    omega

/-- **A fight with blocking**, if `f` is 1 for a first turn of `a` and 0 for one of `b`. A race is
over before anyone is out of stamina, so it is run at full strength. -/
theorem skirmish_verdict {f : Nat} (hf : f ≤ 1) (ha : 0 < a.defense.toInt)
    (hb : 0 < b.defense.toInt)
    (hrun : (skirmish a.engine b.engine f).loop.Returns Duel.begin x) :
    (skirmish a.engine b.engine f).leftB x ≤ (skirmish a.engine b.engine f).leftA x ↔
      if Fatal a b ∧ Fatal b a then
        blows a b ≤ (blows a b + blows b a - 1 + f) / 2
      else
        Ahead a b
          (Duel.blunted a.power.toInt (b.stamina.toInt.toNat + f) a.stamina.toInt.toNat)
          (Duel.blunted b.power.toInt (a.stamina.toInt.toNat + (1 - f)) b.stamina.toInt.toNat) := by
  by_cases hboth : Fatal a b ∧ Fatal b a
  · rw [if_pos hboth, ← skirmish_turnsA hf]
    obtain ⟨hm, hmpos, hA⟩ := fatal_facts hb hboth.1
    obtain ⟨hn, hnpos, hB⟩ := fatal_facts ha hboth.2
    apply Duel.Returns.race hm hn ⟨hmpos, hnpos⟩ ?_ ?_ hrun
    · intro t hltm hltn
      rw [(skirmish_unblocked hf (by omega) (by omega)).1]
      exact hA _
    · intro t hltm hltn
      rw [(skirmish_unblocked hf (by omega) (by omega)).2]
      exact hB _
  · rw [if_neg hboth]
    apply Duel.Returns.settled (fun k hk => Duel.blunted_fatal_mono hb hk)
      (fun k hk => Duel.blunted_fatal_mono ha hk) ?_ hrun
    intro h
    exact hboth ⟨Duel.fatal_of_blunted hb h.1, Duel.fatal_of_blunted ha h.2⟩

/-! ## The three winners -/

/-- The ids differ in their lowest bit. -/
def oddIds (a b : Stats) : Bool := decide ((a.id ^^^ b.id) &&& 1 ≠ 0)

theorem closeFirst_eq : closeFirst a.engine b.engine 0 = if oddIds a b then 1 else 0 := by
  unfold closeFirst BattleEngine.aFirst oddIds Matchmaker.Stats.engine
  simp

/-- The turns of `a` among the first `n` that the coin of the contract gives. -/
def coinTurns (a b : Stats) (n : Nat) : Nat := Nat.count (fun t => coin a b 0 t = true) n

/-- **When the three implementations name the same winner.** The ids are one id, or no fight takes
place, or both creatures are fatal and the coin lets the quicker one finish first, a tie in speed
being `a`'s in the engine, or the blocked strikes do not change who is ahead in the end. -/
def RulesAgree (a b : Stats) : Prop :=
  a.id = b.id ∨ Over a b ∨
    if Fatal a b ∧ Fatal b a then
      (blows a b ≤ coinTurns a b (blows a b + blows b a - 1) ↔ blows a b ≤ blows b a) ∧
        (blows a b = blows b a → oddIds a b = true)
    else
      let f := if oddIds a b then 1 else 0
      (Ahead a b (a.stamina.toInt.toNat * a.power.toInt) (b.stamina.toInt.toNat * b.power.toInt) ↔
        Ahead a b
          (Duel.blunted a.power.toInt (b.stamina.toInt.toNat + f) a.stamina.toInt.toNat)
          (Duel.blunted b.power.toInt (a.stamina.toInt.toNat + (1 - f)) b.stamina.toInt.toNat))

/-- What a fight that is over before it begins returns. -/
def survivor (a b : Stats) : BitVec 32 :=
  if a.defense.toInt ≥ b.defense.toInt then a.id else b.id

theorem over_iff : Over a b ↔ decide (0 < a.defense.toInt ∧ 0 < b.defense.toInt ∧
    (0 < a.stamina.toInt ∨ 0 < b.stamina.toInt)) = false := by
  rw [decide_eq_false_iff_not]
  unfold Over
  omega

section
variable {n : Nat} {w : BitVec 32}

theorem engine_over (hover : Over a b)
    (h : clearBoard.fight .exact a.engine b.engine 0 n = some w) : w = survivor a b := by
  rw [BattleEngine.fight, While.Loop.run_done (over_iff.mp hover)] at h
  exact (Option.some.inj h).symm

theorem contract_over (hover : Over a b) (h : Matchmaker.fight a b 0 n = some w) :
    w = survivor a b := by
  rw [Matchmaker.fight, While.Loop.run_done (over_iff.mp hover)] at h
  exact (Option.some.inj h).symm

theorem browser_over (hover : Over a b) (h : Simulator.fight a.browser b.browser n = some w) :
    w = survivor a b := by
  rw [Simulator.fight, While.Loop.run_done (over_iff.mp hover)] at h
  exact (Option.some.inj h).symm

end

theorem ite_id_eq_iff {p q : Prop} [Decidable p] [Decidable q] (hne : a.id ≠ b.id) :
    ((if p then a.id else b.id) = if q then a.id else b.id) ↔ (p ↔ q) := by
  grind

/-- **The three implementations agree exactly when the rules do.** -/
theorem fights_agree_iff (a b : Stats) {n₁ n₂ n₃ : Nat} {w₁ w₂ w₃ : BitVec 32}
    (h₁ : clearBoard.fight .exact a.engine b.engine 0 n₁ = some w₁)
    (h₂ : Matchmaker.fight a b 0 n₂ = some w₂)
    (h₃ : Simulator.fight a.browser b.browser n₃ = some w₃) :
    (w₁ = w₂ ∧ w₂ = w₃) ↔ RulesAgree a b := by
  by_cases hid : a.id = b.id
  · refine iff_of_true ?_ (Or.inl hid)
    obtain ⟨s₁, -, rfl⟩ := Option.map_eq_some_iff.mp h₁
    obtain ⟨s₂, -, rfl⟩ := Option.map_eq_some_iff.mp h₂
    obtain ⟨s₃, -, rfl⟩ := Option.map_eq_some_iff.mp h₃
    simp [BattleEngine.winner, Matchmaker.winner, Simulator.winner, Matchmaker.Stats.engine,
      Matchmaker.Stats.browser, hid]
  by_cases hover : Over a b
  · refine iff_of_true ?_ (Or.inr (Or.inl hover))
    rw [engine_over hover h₁, contract_over hover h₂, browser_over hover h₃]
    exact ⟨rfl, rfl⟩
  · have hguard : decide (0 < a.defense.toInt ∧ 0 < b.defense.toInt ∧
        (0 < a.stamina.toInt ∨ 0 < b.stamina.toInt)) = true := by
      rw [over_iff, Bool.not_eq_false] at hover
      exact hover
    obtain ⟨ha, hb, -⟩ := of_decide_eq_true hguard
    obtain ⟨x₁, hrun₁, rfl⟩ := BattleEngine.fight_engages h₁ hguard
    obtain ⟨x₂, hrun₂, rfl⟩ := Matchmaker.fight_follows h₂
    obtain ⟨x₃, hrun₃, rfl⟩ := Simulator.fight_follows h₃
    have hf : closeFirst a.engine b.engine 0 ≤ 1 := by
      rw [closeFirst_eq]
      split <;> omega
    have hverdict₁ := skirmish_verdict hf ha hb hrun₁
    have hverdict₂ := duel_verdict ha hb hrun₂
    have hverdict₃ := duel_verdict ha hb hrun₃
    have hcoin : ∀ t, (duel a b (coin a b 0)).turnsA t = coinTurns a b t := fun _ => rfl
    have halternate := Duel.turnsA_alternate (d := duel a b Simulator.inTurn) rfl
    rw [RulesAgree, or_iff_right hid, or_iff_right hover]
    show ((if _ then a.id else b.id) = _ ∧ _ = _) ↔ _
    rw [ite_id_eq_iff hid, ite_id_eq_iff hid, hverdict₁, hverdict₂, hverdict₃, closeFirst_eq]
    by_cases hboth : Fatal a b ∧ Fatal b a
    · obtain ⟨-, hm, -⟩ := fatal_facts hb hboth.1
      obtain ⟨-, hn, -⟩ := fatal_facts ha hboth.2
      have hfirst : blows a b ≤ (blows a b + blows b a - 1 + 1) / 2 ↔ blows a b ≤ blows b a := by
        omega
      have hsecond : blows a b ≤ (blows a b + blows b a - 1 + 0) / 2 ↔ blows a b < blows b a := by
        omega
      simp only [if_pos hboth, hcoin, halternate, hfirst]
      cases oddIds a b with
      | true =>
          rw [if_pos rfl, hfirst]
          grind
      | false =>
          -- the engine gives a tie in speed to `b`
          rw [if_neg Bool.false_ne_true, hsecond]
          grind
    · simp only [if_neg hboth, and_true]
      exact iff_comm

/-- One hit point, one strike, of the given strength. -/
def duellist (id power : BitVec 32) : Stats := ⟨power, 1, 1, id⟩

/-- Creatures 1 and 2 meet as in the matchmaker's own test, and all three name creature 1. -/
theorem fights_agree_iff_odd : RulesAgree (duellist 1 2) (duellist 2 1) := by
  have h₁ : clearBoard.fight .exact (duellist 1 2).engine (duellist 2 1).engine 0 20 = some 1 := by
    decide
  have h₂ : Matchmaker.fight (duellist 1 2) (duellist 2 1) 0 5 = some 1 := by decide
  have h₃ : Simulator.fight (duellist 1 2).browser (duellist 2 1).browser 5 = some 1 := by decide
  exact (fights_agree_iff _ _ h₁ h₂ h₃).mp ⟨rfl, rfl⟩

/-- Creatures 1 and 3 are each felled by one strike. The browser lets 1 strike first; in the engine
and in the contract 3 does. -/
theorem fights_disagree_even :
    ¬ ∀ w₁ w₂ w₃,
      (∃ n, clearBoard.fight .exact (duellist 1 1).engine (duellist 3 1).engine 0 n = some w₁) →
      (∃ n, Matchmaker.fight (duellist 1 1) (duellist 3 1) 0 n = some w₂) →
      (∃ n, Simulator.fight (duellist 1 1).browser (duellist 3 1).browser n = some w₃) →
      w₁ = w₂ ∧ w₂ = w₃ := by
  intro h
  have hagree := h 3 3 1 ⟨20, by decide⟩ ⟨5, by decide⟩ ⟨5, by decide⟩
  exact absurd hagree.2 (by decide)

end Battle

end ChainBeasts
