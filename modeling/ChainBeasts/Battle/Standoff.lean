import ChainBeasts.Battle.Engine

/-! # When a battle ends

A creature that is walled in waits: it neither strikes nor blocks nor moves, and its turn changes
nothing. If both wait at a distance the loop of `fight` goes round for ever. `Standoff` says, from
the board, the first turn, and the hit points and stamina the creatures bring, when that happens:
the pursuit over the tiles ends with both walled in and alive, and someone could still strike.

In every other case the loop ends: each step costs a point of distance, each strike a point of
stamina, and two turns in a row are never both idle. -/

namespace ChainBeasts.Battle

namespace BattleEngine

variable {I : IntArith} {e : BattleEngine} {powerA powerB : Int} {s : Fight}

/-! ## The pursuit -/

/-- The hit points that stepping onto `p` costs. -/
def toll (e : BattleEngine) (p : Position) : Int := if e.board p.x p.y = .hazard then 1 else 0

/-- Creatures on `p`, whose turn it is, and `q`, `n` steps short of each other and with `x` and `y`
hit points, come to stand walled in before one dies on hazards. -/
def deadlocks (e : BattleEngine) : Nat → Position → Position → Int → Int → Bool
  | 0, _, _, _, _ => false
  | n + 1, p, q, x, y =>
    decide (0 < x) && decide (0 < y) &&
      match e.advance p q with
      | some p' => e.deadlocks n q p' y (x - e.toll p')
      | none =>
        -- the creature on `p` waits, which costs nothing
        match e.advance q p with
        | some q' => e.deadlocks n p q' x (y - e.toll q')
        | none => true

/-- The creatures come to a standoff: walled in out of reach of each other, both alive, and not both
out of stamina. -/
def Standoff (I : IntArith) (e : BattleEngine) (a b : CreatureStats) (seed : BitVec 32) : Prop :=
  (0 < a.totalStamina I ∨ 0 < b.totalStamina I) ∧
    (if aFirst a b seed then
      e.deadlocks 13 ⟨0, 0⟩ ⟨7, 7⟩ (e.enter I a ⟨0, 0⟩).hp (e.enter I b ⟨7, 7⟩).hp
    else
      e.deadlocks 13 ⟨7, 7⟩ ⟨0, 0⟩ (e.enter I b ⟨7, 7⟩).hp (e.enter I a ⟨0, 0⟩).hp) = true

instance (I : IntArith) (e : BattleEngine) (a b : CreatureStats) (seed : BitVec 32) :
    Decidable (Standoff I e a b seed) :=
  inferInstanceAs (Decidable (_ ∧ _))

theorem tread_eq {hp : Int} (hfits : I.Fits hp) (hpos : 0 < hp) (p : Position) :
    tread I e p hp = hp - e.toll p := by
  unfold tread toll
  split
  · exact I.wrap_pred hp hfits hpos
  · omega

theorem deadlocks_dead {n : Nat} {p q : Position} {x y : Int} (h : x ≤ 0 ∨ y ≤ 0) :
    e.deadlocks n p q x y = false := by
  cases n with
  | zero => rfl
  | succ n =>
      unfold deadlocks
      rcases h with hx | hy
      · rw [decide_eq_false (by omega)]
        rfl
      · rw [decide_eq_false (p := 0 < y) (by omega), Bool.and_false, Bool.false_and]

/-! ## Adjacent creatures -/

/-- The creatures are adjacent; an idle turn of the mover is followed by a strike of the other. -/
def strikesLeft (s : Fight) : Nat :=
  2 * (s.mover.sta.toNat + s.other.sta.toNat) + if 0 < s.mover.sta then 0 else 1

/-- **Adjacent creatures fight to an end.** -/
theorem ends_of_adjacent (hs : s.Fits I) (hnear : distance s.mover.pos s.other.pos ≤ 1) :
    (e.loop I powerA powerB).Ends s := by
  refine While.Loop.ends_of_variant
    (fun t => t.Fits I ∧ distance t.mover.pos t.other.pos ≤ 1) strikesLeft ?_ ⟨hs, hnear⟩
  intro t hguard ht
  obtain ⟨hfits, hnear⟩ := ht
  obtain ⟨-, -, hsta⟩ := guard_iff.mp hguard
  obtain ⟨hmover, hother⟩ := body_roles I e powerA powerB t
  obtain ⟨hpos, hspent, hpos', hkept⟩ :=
    take_turn_adjacent I e (if t.aTurn then powerA else powerB) hnear
  refine ⟨⟨fits_body hfits, ?_⟩, ?_⟩
  · rw [hmover, hother, hpos, hpos', distance_comm]
    exact hnear
  · unfold strikesLeft
    rw [hmover, hother, hspent, hkept]
    by_cases hable : 0 < t.mover.sta
    · have hpred := I.wrap_pred _ hfits.1.2 hable
      rw [if_pos hable, if_pos hable, hpred]
      split <;> omega
    · -- the mover only blocks, so the guard gives its foe a strike
      have hfoe : 0 < t.other.sta := by omega
      rw [if_neg hable, if_neg hable, if_pos hfoe]
      omega

/-! ## The approach -/

/-- In a standoff a round only passes the turn. -/
theorem not_ends_of_walled (hguard : (e.loop I powerA powerB).guard s = true)
    (hfar : 1 < distance s.mover.pos s.other.pos)
    (hmover : e.advance s.mover.pos s.other.pos = none)
    (hother : e.advance s.other.pos s.mover.pos = none) :
    ¬ (e.loop I powerA powerB).Ends s := by
  apply While.Loop.not_ends_of_invariant
    (fun t => (e.loop I powerA powerB).guard t = true ∧ 1 < distance t.mover.pos t.other.pos ∧
      e.advance t.mover.pos t.other.pos = none ∧ e.advance t.other.pos t.mover.pos = none)
    ?_ ⟨hguard, hfar, hmover, hother⟩
  intro t ht
  obtain ⟨hgoes, hdist, hstuck, hstuck'⟩ := ht
  obtain ⟨hm, ho⟩ := blocked_roles I powerA powerB hdist hstuck
  obtain ⟨hx, hy, hsta⟩ := guard_iff.mp hgoes
  refine ⟨hgoes, ?_⟩
  rw [guard_iff, hm, ho, distance_comm]
  exact ⟨⟨hy, hx, hsta.symm⟩, hdist, hstuck', hstuck⟩

/-- **The loop ends exactly when the pursuit does not deadlock**, by induction on the distance. -/
theorem ends_iff (n : Nat) (hs : s.Fits I) (hdist : distance s.mover.pos s.other.pos = n + 1)
    (hsta : 0 < s.mover.sta ∨ 0 < s.other.sta) :
    (e.loop I powerA powerB).Ends s ↔
      e.deadlocks n s.mover.pos s.other.pos s.mover.hp s.other.hp = false := by
  induction n generalizing s with
  | zero => exact iff_of_true (ends_of_adjacent hs (by omega)) rfl
  | succ n ih =>
      have hfar : 1 < distance s.mover.pos s.other.pos := by omega
      have hfar' : 1 < distance s.other.pos s.mover.pos := distance_comm s.mover.pos _ ▸ hfar
      cases hguard : (e.loop I powerA powerB).guard s with
      | false =>
          refine iff_of_true (While.Loop.ends_done hguard) (deadlocks_dead ?_)
          rw [← Bool.not_eq_true, guard_iff] at hguard
          omega
      | true =>
          obtain ⟨hx, hy, -⟩ := guard_iff.mp hguard
          rw [deadlocks, decide_eq_true hx, decide_eq_true hy]
          cases hstep : e.advance s.mover.pos s.other.pos with
          | some p =>
              obtain ⟨hm, ho⟩ := step_roles I powerA powerB hfar hstep
              have hcloser := distance_advance hstep
              have hdist' : distance s.other.pos p = n + 1 := by
                rw [distance_comm]
                omega
              rw [While.Loop.ends_round hguard, ih (fits_body hs) (by rw [hm, ho]; exact hdist')
                (by rw [hm, ho]; exact hsta.symm), hm, ho]
              simp only [tread_eq hs.1.1 hx, Bool.and_self, Bool.true_and]
          | none =>
              obtain ⟨hm, ho⟩ := blocked_roles I powerA powerB hfar hstep
              have hgoes : (e.loop I powerA powerB).guard
                  ((e.loop I powerA powerB).body s) = true := by
                rw [guard_iff, hm, ho]
                exact ⟨hy, hx, hsta.symm⟩
              rw [While.Loop.ends_round hguard]
              cases hstep' : e.advance s.other.pos s.mover.pos with
              | none =>
                  simp only [Bool.and_self, Bool.true_eq_false, iff_false]
                  apply not_ends_of_walled hgoes <;> rw [hm, ho]
                  · exact hfar'
                  · exact hstep'
                  · exact hstep
              | some q =>
                  -- the mover waits, and its foe takes the step instead
                  obtain ⟨hm', ho'⟩ := step_roles (s := (e.loop I powerA powerB).body s)
                    I powerA powerB (by rw [hm, ho]; exact hfar') (by rw [hm, ho]; exact hstep')
                  rw [ho] at hm'
                  rw [hm] at ho'
                  have hcloser := distance_advance hstep'
                  have hdist' : distance s.mover.pos q = n + 1 := by
                    rw [distance_comm]
                    rw [distance_comm] at hdist
                    omega
                  rw [While.Loop.ends_round hgoes, ih (fits_body (fits_body hs))
                    (by rw [hm', ho']; exact hdist') (by rw [hm', ho']; exact hsta), hm', ho']
                  simp only [tread_eq hs.2.1 hy, Bool.and_self, Bool.true_and]

/-! ## Whole battles -/

theorem fight_eq_some {a b : CreatureStats} {seed : BitVec 32} {n : Nat} {w : BitVec 32} :
    e.fight I a b seed n = some w ↔
      ∃ s, (e.loop I (a.totalPower I) (b.totalPower I)).run n (e.start I a b seed) = some s ∧
        winner a b s = w := by
  simp [fight]

theorem winner_eq (a b : CreatureStats) (s : Fight) :
    winner a b s = a.id ∨ winner a b s = b.id := by
  unfold winner
  split
  · exact Or.inl rfl
  · exact Or.inr rfl

/-- A battle returns the id of one of its creatures as soon as its loop ends. -/
theorem fight_returns_iff_ends {a b : CreatureStats} {seed : BitVec 32} :
    (∃ n w, e.fight I a b seed n = some w ∧ (w = a.id ∨ w = b.id)) ↔
      (e.loop I (a.totalPower I) (b.totalPower I)).Ends (e.start I a b seed) := by
  constructor
  · rintro ⟨n, w, hrun, -⟩
    obtain ⟨s, hs, -⟩ := fight_eq_some.mp hrun
    exact ⟨s, n, hs⟩
  · rintro ⟨s, n, hs⟩
    exact ⟨n, winner a b s, fight_eq_some.mpr ⟨s, hs, rfl⟩, winner_eq a b s⟩

theorem ends_iff_no_standoff {a b : CreatureStats} (ha : a.Fits I) (hb : b.Fits I)
    (seed : BitVec 32) :
    (e.loop I (a.totalPower I) (b.totalPower I)).Ends (e.start I a b seed) ↔
      ¬ Standoff I e a b seed := by
  have hfa := fits_enter (e := e) ha ⟨0, 0⟩
  have hfb := fits_enter (e := e) hb ⟨7, 7⟩
  unfold Standoff
  by_cases hsta : 0 < a.totalStamina I ∨ 0 < b.totalStamina I
  · rw [and_iff_right hsta, Bool.not_eq_true]
    cases hturn : aFirst a b seed with
    | true =>
        have hmover : (e.start I a b seed).mover = e.enter I a ⟨0, 0⟩ := by
          simp only [start, Fight.mover, hturn, if_true]
        have hother : (e.start I a b seed).other = e.enter I b ⟨7, 7⟩ := by
          simp only [start, Fight.other, hturn, if_true]
        rw [ends_iff 13 ⟨hmover ▸ hfa, hother ▸ hfb⟩ (by rw [hmover, hother]; rfl)
          (by rw [hmover, hother]; exact hsta), hmover, hother]
        rfl
    | false =>
        have hmover : (e.start I a b seed).mover = e.enter I b ⟨7, 7⟩ := by
          simp only [start, Fight.mover, hturn, Bool.false_eq_true, if_false]
        have hother : (e.start I a b seed).other = e.enter I a ⟨0, 0⟩ := by
          simp only [start, Fight.other, hturn, Bool.false_eq_true, if_false]
        rw [ends_iff 13 ⟨hmover ▸ hfb, hother ▸ hfa⟩ (by rw [hmover, hother]; rfl)
          (by rw [hmover, hother]; exact hsta.symm), hmover, hother]
        rfl
  · refine iff_of_true (While.Loop.ends_done ?_) (fun h => hsta h.1)
    simp only [loop, decide_eq_false_iff_not]
    exact fun h => hsta h.2.2

/-- **A battle ends exactly when it does not come to a standoff**, and then names one of the two
creatures. -/
theorem fight_returns_iff_no_standoff (I : IntArith) (e : BattleEngine) (a b : CreatureStats)
    (seed : BitVec 32) (ha : a.Fits I) (hb : b.Fits I) :
    (∃ n w, e.fight I a b seed n = some w ∧ (w = a.id ∨ w = b.id)) ↔ ¬ Standoff I e a b seed := by
  rw [fight_returns_iff_ends, ends_iff_no_standoff ha hb]

/-- One hit point, one point of power, one of stamina. -/
def novice (id : BitVec 32) : CreatureStats := ⟨id, 1, 1, 1, []⟩

theorem novice_fits (id : BitVec 32) : (novice id).Fits .int32 := by
  have hone : IntArith.int32.Fits 1 := by
    show -2 ^ 31 ≤ (1 : Int) ∧ (1 : Int) < 2 ^ 31
    decide
  exact ⟨hone, hone, hone⟩

/-- A wall beside the first corner is walked around. -/
theorem fight_returns_iff_no_standoff_detour :
    (∃ n w, (clearBoard.setTile 1 0 .wall).fight .int32 (novice 1) (novice 2) 0 n = some w ∧
      (w = (novice 1).id ∨ w = (novice 2).id)) ∧
    ¬ Standoff .int32 (clearBoard.setTile 1 0 .wall) (novice 1) (novice 2) 0 := by
  have hmeet : ¬ Standoff .int32 (clearBoard.setTile 1 0 .wall) (novice 1) (novice 2) 0 := by
    decide
  exact ⟨(fight_returns_iff_no_standoff .int32 _ _ _ 0 (novice_fits 1) (novice_fits 2)).mpr hmeet,
    hmeet⟩

/-! ## The wall corridor -/

/-- The layout "Wall Corridor" of the battlefield design: walls all around the board. -/
def wallCorridor : BattleEngine :=
  ⟨fun x y =>
    if x.val = 0 ∨ x.val = 7 ∨ y.val = 0 ∨ y.val = 7 ∨
        ((y.val = 2 ∨ y.val = 5) ∧ 2 ≤ x.val ∧ x.val ≤ 5) then .wall
    else .empty⟩

/-- In the wall corridor neither creature leaves its corner, and the battle goes on for ever. -/
theorem wall_corridor_never_returns :
    ¬ ∃ n w, wallCorridor.fight .int32 (novice 1) (novice 2) 0 n = some w ∧
      (w = (novice 1).id ∨ w = (novice 2).id) := by
  rw [fight_returns_iff_ends, ends_iff_no_standoff (novice_fits 1) (novice_fits 2)]
  decide

end BattleEngine

end ChainBeasts.Battle
