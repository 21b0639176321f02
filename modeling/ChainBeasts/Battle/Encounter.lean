import ChainBeasts.Battle.Arena

/-! # Invariants of a battle

What holds each time the loop of `fight` tests its guard, on any board, as long as no `int`
overflows: where the creatures stand, who blocks, and how far the stamina has gone (`Sound`); and
what one turn may change (`Turn`). A creature only blocks when it is out of stamina, and then the
guard says that its foe is not, so a block is struck away before its owner's next turn. -/

namespace ChainBeasts.Battle

namespace Fight

/-- How far the creatures are apart. -/
def gap (s : Fight) : Nat := distance s.a.pos s.b.pos

/-- The creature whose turn it is strikes. -/
def Strikes (s : Fight) : Prop := s.gap ≤ 1 ∧ 0 < s.mover.sta

instance (s : Fight) : Decidable s.Strikes := inferInstanceAs (Decidable (_ ∧ _))

theorem gap_eq (s : Fight) : s.gap = distance s.mover.pos s.other.pos := by
  unfold gap mover other
  cases s.aTurn with
  | true => rfl
  | false => exact distance_comm _ _

end Fight

namespace BattleEngine

variable {I : IntArith} {e : BattleEngine} {power powerA powerB : Int} {me foe : Fighter}
  {s : Fight}

/-! ## One turn -/

theorem take_turn_strike (hnear : distance me.pos foe.pos ≤ 1) (hable : 0 < me.sta) :
    takeTurn I e power me foe =
      ({ me with sta := I.wrap (me.sta - 1) },
        { foe with
          hp := I.wrap (foe.hp - damage I power foe.block)
          block := if 0 < foe.block then 0 else foe.block }) := by
  rw [takeTurn, if_pos hnear, if_pos hable]

theorem take_turn_block (hnear : distance me.pos foe.pos ≤ 1) (hspent : ¬ 0 < me.sta) :
    takeTurn I e power me foe = ({ me with block := I.wrap (me.block + 1) }, foe) := by
  rw [takeTurn, if_pos hnear, if_neg hspent]

theorem advance_free {p q r : Position} (h : e.advance p q = some r) : e.tileAt r.x r.y ≠ .wall := by
  unfold advance free at h
  grind

theorem onBoard_of_free {p : Position} (h : e.tileAt p.x p.y ≠ .wall) : p.OnBoard := by
  unfold tileAt at h
  split at h
  · next hon => exact hon
  · exact absurd rfl h

/-- What a turn of `me`, of strength `power`, against `foe` does to the two. -/
structure Exchange (power : Int) (me foe me' foe' : Fighter) : Prop where
  closer : distance me'.pos foe'.pos ≤ distance me.pos foe.pos
  step : distance me.pos foe.pos ≤ distance me'.pos foe'.pos + 1
  apart : 0 < distance me.pos foe.pos → 0 < distance me'.pos foe'.pos
  still : distance me.pos foe.pos ≤ 1 → me'.pos = me.pos ∧ foe'.pos = foe.pos
  spent : me'.sta = me.sta - if distance me.pos foe.pos ≤ 1 ∧ 0 < me.sta then 1 else 0
  kept : foe'.sta = foe.sta
  hit : distance me.pos foe.pos ≤ 1 ∧ 0 < me.sta →
    foe'.hp = foe.hp - damage .exact power foe.block

theorem take_turn_exchange (e : BattleEngine) (power : Int) (me foe : Fighter) :
    Exchange power me foe (takeTurn .exact e power me foe).1
      (takeTurn .exact e power me foe).2 := by
  by_cases hnear : distance me.pos foe.pos ≤ 1
  · by_cases hable : 0 < me.sta
    · have hstrikes : distance me.pos foe.pos ≤ 1 ∧ 0 < me.sta := ⟨hnear, hable⟩
      rw [take_turn_strike hnear hable]
      refine ⟨Nat.le_refl _, Nat.le_succ _, id, fun _ => ⟨rfl, rfl⟩, ?_, rfl, fun _ => rfl⟩
      rw [if_pos hstrikes]
      rfl
    · rw [take_turn_block hnear hable]
      refine ⟨Nat.le_refl _, Nat.le_succ _, id, fun _ => ⟨rfl, rfl⟩, ?_, rfl, ?_⟩
      · rw [if_neg (fun h => hable h.2), Int.sub_zero]
      · intro h
        exact absurd h.2 hable
  · have hfar : 1 < distance me.pos foe.pos := Nat.lt_of_not_le hnear
    cases hstep : e.advance me.pos foe.pos with
    | some r =>
        have hcloser := distance_advance hstep
        rw [take_turn_step hfar hstep]
        refine ⟨?_, ?_, ?_, fun h => absurd h hnear, ?_, rfl, fun h => absurd h.1 hnear⟩
        · show distance r foe.pos ≤ distance me.pos foe.pos
          omega
        · show distance me.pos foe.pos ≤ distance r foe.pos + 1
          omega
        · intro _
          show 0 < distance r foe.pos
          omega
        · rw [if_neg (fun h => hnear h.1), Int.sub_zero]
    | none =>
        rw [take_turn_blocked hfar hstep]
        refine ⟨Nat.le_refl _, Nat.le_succ _, id, fun h => absurd h hnear, ?_, rfl,
          fun h => absurd h.1 hnear⟩
        rw [if_neg (fun h => hnear h.1), Int.sub_zero]

/-! ## Where a creature may be -/

/-- On the board, on its corner or off the walls, and with no less stamina than it can have spent. -/
structure Placed (e : BattleEngine) (corner : Position) (stamina : Int) (f : Fighter) : Prop where
  on : f.pos.OnBoard
  free : f.pos = corner ∨ e.tileAt f.pos.x f.pos.y ≠ .wall
  least : min 0 stamina ≤ f.sta

theorem take_turn_placed {corner corner' : Position} {sta sta' : Int}
    (hme : Placed e corner sta me) (hfoe : Placed e corner' sta' foe) (power : Int) :
    Placed e corner sta (takeTurn .exact e power me foe).1 ∧
      Placed e corner' sta' (takeTurn .exact e power me foe).2 := by
  have hturn := take_turn_exchange e power me foe
  have hleast : min 0 sta ≤ (takeTurn .exact e power me foe).1.sta := by
    have hbefore := hme.least
    rw [hturn.spent]
    split <;> omega
  have hleast' : min 0 sta' ≤ (takeTurn .exact e power me foe).2.sta := by
    rw [hturn.kept]
    exact hfoe.least
  by_cases hnear : distance me.pos foe.pos ≤ 1
  · obtain ⟨hpos, hpos'⟩ := hturn.still hnear
    refine ⟨⟨?_, ?_, hleast⟩, ⟨?_, ?_, hleast'⟩⟩
    · rw [hpos]
      exact hme.on
    · rw [hpos]
      exact hme.free
    · rw [hpos']
      exact hfoe.on
    · rw [hpos']
      exact hfoe.free
  · have hfar : 1 < distance me.pos foe.pos := Nat.lt_of_not_le hnear
    cases hstep : e.advance me.pos foe.pos with
    | some r =>
        have hfree := advance_free hstep
        rw [take_turn_step hfar hstep] at hleast ⊢
        exact ⟨⟨onBoard_of_free hfree, Or.inr hfree, hleast⟩, hfoe⟩
    | none =>
        rw [take_turn_blocked hfar hstep]
        exact ⟨hme, hfoe⟩

/-! ## Who blocks -/

/-- Whoever has the turn does not block. Its foe has a block point only if it is adjacent and out of
stamina. -/
def Guarded (s : Fight) : Prop :=
  s.mover.block = 0 ∧
    (s.other.block = 0 ∨ (s.other.block = 1 ∧ s.other.sta ≤ 0 ∧
      distance s.mover.pos s.other.pos ≤ 1))

theorem body_guarded (hguard : (e.loop .exact powerA powerB).guard s = true) (hs : Guarded s) :
    Guarded ((e.loop .exact powerA powerB).body s) := by
  obtain ⟨-, -, hsta⟩ := guard_iff.mp hguard
  obtain ⟨hmover, hother⟩ := body_roles .exact e powerA powerB s
  obtain ⟨hidle, hblock⟩ := hs
  unfold Guarded
  rw [hmover, hother]
  by_cases hnear : distance s.mover.pos s.other.pos ≤ 1
  · by_cases hable : 0 < s.mover.sta
    · -- a strike takes the block away
      rw [take_turn_strike hnear hable]
      refine ⟨?_, Or.inl hidle⟩
      show (if 0 < s.other.block then 0 else s.other.block) = 0
      split <;> omega
    · -- the mover blocks, and by the guard its foe can strike next
      rw [take_turn_block hnear hable]
      refine ⟨?_, Or.inr ⟨?_, ?_, ?_⟩⟩
      · show s.other.block = 0
        omega
      · show s.mover.block + 1 = 1
        omega
      · exact Int.not_lt.mp hable
      · rw [distance_comm]
        exact hnear
  · have hfar : 1 < distance s.mover.pos s.other.pos := Nat.lt_of_not_le hnear
    have hnone : s.other.block = 0 := by omega
    cases hstep : e.advance s.mover.pos s.other.pos with
    | some r =>
        rw [take_turn_step hfar hstep]
        exact ⟨hnone, Or.inl hidle⟩
    | none =>
        rw [take_turn_blocked hfar hstep]
        exact ⟨hnone, Or.inl hidle⟩

/-- Block points are 0, or 1 for a creature without stamina. -/
theorem Guarded.block (hs : Guarded s) :
    (s.a.block = 0 ∨ (s.a.block = 1 ∧ s.a.sta ≤ 0)) ∧
      (s.b.block = 0 ∨ (s.b.block = 1 ∧ s.b.sta ≤ 0)) := by
  unfold Guarded Fight.mover Fight.other at hs
  cases hturn : s.aTurn with
  | true =>
      rw [hturn, if_pos rfl, if_pos rfl] at hs
      exact ⟨Or.inl hs.1, hs.2.imp_right fun h => ⟨h.1, h.2.1⟩⟩
  | false =>
      rw [hturn, if_neg Bool.false_ne_true, if_neg Bool.false_ne_true] at hs
      exact ⟨hs.2.imp_right fun h => ⟨h.1, h.2.1⟩, Or.inl hs.1⟩

/-! ## Every turn -/

/-- What a turn may change, when `s'` follows `s`: the mover of `s` is the other of `s'`. -/
structure Turn (powerA powerB : Int) (s s' : Fight) : Prop where
  closer : s'.gap ≤ s.gap
  step : s.gap ≤ s'.gap + 1
  still : s.gap ≤ 1 → s'.a.pos = s.a.pos ∧ s'.b.pos = s.b.pos
  spent : s'.other.sta = s.mover.sta - if s.Strikes then 1 else 0
  kept : s'.mover.sta = s.other.sta
  hit : s.Strikes → s'.mover.hp = s.other.hp -
    if 0 < s.other.block then max 0 ((if s.aTurn then powerA else powerB) - 1)
    else if s.aTurn then powerA else powerB

theorem damage_exact {block : Int} (hblock : block = 0 ∨ block = 1) :
    damage .exact power block = if 0 < block then max 0 (power - 1) else power := by
  unfold damage
  rcases hblock with rfl | rfl
  · rfl
  · show (if power - 1 < 0 then 0 else power - 1) = max 0 (power - 1)
    split <;> omega

theorem body_turn (hs : Guarded s) :
    Turn powerA powerB s ((e.loop .exact powerA powerB).body s) := by
  have hturn := take_turn_exchange e (if s.aTurn then powerA else powerB) s.mover s.other
  obtain ⟨hmover, hother⟩ := body_roles .exact e powerA powerB s
  have hgap : ((e.loop .exact powerA powerB).body s).gap = distance
      (takeTurn .exact e (if s.aTurn then powerA else powerB) s.mover s.other).1.pos
      (takeTurn .exact e (if s.aTurn then powerA else powerB) s.mover s.other).2.pos := by
    rw [Fight.gap_eq, hmover, hother, distance_comm]
  constructor
  · rw [hgap, Fight.gap_eq s]
    exact hturn.closer
  · rw [hgap, Fight.gap_eq s]
    exact hturn.step
  · intro hnear
    rw [Fight.gap_eq] at hnear
    obtain ⟨hpos, hpos'⟩ := hturn.still hnear
    obtain ⟨a, b, turn⟩ := s
    cases turn with
    | true => exact ⟨hpos, hpos'⟩
    | false => exact ⟨hpos', hpos⟩
  · rw [hother, hturn.spent, ← Fight.gap_eq]
    rfl
  · rw [hmover, hturn.kept]
  · intro hstrikes
    have hblock : s.other.block = 0 ∨ s.other.block = 1 := hs.2.imp_right And.left
    rw [hmover, hturn.hit ⟨Fight.gap_eq s ▸ hstrikes.1, hstrikes.2⟩, damage_exact hblock]

/-- What holds whenever the guard is tested, of creatures that set out with the given stamina. -/
structure Sound (e : BattleEngine) (staA staB : Int) (s : Fight) : Prop where
  placedA : Placed e ⟨0, 0⟩ staA s.a
  placedB : Placed e ⟨7, 7⟩ staB s.b
  apart : 1 ≤ s.gap
  guarded : Guarded s

variable {staA staB : Int}

theorem body_sound (hguard : (e.loop .exact powerA powerB).guard s = true)
    (hs : Sound e staA staB s) : Sound e staA staB ((e.loop .exact powerA powerB).body s) := by
  have hguarded := body_guarded hguard hs.guarded
  have hapart : 1 ≤ ((e.loop .exact powerA powerB).body s).gap := by
    have hturn := take_turn_exchange e (if s.aTurn then powerA else powerB) s.mover s.other
    obtain ⟨hmover, hother⟩ := body_roles .exact e powerA powerB s
    have hbefore := hs.apart
    rw [Fight.gap_eq] at hbefore
    rw [Fight.gap_eq, hmover, hother, distance_comm]
    exact hturn.apart hbefore
  obtain ⟨a, b, turn⟩ := s
  cases turn with
  | true =>
      obtain ⟨hA, hB⟩ := take_turn_placed hs.placedA hs.placedB powerA
      exact ⟨hA, hB, hapart, hguarded⟩
  | false =>
      obtain ⟨hB, hA⟩ := take_turn_placed hs.placedB hs.placedA powerB
      exact ⟨hA, hB, hapart, hguarded⟩

theorem start_sound (e : BattleEngine) (a b : CreatureStats) (seed : BitVec 32) :
    Sound e (a.totalStamina .exact) (b.totalStamina .exact) (e.start .exact a b seed) := by
  refine ⟨⟨?_, Or.inl rfl, Int.min_le_right _ _⟩, ⟨?_, Or.inl rfl, Int.min_le_right _ _⟩, ?_, ?_⟩
  · show Position.OnBoard ⟨0, 0⟩
    unfold Position.OnBoard
    decide
  · show Position.OnBoard ⟨7, 7⟩
    unfold Position.OnBoard
    decide
  · show 1 ≤ distance ⟨0, 0⟩ ⟨7, 7⟩
    decide
  · unfold Guarded Fight.mover Fight.other start enter
    cases aFirst a b seed <;> exact ⟨rfl, Or.inl rfl⟩

/-! ## The end of a battle at close quarters -/

/-- The turns that adjacent creatures have left, at most. -/
def turnsLeft (s : Fight) : Nat :=
  2 * (s.mover.sta.toNat + s.other.sta.toNat) - if 0 < s.mover.sta then 1 else 0

/-- Each strike costs a point of stamina, and before it at most one turn goes by idle. -/
theorem run_of_adjacent (n : Nat) (hnear : s.gap ≤ 1) (hn : turnsLeft s ≤ n) :
    ∃ r, (e.loop .exact powerA powerB).run n s = some r := by
  induction n generalizing s with
  | zero =>
      refine ⟨s, While.Loop.run_done ?_ 0⟩
      rw [← Bool.not_eq_true, guard_iff]
      unfold turnsLeft at hn
      split at hn <;> omega
  | succ n ih =>
      cases hguard : (e.loop .exact powerA powerB).guard s with
      | false => exact ⟨s, While.Loop.run_done hguard _⟩
      | true =>
          obtain ⟨-, -, hsta⟩ := guard_iff.mp hguard
          obtain ⟨hmover, hother⟩ := body_roles .exact e powerA powerB s
          have hturn := take_turn_exchange e (if s.aTurn then powerA else powerB) s.mover s.other
          have hnear' := hnear
          rw [Fight.gap_eq] at hnear'
          rw [While.Loop.run_round hguard]
          apply ih
          · rw [Fight.gap_eq, hmover, hother, distance_comm]
            exact Nat.le_trans hturn.closer hnear'
          · unfold turnsLeft at hn ⊢
            rw [hmover, hother, hturn.kept, hturn.spent]
            by_cases hable : 0 < s.mover.sta
            · rw [if_pos ⟨hnear', hable⟩]
              rw [if_pos hable] at hn
              split <;> omega
            · -- the mover only blocks, so its foe can strike
              rw [if_neg (fun h => hable h.2), Int.sub_zero]
              rw [if_neg hable] at hn
              rw [if_pos (by omega)]
              omega

/-- **The invariants of a battle**, at every test of the guard: what is so, what the next turn may
change, and how soon creatures that have met are done. -/
theorem battle_invariants (e : BattleEngine) (a b : CreatureStats) (seed : BitVec 32) (n : Nat)
    (s : Fight)
    (hs : (e.loop .exact (a.totalPower .exact) (b.totalPower .exact)).reach n
      (e.start .exact a b seed) = some s) :
    Sound e (a.totalStamina .exact) (b.totalStamina .exact) s ∧
      ((s.a.block = 0 ∨ (s.a.block = 1 ∧ s.a.sta ≤ 0)) ∧
        (s.b.block = 0 ∨ (s.b.block = 1 ∧ s.b.sta ≤ 0))) ∧
      Turn (a.totalPower .exact) (b.totalPower .exact) s
        ((e.loop .exact (a.totalPower .exact) (b.totalPower .exact)).body s) ∧
      (s.gap ≤ 1 → ∃ r, (e.loop .exact (a.totalPower .exact) (b.totalPower .exact)).run
        (2 * (s.a.sta.toNat + s.b.sta.toNat)) s = some r) := by
  have hsound := While.Loop.reach_induction _ hs (start_sound e a b seed)
    (fun t hg ht => body_sound hg ht)
  refine ⟨hsound, hsound.guarded.block, body_turn hsound.guarded, ?_⟩
  intro hnear
  apply run_of_adjacent _ hnear
  unfold turnsLeft Fight.mover Fight.other
  cases s.aTurn with
  | true =>
      rw [if_pos rfl, if_pos rfl]
      omega
  | false =>
      rw [if_neg Bool.false_ne_true, if_neg Bool.false_ne_true]
      omega

/-- After two turns on the empty board both novices have made a step. -/
theorem battle_invariants_novices :
    let loop := clearBoard.loop .exact ((novice 1).totalPower .exact)
      ((novice 2).totalPower .exact)
    let s : Fight := ⟨⟨⟨1, 0⟩, 1, 1, 0⟩, ⟨⟨6, 7⟩, 1, 1, 0⟩, false⟩
    loop.reach 2 (clearBoard.start .exact (novice 1) (novice 2) 0) = some s ∧
      Sound clearBoard 1 1 s ∧
      ((s.a.block = 0 ∨ (s.a.block = 1 ∧ s.a.sta ≤ 0)) ∧
        (s.b.block = 0 ∨ (s.b.block = 1 ∧ s.b.sta ≤ 0))) ∧
      Turn 1 1 s (loop.body s) ∧
      (s.gap ≤ 1 → ∃ r, loop.run (2 * (s.a.sta.toNat + s.b.sta.toNat)) s = some r) := by
  have hreach : (clearBoard.loop .exact ((novice 1).totalPower .exact)
      ((novice 2).totalPower .exact)).reach 2
        (clearBoard.start .exact (novice 1) (novice 2) 0) =
      some ⟨⟨⟨1, 0⟩, 1, 1, 0⟩, ⟨⟨6, 7⟩, 1, 1, 0⟩, false⟩ := by
    rfl
  exact ⟨hreach, battle_invariants clearBoard (novice 1) (novice 2) 0 2 _ hreach⟩

end BattleEngine

end ChainBeasts.Battle
