import ChainBeasts.While
import Mathlib.Algebra.Group.Int.Defs
import Mathlib.Algebra.Group.Nat.Defs
import Mathlib.Logic.Function.Basic

/-! # The battlefield engine

`BattleEngine` of `neuropet/battle.hpp`: two creatures start in opposite corners of an 8 × 8 board
of empty tiles, walls and hazards, walk towards each other in alternate turns, and once they are
adjacent strike or block until one is out of hit points or both are out of stamina.

The two branches of the loop body are one text with the roles of the creatures exchanged; it is
`takeTurn`, and a state of the loop is read as the creature whose turn it is (`mover`) and the
`other`. What one turn can do is said once, in `take_turn_adjacent`, `take_turn_step` and
`take_turn_blocked`. -/

namespace ChainBeasts.Battle

/-! ## Integers -/

/-- The arithmetic of `int`. A result that does not fit is undefined behaviour, so it is left open
what `wrap` makes of it; all that the code can rely on is that a positive `int` has a
predecessor. -/
structure IntArith where
  wrap : Int → Int
  Fits : Int → Prop
  fits_wrap : ∀ x, Fits (wrap x)
  wrap_pred : ∀ x, Fits x → 0 < x → wrap (x - 1) = x - 1

/-- Arithmetic in which nothing overflows. -/
def IntArith.exact : IntArith where
  wrap x := x
  Fits _ := True
  fits_wrap _ := trivial
  wrap_pred _ _ _ := rfl

/-- Two's complement arithmetic on 32 bits. -/
def IntArith.int32 : IntArith where
  wrap x := x.bmod (2 ^ 32)
  Fits x := -2 ^ 31 ≤ x ∧ x < 2 ^ 31
  fits_wrap x := by
    have hlo := Int.le_bmod (x := x) (m := 2 ^ 32) (by decide)
    have hhi := Int.bmod_lt (x := x) (m := 2 ^ 32) (by decide)
    omega
  wrap_pred x hx hpos := by
    apply Int.bmod_eq_of_le
    · omega
    · omega

/-! ## Creatures -/

/-- `Item`: an effect on a creature's statistics. -/
structure Item where
  id : BitVec 32
  power : Int
  defense : Int
  stamina : Int

structure CreatureStats where
  id : BitVec 32
  power : Int
  defense : Int
  stamina : Int
  items : List Item

namespace CreatureStats

/-- `v = base; for (i : items) v += i.field;` -/
def total (I : IntArith) (base : Int) (field : Item → Int) (items : List Item) : Int :=
  items.foldl (fun v i => I.wrap (v + field i)) base

def totalPower (I : IntArith) (c : CreatureStats) : Int := total I c.power Item.power c.items
def totalDefense (I : IntArith) (c : CreatureStats) : Int := total I c.defense Item.defense c.items
def totalStamina (I : IntArith) (c : CreatureStats) : Int := total I c.stamina Item.stamina c.items

/-- The statistics are values of `int`. -/
def Fits (I : IntArith) (c : CreatureStats) : Prop :=
  I.Fits c.power ∧ I.Fits c.defense ∧ I.Fits c.stamina

theorem fits_total {I : IntArith} {base : Int} (hbase : I.Fits base) (field : Item → Int)
    (items : List Item) : I.Fits (total I base field items) := by
  unfold total
  induction items generalizing base with
  | nil => exact hbase
  | cons i items ih => exact ih (I.fits_wrap _)

end CreatureStats

/-! ## The board -/

inductive Tile where
  | empty
  | wall
  | hazard
  deriving DecidableEq

structure Position where
  x : Int
  y : Int
  deriving DecidableEq

/-- `board_[8][8]`. -/
structure BattleEngine where
  boardTiles : Fin 8 → Fin 8 → Tile

/-- `|p1.x - p2.x| + |p1.y - p2.y|`. -/
def distance (p1 p2 : Position) : Nat := (p1.x - p2.x).natAbs + (p1.y - p2.y).natAbs

theorem distance_comm (p q : Position) : distance p q = distance q p := by
  unfold distance
  omega

namespace BattleEngine

def clearBoard : BattleEngine := ⟨fun _ _ => .empty⟩

/-- `board_[x][y]`, for coordinates on the board. -/
def board (e : BattleEngine) (x y : Int) : Tile :=
  e.boardTiles (Fin.ofNat 8 x.toNat) (Fin.ofNat 8 y.toNat)

def setTile (e : BattleEngine) (x y : Int) (t : Tile) : BattleEngine :=
  if 0 ≤ x ∧ x < 8 ∧ 0 ≤ y ∧ y < 8 then
    ⟨Function.update e.boardTiles (Fin.ofNat 8 x.toNat)
      (Function.update (e.boardTiles (Fin.ofNat 8 x.toNat)) (Fin.ofNat 8 y.toNat) t)⟩
  else e

/-- Coordinates outside the board read as a wall. -/
def tileAt (e : BattleEngine) (x y : Int) : Tile :=
  if 0 ≤ x ∧ x < 8 ∧ 0 ≤ y ∧ y < 8 then e.board x y else .wall

/-! ## A creature in battle -/

end BattleEngine

/-- The local variables of one creature: `pos`, `hp`, `sta` and `block`. -/
structure Fighter where
  pos : Position
  hp : Int
  sta : Int
  block : Int

namespace BattleEngine

/-- Step onto `(nx, ny)` with `hp` hit points; `none` if that tile cannot be entered. -/
def tryMove (I : IntArith) (e : BattleEngine) (nx ny hp : Int) : Option (Position × Int) :=
  if nx < 0 ∨ 8 ≤ nx ∨ ny < 0 ∨ 8 ≤ ny then none
  else if e.board nx ny = .wall then none
  else some (⟨nx, ny⟩, if e.board nx ny = .hazard then I.wrap (hp - 1) else hp)

/-- One step from `p` towards `q`: along `x` while the columns differ, along `y` otherwise, and one
try in the other direction if that tile cannot be entered. -/
def stepTowards (I : IntArith) (e : BattleEngine) (p q : Position) (hp : Int) : Position × Int :=
  let d : Int × Int :=
    if p.x < q.x then (1, 0)
    else if p.x > q.x then (-1, 0)
    else if p.y < q.y then (0, 1)
    else if p.y > q.y then (0, -1)
    else (0, 0)
  match tryMove I e (p.x + d.1) (p.y + d.2) hp with
  | some moved => moved
  | none =>
    -- the second branch is never taken: `d` is along `y` only where the columns agree
    let detour :=
      if d.1 ≠ 0 ∧ p.y ≠ q.y then tryMove I e p.x (p.y + if p.y < q.y then 1 else -1) hp
      else if d.2 ≠ 0 ∧ p.x ≠ q.x then tryMove I e (p.x + if p.x < q.x then 1 else -1) p.y hp
      else none
    detour.getD (p, hp)

/-- The damage of a hit of strength `power` against `block` points. -/
def damage (I : IntArith) (power block : Int) : Int :=
  if 0 < block then
    let dmg := I.wrap (power - block)
    if dmg < 0 then 0 else dmg
  else power

/-- One branch of the loop body: `me`, of strength `power`, takes its turn against `foe`. -/
def takeTurn (I : IntArith) (e : BattleEngine) (power : Int) (me foe : Fighter) :
    Fighter × Fighter :=
  if distance me.pos foe.pos ≤ 1 then
    if 0 < me.sta then
      -- a strike uses up the block of the foe
      ({ me with sta := I.wrap (me.sta - 1) },
        { foe with
          hp := I.wrap (foe.hp - damage I power foe.block)
          block := if 0 < foe.block then 0 else foe.block })
    else ({ me with block := I.wrap (me.block + 1) }, foe)
  else
    let moved := stepTowards I e me.pos foe.pos me.hp
    ({ me with pos := moved.1, hp := moved.2 }, foe)

end BattleEngine

/-! ## The loop -/

structure Fight where
  a : Fighter
  b : Fighter
  aTurn : Bool

namespace BattleEngine

/-- `while (hpA > 0 && hpB > 0 && (staA > 0 || staB > 0))` with its body. -/
def loop (I : IntArith) (e : BattleEngine) (powerA powerB : Int) : While.Loop Fight where
  guard s := decide (0 < s.a.hp ∧ 0 < s.b.hp ∧ (0 < s.a.sta ∨ 0 < s.b.sta))
  body s :=
    if s.aTurn then
      let turn := takeTurn I e powerA s.a s.b
      ⟨turn.1, turn.2, !s.aTurn⟩
    else
      let turn := takeTurn I e powerB s.b s.a
      ⟨turn.2, turn.1, !s.aTurn⟩

/-- A creature in its corner `p`: a hazard there costs a hit point at once. -/
def enter (I : IntArith) (e : BattleEngine) (c : CreatureStats) (p : Position) : Fighter where
  pos := p
  hp := if e.board p.x p.y = .hazard then I.wrap (c.totalDefense I - 1) else c.totalDefense I
  sta := c.totalStamina I
  block := 0

/-- The first turn is `a`'s: `(s & 1) == 0` for the seed, or for `a.id ^ b.id` where that is zero. -/
def aFirst (a b : CreatureStats) (seed : BitVec 32) : Bool :=
  let s := if seed ≠ 0 then seed else a.id ^^^ b.id
  decide (s &&& 1 = 0)

/-- The state in which the loop is entered. -/
def start (I : IntArith) (e : BattleEngine) (a b : CreatureStats) (seed : BitVec 32) : Fight where
  a := e.enter I a ⟨0, 0⟩
  b := e.enter I b ⟨7, 7⟩
  aTurn := aFirst a b seed

def winner (a b : CreatureStats) (s : Fight) : BitVec 32 := if s.a.hp ≥ s.b.hp then a.id else b.id

/-- `fight(a, b, seed)`, given up after `n` rounds of its loop. -/
def fight (I : IntArith) (e : BattleEngine) (a b : CreatureStats) (seed : BitVec 32) (n : Nat) :
    Option (BitVec 32) :=
  ((e.loop I (a.totalPower I) (b.totalPower I)).run n (e.start I a b seed)).map (winner a b)

/-! ## One turn

`advance` is the step `step_towards` takes, without its hit points. -/

/-- The coordinate next to `x` on the way to `y`. -/
def beside (x y : Int) : Int := if x < y then x + 1 else x - 1

/-- The tile can be entered. -/
def free (e : BattleEngine) (x y : Int) : Prop := e.tileAt x y ≠ .wall

instance (e : BattleEngine) (x y : Int) : Decidable (e.free x y) :=
  inferInstanceAs (Decidable (_ ≠ _))

/-- The tile that a creature on `p` steps onto when it goes for `q`, if one is free. -/
def advance (e : BattleEngine) (p q : Position) : Option Position :=
  if p.x ≠ q.x ∧ e.free (beside p.x q.x) p.y then some ⟨beside p.x q.x, p.y⟩
  else if p.y ≠ q.y ∧ e.free p.x (beside p.y q.y) then some ⟨p.x, beside p.y q.y⟩
  else none

/-- The hit points left after stepping onto `p`. -/
def tread (I : IntArith) (e : BattleEngine) (p : Position) (hp : Int) : Int :=
  if e.board p.x p.y = .hazard then I.wrap (hp - 1) else hp

variable {I : IntArith} {e : BattleEngine}

theorem try_move_free {nx ny : Int} (hfree : e.free nx ny) (hp : Int) :
    tryMove I e nx ny hp = some (⟨nx, ny⟩, tread I e ⟨nx, ny⟩ hp) := by
  unfold free tileAt at hfree
  unfold tryMove
  split at hfree
  · next hon =>
    rw [if_neg (by omega), if_neg hfree]
    rfl
  · exact absurd rfl hfree

theorem try_move_walled {nx ny : Int} (hwall : ¬ e.free nx ny) (hp : Int) :
    tryMove I e nx ny hp = none := by
  unfold free tileAt at hwall
  unfold tryMove
  grind

/-- **What a step does.** Away from its goal, a creature makes the step `advance` or stays. -/
theorem step_towards_eq {p q : Position} (hpq : p ≠ q) (hp : Int) :
    stepTowards I e p q hp =
      ((e.advance p q).getD p, ((e.advance p q).map (tread I e · hp)).getD hp) := by
  obtain ⟨px, py⟩ := p
  obtain ⟨qx, qy⟩ := q
  unfold stepTowards advance beside
  grind [try_move_free, try_move_walled]

theorem distance_advance {p q r : Position} (h : e.advance p q = some r) :
    distance r q + 1 = distance p q := by
  unfold advance beside at h
  unfold distance
  grind

theorem distance_pos {p q : Position} : 0 < distance p q ↔ p ≠ q := by
  obtain ⟨px, py⟩ := p
  obtain ⟨qx, qy⟩ := q
  simp only [distance, ne_eq, Position.mk.injEq]
  omega

variable {power : Int} {me foe : Fighter}

theorem take_turn_step {r : Position} (hfar : 1 < distance me.pos foe.pos)
    (hstep : e.advance me.pos foe.pos = some r) :
    takeTurn I e power me foe = ({ me with pos := r, hp := tread I e r me.hp }, foe) := by
  have hne : me.pos ≠ foe.pos := distance_pos.mp (by omega)
  rw [takeTurn, if_neg (by omega), step_towards_eq hne, hstep]
  rfl

theorem take_turn_blocked (hfar : 1 < distance me.pos foe.pos)
    (hstuck : e.advance me.pos foe.pos = none) : takeTurn I e power me foe = (me, foe) := by
  have hne : me.pos ≠ foe.pos := distance_pos.mp (by omega)
  rw [takeTurn, if_neg (by omega), step_towards_eq hne, hstuck]
  rfl

/-- Next to its foe a creature stays, and spends a point of stamina if it has one. -/
theorem take_turn_adjacent (I : IntArith) (e : BattleEngine) (power : Int)
    (hnear : distance me.pos foe.pos ≤ 1) :
    (takeTurn I e power me foe).1.pos = me.pos ∧
      (takeTurn I e power me foe).1.sta = (if 0 < me.sta then I.wrap (me.sta - 1) else me.sta) ∧
      (takeTurn I e power me foe).2.pos = foe.pos ∧
      (takeTurn I e power me foe).2.sta = foe.sta := by
  unfold takeTurn
  rw [if_pos hnear]
  split <;> simp

/-! ## Fighters in range -/

end BattleEngine

/-- Hit points and stamina are values of `int`. -/
def Fighter.Fits (I : IntArith) (f : Fighter) : Prop := I.Fits f.hp ∧ I.Fits f.sta

namespace BattleEngine

variable {I : IntArith} {e : BattleEngine} {power : Int} {me foe : Fighter}

theorem fits_tread {hp : Int} (h : I.Fits hp) (p : Position) : I.Fits (tread I e p hp) := by
  unfold tread
  split
  · exact I.fits_wrap _
  · exact h

theorem fits_take_turn (e : BattleEngine) (power : Int) (hme : me.Fits I) (hfoe : foe.Fits I) :
    (takeTurn I e power me foe).1.Fits I ∧ (takeTurn I e power me foe).2.Fits I := by
  by_cases hnear : distance me.pos foe.pos ≤ 1
  · unfold takeTurn
    rw [if_pos hnear]
    split
    · exact ⟨⟨hme.1, I.fits_wrap _⟩, ⟨I.fits_wrap _, hfoe.2⟩⟩
    · exact ⟨hme, hfoe⟩
  · cases hstep : e.advance me.pos foe.pos with
    | none =>
        rw [take_turn_blocked (by omega) hstep]
        exact ⟨hme, hfoe⟩
    | some r =>
        rw [take_turn_step (by omega) hstep]
        exact ⟨⟨fits_tread hme.1 r, hme.2⟩, hfoe⟩

theorem fits_enter {c : CreatureStats} (hc : c.Fits I) (p : Position) :
    (e.enter I c p).Fits I := by
  refine ⟨?_, CreatureStats.fits_total hc.2.2 _ _⟩
  show I.Fits (tread I e p (c.totalDefense I))
  exact fits_tread (CreatureStats.fits_total hc.2.1 _ _) p

end BattleEngine

/-! ## The creature whose turn it is -/

namespace Fight

def mover (s : Fight) : Fighter := if s.aTurn then s.a else s.b
def other (s : Fight) : Fighter := if s.aTurn then s.b else s.a

def Fits (I : IntArith) (s : Fight) : Prop := s.mover.Fits I ∧ s.other.Fits I

end Fight

namespace BattleEngine

variable {I : IntArith} {e : BattleEngine} {powerA powerB : Int} {s : Fight}

theorem guard_iff :
    (e.loop I powerA powerB).guard s = true ↔
      0 < s.mover.hp ∧ 0 < s.other.hp ∧ (0 < s.mover.sta ∨ 0 < s.other.sta) := by
  simp only [loop, Fight.mover, Fight.other, decide_eq_true_eq]
  cases s.aTurn with
  | true => rfl
  | false => simp only [Bool.false_eq_true, if_false]; omega

/-- One round is the turn of the mover, after which the creatures exchange roles. -/
theorem body_roles (I : IntArith) (e : BattleEngine) (powerA powerB : Int) (s : Fight) :
    let turn := takeTurn I e (if s.aTurn then powerA else powerB) s.mover s.other
    ((e.loop I powerA powerB).body s).mover = turn.2 ∧
      ((e.loop I powerA powerB).body s).other = turn.1 := by
  obtain ⟨a, b, turn⟩ := s
  cases turn <;> exact ⟨rfl, rfl⟩

theorem step_roles (I : IntArith) (powerA powerB : Int) {r : Position}
    (hfar : 1 < distance s.mover.pos s.other.pos)
    (hstep : e.advance s.mover.pos s.other.pos = some r) :
    ((e.loop I powerA powerB).body s).mover = s.other ∧
      ((e.loop I powerA powerB).body s).other =
        { s.mover with pos := r, hp := tread I e r s.mover.hp } := by
  obtain ⟨hmover, hother⟩ := body_roles I e powerA powerB s
  rw [take_turn_step hfar hstep] at hmover hother
  exact ⟨hmover, hother⟩

/-- A creature that is walled in only passes the turn. -/
theorem blocked_roles (I : IntArith) (powerA powerB : Int)
    (hfar : 1 < distance s.mover.pos s.other.pos)
    (hstuck : e.advance s.mover.pos s.other.pos = none) :
    ((e.loop I powerA powerB).body s).mover = s.other ∧
      ((e.loop I powerA powerB).body s).other = s.mover := by
  obtain ⟨hmover, hother⟩ := body_roles I e powerA powerB s
  rw [take_turn_blocked hfar hstuck] at hmover hother
  exact ⟨hmover, hother⟩

theorem fits_body (h : s.Fits I) : ((e.loop I powerA powerB).body s).Fits I := by
  obtain ⟨hmover, hother⟩ := body_roles I e powerA powerB s
  have hturn := fits_take_turn e (if s.aTurn then powerA else powerB) h.1 h.2
  exact ⟨hmover ▸ hturn.2, hother ▸ hturn.1⟩

end BattleEngine

end ChainBeasts.Battle
