import ChainBeasts.While
import Mathlib.Data.Nat.Count
import Mathlib.Tactic.Ring

/-! # Duels

Two sides wear each other down in turns. A schedule says whose turn it is; on its turn a side with
stamina left strikes, and one without sits the turn out. The duel is over when a side has no life
left or neither can strike, and goes to the side with more life, a tie to the first.

What the strikes of a side add up to is a function `dealtA`, `dealtB` of their number, so that a
strike may be worth less than an earlier one. The two results of this module give the outcome
without running the duel: it is a matter of the totals (`Returns.settled`), unless both sides can
strike the other down, when it is a race on the schedule (`Returns.race`). The module names nothing
of any particular program. -/

namespace ChainBeasts

structure Duel where
  lifeA : Int
  lifeB : Int
  staminaA : Int
  staminaB : Int
  dealtA : Nat → Int
  dealtB : Nat → Int
  turnA : Nat → Bool

/-- How far a duel has gone: the turns, and the strikes of each side. -/
structure Tally where
  turns : Nat
  a : Nat
  b : Nat

namespace Duel

variable {d : Duel} {x r : Tally}

def leftA (d : Duel) (x : Tally) : Int := d.lifeA - d.dealtB x.b
def leftB (d : Duel) (x : Tally) : Int := d.lifeB - d.dealtA x.a

def loop (d : Duel) : While.Loop Tally where
  guard x := decide (0 < d.leftA x ∧ 0 < d.leftB x ∧ (x.a < d.staminaA ∨ x.b < d.staminaB))
  body x :=
    if d.turnA x.turns then ⟨x.turns + 1, if x.a < d.staminaA then x.a + 1 else x.a, x.b⟩
    else ⟨x.turns + 1, x.a, if x.b < d.staminaB then x.b + 1 else x.b⟩

def begin : Tally := ⟨0, 0, 0⟩

theorem guard_iff : d.loop.guard x = true ↔
    0 < d.leftA x ∧ 0 < d.leftB x ∧ (x.a < d.staminaA ∨ x.b < d.staminaB) :=
  decide_eq_true_iff

/-! ## One turn -/

theorem body_strikeA (hturn : d.turnA x.turns = true) (hable : (x.a : Int) < d.staminaA) :
    d.loop.body x = ⟨x.turns + 1, x.a + 1, x.b⟩ := by
  simp only [loop, hturn, if_true, hable]

theorem body_restA (hturn : d.turnA x.turns = true) (hspent : ¬ (x.a : Int) < d.staminaA) :
    d.loop.body x = ⟨x.turns + 1, x.a, x.b⟩ := by
  simp only [loop, hturn, if_true, hspent, if_false]

theorem body_strikeB (hturn : d.turnA x.turns = false) (hable : (x.b : Int) < d.staminaB) :
    d.loop.body x = ⟨x.turns + 1, x.a, x.b + 1⟩ := by
  simp only [loop, hturn, Bool.false_eq_true, if_false, hable, if_true]

theorem body_restB (hturn : d.turnA x.turns = false) (hspent : ¬ (x.b : Int) < d.staminaB) :
    d.loop.body x = ⟨x.turns + 1, x.a, x.b⟩ := by
  simp only [loop, hturn, Bool.false_eq_true, if_false, hspent]

@[simp] theorem body_turns : (d.loop.body x).turns = x.turns + 1 := by
  unfold loop
  simp only
  split <;> rfl

/-! ## Following a duel

A program that plays a duel keeps the hit points and the stamina left in variables. -/

/-- The variables hold what is left of both sides. -/
structure Scored (d : Duel) (x : Tally) (hpA hpB staA staB : Int) : Prop where
  hpA : hpA = d.leftA x
  hpB : hpB = d.leftB x
  staA : staA = d.staminaA - x.a
  staB : staB = d.staminaB - x.b

section
variable {hpA hpB staA staB dmg : Int}

theorem Scored.ableA (h : d.Scored x hpA hpB staA staB) : 0 < staA ↔ (x.a : Int) < d.staminaA := by
  rw [h.staA]
  omega

theorem Scored.ableB (h : d.Scored x hpA hpB staA staB) : 0 < staB ↔ (x.b : Int) < d.staminaB := by
  rw [h.staB]
  omega

theorem Scored.guard (h : d.Scored x hpA hpB staA staB) :
    decide (0 < hpA ∧ 0 < hpB ∧ (0 < staA ∨ 0 < staB)) = d.loop.guard x := by
  simp only [loop, h.ableA, h.ableB, h.hpA, h.hpB]

theorem Scored.strikeA (h : d.Scored x hpA hpB staA staB) (hturn : d.turnA x.turns = true)
    (hable : 0 < staA) (hdealt : d.dealtA (x.a + 1) = d.dealtA x.a + dmg) :
    d.Scored (d.loop.body x) hpA (hpB - dmg) (staA - 1) staB := by
  rw [body_strikeA hturn (h.ableA.mp hable)]
  obtain ⟨rfl, rfl, rfl, rfl⟩ := h
  refine ⟨rfl, ?_, ?_, rfl⟩
  · simp only [leftB, hdealt]
    omega
  · push_cast
    omega

theorem Scored.restA (h : d.Scored x hpA hpB staA staB) (hturn : d.turnA x.turns = true)
    (hspent : ¬ 0 < staA) : d.Scored (d.loop.body x) hpA hpB staA staB := by
  rw [body_restA hturn (fun hable => hspent (h.ableA.mpr hable))]
  exact ⟨h.hpA, h.hpB, h.staA, h.staB⟩

theorem Scored.strikeB (h : d.Scored x hpA hpB staA staB) (hturn : d.turnA x.turns = false)
    (hable : 0 < staB) (hdealt : d.dealtB (x.b + 1) = d.dealtB x.b + dmg) :
    d.Scored (d.loop.body x) (hpA - dmg) hpB staA (staB - 1) := by
  rw [body_strikeB hturn (h.ableB.mp hable)]
  obtain ⟨rfl, rfl, rfl, rfl⟩ := h
  refine ⟨?_, rfl, rfl, ?_⟩
  · simp only [leftA, hdealt]
    omega
  · push_cast
    omega

theorem Scored.restB (h : d.Scored x hpA hpB staA staB) (hturn : d.turnA x.turns = false)
    (hspent : ¬ 0 < staB) : d.Scored (d.loop.body x) hpA hpB staA staB := by
  rw [body_restB hturn (fun hable => hspent (h.ableB.mpr hable))]
  exact ⟨h.hpA, h.hpB, h.staA, h.staB⟩

end

/-! ## Settled by the totals -/

/-- **A duel in which not both sides are fatal goes by the totals.** Once a side has dealt a fatal
amount, its total is fatal as well. -/
theorem Returns.settled (hA : ∀ k ≤ d.staminaA.toNat, d.lifeB ≤ d.dealtA k →
      d.lifeB ≤ d.dealtA d.staminaA.toNat)
    (hB : ∀ k ≤ d.staminaB.toNat, d.lifeA ≤ d.dealtB k → d.lifeA ≤ d.dealtB d.staminaB.toNat)
    (hnot : ¬ (d.lifeB ≤ d.dealtA d.staminaA.toNat ∧ d.lifeA ≤ d.dealtB d.staminaB.toNat))
    (hrun : d.loop.Returns begin r) :
    d.leftB r ≤ d.leftA r ↔
      d.lifeB - d.dealtA d.staminaA.toNat ≤ d.lifeA - d.dealtB d.staminaB.toNat := by
  obtain ⟨⟨ha, hb⟩, hdone⟩ := hrun.induction
    (fun x => x.a ≤ d.staminaA.toNat ∧ x.b ≤ d.staminaB.toNat) ⟨Nat.zero_le _, Nat.zero_le _⟩
    (by
      intro x _ hx
      unfold loop
      grind)
  rw [← Bool.not_eq_true, guard_iff] at hdone
  unfold leftA leftB at hdone ⊢
  -- the totals are as fatal as what has been dealt so far
  have htotalA := hA r.a ha
  have htotalB := hB r.b hb
  by_cases hlast : r.a = d.staminaA.toNat ∧ r.b = d.staminaB.toNat
  · rw [hlast.1, hlast.2]
  · -- somebody could still strike, so somebody is down, and then the totals say who
    have hable : (r.a : Int) < d.staminaA ∨ (r.b : Int) < d.staminaB := by omega
    omega

/-! ## Races -/

/-- The turns of each side among the first `n`. -/
def turnsA (d : Duel) (n : Nat) : Nat := Nat.count (fun t => d.turnA t = true) n
def turnsB (d : Duel) (n : Nat) : Nat := Nat.count (fun t => d.turnA t = false) n

theorem turnsA_succ (n : Nat) :
    d.turnsA (n + 1) = d.turnsA n + if d.turnA n = true then 1 else 0 := Nat.count_succ _ n

theorem turnsB_succ (n : Nat) :
    d.turnsB (n + 1) = d.turnsB n + if d.turnA n = false then 1 else 0 := Nat.count_succ _ n

theorem turns_add (n : Nat) : d.turnsA n + d.turnsB n = n := by
  induction n with
  | zero => rfl
  | succ n ih =>
      rw [turnsA_succ, turnsB_succ]
      cases d.turnA n <;> simp <;> omega

theorem turnsA_mono {m n : Nat} (h : m ≤ n) : d.turnsA m ≤ d.turnsA n := Nat.count_monotone _ h
theorem turnsB_mono {m n : Nat} (h : m ≤ n) : d.turnsB m ≤ d.turnsB n := Nat.count_monotone _ h

/-- **A duel in which both sides are fatal is a race**: the first side to have had its `m`-th,
respectively `n`-th, turn wins. Nobody runs out of stamina before that, so the strikes are the
turns. -/
theorem Returns.race {m n : Nat} (hm : (m : Int) ≤ d.staminaA) (hn : (n : Int) ≤ d.staminaB)
    (hpos : 0 < m ∧ 0 < n)
    (hA : ∀ t, d.turnsA t ≤ m → d.turnsB t ≤ n →
      (0 < d.lifeB - d.dealtA (d.turnsA t) ↔ d.turnsA t < m))
    (hB : ∀ t, d.turnsA t ≤ m → d.turnsB t ≤ n →
      (0 < d.lifeA - d.dealtB (d.turnsB t) ↔ d.turnsB t < n))
    (hrun : d.loop.Returns begin r) :
    d.leftB r ≤ d.leftA r ↔ m ≤ d.turnsA (m + n - 1) := by
  obtain ⟨⟨ha, hb, ham, hbn, hrace⟩, hdone⟩ := hrun.induction
    (fun x => x.a = d.turnsA x.turns ∧ x.b = d.turnsB x.turns ∧ x.a ≤ m ∧ x.b ≤ n ∧
      (x.a < m ∨ x.b < n))
    ⟨rfl, rfl, Nat.zero_le _, Nat.zero_le _, Or.inl hpos.1⟩
    (by
      intro x hguard hx
      obtain ⟨ha, hb, ham, hbn, -⟩ := hx
      obtain ⟨hleftA, hleftB, -⟩ := guard_iff.mp hguard
      rw [leftA, hb, hB _ (ha ▸ ham) (hb ▸ hbn)] at hleftA
      rw [leftB, ha, hA _ (ha ▸ ham) (hb ▸ hbn)] at hleftB
      have hturnA := turnsA_succ (d := d) x.turns
      have hturnB := turnsB_succ (d := d) x.turns
      unfold loop
      grind)
  rw [← Bool.not_eq_true, guard_iff] at hdone
  have hleftA : 0 < d.leftA r ↔ r.b < n := by
    rw [leftA, hb, hB _ (ha ▸ ham) (hb ▸ hbn)]
  have hleftB : 0 < d.leftB r ↔ r.a < m := by
    rw [leftB, ha, hA _ (ha ▸ ham) (hb ▸ hbn)]
  have hsum := turns_add (d := d) r.turns
  have hall := turns_add (d := d) (m + n - 1)
  -- the race was still on before the last turn, so exactly one side has finished it
  rcases Nat.lt_or_ge r.a m with hlt | hge
  · have hwon : r.b = n := by omega
    have hmore := turnsB_mono (d := d) (show r.turns ≤ m + n - 1 by omega)
    omega
  · have hwon : r.a = m := by omega
    have hmore := turnsA_mono (d := d) (show r.turns ≤ m + n - 1 by omega)
    omega

/-- Who wins a race also wins with fewer turns to go, or against somebody with more. -/
theorem race_mono {m m' n n' : Nat} (hm : 0 < m') (hfewer : m' ≤ m) (hn : 0 < n) (hmore : n ≤ n')
    (h : m ≤ d.turnsA (m + n - 1)) : m' ≤ d.turnsA (m' + n' - 1) := by
  have hlater : m ≤ d.turnsA (m + n' - 1) := Nat.le_trans h (turnsA_mono (by omega))
  have hsum := turns_add (d := d) (m + n' - 1)
  have hsum' := turns_add (d := d) (m' + n' - 1)
  have hslower := turnsB_mono (d := d) (show m' + n' - 1 ≤ m + n' - 1 by omega)
  omega

/-! ## Alternate turns -/

theorem turnsA_alternate (h : d.turnA = fun t => decide (t % 2 = 0)) (n : Nat) :
    d.turnsA n = (n + 1) / 2 := by
  induction n with
  | zero => rfl
  | succ n ih =>
      rw [turnsA_succ, ih, h]
      simp only [decide_eq_true_eq]
      split <;> omega

theorem turnsA_alternate' (h : d.turnA = fun t => decide (t % 2 = 1)) (n : Nat) :
    d.turnsA n = n / 2 := by
  induction n with
  | zero => rfl
  | succ n ih =>
      rw [turnsA_succ, ih, h]
      simp only [decide_eq_true_eq]
      split <;> omega

/-! ## Strikes of one strength -/

/-- The strikes of strength `p` that it takes to bring down a life of `h`. -/
def strikes (h p : Int) : Nat := ((h + p - 1) / p).toNat

theorem le_mul_iff_strikes {h p : Int} (hh : 0 < h) (hp : 0 < p) (k : Nat) :
    h ≤ k * p ↔ strikes h p ≤ k := by
  have hnonneg : 0 ≤ (h + p - 1) / p := Int.ediv_nonneg (by omega) (by omega)
  have hiff : (h + p - 1) / p ≤ k ↔ h + p - 1 < (k + 1) * p := by
    rw [← Int.ediv_lt_iff_lt_mul hp]
    omega
  have hexpand : ((k : Int) + 1) * p = k * p + p := by ring
  unfold strikes
  omega

theorem strikes_pos {h p : Int} (hh : 0 < h) (hp : 0 < p) : 0 < strikes h p := by
  by_contra hzero
  have := (le_mul_iff_strikes hh hp 0).mpr (by omega)
  simp at this
  omega

theorem strikes_le_of_stronger {h p q : Int} (hh : 0 < h) (hp : 0 < p) (hpq : p ≤ q) :
    strikes h q ≤ strikes h p := by
  apply (le_mul_iff_strikes hh (by omega) _).mp
  have hfatal := (le_mul_iff_strikes hh hp _).mpr (Nat.le_refl (strikes h p))
  have hle : (strikes h p : Int) * p ≤ strikes h p * q :=
    Int.mul_le_mul_of_nonneg_left hpq (by omega)
  omega

theorem strikes_le_of_weaker {h g p : Int} (hh : 0 < h) (hhg : h ≤ g) (hp : 0 < p) :
    strikes h p ≤ strikes g p := by
  apply (le_mul_iff_strikes hh hp _).mp
  have hfatal := (le_mul_iff_strikes (by omega) hp _).mpr (Nat.le_refl (strikes g p))
  omega

/-- A fatal amount takes a positive strength. -/
theorem pos_of_fatal {h p : Int} {k : Nat} (hh : 0 < h) (hfatal : h ≤ k * p) : 0 < p := by
  by_contra hp
  have hk : (k : Int) * p ≤ 0 := Int.mul_nonpos_of_nonneg_of_nonpos (by omega) (by omega)
  omega

theorem fatal_mono {h p : Int} {k s : Nat} (hh : 0 < h) (hks : k ≤ s) (hfatal : h ≤ k * p) :
    h ≤ s * p := by
  have hp := pos_of_fatal hh hfatal
  have hle : (k : Int) * p ≤ s * p := Int.mul_le_mul_of_nonneg_right (by omega) (by omega)
  omega

/-! ## Blocked strikes -/

/-- What `k` strikes of strength `p` deal when those after the `c`-th are each blocked by a point. -/
def blunted (p : Int) (c k : Nat) : Int := (min k c : Nat) * p + (k - c : Nat) * max (p - 1) 0

theorem blunted_of_le {c k : Nat} (p : Int) (h : k ≤ c) : blunted p c k = k * p := by
  unfold blunted
  rw [Nat.min_eq_left h, Nat.sub_eq_zero_of_le h]
  simp

theorem blunted_succ (p : Int) (c k : Nat) :
    blunted p c (k + 1) = blunted p c k + if k < c then p else max (p - 1) 0 := by
  unfold blunted
  split
  · next h =>
    have h1 : min (k + 1) c = min k c + 1 := by omega
    have h2 : k + 1 - c = k - c := by omega
    rw [h1, h2]
    push_cast
    ring
  · next h =>
    have h1 : min (k + 1) c = min k c := by omega
    have h2 : k + 1 - c = k - c + 1 := by omega
    rw [h1, h2]
    push_cast
    ring

theorem blunted_mono {p : Int} (hp : 0 < p) (c : Nat) {k s : Nat} (hks : k ≤ s) :
    blunted p c k ≤ blunted p c s := by
  induction hks with
  | refl => exact Int.le_refl _
  | step _ ih =>
      rw [blunted_succ]
      split <;> omega

/-- Blocking only ever takes away from a fatal amount. -/
theorem fatal_of_blunted {h p : Int} {c k : Nat} (hh : 0 < h) (hfatal : h ≤ blunted p c k) :
    h ≤ k * p := by
  have hsplit : (k : Int) = (min k c : Nat) + (k - c : Nat) := by omega
  by_cases hp : 0 < p
  · have hless : ((k - c : Nat) : Int) * max (p - 1) 0 ≤ (k - c : Nat) * p :=
      Int.mul_le_mul_of_nonneg_left (by omega) (by omega)
    have hexpand : (k : Int) * p = (min k c : Nat) * p + (k - c : Nat) * p := by
      rw [← Int.add_mul, ← hsplit]
    unfold blunted at hfatal
    omega
  · have hzero : max (p - 1) 0 = 0 := by omega
    have hneg : ((min k c : Nat) : Int) * p ≤ 0 :=
      Int.mul_nonpos_of_nonneg_of_nonpos (by omega) (by omega)
    unfold blunted at hfatal
    rw [hzero, Int.mul_zero] at hfatal
    omega

theorem blunted_fatal_mono {h p : Int} {c k s : Nat} (hh : 0 < h) (hks : k ≤ s)
    (hfatal : h ≤ blunted p c k) : h ≤ blunted p c s := by
  have hp := pos_of_fatal hh (fatal_of_blunted hh hfatal)
  exact Int.le_trans hfatal (blunted_mono hp c hks)

end Duel

end ChainBeasts
