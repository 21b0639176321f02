import ChainBeasts.Battle.Agreement
import ChainBeasts.Client.PluginMarketplace
import ChainBeasts.Machine
import Mathlib.Data.List.InsertIdx

/-! # The two combat simulators in the browser

`simulator.js` keeps its two creatures as objects, and a training that finishes adds to its object.
`CombatSimulatorView.tsx` copies a creature when the training is begun and puts the trained copy back
when it finishes, which undoes what happened to the creature in between: another training, or a
hatching in its place. The page draws its creatures from a generator of its own that starts at 1, the
view from `Math.random`. Driven by the same buttons, both show the same exactly as long as the view
happens to draw the page's numbers and no training finishes over a change (`same_shown_iff`).

The lines of the log are kept without their words, which differ. -/

namespace ChainBeasts.Client.CombatSimulator

open ChainBeasts.Machine

inductive Slot where
  | A
  | B
  deriving DecidableEq

structure Creature where
  id : Nat
  power : Int
  defense : Int
  stamina : Int
  deriving DecidableEq

/-- `C[0] & 1`, `C[1] & 1` and `C[2] & 1`, of the product that the kernel returns. -/
structure Gain where
  power : Int
  defense : Int
  stamina : Int

def trainStep (gain : Gain) (c : Creature) : Creature where
  id := c.id
  power := c.power + gain.power
  defense := c.defense + gain.defense
  stamina := c.stamina + gain.stamina

/-! ## `fight` -/

/-- The creature for the loop, which does not look at the id. -/
def Creature.fighter (c : Creature) : Simulator.Creature := ⟨0, c.power, c.defense, c.stamina⟩

/-- Two rounds for each point of stamina, and one in which nobody strikes. -/
def rounds (a b : Creature) : Nat := 2 * (a.stamina.toNat + b.stamina.toNat) + 1

/-- `fight`, which both have. -/
def fight (a b : Creature) : Option Nat :=
  ((Simulator.loop a.fighter b.fighter).run (rounds a b)
    (Simulator.start a.fighter b.fighter)).map fun s => if s.hpA ≥ s.hpB then a.id else b.id

/-- What is left to do: a round in which nobody strikes is followed by one in which somebody does. -/
def left (s : Simulator.Bout) : Nat :=
  2 * (s.staA.toNat + s.staB.toNat) + if 0 < (if s.aTurn then s.staA else s.staB) then 0 else 1

theorem left_body {a b : Simulator.Creature} {s : Simulator.Bout}
    (hguard : (Simulator.loop a b).guard s = true) : left ((Simulator.loop a b).body s) < left s := by
  have hable : 0 < s.staA ∨ 0 < s.staB := (of_decide_eq_true hguard).2.2
  unfold Simulator.loop left
  cases hturn : s.aTurn with
  | true =>
      by_cases hA : 0 < s.staA
      · simp only [hturn, hA, if_true]
        grind
      · simp only [hturn, hA, if_true, if_false]
        grind
  | false =>
      by_cases hB : 0 < s.staB
      · simp only [hturn, hB, if_true, Bool.false_eq_true, if_false]
        grind
      · simp only [hturn, hB, Bool.false_eq_true, if_false]
        grind

/-- The loop comes to its end. -/
theorem fight_returns (a b : Creature) : fight a b = some a.id ∨ fight a b = some b.id := by
  have hrounds : left (Simulator.start a.fighter b.fighter) ≤ rounds a b := by
    unfold left rounds Simulator.start Creature.fighter
    grind
  obtain ⟨s, hs⟩ := While.Loop.run_of_variant left (fun _ => left_body) hrounds
  rw [fight, hs, Option.map_some]
  split
  · exact .inl rfl
  · exact .inr rfl

/-! ## Events -/

/-- A line of the log. -/
inductive Entry where
  | hatched (slot : Slot) (id : Nat)
  | trained (slot : Slot) (id : Nat)
  | battle (winner : Option Nat)

/-- What `Math.random() * 10` is rounded down to, each time. -/
structure Draw where
  power : Fin 10
  defense : Fin 10
  stamina : Fin 10

/-- A button that is pressed, a hatching with what the view draws for it, or number `i` of the
trainings under way finishing. -/
inductive Event where
  | hatch (slot : Slot) (draw : Draw)
  | train (slot : Slot)
  | finish (i : Nat)
  | battle

/-! ## `CombatSimulatorView.tsx` -/

structure View where
  nextId : Nat
  shown : Slot → Option Creature
  /-- Where the copies came from. -/
  inflight : List (Slot × Creature)
  log : List Entry

namespace View

def start : View := ⟨1, fun _ => none, [], []⟩

/-- `randInt(1, 10)`. -/
def randInt (r : Fin 10) : Int := r.val + 1

def randomCreature (id : Nat) (draw : Draw) : Creature :=
  ⟨id, randInt draw.power, randInt draw.defense, randInt draw.stamina⟩

def next (gain : Gain) (s : View) : Event → View
  | .hatch slot draw =>
      { s with
        nextId := s.nextId + 1
        shown := Function.update s.shown slot (some (randomCreature s.nextId draw))
        log := s.log ++ [.hatched slot s.nextId] }
  | .train slot =>
      match s.shown slot with
      | none => s
      | some c => { s with inflight := s.inflight ++ [(slot, c)] }
  | .finish i =>
      match s.inflight[i]? with
      | none => s
      | some (slot, c) =>
          { s with
            shown := Function.update s.shown slot (some (trainStep gain c))
            inflight := s.inflight.eraseIdx i
            log := s.log ++ [.trained slot c.id] }
  | .battle =>
      match s.shown .A, s.shown .B with
      | some a, some b => { s with log := s.log ++ [.battle (fight a b)] }
      | _, _ => s

end View

/-! ## `simulator.js` -/

structure PRNG where
  seed : BitVec 32
  deriving DecidableEq

namespace PRNG

/-- `seed * 1103515245 + 12345` is no integer of 32 bits but a number of JavaScript, and is rounded
twice before `>>> 0`. -/
def next (g : PRNG) : PRNG where
  seed := BitVec.ofNat 32 (rounded (rounded (g.seed.toNat * 1103515245) + 12345))
where
  rounded (n : Nat) : Nat := (PluginMarketplace.nearest n).untopD 0

/-- `Math.floor(next() * (max - min + 1)) + min`, where `next()` is `(seed >>> 1) / 0x7fffffff`. With
ten numbers to choose from, the exact product is an integer at the two ends only, where nothing is
rounded, and else `1 / 0x7fffffff` or more from one, which the two roundings do not reach. -/
def nextInt (min max : Int) (g : PRNG) : Int × PRNG :=
  ((g.next.seed >>> 1).toNat * (max - min + 1) / 0x7fffffff + min, g.next)

end PRNG

structure Page where
  prng : PRNG
  nextId : Nat
  object : Slot → Option Nat
  /-- The objects, by the id that they are made with. -/
  heap : Nat → Creature
  inflight : List (Slot × Nat)
  log : List Entry

namespace Page

def start : Page := ⟨⟨1⟩, 1, fun _ => none, fun id => ⟨id, 0, 0, 0⟩, [], []⟩

def randomCreature (id : Nat) (g : PRNG) : Creature × PRNG :=
  let (power, g) := g.nextInt 1 10
  let (defense, g) := g.nextInt 1 10
  let (stamina, g) := g.nextInt 1 10
  (⟨id, power, defense, stamina⟩, g)

-- the first creature of the page is always the same
example : (randomCreature 1 start.prng).1 = ⟨1, 3, 6, 6⟩ := by decide +kernel

def shown (s : Page) (slot : Slot) : Option Creature := (s.object slot).map s.heap

def next (gain : Gain) (s : Page) : Event → Page
  | .hatch slot _ =>
      let (c, prng) := randomCreature s.nextId s.prng
      { s with
        prng
        nextId := s.nextId + 1
        object := Function.update s.object slot (some s.nextId)
        heap := Function.update s.heap s.nextId c
        log := s.log ++ [.hatched slot s.nextId] }
  | .train slot =>
      match s.object slot with
      | none => s
      | some r => { s with inflight := s.inflight ++ [(slot, r)] }
  | .finish i =>
      match s.inflight[i]? with
      | none => s
      | some (slot, r) =>
          let heap := Function.update s.heap r (trainStep gain (s.heap r))
          { s with
            heap
            inflight := s.inflight.eraseIdx i
            -- the line names the creature that is in the slot by now
            log := s.log ++ ((s.object slot).map fun q => Entry.trained slot (heap q).id).toList }
  | .battle =>
      match s.shown .A, s.shown .B with
      | some a, some b => { s with log := s.log ++ [.battle (fight a b)] }
      | _, _ => s

end Page

/-! ## Both -/

structure Both where
  view : View
  page : Page

namespace Both

def start : Both := ⟨View.start, Page.start⟩

def next (gain : Gain) (s : Both) (e : Event) : Both := ⟨s.view.next gain e, s.page.next gain e⟩

/-- What the user sees is the same. -/
def Agree (s : Both) : Prop := s.view.shown = s.page.shown ∧ s.view.log = s.page.log

/-- The view draws for a creature what the generator of the page has for it. -/
def SameDrawn (m : Move Both Event) : Prop :=
  ∀ slot draw, m.call = .hatch slot draw →
    View.randomCreature m.pre.page.nextId draw =
      (Page.randomCreature m.pre.page.nextId m.pre.page.prng).1

/-- A training that finishes finds the creature of its slot as it was when the training was begun. -/
def InPlace (m : Move Both Event) : Prop :=
  ∀ i, m.call = .finish i →
    ∀ slot c, m.pre.view.inflight[i]? = some (slot, c) → m.pre.view.shown slot = some c

/-- How the two go together while they agree. -/
structure Related (s : Both) : Prop where
  agree : s.Agree
  nextId : s.view.nextId = s.page.nextId
  inflight : s.page.inflight = s.view.inflight.map fun x => (x.1, x.2.id)
  heap_id : ∀ r, (s.page.heap r).id = r
  /-- The ids are of creatures that were hatched. -/
  old : ∀ slot r, s.page.object slot = some r → r < s.page.nextId
  /-- A slot is never emptied. -/
  begun : ∀ x ∈ s.page.inflight, ∃ r, s.page.object x.1 = some r
  apart : ∀ slot slot' r, s.page.object slot = some r → s.page.object slot' = some r → slot = slot'

theorem start_related : Related start where
  agree := ⟨rfl, rfl⟩
  nextId := rfl
  inflight := rfl
  heap_id _ := rfl
  old := by simp [start, Page.start]
  begun := by simp [start, Page.start]
  apart := by simp [start, Page.start]

variable {gain : Gain} {s : Both}

theorem trainStep_inj {c d : Creature} (h : trainStep gain c = trainStep gain d) : c = d := by
  cases c
  cases d
  simp only [trainStep, Creature.mk.injEq] at h ⊢
  grind

/-- What is in a slot after a hatching is the new creature, or was there. -/
theorem hatched_cases {object : Slot → Option Nat} {slot slot' : Slot} {n r : Nat}
    (h : Function.update object slot (some n) slot' = some r) :
    (slot' = slot ∧ r = n) ∨ (slot' ≠ slot ∧ object slot' = some r) := by
  by_cases heq : slot' = slot
  · subst heq
    rw [Function.update_self] at h
    exact .inl ⟨rfl, (Option.some.inj h).symm⟩
  · rw [Function.update_of_ne heq] at h
    exact .inr ⟨heq, h⟩

/-- The creature `v` in the view, and `c` in the page. -/
def hatched (s : Both) (slot : Slot) (v c : Creature) (prng : PRNG) : Both where
  view := { s.view with
    nextId := s.page.nextId + 1
    shown := Function.update s.view.shown slot (some v)
    log := s.view.log ++ [.hatched slot s.page.nextId] }
  page := { s.page with
    prng
    nextId := s.page.nextId + 1
    object := Function.update s.page.object slot (some s.page.nextId)
    heap := Function.update s.page.heap s.page.nextId c
    log := s.page.log ++ [.hatched slot s.page.nextId] }

theorem hatch_eq (h : Related s) (slot : Slot) (draw : Draw) :
    next gain s (.hatch slot draw) = s.hatched slot (View.randomCreature s.page.nextId draw)
      (Page.randomCreature s.page.nextId s.page.prng).1
      (Page.randomCreature s.page.nextId s.page.prng).2 := by
  rw [next, View.next, h.nextId]
  rfl

theorem hatched_related (h : Related s) (slot : Slot) {c : Creature} (prng : PRNG)
    (hid : c.id = s.page.nextId) : Related (s.hatched slot c c prng) where
  agree := by
    refine ⟨funext fun slot' => ?_, congrArg (· ++ _) h.agree.2⟩
    have hother := congrFun h.agree.1 slot'
    show Function.update s.view.shown slot _ slot' =
      (Function.update s.page.object slot _ slot').map (Function.update s.page.heap _ _)
    by_cases heq : slot' = slot
    · subst heq
      simp
    · simp only [Function.update_of_ne heq]
      rw [hother, Page.shown]
      cases hr : s.page.object slot' with
      | none => rfl
      | some r =>
          have hne : r ≠ s.page.nextId := (h.old slot' r hr).ne
          simp [hne]
  nextId := rfl
  inflight := h.inflight
  heap_id r := by
    show (Function.update s.page.heap s.page.nextId _ r).id = r
    by_cases heq : r = s.page.nextId
    · subst heq
      rw [Function.update_self]
      exact hid
    · rw [Function.update_of_ne heq]
      exact h.heap_id r
  old slot' r hr := by
    show r < s.page.nextId + 1
    rcases hatched_cases hr with ⟨-, rfl⟩ | ⟨-, hr⟩
    · exact Nat.lt_succ_self _
    · exact Nat.lt_succ_of_lt (h.old slot' r hr)
  begun x hx := by
    show ∃ r, Function.update s.page.object slot (some s.page.nextId) x.1 = some r
    by_cases heq : x.1 = slot
    · exact ⟨s.page.nextId, by simp [heq]⟩
    · rw [Function.update_of_ne heq]
      exact h.begun x hx
  apart slot₁ slot₂ r hr₁ hr₂ := by
    rcases hatched_cases hr₁ with ⟨rfl, rfl⟩ | ⟨-, hr₁⟩
    · rcases hatched_cases hr₂ with ⟨rfl, -⟩ | ⟨-, hr₂⟩
      · rfl
      · exact absurd (h.old slot₂ _ hr₂) (Nat.lt_irrefl _)
    · rcases hatched_cases hr₂ with ⟨-, rfl⟩ | ⟨-, hr₂⟩
      · exact absurd (h.old slot₁ _ hr₁) (Nat.lt_irrefl _)
      · exact h.apart slot₁ slot₂ r hr₁ hr₂

/-- A hatching that agrees has drawn the same. -/
theorem hatch_disagree (h : Related s) {slot : Slot} {draw : Draw}
    (hagree : (next gain s (.hatch slot draw)).Agree) :
    View.randomCreature s.page.nextId draw =
      (Page.randomCreature s.page.nextId s.page.prng).1 := by
  rw [hatch_eq h] at hagree
  have hslot : Function.update s.view.shown slot (some (View.randomCreature _ draw)) slot =
      (Function.update s.page.object slot (some s.page.nextId) slot).map
        (Function.update s.page.heap s.page.nextId _) := congrFun hagree.1 slot
  rw [Function.update_self, Function.update_self, Option.map_some, Function.update_self] at hslot
  exact Option.some.inj hslot

theorem train_related (h : Related s) (slot : Slot) : Related (next gain s (.train slot)) := by
  have hshown : s.view.shown slot = (s.page.object slot).map s.page.heap := congrFun h.agree.1 slot
  unfold next View.next Page.next
  dsimp only
  cases hr : s.page.object slot with
  | none =>
      rw [hr, Option.map_none] at hshown
      rw [hshown]
      exact h
  | some r =>
      rw [hr, Option.map_some] at hshown
      rw [hshown]
      have hmem : ∀ {x}, x ∈ s.page.inflight ++ [(slot, r)] → x ∈ s.page.inflight ∨ x = (slot, r) :=
        fun hx => (List.mem_append.mp hx).imp_right List.mem_singleton.mp
      exact {
        agree := h.agree
        nextId := h.nextId
        inflight := by simp [h.inflight, h.heap_id]
        heap_id := h.heap_id
        old := h.old
        apart := h.apart
        begun := fun x hx => by
          rcases hmem hx with hx | rfl
          · exact h.begun x hx
          · exact ⟨r, hr⟩ }

theorem battle_related (h : Related s) : Related (next gain s .battle) := by
  obtain ⟨hshown, hlog⟩ := h.agree
  unfold next View.next Page.next
  dsimp only
  rw [← hshown]
  split
  · exact { h with agree := ⟨hshown, congrArg (· ++ _) hlog⟩ }
  · exact h

/-- The training of an object leaves it its id. -/
theorem trained_id (h : Related s) (r q : Nat) :
    (Function.update s.page.heap r (trainStep gain (s.page.heap r)) q).id = q := by
  by_cases heq : q = r
  · subst heq
    rw [Function.update_self]
    exact h.heap_id q
  · rw [Function.update_of_ne heq]
    exact h.heap_id q

/-- The creature in the slot of a training under way is an object with its id. -/
theorem exists_object (h : Related s) {i : Nat} {slot : Slot} {c : Creature}
    (hi : s.view.inflight[i]? = some (slot, c)) :
    s.page.inflight[i]? = some (slot, c.id) ∧
      ∃ r, s.page.object slot = some r ∧ s.view.shown slot = some (s.page.heap r) := by
  have hi' : s.page.inflight[i]? = some (slot, c.id) := by
    rw [h.inflight, List.getElem?_map, hi]
    rfl
  obtain ⟨r, hr⟩ := h.begun _ (List.mem_of_getElem? hi')
  refine ⟨hi', r, hr, ?_⟩
  rw [h.agree.1, Page.shown, hr, Option.map_some]

/-- What a training that finishes does to both. -/
theorem finish_eq (h : Related s) {i : Nat} {slot : Slot} {c : Creature} {r : Nat}
    (hi : s.view.inflight[i]? = some (slot, c)) (hr : s.page.object slot = some r) :
    next gain s (.finish i) =
      ⟨{ s.view with
          shown := Function.update s.view.shown slot (some (trainStep gain c))
          inflight := s.view.inflight.eraseIdx i
          log := s.view.log ++ [.trained slot c.id] },
        { s.page with
          heap := Function.update s.page.heap c.id (trainStep gain (s.page.heap c.id))
          inflight := s.page.inflight.eraseIdx i
          log := s.page.log ++ [.trained slot r] }⟩ := by
  unfold next View.next Page.next
  dsimp only
  rw [hi, (exists_object h hi).1]
  dsimp only
  rw [hr, Option.map_some, trained_id h]
  rfl

/-- A training that finishes in its place is the same for both: the object is the copy. -/
theorem finish_related (h : Related s) {i : Nat} {slot : Slot} {c : Creature}
    (hi : s.view.inflight[i]? = some (slot, c)) (hplace : s.view.shown slot = some c) :
    Related (next gain s (.finish i)) := by
  obtain ⟨hi', r, hr, hobject⟩ := exists_object h hi
  obtain rfl : s.page.heap r = c := Option.some.inj (hobject.symm.trans hplace)
  have hid : (s.page.heap r).id = r := h.heap_id r
  have hrest : ∀ {x}, x ∈ s.page.inflight.eraseIdx i → x ∈ s.page.inflight :=
    fun hx => List.mem_of_mem_eraseIdx hx
  rw [finish_eq h hi hr, hid]
  exact {
    agree := by
      refine ⟨funext fun slot' => ?_, congrArg (· ++ _) h.agree.2⟩
      show Function.update s.view.shown slot _ slot' =
        (s.page.object slot').map (Function.update s.page.heap r _)
      by_cases heq : slot' = slot
      · subst heq
        rw [hr, Function.update_self, Option.map_some, Function.update_self]
      · rw [Function.update_of_ne heq, h.agree.1, Page.shown]
        cases hq : s.page.object slot' with
        | none => rfl
        | some q =>
            have hne : q ≠ r := fun hqr => heq (h.apart slot' slot r (hqr ▸ hq) hr)
            rw [Option.map_some, Option.map_some, Function.update_of_ne hne]
    nextId := h.nextId
    inflight := by
      show s.page.inflight.eraseIdx i = _
      rw [h.inflight, List.eraseIdx_map]
    heap_id := trained_id h r
    old := h.old
    apart := h.apart
    begun := fun x hx => h.begun x (hrest hx) }

/-- One that does not shows: the view has the copy, and the page its own creature. -/
theorem finish_disagree (h : Related s) {i : Nat} {slot : Slot} {c : Creature}
    (hi : s.view.inflight[i]? = some (slot, c)) (hagree : (next gain s (.finish i)).Agree) :
    s.view.shown slot = some c := by
  obtain ⟨hi', r, hr, hobject⟩ := exists_object h hi
  rw [finish_eq h hi hr] at hagree
  have hslot : Function.update s.view.shown slot (some (trainStep gain c)) slot =
      (s.page.object slot).map (Function.update s.page.heap c.id _) := congrFun hagree.1 slot
  rw [hr, Function.update_self, Option.map_some] at hslot
  have hsame := Option.some.inj hslot
  have hid : c.id = r := by
    have hids := congrArg Creature.id hsame
    rwa [trained_id h] at hids
  rw [hid, Function.update_self] at hsame
  rw [hobject, trainStep_inj hsame]

theorem finish_none (h : Related s) {i : Nat} (hi : s.view.inflight[i]? = none) :
    next gain s (.finish i) = s := by
  have hi' : s.page.inflight[i]? = none := by rw [h.inflight, List.getElem?_map, hi, Option.map_none]
  unfold next View.next Page.next
  dsimp only
  rw [hi, hi']

theorem next_related (h : Related s) (e : Event) (hdrawn : SameDrawn ⟨s, e, next gain s e⟩)
    (hplace : InPlace ⟨s, e, next gain s e⟩) : Related (next gain s e) := by
  cases e with
  | hatch slot draw =>
      rw [hatch_eq h, ← hdrawn slot draw rfl]
      exact hatched_related h slot _ rfl
  | train slot => exact train_related h slot
  | finish i =>
      cases hi : s.view.inflight[i]? with
      | none =>
          rw [finish_none h hi]
          exact h
      | some x => exact finish_related h hi (hplace i rfl x.1 x.2 hi)
  | battle => exact battle_related h

theorem next_agree (h : Related s) (e : Event) :
    (next gain s e).Agree ↔
      SameDrawn ⟨s, e, next gain s e⟩ ∧ InPlace ⟨s, e, next gain s e⟩ := by
  constructor
  · intro hagree
    constructor
    · rintro slot draw rfl
      exact hatch_disagree h hagree
    · rintro i rfl slot c hi
      exact finish_disagree h hi hagree
  · rintro ⟨hdrawn, hplace⟩
    exact (next_related h e hdrawn hplace).agree

/-- **When the two simulators show the same.** In every run of events, in which trainings finish in
any order and at any time, the view and the page show the same creatures and the same log at each
moment if and only if at every hatching the view draws what the generator of the page has, and every
training that finishes finds its creature as it was when the training was begun: not trained by
another, and not replaced by a hatching. -/
theorem same_shown_iff (gain : Gain) (events : List Event) :
    (∀ before, before <+: events → (exec (next gain) start before).Agree) ↔
      ∀ m ∈ history (next gain) start events, SameDrawn m ∧ InPlace m :=
  always_iff start_related (fun _ h => h.agree) (fun _ e h => next_agree h e)
    (fun _ e h hm => next_related h e hm.1 hm.2) events

/-- The second of two trainings that were begun together undoes the first in the view. -/
example : ((exec (next ⟨1, 0, 1⟩) start
    [.hatch .A ⟨2, 5, 5⟩, .train .A, .train .A, .finish 0, .finish 0]).view.shown .A,
    (exec (next ⟨1, 0, 1⟩) start
      [.hatch .A ⟨2, 5, 5⟩, .train .A, .train .A, .finish 0, .finish 0]).page.shown .A) =
    (some ⟨1, 4, 6, 7⟩, some ⟨1, 5, 6, 8⟩) := by
  decide +kernel

end Both

end ChainBeasts.Client.CombatSimulator
