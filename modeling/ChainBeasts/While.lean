import Mathlib.Logic.Function.Iterate
import Mathlib.Data.Nat.Basic

/-! # While loops

A `while` loop is a guard and a body, and may run for ever: `run n s` allows it `n` rounds, and the
loop ends from `s` when some number of rounds is enough. The rules below are the only inductions on
such a loop; this module names nothing of any particular program.

* `ends_of_progress` — a measure that is lowered every now and then.
* `ends_of_variant`, `run_of_variant` — a measure that every round lowers.
* `not_ends_of_invariant` — a state the loop cannot leave.
* `Returns.induction` — what every round keeps holds of the result.
* `Returns.simulation` — a loop that follows another, round by round.
* `run_overtake` — a loop that follows another and stops no later.
* `reach_induction`, `reach_iterate`, `reach_map`, `run_map` — the same for the states on the way
  (`reach`). -/

namespace ChainBeasts.While

/-- `while (guard s) s = body(s);` -/
structure Loop (S : Type*) where
  guard : S → Bool
  body : S → S

namespace Loop

variable {S T : Type*} {L : Loop S} {s r : S}

/-- The loop from `s`, given up after `n` rounds. -/
def run (L : Loop S) : Nat → S → Option S
  | 0, s => if L.guard s then none else some s
  | n + 1, s => if L.guard s then run L n (L.body s) else some s

/-- The loop, started in `s`, ends in `r`. -/
def Returns (L : Loop S) (s r : S) : Prop := ∃ n, L.run n s = some r

def Ends (L : Loop S) (s : S) : Prop := ∃ r, L.Returns s r

/-! ## Single rounds -/

theorem run_done (h : L.guard s = false) (n : Nat) : L.run n s = some s := by
  cases n <;> simp [run, h]

theorem run_round (h : L.guard s = true) (n : Nat) : L.run (n + 1) s = L.run n (L.body s) := by
  simp [run, h]

theorem returns_done (h : L.guard s = false) : L.Returns s s := ⟨0, run_done h 0⟩

theorem returns_round (h : L.guard s = true) : L.Returns s r ↔ L.Returns (L.body s) r := by
  constructor
  · rintro ⟨n, hn⟩
    cases n with
    | zero => simp [run, h] at hn
    | succ n => exact ⟨n, by rw [← run_round h, hn]⟩
  · rintro ⟨n, hn⟩
    exact ⟨n + 1, by rw [run_round h, hn]⟩

/-- More rounds do not change the result. -/
theorem run_mono {n m : Nat} (hrun : L.run n s = some r) (hnm : n ≤ m) : L.run m s = some r := by
  induction n generalizing s m with
  | zero =>
      cases hg : L.guard s with
      | true => simp [run, hg] at hrun
      | false =>
          rw [run_done hg] at hrun ⊢
          exact hrun
  | succ n ih =>
      cases hg : L.guard s with
      | true =>
          obtain ⟨m, rfl⟩ := Nat.exists_eq_add_of_lt (Nat.lt_of_succ_le hnm)
          rw [run_round hg] at hrun ⊢
          exact ih hrun (Nat.le_add_right n m)
      | false =>
          rw [run_done hg] at hrun ⊢
          exact hrun

theorem ends_done (h : L.guard s = false) : L.Ends s := ⟨s, returns_done h⟩

theorem ends_round (h : L.guard s = true) : L.Ends s ↔ L.Ends (L.body s) :=
  exists_congr fun _ => returns_round h

/-! ## Induction -/

/-- The states on the way to a result, from the last one back. -/
theorem Returns.head_induction (motive : S → Prop) (hrun : L.Returns s r)
    (done : L.guard r = false → motive r)
    (round : ∀ t, L.guard t = true → motive (L.body t) → motive t) : motive s := by
  obtain ⟨n, hn⟩ := hrun
  induction n generalizing s with
  | zero =>
      cases hg : L.guard s with
      | true => simp [run, hg] at hn
      | false =>
          rw [run_done hg] at hn
          cases hn
          exact done hg
  | succ n ih =>
      cases hg : L.guard s with
      | true =>
          rw [run_round hg] at hn
          exact round s hg (ih hn)
      | false =>
          rw [run_done hg] at hn
          cases hn
          exact done hg

/-- **The loop rule.** What holds before the loop and is kept by every round holds of the result,
where the guard fails. -/
theorem Returns.induction (P : S → Prop) (hrun : L.Returns s r) (init : P s)
    (step : ∀ t, L.guard t = true → P t → P (L.body t)) : P r ∧ L.guard r = false := by
  revert init
  refine hrun.head_induction (fun t => P t → P r ∧ L.guard r = false) ?_ ?_
  · intro hdone hP
    exact ⟨hP, hdone⟩
  · intro t hg ih hP
    exact ih (step t hg hP)

/-- **A loop returns at most one result.** -/
theorem Returns.unique {r' : S} (h : L.Returns s r) (h' : L.Returns s r') : r = r' := by
  -- what is kept: the state at hand also leads to `r'`
  obtain ⟨hlast, hdone⟩ := h.induction (fun t => L.Returns t r') h'
    (fun t hg ht => (returns_round hg).mp ht)
  obtain ⟨n, hn⟩ := hlast
  rw [run_done hdone] at hn
  exact Option.some.inj hn

/-- **Simulation.** A loop whose states stay related to those of a second one, with the same guard,
returns a state related to what the second one returns. -/
theorem Returns.simulation {M : Loop T} (R : S → T → Prop)
    (hguard : ∀ s t, R s t → L.guard s = M.guard t)
    (hbody : ∀ s t, R s t → L.guard s = true → R (L.body s) (M.body t)) {t : T} (hst : R s t)
    (hrun : L.Returns s r) : ∃ u, M.Returns t u ∧ R r u := by
  revert t
  refine hrun.head_induction (fun s => ∀ {t : T}, R s t → ∃ u, M.Returns t u ∧ R r u) ?_ ?_
  · intro hdone t hst
    exact ⟨t, returns_done (by rw [← hguard r t hst, hdone]), hst⟩
  · intro s hg ih t hst
    obtain ⟨u, hu, hru⟩ := ih (hbody s t hst hg)
    exact ⟨u, (returns_round (by rw [← hguard s t hst, hg])).mpr hu, hru⟩

/-- **Overtaking.** A loop that follows another one as long as both go on, and stops where the other
does at the latest, returns, with a property that it has there and wherever it stops early. -/
theorem run_overtake {M : Loop T} (R : S → T → Prop) (Q : T → Prop)
    (hbody : ∀ s t, R s t → L.guard s = true → M.guard t = true → R (L.body s) (M.body t))
    (hlast : ∀ t, L.guard r = false → R r t → M.guard t = false ∧ Q t)
    (hearly : ∀ s t, R s t → L.guard s = true → M.guard t = false → Q t) {n : Nat} {t : T}
    (hrun : L.run n s = some r) (hst : R s t) : ∃ u, M.run n t = some u ∧ Q u := by
  induction n generalizing s t with
  | zero =>
      cases hg : L.guard s with
      | true => simp [run, hg] at hrun
      | false =>
          rw [run_done hg] at hrun
          cases hrun
          obtain ⟨hstop, hQ⟩ := hlast t hg hst
          exact ⟨t, run_done hstop 0, hQ⟩
  | succ n ih =>
      cases hg : L.guard s with
      | true =>
          cases hstop : M.guard t with
          | true =>
              rw [run_round hg] at hrun
              rw [run_round hstop]
              exact ih hrun (hbody s t hst hg hstop)
          | false => exact ⟨t, run_done hstop _, hearly s t hst hg hstop⟩
      | false =>
          rw [run_done hg] at hrun
          cases hrun
          obtain ⟨hstop, hQ⟩ := hlast t hg hst
          exact ⟨t, run_done hstop _, hQ⟩

/-! ## The states on the way -/

/-- The state in which the guard is tested after `n` rounds, if the loop gets there. -/
def reach (L : Loop S) : Nat → S → Option S
  | 0, s => some s
  | n + 1, s => if L.guard s then reach L n (L.body s) else none

theorem reach_round (h : L.guard s = true) (n : Nat) : L.reach (n + 1) s = L.reach n (L.body s) := by
  simp [reach, h]

theorem reach_done (h : L.guard s = false) (n : Nat) : L.reach (n + 1) s = none := by
  simp [reach, h]

/-- What every round keeps holds whenever the guard is tested. -/
theorem reach_induction (P : S → Prop) {n : Nat} {t : S} (ht : L.reach n s = some t) (init : P s)
    (step : ∀ t, L.guard t = true → P t → P (L.body t)) : P t := by
  induction n generalizing s with
  | zero =>
      cases ht
      exact init
  | succ n ih =>
      cases hg : L.guard s with
      | true =>
          rw [reach_round hg] at ht
          exact ih ht (step s hg init)
      | false =>
          rw [reach_done hg] at ht
          cases ht

/-- A loop whose guard holds that long gets there. -/
theorem reach_iterate {n : Nat} (h : ∀ j < n, L.guard (L.body^[j] s) = true) :
    L.reach n s = some (L.body^[n] s) := by
  induction n generalizing s with
  | zero => rfl
  | succ n ih =>
      have hfirst : L.guard s = true := h 0 (Nat.zero_lt_succ n)
      rw [reach_round hfirst]
      apply ih
      intro j hj
      exact h (j + 1) (Nat.succ_lt_succ hj)

/-- **Lock-step.** A projection that commutes with the rounds on the states on the way takes them to
those of the other loop. -/
theorem reach_map {M : Loop T} (f : S → T)
    (hguard : ∀ n t, L.reach n s = some t → L.guard t = M.guard (f t))
    (hbody : ∀ n t, L.reach n s = some t → L.guard t = true → f (L.body t) = M.body (f t))
    (n : Nat) : (L.reach n s).map f = M.reach n (f s) := by
  induction n generalizing s with
  | zero => rfl
  | succ n ih =>
      have hfirst := hguard 0 s rfl
      cases hg : L.guard s with
      | true =>
          have hlater : ∀ m, L.reach (m + 1) s = L.reach m (L.body s) := reach_round hg
          rw [reach_round hg, reach_round (hfirst ▸ hg), ← hbody 0 s rfl hg]
          apply ih
          · intro m t ht
            exact hguard (m + 1) t ((hlater m).trans ht)
          · intro m t ht
            exact hbody (m + 1) t ((hlater m).trans ht)
      | false =>
          rw [reach_done hg, reach_done (hfirst ▸ hg)]
          rfl

/-- So the two loops end after the same number of rounds, in the same state. -/
theorem run_map {M : Loop T} (f : S → T)
    (hguard : ∀ n t, L.reach n s = some t → L.guard t = M.guard (f t))
    (hbody : ∀ n t, L.reach n s = some t → L.guard t = true → f (L.body t) = M.body (f t))
    (n : Nat) : (L.run n s).map f = M.run n (f s) := by
  have hfirst := hguard 0 s rfl
  induction n generalizing s with
  | zero =>
      unfold run
      rw [← hfirst]
      split <;> rfl
  | succ n ih =>
      cases hg : L.guard s with
      | true =>
          have hlater : ∀ m, L.reach (m + 1) s = L.reach m (L.body s) := reach_round hg
          rw [run_round hg, run_round (hfirst ▸ hg), ← hbody 0 s rfl hg]
          apply ih
          · intro m t ht
            exact hguard (m + 1) t ((hlater m).trans ht)
          · intro m t ht
            exact hbody (m + 1) t ((hlater m).trans ht)
          · exact hguard 1 _ (hlater 0)
      | false =>
          rw [run_done hg, run_done (hfirst ▸ hg)]
          rfl

/-! ## Termination -/

/-- A loop that would end from where some number of rounds leads has ended by then, or does. -/
theorem ends_of_iterate (n : Nat) (h : L.Ends (L.body^[n] s)) : L.Ends s := by
  induction n generalizing s with
  | zero => exact h
  | succ n ih =>
      cases hg : L.guard s with
      | false => exact ends_done hg
      | true =>
          rw [ends_round hg]
          exact ih h

/-- **The progress rule.** A loop ends if, from every state that satisfies an invariant, some number
of rounds leads to another one with a lower measure. -/
theorem ends_of_progress (P : S → Prop) (μ : S → Nat)
    (step : ∀ t, L.guard t = true → P t → ∃ n, P (L.body^[n] t) ∧ μ (L.body^[n] t) < μ t)
    (init : P s) : L.Ends s := by
  induction hm : μ s using Nat.strongRecOn generalizing s with
  | _ m ih =>
    cases hg : L.guard s with
    | false => exact ends_done hg
    | true =>
        obtain ⟨n, hkept, hless⟩ := step s hg init
        exact ends_of_iterate n (ih _ (hm ▸ hless) hkept rfl)

/-- **The variant rule.** A loop ends if, on the states that satisfy an invariant, every round keeps
it and lowers a measure. -/
theorem ends_of_variant (P : S → Prop) (μ : S → Nat)
    (step : ∀ t, L.guard t = true → P t → P (L.body t) ∧ μ (L.body t) < μ t) (init : P s) :
    L.Ends s :=
  ends_of_progress P μ (fun t hg ht => ⟨1, step t hg ht⟩) init

/-- A measure that every round lowers says how many rounds are enough. -/
theorem run_of_variant (μ : S → Nat) (step : ∀ t, L.guard t = true → μ (L.body t) < μ t) {n : Nat}
    (hn : μ s ≤ n) : ∃ r, L.run n s = some r := by
  induction n generalizing s with
  | zero =>
      cases hg : L.guard s with
      | false => exact ⟨s, run_done hg 0⟩
      | true => exact absurd (step s hg) (by omega)
  | succ n ih =>
      cases hg : L.guard s with
      | false => exact ⟨s, run_done hg _⟩
      | true =>
          rw [run_round hg]
          have hless := step s hg
          exact ih (by omega)

/-- A loop that keeps to states in which its guard holds never ends. -/
theorem not_ends_of_invariant (P : S → Prop)
    (step : ∀ t, P t → L.guard t = true ∧ P (L.body t)) (init : P s) : ¬ L.Ends s := by
  rintro ⟨r, hrun⟩
  obtain ⟨hP, hdone⟩ := hrun.induction P init (fun t _ ht => (step t ht).2)
  have hgoes := (step r hP).1
  rw [hdone] at hgoes
  cases hgoes

end Loop

end ChainBeasts.While
