import ChainBeasts.Machine

/-! # State machines under a clock

A machine whose calls read the time: block numbers, timestamps. The time moves on its own between
calls and never backwards. This module names nothing of any particular machine: `T` is the time and
`next` is the call, partial because a call may be refused.

`clock_induction` is the run rule: what holds initially, outlives the passing of time and is kept
by every accepted call holds, together with the moves made so far, at the end of every run. -/

namespace ChainBeasts.Clock

open ChainBeasts.Machine

variable {T S C : Type*}

/-- A machine and what its clock shows. -/
structure Clocked (T S : Type*) where
  now : T
  state : S

inductive Event (T C : Type*) where
  /-- Time passes. -/
  | tick (now : T)
  | call (c : C)

variable [LE T] [DecidableLE T] {next : T → S → C → Option S}

def step (next : T → S → C → Option S) (s : Clocked T S) : Event T C → Option (Clocked T S)
  | .tick now => if s.now ≤ now then some { s with now } else none
  | .call c => (next s.now s.state c).map fun state => { s with state }

/-- The state after the events `evs`; a refused event changes nothing. -/
def run (next : T → S → C → Option S) (s : Clocked T S) (evs : List (Event T C)) : Clocked T S :=
  exec (revert (step next)) s evs

/-- The moves of a run: the accepted events with the states around them. -/
def moves (next : T → S → C → Option S) (s : Clocked T S) (evs : List (Event T C)) :
    List (Move (Clocked T S) (Event T C)) :=
  trace (step next) s evs

theorem step_cases {s s' : Clocked T S} {ev : Event T C} (h : step next s ev = some s') :
    (∃ now, ev = .tick now ∧ s.now ≤ now ∧ s' = { s with now }) ∨
      ∃ c state, ev = .call c ∧ next s.now s.state c = some state ∧ s' = { s with state } := by
  cases ev with
  | tick now =>
      obtain ⟨hle, hs⟩ := Option.ite_none_right_eq_some.mp h
      exact Or.inl ⟨now, rfl, hle, (Option.some.inj hs).symm⟩
  | call c =>
      obtain ⟨state, hnext, hs⟩ := Option.map_eq_some_iff.mp h
      exact Or.inr ⟨c, state, rfl, hnext, hs.symm⟩

theorem step_call {s : Clocked T S} {c : C} {state : S} (h : next s.now s.state c = some state) :
    step next s (.call c) = some { s with state } := by
  rw [step, h, Option.map_some]

/-- Every call on record was accepted in the state before it. -/
theorem next_of_mem_moves {s : Clocked T S} {evs : List (Event T C)}
    {m : Move (Clocked T S) (Event T C)} {c : C} (hm : m ∈ moves next s evs)
    (hcall : m.call = .call c) : next m.pre.now m.pre.state c = some m.post.state := by
  have hstep := step_of_mem_trace hm
  rw [hcall] at hstep
  obtain ⟨state, hnext, hs⟩ := Option.map_eq_some_iff.mp hstep
  rw [hnext, ← hs]

/-- **The run rule.** -/
theorem clock_induction {P : Clocked T S → List (Move (Clocked T S) (Event T C)) → Prop}
    {s₀ : Clocked T S} (init : P s₀ [])
    (time : ∀ s tr now, P s tr → s.now ≤ now →
      P { s with now } (tr ++ [⟨s, .tick now, { s with now }⟩]))
    (call : ∀ s tr c state, P s tr → next s.now s.state c = some state →
      P { s with state } (tr ++ [⟨s, .call c, { s with state }⟩]))
    (evs : List (Event T C)) : P (run next s₀ evs) (moves next s₀ evs) := by
  refine trace_run_induction init ?_ evs
  intro s tr ev s' hs hstep
  obtain ⟨now, rfl, hle, rfl⟩ | ⟨c, state, rfl, hnext, rfl⟩ := step_cases hstep
  · exact time s tr now hs hle
  · exact call s tr c state hs hnext

/-- The run rule for a property of the states alone. -/
theorem clock_invariant {P : T → S → Prop} {s₀ : Clocked T S} (init : P s₀.now s₀.state)
    (time : ∀ t t' x, P t x → t ≤ t' → P t' x)
    (call : ∀ t x c x', P t x → next t x c = some x' → P t x') (evs : List (Event T C)) :
    P (run next s₀ evs).now (run next s₀ evs).state :=
  clock_induction (P := fun s _ => P s.now s.state) init (fun _ _ now hs hle => time _ now _ hs hle)
    (fun _ _ c x' hs hnext => call _ _ c x' hs hnext) evs

/-- The run rule for runs whose accepted events are all `ok`. -/
theorem guarded_invariant (ok : Move (Clocked T S) (Event T C) → Prop) {P : T → S → Prop}
    {s₀ : Clocked T S} (init : P s₀.now s₀.state) (time : ∀ t t' x, P t x → t ≤ t' → P t' x)
    (call : ∀ t x c x', P t x → next t x c = some x' → ok ⟨⟨t, x⟩, .call c, ⟨t, x'⟩⟩ → P t x')
    (evs : List (Event T C)) (hok : ∀ m ∈ moves next s₀ evs, ok m) :
    P (run next s₀ evs).now (run next s₀ evs).state := by
  refine trace_induction ok (fun s _ => P s.now s.state) init ?_ evs hok
  intro s tr ev s' hs hstep hgood
  obtain ⟨now, rfl, hle, rfl⟩ | ⟨c, state, rfl, hnext, rfl⟩ := step_cases hstep
  · exact time _ now _ hs hle
  · exact call _ _ c state hs hnext hgood

/-- Every event of a run, refused ones included, with the states around it. -/
def chronicle (next : T → S → C → Option S) (s : Clocked T S) (evs : List (Event T C)) :
    List (Move (Clocked T S) (Event T C)) :=
  history (revert (step next)) s evs

/-- The run rule with the refused events on record. -/
theorem chronicle_induction {P : Clocked T S → List (Move (Clocked T S) (Event T C)) → Prop}
    {s₀ : Clocked T S} (init : P s₀ [])
    (time : ∀ s tr now, P s tr → s.now ≤ now →
      P { s with now } (tr ++ [⟨s, .tick now, { s with now }⟩]))
    (call : ∀ s tr c state, P s tr → next s.now s.state c = some state →
      P { s with state } (tr ++ [⟨s, .call c, { s with state }⟩]))
    (refused : ∀ s tr ev, P s tr → step next s ev = none → P s (tr ++ [⟨s, ev, s⟩]))
    (evs : List (Event T C)) : P (run next s₀ evs) (chronicle next s₀ evs) := by
  refine history_induction (fun _ => True) P init ?_ evs fun _ _ => trivial
  intro s tr ev hs _
  cases hstep : step next s ev with
  | none =>
      rw [revert_none hstep]
      exact refused s tr ev hs hstep
  | some s' =>
      rw [revert_some hstep]
      obtain ⟨now, rfl, hle, rfl⟩ | ⟨c, state, rfl, hnext, rfl⟩ := step_cases hstep
      · exact time s tr now hs hle
      · exact call s tr c state hs hnext

theorem run_append (next : T → S → C → Option S) (s : Clocked T S) (evs more : List (Event T C)) :
    run next s (evs ++ more) = run next (run next s evs) more :=
  exec_append _ s evs more

end ChainBeasts.Clock
