import Mathlib.Data.List.Induction
import Mathlib.Logic.Function.Basic

/-! # Runs of a state machine

A contract, a chain or a game loop is a state with a list of calls run against it. This module
names nothing of any particular program: `next` is the transition, a run is `exec`, and a call
that may be refused is a partial transition `step` whose refusal leaves the state alone.

The two induction rules (`run_induction`, `trace_induction`) are stated once here; every
invariant of the development is an instance of one of them. -/

namespace ChainBeasts.Machine

variable {S C : Type*}

/-! ## Total transitions -/

/-- The state after the calls `cs`, run in order from `s`. -/
def exec (next : S → C → S) (s : S) (cs : List C) : S := cs.foldl next s

@[simp] theorem exec_nil (next : S → C → S) (s : S) : exec next s [] = s := rfl

@[simp] theorem exec_cons (next : S → C → S) (s : S) (c : C) (cs : List C) :
    exec next s (c :: cs) = exec next (next s c) cs := rfl

@[simp] theorem exec_concat (next : S → C → S) (s : S) (cs : List C) (c : C) :
    exec next s (cs ++ [c]) = next (exec next s cs) c := by
  simp [exec]

theorem exec_append (next : S → C → S) (s : S) (cs ds : List C) :
    exec next s (cs ++ ds) = exec next (exec next s cs) ds := List.foldl_append

/-- **The run rule.** What holds initially and is kept by every call holds, together with the calls
made so far, at the end of every run. -/
theorem run_induction {next : S → C → S} {P : S → List C → Prop} {s₀ : S}
    (init : P s₀ []) (step : ∀ s cs c, P s cs → P (next s c) (cs ++ [c])) (cs : List C) :
    P (exec next s₀ cs) cs := by
  induction cs using List.reverseRecOn with
  | nil => exact init
  | append_singleton cs c ih =>
      rw [exec_concat]
      exact step _ cs c ih

/-! ## Partial transitions -/

/-- A refused call leaves the state as it was. -/
def revert (step : S → C → Option S) (s : S) (c : C) : S := (step s c).getD s

theorem revert_some {step : S → C → Option S} {s s' : S} {c : C} (h : step s c = some s') :
    revert step s c = s' := by
  simp [revert, h]

theorem revert_none {step : S → C → Option S} {s : S} {c : C} (h : step s c = none) :
    revert step s c = s := by
  simp [revert, h]

/-- One accepted call: the state it was made in, the call, and the state it left. -/
structure Move (S C : Type*) where
  pre : S
  call : C
  post : S

/-- The accepted calls of a run, in order. -/
def trace (step : S → C → Option S) : S → List C → List (Move S C)
  | _, [] => []
  | s, c :: cs =>
    match step s c with
    | some s' => ⟨s, c, s'⟩ :: trace step s' cs
    | none => trace step s cs

/-- Every move of a trace is an accepted call. -/
theorem step_of_mem_trace {step : S → C → Option S} {s : S} {cs : List C} {m : Move S C}
    (h : m ∈ trace step s cs) : step m.pre m.call = some m.post := by
  induction cs generalizing s with
  | nil => simp [trace] at h
  | cons c cs ih =>
      rw [trace] at h
      split at h
      · next s' hs =>
          rcases List.mem_cons.mp h with rfl | hrest
          · exact hs
          · exact ih hrest
      · exact ih h

/-- Every move of a trace is one of the calls. -/
theorem mem_of_mem_trace {step : S → C → Option S} {s : S} {cs : List C} {m : Move S C}
    (h : m ∈ trace step s cs) : m.call ∈ cs := by
  induction cs generalizing s with
  | nil => simp [trace] at h
  | cons c cs ih =>
      rw [trace] at h
      split at h
      · rcases List.mem_cons.mp h with rfl | hrest
        · exact List.mem_cons_self
        · exact List.mem_cons_of_mem _ (ih hrest)
      · exact List.mem_cons_of_mem _ (ih h)

theorem trace_concat_some {step : S → C → Option S} {s s' : S} {cs : List C} {c : C}
    (h : step (exec (revert step) s cs) c = some s') :
    trace step s (cs ++ [c]) = trace step s cs ++ [⟨exec (revert step) s cs, c, s'⟩] := by
  induction cs generalizing s with
  | nil => simp_all [trace]
  | cons d ds ih =>
      rw [exec_cons] at h
      cases hd : step s d with
      | none => rw [revert_none hd] at h; simp [trace, hd, ih h, revert_none hd]
      | some t => rw [revert_some hd] at h; simp [trace, hd, ih h, revert_some hd]

theorem trace_concat_none {step : S → C → Option S} {s : S} {cs : List C} {c : C}
    (h : step (exec (revert step) s cs) c = none) :
    trace step s (cs ++ [c]) = trace step s cs := by
  induction cs generalizing s with
  | nil => simp_all [trace]
  | cons d ds ih =>
      rw [exec_cons] at h
      cases hd : step s d with
      | none => rw [revert_none hd] at h; simp [trace, hd, ih h]
      | some t => rw [revert_some hd] at h; simp [trace, hd, ih h]

theorem trace_append (step : S → C → Option S) (s : S) (cs ds : List C) :
    trace step s (cs ++ ds) = trace step s cs ++ trace step (exec (revert step) s cs) ds := by
  induction cs generalizing s with
  | nil => rfl
  | cons c cs ih =>
      rw [List.cons_append, exec_cons, trace, trace]
      cases hc : step s c with
      | none =>
          rw [revert_none hc]
          exact ih s
      | some t =>
          rw [revert_some hc]
          exact congrArg (_ :: ·) (ih t)

/-- A move of a trace is made in the state after the calls before it. -/
theorem exists_prefix_of_mem_trace {step : S → C → Option S} {s : S} {cs : List C} {m : Move S C}
    (h : m ∈ trace step s cs) :
    ∃ before, before ++ [m.call] <+: cs ∧ exec (revert step) s before = m.pre ∧
      exec (revert step) s (before ++ [m.call]) = m.post := by
  induction cs using List.reverseRecOn with
  | nil => simp [trace] at h
  | append_singleton cs c ih =>
      have hearlier : m ∈ trace step s cs → ∃ before, before ++ [m.call] <+: cs ++ [c] ∧
          exec (revert step) s before = m.pre ∧
          exec (revert step) s (before ++ [m.call]) = m.post := by
        intro hm
        obtain ⟨before, hprefix, hpre, hpost⟩ := ih hm
        exact ⟨before, hprefix.trans (List.prefix_append cs [c]), hpre, hpost⟩
      cases hc : step (exec (revert step) s cs) c with
      | none =>
          rw [trace_concat_none hc] at h
          exact hearlier h
      | some t =>
          rw [trace_concat_some hc, List.mem_append, List.mem_singleton] at h
          rcases h with hm | rfl
          · exact hearlier hm
          · refine ⟨cs, List.prefix_refl _, rfl, ?_⟩
            rw [exec_concat, revert_some hc]

/-- **The trace rule.** What holds initially and is kept by every accepted call that is `ok` holds,
together with the accepted calls so far, at the end of every run whose accepted calls all are. -/
theorem trace_induction {step : S → C → Option S} (ok : Move S C → Prop)
    (P : S → List (Move S C) → Prop) {s₀ : S} (init : P s₀ [])
    (kept : ∀ s tr c s', P s tr → step s c = some s' → ok ⟨s, c, s'⟩ → P s' (tr ++ [⟨s, c, s'⟩]))
    (cs : List C) (hok : ∀ m ∈ trace step s₀ cs, ok m) :
    P (exec (revert step) s₀ cs) (trace step s₀ cs) := by
  induction cs using List.reverseRecOn with
  | nil => exact init
  | append_singleton cs c ih =>
      rw [exec_concat]
      cases hstep : step (exec (revert step) s₀ cs) c with
      | none =>
          rw [trace_concat_none hstep] at hok ⊢
          rw [revert_none hstep]
          exact ih hok
      | some s' =>
          rw [trace_concat_some hstep] at hok ⊢
          rw [revert_some hstep]
          have hold := ih fun m hm => hok m (List.mem_append_left _ hm)
          exact kept _ _ c s' hold hstep (hok _ (by simp))

/-- The trace rule when every accepted call is fine. -/
theorem trace_run_induction {step : S → C → Option S} {P : S → List (Move S C) → Prop} {s₀ : S}
    (init : P s₀ []) (kept : ∀ s tr c s', P s tr → step s c = some s' → P s' (tr ++ [⟨s, c, s'⟩]))
    (cs : List C) : P (exec (revert step) s₀ cs) (trace step s₀ cs) :=
  trace_induction (fun _ => True) P init (fun s tr c s' h hs _ => kept s tr c s' h hs) cs
    (fun _ _ => trivial)

/-- **The invariant rule.** What holds initially and is kept by every accepted call holds at the end
of every run. -/
theorem revert_induction {step : S → C → Option S} (P : S → Prop) {s₀ : S} (init : P s₀)
    (kept : ∀ s c s', P s → step s c = some s' → P s') (cs : List C) :
    P (exec (revert step) s₀ cs) :=
  trace_run_induction (P := fun s _ => P s) init (fun s _ c s' h hs => kept s c s' h hs) cs

/-! ## The history of a total transition -/

/-- Every call of a run with the states around it, in order. -/
def history (next : S → C → S) (s : S) (cs : List C) : List (Move S C) :=
  trace (fun s c => some (next s c)) s cs

theorem history_concat (next : S → C → S) (s : S) (cs : List C) (c : C) :
    history next s (cs ++ [c]) =
      history next s cs ++ [⟨exec next s cs, c, next (exec next s cs) c⟩] :=
  trace_concat_some rfl

/-- **The history rule.** What holds initially and is kept by every call that is `ok` holds at the
end of every run whose calls all are. -/
theorem history_induction {next : S → C → S} (ok : Move S C → Prop)
    (P : S → List (Move S C) → Prop) {s₀ : S} (init : P s₀ [])
    (kept : ∀ s tr c, P s tr → ok ⟨s, c, next s c⟩ → P (next s c) (tr ++ [⟨s, c, next s c⟩]))
    (cs : List C) (hok : ∀ m ∈ history next s₀ cs, ok m) :
    P (exec next s₀ cs) (history next s₀ cs) := by
  refine trace_induction ok P init ?_ cs hok
  intro s tr c s' h hstep hgood
  cases hstep
  exact kept s tr c h hgood

/-- **When a property never fails.** If, on the states that satisfy an invariant, a call keeps the
property exactly if it is `ok`, and then keeps the invariant, the property holds at every moment of a
run if and only if all its calls are `ok`. -/
theorem always_iff {next : S → C → S} {P Q : S → Prop} {ok : Move S C → Prop} {s₀ : S}
    (init : Q s₀) (holds : ∀ s, Q s → P s)
    (step : ∀ s c, Q s → (P (next s c) ↔ ok ⟨s, c, next s c⟩))
    (kept : ∀ s c, Q s → ok ⟨s, c, next s c⟩ → Q (next s c)) (cs : List C) :
    (∀ before, before <+: cs → P (exec next s₀ before)) ↔ ∀ m ∈ history next s₀ cs, ok m := by
  induction cs using List.reverseRecOn with
  | nil =>
      refine iff_of_true ?_ (by simp [history, trace])
      intro before hbefore
      rw [List.prefix_nil.mp hbefore]
      exact holds s₀ init
  | append_singleton cs c ih =>
      rw [history_concat, List.forall_mem_append, ← ih]
      simp only [List.prefix_concat_iff, forall_eq_or_imp, List.mem_singleton, forall_eq]
      rw [exec_concat, and_comm]
      apply and_congr_right
      intro hall
      apply step
      exact history_induction ok (fun s _ => Q s) init (fun s _ c => kept s c) cs (ih.mp hall)

end ChainBeasts.Machine
