import ChainBeasts.Machine

/-! # Two programs run side by side

An interleaving of two programs is a list of calls, each tagged with the program it belongs to. This
module names nothing of any particular machine: a step answers a call and moves to the next state.

`Separates` says that a state is put together from two parts and that a call of either program acts
on its own part as if it were alone. Then every interleaving gives each program the answers it gets
alone, and ends in a state put together from the two ends (`Separates.run`); so the order of the
interleaving does not matter (`Separates.order_irrelevant`). -/

namespace ChainBeasts.Interleaving

variable {S C O : Type*}

/-- What belongs to the first program, in order. -/
def first {α : Type*} (l : List (α ⊕ α)) : List α := l.filterMap Sum.getLeft?

/-- What belongs to the second program, in order. -/
def second {α : Type*} (l : List (α ⊕ α)) : List α := l.filterMap Sum.getRight?

/-- The calls without their tags. -/
def merged (cs : List (C ⊕ C)) : List C := cs.map (Sum.elim id id)

/-- The first program, then the second. -/
def inOrder (cs : List (C ⊕ C)) : List (C ⊕ C) :=
  (first cs).map Sum.inl ++ (second cs).map Sum.inr

@[simp] theorem first_nil {α : Type*} : first ([] : List (α ⊕ α)) = [] := rfl

@[simp] theorem second_nil {α : Type*} : second ([] : List (α ⊕ α)) = [] := rfl

@[simp] theorem first_inl {α : Type*} (x : α) (l : List (α ⊕ α)) :
    first (.inl x :: l) = x :: first l := rfl

@[simp] theorem first_inr {α : Type*} (x : α) (l : List (α ⊕ α)) :
    first (.inr x :: l) = first l := rfl

@[simp] theorem second_inl {α : Type*} (x : α) (l : List (α ⊕ α)) :
    second (.inl x :: l) = second l := rfl

@[simp] theorem second_inr {α : Type*} (x : α) (l : List (α ⊕ α)) :
    second (.inr x :: l) = x :: second l := rfl

theorem first_inOrder (cs : List (C ⊕ C)) : first (inOrder cs) = first cs := by
  simp [inOrder, first, List.filterMap_append, List.filterMap_map, Function.comp_def]

theorem second_inOrder (cs : List (C ⊕ C)) : second (inOrder cs) = second cs := by
  simp [inOrder, second, List.filterMap_append, List.filterMap_map, Function.comp_def]

/-! ## Runs -/

/-- The state after the calls `cs`. -/
def after (step : S → C → O × S) (s : S) (cs : List C) : S :=
  Machine.exec (fun s c => (step s c).2) s cs

/-- What the calls of one program answer. -/
def alone (step : S → C → O × S) : S → List C → List O
  | _, [] => []
  | s, c :: cs => (step s c).1 :: alone step (step s c).2 cs

/-- What the calls of an interleaving answer, tagged like the calls. -/
def answers (step : S → C → O × S) : S → List (C ⊕ C) → List (O ⊕ O)
  | _, [] => []
  | s, .inl c :: cs => .inl (step s c).1 :: answers step (step s c).2 cs
  | s, .inr c :: cs => .inr (step s c).1 :: answers step (step s c).2 cs

/-! ## Separation -/

/-- `J s a b` reads "`s` is put together from `a` and `b`". A call that is `Mine` answers in `s` as
it does in `a` and moves `a` alone; a call that is `Yours` does so with `b`. -/
structure Separates (step : S → C → O × S) (Mine Yours : C → Prop) (J : S → S → S → Prop) : Prop where
  left : ∀ {s a b c}, J s a b → Mine c →
    (step s c).1 = (step a c).1 ∧ J (step s c).2 (step a c).2 b
  right : ∀ {s a b c}, J s a b → Yours c →
    (step s c).1 = (step b c).1 ∧ J (step s c).2 a (step b c).2

variable {step : S → C → O × S} {Mine Yours : C → Prop} {J : S → S → S → Prop} {s a b : S}

/-- **The interleaving rule.** Each program gets the answers it gets alone, and the end is put
together from the ends of the two. -/
theorem Separates.run (h : Separates step Mine Yours J) (cs : List (C ⊕ C)) (hJ : J s a b)
    (hmine : ∀ c ∈ first cs, Mine c) (hyours : ∀ c ∈ second cs, Yours c) :
    first (answers step s cs) = alone step a (first cs) ∧
      second (answers step s cs) = alone step b (second cs) ∧
      J (after step s (merged cs)) (after step a (first cs)) (after step b (second cs)) := by
  induction cs generalizing s a b with
  | nil => exact ⟨rfl, rfl, hJ⟩
  | cons c cs ih =>
      cases c with
      | inl c =>
          obtain ⟨hanswer, hnext⟩ := h.left hJ (hmine c (by simp))
          obtain ⟨hfirst, hsecond, hend⟩ :=
            ih hnext (fun d hd => hmine d (by simp [hd])) (fun d hd => hyours d (by simpa using hd))
          exact ⟨congrArg₂ List.cons hanswer hfirst, hsecond, hend⟩
      | inr c =>
          obtain ⟨hanswer, hnext⟩ := h.right hJ (hyours c (by simp))
          obtain ⟨hfirst, hsecond, hend⟩ :=
            ih hnext (fun d hd => hmine d (by simpa using hd)) (fun d hd => hyours d (by simp [hd]))
          exact ⟨hfirst, congrArg₂ List.cons hanswer hsecond, hend⟩

/-- **The order does not matter.** Any interleaving answers as the first program followed by the
second, and the two ends are put together from the same parts. -/
theorem Separates.order_irrelevant (h : Separates step Mine Yours J) (cs : List (C ⊕ C))
    (hJ : J s a b) (hmine : ∀ c ∈ first cs, Mine c) (hyours : ∀ c ∈ second cs, Yours c) :
    first (answers step s cs) = first (answers step s (inOrder cs)) ∧
      second (answers step s cs) = second (answers step s (inOrder cs)) ∧
      ∃ a' b', J (after step s (merged cs)) a' b' ∧
        J (after step s (merged (inOrder cs))) a' b' := by
  obtain ⟨hfirst, hsecond, hend⟩ := h.run cs hJ hmine hyours
  have hrun := h.run (inOrder cs) hJ
  rw [first_inOrder, second_inOrder] at hrun
  obtain ⟨hfirst', hsecond', hend'⟩ := hrun hmine hyours
  exact ⟨hfirst.trans hfirst'.symm, hsecond.trans hsecond'.symm, _, _, hend, hend'⟩

end ChainBeasts.Interleaving
