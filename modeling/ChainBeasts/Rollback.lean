import Mathlib.Data.List.Infix

/-! # Nested calls that can be rolled back

A machine whose calls nest keeps, for every open call, the state it had when the call began. A call
that returns drops its saved state, a call that fails puts it back, and some callers fail with the
call they made. This module names nothing of any particular machine: `K` says what an open call is,
`S` is the state that is saved.

A property of states that the machine's own steps keep is kept by returns and failures too, because
a failure only brings back a saved state: that is `Holds`, with one rule for each operation.
`Throughout` is the same for a property that also speaks of the calls still open. -/

namespace ChainBeasts.Rollback

variable {K S : Type*}

/-- An open call, and the state a failure restores. -/
structure Frame (K S : Type*) where
  kind : K
  saved : S

/-- The current state and the open calls, the innermost first. -/
structure Stack (K S : Type*) where
  current : S
  frames : List (Frame K S)

namespace Stack

/-- The current state with all saved ones. -/
def snapshots (s : Stack K S) : List S := s.current :: s.frames.map Frame.saved

/-- A step inside the innermost call. -/
def replace (s : Stack K S) (x : S) : Stack K S := ⟨x, s.frames⟩

/-- A call begins. -/
def push (s : Stack K S) (k : K) : Stack K S := ⟨s.current, ⟨k, s.current⟩ :: s.frames⟩

/-- What the innermost call is may change while it runs. -/
def become (s : Stack K S) (k : K) : Stack K S :=
  match s.frames with
  | [] => s
  | f :: rest => ⟨s.current, ⟨k, f.saved⟩ :: rest⟩

@[simp] theorem become_current (s : Stack K S) (k : K) : (s.become k).current = s.current := by
  obtain ⟨current, frames⟩ := s
  cases frames <;> rfl

/-- The innermost call returns. -/
def commit (s : Stack K S) : Option (Stack K S) :=
  match s.frames with
  | [] => none
  | _ :: rest => some ⟨s.current, rest⟩

/-- The innermost call of `frames` fails, and its caller with it when `through` says so. -/
def unwind (through : K → Bool) : List (Frame K S) → Option (Stack K S)
  | [] => none
  | f :: rest =>
    if (rest.head?.map fun caller => through caller.kind).getD false then unwind through rest
    else some ⟨f.saved, rest⟩

/-- The innermost call fails. -/
def abort (through : K → Bool) (s : Stack K S) : Option (Stack K S) := unwind through s.frames

/-! ## What holds of every snapshot -/

/-- The current state and every saved one satisfy `P`. -/
def Holds (P : S → Prop) (s : Stack K S) : Prop := ∀ x ∈ s.snapshots, P x

variable {P Q : S → Prop} {s s' : Stack K S} {k : K} {x : S}

theorem Holds.current (h : s.Holds P) : P s.current := h s.current (by simp [snapshots])

theorem holds_nil : (⟨x, []⟩ : Stack K S).Holds P ↔ P x := by
  simp [Holds, snapshots]

theorem Holds.imp (h : s.Holds P) (himp : ∀ y, P y → Q y) : s.Holds Q :=
  fun y hy => himp y (h y hy)

theorem Holds.replace (h : s.Holds P) (hx : P x) : (s.replace x).Holds P := by
  intro y hy
  rcases List.mem_cons.mp hy with rfl | hsaved
  · exact hx
  · exact h y (List.mem_cons_of_mem _ hsaved)

theorem Holds.push (h : s.Holds P) : (s.push k).Holds P := by
  intro y hy
  rcases List.mem_cons.mp hy with rfl | hsaved
  · exact h.current
  · rcases List.mem_cons.mp hsaved with rfl | hsaved
    · exact h.current
    · exact h y (List.mem_cons_of_mem _ hsaved)

theorem Holds.become (h : s.Holds P) : (s.become k).Holds P := by
  have hsame : (s.become k).snapshots = s.snapshots := by
    obtain ⟨current, frames⟩ := s
    cases frames <;> rfl
  rw [Holds, hsame]
  exact h

theorem Holds.commit (h : s.Holds P) (hc : s.commit = some s') : s'.Holds P := by
  obtain ⟨current, frames⟩ := s
  cases frames with
  | nil => cases hc
  | cons f rest =>
      cases hc
      intro y hy
      rcases List.mem_cons.mp hy with rfl | hsaved
      · exact h.current
      · exact h y (List.mem_cons_of_mem _ (List.mem_cons_of_mem _ hsaved))

/-- A failure only brings saved states back. -/
theorem unwind_suffix {through : K → Bool} {frames : List (Frame K S)}
    (h : unwind through frames = some s') : s'.snapshots <:+ frames.map Frame.saved := by
  induction frames with
  | nil => cases h
  | cons f rest ih =>
      rw [unwind] at h
      split at h
      · exact (ih h).trans (List.suffix_cons _ _)
      · cases h
        exact List.suffix_refl _

/-- A failure leaves what was saved by an open call, and the calls around that one. -/
theorem unwind_cases {through : K → Bool} {frames : List (Frame K S)}
    (h : unwind through frames = some s') :
    ∃ f rest, f :: rest <:+ frames ∧ s' = ⟨f.saved, rest⟩ := by
  induction frames with
  | nil => cases h
  | cons f rest ih =>
      rw [unwind] at h
      split at h
      · obtain ⟨g, outer, hsuffix, hs⟩ := ih h
        exact ⟨g, outer, hsuffix.trans (List.suffix_cons _ _), hs⟩
      · exact ⟨f, rest, List.suffix_refl _, (Option.some.inj h).symm⟩

theorem Holds.abort {through : K → Bool} (h : s.Holds P) (ha : s.abort through = some s') :
    s'.Holds P := by
  intro y hy
  exact h y (List.mem_cons_of_mem _ ((unwind_suffix ha).subset hy))

/-! ## What holds of a state under its open calls -/

/-- `R` holds of the current state under the open calls, and of every saved one under the calls that
were open then. -/
structure Throughout (R : S → List (Frame K S) → Prop) (s : Stack K S) : Prop where
  current : R s.current s.frames
  saved : ∀ f rest, f :: rest <:+ s.frames → R f.saved rest

variable {R : S → List (Frame K S) → Prop} {f : Frame K S} {rest : List (Frame K S)}

theorem Throughout.replace (h : s.Throughout R) (hx : R x s.frames) :
    (s.replace x).Throughout R := ⟨hx, h.saved⟩

theorem Throughout.push (h : s.Throughout R) (hk : R s.current (⟨k, s.current⟩ :: s.frames)) :
    (s.push k).Throughout R := by
  refine ⟨hk, ?_⟩
  intro f rest hsuffix
  rcases List.suffix_cons_iff.mp hsuffix with hall | hsuffix
  · obtain ⟨rfl, rfl⟩ := List.cons.inj hall
    exact h.current
  · exact h.saved f rest hsuffix

/-- The innermost call returns, and its caller goes on to `x`. -/
theorem Throughout.pop (h : s.Throughout R) (hframes : s.frames = f :: rest) (hx : R x rest) :
    (⟨x, rest⟩ : Stack K S).Throughout R := by
  refine ⟨hx, ?_⟩
  intro g outer hsuffix
  apply h.saved
  rw [hframes]
  exact hsuffix.trans (List.suffix_cons _ _)

/-- The innermost call fails. -/
theorem Throughout.drop (h : s.Throughout R) (hframes : s.frames = f :: rest) :
    (⟨f.saved, rest⟩ : Stack K S).Throughout R := by
  refine h.pop hframes (h.saved f rest ?_)
  rw [hframes]

end Stack

end ChainBeasts.Rollback
