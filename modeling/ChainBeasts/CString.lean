import Mathlib.Data.List.TakeWhile

/-! # Text in C

A string in C ends at its first zero. A character field holds such a text in a fixed number of
bytes: printing into it cuts what does not fit, reading it fails where no zero ends the text. A text
that was read is printed back as it was, with zeros behind it (`print_read`), and a field tells two
texts apart just by what fits into it (`print_eq_iff`). -/

namespace ChainBeasts.CString

abbrev Text := List (BitVec 8)

/-- What C sees of a string. -/
def cstr (s : Text) : Text := s.takeWhile (· ≠ 0)

theorem zero_notMem_cstr (s : Text) : 0 ∉ cstr s := by
  intro h
  have hkept := List.mem_takeWhile_imp h
  simp at hkept

theorem cstr_of_notMem {s : Text} (h : 0 ∉ s) : cstr s = s := by
  apply List.takeWhile_eq_self_iff.mpr
  intro c hc
  exact decide_eq_true fun hzero => h (hzero ▸ hc)

/-- Nothing behind a zero is seen. -/
theorem cstr_append_zero {s : Text} (h : 0 ∉ s) (rest : Text) : cstr (s ++ 0 :: rest) = s := by
  have hself : s.takeWhile (· ≠ 0) = s := cstr_of_notMem h
  unfold cstr
  rw [List.takeWhile_append, hself, if_pos rfl]
  simp

theorem eq_append_zero {s : Text} (h : 0 ∈ s) : ∃ rest, s = cstr s ++ 0 :: rest := by
  induction s with
  | nil => cases h
  | cons c s ih =>
      by_cases hc : c = 0
      · subst hc
        exact ⟨s, by simp [cstr]⟩
      · obtain ⟨rest, hrest⟩ := ih ((List.mem_cons.mp h).resolve_left (Ne.symm hc))
        refine ⟨rest, ?_⟩
        have hhead : cstr (c :: s) = c :: cstr s :=
          List.takeWhile_cons_of_pos (decide_eq_true hc)
        rw [hhead, List.cons_append, ← hrest]

/-- A `char[w + 1]`. -/
abbrev Chars (w : Nat) := {bs : Text // bs.length = w + 1}

namespace Chars

variable {w : Nat}

/-- A text that fits, with zeros behind it. -/
def padded (s : Text) (h : s.length ≤ w) : Chars w :=
  ⟨s ++ List.replicate (w + 1 - s.length) 0, by simp; omega⟩

/-- `snprintf(field, sizeof(field), "%s", s.c_str())` over a field of zeros. -/
def print (s : Text) : Chars w :=
  padded ((cstr s).take w) (List.length_take_le w _)

/-- `std::string(field)`: there is none if the text runs out of the field. -/
def read (f : Chars w) : Option Text :=
  if f.val.any (· = 0) then some (cstr f.val) else none

theorem any_zero (s : Text) : s.any (· = 0) = true ↔ 0 ∈ s := by
  rw [List.any_eq_true]
  simp

theorem padded_eq {s : Text} (h : s.length ≤ w) :
    (padded s h).val = s ++ 0 :: List.replicate (w - s.length) 0 := by
  have hsize : w + 1 - s.length = w - s.length + 1 := by omega
  show s ++ List.replicate (w + 1 - s.length) 0 = _
  rw [hsize, List.replicate_succ]

theorem read_padded {s : Text} (h : s.length ≤ w) (hs : 0 ∉ s) : (padded s h).read = some s := by
  rw [read, padded_eq, if_pos ((any_zero _).mpr (by simp)), cstr_append_zero hs]

/-- **What comes back of a text**: what fits. -/
theorem read_print (s : Text) : (print s : Chars w).read = some ((cstr s).take w) :=
  read_padded _ fun h => zero_notMem_cstr s (List.mem_of_mem_take h)

/-- **A field tells texts apart by what fits.** -/
theorem print_eq_iff (s t : Text) :
    (print s : Chars w) = print t ↔ (cstr s).take w = (cstr t).take w := by
  constructor
  · intro h
    have hread := congrArg read h
    rw [read_print, read_print] at hread
    exact Option.some.inj hread
  · intro h
    simp only [print, h]

theorem read_cases {f : Chars w} {s : Text} (h : f.read = some s) :
    0 ∉ s ∧ s.length ≤ w ∧ ∃ rest, f.val = s ++ 0 :: rest := by
  unfold read at h
  split at h
  · next hzero =>
      obtain rfl := Option.some.inj h
      obtain ⟨rest, hrest⟩ := eq_append_zero ((any_zero _).mp hzero)
      refine ⟨zero_notMem_cstr _, ?_, rest, hrest⟩
      have hlength := congrArg List.length hrest
      rw [f.property, List.length_append, List.length_cons] at hlength
      omega
  · cases h

/-- The field with zeros behind its text. -/
def wiped (f : Chars w) : Chars w := print f.val

/-- **A text that was read is printed back**, with zeros behind it. -/
theorem print_read {f : Chars w} {s : Text} (h : f.read = some s) : print s = wiped f := by
  obtain ⟨hzero, -, rest, hrest⟩ := read_cases h
  rw [wiped, print_eq_iff, hrest, cstr_of_notMem hzero, cstr_append_zero hzero]

end Chars

end ChainBeasts.CString
