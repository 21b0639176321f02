import Mathlib.Data.List.Infix

/-! # Searching a list

The first place at or after a given one where a pattern begins. A text that is put together from
pieces is searched by its pieces: what comes before the place to start from does not matter, and the
pattern is found behind a piece in which it does not begin (`find_append`). -/

namespace ChainBeasts.Search

variable {α : Type*} [DecidableEq α]

/-- Where `pat` begins first; the list starts at place `pos`. -/
def findFrom (pat : List α) : List α → Nat → Option Nat
  | [], pos => if pat = [] then some pos else none
  | a :: s, pos => if pat <+: a :: s then some pos else findFrom pat s (pos + 1)

def find (s pat : List α) (pos : Nat) : Option Nat :=
  if pos ≤ s.length then findFrom pat (s.drop pos) pos else none

theorem findFrom_prefix {pat s : List α} (h : pat <+: s) (pos : Nat) :
    findFrom pat s pos = some pos := by
  cases s with
  | nil => rw [findFrom, if_pos (List.prefix_nil.mp h)]
  | cons a s => rw [findFrom, if_pos h]

theorem findFrom_append {pat mid s : List α} (h : pat <+: s)
    (hno : ∀ j < mid.length, ¬ pat <+: (mid ++ s).drop j) (pos : Nat) :
    findFrom pat (mid ++ s) pos = some (pos + mid.length) := by
  induction mid generalizing pos with
  | nil => exact findFrom_prefix h pos
  | cons a mid ih =>
      have hhere : ¬ pat <+: a :: (mid ++ s) := hno 0 (Nat.succ_pos _)
      have hlater : ∀ j < mid.length, ¬ pat <+: (mid ++ s).drop j := fun j hj =>
        hno (j + 1) (Nat.succ_lt_succ hj)
      rw [List.cons_append, findFrom, if_neg hhere, ih hlater, List.length_cons]
      congr 1
      omega

/-- **The pattern is found behind a piece in which it does not begin.** -/
theorem find_append {pat mid s : List α} (before : List α) (h : pat <+: s)
    (hno : ∀ j < mid.length, ¬ pat <+: (mid ++ s).drop j) :
    find (before ++ (mid ++ s)) pat before.length = some (before.length + mid.length) := by
  rw [find, if_pos (by simp), List.drop_left]
  exact findFrom_append h hno _

/-- It does not begin where its first letter does not occur. -/
theorem find_append_of_notMem {a : α} {pat mid s : List α} (before : List α) (h : a :: pat <+: s)
    (hno : a ∉ mid) :
    find (before ++ (mid ++ s)) (a :: pat) before.length = some (before.length + mid.length) := by
  apply find_append before h
  intro j hj hpre
  rw [List.drop_append_of_le_length hj.le, List.drop_eq_getElem_cons hj, List.cons_append,
    List.cons_prefix_cons] at hpre
  apply hno
  rw [hpre.1]
  exact List.getElem_mem hj

/-- What occurs is found there or before. -/
theorem findFrom_le {pat s : List α} {i : Nat} (h : pat <+: s.drop i) (hi : i ≤ s.length)
    (pos : Nat) : ∃ e ≤ pos + i, findFrom pat s pos = some e := by
  induction s generalizing i pos with
  | nil => exact ⟨pos, Nat.le_add_right _ _, findFrom_prefix (by simpa using h) pos⟩
  | cons a s ih =>
      rw [findFrom]
      split
      · exact ⟨pos, Nat.le_add_right _ _, rfl⟩
      · next hhere =>
          cases i with
          | zero => exact absurd h hhere
          | succ i =>
              obtain ⟨e, he, hfound⟩ := ih h (Nat.le_of_succ_le_succ hi) (pos + 1)
              exact ⟨e, by omega, hfound⟩

theorem findFrom_eq_none {pat s : List α} (h : ¬ pat <:+: s) (pos : Nat) :
    findFrom pat s pos = none := by
  induction s generalizing pos with
  | nil =>
      rw [findFrom, if_neg]
      rintro rfl
      exact h List.infix_rfl
  | cons a s ih =>
      rw [findFrom, if_neg (fun hpre => h hpre.isInfix)]
      exact ih (fun hin => h (hin.trans (List.suffix_cons a s).isInfix)) _

theorem find_eq_none {pat s : List α} (h : ¬ pat <:+: s) (pos : Nat) : find s pat pos = none := by
  unfold find
  split
  · exact findFrom_eq_none (fun hin => h (hin.trans (List.drop_suffix pos s).isInfix)) _
  · rfl

end ChainBeasts.Search
