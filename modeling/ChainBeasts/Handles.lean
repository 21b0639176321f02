import Mathlib.Data.List.Perm.Basic

/-! # Numbers that are handed out again

A handle is a number that stands for something from the call that opens it to the call that closes
it, and may then be opened for something else. This module names nothing of any particular program:
a log has what was opened and closed, and when a number was removed from where its users find it.

Where every open number has at most one owner and only owners close, a number is closed at most once
each time it is opened: `Owned` is kept by opening (`Owned.opened`) and by an owner that closes what
it owns (`Owned.closed`). -/

namespace ChainBeasts.Handles

inductive Call where
  | opened (n : ℕ)
  | closed (n : ℕ)
  | removed (n : ℕ)
  deriving DecidableEq

variable {n m : ℕ} {log : List Call} {table owners : List ℕ}

/-- The calls since `n` was last opened. -/
def since (n : ℕ) (log : List Call) : List Call :=
  (log.reverse.takeWhile (· ≠ .opened n)).reverse

/-- How often `n` has been closed since. -/
def closings (n : ℕ) (log : List Call) : ℕ := (since n log).count (.closed n)

/-- How often of these before it was removed. -/
def listedClosings (n : ℕ) (log : List Call) : ℕ :=
  ((since n log).takeWhile (· ≠ .removed n)).count (.closed n)

theorem listedClosings_le (n : ℕ) (log : List Call) : listedClosings n log ≤ closings n log :=
  (List.takeWhile_sublist _).count_le _

theorem since_concat (n : ℕ) (log : List Call) (c : Call) :
    since n (log ++ [c]) = if c = .opened n then [] else since n log ++ [c] := by
  unfold since
  rw [List.reverse_append, List.reverse_singleton, List.singleton_append, List.takeWhile_cons]
  by_cases hc : c = .opened n
  · rw [if_neg (by simpa using hc), if_pos hc]
    rfl
  · rw [if_pos (by simpa using hc), if_neg hc, List.reverse_cons]

@[simp] theorem closings_opened (n : ℕ) (log : List Call) :
    closings n (log ++ [.opened n]) = 0 := by
  rw [closings, since_concat, if_pos rfl]
  rfl

@[simp] theorem closings_closed (n : ℕ) (log : List Call) :
    closings n (log ++ [.closed n]) = closings n log + 1 := by
  rw [closings, since_concat, if_neg (by simp), List.count_append, List.count_singleton_self]
  rfl

/-- What happens to another number does not count, nor does a removal. -/
theorem closings_concat {c : Call} (hopened : c ≠ .opened n) (hclosed : c ≠ .closed n) :
    closings n (log ++ [c]) = closings n log := by
  rw [closings, since_concat, if_neg hopened, List.count_append,
    List.count_singleton, if_neg (by simpa using hclosed)]
  rfl

/-! ## Owners -/

/-- Every owner has a number to itself that is open, and an open number has not been closed since it
was opened. -/
structure Owned (table : List ℕ) (log : List Call) (owners : List ℕ) : Prop where
  nodup : owners.Nodup
  live : ∀ m ∈ owners, m ∈ table
  fresh : ∀ m ∈ table, closings m log = 0
  once : ∀ m, closings m log ≤ 1

theorem Owned.perm {owners' : List ℕ} (h : Owned table log owners) (hperm : owners.Perm owners') :
    Owned table log owners' :=
  ⟨hperm.nodup_iff.mp h.nodup, fun m hm => h.live m (hperm.mem_iff.mpr hm), h.fresh, h.once⟩

theorem Owned.removed (h : Owned table log owners) (n : ℕ) :
    Owned table (log ++ [.removed n]) owners := by
  have hsame : ∀ m, closings m (log ++ [.removed n]) = closings m log :=
    fun m => closings_concat (by simp) (by simp)
  refine ⟨h.nodup, h.live, ?_, ?_⟩
  · intro m hm
    rw [hsame]
    exact h.fresh m hm
  · intro m
    rw [hsame]
    exact h.once m

/-- **A new number has a new owner.** -/
theorem Owned.opened (h : Owned table log owners) (hn : n ∉ table) :
    Owned (n :: table) (log ++ [.opened n]) (n :: owners) := by
  have hother : ∀ m, m ≠ n → closings m (log ++ [.opened n]) = closings m log := by
    intro m hm
    exact closings_concat (by simpa using hm.symm) (by simp)
  refine ⟨?_, ?_, ?_, ?_⟩
  · apply List.nodup_cons.mpr
    exact ⟨fun hmem => hn (h.live n hmem), h.nodup⟩
  · intro m hm
    rcases List.mem_cons.mp hm with rfl | hm
    · exact List.mem_cons_self
    · exact List.mem_cons_of_mem n (h.live m hm)
  · intro m hm
    by_cases hmn : m = n
    · rw [hmn, closings_opened]
    · rw [hother m hmn]
      exact h.fresh m ((List.mem_cons.mp hm).resolve_left hmn)
  · intro m
    by_cases hmn : m = n
    · rw [hmn, closings_opened]
      exact Nat.zero_le 1
    · rw [hother m hmn]
      exact h.once m

/-- **An owner closes what it owns.** -/
theorem Owned.closed (h : Owned table log (n :: owners)) :
    Owned (table.filter (· ≠ n)) (log ++ [.closed n]) owners := by
  obtain ⟨hn, hnodup⟩ := List.nodup_cons.mp h.nodup
  have hopen : closings n log = 0 := h.fresh n (h.live n List.mem_cons_self)
  have hother : ∀ m, m ≠ n → closings m (log ++ [.closed n]) = closings m log := by
    intro m hm
    exact closings_concat (by simp) (by simpa using hm.symm)
  refine ⟨hnodup, ?_, ?_, ?_⟩
  · intro m hm
    have hmn : m ≠ n := fun heq => hn (heq ▸ hm)
    exact List.mem_filter.mpr ⟨h.live m (List.mem_cons_of_mem n hm), decide_eq_true hmn⟩
  · intro m hm
    obtain ⟨hm, hmn⟩ := List.mem_filter.mp hm
    rw [hother m (of_decide_eq_true hmn)]
    exact h.fresh m hm
  · intro m
    by_cases hmn : m = n
    · rw [hmn, closings_closed]
      omega
    · rw [hother m hmn]
      exact h.once m

end ChainBeasts.Handles
