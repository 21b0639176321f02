import Mathlib.Order.PiLex

/-! # Comparison at the first difference

Two sequences are compared place by place until they differ, over as many places as they have. This
module names nothing of any particular program. Where the sequences agree behind those places, the
sign of `compareFrom` is their lexicographic order (`compareFrom_neg_iff`, `compareFrom_nonpos_iff`),
which is a linear order. -/

namespace ChainBeasts.FirstDifference

variable {α : Type*} [LinearOrder α] {f g : ℕ → α} {i n : ℕ}

/-- The sign of the first difference among the `n` places from `i` on. -/
def compareFrom (f g : ℕ → α) : ℕ → ℕ → ℤ
  | _, 0 => 0
  | i, n + 1 => if f i < g i then -1 else if g i < f i then 1 else compareFrom f g (i + 1) n

theorem compareFrom_swap (f g : ℕ → α) (i n : ℕ) : compareFrom g f i n = -compareFrom f g i n := by
  induction n generalizing i with
  | zero => rfl
  | succ n ih =>
      rw [compareFrom, compareFrom]
      rcases lt_trichotomy (f i) (g i) with hlt | heq | hgt
      · rw [if_neg hlt.asymm, if_pos hlt, if_pos hlt]
        rfl
      · rw [heq, if_neg (lt_irrefl _), if_neg (lt_irrefl _), if_neg (lt_irrefl _),
          if_neg (lt_irrefl _), ih]
      · rw [if_pos hgt, if_neg hgt.asymm, if_pos hgt]

/-- The comparison is negative where the first difference is. -/
theorem compareFrom_neg : compareFrom f g i n < 0 ↔
    ∃ k < n, (∀ j < k, f (i + j) = g (i + j)) ∧ f (i + k) < g (i + k) := by
  induction n generalizing i with
  | zero => simp [compareFrom]
  | succ n ih =>
      rw [compareFrom]
      constructor
      · intro h
        split at h
        · next hlt => exact ⟨0, Nat.succ_pos n, by simp, hlt⟩
        split at h
        · exact absurd h (by decide)
        · next hge hle =>
            obtain ⟨k, hk, hsame, hless⟩ := ih.mp h
            refine ⟨k + 1, by omega, ?_, ?_⟩
            · intro j hj
              cases j with
              | zero => exact le_antisymm (not_lt.mp hle) (not_lt.mp hge)
              | succ j =>
                  have hj := hsame j (by omega)
                  rwa [Nat.add_right_comm] at hj
            · rwa [Nat.add_right_comm] at hless
      · intro h
        obtain ⟨k, hk, hsame, hless⟩ := h
        cases k with
        | zero =>
            have hfirst : f i < g i := hless
            rw [if_pos hfirst]
            decide
        | succ k =>
            have hfirst : f i = g i := hsame 0 (Nat.succ_pos k)
            rw [if_neg hfirst.not_lt, if_neg hfirst.not_gt]
            apply ih.mpr
            refine ⟨k, by omega, ?_, ?_⟩
            · intro j hj
              have hj := hsame (j + 1) (by omega)
              rwa [← Nat.add_assoc, Nat.add_right_comm] at hj
            · rwa [← Nat.add_assoc, Nat.add_right_comm] at hless

/-- **The sign is the lexicographic order.** -/
theorem compareFrom_neg_iff (hend : ∀ k, n ≤ k → f k = g k) :
    compareFrom f g 0 n < 0 ↔ toLex f < toLex g := by
  rw [compareFrom_neg]
  simp only [Nat.zero_add]
  constructor
  · intro h
    obtain ⟨k, -, hsame, hless⟩ := h
    exact ⟨k, hsame, hless⟩
  · intro h
    obtain ⟨k, hsame, hless⟩ := h
    refine ⟨k, ?_, hsame, hless⟩
    by_contra hk
    exact hless.ne (hend k (not_lt.mp hk))

theorem compareFrom_nonpos_iff (hend : ∀ k, n ≤ k → f k = g k) :
    compareFrom f g 0 n ≤ 0 ↔ toLex f ≤ toLex g := by
  have hback := compareFrom_neg_iff (f := g) (g := f) fun k hk => (hend k hk).symm
  rw [compareFrom_swap] at hback
  constructor
  · intro h
    apply not_lt.mp
    intro hlt
    have hneg := hback.mpr hlt
    omega
  · intro h
    by_contra hpos
    exact absurd (hback.mp (by omega)) (not_lt.mpr h)

end ChainBeasts.FirstDifference
