import Mathlib.Logic.Function.Iterate
import Mathlib.Data.BitVec
import Mathlib.Tactic.ByContra

/-! # Linear generators

A map of words that respects exclusive or is determined by the powers of two (`XorLinear.ext`), and
it is injective if only zero goes to zero. The shears `x ^ (x << k)` and `x ^ (x >> k)` are such maps.

A generator that steps with a linear map and gives away the low bit of every state can be observed:
`recover` puts a state together from the bits seen, with one column for each of them. If it does so
for the powers of two it does so for every state, and then every state but zero shows a one
(`shows_one`), and a zero as well unless it is the sum of all columns (`shows_zero`). The module
names nothing of any particular program. -/

namespace ChainBeasts

def XorLinear {w v : Nat} (f : BitVec w → BitVec v) : Prop := ∀ x y, f (x ^^^ y) = f x ^^^ f y

namespace XorLinear

variable {w v u : Nat} {f g : BitVec w → BitVec v}

/-! ## Linear maps -/

theorem zero (hf : XorLinear f) : f 0 = 0 := by
  have h := hf 0 0
  rw [BitVec.xor_self, BitVec.xor_self] at h
  exact h

theorem id : XorLinear (fun x : BitVec w => x) := fun _ _ => rfl

theorem comp {h : BitVec v → BitVec u} (hh : XorLinear h) (hf : XorLinear f) :
    XorLinear (fun x => h (f x)) := by
  intro x y
  show h (f (x ^^^ y)) = _
  rw [hf, hh]

theorem xor (hf : XorLinear f) (hg : XorLinear g) : XorLinear (fun x => f x ^^^ g x) := by
  intro x y
  show f (x ^^^ y) ^^^ g (x ^^^ y) = (f x ^^^ g x) ^^^ (f y ^^^ g y)
  rw [hf, hg]
  ac_rfl

theorem shiftLeft (k : Nat) : XorLinear (fun x : BitVec w => x <<< k) :=
  fun x y => BitVec.shiftLeft_xor_distrib x y k

theorem ushiftRight (k : Nat) : XorLinear (fun x : BitVec w => x >>> k) :=
  fun x y => BitVec.ushiftRight_xor_distrib x y k

/-- A linear map is injective if only zero goes to zero. -/
theorem injective (hf : XorLinear f) (hker : ∀ x, f x = 0 → x = 0) : Function.Injective f := by
  intro x y h
  have hsum : f (x ^^^ y) = 0 := by
    rw [hf, h, BitVec.xor_self]
    rfl
  exact BitVec.xor_eq_zero_iff.mp (hker _ hsum)

/-- Words that have their bits below `n` only. -/
theorem eq_of_low_bits (hf : XorLinear f) (hg : XorLinear g)
    (h : ∀ i < w, f (BitVec.twoPow w i) = g (BitVec.twoPow w i)) (n : Nat) (hn : n ≤ w)
    (x : BitVec w) (hx : ∀ i, n ≤ i → x.getLsbD i = false) : f x = g x := by
  induction n generalizing x with
  | zero =>
      have hzero : x = 0 := BitVec.eq_of_getLsbD_eq fun i _ => by simp [hx i (Nat.zero_le i)]
      rw [hzero, hf.zero, hg.zero]
  | succ n ih =>
      cases hbit : x.getLsbD n with
      | false =>
          apply ih (by omega)
          intro i hi
          rcases Nat.eq_or_lt_of_le hi with rfl | hlt
          · exact hbit
          · exact hx i hlt
      | true =>
          -- take the top bit off
          have hrest : f (x ^^^ BitVec.twoPow w n) = g (x ^^^ BitVec.twoPow w n) := by
            apply ih (by omega)
            intro i hi
            rw [BitVec.getLsbD_xor, BitVec.getLsbD_twoPow]
            rcases Nat.eq_or_lt_of_le hi with rfl | hlt
            · simp [hbit]
              omega
            · simp [hx i hlt]
              omega
          have hback : x = (x ^^^ BitVec.twoPow w n) ^^^ BitVec.twoPow w n := by
            rw [BitVec.xor_assoc, BitVec.xor_self, BitVec.xor_zero]
          rw [hback, hf, hg, hrest, h n (by omega)]

/-- **Linear maps that agree on the powers of two are equal.** -/
theorem ext (hf : XorLinear f) (hg : XorLinear g)
    (h : ∀ i < w, f (BitVec.twoPow w i) = g (BitVec.twoPow w i)) (x : BitVec w) : f x = g x :=
  eq_of_low_bits hf hg h w (Nat.le_refl w) x fun i hi => BitVec.getLsbD_of_ge x i hi

/-! ## Shears -/

theorem shear_left (k : Nat) : XorLinear (fun x : BitVec w => x ^^^ (x <<< k)) :=
  XorLinear.id.xor (shiftLeft k)

theorem shear_right (k : Nat) : XorLinear (fun x : BitVec w => x ^^^ (x >>> k)) :=
  XorLinear.id.xor (ushiftRight k)

/-- Each bit of a word that equals its own shift is an earlier bit, so by induction none is set. -/
theorem shear_left_eq_zero {k : Nat} (hk : 0 < k) (x : BitVec w) (h : x ^^^ (x <<< k) = 0) :
    x = 0 := by
  have hfix : x = x <<< k := BitVec.xor_eq_zero_iff.mp h
  have hbits : ∀ i, x.getLsbD i = false := by
    intro i
    induction i using Nat.strongRecOn with
    | _ i ih =>
      rw [hfix, BitVec.getLsbD_shiftLeft]
      by_cases hi : i < k
      · simp [hi]
      · rw [ih (i - k) (by omega), Bool.and_false]
  exact BitVec.eq_of_getLsbD_eq fun i _ => by simp [hbits i]

theorem shear_right_eq_zero {k : Nat} (hk : 0 < k) (x : BitVec w) (h : x ^^^ (x >>> k) = 0) :
    x = 0 := by
  have hfix : x = x >>> k := BitVec.xor_eq_zero_iff.mp h
  have hnat : x.toNat = x.toNat / 2 ^ k := by
    have h := congrArg BitVec.toNat hfix
    rwa [BitVec.toNat_ushiftRight, Nat.shiftRight_eq_div_pow] at h
  have htwo : 1 < 2 ^ k := Nat.one_lt_two_pow (by omega)
  apply BitVec.eq_of_toNat_eq
  by_contra hne
  have hless : x.toNat / 2 ^ k < x.toNat := Nat.div_lt_self (Nat.pos_of_ne_zero hne) htwo
  omega

theorem shear_left_injective {k : Nat} (hk : 0 < k) :
    Function.Injective (fun x : BitVec w => x ^^^ (x <<< k)) :=
  (shear_left k).injective (shear_left_eq_zero hk)

theorem shear_right_injective {k : Nat} (hk : 0 < k) :
    Function.Injective (fun x : BitVec w => x ^^^ (x >>> k)) :=
  (shear_right k).injective (shear_right_eq_zero hk)

/-! ## Observing a generator -/

/-- The column `c`, if the low bit of the state is set. -/
def pick (c : BitVec v) (x : BitVec w) : BitVec v := if x.getLsbD 0 then c else 0

theorem pick_linear (c : BitVec v) : XorLinear (pick c : BitVec w → BitVec v) := by
  intro x y
  unfold pick
  rw [BitVec.getLsbD_xor]
  cases x.getLsbD 0 <;> cases y.getLsbD 0 <;> simp

/-- The sum of the columns whose turn shows a one, when the generator `T` starts in `x`. -/
def recover (T : BitVec w → BitVec w) : List (BitVec v) → BitVec w → BitVec v
  | [], _ => 0
  | c :: cs, x => pick c x ^^^ recover T cs (T x)

variable {T : BitVec w → BitVec w} {columns : List (BitVec w)}

theorem recover_linear (hT : XorLinear T) (columns : List (BitVec v)) :
    XorLinear (recover T columns) := by
  induction columns with
  | nil =>
      intro _ _
      exact (BitVec.xor_self).symm
  | cons c cs ih => exact (pick_linear c).xor (ih.comp hT)

theorem recover_zeros {columns : List (BitVec v)} {x : BitVec w}
    (h : ∀ k < columns.length, (T^[k] x).getLsbD 0 = false) : recover T columns x = 0 := by
  induction columns generalizing x with
  | nil => rfl
  | cons c cs ih =>
      have hfirst : x.getLsbD 0 = false := h 0 (Nat.zero_lt_succ _)
      have hrest : recover T cs (T x) = 0 := ih fun k hk => h (k + 1) (Nat.succ_lt_succ hk)
      rw [recover, pick, hfirst, hrest]
      exact BitVec.xor_self

theorem recover_ones {columns : List (BitVec v)} {x : BitVec w}
    (h : ∀ k < columns.length, (T^[k] x).getLsbD 0 = true) :
    recover T columns x = columns.foldr (· ^^^ ·) 0 := by
  induction columns generalizing x with
  | nil => rfl
  | cons c cs ih =>
      have hfirst : x.getLsbD 0 = true := h 0 (Nat.zero_lt_succ _)
      have hrest : recover T cs (T x) = cs.foldr (· ^^^ ·) 0 :=
        ih fun k hk => h (k + 1) (Nat.succ_lt_succ hk)
      rw [recover, pick, if_pos hfirst, hrest, List.foldr_cons]

/-- The columns are right if they are for the powers of two. -/
theorem recover_eq (hT : XorLinear T)
    (hbasis : ∀ i < w, recover T columns (BitVec.twoPow w i) = BitVec.twoPow w i) (x : BitVec w) :
    recover T columns x = x :=
  (recover_linear hT columns).ext XorLinear.id hbasis x

/-- **A state other than zero shows a one.** -/
theorem shows_one (hrecover : ∀ x, recover T columns x = x) {x : BitVec w} (hx : x ≠ 0) :
    ∃ k < columns.length, (T^[k] x).getLsbD 0 = true := by
  by_contra hnone
  apply hx
  rw [← hrecover x]
  apply recover_zeros
  intro k hk
  rw [← Bool.not_eq_true]
  exact fun hone => hnone ⟨k, hk, hone⟩

/-- **A state shows a zero**, if the sum of all columns does after as many steps. -/
theorem shows_zero (hrecover : ∀ x, recover T columns x = x)
    (hsum : (T^[columns.length] (columns.foldr (· ^^^ ·) 0)).getLsbD 0 = false) (x : BitVec w) :
    ∃ k ≤ columns.length, (T^[k] x).getLsbD 0 = false := by
  by_contra hnone
  have hones : ∀ k ≤ columns.length, (T^[k] x).getLsbD 0 = true := by
    intro k hk
    rw [← Bool.not_eq_false]
    exact fun hzero => hnone ⟨k, hk, hzero⟩
  have heq : columns.foldr (· ^^^ ·) 0 = x := by
    rw [← recover_ones (T := T) fun k hk => hones k (Nat.le_of_lt hk), hrecover]
  rw [heq, hones _ (Nat.le_refl _)] at hsum
  cases hsum

end XorLinear

end ChainBeasts
