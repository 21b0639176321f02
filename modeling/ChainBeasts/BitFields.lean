import Mathlib.Data.Nat.Bitwise

/-! # Fields in a machine word

Fields of a few bits each are pushed into a word, one above the other, and popped off it again from
the bottom. Shifting a word by its width or more is undefined; here it is a fault. This module names
nothing of any particular word: `w` is its width.

`number fs` is the number that the fields make, the first lowest. As long as they fit, pushing them
makes the word that number (`pushAll_fits`), and what lies ahead of a reader is the number of the
fields it has still to pop (`Ahead.pop`). A field that would begin past the end of the word is a fault
(`pushAll_over`). -/

namespace ChainBeasts.BitFields

variable {w : Nat}

/-! ## Words -/

def shl (x : BitVec w) (n : Nat) : Option (BitVec w) := if n < w then some (x <<< n) else none
def shr (x : BitVec w) (n : Nat) : Option (BitVec w) := if n < w then some (x >>> n) else none

/-- `(1 << n) - 1`. -/
def mask (w n : Nat) : Option (BitVec w) := (shl 1 n).map (· - 1)

/-- A word that is being filled, and how many of its bits are taken. -/
structure Packer (w : Nat) where
  out : BitVec w
  bits : Nat
  deriving DecidableEq

def Packer.empty : Packer w := ⟨0, 0⟩

def push (value : BitVec w) (width : Nat) (s : Packer w) : Option (Packer w) := do
  let low ← mask w width
  let field ← shl (value &&& low) s.bits
  return ⟨s.out ||| field, s.bits + width⟩

/-- The reader's state is how many bits it has read. -/
def pop (packed : BitVec w) (width : Nat) : StateT Nat Option (BitVec w) := fun bits => do
  let low ← mask w width
  let rest ← shr packed bits
  return (rest &&& low, bits + width)

/-! ## Fields -/

/-- A value that is given some of the word, but not all of it. -/
structure Field (w : Nat) where
  value : BitVec w
  width : Nat
  pos : 0 < width
  narrow : width < w

/-- What is kept of the value. -/
def Field.content (f : Field w) : Nat := f.value.toNat % 2 ^ f.width

/-- The bits that the fields take. -/
def span : List (Field w) → Nat
  | [] => 0
  | f :: fs => f.width + span fs

/-- The number that the fields make. -/
def number : List (Field w) → Nat
  | [] => 0
  | f :: fs => f.content + 2 ^ f.width * number fs

def pushAll : List (Field w) → Packer w → Option (Packer w)
  | [], s => some s
  | f :: fs, s => (push f.value f.width s).bind (pushAll fs)

@[simp] theorem span_append (fs gs : List (Field w)) : span (fs ++ gs) = span fs + span gs := by
  induction fs with
  | nil => simp [span]
  | cons f fs ih =>
      rw [List.cons_append, span, span, ih]
      omega

theorem pushAll_append (fs gs : List (Field w)) (s : Packer w) :
    pushAll (fs ++ gs) s = (pushAll fs s).bind (pushAll gs) := by
  induction fs generalizing s with
  | nil => rfl
  | cons f fs ih =>
      rw [List.cons_append, pushAll, pushAll, Option.bind_assoc]
      congr 1
      funext s'
      exact ih s'

theorem Field.content_lt (f : Field w) : f.content < 2 ^ f.width :=
  Nat.mod_lt _ (Nat.two_pow_pos _)

/-! ## Pushing -/

theorem mask_eq {n : Nat} (hn : n < w) : ∃ low, mask w n = some low ∧ low.toNat = 2 ^ n - 1 := by
  refine ⟨(1 : BitVec w) <<< n - 1, by rw [mask, shl, if_pos hn]; rfl, ?_⟩
  have hone : (1 : BitVec w) <<< n = BitVec.twoPow w n := by
    rw [BitVec.twoPow_eq]
    rfl
  have hpow : 2 ^ n < 2 ^ w := Nat.pow_lt_pow_right (by omega) hn
  have h1 : 1 < 2 ^ w := Nat.one_lt_two_pow (by omega)
  rw [hone, BitVec.toNat_sub_of_le]
  · simp [BitVec.toNat_twoPow, Nat.mod_eq_of_lt hpow, Nat.mod_eq_of_lt h1]
  · simp [BitVec.le_def, BitVec.toNat_twoPow, Nat.mod_eq_of_lt hpow, Nat.mod_eq_of_lt h1,
      Nat.one_le_two_pow]

/-- Nothing lies above the bits taken. -/
def Packer.Clean (s : Packer w) : Prop := s.out.toNat < 2 ^ s.bits

/-- **A field that fits** is put on top of the rest. -/
theorem push_fits {s : Packer w} (hs : s.Clean) (f : Field w) (hfit : s.bits + f.width ≤ w) :
    ∃ s', push f.value f.width s = some s' ∧ s'.bits = s.bits + f.width ∧
      s'.out.toNat = s.out.toNat + 2 ^ s.bits * f.content := by
  obtain ⟨low, hmask, hlow⟩ := mask_eq f.narrow
  have hstart : s.bits < w := Nat.lt_of_lt_of_le (Nat.lt_add_of_pos_right f.pos) hfit
  have hcontent : (f.value &&& low).toNat = f.content := by
    rw [BitVec.toNat_and, hlow, Nat.and_two_pow_sub_one_eq_mod]
    rfl
  -- nothing of the field is shifted out
  have htop : f.content * 2 ^ s.bits < 2 ^ w := by
    calc f.content * 2 ^ s.bits < 2 ^ f.width * 2 ^ s.bits :=
          Nat.mul_lt_mul_of_pos_right f.content_lt (Nat.two_pow_pos _)
      _ = 2 ^ (s.bits + f.width) := by rw [← Nat.pow_add, Nat.add_comm]
      _ ≤ 2 ^ w := Nat.pow_le_pow_right Nat.two_pos hfit
  refine ⟨⟨s.out ||| (f.value &&& low) <<< s.bits, s.bits + f.width⟩, ?_, rfl, ?_⟩
  · have hfield : shl (f.value &&& low) s.bits = some ((f.value &&& low) <<< s.bits) := if_pos hstart
    rw [push, hmask]
    show (shl (f.value &&& low) s.bits).bind _ = _
    rw [hfield]
    rfl
  · show (s.out ||| (f.value &&& low) <<< s.bits).toNat = _
    rw [BitVec.toNat_or, BitVec.toNat_shiftLeft, hcontent, Nat.shiftLeft_eq,
      Nat.mod_eq_of_lt htop, Nat.mul_comm, Nat.or_comm, Nat.add_comm]
    exact (Nat.two_pow_add_eq_or_of_lt hs f.content).symm

theorem push_over {s : Packer w} (h : w ≤ s.bits) (value : BitVec w) (width : Nat) :
    push value width s = none := by
  rw [push]
  cases mask w width with
  | none => rfl
  | some low =>
      show (shl (value &&& low) s.bits).bind _ = none
      rw [shl, if_neg (Nat.not_lt.mpr h)]
      rfl

/-- **Fields that fit** are put one above the other. -/
theorem pushAll_fits {s : Packer w} (hs : s.Clean) (fs : List (Field w))
    (hfit : s.bits + span fs ≤ w) :
    ∃ s', pushAll fs s = some s' ∧ s'.bits = s.bits + span fs ∧
      s'.out.toNat = s.out.toNat + 2 ^ s.bits * number fs := by
  induction fs generalizing s with
  | nil => exact ⟨s, rfl, rfl, by simp [number]⟩
  | cons f fs ih =>
      rw [span] at hfit
      obtain ⟨s₁, hpush, hbits₁, hout₁⟩ := push_fits hs f (by omega)
      have hclean : s₁.Clean := by
        have hlow : s.out.toNat + 1 ≤ 2 ^ s.bits := hs
        have hf := f.content_lt
        show s₁.out.toNat < 2 ^ s₁.bits
        rw [hout₁, hbits₁]
        calc s.out.toNat + 2 ^ s.bits * f.content
            < 2 ^ s.bits * (f.content + 1) := by rw [Nat.mul_succ]; omega
          _ ≤ 2 ^ s.bits * 2 ^ f.width := Nat.mul_le_mul_left _ hf
          _ = 2 ^ (s.bits + f.width) := (Nat.pow_add _ _ _).symm
      obtain ⟨s', hrest, hbits, hout⟩ := ih hclean (by omega)
      refine ⟨s', by rw [pushAll, hpush]; exact hrest, by rw [hbits, hbits₁, span]; omega, ?_⟩
      rw [hout, hout₁, hbits₁, number, Nat.pow_add, Nat.mul_add, Nat.mul_assoc, Nat.add_assoc]

theorem pushAll_bits {fs : List (Field w)} {s s' : Packer w} (h : pushAll fs s = some s') :
    s'.bits = s.bits + span fs := by
  induction fs generalizing s with
  | nil =>
      cases h
      rfl
  | cons f fs ih =>
      obtain ⟨s₁, hpush, hrest⟩ := Option.bind_eq_some_iff.mp h
      have hbits : s₁.bits = s.bits + f.width := by
        obtain ⟨low, -, hpush⟩ := Option.bind_eq_some_iff.mp hpush
        obtain ⟨field, -, hs₁⟩ := Option.bind_eq_some_iff.mp hpush
        cases hs₁
        rfl
      rw [ih hrest, hbits, span, Nat.add_assoc]

/-- **A field that begins past the end** is a fault, whatever comes after it. -/
theorem pushAll_over {s : Packer w} {fs gs : List (Field w)} (hgs : gs ≠ [])
    (h : w ≤ s.bits + span fs) : pushAll (fs ++ gs) s = none := by
  obtain ⟨g, gs, rfl⟩ := List.exists_cons_of_ne_nil hgs
  rw [pushAll_append]
  cases hfs : pushAll fs s with
  | none => rfl
  | some s' =>
      rw [← pushAll_bits hfs] at h
      show (push g.value g.width s').bind _ = none
      rw [push_over h]
      rfl

/-! ## Popping -/

/-- The fields that a reader which has read `bits` has still to pop. -/
def Ahead (packed : BitVec w) (bits : Nat) (fs : List (Field w)) : Prop :=
  packed.toNat / 2 ^ bits = number fs ∧ bits + span fs ≤ w

/-- **What was pushed is ahead.** -/
theorem pushAll_ahead {fs : List (Field w)} (hfit : span fs ≤ w) :
    ∃ s, pushAll fs Packer.empty = some s ∧ Ahead s.out 0 fs := by
  have hempty : (Packer.empty : Packer w).Clean := by
    show (0 : BitVec w).toNat < 2 ^ 0
    simp
  obtain ⟨s, hpush, -, hout⟩ := pushAll_fits hempty fs (by simpa [Packer.empty] using hfit)
  refine ⟨s, hpush, ?_, by simpa using hfit⟩
  rw [hout]
  simp [Packer.empty]

/-- **The next field** is popped as it was pushed, and the rest is ahead. -/
theorem Ahead.pop {packed : BitVec w} {bits : Nat} {f : Field w} {fs : List (Field w)}
    (h : Ahead packed bits (f :: fs)) :
    ∃ x, pop packed f.width bits = some (x, bits + f.width) ∧ x.toNat = f.content ∧
      Ahead packed (bits + f.width) fs := by
  obtain ⟨hnumber, hfit⟩ := h
  rw [number] at hnumber
  rw [span] at hfit
  obtain ⟨low, hmask, hlow⟩ := mask_eq f.narrow
  have hstart : bits < w := by
    have := f.pos
    omega
  refine ⟨packed >>> bits &&& low, ?_, ?_, ?_, by omega⟩
  · rw [BitFields.pop, hmask, shr, if_pos hstart]
    rfl
  · rw [BitVec.toNat_and, hlow, Nat.and_two_pow_sub_one_eq_mod, BitVec.toNat_ushiftRight,
      Nat.shiftRight_eq_div_pow, hnumber, Nat.add_mul_mod_self_left, Nat.mod_eq_of_lt f.content_lt]
  · rw [Nat.pow_add, ← Nat.div_div_eq_div_mul, hnumber,
      Nat.add_mul_div_left _ _ (Nat.two_pow_pos _), Nat.div_eq_of_lt f.content_lt, Nat.zero_add]

end ChainBeasts.BitFields
