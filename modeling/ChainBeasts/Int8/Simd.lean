import ChainBeasts.Buffer

/-! # The vector bodies of the INT8 kernel

A register is a vector of lanes. The intrinsics the kernel uses are lane-wise, except for the
unpacking ones, which interleave two registers and read each pair of lanes as one lane of twice the
width. The three bodies multiply sixteen weights by one activation and add the products to sixteen
accumulators; each adds `lane a b`, the exact product (`avx2_adds`, `neon_adds`, `sse2_adds`). -/

namespace ChainBeasts.Int8

open ChainBeasts.Buffer

abbrev I8 := BitVec 8
abbrev I32 := BitVec 32

/-- A register of `n` lanes of `w` bits. -/
abbrev Lanes (n w : Nat) := Fin n → BitVec w

namespace Lanes

variable {n w : Nat}

/-- `_mm256_set1_epi16`, `_mm_set1_epi16`, `vdup_n_s8`. -/
def splat (n : Nat) (x : BitVec w) : Lanes n w := fun _ => x

/-- `_mm256_cvtepi8_epi16`, `_mm256_cvtepi16_epi32`, `vmovl_s16`. -/
def widen (v : Nat) (a : Lanes n w) : Lanes n v := fun k => (a k).signExtend v

/-- `_mm256_mullo_epi16`, `_mm_mullo_epi16`: the low half of each product. -/
def mullo (a b : Lanes n w) : Lanes n w := fun k => a k * b k

/-- `vmull_s8`: products of twice the width. -/
def mull (a b : Lanes n w) : Lanes n (w + w) := mullo (widen (w + w) a) (widen (w + w) b)

/-- `_mm256_add_epi32`, `_mm_add_epi32`, `vaddq_s32`. -/
def add (a b : Lanes n w) : Lanes n w := fun k => a k + b k

/-- `_mm256_castsi256_si128`, `vget_low`. -/
def low (a : Lanes (n + n) w) : Lanes n w := fun k => a (k.castAdd n)

/-- `_mm256_extracti128_si256(., 1)`, `vget_high`. -/
def high (a : Lanes (n + n) w) : Lanes n w := fun k => a (k.natAdd n)

/-- `_mm_unpacklo_epi8`, `_mm_unpacklo_epi16`: the lanes of `a` become the low halves. -/
def unpacklo (a b : Lanes (n + n) w) : Lanes n (w + w) := fun k => low b k ++ low a k

/-- `_mm_unpackhi_epi8`, `_mm_unpackhi_epi16`. -/
def unpackhi (a b : Lanes (n + n) w) : Lanes n (w + w) := fun k => high b k ++ high a k

/-- `_mm_cmpgt_epi8`: all ones where `a` is greater. -/
def cmpgt (a b : Lanes n w) : Lanes n w := fun k => if (b k).slt (a k) then BitVec.allOnes w else 0#w

/-- `_mm_srai_epi16`. -/
def srai (a : Lanes n w) (s : Nat) : Lanes n w := fun k => (a k).sshiftRight s

end Lanes

/-! ## The bodies -/

/-- One vector iteration: the activation, sixteen weights, and the accumulators from `j` on. -/
abbrev Block := I8 → Lanes 16 8 → List I32 → Nat → Option (List I32)

/-- `acc[j ..] += prods`, one register of accumulators after the other. -/
def addRegisters {n : Nat} : List (Lanes n 32) → List I32 → Nat → Option (List I32)
  | [], acc, _ => some acc
  | prod :: prods, acc, j => do
    let old ← loadLanes n acc j
    let acc ← storeLanes acc j (Lanes.add old prod)
    addRegisters prods acc (j + n)

def avx2Block : Block := fun a b8 acc j =>
  let a16 : Lanes 16 16 := .splat 16 (a.signExtend 16)
  let prod := Lanes.mullo a16 (Lanes.widen 16 b8)
  let prodLo : Lanes 8 32 := Lanes.widen 32 (Lanes.low prod)
  let prodHi : Lanes 8 32 := Lanes.widen 32 (Lanes.high prod)
  addRegisters [prodLo, prodHi] acc j

def neonBlock : Block := fun a b8 acc j =>
  let a8 : Lanes 8 8 := .splat 8 a
  let prod0 : Lanes 8 16 := Lanes.mull (Lanes.low b8) a8
  let prod1 : Lanes 8 16 := Lanes.mull (Lanes.high b8) a8
  let widened (half : Lanes 4 16) : Lanes 4 32 := Lanes.widen 32 half
  addRegisters [widened (Lanes.low prod0), widened (Lanes.high prod0), widened (Lanes.low prod1),
    widened (Lanes.high prod1)] acc j

def sse2Block : Block := fun a b8 acc j =>
  let a16 : Lanes 8 16 := .splat 8 (a.signExtend 16)
  let sign := Lanes.cmpgt (.splat 16 0#8) b8
  let prodLo : Lanes 8 16 := Lanes.mullo a16 (Lanes.unpacklo (n := 8) b8 sign)
  let prodHi : Lanes 8 16 := Lanes.mullo a16 (Lanes.unpackhi (n := 8) b8 sign)
  let prod0 := Lanes.unpacklo (n := 4) prodLo (Lanes.srai prodLo 15)
  let prod1 := Lanes.unpackhi (n := 4) prodLo (Lanes.srai prodLo 15)
  let prod2 := Lanes.unpacklo (n := 4) prodHi (Lanes.srai prodHi 15)
  let prod3 := Lanes.unpackhi (n := 4) prodHi (Lanes.srai prodHi 15)
  addRegisters [prod0, prod1, prod2, prod3] acc j

/-! ## What a lane computes -/

/-- The product of two `int8` values, as an `int32`. -/
def lane (a b : I8) : I32 := BitVec.ofInt 32 (a.toInt * b.toInt)

/-- A product of two `int8` values fits in an `int16`. -/
theorem product_bounds (a b : I8) :
    -16384 ≤ a.toInt * b.toInt ∧ a.toInt * b.toInt ≤ 16384 :=
  ⟨@BitVec.le_toInt_mul_toInt 8 a b, @BitVec.toInt_mul_toInt_le 8 a b⟩

/-- Multiplying sign-extended values in sixteen bits loses nothing. -/
theorem signExtend_mul (a b : I8) :
    (a.signExtend 16 * b.signExtend 16).signExtend 32 = lane a b := by
  obtain ⟨hlo, hhi⟩ := product_bounds a b
  apply BitVec.eq_of_toInt_eq
  rw [BitVec.toInt_signExtend_of_le (by omega), BitVec.toInt_mul,
    BitVec.toInt_signExtend_of_le (by omega), BitVec.toInt_signExtend_of_le (by omega), lane,
    BitVec.toInt_ofInt]
  rw [Int.bmod_eq_of_le (by omega) (by omega), Int.bmod_eq_of_le (by omega) (by omega)]

/-- Interleaving with the sign mask is sign extension. -/
theorem append_cmpgt (b : I8) :
    (if b.slt 0#8 then BitVec.allOnes 8 else 0#8) ++ b = b.signExtend 16 := by
  rw [BitVec.signExtend_eq_append_of_le (by omega), BitVec.slt_zero_eq_msb]
  rfl

/-- Interleaving with the shifted-out sign is sign extension. -/
theorem append_srai (x : BitVec 16) : x.sshiftRight 15 ++ x = x.signExtend 32 := by
  have hsign : x.sshiftRight 15 = if x.msb then BitVec.allOnes 16 else 0#16 := by
    apply BitVec.eq_of_toInt_eq
    have hlo := x.le_toInt
    have hhi := @BitVec.toInt_le 16 x
    rw [BitVec.toInt_sshiftRight, Int.shiftRight_eq_div_pow, BitVec.msb_eq_toInt]
    by_cases hneg : x.toInt < 0
    · rw [decide_eq_true hneg, if_pos rfl, show (BitVec.allOnes 16).toInt = -1 from rfl]
      omega
    · rw [decide_eq_false hneg, if_neg (by simp), show (0#16).toInt = 0 from rfl]
      omega
  rw [BitVec.signExtend_eq_append_of_le (by omega), hsign]
  rfl

/-! ## What a body computes -/

/-- `f` after the products of `a` with the weights `b` were added to the `m` entries from `j` on. -/
def added (f : Nat → I32) (a : I8) (b : Nat → I8) (j m : Nat) : Nat → I32 :=
  patch f (fun k => f k + lane a (b (k - j))) j m

/-- The body adds the sixteen products to the sixteen accumulators from `j` on. -/
def Adds (block : Block) : Prop :=
  ∀ (a : I8) (b : Nat → I8) {acc : List I32} {size j : Nat} {f : Nat → I32},
    Holds acc size f → j + 16 ≤ size →
      ∃ acc', block a (fun k => b k) acc j = some acc' ∧ acc'.length = acc.length ∧
        Holds acc' size (added f a b j 16)

/-- The registers hold the products of `a` with the weights from `m` on. -/
def AreProducts {n : Nat} (a : I8) (b : Nat → I8) : Nat → List (Lanes n 32) → Prop
  | _, [] => True
  | m, prod :: prods => (∀ k : Fin n, prod k = lane a (b (m + k))) ∧ AreProducts a b (m + n) prods

/-- Registers of products, after `m` products have been added. -/
theorem addRegisters_added {n size j : Nat} {f : Nat → I32} {a : I8} {b : Nat → I8}
    {prods : List (Lanes n 32)} {acc : List I32} {m : Nat} (h : Holds acc size (added f a b j m))
    (hsize : j + m + prods.length * n ≤ size) (hprods : AreProducts a b m prods) :
    ∃ acc', addRegisters prods acc (j + m) = some acc' ∧ acc'.length = acc.length ∧
      Holds acc' size (added f a b j (m + prods.length * n)) := by
  induction prods generalizing acc m with
  | nil => exact ⟨acc, rfl, rfl, by simpa using h⟩
  | cons prod prods ih =>
      obtain ⟨hprod, hprods⟩ := hprods
      rw [List.length_cons, Nat.succ_mul] at hsize ⊢
      have hfirst : j + m + n ≤ size := by omega
      have hnew : ∀ k : Fin n, Lanes.add (fun k : Fin n => added f a b j m (j + m + k)) prod k =
          f (j + m + k) + lane a (b (j + m + k - j)) := by
        intro k
        have hout : ¬ (j ≤ j + m + k ∧ j + m + k < j + m) := by omega
        rw [Lanes.add, added, patch, if_neg hout, hprod, show j + m + k - j = m + k by omega]
      obtain ⟨acc₁, hstore, hlen₁, hacc₁⟩ :=
        h.storeLanes hfirst (fun k => f k + lane a (b (k - j))) hnew
      rw [added, patch_append] at hacc₁
      obtain ⟨acc', hrest, hlen, hacc⟩ := ih hacc₁ (by omega) hprods
      refine ⟨acc', ?_, hlen.trans hlen₁, ?_⟩
      · simp only [addRegisters, h.loadLanes hfirst, Option.bind_eq_bind, Option.bind_some]
        rw [hstore, Option.bind_some, Nat.add_assoc]
        exact hrest
      · rw [show m + (prods.length * n + n) = m + n + prods.length * n by omega]
        exact hacc

/-- Sixteen products in equal registers. -/
theorem adds_sixteen {n size j : Nat} {f : Nat → I32} {a : I8} {b : Nat → I8}
    {prods : List (Lanes n 32)} {acc : List I32} (h : Holds acc size f) (hj : j + 16 ≤ size)
    (hcount : prods.length * n = 16) (hprods : AreProducts a b 0 prods) :
    ∃ acc', addRegisters prods acc j = some acc' ∧ acc'.length = acc.length ∧
      Holds acc' size (added f a b j 16) := by
  have hnone : Holds acc size (added f a b j 0) := by
    refine h.congr fun k _ => ?_
    rw [added, patch, if_neg (by omega)]
  obtain ⟨acc', hrun, hlen, hacc⟩ := addRegisters_added hnone (by omega) hprods
  rw [hcount, Nat.zero_add] at hacc
  exact ⟨acc', hrun, hlen, hacc⟩

theorem avx2_adds : Adds avx2Block := by
  intro a b acc size j f h hj
  refine adds_sixteen h hj rfl ⟨?_, ?_, trivial⟩
  · intro k
    rw [Nat.zero_add]
    exact signExtend_mul a (b k)
  · intro k
    exact signExtend_mul a (b (8 + k))

theorem neon_adds : Adds neonBlock := by
  intro a b acc size j f h hj
  have hlane : ∀ i, ((b i).signExtend 16 * a.signExtend 16).signExtend 32 = lane a (b i) := by
    intro i
    rw [BitVec.mul_comm]
    exact signExtend_mul a (b i)
  refine adds_sixteen h hj rfl ⟨?_, ?_, ?_, ?_, trivial⟩
  · intro k
    rw [Nat.zero_add]
    exact hlane k
  · intro k
    exact hlane (4 + k)
  · intro k
    exact hlane (8 + k)
  · intro k
    rw [show 0 + 4 + 4 + 4 + k.val = 8 + (4 + k.val) by omega]
    exact hlane (8 + (4 + k))

theorem sse2_adds : Adds sse2Block := by
  intro a b acc size j f h hj
  -- both interleavings are sign extensions
  have hlane : ∀ i, (a.signExtend 16 *
      ((if (b i).slt 0#8 then BitVec.allOnes 8 else 0#8) ++ b i)).sshiftRight 15 ++
        (a.signExtend 16 * ((if (b i).slt 0#8 then BitVec.allOnes 8 else 0#8) ++ b i)) =
      lane a (b i) := by
    intro i
    rw [append_cmpgt, append_srai, signExtend_mul]
  refine adds_sixteen h hj rfl ⟨?_, ?_, ?_, ?_, trivial⟩
  · intro k
    rw [Nat.zero_add]
    exact hlane k
  · intro k
    exact hlane (4 + k)
  · intro k
    exact hlane (8 + k)
  · intro k
    rw [show 0 + 4 + 4 + 4 + k.val = 8 + (4 + k.val) by omega]
    exact hlane (8 + (4 + k))

end ChainBeasts.Int8
