import ChainBeasts.Evm.Word

/-! # `abi.encodePacked`

Fixed-width values are written big-endian without padding, a `bytes` value as it is. With a single
`bytes` field between fixed-width ones the encoding is injective. -/

namespace ChainBeasts.Evm

/-- The low `n` bytes of `x`, most significant first. -/
def bigEndian : Nat → Nat → Bytes
  | 0, _ => []
  | n + 1, x => bigEndian n (x / 256) ++ [BitVec.ofNat 8 x]

@[simp] theorem length_bigEndian (n x : Nat) : (bigEndian n x).length = n := by
  induction n generalizing x with
  | zero => rfl
  | succ n ih => simp [bigEndian, ih]

/-- Byte `i` from the end is the digit of `256 ^ i`. -/
theorem bigEndian_eq_map (n x : Nat) :
    bigEndian n x = (List.range n).reverse.map fun i => BitVec.ofNat 8 (x / 256 ^ i) := by
  induction n generalizing x with
  | zero => rfl
  | succ n ih =>
      rw [bigEndian, ih, List.range_succ_eq_map, List.reverse_cons, List.map_append,
        ← List.map_reverse, List.map_map, List.map_singleton, Nat.pow_zero, Nat.div_one]
      congr 1
      apply List.map_congr_left
      intro i _
      rw [Function.comp_apply, Nat.pow_succ', Nat.div_div_eq_div_mul]

theorem bigEndian_inj {n x y : Nat} (hx : x < 256 ^ n) (hy : y < 256 ^ n)
    (h : bigEndian n x = bigEndian n y) : x = y := by
  induction n generalizing x y with
  | zero => simp at hx hy; omega
  | succ n ih =>
      obtain ⟨hinit, hlast⟩ := List.append_inj h (by simp)
      have hlow : x % 256 = y % 256 := by
        have := congrArg BitVec.toNat (List.singleton_inj.mp hlast)
        simpa using this
      have hhigh : x / 256 = y / 256 :=
        ih (Nat.div_lt_of_lt_mul (by rwa [Nat.pow_succ, Nat.mul_comm] at hx))
          (Nat.div_lt_of_lt_mul (by rwa [Nat.pow_succ, Nat.mul_comm] at hy)) hinit
      omega

def packWord (x : U256) : Bytes := bigEndian 32 x.toNat
def packAddress (a : Address) : Bytes := bigEndian 20 a.toNat

@[simp] theorem length_packWord (x : U256) : (packWord x).length = 32 := length_bigEndian _ _
@[simp] theorem length_packAddress (a : Address) : (packAddress a).length = 20 :=
  length_bigEndian _ _

theorem packWord_inj {x y : U256} (h : packWord x = packWord y) : x = y :=
  BitVec.eq_of_toNat_eq (bigEndian_inj x.isLt y.isLt h)

theorem packAddress_inj {a b : Address} (h : packAddress a = packAddress b) : a = b :=
  BitVec.eq_of_toNat_eq (bigEndian_inj a.isLt b.isLt h)

/-- The fields of `abi.encodePacked(uint256, address, uint256, bytes, bytes32)`. -/
structure Packed where
  word₁ : U256
  account : Address
  word₂ : U256
  data : Bytes
  digest : Bytes32
  deriving DecidableEq

def Packed.encode (p : Packed) : Bytes :=
  packWord p.word₁ ++ (packAddress p.account ++ (packWord p.word₂ ++ (p.data ++ packWord p.digest)))

/-- **No shifted boundaries.** Equal buffers come from equal fields: the prefix and the suffix have
fixed lengths, so the one variable field is what lies between them. -/
theorem Packed.encode_inj {p q : Packed} (h : p.encode = q.encode) : p = q := by
  unfold Packed.encode at h
  obtain ⟨h₁, h⟩ := List.append_inj h (by simp)
  obtain ⟨h₂, h⟩ := List.append_inj h (by simp)
  obtain ⟨h₃, h⟩ := List.append_inj h (by simp)
  obtain ⟨h₄, h₅⟩ := List.append_inj' h (by simp)
  cases p
  cases q
  simp_all only [Packed.mk.injEq]
  exact ⟨packWord_inj h₁, packAddress_inj h₂, packWord_inj h₃, trivial, packWord_inj h₅⟩

end ChainBeasts.Evm
