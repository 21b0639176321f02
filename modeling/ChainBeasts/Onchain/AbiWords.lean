import ChainBeasts.Evm.Abi
import ChainBeasts.Onchain.EthEncoding

/-! # Words for a contract call

The encoders of `eth_encoding.hpp` that take a wider or a signed number, or hex digits. An even
number of digits spells its value (`spells_value`), so a padded text spells the word of that value
(`spells_encode_bytes32`), and a byte string its length, its bytes and the padding
(`spells_encode_bytes`). `encode_uint256` passes its argument on to `encode_uint32`: it spells the
word of the low half (`spells_encode_uint256_iff`). -/

namespace ChainBeasts.Onchain

open ChainBeasts.Evm
open ChainBeasts.Pouw.ProofSystem (hex toHex)

/-- `%08x` writes the eight digits, the rest repeats the sign. -/
def encodeInt32 (v : BitVec 32) : Bytes :=
  let s := hexNumber 8 v.toNat
  let buf := List.replicate (8 - s.length) 0x30 ++ s
  List.replicate 56 (if v.toInt < 0 then 0x66 else 0x30) ++ buf

def encodeBytes32 (hex : Bytes) : Bytes :=
  let h := strip0x hex
  let h := if 64 < h.length then h.drop (h.length - 64) else h
  List.replicate (64 - h.length) 0x30 ++ h

def encodeBool (v : Bool) : Bytes := List.replicate 63 0x30 ++ [if v then 0x31 else 0x30]

def encodeBytes (hex : Bytes) : Bytes :=
  let h := strip0x hex
  let rem := h.length % 64
  let data := if rem ≠ 0 then h ++ List.replicate (64 - rem) 0x30 else h
  encodeUint256 (BitVec.ofNat 64 (h.length / 2)) ++ data

/-! ## Digits and their value -/

/-- The number that digits are read as, most significant first. -/
def value (digits : Bytes) : Nat := digits.foldl (fun v c => v * 16 + (digit c).getD 0) 0

theorem value_concat (h : Bytes) (c : BitVec 8) :
    value (h ++ [c]) = value h * 16 + (digit c).getD 0 := by
  rw [value, List.foldl_append, List.foldl_cons, List.foldl_nil]
  rfl

/-- Leading zeros do not count. -/
theorem value_padded (n : Nat) (h : Bytes) : value (List.replicate n 0x30 ++ h) = value h := by
  induction n with
  | zero => rfl
  | succ n ih => exact ih

theorem digit_lt (c : BitVec 8) : (digit c).getD 0 < 16 := by
  revert c
  decide +kernel

theorem value_lt (h : Bytes) : value h < 16 ^ h.length := by
  induction h using List.reverseRecOn with
  | nil => exact Nat.one_pos
  | append_singleton h c ih =>
      rw [value_concat, List.length_append, List.length_singleton, Nat.pow_succ]
      have hdigit := digit_lt c
      omega

/-- The two digits of one byte. -/
theorem spells_pair {a b : BitVec 8} (ha : (digit a).isSome) (hb : (digit b).isSome) (v : Nat) :
    Spells [a, b] [BitVec.ofNat 8 ((v * 16 + (digit a).getD 0) * 16 + (digit b).getD 0)] := by
  obtain ⟨u, hu⟩ := Option.isSome_iff_exists.mp ha
  obtain ⟨w, hw⟩ := Option.isSome_iff_exists.mp hb
  have hult := digit_lt a
  have hwlt := digit_lt b
  rw [hu] at hult ⊢
  rw [hw] at hwlt ⊢
  simp only [Option.getD_some] at hult hwlt ⊢
  refine .cons hu hw ?_ .nil
  rw [BitVec.toNat_ofNat]
  omega

/-- **Digits spell their value.** -/
theorem spells_value {n : Nat} {h : Bytes} (hlen : h.length = 2 * n)
    (hdigits : ∀ c ∈ h, (digit c).isSome) : Spells h (bigEndian n (value h)) := by
  induction n generalizing h with
  | zero =>
      obtain rfl : h = [] := List.eq_nil_of_length_eq_zero hlen
      exact .nil
  | succ n ih =>
      -- the last byte is what the last two digits spell
      obtain ⟨h, b, rfl⟩ := List.eq_nil_or_concat' h |>.resolve_left (by rintro rfl; cases hlen)
      obtain ⟨h, a, rfl⟩ := List.eq_nil_or_concat' h |>.resolve_left (by
        rintro rfl
        simp at hlen
        omega)
      simp only [List.length_append, List.length_singleton] at hlen
      have ha := hdigits a (by simp)
      have hb := hdigits b (by simp)
      have hinit := ih (h := h) (by omega) fun c hc => hdigits c (by simp [hc])
      have hvalue : value (h ++ [a] ++ [b]) / 256 = value h := by
        rw [value_concat, value_concat]
        have hadigit := digit_lt a
        have hbdigit := digit_lt b
        omega
      rw [bigEndian, hvalue, value_concat, value_concat, List.append_assoc]
      exact hinit.append (spells_pair ha hb _)

/-! ## What the encoders spell -/

theorem nibbles_add (m n x : Nat) : nibbles (m + n) x = nibbles m (x / 16 ^ n) ++ nibbles n x := by
  induction n generalizing x with
  | zero => simp [nibbles]
  | succ n ih =>
      rw [← Nat.add_assoc, nibbles, ih, nibbles, List.append_assoc, Nat.div_div_eq_div_mul,
        Nat.pow_succ']

/-- Only the low digits are written. -/
theorem nibbles_mod (n x : Nat) : nibbles n (x % 16 ^ n) = nibbles n x := by
  induction n generalizing x with
  | zero => rfl
  | succ n ih =>
      have hhigh : x % 16 ^ (n + 1) / 16 = x / 16 % 16 ^ n := by
        rw [Nat.pow_succ', Nat.mod_mul_right_div_self]
      have hlow : BitVec.ofNat 4 (x % 16 ^ (n + 1)) = BitVec.ofNat 4 x := by
        apply BitVec.eq_of_toNat_eq
        rw [BitVec.toNat_ofNat, BitVec.toNat_ofNat]
        exact Nat.mod_mod_of_dvd x (Dvd.intro_left (16 ^ n) rfl)
      rw [nibbles, nibbles, hhigh, hlow, ih]

/-- **`encode_int32` spells the word of its argument, in two's complement.** -/
theorem encode_int32_eq (v : BitVec 32) :
    encodeInt32 v = toHex (packWord (v.signExtend 256)) := by
  have hv : v.toNat < 16 ^ 8 := v.isLt
  have hlow : (v.setWidth 256).toNat = v.toNat := by
    rw [BitVec.toNat_setWidth, Nat.mod_eq_of_lt (by omega)]
  rw [packWord, to_hex_bigEndian, show 2 * 32 = 56 + 8 from rfl, nibbles_add, BitVec.toNat_signExtend,
    BitVec.msb_eq_toInt, hlow]
  unfold encodeInt32
  dsimp only
  rw [padded_hexNumber (Nat.le_refl 8) hv]
  by_cases hneg : v.toInt < 0
  · have hhigh : (v.toNat + (2 ^ 256 - 2 ^ 32)) / 16 ^ 8 = 16 ^ 56 - 1 := by omega
    have hrest : (v.toNat + (2 ^ 256 - 2 ^ 32)) % 16 ^ 8 = v.toNat := by omega
    rw [decide_eq_true hneg, if_pos hneg, if_pos rfl, hhigh, ← nibbles_mod 8 (_ + _), hrest]
    rfl
  · rw [decide_eq_false hneg, if_neg hneg, if_neg (by decide), Nat.add_zero, Nat.div_eq_of_lt hv,
      nibbles_zero]

theorem spells_encode_int32 (v : BitVec 32) :
    Spells (encodeInt32 v) (packWord (v.signExtend 256)) := by
  rw [encode_int32_eq]
  exact spells_to_hex _

theorem spells_word {h : Bytes} (hlen : h.length = 64) (hdigits : ∀ c ∈ h, (digit c).isSome) :
    Spells h (packWord (BitVec.ofNat 256 (value h))) := by
  have hlt : value h < 2 ^ 256 := by
    calc value h < 16 ^ h.length := value_lt h
      _ = 2 ^ 256 := by
          rw [hlen]
          rfl
  rw [packWord, BitVec.toNat_ofNat, Nat.mod_eq_of_lt hlt]
  exact spells_value hlen hdigits

theorem digits_padded {h : Bytes} (n : Nat) (hdigits : ∀ c ∈ h, (digit c).isSome) :
    ∀ c ∈ List.replicate n 0x30 ++ h, (digit c).isSome := by
  intro c hc
  rcases List.mem_append.mp hc with hc | hc
  · rw [List.eq_of_mem_replicate hc]
    rfl
  · exact hdigits c hc

/-- Up to 64 digits, padded on the left, spell the word that has their value. -/
theorem spells_padded {h : Bytes} (hlen : h.length ≤ 64) (hdigits : ∀ c ∈ h, (digit c).isSome) :
    Spells (List.replicate (64 - h.length) 0x30 ++ h) (packWord (BitVec.ofNat 256 (value h))) := by
  have hword := spells_word (h := List.replicate (64 - h.length) 0x30 ++ h)
    (by rw [List.length_append, List.length_replicate]; omega) (digits_padded _ hdigits)
  rwa [value_padded] at hword

/-- **`encode_bytes32` spells the word that has the value of its argument.** -/
theorem spells_encode_bytes32 {hex : Bytes} (hlen : (strip0x hex).length ≤ 64)
    (hdigits : ∀ c ∈ strip0x hex, (digit c).isSome) :
    Spells (encodeBytes32 hex) (packWord (BitVec.ofNat 256 (value (strip0x hex)))) := by
  unfold encodeBytes32
  dsimp only
  rw [if_neg (by omega)]
  exact spells_padded hlen hdigits

/-- A 64-bit number is spelled if it has 32 bits. -/
theorem spells_encode_uint256_iff (v : BitVec 64) :
    Spells (encodeUint256 v) (packWord (v.setWidth 256)) ↔ v.toNat < 2 ^ 32 := by
  have hlow : Spells (encodeUint256 v) (packWord ((v.setWidth 32).setWidth 256)) :=
    spells_encode_uint32 _
  have hcut : (v.setWidth 32).setWidth 256 = v.setWidth 256 ↔ v.toNat < 2 ^ 32 := by
    rw [← BitVec.toNat_inj]
    simp only [BitVec.toNat_setWidth]
    omega
  rw [← hcut]
  constructor
  · intro hs
    exact packWord_inj (hlow.unique hs)
  · intro heq
    rw [← heq]
    exact hlow

/-! ## Byte strings -/

theorem spells_zeros (n : Nat) : Spells (List.replicate (2 * n) 0x30) (List.replicate n 0) := by
  induction n with
  | zero => exact .nil
  | succ n ih => exact .cons rfl rfl rfl ih

/-- The length is cut down to 32 bits, the bytes are padded to whole words. -/
theorem spells_encode_bytes {hex bs : Bytes} (hs : Spells (strip0x hex) bs) :
    Spells (encodeBytes hex) (packWord ((BitVec.ofNat 32 bs.length).setWidth 256) ++
      (bs ++ Abi.padding bs.length)) := by
  have hhalf : (strip0x hex).length / 2 = bs.length := by
    rw [hs.length]
    omega
  have hcut : (BitVec.ofNat 64 bs.length).setWidth 32 = BitVec.ofNat 32 bs.length := by
    apply BitVec.eq_of_toNat_eq
    simp only [BitVec.toNat_setWidth, BitVec.toNat_ofNat]
    omega
  have hdata : Spells (if (strip0x hex).length % 64 ≠ 0 then
      strip0x hex ++ List.replicate (64 - (strip0x hex).length % 64) 0x30 else strip0x hex)
      (bs ++ Abi.padding bs.length) := by
    rw [hs.length]
    split
    · have hcount : 64 - 2 * bs.length % 64 = 2 * ((32 - bs.length % 32) % 32) := by omega
      rw [hcount]
      exact hs.append (spells_zeros _)
    · have hnone : (32 - bs.length % 32) % 32 = 0 := by omega
      rw [Abi.padding, hnone, List.replicate_zero, List.append_nil]
      exact hs
  unfold encodeBytes
  dsimp only
  rw [hhalf, encodeUint256, hcut]
  exact (spells_encode_uint32 _).append hdata

/-- **A byte string of less than `2 ^ 32` bytes is encoded as the ABI has it.** -/
theorem spells_encode_bytes_tail {hex bs : Bytes} (hs : Spells (strip0x hex) bs)
    (hlen : bs.length < 2 ^ 32) : Spells (encodeBytes hex) (Abi.tail bs) := by
  have hword : (BitVec.ofNat 32 bs.length).setWidth 256 = BitVec.ofNat 256 bs.length := by
    apply BitVec.eq_of_toNat_eq
    simp only [BitVec.toNat_setWidth, BitVec.toNat_ofNat]
    omega
  rw [Abi.tail, Abi.counted, List.append_assoc, ← hword]
  exact spells_encode_bytes hs

/-! ## All words together -/

/-- **What the words say.** A signed or unsigned number of 32 bits and up to 64 digits are each
spelled as the word of their value; a number of 64 bits if and only if it is below `2 ^ 32`, and two
of them are the same word if and only if they share the low half. -/
theorem words_spelled (v : BitVec 32) (x y : BitVec 64) (hex : Bytes)
    (hlen : (strip0x hex).length ≤ 64) (hdigits : ∀ c ∈ strip0x hex, (digit c).isSome) :
    Spells (encodeUint32 v) (packWord (v.setWidth 256)) ∧
    Spells (encodeInt32 v) (packWord (v.signExtend 256)) ∧
    Spells (encodeBytes32 hex) (packWord (BitVec.ofNat 256 (value (strip0x hex)))) ∧
    (Spells (encodeUint256 x) (packWord (x.setWidth 256)) ↔ x.toNat < 2 ^ 32) ∧
    (encodeUint256 x = encodeUint256 y ↔ x.setWidth 32 = y.setWidth 32) := by
  refine ⟨spells_encode_uint32 v, spells_encode_int32 v, spells_encode_bytes32 hlen hdigits,
    spells_encode_uint256_iff x, ?_⟩
  constructor
  · exact encode_uint32_inj
  · intro h
    rw [encodeUint256, h, encodeUint256]

theorem words_spelled_12ab :
    Spells (encodeUint32 1) (packWord 1) ∧
    Spells (encodeInt32 (-1)) (packWord (-1)) ∧
    Spells (encodeBytes32 (text "0x12ab")) (packWord 0x12ab) ∧
    (Spells (encodeUint256 42) (packWord 42) ↔ (42 : BitVec 64).toNat < 2 ^ 32) ∧
    (encodeUint256 42 = encodeUint256 43 ↔ (42 : BitVec 32) = 43) := by
  have h := words_spelled 1 42 43 (text "0x12ab") (by decide) (by decide)
  have h' := words_spelled (-1) 42 43 (text "0x12ab") (by decide) (by decide)
  exact ⟨h.1, h'.2.1, h.2.2⟩

/-- `2 ^ 32` is sent as 0. -/
theorem encode_uint256_cut :
    encodeUint256 0x100000000 = encodeUint256 0 ∧
      ¬ Spells (encodeUint256 0x100000000) (packWord 0x100000000) := by
  refine ⟨rfl, ?_⟩
  intro hs
  have hzero : Spells (encodeUint256 0x100000000) (packWord 0) := spells_encode_uint32 0
  exact absurd (packWord_inj (hs.unique hzero)) (by decide)

end ChainBeasts.Onchain
