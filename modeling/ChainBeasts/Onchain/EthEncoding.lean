import ChainBeasts.Evm.Packed
import ChainBeasts.Pouw.ProofRoot

/-! # Numbers and bytes as text

The helpers of `eth_encoding.hpp` that other parts of the client build their calls from, with what
they take from the standard library. A string is its bytes. `Spells` relates hex digits of either
case to the bytes they stand for: pairs of digits are read back by `stoi` (`parse_spelled`), and
`encode_uint32` spells the word of a number (`encode_uint32_eq`). -/

namespace ChainBeasts.Onchain

open ChainBeasts.Evm
open ChainBeasts.Pouw.ProofSystem (hex toHex)

/-- A literal of the source. -/
def text (s : String) : Bytes := s.toList.map fun c => BitVec.ofNat 8 c.toNat

/-! ## Reading digits -/

/-- The value of a hex digit. -/
def digit (c : BitVec 8) : Option Nat :=
  if 0x30 ≤ c ∧ c ≤ 0x39 then some (c.toNat - 0x30)
  else if 0x61 ≤ c ∧ c ≤ 0x66 then some (c.toNat - 0x57)
  else if 0x41 ≤ c ∧ c ≤ 0x46 then some (c.toNat - 0x37)
  else none

/-- `isspace`: blank, tab, line feed, vertical tab, form feed, carriage return. -/
def isspace (c : BitVec 8) : Bool := c = 0x20 ∨ (0x09 ≤ c ∧ c ≤ 0x0d)

/-- The sign in front of a number, and what follows it. -/
def sign : Bytes → Bool × Bytes
  | [] => (false, [])
  | c :: s => if c = 0x2d then (true, s) else if c = 0x2b then (false, s) else (false, c :: s)

/-- The text after a prefix `0x` or `0X` that is followed by a digit. -/
def unprefixed : Bytes → Bytes
  | z :: x :: d :: s =>
    if z = 0x30 ∧ (x = 0x78 ∨ x = 0x58) ∧ (digit d).isSome then d :: s else z :: x :: d :: s
  | s => s

/-- `std::stoi(s, nullptr, 16)`: leading blanks, a sign, a prefix and as many digits as there are.
`none` is an exception: there is no digit, or the number is none of `int`. -/
def stoi (s : Bytes) : Option Int :=
  let (negative, s) := sign (s.dropWhile isspace)
  let digits := (unprefixed s).takeWhile fun c => (digit c).isSome
  if digits = [] then none
  else
    let v : Int := digits.foldl (fun v c => v * 16 + (digit c).getD 0) 0
    let v := if negative then -v else v
    if -2 ^ 31 ≤ v ∧ v < 2 ^ 31 then some v else none

/-- `h.substr(i, 2)` for `i = 0, 2, ..` below `h.size()`. -/
def substrs : Bytes → List Bytes
  | [] => []
  | [a] => [[a]]
  | a :: b :: h => [a, b] :: substrs h

/-- `static_cast<std::uint8_t>(std::stoi(piece, nullptr, 16))`, piece by piece. -/
def parse (pieces : List Bytes) : Option Bytes :=
  pieces.mapM fun piece => (stoi piece).map (BitVec.ofInt 8)

/-! ## Spelling -/

/-- `h` consists of two hex digits for each of the bytes. -/
inductive Spells : Bytes → Bytes → Prop where
  | nil : Spells [] []
  | cons {a b x : BitVec 8} {h bs : Bytes} {u v : Nat} (ha : digit a = some u)
      (hb : digit b = some v) (hx : x.toNat = 16 * u + v) (hrest : Spells h bs) :
      Spells (a :: b :: h) (x :: bs)

theorem Spells.length {h bs : Bytes} (hs : Spells h bs) : h.length = 2 * bs.length := by
  induction hs with
  | nil => rfl
  | cons _ _ _ _ ih =>
      simp only [List.length_cons, ih]
      omega

theorem Spells.digits {h bs : Bytes} (hs : Spells h bs) : ∀ c ∈ h, (digit c).isSome := by
  induction hs with
  | nil => simp
  | cons ha hb _ _ ih =>
      intro c hc
      rcases List.mem_cons.mp hc with rfl | hc
      · rw [ha]
        rfl
      · rcases List.mem_cons.mp hc with rfl | hc
        · rw [hb]
          rfl
        · exact ih c hc

theorem digit_hex (d : BitVec 4) : digit (hex d) = some d.toNat := by
  revert d
  decide

theorem spells_to_hex (bs : Bytes) : Spells (toHex bs) bs := by
  induction bs with
  | nil => exact .nil
  | cons x bs ih =>
      refine .cons (digit_hex _) (digit_hex _) ?_ ih
      simp only [BitVec.extractLsb'_toNat, Nat.shiftRight_eq_div_pow]
      have hlt := x.isLt
      omega

/-- What reads as a digit is no blank, no sign and no part of a prefix. -/
theorem digit_facts (c : BitVec 8) (h : (digit c).isSome) :
    isspace c = false ∧ c ≠ 0x2d ∧ c ≠ 0x2b ∧ c ≠ 0x78 ∧ c ≠ 0x58 := by
  revert c
  decide +kernel

theorem stoi_pair {a b : BitVec 8} {u v : Nat} (ha : digit a = some u) (hb : digit b = some v)
    {x : BitVec 8} (hx : x.toNat = 16 * u + v) : (stoi [a, b]).map (BitVec.ofInt 8) = some x := by
  have ha' : (digit a).isSome := by rw [ha]; rfl
  have hb' : (digit b).isSome := by rw [hb]; rfl
  obtain ⟨hspace, hminus, hplus, -, -⟩ := digit_facts a ha'
  have hlt := x.isLt
  have hvalue : (((0 * 16 + (u : Int)) * 16 + v) : Int) = x.toNat := by omega
  have hblank : ([a, b] : Bytes).dropWhile isspace = [a, b] := by
    rw [List.dropWhile_cons, hspace]
    rfl
  have hsign : sign [a, b] = (false, [a, b]) := by
    rw [sign, if_neg hminus, if_neg hplus]
  have hdigits : (unprefixed [a, b]).takeWhile (fun c => (digit c).isSome) = [a, b] := by
    simp [unprefixed, ha', hb']
  unfold stoi
  simp only [hblank, hsign, hdigits, List.cons_ne_nil, if_false, List.foldl_cons, List.foldl_nil,
    ha, hb, Option.getD_some, Bool.false_eq_true, hvalue]
  rw [if_pos (by omega), Option.map_some, BitVec.ofInt_natCast, BitVec.ofNat_toNat,
    BitVec.setWidth_eq]

/-- **Spelled bytes are read back.** -/
theorem parse_spelled {h bs : Bytes} (hs : Spells h bs) : parse (substrs h) = some bs := by
  induction hs with
  | nil => rfl
  | cons ha hb hx _ ih =>
      unfold parse at ih ⊢
      simp only [substrs, List.mapM_cons, stoi_pair ha hb hx, ih, Option.bind_eq_bind,
        Option.bind_some, Option.pure_def]

/-- Digits spell one list of bytes. -/
theorem Spells.unique {h bs bs' : Bytes} (hs : Spells h bs) (hs' : Spells h bs') : bs = bs' :=
  Option.some.inj ((parse_spelled hs).symm.trans (parse_spelled hs'))

theorem Spells.append {h h' bs bs' : Bytes} (hs : Spells h bs) (hs' : Spells h' bs') :
    Spells (h ++ h') (bs ++ bs') := by
  induction hs with
  | nil => exact hs'
  | cons ha hb hx _ ih => exact .cons ha hb hx ih

theorem length_substrs {h bs : Bytes} (hs : Spells h bs) : (substrs h).length = bs.length := by
  induction hs with
  | nil => rfl
  | cons _ _ _ _ ih => simp only [substrs, List.length_cons, ih]

/-! ## `eth_encoding.hpp` -/

def strip0x (hex : Bytes) : Bytes :=
  match hex with
  | z :: x :: h => if z = 0x30 ∧ (x = 0x78 ∨ x = 0x58) then h else z :: x :: h
  | h => h

theorem to_hex_append (s t : Bytes) : toHex (s ++ t) = toHex s ++ toHex t := List.flatMap_append

/-- There is no prefix to strip from digits. -/
theorem strip_0x_spelled {h bs : Bytes} (hs : Spells h bs) : strip0x h = h := by
  cases hs with
  | nil => rfl
  | @cons a b x h bs u v ha hb hx hrest =>
      obtain ⟨-, -, -, hlower, hupper⟩ := digit_facts b (by rw [hb]; rfl)
      rw [strip0x, if_neg]
      rintro ⟨-, h | h⟩
      · exact hlower h
      · exact hupper h

/-- `std::hex << v`: the digits of a number below `16 ^ n`, without leading zeros. -/
def hexNumber : Nat → Nat → Bytes
  | 0, _ => []
  | n + 1, v =>
    if v < 16 then [hex (BitVec.ofNat 4 v)] else hexNumber n (v / 16) ++ [hex (BitVec.ofNat 4 v)]

/-- `std::setfill('0') << std::setw(64)`. -/
def encodeUint32 (v : BitVec 32) : Bytes :=
  let s := hexNumber 8 v.toNat
  List.replicate (64 - s.length) 0x30 ++ s

/-- The argument is cut down to 32 bits. -/
def encodeUint256 (v : BitVec 64) : Bytes := encodeUint32 (v.setWidth 32)

/-- The low `n` hex digits of `x`, most significant first. -/
def nibbles : Nat → Nat → Bytes
  | 0, _ => []
  | n + 1, x => nibbles n (x / 16) ++ [hex (BitVec.ofNat 4 x)]

theorem nibbles_zero (n : Nat) : nibbles n 0 = List.replicate n 0x30 := by
  induction n with
  | zero => rfl
  | succ n ih =>
      rw [nibbles, Nat.zero_div, ih, List.replicate_succ']
      rfl

theorem to_hex_bigEndian (n x : Nat) : toHex (bigEndian n x) = nibbles (2 * n) x := by
  induction n generalizing x with
  | zero => rfl
  | succ n ih =>
      have hhigh : (BitVec.ofNat 8 x).extractLsb' 4 4 = BitVec.ofNat 4 (x / 16) := by
        apply BitVec.eq_of_toNat_eq
        simp only [BitVec.extractLsb'_toNat, BitVec.toNat_ofNat, Nat.shiftRight_eq_div_pow]
        omega
      have hlow : (BitVec.ofNat 8 x).extractLsb' 0 4 = BitVec.ofNat 4 x := by
        apply BitVec.eq_of_toNat_eq
        simp only [BitVec.extractLsb'_toNat, BitVec.toNat_ofNat, Nat.shiftRight_zero]
        omega
      have hsplit : toHex (bigEndian n (x / 256) ++ [BitVec.ofNat 8 x]) =
          toHex (bigEndian n (x / 256)) ++
            [hex (BitVec.ofNat 4 (x / 16)), hex (BitVec.ofNat 4 x)] := by
        simp only [toHex, List.flatMap_append, List.flatMap_singleton, hhigh, hlow]
      rw [bigEndian, hsplit, ih, Nat.mul_succ, nibbles, nibbles, Nat.div_div_eq_div_mul,
        List.append_assoc]
      rfl

/-- Padding makes up for the leading zeros. -/
theorem padded_hexNumber {n m v : Nat} (hn : n ≤ m) (hv : v < 16 ^ n) :
    List.replicate (m - (hexNumber n v).length) 0x30 ++ hexNumber n v = nibbles m v := by
  induction n generalizing m v with
  | zero =>
      obtain rfl : v = 0 := by omega
      rw [nibbles_zero, hexNumber, List.append_nil]
      rfl
  | succ n ih =>
      obtain ⟨m, rfl⟩ : ∃ k, m = k + 1 := ⟨m - 1, by omega⟩
      rw [hexNumber]
      split
      · next hsmall =>
        rw [nibbles, Nat.div_eq_of_lt hsmall, nibbles_zero]
        rfl
      · have hdiv : v / 16 < 16 ^ n := Nat.div_lt_of_lt_mul (by rwa [Nat.pow_succ'] at hv)
        have hlen : m + 1 - (hexNumber n (v / 16) ++ [hex (BitVec.ofNat 4 v)]).length =
            m - (hexNumber n (v / 16)).length := by
          rw [List.length_append, List.length_singleton]
          omega
        rw [hlen, ← List.append_assoc, ih (by omega) hdiv, nibbles]

/-- **`encode_uint32` spells the word of its argument.** -/
theorem encode_uint32_eq (v : BitVec 32) : encodeUint32 v = toHex (packWord (v.setWidth 256)) := by
  have hv : v.toNat < 16 ^ 8 := v.isLt
  have hword : (v.setWidth 256).toNat = v.toNat := by
    rw [BitVec.toNat_setWidth, Nat.mod_eq_of_lt (by omega)]
  rw [packWord, hword, to_hex_bigEndian]
  exact padded_hexNumber (by decide) hv

theorem spells_encode_uint32 (v : BitVec 32) :
    Spells (encodeUint32 v) (packWord (v.setWidth 256)) := by
  rw [encode_uint32_eq]
  exact spells_to_hex _

theorem length_encode_uint32 (v : BitVec 32) : (encodeUint32 v).length = 64 := by
  rw [(spells_encode_uint32 v).length, length_packWord]

theorem setWidth_32_inj {v w : BitVec 32} (h : v.setWidth 256 = w.setWidth 256) : v = w := by
  have hword := congrArg BitVec.toNat h
  have hv := v.isLt
  have hw := w.isLt
  apply BitVec.eq_of_toNat_eq
  simp only [BitVec.toNat_setWidth] at hword
  omega

theorem encode_uint32_inj {v w : BitVec 32} (h : encodeUint32 v = encodeUint32 w) : v = w := by
  have hv := spells_encode_uint32 v
  rw [h] at hv
  exact setWidth_32_inj (packWord_inj (hv.unique (spells_encode_uint32 w)))

end ChainBeasts.Onchain
