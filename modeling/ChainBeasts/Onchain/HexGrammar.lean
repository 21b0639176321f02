import ChainBeasts.Onchain.AbiWords
import ChainBeasts.Onchain.Curriculum

/-! # What `decode_hex` accepts

`decode_hex` hands each pair of characters to `stoi` and takes what comes back. `stoi` reads a number
out of the front of a text, behind blanks and a sign, and leaves the rest: a pair with one digit in
it is often a number too (`stoi_pair_eq_none`), and the odd character at the end is in no pair. So
the one text that is always read correctly is an even number of digits, and the only other texts that
do no harm are those with a pair that `stoi` throws at (`decode_hex_faithful_iff`). -/

namespace ChainBeasts.Onchain

open ChainBeasts.Evm
open ChainBeasts.Pouw.ProofSystem (hex toHex)

/-! ## The grammar -/

/-- `tolower`, on bytes. -/
def lower (c : BitVec 8) : BitVec 8 := if 0x41 ≤ c ∧ c ≤ 0x5a then c + 0x20 else c

/-- An even number of hex digits. -/
def IsHex (h : Bytes) : Prop := h.length % 2 = 0 ∧ ∀ c ∈ h, (digit c).isSome

/-- What a decoded text is meant to be: two digits for each byte, and those that `to_hex` writes, up
to letter case. -/
def Faithful (s : Bytes) : Prop :=
  ∀ bs, decodeHex s = some bs →
    (strip0x s).length = 2 * bs.length ∧ (∀ c ∈ strip0x s, (digit c).isSome) ∧
      toHex bs = (strip0x s).map lower

/-- The complete pairs of a text. -/
def pairs : Bytes → List (BitVec 8 × BitVec 8)
  | a :: b :: h => (a, b) :: pairs h
  | _ => []

/-- `stoi` throws at the pair: it starts with no digit, and where it starts with a blank or a sign,
no digit follows. -/
def Unreadable (p : BitVec 8 × BitVec 8) : Prop :=
  digit p.1 = none ∧ (isspace p.1 ∨ p.1 = 0x2d ∨ p.1 = 0x2b → digit p.2 = none)

instance (h : Bytes) : Decidable (IsHex h) := inferInstanceAs (Decidable (_ ∧ _))

instance (p : BitVec 8 × BitVec 8) : Decidable (Unreadable p) :=
  inferInstanceAs (Decidable (_ ∧ (_ → _)))

/-! ## Spelling and case -/

theorem lower_digit (c : BitVec 8) (h : (digit c).isSome) :
    lower c = hex (BitVec.ofNat 4 ((digit c).getD 0)) := by
  revert c
  decide +kernel

/-- Spelled bytes are the bytes whose `to_hex` is the text in lower case. -/
theorem Spells.to_hex_eq {h bs : Bytes} (hs : Spells h bs) : toHex bs = h.map lower := by
  induction hs with
  | nil => rfl
  | @cons a b x h bs u v ha hb hx _ ih =>
      have hu := digit_lt a
      have hv := digit_lt b
      rw [ha, Option.getD_some] at hu
      rw [hb, Option.getD_some] at hv
      have hlow : x.extractLsb' 0 4 = BitVec.ofNat 4 v := by
        apply BitVec.eq_of_toNat_eq
        simp only [BitVec.extractLsb'_toNat, BitVec.toNat_ofNat, Nat.shiftRight_zero]
        omega
      have hhigh : x.extractLsb' 4 4 = BitVec.ofNat 4 u := by
        apply BitVec.eq_of_toNat_eq
        simp only [BitVec.extractLsb'_toNat, BitVec.toNat_ofNat, Nat.shiftRight_eq_div_pow]
        omega
      have ha' := lower_digit a (by rw [ha]; rfl)
      have hb' := lower_digit b (by rw [hb]; rfl)
      rw [ha, Option.getD_some] at ha'
      rw [hb, Option.getD_some] at hb'
      rw [List.map_cons, List.map_cons, ha', hb', ← hlow, ← hhigh, ← ih]
      rfl

/-- An even number of digits spells something. -/
theorem IsHex.spells {h : Bytes} (hh : IsHex h) : ∃ bs, Spells h bs := by
  have hlen : h.length = 2 * (h.length / 2) := by
    have heven := hh.1
    omega
  exact ⟨_, spells_value hlen hh.2⟩

/-! ## What `stoi` makes of a pair -/

/-- The digits that `stoi` reads. -/
def numeral (s : Bytes) : Bytes :=
  (unprefixed (sign (s.dropWhile isspace)).2).takeWhile fun c => (digit c).isSome

/-- Two digits are always a number of `int`, so `stoi` throws where it finds none and only there. -/
theorem stoi_eq_none {s : Bytes} (h : (numeral s).length ≤ 2) : stoi s = none ↔ numeral s = [] := by
  have hvalue : 0 ≤ (numeral s).foldl (fun (v : Int) c => v * 16 + (digit c).getD 0) 0 ∧
      (numeral s).foldl (fun (v : Int) c => v * 16 + (digit c).getD 0) 0 < 256 := by
    match numeral s, h with
    | [], _ => simp
    | [a], _ =>
        have ha := digit_lt a
        simp only [List.foldl_cons, List.foldl_nil]
        omega
    | [a, b], _ =>
        have ha := digit_lt a
        have hb := digit_lt b
        simp only [List.foldl_cons, List.foldl_nil]
        omega
  unfold stoi
  simp only [← numeral.eq_1]
  split
  · next hnil => simp [hnil]
  · next hsome =>
      rw [if_pos (by split <;> omega)]
      simp [hsome]

theorem numeral_cons_of_space {a : BitVec 8} (s : Bytes) (h : isspace a = true) :
    numeral (a :: s) = numeral s := by
  rw [numeral, List.dropWhile_cons, if_pos h, numeral]

theorem dropWhile_of_not_space {a : BitVec 8} (s : Bytes) (h : isspace a = false) :
    (a :: s).dropWhile isspace = a :: s := by
  rw [List.dropWhile_cons, h]
  rfl

theorem digit_of_blank {a : BitVec 8} (h : isspace a ∨ a = 0x2d ∨ a = 0x2b) : digit a = none := by
  revert a
  decide +kernel

/-- One character is read as itself, or not at all. -/
theorem numeral_single (b : BitVec 8) :
    numeral [b] = ([b] : Bytes).takeWhile fun c => (digit c).isSome := by
  by_cases hspace : isspace b = true
  · rw [numeral_cons_of_space [] hspace, List.takeWhile_cons, digit_of_blank (Or.inl hspace)]
    rfl
  · rw [numeral, dropWhile_of_not_space [] (by simpa using hspace)]
    by_cases hsign : b = 0x2d ∨ b = 0x2b
    · rw [List.takeWhile_cons, digit_of_blank (Or.inr hsign)]
      rcases hsign with rfl | rfl <;> rfl
    · rw [not_or] at hsign
      rw [sign, if_neg hsign.1, if_neg hsign.2]
      rfl

/-- A pair is read from its first character, or from its second behind a blank or a sign. -/
theorem numeral_pair (a b : BitVec 8) : numeral [a, b] =
    if isspace a ∨ a = 0x2d ∨ a = 0x2b then [b].takeWhile fun c => (digit c).isSome
    else [a, b].takeWhile fun c => (digit c).isSome := by
  split
  · next hblank =>
      rcases hblank with hspace | rfl | rfl
      · rw [numeral_cons_of_space [b] hspace, numeral_single]
      · rfl
      · rfl
  · next hplain =>
      rw [not_or, not_or] at hplain
      obtain ⟨hspace, hminus, hplus⟩ := hplain
      rw [numeral, dropWhile_of_not_space [b] (by simpa using hspace), sign, if_neg hminus,
        if_neg hplus]
      rfl

theorem takeWhile_digit_eq_nil (c : BitVec 8) (s : Bytes) :
    (c :: s).takeWhile (fun c => (digit c).isSome) = [] ↔ digit c = none := by
  rw [List.takeWhile_cons]
  cases digit c <;> simp

/-- **When a pair throws.** -/
theorem stoi_pair_eq_none (a b : BitVec 8) : stoi [a, b] = none ↔ Unreadable (a, b) := by
  have htake : (numeral [a, b]).length ≤ 2 := by
    rw [numeral_pair]
    split
    · exact (List.takeWhile_prefix _).length_le.trans (Nat.le_succ 1)
    · exact (List.takeWhile_prefix _).length_le
  rw [stoi_eq_none htake, numeral_pair, Unreadable]
  split
  · next hblank =>
      rw [takeWhile_digit_eq_nil, and_iff_right (digit_of_blank hblank), forall_prop_of_true hblank]
  · next hplain =>
      rw [takeWhile_digit_eq_nil, and_iff_left (fun h => absurd h hplain)]

/-! ## What `decode_hex` makes of a text -/

theorem take_substrs : ∀ h : Bytes,
    (substrs h).take (h.length / 2) = (pairs h).map fun p => [p.1, p.2]
  | [] => rfl
  | [a] => by simp [pairs]
  | a :: b :: h => by
      have hlen : (a :: b :: h).length / 2 = h.length / 2 + 1 := by
        simp only [List.length_cons]
        omega
      rw [hlen, substrs, List.take_succ_cons, take_substrs h, pairs, List.map_cons]

theorem parse_eq_none (pieces : List Bytes) :
    parse pieces = none ↔ ∃ piece ∈ pieces, stoi piece = none := by
  unfold parse
  induction pieces with
  | nil => simp
  | cons piece pieces ih =>
      rw [List.mapM_cons]
      cases hpiece : stoi piece with
      | none => simp [hpiece]
      | some v =>
          cases hrest : pieces.mapM fun piece => (stoi piece).map (BitVec.ofInt 8) with
          | none => simpa [hpiece, hrest] using ih.mp hrest
          | some vs => simpa [hpiece, hrest] using ih

theorem decode_hex_eq (s : Bytes) :
    decodeHex s = parse ((pairs (strip0x s)).map fun p => [p.1, p.2]) := by
  rw [← take_substrs]
  rfl

/-- A text is refused exactly when `stoi` throws at one of its pairs. -/
theorem decode_hex_eq_none (s : Bytes) :
    decodeHex s = none ↔ ∃ p ∈ pairs (strip0x s), Unreadable p := by
  rw [decode_hex_eq, parse_eq_none]
  constructor
  · rintro ⟨piece, hpiece, hthrows⟩
    obtain ⟨p, hp, rfl⟩ := List.mem_map.mp hpiece
    exact ⟨p, hp, (stoi_pair_eq_none p.1 p.2).mp hthrows⟩
  · rintro ⟨p, hp, hunread⟩
    exact ⟨[p.1, p.2], List.mem_map_of_mem hp, (stoi_pair_eq_none p.1 p.2).mpr hunread⟩

/-- A spelling is decoded to what it spells, behind a prefix or without one. -/
theorem decode_hex_stripped {s bs : Bytes} (hs : Spells (strip0x s) bs) :
    decodeHex s = some bs := by
  have hplain := decode_hex_spelled hs
  rw [decodeHex, strip_0x_spelled hs] at hplain
  exact hplain

/-- Three digits lose the last, and a sign or a foreign letter is no obstacle. -/
theorem text_misread :
    ¬ ((∀ s, Faithful s) ∧ ∀ bs, decodeHex (toHex bs) = some bs) ∧
      decodeHex (text "0x+f") = some [0x0f] ∧ decodeHex (text "5g") = some [0x05] := by
  refine ⟨?_, by decide, by decide⟩
  rintro ⟨hfaithful, -⟩
  have hcut : decodeHex (text "abc") = some [0xab] := by decide
  obtain ⟨hlen, -, -⟩ := hfaithful (text "abc") [0xab] hcut
  exact absurd hlen (by decide)

/-- **Exactly the digits.** What `decode_hex` returns is what the text says for every text of digits
that pair up, for every text with a pair that `stoi` throws at, and for no other; and what `to_hex`
writes is read back. -/
theorem decode_hex_faithful_iff (s bs : Bytes) :
    (Faithful s ↔ IsHex (strip0x s) ∨ ∃ p ∈ pairs (strip0x s), Unreadable p) ∧
      decodeHex (toHex bs) = some bs := by
  refine ⟨⟨?_, ?_⟩, decode_hex_spelled (spells_to_hex bs)⟩
  · intro hfaithful
    cases hdecode : decodeHex s with
    | none => exact Or.inr ((decode_hex_eq_none s).mp hdecode)
    | some bs =>
        obtain ⟨hlen, hdigits, -⟩ := hfaithful bs hdecode
        exact Or.inl ⟨by omega, hdigits⟩
  · intro hcond bs' hdecode
    rcases hcond with hhex | hthrows
    · obtain ⟨bs'', hspells⟩ := hhex.spells
      rw [decode_hex_stripped hspells] at hdecode
      obtain rfl := Option.some.inj hdecode
      exact ⟨hspells.length, hspells.digits, hspells.to_hex_eq⟩
    · rw [(decode_hex_eq_none s).mpr hthrows] at hdecode
      exact absurd hdecode (by simp)

end ChainBeasts.Onchain
