import ChainBeasts.Onchain.HexGrammar

/-! # The calls of the bracket page

`bracket.ts` writes the arguments of a call out by hand, and reads a result the same way. A list has
its offset in the head, counted from the start of the arguments: 64 for `reportWinners`, which has
the id before it, and 32 where the list is alone. `createBracket` writes 64 as well, so the contract
takes the first player for the length and never sees the list (`created_shorter`); and `getPlayers`
takes the offset of the result, 32, for its length (`readPlayers_answer`). -/

namespace ChainBeasts.Client

open ChainBeasts.Evm
open ChainBeasts.Onchain (text digit hexNumber nibbles lower value Spells)
open ChainBeasts.Pouw.ProofSystem (hex toHex)

/-! ## Strings -/

/-- `BigInt(v).toString(16)`. -/
def toString16 (v : Nat) : Bytes := hexNumber (v + 1) v

/-- `s.padStart(n, '0')`. -/
def padStart (s : Bytes) (n : Nat) : Bytes := List.replicate (n - s.length) 0x30 ++ s

/-- `s.replace(/^0x/, '')`. -/
def replace0x : Bytes → Bytes
  | z :: x :: s => if z = 0x30 ∧ x = 0x78 then s else z :: x :: s
  | s => s

/-- `s.slice(i, j)` for `i ≤ j`. -/
def slice (s : Bytes) (i j : Nat) : Bytes := (s.drop i).take (j - i)

/-- `BigInt('0x' + s)`, which lets blanks follow the digits and throws at anything else. -/
def BigInt0x (s : Bytes) : Option Nat :=
  let digits := (s.reverse.dropWhile Onchain.isspace).reverse
  if digits ≠ [] ∧ ∀ c ∈ digits, (digit c).isSome then some (value digits) else none

def encUint (v : Nat) : Bytes := padStart (toString16 v) 64

def encAddr (addr : Bytes) : Bytes := padStart (replace0x (addr.map lower)) 64

/-- An array has fewer than `2 ^ 32` entries. -/
structure JsArray (α : Type) where
  toList : List α
  length_lt : toList.length < 2 ^ 32

/-- What `sendTransaction` asks the wallet to send. -/
structure Transaction where
  toAddr : Bytes
  data : Bytes
  value : Bytes := text "0x0"

/-! ## `BracketManager` -/

namespace BracketManager

def createBracketSelector : Bytes := text "86e5c892"
def reportWinnersSelector : Bytes := text "773ee7d0"
def playersSelector : Bytes := text "ff583f66"

/-- The contract that the page talks to. -/
structure Page where
  tournamentAddr : Bytes

def createBracket (page : Page) (players : JsArray Bytes) (prize : Nat) : Transaction :=
  let head := createBracketSelector ++ (encUint (32 * 2) ++ encUint players.toList.length)
  let data := head ++ players.toList.flatMap encAddr
  { toAddr := page.tournamentAddr, data := text "0x" ++ data, value := text "0x" ++ toString16 prize }

def reportWinners (page : Page) (id : Nat) (winners : JsArray Bytes) : Transaction :=
  let head := reportWinnersSelector ++
    (encUint id ++ (encUint (32 * 2) ++ encUint winners.toList.length))
  let data := head ++ winners.toList.flatMap encAddr
  { toAddr := page.tournamentAddr, data := text "0x" ++ data }

/-- The string that is pushed in round `i`. -/
def player (res : Bytes) (i : Nat) : Bytes :=
  let start := 66 + i * 64 + 24
  text "0x" ++ slice res start (start + 40)

/-- `none` is an exception: there is no number to read, or too many strings for an array. -/
def readPlayers (res : Bytes) : Option (List Bytes) := do
  let len ← BigInt0x (slice res 2 66)
  if len < 2 ^ 32 then
    some ((List.range len).map (player res))
  else none

/-- The call goes to the contract, with the data given here; `none` where it throws. -/
def getPlayers (page : Page) (ethCall : Bytes → Bytes → Option Bytes) (id : Nat) :
    Option (List Bytes) := do
  let data := playersSelector ++ encUint id
  let res ← ethCall page.tournamentAddr (text "0x" ++ data)
  readPlayers res

end BracketManager

/-! ## What the strings stand for -/

/-- The digits of an address, of either case, with a prefix or without one. -/
def Names (addr : Bytes) (a : Address) : Prop :=
  ∃ h, Spells h (packAddress a) ∧ (addr = h ∨ addr = text "0x" ++ h ∨ addr = text "0X" ++ h)

/-- The quantity that a string stands for. -/
def Denotes (s : Bytes) (v : Nat) : Prop :=
  ∃ h, s = text "0x" ++ h ∧ h ≠ [] ∧ (∀ c ∈ h, (digit c).isSome) ∧ value h = v

/-- The data is a selector and the bytes of the arguments. -/
def Transaction.Carries (tx : Transaction) (selector args : Bytes) : Prop :=
  ∃ h, tx.data = text "0x" ++ h ∧ Spells h (selector ++ args)

theorem Transaction.Carries.unique {tx : Transaction} {selector args args' : Bytes}
    (h : tx.Carries selector args) (h' : tx.Carries selector args') : args = args' := by
  obtain ⟨digits, hdata, hs⟩ := h
  obtain ⟨digits', hdata', hs'⟩ := h'
  rw [hdata, List.append_cancel_left_eq] at hdata'
  subst hdata'
  exact List.append_cancel_left (hs.unique hs')

/-- The string of an address in lower case. -/
def nameOf (a : Address) : Bytes := text "0x" ++ toHex (packAddress a)

theorem names_nameOf (a : Address) : Names (nameOf a) a :=
  ⟨_, Onchain.spells_to_hex _, Or.inr (Or.inl rfl)⟩

theorem lt_pow_succ_self (v : Nat) : v < 16 ^ (v + 1) := by
  calc v < v + 1 := Nat.lt_succ_self v
    _ < 16 ^ (v + 1) := Nat.lt_pow_self (by decide)

theorem hexNumber_succ (n v : Nat) : hexNumber (n + 1) v =
    if v < 16 then [hex (BitVec.ofNat 4 v)] else hexNumber n (v / 16) ++ [hex (BitVec.ofNat 4 v)] :=
  rfl

/-- The digits of a number do not depend on how many are allowed. -/
theorem hexNumber_eq {m n v : Nat} (hm : v < 16 ^ (m + 1)) (hn : v < 16 ^ (n + 1)) :
    hexNumber (m + 1) v = hexNumber (n + 1) v := by
  induction m generalizing n v with
  | zero =>
      have hsmall : v < 16 := hm
      rw [hexNumber_succ, hexNumber_succ n, if_pos hsmall, if_pos hsmall]
  | succ m ih =>
      rw [hexNumber_succ (m + 1), hexNumber_succ n]
      by_cases hsmall : v < 16
      · rw [if_pos hsmall, if_pos hsmall]
      · rw [if_neg hsmall, if_neg hsmall]
        cases n with
        | zero => exact absurd hn hsmall
        | succ n =>
            rw [ih (n := n)]
            · exact Nat.div_lt_of_lt_mul (by rwa [Nat.pow_succ'] at hm)
            · exact Nat.div_lt_of_lt_mul (by rwa [Nat.pow_succ'] at hn)

theorem digits_hexNumber (n v : Nat) : ∀ c ∈ hexNumber n v, (digit c).isSome := by
  induction n generalizing v with
  | zero => simp [hexNumber]
  | succ n ih =>
      have hone : ∀ c ∈ [hex (BitVec.ofNat 4 v)], (digit c).isSome := by
        intro c hc
        rw [List.mem_singleton.mp hc, Onchain.digit_hex]
        rfl
      rw [hexNumber]
      split
      · exact hone
      · intro c hc
        rcases List.mem_append.mp hc with hc | hc
        · exact ih _ c hc
        · exact hone c hc

theorem value_hexNumber {n v : Nat} (hv : v < 16 ^ n) : value (hexNumber n v) = v := by
  induction n generalizing v with
  | zero =>
      obtain rfl : v = 0 := by omega
      rfl
  | succ n ih =>
      have hlast : (digit (hex (BitVec.ofNat 4 v))).getD 0 = v % 16 := by
        rw [Onchain.digit_hex, Option.getD_some, BitVec.toNat_ofNat]
      rw [hexNumber]
      split
      · next hsmall =>
          rw [← List.nil_append [hex _], Onchain.value_concat, hlast, Nat.mod_eq_of_lt hsmall]
          exact Nat.zero_add v
      · rw [Onchain.value_concat, hlast, ih]
        · omega
        · exact Nat.div_lt_of_lt_mul (by rwa [Nat.pow_succ'] at hv)

/-- A quantity is sent as it is. -/
theorem denotes_toString16 (v : Nat) : Denotes (text "0x" ++ toString16 v) v := by
  refine ⟨toString16 v, rfl, ?_, digits_hexNumber _ _, value_hexNumber (lt_pow_succ_self v)⟩
  rw [toString16, hexNumber]
  split
  · exact List.cons_ne_nil _ _
  · exact List.append_ne_nil_of_right_ne_nil _ (List.cons_ne_nil _ _)

/-- `encUint` spells the word of its argument. -/
theorem encUint_eq (v : U256) : encUint v.toNat = toHex (packWord v) := by
  have hv : v.toNat < 16 ^ (63 + 1) := v.isLt
  rw [encUint, padStart, toString16, hexNumber_eq (lt_pow_succ_self _) hv, packWord,
    Onchain.to_hex_bigEndian]
  exact Onchain.padded_hexNumber (by decide) hv

theorem spells_encUint (v : U256) : Spells (encUint v.toNat) (packWord v) := by
  rw [encUint_eq]
  exact Onchain.spells_to_hex _

theorem spells_encUint_ofNat {v : Nat} (hv : v < 2 ^ 256) :
    Spells (encUint v) (packWord (BitVec.ofNat 256 v)) := by
  have h := spells_encUint (BitVec.ofNat 256 v)
  rwa [BitVec.toNat_ofNat, Nat.mod_eq_of_lt hv] at h

/-- The word of an address is twelve zeros and its bytes. -/
theorem packWord_setWidth (a : Address) :
    packWord (a.setWidth 256) = List.replicate 12 0 ++ packAddress a := by
  have hlt : a.toNat < 16 ^ 40 := a.isLt
  have hwide : (a.setWidth 256).toNat = a.toNat := by
    rw [BitVec.toNat_setWidth, Nat.mod_eq_of_lt (by omega)]
  have hdigits : toHex (packWord (a.setWidth 256)) =
      List.replicate 24 0x30 ++ toHex (packAddress a) := by
    rw [packWord, packAddress, hwide, Onchain.to_hex_bigEndian, Onchain.to_hex_bigEndian,
      show 2 * 32 = 24 + 2 * 20 from rfl, Onchain.nibbles_add, Nat.div_eq_of_lt hlt,
      Onchain.nibbles_zero]
  have hspells : Spells (toHex (packWord (a.setWidth 256)))
      (List.replicate 12 0 ++ packAddress a) := by
    rw [hdigits]
    exact (Onchain.spells_zeros 12).append (Onchain.spells_to_hex _)
  exact (Onchain.spells_to_hex _).unique hspells

/-- Digits have no prefix to cut. -/
theorem replace0x_digits {h : Bytes} (hdigits : ∀ c ∈ h, (digit c).isSome) : replace0x h = h := by
  match h, hdigits with
  | [], _ => rfl
  | [a], _ => rfl
  | a :: b :: h, hdigits =>
      have hb := (Onchain.digit_facts b (hdigits b (by simp))).2.2.2.1
      rw [replace0x, if_neg (fun hx => hb hx.2)]

/-- **`encAddr` spells the word of the address that its argument names.** -/
theorem spells_encAddr {addr : Bytes} {a : Address} (h : Names addr a) :
    Spells (encAddr addr) (packWord (a.setWidth 256)) := by
  obtain ⟨digits, hspells, hform⟩ := h
  have hlower := hspells.to_hex_eq
  have hplain : replace0x (digits.map lower) = toHex (packAddress a) := by
    rw [← hlower]
    exact replace0x_digits (Onchain.spells_to_hex _).digits
  have hcut : replace0x (addr.map lower) = toHex (packAddress a) := by
    rcases hform with rfl | rfl | rfl
    · exact hplain
    · exact hlower.symm
    · exact hlower.symm
  have hlength : (toHex (packAddress a)).length = 40 := by
    rw [(Onchain.spells_to_hex _).length, length_packAddress]
  rw [encAddr, hcut, padStart, hlength, packWord_setWidth]
  exact (Onchain.spells_zeros 12).append (Onchain.spells_to_hex _)

theorem spells_elements {names : List Bytes} {as : List Address} (h : List.Forall₂ Names names as) :
    Spells (names.flatMap encAddr) (Abi.elements as) := by
  induction h with
  | nil => exact .nil
  | cons hname _ ih =>
      rw [List.flatMap_cons, Abi.elements_cons]
      exact (spells_encAddr hname).append ih

/-- A string names one address. -/
theorem Names.unique {addr : Bytes} {a b : Address} (ha : Names addr a) (hb : Names addr b) :
    a = b := by
  have hword := packWord_inj ((spells_encAddr ha).unique (spells_encAddr hb))
  have htoNat := congrArg BitVec.toNat hword
  have halt := a.isLt
  have hblt := b.isLt
  apply BitVec.eq_of_toNat_eq
  simp only [BitVec.toNat_setWidth] at htoNat
  omega

/-! ## Parts of a spelling -/

theorem spells_drop {h bs : Bytes} (hs : Spells h bs) (k : Nat) :
    Spells (h.drop (2 * k)) (bs.drop k) := by
  induction k generalizing h bs with
  | zero => exact hs
  | succ k ih =>
      cases hs with
      | nil => exact .nil
      | cons _ _ _ hrest => exact ih hrest

theorem spells_take {h bs : Bytes} (hs : Spells h bs) (k : Nat) :
    Spells (h.take (2 * k)) (bs.take k) := by
  induction k generalizing h bs with
  | zero => exact .nil
  | succ k ih =>
      cases hs with
      | nil => exact .nil
      | cons ha hb hx hrest => exact .cons ha hb hx (ih hrest)

theorem BigInt0x_digits {s : Bytes} (hne : s ≠ []) (hdigits : ∀ c ∈ s, (digit c).isSome) :
    BigInt0x s = some (value s) := by
  have hkept : s.reverse.dropWhile Onchain.isspace = s.reverse := by
    cases hrev : s.reverse with
    | nil => rfl
    | cons c rest =>
        have hc : c ∈ s := by
          rw [← List.mem_reverse, hrev]
          exact List.mem_cons_self
        rw [List.dropWhile_cons, (Onchain.digit_facts c (hdigits c hc)).1]
        rfl
  unfold BigInt0x
  dsimp only
  rw [hkept, List.reverse_reverse, if_pos ⟨hne, hdigits⟩]

/-- The digits of a word are read as its number. -/
theorem BigInt0x_word {h : Bytes} {w : U256} (hs : Spells h (packWord w)) :
    BigInt0x h = some w.toNat := by
  have hlen : h.length = 64 := by rw [hs.length, length_packWord]
  have hlt : value h < 16 ^ 64 := by
    rw [← hlen]
    exact Onchain.value_lt h
  have hword := packWord_inj ((Onchain.spells_word hlen hs.digits).unique hs)
  rw [BigInt0x_digits (List.ne_nil_of_length_pos (by omega)) hs.digits, ← hword, BitVec.toNat_ofNat,
    Nat.mod_eq_of_lt (by omega)]

/-! ## What is sent -/

namespace BracketManager

/-- The arguments of `createBracket`: the number 64, and the list. -/
def created (as : List Address) : Bytes := packWord 64 ++ Abi.arrayTail as

/-- The arguments of `reportWinners`: the id, the number 64, and the list. -/
def reported (id : U256) (as : List Address) : Bytes :=
  packWord id ++ (packWord 64 ++ Abi.arrayTail as)

theorem spells_list {names : List Bytes} {as : List Address} (h : List.Forall₂ Names names as)
    (hlen : names.length < 2 ^ 32) :
    Spells (encUint names.length ++ names.flatMap encAddr) (Abi.arrayTail as) := by
  rw [Abi.arrayTail, ← h.length_eq]
  exact (spells_encUint_ofNat (by omega)).append (spells_elements h)

/-- **The layout of `createBracket`.** -/
theorem createBracket_carries (page : Page) {players : JsArray Bytes} {as : List Address}
    (h : List.Forall₂ Names players.toList as) (prize : Nat) :
    (createBracket page players prize).Carries [0x86, 0xe5, 0xc8, 0x92] (created as) := by
  have hselector : Spells createBracketSelector [0x86, 0xe5, 0xc8, 0x92] :=
    Onchain.spells_to_hex [0x86, 0xe5, 0xc8, 0x92]
  have hoffset : Spells (encUint (32 * 2)) (packWord 64) := spells_encUint 64
  refine ⟨_, rfl, ?_⟩
  rw [List.append_assoc, List.append_assoc]
  exact hselector.append (hoffset.append (spells_list h players.length_lt))

/-- The prize is sent along as it is. -/
theorem createBracket_value (page : Page) (players : JsArray Bytes) (prize : Nat) :
    Denotes (createBracket page players prize).value prize := denotes_toString16 prize

/-- **The layout of `reportWinners`.** -/
theorem reportWinners_carries (page : Page) (id : U256) {winners : JsArray Bytes}
    {as : List Address} (h : List.Forall₂ Names winners.toList as) :
    (reportWinners page id.toNat winners).Carries [0x77, 0x3e, 0xe7, 0xd0] (reported id as) := by
  have hselector : Spells reportWinnersSelector [0x77, 0x3e, 0xe7, 0xd0] :=
    Onchain.spells_to_hex [0x77, 0x3e, 0xe7, 0xd0]
  have hoffset : Spells (encUint (32 * 2)) (packWord 64) := spells_encUint 64
  refine ⟨_, rfl, ?_⟩
  rw [List.append_assoc, List.append_assoc, List.append_assoc]
  apply hselector.append
  apply (spells_encUint id).append
  exact hoffset.append (spells_list h winners.length_lt)

/-- **The contract reads a shorter list.** At the offset 64 stands the first player, and as many
words as that number says do not follow unless it is less than the number of players. -/
theorem created_shorter {as as' : List Address}
    (h : Abi.addressArrayAt (created as) 0 = some as') : as'.length < as.length := by
  obtain ⟨offset, hoffset, -, hfits⟩ := Abi.addressArrayAt_fits h
  obtain rfl : 64 = offset := by
    rw [created, Abi.wordAt_packWord] at hoffset
    exact Option.some.inj hoffset
  rw [created, List.length_append, length_packWord, Abi.length_arrayTail] at hfits
  have hplace : (64 : U256).toNat = 64 := rfl
  omega

theorem reported_read (id : U256) {as : List Address} (has : as.length < 2 ^ 32) :
    Abi.wordAt (reported id as) 0 = some id ∧ Abi.addressArrayAt (reported id as) 32 = some as := by
  refine ⟨Abi.wordAt_packWord _ _, ?_⟩
  have hfront : (packWord id ++ packWord 64).length = 64 := by
    rw [List.length_append, length_packWord, length_packWord]
  have hsplit : reported id as = (packWord id ++ packWord 64) ++ (Abi.arrayTail as ++ []) := by
    rw [reported, List.append_nil, List.append_assoc]
  have hoffset : Abi.wordAt (reported id as) 32 = some 64 :=
    (Abi.wordAt_packWord_add id _ 0).trans (Abi.wordAt_packWord _ _)
  rw [hsplit] at hoffset ⊢
  apply Abi.addressArrayAt_tail
  · omega
  · omega
  · rw [hoffset, hfront]
    rfl

/-! ## What is read -/

/-- The node answers with the standard encoding of the list. -/
def Answers (page : Page) (ethCall : Bytes → Bytes → Option Bytes) (id : Nat)
    (as : List Address) : Prop :=
  ∃ h, ethCall page.tournamentAddr (text "0x" ++ (playersSelector ++ encUint id)) =
      some (text "0x" ++ h) ∧
    Spells h (packWord 32 ++ Abi.arrayTail as)

/-- The offset of the list is taken for its length. -/
theorem readPlayers_answer {h rest : Bytes} (hs : Spells h (packWord 32 ++ rest)) :
    readPlayers (text "0x" ++ h) = some ((List.range 32).map (player (text "0x" ++ h))) := by
  have hfirst : Spells (slice (text "0x" ++ h) 2 66) (packWord 32) := by
    have htake := spells_take hs 32
    rwa [List.take_left' (length_packWord _)] at htake
  unfold readPlayers
  rw [BigInt0x_word hfirst]
  rfl

/-- Round `i` reads the address of the `i`-th word behind the first. -/
theorem names_player {h : Bytes} {as : List Address} {a : Address} {i : Nat}
    (hs : Spells h (packWord 32 ++ Abi.elements as)) (hi : as[i]? = some a) :
    Names (player (text "0x" ++ h) i) a := by
  obtain ⟨hlt, rfl⟩ := List.getElem?_eq_some_iff.mp hi
  refine ⟨slice (text "0x" ++ h) (66 + i * 64 + 24) (66 + i * 64 + 24 + 40), ?_,
    Or.inr (Or.inl rfl)⟩
  have hpart := spells_take (spells_drop hs (32 + (32 * i + 12))) 20
  have hbytes : ((packWord 32 ++ Abi.elements as).drop (32 + (32 * i + 12))).take 20 =
      packAddress as[i] := by
    rw [← List.drop_drop, List.drop_left' (length_packWord _), ← List.drop_drop, Abi.drop_elements,
      List.drop_eq_getElem_cons hlt, Abi.elements_cons, packWord_setWidth, List.append_assoc,
      List.drop_left' List.length_replicate, List.take_left' (length_packAddress _)]
  have hplace : slice (text "0x" ++ h) (66 + i * 64 + 24) (66 + i * 64 + 24 + 40) =
      (h.drop (2 * (32 + (32 * i + 12)))).take (2 * 20) := by
    rw [slice, show 66 + i * 64 + 24 = 2 + 2 * (32 + (32 * i + 12)) by omega, ← List.drop_drop,
      Nat.add_sub_cancel_left]
    rfl
  rw [hplace, ← hbytes]
  exact hpart

/-- A list of 32 addresses is read one place late, behind its own length. -/
theorem names_player_late {h : Bytes} {as : List Address} {a : Address} {i : Nat}
    (hlen : as.length = 32) (hs : Spells h (packWord 32 ++ Abi.arrayTail as))
    (hi : (32 :: as)[i]? = some a) : Names (player (text "0x" ++ h) i) a := by
  have htail : Abi.arrayTail as = Abi.elements (32 :: as) := by
    rw [Abi.arrayTail, hlen, Abi.elements_cons]
    rfl
  rw [htail] at hs
  exact names_player hs hi

/-- Whatever comes one place late and is in its place all the same is all alike. -/
theorem eq_replicate_of_late {α : Type} {as : List α} {x : α}
    (h : ∀ i < as.length, as[i]? = (x :: as)[i]?) : as = List.replicate as.length x := by
  have hall : ∀ i < as.length, as[i]? = some x := by
    intro i
    induction i with
    | zero => exact h 0
    | succ i ih =>
        intro hi
        rw [h _ hi, List.getElem?_cons_succ]
        exact ih (by omega)
  apply List.eq_replicate_iff.mpr
  refine ⟨rfl, ?_⟩
  intro b hb
  obtain ⟨i, hi, rfl⟩ := List.mem_iff_getElem.mp hb
  have hx := hall i hi
  rw [List.getElem?_eq_getElem hi] at hx
  exact Option.some.inj hx

/-! ## The calls against the ABI -/

/-- The contract takes the players out of the data, and the prize is what is sent along. -/
def CreateDecodes (page : Page) (players : JsArray Bytes) (as : List Address) (prize : Nat) : Prop :=
  Denotes (createBracket page players prize).value prize ∧
  ∃ args, (createBracket page players prize).Carries [0x86, 0xe5, 0xc8, 0x92] args ∧
    Abi.addressArrayAt args 0 = some as

/-- The contract takes the id and the winners out of the data. -/
def ReportDecodes (page : Page) (id : U256) (winners : JsArray Bytes) (as : List Address) : Prop :=
  ∃ args, (reportWinners page id.toNat winners).Carries [0x77, 0x3e, 0xe7, 0xd0] args ∧
    Abi.wordAt args 0 = some id ∧ Abi.addressArrayAt args 32 = some as

/-- The page reads the list out of every standard answer. -/
def PlayersRead (page : Page) (as : List Address) : Prop :=
  ∀ ethCall id, Answers page ethCall id as →
    ∃ names, getPlayers page ethCall id = some names ∧ List.Forall₂ Names names as

theorem not_createDecodes (page : Page) {players : JsArray Bytes} {as : List Address}
    (h : List.Forall₂ Names players.toList as) (prize : Nat) :
    ¬ CreateDecodes page players as prize := by
  intro hdecodes
  obtain ⟨-, args, hcarries, hread⟩ := hdecodes
  obtain rfl := hcarries.unique (createBracket_carries page h prize)
  exact Nat.lt_irrefl _ (created_shorter hread)

theorem reportDecodes (page : Page) (id : U256) {winners : JsArray Bytes} {as : List Address}
    (h : List.Forall₂ Names winners.toList as) : ReportDecodes page id winners as := by
  have hlen : as.length < 2 ^ 32 := by
    rw [← h.length_eq]
    exact winners.length_lt
  exact ⟨_, reportWinners_carries page id h, reported_read id hlen⟩

/-- What `getPlayers` makes of a standard answer. -/
theorem getPlayers_answer {page : Page} {ethCall : Bytes → Bytes → Option Bytes} {id : Nat}
    {as : List Address} (hanswer : Answers page ethCall id as) :
    ∃ h, Spells h (packWord 32 ++ Abi.arrayTail as) ∧ getPlayers page ethCall id =
      some ((List.range 32).map (player (text "0x" ++ h))) := by
  obtain ⟨h, hres, hs⟩ := hanswer
  refine ⟨h, hs, ?_⟩
  rw [getPlayers, hres]
  exact readPlayers_answer hs

theorem playersRead_iff (page : Page) (as : List Address) :
    PlayersRead page as ↔ as = List.replicate 32 32 := by
  constructor
  · intro hread
    -- a node whose answer is the list, whatever it is asked
    let res := toHex (packWord 32 ++ Abi.arrayTail as)
    have hanswer : Answers page (fun _ _ => some (text "0x" ++ res)) 0 as :=
      ⟨res, rfl, Onchain.spells_to_hex _⟩
    obtain ⟨h, hs, hget⟩ := getPlayers_answer hanswer
    obtain ⟨names, hnames, hall⟩ := hread _ _ hanswer
    obtain rfl := Option.some.inj (hget.symm.trans hnames)
    have hlen : as.length = 32 := by
      rw [← hall.length_eq, List.length_map, List.length_range]
    rw [← hlen]
    apply eq_replicate_of_late
    intro i hi
    have hlate : i < (32 :: as).length := by
      rw [List.length_cons]
      omega
    have hplace := hall.get (by rw [List.length_map, List.length_range]; omega) hi
    rw [List.get_eq_getElem, List.get_eq_getElem, List.getElem_map, List.getElem_range] at hplace
    have hread := names_player_late hlen hs (List.getElem?_eq_getElem hlate)
    rw [List.getElem?_eq_getElem hi, List.getElem?_eq_getElem hlate, hplace.unique hread]
  · intro heq ethCall id hanswer
    obtain ⟨h, hs, hget⟩ := getPlayers_answer hanswer
    refine ⟨_, hget, ?_⟩
    have hlen : as.length = 32 := by rw [heq, List.length_replicate]
    apply List.forall₂_iff_get.mpr
    refine ⟨by rw [List.length_map, List.length_range, hlen], ?_⟩
    intro i hi hi'
    rw [List.get_eq_getElem, List.get_eq_getElem, List.getElem_map, List.getElem_range]
    apply names_player_late hlen hs
    -- all entries of the list, and its length, are 32
    subst heq
    rw [List.getElem_replicate]
    show (List.replicate 33 (32 : Address))[i]? = some 32
    rw [List.getElem?_replicate, if_pos (by omega)]

/-- Two players: the contract is sent one of them, and the page shows 32 strings for the two. -/
theorem two_players_lost :
    ¬ (∀ page players as prize id, List.Forall₂ Names players.toList as →
        CreateDecodes page players as prize ∧ ReportDecodes page id players as ∧
          PlayersRead page as) ∧
      Abi.addressArrayAt (created [1, 2]) 0 = some [2] ∧
      readPlayers (text "0x" ++ toHex (packWord 32 ++ Abi.arrayTail [1, 2])) =
        some ([nameOf 2, nameOf 1, nameOf 2] ++ List.replicate 29 (text "0x")) := by
  refine ⟨?_, by decide +kernel, by decide +kernel⟩
  intro hall
  have hnames : List.Forall₂ Names [nameOf 1, nameOf 2] [1, 2] :=
    .cons (names_nameOf 1) (.cons (names_nameOf 2) .nil)
  obtain ⟨hcreate, -, -⟩ :=
    hall ⟨nameOf 0⟩ ⟨[nameOf 1, nameOf 2], by decide⟩ [1, 2] 5 0 hnames
  exact not_createDecodes _ hnames 5 hcreate

/-- **When the calls are as the ABI has them.** `createBracket` for no list of players; the data of
`reportWinners` for every id and every list; and the result of `getPlayers` for one list alone, 32
times the address 32. -/
theorem calls_decoded_iff (page : Page) {players : JsArray Bytes} {as : List Address}
    (hnames : List.Forall₂ Names players.toList as) (prize : Nat) (id : U256)
    (listed : List Address) :
    ¬ CreateDecodes page players as prize ∧ ReportDecodes page id players as ∧
      (PlayersRead page listed ↔ listed = List.replicate 32 32) :=
  ⟨not_createDecodes page hnames prize, reportDecodes page id hnames, playersRead_iff page listed⟩

theorem calls_decoded_iff_two :
    ¬ CreateDecodes ⟨nameOf 0⟩ ⟨[nameOf 7, nameOf 8], by decide⟩ [7, 8] 5 ∧
      ReportDecodes ⟨nameOf 0⟩ 3 ⟨[nameOf 7, nameOf 8], by decide⟩ [7, 8] ∧
      (PlayersRead ⟨nameOf 0⟩ [7, 8] ↔ [(7 : Address), 8] = List.replicate 32 32) := by
  apply calls_decoded_iff
  exact .cons (names_nameOf 7) (.cons (names_nameOf 8) .nil)

end BracketManager

end ChainBeasts.Client
