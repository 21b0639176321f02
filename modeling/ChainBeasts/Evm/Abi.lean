import ChainBeasts.Evm.Packed

/-! # Reading the arguments of a call

What Solidity's decoder takes from the bytes after a selector. The head has a word for each
argument; the word of a `bytes` argument is the offset at which its length and its contents are, and
that may be anywhere in the arguments. Whatever does not lie within them, and an offset or a length
of `2 ^ 64` or more, makes the call revert: `none`.

Every reader is characterized by what stands in the arguments, `wordAt_eq_some`, `addressAt_eq_some`
and `bytesAt_eq_some`. The standard encoding of a `bytes` value is its `tail`, that of an `address[]`
its `arrayTail`. -/

namespace ChainBeasts.Evm.Abi

/-! ## Words -/

/-- The number that bytes are read as, most significant first. -/
def ofBytes (bs : Bytes) : Nat := bs.foldl (fun v b => v * 256 + b.toNat) 0

theorem ofBytes_concat (bs : Bytes) (b : BitVec 8) :
    ofBytes (bs ++ [b]) = ofBytes bs * 256 + b.toNat := by
  rw [ofBytes, List.foldl_append]
  rfl

theorem ofBytes_bigEndian {n x : Nat} (hx : x < 256 ^ n) : ofBytes (bigEndian n x) = x := by
  induction n generalizing x with
  | zero =>
      obtain rfl : x = 0 := by omega
      rfl
  | succ n ih =>
      have hhigh : x / 256 < 256 ^ n := Nat.div_lt_of_lt_mul (by rwa [Nat.pow_succ'] at hx)
      rw [bigEndian, ofBytes_concat, ih hhigh, BitVec.toNat_ofNat]
      omega

theorem ofBytes_lt (bs : Bytes) : ofBytes bs < 256 ^ bs.length := by
  induction bs using List.reverseRecOn with
  | nil => exact Nat.one_pos
  | append_singleton bs b ih =>
      rw [ofBytes_concat, List.length_append, List.length_singleton, Nat.pow_succ]
      have hb := b.isLt
      omega

theorem bigEndian_ofBytes (bs : Bytes) : bigEndian bs.length (ofBytes bs) = bs := by
  induction bs using List.reverseRecOn with
  | nil => rfl
  | append_singleton bs b ih =>
      have hb := b.isLt
      have hhigh : (ofBytes bs * 256 + b.toNat) / 256 = ofBytes bs := by omega
      have hlow : BitVec.ofNat 8 (ofBytes bs * 256 + b.toNat) = b := by
        apply BitVec.eq_of_toNat_eq
        rw [BitVec.toNat_ofNat]
        omega
      rw [ofBytes_concat, List.length_append, List.length_singleton, bigEndian, hhigh, hlow, ih]

/-- The word at `i`, if it lies within the arguments. -/
def wordAt (args : Bytes) (i : Nat) : Option U256 :=
  if i + 32 ≤ args.length then some (BitVec.ofNat 256 (ofBytes ((args.drop i).take 32))) else none

/-- **A word is read where its bytes are.** -/
theorem wordAt_eq_some {args : Bytes} {i : Nat} {w : U256} :
    wordAt args i = some w ↔ packWord w <+: args.drop i := by
  unfold wordAt
  rw [Option.ite_none_right_eq_some, Option.some.injEq]
  constructor
  · rintro ⟨hlen, rfl⟩
    have hbytes : ((args.drop i).take 32).length = 32 := by
      rw [List.length_take, List.length_drop]
      omega
    have hlt : ofBytes ((args.drop i).take 32) < 2 ^ 256 := by
      calc ofBytes ((args.drop i).take 32) < 256 ^ ((args.drop i).take 32).length := ofBytes_lt _
        _ = 2 ^ 256 := by
            rw [hbytes]
            rfl
    have hword := bigEndian_ofBytes ((args.drop i).take 32)
    rw [hbytes] at hword
    rw [packWord, BitVec.toNat_ofNat, Nat.mod_eq_of_lt hlt, hword]
    exact List.take_prefix _ _
  · intro hpre
    have hlen := hpre.length_le
    rw [length_packWord, List.length_drop] at hlen
    have htake : (args.drop i).take 32 = packWord w := by
      have := List.prefix_iff_eq_take.mp hpre
      rw [length_packWord] at this
      exact this.symm
    refine ⟨by omega, ?_⟩
    rw [htake, packWord, ofBytes_bigEndian w.isLt, BitVec.ofNat_toNat, BitVec.setWidth_eq]

@[simp] theorem wordAt_packWord (w : U256) (back : Bytes) :
    wordAt (packWord w ++ back) 0 = some w := wordAt_eq_some.mpr (List.prefix_append _ _)

/-- What comes before a word, and what comes after it, does not matter. -/
theorem wordAt_append_right (front back : Bytes) (i : Nat) :
    wordAt (front ++ back) (front.length + i) = wordAt back i := by
  unfold wordAt
  rw [List.drop_length_add_append, List.length_append, Nat.add_assoc]
  simp only [Nat.add_le_add_iff_left]

theorem wordAt_append_left {front back : Bytes} {i : Nat} (h : i + 32 ≤ front.length) :
    wordAt (front ++ back) i = wordAt front i := by
  unfold wordAt
  rw [List.length_append, if_pos (by omega), if_pos h, List.drop_append_of_le_length (by omega),
    List.take_append_of_le_length (by rw [List.length_drop]; omega)]

/-- The word after a word. -/
theorem wordAt_packWord_add (w : U256) (back : Bytes) (i : Nat) :
    wordAt (packWord w ++ back) (32 + i) = wordAt back i := by
  have := wordAt_append_right (packWord w) back i
  rwa [length_packWord] at this

/-! ## Addresses and byte strings -/

/-- The word of an address has nothing above its 160 bits. -/
def addressAt (args : Bytes) (i : Nat) : Option Address := do
  let w ← wordAt args i
  if w.toNat < 2 ^ 160 then some (w.setWidth 160) else none

theorem addressAt_eq_some {args : Bytes} {i : Nat} {a : Address} :
    addressAt args i = some a ↔ wordAt args i = some (a.setWidth 256) := by
  unfold addressAt
  simp only [Option.bind_eq_bind, Option.bind_eq_some_iff, Option.ite_none_right_eq_some,
    Option.some.injEq]
  have ha := a.isLt
  constructor
  · rintro ⟨w, hw, hlt, rfl⟩
    rw [hw]
    congr 1
    apply BitVec.eq_of_toNat_eq
    simp only [BitVec.toNat_setWidth]
    omega
  · intro hw
    refine ⟨_, hw, ?_, ?_⟩
    · rw [BitVec.toNat_setWidth]
      omega
    · apply BitVec.eq_of_toNat_eq
      simp only [BitVec.toNat_setWidth]
      omega

/-- The byte string whose offset is the word at `i`. -/
def bytesAt (args : Bytes) (i : Nat) : Option Bytes := do
  let offset ← wordAt args i
  if offset.toNat < 2 ^ 64 then
    let length ← wordAt args offset.toNat
    if length.toNat < 2 ^ 64 ∧ offset.toNat + 32 + length.toNat ≤ args.length then
      some ((args.drop (offset.toNat + 32)).take length.toNat)
    else none
  else none

/-- A length, and as many bytes. -/
def counted (bs : Bytes) : Bytes := packWord (BitVec.ofNat 256 bs.length) ++ bs

/-- The place `offset` of the arguments is one for the byte string. -/
def StandsAt (args : Bytes) (offset : U256) (bs : Bytes) : Prop :=
  offset.toNat < 2 ^ 64 ∧ bs.length < 2 ^ 64 ∧ counted bs <+: args.drop offset.toNat

/-- **A byte string is read where its length and its bytes are.** -/
theorem bytesAt_eq_some {args bs : Bytes} {i : Nat} :
    bytesAt args i = some bs ↔ ∃ offset, wordAt args i = some offset ∧ StandsAt args offset bs := by
  unfold bytesAt StandsAt
  simp only [Option.bind_eq_bind, Option.bind_eq_some_iff, Option.ite_none_right_eq_some,
    Option.some.injEq]
  apply exists_congr
  intro offset
  apply and_congr_right
  intro _
  apply and_congr_right
  intro _
  constructor
  · rintro ⟨length, hword, ⟨hlength, hlen⟩, rfl⟩
    have hcount : ((args.drop (offset.toNat + 32)).take length.toNat).length = length.toNat := by
      rw [List.length_take, List.length_drop]
      omega
    obtain ⟨rest, hrest⟩ := wordAt_eq_some.mp hword
    have hdrop : args.drop (offset.toNat + 32) = rest := by
      rw [← List.drop_drop, ← hrest, List.drop_left' (length_packWord _)]
    refine ⟨by omega, ?_⟩
    rw [counted, hcount, BitVec.ofNat_toNat, BitVec.setWidth_eq, hdrop, ← hrest,
      List.prefix_append_right_inj]
    exact List.take_prefix _ _
  · rintro ⟨hlength, hpre⟩
    have hword : wordAt args offset.toNat = some (BitVec.ofNat 256 bs.length) :=
      wordAt_eq_some.mpr ((List.prefix_append _ _).trans hpre)
    have hcount : (BitVec.ofNat 256 bs.length).toNat = bs.length := by
      rw [BitVec.toNat_ofNat, Nat.mod_eq_of_lt (by omega)]
    obtain ⟨rest, hrest⟩ := hpre
    have hlen := congrArg List.length hrest
    rw [counted, List.length_append, List.length_append, length_packWord, List.length_drop] at hlen
    refine ⟨_, hword, ⟨by omega, by omega⟩, ?_⟩
    rw [hcount, ← List.drop_drop, ← hrest, counted, List.append_assoc,
      List.drop_left' (length_packWord _), List.take_left]

/-! ## The standard encoding -/

/-- Zeros up to a whole number of words. -/
def padding (n : Nat) : Bytes := List.replicate ((32 - n % 32) % 32) 0

def tail (bs : Bytes) : Bytes := counted bs ++ padding bs.length

theorem dvd_length_padded (bs : Bytes) : 32 ∣ (bs ++ padding bs.length).length := by
  rw [List.length_append, padding, List.length_replicate]
  omega

theorem dvd_length_tail (bs : Bytes) : 32 ∣ (tail bs).length := by
  rw [tail, counted, List.append_assoc, List.length_append, length_packWord]
  exact Nat.dvd_add (Nat.dvd_refl 32) (dvd_length_padded bs)

/-- A value whose tail comes after `front` is read through the offset `front.length`. -/
theorem bytesAt_tail {front bs back : Bytes} {i : Nat} (hfront : front.length < 2 ^ 64)
    (hbs : bs.length < 2 ^ 64)
    (hoffset : wordAt (front ++ (tail bs ++ back)) i = some (BitVec.ofNat 256 front.length)) :
    bytesAt (front ++ (tail bs ++ back)) i = some bs := by
  have hcount : (BitVec.ofNat 256 front.length).toNat = front.length := by
    rw [BitVec.toNat_ofNat, Nat.mod_eq_of_lt (by omega)]
  apply bytesAt_eq_some.mpr
  refine ⟨_, hoffset, ?_, hbs, ?_⟩
  · rw [hcount]
    exact hfront
  · rw [hcount, List.drop_left, tail, List.append_assoc]
    exact List.prefix_append _ _

/-! ## Lists of addresses -/

/-- The `n` addresses whose words start at `i`. -/
def addressesAt (args : Bytes) : Nat → Nat → Option (List Address)
  | _, 0 => some []
  | i, n + 1 => do
    let a ← addressAt args i
    let rest ← addressesAt args (i + 32) n
    return a :: rest

/-- The list of addresses whose offset is the word at `i`. -/
def addressArrayAt (args : Bytes) (i : Nat) : Option (List Address) := do
  let offset ← wordAt args i
  if offset.toNat < 2 ^ 64 then
    let length ← wordAt args offset.toNat
    if length.toNat < 2 ^ 64 ∧ offset.toNat + 32 + 32 * length.toNat ≤ args.length then
      addressesAt args (offset.toNat + 32) length.toNat
    else none
  else none

/-- A word for each of the addresses. -/
def elements (as : List Address) : Bytes := as.flatMap fun a => packWord (a.setWidth 256)

/-- The tail of a list of addresses. -/
def arrayTail (as : List Address) : Bytes :=
  packWord (BitVec.ofNat 256 as.length) ++ elements as

theorem elements_cons (a : Address) (as : List Address) :
    elements (a :: as) = packWord (a.setWidth 256) ++ elements as := List.flatMap_cons

@[simp] theorem length_elements (as : List Address) : (elements as).length = 32 * as.length := by
  induction as with
  | nil => rfl
  | cons a as ih =>
      rw [elements_cons, List.length_append, length_packWord, ih, List.length_cons]
      omega

@[simp] theorem length_arrayTail (as : List Address) :
    (arrayTail as).length = 32 + 32 * as.length := by
  rw [arrayTail, List.length_append, length_packWord, length_elements]

/-- The words from the `k`-th on are those of the addresses from the `k`-th on. -/
theorem drop_elements (as : List Address) (k : Nat) :
    (elements as).drop (32 * k) = elements (as.drop k) := by
  induction k generalizing as with
  | zero => rfl
  | succ k ih =>
      cases as with
      | nil => rfl
      | cons a as =>
          have hone : (elements (a :: as)).drop 32 = elements as := List.drop_left' (length_packWord _)
          rw [Nat.mul_succ, Nat.add_comm, ← List.drop_drop, hone, ih, List.drop_succ_cons]

theorem length_addressesAt {args : Bytes} {i n : Nat} {as : List Address}
    (h : addressesAt args i n = some as) : as.length = n := by
  induction n generalizing i as with
  | zero =>
      obtain rfl := Option.some.inj h
      rfl
  | succ n ih =>
      simp only [addressesAt, Option.bind_eq_bind, Option.bind_eq_some_iff, Option.pure_def,
        Option.some.injEq] at h
      obtain ⟨a, -, rest, hrest, rfl⟩ := h
      rw [List.length_cons, ih hrest]

/-- Addresses are read where their words are. -/
theorem addressesAt_elements {args : Bytes} {i : Nat} {as : List Address}
    (h : elements as <+: args.drop i) : addressesAt args i as.length = some as := by
  induction as generalizing i with
  | nil => rfl
  | cons a as ih =>
      have hfirst : addressAt args i = some a := by
        apply addressAt_eq_some.mpr
        apply wordAt_eq_some.mpr
        exact (List.prefix_append _ _).trans h
      have hrest : elements as <+: args.drop (i + 32) := by
        obtain ⟨back, hback⟩ := h
        refine ⟨back, ?_⟩
        rw [← List.drop_drop, ← hback, elements_cons, List.append_assoc,
          List.drop_left' (length_packWord _)]
      simp only [List.length_cons, addressesAt, hfirst, ih hrest, Option.bind_eq_bind,
        Option.bind_some, Option.pure_def]

/-- Every entry of a list has its word in the arguments, behind the length. -/
theorem addressArrayAt_fits {args : Bytes} {i : Nat} {as : List Address}
    (h : addressArrayAt args i = some as) : ∃ offset, wordAt args i = some offset ∧
      wordAt args offset.toNat = some (BitVec.ofNat 256 as.length) ∧
      offset.toNat + 32 + 32 * as.length ≤ args.length := by
  unfold addressArrayAt at h
  simp only [Option.bind_eq_bind, Option.bind_eq_some_iff, Option.ite_none_right_eq_some] at h
  obtain ⟨offset, hoffset, -, length, hlength, ⟨-, hfits⟩, has⟩ := h
  have hcount := length_addressesAt has
  refine ⟨offset, hoffset, ?_, ?_⟩
  · rw [hlength, hcount, BitVec.ofNat_toNat, BitVec.setWidth_eq]
  · rwa [hcount]

/-- A list whose tail comes after `front` is read through the offset `front.length`. -/
theorem addressArrayAt_tail {front back : Bytes} {as : List Address} {i : Nat}
    (hfront : front.length < 2 ^ 64) (has : as.length < 2 ^ 64)
    (hoffset : wordAt (front ++ (arrayTail as ++ back)) i =
      some (BitVec.ofNat 256 front.length)) :
    addressArrayAt (front ++ (arrayTail as ++ back)) i = some as := by
  have hplace : (BitVec.ofNat 256 front.length).toNat = front.length := by
    rw [BitVec.toNat_ofNat, Nat.mod_eq_of_lt (by omega)]
  have hcount : (BitVec.ofNat 256 as.length).toNat = as.length := by
    rw [BitVec.toNat_ofNat, Nat.mod_eq_of_lt (by omega)]
  have hlength : wordAt (front ++ (arrayTail as ++ back)) front.length =
      some (BitVec.ofNat 256 as.length) := by
    apply wordAt_eq_some.mpr
    rw [List.drop_left, arrayTail, List.append_assoc]
    exact List.prefix_append _ _
  have helements : elements as <+: (front ++ (arrayTail as ++ back)).drop (front.length + 32) := by
    rw [← List.drop_drop, List.drop_left, arrayTail, List.append_assoc,
      List.drop_left' (length_packWord _)]
    exact List.prefix_append _ _
  unfold addressArrayAt
  simp only [hoffset, hlength, hplace, hcount, Option.bind_eq_bind, Option.bind_some]
  rw [if_pos hfront, if_pos, addressesAt_elements helements]
  refine ⟨has, ?_⟩
  simp only [List.length_append, length_arrayTail]
  omega

end ChainBeasts.Evm.Abi
