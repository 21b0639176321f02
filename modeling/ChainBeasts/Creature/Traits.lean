import ChainBeasts.BitFields
import ChainBeasts.Buffer
import ChainBeasts.Framing
import Mathlib.Data.Fintype.BigOperators
import Mathlib.Tactic.FinCases
import Mathlib.Tactic.IntervalCases

/-! # `traits.hpp`: packed visual traits

A shape of four bits and a colour of twelve make a slot, and the slots of the body, of the sensors
and of the appendages are packed into 128 bits, in this order. Arrays have the size that the header
gives them; an index outside one and a shift by 128 or more are faults.

There is room for eight slots, the body's included. A creature with all four sensors and all four
appendages has nine: its last shape is shifted by 128, so exactly these creatures do not come back
(`round_trip_iff`), and no other code in 128 bits could bring them back (`no_room`). -/

namespace ChainBeasts.Creature

open ChainBeasts.BitFields ChainBeasts.Buffer ChainBeasts.Framing

abbrev U8 := BitVec 8

def maxSensors : Nat := 4
def maxAppendages : Nat := 4

structure HSV where
  h : U8
  s : U8
  v : U8
  deriving DecidableEq, Inhabited

structure VisualTraits where
  bodyShape : U8
  bodyColour : HSV
  sensorShape : Vector U8 maxSensors
  sensorColour : Vector HSV maxSensors
  appendageShape : Vector U8 maxAppendages
  appendageColour : Vector HSV maxAppendages
  sensorCount : U8
  appendageCount : U8
  deriving DecidableEq

/-! ## The source -/

def packHsv (c : HSV) : BitVec 16 :=
  (c.h &&& 0xF).setWidth 16 <<< 8 ||| (c.s &&& 0xF).setWidth 16 <<< 4 ||| (c.v &&& 0xF).setWidth 16

def unpackHsv (p : BitVec 16) : HSV where
  h := (p >>> 8 &&& 0xF).setWidth 8
  s := (p >>> 4 &&& 0xF).setWidth 8
  v := (p &&& 0xF).setWidth 8

/-- `push(shape, 4); push(pack_hsv(colour), 12);` -/
def pushSlot (shape : U8) (colour : HSV) (s : Packer 128) : Option (Packer 128) := do
  let s ← push (shape.setWidth 128) 4 s
  push ((packHsv colour).setWidth 128) 12 s

/-- `for (i = 0; i < count && i < n; ++i)` over two arrays of size `n`. -/
def pushSlots {n : Nat} (count : U8) (shape : Vector U8 n) (colour : Vector HSV n) :
    Packer 128 → Option (Packer 128) :=
  forLoop 0 (min count.toNat n) 1 fun i s => do
    let shape ← shape[i]?
    let colour ← colour[i]?
    pushSlot shape colour s

def packTraits (t : VisualTraits) : Option (BitVec 128) := do
  let s ← pushSlot t.bodyShape t.bodyColour Packer.empty
  let s ← pushSlots t.sensorCount t.sensorShape t.sensorColour s
  let s ← pushSlots t.appendageCount t.appendageShape t.appendageColour s
  return s.out

/-- `shape = pop(4); colour = unpack_hsv(pop(12));` -/
def popSlot (packed : BitVec 128) : StateT Nat Option (U8 × HSV) := do
  let shape ← pop packed 4
  let colour ← pop packed 12
  return (shape.setWidth 8, unpackHsv (colour.setWidth 16))

/-- `array[i] = a`. -/
def storeAt {α : Type} {n : Nat} (array : Vector α n) (i : Nat) (a : α) : Option (Vector α n) :=
  if h : i < n then some (array.set i a) else none

/-- What a loop of `unpack_traits` has filled in so far, and how many bits it has read. -/
structure Unpacked (n : Nat) where
  shape : Vector U8 n
  colour : Vector HSV n
  bits : Nat

def popInto {n : Nat} (packed : BitVec 128) (i : Nat) (s : Unpacked n) : Option (Unpacked n) := do
  let ((x, c), bits) ← popSlot packed s.bits
  let shape ← storeAt s.shape i x
  let colour ← storeAt s.colour i c
  return ⟨shape, colour, bits⟩

def popSlots (n : Nat) (packed : BitVec 128) (count : U8) (bits : Nat) : Option (Unpacked n) :=
  forLoop 0 (min count.toNat n) 1 (popInto packed)
    ⟨Vector.replicate n 0, Vector.replicate n ⟨0, 0, 0⟩, bits⟩

def unpackTraits (packed : BitVec 128) (sensors appendages : U8) : Option VisualTraits := do
  let ((bodyShape, bodyColour), bits) ← popSlot packed 0
  let s ← popSlots maxSensors packed sensors bits
  let a ← popSlots maxAppendages packed appendages s.bits
  return ⟨bodyShape, bodyColour, s.shape, s.colour, a.shape, a.colour, sensors, appendages⟩

/-! ## Colours -/

structure HSV.Valid (c : HSV) : Prop where
  h : c.h < 16
  s : c.s < 16
  v : c.v < 16

instance (c : HSV) : Decidable c.Valid :=
  decidable_of_iff (c.h < 16 ∧ c.s < 16 ∧ c.v < 16)
    ⟨fun ⟨h, s, v⟩ => ⟨h, s, v⟩, fun ⟨h, s, v⟩ => ⟨h, s, v⟩⟩

theorem getLsbD_low {w : Nat} (i : Nat) :
    (0xF : BitVec w).getLsbD i = (decide (i < w) && decide (i < 4)) := by
  show (BitVec.ofNat w (2 ^ 4 - 1)).getLsbD i = _
  rw [BitVec.getLsbD_ofNat, Nat.testBit_two_pow_sub_one]

/-- Four bits for each component, the last lowest. -/
theorem getLsbD_pack_hsv (c : HSV) (i : Nat) :
    (packHsv c).getLsbD i =
      if i < 4 then c.v.getLsbD i else if i < 8 then c.s.getLsbD (i - 4)
      else if i < 12 then c.h.getLsbD (i - 8) else false := by
  simp only [packHsv, BitVec.getLsbD_or, BitVec.getLsbD_shiftLeft, BitVec.getLsbD_setWidth,
    BitVec.getLsbD_and, getLsbD_low]
  grind

theorem pack_hsv_lt (c : HSV) : (packHsv c).toNat < 2 ^ 12 := by
  apply Nat.lt_pow_two_of_testBit
  intro i hi
  show (packHsv c).getLsbD i = false
  rw [getLsbD_pack_hsv]
  grind

theorem nibble_eq {x : U8} (hx : x < 16) : x &&& 0xF = x := by
  apply BitVec.eq_of_toNat_eq
  have hlt : x.toNat < 2 ^ 4 := hx
  rw [BitVec.toNat_and]
  exact Nat.and_two_pow_sub_one_of_lt_two_pow hlt

/-- The four bits of `p` from `k` on. -/
theorem nibble_at {p : BitVec 16} {k : Nat} {x : U8} (hx : x < 16)
    (h : ∀ i < 4, p.getLsbD (k + i) = x.getLsbD i) : (p >>> k &&& 0xF).setWidth 8 = x := by
  rw [← nibble_eq hx]
  apply BitVec.eq_of_getLsbD_eq
  intro i hi
  rw [BitVec.getLsbD_setWidth, BitVec.getLsbD_and, BitVec.getLsbD_and, BitVec.getLsbD_ushiftRight,
    getLsbD_low, getLsbD_low]
  grind

theorem unpack_pack_hsv {c : HSV} (hc : c.Valid) : unpackHsv (packHsv c) = c := by
  have hh : (packHsv c >>> 8 &&& 0xF).setWidth 8 = c.h := by
    apply nibble_at hc.h
    grind [getLsbD_pack_hsv]
  have hs : (packHsv c >>> 4 &&& 0xF).setWidth 8 = c.s := by
    apply nibble_at hc.s
    grind [getLsbD_pack_hsv]
  have hv : (packHsv c >>> 0 &&& 0xF).setWidth 8 = c.v := by
    apply nibble_at hc.v
    grind [getLsbD_pack_hsv]
  rw [BitVec.ushiftRight_zero] at hv
  rw [unpackHsv, hh, hs, hv]

/-! ## Slots -/

/-- The fields of a slot. -/
def slot (shape : U8) (colour : HSV) : List (Field 128) :=
  [⟨shape.setWidth 128, 4, by decide, by decide⟩,
    ⟨(packHsv colour).setWidth 128, 12, by decide, by decide⟩]

@[simp] theorem span_slot (shape : U8) (colour : HSV) : span (slot shape colour) = 16 := rfl

theorem pushSlot_eq (shape : U8) (colour : HSV) :
    pushSlot shape colour = pushAll (slot shape colour) := by
  funext s
  show (push _ 4 s).bind _ = (push _ 4 s).bind _
  congr 1
  funext s'
  exact (Option.bind_fun_some _).symm

variable {n : Nat}

/-- The fields of the slots from `lo` on, up to `hi`. -/
def slots (shape : Vector U8 n) (colour : Vector HSV n) (lo hi : Nat) : List (Field 128) :=
  (List.range' lo (hi - lo)).flatMap fun i => slot (shape[i]?.getD 0) (colour[i]?.getD ⟨0, 0, 0⟩)

theorem slots_cons {shape : Vector U8 n} {colour : Vector HSV n} {lo hi : Nat} (hlo : lo < hi)
    (hn : lo < n) :
    slots shape colour lo hi = slot shape[lo] colour[lo] ++ slots shape colour (lo + 1) hi := by
  have hlen : hi - lo = hi - (lo + 1) + 1 := by omega
  rw [slots, hlen, List.range'_succ, List.flatMap_cons, Vector.getElem?_eq_getElem hn,
    Vector.getElem?_eq_getElem hn]
  rfl

theorem slots_self (shape : Vector U8 n) (colour : Vector HSV n) (i : Nat) :
    slots shape colour i i = [] := by
  rw [slots, Nat.sub_self]
  rfl

theorem slots_append (shape : Vector U8 n) (colour : Vector HSV n) {lo mid hi : Nat} (h₁ : lo ≤ mid)
    (h₂ : mid ≤ hi) :
    slots shape colour lo hi = slots shape colour lo mid ++ slots shape colour mid hi := by
  obtain ⟨a, rfl⟩ := Nat.exists_eq_add_of_le h₁
  obtain ⟨b, rfl⟩ := Nat.exists_eq_add_of_le h₂
  have hab : lo + a + b - lo = a + b := by omega
  rw [slots, slots, slots, ← List.flatMap_append, hab, Nat.add_sub_cancel_left,
    Nat.add_sub_cancel_left, List.range'_append_1]

theorem span_slots (shape : Vector U8 n) (colour : Vector HSV n) (lo hi : Nat) :
    span (slots shape colour lo hi) = 16 * (hi - lo) := by
  unfold slots
  induction hi - lo generalizing lo with
  | zero => rfl
  | succ k ih =>
      rw [List.range'_succ, List.flatMap_cons, span_append, span_slot, ih]
      omega

/-- The slots that count. -/
def active (count : U8) (shape : Vector U8 n) (colour : Vector HSV n) : List (Field 128) :=
  slots shape colour 0 (min count.toNat n)

theorem pushSlots_eq (count : U8) (shape : Vector U8 n) (colour : Vector HSV n) :
    pushSlots count shape colour = pushAll (active count shape colour) := by
  funext s
  unfold pushSlots active
  generalize hhi : min count.toNat n = hi
  have hle : hi ≤ n := hhi ▸ Nat.min_le_right _ _
  clear hhi
  generalize 0 = lo
  induction hk : hi - lo generalizing lo s with
  | zero =>
      have hdone : hi ≤ lo := Nat.le_of_sub_eq_zero hk
      rw [forLoop_empty hdone, slots, hk]
      rfl
  | succ k ih =>
      have hlo : lo < hi := by omega
      have hn : lo < n := by omega
      rw [forLoop_cons hlo, slots_cons hlo hn, pushAll_append, ← pushSlot_eq,
        Vector.getElem?_eq_getElem hn, Vector.getElem?_eq_getElem hn]
      show (pushSlot shape[lo] colour[lo] s).bind _ = _
      congr 1
      funext s'
      exact ih s' (lo + 1) (by omega)

/-- The fields of a creature. -/
def VisualTraits.fields (t : VisualTraits) : List (Field 128) :=
  slot t.bodyShape t.bodyColour ++ active t.sensorCount t.sensorShape t.sensorColour ++
    active t.appendageCount t.appendageShape t.appendageColour

theorem pack_traits_eq (t : VisualTraits) :
    packTraits t = (pushAll t.fields Packer.empty).map Packer.out := by
  rw [VisualTraits.fields, pushAll_append, pushAll_append, ← pushSlot_eq, ← pushSlots_eq,
    ← pushSlots_eq, Option.map_bind, Option.bind_assoc]
  unfold packTraits
  congr 1
  funext s
  show (pushSlots _ _ _ s).bind _ = (pushSlots _ _ _ s).bind _
  congr 1
  funext s'
  exact Option.map_eq_bind.symm

/-! ## Unpacking -/

/-- A slot that is ahead is popped. -/
theorem popSlot_ahead {packed : BitVec 128} {bits : Nat} {shape : U8} {colour : HSV}
    {fs : List (Field 128)} (hshape : shape < 16) (hcolour : colour.Valid)
    (h : Ahead packed bits (slot shape colour ++ fs)) :
    popSlot packed bits = some ((shape, colour), bits + 16) ∧ Ahead packed (bits + 16) fs := by
  obtain ⟨x, hx, hxval, h⟩ := h.pop
  obtain ⟨y, hy, hyval, h⟩ := h.pop
  have hx8 : x.setWidth 8 = shape := by
    have hlt : shape.toNat < 2 ^ 4 := hshape
    apply BitVec.eq_of_toNat_eq
    rw [BitVec.toNat_setWidth, hxval]
    show (shape.setWidth 128).toNat % 2 ^ 4 % 2 ^ 8 = _
    rw [BitVec.toNat_setWidth]
    omega
  have hy16 : y.setWidth 16 = packHsv colour := by
    have hlt := pack_hsv_lt colour
    apply BitVec.eq_of_toNat_eq
    rw [BitVec.toNat_setWidth, hyval]
    show ((packHsv colour).setWidth 128).toNat % 2 ^ 12 % 2 ^ 16 = _
    rw [BitVec.toNat_setWidth]
    omega
  refine ⟨bind_eq_some.mpr ⟨x, bits + 4, hx, bind_eq_some.mpr ⟨y, bits + 16, hy, ?_⟩⟩, h⟩
  rw [hx8, hy16, unpack_pack_hsv hcolour]
  rfl

/-- What `popSlots` has done before its iteration `k`. -/
structure Filled (packed : BitVec 128) (shape : Vector U8 n) (colour : Vector HSV n) (hi : Nat)
    (fs : List (Field 128)) (k : Nat) (s : Unpacked n) : Prop where
  ahead : Ahead packed s.bits (slots shape colour k hi ++ fs)
  read : ∀ (i : Nat) (h : i < n), i < k → s.shape[i] = shape[i] ∧ s.colour[i] = colour[i]

section
variable {packed : BitVec 128} {shape : Vector U8 n} {colour : Vector HSV n} {fs : List (Field 128)}
  (hshape : ∀ (i : Nat) (h : i < n), shape[i] < 16)
  (hcolour : ∀ (i : Nat) (h : i < n), colour[i].Valid)
include hshape hcolour

theorem popInto_filled {hi k : Nat} {s : Unpacked n} (hk : k < hi) (hn : k < n)
    (h : Filled packed shape colour hi fs k s) :
    ∃ s', popInto packed k s = some s' ∧ Filled packed shape colour hi fs (k + 1) s' := by
  have hahead := h.ahead
  rw [slots_cons hk hn, List.append_assoc] at hahead
  obtain ⟨hpop, hrest⟩ := popSlot_ahead (hshape k hn) (hcolour k hn) hahead
  refine ⟨⟨s.shape.set k shape[k], s.colour.set k colour[k], s.bits + 16⟩, ?_, hrest, ?_⟩
  · rw [popInto, hpop]
    simp [storeAt, hn]
  · intro i hi hik
    by_cases hlast : i = k
    · subst hlast
      simp
    · have hne : k ≠ i := fun h => hlast h.symm
      simp only [Vector.getElem_set_ne _ _ hne]
      exact h.read i hi (by omega)

/-- The slots that count are popped. -/
theorem popSlots_ahead {bits : Nat} {count : U8}
    (h : Ahead packed bits (active count shape colour ++ fs)) :
    ∃ s, popSlots n packed count bits = some s ∧ Ahead packed s.bits fs ∧
      ∀ (i : Nat) (hi : i < n), i < count.toNat →
        s.shape[i] = shape[i] ∧ s.colour[i] = colour[i] := by
  have hstep : ∀ k s, k < min count.toNat n →
      Filled packed shape colour (min count.toNat n) fs k s →
      ∃ s', popInto packed k s = some s' ∧
        Filled packed shape colour (min count.toNat n) fs (k + 1) s' :=
    fun k s hk hs => popInto_filled hshape hcolour hk (by omega) hs
  have hinit : Filled packed shape colour (min count.toNat n) fs 0
      ⟨Vector.replicate n 0, Vector.replicate n ⟨0, 0, 0⟩, bits⟩ :=
    ⟨h, fun i hi hik => absurd hik (Nat.not_lt_zero i)⟩
  obtain ⟨s, hrun, hs⟩ := forLoop_count (Nat.zero_le _) _ hstep hinit
  have hahead := hs.ahead
  rw [slots_self, List.nil_append] at hahead
  refine ⟨s, hrun, hahead, ?_⟩
  intro i hi hcount
  exact hs.read i hi (by omega)

end

/-- Everything is below 16, and no count is larger than its array. -/
structure VisualTraits.Valid (t : VisualTraits) : Prop where
  sensorCount : t.sensorCount.toNat ≤ maxSensors
  appendageCount : t.appendageCount.toNat ≤ maxAppendages
  bodyShape : t.bodyShape < 16
  bodyColour : t.bodyColour.Valid
  sensorShape : ∀ (i : Nat) (h : i < maxSensors), t.sensorShape[i] < 16
  sensorColour : ∀ (i : Nat) (h : i < maxSensors), t.sensorColour[i].Valid
  appendageShape : ∀ (i : Nat) (h : i < maxAppendages), t.appendageShape[i] < 16
  appendageColour : ∀ (i : Nat) (h : i < maxAppendages), t.appendageColour[i].Valid

/-- Equal on the body and on the slots that count. -/
structure SameActive (u t : VisualTraits) : Prop where
  bodyShape : u.bodyShape = t.bodyShape
  bodyColour : u.bodyColour = t.bodyColour
  sensors : ∀ (i : Nat) (h : i < maxSensors), i < t.sensorCount.toNat →
    u.sensorShape[i] = t.sensorShape[i] ∧ u.sensorColour[i] = t.sensorColour[i]
  appendages : ∀ (i : Nat) (h : i < maxAppendages), i < t.appendageCount.toNat →
    u.appendageShape[i] = t.appendageShape[i] ∧ u.appendageColour[i] = t.appendageColour[i]

/-- `unpack_traits(pack_traits(t), t.sensor_count, t.appendage_count)`. -/
def repack (t : VisualTraits) : Option VisualTraits := do
  let packed ← packTraits t
  unpackTraits packed t.sensorCount t.appendageCount

def RoundTrip (t : VisualTraits) : Prop := ∃ u, repack t = some u ∧ SameActive u t

theorem span_fields {t : VisualTraits} (ht : t.Valid) :
    span t.fields = 16 * (1 + t.sensorCount.toNat + t.appendageCount.toNat) := by
  have hs := Nat.min_eq_left ht.sensorCount
  have ha := Nat.min_eq_left ht.appendageCount
  rw [VisualTraits.fields, span_append, span_append, span_slot, active, active, span_slots,
    span_slots, hs, ha]
  omega

/-- **Slots that fit come back.** -/
theorem round_trip_of_fits {t : VisualTraits} (ht : t.Valid)
    (hfit : t.sensorCount.toNat + t.appendageCount.toNat ≤ 7) : RoundTrip t := by
  have hspan : span t.fields ≤ 128 := by
    rw [span_fields ht]
    omega
  obtain ⟨p, hpack, hahead⟩ := pushAll_ahead hspan
  rw [VisualTraits.fields, List.append_assoc] at hahead
  obtain ⟨hbody, hahead⟩ := popSlot_ahead ht.bodyShape ht.bodyColour hahead
  obtain ⟨s, hsensors, hahead, hs⟩ := popSlots_ahead ht.sensorShape ht.sensorColour hahead
  rw [← List.append_nil (active _ _ _)] at hahead
  obtain ⟨a, happendages, -, ha⟩ := popSlots_ahead ht.appendageShape ht.appendageColour hahead
  refine ⟨⟨t.bodyShape, t.bodyColour, s.shape, s.colour, a.shape, a.colour, t.sensorCount,
    t.appendageCount⟩, ?_, rfl, rfl, hs, ha⟩
  rw [repack, pack_traits_eq, hpack]
  show unpackTraits p.out t.sensorCount t.appendageCount = _
  rw [unpackTraits, hbody]
  show (popSlots maxSensors p.out t.sensorCount (0 + 16)).bind _ = _
  rw [hsensors]
  show (popSlots maxAppendages p.out t.appendageCount s.bits).bind _ = _
  rw [happendages]
  rfl

/-- The last of nine slots begins past the end. -/
theorem pack_traits_over {t : VisualTraits} (hs : t.sensorCount.toNat = 4)
    (ha : t.appendageCount.toNat = 4) : packTraits t = none := by
  have hfields : t.fields =
      (slot t.bodyShape t.bodyColour ++ slots t.sensorShape t.sensorColour 0 4 ++
        slots t.appendageShape t.appendageColour 0 3) ++
          slots t.appendageShape t.appendageColour 3 4 := by
    rw [VisualTraits.fields, active, active, hs, ha, List.append_assoc _ (slots _ _ 0 3),
      ← slots_append t.appendageShape t.appendageColour (Nat.zero_le 3) (Nat.le_succ 3)]
    rfl
  have hlast : slots t.appendageShape t.appendageColour 3 4 ≠ [] := by
    intro h
    have hspan := span_slots t.appendageShape t.appendageColour 3 4
    rw [h] at hspan
    cases hspan
  have hfull : 128 ≤ (Packer.empty : Packer 128).bits +
      span (slot t.bodyShape t.bodyColour ++ slots t.sensorShape t.sensorColour 0 4 ++
        slots t.appendageShape t.appendageColour 0 3) := by
    rw [span_append, span_append, span_slot, span_slots, span_slots]
    exact Nat.le_add_left _ _
  rw [pack_traits_eq, hfields, pushAll_over hlast hfull]
  rfl

/-- **Exactly the creatures with every slot in use** do not come back. -/
theorem round_trip_iff {t : VisualTraits} (ht : t.Valid) :
    RoundTrip t ↔ t.sensorCount.toNat + t.appendageCount.toNat ≤ 7 := by
  constructor
  · rintro ⟨u, hu, -⟩
    have hs : t.sensorCount.toNat ≤ 4 := ht.sensorCount
    have ha : t.appendageCount.toNat ≤ 4 := ht.appendageCount
    by_contra hmore
    rw [repack, pack_traits_over (by omega) (by omega)] at hu
    cases hu
  · exact round_trip_of_fits ht

/-- Two sensors and one appendage. -/
def sample : VisualTraits where
  bodyShape := 3
  bodyColour := ⟨1, 2, 3⟩
  sensorShape := #v[4, 5, 0, 0]
  sensorColour := #v[⟨4, 5, 6⟩, ⟨6, 7, 8⟩, ⟨0, 0, 0⟩, ⟨0, 0, 0⟩]
  appendageShape := #v[2, 0, 0, 0]
  appendageColour := #v[⟨8, 9, 10⟩, ⟨0, 0, 0⟩, ⟨0, 0, 0⟩, ⟨0, 0, 0⟩]
  sensorCount := 2
  appendageCount := 1

theorem round_trip_sample :
    RoundTrip sample ↔ sample.sensorCount.toNat + sample.appendageCount.toNat ≤ 7 :=
  round_trip_iff ⟨by decide, by decide, by decide, by decide, by decide, by decide, by decide,
    by decide⟩

example : packTraits sample = some 0x89A2678545641233 := by decide

/-- Four of each. -/
def full : VisualTraits where
  bodyShape := 3
  bodyColour := ⟨1, 2, 3⟩
  sensorShape := #v[4, 5, 6, 7]
  sensorColour := #v[⟨4, 5, 6⟩, ⟨6, 7, 8⟩, ⟨1, 1, 1⟩, ⟨2, 2, 2⟩]
  appendageShape := #v[2, 8, 9, 12]
  appendageColour := #v[⟨8, 9, 10⟩, ⟨3, 3, 3⟩, ⟨4, 4, 4⟩, ⟨5, 5, 5⟩]
  sensorCount := 4
  appendageCount := 4

theorem full_lost : full.Valid ∧ ¬ RoundTrip full := by
  have hvalid : full.Valid := ⟨by decide, by decide, by decide, by decide, by decide, by decide,
    by decide, by decide⟩
  refine ⟨hvalid, ?_⟩
  rintro ⟨u, hu, -⟩
  rw [repack, pack_traits_over rfl rfl] at hu
  cases hu

/-! ## No room -/

/-- A slot's shape and colour. -/
abbrev Nibbles := Fin 16 × Fin 16 × Fin 16 × Fin 16

def nibble (x : Fin 16) : U8 := BitVec.ofNat 8 x

theorem nibble_inj : ∀ {x y : Fin 16}, nibble x = nibble y → x = y := by decide

theorem nibble_lt : ∀ x, nibble x < 16 := by decide

def Nibbles.shape (x : Nibbles) : U8 := nibble x.1
def Nibbles.colour (x : Nibbles) : HSV := ⟨nibble x.2.1, nibble x.2.2.1, nibble x.2.2.2⟩

theorem Nibbles.eq {x y : Nibbles} (hshape : x.shape = y.shape) (hcolour : x.colour = y.colour) :
    x = y := by
  obtain ⟨hh, hs, hv⟩ := HSV.mk.inj hcolour
  exact Prod.ext (nibble_inj hshape) (Prod.ext (nibble_inj hh)
    (Prod.ext (nibble_inj hs) (nibble_inj hv)))

/-- Every slot in use, with anything in it: the body, four sensors, four appendages. -/
def crowded (x : Fin 9 → Nibbles) : VisualTraits where
  bodyShape := (x 0).shape
  bodyColour := (x 0).colour
  sensorShape := #v[(x 1).shape, (x 2).shape, (x 3).shape, (x 4).shape]
  sensorColour := #v[(x 1).colour, (x 2).colour, (x 3).colour, (x 4).colour]
  appendageShape := #v[(x 5).shape, (x 6).shape, (x 7).shape, (x 8).shape]
  appendageColour := #v[(x 5).colour, (x 6).colour, (x 7).colour, (x 8).colour]
  sensorCount := 4
  appendageCount := 4

theorem crowded_valid (x : Fin 9 → Nibbles) : (crowded x).Valid := by
  have hcolour (y : Nibbles) : y.colour.Valid := ⟨nibble_lt _, nibble_lt _, nibble_lt _⟩
  refine ⟨Nat.le_refl _, Nat.le_refl _, nibble_lt _, hcolour _, ?_, ?_, ?_, ?_⟩ <;>
    intro i h <;> change i < 4 at h <;> interval_cases i
  all_goals first | exact nibble_lt _ | exact hcolour _

theorem crowded_inj {u : VisualTraits} {x y : Fin 9 → Nibbles} (hx : SameActive u (crowded x))
    (hy : SameActive u (crowded y)) : x = y := by
  have hsensor (i : Nat) (h : i < 4) :
      (crowded x).sensorShape[i] = (crowded y).sensorShape[i] ∧
        (crowded x).sensorColour[i] = (crowded y).sensorColour[i] :=
    ⟨(hx.sensors i h h).1.symm.trans (hy.sensors i h h).1,
      (hx.sensors i h h).2.symm.trans (hy.sensors i h h).2⟩
  have happendage (i : Nat) (h : i < 4) :
      (crowded x).appendageShape[i] = (crowded y).appendageShape[i] ∧
        (crowded x).appendageColour[i] = (crowded y).appendageColour[i] :=
    ⟨(hx.appendages i h h).1.symm.trans (hy.appendages i h h).1,
      (hx.appendages i h h).2.symm.trans (hy.appendages i h h).2⟩
  funext k
  fin_cases k
  · exact Nibbles.eq (hx.bodyShape.symm.trans hy.bodyShape)
      (hx.bodyColour.symm.trans hy.bodyColour)
  · exact Nibbles.eq (hsensor 0 (by decide)).1 (hsensor 0 (by decide)).2
  · exact Nibbles.eq (hsensor 1 (by decide)).1 (hsensor 1 (by decide)).2
  · exact Nibbles.eq (hsensor 2 (by decide)).1 (hsensor 2 (by decide)).2
  · exact Nibbles.eq (hsensor 3 (by decide)).1 (hsensor 3 (by decide)).2
  · exact Nibbles.eq (happendage 0 (by decide)).1 (happendage 0 (by decide)).2
  · exact Nibbles.eq (happendage 1 (by decide)).1 (happendage 1 (by decide)).2
  · exact Nibbles.eq (happendage 2 (by decide)).1 (happendage 2 (by decide)).2
  · exact Nibbles.eq (happendage 3 (by decide)).1 (happendage 3 (by decide)).2

/-- **Whatever is done with the ninth slot**, some creature with every slot in use does not come back
from 128 bits. -/
theorem no_room (pack : VisualTraits → BitVec 128) (unpack : BitVec 128 → VisualTraits) :
    ∃ t : VisualTraits, t.Valid ∧ ¬ SameActive (unpack (pack t)) t := by
  by_contra hall
  have hback : ∀ x, SameActive (unpack (pack (crowded x))) (crowded x) := by
    intro x
    by_contra hx
    exact hall ⟨crowded x, crowded_valid x, hx⟩
  have hinj : Function.Injective fun x => (pack (crowded x)).toFin := by
    intro x y hxy
    have hx := hback x
    rw [BitVec.toFin_inj.mp hxy] at hx
    exact crowded_inj hx (hback y)
  have hcard := Fintype.card_le_of_injective _ hinj
  simp at hcard

end ChainBeasts.Creature
