import ChainBeasts.Creature.Traits

/-! # `hatching.hpp`: what a creature is born with

The topology is read off the digest of a seed of 32 bytes, the genesis weights are drawn from a seed
of 64 bits. The `i`-th weight is `((r >> 2) mod 17) - 8` for the `i`-th word `r` of splitmix64
(`genesis_weights`): the difference is taken in 64 bits and cut down to eight, where it is the
number itself. The state of the generator only counts, so every weight can be checked alone
(`genesis_weight_alone`). -/

namespace ChainBeasts.Creature

open ChainBeasts.Buffer

/-! ## Topology -/

structure HatchTopology where
  sensorCount : U8
  appendCount : U8
  sensorSize : Vector U8 4
  appendSize : Vector U8 4
  deriving DecidableEq

def sizeTable : Vector U8 4 := #v[32, 48, 64, 96]

theorem and_three_lt (byte : U8) : (byte &&& 3).toNat < 4 := by
  rw [BitVec.toNat_and]
  exact Nat.lt_succ_of_le Nat.and_le_right

/-- `SIZE_TABLE[byte & 3]`. -/
def tableEntry (byte : U8) : U8 := sizeTable.get ⟨(byte &&& 3).toNat, and_three_lt byte⟩

/-- `1 + sc % 4`, for a half word with the low byte first. -/
def partCount (lo hi : U8) : U8 :=
  let sc : BitVec 16 := lo.setWidth 16 ||| hi.setWidth 16 <<< 8
  BitVec.ofNat 8 (1 + sc.toNat % 4)

/-- The digest is a parameter. -/
def deriveTopology (keccak256Bytes : Vector U8 32 → Vector U8 32) (seed : Vector U8 32) :
    HatchTopology :=
  let bits := keccak256Bytes seed
  { sensorCount := partCount bits[0] bits[1]
    appendCount := partCount bits[2] bits[3]
    sensorSize := Vector.ofFn fun i : Fin 4 => tableEntry bits[4 + 2 * i.val]
    appendSize := Vector.ofFn fun i : Fin 4 => tableEntry bits[20 + 2 * i.val] }

/-- There is room for the sensors and the appendages, and every size is in the table. -/
structure HatchTopology.Valid (t : HatchTopology) : Prop where
  sensorCount : 1 ≤ t.sensorCount.toNat ∧ t.sensorCount.toNat ≤ maxSensors
  appendCount : 1 ≤ t.appendCount.toNat ∧ t.appendCount.toNat ≤ maxAppendages
  sensorSize : ∀ size ∈ t.sensorSize, size ∈ sizeTable
  appendSize : ∀ size ∈ t.appendSize, size ∈ sizeTable

theorem partCount_bounds (lo hi : U8) : 1 ≤ (partCount lo hi).toNat ∧ (partCount lo hi).toNat ≤ 4 := by
  unfold partCount
  rw [BitVec.toNat_ofNat]
  omega

theorem tableEntry_mem (byte : U8) : tableEntry byte ∈ sizeTable := Vector.getElem_mem _

/-- **Whatever the digest is**, the topology fits a creature. -/
theorem derive_topology_valid (keccak256Bytes : Vector U8 32 → Vector U8 32)
    (seed : Vector U8 32) : (deriveTopology keccak256Bytes seed).Valid where
  sensorCount := partCount_bounds _ _
  appendCount := partCount_bounds _ _
  sensorSize size h := by
    obtain ⟨i, rfl⟩ := Vector.mem_ofFn.mp h
    exact tableEntry_mem _
  appendSize size h := by
    obtain ⟨i, rfl⟩ := Vector.mem_ofFn.mp h
    exact tableEntry_mem _

/-! ## Weights -/

/-- `splitmix64(state)`: the word, and the state it leaves. -/
def splitmix64 (state : BitVec 64) : BitVec 64 × BitVec 64 :=
  let state := state + 0x9E3779B97F4A7C15
  let z := state
  let z := (z ^^^ (z >>> 30)) * 0xBF58476D1CE4E5B9
  let z := (z ^^^ (z >>> 27)) * 0x94D049BB133111EB
  (z ^^^ (z >>> 31), state)

def nextWeight (state : BitVec 64) : BitVec 8 × BitVec 64 :=
  let (r, state) := splitmix64 state
  (((r >>> 2) % 17 - 8).setWidth 8, state)

/-- `out[i] = next_weight(state);`, a fault outside of `out`. -/
def putWeight (i : Nat) (s : List (BitVec 8) × BitVec 64) :
    Option (List (BitVec 8) × BitVec 64) := do
  let (weight, state) := nextWeight s.2
  let out ← store s.1 i weight
  return (out, state)

def generateGenesisWeights (count : Nat) (seed : BitVec 64) : Option (List (BitVec 8)) :=
  (forLoop 0 count 1 putWeight (List.replicate count 0, seed)).map Prod.fst

/-! ### The words drawn -/

/-- The state before the `i`-th draw. -/
def stateAt (seed : BitVec 64) (i : Nat) : BitVec 64 := (fun s => (splitmix64 s).2)^[i] seed

/-- The `i`-th word that splitmix64 puts out. -/
def wordAt (seed : BitVec 64) (i : Nat) : BitVec 64 := (splitmix64 (stateAt seed i)).1

def weightAt (seed : BitVec 64) (i : Nat) : BitVec 8 := (nextWeight (stateAt seed i)).1

@[simp] theorem stateAt_zero (seed : BitVec 64) : stateAt seed 0 = seed := rfl

theorem stateAt_succ (seed : BitVec 64) (i : Nat) :
    stateAt seed (i + 1) = (nextWeight (stateAt seed i)).2 :=
  Function.iterate_succ_apply' _ i seed

/-- The state counts in steps of one constant. -/
theorem stateAt_eq (seed : BitVec 64) (i : Nat) :
    stateAt seed i = seed + BitVec.ofNat 64 i * 0x9E3779B97F4A7C15 := by
  induction i with
  | zero =>
      rw [stateAt_zero, BitVec.ofNat_eq_ofNat, BitVec.zero_mul, BitVec.add_zero]
  | succ i ih =>
      have hstep : stateAt seed (i + 1) = stateAt seed i + 0x9E3779B97F4A7C15 := stateAt_succ seed i
      rw [hstep, ih, BitVec.ofNat_add, BitVec.add_mul, BitVec.one_mul, BitVec.add_assoc]

/-! ### One weight -/

theorem bmod_toNat_sub {v : Nat} (x y : BitVec v) :
    ((x - y).toNat : Int).bmod (2 ^ v) = ((x.toNat : Int) - y.toNat).bmod (2 ^ v) := by
  have hy : y.toNat ≤ 2 ^ v := Nat.le_of_lt y.isLt
  have hwrap : ((2 ^ v - y.toNat + x.toNat : Nat) : Int) =
      (2 ^ v : Nat) + ((x.toNat : Int) - y.toNat) := by
    omega
  rw [BitVec.toNat_sub, Int.natCast_emod, Int.emod_bmod, hwrap, Int.add_bmod_left]

/-- A difference of unsigned words, cut down to a signed type that holds it, is the number itself:
that it may wrap around at `2 ^ v` makes no difference at `2 ^ (w + 1)`. -/
theorem toInt_setWidth_sub {v w : Nat} (hwv : w + 1 ≤ v) {x y : BitVec v}
    (hlo : -2 ^ w ≤ (x.toNat : Int) - y.toNat) (hhi : (x.toNat : Int) - y.toNat < 2 ^ w) :
    ((x - y).setWidth (w + 1)).toInt = x.toNat - y.toNat := by
  have hdvd : 2 ^ (w + 1) ∣ 2 ^ v := Nat.pow_dvd_pow 2 hwv
  have htwice : ((2 ^ (w + 1) : Nat) : Int) = 2 ^ w * 2 := by
    rw [Nat.pow_succ]
    push_cast
    rfl
  calc ((x - y).setWidth (w + 1)).toInt
      = ((x - y).toNat : Int).bmod (2 ^ (w + 1)) := BitVec.toInt_setWidth _
    _ = (((x - y).toNat : Int).bmod (2 ^ v)).bmod (2 ^ (w + 1)) := by
        rw [Int.bmod_bmod_of_dvd hdvd]
    _ = ((x.toNat : Int) - y.toNat).bmod (2 ^ (w + 1)) := by
        rw [bmod_toNat_sub, Int.bmod_bmod_of_dvd hdvd]
    _ = x.toNat - y.toNat := by
        apply Int.bmod_eq_of_le
        · rw [htwice]
          omega
        · rw [htwice]
          omega

/-- **A weight is the remainder less eight.** -/
theorem toInt_weightAt (seed : BitVec 64) (i : Nat) :
    (weightAt seed i).toInt = ((wordAt seed i >>> 2).toNat % 17 : Nat) - 8 := by
  have hrem : ((wordAt seed i >>> 2) % 17).toNat = (wordAt seed i >>> 2).toNat % 17 :=
    BitVec.toNat_umod
  have hlt : (wordAt seed i >>> 2).toNat % 17 < 17 := Nat.mod_lt _ (by decide)
  show (((wordAt seed i >>> 2) % 17 - 8).setWidth 8).toInt = _
  rw [toInt_setWidth_sub (by decide), hrem]
  · rfl
  · rw [hrem]
    show -2 ^ 7 ≤ _ - (8 : Int)
    omega
  · rw [hrem]
    show _ - (8 : Int) < 2 ^ 7
    omega

/-! ### The loop -/

/-- `out` before round `i`: so many weights, and zeros from there on. -/
def filled (seed : BitVec 64) (i : Nat) : Nat → BitVec 8 := patch (fun _ => 0) (weightAt seed) 0 i

theorem putWeight_filled {seed : BitVec 64} {i count : Nat} {out : List (BitVec 8)}
    (hi : i < count) (hout : Holds out count (filled seed i)) :
    ∃ out', putWeight i (out, stateAt seed i) = some (out', stateAt seed (i + 1)) ∧
      out'.length = out.length ∧ Holds out' count (filled seed (i + 1)) := by
  -- the weight of round `i` is drawn from the state that the rounds before have left
  obtain ⟨out', hstore, hlen, hout'⟩ := hout.store hi (weightAt seed)
  refine ⟨out', ?_, hlen, ?_⟩
  · rw [stateAt_succ]
    show (store out i (weightAt seed i)).bind _ = _
    rw [hstore]
    rfl
  · have hpatch := patch_append (fun _ => 0) (weightAt seed) 0 i 1
    rw [Nat.zero_add] at hpatch
    unfold filled at hout' ⊢
    rwa [hpatch] at hout'

/-- The loop stays inside `out` and fills it with the weights in order. -/
theorem generate_genesis_weights_eq (count : Nat) (seed : BitVec 64) :
    generateGenesisWeights count seed = some ((List.range count).map (weightAt seed)) := by
  obtain ⟨⟨out, state⟩, hrun, hlen, hout, -⟩ :
      ∃ s, forLoop 0 count 1 putWeight (List.replicate count 0, seed) = some s ∧
        s.1.length = count ∧ Holds s.1 count (filled seed count) ∧ s.2 = stateAt seed count := by
    apply forLoop_count (Nat.zero_le count) (fun i (s : List (BitVec 8) × BitVec 64) =>
      s.1.length = count ∧ Holds s.1 count (filled seed i) ∧ s.2 = stateAt seed i)
    · rintro i ⟨out, _⟩ hi ⟨hlen, hout, rfl⟩
      obtain ⟨out', hput, hlen', hout'⟩ := putWeight_filled hi hout
      exact ⟨_, hput, hlen'.trans hlen, hout', rfl⟩
    · refine ⟨List.length_replicate, (holds_replicate count 0).congr ?_, rfl⟩
      intro k _
      have hnone : ¬ (0 ≤ k ∧ k < 0 + 0) := by omega
      show (0 : BitVec 8) = if 0 ≤ k ∧ k < 0 + 0 then weightAt seed k else 0
      rw [if_neg hnone]
  have hall : Holds out count (weightAt seed) := by
    apply hout.congr
    intro k hk
    exact if_pos ⟨Nat.zero_le k, by rwa [Nat.zero_add]⟩
  rw [generateGenesisWeights, hrun, ← hall.eq_map hlen]
  rfl

/-- What validators recompute from the seed. -/
structure GenesisWeights (seed : BitVec 64) (count : Nat) (weights : List (BitVec 8)) : Prop where
  length : weights.length = count
  entry : ∀ i < count, ∃ weight, weights[i]? = some weight ∧
    weight.toInt = ((wordAt seed i >>> 2).toNat % 17 : Nat) - 8 ∧
    -8 ≤ weight.toInt ∧ weight.toInt ≤ 8

theorem genesisWeights_map (seed : BitVec 64) (count : Nat) :
    GenesisWeights seed count ((List.range count).map (weightAt seed)) where
  length := by rw [List.length_map, List.length_range]
  entry i hi := by
    have hlt : (wordAt seed i >>> 2).toNat % 17 < 17 := Nat.mod_lt _ (by decide)
    have hweight := toInt_weightAt seed i
    refine ⟨weightAt seed i, ?_, hweight, ?_, ?_⟩
    · rw [List.getElem?_map, List.getElem?_range hi]
      rfl
    · omega
    · omega

/-- **Genesis weights come from the seed alone.** A shorter list is the beginning of a longer one,
and every entry is the remainder of its word less eight, within eight of zero. -/
theorem genesis_weights (seed : BitVec 64) {n m : Nat} (h : n ≤ m) :
    ∃ few all, generateGenesisWeights n seed = some few ∧
      generateGenesisWeights m seed = some all ∧ few = all.take n ∧
      GenesisWeights seed n few ∧ GenesisWeights seed m all := by
  refine ⟨_, _, generate_genesis_weights_eq n seed, generate_genesis_weights_eq m seed, ?_,
    genesisWeights_map seed n, genesisWeights_map seed m⟩
  rw [← List.map_take, List.take_range, Nat.min_eq_left h]

/-- The first two of the five weights of the unit test. -/
theorem genesis_weights_two_of_five :
    ∃ few all, generateGenesisWeights 2 0x0001020304050607 = some few ∧
      generateGenesisWeights 5 0x0001020304050607 = some all ∧ few = all.take 2 ∧
      GenesisWeights 0x0001020304050607 2 few ∧ GenesisWeights 0x0001020304050607 5 all :=
  genesis_weights 0x0001020304050607 (by decide)

example : generateGenesisWeights 5 0x0001020304050607 = some [-4, -7, 7, -4, -8] := by
  decide +kernel

/-- A weight can be checked without the ones before it. -/
theorem genesis_weight_alone (seed : BitVec 64) {count i : Nat} (hi : i < count) :
    ∃ weights, generateGenesisWeights count seed = some weights ∧
      weights[i]? = some
        (nextWeight (seed + BitVec.ofNat 64 i * 0x9E3779B97F4A7C15)).1 := by
  refine ⟨_, generate_genesis_weights_eq count seed, ?_⟩
  rw [List.getElem?_map, List.getElem?_range hi, ← stateAt_eq]
  rfl

end ChainBeasts.Creature
