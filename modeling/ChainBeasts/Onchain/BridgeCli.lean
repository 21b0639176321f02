import ChainBeasts.Contracts.CreatureNFTBridge
import ChainBeasts.Onchain.EthEncoding

/-! # The root hash of `bridge_cli`

The relay computes the hash that the bridge contracts compute on chain, over a buffer of its own
making. Its integers have 64 bits and are written as 32 bytes, by shifts of 248 down to 0 bits: three
quarters of the counts are none that the language gives a meaning to, and what a machine makes of
them decides what the buffer is (`root_buffer_iff`). On one that takes counts modulo 64 it is the
contracts' buffer for the token and the chain of number 0 only (`masked_iff`). -/

namespace ChainBeasts.Onchain

open ChainBeasts.Evm
open ChainBeasts.Contracts (Chain.preimage)
open ChainBeasts.Pouw.ProofSystem (toHex)

/-- `v >> n` of an `std::uint64_t`. -/
abbrev Shr := BitVec 64 → Nat → BitVec 64

/-- The buffer being built, and the counts of the shifts executed on the way. -/
structure Out where
  buf : Bytes
  shifts : List Nat
  deriving DecidableEq

/-- `for (int i = n - 1; i >= 0; --i)` in `append_uint256`. -/
def appendUint256.loop (shr : Shr) (v : BitVec 64) : Nat → Out → Out
  | 0, out => out
  | i + 1, out =>
    appendUint256.loop shr v i
      ⟨out.buf ++ [(shr v (i * 8)).setWidth 8], out.shifts ++ [i * 8]⟩

def appendUint256 (shr : Shr) (out : Out) (v : BitVec 64) : Out := appendUint256.loop shr v 32 out

/-- `none` is an exception of `stoi`, here and below. -/
def appendAddress (out : Out) (addr : Bytes) : Option Out := do
  let h := strip0x addr
  let h := if h.length < 40 then List.replicate (40 - h.length) 0x30 ++ h else h
  let bytes ← parse (substrs h)
  return { out with buf := out.buf ++ bytes }

def hexToBytes (hex : Bytes) : Option Bytes :=
  let h := strip0x hex
  parse (substrs (if h.length % 2 = 1 then 0x30 :: h else h))

/-- The buffer that `compute_root_hash` hashes. -/
def rootBuffer (shr : Shr) (token : BitVec 32) (toAddr : Bytes) (srcChain : BitVec 32)
    (weights dnaHex : Bytes) : Option Out := do
  let out := appendUint256 shr ⟨[], []⟩ (token.setWidth 64)
  let out ← appendAddress out toAddr
  let out := appendUint256 shr out (srcChain.setWidth 64)
  let out := { out with buf := out.buf ++ weights }
  let dnaBytes ← hexToBytes dnaHex
  let dnaBytes := List.replicate (32 - dnaBytes.length) 0 ++ dnaBytes
  return { out with buf := out.buf ++ dnaBytes }

def computeRootHash (keccak256Digest : Bytes → Bytes) (shr : Shr) (token : BitVec 32)
    (toAddr : Bytes) (srcChain : BitVec 32) (weights dnaHex : Bytes) : Option Bytes :=
  (rootBuffer shr token toAddr srcChain weights dnaHex).map fun out => keccak256Digest out.buf

/-! ## What is appended -/

variable {shr : Shr} {out : Out}

/-- The bytes that stand for an integer. -/
def written (shr : Shr) (v : BitVec 64) : Bytes :=
  (List.range 32).reverse.map fun i => (shr v (i * 8)).setWidth 8

theorem appendUint256.loop_eq (v : BitVec 64) (n : Nat) (out : Out) :
    appendUint256.loop shr v n out =
      ⟨out.buf ++ (List.range n).reverse.map fun i => (shr v (i * 8)).setWidth 8,
        out.shifts ++ (List.range n).reverse.map (· * 8)⟩ := by
  induction n generalizing out with
  | zero => simp [appendUint256.loop]
  | succ n ih =>
      rw [appendUint256.loop, ih, List.range_succ, List.reverse_append]
      simp only [List.append_assoc, List.reverse_singleton, List.singleton_append, List.map_cons]

theorem append_uint256_eq (v : BitVec 64) :
    appendUint256 shr out v =
      ⟨out.buf ++ written shr v, out.shifts ++ (List.range 32).reverse.map (· * 8)⟩ :=
  appendUint256.loop_eq v 32 out

@[simp] theorem length_written (shr : Shr) (v : BitVec 64) : (written shr v).length = 32 := by
  simp [written]

theorem append_address_spelled {addr : Bytes} {account : Address}
    (hs : Spells (strip0x addr) (packAddress account)) :
    appendAddress out addr = some { out with buf := out.buf ++ packAddress account } := by
  have hlen : ¬ (strip0x addr).length < 40 := by
    rw [hs.length, length_packAddress]
    omega
  unfold appendAddress
  simp only [if_neg hlen, parse_spelled hs, Option.bind_eq_bind, Option.bind_some, Option.pure_def]

theorem hex_to_bytes_spelled {hex bytes : Bytes} (hs : Spells (strip0x hex) bytes) :
    hexToBytes hex = some bytes := by
  have hlen : ¬ (strip0x hex).length % 2 = 1 := by
    rw [hs.length]
    omega
  unfold hexToBytes
  simp only [if_neg hlen, parse_spelled hs]

/-- The buffer for an account and a dna that are read as 20 and, padded, 32 bytes. -/
theorem root_buffer_eq (token src : BitVec 32) {toAddr dnaHex dnaBytes : Bytes}
    {account : Address} {dna : Bytes32} (weights : Bytes)
    (hto : ∀ out, appendAddress out toAddr =
      some { out with buf := out.buf ++ packAddress account })
    (hdna : hexToBytes dnaHex = some dnaBytes)
    (hword : List.replicate (32 - dnaBytes.length) 0 ++ dnaBytes = packWord dna) :
    rootBuffer shr token toAddr src weights dnaHex = some
      ⟨written shr (token.setWidth 64) ++ (packAddress account ++
          (written shr (src.setWidth 64) ++ (weights ++ packWord dna))),
        (List.range 32).reverse.map (· * 8) ++ (List.range 32).reverse.map (· * 8)⟩ := by
  unfold rootBuffer
  simp only [append_uint256_eq, hto, hdna, hword, Option.bind_eq_bind, Option.bind_some,
    Option.pure_def, List.nil_append, List.append_assoc]

theorem root_buffer_spelled (token src : BitVec 32) {toAddr dnaHex : Bytes} {account : Address}
    {dna : Bytes32} (weights : Bytes) (hto : Spells (strip0x toAddr) (packAddress account))
    (hdna : Spells (strip0x dnaHex) (packWord dna)) :
    rootBuffer shr token toAddr src weights dnaHex = some
      ⟨written shr (token.setWidth 64) ++ (packAddress account ++
          (written shr (src.setWidth 64) ++ (weights ++ packWord dna))),
        (List.range 32).reverse.map (· * 8) ++ (List.range 32).reverse.map (· * 8)⟩ := by
  apply root_buffer_eq token src weights (fun _ => append_address_spelled hto)
    (hex_to_bytes_spelled hdna)
  rw [length_packWord, Nat.sub_self, List.replicate_zero, List.nil_append]

/-! ## What it should be -/

/-- The shifts by whole bytes that move everything out of the value leave nothing in the low byte. -/
def Emptied (shr : Shr) (v : BitVec 64) : Prop :=
  ∀ i, 8 ≤ i → i < 32 → (shr v (i * 8)).setWidth 8 = (0 : BitVec 8)

theorem written_eq_packWord_iff (hshr : ∀ v n, n < 64 → shr v n = v >>> n) (v : BitVec 64) :
    written shr v = packWord (v.setWidth 256) ↔ Emptied shr v := by
  have hv : (v.setWidth 256).toNat = v.toNat := by
    rw [BitVec.toNat_setWidth]
    omega
  have hlow (i : Nat) (hi : i < 8) :
      (shr v (i * 8)).setWidth 8 = BitVec.ofNat 8 (v.toNat / 256 ^ i) := by
    apply BitVec.eq_of_toNat_eq
    rw [hshr v _ (by omega), BitVec.toNat_setWidth, BitVec.toNat_ushiftRight,
      Nat.shiftRight_eq_div_pow, BitVec.toNat_ofNat, Nat.mul_comm, Nat.pow_mul]
  have hhigh (i : Nat) (hi : 8 ≤ i) : v.toNat / 256 ^ i = 0 := by
    apply Nat.div_eq_of_lt
    calc v.toNat < 256 ^ 8 := v.isLt
      _ ≤ 256 ^ i := Nat.pow_le_pow_right (by decide) hi
  rw [written, packWord, hv, bigEndian_eq_map, List.map_inj_left]
  constructor
  · intro h i hi hlt
    rw [h i (by simpa using hlt), hhigh i hi]
    rfl
  · intro h i hmem
    have hlt : i < 32 := by simpa using hmem
    by_cases hi : i < 8
    · exact hlow i hi
    · rw [h i (by omega) hlt, hhigh i (by omega)]
      rfl

/-- **The buffer is the contracts' buffer as far as the machine empties its words.** -/
theorem written_preimage_iff (hshr : ∀ v n, n < 64 → shr v n = v >>> n) (token src : BitVec 32)
    (account : Address) (weights : Bytes) (dna : Bytes32) :
    written shr (token.setWidth 64) ++ (packAddress account ++
        (written shr (src.setWidth 64) ++ (weights ++ packWord dna))) =
        Chain.preimage (token.setWidth 256) account (src.setWidth 256) weights dna ↔
      Emptied shr (token.setWidth 64) ∧ Emptied shr (src.setWidth 64) := by
  have hwide (x : BitVec 32) : x.setWidth 256 = (x.setWidth 64).setWidth 256 := by
    apply BitVec.eq_of_toNat_eq
    simp only [BitVec.toNat_setWidth]
    omega
  rw [← written_eq_packWord_iff hshr, ← written_eq_packWord_iff hshr, hwide token, hwide src]
  unfold Chain.preimage Packed.encode
  constructor
  · intro h
    obtain ⟨htoken, h⟩ := List.append_inj h (by simp)
    obtain ⟨-, h⟩ := List.append_inj h (by simp)
    exact ⟨htoken, (List.append_inj h (by simp)).1⟩
  · rintro ⟨htoken, hsrc⟩
    rw [htoken, hsrc]

theorem root_buffer_iff (hshr : ∀ v n, n < 64 → shr v n = v >>> n) (token src : BitVec 32)
    {toAddr dnaHex : Bytes} {account : Address} {dna : Bytes32} (weights : Bytes)
    (hto : Spells (strip0x toAddr) (packAddress account))
    (hdna : Spells (strip0x dnaHex) (packWord dna)) :
    (rootBuffer shr token toAddr src weights dnaHex).map Out.buf =
        some (Chain.preimage (token.setWidth 256) account (src.setWidth 256) weights dna) ↔
      Emptied shr (token.setWidth 64) ∧ Emptied shr (src.setWidth 64) := by
  rw [root_buffer_spelled token src weights hto hdna, Option.map_some, Option.some.injEq]
  exact written_preimage_iff hshr token src account weights dna

/-- The shift of a machine that takes the count modulo 64. -/
def masked : Shr := fun v n => v >>> (n % 64)

theorem masked_below (v : BitVec 64) (n : Nat) (hn : n < 64) : masked v n = v >>> n := by
  rw [masked, Nat.mod_eq_of_lt hn]

/-- **No input does without shifts that have no meaning**, whatever the machine makes of them: 24 of
the 32 shifts of an integer are by 64 bits or more. -/
theorem root_buffer_never (hshr : ∀ v n, n < 64 → shr v n = v >>> n) (token src : BitVec 32)
    {toAddr dnaHex : Bytes} {account : Address} {dna : Bytes32} (weights : Bytes)
    (hto : Spells (strip0x toAddr) (packAddress account))
    (hdna : Spells (strip0x dnaHex) (packWord dna)) :
    ∃ out, rootBuffer shr token toAddr src weights dnaHex = some out ∧
      (out.buf = Chain.preimage (token.setWidth 256) account (src.setWidth 256) weights dna ↔
        Emptied shr (token.setWidth 64) ∧ Emptied shr (src.setWidth 64)) ∧
      ¬ (out.buf = Chain.preimage (token.setWidth 256) account (src.setWidth 256) weights dna ∧
        ∀ n ∈ out.shifts, n < 64) := by
  have hbuffer : rootBuffer shr token toAddr src weights dnaHex = some _ :=
    root_buffer_spelled token src weights hto hdna
  refine ⟨_, hbuffer, ?_, ?_⟩
  · rw [← root_buffer_iff hshr token src weights hto hdna, hbuffer, Option.map_some,
      Option.some.injEq]
  · rintro ⟨-, hcounts⟩
    have hfirst : 31 * 8 < 64 :=
      hcounts _ (List.mem_append_left _ (List.mem_map_of_mem (by simp)))
    omega

theorem root_buffer_never_sample :
    ∃ out, rootBuffer masked 1 (text "0x00000000000000000000000000000000000000cc") 5 [7, 9]
        (toHex (packWord 3)) = some out ∧
      (out.buf = Chain.preimage 1 0xcc 5 [7, 9] 3 ↔ Emptied masked 1 ∧ Emptied masked 5) ∧
      ¬ (out.buf = Chain.preimage 1 0xcc 5 [7, 9] 3 ∧ ∀ n ∈ out.shifts, n < 64) :=
  root_buffer_never masked_below 1 5 [7, 9] (spells_to_hex (packAddress 0xcc))
    (spells_to_hex (packWord 3))

/-- Token 1 from chain 5, on a machine that masks the count. -/
theorem root_buffer_masked_sample :
    ∃ out, rootBuffer masked 1 (text "0x00000000000000000000000000000000000000cc") 5 [7, 9]
        (toHex (packWord 3)) = some out ∧
      out.buf ≠ Chain.preimage 1 0xcc 5 [7, 9] 3 ∧ 248 ∈ out.shifts ∧
      out.buf.take 32 = [0, 0, 0, 0, 0, 0, 0, 1, 0, 0, 0, 0, 0, 0, 0, 1,
        0, 0, 0, 0, 0, 0, 0, 1, 0, 0, 0, 0, 0, 0, 0, 1] := by
  have hto : Spells (strip0x (text "0x00000000000000000000000000000000000000cc"))
      (packAddress 0xcc) := spells_to_hex (packAddress 0xcc)
  have hdna : Spells (strip0x (toHex (packWord 3))) (packWord 3) := spells_to_hex (packWord 3)
  refine ⟨_, root_buffer_spelled 1 5 [7, 9] hto hdna, ?_, ?_, ?_⟩
  · decide +kernel
  · decide +kernel
  · decide +kernel

/-! ## A machine that masks the count -/

/-- It starts over with the low byte, so every byte of the value comes up again. -/
theorem emptied_masked_iff (v : BitVec 64) : Emptied masked v ↔ v = 0 := by
  constructor
  · intro h
    apply BitVec.eq_of_getLsbD_eq
    intro k hk
    have hbyte := congrArg (fun b => b.getLsbD (k % 8)) (h (8 + k / 8) (by omega) (by omega))
    have hcount : (8 + k / 8) * 8 % 64 = k / 8 * 8 := by omega
    have hplace : k / 8 * 8 + k % 8 = k := by omega
    have hlow : k % 8 < 8 := by omega
    simpa [masked, hcount, hplace, hlow] using hbyte
  · rintro rfl i - -
    simp [masked]

/-- There the relay and the contracts agree about the token 0 from the chain 0 only. -/
theorem masked_iff (token src : BitVec 32) {toAddr dnaHex : Bytes} {account : Address}
    {dna : Bytes32} (weights : Bytes) (hto : Spells (strip0x toAddr) (packAddress account))
    (hdna : Spells (strip0x dnaHex) (packWord dna)) :
    (rootBuffer masked token toAddr src weights dnaHex).map Out.buf =
        some (Chain.preimage (token.setWidth 256) account (src.setWidth 256) weights dna) ↔
      token = 0 ∧ src = 0 := by
  have hzero (x : BitVec 32) : x.setWidth 64 = 0 ↔ x = 0 := by
    constructor
    · intro h
      apply BitVec.eq_of_toNat_eq
      have := congrArg BitVec.toNat h
      rw [BitVec.toNat_setWidth] at this
      simp at this ⊢
      omega
    · rintro rfl
      rfl
  rw [root_buffer_iff masked_below token src weights hto hdna, emptied_masked_iff,
    emptied_masked_iff, hzero, hzero]

end ChainBeasts.Onchain
