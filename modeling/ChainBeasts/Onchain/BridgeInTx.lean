import ChainBeasts.Onchain.AbiWords
import ChainBeasts.Onchain.BridgeCli

/-! # The transaction of `bridge_cli in`

The tool writes the values of a bridged creature one after the other: there is no word for the
destination chain, and the weights stand in their place instead of behind an offset. The contract
takes its seven arguments from the first seven words all the same, so the length of the weights is
its destination chain, and their first words are an offset, the dna and another offset. Whether it
reads what the tool means is a coincidence of the weights with everything around them
(`bridge_in_iff`). -/

namespace ChainBeasts.Onchain

open ChainBeasts.Evm
open ChainBeasts.Contracts (Chain.preimage)
open ChainBeasts.Pouw.ProofSystem (toHex)

/-- `none` is the exception of a string of negative length. -/
def encodeAddress (addr : Bytes) : Option Bytes :=
  let h := strip0x addr
  if h.length ≤ 64 then some (List.replicate (64 - h.length) 0x30 ++ h) else none

/-- The arguments of the command, as it reads them. -/
structure InCommand where
  token : BitVec 32
  toAddr : Bytes
  src : BitVec 32
  dst : BitVec 32
  weightsBytes : Bytes
  dnaHex : Bytes

namespace InCommand

/-- The proof that the tool makes up, with the recipient as encoded. -/
def proof (c : InCommand) (recipient : Bytes) : Bytes :=
  encodeUint256 (c.token.setWidth 64) ++ (recipient ++
    (encodeBytes (toHex c.weightsBytes) ++ encodeBytes32 c.dnaHex))

/-- The `data` of the transaction. -/
def data (c : InCommand) : Option Bytes := do
  let weightsHex := toHex c.weightsBytes
  let recipient ← encodeAddress c.toAddr
  return text "0x4b42d211" ++ (encodeUint256 (c.token.setWidth 64) ++ (recipient ++
    (encodeUint256 (c.src.setWidth 64) ++ (encodeBytes weightsHex ++
      (encodeBytes32 c.dnaHex ++ encodeBytes (c.proof recipient))))))

/-- The whole command: what is sent, or nothing if none of five queries finds the root verified. -/
def run (keccak256Digest : Bytes → Bytes) (shr : Shr) (verify : Nat → Bytes → Bool)
    (c : InCommand) : Option (Option Bytes) := do
  let root ← computeRootHash keccak256Digest shr c.token c.toAddr c.src c.weightsBytes
    c.dnaHex
  if (List.range 5).any fun i => verify i root then
    let data ← c.data
    return some data
  else return none

/-! ## What the contract reads -/

/-- The arguments of `bridgeIn`. -/
structure Received where
  tokenId : U256
  toAddr : Address
  srcChainId : U256
  dstChainId : U256
  genesisWeights : Bytes
  dna : Bytes32
  proof : Bytes
  deriving DecidableEq

def received (args : Bytes) : Option Received := do
  let tokenId ← Abi.wordAt args 0
  let toAddr ← Abi.addressAt args 32
  let srcChainId ← Abi.wordAt args 64
  let dstChainId ← Abi.wordAt args 96
  let genesisWeights ← Abi.bytesAt args 128
  let dna ← Abi.wordAt args 160
  let proof ← Abi.bytesAt args 192
  return { tokenId, toAddr, srcChainId, dstChainId, genesisWeights, dna, proof }

theorem received_eq_some {args : Bytes} {p : Received} :
    received args = some p ↔ Abi.wordAt args 0 = some p.tokenId ∧
      Abi.addressAt args 32 = some p.toAddr ∧ Abi.wordAt args 64 = some p.srcChainId ∧
      Abi.wordAt args 96 = some p.dstChainId ∧ Abi.bytesAt args 128 = some p.genesisWeights ∧
      Abi.wordAt args 160 = some p.dna ∧ Abi.bytesAt args 192 = some p.proof := by
  unfold received
  simp only [Option.bind_eq_bind, Option.bind_eq_some_iff, Option.pure_def, Option.some.injEq]
  constructor
  · rintro ⟨tokenId, h0, toAddr, h1, src, h2, dst, h3, weights, h4, dna, h5, proof, h6, rfl⟩
    exact ⟨h0, h1, h2, h3, h4, h5, h6⟩
  · rintro ⟨h0, h1, h2, h3, h4, h5, h6⟩
    exact ⟨_, h0, _, h1, _, h2, _, h3, _, h4, _, h5, _, h6, rfl⟩

/-! ## What is sent -/

/-- The recipient is up to 40 digits, the dna up to 64, each with or without `0x`. -/
structure WellFormed (c : InCommand) : Prop where
  to_length : (strip0x c.toAddr).length ≤ 40
  to_digits : ∀ d ∈ strip0x c.toAddr, (digit d).isSome
  dna_length : (strip0x c.dnaHex).length ≤ 64
  dna_digits : ∀ d ∈ strip0x c.dnaHex, (digit d).isSome

def account (c : InCommand) : Address := BitVec.ofNat 160 (value (strip0x c.toAddr))

def dna (c : InCommand) : Bytes32 := BitVec.ofNat 256 (value (strip0x c.dnaHex))

/-- What the tool means. -/
def meant (c : InCommand) (proof : Bytes) : Received where
  tokenId := c.token.setWidth 256
  toAddr := c.account
  srcChainId := c.src.setWidth 256
  dstChainId := c.dst.setWidth 256
  genesisWeights := c.weightsBytes
  dna := c.dna
  proof := proof

/-- The word of a length, of which the encoder keeps 32 bits. -/
def lengthWord (n : Nat) : U256 := (BitVec.ofNat 32 n).setWidth 256

/-- The weights, padded to whole words. -/
def body (c : InCommand) : Bytes := c.weightsBytes ++ Abi.padding c.weightsBytes.length

/-- The bytes of the proof. -/
def madeProof (c : InCommand) : Bytes :=
  packWord (c.token.setWidth 256) ++ (packWord (c.account.setWidth 256) ++
    ((packWord (lengthWord c.weightsBytes.length) ++ c.body) ++ packWord c.dna))

/-- The bytes after the selector. -/
def sent (c : InCommand) : Bytes :=
  packWord (c.token.setWidth 256) ++ (packWord (c.account.setWidth 256) ++
    (packWord (c.src.setWidth 256) ++ (packWord (lengthWord c.weightsBytes.length) ++
      (c.body ++ (packWord c.dna ++
        (packWord (lengthWord c.madeProof.length) ++ c.madeProof))))))

variable {c : InCommand}

theorem length_made_proof (c : InCommand) : c.madeProof.length = 128 + c.body.length := by
  simp only [madeProof, List.length_append, length_packWord]
  omega

theorem dvd_length_body (c : InCommand) : 32 ∣ c.body.length := Abi.dvd_length_padded _

theorem account_toNat (hc : c.WellFormed) : c.account.toNat = value (strip0x c.toAddr) := by
  have hlt : value (strip0x c.toAddr) < 16 ^ 40 := by
    calc value (strip0x c.toAddr) < 16 ^ (strip0x c.toAddr).length := value_lt _
      _ ≤ 16 ^ 40 := Nat.pow_le_pow_right (by decide) hc.to_length
  rw [account, BitVec.toNat_ofNat, Nat.mod_eq_of_lt (by omega)]

theorem spells_uint256 (v : BitVec 32) :
    Spells (encodeUint256 (v.setWidth 64)) (packWord (v.setWidth 256)) := by
  have hback : (v.setWidth 64).setWidth 32 = v := by
    apply BitVec.eq_of_toNat_eq
    simp only [BitVec.toNat_setWidth]
    omega
  rw [encodeUint256, hback]
  exact spells_encode_uint32 v

theorem encode_address_spelled (hc : c.WellFormed) :
    ∃ h, encodeAddress c.toAddr = some h ∧ Spells h (packWord (c.account.setWidth 256)) := by
  have hlen := hc.to_length
  have hwide : c.account.setWidth 256 = BitVec.ofNat 256 (value (strip0x c.toAddr)) := by
    rw [← account_toNat hc, BitVec.ofNat_toNat]
  rw [hwide]
  exact ⟨_, if_pos (by omega), spells_padded (by omega) hc.to_digits⟩

theorem spells_inline (c : InCommand) : Spells (encodeBytes (toHex c.weightsBytes))
    (packWord (lengthWord c.weightsBytes.length) ++ c.body) := by
  apply spells_encode_bytes
  rw [strip_0x_spelled (spells_to_hex _)]
  exact spells_to_hex _

/-- **The layout of the transaction.** -/
theorem data_spelled (hc : c.WellFormed) :
    ∃ h, c.data = some (text "0x" ++ h) ∧ Spells h ([0x4b, 0x42, 0xd2, 0x11] ++ c.sent) := by
  obtain ⟨recipient, hrecipient, hto⟩ := encode_address_spelled hc
  have hselector : Spells (text "4b42d211") [0x4b, 0x42, 0xd2, 0x11] :=
    spells_to_hex [0x4b, 0x42, 0xd2, 0x11]
  have hdna : Spells (encodeBytes32 c.dnaHex) (packWord c.dna) :=
    spells_encode_bytes32 hc.dna_length hc.dna_digits
  have hproof : Spells (c.proof recipient) c.madeProof :=
    (spells_uint256 c.token).append (hto.append (c.spells_inline.append hdna))
  have hwhole : Abi.padding c.madeProof.length = [] := by
    have := c.dvd_length_body
    rw [Abi.padding, length_made_proof, List.replicate_eq_nil_iff]
    omega
  have hlast : Spells (encodeBytes (c.proof recipient))
      (packWord (lengthWord c.madeProof.length) ++ c.madeProof) := by
    have := spells_encode_bytes (by rw [strip_0x_spelled hproof]; exact hproof)
    rwa [hwhole, List.append_nil] at this
  refine ⟨text "4b42d211" ++ (encodeUint256 (c.token.setWidth 64) ++ (recipient ++
    (encodeUint256 (c.src.setWidth 64) ++ (encodeBytes (toHex c.weightsBytes) ++
      (encodeBytes32 c.dnaHex ++ encodeBytes (c.proof recipient)))))), ?_, ?_⟩
  · unfold data
    simp only [hrecipient, Option.bind_eq_bind, Option.bind_some, Option.pure_def]
    rfl
  · apply hselector.append
    apply (spells_uint256 c.token).append
    apply hto.append
    apply (spells_uint256 c.src).append
    have hrest := c.spells_inline.append (hdna.append hlast)
    rwa [List.append_assoc] at hrest

/-! ## When the contract reads what the tool means -/

/-- The words that stand where the contract looks for an offset, the dna and another offset. -/
def slots (c : InCommand) : Bytes :=
  c.body ++ (packWord c.dna ++ (packWord (lengthWord c.madeProof.length) ++ c.madeProof))

/-- The first four words are the token, the recipient, the source chain and the length. -/
theorem wordAt_sent (c : InCommand) :
    Abi.wordAt c.sent 0 = some (c.token.setWidth 256) ∧
      Abi.wordAt c.sent 32 = some (c.account.setWidth 256) ∧
      Abi.wordAt c.sent 64 = some (c.src.setWidth 256) ∧
      Abi.wordAt c.sent 96 = some (lengthWord c.weightsBytes.length) ∧
      ∀ i, Abi.wordAt c.sent (128 + i) = Abi.wordAt c.slots i := by
  unfold sent slots
  refine ⟨Abi.wordAt_packWord _ _, ?_, ?_, ?_, ?_⟩
  · exact (Abi.wordAt_packWord_add _ _ 0).trans (Abi.wordAt_packWord _ _)
  · exact (Abi.wordAt_packWord_add _ _ 32).trans
      ((Abi.wordAt_packWord_add _ _ 0).trans (Abi.wordAt_packWord _ _))
  · exact (Abi.wordAt_packWord_add _ _ 64).trans ((Abi.wordAt_packWord_add _ _ 32).trans
      ((Abi.wordAt_packWord_add _ _ 0).trans (Abi.wordAt_packWord _ _)))
  · intro i
    rw [show 128 + i = 32 + (32 + (32 + (32 + i))) by omega, Abi.wordAt_packWord_add,
      Abi.wordAt_packWord_add, Abi.wordAt_packWord_add, Abi.wordAt_packWord_add]

/-- What the contract reads of what is sent. -/
theorem received_sent_iff {proof : Bytes} :
    received c.sent = some (c.meant proof) ↔
      c.dst = BitVec.ofNat 32 c.weightsBytes.length ∧
      Abi.bytesAt c.sent 128 = some c.weightsBytes ∧ Abi.wordAt c.slots 32 = some c.dna ∧
      Abi.bytesAt c.sent 192 = some proof := by
  obtain ⟨h0, h32, h64, h96, hslots⟩ := c.wordAt_sent
  have h160 := hslots 32
  rw [received_eq_some, Abi.addressAt_eq_some]
  simp only [meant, h0, h32, h64, h96, h160, true_and, Option.some.injEq]
  have hdst : lengthWord c.weightsBytes.length = c.dst.setWidth 256 ↔
      c.dst = BitVec.ofNat 32 c.weightsBytes.length := by
    constructor
    · intro h
      exact (setWidth_32_inj h).symm
    · intro h
      rw [h, lengthWord]
  rw [hdst]

/-- The coincidence. The destination chain is the length of the weights, of which there are some;
their first word is a place where that length and the weights happen to stand; a second word of them
is the dna; and the third word, or what comes in its place, is that of some byte string. -/
structure Coincides (c : InCommand) : Prop where
  dst : c.dst = BitVec.ofNat 32 c.weightsBytes.length
  nonempty : c.weightsBytes ≠ []
  weights : ∃ offset, Abi.wordAt c.body 0 = some offset ∧
    Abi.StandsAt c.sent offset c.weightsBytes
  dna : 32 < c.weightsBytes.length → Abi.wordAt c.body 32 = some c.dna
  proof : ∃ proof offset, Abi.wordAt (c.body ++ (packWord c.dna ++ packWord 160)) 64 = some offset ∧
    Abi.StandsAt c.sent offset proof

/-- Without weights the length of the proof would have to be the dna, and the dna the offset of its
own length. -/
theorem not_received_empty {proof : Bytes} (hempty : c.weightsBytes = []) :
    received c.sent ≠ some (c.meant proof) := by
  intro h
  obtain ⟨-, -, -, -, hslots⟩ := c.wordAt_sent
  obtain ⟨-, hweights, hdna, -⟩ := received_sent_iff.mp h
  obtain ⟨offset, hoffset, -, -, hstands⟩ := Abi.bytesAt_eq_some.mp hweights
  have hbody : c.body = [] := by rw [body, hempty]; rfl
  have hproof : lengthWord c.madeProof.length = 128 := by
    rw [length_made_proof, hbody]
    rfl
  have h128 := hslots 0
  have hfirst : Abi.wordAt c.slots 0 = some c.dna := by
    rw [slots, hbody, List.nil_append]
    exact Abi.wordAt_packWord _ _
  have hsecond : Abi.wordAt c.slots 32 = some 128 := by
    rw [slots, hbody, List.nil_append, hproof]
    exact (Abi.wordAt_packWord_add _ _ 0).trans (Abi.wordAt_packWord _ _)
  have hvalue : c.dna = 128 := Option.some.inj (hdna.symm.trans hsecond)
  have hplace : offset = 128 := by
    rw [← hvalue]
    exact Option.some.inj (hoffset.symm.trans (h128.trans hfirst))
  rw [hplace, hempty] at hstands
  have hzero : Abi.wordAt c.sent 128 = some 0 :=
    Abi.wordAt_eq_some.mpr ((List.prefix_append _ _).trans hstands)
  rw [h128, hfirst, hvalue, Option.some.injEq] at hzero
  exact absurd hzero (by decide)

/-- The weights fill up their words. -/
theorem length_body (c : InCommand) :
    c.body.length = 32 * ((c.weightsBytes.length + 31) / 32) := by
  simp only [body, Abi.padding, List.length_append, List.length_replicate]
  omega

theorem length_body_pos (h : c.weightsBytes ≠ []) : 32 ≤ c.body.length := by
  have hpos := List.length_pos_iff.mpr h
  rw [length_body]
  omega

theorem slot_weights (h : c.weightsBytes ≠ []) :
    Abi.wordAt c.slots 0 = Abi.wordAt c.body 0 := by
  have hlen := length_body_pos h
  apply Abi.wordAt_append_left
  omega

theorem slot_dna (h : c.weightsBytes ≠ []) : Abi.wordAt c.slots 32 = some c.dna ↔
    (32 < c.weightsBytes.length → Abi.wordAt c.body 32 = some c.dna) := by
  have hpos := List.length_pos_iff.mpr h
  by_cases hlong : 32 < c.weightsBytes.length
  · have hsecond : 32 + 32 ≤ c.body.length := by
      rw [length_body]
      omega
    rw [slots, Abi.wordAt_append_left hsecond]
    exact ⟨fun h _ => h, fun h => h hlong⟩
  · have hone : c.body.length = 32 := by
      rw [length_body]
      omega
    refine iff_of_true ?_ fun h => absurd h hlong
    have hskip := Abi.wordAt_append_right c.body
      (packWord c.dna ++ (packWord (lengthWord c.madeProof.length) ++ c.madeProof)) 0
    rw [hone] at hskip
    exact hskip.trans (Abi.wordAt_packWord _ _)

/-- After one word of weights comes the length of the proof, which is then 160. -/
theorem slot_proof (h : c.weightsBytes ≠ []) : Abi.wordAt c.slots 64 =
    Abi.wordAt (c.body ++ (packWord c.dna ++ packWord 160)) 64 := by
  have hlen := length_body_pos h
  have hdvd := c.dvd_length_body
  by_cases hlong : 64 ≤ c.body.length
  · have hfront : 64 + 32 ≤ (c.body ++ packWord c.dna).length := by
      rw [List.length_append, length_packWord]
      omega
    rw [slots, ← List.append_assoc c.body, ← List.append_assoc c.body (packWord c.dna),
      Abi.wordAt_append_left hfront, Abi.wordAt_append_left hfront]
  · have hone : c.body.length = 32 := by omega
    have hproof : lengthWord c.madeProof.length = 160 := by
      rw [length_made_proof, hone]
      rfl
    have hfront : (c.body ++ (packWord c.dna ++ packWord 160)).length = 96 := by
      rw [List.length_append, List.length_append, length_packWord, length_packWord, hone]
    rw [slots, hproof, ← List.append_assoc (packWord c.dna), ← List.append_assoc c.body]
    apply Abi.wordAt_append_left
    rw [hfront]

/-- **The contract reads what the tool means if and only if the values coincide.** -/
theorem received_meant_iff (c : InCommand) :
    (∃ proof, received c.sent = some (c.meant proof)) ↔ c.Coincides := by
  obtain ⟨-, -, -, -, hslots⟩ := c.wordAt_sent
  have h128 := hslots 0
  have h192 := hslots 64
  constructor
  · rintro ⟨proof, h⟩
    have hnonempty : c.weightsBytes ≠ [] := fun hempty => not_received_empty hempty h
    obtain ⟨hdst, hweights, hdna, hproof⟩ := received_sent_iff.mp h
    obtain ⟨offset, hoffset, hstands⟩ := Abi.bytesAt_eq_some.mp hweights
    obtain ⟨place, hplace, hproof⟩ := Abi.bytesAt_eq_some.mp hproof
    refine ⟨hdst, hnonempty, ⟨offset, ?_, hstands⟩, (slot_dna hnonempty).mp hdna,
      proof, place, ?_, hproof⟩
    · rw [← slot_weights hnonempty, ← h128]
      exact hoffset
    · rw [← slot_proof hnonempty, ← h192]
      exact hplace
  · rintro ⟨hdst, hnonempty, ⟨offset, hoffset, hstands⟩, hdna, proof, place, hplace, hproof⟩
    refine ⟨proof, received_sent_iff.mpr ⟨hdst, ?_, (slot_dna hnonempty).mpr hdna, ?_⟩⟩
    · apply Abi.bytesAt_eq_some.mpr
      refine ⟨offset, ?_, hstands⟩
      rw [← slot_weights hnonempty, ← h128] at hoffset
      exact hoffset
    · apply Abi.bytesAt_eq_some.mpr
      refine ⟨place, ?_, hproof⟩
      rw [← slot_proof hnonempty, ← h192] at hplace
      exact hplace

/-! ## The root -/

theorem append_address_short (hc : c.WellFormed) (out : Out) :
    appendAddress out c.toAddr = some { out with buf := out.buf ++ packAddress c.account } := by
  have hlen := hc.to_length
  have hpadded : (if (strip0x c.toAddr).length < 40 then
      List.replicate (40 - (strip0x c.toAddr).length) 0x30 ++ strip0x c.toAddr
      else strip0x c.toAddr) =
      List.replicate (40 - (strip0x c.toAddr).length) 0x30 ++ strip0x c.toAddr := by
    split
    · rfl
    · rw [show 40 - (strip0x c.toAddr).length = 0 by omega]
      rfl
  have hs := spells_value (n := 20)
    (h := List.replicate (40 - (strip0x c.toAddr).length) 0x30 ++ strip0x c.toAddr)
    (by rw [List.length_append, List.length_replicate]; omega) (digits_padded _ hc.to_digits)
  rw [value_padded, ← account_toNat hc] at hs
  unfold appendAddress
  simp only [hpadded, parse_spelled hs, Option.bind_eq_bind, Option.bind_some, Option.pure_def]
  rfl

/-- Bytes that are padded to a word make the word of their value. -/
theorem padded_bytes {h bs : Bytes} (hs : Spells h bs) (hlen : bs.length ≤ 32) :
    List.replicate (32 - bs.length) 0 ++ bs = packWord (BitVec.ofNat 256 (value h)) := by
  have hzeros := (spells_zeros (32 - bs.length)).append hs
  have hcount : (List.replicate (2 * (32 - bs.length)) 0x30 ++ h).length = 64 := by
    rw [List.length_append, List.length_replicate, hs.length]
    omega
  have hword := spells_word hcount (digits_padded _ hs.digits)
  rw [value_padded] at hword
  exact hzeros.unique hword

theorem hex_to_bytes_short (hc : c.WellFormed) : ∃ bytes, hexToBytes c.dnaHex = some bytes ∧
    List.replicate (32 - bytes.length) 0 ++ bytes = packWord c.dna := by
  have hlen := hc.dna_length
  have hdigits := hc.dna_digits
  unfold hexToBytes dna
  generalize strip0x c.dnaHex = h at *
  -- an odd number of digits gets a zero in front
  have heven : ∃ k, (if h.length % 2 = 1 then 0x30 :: h else h).length = 2 * k ∧ k ≤ 32 := by
    split
    · exact ⟨(h.length + 1) / 2, by rw [List.length_cons]; omega, by omega⟩
    · exact ⟨h.length / 2, by omega, by omega⟩
  have hdigits' : ∀ d ∈ (if h.length % 2 = 1 then 0x30 :: h else h), (digit d).isSome := by
    split
    · exact digits_padded 1 hdigits
    · exact hdigits
  have hvalue : value (if h.length % 2 = 1 then 0x30 :: h else h) = value h := by
    split
    · exact value_padded 1 h
    · rfl
  obtain ⟨k, hk, hle⟩ := heven
  have hs := spells_value hk hdigits'
  have hword := padded_bytes hs (by rw [length_bigEndian]; exact hle)
  rw [hvalue] at hs hword
  exact ⟨_, parse_spelled hs, hword⟩

/-- What is sent is the `data`, and the root it is about was found verified. -/
theorem run_sends {keccak256Digest : Bytes → Bytes} {shr : Shr} {verify : Nat → Bytes → Bool}
    {d : Bytes} (h : c.run keccak256Digest shr verify = some (some d)) :
    c.data = some d ∧ ∃ root i, computeRootHash keccak256Digest shr c.token c.toAddr c.src
      c.weightsBytes c.dnaHex = some root ∧ i < 5 ∧ verify i root = true := by
  simp only [run, Option.bind_eq_bind, Option.bind_eq_some_iff, Option.pure_def] at h
  obtain ⟨root, hroot, h⟩ := h
  split at h
  · next hany =>
      obtain ⟨data, hdata, h⟩ := Option.bind_eq_some_iff.mp h
      obtain ⟨i, hi, hverify⟩ := List.any_eq_true.mp hany
      rw [Option.some.injEq, Option.some.injEq] at h
      rw [← h]
      exact ⟨hdata, root, i, hroot, List.mem_range.mp hi, hverify⟩
  · exact absurd (Option.some.inj h) (by simp)

/-- **What becomes of `bridge_cli in`.** For every token, recipient, chains, weights and dna, the
contract reads what the tool means if and only if the values coincide; and the buffer that the tool
hashed is the one the contract hashes for these values if and only if the machine empties the words
of the token and of the chain. -/
theorem bridge_in_iff {shr : Shr} (hshr : ∀ v n, n < 64 → shr v n = v >>> n) (c : InCommand)
    (hc : c.WellFormed) :
    (∃ h, c.data = some (text "0x" ++ h) ∧ Spells h ([0x4b, 0x42, 0xd2, 0x11] ++ c.sent)) ∧
    ((∃ proof, received c.sent = some (c.meant proof)) ↔ c.Coincides) ∧
    ((rootBuffer shr c.token c.toAddr c.src c.weightsBytes c.dnaHex).map Out.buf =
        some (Chain.preimage (c.token.setWidth 256) c.account (c.src.setWidth 256)
          c.weightsBytes c.dna) ↔
      Emptied shr (c.token.setWidth 64) ∧ Emptied shr (c.src.setWidth 64)) := by
  refine ⟨data_spelled hc, received_meant_iff c, ?_⟩
  obtain ⟨dnaBytes, hdna, hword⟩ := hex_to_bytes_short hc
  rw [root_buffer_eq c.token c.src c.weightsBytes (append_address_short hc) hdna hword,
    Option.map_some, Option.some.injEq]
  exact written_preimage_iff hshr c.token c.src c.account c.weightsBytes c.dna

/-- One word of weights, the offset of its own length; bound for the chain 32. -/
def lucky : InCommand where
  token := 1
  toAddr := text "0xabc"
  src := 1
  dst := 32
  weightsBytes := List.replicate 31 0 ++ [0x60]
  dnaHex := text "0x0"

theorem bridge_in_iff_lucky :
    received lucky.sent = some (lucky.meant []) ∧
    (∃ h, lucky.data = some (text "0x" ++ h) ∧
      Spells h ([0x4b, 0x42, 0xd2, 0x11] ++ lucky.sent)) ∧
    ((∃ proof, received lucky.sent = some (lucky.meant proof)) ↔ lucky.Coincides) ∧
    ((rootBuffer masked 1 (text "0xabc") 1 lucky.weightsBytes (text "0x0")).map Out.buf =
        some (Chain.preimage 1 lucky.account 1 lucky.weightsBytes lucky.dna) ↔
      Emptied masked 1 ∧ Emptied masked 1) :=
  ⟨by decide +kernel, bridge_in_iff masked_below lucky
    ⟨by decide, by decide, by decide, by decide⟩⟩

/-- The values of the tool's own test of its encoder. -/
def sample : InCommand where
  token := 1
  toAddr := text "0xabc"
  src := 1
  dst := 2
  weightsBytes := [0xde, 0xad, 0xbe, 0xef]
  dnaHex := text "1234"

/-- The four bytes of weights are taken for an offset far outside: the call reverts. -/
theorem sample_reverts :
    (∃ h, sample.data = some (text "0x" ++ h) ∧
      Spells h ([0x4b, 0x42, 0xd2, 0x11] ++ sample.sent)) ∧
      received sample.sent = none ∧ ¬ ∃ proof, received sample.sent = some (sample.meant proof) := by
  have hnone : received sample.sent = none := by decide +kernel
  refine ⟨data_spelled ⟨by decide, by decide, by decide, by decide⟩, hnone, ?_⟩
  rintro ⟨proof, h⟩
  rw [hnone] at h
  cases h

end InCommand

end ChainBeasts.Onchain
