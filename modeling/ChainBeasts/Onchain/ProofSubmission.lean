import ChainBeasts.Contracts.ProofVerifier
import ChainBeasts.Onchain.AbiWords
import ChainBeasts.Onchain.HttpClient

/-! # `OnchainProofVerifier::submit_proof`

The client writes a transaction as text: a selector, the root as a word, the offset of the proof and
the proof. The contract decodes the bytes that the digits spell. Both agree on the root and on every
byte of the proof (`send_tx_decodes`). -/

namespace ChainBeasts.Onchain

open ChainBeasts.Evm
open ChainBeasts.Contracts (ProofVerifier)

structure StarkProof where
  root : Bytes
  proof : Bytes

structure OnchainProofVerifier where
  contract : Bytes

namespace OnchainProofVerifier

/-- The `data` of the transaction. -/
def calldata (root proof : Bytes) : Bytes :=
  text "0xb76df398" ++ (encodeBytes32 root ++ (encodeUint256 0x40 ++ encodeBytes proof))

/-- The body that is posted. -/
def request (v : OnchainProofVerifier) (root proof : Bytes) : Bytes :=
  text "\x7b\"jsonrpc\":\"2.0\",\"method\":\"eth_sendTransaction\"," ++
    (text "\"params\":[\x7b\"to\":\"" ++ (v.contract ++ (text "\",\"data\":\"" ++
      (calldata root proof ++ text "\"\x7d],\"id\":1\x7d"))))

/-- The result, and the requests that the endpoint processes. -/
def sendTx (net : Nat → Attempt) (v : OnchainProofVerifier) (root proof : Bytes) :
    Bool × List Bytes :=
  let sent := httpPostJson net
  (sent.1, List.replicate sent.2 (v.request root proof))

def submitProof (net : Nat → Attempt) (v : OnchainProofVerifier) (proof : StarkProof) :
    Bool × List Bytes := v.sendTx net proof.root proof.proof

/-- What the contract makes of the arguments of a call to `submit_proof(bytes32,bytes)`. -/
def submitted (args : Bytes) : Option ProofVerifier.Call := do
  let rootHash ← Abi.wordAt args 0
  let proof ← Abi.bytesAt args 32
  return .submitProof rootHash proof

/-- The standard encoding of the two arguments is decoded. -/
theorem submitted_encoded (rootHash : Bytes32) {proof : Bytes} (hlen : proof.length < 2 ^ 64) :
    submitted (packWord rootHash ++ (packWord 64 ++ Abi.tail proof)) =
      some (.submitProof rootHash proof) := by
  have hroot : Abi.wordAt (packWord rootHash ++ (packWord 64 ++ Abi.tail proof)) 0 =
      some rootHash := Abi.wordAt_packWord _ _
  have hoffset : Abi.wordAt (packWord rootHash ++ (packWord 64 ++ Abi.tail proof)) 32 =
      some 64 := by
    rw [show 32 = 32 + 0 from rfl, Abi.wordAt_packWord_add]
    exact Abi.wordAt_packWord _ _
  have hfront : (packWord rootHash ++ packWord 64).length = 64 := by
    rw [List.length_append, length_packWord, length_packWord]
  have hproof : Abi.bytesAt (packWord rootHash ++ (packWord 64 ++ Abi.tail proof)) 32 =
      some proof := by
    have hread : Abi.wordAt (packWord rootHash ++ packWord 64 ++ (Abi.tail proof ++ [])) 32 =
        some (BitVec.ofNat 256 (packWord rootHash ++ packWord 64).length) := by
      rw [hfront, List.append_nil, List.append_assoc]
      exact hoffset
    have htail := Abi.bytesAt_tail (by rw [hfront]; decide) hlen hread
    rwa [List.append_nil, List.append_assoc] at htail
  unfold submitted
  simp only [hroot, hproof, Option.bind_eq_bind, Option.bind_some, Option.pure_def]

/-- **A submission arrives as it was meant.** For a root of up to 64 digits and a proof of an even
number of them, each with or without `0x`, the data spells a selector and whole words, which are the
standard encoding of the root and the proof and are decoded to them. -/
theorem send_tx_decodes (root proof : Bytes) (hroot : (strip0x root).length ≤ 64)
    (hrootDigits : ∀ c ∈ strip0x root, (digit c).isSome)
    (heven : (strip0x proof).length % 2 = 0) (hlen : (strip0x proof).length / 2 < 2 ^ 32)
    (hproofDigits : ∀ c ∈ strip0x proof, (digit c).isSome) :
    ∃ h args bytes rootHash, calldata root proof = text "0x" ++ h ∧
      Spells h ([0xb7, 0x6d, 0xf3, 0x98] ++ args) ∧ 32 ∣ args.length ∧
      rootHash = BitVec.ofNat 256 (value (strip0x root)) ∧ Spells (strip0x proof) bytes ∧
      args = packWord rootHash ++ (packWord 64 ++ Abi.tail bytes) ∧
      submitted args = some (.submitProof rootHash bytes) := by
  have hbytes : Spells (strip0x proof)
      (bigEndian ((strip0x proof).length / 2) (value (strip0x proof))) :=
    spells_value (by omega) hproofDigits
  have hcount := length_bigEndian ((strip0x proof).length / 2) (value (strip0x proof))
  generalize bigEndian ((strip0x proof).length / 2) (value (strip0x proof)) = bytes at *
  have hselector : Spells (text "b76df398") [0xb7, 0x6d, 0xf3, 0x98] :=
    spells_to_hex [0xb7, 0x6d, 0xf3, 0x98]
  have hoffset : Spells (encodeUint256 0x40) (packWord 64) := spells_encode_uint32 64
  refine ⟨text "b76df398" ++ (encodeBytes32 root ++ (encodeUint256 0x40 ++ encodeBytes proof)),
    _, bytes, _, rfl, ?_, ?_, rfl, hbytes, rfl, submitted_encoded _ (by omega)⟩
  · apply hselector.append
    apply (spells_encode_bytes32 hroot hrootDigits).append
    apply hoffset.append
    exact spells_encode_bytes_tail hbytes (by omega)
  · rw [List.length_append, List.length_append, length_packWord, length_packWord]
    have := Abi.dvd_length_tail bytes
    omega

/-- A root of three digits and a proof of two bytes. -/
theorem send_tx_decodes_short :
    ∃ h args bytes rootHash, calldata (text "0xabc") (text "0xDE01") = text "0x" ++ h ∧
      Spells h ([0xb7, 0x6d, 0xf3, 0x98] ++ args) ∧ 32 ∣ args.length ∧
      rootHash = BitVec.ofNat 256 (value (text "abc")) ∧ Spells (text "DE01") bytes ∧
      args = packWord rootHash ++ (packWord 64 ++ Abi.tail bytes) ∧
      submitted args = some (.submitProof rootHash bytes) :=
  send_tx_decodes (text "0xabc") (text "0xDE01") (by decide) (by decide) (by decide) (by decide)
    (by decide)

end OnchainProofVerifier

end ChainBeasts.Onchain
