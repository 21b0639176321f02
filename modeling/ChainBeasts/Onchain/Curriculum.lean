import ChainBeasts.Contracts.CurriculumDuel
import ChainBeasts.Onchain.EthEncoding
import ChainBeasts.Search

/-! # Fetching a curriculum

`load_curriculum` asks a node for the dataset of a duel and decodes the digits of the answer. What a
node returns for a `bytes` value is an encoding of it: an offset, a length, the bytes and a padding.
The client keeps all of it (`load_curriculum_carried`), and it asks with a selector and an id of its
own, so what it keeps is the stored dataset only by coincidence (`load_curriculum_iff`). -/

namespace ChainBeasts.Onchain

open ChainBeasts.Evm ChainBeasts.Search
open ChainBeasts.Contracts (CurriculumDuel)
open ChainBeasts.Pouw.ProofSystem (toHex)

/-- `http_post_json`: the response to a body from a host and port, if there is one. -/
abbrev HttpPostJson := Bytes → BitVec 16 → Bytes → Option Bytes

/-- The body of an `eth_call`. -/
def ethCall (contract data : Bytes) : Bytes :=
  text "\x7b\"jsonrpc\":\"2.0\",\"method\":\"eth_call\"," ++ (text "\"params\":[\x7b\"to\":\"" ++
    (contract ++ (text "\",\"data\":\"" ++ (data ++ text "\"\x7d,\"latest\"],\"id\":1\x7d"))))

/-! ## `OnchainCurriculumDuel` -/

structure OnchainCurriculumDuel where
  host : Bytes
  port : BitVec 16
  contract : Bytes

/-- `none` is the result `false`. -/
def OnchainCurriculumDuel.getDataset (net : HttpPostJson) (contract : OnchainCurriculumDuel)
    (duelId : BitVec 64) : Option Bytes := do
  let data := text "0xf968825d" ++ encodeUint256 duelId
  let resp ← net contract.host contract.port (ethCall contract.contract data)
  let pos ← find resp (text "\"result\"") 0
  let pos ← find resp (text "0x") pos
  let pos := pos + 2
  let stop ← find resp (text "\"") pos
  return (resp.drop pos).take (stop - pos)

/-- `none` is an exception of `stoi`. -/
def decodeHex (hex : Bytes) : Option Bytes :=
  let h := strip0x hex
  parse ((substrs h).take (h.length / 2))

/-- `Validator`, as far as curricula go. -/
structure Validator where
  curricula : BitVec 64 → Option Bytes

namespace Validator

def loadCurriculum (net : HttpPostJson) (v : Validator) (duelId : BitVec 64)
    (contract : OnchainCurriculumDuel) : Option (Bool × Validator) :=
  match contract.getDataset net duelId with
  | none => some (false, v)
  | some hex => do
    let data ← decodeHex hex
    return (true, { v with curricula := Function.update v.curricula duelId (some data) })

def curriculum (v : Validator) (duelId : BitVec 64) : Option Bytes := v.curricula duelId

end Validator

/-! ## The node -/

/-- `abi.encode` of a `bytes` value. -/
def abiBytes (data : Bytes) : Bytes :=
  packWord 32 ++ (packWord (BitVec.ofNat 256 data.length) ++
    (data ++ List.replicate ((32 - data.length % 32) % 32) 0))

/-- `keccak256(signature)[0:4]` -/
def selector (keccak256 : Bytes → Bytes32) (signature : Bytes) : Bytes :=
  (packWord (keccak256 signature)).take 4

/-- The selector that `get_dataset` uses. -/
def clientSelector : Bytes := [0xf9, 0x68, 0x82, 0x5d]

/-- What the node answers to a call of the contract. -/
def OnchainCurriculumDuel.answer (net : HttpPostJson) (contract : OnchainCurriculumDuel)
    (call : Bytes) : Option Bytes :=
  net contract.host contract.port (ethCall contract.contract (text "0x" ++ toHex call))

/-- A response with `data` as the result of a call: a string of hex digits behind the first
`"result"` and a colon. -/
def Carries (data resp : Bytes) : Prop :=
  ∃ head gap h tail,
    resp = head ++ (text "\"result\"" ++ (gap ++ (text "\"0x" ++ (h ++ (text "\"" ++ tail))))) ∧
      (∀ j < head.length, ¬ text "\"result\"" <+: resp.drop j) ∧
      (∀ c ∈ gap, isspace c ∨ c = 0x3a) ∧ Spells h data

/-- The node runs `x`: a call of `datasets(id)` returns the bytes stored for `id`, and a call with a
selector that no function has is reverted, which leaves a response without a result. -/
structure Serves (keccak256 : Bytes → Bytes32) (x : CurriculumDuel) (net : HttpPostJson)
    (contract : OnchainCurriculumDuel) : Prop where
  found : ∀ id, ∃ resp,
    contract.answer net (selector keccak256 (text "datasets(uint256)") ++ packWord id) = some resp ∧
      Carries (abiBytes (x.datasets id)) resp
  reverted : selector keccak256 (text "datasets(uint256)") ≠ clientSelector → ∀ id resp,
    contract.answer net (clientSelector ++ packWord id) = some resp →
      ¬ text "\"result\"" <:+: resp

/-! ## What is fetched -/

variable {keccak256 : Bytes → Bytes32} {x : CurriculumDuel} {net : HttpPostJson}
  {contract : OnchainCurriculumDuel} {v : Validator} {duelId : BitVec 64}

theorem length_abi_bytes (data : Bytes) : data.length < (abiBytes data).length := by
  simp only [abiBytes, List.length_append, length_packWord]
  omega

/-- The id that the client asks for. -/
def asked (duelId : BitVec 64) : U256 := (duelId.setWidth 32).setWidth 256

theorem asked_eq (hid : duelId.toNat < 2 ^ 32) : asked duelId = duelId.setWidth 256 := by
  apply BitVec.eq_of_toNat_eq
  simp only [asked, BitVec.toNat_setWidth]
  omega

/-- What the client sends is a call, with its own selector and the low half of the id. -/
theorem calldata_eq (duelId : BitVec 64) :
    text "0xf968825d" ++ encodeUint256 duelId =
      text "0x" ++ toHex (clientSelector ++ packWord (asked duelId)) := by
  have hselector : text "0xf968825d" = text "0x" ++ toHex clientSelector := by decide
  rw [hselector, to_hex_append, encodeUint256, encode_uint32_eq, asked, List.append_assoc]

/-- The steps of `get_dataset` on the answer of the node. -/
theorem get_dataset_eq : contract.getDataset net duelId =
    (contract.answer net (clientSelector ++ packWord (asked duelId))).bind fun resp =>
      (find resp (text "\"result\"") 0).bind fun pos =>
        (find resp (text "0x") pos).bind fun pos =>
          (find resp (text "\"") (pos + 2)).bind fun stop =>
            some ((resp.drop (pos + 2)).take (stop - (pos + 2))) := by
  unfold OnchainCurriculumDuel.getDataset OnchainCurriculumDuel.answer
  rw [calldata_eq]
  rfl

/-- No zero stands between the key and the digits. -/
theorem zero_notMem_gap {gap : Bytes} (hgap : ∀ c ∈ gap, isspace c ∨ c = 0x3a) :
    0x30 ∉ text "\"result\"" ++ (gap ++ text "\"") := by
  intro hmem
  rcases List.mem_append.mp hmem with hkey | hmem
  · revert hkey
    decide
  rcases List.mem_append.mp hmem with hblank | hquote
  · have := hgap _ hblank
    revert this
    decide
  · revert hquote
    decide

theorem quote_notMem_digits {h data : Bytes} (hs : Spells h data) : 0x22 ∉ h := by
  intro hmem
  have := hs.digits _ hmem
  revert this
  decide

/-- The digits of a result are cut out of the response. -/
theorem get_dataset_of_answer {resp data : Bytes}
    (hresp : contract.answer net (clientSelector ++ packWord (asked duelId)) = some resp)
    (hcarries : Carries data resp) :
    ∃ h, contract.getDataset net duelId = some h ∧ Spells h data := by
  obtain ⟨head, gap, h, tail, hsplit, hfirst, hgap, hspells⟩ := hcarries
  refine ⟨h, ?_, hspells⟩
  have hkey : find resp (text "\"result\"") 0 = some head.length := by
    rw [hsplit] at hfirst ⊢
    have := find_append [] (List.prefix_append _ _) hfirst
    rwa [List.nil_append, List.length_nil, Nat.zero_add] at this
  -- the response, cut before the prefix and behind it
  let mid := text "\"result\"" ++ (gap ++ text "\"")
  let before := head ++ (mid ++ text "0x")
  have hcut : resp = head ++ (mid ++ (text "0x" ++ (h ++ (text "\"" ++ tail)))) := by
    rw [hsplit]
    simp only [mid, List.append_assoc]
    rfl
  have hcut' : resp = before ++ (h ++ (text "\"" ++ tail)) := by
    rw [hcut]
    simp only [before, List.append_assoc]
  have hprefix : find resp (text "0x") head.length = some (head.length + mid.length) := by
    rw [hcut]
    exact find_append_of_notMem head (List.prefix_append _ _) (zero_notMem_gap hgap)
  have hbefore : before.length = head.length + mid.length + 2 := by
    simp only [before, List.length_append, Nat.add_assoc]
    rfl
  have hend : find resp (text "\"") before.length = some (before.length + h.length) := by
    rw [hcut']
    exact find_append_of_notMem before (List.prefix_append _ _) (quote_notMem_digits hspells)
  rw [get_dataset_eq, hresp, Option.bind_some, hkey, Option.bind_some, hprefix, Option.bind_some,
    ← hbefore, hend, Option.bind_some, hcut', List.drop_left, Nat.add_sub_cancel_left,
    List.take_left]

theorem decode_hex_spelled {h data : Bytes} (hs : Spells h data) : decodeHex h = some data := by
  have hlen : h.length / 2 = (substrs h).length := by
    rw [length_substrs hs, hs.length]
    omega
  rw [decodeHex, strip_0x_spelled hs]
  show parse ((substrs h).take (h.length / 2)) = some data
  rw [hlen, List.take_length, parse_spelled hs]

/-- A result is kept as the node encodes it. -/
theorem load_curriculum_carried {resp data : Bytes}
    (hresp : contract.answer net (clientSelector ++ packWord (asked duelId)) = some resp)
    (hcarries : Carries data resp) :
    ∃ v', v.loadCurriculum net duelId contract = some (true, v') ∧
      v'.curriculum duelId = some data := by
  obtain ⟨h, hget, hspells⟩ := get_dataset_of_answer hresp hcarries
  refine ⟨⟨Function.update v.curricula duelId (some data)⟩, ?_, Function.update_self ..⟩
  rw [Validator.loadCurriculum, hget]
  show (decodeHex h).bind _ = _
  rw [decode_hex_spelled hspells]
  rfl

/-- A call that is not answered, or that the node reverts, fetches nothing. -/
theorem load_curriculum_reverted (hno : ∀ resp,
    contract.answer net (clientSelector ++ packWord (asked duelId)) = some resp →
      ¬ text "\"result\"" <:+: resp) :
    v.loadCurriculum net duelId contract = some (false, v) := by
  have hget : contract.getDataset net duelId = none := by
    rw [get_dataset_eq]
    cases hresp : contract.answer net (clientSelector ++ packWord (asked duelId)) with
    | none => rfl
    | some resp => rw [Option.bind_some, find_eq_none (hno resp hresp), Option.bind_none]
  rw [Validator.loadCurriculum, hget]

/-! ## A duel with a dataset of two bytes -/

/-- Keccak-256 on the texts that the sample hashes. -/
def sampleKeccak (data : Bytes) : Bytes32 :=
  if data = [1, 2] then 0x22ae6da6b482f9b1b19b0b897c3fd43884180a1c5ee361e1107a1bc635649dda
  else if data = text "datasets(uint256)" then
    0x1cff85e1a3bb97775116696f4f00ffa7f50879bce83fdbda77ea6fa583779109
  else 0

/-- Duel 1 is scheduled for block 10. -/
def sampleScheduled : CurriculumDuel :=
  { CurriculumDuel.deploy with
    nextId := 2
    duels := Function.update CurriculumDuel.deploy.duels 1
      ⟨0xaa, 0xbb, 10, sampleKeccak [1, 2], 7, false, false⟩ }

/-- After the reveal. -/
def sampleRevealed : CurriculumDuel :=
  { sampleScheduled with
    datasets := Function.update sampleScheduled.datasets 1 [1, 2]
    duels := Function.update sampleScheduled.duels 1
      ⟨0xaa, 0xbb, 10, sampleKeccak [1, 2], 7, true, false⟩ }

def sampleClient : OnchainCurriculumDuel := ⟨text "127.0.0.1", 8545, text "0xcc"⟩

/-- What stands in front of a result or an error. -/
def sampleHead : Bytes :=
  text "HTTP/1.1 200 OK\r\n\r\n\x7b\"jsonrpc\":\"2.0\",\"id\":1,"

def sampleResult (data : Bytes) : Bytes :=
  sampleHead ++ (text "\"result\"" ++
    (text ":" ++ (text "\"0x" ++ (toHex data ++ (text "\"" ++ text "\x7d")))))

def sampleError : Bytes := sampleHead ++ text "\"error\":\x7b\"code\":3\x7d\x7d"

/-- The body of a call, up to the selector and behind the argument. -/
def sampleFront : Bytes :=
  text "\x7b\"jsonrpc\":\"2.0\",\"method\":\"eth_call\"," ++
    text "\"params\":[\x7b\"to\":\"0xcc\",\"data\":\"0x"

def sampleBack : Bytes := text "\"\x7d,\"latest\"],\"id\":1\x7d"

/-- A call of `datasets`, up to the id. -/
def sampleLead : Bytes := sampleFront ++ text "1cff85e1"

/-- A node on which duel 1 has been revealed. -/
def sampleNode : HttpPostJson := fun _ _ body =>
  if sampleLead <+: body then
    let first := sampleLead ++ toHex (packWord 1)
    some (sampleResult (abiBytes (if first <+: body then [1, 2] else [])))
  else some sampleError

theorem carries_sampleResult (data : Bytes) : Carries data (sampleResult data) := by
  refine ⟨sampleHead, text ":", toHex data, text "\x7d", rfl, ?_, by decide, spells_to_hex data⟩
  intro j hj hpre
  -- what follows the key is too far away to matter
  rw [sampleResult, ← List.append_assoc, List.drop_append_of_le_length (by simp; omega)] at hpre
  have hshort : text "\"result\"" <+: (sampleHead ++ text "\"result\"").drop j := by
    apply List.prefix_of_prefix_length_le hpre (List.prefix_append _ _)
    rw [List.length_drop, List.length_append]
    omega
  clear hpre
  revert j
  decide +kernel

theorem sample_call (chosen : Bytes) (id : U256) :
    ethCall sampleClient.contract (text "0x" ++ toHex (chosen ++ packWord id)) =
      sampleFront ++ (toHex chosen ++ (toHex (packWord id) ++ sampleBack)) := by
  rw [to_hex_append, ethCall]
  simp only [← List.append_assoc]
  rfl

theorem sample_selector : selector sampleKeccak (text "datasets(uint256)") =
    [0x1c, 0xff, 0x85, 0xe1] := by
  decide +kernel

theorem sample_lead (id : U256) :
    ethCall sampleClient.contract
        (text "0x" ++ toHex (selector sampleKeccak (text "datasets(uint256)") ++ packWord id)) =
      sampleLead ++ (toHex (packWord id) ++ sampleBack) := by
  have hdigits : toHex [0x1c, 0xff, 0x85, 0xe1] = text "1cff85e1" := by decide
  rw [sample_call, sample_selector, hdigits, sampleLead, List.append_assoc]

theorem sample_first_iff (id : U256) :
    (sampleLead ++ toHex (packWord 1) <+: sampleLead ++ (toHex (packWord id) ++ sampleBack)) ↔
      id = 1 := by
  have hlen (w : U256) : (toHex (packWord w)).length = 64 := by
    rw [(spells_to_hex _).length, length_packWord]
  rw [List.prefix_append_right_inj]
  constructor
  · intro hpre
    have hword : toHex (packWord 1) <+: toHex (packWord id) :=
      List.prefix_of_prefix_length_le hpre (List.prefix_append _ _) (by rw [hlen, hlen])
    have hsame := Pouw.ProofSystem.to_hex_injective (hword.eq_of_length (by rw [hlen, hlen]))
    exact (packWord_inj hsame).symm
  · rintro rfl
    exact List.prefix_append _ _

theorem sampleRevealed_datasets (id : U256) :
    sampleRevealed.datasets id = if id = 1 then [1, 2] else [] := by
  unfold sampleRevealed
  exact Function.update_apply ..

theorem serves_sample : Serves sampleKeccak sampleRevealed sampleNode sampleClient where
  found id := by
    have hlead : sampleLead <+: sampleLead ++ (toHex (packWord id) ++ sampleBack) :=
      List.prefix_append _ _
    refine ⟨sampleResult (abiBytes (sampleRevealed.datasets id)), ?_, carries_sampleResult _⟩
    unfold OnchainCurriculumDuel.answer sampleNode
    rw [sample_lead, if_pos hlead, sampleRevealed_datasets]
    simp only [sample_first_iff]
  reverted _ id resp hresp := by
    have hother : ¬ sampleLead <+: ethCall sampleClient.contract
        (text "0x" ++ toHex (clientSelector ++ packWord id)) := by
      rw [sample_call, sampleLead, List.prefix_append_right_inj]
      intro hpre
      have hsame : text "1cff85e1" <+: toHex clientSelector :=
        List.prefix_of_prefix_length_le hpre (List.prefix_append _ _) (by decide)
      revert hsame
      decide
    unfold OnchainCurriculumDuel.answer sampleNode at hresp
    rw [if_neg hother] at hresp
    obtain rfl := Option.some.inj hresp
    decide +kernel

/-- No curriculum is cached. -/
def Validator.empty : Validator := ⟨fun _ => none⟩

/-! ## What is kept -/

/-- **What is fetched is not what was stored.** The answer to the client's call would be kept with
its offset, its length and its padding, and it is about the low half of the id. So the stored bytes
are the ones that are kept only if the node takes the client's selector for the one of `datasets`,
the id does not fit the low half, and the bytes are themselves the encoding of those of another
duel. (Keccak-256 gives `datasets(uint256)` the selector `1cff85e1`.) -/
theorem load_curriculum_iff (hserves : Serves keccak256 x net contract) :
    (∃ v', v.loadCurriculum net duelId contract = some (true, v') ∧
      v'.curriculum duelId = some (x.datasets (duelId.setWidth 256))) ↔
    selector keccak256 (text "datasets(uint256)") = clientSelector ∧ 2 ^ 32 ≤ duelId.toNat ∧
      x.datasets (duelId.setWidth 256) =
        abiBytes (x.datasets ((duelId.setWidth 32).setWidth 256)) := by
  by_cases hselector : selector keccak256 (text "datasets(uint256)") = clientSelector
  · obtain ⟨resp, hresp, hcarries⟩ := hserves.found (asked duelId)
    rw [hselector] at hresp
    obtain ⟨v', hload, hkept⟩ := load_curriculum_carried (v := v) hresp hcarries
    constructor
    · rintro ⟨w, hw, hstored⟩
      obtain ⟨-, rfl⟩ := Prod.mk.inj (Option.some.inj (hload.symm.trans hw))
      have heq : x.datasets (duelId.setWidth 256) = abiBytes (x.datasets (asked duelId)) :=
        Option.some.inj (hstored.symm.trans hkept)
      refine ⟨hselector, ?_, heq⟩
      -- a short id is asked for as it is, and no text is its own encoding
      by_contra hshort
      rw [asked_eq (by omega)] at heq
      have := length_abi_bytes (x.datasets (duelId.setWidth 256))
      rw [← heq] at this
      exact Nat.lt_irrefl _ this
    · rintro ⟨-, -, heq⟩
      refine ⟨v', hload, ?_⟩
      rw [hkept, heq]
      rfl
  · constructor
    · rintro ⟨v', hload, -⟩
      rw [load_curriculum_reverted (hserves.reverted hselector _)] at hload
      cases hload
    · rintro ⟨h, -⟩
      exact absurd h hselector

theorem load_curriculum_iff_sample :
    ¬ ∃ v', Validator.empty.loadCurriculum sampleNode 1 sampleClient = some (true, v') ∧
      v'.curriculum 1 = some (sampleRevealed.datasets ((1 : BitVec 64).setWidth 256)) := by
  rw [load_curriculum_iff serves_sample]
  rintro ⟨h, -⟩
  revert h
  decide +kernel

/-- The revealed bytes are not fetched; and a node that answers whatever it is asked with their
encoding has all of it taken for the dataset. -/
theorem revealed_not_fetched :
    sampleScheduled.revealDataset sampleKeccak 10 1 [1, 2] 7 = some sampleRevealed ∧
      Serves sampleKeccak sampleRevealed sampleNode sampleClient ∧
      (Validator.empty.loadCurriculum sampleNode 1 sampleClient).map Prod.fst = some false ∧
      (Validator.empty.loadCurriculum (fun _ _ _ => some (sampleResult (abiBytes [1, 2]))) 1
        sampleClient).bind (fun r => r.2.curriculum 1) =
          some (packWord 32 ++ packWord 2 ++ [1, 2] ++ List.replicate 30 0) := by
  refine ⟨?_, serves_sample, by decide +kernel, by decide +kernel⟩
  rfl

end ChainBeasts.Onchain
