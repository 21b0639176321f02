import ChainBeasts.Machine
import ChainBeasts.Onchain.HttpClient

/-! # `OnchainMatchLedger`

A match is sent to an endpoint and kept in the local list if the request succeeded. What the
endpoint has processed is read off the attempts: it is a list of request bodies, and a body is that
of one match only (`request_inj`). The two lists agree as long as every call is told what happened
to its request (`mirrors_iff`). -/

namespace ChainBeasts.Onchain

open ChainBeasts.Evm ChainBeasts.Machine

structure MatchResult where
  battleId : BitVec 32
  winner : BitVec 32
  loser : BitVec 32
  deriving DecidableEq

structure OnchainMatchLedger where
  contract : Bytes
  nextId : BitVec 32
  results : List MatchResult

namespace OnchainMatchLedger

/-- The body that `send_tx` posts. -/
def request (contract : Bytes) (r : MatchResult) : Bytes :=
  text "\x7b\"jsonrpc\":\"2.0\",\"method\":\"eth_sendTransaction\"," ++
    (text "\"params\":[\x7b\"to\":\"" ++ (contract ++ (text "\",\"data\":\"" ++
      ((text "0x81adbe26" ++ (encodeUint32 r.battleId ++
        (encodeUint32 r.winner ++ encodeUint32 r.loser))) ++ text "\"\x7d],\"id\":1\x7d"))))

/-- The body says which match it is. -/
theorem request_inj {contract : Bytes} {r r' : MatchResult}
    (h : request contract r = request contract r') : r = r' := by
  unfold request at h
  simp only [List.append_cancel_left_eq, List.append_assoc] at h
  obtain ⟨hid, h⟩ := List.append_inj h (by rw [length_encode_uint32, length_encode_uint32])
  obtain ⟨hwinner, h⟩ := List.append_inj h (by rw [length_encode_uint32, length_encode_uint32])
  obtain ⟨hloser, -⟩ := List.append_inj h (by rw [length_encode_uint32, length_encode_uint32])
  cases r
  cases r'
  simp only [MatchResult.mk.injEq]
  exact ⟨encode_uint32_inj hid, encode_uint32_inj hwinner, encode_uint32_inj hloser⟩

/-- The ledger, and the requests that the endpoint has processed. -/
structure World where
  ledger : OnchainMatchLedger
  processed : List Bytes

/-- A result to record, and what the network does with the attempts. -/
structure Call where
  winner : BitVec 32
  loser : BitVec 32
  net : Nat → Attempt

/-- `record_result`. It returns the id of the match, or 0. -/
def recordResult (w : World) (c : Call) : BitVec 32 × World :=
  let id := w.ledger.nextId
  let r : MatchResult := ⟨id, c.winner, c.loser⟩
  let sent := httpPostJson c.net
  let processed := w.processed ++ List.replicate sent.2 (request w.ledger.contract r)
  if sent.1 then
    (id, ⟨{ w.ledger with nextId := id + 1, results := w.ledger.results ++ [r] }, processed⟩)
  else (0, { w with processed })

def next (w : World) (c : Call) : World := (recordResult w c).2

def start (contract : Bytes) : World := ⟨⟨contract, 1, []⟩, []⟩

/-- The results are the matches that the endpoint processed, each once and in order, and the next id
is one more than their number. -/
def Mirrors (w : World) : Prop :=
  w.processed = w.ledger.results.map (request w.ledger.contract) ∧
    w.ledger.nextId.toNat = w.ledger.results.length + 1

/-- Of the attempts made, the endpoint answers one with 2xx if one is taken for a success and none
otherwise; and there is a next id. -/
def Told (m : Move World Call) : Prop :=
  let attempts := made m.call.net 3 0
  attempts.countP Attempt.served = (if attempts.any Attempt.taken then 1 else 0) ∧
    (attempts.any Attempt.taken = true → m.pre.ledger.nextId.toNat + 1 < 2 ^ 32)

variable {w : World} {c : Call}

theorem replicate_eq_singleton {α : Type} {n : Nat} {a : α} : List.replicate n a = [a] ↔ n = 1 := by
  constructor
  · intro h
    simpa using congrArg List.length h
  · rintro rfl
    rfl

/-- One call, made while the lists agree. -/
theorem next_mirrors (h : Mirrors w) : Mirrors (next w c) ↔ Told ⟨w, c, next w c⟩ := by
  obtain ⟨hprocessed, hid⟩ := h
  unfold Mirrors Told next recordResult httpPostJson
  dsimp only
  rw [hprocessed, post_from_eq]
  cases hsent : (made c.net 3 0).any Attempt.taken with
  | true =>
      simp only [if_true, List.map_append, List.map_singleton, List.append_cancel_left_eq,
        List.length_append, List.length_singleton, replicate_eq_singleton, true_implies,
        BitVec.toNat_add]
      apply and_congr_right
      intro _
      have hlt := w.ledger.nextId.isLt
      have hone : (1 : BitVec 32).toNat = 1 := rfl
      omega
  | false =>
      simp only [Bool.false_eq_true, if_false, List.append_right_eq_self,
        List.replicate_eq_nil_iff, false_implies, and_true]
      exact and_iff_left hid

theorem start_mirrors (contract : Bytes) : Mirrors (start contract) := ⟨rfl, rfl⟩

/-- **When the ledger mirrors the endpoint.** In every run of calls, over every network, the results
are at each moment what the endpoint processed if and only if every call is `Told` what became of
its request. With answers in HTTP/1.1 that is so for a call, while there are ids left, exactly if no
attempt goes unprocessed without twelve bytes of an error arriving. -/
theorem mirrors_iff (contract : Bytes) (calls : List Call) :
    ((∀ before, before <+: calls → Mirrors (exec next (start contract) before)) ↔
        ∀ m ∈ history next (start contract) calls, Told m) ∧
      ∀ m : Move World Call, m.pre.ledger.nextId.toNat + 1 < 2 ^ 32 →
        (∀ a ∈ made m.call.net 3 0, a.Http11) →
        (Told m ↔ ∀ a ∈ made m.call.net 3 0, ¬ a.Undetected) := by
  constructor
  · induction calls using List.reverseRecOn with
    | nil =>
        refine iff_of_true ?_ (by simp [history, trace])
        intro before hbefore
        rw [List.prefix_nil.mp hbefore]
        exact start_mirrors contract
    | append_singleton calls c ih =>
        rw [history_concat, List.forall_mem_append, ← ih]
        simp only [List.prefix_concat_iff, forall_eq_or_imp, List.mem_singleton, forall_eq]
        rw [exec_concat, and_comm]
        apply and_congr_right
        intro hall
        exact next_mirrors (hall calls (List.prefix_refl _))
  · intro m hid hhttp
    rw [← processed_once_iff hhttp, post_from_eq]
    exact and_iff_left fun _ => hid

/-- The endpoint closes the connection without an answer: the match is recorded locally only. -/
theorem unanswered_recorded :
    ¬ Mirrors (next (start (text "0xdeadbeef")) ⟨1, 2, fun _ => .exchanged none []⟩) := by
  intro h
  exact absurd (congrArg List.length h.1) (by decide)

end OnchainMatchLedger

end ChainBeasts.Onchain
