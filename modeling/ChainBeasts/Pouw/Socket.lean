import ChainBeasts.Chunks
import ChainBeasts.Pouw.Wire

/-! # A connection

The receiving half of `proof_aggregator.hpp` on a stream that arrives in chunks of any sizes: a
length or a loss is waited for, and the contents of a string are received in as many calls as it
takes. The loop of `handle_client` hands on what it has received until `recv_proof` fails; the server
keeps running. A `recv` that fails ends the stream.

Both ends count their bytes and proofs. Every call of the sending end succeeds. -/

namespace ChainBeasts.Pouw.Wire.Socket

open ChainBeasts.Framing ChainBeasts.Chunks

structure AggregatorNetStats where
  bytesSent : BitVec 64
  bytesReceived : BitVec 64
  proofsSent : BitVec 64
  proofsReceived : BitVec 64
  deriving DecidableEq

/-! ## The source -/

/-- The size of a string. -/
def size (s : Bytes) : BitVec 64 := BitVec.ofNat 64 s.length

def AggregatorNetStats.sent (s : AggregatorNetStats) (p : StarkProof) : AggregatorNetStats :=
  { s with
    bytesSent := s.bytesSent + (4 + size p.root) + (4 + size p.proof) + 4
    proofsSent := s.proofsSent + 1 }

def AggregatorNetStats.received (s : AggregatorNetStats) (p : StarkProof) : AggregatorNetStats :=
  { s with
    bytesReceived := s.bytesReceived + (4 + size p.root) + (4 + size p.proof) + 4
    proofsReceived := s.proofsReceived + 1 }

/-- What is written to the connection, and the counters. -/
def sendProof (p : StarkProof) (s : AggregatorNetStats) : Bytes × AggregatorNetStats :=
  (frame p, s.sent p)

/-- `send_proof` for each of them in turn. -/
def sendProofs : List StarkProof → AggregatorNetStats → Bytes × AggregatorNetStats
  | [], s => ([], s)
  | p :: ps, s =>
    let (bytes, s) := sendProof p s
    let (more, s) := sendProofs ps s
    (bytes ++ more, s)

def recvString : Receiver Byte Bytes := do
  let len ← waitFor 4
  recvLoop (word len).toNat []

def recvFloat : Receiver Byte (BitVec 32) := do
  let bits ← waitFor 4
  return ntohl (word bits)

def recvProof (s : AggregatorNetStats) : Receiver Byte (StarkProof × AggregatorNetStats) := do
  let root ← recvString
  let proof ← recvString
  let loss ← recvFloat
  return (⟨root, proof, loss⟩, s.received ⟨root, proof, loss⟩)

/-! ## The chunks make no difference -/

theorem refines_recv_string : Refines recvString Wire.recvString :=
  (refines_waitFor 4).bind fun _ => refines_recvLoop _

theorem refines_recv_float : Refines recvFloat Wire.recvFloat :=
  (refines_waitFor 4).bind fun _ => refines_pure _

theorem refines_recv_proof (s : AggregatorNetStats) :
    Refines (recvProof s) (Wire.recvProof >>= fun p => pure (p, s.received p)) := by
  have hcalls : (Wire.recvProof >>= fun p => pure (p, s.received p)) = (do
      let root ← Wire.recvString
      let proof ← Wire.recvString
      let loss ← Wire.recvFloat
      return (⟨root, proof, loss⟩, s.received ⟨root, proof, loss⟩)) := by
    simp only [Wire.recvProof, bind_assoc, pure_bind]
  rw [hcalls]
  apply refines_recv_string.bind
  intro root
  apply refines_recv_string.bind
  intro proof
  apply refines_recv_float.bind
  intro loss
  exact refines_pure _

section
variable {s : AggregatorNetStats} {stream : Stream Byte}

theorem recv_proof_eq_none :
    recvProof s stream = none ↔ Wire.recvProof stream.flatten = none := by
  rw [(refines_recv_proof s).eq_none]
  show (Wire.recvProof stream.flatten).bind _ = none ↔ _
  rw [Option.bind_eq_none_iff]
  constructor
  · intro h
    apply Option.eq_none_iff_forall_ne_some.mpr
    intro p hp
    cases h p hp
  · intro h p hp
    rw [h] at hp
    cases hp

theorem recv_proof_eq_some {p : StarkProof} {s' : AggregatorNetStats} {stream' : Stream Byte}
    (h : recvProof s stream = some ((p, s'), stream')) :
    Wire.recvProof stream.flatten = some (p, stream'.flatten) ∧ s' = s.received p := by
  obtain ⟨q, rest, hq, hpure⟩ := bind_eq_some.mp ((refines_recv_proof s).eq_some h)
  obtain ⟨heq, rfl⟩ := pure_eq_some.mp hpure
  cases heq
  exact ⟨hq, rfl⟩

/-- Every proof takes some of the stream. -/
theorem recv_proof_shrinks {q : StarkProof × AggregatorNetStats} {stream' : Stream Byte}
    (h : recvProof s stream = some (q, stream')) :
    stream'.flatten.length < stream.flatten.length := by
  obtain ⟨hread, -⟩ := recv_proof_eq_some h
  exact recv_proof_productive hread

end

/-! ## `handle_client` -/

/-- What has been handed on when `recv_proof` has failed, and what was left to arrive then. -/
structure Session where
  delivered : List StarkProof
  rest : Stream Byte
  stats : AggregatorNetStats

/-- `while (running_) { if (!recv_proof(fd, p, &stats_)) break; ... }` -/
def handleClient (s : AggregatorNetStats) (stream : Stream Byte) : Session :=
  match _h : recvProof s stream with
  | none => ⟨[], stream, s⟩
  | some ((p, s'), stream') =>
    let session := handleClient s' stream'
    { session with delivered := p :: session.delivered }
termination_by stream.flatten.length
decreasing_by exact recv_proof_shrinks _h

/-- **The loop rule.** What holds where `recv_proof` fails, and of a session that begins with one
more proof, holds of every session. -/
theorem handle_client_rule (P : AggregatorNetStats → Stream Byte → Session → Prop)
    (done : ∀ s stream, Wire.recvProof stream.flatten = none → P s stream ⟨[], stream, s⟩)
    (more : ∀ s stream p (stream' : Stream Byte) session,
      Wire.recvProof stream.flatten = some (p, stream'.flatten) →
      P (s.received p) stream' session →
      P s stream { session with delivered := p :: session.delivered })
    (s : AggregatorNetStats) (stream : Stream Byte) : P s stream (handleClient s stream) := by
  induction s, stream using handleClient.induct with
  | case1 s stream h =>
      rw [handleClient]
      split
      · exact done s stream (recv_proof_eq_none.mp h)
      · next hsome =>
          rw [h] at hsome
          cases hsome
  | case2 s stream p s' stream' h ih =>
      obtain ⟨hread, hs'⟩ := recv_proof_eq_some h
      rw [handleClient]
      split
      · next hnone =>
          rw [h] at hnone
          cases hnone
      · next hsome =>
          rw [h] at hsome
          cases hsome
          subst hs'
          exact more s stream p stream' _ hread ih

/-! ## Whole sessions -/

section
variable (s : AggregatorNetStats) (stream : Stream Byte)

theorem handle_client_ends :
    recvProof (handleClient s stream).stats (handleClient s stream).rest = none := by
  apply handle_client_rule (fun _ _ session => recvProof session.stats session.rest = none)
  · intro s stream h
    exact recv_proof_eq_none.mpr h
  · intro s stream p stream' session _ ih
    exact ih

/-- **What is handed on** is what the whole stream holds, whatever the chunks. -/
theorem handle_client_delivered :
    (handleClient s stream).delivered = readAll Wire.recvProof stream.flatten := by
  apply handle_client_rule fun _ stream session =>
    session.delivered = readAll Wire.recvProof stream.flatten
  · intro s stream h
    exact (readAll_none h).symm
  · intro s stream p stream' session h ih
    rw [readAll_some recv_proof_productive h, ← ih]

theorem handle_client_stats :
    (handleClient s stream).stats =
      (handleClient s stream).delivered.foldl AggregatorNetStats.received s := by
  apply handle_client_rule fun s _ session =>
    session.stats = session.delivered.foldl AggregatorNetStats.received s
  · intro s stream _
    rfl
  · intro s stream p stream' session _ ih
    exact ih

/-- **Nothing is lost**: the frames of what is handed on and what is left make up the stream. -/
theorem handle_client_stream :
    stream.flatten =
      (handleClient s stream).delivered.flatMap frame ++ (handleClient s stream).rest.flatten := by
  apply handle_client_rule fun _ (stream : Stream Byte) session =>
    stream.flatten = session.delivered.flatMap frame ++ session.rest.flatten
  · intro s stream _
    rfl
  · intro s stream p stream' session h ih
    rw [List.flatMap_cons, List.append_assoc, ← ih]
    exact recv_proof_eq h

end

/-! ## Both ends -/

/-- What is counted for a proof is the size of its frame. -/
theorem size_frame (p : StarkProof) :
    4 + size p.root + (4 + size p.proof) + 4 = size (frame p) := by
  have hlength : (frame p).length = 4 + p.root.length + (4 + p.proof.length) + 4 := by
    simp only [frame_eq, List.length_append, length_memory]
  rw [size, size, size, hlength, BitVec.ofNat_add, BitVec.ofNat_add, BitVec.ofNat_add,
    BitVec.ofNat_add]
  rfl

/-- A counter that every proof raises. -/
theorem foldl_counts {step : AggregatorNetStats → StarkProof → AggregatorNetStats}
    {counter : AggregatorNetStats → BitVec 64} {amount : StarkProof → BitVec 64}
    (h : ∀ s p, counter (step s p) = counter s + amount p) (ps : List StarkProof)
    (s : AggregatorNetStats) :
    counter (ps.foldl step s) = counter s + ps.foldr (fun p total => amount p + total) 0 := by
  induction ps generalizing s with
  | nil => exact (BitVec.add_zero _).symm
  | cons p ps ih => rw [List.foldl_cons, ih, h, List.foldr_cons, BitVec.add_assoc]

/-- As much is counted at one end as at the other: from zero, the counters are equal. -/
structure SameCounted (tx tx' rx rx' : AggregatorNetStats) : Prop where
  bytes : rx'.bytesReceived - rx.bytesReceived = tx'.bytesSent - tx.bytesSent
  proofs : rx'.proofsReceived - rx.proofsReceived = tx'.proofsSent - tx.proofsSent

theorem same_counted (ps : List StarkProof) (tx rx : AggregatorNetStats) :
    SameCounted tx (ps.foldl .sent tx) rx (ps.foldl .received rx) := by
  have hadd (x a b c : BitVec 64) : x + a + b + c = x + (a + b + c) := by
    rw [BitVec.add_assoc, BitVec.add_assoc, BitVec.add_assoc]
  have hsent (s : AggregatorNetStats) (p) :
      (s.sent p).bytesSent = s.bytesSent + size (frame p) := by
    rw [← size_frame]
    exact hadd _ _ _ _
  have hreceived (s : AggregatorNetStats) (p) :
      (s.received p).bytesReceived = s.bytesReceived + size (frame p) := by
    rw [← size_frame]
    exact hadd _ _ _ _
  have hcancel (x y : BitVec 64) : x + y - x = y := by
    rw [BitVec.add_comm]
    exact BitVec.add_sub_cancel y x
  have hsentOne (s : AggregatorNetStats) (p) : (s.sent p).proofsSent = s.proofsSent + 1 := rfl
  have hreceivedOne (s : AggregatorNetStats) (p) :
      (s.received p).proofsReceived = s.proofsReceived + 1 := rfl
  constructor
  · rw [foldl_counts hsent, foldl_counts hreceived, hcancel, hcancel]
  · rw [foldl_counts hsentOne, foldl_counts hreceivedOne, hcancel, hcancel]

theorem send_proofs_eq (ps : List StarkProof) (s : AggregatorNetStats) :
    sendProofs ps s = (ps.flatMap frame, ps.foldl .sent s) := by
  induction ps generalizing s with
  | nil => rfl
  | cons p ps ih =>
      rw [sendProofs]
      show (frame p ++ (sendProofs ps (s.sent p)).1, (sendProofs ps (s.sent p)).2) = _
      rw [ih]
      rfl

/-- A session on the frames of proofs, the last one maybe broken off. -/
theorem handle_client_frames {ps : List StarkProof} (hps : ∀ p ∈ ps, p.Sound) {part : Bytes}
    (hpart : Wire.recvProof part = none) (s : AggregatorNetStats) {stream : Stream Byte}
    (h : stream.flatten = ps.flatMap frame ++ part) :
    (handleClient s stream).delivered = ps ∧ (handleClient s stream).rest.flatten = part ∧
      (handleClient s stream).stats = ps.foldl .received s := by
  have hdelivered : (handleClient s stream).delivered = ps := by
    rw [handle_client_delivered, h]
    exact proofs.readAll_written hps hpart
  refine ⟨hdelivered, ?_, ?_⟩
  · have hstream := handle_client_stream s stream
    rw [h, hdelivered] at hstream
    exact (List.append_cancel_left hstream).symm
  · rw [handle_client_stats, hdelivered]

/-- **Proofs arrive as they were sent**, whatever the chunks, and both ends count the same. If the
stream is cut inside a frame, `recv_proof` fails there, and what was sent before has arrived. -/
theorem proofs_arrive {ps : List StarkProof} (hps : ∀ p ∈ ps, p.Sound)
    (tx rx : AggregatorNetStats) :
    (∀ stream : Stream Byte, stream.flatten = (sendProofs ps tx).1 →
      (handleClient rx stream).delivered = ps ∧
        SameCounted tx (sendProofs ps tx).2 rx (handleClient rx stream).stats) ∧
      ∀ before p after, ps = before ++ p :: after → ∀ part, part <+: frame p → part ≠ frame p →
        ∀ stream : Stream Byte, stream.flatten = (sendProofs before tx).1 ++ part →
          (handleClient rx stream).delivered = before ∧
          (handleClient rx stream).rest.flatten = part ∧
          recvProof (handleClient rx stream).stats (handleClient rx stream).rest = none ∧
          SameCounted tx (sendProofs before tx).2 rx (handleClient rx stream).stats := by
  constructor
  · intro stream h
    rw [send_proofs_eq] at h ⊢
    rw [← List.append_nil (List.flatMap _ _)] at h
    obtain ⟨hdelivered, -, hstats⟩ := handle_client_frames hps rfl rx h
    rw [hstats]
    exact ⟨hdelivered, same_counted ps tx rx⟩
  · rintro before p after rfl part hpart hcut stream h
    rw [send_proofs_eq] at h ⊢
    obtain ⟨hbefore, hlater⟩ := List.forall_mem_append.mp hps
    have hp : p.Sound := hlater p List.mem_cons_self
    have hbroken : Wire.recvProof part = none := proofs.read_broken hp hpart hcut
    obtain ⟨hdelivered, hrest, hstats⟩ := handle_client_frames hbefore hbroken rx h
    refine ⟨hdelivered, hrest, handle_client_ends rx stream, ?_⟩
    rw [hstats]
    exact same_counted before tx rx

/-- Two frames in six chunks, and the second one broken off in its first length. -/
theorem proofs_arrive_two :
    let p : StarkProof := ⟨[1, 2], [3], 7⟩
    let q : StarkProof := ⟨[4], [], 9⟩
    let zero : AggregatorNetStats := ⟨0, 0, 0, 0⟩
    let whole : Stream Byte :=
      [[2], [0, 0, 0, 1], [2, 1, 0], [0, 0, 3, 0, 0, 0, 7, 1, 0], [0, 0, 4, 0, 0, 0], [0, 0, 0, 0, 9]]
    let cut : Stream Byte := [[2, 0, 0, 0, 1], [2, 1, 0, 0, 0, 3], [0, 0, 0, 7, 1, 0]]
    ((handleClient zero whole).delivered = [p, q] ∧
      SameCounted zero (sendProofs [p, q] zero).2 zero (handleClient zero whole).stats) ∧
      (handleClient zero cut).delivered = [p] ∧
      recvProof (handleClient zero cut).stats (handleClient zero cut).rest = none := by
  intro p q zero whole cut
  have hsound : ∀ r ∈ [p, q], r.Sound := by
    intro r hr
    rcases List.mem_pair.mp hr with rfl | rfl
    · exact ⟨show 2 < 2 ^ 32 by decide, show 1 < 2 ^ 32 by decide⟩
    · exact ⟨show 1 < 2 ^ 32 by decide, show 0 < 2 ^ 32 by decide⟩
  obtain ⟨hwhole, hcut⟩ := proofs_arrive hsound zero zero
  have hpart : ([1, 0] : Bytes) <+: frame q := ⟨[0, 0, 4, 0, 0, 0, 0, 0, 0, 0, 9], by decide⟩
  obtain ⟨hone, -, hends, -⟩ := hcut [p] q [] rfl _ hpart (by decide) cut (by decide)
  exact ⟨hwhole whole (by decide), hone, hends⟩

end ChainBeasts.Pouw.Wire.Socket
