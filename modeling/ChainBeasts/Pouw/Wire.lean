import ChainBeasts.Framing
import Mathlib.Algebra.GroupWithZero.Nat

/-! # The bytes of a proof

`send_proof` and `recv_proof` of `proof_aggregator.hpp`. A string is its bytes and a loss its 32
bits. What `send_proof` does is the list of its `send` calls: a length or a loss has to go out in one
call, the contents of a string in as many as it takes. Lengths are written as they lie in memory,
least significant byte first, and a loss in network order.

What comes in is a stream: a `recv` waits until there is enough. That the source gets by with less,
chunk by chunk, is shown in `Socket`. -/

namespace ChainBeasts.Pouw.Wire

open ChainBeasts.Framing

abbrev Byte := BitVec 8
abbrev Bytes := List Byte

structure StarkProof where
  root : Bytes
  proof : Bytes
  loss : BitVec 32
  deriving DecidableEq

/-! ## Words -/

/-- A `uint32_t` in memory, here and at the other end. -/
def memory (x : BitVec 32) : Bytes :=
  [x.extractLsb' 0 8, x.extractLsb' 8 8, x.extractLsb' 16 8, x.extractLsb' 24 8]

/-- The `uint32_t` that lies there. -/
def word : Bytes → BitVec 32
  | [b₀, b₁, b₂, b₃] => b₃ ++ b₂ ++ b₁ ++ b₀
  | _ => 0

def htonl (x : BitVec 32) : BitVec 32 := word (memory x).reverse
def ntohl (x : BitVec 32) : BitVec 32 := word (memory x).reverse

@[simp] theorem length_memory (x : BitVec 32) : (memory x).length = 4 := rfl

@[simp] theorem word_memory (x : BitVec 32) : word (memory x) = x := by
  change x.extractLsb' 24 8 ++ x.extractLsb' 16 8 ++ x.extractLsb' 8 8 ++ x.extractLsb' 0 8 = x
  ext i hi
  simp only [BitVec.getElem_append, BitVec.getElem_extractLsb', Nat.zero_add]
  grind

theorem memory_word {bs : Bytes} (h : bs.length = 4) : memory (word bs) = bs := by
  obtain ⟨b₀, b₁, b₂, b₃, rfl⟩ := List.length_eq_four.mp h
  have hbyte : ∀ k, (b₃ ++ b₂ ++ b₁ ++ b₀).extractLsb' (8 * k) 8 =
      if k = 0 then b₀ else if k = 1 then b₁ else if k = 2 then b₂ else if k = 3 then b₃ else 0 := by
    intro k
    ext i hi
    simp only [BitVec.getElem_extractLsb', BitVec.getLsbD_append]
    grind
  exact congrArg₂ _ (hbyte 0) (congrArg₂ _ (hbyte 1) (congrArg₂ _ (hbyte 2)
    (congrArg₂ _ (hbyte 3) rfl)))

theorem ntohl_htonl (x : BitVec 32) : ntohl (htonl x) = x := by
  rw [ntohl, htonl, memory_word (by simp), List.reverse_reverse, word_memory]

/-! ## Sending -/

/-- A `send` call, or a loop of them over what is left. -/
inductive Send where
  /-- All of it in one call, or it has failed. -/
  | exactly (bytes : Bytes)
  | loop (bytes : Bytes)
  deriving DecidableEq

def Send.bytes : Send → Bytes
  | .exactly bytes => bytes
  | .loop bytes => bytes

/-- The length is cast to 32 bits; an empty string needs no more. -/
def sendString (s : Bytes) : List Send :=
  .exactly (memory (BitVec.ofNat 32 s.length)) :: if s = [] then [] else [.loop s]

def sendFloat (f : BitVec 32) : List Send := [.exactly (memory (htonl f))]

def sendProof (p : StarkProof) : List Send :=
  sendString p.root ++ sendString p.proof ++ sendFloat p.loss

/-- What `send_proof` writes where every call succeeds. -/
def frame (p : StarkProof) : Bytes := (sendProof p).flatMap Send.bytes

/-- No call is made for nothing. -/
theorem bytes_ne_nil {p : StarkProof} {c : Send} (hc : c ∈ sendProof p) : c.bytes ≠ [] := by
  have hstring : ∀ s : Bytes, ∀ c ∈ sendString s, c.bytes ≠ [] := by
    intro s c hc
    rcases List.mem_cons.mp hc with rfl | hc
    · exact List.cons_ne_nil _ _
    · by_cases hs : s = []
      · simp [hs] at hc
      · obtain rfl : c = .loop s := by simpa [hs] using hc
        exact hs
  rcases List.mem_append.mp hc with hc | hc
  · exact (List.mem_append.mp hc).elim (hstring _ c) (hstring _ c)
  · obtain rfl := List.mem_singleton.mp hc
    exact List.cons_ne_nil _ _

theorem bytes_send_string (s : Bytes) :
    (sendString s).flatMap Send.bytes = memory (BitVec.ofNat 32 s.length) ++ s := by
  by_cases hs : s = [] <;> simp [sendString, hs, Send.bytes]

theorem frame_eq (p : StarkProof) :
    frame p = memory (BitVec.ofNat 32 p.root.length) ++ p.root ++
      (memory (BitVec.ofNat 32 p.proof.length) ++ p.proof) ++ memory (htonl p.loss) := by
  simp only [frame, sendProof, List.flatMap_append, bytes_send_string, sendFloat,
    List.flatMap_singleton, Send.bytes]

/-! ## Receiving -/

def recvString : Reader Byte Bytes := do
  let len ← take 4
  take (word len).toNat

def recvFloat : Reader Byte (BitVec 32) := do
  let bits ← take 4
  return ntohl (word bits)

def recvProof : Reader Byte StarkProof := do
  let root ← recvString
  let proof ← recvString
  let loss ← recvFloat
  return ⟨root, proof, loss⟩

theorem recv_string_stable : Stable recvString :=
  (take_stable 4).bind fun _ => take_stable _

theorem recv_float_stable : Stable recvFloat :=
  (take_stable 4).bind fun _ => pure_stable _

theorem recv_proof_stable : Stable recvProof :=
  recv_string_stable.bind fun _ => recv_string_stable.bind fun _ =>
    recv_float_stable.bind fun _ => pure_stable _

/-- The length of a string fits its four bytes. -/
def Fits (s : Bytes) : Prop := s.length < 2 ^ 32

theorem recv_string_sent {s : Bytes} (hs : Fits s) (rest : Bytes) :
    recvString (memory (BitVec.ofNat 32 s.length) ++ s ++ rest) = some (s, rest) := by
  rw [List.append_assoc]
  refine bind_eq_some.mpr ⟨_, _, take_eq_some.mpr ⟨rfl, length_memory _⟩, ?_⟩
  rw [word_memory, BitVec.toNat_ofNat, Nat.mod_eq_of_lt hs]
  exact take_eq_some.mpr ⟨rfl, rfl⟩

theorem recv_float_sent (f : BitVec 32) (rest : Bytes) :
    recvFloat (memory (htonl f) ++ rest) = some (f, rest) := by
  refine bind_eq_some.mpr ⟨_, _, take_eq_some.mpr ⟨rfl, length_memory _⟩, ?_⟩
  rw [word_memory, ntohl_htonl]
  rfl

/-- The proofs that survive: both strings fit. -/
def StarkProof.Sound (p : StarkProof) : Prop := Fits p.root ∧ Fits p.proof

theorem recv_proof_sent {p : StarkProof} (hp : p.Sound) (rest : Bytes) :
    recvProof (frame p ++ rest) = some (p, rest) := by
  rw [frame_eq, List.append_assoc, List.append_assoc]
  refine bind_eq_some.mpr ⟨_, _, recv_string_sent hp.1 _, ?_⟩
  refine bind_eq_some.mpr ⟨_, _, recv_string_sent hp.2 _, ?_⟩
  exact bind_eq_some.mpr ⟨_, _, recv_float_sent p.loss rest, rfl⟩

/-- What is received is what was sent: a proof has no other frame. -/
theorem recv_string_eq {bytes s rest : Bytes} (h : recvString bytes = some (s, rest)) :
    bytes = memory (BitVec.ofNat 32 s.length) ++ s ++ rest := by
  obtain ⟨len, bytes', hlen, hs⟩ := bind_eq_some.mp h
  obtain ⟨rfl, hfour⟩ := take_eq_some.mp hlen
  obtain ⟨rfl, hlength⟩ := take_eq_some.mp hs
  rw [hlength, BitVec.ofNat_toNat, BitVec.setWidth_eq, memory_word hfour, List.append_assoc]

theorem recv_float_eq {bytes rest : Bytes} {f : BitVec 32} (h : recvFloat bytes = some (f, rest)) :
    bytes = memory (htonl f) ++ rest := by
  obtain ⟨bits, bytes', hbits, hf⟩ := bind_eq_some.mp h
  obtain ⟨rfl, hfour⟩ := take_eq_some.mp hbits
  obtain ⟨rfl, rfl⟩ := pure_eq_some.mp hf
  -- `htonl` and `ntohl` are one function
  have hback : htonl (ntohl (word bits)) = word bits := ntohl_htonl (word bits)
  rw [hback, memory_word hfour]

theorem recv_proof_eq {bytes rest : Bytes} {p : StarkProof} (h : recvProof bytes = some (p, rest)) :
    bytes = frame p ++ rest := by
  obtain ⟨root, bytes₁, hroot, h⟩ := bind_eq_some.mp h
  obtain ⟨proof, bytes₂, hproof, h⟩ := bind_eq_some.mp h
  obtain ⟨loss, bytes₃, hloss, h⟩ := bind_eq_some.mp h
  obtain ⟨rfl, rfl⟩ := pure_eq_some.mp h
  rw [recv_string_eq hroot, recv_string_eq hproof, recv_float_eq hloss, frame_eq]
  simp only [List.append_assoc]

theorem recv_string_consuming : Consuming recvString :=
  (take_consuming 4).bind fun _ => take_consuming _

theorem recv_string_productive : Productive recvString :=
  (take_productive (by decide)).bind fun _ => take_consuming _

theorem recv_proof_productive : Productive recvProof := by
  apply recv_string_productive.bind
  intro root
  apply recv_string_consuming.bind
  intro proof
  have hloss : Consuming recvFloat := (take_consuming 4).bind fun _ => pure_consuming _
  exact hloss.bind fun _ => pure_consuming _

/-- **The format of proofs.** -/
def proofs : Format Byte StarkProof where
  write := frame
  read := recvProof
  Sound := StarkProof.Sound
  stable := recv_proof_stable
  productive := recv_proof_productive
  read_write _ hp rest := recv_proof_sent hp rest

end ChainBeasts.Pouw.Wire
