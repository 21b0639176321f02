import ChainBeasts.Machine
import ChainBeasts.Pouw.Wire

/-! # Two writers on one connection

`connect` makes the new connection one of the clients and then sends the stored proofs on it, without
the lock that `broadcast` holds while it sends. A state is where the two have got to on one
connection, with the bytes the kernel has taken, and any order of `send` calls is a run.

So the calls of one frame can land inside another (`frames_interleaved`). Where no frame is begun
before the last one has gone out whole, the other end receives exactly the proofs that were sent
(`frames_whole`).

That connections carry whole proofs is what the model of the nodes takes for granted. A connection
of the accepting side has no stored proofs to send. What becomes of a closed descriptor that is
handed out again is not modelled. -/

namespace ChainBeasts.Pouw.Wire

open ChainBeasts.Framing ChainBeasts.Machine

inductive Writer where
  | connect
  | broadcast
  deriving DecidableEq

def Writer.other : Writer → Writer
  | .connect => .broadcast
  | .broadcast => .connect

/-! ## One `send_proof` -/

/-- The calls left after one that takes `n` bytes, unless `send_proof` gives up there. -/
def advance (n : Nat) : List Send → Option (List Send)
  | [] => some []
  | .exactly bytes :: rest => if n = bytes.length then some rest else none
  | .loop bytes :: rest =>
    if n = 0 then none
    else if n < bytes.length then some (.loop (bytes.drop n) :: rest)
    else some rest

/-- What the next call hands to the kernel. -/
def asked : List Send → Bytes
  | [] => []
  | c :: _ => c.bytes

variable {n : Nat} {calls calls' : List Send}

theorem asked_advance (h : advance n calls = some calls') :
    (asked calls).take n ++ calls'.flatMap Send.bytes = calls.flatMap Send.bytes := by
  cases calls with
  | nil =>
      obtain rfl : [] = calls' := Option.some.inj h
      simp [asked]
  | cons c rest =>
      cases c with
      | exactly bytes =>
          obtain ⟨rfl, hrest⟩ := Option.ite_none_right_eq_some.mp h
          obtain rfl := Option.some.inj hrest
          simp [asked, Send.bytes]
      | loop bytes =>
          obtain ⟨-, h⟩ := Option.ite_none_left_eq_some.mp h
          split at h
          · obtain rfl := Option.some.inj h
            change bytes.take n ++ (bytes.drop n ++ _) = bytes ++ _
            rw [← List.append_assoc, List.take_append_drop]
          · next hall =>
              obtain rfl := Option.some.inj h
              simp [asked, Send.bytes, List.take_of_length_le (Nat.not_lt.mp hall)]

theorem advance_needed (h : advance n calls = some calls') (hc : ∀ c ∈ calls, c.bytes ≠ []) :
    ∀ c ∈ calls', c.bytes ≠ [] := by
  cases calls with
  | nil =>
      obtain rfl : [] = calls' := Option.some.inj h
      exact hc
  | cons c rest =>
      obtain ⟨-, hrest⟩ := List.forall_mem_cons.mp hc
      cases c with
      | exactly bytes =>
          obtain ⟨-, h⟩ := Option.ite_none_right_eq_some.mp h
          obtain rfl := Option.some.inj h
          exact hrest
      | loop bytes =>
          obtain ⟨-, h⟩ := Option.ite_none_left_eq_some.mp h
          split at h
          · next hleft =>
              obtain rfl := Option.some.inj h
              refine List.forall_mem_cons.mpr ⟨?_, hrest⟩
              rw [Send.bytes, ne_eq, List.drop_eq_nil_iff]
              exact Nat.not_le.mpr hleft
          · obtain rfl := Option.some.inj h
            exact hrest

/-- Where `send_proof` gives up, something was left to send. -/
theorem advance_none (h : advance n calls = none) (hn : n ≤ (asked calls).length)
    (hc : ∀ c ∈ calls, c.bytes ≠ []) : (asked calls).take n ≠ calls.flatMap Send.bytes := by
  cases calls with
  | nil => cases h
  | cons c rest =>
      have hlt : n < c.bytes.length := by
        have hpos := List.length_pos_of_ne_nil (hc c List.mem_cons_self)
        cases c with
        | exactly bytes =>
            have hne : n ≠ bytes.length := fun heq => by simp [advance, heq] at h
            exact Nat.lt_of_le_of_ne hn hne
        | loop bytes =>
            have hzero : n = 0 := by
              by_contra hne
              rw [advance, if_neg hne] at h
              split at h <;> cases h
            rw [hzero]
            exact hpos
      intro heq
      have hlen := congrArg List.length heq
      rw [List.length_take_of_le hn, List.flatMap_cons, List.length_append] at hlen
      omega

/-- A `send_proof` that has not returned. -/
structure Sending where
  proof : StarkProof
  /-- What the kernel has taken of the frame. -/
  taken : Bytes
  calls : List Send
  whole : taken ++ calls.flatMap Send.bytes = frame proof
  needed : ∀ c ∈ calls, c.bytes ≠ []
  unfinished : calls ≠ []

def Sending.start (p : StarkProof) : Sending where
  proof := p
  taken := []
  calls := sendProof p
  whole := rfl
  needed _ := bytes_ne_nil
  unfinished := List.cons_ne_nil _ _

inductive Outcome where
  | returned (success : Bool)
  | going (t : Sending)

/-- One `send` call, of which the kernel takes `n` bytes. -/
def Sending.send (t : Sending) (n : Nat) : Outcome :=
  match h : advance n t.calls with
  | none => .returned false
  | some [] => .returned true
  | some (c :: calls) => .going {
      proof := t.proof
      taken := t.taken ++ (asked t.calls).take n
      calls := c :: calls
      whole := by rw [List.append_assoc, asked_advance h, t.whole]
      needed := advance_needed h t.needed
      unfinished := List.cons_ne_nil _ _ }

/-! ## One connection -/

structure Connection where
  /-- The stored proofs that `connect` has still to send. -/
  queue : List StarkProof
  sending : Writer → Option Sending
  /-- The connection is among the `clients_`. -/
  listed : Bool
  isOpen : Bool
  /-- What the kernel has taken. -/
  stream : Bytes
  /-- The proofs for which `send_proof` returned true. -/
  sent : List StarkProof
  /-- A `send_proof` has given up inside its frame. -/
  broken : Bool

inductive Event where
  /-- `connect` comes to the next stored proof. -/
  | next
  /-- `broadcast` comes to this connection. -/
  | broadcast (p : StarkProof)
  /-- A call takes `n` bytes, none where it fails. -/
  | send (who : Writer) (n : Nat)
  /-- The reader, or `stop`, takes the connection off the clients. -/
  | erase
  | close
  deriving DecidableEq

namespace Connection

/-- `connect` has made the connection one of the clients, and has read the stored proofs. -/
def start (stored : List StarkProof) : Connection :=
  ⟨stored, fun _ => none, true, true, [], [], false⟩

def setSending (s : Connection) (who : Writer) (t : Option Sending) : Connection :=
  { s with sending := Function.update s.sending who t }

@[simp] theorem setSending_self (s : Connection) (who : Writer) (t : Option Sending) :
    (s.setSending who t).sending who = t := Function.update_self _ _ _

theorem setSending_of_ne {s : Connection} {who other : Writer} {t : Option Sending}
    (h : other ≠ who) : (s.setSending who t).sending other = s.sending other :=
  Function.update_of_ne h _ _

/-- The kernel takes `n` bytes of the next call of `t`. -/
def written (s : Connection) (t : Sending) (n : Nat) : Connection :=
  { s with stream := s.stream ++ (asked t.calls).take n }

/-- `send_proof` returns true. -/
def finish (s : Connection) (who : Writer) (p : StarkProof) : Connection :=
  { s.setSending who none with sent := s.sent ++ [p] }

/-- `connect` does not look at what `send_proof` returns; `broadcast` closes the connection. -/
def onFailure (s : Connection) : Writer → Connection
  | .connect => s
  | .broadcast => { s with listed := false, isOpen := false }

/-- `send_proof` returns false, with its frame begun or not. -/
def giveUp (s : Connection) (who : Writer) (begun : Bool) : Connection :=
  { s.setSending who none with broken := s.broken || begun }.onFailure who

/-- The next call of `t`, of which the kernel takes `n` bytes. -/
def send (s : Connection) (who : Writer) (t : Sending) (n : Nat) : Connection :=
  match t.send n with
  | .going t' => (s.written t n).setSending who (some t')
  | .returned true => (s.written t n).finish who t.proof
  | .returned false => (s.written t n).giveUp who (t.taken ≠ [] || 0 < n)

def step (s : Connection) : Event → Option Connection
  | .next =>
    match s.queue, s.sending .connect with
    | p :: queue, none => some ({ s with queue }.setSending .connect (some (.start p)))
    | _, _ => none
  | .broadcast p =>
    if s.listed = true ∧ (s.sending .broadcast).isNone = true then
      some (s.setSending .broadcast (some (.start p)))
    else none
  | .send who n =>
    match s.sending who with
    | none => none
    | some t =>
      if n ≤ (asked t.calls).length ∧ (s.isOpen = true ∨ n = 0) then some (s.send who t n)
      else none
  -- the lock is free
  | .erase => if (s.sending .broadcast).isNone = true then some { s with listed := false } else none
  | .close => some { s with isOpen := false }

end Connection

/-- The connection after `evs`. -/
def run (stored : List StarkProof) (evs : List Event) : Connection :=
  exec (revert Connection.step) (.start stored) evs

def moves (stored : List StarkProof) (evs : List Event) : List (Move Connection Event) :=
  trace Connection.step (.start stored) evs

/-- The stream is the frames that were sent, and at most the beginning of one more. The other end
reads the proofs that were sent, and on the way never anything else. -/
structure WholeFrames (s : Connection) : Prop where
  stream : ∃ p part, s.stream = s.sent.flatMap frame ++ part ∧ part <+: frame p ∧ part ≠ frame p
  received : readAll recvProof s.stream = s.sent
  arriving : ∀ arrived, arrived <+: s.stream → readAll recvProof arrived <+: s.sent

/-! ## A frame inside a frame -/

/-- A stored proof is on its way when another one is broadcast: after the first length, all of the
other frame goes out. -/
def interleaved : List Event :=
  [.next, .send .connect 4,
    .broadcast ⟨[2], [], 0⟩, .send .broadcast 4, .send .broadcast 1, .send .broadcast 4,
    .send .broadcast 4,
    .send .connect 1, .send .connect 4, .send .connect 4]

/-- **Frames can be interleaved.** Both calls of `send_proof` succeed, and the other end gets
neither proof. -/
theorem frames_interleaved : ¬ ∀ stored evs, WholeFrames (run stored evs) := by
  intro hclaim
  have hreceived := (hclaim [⟨[1], [], 0⟩] interleaved).received
  have hsent : (run [⟨[1], [], 0⟩] interleaved).sent = [⟨[2], [], 0⟩, ⟨[1], [], 0⟩] := by
    decide +kernel
  have hnone : readAll recvProof (run [⟨[1], [], 0⟩] interleaved).stream = [] := by
    decide +kernel
  rw [hsent, hnone] at hreceived
  cases hreceived

/-! ## One frame at a time -/

/-- No frame is unfinished but the writer's own. -/
def Connection.Free (s : Connection) (who : Writer) : Prop :=
  s.broken = false ∧ ∀ t ∈ s.sending who.other, t.taken = []

/-- What is sent fits, and a frame is begun only where none is unfinished. -/
def InTurn (m : Move Connection Event) : Prop :=
  match m.call with
  | .next => ∀ p ∈ m.pre.queue.head?, p.Sound
  | .broadcast p => p.Sound
  | .send who n => ∀ t ∈ m.pre.sending who, t.taken = [] → 0 < n → m.pre.Free who
  | _ => True

instance (s : Connection) (who : Writer) : Decidable (s.Free who) :=
  inferInstanceAs (Decidable (_ ∧ _))

instance (p : StarkProof) : Decidable p.Sound :=
  inferInstanceAs (Decidable (_ < _ ∧ _ < _))

instance : DecidablePred InTurn
  | ⟨s, .next, _⟩ => inferInstanceAs (Decidable (∀ p ∈ s.queue.head?, p.Sound))
  | ⟨_, .broadcast p, _⟩ => inferInstanceAs (Decidable p.Sound)
  | ⟨s, .send who n, _⟩ =>
    inferInstanceAs (Decidable (∀ t ∈ s.sending who, t.taken = [] → 0 < n → s.Free who))
  | ⟨_, .erase, _⟩ => isTrue trivial
  | ⟨_, .close, _⟩ => isTrue trivial

/-- What follows the whole frames on the stream. -/
inductive Tail (s : Connection) : Bytes → Prop
  | nothing (unbroken : s.broken = false) (fresh : ∀ who, ∀ t ∈ s.sending who, t.taken = []) :
      Tail s []
  /-- A frame that is being sent, and only one. -/
  | going (who : Writer) (t : Sending) (sending : s.sending who = some t) (free : s.Free who) :
      Tail s t.taken
  /-- A frame that was given up. -/
  | broken {p : StarkProof} {part : Bytes} (broken : s.broken = true) (sound : p.Sound)
      (begins : part <+: frame p) (unfinished : part ≠ frame p)
      (fresh : ∀ who, ∀ t ∈ s.sending who, t.taken = []) : Tail s part

structure Orderly (s : Connection) : Prop where
  sent : ∀ p ∈ s.sent, p.Sound
  sending : ∀ who, ∀ t ∈ s.sending who, t.proof.Sound
  tail : ∃ part, s.stream = s.sent.flatMap frame ++ part ∧ Tail s part

variable {s s' : Connection} {who : Writer} {t t' : Sending} {part : Bytes}

theorem Sending.taken_prefix (t : Sending) : t.taken <+: frame t.proof := ⟨_, t.whole⟩

theorem Sending.taken_ne (t : Sending) : t.taken ≠ frame t.proof := by
  intro heq
  have hrest := List.append_right_eq_self.mp (t.whole.trans heq.symm)
  obtain ⟨c, hc⟩ := List.exists_mem_of_ne_nil _ t.unfinished
  exact t.needed c hc (List.flatMap_eq_nil_iff.mp hrest c hc)

/-- **One call** gives up before the frame is whole, completes it, or takes it further. -/
inductive Sent (t : Sending) (n : Nat) : Outcome → Prop
  | gaveUp (begins : t.taken ++ (asked t.calls).take n <+: frame t.proof)
      (unfinished : t.taken ++ (asked t.calls).take n ≠ frame t.proof) :
      Sent t n (.returned false)
  | completed (whole : t.taken ++ (asked t.calls).take n = frame t.proof) (some_ : 0 < n) :
      Sent t n (.returned true)
  | going (t' : Sending) (proof : t'.proof = t.proof)
      (taken : t'.taken = t.taken ++ (asked t.calls).take n) (some_ : 0 < n) :
      Sent t n (.going t')

theorem advance_pos (h : advance n calls = some calls') (hne : calls ≠ [])
    (hc : ∀ c ∈ calls, c.bytes ≠ []) : 0 < n := by
  cases calls with
  | nil => exact absurd rfl hne
  | cons c rest =>
      have hpos := List.length_pos_of_ne_nil (hc c List.mem_cons_self)
      cases c with
      | exactly bytes =>
          obtain ⟨rfl, -⟩ := Option.ite_none_right_eq_some.mp h
          exact hpos
      | loop bytes => exact Nat.pos_of_ne_zero (Option.ite_none_left_eq_some.mp h).1

theorem Sending.send_sent (t : Sending) (hn : n ≤ (asked t.calls).length) : Sent t n (t.send n) := by
  unfold Sending.send
  split
  · next h =>
      have hrest := advance_none h hn t.needed
      have hasked : (asked t.calls).take n <+: t.calls.flatMap Send.bytes := by
        obtain ⟨c, rest, hcalls⟩ := List.exists_cons_of_ne_nil t.unfinished
        rw [hcalls, asked, List.flatMap_cons]
        exact (List.take_prefix _ _).trans (List.prefix_append _ _)
      refine .gaveUp ?_ ?_
      · rw [← t.whole]
        exact (List.prefix_append_right_inj _).mpr hasked
      · rw [← t.whole]
        exact fun heq => hrest (List.append_cancel_left heq)
  · next h =>
      have hall := asked_advance h
      rw [List.flatMap_nil, List.append_nil] at hall
      exact .completed (by rw [hall, t.whole]) (advance_pos h t.unfinished t.needed)
  · next h => exact .going _ rfl rfl (advance_pos h t.unfinished t.needed)

theorem Writer.other_ne (a : Writer) : a.other ≠ a := by
  cases a <;> exact Writer.noConfusion

theorem Writer.other_eq {a b : Writer} (h : a ≠ b) : a.other = b := by
  cases a <;> cases b <;> first | rfl | exact absurd rfl h

/-- What holds of both writers after one of them has moved on. -/
theorem Connection.forall_setSending {P : Sending → Prop} {o : Option Sending}
    (hnew : ∀ t ∈ o, P t) (hother : ∀ t ∈ s.sending who.other, P t) (a : Writer) :
    ∀ t ∈ (s.setSending who o).sending a, P t := by
  by_cases ha : a = who
  · subst ha
    rw [setSending_self]
    exact hnew
  · rw [setSending_of_ne ha, ← Writer.other_eq (Ne.symm ha)]
    exact hother

/-- Nothing of either frame has gone out. -/
theorem Tail.setSending (h : Tail s part) {o : Option Sending}
    (hold : ∀ t ∈ s.sending who, t.taken = []) (hnew : ∀ t ∈ o, t.taken = []) :
    Tail (s.setSending who o) part := by
  cases h with
  | nothing unbroken fresh => exact .nothing unbroken (s.forall_setSending hnew (fresh _))
  | going a t sending free =>
      by_cases ha : a = who
      · subst ha
        rw [hold t sending]
        exact .nothing free.1 (s.forall_setSending hnew free.2)
      · refine .going a t ?_ ⟨free.1, ?_⟩
        · rw [Connection.setSending_of_ne ha]
          exact sending
        · rw [Writer.other_eq ha, Connection.setSending_self]
          exact hnew
  | broken broken sound begins unfinished fresh =>
      exact .broken broken sound begins unfinished (s.forall_setSending hnew (fresh _))

/-- A writer that takes the stream further goes on with what is unfinished. -/
theorem Tail.own (h : Tail s part) (ht : s.sending who = some t)
    (hturn : t.taken = [] → 0 < n → s.Free who) (hmore : t.taken ≠ [] ∨ 0 < n) :
    part = t.taken ∧ s.Free who := by
  cases h with
  | nothing unbroken fresh =>
      have hfresh := fresh who t ht
      exact ⟨hfresh.symm, hturn hfresh (hmore.resolve_left (not_not_intro hfresh))⟩
  | going a t₀ sending free =>
      by_cases ha : a = who
      · subst ha
        obtain rfl := Option.some.inj (ht.symm.trans sending)
        exact ⟨rfl, free⟩
      · have hfresh := free.2 t (Writer.other_eq ha ▸ ht)
        have hfree := hturn hfresh (hmore.resolve_left (not_not_intro hfresh))
        have hnothing := hfree.2 t₀ (Writer.other_eq (Ne.symm ha) ▸ sending)
        exact ⟨hnothing.trans hfresh.symm, hfree⟩
  | broken broken sound begins unfinished fresh =>
      have hfresh := fresh who t ht
      have hfree := hturn hfresh (hmore.resolve_left (not_not_intro hfresh))
      exact absurd (broken.symm.trans hfree.1) Bool.noConfusion

theorem Tail.congr (h : Tail s part) (hsending : s'.sending = s.sending)
    (hbroken : s'.broken = s.broken) : Tail s' part := by
  cases h with
  | nothing unbroken fresh => exact .nothing (hbroken.trans unbroken) (hsending ▸ fresh)
  | going a t sending free =>
      exact .going a t (hsending ▸ sending) ⟨hbroken.trans free.1, hsending ▸ free.2⟩
  | broken broken sound begins unfinished fresh =>
      exact .broken (hbroken.trans broken) sound begins unfinished (hsending ▸ fresh)

theorem Orderly.congr (hs : Orderly s) (hsending : s'.sending = s.sending)
    (hbroken : s'.broken = s.broken) (hstream : s'.stream = s.stream) (hsent : s'.sent = s.sent) :
    Orderly s' := by
  obtain ⟨part, hpart, htail⟩ := hs.tail
  refine ⟨hsent ▸ hs.sent, hsending ▸ hs.sending, part, ?_, htail.congr hsending hbroken⟩
  rw [hstream, hsent]
  exact hpart

theorem Orderly.onFailure (hs : Orderly s) (who : Writer) : Orderly (s.onFailure who) := by
  cases who with
  | connect => exact hs
  | broadcast => exact hs.congr rfl rfl rfl rfl

/-- A writer turns to a proof. -/
theorem Orderly.begin (hs : Orderly s) {p : StarkProof} (hidle : s.sending who = none)
    (hp : p.Sound) : Orderly (s.setSending who (some (.start p))) := by
  obtain ⟨part, hstream, htail⟩ := hs.tail
  refine ⟨hs.sent, s.forall_setSending ?_ (hs.sending _), part, hstream, htail.setSending ?_ ?_⟩
  · rintro t ⟨⟩
    exact hp
  · intro t ht
    rw [hidle] at ht
    cases ht
  · rintro t ⟨⟩
    rfl

/-- A call that takes nothing before anything of the frame has gone out. -/
theorem Orderly.send_nothing (hs : Orderly s) (ht : s.sending who = some t)
    (hfresh : t.taken = []) : Orderly ((s.written t 0).giveUp who false) := by
  obtain ⟨part, hstream, htail⟩ := hs.tail
  have hold : ∀ t' ∈ s.sending who, t'.taken = [] := by
    intro t' ht'
    rw [ht] at ht'
    obtain rfl := Option.some.inj ht'
    exact hfresh
  apply Orderly.onFailure
  refine ⟨hs.sent, s.forall_setSending (by rintro _ ⟨⟩) (hs.sending _), part, ?_, ?_⟩
  · exact (List.append_nil _).trans hstream
  · have htail' : Tail (s.setSending who none) part := htail.setSending hold (by rintro _ ⟨⟩)
    exact htail'.congr rfl (Bool.or_false _)

theorem Orderly.send (hs : Orderly s) (ht : s.sending who = some t)
    (hn : n ≤ (asked t.calls).length) (hturn : t.taken = [] → 0 < n → s.Free who) :
    Orderly (s.send who t n) := by
  obtain ⟨part, hstream, htail⟩ := hs.tail
  have hsound := hs.sending who t ht
  have hcall := t.send_sent hn
  unfold Connection.send
  generalize t.send n = o at hcall ⊢
  by_cases hmore : t.taken ≠ [] ∨ 0 < n
  · obtain ⟨rfl, hfree⟩ := htail.own ht hturn hmore
    have hwritten : (s.written t n).stream =
        s.sent.flatMap frame ++ (t.taken ++ (asked t.calls).take n) := by
      rw [Connection.written, hstream, List.append_assoc]
    cases hcall with
    | gaveUp begins unfinished =>
        apply Orderly.onFailure
        refine ⟨hs.sent, ?_, _, hwritten, ?_⟩
        · exact s.forall_setSending (by rintro _ ⟨⟩) (hs.sending _)
        · refine .broken ?_ hsound begins unfinished ?_
          · simpa using Or.inr hmore
          · exact s.forall_setSending (by rintro _ ⟨⟩) hfree.2
    | completed whole some_ =>
        refine ⟨?_, ?_, [], ?_, ?_⟩
        · exact List.forall_mem_append.mpr ⟨hs.sent, List.forall_mem_singleton.mpr hsound⟩
        · exact s.forall_setSending (by rintro _ ⟨⟩) (hs.sending _)
        · change (s.written t n).stream = (s.sent ++ [t.proof]).flatMap frame ++ []
          rw [hwritten, whole, List.flatMap_append, List.flatMap_singleton, List.append_nil]
        · exact .nothing hfree.1 (s.forall_setSending (by rintro _ ⟨⟩) hfree.2)
    | going t' proof taken some_ =>
        refine ⟨hs.sent, ?_, t'.taken, ?_, ?_⟩
        · refine s.forall_setSending ?_ (hs.sending _)
          rintro _ ⟨⟩
          rw [proof]
          exact hsound
        · rw [taken]
          exact hwritten
        · refine .going who t' (Connection.setSending_self _ _ _) ⟨hfree.1, ?_⟩
          rw [Connection.setSending_of_ne (Writer.other_ne who)]
          exact hfree.2
  · obtain ⟨hfresh, hzero⟩ := not_or.mp hmore
    obtain rfl := Nat.eq_zero_of_not_pos hzero
    cases hcall with
    | gaveUp begins unfinished =>
        have hnothing := hs.send_nothing ht (not_not.mp hfresh)
        simpa [not_not.mp hfresh] using hnothing
    | completed whole some_ => exact absurd some_ hzero
    | going t' proof taken some_ => exact absurd some_ hzero

theorem Orderly.step {ev : Event} (hs : Orderly s) (h : s.step ev = some s')
    (hturn : InTurn ⟨s, ev, s'⟩) : Orderly s' := by
  cases ev with
  | next =>
      rw [Connection.step] at h
      split at h
      · next p queue hqueue hidle =>
          obtain rfl := Option.some.inj h
          have hp : p.Sound := hturn p (by rw [hqueue]; rfl)
          have hs' : Orderly { s with queue } := hs.congr rfl rfl rfl rfl
          exact hs'.begin hidle hp
      · cases h
  | broadcast p =>
      obtain ⟨⟨-, hidle⟩, h⟩ := Option.ite_none_right_eq_some.mp h
      obtain rfl := Option.some.inj h
      exact hs.begin (Option.isNone_iff_eq_none.mp hidle) hturn
  | send who n =>
      rw [Connection.step] at h
      split at h
      · cases h
      · next t ht =>
          obtain ⟨⟨hn, -⟩, h⟩ := Option.ite_none_right_eq_some.mp h
          obtain rfl := Option.some.inj h
          exact hs.send ht hn (hturn t ht)
  | erase =>
      obtain ⟨-, h⟩ := Option.ite_none_right_eq_some.mp h
      obtain rfl := Option.some.inj h
      exact hs.congr rfl rfl rfl rfl
  | close =>
      obtain rfl := Option.some.inj h
      exact hs.congr rfl rfl rfl rfl

theorem start_orderly (stored : List StarkProof) : Orderly (.start stored) where
  sent _ hp := absurd hp List.not_mem_nil
  sending _ _ ht := by cases ht
  tail := ⟨[], rfl, .nothing rfl fun _ _ ht => by cases ht⟩

theorem run_orderly {stored : List StarkProof} {evs : List Event}
    (hok : ∀ m ∈ moves stored evs, InTurn m) : Orderly (run stored evs) :=
  trace_induction InTurn (fun s _ => Orderly s) (start_orderly stored)
    (fun _ _ _ _ hs hstep hturn => hs.step hstep hturn) evs hok

/-! ## What arrives -/

/-- Whatever follows the whole frames is the beginning of one more. -/
theorem Orderly.begins (hs : Orderly s) (h : Tail s part) :
    ∃ p, p.Sound ∧ part <+: frame p ∧ part ≠ frame p := by
  cases h with
  | nothing =>
      have hempty : StarkProof.Sound ⟨[], [], 0⟩ := by decide
      exact ⟨_, hempty, List.nil_prefix, by decide⟩
  | going who t sending =>
      exact ⟨t.proof, hs.sending who t sending, t.taken_prefix, t.taken_ne⟩
  | broken _ sound begins unfinished => exact ⟨_, sound, begins, unfinished⟩

/-- **Frames stay whole**, in every run in which each is begun in its turn. -/
theorem frames_whole (stored : List StarkProof) (evs : List Event)
    (hok : ∀ m ∈ moves stored evs, InTurn m) : WholeFrames (run stored evs) := by
  have hs := run_orderly hok
  generalize run stored evs = s at hs ⊢
  obtain ⟨part, hstream, htail⟩ := hs.tail
  obtain ⟨p, hsound, hbegins, hunfinished⟩ := hs.begins htail
  have hreceived : readAll recvProof s.stream = s.sent := by
    rw [hstream]
    exact proofs.readAll_written hs.sent (proofs.read_broken hsound hbegins hunfinished)
  refine ⟨⟨p, part, hstream, hbegins, hunfinished⟩, hreceived, fun arrived harrived => ?_⟩
  rw [← hreceived]
  exact readAll_prefix recv_proof_productive recv_proof_stable harrived

/-- The broadcast goes out in two pieces, and waits for the stored proof. -/
theorem frames_whole_waiting :
    WholeFrames (run [⟨[1], [], 0⟩]
      [.next, .broadcast ⟨[2, 3], [], 0⟩, .send .connect 4, .send .connect 1, .send .connect 4,
        .send .connect 4, .send .broadcast 4, .send .broadcast 1, .send .broadcast 1]) :=
  frames_whole _ _ (by decide +kernel)

end ChainBeasts.Pouw.Wire
