import ChainBeasts.Framing

/-! # Streams that arrive in chunks

A connection hands over what has come so far, so a read may get less than it asks for, and how much
it gets is up to the network. A stream is the list of the chunks in which it arrives; after the last
one the other end has closed. This module names nothing of any particular protocol.

A receiver refines a reader (`Framing.Reader`, which sees the stream as a whole) when the chunks make
no difference. A read that waits for all of it does, and so does a loop of reads that take what there
is; composition keeps it. -/

namespace ChainBeasts.Chunks

open ChainBeasts.Framing

variable {α β γ : Type}

abbrev Stream (β : Type) := List (List β)

/-- Returns a value, or `false`. -/
abbrev Receiver (β α : Type) := StateT (Stream β) Option α

/-! ## System calls -/

/-- `recv(fd, buffer, n, 0)`: what there is of the next chunk, at most `n`. Nothing, if the stream is
at its end. -/
def recv (n : Nat) : Stream β → List β × Stream β
  | [] => ([], [])
  | [] :: s => recv n s
  | (b :: bs) :: s => ((b :: bs).take n, (b :: bs).drop n :: s)

/-- `recv(fd, buffer, n, MSG_WAITALL)`: `n`, or less if the stream ends before. -/
def recvAll : Nat → Stream β → List β × Stream β
  | _, [] => ([], [])
  | n, c :: s =>
    if n ≤ c.length then (c.take n, c.drop n :: s)
    else (c ++ (recvAll (n - c.length) s).1, (recvAll (n - c.length) s).2)

theorem recv_flatten (n : Nat) (s : Stream β) :
    (recv n s).1 ++ (recv n s).2.flatten = s.flatten := by
  induction s with
  | nil => rfl
  | cons c s ih =>
      cases c with
      | nil => exact ih
      | cons b bs =>
          show (b :: bs).take n ++ ((b :: bs).drop n :: s).flatten = _
          rw [List.flatten_cons, ← List.append_assoc, List.take_append_drop, List.flatten_cons]

theorem length_recv_le (n : Nat) (s : Stream β) : (recv n s).1.length ≤ n := by
  induction s with
  | nil => exact Nat.zero_le n
  | cons c s ih =>
      cases c with
      | nil => exact ih
      | cons b bs => exact List.length_take_le n _

/-- Only at the end is there nothing. -/
theorem recv_eq_nil {n : Nat} (hn : 0 < n) {s : Stream β} (h : (recv n s).1 = []) :
    s.flatten = [] := by
  induction s with
  | nil => rfl
  | cons c s ih =>
      cases c with
      | nil => exact ih h
      | cons b bs =>
          obtain ⟨m, rfl⟩ := Nat.exists_eq_succ_of_ne_zero (Nat.ne_of_gt hn)
          cases h

/-! ## Receivers -/

/-- `if (recv(fd, buffer, n, MSG_WAITALL) != n) return false;` -/
def waitFor (n : Nat) : Receiver β (List β) := fun s =>
  if (recvAll n s).1.length = n then some (recvAll n s) else none

/-- `while (off < len) { n = recv(fd, out + off, len - off, 0); if (n <= 0) return false; off += n; }`
where `out` holds what has been received, `off` of it. -/
def recvLoop (len : Nat) (out : List β) : Receiver β (List β) := fun s =>
  if out.length < len then
    match recv (len - out.length) s with
    | ([], _) => none
    | (b :: bs, s') => recvLoop len (out ++ b :: bs) s'
  else some (out, s)
termination_by len - out.length
decreasing_by
  rw [List.length_append, List.length_cons]
  omega

/-- The chunks make no difference to what is received. -/
def Refines (m : Receiver β α) (r : Reader β α) : Prop :=
  ∀ s, (m s).map (fun p => (p.1, p.2.flatten)) = r s.flatten

section
variable {m : Receiver β α} {r : Reader β α} {s : Stream β}

theorem Refines.eq_none (h : Refines m r) : m s = none ↔ r s.flatten = none := by
  rw [← h s, Option.map_eq_none_iff]

theorem Refines.eq_some (h : Refines m r) {a : α} {s' : Stream β} (hm : m s = some (a, s')) :
    r s.flatten = some (a, s'.flatten) := by
  rw [← h s, hm]
  rfl

theorem refines_pure (a : α) : Refines (pure a : Receiver β α) (pure a) := fun _ => rfl

/-- **One after the other.** -/
theorem Refines.bind {f : α → Receiver β γ} {g : α → Reader β γ} (hm : Refines m r)
    (hf : ∀ a, Refines (f a) (g a)) : Refines (m >>= f) (r >>= g) := by
  intro s
  show ((m s).bind fun p => f p.1 p.2).map _ = (r s.flatten).bind fun p => g p.1 p.2
  rw [← hm s]
  cases m s with
  | none => rfl
  | some p => exact hf p.1 p.2

end

/-! ## Reads -/

/-- What is missing is taken from the rest. -/
theorem take_append {n : Nat} {bs t : List β} (h : bs.length ≤ n) :
    take n (bs ++ t) = (take (n - bs.length) t).map fun p => (bs ++ p.1, p.2) := by
  unfold take
  rw [List.length_append]
  by_cases hlen : n ≤ bs.length + t.length
  · have hrest : n - bs.length ≤ t.length := by omega
    rw [if_pos hlen, if_pos hrest, List.take_append, List.drop_append, List.take_of_length_le h,
      List.drop_of_length_le h]
    rfl
  · have hrest : ¬ n - bs.length ≤ t.length := by omega
    rw [if_neg hlen, if_neg hrest]
    rfl

theorem waitFor_cons {n : Nat} {c : List β} (h : ¬ n ≤ c.length) (s : Stream β) :
    waitFor n (c :: s) = (waitFor (n - c.length) s).map fun p => (c ++ p.1, p.2) := by
  have hsplit : recvAll n (c :: s) =
      (c ++ (recvAll (n - c.length) s).1, (recvAll (n - c.length) s).2) := if_neg h
  have hall : (c ++ (recvAll (n - c.length) s).1).length = n ↔
      (recvAll (n - c.length) s).1.length = n - c.length := by
    rw [List.length_append]
    omega
  rw [waitFor, waitFor, hsplit]
  by_cases hlen : (recvAll (n - c.length) s).1.length = n - c.length
  · rw [if_pos (hall.mpr hlen), if_pos hlen]
    rfl
  · rw [if_neg (mt hall.mp hlen), if_neg hlen]
    rfl

/-- **A read that waits** takes what the reader takes. -/
theorem refines_waitFor (n : Nat) : Refines (waitFor n : Receiver β (List β)) (take n) := by
  intro s
  induction s generalizing n with
  | nil => cases n <;> rfl
  | cons c s ih =>
      rw [List.flatten_cons]
      by_cases h : n ≤ c.length
      · have hfirst : recvAll n (c :: s) = (c.take n, c.drop n :: s) := if_pos h
        have hlen : (c.take n).length = n := List.length_take_of_le h
        have htake : take n (c ++ s.flatten) = some (c.take n, (c.drop n :: s).flatten) := by
          apply take_eq_some.mpr
          refine ⟨?_, hlen⟩
          rw [List.flatten_cons, ← List.append_assoc, List.take_append_drop]
        rw [waitFor, hfirst, if_pos hlen, htake]
        rfl
      · rw [waitFor_cons h, take_append (Nat.le_of_lt (Nat.lt_of_not_le h)), ← ih, Option.map_map,
          Option.map_map]
        rfl

/-- The loop receives what is missing. -/
theorem recvLoop_spec {len : Nat} {out : List β} (h : out.length ≤ len) (s : Stream β) :
    (recvLoop len out s).map (fun p => (p.1, p.2.flatten)) =
      (take (len - out.length) s.flatten).map fun p => (out ++ p.1, p.2) := by
  induction hm : len - out.length using Nat.strongRecOn generalizing out s with
  | _ missing ih =>
    subst hm
    rw [recvLoop]
    split
    · next hmore =>
        have hpos : 0 < len - out.length := Nat.sub_pos_of_lt hmore
        have hle := length_recv_le (len - out.length) s
        have hflat := recv_flatten (len - out.length) s
        split
        · next s' hrecv =>
            -- the stream has ended
            have hend : s.flatten = [] := recv_eq_nil hpos (congrArg Prod.fst hrecv)
            have hshort : ¬ len - out.length ≤ ([] : List β).length := Nat.not_le.mpr hpos
            rw [hend, take, if_neg hshort]
            rfl
        · next b bs s' hrecv =>
            rw [hrecv] at hle hflat
            have hout : (out ++ b :: bs).length = out.length + (b :: bs).length :=
              List.length_append
            have hle' : (b :: bs).length ≤ len - out.length := hle
            have hleft : len - (out ++ b :: bs).length = len - out.length - (b :: bs).length := by
              omega
            have hless : len - (out ++ b :: bs).length < len - out.length := by
              rw [List.length_cons] at hleft hle'
              omega
            rw [ih _ hless (by omega) s' rfl, hleft, ← hflat]
            show _ = (take (len - out.length) ((b :: bs) ++ s'.flatten)).map _
            rw [take_append hle', Option.map_map]
            congr 1
            funext p
            exact Prod.ext (List.append_assoc _ _ _) rfl
    · next hdone =>
        have hzero : len - out.length = 0 := Nat.sub_eq_zero_of_le (Nat.not_lt.mp hdone)
        rw [hzero]
        show some (out, s.flatten) = some (out ++ [], s.flatten)
        rw [List.append_nil]

/-- **A loop of short reads** takes what the reader takes. -/
theorem refines_recvLoop (len : Nat) :
    Refines (recvLoop len [] : Receiver β (List β)) (take len) := by
  intro s
  rw [recvLoop_spec (Nat.zero_le len)]
  show (take len s.flatten).map (fun p => p) = _
  exact Option.map_id'

end ChainBeasts.Chunks
