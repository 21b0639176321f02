import ChainBeasts.Onchain.EthEncoding
import ChainBeasts.Search

/-! # `http_client.hpp`

`http_post_json` tries a request up to three times. What happens on the network in one try is an
`Attempt`, with the status the endpoint replied with, if it replied, and the bytes that arrived. The
loop takes an attempt for a success unless it can read an error from the bytes (`statusOk`), so
also one that was answered with too few of them (`taken_iff`). -/

namespace ChainBeasts.Onchain

open ChainBeasts.Evm ChainBeasts.Search

/-! ## Reading the status -/

def isdigit (c : BitVec 8) : Bool := 0x30 ≤ c ∧ c ≤ 0x39

/-- `std::atoi`: leading blanks, a sign and as many digits as there are. -/
def atoi (s : Bytes) : Int :=
  let (negative, s) := sign (s.dropWhile isspace)
  let v : Int := (s.takeWhile isdigit).foldl (fun v c => v * 10 + (c.toNat - 0x30 : Nat)) 0
  if negative then -v else v

/-- The check on what was read until the connection closed. -/
def statusOk (chk : Bytes) : Bool :=
  match find chk (text "HTTP/1.1") 0 with
  | none => true
  | some pos =>
      if pos + 12 ≤ chk.length then
        let code := atoi (chk.drop (pos + 9))
        ¬ (code < 200 ∨ 300 ≤ code)
      else true

/-! ## The attempts -/

inductive Attempt where
  | noSocket
  | invalidHost
  | refused
  | sendFailed
  /-- The request is sent. `status` is what the endpoint replies with. -/
  | exchanged (status : Option Nat) (received : Bytes)

namespace Attempt

/-- The client takes the attempt for a success. -/
def taken : Attempt → Bool
  | exchanged _ received => statusOk received
  | _ => false

/-- The endpoint processes the request: it replies 2xx. -/
def served : Attempt → Bool
  | exchanged (some status) _ => 200 ≤ status ∧ status < 300
  | _ => false

/-- The loop ends with this attempt. -/
def stops : Attempt → Bool
  | invalidHost => true
  | a => a.taken

end Attempt

/-- The loop of `http_post_json` from its attempt number `attempt` on, with `attempts` left: the
result, and how often the endpoint processes the request. -/
def postFrom (net : Nat → Attempt) : (attempts attempt : Nat) → Bool × Nat
  | 0, _ => (false, 0)
  | attempts + 1, attempt =>
    match net attempt with
    | .noSocket => postFrom net attempts (attempt + 1)
    | .invalidHost => (false, 0)
    | .refused => postFrom net attempts (attempt + 1)
    | .sendFailed => postFrom net attempts (attempt + 1)
    | .exchanged status received =>
        let processed := if (Attempt.exchanged status received).served then 1 else 0
        if statusOk received then (true, processed)
        else
          let later := postFrom net attempts (attempt + 1)
          (later.1, processed + later.2)

/-- The default number of attempts. -/
def httpPostJson (net : Nat → Attempt) : Bool × Nat := postFrom net 3 0

/-- The attempts that are made. -/
def made (net : Nat → Attempt) : (attempts attempt : Nat) → List Attempt
  | 0, _ => []
  | attempts + 1, attempt =>
    net attempt :: if (net attempt).stops then [] else made net attempts (attempt + 1)

/-- **What the loop does.** It succeeds if an attempt is taken for a success. -/
theorem post_from_eq (net : Nat → Attempt) (attempts attempt : Nat) :
    postFrom net attempts attempt =
      ((made net attempts attempt).any Attempt.taken,
        (made net attempts attempt).countP Attempt.served) := by
  induction attempts generalizing attempt with
  | zero => rfl
  | succ attempts ih =>
      rw [made, List.any_cons, List.countP_cons, postFrom]
      cases hnet : net attempt with
      | noSocket => exact ih (attempt + 1)
      | invalidHost => rfl
      | refused => exact ih (attempt + 1)
      | sendFailed => exact ih (attempt + 1)
      | exchanged status received =>
          cases hok : statusOk received with
          | true => simp [Attempt.taken, Attempt.stops, hok]
          | false => simp [Attempt.taken, Attempt.stops, hok, ih, Nat.add_comm]

/-! ## Replies of HTTP/1.1 -/

/-- A decimal digit. -/
def decimal (d : Nat) : BitVec 8 := BitVec.ofNat 8 (0x30 + d)

/-- The version and the status: twelve bytes. -/
def statusLine (status : Nat) : Bytes :=
  text "HTTP/1.1 " ++
    [decimal (status / 100 % 10), decimal (status / 10 % 10), decimal (status % 10)]

/-- A reply; `more` are its reason phrase, its headers and its body. -/
def reply (status : Nat) (more : Bytes) : Bytes := statusLine status ++ 0x20 :: more

/-- What arrives of an attempt is the beginning of a reply in HTTP/1.1, and nothing if there is
none. -/
def Attempt.Http11 : Attempt → Prop
  | exchanged none received => received = []
  | exchanged (some status) received => status < 1000 ∧ ∃ more, received <+: reply status more
  | _ => True

theorem decimal_facts {d : Nat} (hd : d < 10) :
    isspace (decimal d) = false ∧ decimal d ≠ 0x2d ∧ decimal d ≠ 0x2b ∧
      isdigit (decimal d) = true ∧ (decimal d).toNat - 0x30 = d := by
  revert d
  decide

/-- The number in front of something that is no digit. -/
theorem atoi_status {a b c : Nat} (ha : a < 10) (hb : b < 10) (hc : c < 10) {rest : Bytes}
    (hrest : rest.takeWhile isdigit = []) :
    atoi (decimal a :: decimal b :: decimal c :: rest) = 100 * a + 10 * b + c := by
  obtain ⟨hspace, hminus, hplus, hdigit, hvalue⟩ := decimal_facts ha
  obtain ⟨-, -, -, hdigit', hvalue'⟩ := decimal_facts hb
  obtain ⟨-, -, -, hdigit'', hvalue''⟩ := decimal_facts hc
  unfold atoi
  simp only [List.dropWhile_cons, hspace, Bool.false_eq_true, if_false, sign, if_neg hminus,
    if_neg hplus, List.takeWhile_cons, hdigit, hdigit', hdigit'', if_true, hrest, List.foldl_cons,
    List.foldl_nil, hvalue, hvalue', hvalue'']
  omega

theorem find_start {pat s : Bytes} (h : pat <+: s) : find s pat 0 = some 0 := by
  rw [find, if_pos (Nat.zero_le _), List.drop_zero]
  exact findFrom_prefix h 0

/-- From the twelfth byte on, the status is the one replied with. -/
theorem status_ok_reply {status : Nat} (hstatus : status < 1000) {more received : Bytes}
    (hreply : received <+: reply status more) (hlong : 12 ≤ received.length) :
    statusOk received = decide (200 ≤ status ∧ status < 300) := by
  have hline : statusLine status <+: received :=
    List.prefix_of_prefix_length_le (List.prefix_append _ _) hreply hlong
  obtain ⟨rest, rfl⟩ := hline
  have hrest : rest.takeWhile isdigit = [] := by
    have htail : rest <+: 0x20 :: more := (List.prefix_append_right_inj _).mp hreply
    cases rest with
    | nil => rfl
    | cons c rest =>
        obtain ⟨rfl, -⟩ := List.cons_prefix_cons.mp htail
        rfl
  have hcode : atoi ((statusLine status ++ rest).drop (0 + 9)) = status := by
    have hnumber := atoi_status (a := status / 100 % 10) (b := status / 10 % 10)
      (c := status % 10) (by omega) (by omega) (by omega) hrest
    have hvalue : (100 * (status / 100 % 10 : Nat) + 10 * (status / 10 % 10 : Nat) +
        (status % 10 : Nat) : Int) = status := by
      omega
    exact hnumber.trans hvalue
  have hfind : find (statusLine status ++ rest) (text "HTTP/1.1") 0 = some 0 := by
    apply find_start
    exact ⟨0x20 :: ([decimal (status / 100 % 10), decimal (status / 10 % 10),
      decimal (status % 10)] ++ rest), rfl⟩
  unfold statusOk
  simp only [hfind, hcode, Nat.zero_add, if_pos hlong]
  apply decide_eq_decide.mpr
  omega

/-- Fewer bytes are no error. -/
theorem status_ok_short {received : Bytes} (hshort : received.length < 12) :
    statusOk received = true := by
  unfold statusOk
  split
  · rfl
  · rw [if_neg (by omega)]

namespace Attempt

/-- An answer in HTTP/1.1 is taken for a success if it is one, or if it is cut off in its first
twelve bytes. -/
theorem taken_iff {status : Option Nat} {received : Bytes}
    (h : (exchanged status received).Http11) :
    (exchanged status received).taken = true ↔
      (exchanged status received).served = true ∨ received.length < 12 := by
  show statusOk received = true ↔ _
  rcases Nat.lt_or_ge received.length 12 with hshort | hlong
  · rw [status_ok_short hshort]
    exact iff_of_true rfl (Or.inr hshort)
  · cases status with
    | none =>
        have hnothing : received = [] := h
        rw [hnothing] at hlong
        exact absurd hlong (by decide)
    | some status =>
        obtain ⟨hstatus, more, hreply⟩ := h
        rw [status_ok_reply hstatus hreply hlong]
        show _ ↔ (decide (200 ≤ status ∧ status < 300)) = true ∨ _
        exact (or_iff_left (Nat.not_lt.mpr hlong)).symm

/-- The request was not processed, and the client cannot tell. -/
def Undetected : Attempt → Prop
  | exchanged status received => (exchanged status received).served = false ∧ received.length < 12
  | _ => False

theorem served_of_taken {a : Attempt} (h : a.Http11) (htaken : a.taken = true) :
    a.served = true ↔ ¬ a.Undetected := by
  cases a with
  | exchanged status received =>
      have hanswer := (taken_iff h).mp htaken
      show _ ↔ ¬ (_ ∧ _)
      rw [not_and, ← Bool.not_eq_true]
      tauto
  | noSocket => cases htaken
  | invalidHost => cases htaken
  | refused => cases htaken
  | sendFailed => cases htaken

theorem not_served_of_not_taken {a : Attempt} (h : a.Http11) (htaken : a.taken = false) :
    a.served = false ∧ ¬ a.Undetected := by
  cases a with
  | exchanged status received =>
      rw [← Bool.not_eq_true, taken_iff h, not_or, Bool.not_eq_true] at htaken
      exact ⟨htaken.1, fun hundetected => htaken.2 hundetected.2⟩
  | noSocket => exact ⟨rfl, id⟩
  | invalidHost => exact ⟨rfl, id⟩
  | refused => exact ⟨rfl, id⟩
  | sendFailed => exact ⟨rfl, id⟩

theorem stops_of_taken {a : Attempt} (htaken : a.taken = true) : a.stops = true := by
  cases a with
  | invalidHost => rfl
  | noSocket => exact htaken
  | refused => exact htaken
  | sendFailed => exact htaken
  | exchanged status received => exact htaken

end Attempt

/-- **What the retries come to.** With answers in HTTP/1.1, the request is processed once if the call
succeeds and not at all if it fails, unless an attempt is `Undetected`. -/
theorem processed_once_iff {net : Nat → Attempt} {attempts attempt : Nat}
    (h : ∀ a ∈ made net attempts attempt, a.Http11) :
    (postFrom net attempts attempt).2 = (if (postFrom net attempts attempt).1 then 1 else 0) ↔
      ∀ a ∈ made net attempts attempt, ¬ a.Undetected := by
  rw [post_from_eq]
  induction attempts generalizing attempt with
  | zero => simp [made]
  | succ attempts ih =>
      rw [made] at h ⊢
      have hfirst : (net attempt).Http11 := h _ List.mem_cons_self
      cases htaken : (net attempt).taken with
      | true =>
          -- the last attempt
          have hlast := Attempt.served_of_taken hfirst htaken
          rw [if_pos (Attempt.stops_of_taken htaken)]
          simp [htaken, ← hlast]
      | false =>
          obtain ⟨hserved, hdetected⟩ := Attempt.not_served_of_not_taken hfirst htaken
          cases hstops : (net attempt).stops with
          | true => simp [htaken, hserved, hdetected]
          | false =>
              rw [hstops] at h
              have hlater := ih fun a ha => h a (List.mem_cons_of_mem _ ha)
              simp only [Bool.false_eq_true, if_false, List.any_cons, htaken, Bool.false_or,
                List.countP_cons, hserved, Nat.add_zero, List.forall_mem_cons, hdetected,
                not_false_eq_true, true_and]
              exact hlater

end ChainBeasts.Onchain
