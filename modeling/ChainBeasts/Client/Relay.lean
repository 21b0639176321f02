import ChainBeasts.Machine
import Mathlib.Data.List.Infix

/-! # The relays and their panels

`battle_server.js`, `marketplace_server.js`, `metrics_server.js` and `validator_server.js` are one
server: whatever a client sends is sent on to every client whose socket is open, the sender included.
The panels of the page (`BattleNotifications`, `MarketplaceNotifications`, `MetricsChart`) show the
last few messages that they can read.

A message is handled by the server in one go, but every socket has its own traffic under way in both
directions, and clients come and go. What holds all the same is that the server's order is everyone's
order, see `same_order`. -/

namespace ChainBeasts.Client.Relay

open ChainBeasts.Machine

variable {M B α : Type}

/-! ## A panel -/

/-- How many entries are kept when another one comes, and what is made of the data that arrives,
`none` where that throws. It is applied to what arrives: `ws` 8 hands a text on as a binary frame, so
this need not be `JSON.parse` of the text that was sent. -/
structure Panel (M B : Type) where
  kept : Nat
  parse : M → Option B

/-- The last `n` entries: `list.slice(-n)` for a positive `n`. -/
def lastOf (n : Nat) (list : List α) : List α := list.drop (list.length - n)

def Panel.onmessage (panel : Panel M B) (list : List B) (data : M) : List B :=
  match panel.parse data with
  | some b => lastOf panel.kept list ++ [b]
  | none => list

def battleNotifications (parse : M → Option B) : Panel M B := ⟨19, parse⟩

def marketplaceNotifications (parse : M → Option B) : Panel M B := ⟨19, parse⟩

def metricsChart (parse : M → Option B) : Panel M B := ⟨99, parse⟩

/-- Keeping one less each time is as good as keeping everything. -/
theorem lastOf_concat (n : Nat) (list : List α) (b : α) :
    lastOf n (lastOf (n + 1) list) ++ [b] = lastOf (n + 1) (list ++ [b]) := by
  unfold lastOf
  rw [List.drop_drop, List.length_drop, List.length_append, List.length_singleton,
    List.drop_append_of_le_length (by omega)]
  congr 2
  omega

theorem onmessage_lastOf (panel : Panel M B) (got : List M) (data : M) :
    panel.onmessage (lastOf (panel.kept + 1) (got.filterMap panel.parse)) data =
      lastOf (panel.kept + 1) ((got ++ [data]).filterMap panel.parse) := by
  rw [Panel.onmessage, List.filterMap_append]
  cases hparse : panel.parse data with
  | none => simp [hparse]
  | some b => simp [hparse, lastOf_concat]

/-! ## The machine -/

/-- A connection. `served` and `live` are the two ends of it: the server's socket, and the browser's,
is open. -/
structure Socket (M B : Type) where
  panel : Panel M B
  served : Bool
  live : Bool
  /-- What is under way to the server, and to the browser. -/
  up : List M
  down : List M
  shown : List B
  /-- How many messages the server had handled when the socket was opened; what the client has
  sent; and what it was handed. -/
  since : Nat
  sent : List M
  got : List M

/-- The connections so far, and the messages that the server has handled, each with the number of the
socket that it came from. -/
structure State (M B : Type) where
  sockets : List (Socket M B)
  log : List (Nat × M)

inductive Event (M B : Type) where
  | connect (panel : Panel M B)
  | send (i : Nat) (data : M)
  | handle (i : Nat)
  | deliver (i : Nat)
  | leave (i : Nat)
  | closed (i : Nat)

/-- `if (client.readyState === client.OPEN) client.send(data)`. -/
def Socket.relay (data : M) (client : Socket M B) : Socket M B :=
  if client.served then { client with down := client.down ++ [data] } else client

/-- What has not reached the server when its socket closes is lost, and so is what is sent later. A
browser hands over nothing that comes after it has left. -/
def step (s : State M B) : Event M B → Option (State M B)
  | .connect panel =>
      let client : Socket M B := ⟨panel, true, true, [], [], [], s.log.length, [], []⟩
      some { s with sockets := s.sockets ++ [client] }
  | .send i data => do
      let c ← s.sockets[i]?
      if c.live then
        let up := if c.served then c.up ++ [data] else c.up
        some { s with sockets := s.sockets.set i { c with up, sent := c.sent ++ [data] } }
      else none
  | .handle i => do
      let c ← s.sockets[i]?
      match c.up with
      | [] => none
      | data :: up =>
        let sockets := (s.sockets.set i { c with up }).map (Socket.relay data)
        some { sockets, log := s.log ++ [(i, data)] }
  | .deliver i => do
      let c ← s.sockets[i]?
      match c.live, c.down with
      | true, data :: down =>
        let c := { c with down, shown := c.panel.onmessage c.shown data, got := c.got ++ [data] }
        some { s with sockets := s.sockets.set i c }
      | _, _ => none
  | .leave i => do
      let c ← s.sockets[i]?
      some { s with sockets := s.sockets.set i { c with live := false } }
  | .closed i => do
      let c ← s.sockets[i]?
      some { s with sockets := s.sockets.set i { c with served := false, up := [] } }

def run (evs : List (Event M B)) : State M B := exec (revert step) ⟨[], []⟩ evs

/-- The messages handled of one socket. -/
def handled (log : List (Nat × M)) (i : Nat) : List M :=
  (log.filter fun e => e.1 = i).map Prod.snd

/-- The messages handled since the socket was opened. -/
def Socket.heard (c : Socket M B) (log : List (Nat × M)) : List M :=
  (log.drop c.since).map Prod.snd

/-! ## The invariant -/

/-- What the server has handled of a socket, and what it has sent there. -/
structure Orderly (log : List (Nat × M)) (i : Nat) (c : Socket M B) : Prop where
  since : c.since ≤ log.length
  down : c.got ++ c.down <+: c.heard log
  downWhole : c.served = true → c.got ++ c.down = c.heard log
  up : handled log i ++ c.up <+: c.sent
  upWhole : c.served = true → handled log i ++ c.up = c.sent
  shown : c.shown = lastOf (c.panel.kept + 1) (c.got.filterMap c.panel.parse)

/-- The sockets are in order, and no message is of a socket that is not there. -/
structure InOrder (s : State M B) : Prop where
  orderly : ∀ i c, s.sockets[i]? = some c → Orderly s.log i c
  from_socket : ∀ e ∈ s.log, e.1 < s.sockets.length

section Steps
variable {s s' : State M B} {i : Nat} {c c' : Socket M B} {log : List (Nat × M)}

theorem heard_concat {e : Nat × M} (h : c.since ≤ log.length) :
    c.heard (log ++ [e]) = c.heard log ++ [e.2] := by
  rw [Socket.heard, List.drop_append_of_le_length h, List.map_append]
  rfl

theorem handled_concat (e : Nat × M) :
    handled (log ++ [e]) i = handled log i ++ if e.1 = i then [e.2] else [] := by
  unfold handled
  rw [List.filter_append, List.map_append]
  by_cases h : e.1 = i <;> simp [h]

/-- **One socket changes**, and the log does not. -/
theorem InOrder.set (hs : InOrder s) (h : Orderly s.log i c) :
    InOrder { s with sockets := s.sockets.set i c } := by
  refine ⟨fun j d hd => ?_, fun e he => ?_⟩
  · by_cases hij : i = j
    · subst hij
      have hi : i < s.sockets.length := by
        rw [← List.length_set (a := c) (i := i)]
        exact (List.getElem?_eq_some_iff.mp hd).1
      rw [List.getElem?_set_self hi] at hd
      rw [← Option.some.inj hd]
      exact h
    · rw [List.getElem?_set_ne hij] at hd
      exact hs.orderly j d hd
  · rw [List.length_set]
    exact hs.from_socket e he

/-- A message is handled: it is sent on, and what is left under way from the socket is `up`. -/
theorem Orderly.relay {j : Nat} {data : M} (h : Orderly log j c) {up : List M}
    (hup : handled (log ++ [(i, data)]) j ++ up = handled log j ++ c.up) :
    Orderly (log ++ [(i, data)]) j ({ c with up }.relay data) := by
  have hsince : c.since ≤ (log ++ [(i, data)]).length := by
    rw [List.length_append]
    exact Nat.le_add_right_of_le h.since
  have hheard := heard_concat (e := (i, data)) h.since
  by_cases hserved : c.served = true
  · have hsent : ({ c with up }.relay data : Socket M B) =
        { c with up, down := c.down ++ [data] } := if_pos hserved
    have hwhole : c.got ++ (c.down ++ [data]) = c.heard (log ++ [(i, data)]) := by
      rw [hheard, ← h.downWhole hserved, List.append_assoc]
    rw [hsent]
    exact ⟨hsince, ⟨[], by rw [List.append_nil]; exact hwhole⟩, fun _ => hwhole,
      by rw [hup]; exact h.up, fun _ => by rw [hup]; exact h.upWhole hserved, h.shown⟩
  · have hsent : ({ c with up }.relay data : Socket M B) = { c with up } := if_neg hserved
    rw [hsent]
    refine ⟨hsince, ?_, fun h' => absurd h' hserved, by rw [hup]; exact h.up,
      fun h' => absurd h' hserved, h.shown⟩
    show c.got ++ c.down <+: c.heard (log ++ [(i, data)])
    rw [hheard]
    exact h.down.trans (List.prefix_append _ _)

theorem InOrder.connect (hs : InOrder s) (panel : Panel M B) :
    InOrder { s with
      sockets := s.sockets ++ [⟨panel, true, true, [], [], [], s.log.length, [], []⟩] } := by
  refine ⟨fun i c hc => ?_, fun e he => ?_⟩
  · by_cases hi : i < s.sockets.length
    · rw [List.getElem?_append_left hi] at hc
      exact hs.orderly i c hc
    · rw [List.getElem?_append_right (Nat.le_of_not_lt hi), List.getElem?_singleton] at hc
      obtain ⟨hlast, hc⟩ := Option.ite_none_right_eq_some.mp hc
      obtain rfl := Option.some.inj hc
      -- a new socket has not sent anything
      have hnone : handled s.log i = [] := by
        unfold handled
        rw [List.map_eq_nil_iff, List.filter_eq_nil_iff]
        intro e he
        have hlt := hs.from_socket e he
        simp only [decide_eq_true_eq]
        omega
      have hheard : ([] : List M) ++ [] = (s.log.drop s.log.length).map Prod.snd := by
        rw [List.drop_length]
        rfl
      exact ⟨Nat.le_refl _, ⟨[], by rw [List.append_nil]; exact hheard⟩, fun _ => hheard,
        ⟨[], by rw [hnone]; rfl⟩, fun _ => by rw [hnone]; rfl, by simp [lastOf]⟩
  · rw [List.length_append]
    exact Nat.lt_add_right _ (hs.from_socket e he)

theorem InOrder.handle (hs : InOrder s) {data : M} {up : List M} (hc : s.sockets[i]? = some c)
    (hup : c.up = data :: up) :
    InOrder (M := M) (B := B) ⟨(s.sockets.set i { c with up }).map (Socket.relay data),
      s.log ++ [(i, data)]⟩ := by
  have hi : i < s.sockets.length := (List.getElem?_eq_some_iff.mp hc).1
  refine ⟨fun j d hd => ?_, fun e he => ?_⟩
  · rw [List.getElem?_map, Option.map_eq_some_iff] at hd
    obtain ⟨b, hb, rfl⟩ := hd
    by_cases hij : i = j
    · subst hij
      rw [List.getElem?_set_self hi] at hb
      obtain rfl := Option.some.inj hb
      apply (hs.orderly i c hc).relay
      rw [handled_concat, if_pos rfl, hup, List.append_assoc]
      rfl
    · rw [List.getElem?_set_ne hij] at hb
      apply (hs.orderly j b hb).relay
      rw [handled_concat, if_neg hij, List.append_nil]
  · rw [List.length_map, List.length_set]
    rcases List.mem_append.mp he with hold | hnew
    · exact hs.from_socket e hold
    · rw [List.mem_singleton.mp hnew]
      exact hi

/-- **One event.** -/
theorem InOrder.step (hs : InOrder s) {e : Event M B} (h : step s e = some s') : InOrder s' := by
  cases e with
  | connect panel =>
      obtain rfl := Option.some.inj h
      exact hs.connect panel
  | send i data =>
      simp only [Relay.step, Option.bind_eq_bind, Option.bind_eq_some_iff,
        Option.ite_none_right_eq_some] at h
      obtain ⟨c, hc, -, h⟩ := h
      obtain rfl := Option.some.inj h
      have horderly := hs.orderly i c hc
      refine hs.set ⟨horderly.since, horderly.down, horderly.downWhole, ?_, fun hserved => ?_,
        horderly.shown⟩
      · show handled s.log i ++ (if c.served then c.up ++ [data] else c.up) <+: c.sent ++ [data]
        cases hserved : c.served with
        | true =>
            rw [if_pos rfl, ← List.append_assoc, horderly.upWhole hserved]
        | false => exact horderly.up.trans (List.prefix_append _ _)
      · show handled s.log i ++ (if c.served then c.up ++ [data] else c.up) = c.sent ++ [data]
        have hopen : c.served = true := hserved
        rw [if_pos hopen, ← List.append_assoc, horderly.upWhole hopen]
  | handle i =>
      simp only [Relay.step, Option.bind_eq_bind, Option.bind_eq_some_iff] at h
      obtain ⟨c, hc, h⟩ := h
      split at h
      · cases h
      · next data up hup =>
          obtain rfl := Option.some.inj h
          exact hs.handle hc hup
  | deliver i =>
      simp only [Relay.step, Option.bind_eq_bind, Option.bind_eq_some_iff] at h
      obtain ⟨c, hc, h⟩ := h
      split at h
      · next data down _ hdown =>
          obtain rfl := Option.some.inj h
          have horderly := hs.orderly i c hc
          have hmoved : (c.got ++ [data]) ++ down = c.got ++ c.down := by
            rw [hdown, List.append_assoc]
            rfl
          refine hs.set ⟨horderly.since, ?_, fun hserved => ?_, horderly.up, horderly.upWhole, ?_⟩
          · show (c.got ++ [data]) ++ down <+: _
            rw [hmoved]
            exact horderly.down
          · show (c.got ++ [data]) ++ down = _
            rw [hmoved]
            exact horderly.downWhole hserved
          · show c.panel.onmessage c.shown data = _
            rw [horderly.shown]
            exact onmessage_lastOf c.panel c.got data
      · cases h
  | leave i =>
      simp only [Relay.step, Option.bind_eq_bind, Option.bind_eq_some_iff] at h
      obtain ⟨c, hc, h⟩ := h
      obtain rfl := Option.some.inj h
      obtain ⟨since, down, downWhole, up, upWhole, shown⟩ := hs.orderly i c hc
      exact hs.set ⟨since, down, downWhole, up, upWhole, shown⟩
  | closed i =>
      simp only [Relay.step, Option.bind_eq_bind, Option.bind_eq_some_iff] at h
      obtain ⟨c, hc, h⟩ := h
      obtain rfl := Option.some.inj h
      obtain ⟨since, down, -, up, -, shown⟩ := hs.orderly i c hc
      refine hs.set ⟨since, down, fun h => absurd h Bool.false_ne_true, ?_,
        fun h => absurd h Bool.false_ne_true, shown⟩
      show handled s.log i ++ [] <+: c.sent
      rw [List.append_nil]
      exact (List.prefix_append _ _).trans up

theorem run_inOrder (evs : List (Event M B)) : InOrder (run evs) := by
  apply revert_induction InOrder
  · exact ⟨fun i c hc => by simp at hc, fun e he => absurd he List.not_mem_nil⟩
  · intro s e s' hs h
    exact hs.step h

end Steps

/-! ## One order for all -/

/-- What one socket has been through: it was handed the messages that the server handled since it was
opened, in the server's order and without a gap, and its panel shows the last of those that it can
read; the server has handled what the client sent in the order in which it was sent. While the server
holds the socket open, only what is under way is missing. -/
structure Faithful (s : State M B) (i : Nat) (c : Socket M B) : Prop where
  got : c.got <+: c.heard s.log
  all_got : c.served = true → c.down = [] → c.got = c.heard s.log
  shown : c.shown = lastOf (c.panel.kept + 1) (c.got.filterMap c.panel.parse)
  handled : handled s.log i <+: c.sent
  all_handled : c.served = true → c.up = [] → Relay.handled s.log i = c.sent

theorem Orderly.faithful {s : State M B} {i : Nat} {c : Socket M B} (h : Orderly s.log i c) :
    Faithful s i c where
  got := (List.prefix_append _ _).trans h.down
  all_got hserved hdown := by
    rw [← h.downWhole hserved, hdown, List.append_nil]
  shown := h.shown
  handled := (List.prefix_append _ _).trans h.up
  all_handled hserved hup := by
    rw [← h.upWhole hserved, hup, List.append_nil]

/-- What a later socket has heard, an earlier one has heard after something else. -/
theorem heard_drop {c d : Socket M B} (log : List (Nat × M)) (h : c.since ≤ d.since) :
    (c.heard log).drop (d.since - c.since) = d.heard log := by
  rw [Socket.heard, Socket.heard, ← List.map_drop, List.drop_drop]
  congr 2
  omega

/-- **One order for all.** Whatever is sent, delivered, opened and closed in whatever order: every
socket is handed what the server handled since it was opened, in that order, and no two sockets differ
in what they were handed since both were open, but for what one of them has not been handed yet. -/
theorem same_order (evs : List (Event M B)) :
    let s := run evs
    (∀ i c, s.sockets[i]? = some c → Faithful s i c) ∧
      ∀ (i j : Nat) (c d : Socket M B), s.sockets[i]? = some c → s.sockets[j]? = some d →
        c.since ≤ d.since →
        c.got.drop (d.since - c.since) <+: d.got ∨ d.got <+: c.got.drop (d.since - c.since) := by
  intro s
  have hs : InOrder s := run_inOrder evs
  refine ⟨fun i c hc => (hs.orderly i c hc).faithful, fun i j c d hc hd hsince => ?_⟩
  have hfirst : c.got.drop (d.since - c.since) <+: d.heard s.log := by
    rw [← heard_drop s.log hsince]
    exact List.IsPrefix.drop (hs.orderly i c hc).faithful.got _
  exact List.prefix_or_prefix_of_prefix hfirst (hs.orderly j d hd).faithful.got

end ChainBeasts.Client.Relay
