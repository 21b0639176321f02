import ChainBeasts.Pouw.Convergence
import Mathlib.Logic.Relation

/-! # How often a proof is counted

A node that receives a proof stores it, sends it to all its connections and attests, whether it has
seen the proof before or not. A proof that is sent at all comes back, so it is delivered again and
again, and every delivery counts as an attestation. `counts_once_iff` says when one submission
counts at most once: when the submitting node is connected to nobody, or no validator is attached
anywhere in reach. That is for the connections and the validators there are: the proof stays stored, so
a later connection takes it to any validator attached by then. -/

namespace ChainBeasts.Pouw.Network

open ChainBeasts.Machine

variable {N V F : Type}

/-- What the threads of the nodes do on their own. -/
def Event.isNetwork : Event N V F → Bool
  | .accept _ => true
  | .deliver .. => true
  | _ => false

/-- What goes on while no validator is attached or taken away, connections included. -/
def Event.grows : Event N V F → Bool
  | .connect .. => true
  | ev => ev.isNetwork

/-- All but a submission. -/
def Event.isRemote : Event N V F → Bool
  | .submit .. => false
  | _ => true

/-- `counts_[root]` of a validator. -/
def count (s : Network N V F) (v : V) (r : String) : SizeT := ((s.validators v).counts r).getD 0

/-- One connection joins the two nodes. -/
def Linked (s : Network N V F) (a b : N) : Prop :=
  ∃ (i : Nat) (l : Link N) (e : End), s.links[i]? = some l ∧ l.node e = a ∧ l.node e.other = b

/-- A path of connections leads from one node to the other. -/
def Reaches (s : Network N V F) : N → N → Prop := Relation.ReflTransGen s.Linked

theorem Linked.symm {s : Network N V F} {a b : N} (h : s.Linked a b) : s.Linked b a := by
  obtain ⟨i, l, e, hl, rfl, rfl⟩ := h
  exact ⟨i, l, e.other, hl, rfl, by rw [End.other_other]⟩

theorem reaches_of_links {s s' : Network N V F} (h : s'.links = s.links) {a b : N} :
    s'.Reaches a b ↔ s.Reaches a b := by
  have hlinked : s'.Linked = s.Linked := by
    funext a b
    simp only [Linked, h]
  rw [Reaches, Reaches, hlinked]

/-- The network `t` has the connections of `s`, all accepted, and its callbacks. -/
structure Settled (s t : Network N V F) : Prop where
  links : t.links = s.links
  onProof : t.onProof = s.onProof
  accepted : ∀ i < s.links.length, t.accepted i = true

theorem Settled.isOpen {s t : Network N V F} (h : Settled s t) {i : Nat} {l : Link N}
    (hl : s.links[i]? = some l) (e : End) : t.isOpen i e = true := by
  cases e with
  | client => rfl
  | server => exact h.accepted i (lt_of_link hl)

theorem Settled.setFlight {s t : Network N V F} (h : Settled s t) (i : Nat) (e : End)
    (rest : List (StarkProof F)) : Settled s (t.setFlight i e rest) :=
  ⟨h.links, h.onProof, h.accepted⟩

section
variable [DecidableEq N] [DecidableEq V]

theorem Settled.submit {s t : Network N V F} (h : Settled s t) (n : N) (q : StarkProof F) :
    Settled s (t.submit n q) := by
  obtain ⟨links, onProof, accepted⟩ := h
  exact ⟨by rwa [submit_links], by rwa [submit_on_proof], by rwa [submit_accepted]⟩

/-- The node has no open connection. -/
def Isolated (s : Network N V F) (n : N) : Prop := ∀ i e, s.feeds n i e = false

theorem count_submit {s : Network N V F} {n : N} {v : V} {q : StarkProof F} {r : String} :
    (s.submit n q).count v r =
      s.count v r + if s.onProof n = some v ∧ q.root = r then 1 else 0 := by
  rw [count, submit_validators, notify]
  cases hcallback : s.onProof n with
  | none => simp [count]
  | some u =>
      by_cases hu : u = v
      · subst hu
        by_cases hr : q.root = r
        · simp [count, Validator.attest, hr]
        · simp [count, Validator.attest, hr, Ne.symm hr]
      · have hv : v ≠ u := Ne.symm hu
        simp [count, hu, hv]

variable {s s' t : Network N V F} {n m x : N} {v : V} {p q : StarkProof F} {i j : Nat} {e : End}
  {l : Link N} {r : String} {ev : Event N V F}

/-! ## Where a root stays -/

/-- The root only travels among the nodes `C`, which only talk to each other, and no validator is
attached to them. -/
structure Confined (s : Network N V F) (C : N → Prop) (r : String) : Prop where
  closed : ∀ (i : Nat) (l : Link N) e, s.links[i]? = some l → C (l.node e) → C (l.node e.other)
  silent : ∀ m, C m → s.onProof m = none
  within : ∀ i l e, s.links[i]? = some l → s.Carries i e r → C (l.node e)

variable {C : N → Prop}

theorem Confined.submit (h : s.Confined C r) (hq : q.root = r → C n ∨ s.Isolated n) :
    (s.submit n q).Confined C r := by
  obtain ⟨closed, silent, within⟩ := h
  refine ⟨?_, ?_, ?_⟩
  · simpa only [submit_links] using closed
  · simpa only [submit_on_proof] using silent
  · intro j l e hl hcarries
    rw [submit_links] at hl
    rw [Carries, submit_flight] at hcarries
    split at hcarries
    · next hfeeds =>
        rw [List.map_append, List.mem_append] at hcarries
        rcases hcarries with hold | hnew
        · exact within j l e hl hold
        · have hroot : q.root = r := (List.mem_singleton.mp hnew).symm
          rcases hq hroot with hn | hisolated
          · obtain ⟨rfl, -⟩ := (feeds_iff hl).mp hfeeds
            simpa only [End.other_other] using closed j l e.other hl hn
          · rw [hisolated j e] at hfeeds
            cases hfeeds
    · exact within j l e hl hcarries

variable [DecidableEq F]

/-- **Counted once.** However the proof travels that `n` submits, in `later` events, no validator's
count of its root is ever up by more than one. -/
def CountsOnce (s : Network N V F) (later : Event N V F → Bool) (n : N) (p : StarkProof F) : Prop :=
  ∀ evs : List (Event N V F), (∀ ev ∈ evs, later ev = true) → ∀ v,
    (exec (revert step) (s.submit n p) evs).count v p.root - s.count v p.root ≤ 1

/-! ## What a step counts -/

theorem network_cases (hnet : ev.isNetwork = true) (h : s.step ev = some s') :
    (∃ i, s.accept i = some s') ∨ ∃ i e, s.deliver i e = some s' := by
  cases ev with
  | accept i => exact Or.inl ⟨i, h⟩
  | deliver i e => exact Or.inr ⟨i, e, h⟩
  | setCallback => cases hnet
  | connect => cases hnet
  | submit => cases hnet

/-- A network step counts a root at most once. -/
theorem count_step (hnet : ev.isNetwork = true) (h : s.step ev = some s') :
    s'.count v r = s.count v r ∨ s'.count v r = s.count v r + 1 := by
  obtain ⟨i, ha⟩ | ⟨i, e, hd⟩ := network_cases hnet h
  · obtain ⟨-, -, rfl⟩ := accept_cases ha
    exact Or.inl rfl
  · obtain ⟨l, q, rest, -, -, -, rfl⟩ := deliver_cases hd
    rw [count_submit]
    split
    · exact Or.inr rfl
    · exact Or.inl (BitVec.add_zero _)

/-- A network step keeps the root confined and does not count it. -/
theorem Confined.step (h : s.Confined C r) (hnet : ev.isNetwork = true)
    (hs : s.step ev = some s') : s'.Confined C r ∧ ∀ v, s'.count v r = s.count v r := by
  obtain ⟨i, ha⟩ | ⟨i, e, hd⟩ := network_cases hnet hs
  · obtain ⟨-, -, rfl⟩ := accept_cases ha
    exact ⟨⟨h.closed, h.silent, h.within⟩, fun _ => rfl⟩
  · obtain ⟨l, q, rest, hl, hflight, -, rfl⟩ := deliver_cases hd
    have hhere : q.root = r → C (l.node e) := by
      rintro rfl
      apply h.within i l e hl
      rw [Carries, hflight]
      exact List.mem_cons_self
    have hpopped : (s.setFlight i e rest).Confined C r := by
      refine ⟨h.closed, h.silent, ?_⟩
      intro j l' e' hl' hcarries
      apply h.within j l' e' hl'
      by_cases hsame : (j, e') = (i, e)
      · obtain ⟨rfl, rfl⟩ := Prod.mk.inj hsame
        rw [Carries, setFlight_self] at hcarries
        rw [Carries, hflight]
        exact List.mem_cons_of_mem _ hcarries
      · rwa [Carries, setFlight_of_ne hsame] at hcarries
    refine ⟨hpopped.submit fun hq => Or.inl (hhere hq), ?_⟩
    intro v
    rw [count_submit, if_neg]
    · exact BitVec.add_zero _
    · rintro ⟨hcallback, hq⟩
      have hsilent : s.onProof (l.node e) = none := h.silent _ (hhere hq)
      rw [show s.onProof (l.node e) = some v from hcallback] at hsilent
      cases hsilent

theorem Confined.run (h : s.Confined C r) (evs : List (Event N V F))
    (hnet : ∀ ev ∈ evs, ev.isNetwork = true) (v : V) :
    (exec (revert Network.step) s evs).count v r = s.count v r := by
  let P (t : Network N V F) (_ : List (Move (Network N V F) (Event N V F))) : Prop :=
    t.Confined C r ∧ ∀ v, t.count v r = s.count v r
  have hrun : P (exec (revert Network.step) s evs) (trace Network.step s evs) := by
    refine trace_induction (fun m => m.call.isNetwork = true) P ⟨h, fun _ => rfl⟩ ?_ evs
      fun m hm => hnet _ (mem_of_mem_trace hm)
    rintro t tr ev t' ⟨hconfined, hcount⟩ hstep hev
    obtain ⟨hconfined', hcount'⟩ := hconfined.step hev hstep
    exact ⟨hconfined', fun v => (hcount' v).trans (hcount v)⟩
  exact hrun.2 v

/-- While no validator is attached to any node, none counts, new connections included. -/
theorem silent_step (h : ∀ m, s.onProof m = none) (hev : ev.grows = true)
    (hs : s.step ev = some s') : (∀ m, s'.onProof m = none) ∧ ∀ v, s'.count v r = s.count v r := by
  have hall : s.Confined (fun _ => True) r :=
    ⟨fun _ _ _ _ _ => trivial, fun m _ => h m, fun _ _ _ _ _ => trivial⟩
  have hnetwork : ev.isNetwork = true →
      (∀ m, s'.onProof m = none) ∧ ∀ v, s'.count v r = s.count v r := by
    intro hnet
    obtain ⟨hconfined, hcount⟩ := hall.step hnet hs
    exact ⟨fun m => hconfined.silent m trivial, hcount⟩
  cases ev with
  | connect client server order =>
      have hconnect : s.connect client server order = some s' := hs
      unfold connect at hconnect
      split at hconnect
      · cases hconnect
        exact ⟨h, fun _ => rfl⟩
      · cases hconnect
  | accept i => exact hnetwork rfl
  | deliver i e => exact hnetwork rfl
  | setCallback => cases hev
  | submit => cases hev

theorem silent_run (h : ∀ m, s.onProof m = none) (evs : List (Event N V F))
    (hevs : ∀ ev ∈ evs, ev.grows = true) (v : V) :
    (exec (revert Network.step) s evs).count v r = s.count v r := by
  let P (t : Network N V F) (_ : List (Move (Network N V F) (Event N V F))) : Prop :=
    (∀ m, t.onProof m = none) ∧ ∀ v, t.count v r = s.count v r
  have hrun : P (exec (revert Network.step) s evs) (trace Network.step s evs) := by
    refine trace_induction (fun m => m.call.grows = true) P ⟨h, fun _ => rfl⟩ ?_ evs
      fun m hm => hevs _ (mem_of_mem_trace hm)
    rintro t tr ev t' ⟨hsilent, hcount⟩ hstep hev
    obtain ⟨hsilent', hcount'⟩ := silent_step (r := r) hsilent hev hstep
    exact ⟨hsilent', fun v => (hcount' v).trans (hcount v)⟩
  exact hrun.2 v

/-! ## How a root arrives -/

/-- A delivery on an open connection hands its first proof to the node at the end. -/
theorem step_deliver {rest : List (StarkProof F)} (hl : t.links[i]? = some l)
    (hflight : t.flight i e = q :: rest) (hopen : t.isOpen i e = true) :
    t.step (.deliver i e) = some ((t.setFlight i e rest).submit (l.node e) q) := by
  simp [step, deliver, hl, hflight, hopen]

/-- A delivery to node `m` of a proof of root `r`, after some network steps from `t`. -/
structure Arrival (s t : Network N V F) (m : N) (r : String) where
  before : List (Event N V F)
  network : ∀ ev ∈ before, ev.isNetwork = true
  i : Nat
  e : End
  l : Link N
  link : s.links[i]? = some l
  node : l.node e = m
  proof : StarkProof F
  root : proof.root = r
  rest : List (StarkProof F)
  settled : Settled s (exec (revert step) t before)
  flight : (exec (revert step) t before).flight i e = proof :: rest

namespace Arrival

/-- The network just before the delivery. -/
def pre (a : Arrival s t m r) : Network N V F := exec (revert Network.step) t a.before

/-- The network after the delivery. -/
def post (a : Arrival s t m r) : Network N V F :=
  (a.pre.setFlight a.i a.e a.rest).submit m a.proof

theorem exec_eq (a : Arrival s t m r) :
    exec (revert Network.step) t (a.before ++ [.deliver a.i a.e]) = a.post := by
  rw [exec_concat]
  apply revert_some
  have hl : a.pre.links[a.i]? = some a.l := by
    rw [show a.pre.links = s.links from a.settled.links]
    exact a.link
  have hdeliver := step_deliver hl a.flight (a.settled.isOpen a.link a.e)
  rwa [a.node] at hdeliver

theorem post_settled (a : Arrival s t m r) : Settled s a.post := (a.settled.setFlight _ _ _).submit _ _

theorem network_concat (a : Arrival s t m r) :
    ∀ ev ∈ a.before ++ [.deliver a.i a.e], ev.isNetwork = true := by
  intro ev hev
  rcases List.mem_append.mp hev with hold | hlast
  · exact a.network ev hold
  · rw [List.mem_singleton.mp hlast]
    rfl

end Arrival

/-- **A proof in flight is delivered**, once what is queued before it is. -/
theorem exists_arrival (ht : Settled s t) (hl : s.links[i]? = some l) (hc : t.Carries i e r) :
    Nonempty (Arrival s t (l.node e) r) := by
  obtain ⟨q, hq, rfl⟩ := List.mem_map.mp hc
  obtain ⟨queued, rest, hflight⟩ := List.append_of_mem hq
  clear hc hq
  induction queued generalizing t rest with
  | nil => exact ⟨⟨[], by simp, i, e, l, hl, rfl, q, rfl, rest, ht, hflight⟩⟩
  | cons first queued ih =>
      have hlt : t.links[i]? = some l := by rwa [ht.links]
      have hstep := step_deliver hlt hflight (ht.isOpen hl e)
      obtain ⟨sent, hsent⟩ :=
        (t.setFlight i e (queued ++ q :: rest)).exists_flight_append (l.node e) first i e
      rw [setFlight_self, List.append_assoc, List.cons_append] at hsent
      obtain ⟨a⟩ := ih ((ht.setFlight i e _).submit _ first) (rest ++ sent) hsent
      have hrun : exec (revert step) t (.deliver i e :: a.before) = a.pre := by
        rw [exec_cons, revert_some hstep]
        rfl
      refine ⟨⟨.deliver i e :: a.before, ?_, a.i, a.e, a.l, a.link, a.node, a.proof, a.root,
        a.rest, ?_, ?_⟩⟩
      · intro ev hev
        rcases List.mem_cons.mp hev with rfl | hmem
        · rfl
        · exact a.network ev hmem
      · rw [hrun]
        exact a.settled
      · rw [hrun]
        exact a.flight

/-- The node that got the proof sends it to each of its neighbours. -/
theorem Arrival.carries (a : Arrival s t m r) (hl : s.links[j]? = some l) (hnode : l.node e = m) :
    a.post.Carries j e.other r := by
  have hlinks : (a.pre.setFlight a.i a.e a.rest).links[j]? = some l := by
    rw [show (a.pre.setFlight a.i a.e a.rest).links = s.links from a.settled.links]
    exact hl
  have hopen := (a.settled.setFlight a.i a.e a.rest).isOpen hl e
  have hcarries := carries_submit (p := a.proof) hlinks hopen
  rwa [hnode, a.root] at hcarries

/-- A validator attached to the node counts the arrival. -/
theorem Arrival.count (a : Arrival s t m r) (hv : s.onProof m = some v) :
    a.post.count v r = a.pre.count v r + 1 := by
  have hcallback : (a.pre.setFlight a.i a.e a.rest).onProof m = some v := by
    rw [show (a.pre.setFlight a.i a.e a.rest).onProof = s.onProof from a.settled.onProof]
    exact hv
  rw [post, count_submit, if_pos ⟨hcallback, a.root⟩]
  rfl

/-- One arrival after another. -/
def Arrival.andThen (a : Arrival s t x r) (b : Arrival s a.post m r) : Arrival s t m r where
  before := (a.before ++ [.deliver a.i a.e]) ++ b.before
  network ev hev := (List.mem_append.mp hev).elim (a.network_concat ev) (b.network ev)
  i := b.i
  e := b.e
  l := b.l
  link := b.link
  node := b.node
  proof := b.proof
  root := b.root
  rest := b.rest
  settled := by
    rw [exec_append, a.exec_eq]
    exact b.settled
  flight := by
    rw [exec_append, a.exec_eq]
    exact b.flight

/-- **A root in flight toward a node arrives at every node in reach.** -/
theorem exists_arrival_of_reaches (hreach : s.Reaches x m) :
    ∀ {t : Network N V F} {i : Nat} {l : Link N} {e : End}, Settled s t → s.links[i]? = some l →
      l.node e = x → t.Carries i e r → Nonempty (Arrival s t m r) := by
  induction hreach using Relation.ReflTransGen.head_induction_on with
  | refl =>
      rintro t i l e ht hl rfl hc
      exact exists_arrival ht hl hc
  | head hlinked _ ih =>
      rintro t i l e ht hl rfl hc
      obtain ⟨j, l', e', hl', hhere, hthere⟩ := hlinked
      obtain ⟨a⟩ := exists_arrival ht hl hc
      obtain ⟨b⟩ := ih a.post_settled hl' hthere (a.carries hl' hhere)
      exact ⟨a.andThen b⟩

/-! ## Accepting everything -/

/-- An existing connection is accepted after an acceptance, refused or not. -/
theorem accepted_accept (hi : i < s.links.length) :
    (revert step s (.accept i)).accepted i = true := by
  cases ha : s.step (.accept i) with
  | none =>
      rw [revert_none ha]
      by_contra hwaits
      have hnew : i < s.links.length ∧ s.accepted i = false := ⟨hi, by simpa using hwaits⟩
      simp [step, accept, hnew] at ha
  | some s' =>
      obtain ⟨-, -, rfl⟩ := accept_cases ha
      rw [revert_some ha]
      exact Function.update_self _ _ _

/-- An acceptance changes nothing else, and leaves accepted what was. -/
theorem accept_frame (s : Network N V F) (i : Nat) :
    (revert step s (.accept i)).links = s.links ∧
      (revert step s (.accept i)).onProof = s.onProof ∧
      (revert step s (.accept i)).flight = s.flight ∧
      ∀ j, s.accepted j = true → (revert step s (.accept i)).accepted j = true := by
  cases ha : s.step (.accept i) with
  | none =>
      rw [revert_none ha]
      exact ⟨rfl, rfl, rfl, fun _ hj => hj⟩
  | some s' =>
      obtain ⟨-, -, rfl⟩ := accept_cases ha
      rw [revert_some ha]
      refine ⟨rfl, rfl, rfl, fun j hj => ?_⟩
      by_cases hji : j = i
      · rw [hji]
        exact Function.update_self _ _ _
      · exact (Function.update_of_ne hji _ _).trans hj

/-- The accepting threads take all connections that wait. -/
theorem exists_settled (s : Network N V F) (hl : t.links = s.links)
    (hcallback : t.onProof = s.onProof) :
    ∃ evs : List (Event N V F), (∀ ev ∈ evs, ev.isNetwork = true) ∧
      Settled s (exec (revert step) t evs) ∧ (exec (revert step) t evs).flight = t.flight := by
  have hall : ∀ is : List Nat,
      let u := exec (revert step) t (is.map Event.accept)
      u.links = t.links ∧ u.onProof = t.onProof ∧ u.flight = t.flight ∧
        ∀ i ∈ is, i < t.links.length → u.accepted i = true := by
    intro is
    induction is using List.reverseRecOn with
    | nil => simp
    | append_singleton is i ih =>
        obtain ⟨hlinks, hproof, hflight, haccepted⟩ := ih
        rw [List.map_append, List.map_singleton, exec_concat]
        obtain ⟨hlinks', hproof', hflight', hkept⟩ := accept_frame
          (exec (revert step) t (is.map Event.accept)) i
        refine ⟨hlinks'.trans hlinks, hproof'.trans hproof, hflight'.trans hflight, ?_⟩
        intro j hj hlt
        rcases List.mem_append.mp hj with hold | hlast
        · exact hkept j (haccepted j hold hlt)
        · rw [List.mem_singleton.mp hlast] at hlt ⊢
          exact accepted_accept (by rwa [hlinks])
  obtain ⟨hlinks, hproof, hflight, haccepted⟩ := hall (List.range s.links.length)
  refine ⟨_, ?_, ⟨hlinks.trans hl, hproof.trans hcallback, ?_⟩, hflight⟩
  · intro ev hev
    obtain ⟨i, -, rfl⟩ := List.mem_map.mp hev
    rfl
  · intro i hi
    exact haccepted i (List.mem_range.mpr hi) (by rwa [hl])

/-! ## Counted once -/

/-- From `t` on, whatever the network delivers, the count of the validator stays within one of `c`. -/
def OnceFrom (t : Network N V F) (v : V) (r : String) (c : SizeT) : Prop :=
  ∀ evs : List (Event N V F), (∀ ev ∈ evs, ev.isNetwork = true) →
    (exec (revert step) t evs).count v r - c ≤ 1

/-- What stays within one in all later events does so in those of the network. -/
theorem CountsOnce.onceFrom {later : Event N V F → Bool} (h : s.CountsOnce later n p)
    (hlater : ∀ ev : Event N V F, ev.isNetwork = true → later ev = true)
    (evs : List (Event N V F)) (hevs : ∀ ev ∈ evs, later ev = true) (v : V) :
    (exec (revert step) (s.submit n p) evs).OnceFrom v p.root (s.count v p.root) := by
  intro more hmore
  rw [← exec_append]
  refine h (evs ++ more) ?_ v
  intro ev hev
  exact (List.mem_append.mp hev).elim (hevs ev) fun hm => hlater ev (hmore ev hm)

/-- While a proof counts once, a count that is up by one stays so. -/
theorem OnceFrom.stays {c : SizeT} (h : t.OnceFrom v r c) {evs : List (Event N V F)}
    (hnet : ∀ ev ∈ evs, ev.isNetwork = true)
    (hup : (exec (revert step) t evs).count v r - c = 1)
    (more : List (Event N V F)) (hmore : ∀ ev ∈ more, ev.isNetwork = true) :
    (exec (revert step) t (evs ++ more)).count v r - c = 1 := by
  induction more using List.reverseRecOn with
  | nil => rwa [List.append_nil]
  | append_singleton more ev ih =>
      have hprev := ih fun ev' hev' => hmore ev' (List.mem_append_left _ hev')
      have hbound := h (evs ++ (more ++ [ev]))
        (fun ev' hev' => (List.mem_append.mp hev').elim (hnet ev') (hmore ev'))
      rw [← List.append_assoc, exec_concat] at hbound ⊢
      have hev := hmore ev (by simp)
      let u := exec (revert step) t (evs ++ more)
      cases hstep : u.step ev with
      | none => rwa [revert_none hstep]
      | some u' =>
          rw [revert_some hstep] at hbound ⊢
          have hcounted := count_step (v := v) (r := r) hev hstep
          have hu : u.count v r - c = 1 := hprev
          bv_omega

/-- **Two arrivals.** A proof on its way to a validator reaches it twice. -/
theorem not_onceFrom {c : SizeT} (hl : t.links[i]? = some l) (hcarries : t.Carries i e r)
    (hreach : t.Reaches (l.node e) m) (hv : t.onProof m = some v) : ¬ t.OnceFrom v r c := by
  intro h
  -- all connections are accepted, and the proof is still on its way
  obtain ⟨evs, hnet, hsettled, hflight⟩ := exists_settled t (t := t) rfl rfl
  have hsent : (exec (revert step) t evs).Carries i e r := by
    rwa [Carries, hflight]
  obtain ⟨a⟩ := exists_arrival_of_reaches hreach hsettled hl rfl hsent
  -- it comes back from there
  have hback : t.Reaches (a.l.node a.e.other) m :=
    .single (Linked.symm ⟨a.i, a.l, a.e, a.link, a.node, rfl⟩)
  obtain ⟨b⟩ := exists_arrival_of_reaches hback a.post_settled a.link rfl
    (a.carries a.link a.node)
  let first := evs ++ (a.before ++ [.deliver a.i a.e])
  have hfirst : exec (revert step) t first = a.post := by
    rw [exec_append, a.exec_eq]
  have hfirstNet : ∀ ev ∈ first, ev.isNetwork = true :=
    fun ev hev => (List.mem_append.mp hev).elim (hnet ev) (a.network_concat ev)
  have hbefore := h (evs ++ a.before)
    fun ev hev => (List.mem_append.mp hev).elim (hnet ev) (a.network ev)
  rw [exec_append] at hbefore
  have hpre : a.pre.count v r - c ≤ 1 := hbefore
  have hpost := h first hfirstNet
  rw [hfirst, a.count hv] at hpost
  have hone : a.post.count v r - c = 1 := by
    rw [a.count hv]
    bv_omega
  -- the second arrival counts on top of the first
  have hstays := h.stays hfirstNet (by rwa [hfirst]) b.before b.network
  rw [exec_append, hfirst] at hstays
  have hstill : b.pre.count v r - c = 1 := hstays
  have hsecond := h (first ++ (b.before ++ [.deliver b.i b.e]))
    fun ev hev => (List.mem_append.mp hev).elim (hfirstNet ev) (b.network_concat ev)
  rw [exec_append, hfirst, b.exec_eq, b.count hv] at hsecond
  bv_omega

/-- A proof that is sent at all and reaches a validator counts twice. -/
theorem not_countsOnce (hl : s.links[i]? = some l) (hfeeds : s.feeds n i e = true)
    (hreach : s.Reaches n m) (hv : s.onProof m = some v) :
    ¬ s.CountsOnce Event.isNetwork n p := by
  intro h
  obtain ⟨hnode, -⟩ := (feeds_iff hl).mp hfeeds
  have hsent : (s.submit n p).Carries i e p.root := by
    rw [Carries, submit_flight, if_pos hfeeds, List.map_append]
    exact List.mem_append_right _ (List.mem_singleton_self _)
  have hto : (s.submit n p).Reaches (l.node e) m :=
    (reaches_of_links (submit_links s n p)).mpr (hreach.head ⟨i, l, e, hl, rfl, hnode⟩)
  exact not_onceFrom (by rwa [submit_links]) hsent hto (by rwa [submit_on_proof])
    (h.onceFrom (fun _ hev => hev) [] (by simp) v)

/-- **A later connection.** A proof that a node stores reaches the validator it then connects to. -/
theorem not_onceFrom_connect {c : SizeT} (hstores : t.Stores n r) (hv : t.onProof m = some v) :
    ¬ (revert step t (.connect n m (t.agg n).proofs)).OnceFrom v r c := by
  have hstep : t.step (.connect n m (t.agg n).proofs) = some _ := if_pos (List.Perm.refl _)
  rw [revert_some hstep]
  refine not_onceFrom (i := t.links.length) (l := ⟨n, m⟩) (e := .server) ?_ ?_ .refl hv
  · exact List.getElem?_concat_length
  · show r ∈ List.map _ (Function.update t.flight t.links.length _ t.links.length .server)
    rw [Function.update_self]
    exact hstores

/-- With new connections, a proof counts once if no validator is attached to any node. -/
theorem countsOnce_grows_iff :
    s.CountsOnce Event.grows n p ↔ ∀ m, s.onProof m = none := by
  constructor
  · intro h m
    rw [Option.eq_none_iff_forall_ne_some]
    intro v hv
    have hstores : (s.submit n p).Stores n p.root := stores_submit.mpr (Or.inr ⟨rfl, rfl⟩)
    have honce := h.onceFrom (fun ev hev => by cases ev <;> first | exact hev | rfl)
      [.connect n m ((s.submit n p).agg n).proofs] (by simp [Event.grows]) v
    exact not_onceFrom_connect hstores (by rwa [submit_on_proof]) honce
  · intro h evs hevs v
    have hsilent : ∀ m, (s.submit n p).onProof m = none := by
      rwa [submit_on_proof]
    rw [silent_run hsilent evs hevs, count_submit, h n]
    simp

/-- With validators attached later, it does only if there are none. -/
theorem countsOnce_remote_iff : s.CountsOnce Event.isRemote n p ↔ IsEmpty V := by
  constructor
  · intro h
    refine ⟨fun v => ?_⟩
    let t := revert step (s.submit n p) (.setCallback n (some v))
    have hcallback : t.onProof n = some v := Function.update_self _ _ _
    have hstores : t.Stores n p.root := (stores_submit (s := s)).mpr (Or.inr ⟨rfl, rfl⟩)
    have honce := h.onceFrom (fun ev hev => by cases ev <;> first | rfl | cases hev)
      [.setCallback n (some v), .connect n n (t.agg n).proofs] (by simp [Event.isRemote]) v
    exact not_onceFrom_connect hstores hcallback honce
  · intro _ evs _ v
    exact isEmptyElim v

/-- **When one submission counts once.** Where no proof of the root is in flight, and no connection is
made and no validator attached later, it does exactly when the submitting node is connected to nobody,
or no validator is attached in its reach. With later connections it does exactly when no validator is
attached to any node, and with validators attached later never. -/
theorem counts_once_iff (s : Network N V F) (n : N) (p : StarkProof F)
    (hfresh : ∀ i e, ¬ s.Carries i e p.root) :
    (s.CountsOnce Event.isNetwork n p ↔ s.Isolated n ∨ ∀ m, s.Reaches n m → s.onProof m = none) ∧
      (s.CountsOnce Event.grows n p ↔ ∀ m, s.onProof m = none) ∧
      (s.CountsOnce Event.isRemote n p ↔ IsEmpty V) := by
  refine ⟨⟨?_, ?_⟩, countsOnce_grows_iff, countsOnce_remote_iff⟩
  · intro h
    by_contra hcon
    obtain ⟨hopen, hattached⟩ := not_or.mp hcon
    obtain ⟨i, e, hfeeds⟩ : ∃ i e, s.feeds n i e = true := by simpa [Isolated] using hopen
    obtain ⟨m, hreach, hm⟩ : ∃ m, s.Reaches n m ∧ s.onProof m ≠ none := by
      simpa using hattached
    obtain ⟨v, hv⟩ := Option.ne_none_iff_exists'.mp hm
    cases hl : s.links[i]? with
    | none => simp [feeds, hl] at hfeeds
    | some l => exact not_countsOnce hl hfeeds hreach hv h
  · rintro (hisolated | hsilent) evs hnet v
    · have hnowhere : s.Confined (fun _ => False) p.root :=
        ⟨fun _ _ _ _ h => h, fun _ h => h.elim, fun i _ e _ hc => hfresh i e hc⟩
      have hrun := (hnowhere.submit fun (_ : p.root = p.root) => Or.inr hisolated).run evs hnet v
      rw [hrun, count_submit]
      split
      · bv_omega
      · bv_omega
    · have hreach : s.Confined (s.Reaches n) p.root :=
        ⟨fun i l e hl h => h.tail ⟨i, l, e, hl, rfl, rfl⟩, hsilent,
          fun i _ e _ hc => absurd hc (hfresh i e)⟩
      have hrun := (hreach.submit fun (_ : p.root = p.root) => Or.inl .refl).run evs hnet v
      rw [hrun, count_submit, if_neg]
      · bv_omega
      · rintro ⟨hcallback, -⟩
        rw [hsilent n .refl] at hcallback
        cases hcallback

end

/-- Node 0 connected to node 1 and was accepted. -/
def joined : Network Nat Nat Nat :=
  exec (revert step) (start fun _ => Validator.new 2) [.connect 0 1 [], .accept 0]

theorem counts_once_unattached : joined.CountsOnce Event.isNetwork 0 ⟨"root", "proof", 3⟩ := by
  have hfresh : ∀ i e, ¬ joined.Carries i e "root" := by
    intro i e h
    cases i <;> cases e <;> cases h
  exact (counts_once_iff joined 0 ⟨"root", "proof", 3⟩ hfresh).1.mpr (Or.inr fun _ _ => rfl)

/-- Validator 5 is attached to node 1. -/
def attended : Network Nat Nat Nat := (joined.step (.setCallback 1 (some 5))).getD joined

/-- The proof goes to node 1, back to node 0 and to node 1 again. -/
def bounce : List (Event Nat Nat Nat) := [.deliver 0 .server, .deliver 0 .client, .deliver 0 .server]

/-- Validator 5 counts the one proof twice, which is its quorum. -/
theorem counted_twice :
    ((exec (revert step) (attended.submit 0 ⟨"root", "proof", 3⟩) bounce).validators 5).hasQuorum
        "root" = true ∧
      ¬ attended.CountsOnce Event.isNetwork 0 ⟨"root", "proof", 3⟩ := by
  refine ⟨by decide +kernel, ?_⟩
  intro h
  exact absurd (h bounce (by decide) 5) (by decide +kernel)

end ChainBeasts.Pouw.Network
