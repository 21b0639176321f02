import ChainBeasts.Pouw.Quorum
import Mathlib.Algebra.BigOperators.Group.Finset.Piecewise

/-! # How much is in flight

A node that takes a proof in sends it to each of its open connections. So a delivery never lessens
what is in flight, and at a node with two connections it adds to it. `traffic_bounded_iff` says when
the messages stay bounded: when no node in reach of one has a second connection. -/

namespace ChainBeasts.Pouw

instance : Fintype End := ⟨{.client, .server}, fun e => by cases e <;> decide⟩

namespace Network

open ChainBeasts.Machine

variable {N V F : Type}

/-- The ends of the connections. -/
def ends (s : Network N V F) : Finset (Nat × End) := Finset.range s.links.length ×ˢ Finset.univ

def inFlight (s : Network N V F) : Nat := ∑ x ∈ s.ends, (s.flight x.1 x.2).length

variable {s s' t : Network N V F} {n m : N} {q : StarkProof F} {i : Nat} {e : End} {l : Link N}
  {r : String} {rest : List (StarkProof F)} {ev : Event N V F}

theorem mem_ends (hl : s.links[i]? = some l) (e : End) : (i, e) ∈ s.ends :=
  Finset.mem_product.mpr ⟨Finset.mem_range.mpr (lt_of_link hl), Finset.mem_univ e⟩

theorem flight_ne_nil : s.flight i e ≠ [] ↔ ∃ r, s.Carries i e r := by
  constructor
  · intro h
    obtain ⟨q, hq⟩ := List.exists_mem_of_ne_nil _ h
    exact ⟨q.root, List.mem_map_of_mem hq⟩
  · rintro ⟨r, hr⟩ hnil
    rw [Carries, hnil] at hr
    cases hr

/-- A proof is taken out. -/
theorem inFlight_setFlight (hl : s.links[i]? = some l) (hflight : s.flight i e = q :: rest) :
    (s.setFlight i e rest).inFlight + 1 = s.inFlight := by
  have hmem : (i, e) ∈ s.ends := mem_ends hl e
  have hends : (s.setFlight i e rest).ends = s.ends := rfl
  have hothers : ∑ x ∈ s.ends.erase (i, e), ((s.setFlight i e rest).flight x.1 x.2).length =
      ∑ x ∈ s.ends.erase (i, e), (s.flight x.1 x.2).length := by
    apply Finset.sum_congr rfl
    intro x hx
    rw [setFlight_of_ne (Finset.ne_of_mem_erase hx)]
  rw [inFlight, inFlight, hends, ← Finset.add_sum_erase _ _ hmem, ← Finset.add_sum_erase _ _ hmem,
    hothers, setFlight_self, hflight, List.length_cons]
  omega

section
variable [DecidableEq N]

/-- The far ends of the connections of the node. -/
def farEnds (s : Network N V F) (n : N) : Finset (Nat × End) :=
  s.ends.filter fun x => (s.links[x.1]?).map (fun l => l.node x.2.other) = some n

/-- How many connections the node has. -/
def degree (s : Network N V F) (n : N) : Nat := (s.farEnds n).card

/-- The far ends that the node sends to. -/
def fed (s : Network N V F) (n : N) : Finset (Nat × End) :=
  s.ends.filter fun x => s.feeds n x.1 x.2 = true

theorem fed_subset (s : Network N V F) (n : N) : s.fed n ⊆ s.farEnds n := by
  intro x hx
  obtain ⟨hmem, hfeeds⟩ := Finset.mem_filter.mp hx
  refine Finset.mem_filter.mpr ⟨hmem, ?_⟩
  cases hl : s.links[x.1]? with
  | none => simp [feeds, hl] at hfeeds
  | some l => exact congrArg some ((feeds_iff hl).mp hfeeds).1

/-- A node that receives sends back. -/
theorem fed_pos (hl : s.links[i]? = some l) (hopen : s.isOpen i e = true) :
    0 < (s.fed (l.node e)).card := by
  apply Finset.card_pos.mpr
  refine ⟨(i, e.other), Finset.mem_filter.mpr ⟨mem_ends hl _, (feeds_iff hl).mpr ?_⟩⟩
  rw [End.other_other]
  exact ⟨rfl, hopen⟩

/-- Once everything is accepted a node sends to all its connections. -/
theorem Settled.card_fed (h : Settled s t) (n : N) : (t.fed n).card = s.degree n := by
  have hends : t.ends = s.ends := by rw [ends, ends, h.links]
  have hfed : t.fed n = s.farEnds n := by
    rw [fed, farEnds, hends]
    apply Finset.filter_congr
    intro x hx
    cases hl : s.links[x.1]? with
    | none => simp [feeds, h.links, hl]
    | some l =>
        have hlt : t.links[x.1]? = some l := by rwa [h.links]
        have hopen : t.isOpen x.1 x.2.other = true := h.isOpen hl _
        rw [feeds_iff hlt, hopen, Option.map_some, Option.some.injEq]
        exact and_iff_left rfl
  rw [hfed, degree]

variable [DecidableEq V]

/-- The node sends one proof to each of them. -/
theorem inFlight_submit : (s.submit n q).inFlight = s.inFlight + (s.fed n).card := by
  have hends : (s.submit n q).ends = s.ends := by rw [ends, ends, submit_links]
  have hgrown : ∀ x ∈ s.ends, ((s.submit n q).flight x.1 x.2).length =
      (s.flight x.1 x.2).length + if s.feeds n x.1 x.2 = true then 1 else 0 := by
    intro x _
    rw [submit_flight]
    split
    · rw [List.length_append, List.length_singleton]
    · rfl
  rw [inFlight, hends, Finset.sum_congr rfl hgrown, Finset.sum_add_distrib, ← Finset.card_filter]
  rfl

variable [DecidableEq F]

/-! ## Nothing gets less -/

/-- What a network step does: a delivery to a node takes one proof out and puts one in for each open
connection. -/
theorem inFlight_step (hnet : ev.isNetwork = true) (hs : s.step ev = some s') :
    s'.inFlight = s.inFlight ∨ ∃ i l e, s.links[i]? = some l ∧ s.flight i e ≠ [] ∧
      s.inFlight + (s.fed (l.node e)).card = s'.inFlight + 1 ∧ 0 < (s.fed (l.node e)).card := by
  obtain ⟨i, ha⟩ | ⟨i, e, hd⟩ := network_cases hnet hs
  · obtain ⟨-, -, rfl⟩ := accept_cases ha
    exact Or.inl rfl
  · obtain ⟨l, q, rest, hl, hflight, hopen, rfl⟩ := deliver_cases hd
    right
    refine ⟨i, l, e, hl, by rw [hflight]; exact List.cons_ne_nil _ _, ?_, fed_pos hl hopen⟩
    have hfed : (s.setFlight i e rest).fed (l.node e) = s.fed (l.node e) := by
      simp only [fed, setFlight_feeds]
      rfl
    have htaken := inFlight_setFlight hl hflight
    rw [inFlight_submit, hfed]
    omega

/-- What is in flight never gets less. -/
theorem inFlight_le (s : Network N V F) (evs : List (Event N V F))
    (hnet : ∀ ev ∈ evs, ev.isNetwork = true) :
    s.inFlight ≤ (exec (revert step) s evs).inFlight := by
  let P (t : Network N V F) (_ : List (Move (Network N V F) (Event N V F))) : Prop :=
    s.inFlight ≤ t.inFlight
  refine trace_induction (fun m => m.call.isNetwork = true) P (Nat.le_refl _) ?_ evs
    fun m hm => hnet _ (mem_of_mem_trace hm)
  intro t tr ev t' hle hstep hev
  have hle' : s.inFlight ≤ t.inFlight := hle
  show s.inFlight ≤ t'.inFlight
  rcases inFlight_step hev hstep with hkept | ⟨i, l, e, -, -, hsum, hpos⟩
  · rw [hkept]
    exact hle'
  · omega

/-! ## When it stays bounded -/

/-- No node in reach of a message has a second connection. -/
def Sparse (s : Network N V F) : Prop :=
  ∀ i l e m, s.links[i]? = some l → s.flight i e ≠ [] → s.Reaches (l.node e) m → s.degree m ≤ 1

theorem Sparse.step (h : s.Sparse) (hnet : ev.isNetwork = true) (hs : s.step ev = some s') :
    s'.Sparse ∧ s'.inFlight = s.inFlight := by
  obtain ⟨hlinks, -⟩ := network_frame hnet hs
  constructor
  · intro i l e m hl hflight hreach
    rw [hlinks] at hl
    obtain ⟨r, hcarries⟩ := flight_ne_nil.mp hflight
    obtain ⟨j, l', e', hl', hcarries', hreach'⟩ := carries_from hnet hs hl hcarries
    have hdegree : s'.degree m = s.degree m := by
      rw [degree, degree, farEnds, farEnds, ends, ends, hlinks]
    rw [hdegree]
    exact h j l' e' m hl' (flight_ne_nil.mpr ⟨r, hcarries'⟩)
      (hreach'.trans ((reaches_of_links hlinks).mp hreach))
  · rcases inFlight_step hnet hs with hkept | ⟨i, l, e, hl, hflight, hsum, hpos⟩
    · exact hkept
    · have hone : (s.fed (l.node e)).card ≤ 1 :=
        (Finset.card_le_card (s.fed_subset _)).trans (h i l e _ hl hflight .refl)
      omega

/-- A proof that keeps coming to a node with two connections adds one each time. -/
theorem exists_storm (hm : 2 ≤ s.degree m) (k : Nat) (ht : Settled s t) (hl : s.links[i]? = some l)
    (hc : t.Carries i e r) (hreach : s.Reaches (l.node e) m) :
    ∃ evs, (∀ ev ∈ evs, ev.isNetwork = true) ∧
      t.inFlight + k ≤ (exec (revert step) t evs).inFlight := by
  induction k generalizing t i l e with
  | zero => exact ⟨[], by simp, Nat.le_refl _⟩
  | succ k ih =>
      obtain ⟨a⟩ := exists_arrival_of_reaches hreach ht hl rfl hc
      have hlink : a.pre.links[a.i]? = some a.l := by
        rw [show a.pre.links = s.links from a.settled.links]
        exact a.link
      have hkept : t.inFlight ≤ a.pre.inFlight := inFlight_le t a.before a.network
      have htaken := inFlight_setFlight hlink a.flight
      have hsent : a.post.inFlight = (a.pre.setFlight a.i a.e a.rest).inFlight + s.degree m := by
        have hpopped : Settled s (a.pre.setFlight a.i a.e a.rest) := a.settled.setFlight _ _ _
        rw [Arrival.post, inFlight_submit, hpopped.card_fed]
      have hback : s.Reaches (a.l.node a.e.other) m :=
        .single (Linked.symm ⟨a.i, a.l, a.e, a.link, a.node, rfl⟩)
      obtain ⟨more, hmore, hgrown⟩ := ih a.post_settled a.link (a.carries a.link a.node) hback
      refine ⟨(a.before ++ [.deliver a.i a.e]) ++ more, ?_, ?_⟩
      · intro ev hev
        rcases List.mem_append.mp hev with hfirst | hlater
        · exact a.network_concat ev hfirst
        · exact hmore ev hlater
      · rw [exec_append, a.exec_eq]
        have hpre : (exec (revert step) t a.before).inFlight = a.pre.inFlight := rfl
        omega

/-- **When the messages stay bounded.** Without a further submission what is in flight never gets
less. It stays as it is if no node in reach of a message has a second connection, and otherwise
exceeds every bound. -/
theorem traffic_bounded_iff (s : Network N V F) :
    (∀ evs, (∀ ev ∈ evs, ev.isNetwork = true) →
        s.inFlight ≤ (exec (revert step) s evs).inFlight) ∧
      (s.Sparse → ∀ evs, (∀ ev ∈ evs, ev.isNetwork = true) →
        (exec (revert step) s evs).inFlight = s.inFlight) ∧
      (¬ s.Sparse → ∀ bound, ∃ evs, (∀ ev ∈ evs, ev.isNetwork = true) ∧
        bound < (exec (revert step) s evs).inFlight) := by
  refine ⟨inFlight_le s, ?_, ?_⟩
  · intro hsparse evs hnet
    let P (t : Network N V F) (_ : List (Move (Network N V F) (Event N V F))) : Prop :=
      t.Sparse ∧ t.inFlight = s.inFlight
    have hrun : P (exec (revert step) s evs) (trace step s evs) := by
      refine trace_induction (fun m => m.call.isNetwork = true) P ⟨hsparse, rfl⟩ ?_ evs
        fun m hm => hnet _ (mem_of_mem_trace hm)
      rintro t tr ev t' ⟨hsparse, hsame⟩ hstep hev
      obtain ⟨hsparse', hsame'⟩ := hsparse.step hev hstep
      exact ⟨hsparse', hsame'.trans hsame⟩
    exact hrun.2
  · intro hdense bound
    simp only [Sparse, not_forall, exists_prop, Nat.not_le] at hdense
    obtain ⟨i, l, e, m, hl, hflight, hreach, hm⟩ := hdense
    obtain ⟨r, hcarries⟩ := flight_ne_nil.mp hflight
    obtain ⟨evs, hnet, hsettled, hsame⟩ := exists_settled s (t := s) rfl rfl
    have hsent : (exec (revert step) s evs).Carries i e r := by
      rw [Carries, hsame]
      exact hcarries
    obtain ⟨more, hmore, hgrown⟩ := exists_storm hm (bound + 1) hsettled hl hsent hreach
    refine ⟨evs ++ more, ?_, ?_⟩
    · intro ev hev
      rcases List.mem_append.mp hev with hfirst | hlater
      · exact hnet ev hfirst
      · exact hmore ev hlater
    · rw [exec_append]
      omega

end

end Network

end ChainBeasts.Pouw
