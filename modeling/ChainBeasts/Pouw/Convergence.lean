import ChainBeasts.Pouw.Aggregator

/-! # Whether the nodes converge

The connecting side of a connection sends its stored proofs; the accepting side does not. Where the
acceptor has nothing the other side lacks, whatever one open end stores is stored at the far end or
on its way there (`Covered`), so two joined nodes store the same roots when nothing is in flight.
`quiet_synced_iff` says that this is the exact condition.

It rests on a second defect: a proof is sent back to where it came from, so a message never dies out
(`quiet_of_step`), and a state without messages has only ever been preceded by such states. -/

namespace ChainBeasts.Pouw.Network

open ChainBeasts.Machine

variable {N V F : Type}

/-- Node `n` stores a proof of root `r`. -/
def Stores (s : Network N V F) (n : N) (r : String) : Prop := r ∈ (s.agg n).roots

/-- Connection `i` carries a proof of root `r` toward `e`. -/
def Carries (s : Network N V F) (i : Nat) (e : End) (r : String) : Prop :=
  r ∈ (s.flight i e).map StarkProof.root

instance (s : Network N V F) (n : N) (r : String) : Decidable (s.Stores n r) :=
  inferInstanceAs (Decidable (r ∈ (s.agg n).roots))

/-- No message is in flight. -/
def Quiet (s : Network N V F) : Prop := ∀ i < s.links.length, ∀ e, s.flight i e = []

instance [DecidableEq F] (s : Network N V F) : Decidable s.Quiet :=
  inferInstanceAs (Decidable (∀ i < s.links.length, ∀ e, s.flight i e = []))

/-- The two nodes of every open connection store the same roots. -/
def Synced (s : Network N V F) : Prop :=
  ∀ i l, s.links[i]? = some l → s.accepted i = true → ∀ r, s.Stores l.client r ↔ s.Stores l.server r

/-- What an open end stores, the far end stores or is being sent. -/
def Covered (s : Network N V F) : Prop :=
  ∀ i l e, s.links[i]? = some l → s.isOpen i e = true → ∀ r, s.Stores (l.node e) r →
    s.Stores (l.node e.other) r ∨ s.Carries i e.other r

/-- The connecting node stores all roots of the accepting node of connection `i`. -/
def KnownTo (s : Network N V F) (i : Nat) : Prop :=
  ∀ l, s.links[i]? = some l → ∀ r, s.Stores l.server r → s.Stores l.client r

variable {s s' : Network N V F} {n m : N} {p : StarkProof F} {i j : Nat} {e e' : End} {l : Link N}
  {r : String}

theorem lt_of_link (hl : s.links[i]? = some l) : i < s.links.length :=
  (List.getElem?_eq_some_iff.mp hl).1

/-- With nothing in flight, covered means synced. -/
theorem Covered.synced (h : s.Covered) (hq : s.Quiet) : s.Synced := by
  have hsilent : ∀ i l, s.links[i]? = some l → ∀ e r, ¬ s.Carries i e r := by
    intro i l hl e r hcarries
    rw [Carries, hq i (lt_of_link hl) e] at hcarries
    cases hcarries
  intro i l hl haccepted r
  constructor
  · intro hclient
    exact (h i l .client hl rfl r hclient).resolve_right (hsilent i l hl _ r)
  · intro hserver
    exact (h i l .server hl haccepted r hserver).resolve_right (hsilent i l hl _ r)

theorem start_covered (validators : V → Validator) :
    (start validators : Network N V F).Covered := by
  intro i l e hl
  cases hl

/-! ## A proof is taken in -/

section
variable [DecidableEq N] [DecidableEq V]

theorem stores_submit : (s.submit n p).Stores m r ↔ s.Stores m r ∨ (m = n ∧ r = p.root) := by
  rw [Stores, submit_agg]
  by_cases hm : m = n
  · subst hm
    rw [Function.update_self, ProofAggregator.mem_roots_submit, or_comm]
    simp [Stores]
  · rw [Function.update_of_ne hm]
    simp [Stores, hm]

theorem Carries.submit (h : s.Carries i e r) : (s.submit n p).Carries i e r := by
  obtain ⟨sent, hsent⟩ := s.exists_flight_append n p i e
  rw [Carries, hsent, List.map_append]
  exact List.mem_append_left _ h

/-- The node that takes a proof in sends it to every far end. -/
theorem carries_submit (hl : s.links[i]? = some l) (hopen : s.isOpen i e = true) :
    (s.submit (l.node e) p).Carries i e.other p.root := by
  have hfeeds : s.feeds (l.node e) i e.other = true := by
    rw [feeds_iff hl, End.other_other]
    exact ⟨rfl, hopen⟩
  rw [Carries, submit_flight, if_pos hfeeds, List.map_append]
  exact List.mem_append_right _ (List.mem_singleton_self _)

/-- A node takes a proof in: what was covered, up to that proof at that node, is covered. -/
theorem covered_submit (h : ∀ i l e, s.links[i]? = some l → s.isOpen i e = true → ∀ r,
    s.Stores (l.node e) r → s.Stores (l.node e.other) r ∨ s.Carries i e.other r ∨
      (l.node e.other = n ∧ r = p.root)) : (s.submit n p).Covered := by
  intro i l e hl hopen r hr
  rw [submit_links] at hl
  rw [submit_isOpen] at hopen
  rcases stores_submit.mp hr with hold | ⟨rfl, rfl⟩
  · rcases h i l e hl hopen r hold with hfar | hcarries | hhere
    · exact Or.inl (stores_submit.mpr (Or.inl hfar))
    · exact Or.inr hcarries.submit
    · exact Or.inl (stores_submit.mpr (Or.inr hhere))
  · exact Or.inr (carries_submit hl hopen)

theorem Covered.submit (h : s.Covered) : (s.submit n p).Covered := by
  apply covered_submit
  intro i l e hl hopen r hr
  rcases h i l e hl hopen r hr with hfar | hcarries
  · exact Or.inl hfar
  · exact Or.inr (Or.inl hcarries)

theorem Covered.deliver (h : s.Covered) (hd : s.deliver i e = some s') : s'.Covered := by
  obtain ⟨l, p, rest, hl, hflight, hopen, rfl⟩ := deliver_cases hd
  apply covered_submit
  intro j l' e' hl' hopen' r hr
  rw [setFlight_isOpen] at hopen'
  rcases h j l' e' hl' hopen' r hr with hfar | hcarries
  · exact Or.inl hfar
  · right
    by_cases hsame : (j, e'.other) = (i, e)
    · -- the queue that loses its head
      obtain ⟨rfl, rfl⟩ := Prod.mk.inj hsame
      obtain rfl : l = l' := Option.some.inj (hl.symm.trans hl')
      rw [Carries, hflight, List.map_cons] at hcarries
      rcases List.mem_cons.mp hcarries with rfl | hrest
      · exact Or.inr ⟨rfl, rfl⟩
      · left
        rw [Carries, setFlight_self]
        exact hrest
    · left
      rw [Carries, setFlight_of_ne hsame]
      exact hcarries

end

/-! ## Connections -/

theorem Covered.accept (h : s.Covered) (hknown : s.KnownTo i) (ha : s.accept i = some s') :
    s'.Covered := by
  obtain ⟨-, -, rfl⟩ := accept_cases ha
  intro j l e hl hopen r hr
  by_cases hnew : j = i ∧ e = .server
  · obtain ⟨rfl, rfl⟩ := hnew
    exact Or.inl (hknown l hl r hr)
  · have hold : s.isOpen j e = true := by
      cases e with
      | client => rfl
      | server =>
          have hj : j ≠ i := fun heq => hnew ⟨heq, rfl⟩
          simpa [isOpen, hj] using hopen
    exact h j l e hl hold r hr

section
variable [DecidableEq F]

theorem connect_cases {client server : N} {order : List (StarkProof F)}
    (h : s.connect client server order = some s') :
    order.Perm (s.agg client).proofs ∧ s'.agg = s.agg ∧
      s'.links = s.links ++ [⟨client, server⟩] ∧ s'.accepted s.links.length = false ∧
      s'.flight s.links.length .server = order ∧
      (∀ i, i ≠ s.links.length → s'.accepted i = s.accepted i) ∧
      ∀ i, i ≠ s.links.length → s'.flight i = s.flight i := by
  unfold connect at h
  split at h
  · next hperm =>
      cases h
      refine ⟨hperm, rfl, rfl, ?_, ?_, ?_, ?_⟩
      · exact Function.update_self _ _ _
      · simp only [Function.update_self]
      · exact fun i hi => Function.update_of_ne hi _ _
      · exact fun i hi => Function.update_of_ne hi _ _
  · cases h

theorem Covered.connect (h : s.Covered) {client server : N} {order : List (StarkProof F)}
    (hc : s.connect client server order = some s') : s'.Covered := by
  obtain ⟨hperm, hagg, hlinks, hnew, hsent, haccepted, hflight⟩ := connect_cases hc
  have hstores : ∀ m r, s'.Stores m r ↔ s.Stores m r := by
    intro m r
    rw [Stores, hagg]
    rfl
  intro i l e hl hopen r hr
  rw [hstores] at hr ⊢
  rw [hlinks] at hl
  by_cases hi : i = s.links.length
  · subst hi
    rw [List.getElem?_concat_length] at hl
    cases hl
    cases e with
    | client =>
        -- the connecting side sends all it stores
        right
        rw [Carries, End.other, hsent]
        exact (hperm.map _).mem_iff.mpr hr
    | server =>
        rw [isOpen, hnew] at hopen
        cases hopen
  · have hlt : i < s.links.length := by
      have := (List.getElem?_eq_some_iff.mp hl).1
      rw [List.length_append, List.length_singleton] at this
      omega
    rw [List.getElem?_append_left hlt] at hl
    have hold : s.isOpen i e = true := by
      cases e with
      | client => rfl
      | server => rwa [isOpen, haccepted i hi] at hopen
    rw [Carries, hflight i hi]
    exact h i l e hl hold r hr

end

/-! ## Every run -/

section
variable [DecidableEq N] [DecidableEq V] [DecidableEq F] {ev : Event N V F}

/-- **One step.** It keeps an end's roots covered; an acceptance does when the connecting side knows
them already. -/
theorem Covered.step (h : s.Covered) (hs : s.step ev = some s')
    (hknown : ∀ i, ev = .accept i → s.KnownTo i) : s'.Covered := by
  cases ev with
  | setCallback n callback =>
      cases hs
      exact h
  | connect client server order => exact h.connect hs
  | accept i => exact h.accept (hknown i rfl) hs
  | deliver i e => exact h.deliver hs
  | submit n p =>
      cases hs
      exact h.submit

/-- **Messages never die out.** A step that leaves nothing in flight found nothing in flight: what a
node receives goes back to where it came from. -/
theorem quiet_of_step (hs : s.step ev = some s') (hq : s'.Quiet) : s.Quiet := by
  intro i hi e
  cases ev with
  | setCallback n callback =>
      cases hs
      exact hq i hi e
  | connect client server order =>
      obtain ⟨-, -, hlinks, -, -, -, hflight⟩ := connect_cases hs
      have hkept := hq i (by rw [hlinks, List.length_append]; omega) e
      rwa [hflight i (by omega)] at hkept
  | accept j =>
      obtain ⟨-, -, rfl⟩ := accept_cases hs
      exact hq i hi e
  | deliver j e' =>
      obtain ⟨l, p, rest, hl, -, hopen, rfl⟩ := deliver_cases hs
      have hback : ((s.setFlight j e' rest).submit (l.node e') p).Carries j e'.other p.root :=
        carries_submit hl (by rwa [setFlight_isOpen])
      rw [Carries, hq j (by rw [submit_links]; exact lt_of_link hl) e'.other] at hback
      cases hback
  | submit n p =>
      cases hs
      obtain ⟨sent, hsent⟩ := s.exists_flight_append n p i e
      have hempty := hq i (by rwa [submit_links]) e
      rw [hsent] at hempty
      exact (List.append_eq_nil_iff.mp hempty).1

/-- The steps of a run from started nodes. -/
def moves (validators : V → Validator) (evs : List (Event N V F)) :
    List (Move (Network N V F) (Event N V F)) :=
  trace step (start validators) evs

/-- **When joined nodes agree.** In a run every state without messages has all joined nodes store
the same roots exactly when every acceptance made without messages in flight finds the acceptor's
roots stored by the connecting node. -/
theorem quiet_synced_iff (validators : V → Validator) (evs : List (Event N V F)) :
    (∀ m ∈ moves validators evs, m.post.Quiet → m.post.Synced) ↔
      ∀ m ∈ moves validators evs, ∀ i, m.call = .accept i → m.pre.Quiet → m.pre.KnownTo i := by
  constructor
  · intro h m hm i hcall hquiet l hl r hserver
    have hstep := step_of_mem_trace hm
    rw [hcall] at hstep
    obtain ⟨-, -, hpost⟩ := accept_cases hstep
    have hsynced := h m hm
    rw [hpost] at hsynced
    have haccepted : Function.update m.pre.accepted i true i = true := Function.update_self _ _ _
    exact (hsynced hquiet i l hl haccepted r).mpr hserver
  · intro hok
    let P (s : Network N V F) (tr : List (Move (Network N V F) (Event N V F))) : Prop :=
      (s.Quiet → s.Covered) ∧ ∀ m ∈ tr, m.post.Quiet → m.post.Synced
    have hrun : P (exec (revert step) (start validators) evs) (moves validators evs) := by
      let ok (m : Move (Network N V F) (Event N V F)) : Prop :=
        ∀ i, m.call = .accept i → m.pre.Quiet → m.pre.KnownTo i
      refine trace_induction ok P ⟨fun _ => start_covered validators, by simp⟩ ?_ evs hok
      rintro s tr ev s' ⟨hcovered, hprev⟩ hstep hknown
      have hnow : s'.Quiet → s'.Covered := by
        intro hq
        have hquiet := quiet_of_step hstep hq
        exact (hcovered hquiet).step hstep fun i hi => hknown i hi hquiet
      refine ⟨hnow, ?_⟩
      simp only [List.forall_mem_append, List.forall_mem_singleton]
      exact ⟨hprev, fun hq => (hnow hq).synced hq⟩
    exact hrun.2

end

/-- Node 1 stores a proof, node 0 connects to it and is accepted. -/
def lateJoin : List (Event Nat Nat Nat) :=
  [.submit 1 ⟨"root", "proof", 3⟩, .connect 0 1 [], .accept 0]

/-- Nothing is in flight, and node 0 never hears of the proof. -/
theorem late_joiner_misses :
    ¬ ∀ m ∈ moves (fun _ : Nat => Validator.new 1) lateJoin, m.post.Quiet → m.post.Synced := by
  intro h
  have hlast : ∃ m ∈ moves (fun _ : Nat => Validator.new 1) lateJoin, m.post.Quiet ∧
      m.post.links[0]? = some ⟨0, 1⟩ ∧ m.post.accepted 0 = true ∧ m.post.Stores 1 "root" ∧
      ¬ m.post.Stores 0 "root" := by decide
  obtain ⟨m, hm, hquiet, hl, haccepted, hstored, hmissed⟩ := hlast
  exact hmissed ((h m hm hquiet 0 _ hl haccepted "root").mpr hstored)

end ChainBeasts.Pouw.Network
