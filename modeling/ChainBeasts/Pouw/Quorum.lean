import ChainBeasts.Pouw.Flooding

/-! # What a quorum is worth

`has_quorum` is read as so many nodes having checked a proof. Whether it can come true without a
further submission depends on no number: one proof under way to a validator brings it to any quorum
(`Approaches`, `quorum_in_reach_iff`), since it goes back and forth for ever. What can be said for a
count is that it is of a proof that some node submitted (`quorum_of_one_proof`). -/

namespace ChainBeasts.Pouw.Network

open ChainBeasts.Machine

variable {N V F : Type}

/-- A proof of root `r` is under way to a node from where connections lead to validator `v`. -/
def Approaches (s : Network N V F) (v : V) (r : String) : Prop :=
  ∃ (i : Nat) (l : Link N) (e : End) (m : N), s.links[i]? = some l ∧ s.Carries i e r ∧
    s.Reaches (l.node e) m ∧ s.onProof m = some v

/-- The root has the quorum of validator `v`. -/
def HasQuorum (s : Network N V F) (v : V) (r : String) : Prop := (s.validators v).hasQuorum r = true

variable {s s' t : Network N V F} {n m : N} {v : V} {p q : StarkProof F} {i : Nat} {e : End}
  {l : Link N} {r : String} {ev : Event N V F}

/-! ## Counting up to a quorum -/

theorem hasQuorum_iff :
    s.HasQuorum v r ↔ ∃ k, (s.validators v).counts r = some k ∧ (s.validators v).quorum ≤ k := by
  rw [HasQuorum, Validator.hasQuorum]
  cases (s.validators v).counts r <;> simp

/-- Short of the quorum, a count does not wrap. -/
theorem toNat_count_succ (h : ¬ s.HasQuorum v r) :
    (s.count v r + 1).toNat = (s.count v r).toNat + 1 := by
  rw [hasQuorum_iff] at h
  rw [count]
  cases hcounts : (s.validators v).counts r with
  | none => rfl
  | some k =>
      have hshort : ¬ (s.validators v).quorum ≤ k := fun hle => h ⟨k, hcounts, hle⟩
      have hlt : k < (s.validators v).quorum := BitVec.not_le.mp hshort
      have hbound := (s.validators v).quorum.isLt
      rw [BitVec.lt_def] at hlt
      rw [Option.getD_some, BitVec.toNat_add, show (1 : SizeT).toNat = 1 from rfl]
      exact Nat.mod_eq_of_lt (by omega)

section
variable [DecidableEq N] [DecidableEq V]

theorem validators_submit (s : Network N V F) (n : N) (q : StarkProof F) (v : V) :
    (s.submit n q).validators v =
      if s.onProof n = some v then (s.validators v).attest q.root else s.validators v := by
  rw [submit_validators, notify]
  cases hcallback : s.onProof n with
  | none => rfl
  | some u =>
      by_cases hu : u = v
      · subst hu
        simp
      · simp [hu, Ne.symm hu]

variable [DecidableEq F]

/-- A quorum never changes. -/
theorem quorum_step (hnet : ev.isNetwork = true) (h : s.step ev = some s') :
    (s'.validators v).quorum = (s.validators v).quorum := by
  obtain ⟨i, ha⟩ | ⟨i, e, hd⟩ := network_cases hnet h
  · obtain ⟨-, -, rfl⟩ := accept_cases ha
    rfl
  · obtain ⟨l, q, rest, -, -, -, rfl⟩ := deliver_cases hd
    rw [validators_submit]
    split <;> rfl

/-- On its way a run has the quorum, or the count has not gone down. -/
theorem quorum_or_le (t : Network N V F) (v : V) (r : String) (evs : List (Event N V F))
    (hnet : ∀ ev ∈ evs, ev.isNetwork = true) :
    (∃ some, (∀ ev ∈ some, ev.isNetwork = true) ∧ (exec (revert step) t some).HasQuorum v r) ∨
      (t.count v r).toNat ≤ ((exec (revert step) t evs).count v r).toNat ∧
        ((exec (revert step) t evs).validators v).quorum = (t.validators v).quorum := by
  induction evs using List.reverseRecOn with
  | nil => exact Or.inr ⟨Nat.le_refl _, rfl⟩
  | append_singleton evs ev ih =>
      have hearlier : ∀ ev ∈ evs, ev.isNetwork = true := fun ev' hev' =>
        hnet ev' (List.mem_append_left _ hev')
      rcases ih hearlier with hquorum | ⟨hle, hsame⟩
      · exact Or.inl hquorum
      · by_cases hq : (exec (revert step) t evs).HasQuorum v r
        · exact Or.inl ⟨evs, hearlier, hq⟩
        · right
          rw [exec_concat]
          cases hstep : (exec (revert step) t evs).step ev with
          | none =>
              rw [revert_none hstep]
              exact ⟨hle, hsame⟩
          | some u =>
              rw [revert_some hstep]
              have hev : ev.isNetwork = true := hnet ev (by simp)
              refine ⟨?_, (quorum_step hev hstep).trans hsame⟩
              rcases count_step (v := v) (r := r) hev hstep with hkept | hup
              · rw [hkept]
                exact hle
              · rw [hup, toNat_count_succ hq]
                omega

/-- **A proof under way brings every quorum**: it arrives, goes back and arrives again. -/
theorem exists_quorum (hv : s.onProof m = some v) (ht : Settled s t) (hl : s.links[i]? = some l)
    (hc : t.Carries i e r) (hreach : s.Reaches (l.node e) m) :
    ∃ evs, (∀ ev ∈ evs, ev.isNetwork = true) ∧ (exec (revert step) t evs).HasQuorum v r := by
  induction hk : (t.validators v).quorum.toNat - (t.count v r).toNat using Nat.strongRecOn
    generalizing t i l e with
  | _ k ih =>
    obtain ⟨a⟩ := exists_arrival_of_reaches hreach ht hl rfl hc
    rcases quorum_or_le t v r a.before a.network with hquorum | ⟨hle, hsame⟩
    · exact hquorum
    by_cases hbefore : a.pre.HasQuorum v r
    · exact ⟨a.before, a.network, hbefore⟩
    by_cases hafter : a.post.HasQuorum v r
    · refine ⟨a.before ++ [.deliver a.i a.e], a.network_concat, ?_⟩
      rwa [a.exec_eq]
    -- the count is up by one, and still short of the quorum
    have hup := a.count hv
    have hcallback : (a.pre.setFlight a.i a.e a.rest).onProof m = some v := by
      rw [show (a.pre.setFlight a.i a.e a.rest).onProof = s.onProof from a.settled.onProof]
      exact hv
    have hattested : a.post.validators v = (a.pre.validators v).attest r := by
      rw [Arrival.post, validators_submit, if_pos hcallback, a.root]
      rfl
    have hquorum : (a.post.validators v).quorum = (t.validators v).quorum := by
      rw [hattested]
      exact hsame
    have hshort : (a.post.count v r).toNat < (t.validators v).quorum.toNat := by
      by_contra hle'
      apply hafter
      rw [hasQuorum_iff, hquorum]
      have hentry : (a.post.validators v).counts r = some (a.post.count v r) := by
        rw [count, hattested, Validator.attest]
        simp
      exact ⟨_, hentry, BitVec.le_def.mpr (Nat.not_lt.mp hle')⟩
    have hgrown : (a.post.count v r).toNat = (a.pre.count v r).toNat + 1 := by
      rw [hup, toNat_count_succ hbefore]
    have hback : s.Reaches (a.l.node a.e.other) m :=
      .single (Linked.symm ⟨a.i, a.l, a.e, a.link, a.node, rfl⟩)
    have hless : (a.post.validators v).quorum.toNat - (a.post.count v r).toNat < k := by
      have hle' : (t.count v r).toNat ≤ (a.pre.count v r).toNat := hle
      rw [hquorum]
      omega
    obtain ⟨more, hmore, hreached⟩ := ih _ hless a.post_settled a.link (a.carries a.link a.node)
      hback rfl
    refine ⟨(a.before ++ [.deliver a.i a.e]) ++ more, ?_, ?_⟩
    · intro ev hev
      rcases List.mem_append.mp hev with hfirst | hlater
      · exact a.network_concat ev hfirst
      · exact hmore ev hlater
    · rwa [exec_append, a.exec_eq]

/-! ## Nothing else brings it -/

/-- A network step opens no connection and attaches nobody. -/
theorem network_frame (hnet : ev.isNetwork = true) (hs : s.step ev = some s') :
    s'.links = s.links ∧ s'.onProof = s.onProof := by
  obtain ⟨i, ha⟩ | ⟨i, e, hd⟩ := network_cases hnet hs
  · obtain ⟨-, -, rfl⟩ := accept_cases ha
    exact ⟨rfl, rfl⟩
  · obtain ⟨l, q, rest, -, -, -, rfl⟩ := deliver_cases hd
    exact ⟨submit_links _ _ _, submit_on_proof _ _ _⟩

/-- After a network step a root is under way only to nodes in reach of where it was. -/
theorem carries_from (hnet : ev.isNetwork = true) (hs : s.step ev = some s')
    (hl : s.links[i]? = some l) (hc : s'.Carries i e r) :
    ∃ (j : Nat) (l' : Link N) (e' : End), s.links[j]? = some l' ∧ s.Carries j e' r ∧
      s.Reaches (l'.node e') (l.node e) := by
  obtain ⟨j, ha⟩ | ⟨j, e', hd⟩ := network_cases hnet hs
  · obtain ⟨-, -, rfl⟩ := accept_cases ha
    exact ⟨i, l, e, hl, hc, .refl⟩
  · obtain ⟨l', q, rest, hl', hflight, -, rfl⟩ := deliver_cases hd
    have hold : r ∈ ((s.setFlight j e' rest).flight i e).map StarkProof.root → s.Carries i e r := by
      intro hmem
      by_cases hsame : (i, e) = (j, e')
      · obtain ⟨rfl, rfl⟩ := Prod.mk.inj hsame
        rw [setFlight_self] at hmem
        rw [Carries, hflight]
        exact List.mem_cons_of_mem _ hmem
      · rwa [setFlight_of_ne hsame] at hmem
    rw [Carries, submit_flight] at hc
    split at hc
    · next hfeeds =>
        rw [List.map_append, List.mem_append] at hc
        rcases hc with hmem | hnew
        · exact ⟨i, l, e, hl, hold hmem, .refl⟩
        · -- it was just delivered, and is sent on from there
          obtain ⟨hnode, -⟩ := (feeds_iff hl).mp hfeeds
          refine ⟨j, l', e', hl', ?_, .single ⟨i, l, e.other, hl, hnode, by rw [End.other_other]⟩⟩
          rw [Carries, hflight, List.mem_singleton.mp hnew]
          exact List.mem_cons_self
    · exact ⟨i, l, e, hl, hold hc, .refl⟩

/-- What approaches nobody is not counted. -/
theorem not_approaches_step (h : ¬ s.Approaches v r) (hnet : ev.isNetwork = true)
    (hs : s.step ev = some s') :
    ¬ s'.Approaches v r ∧ (s'.validators v).counts r = (s.validators v).counts r := by
  obtain ⟨hlinks, hcallback⟩ := network_frame hnet hs
  constructor
  · rintro ⟨i, l, e, m, hl, hcarries, hreach, hv⟩
    rw [hlinks] at hl
    rw [hcallback] at hv
    obtain ⟨j, l', e', hl', hcarries', hreach'⟩ := carries_from hnet hs hl hcarries
    exact h ⟨j, l', e', m, hl', hcarries', hreach'.trans ((reaches_of_links hlinks).mp hreach), hv⟩
  · obtain ⟨i, ha⟩ | ⟨i, e, hd⟩ := network_cases hnet hs
    · obtain ⟨-, -, rfl⟩ := accept_cases ha
      rfl
    · obtain ⟨l, q, rest, hl, hflight, -, rfl⟩ := deliver_cases hd
      rw [validators_submit]
      split
      · next hv =>
          have hne : r ≠ q.root := by
            rintro rfl
            refine h ⟨i, l, e, _, hl, ?_, .refl, hv⟩
            rw [Carries, hflight]
            exact List.mem_cons_self
          exact Function.update_of_ne hne _ _
      · rfl

/-- When a quorum is in reach. Without a further submission the root gets the quorum of `v`, be
it 1 or 2 ^ 64 - 1, exactly when it has it or a proof of it approaches `v`. -/
theorem quorum_in_reach_iff (s : Network N V F) (v : V) (r : String) :
    (∃ evs, (∀ ev ∈ evs, ev.isNetwork = true) ∧ (exec (revert step) s evs).HasQuorum v r) ↔
      s.HasQuorum v r ∨ s.Approaches v r := by
  constructor
  · rintro ⟨evs, hnet, hquorum⟩
    by_contra hcon
    obtain ⟨hnot, haway⟩ := not_or.mp hcon
    let P (t : Network N V F) (_ : List (Move (Network N V F) (Event N V F))) : Prop :=
      ¬ t.Approaches v r ∧ (t.validators v).counts r = (s.validators v).counts r ∧
        (t.validators v).quorum = (s.validators v).quorum
    have hrun : P (exec (revert step) s evs) (trace step s evs) := by
      refine trace_induction (fun m => m.call.isNetwork = true) P ⟨haway, rfl, rfl⟩ ?_ evs
        fun m hm => hnet _ (mem_of_mem_trace hm)
      rintro t tr ev t' ⟨haway, hcounts, hsame⟩ hstep hev
      obtain ⟨haway', hcounts'⟩ := not_approaches_step haway hev hstep
      exact ⟨haway', hcounts'.trans hcounts, (quorum_step hev hstep).trans hsame⟩
    obtain ⟨-, hcounts, hsame⟩ := hrun
    rw [hasQuorum_iff, hcounts, hsame, ← hasQuorum_iff] at hquorum
    exact hnot hquorum
  · rintro (hquorum | ⟨i, l, e, m, hl, hcarries, hreach, hv⟩)
    · exact ⟨[], by simp, hquorum⟩
    · obtain ⟨evs, hnet, hsettled, hflight⟩ := exists_settled s (t := s) rfl rfl
      have hsent : (exec (revert step) s evs).Carries i e r := by
        rw [Carries, hflight]
        exact hcarries
      obtain ⟨more, hmore, hquorum⟩ := exists_quorum hv hsettled hl hsent hreach
      refine ⟨evs ++ more, ?_, ?_⟩
      · intro ev hev
        rcases List.mem_append.mp hev with hfirst | hlater
        · exact hnet ev hfirst
        · exact hmore ev hlater
      · rwa [exec_append]

omit [DecidableEq F] in
/-- A proof that is sent at all approaches every validator in reach. -/
theorem approaches_submit (hopen : ¬ s.Isolated n) (hreach : s.Reaches n m)
    (hv : s.onProof m = some v) : (s.submit n p).Approaches v p.root := by
  obtain ⟨i, e, hfeeds⟩ : ∃ i e, s.feeds n i e = true := by simpa [Isolated] using hopen
  cases hl : s.links[i]? with
  | none => simp [feeds, hl] at hfeeds
  | some l =>
      obtain ⟨hnode, -⟩ := (feeds_iff hl).mp hfeeds
      refine ⟨i, l, e, m, by rwa [submit_links], ?_, ?_, by rwa [submit_on_proof]⟩
      · rw [Carries, submit_flight, if_pos hfeeds, List.map_append]
        exact List.mem_append_right _ (List.mem_singleton_self _)
      · exact (reaches_of_links (submit_links _ _ _)).mpr (hreach.head ⟨i, l, e, hl, rfl, hnode⟩)

end

/-! ## Where a count comes from -/

/-- A node has submitted a proof of the root. -/
def Submitted (tr : List (Move (Network N V F) (Event N V F))) (r : String) : Prop :=
  ∃ mv ∈ tr, ∃ n p, mv.call = .submit n p ∧ p.root = r

/-- Whatever is stored, sent or counted has been submitted. -/
structure Authentic (validators : V → Validator) (s : Network N V F)
    (tr : List (Move (Network N V F) (Event N V F))) : Prop where
  stores : ∀ n r, s.Stores n r → Submitted tr r
  carries : ∀ i e r, s.Carries i e r → Submitted tr r
  counts : ∀ v r, (s.validators v).counts r = (validators v).counts r ∨ Submitted tr r
  quorum : ∀ v, (s.validators v).quorum = (validators v).quorum

variable {validators : V → Validator} {tr more : List (Move (Network N V F) (Event N V F))}

theorem Submitted.append (h : Submitted tr r) : Submitted (tr ++ more) r := by
  obtain ⟨mv, hmv, hcall⟩ := h
  exact ⟨mv, List.mem_append_left _ hmv, hcall⟩

theorem Authentic.append (h : s.Authentic validators tr) : s.Authentic validators (tr ++ more) :=
  ⟨fun n r hr => (h.stores n r hr).append, fun i e r hr => (h.carries i e r hr).append,
    fun v r => (h.counts v r).imp_right Submitted.append, h.quorum⟩

section
variable [DecidableEq N] [DecidableEq V]

theorem Authentic.submit (h : s.Authentic validators tr) (hq : Submitted tr q.root) :
    (s.submit n q).Authentic validators tr := by
  constructor
  · intro m r hr
    rcases stores_submit.mp hr with hold | ⟨-, rfl⟩
    · exact h.stores m r hold
    · exact hq
  · intro i e r hr
    rw [Carries, submit_flight] at hr
    split at hr
    · rw [List.map_append, List.mem_append] at hr
      rcases hr with hold | hnew
      · exact h.carries i e r hold
      · rw [List.mem_singleton.mp hnew]
        exact hq
    · exact h.carries i e r hr
  · intro v r
    rw [validators_submit]
    split
    · by_cases hr : r = q.root
      · rw [hr]
        exact Or.inr hq
      · have hkept : ((s.validators v).attest q.root).counts r = (s.validators v).counts r :=
          Function.update_of_ne hr _ _
        rw [hkept]
        exact h.counts v r
    · exact h.counts v r
  · intro v
    rw [validators_submit]
    split
    · exact h.quorum v
    · exact h.quorum v

variable [DecidableEq F]

theorem Authentic.step (h : s.Authentic validators tr) (hs : s.step ev = some s') :
    s'.Authentic validators (tr ++ [⟨s, ev, s'⟩]) := by
  cases ev with
  | setCallback n callback =>
      cases hs
      exact ⟨h.append.stores, h.append.carries, h.append.counts, h.quorum⟩
  | connect client server order =>
      simp only [Network.step, connect] at hs
      split at hs
      · next hperm =>
          cases hs
          refine ⟨h.append.stores, ?_, h.append.counts, h.quorum⟩
          intro i e r hr
          by_cases hi : i = s.links.length
          · subst hi
            cases e with
            | client => simp [Carries] at hr
            | server =>
                simp only [Carries, Function.update_self] at hr
                exact (h.stores client r ((hperm.map _).mem_iff.mp hr)).append
          · simp only [Carries, Function.update_of_ne hi] at hr
            exact (h.carries i e r hr).append
      · cases hs
  | accept i =>
      obtain ⟨-, -, rfl⟩ := accept_cases hs
      exact ⟨h.append.stores, h.append.carries, h.append.counts, h.quorum⟩
  | deliver i e =>
      obtain ⟨l, q, rest, -, hflight, -, rfl⟩ := deliver_cases hs
      have hq : Submitted tr q.root := by
        apply h.carries i e
        rw [Carries, hflight]
        exact List.mem_cons_self
      have hpopped : (s.setFlight i e rest).Authentic validators tr := by
        refine ⟨h.stores, ?_, h.counts, h.quorum⟩
        intro j e' r hr
        by_cases hsame : (j, e') = (i, e)
        · obtain ⟨rfl, rfl⟩ := Prod.mk.inj hsame
          rw [Carries, setFlight_self] at hr
          apply h.carries j e'
          rw [Carries, hflight]
          exact List.mem_cons_of_mem _ hr
        · rw [Carries, setFlight_of_ne hsame] at hr
          exact h.carries j e' r hr
      exact (hpopped.submit hq).append
  | submit n p =>
      cases hs
      exact h.append.submit ⟨_, List.mem_append_right _ (List.mem_singleton_self _), n, p, rfl, rfl⟩

theorem authentic (validators : V → Validator) (evs : List (Event N V F)) :
    (exec (revert step) (start validators) evs).Authentic validators (moves validators evs) :=
  trace_run_induction (P := Authentic validators)
    ⟨fun _ _ hr => absurd hr List.not_mem_nil, fun _ _ _ hr => absurd hr List.not_mem_nil,
      fun _ _ => Or.inl rfl, fun _ => rfl⟩ (fun _ _ _ _ h hs => h.step hs) evs

/-- **A quorum is one proof.** In every run: the network can bring a root to the quorum of a validator
on its own exactly when it is there or a proof of it approaches the validator; one submission at a
node with an open connection, from where the validator is in reach, is enough for that; and a root
that nobody has submitted is not under way on any connection, and every validator counts it as at the
start. -/
theorem quorum_of_one_proof (validators : V → Validator) (evs : List (Event N V F)) (v : V)
    (r : String) :
    let s := exec (revert step) (start validators) evs
    ((∃ more, (∀ ev ∈ more, ev.isNetwork = true) ∧ (exec (revert step) s more).HasQuorum v r) ↔
        s.HasQuorum v r ∨ s.Approaches v r) ∧
      (∀ n m p, p.root = r → ¬ s.Isolated n → s.Reaches n m → s.onProof m = some v →
        (s.submit n p).Approaches v r) ∧
      (¬ Submitted (moves validators evs) r →
        (∀ i e, ¬ s.Carries i e r) ∧ ∀ u, (s.validators u).counts r = (validators u).counts r ∧
          (s.HasQuorum u r ↔ (validators u).hasQuorum r = true)) := by
  intro s
  have hauthentic := authentic validators evs
  refine ⟨quorum_in_reach_iff s v r, ?_, ?_⟩
  · rintro n m p rfl hopen hreach hv
    exact approaches_submit hopen hreach hv
  · intro hnobody
    refine ⟨fun i e hcarries => hnobody (hauthentic.carries i e r hcarries), fun u => ?_⟩
    have hcounts := (hauthentic.counts u r).resolve_right hnobody
    refine ⟨hcounts, ?_⟩
    rw [HasQuorum, Validator.hasQuorum, Validator.hasQuorum, hcounts, hauthentic.quorum u]

end

end ChainBeasts.Pouw.Network
