import ChainBeasts.Contracts.FashionTally
import ChainBeasts.Contracts.FashionVotes

/-! # What a tally leaves behind

The parties of an initiated duel and its being resolved are there to stay, and so are the `Tally`
events. A duel that is tallied after it was initiated is tallied after its reveal window, so its
weights stay as well: the winner of the event is the winner that the weights show from then on
(`run_settled`). -/

namespace ChainBeasts.Contracts.FashionDuel

open ChainBeasts.Evm ChainBeasts.Machine ChainBeasts.Clock

variable {keccak256 : Bytes → Bytes32} {block id : U256}

/-- What there is of duel `id` in `a` is there in `b`. -/
structure Kept (id : U256) (a b : FashionDuel) : Prop where
  initiated : a.Initiated id → b.Initiated id
  challenger : a.Initiated id → (b.duels id).challenger = (a.duels id).challenger
  opponent : a.Initiated id → (b.duels id).opponent = (a.duels id).opponent
  resolved : (a.duels id).resolved = true → (b.duels id).resolved = true
  tallies : a.tallies <+: b.tallies

/-- The duel itself is as it was. -/
theorem Kept.of_same {a b : FashionDuel} (hinitiated : a.Initiated id → b.Initiated id)
    (hsame : b.duels id = a.duels id) (htallies : a.tallies <+: b.tallies) : Kept id a b where
  initiated := hinitiated
  challenger _ := by rw [hsame]
  opponent _ := by rw [hsame]
  resolved h := by rwa [hsame]
  tallies := htallies

theorem Kept.refl (id : U256) (a : FashionDuel) : Kept id a a :=
  Kept.of_same (fun h => h) rfl (List.prefix_refl _)

theorem Kept.trans {a b c : FashionDuel} (hab : Kept id a b) (hbc : Kept id b c) : Kept id a c where
  initiated h := hbc.initiated (hab.initiated h)
  challenger h := (hbc.challenger (hab.initiated h)).trans (hab.challenger h)
  opponent h := (hbc.opponent (hab.initiated h)).trans (hab.opponent h)
  resolved h := hbc.resolved (hab.resolved h)
  tallies := hab.tallies.trans hbc.tallies

/-- **Everything a call can do to the events**: only `tally` emits one. -/
theorem step_tallies {s s' : FashionDuel} {tx : Tx Call} (h : s.step keccak256 block tx = some s') :
    (∃ id, tx.call = .tally id ∧ s'.tallies = s.tallies ++ [(id, s.winner id)]) ∨
      s'.tallies = s.tallies := by
  obtain ⟨sender, call⟩ := tx
  cases call with
  | initiate opponent judgeBlock commitWindow revealWindow =>
      obtain ⟨nextId, commitEnd, revealEnd, -, -, -, -, rfl⟩ := initiate_cases h
      exact Or.inr rfl
  | commit id commitment =>
      obtain ⟨-, -, rfl⟩ := commit_cases h
      exact Or.inr rfl
  | reveal id side salt =>
      obtain ⟨-, -, -, -, hweigh⟩ := reveal_cases h
      obtain ⟨-, weight, -, rfl⟩ | ⟨-, weight, -, rfl⟩ | ⟨-, rfl⟩ := weigh_cases hweigh
      · exact Or.inr rfl
      · exact Or.inr rfl
      · exact Or.inr rfl
  | tally id =>
      obtain ⟨-, -, rfl⟩ := tally_cases h
      exact Or.inl ⟨id, rfl, rfl⟩

/-- **One call** keeps all there is. -/
theorem step_kept {s s' : FashionDuel} {tx : Tx Call} (hs : s.Phased)
    (h : s.step keccak256 block tx = some s') (id : U256) : Kept id s s' := by
  have hinitiated := (hs.step h).2 id
  have htallies : s.tallies <+: s'.tallies := by
    obtain ⟨j, -, htallies⟩ | htallies := step_tallies h
    · rw [htallies]
      exact List.prefix_append _ _
    · rw [htallies]
  obtain ⟨d, -, -, hduels, -, -, -, hresolved⟩ | ⟨j, -, -, -, -, hduels⟩ | ⟨-, -, hduels⟩ :=
    step_duels h
  · by_cases hid : id = s.nextId
    · subst hid
      have hnew : ¬ s.Initiated s.nextId := fun hborn => BitVec.lt_irrefl _ hborn.2
      refine ⟨hinitiated, fun h => absurd h hnew, fun h => absurd h hnew, ?_, htallies⟩
      intro hdone
      rw [hduels, Function.update_self, hresolved]
      exact hdone
    · exact Kept.of_same hinitiated (by rw [hduels, Function.update_of_ne hid]) htallies
  · by_cases hid : id = j
    · subst hid
      have hnow : s'.duels id = { s.duels id with resolved := true } := by
        rw [hduels, Function.update_self]
      exact ⟨hinitiated, fun _ => by rw [hnow], fun _ => by rw [hnow], fun _ => by rw [hnow], htallies⟩
    · exact Kept.of_same hinitiated (by rw [hduels, Function.update_of_ne hid]) htallies
  · exact Kept.of_same hinitiated (by rw [hduels]) htallies

/-- **Nothing is lost in a run.** -/
theorem run_kept {s : Clocked U256 FashionDuel} (hs : s.state.Phased) (id : U256)
    (more : List (Event U256 (Tx Call))) :
    Kept id s.state (Clock.run (step keccak256) s more).state := by
  refine (clock_invariant (P := fun _ x => x.Phased ∧ Kept id s.state x) ?_ ?_ ?_ more).2
  · exact ⟨hs, Kept.refl id _⟩
  · exact fun _ _ _ h _ => h
  · rintro t x tx x' ⟨hx, hkept⟩ hstep
    exact ⟨(hx.step hstep).1, hkept.trans (step_kept hx hstep id)⟩

/-! ## The events -/

theorem done_concat {hist : List Happening} {m : Happening} :
    Done (hist ++ [m]) id ↔ Done hist id ∨ tallied m = some id ∧ m.pre.state.Initiated id := by
  unfold Done
  simp only [List.mem_append, List.mem_singleton, or_and_right, exists_or, exists_eq_left]

theorem SameVotes.winner {a b : FashionDuel} (h : SameVotes id a b) : b.winner id = a.winner id := by
  rw [FashionDuel.winner, FashionDuel.winner, h.weightChallenger, h.weightOpponent]

/-- The reveal window of the duel is over, and there is an event that names the winner by weight. -/
structure Settled (s : Clocked U256 FashionDuel) (id : U256) : Prop where
  initiated : s.state.Initiated id
  ended : (s.state.duels id).revealEnd ≤ s.now
  emitted : (id, s.state.winner id) ∈ s.state.tallies

/-- **One call** leaves what is settled settled. -/
theorem Settled.step {s : Clocked U256 FashionDuel} {tx : Tx Call} {x : FashionDuel}
    (h : Settled s id) (hs : s.state.Phased) (hstep : s.state.step keccak256 s.now tx = some x) :
    Settled { s with state := x } id := by
  have hsame := step_sameVotes hs hstep h.initiated h.ended
  have hkept := step_kept hs hstep id
  refine ⟨hkept.initiated h.initiated, ?_, ?_⟩
  · show (x.duels id).revealEnd ≤ s.now
    rw [← hsame.revealEnd]
    exact h.ended
  · show (id, x.winner id) ∈ x.tallies
    rw [hsame.winner]
    exact hkept.tallies.subset h.emitted

/-- **A tally after the initiation settles the duel.** -/
theorem run_settled (keccak256 : Bytes → Bytes32) (block : U256) (evs : List (Event U256 (Tx Call))) :
    ∀ id, Done (chronicle keccak256 block evs) id → Settled (run keccak256 block evs) id := by
  refine (chronicle_induction (P := fun s hist => s.state.Phased ∧
    ∀ id, Done hist id → Settled s id) ?_ ?_ ?_ ?_ evs).2
  · refine ⟨deploy_phased, ?_⟩
    rintro id ⟨m, hm, -⟩
    cases hm
  · rintro s hist now ⟨hs, hsettled⟩ hle
    refine ⟨hs, fun id hdone => ?_⟩
    obtain hold | ⟨hnew, -⟩ := done_concat.mp hdone
    · obtain ⟨hborn, hover, hemitted⟩ := hsettled id hold
      exact ⟨hborn, BitVec.le_trans hover hle, hemitted⟩
    · cases hnew
  · rintro s hist tx x ⟨hs, hsettled⟩ hstep
    refine ⟨(hs.step hstep).1, fun id hdone => ?_⟩
    obtain hold | ⟨hnew, hborn⟩ := done_concat.mp hdone
    · exact (hsettled id hold).step hs hstep
    · obtain ⟨hasked, -⟩ := tallied_eq_some.mp hnew
      obtain ⟨sender, hcall⟩ := asked_eq_some hasked
      cases hcall
      obtain ⟨hover, -, rfl⟩ := tally_cases hstep
      refine ⟨((hs.step hstep).2 id hborn), ?_, ?_⟩
      · simpa using hover
      · show (id, FashionDuel.winner _ id) ∈ s.state.tallies ++ [(id, s.state.winner id)]
        exact List.mem_append_right _ (List.mem_singleton.mpr rfl)
  · rintro s hist ev ⟨hs, hsettled⟩ hrefused
    refine ⟨hs, fun id hdone => ?_⟩
    obtain hold | ⟨hnew, -⟩ := done_concat.mp hdone
    · exact hsettled id hold
    · -- a tally that is emitted is not refused
      obtain ⟨hasked, x, hx⟩ := tallied_eq_some.mp hnew
      obtain ⟨sender, rfl⟩ := asked_eq_some hasked
      have haccepted : Clock.step (FashionDuel.step keccak256) s (.call ⟨sender, .tally id⟩) =
          some ⟨s.now, x⟩ := step_call hx
      rw [haccepted] at hrefused
      cases hrefused

/-! ## Two moments of a run -/

section Moments

variable {evs evs' : List (Event U256 (Tx Call))}

variable (keccak256 block) in
theorem kept_of_prefix (h : evs <+: evs') (id : U256) :
    Kept id (run keccak256 block evs).state (run keccak256 block evs').state := by
  obtain ⟨more, rfl⟩ := h
  rw [run, run, Clock.run_append]
  exact run_kept (run_resolved keccak256 block evs).phased id more

theorem sameVotes_of_prefix (h : evs <+: evs') (hs : Settled (run keccak256 block evs) id) :
    SameVotes id (run keccak256 block evs).state (run keccak256 block evs').state := by
  obtain ⟨more, rfl⟩ := h
  rw [run, run, Clock.run_append]
  exact run_sameVotes (run_resolved keccak256 block evs).phased hs.initiated hs.ended more

variable (keccak256 block) in
theorem chronicle_prefix (h : evs <+: evs') :
    chronicle keccak256 block evs <+: chronicle keccak256 block evs' := by
  obtain ⟨more, rfl⟩ := h
  unfold chronicle Clock.chronicle history
  rw [trace_append]
  exact List.prefix_append _ _

/-- **A duel that is resolved by now has its tally behind it.** If that tally is after the initiation,
it is so already now. -/
theorem done_of_resolved (h : evs <+: evs')
    (hresolved : ((run keccak256 block evs).state.duels id).resolved = true)
    (hdone : Done (chronicle keccak256 block evs') id) : Done (chronicle keccak256 block evs) id := by
  obtain ⟨more, hmore⟩ := chronicle_prefix keccak256 block h
  obtain ⟨e, he, hemitted⟩ :=
    List.mem_filterMap.mp (((run_resolved keccak256 block evs).emitted id).mp hresolved)
  have honce := (run_resolved keccak256 block evs').once
  obtain ⟨m, hm, htallied, hborn⟩ := hdone
  rw [← hmore] at hm
  rw [← hmore, List.filterMap_append, List.nodup_append] at honce
  rcases List.mem_append.mp hm with hold | hnew
  · exact ⟨m, hold, htallied, hborn⟩
  · exact absurd rfl (honce.2.2 id (List.mem_filterMap.mpr ⟨e, he, hemitted⟩) id
      (List.mem_filterMap.mpr ⟨m, hnew, htallied⟩))

end Moments

end ChainBeasts.Contracts.FashionDuel
