import ChainBeasts.Contracts.FashionDuel

/-! # When a duel is tallied

`tally` asks only that the block is at or after `revealEnd` and that the record is not resolved.
Before a duel is initiated its record is all zeros, so anybody can tally it in advance; `initiate`
keeps what that wrote to `resolved`, and the duel can never be tallied again.
`tallied_right_iff` says that this is all that can go wrong. -/

namespace ChainBeasts.Contracts.FashionDuel

open ChainBeasts.Evm ChainBeasts.Machine ChainBeasts.Clock

/-- All events of a run, refused ones included. -/
def chronicle (keccak256 : Bytes → Bytes32) (block : U256) (evs : List (Event U256 (Tx Call))) :
    List Happening :=
  Clock.chronicle (step keccak256) ⟨block, deploy⟩ evs

/-- The duel that an event asks to tally. -/
def asked : Event U256 (Tx Call) → Option U256
  | .call ⟨_, .tally id⟩ => some id
  | _ => none

/-- The duel whose `Tally` event is emitted. -/
def tallied (m : Happening) : Option U256 :=
  (asked m.call).filter fun id => (m.pre.state.tally m.pre.now id).isSome

/-- The duel has been tallied since it was initiated. -/
def Done (hist : List Happening) (id : U256) : Prop :=
  ∃ m ∈ hist, tallied m = some id ∧ m.pre.state.Initiated id

/-- Tallies are emitted of initiated duels only, late enough and once, and an initiated duel that
has not been tallied can be, at every block from its `revealEnd` on. -/
structure TalliedRight (s : Clocked U256 FashionDuel) (hist : List Happening) : Prop where
  initiated : ∀ m ∈ hist, ∀ id, tallied m = some id → m.pre.state.Initiated id
  late : ∀ m ∈ hist, ∀ id, tallied m = some id → (m.pre.state.duels id).revealEnd ≤ m.pre.now
  once : (hist.filterMap tallied).Nodup
  live : ∀ id, s.state.Initiated id → ¬ Done hist id → ∀ block, s.now ≤ block →
    (s.state.duels id).revealEnd ≤ block → ∃ x, s.state.tally block id = some x

/-- Every `tally` call names a duel that is initiated. -/
def AsksInitiated (hist : List Happening) : Prop :=
  ∀ m ∈ hist, ∀ id, asked m.call = some id → m.pre.state.Initiated id

theorem asked_eq_some {ev : Event U256 (Tx Call)} {id : U256} (h : asked ev = some id) :
    ∃ sender, ev = .call ⟨sender, .tally id⟩ := by
  unfold asked at h
  split at h
  · next sender t =>
      cases h
      exact ⟨sender, rfl⟩
  · cases h

theorem tallied_eq_some {m : Happening} {id : U256} :
    tallied m = some id ↔
      asked m.call = some id ∧ ∃ x, m.pre.state.tally m.pre.now id = some x := by
  rw [tallied, Option.filter_eq_some_iff, Option.isSome_iff_exists]

theorem tallied_of_not_asked {s s' : Clocked U256 FashionDuel} {tx : Tx Call}
    (h : ∀ id, tx.call ≠ .tally id) : tallied ⟨s, .call tx, s'⟩ = none := by
  obtain ⟨sender, call⟩ := tx
  cases call with
  | initiate => rfl
  | commit => rfl
  | reveal => rfl
  | tally id => exact absurd rfl (h id)

/-! ## What is resolved -/

/-- The resolved duels are the tallied ones, each tallied once and late enough. A tally that was
asked for too early in the life of a duel was emitted then or before. -/
structure Resolved (s : Clocked U256 FashionDuel) (hist : List Happening) : Prop where
  phased : s.state.Phased
  emitted : ∀ id, (s.state.duels id).resolved = true ↔ id ∈ hist.filterMap tallied
  once : (hist.filterMap tallied).Nodup
  late : ∀ m ∈ hist, ∀ id, tallied m = some id → (m.pre.state.duels id).revealEnd ≤ m.pre.now
  kept : ∀ m ∈ hist, ∀ id, m.pre.state.Initiated id → s.state.Initiated id
  early : ∀ m ∈ hist, ∀ id, asked m.call = some id → ¬ m.pre.state.Initiated id →
    ∃ e ∈ hist, tallied e = some id ∧ ¬ e.pre.state.Initiated id

variable {keccak256 : Bytes → Bytes32} {s s' : Clocked U256 FashionDuel} {hist : List Happening}
  {ev : Event U256 (Tx Call)} {m : Happening} {id : U256}

theorem deploy_resolved (block : U256) : Resolved ⟨block, deploy⟩ [] where
  phased := deploy_phased
  emitted id := by simp [deploy]
  once := List.nodup_nil
  late m hm := by cases hm
  kept m hm := by cases hm
  early m hm := by cases hm

/-- An event that emits nothing: only what it asked for is new. -/
theorem Resolved.quiet (hs : Resolved s hist) (hnone : tallied ⟨s, ev, s'⟩ = none)
    (hphased : s'.state.Phased) (hkept : ∀ id, s.state.Initiated id → s'.state.Initiated id)
    (hresolved : ∀ id, (s'.state.duels id).resolved = (s.state.duels id).resolved) :
    Resolved s' (hist ++ [⟨s, ev, s'⟩]) := by
  obtain ⟨phased, emitted, once, late, kept, early⟩ := hs
  have hsame : List.filterMap tallied (hist ++ [⟨s, ev, s'⟩]) = hist.filterMap tallied := by
    simp [hnone]
  refine ⟨hphased, ?_, by rwa [hsame], ?_, ?_, ?_⟩
  · intro id
    rw [hsame, hresolved]
    exact emitted id
  · intro m hm id hid
    rcases List.mem_append.mp hm with hold | hnew
    · exact late m hold id hid
    · rw [List.mem_singleton.mp hnew, hnone] at hid
      cases hid
  · intro m hm id hid
    rcases List.mem_append.mp hm with hold | hnew
    · exact hkept id (kept m hold id hid)
    · rw [List.mem_singleton.mp hnew] at hid
      exact hkept id hid
  · intro m hm id hasked hid
    rcases List.mem_append.mp hm with hold | hnew
    · obtain ⟨e, he, hemitted⟩ := early m hold id hasked hid
      exact ⟨e, List.mem_append_left _ he, hemitted⟩
    · rw [List.mem_singleton.mp hnew] at hasked hid
      -- the call was refused, so the record was resolved
      have hrefused : s.state.tally s.now id = none := by
        rw [Option.eq_none_iff_forall_ne_some]
        intro x hx
        have hsome : tallied ⟨s, ev, s'⟩ = some id := tallied_eq_some.mpr ⟨hasked, x, hx⟩
        rw [hnone] at hsome
        cases hsome
      have hend : (s.state.duels id).revealEnd ≤ s.now := by
        rw [(phased.unborn id hid).2]
        exact BitVec.le_def.mpr (Nat.zero_le _)
      have hdone : (s.state.duels id).resolved = true := by
        by_contra hopen
        obtain ⟨x, hx⟩ := exists_tally hend (Bool.eq_false_of_not_eq_true hopen)
        rw [hrefused] at hx
        cases hx
      obtain ⟨e, he, hemitted⟩ := List.mem_filterMap.mp ((emitted id).mp hdone)
      exact ⟨e, List.mem_append_left _ he, hemitted, fun hborn => hid (kept e he id hborn)⟩

/-- An event that tallies duel `id`. -/
theorem Resolved.tally (hs : Resolved s hist) (hsome : tallied ⟨s, ev, s'⟩ = some id)
    (hphased : s'.state.Phased) (hkept : ∀ id, s.state.Initiated id → s'.state.Initiated id)
    (hopen : (s.state.duels id).resolved = false) (hend : (s.state.duels id).revealEnd ≤ s.now)
    (hduels : s'.state.duels =
      Function.update s.state.duels id { s.state.duels id with resolved := true }) :
    Resolved s' (hist ++ [⟨s, ev, s'⟩]) := by
  obtain ⟨phased, emitted, once, late, kept, early⟩ := hs
  have hlast : List.filterMap tallied (hist ++ [⟨s, ev, s'⟩]) = hist.filterMap tallied ++ [id] := by
    simp [hsome]
  refine ⟨hphased, ?_, ?_, ?_, ?_, ?_⟩
  · intro j
    rw [hlast, List.mem_append, List.mem_singleton, ← emitted, hduels]
    by_cases hj : j = id
    · simp [hj]
    · simp [hj]
  · rw [hlast, List.nodup_append]
    refine ⟨once, List.nodup_singleton _, ?_⟩
    intro j hj i hi
    rw [List.mem_singleton.mp hi]
    rintro rfl
    rw [← emitted, hopen] at hj
    cases hj
  · intro m hm j hj
    rcases List.mem_append.mp hm with hold | hnew
    · exact late m hold j hj
    · rw [List.mem_singleton.mp hnew] at hj ⊢
      rw [hsome] at hj
      cases hj
      exact hend
  · intro m hm j hj
    rcases List.mem_append.mp hm with hold | hnew
    · exact hkept j (kept m hold j hj)
    · rw [List.mem_singleton.mp hnew] at hj
      exact hkept j hj
  · intro m hm j hasked hj
    rcases List.mem_append.mp hm with hold | hnew
    · obtain ⟨e, he, hemitted⟩ := early m hold j hasked hj
      exact ⟨e, List.mem_append_left _ he, hemitted⟩
    · refine ⟨m, hm, ?_, hj⟩
      rw [List.mem_singleton.mp hnew] at hasked ⊢
      have hname := (tallied_eq_some.mp hsome).1
      rw [hname] at hasked
      cases hasked
      exact hsome

theorem run_resolved (keccak256 : Bytes → Bytes32) (block : U256)
    (evs : List (Event U256 (Tx Call))) :
    Resolved (run keccak256 block evs) (chronicle keccak256 block evs) := by
  refine chronicle_induction (deploy_resolved block) ?_ ?_ ?_ evs
  · intro s hist now hs _
    exact hs.quiet rfl hs.phased (fun _ h => h) fun _ => rfl
  · intro s hist tx state hs hstep
    obtain ⟨hphased, hkept⟩ := hs.phased.step hstep
    obtain ⟨d, hcall, -, hduels, -, -, -, hresolved⟩ | ⟨id, hcall, hend, hopen, -, hduels⟩ |
      ⟨hcall, -, hduels⟩ := step_duels hstep
    · refine hs.quiet (tallied_of_not_asked hcall) hphased hkept fun j => ?_
      rw [hduels]
      by_cases hj : j = s.state.nextId
      · rw [hj, Function.update_self]
        exact hresolved
      · rw [Function.update_of_ne hj]
    · refine hs.tally ?_ hphased hkept hopen hend hduels
      obtain ⟨sender, call⟩ := tx
      cases hcall
      exact tallied_eq_some.mpr ⟨rfl, state, hstep⟩
    · refine hs.quiet (tallied_of_not_asked hcall) hphased hkept fun j => ?_
      rw [hduels]
  · intro s hist ev hs hrefused
    refine hs.quiet ?_ hs.phased (fun _ h => h) fun _ => rfl
    rw [Option.eq_none_iff_forall_ne_some]
    intro id hid
    obtain ⟨hasked, x, hx⟩ := tallied_eq_some.mp hid
    obtain ⟨sender, rfl⟩ := asked_eq_some hasked
    have haccepted : Clock.step (step keccak256) s (.call ⟨sender, .tally id⟩) = some ⟨s.now, x⟩ :=
      step_call hx
    rw [haccepted] at hrefused
    cases hrefused

/-! ## The rule for tallies -/

/-- **When tallies are right.** In every run they are exactly when no `tally` call names a duel that
is not initiated yet. -/
theorem tallied_right_iff (keccak256 : Bytes → Bytes32) (block : U256)
    (evs : List (Event U256 (Tx Call))) :
    TalliedRight (run keccak256 block evs) (chronicle keccak256 block evs) ↔
      AsksInitiated (chronicle keccak256 block evs) := by
  have hs := run_resolved keccak256 block evs
  constructor
  · intro h m hm id hasked
    by_contra hid
    -- a call that was too early was accepted, or another one before it
    obtain ⟨e, he, hemitted, hearly⟩ := hs.early m hm id hasked hid
    exact hearly (h.initiated e he id hemitted)
  · intro h
    refine ⟨?_, hs.late, hs.once, ?_⟩
    · intro m hm id hid
      exact h m hm id (tallied_eq_some.mp hid).1
    · intro id _ hnot block' _ hend
      apply exists_tally hend
      rw [← Bool.not_eq_true, hs.emitted, List.mem_filterMap]
      rintro ⟨m, hm, hid⟩
      exact hnot ⟨m, hm, hid, h m hm id (tallied_eq_some.mp hid).1⟩

/-- Account 5 tallies duel 1, then account 7 initiates it, and its windows pass. -/
def talliedInAdvance : List (Event U256 (Tx Call)) :=
  [.call ⟨5, .tally 1⟩, .call ⟨7, .initiate 8 2 1 1⟩, .tick 4]

/-- The duel is over and has not been tallied since it was initiated, and nobody can tally it. -/
theorem tallied_in_advance :
    ¬ TalliedRight (run (fun _ => 1) 1 talliedInAdvance) (chronicle (fun _ => 1) 1 talliedInAdvance) ∧
      (run (fun _ => 1) 1 talliedInAdvance).state.Initiated 1 ∧
      ((run (fun _ => 1) 1 talliedInAdvance).state.duels 1).revealEnd = 4 ∧
      (run (fun _ => 1) 1 talliedInAdvance).state.tally 4 1 = none := by
  refine ⟨?_, by decide, by decide, rfl⟩
  intro h
  -- the first call emits a tally
  have hborn := h.initiated _ List.mem_cons_self 1 rfl
  exact absurd hborn (by decide)

end ChainBeasts.Contracts.FashionDuel
