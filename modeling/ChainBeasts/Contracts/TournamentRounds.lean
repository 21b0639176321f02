import ChainBeasts.Contracts.TournamentPrizes

/-! # Rounds

`reportWinners` looks every winner up among the players, one by one. So the players left are always
players of the round before, but a report may name one of them several times, or all of them again,
and the bracket need not get smaller. `rounds_shrink_iff` says when it does, and that it is then
finished in time. -/

namespace ChainBeasts.Contracts.Tournament

open ChainBeasts.Evm ChainBeasts.Machine

/-- How many rounds of the bracket were reported. -/
def rounds (tr : List (Move World Event)) (id : U256) : Nat :=
  (tr.filterMap reported).countP fun r => r.1 = id

/-- Every round of a bracket created without duplicates leaves fewer of its players, each once, and
a bracket of `n` players is finished after at most `n - 1` rounds. -/
structure RoundsShrink (s : World) (tr : List (Move World Event)) : Prop where
  shrinks : ∀ c ∈ creations tr, c.players.Nodup → ∀ m ∈ tr, ∀ winners,
    reported m = some (c.id, winners) →
      (m.post.bracket c.id).players.Nodup ∧
        (∀ p ∈ (m.post.bracket c.id).players, p ∈ (m.pre.bracket c.id).players) ∧
        (m.post.bracket c.id).players.length < (m.pre.bracket c.id).players.length
  finishes : ∀ c ∈ creations tr, c.players.Nodup → c.players.length - 1 ≤ rounds tr c.id →
    (s.bracket c.id).finished = true

/-- The reports on brackets created without duplicates name nobody twice, and fewer than are left. -/
def NamesFewer (tr : List (Move World Event)) : Prop :=
  ∀ c ∈ creations tr, c.players.Nodup → ∀ m ∈ tr, ∀ winners, reported m = some (c.id, winners) →
    winners.Nodup ∧ winners.length < (m.pre.bracket c.id).players.length

/-! ## What a round does to the players -/

variable {this : Address} {s s' : World} {ev : Event} {tr : List (Move World Event)}
  {m : Move World Event}

theorem rounds_concat (tr : List (Move World Event)) (m : Move World Event) (id : U256) :
    rounds (tr ++ [m]) id =
      rounds tr id + if (reported m).any (fun r => r.1 = id) then 1 else 0 := by
  cases h : reported m with
  | none => simp [rounds, h]
  | some r => simp [rounds, h, List.countP_cons]

theorem payPrize_tour {accepts : Bool} {id prize : U256} {winner : Address}
    (h : s.payPrize this accepts id winner prize = some s') : s'.tour = s.tour := by
  obtain ⟨-, rfl⟩ | ⟨-, -, -, ether, -, rfl⟩ := World.payPrize_cases h
  · rfl
  · rfl

/-- The players of the bracket are now the winners, who were among them, and no other bracket
changes. With several winners it goes on. -/
theorem reportWinners_players {accepts : Bool} {id : U256} {winners : List Address}
    (h : s.reportWinners this accepts id winners = some s') :
    (s'.bracket id).players = winners ∧ (∀ w ∈ winners, w ∈ (s.bracket id).players) ∧
      winners ≠ [] ∧ ((s'.bracket id).finished = false → 1 < winners.length) ∧
      (∀ j, j ≠ id → s'.bracket j = s.bracket j) ∧
      s'.tour.nextBracketId = s.tour.nextBracketId := by
  obtain ⟨-, hvalid, ⟨hmany, rfl⟩ | ⟨winner, rfl, hpay⟩⟩ := World.reportWinners_cases h
  · refine ⟨?_, hvalid, ?_, fun _ => hmany, fun j hj => World.setBracket_of_ne hj, rfl⟩
    · rw [World.setBracket_self]
    · rintro rfl
      cases hmany
  · have htour := payPrize_tour hpay
    have hbracket : s'.bracket id = ⟨[winner], 0, true, winner⟩ := by
      rw [World.bracket, htour]
      exact Function.update_self _ _ _
    refine ⟨by rw [hbracket], hvalid, List.cons_ne_nil _ _, ?_, ?_, by rw [htour]; rfl⟩
    · rw [hbracket]
      intro hopen
      cases hopen
    · intro j hj
      rw [World.bracket, htour]
      exact Function.update_of_ne hj _ _

/-- What is left of the players, and the rounds so far. -/
structure Played (s : World) (tr : List (Move World Event)) : Prop where
  known : ∀ m ∈ tr, ∀ id winners, reported m = some (id, winners) → id < s.tour.nextBracketId
  replaced : ∀ m ∈ tr, ∀ id winners, reported m = some (id, winners) →
    (m.post.bracket id).players = winners ∧ ∀ w ∈ winners, w ∈ (m.pre.bracket id).players
  several : ∀ c ∈ creations tr, (s.bracket c.id).finished = false →
    1 < (s.bracket c.id).players.length
  shrunk : NamesFewer tr → ∀ c ∈ creations tr, c.players.Nodup →
    (s.bracket c.id).players.length + rounds tr c.id ≤ c.players.length

theorem NamesFewer.of_concat (h : NamesFewer (tr ++ [m])) : NamesFewer tr := by
  intro c hc hnodup m' hm'
  apply h c _ hnodup m' (List.mem_append_left _ hm')
  rw [creations_concat]
  exact List.mem_append_left _ hc

theorem start_played (this : Address) (ether : Address → Nat) : Played (start this ether) [] where
  known m hm := by cases hm
  replaced m hm := by cases hm
  several c hc := by cases hc
  shrunk _ c hc := by cases hc

theorem rounds_of_unborn (hs : Played s tr) {id : U256} (hid : s.tour.nextBracketId ≤ id) :
    rounds tr id = 0 := by
  rw [rounds, List.countP_eq_zero]
  intro r hr heq
  obtain ⟨m, hm, hreported⟩ := List.mem_filterMap.mp hr
  obtain ⟨j, winners⟩ := r
  obtain rfl : j = id := of_decide_eq_true heq
  exact BitVec.not_le.mpr (hs.known m hm j winners hreported) hid

/-- An event that reports no round adds nothing to what holds of the reports. -/
theorem forall_reported (hm : reported m = none)
    {P : Move World Event → U256 → List Address → Prop}
    (h : ∀ m ∈ tr, ∀ id winners, reported m = some (id, winners) → P m id winners) :
    ∀ m' ∈ tr ++ [m], ∀ id winners, reported m' = some (id, winners) → P m' id winners := by
  refine List.forall_mem_append.mpr ⟨h, List.forall_mem_singleton.mpr ?_⟩
  intro id winners hsome
  rw [hm] at hsome
  cases hsome

/-- An event that reports no round. -/
theorem Played.quiet (hs : Played s tr) (hm : reported m = none) (hcreated : created m = none)
    (hnext : s'.tour.nextBracketId = s.tour.nextBracketId)
    (hbrackets : s'.tour.brackets = s.tour.brackets) : Played s' (tr ++ [m]) := by
  obtain ⟨known, replaced, several, shrunk⟩ := hs
  have hsame : creations (tr ++ [m]) = creations tr := creations_of_none hcreated
  have hbracket : ∀ id, s'.bracket id = s.bracket id := fun id => congrFun hbrackets id
  refine ⟨?_, forall_reported hm replaced, ?_, ?_⟩
  · rw [hnext]
    exact forall_reported hm known
  · intro c hc
    rw [hsame] at hc
    rw [hbracket]
    exact several c hc
  · intro hfewer c hc
    rw [hsame] at hc
    rw [hbracket, rounds_concat, hm]
    exact shrunk hfewer.of_concat c hc

/-- A bracket is created; no round of it was reported before. -/
theorem Played.createBracket (hs : Played s tr) (hbooks : Books this s tr) {sender : Address}
    {value : U256} {players : List Address} (hm : reported m = none)
    (hcreated : created m = some ⟨s.tour.nextBracketId, players, value⟩)
    (h : s.createBracket this sender value players = some s') : Played s' (tr ++ [m]) := by
  have hunborn := rounds_of_unborn hs (BitVec.le_refl s.tour.nextBracketId)
  obtain ⟨known, replaced, several, shrunk⟩ := hs
  obtain ⟨hempty, -⟩ := hbooks.unborn s.tour.nextBracketId (BitVec.le_refl _)
  obtain ⟨hbracket, hkept, hlt⟩ := World.createBracket_born h hempty
  obtain ⟨-, -, -, hplayers, -⟩ := World.createBracket_cases h
  have hother : ∀ c ∈ creations tr, s'.bracket c.id = s.bracket c.id := by
    intro c hc
    apply hkept
    intro heq
    have hc' := hbooks.born c hc
    rw [heq] at hc'
    exact BitVec.lt_irrefl _ hc'
  have hlast : creations (tr ++ [m]) = creations tr ++ [⟨s.tour.nextBracketId, players, value⟩] :=
    creations_of_some hcreated
  have hrounds : ∀ id, rounds (tr ++ [m]) id = rounds tr id := by
    intro id
    rw [rounds_concat, hm]
    rfl
  refine ⟨?_, forall_reported hm replaced, ?_, ?_⟩
  · refine forall_reported hm ?_
    intro m' hm' id winners hsome
    exact (hlt id).mpr (Or.inl (known m' hm' id winners hsome))
  · rw [hlast]
    refine List.forall_mem_append.mpr ⟨fun c hc => ?_, List.forall_mem_singleton.mpr fun _ => ?_⟩
    · rw [hother c hc]
      exact several c hc
    · rw [hbracket]
      exact hplayers
  · intro hfewer
    rw [hlast]
    refine List.forall_mem_append.mpr ⟨fun c hc => ?_, List.forall_mem_singleton.mpr fun _ => ?_⟩
    · rw [hother c hc, hrounds]
      exact shrunk hfewer.of_concat c hc
    · rw [hbracket, hrounds, hunborn]
      exact Nat.le_refl _

/-- A round is reported. -/
theorem Played.reportWinners (hs : Played s tr) (hbooks : Books this s tr) {accepts : Bool}
    {id : U256} {winners : List Address} (hm : reported m = some (id, winners))
    (hcreated : created m = none) (hpre : m.pre = s) (hpost : m.post = s')
    (h : s.reportWinners this accepts id winners = some s') : Played s' (tr ++ [m]) := by
  obtain ⟨known, replaced, several, shrunk⟩ := hs
  obtain ⟨hplayers, hvalid, hsome, hopen, hother, hnext⟩ := reportWinners_players h
  have hborn : id < s.tour.nextBracketId := by
    obtain ⟨w, hw⟩ := List.exists_mem_of_ne_nil winners hsome
    exact hbooks.born_of_player (hvalid w hw)
  have hsame : creations (tr ++ [m]) = creations tr := creations_of_none hcreated
  refine ⟨?_, ?_, ?_, ?_⟩
  · rw [hnext]
    refine List.forall_mem_append.mpr ⟨known, List.forall_mem_singleton.mpr ?_⟩
    intro j winners' hj
    rw [hm] at hj
    cases hj
    exact hborn
  · refine List.forall_mem_append.mpr ⟨replaced, List.forall_mem_singleton.mpr ?_⟩
    intro j winners' hj
    rw [hm] at hj
    cases hj
    rw [hpre, hpost]
    exact ⟨hplayers, hvalid⟩
  · intro c hc hunfinished
    rw [hsame] at hc
    by_cases hid : c.id = id
    · rw [hid] at hunfinished ⊢
      rw [hplayers]
      exact hopen hunfinished
    · rw [hother _ hid] at hunfinished ⊢
      exact several c hc hunfinished
  · intro hfewer c hc hnodup
    have hold := shrunk hfewer.of_concat c (by rwa [hsame] at hc) hnodup
    rw [rounds_concat, hm]
    by_cases hid : c.id = id
    · -- the round takes at least one player away
      obtain ⟨-, hlt⟩ := hfewer c hc hnodup m (by simp) winners (by rw [hm, hid])
      rw [hpre, hid] at hlt
      rw [hid] at hold ⊢
      simp only [Option.any_some, decide_true, if_true]
      rw [hplayers]
      omega
    · have hne : ¬ id = c.id := fun heq => hid heq.symm
      simp only [Option.any_some, hne, decide_false, Bool.false_eq_true, if_false]
      rw [hother _ hid]
      exact hold

theorem run_played (this : Address) (ether : Address → Nat) (evs : List Event) :
    Played (run this ether evs) (moves this ether evs) := by
  refine (trace_run_induction (P := fun s tr => Books this s tr ∧ Played s tr) ?_ ?_ evs).2
  · exact ⟨start_books this ether, start_played this ether⟩
  · rintro s tr ev s' ⟨hbooks, hs⟩ h
    refine ⟨hbooks.step h, ?_⟩
    obtain ⟨sender, value, players, rfl, -, hcreate⟩ | ⟨sender, accepts, id, winners, rfl,
      hreport⟩ | ⟨hquiet, hnext, hbrackets, -⟩ := step_cases h
    · exact hs.createBracket hbooks rfl rfl hcreate
    · exact hs.reportWinners hbooks rfl rfl rfl rfl hreport
    · obtain ⟨hcreated, hreported⟩ := hquiet ⟨s, ev, s'⟩ rfl
      exact hs.quiet hreported hcreated hnext hbrackets

/-! ## When brackets shrink -/

/-- **When rounds shrink.** In every run they do, and brackets are finished in time, exactly when no
accepted report on a bracket created without duplicates names a player twice or as many players as
are left. -/
theorem rounds_shrink_iff (this : Address) (ether : Address → Nat) (evs : List Event) :
    RoundsShrink (run this ether evs) (moves this ether evs) ↔ NamesFewer (moves this ether evs) := by
  have hs := run_played this ether evs
  constructor
  · intro h c hc hnodup m hm winners hreported
    obtain ⟨hdistinct, -, hfewer⟩ := h.shrinks c hc hnodup m hm winners hreported
    rw [(hs.replaced m hm c.id winners hreported).1] at hdistinct hfewer
    exact ⟨hdistinct, hfewer⟩
  · intro h
    refine ⟨?_, ?_⟩
    · intro c hc hnodup m hm winners hreported
      obtain ⟨hplayers, hvalid⟩ := hs.replaced m hm c.id winners hreported
      rw [hplayers]
      obtain ⟨hdistinct, hfewer⟩ := h c hc hnodup m hm winners hreported
      exact ⟨hdistinct, hvalid, hfewer⟩
    · intro c hc hnodup hrounds
      by_contra hopen
      have hseveral := hs.several c hc (Bool.eq_false_of_not_eq_true hopen)
      have hleft := hs.shrunk h c hc hnodup
      omega

/-- A bracket of two players, and a report that names one of them three times. -/
def tripled : List Event :=
  [.call ⟨7, .createBracket 0 [1, 2]⟩, .call ⟨7, .reportWinners true 0 [1, 1, 1]⟩]

/-- The bracket has three players after its round and is not finished. -/
theorem tripled_grows :
    ¬ RoundsShrink (run 100 (fun _ => 0) tripled) (moves 100 (fun _ => 0) tripled) ∧
      ((run 100 (fun _ => 0) tripled).bracket 0).players = [1, 1, 1] ∧
      ((run 100 (fun _ => 0) tripled).bracket 0).finished = false := by
  refine ⟨?_, by decide, by decide⟩
  intro h
  have hopen := h.finishes ⟨0, [1, 2], 0⟩ (by decide) (by decide) (by decide)
  exact absurd hopen (by decide)

end ChainBeasts.Contracts.Tournament
