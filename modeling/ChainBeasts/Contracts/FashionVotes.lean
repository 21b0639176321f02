import ChainBeasts.Contracts.FashionDuel

/-! # What is counted

A voter may commit as often as the window allows, and reveals once it is over: the last commitment
counts. A vote for neither side can be revealed again and again, but weighs nothing. `votes_counted`
says that the weights of a duel count its voters, each once and as committed, and that nothing
changes any more once the reveal window is over.

`keccak256` is a parameter. That it is free of collisions can only be said of the votes that occur:
there are more votes than hash values. -/

namespace ChainBeasts.Contracts.FashionDuel

open ChainBeasts.Evm ChainBeasts.Machine ChainBeasts.Clock

/-- What a commitment hides. -/
structure Vote where
  side : VoteSide
  salt : Bytes32
  deriving DecidableEq

def Vote.hash (keccak256 : Bytes → Bytes32) (vote : Vote) : Bytes32 :=
  encodeVote keccak256 vote.side vote.salt

/-- The accounts that voted for `side`. -/
def voters (s : FashionDuel) (id : U256) (side : VoteSide) : Finset Address :=
  Finset.univ.filter fun voter => s.reveals id voter = side

/-- The voter's commitment to the duel, with its block. -/
def committed (id : U256) (voter : Address) (m : Happening) : Option (U256 × Bytes32) :=
  match m.call with
  | .call ⟨sender, .commit duelId commitment⟩ =>
      if duelId = id ∧ sender = voter then some (m.pre.now, commitment) else none
  | _ => none

/-- The vote on the duel that the voter reveals. -/
def revealed (id : U256) (voter : Address) (m : Happening) : Option Vote :=
  match m.call with
  | .call ⟨sender, .reveal duelId side salt⟩ =>
      if duelId = id ∧ sender = voter then some ⟨side, salt⟩ else none
  | _ => none

/-- The commitments of the voter to the duel, in order. -/
def commits (tr : List Happening) (id : U256) (voter : Address) : List (U256 × Bytes32) :=
  tr.filterMap (committed id voter)

/-- The votes on the duel that the voter revealed, in order. -/
def votes (tr : List Happening) (id : U256) (voter : Address) : List Vote :=
  tr.filterMap (revealed id voter)

/-- The duel and what was committed to it, revealed and weighed is the same. -/
structure SameVotes (id : U256) (a b : FashionDuel) : Prop where
  commitEnd : (a.duels id).commitEnd = (b.duels id).commitEnd
  revealEnd : (a.duels id).revealEnd = (b.duels id).revealEnd
  commitments : a.commitments id = b.commitments id
  reveals : a.reveals id = b.reveals id
  weightChallenger : a.weightChallenger id = b.weightChallenger id
  weightOpponent : a.weightOpponent id = b.weightOpponent id

/-! ## What a call does to the votes -/

variable {keccak256 : Bytes → Bytes32} {s s' : FashionDuel} {block id : U256} {voter : Address}

@[simp] theorem write_self {α : Type} (m : U256 → Address → α) (id : U256) (voter : Address)
    (value : α) : write m id voter value id voter = value := by
  simp [write]

theorem write_of_ne {α : Type} {m : U256 → Address → α} {id j : U256} {voter w : Address}
    {value : α} (h : ¬ (j = id ∧ w = voter)) : write m id voter value j w = m j w := by
  by_cases hj : j = id
  · subst hj
    have hw : w ≠ voter := fun hw => h ⟨rfl, hw⟩
    simp [write, hw]
  · simp [write, hj]

theorem write_of_ne_id {α : Type} {m : U256 → Address → α} {id j : U256} {voter : Address}
    {value : α} (h : j ≠ id) : write m id voter value j = m j := by
  simp [write, h]

/-- **Everything a call can do to the votes.** It writes a commitment inside the commit window, or
reveals a vote inside the reveal window and weighs it, or leaves all votes alone. -/
theorem step_votes {tx : Tx Call} (h : s.step keccak256 block tx = some s') :
    (∃ id c, tx.call = .commit id c ∧ (s.duels id).judgeBlock ≤ block ∧
        block < (s.duels id).commitEnd ∧
        s' = { s with commitments := write s.commitments id tx.sender c }) ∨
      (∃ id side salt, tx.call = .reveal id side salt ∧ (s.duels id).commitEnd ≤ block ∧
        block < (s.duels id).revealEnd ∧
        s.commitments id tx.sender = encodeVote keccak256 side salt ∧
        s.reveals id tx.sender = .none ∧ s'.nextId = s.nextId ∧ s'.duels = s.duels ∧
        s'.commitments = s.commitments ∧
        s'.reveals = write s.reveals id tx.sender side ∧
        (∀ j, (s'.weightChallenger j).toNat = (s.weightChallenger j).toNat +
          if j = id ∧ side = .challenger then 1 else 0) ∧
        ∀ j, (s'.weightOpponent j).toNat = (s.weightOpponent j).toNat +
          if j = id ∧ side = .opponent then 1 else 0) ∨
      ((∀ id v (m : Happening), m.call = .call tx → committed id v m = none ∧ revealed id v m = none) ∧
        s'.commitments = s.commitments ∧ s'.reveals = s.reveals ∧
        s'.weightChallenger = s.weightChallenger ∧ s'.weightOpponent = s.weightOpponent) := by
  obtain ⟨sender, call⟩ := tx
  cases call with
  | initiate opponent judgeBlock commitWindow revealWindow =>
      obtain ⟨nextId, commitEnd, revealEnd, -, -, -, -, rfl⟩ := initiate_cases h
      refine Or.inr (Or.inr ⟨?_, rfl, rfl, rfl, rfl⟩)
      intro id v m hm
      rw [committed, revealed, hm]
      exact ⟨rfl, rfl⟩
  | commit id commitment =>
      obtain ⟨hjudge, hend, rfl⟩ := commit_cases h
      exact Or.inl ⟨id, commitment, rfl, hjudge, hend, rfl⟩
  | reveal id side salt =>
      obtain ⟨hend, hreveal, hcommitted, hfirst, hweigh⟩ := reveal_cases h
      refine Or.inr (Or.inl ⟨id, side, salt, rfl, hend, hreveal, hcommitted, hfirst, ?_⟩)
      obtain ⟨rfl, weight, hweight, rfl⟩ | ⟨rfl, weight, hweight, rfl⟩ | ⟨rfl, rfl⟩ :=
        weigh_cases hweigh
      · refine ⟨rfl, rfl, rfl, rfl, fun j => ?_, fun j => by simp⟩
        by_cases hj : j = id
        · simp [hj, hweight]
        · simp [hj]
      · refine ⟨rfl, rfl, rfl, rfl, fun j => by simp, fun j => ?_⟩
        by_cases hj : j = id
        · simp [hj, hweight]
        · simp [hj]
      · exact ⟨rfl, rfl, rfl, rfl, fun j => by simp, fun j => by simp⟩
  | tally id =>
      obtain ⟨-, -, rfl⟩ := tally_cases h
      refine Or.inr (Or.inr ⟨?_, rfl, rfl, rfl, rfl⟩)
      intro id v m hm
      rw [committed, revealed, hm]
      exact ⟨rfl, rfl⟩

/-! ## The books -/

/-- A commitment is the last one made, inside the window; every revealed vote is the one committed,
and was revealed after the window; a voter whose side is on record revealed it once; and the weights
count the voters. -/
structure Books (keccak256 : Bytes → Bytes32) (s : Clocked U256 FashionDuel)
    (tr : List Happening) : Prop where
  phased : s.state.Phased
  unborn : ∀ id v, ¬ s.state.Initiated id → commits tr id v = [] ∧ votes tr id v = []
  last : ∀ id v, s.state.commitments id v = ((commits tr id v).getLast?.map Prod.snd).getD 0
  window : ∀ id v, ∀ c ∈ commits tr id v,
    (s.state.duels id).judgeBlock ≤ c.1 ∧ c.1 < (s.state.duels id).commitEnd
  opened : ∀ id v, ∀ vote ∈ votes tr id v,
    s.state.commitments id v = vote.hash keccak256 ∧ (s.state.duels id).commitEnd ≤ s.now
  sides : ∀ id v, ((votes tr id v).map Vote.side).filter (· ≠ .none) =
    if s.state.reveals id v = .none then [] else [s.state.reveals id v]
  challenger : ∀ id, (s.state.weightChallenger id).toNat = (s.state.voters id .challenger).card
  opponent : ∀ id, (s.state.weightOpponent id).toNat = (s.state.voters id .opponent).card

theorem deploy_books (keccak256 : Bytes → Bytes32) (block : U256) :
    Books keccak256 ⟨block, deploy⟩ [] where
  phased := deploy_phased
  unborn _ _ _ := ⟨rfl, rfl⟩
  last _ _ := rfl
  window _ _ c hc := by cases hc
  opened _ _ vote hvote := by cases hvote
  sides _ _ := rfl
  challenger id := by simp [voters, deploy]
  opponent id := by simp [voters, deploy]

theorem commits_concat (tr : List Happening) (m : Happening) (id : U256) (v : Address) :
    commits (tr ++ [m]) id v = commits tr id v ++ (committed id v m).toList := by
  cases h : committed id v m <;> simp [commits, h]

theorem votes_concat (tr : List Happening) (m : Happening) (id : U256) (v : Address) :
    votes (tr ++ [m]) id v = votes tr id v ++ (revealed id v m).toList := by
  cases h : revealed id v m <;> simp [votes, h]

theorem commits_of_none {m : Happening} {id : U256} {v : Address} (h : committed id v m = none)
    (tr : List Happening) : commits (tr ++ [m]) id v = commits tr id v := by
  rw [commits_concat, h, Option.toList_none, List.append_nil]

theorem votes_of_none {m : Happening} {id : U256} {v : Address} (h : revealed id v m = none)
    (tr : List Happening) : votes (tr ++ [m]) id v = votes tr id v := by
  rw [votes_concat, h, Option.toList_none, List.append_nil]

/-- A move that commits for one voter of one duel. -/
theorem commits_once {m : Happening} {id : U256} {sender : Address} {c : U256 × Bytes32}
    (hcommitted : ∀ j v, committed j v m = if id = j ∧ sender = v then some c else none)
    (tr : List Happening) : commits (tr ++ [m]) id sender = commits tr id sender ++ [c] ∧
      ∀ j v, ¬ (j = id ∧ v = sender) → commits (tr ++ [m]) j v = commits tr j v := by
  constructor
  · rw [commits_concat, hcommitted, if_pos ⟨rfl, rfl⟩, Option.toList_some]
  · intro j v hne
    apply commits_of_none
    rw [hcommitted, if_neg (fun h => hne ⟨h.1.symm, h.2.symm⟩)]

theorem votes_once {m : Happening} {id : U256} {sender : Address} {vote : Vote}
    (hrevealed : ∀ j v, revealed j v m = if id = j ∧ sender = v then some vote else none)
    (tr : List Happening) : votes (tr ++ [m]) id sender = votes tr id sender ++ [vote] ∧
      ∀ j v, ¬ (j = id ∧ v = sender) → votes (tr ++ [m]) j v = votes tr j v := by
  constructor
  · rw [votes_concat, hrevealed, if_pos ⟨rfl, rfl⟩, Option.toList_some]
  · intro j v hne
    apply votes_of_none
    rw [hrevealed, if_neg (fun h => hne ⟨h.1.symm, h.2.symm⟩)]

theorem voters_write {side a : VoteSide} (hfirst : s.reveals id voter = .none)
    (hreveals : s'.reveals = write s.reveals id voter side) (ha : a ≠ .none) (j : U256) :
    (s'.voters j a).card = (s.voters j a).card + if j = id ∧ side = a then 1 else 0 := by
  rw [voters, voters, hreveals]
  by_cases hj : j = id
  · subst hj
    rw [write, Function.update_self, card_update _ _ _ _ (by rw [hfirst]; exact ha.symm)]
    simp
  · rw [write_of_ne_id hj]
    simp [hj]

section
variable {s s' : Clocked U256 FashionDuel} {tr : List Happening} {m : Happening}

/-- Commitments are made only to what is initiated. -/
theorem Books.initiated_of_commit (hs : Books keccak256 s tr) {id : U256} {v : Address}
    {c : U256 × Bytes32} (hc : c ∈ commits tr id v) : s.state.Initiated id := by
  by_contra hnot
  rw [(hs.unborn id v hnot).1] at hc
  cases hc

theorem Books.initiated_of_vote (hs : Books keccak256 s tr) {id : U256} {v : Address} {vote : Vote}
    (hvote : vote ∈ votes tr id v) : s.state.Initiated id := by
  by_contra hnot
  rw [(hs.unborn id v hnot).2] at hvote
  cases hvote

/-- A move without a vote. -/
theorem Books.quiet (hs : Books keccak256 s tr)
    (hquiet : ∀ id v, committed id v m = none ∧ revealed id v m = none) (hphased : s'.state.Phased)
    (hkept : ∀ id, s.state.Initiated id → s'.state.Initiated id) (htime : s.now ≤ s'.now)
    (hduels : ∀ id, s.state.Initiated id →
      (s'.state.duels id).judgeBlock = (s.state.duels id).judgeBlock ∧
        (s'.state.duels id).commitEnd = (s.state.duels id).commitEnd)
    (hcommitments : s'.state.commitments = s.state.commitments)
    (hreveals : s'.state.reveals = s.state.reveals)
    (hchallenger : s'.state.weightChallenger = s.state.weightChallenger)
    (hopponent : s'.state.weightOpponent = s.state.weightOpponent) :
    Books keccak256 s' (tr ++ [m]) := by
  have hcommits : ∀ id v, commits (tr ++ [m]) id v = commits tr id v := fun id v =>
    commits_of_none (hquiet id v).1 tr
  have hvotes : ∀ id v, votes (tr ++ [m]) id v = votes tr id v := fun id v =>
    votes_of_none (hquiet id v).2 tr
  refine ⟨hphased, ?_, ?_, ?_, ?_, ?_, ?_, ?_⟩
  · intro id v hid
    rw [hcommits, hvotes]
    exact hs.unborn id v (mt (hkept id) hid)
  · intro id v
    rw [hcommitments, hcommits]
    exact hs.last id v
  · intro id v c hc
    rw [hcommits] at hc
    obtain ⟨hjudge, hcommit⟩ := hduels id (hs.initiated_of_commit hc)
    rw [hjudge, hcommit]
    exact hs.window id v c hc
  · intro id v vote hvote
    rw [hvotes] at hvote
    obtain ⟨-, hcommit⟩ := hduels id (hs.initiated_of_vote hvote)
    obtain ⟨hhash, hend⟩ := hs.opened id v vote hvote
    rw [hcommitments, hcommit]
    exact ⟨hhash, BitVec.le_trans hend htime⟩
  · intro id v
    rw [hvotes, hreveals]
    exact hs.sides id v
  · intro id
    rw [hchallenger, voters, hreveals]
    exact hs.challenger id
  · intro id
    rw [hopponent, voters, hreveals]
    exact hs.opponent id

/-- A commitment replaces the one before. Nothing was revealed yet. -/
theorem Books.commit (hs : Books keccak256 s tr) {id : U256} {sender : Address} {c : Bytes32}
    (hcommitted : ∀ j v, committed j v m =
      if id = j ∧ sender = v then some (s.now, c) else none)
    (hrevealed : ∀ j v, revealed j v m = none)
    (hjudge : (s.state.duels id).judgeBlock ≤ s.now) (hend : s.now < (s.state.duels id).commitEnd) :
    Books keccak256 { s with state := { s.state with
      commitments := write s.state.commitments id sender c } } (tr ++ [m]) := by
  obtain ⟨phased, unborn, last, window, opened, sides, challenger, opponent⟩ := hs
  have hborn : s.state.Initiated id := phased.initiated_of_lt (Or.inl hend)
  have hvotes : ∀ j v, votes (tr ++ [m]) j v = votes tr j v := fun j v =>
    votes_of_none (hrevealed j v) tr
  obtain ⟨hself, hother⟩ := commits_once hcommitted tr
  refine ⟨⟨phased.positive, phased.unborn, phased.ordered⟩, ?_, ?_, ?_, ?_, ?_, challenger, opponent⟩
  · intro j v hj
    have hne : ¬ (j = id ∧ v = sender) := by
      rintro ⟨rfl, -⟩
      exact hj hborn
    rw [hother j v hne, hvotes]
    exact unborn j v hj
  · intro j v
    by_cases hjv : j = id ∧ v = sender
    · obtain ⟨rfl, rfl⟩ := hjv
      rw [hself]
      simp
    · rw [hother j v hjv]
      exact (write_of_ne hjv).trans (last j v)
  · intro j v x hx
    by_cases hjv : j = id ∧ v = sender
    · obtain ⟨rfl, rfl⟩ := hjv
      rw [hself, List.mem_append, List.mem_singleton] at hx
      rcases hx with hold | rfl
      · exact window j v x hold
      · exact ⟨hjudge, hend⟩
    · rw [hother j v hjv] at hx
      exact window j v x hx
  · intro j v vote hvote
    rw [hvotes] at hvote
    obtain ⟨hhash, hopen⟩ := opened j v vote hvote
    have hne : ¬ (j = id ∧ v = sender) := by
      rintro ⟨rfl, -⟩
      exact BitVec.not_le.mpr hend hopen
    exact ⟨(write_of_ne hne).trans hhash, hopen⟩
  · intro j v
    rw [hvotes]
    exact sides j v

/-- A vote is revealed: it is the one committed, and the first with a side. -/
theorem Books.reveal (hs : Books keccak256 s tr) {id : U256} {sender : Address} {side : VoteSide}
    {salt : Bytes32} {x : FashionDuel}
    (hcommitted : ∀ j v, committed j v m = none)
    (hrevealed : ∀ j v, revealed j v m =
      if id = j ∧ sender = v then some ⟨side, salt⟩ else none)
    (hend : (s.state.duels id).commitEnd ≤ s.now) (hreveal : s.now < (s.state.duels id).revealEnd)
    (hhash : s.state.commitments id sender = encodeVote keccak256 side salt)
    (hfirst : s.state.reveals id sender = .none) (hphased : x.Phased)
    (hnext : x.nextId = s.state.nextId) (hduels : x.duels = s.state.duels)
    (hcommitments : x.commitments = s.state.commitments)
    (hreveals : x.reveals = write s.state.reveals id sender side)
    (hchallenger : ∀ j, (x.weightChallenger j).toNat = (s.state.weightChallenger j).toNat +
      if j = id ∧ side = .challenger then 1 else 0)
    (hopponent : ∀ j, (x.weightOpponent j).toNat = (s.state.weightOpponent j).toNat +
      if j = id ∧ side = .opponent then 1 else 0) :
    Books keccak256 { s with state := x } (tr ++ [m]) := by
  obtain ⟨phased, unborn, last, window, opened, sides, challenger, opponent⟩ := hs
  have hborn : s.state.Initiated id := phased.initiated_of_lt (Or.inr hreveal)
  have hcommits : ∀ j v, commits (tr ++ [m]) j v = commits tr j v := fun j v =>
    commits_of_none (hcommitted j v) tr
  obtain ⟨hself, hother⟩ := votes_once hrevealed tr
  refine ⟨hphased, ?_, ?_, ?_, ?_, ?_, ?_, ?_⟩
  · intro j v hj
    rw [Initiated, hnext] at hj
    have hne : ¬ (j = id ∧ v = sender) := by
      rintro ⟨rfl, -⟩
      exact hj hborn
    rw [hcommits, hother j v hne]
    exact unborn j v hj
  · intro j v
    rw [hcommitments, hcommits]
    exact last j v
  · intro j v c hc
    rw [hcommits] at hc
    rw [hduels]
    exact window j v c hc
  · intro j v vote hvote
    rw [hduels, hcommitments]
    by_cases hjv : j = id ∧ v = sender
    · obtain ⟨rfl, rfl⟩ := hjv
      rw [hself, List.mem_append, List.mem_singleton] at hvote
      rcases hvote with hold | rfl
      · exact opened j v vote hold
      · exact ⟨hhash, hend⟩
    · rw [hother j v hjv] at hvote
      exact opened j v vote hvote
  · intro j v
    rw [hreveals]
    by_cases hjv : j = id ∧ v = sender
    · obtain ⟨rfl, rfl⟩ := hjv
      have hempty := sides j v
      rw [if_pos hfirst] at hempty
      rw [hself, List.map_append, List.filter_append, hempty, write_self]
      by_cases hside : side = .none
      · simp [hside]
      · simp [hside]
    · rw [hother j v hjv, write_of_ne hjv]
      exact sides j v
  · intro j
    rw [hchallenger, challenger, voters_write hfirst hreveals (by decide)]
  · intro j
    rw [hopponent, opponent, voters_write hfirst hreveals (by decide)]

theorem Books.step (hs : Books keccak256 s tr) {tx : Tx Call} {x : FashionDuel}
    (h : s.state.step keccak256 s.now tx = some x) :
    Books keccak256 { s with state := x } (tr ++ [⟨s, .call tx, { s with state := x }⟩]) := by
  obtain ⟨hphased, hkept⟩ := hs.phased.step h
  obtain ⟨id, c, hcall, hjudge, hend, rfl⟩ | ⟨id, side, salt, hcall, hend, hreveal, hhash, hfirst,
    hnext, hduels, hcommitments, hreveals, hchallenger, hopponent⟩ | ⟨hquiet, hcommitments, hreveals,
    hchallenger, hopponent⟩ := step_votes h
  · obtain ⟨sender, call⟩ := tx
    cases hcall
    exact hs.commit (fun _ _ => rfl) (fun _ _ => rfl) hjudge hend
  · obtain ⟨sender, call⟩ := tx
    cases hcall
    exact hs.reveal (fun _ _ => rfl) (fun _ _ => rfl) hend hreveal hhash hfirst hphased hnext hduels
      hcommitments hreveals hchallenger hopponent
  · refine hs.quiet (fun id v => hquiet id v _ rfl) hphased hkept (BitVec.le_refl _) ?_
      hcommitments hreveals hchallenger hopponent
    intro id hid
    obtain ⟨hjudge, hcommit, -⟩ := step_windows h hid
    exact ⟨hjudge, hcommit⟩

theorem run_books (keccak256 : Bytes → Bytes32) (block : U256) (evs : List (Event U256 (Tx Call))) :
    Books keccak256 (run keccak256 block evs) (moves keccak256 block evs) := by
  refine clock_induction (deploy_books keccak256 block) ?_ ?_ evs
  · intro s tr now hs hle
    exact hs.quiet (fun _ _ => ⟨rfl, rfl⟩) hs.phased (fun _ h => h) hle (fun _ _ => ⟨rfl, rfl⟩) rfl
      rfl rfl rfl
  · intro s tr tx x hs h
    exact hs.step h

end

/-! ## Nothing changes after the reveal window -/

theorem SameVotes.refl (id : U256) (a : FashionDuel) : SameVotes id a a :=
  ⟨rfl, rfl, rfl, rfl, rfl, rfl⟩

theorem SameVotes.trans {a b c : FashionDuel} (hab : SameVotes id a b) (hbc : SameVotes id b c) :
    SameVotes id a c where
  commitEnd := hab.commitEnd.trans hbc.commitEnd
  revealEnd := hab.revealEnd.trans hbc.revealEnd
  commitments := hab.commitments.trans hbc.commitments
  reveals := hab.reveals.trans hbc.reveals
  weightChallenger := hab.weightChallenger.trans hbc.weightChallenger
  weightOpponent := hab.weightOpponent.trans hbc.weightOpponent

/-- **One call** from `revealEnd` on leaves the votes of the duel alone. -/
theorem step_sameVotes {s s' : FashionDuel} {tx : Tx Call} (hs : s.Phased)
    (h : s.step keccak256 block tx = some s') (hid : s.Initiated id)
    (hover : (s.duels id).revealEnd ≤ block) : SameVotes id s s' := by
  obtain ⟨-, hcommitEnd, hrevealEnd⟩ := step_windows h hid
  obtain ⟨j, c, -, -, hend, rfl⟩ | ⟨j, side, salt, -, -, hend, -, -, -, -, hcommitments, hreveals,
    hchallenger, hopponent⟩ | ⟨-, hcommitments, hreveals, hchallenger, hopponent⟩ := step_votes h
  · have hne : id ≠ j := by
      rintro rfl
      have hcommit := BitVec.le_trans (hs.ordered id).2 hover
      exact BitVec.not_le.mpr hend hcommit
    exact ⟨rfl, rfl, (write_of_ne_id hne).symm, rfl, rfl, rfl⟩
  · have hne : id ≠ j := by
      rintro rfl
      exact BitVec.not_le.mpr hend hover
    refine ⟨hcommitEnd.symm, hrevealEnd.symm, by rw [hcommitments], ?_, ?_, ?_⟩
    · rw [hreveals, write_of_ne_id hne]
    · apply BitVec.eq_of_toNat_eq
      rw [hchallenger, if_neg (fun h => hne h.1), Nat.add_zero]
    · apply BitVec.eq_of_toNat_eq
      rw [hopponent, if_neg (fun h => hne h.1), Nat.add_zero]
  · exact ⟨hcommitEnd.symm, hrevealEnd.symm, by rw [hcommitments], by rw [hreveals],
      by rw [hchallenger], by rw [hopponent]⟩

theorem run_sameVotes {s : Clocked U256 FashionDuel} (hs : s.state.Phased)
    (hid : s.state.Initiated id) (hover : (s.state.duels id).revealEnd ≤ s.now)
    (more : List (Event U256 (Tx Call))) :
    SameVotes id s.state (Clock.run (step keccak256) s more).state := by
  refine (clock_invariant (P := fun t x => x.Phased ∧ x.Initiated id ∧
    (x.duels id).revealEnd ≤ t ∧ SameVotes id s.state x) ?_ ?_ ?_ more).2.2.2
  · exact ⟨hs, hid, hover, SameVotes.refl id _⟩
  · rintro t t' x ⟨hx, hidx, hend, hsame⟩ hle
    exact ⟨hx, hidx, BitVec.le_trans hend hle, hsame⟩
  · rintro t x tx x' ⟨hx, hidx, hend, hsame⟩ hstep
    obtain ⟨hx', hkept⟩ := hx.step hstep
    have hnext := step_sameVotes hx hstep hidx hend
    refine ⟨hx', hkept id hidx, ?_, hsame.trans hnext⟩
    rw [← hnext.revealEnd]
    exact hend

/-! ## Every vote is counted as committed -/

/-- The weights count the voters of their side; every one of them revealed the vote whose hash was
the last commitment, made inside the window, and no other vote of `K` has that hash; nobody is
counted twice. -/
structure VotesCounted (keccak256 : Bytes → Bytes32) (K : Set Vote) (s : Clocked U256 FashionDuel)
    (tr : List Happening) (id : U256) : Prop where
  challenger : (s.state.weightChallenger id).toNat = (s.state.voters id .challenger).card
  opponent : (s.state.weightOpponent id).toNat = (s.state.voters id .opponent).card
  asCommitted : ∀ v, s.state.reveals id v ≠ .none → ∃ block, ∃ vote ∈ votes tr id v,
    vote.side = s.state.reveals id v ∧
      (commits tr id v).getLast? = some (block, vote.hash keccak256) ∧
      (s.state.duels id).judgeBlock ≤ block ∧ block < (s.state.duels id).commitEnd ∧
      ∀ other ∈ K, other.hash keccak256 = vote.hash keccak256 → other = vote
  once : ∀ v, ((votes tr id v).filter fun vote => vote.side ≠ .none).length ≤ 1

theorem Books.votesCounted {s : Clocked U256 FashionDuel} {tr : List Happening}
    (hs : Books keccak256 s tr) {K : Set Vote} (hinj : Set.InjOn (Vote.hash keccak256) K)
    (hzero : ∀ vote ∈ K, vote.hash keccak256 ≠ 0) (hrun : ∀ v, ∀ vote ∈ votes tr id v, vote ∈ K) :
    VotesCounted keccak256 K s tr id := by
  refine ⟨hs.challenger id, hs.opponent id, ?_, ?_⟩
  · intro v hside
    have hsides := hs.sides id v
    rw [if_neg hside] at hsides
    have hmem : s.state.reveals id v ∈ ((votes tr id v).map Vote.side).filter (· ≠ .none) := by
      rw [hsides]
      exact List.mem_singleton_self _
    obtain ⟨vote, hvote, hname⟩ := List.mem_map.mp (List.mem_filter.mp hmem).1
    obtain ⟨hhash, -⟩ := hs.opened id v vote hvote
    have hlast := hs.last id v
    cases hc : (commits tr id v).getLast? with
    | none =>
        -- without a commitment the hash would be zero
        rw [hc, hhash] at hlast
        exact absurd hlast (hzero vote (hrun v vote hvote))
    | some c =>
        obtain ⟨block, commitment⟩ := c
        have hcommitment : commitment = vote.hash keccak256 := by
          rw [hc, hhash] at hlast
          exact hlast.symm
        obtain ⟨hjudge, hend⟩ := hs.window id v _ (List.mem_of_getLast? hc)
        refine ⟨block, vote, hvote, hname, by rw [hcommitment], hjudge, hend, ?_⟩
        intro other hother hsame
        exact hinj hother (hrun v vote hvote) hsame
  · intro v
    have hsides := congrArg List.length (hs.sides id v)
    rw [List.filter_map, List.length_map] at hsides
    apply (Nat.le_of_eq hsides).trans
    split
    · exact Nat.zero_le _
    · exact Nat.le_refl _

/-- **Votes are counted.** In every run in which `keccak256` does not collide on the votes of `K`
and is never zero there, as long as only votes of `K` are revealed: an initiated duel has its votes
counted, and they never change from `revealEnd` on. -/
theorem votes_counted (keccak256 : Bytes → Bytes32) (K : Set Vote)
    (hinj : Set.InjOn (Vote.hash keccak256) K) (hzero : ∀ vote ∈ K, vote.hash keccak256 ≠ 0)
    (block : U256) (evs : List (Event U256 (Tx Call)))
    (hrun : ∀ sender duelId side salt,
      .call ⟨sender, .reveal duelId side salt⟩ ∈ evs → ⟨side, salt⟩ ∈ K)
    (id : U256) (hid : (run keccak256 block evs).state.Initiated id) :
    VotesCounted keccak256 K (run keccak256 block evs) (moves keccak256 block evs) id ∧
      (((run keccak256 block evs).state.duels id).revealEnd ≤ (run keccak256 block evs).now →
        ∀ more, SameVotes id (run keccak256 block evs).state
          (run keccak256 block (evs ++ more)).state) := by
  have hs := run_books keccak256 block evs
  refine ⟨hs.votesCounted hinj hzero ?_, ?_⟩
  · intro v vote hvote
    obtain ⟨m, hm, hrevealed⟩ := List.mem_filterMap.mp hvote
    have hcall := mem_of_mem_trace hm
    unfold revealed at hrevealed
    split at hrevealed
    · next sender duelId side salt heq =>
        obtain ⟨-, hvote⟩ := Option.ite_none_right_eq_some.mp hrevealed
        cases hvote
        rw [heq] at hcall
        exact hrun sender duelId side salt hcall
    · cases hrevealed
  · intro hover more
    have happend : run keccak256 block (evs ++ more) =
        Clock.run (step keccak256) (run keccak256 block evs) more := run_append _ _ _ _
    rw [happend]
    exact run_sameVotes hs.phased hid hover more

/-- A digest for a concrete run. -/
def sampleDigest (bs : Bytes) : Bytes32 :=
  BitVec.ofNat 256 (bs.foldl (fun acc b => acc * 257 + b.toNat + 1) 0)

/-- Account 9 commits to the challenger of duel 1 and reveals. -/
def oneVote : List (Event U256 (Tx Call)) :=
  [.call ⟨7, .initiate 8 2 1 1⟩, .tick 2, .call ⟨9, .commit 1 (encodeVote sampleDigest .challenger 5)⟩,
    .tick 3, .call ⟨9, .reveal 1 .challenger 5⟩, .tick 4]

theorem votes_counted_one :
    VotesCounted sampleDigest {⟨.challenger, 5⟩} (run sampleDigest 1 oneVote)
        (moves sampleDigest 1 oneVote) 1 ∧
      ((run sampleDigest 1 oneVote).state.weightChallenger 1) = 1 := by
  have hzero : ∀ vote ∈ ({⟨.challenger, 5⟩} : Set Vote), vote.hash sampleDigest ≠ 0 := by
    rintro vote rfl
    decide
  have hrun : ∀ sender duelId side salt, .call ⟨sender, .reveal duelId side salt⟩ ∈ oneVote →
      (⟨side, salt⟩ : Vote) ∈ ({⟨.challenger, 5⟩} : Set Vote) := by
    simp [oneVote]
  exact ⟨(votes_counted sampleDigest _ (Set.injOn_singleton _ _) hzero 1 oneVote hrun 1
    (by decide +kernel)).1, by decide +kernel⟩

end ChainBeasts.Contracts.FashionDuel
