import ChainBeasts.Contracts.Tournament

/-! # The prize money

Every bracket holds its prize until it is finished, and then has paid it out once, in full, to its
winner. So the ether of the contract is what the running brackets hold (`prizes_conserved`). -/

namespace ChainBeasts.Contracts.Tournament

open ChainBeasts.Evm ChainBeasts.Machine

/-- What was paid out for a bracket. -/
def World.payments (s : World) (id : U256) : List PrizePaid := s.paid.filter fun p => p.id = id

/-- The prize pools of all brackets together. -/
def pool (brackets : U256 → Bracket) : Nat := ∑ id, (brackets id).prizePool.toNat

/-- The account of one bracket: it holds its prize and has paid nothing, or it is finished, holds
nothing and has paid its prize, if there is one, to its winner. -/
inductive Account (s : World) (c : Creation) : Prop
  | running (open_ : (s.bracket c.id).finished = false)
      (holds : (s.bracket c.id).prizePool = c.prize)
      (players : ∀ p ∈ (s.bracket c.id).players, p ∈ c.players) (unpaid : s.payments c.id = [])
  | finished (done : (s.bracket c.id).finished = true) (empty : (s.bracket c.id).prizePool = 0)
      (winner : (s.bracket c.id).winner ∈ c.players)
      (paid : s.payments c.id =
        if 0 < c.prize then [⟨c.id, (s.bracket c.id).winner, c.prize⟩] else [])

/-- The log grows by the payouts the contract makes, at most one with each event. -/
def PaysOut (this : Address) (m : Move World Event) : Prop :=
  m.post.paid = m.pre.paid ∨
    ∃ p, m.post.paid = m.pre.paid ++ [p] ∧ ∀ a, m.post.ether a + share this p.amount.toNat a =
      m.pre.ether a + share p.winner p.amount.toNat a

structure Books (this : Address) (s : World) (tr : List (Move World Event)) : Prop where
  born : ∀ c ∈ creations tr, c.id < s.tour.nextBracketId
  unborn : ∀ id, s.tour.nextBracketId ≤ id → s.bracket id = .empty ∧ s.payments id = []
  ids : ((creations tr).map Creation.id).Nodup
  accounts : ∀ c ∈ creations tr, Account s c
  balance : s.ether this = pool s.tour.brackets
  payouts : ∀ m ∈ tr, PaysOut this m

variable {this : Address} {s s' : World} {ev : Event} {tr : List (Move World Event)}

theorem pool_update (brackets : U256 → Bracket) (id : U256) (b : Bracket) :
    pool (Function.update brackets id b) + (brackets id).prizePool.toNat =
      pool brackets + b.prizePool.toNat :=
  sum_update (fun _ (b : Bracket) => b.prizePool.toNat) brackets id b

theorem payments_concat (s : World) (tour : Tournament) (ether : Address → Nat) (p : PrizePaid)
    (id : U256) : (⟨tour, ether, s.paid ++ [p]⟩ : World).payments id =
      s.payments id ++ if p.id = id then [p] else [] := by
  rw [World.payments, World.payments, List.filter_append]
  by_cases h : p.id = id
  · simp [h]
  · simp [h]

/-! ## The books -/

theorem start_books (this : Address) (ether : Address → Nat) : Books this (start this ether) [] where
  born c hc := by cases hc
  unborn _ _ := ⟨rfl, rfl⟩
  ids := List.nodup_nil
  accounts c hc := by cases hc
  balance := by simp [start, pool, deploy, Bracket.empty]
  payouts m hm := by cases hm

/-- An account that nothing touched. -/
theorem Account.of_eq {c : Creation} (h : Account s c) (hbracket : s'.bracket c.id = s.bracket c.id)
    (hpayments : s'.payments c.id = s.payments c.id) : Account s' c := by
  cases h with
  | running open_ holds players unpaid =>
      rw [← hbracket] at open_ holds players
      exact .running open_ holds players (hpayments.trans unpaid)
  | finished done empty winner paid =>
      rw [← hbracket] at done empty winner paid
      exact .finished done empty winner (hpayments.trans paid)

/-- What has players was created. -/
theorem Books.born_of_player (hs : Books this s tr) {id : U256} {p : Address}
    (hp : p ∈ (s.bracket id).players) : id < s.tour.nextBracketId := by
  by_contra hnot
  rw [(hs.unborn id (BitVec.not_lt.mp hnot)).1] at hp
  cases hp

/-- An event that creates no bracket: the accounts have to be right again. -/
theorem Books.keep (hs : Books this s tr) {m : Move World Event} (hm : created m = none)
    (hnext : s'.tour.nextBracketId = s.tour.nextBracketId)
    (hunborn : ∀ id, s.tour.nextBracketId ≤ id →
      s'.bracket id = s.bracket id ∧ s'.payments id = s.payments id)
    (haccounts : ∀ c ∈ creations tr, Account s' c) (hbalance : s'.ether this = pool s'.tour.brackets)
    (hpays : PaysOut this m) : Books this s' (tr ++ [m]) := by
  obtain ⟨born, unborn, ids, -, -, payouts⟩ := hs
  have hsame : creations (tr ++ [m]) = creations tr := creations_of_none hm
  refine ⟨?_, ?_, ?_, ?_, hbalance, ?_⟩
  · rw [hsame, hnext]
    exact born
  · intro id hid
    rw [hnext] at hid
    obtain ⟨hbracket, hpayments⟩ := hunborn id hid
    rw [hbracket, hpayments]
    exact unborn id hid
  · rw [hsame]
    exact ids
  · rw [hsame]
    exact haccounts
  · exact List.forall_mem_append.mpr ⟨payouts, List.forall_mem_singleton.mpr hpays⟩

/-- An event that creates no bracket and reports no round. -/
theorem Books.quiet (hs : Books this s tr) {m : Move World Event} (hm : created m = none)
    (hpre : m.pre = s) (hpost : m.post = s') (hnext : s'.tour.nextBracketId = s.tour.nextBracketId)
    (hbrackets : s'.tour.brackets = s.tour.brackets) (hether : s'.ether this = s.ether this)
    (hpaid : s'.paid = s.paid) : Books this s' (tr ++ [m]) := by
  have hbracket : ∀ id, s'.bracket id = s.bracket id := fun id => congrFun hbrackets id
  have hpayments : ∀ id, s'.payments id = s.payments id := fun id => by
    rw [World.payments, World.payments, hpaid]
  refine hs.keep hm hnext (fun id _ => ⟨hbracket id, hpayments id⟩) ?_ ?_ (Or.inl ?_)
  · intro c hc
    exact (hs.accounts c hc).of_eq (hbracket _) (hpayments _)
  · rw [hether, hbrackets]
    exact hs.balance
  · rw [hpre, hpost]
    exact hpaid

/-- A bracket is created: it holds what its creator paid. -/
theorem Books.createBracket (hs : Books this s tr) {m : Move World Event} {sender : Address}
    {value : U256} {players : List Address}
    (hm : created m = some ⟨s.tour.nextBracketId, players, value⟩) (hpre : m.pre = s)
    (hpost : m.post = s') (hsender : sender ≠ this)
    (h : s.createBracket this sender value players = some s') : Books this s' (tr ++ [m]) := by
  obtain ⟨born, unborn, ids, accounts, balance, payouts⟩ := hs
  -- nothing is known of the next id yet
  obtain ⟨hempty, hunpaid⟩ := unborn s.tour.nextBracketId (BitVec.le_refl _)
  obtain ⟨hbracket, hother, hlt⟩ := World.createBracket_born h hempty
  obtain ⟨ether, nextBracketId, hpay, -, -, hs'⟩ := World.createBracket_cases h
  rw [hempty] at hs'
  have hpayments : ∀ id, s'.payments id = s.payments id := fun id => by rw [hs']; rfl
  have hlast : creations (tr ++ [m]) = creations tr ++ [⟨s.tour.nextBracketId, players, value⟩] :=
    creations_of_some hm
  have hold : ∀ c ∈ creations tr, c.id ≠ s.tour.nextBracketId := by
    intro c hc heq
    have hc' := born c hc
    rw [heq] at hc'
    exact BitVec.lt_irrefl _ hc'
  refine ⟨?_, ?_, ?_, ?_, ?_, ?_⟩
  · rw [hlast]
    refine List.forall_mem_append.mpr ⟨fun c hc => (hlt _).mpr (Or.inl (born c hc)), ?_⟩
    exact List.forall_mem_singleton.mpr ((hlt _).mpr (Or.inr rfl))
  · intro id hid
    obtain ⟨hle, hne⟩ := not_or.mp (mt (hlt id).mpr (BitVec.not_lt.mpr hid))
    rw [hother id hne, hpayments]
    exact unborn id (BitVec.not_lt.mp hle)
  · rw [hlast, List.map_append, List.nodup_append]
    refine ⟨ids, List.nodup_singleton _, ?_⟩
    intro id hid id' hid' heq
    obtain ⟨c, hc, rfl⟩ := List.mem_map.mp hid
    rw [List.map_singleton, List.mem_singleton] at hid'
    exact hold c hc (heq.trans hid')
  · rw [hlast]
    refine List.forall_mem_append.mpr ⟨?_, List.forall_mem_singleton.mpr ?_⟩
    · intro c hc
      exact (accounts c hc).of_eq (hother _ (hold c hc)) (hpayments _)
    · refine .running ?_ ?_ ?_ ((hpayments _).trans hunpaid)
      · rw [hbracket]
      · rw [hbracket]
      · rw [hbracket]
        exact fun p hp => hp
  · have hthis := (pay_moves hpay).payee (Ne.symm hsender)
    have hpool := pool_update s.tour.brackets s.tour.nextBracketId ⟨players, value, false, zeroAddress⟩
    rw [show s.tour.brackets s.tour.nextBracketId = Bracket.empty from hempty] at hpool
    have hzero : Bracket.empty.prizePool.toNat = 0 := rfl
    dsimp only at hpool
    rw [hs']
    change ether this = pool (Function.update s.tour.brackets s.tour.nextBracketId
      ⟨players, value, false, zeroAddress⟩)
    omega
  · refine List.forall_mem_append.mpr ⟨payouts, List.forall_mem_singleton.mpr (Or.inl ?_)⟩
    rw [hpre, hpost, hs']

/-- A round is reported and the bracket goes on. -/
theorem Books.advance (hs : Books this s tr) {m : Move World Event} {id : U256}
    {winners : List Address} (hm : created m = none) (hpre : m.pre = s)
    (hpost : m.post = s.setBracket id { s.bracket id with players := winners })
    (hopen : (s.bracket id).finished = false) (hborn : id < s.tour.nextBracketId)
    (hvalid : ∀ w ∈ winners, w ∈ (s.bracket id).players) :
    Books this (s.setBracket id { s.bracket id with players := winners }) (tr ++ [m]) := by
  refine hs.keep hm rfl (fun j hj => ⟨World.setBracket_of_ne ?_, rfl⟩) ?_ ?_ (Or.inl ?_)
  · rintro rfl
    exact BitVec.not_le.mpr hborn hj
  · intro c hc
    have hc' := hs.accounts c hc
    by_cases hid : c.id = id
    · subst hid
      cases hc' with
      | running open_ holds players unpaid =>
          refine .running ?_ ?_ ?_ unpaid
          · rw [World.setBracket_self]
            exact open_
          · rw [World.setBracket_self]
            exact holds
          · rw [World.setBracket_self]
            exact fun p hp => players p (hvalid p hp)
      | finished done empty winner paid =>
          rw [hopen] at done
          cases done
    · exact hc'.of_eq (World.setBracket_of_ne hid) rfl
  · have hpool := pool_update s.tour.brackets id { s.bracket id with players := winners }
    have hsum := Nat.add_right_cancel hpool
    exact hs.balance.trans hsum.symm
  · rw [hpre, hpost]
    rfl

/-- What a payout leaves behind, with a prize and without. -/
theorem payPrize_leaves {m : Move World Event} {id : U256} {b : Bracket} {accepts : Bool}
    {winner : Address} {prize : U256} (hpre : m.pre = s) (hpost : m.post = s')
    (h : (s.setBracket id b).payPrize this accepts id winner prize = some s') :
    s'.tour = (s.setBracket id b).tour ∧ s'.ether this + prize.toNat = s.ether this ∧
      PaysOut this m ∧ ∀ j, s'.payments j = s.payments j ++
        if id = j ∧ 0 < prize then [⟨id, winner, prize⟩] else [] := by
  obtain ⟨hzero, rfl⟩ | ⟨hprize, hother, -, ether, hpay, rfl⟩ := World.payPrize_cases h
  · refine ⟨rfl, by rw [hzero]; rfl, Or.inl ?_, fun j => ?_⟩
    · rw [hpre, hpost]
      rfl
    · rw [hzero]
      simp only [BitVec.lt_irrefl, and_false, if_false, List.append_nil]
      rfl
  · obtain ⟨hle, hmoved⟩ := pay_cases hpay
    have hthis := hmoved this
    rw [share_self, share_of_ne (Ne.symm hother)] at hthis
    refine ⟨rfl, hthis, Or.inr ⟨⟨id, winner, prize⟩, ?_, ?_⟩, fun j => ?_⟩
    · rw [hpre, hpost]
      rfl
    · rw [hpre, hpost]
      exact hmoved
    · simp only [hprize, and_true]
      exact payments_concat s _ _ _ j

/-- The last round is reported: the prize is paid out. -/
theorem Books.finish (hs : Books this s tr) {m : Move World Event} {id : U256} {accepts : Bool}
    {winner : Address} (hm : created m = none) (hpre : m.pre = s) (hpost : m.post = s')
    (hopen : (s.bracket id).finished = false) (hborn : id < s.tour.nextBracketId)
    (hvalid : winner ∈ (s.bracket id).players)
    (h : (s.setBracket id ⟨[winner], 0, true, winner⟩).payPrize this accepts id winner
      (s.bracket id).prizePool = some s') : Books this s' (tr ++ [m]) := by
  have hpool := pool_update s.tour.brackets id ⟨[winner], 0, true, winner⟩
  obtain ⟨htour, hether, hpaysOut, hpayments⟩ := payPrize_leaves hpre hpost h
  have hbracket : s'.bracket id = ⟨[winner], 0, true, winner⟩ := by
    rw [World.bracket, htour]
    exact Function.update_self _ _ _
  have hother : ∀ j, j ≠ id → s'.bracket j = s.bracket j ∧ s'.payments j = s.payments j := by
    intro j hj
    refine ⟨?_, ?_⟩
    · rw [World.bracket, htour]
      exact Function.update_of_ne hj _ _
    · rw [hpayments, if_neg (fun h => hj h.1.symm), List.append_nil]
  have hnext : s'.tour.nextBracketId = s.tour.nextBracketId := by rw [htour]; rfl
  refine hs.keep hm hnext (fun j hj => hother j ?_) ?_ ?_ hpaysOut
  · rintro rfl
    exact BitVec.not_le.mpr hborn hj
  · intro c hc
    have hc' := hs.accounts c hc
    by_cases hid : c.id = id
    · subst hid
      cases hc' with
      | running open_ holds players unpaid =>
          refine .finished ?_ ?_ ?_ ?_
          · rw [hbracket]
          · rw [hbracket]
          · rw [hbracket]
            exact players winner hvalid
          · rw [hpayments, unpaid, hbracket, holds]
            simp
      | finished done empty winner paid =>
          rw [hopen] at done
          cases done
    · exact hc'.of_eq (hother _ hid).1 (hother _ hid).2
  · have hzero : (0 : U256).toNat = 0 := rfl
    have hholds : (s.tour.brackets id).prizePool.toNat = (s.bracket id).prizePool.toNat := rfl
    have hbalance := hs.balance
    rw [htour]
    change s'.ether this = pool (Function.update s.tour.brackets id ⟨[winner], 0, true, winner⟩)
    dsimp only at hpool
    omega

theorem Books.reportWinners (hs : Books this s tr) {m : Move World Event} {id : U256}
    {accepts : Bool} {winners : List Address} (hm : created m = none) (hpre : m.pre = s)
    (hpost : m.post = s') (h : s.reportWinners this accepts id winners = some s') :
    Books this s' (tr ++ [m]) := by
  obtain ⟨hopen, hvalid, hround⟩ := World.reportWinners_cases h
  have hborn : ∀ w ∈ winners, id < s.tour.nextBracketId := fun w hw =>
    hs.born_of_player (hvalid w hw)
  obtain ⟨hmany, rfl⟩ | ⟨winner, rfl, hpay⟩ := hround
  · obtain ⟨w, hw⟩ := List.exists_mem_of_length_pos (Nat.zero_lt_of_lt hmany)
    exact hs.advance hm hpre hpost hopen (hborn w hw) hvalid
  · have hwinner := List.mem_singleton_self winner
    exact hs.finish hm hpre hpost hopen (hborn winner hwinner) (hvalid winner hwinner) hpay

theorem Books.step (hs : Books this s tr) (h : s.step this ev = some s') :
    Books this s' (tr ++ [⟨s, ev, s'⟩]) := by
  obtain ⟨sender, value, players, rfl, hsender, hcreate⟩ | ⟨sender, accepts, id, winners, rfl,
    hreport⟩ | ⟨hquiet, hnext, hbrackets, hether, hpaid⟩ := step_cases h
  · exact hs.createBracket rfl rfl rfl hsender hcreate
  · exact hs.reportWinners rfl rfl rfl hreport
  · exact hs.quiet (hquiet _ rfl).1 rfl rfl hnext hbrackets hether hpaid

theorem run_books (this : Address) (ether : Address → Nat) (evs : List Event) :
    Books this (run this ether evs) (moves this ether evs) :=
  trace_run_induction (start_books this ether) (fun _ _ _ _ hs h => hs.step h) evs

/-! ## Conservation -/

/-- A payout that its recipient refuses, or that would go to the contract, is no payout. -/
theorem payPrize_refused {accepts : Bool} {id prize : U256} {winner : Address}
    (hprize : 0 < prize) (hrefused : winner = this ∨ accepts = false) :
    s.payPrize this accepts id winner prize = none := by
  rw [Option.eq_none_iff_forall_ne_some]
  intro s' h
  obtain ⟨rfl, -⟩ | ⟨-, hother, haccepts, -⟩ := World.payPrize_cases h
  · exact BitVec.lt_irrefl _ hprize
  · rcases hrefused with heq | hno
    · exact hother heq
    · rw [haccepts] at hno
      cases hno

/-- The contract holds the prizes of the running brackets, every created bracket's account is right,
the log is what was paid, and a report whose payout fails changes nothing. -/
structure PrizesConserved (this : Address) (s : World) (tr : List (Move World Event)) : Prop where
  balance : s.ether this = pool s.tour.brackets
  ids : ((creations tr).map Creation.id).Nodup
  accounts : ∀ c ∈ creations tr, Account s c
  payouts : ∀ m ∈ tr, PaysOut this m
  refused : ∀ sender accepts id winner, 0 < (s.bracket id).prizePool →
    winner = this ∨ accepts = false →
    revert (World.step this) s (.call ⟨sender, .reportWinners accepts id [winner]⟩) = s

/-- **The prizes are conserved** in every run. -/
theorem prizes_conserved (this : Address) (ether : Address → Nat) (evs : List Event) :
    PrizesConserved this (run this ether evs) (moves this ether evs) := by
  have hs := run_books this ether evs
  refine ⟨hs.balance, hs.ids, hs.accounts, hs.payouts, ?_⟩
  intro sender accepts id winner hprize hrefused
  apply revert_none
  rw [Option.eq_none_iff_forall_ne_some]
  intro s' hstep
  obtain ⟨_, _, _, hev, -⟩ | ⟨_, _, _, _, hev, hreport⟩ | ⟨hquiet, -⟩ := step_cases hstep
  · cases hev
  · cases hev
    obtain ⟨-, -, ⟨hmany, -⟩ | ⟨_, hone, hpay⟩⟩ := World.reportWinners_cases hreport
    · exact absurd hmany (Nat.lt_irrefl 1)
    · cases hone
      rw [payPrize_refused hprize hrefused] at hpay
      cases hpay
  · cases (hquiet ⟨run this ether evs, _, s'⟩ rfl).2

end ChainBeasts.Contracts.Tournament
