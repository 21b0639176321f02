import ChainBeasts.Contracts.Tokens
import ChainBeasts.Machine

/-! # `Governance.sol`

Staking of `CORE`, proposals and votes. The staked tokens are held by the contract itself, so the
model is the pair of the token and the governance contract; `voted` is the log of the `Voted`
events.

A vote weighs what its caster has staked at the moment, and nothing records that it was cast: the
same stake counts again when its owner votes again, or when it is withdrawn, moved and staked by
another account (`tally_exceeds_supply`). While every vote is the first of its caster and every
earlier voter still has its counted weight staked, no tally exceeds the supply
(`tally_le_supply`). -/

namespace ChainBeasts.Contracts

open ChainBeasts.Evm ChainBeasts.Machine

structure Proposal where
  target : Address
  data : Bytes
  voteEnd : U256
  yes : U256
  no : U256
  executed : Bool
  deriving DecidableEq

/-- The `Voted` event. -/
structure Voted where
  id : U256
  voter : Address
  support : Bool
  weight : U256
  deriving DecidableEq

structure Governance where
  stake : Address → U256
  totalStake : U256
  proposals : U256 → Proposal
  nextProposalId : U256
  voted : List Voted

namespace Governance

/-- `3 days`. -/
def votingPeriod : U256 := 259200

def deploy : Governance where
  stake _ := 0
  totalStake := 0
  proposals _ := ⟨zeroAddress, [], 0, 0, 0, false⟩
  nextProposalId := 0
  voted := []

/-- The token and the governance contract together. -/
structure World where
  core : Core
  gov : Governance

namespace World

/-- `this` is the governance contract's address. -/
def stake (this : Address) (w : World) (sender : Address) (amount : U256) : Option World := do
  require (0 < amount)
  let core ← w.core.transferFrom this sender this amount
  let stake ← credit w.gov.stake sender amount
  let totalStake ← checkedAdd w.gov.totalStake amount
  return ⟨core, { w.gov with stake, totalStake }⟩

def withdraw (this : Address) (w : World) (sender : Address) (amount : U256) : Option World := do
  let stake ← debit w.gov.stake sender amount
  let totalStake ← checkedSub w.gov.totalStake amount
  let core ← w.core.transfer this sender amount
  return ⟨core, { w.gov with stake, totalStake }⟩

def propose (w : World) (now : U256) (sender target : Address) (data : Bytes) : Option World := do
  require (0 < w.gov.stake sender)
  let nextProposalId ← checkedAdd w.gov.nextProposalId 1
  let voteEnd ← checkedAdd now votingPeriod
  let proposal : Proposal := ⟨target, data, voteEnd, 0, 0, false⟩
  return ⟨w.core, { w.gov with
    nextProposalId
    proposals := Function.update w.gov.proposals w.gov.nextProposalId proposal }⟩

/-- `if (support) p.yes += weight; else p.no += weight`. -/
def count (p : Proposal) (support : Bool) (weight : U256) : Option Proposal :=
  if support then do
    let yes ← checkedAdd p.yes weight
    return { p with yes }
  else do
    let no ← checkedAdd p.no weight
    return { p with no }

def vote (w : World) (now : U256) (sender : Address) (id : U256) (support : Bool) :
    Option World := do
  require (now < (w.gov.proposals id).voteEnd)
  let weight := w.gov.stake sender
  require (0 < weight)
  let counted ← count (w.gov.proposals id) support weight
  return ⟨w.core, { w.gov with
    proposals := Function.update w.gov.proposals id counted
    voted := w.gov.voted ++ [⟨id, sender, support, weight⟩] }⟩

/-- The calls of a run: any call on the token, and those of the governance contract, each at its
time. -/
inductive Call where
  | core (call : Core.Call)
  | stake (amount : U256)
  | withdraw (amount : U256)
  | propose (now : U256) (target : Address) (data : Bytes)
  | vote (now : U256) (id : U256) (support : Bool)

/-- The calls that mint or burn `CORE`. -/
def Call.issues : Call → Bool
  | .core call => call.issues
  | _ => false

/-- The contract signs no transaction itself. -/
def step (this : Address) (w : World) (tx : Tx Call) : Option World := do
  require (tx.sender ≠ this)
  match tx.call with
  | .core call => (w.core.step tx.sender call).map fun core => { w with core }
  | .stake amount => w.stake this tx.sender amount
  | .withdraw amount => w.withdraw this tx.sender amount
  | .propose now target data => w.propose now tx.sender target data
  | .vote now id support => w.vote now tx.sender id support

/-! ## What each call does -/

variable {this sender : Address} {w w' : World}

theorem stake_cases {amount : U256} (h : w.stake this sender amount = some w') :
    ∃ core stake totalStake, w.core.transferFrom this sender this amount = some core ∧
      credit w.gov.stake sender amount = some stake ∧
      totalStake.toNat = w.gov.totalStake.toNat + amount.toNat ∧
      w' = ⟨core, { w.gov with stake, totalStake }⟩ := by
  simp only [World.stake, Option.bind_eq_bind, Option.bind_eq_some_iff, require_eq_some,
    checkedAdd_eq_some, Option.pure_def, Option.some.injEq] at h
  obtain ⟨_, _, core, hcore, stake, hstake, totalStake, htotal, rfl⟩ := h
  exact ⟨core, stake, totalStake, hcore, hstake, htotal, rfl⟩

theorem withdraw_cases {amount : U256} (h : w.withdraw this sender amount = some w') :
    ∃ core stake totalStake, w.core.transfer this sender amount = some core ∧
      debit w.gov.stake sender amount = some stake ∧
      totalStake.toNat + amount.toNat = w.gov.totalStake.toNat ∧
      w' = ⟨core, { w.gov with stake, totalStake }⟩ := by
  simp only [withdraw, Option.bind_eq_bind, Option.bind_eq_some_iff, checkedSub_eq_some,
    Option.pure_def, Option.some.injEq] at h
  obtain ⟨stake, hstake, totalStake, htotal, core, hcore, rfl⟩ := h
  exact ⟨core, stake, totalStake, hcore, hstake, htotal, rfl⟩

theorem propose_cases {now : U256} {target : Address} {data : Bytes}
    (h : w.propose now sender target data = some w') :
    ∃ nextProposalId voteEnd : U256,
      nextProposalId.toNat = w.gov.nextProposalId.toNat + 1 ∧
      voteEnd.toNat = now.toNat + votingPeriod.toNat ∧
      w' = ⟨w.core, { w.gov with
        nextProposalId
        proposals := Function.update w.gov.proposals w.gov.nextProposalId
          ⟨target, data, voteEnd, 0, 0, false⟩ }⟩ := by
  have hone : (1 : U256).toNat = 1 := rfl
  simp only [propose, Option.bind_eq_bind, Option.bind_eq_some_iff, require_eq_some,
    checkedAdd_eq_some, Option.pure_def, Option.some.injEq, hone] at h
  obtain ⟨_, _, nextProposalId, hnext, voteEnd, hend, rfl⟩ := h
  exact ⟨nextProposalId, voteEnd, hnext, hend, rfl⟩

theorem count_cases {p p' : Proposal} {support : Bool} {weight : U256}
    (h : count p support weight = some p') :
    p'.yes.toNat + p'.no.toNat = p.yes.toNat + p.no.toNat + weight.toNat ∧
      p'.voteEnd = p.voteEnd := by
  cases support with
  | true =>
      simp only [count, if_true, Option.bind_eq_bind, Option.bind_eq_some_iff, checkedAdd_eq_some,
        Option.pure_def, Option.some.injEq] at h
      obtain ⟨yes, hyes, rfl⟩ := h
      exact ⟨by simp only; omega, rfl⟩
  | false =>
      simp only [count, Bool.false_eq_true, if_false, Option.bind_eq_bind, Option.bind_eq_some_iff,
        checkedAdd_eq_some, Option.pure_def, Option.some.injEq] at h
      obtain ⟨no, hno, rfl⟩ := h
      exact ⟨by simp only; omega, rfl⟩

/-- A vote only moves the tallies. -/
theorem count_keeps {p p' : Proposal} {support : Bool} {weight : U256}
    (h : count p support weight = some p') : p' = { p with yes := p'.yes, no := p'.no } := by
  cases support with
  | true =>
      obtain ⟨yes, -, hp⟩ := Option.bind_eq_some_iff.mp h
      rw [← Option.some.inj hp]
  | false =>
      obtain ⟨no, -, hp⟩ := Option.bind_eq_some_iff.mp h
      rw [← Option.some.inj hp]

theorem vote_cases {now id : U256} {support : Bool} (h : w.vote now sender id support = some w') :
    now < (w.gov.proposals id).voteEnd ∧ ∃ counted,
      count (w.gov.proposals id) support (w.gov.stake sender) = some counted ∧
      w' = ⟨w.core, { w.gov with
        proposals := Function.update w.gov.proposals id counted
        voted := w.gov.voted ++ [⟨id, sender, support, w.gov.stake sender⟩] }⟩ := by
  simp only [vote, Option.bind_eq_bind, Option.bind_eq_some_iff, require_eq_some,
    Option.pure_def, Option.some.injEq] at h
  obtain ⟨_, hopen, _, _, counted, hcount, rfl⟩ := h
  exact ⟨hopen, counted, hcount, rfl⟩

/-! ## Where the stakes are -/

/-- The token is conserved, the stakes add up to `totalStake`, and the contract holds as much. -/
structure Backed (this : Address) (w : World) : Prop where
  guarded : w.core.Guarded this
  staked : total w.gov.stake = w.gov.totalStake.toNat
  held : w.gov.totalStake.toNat ≤ (w.core.balanceOf this).toNat

theorem Backed.stake (hw : w.Backed this) (hthis : sender ≠ this) {amount : U256}
    (h : w.stake this sender amount = some w') :
    w'.Backed this ∧ w'.core.totalSupply = w.core.totalSupply := by
  obtain ⟨core, stake, totalStake, hcore, hstake, htotal, rfl⟩ := stake_cases h
  have hguarded := hw.guarded.transferFrom hcore
  obtain ⟨left, debited, balanceOf, -, hd, hc, rfl⟩ := Core.transferFrom_cases hcore
  have hold := hw.held
  have hstaked := hw.staked
  have hsum := total_credit hstake
  have hcredit := credit_self hc
  rw [debit_of_ne hd (Ne.symm hthis)] at hcredit
  refine ⟨⟨hguarded, ?_, ?_⟩, rfl⟩
  · show total stake = totalStake.toNat
    omega
  · show totalStake.toNat ≤ (balanceOf this).toNat
    omega

theorem Backed.withdraw (hw : w.Backed this) (hthis : sender ≠ this) {amount : U256}
    (h : w.withdraw this sender amount = some w') :
    w'.Backed this ∧ w'.core.totalSupply = w.core.totalSupply := by
  obtain ⟨core, stake, totalStake, hcore, hstake, htotal, rfl⟩ := withdraw_cases h
  have hguarded := hw.guarded.transfer hcore
  obtain ⟨debited, balanceOf, hd, hc, rfl⟩ := Core.transfer_eq_some.mp hcore
  have hold := hw.held
  have hstaked := hw.staked
  have hsum := total_debit hstake
  have hdebit := debit_self hd
  have hcredit := credit_of_ne hc (Ne.symm hthis)
  refine ⟨⟨hguarded, ?_, ?_⟩, rfl⟩
  · show total stake = totalStake.toNat
    omega
  · show totalStake.toNat ≤ (balanceOf this).toNat
    rw [hcredit]
    omega

/-- **Any call** without issue keeps the stakes backed and the supply unchanged. -/
theorem Backed.step (hw : w.Backed this) {tx : Tx Call} (h : World.step this w tx = some w')
    (hissue : tx.call.issues = false) :
    w'.Backed this ∧ w'.core.totalSupply = w.core.totalSupply := by
  obtain ⟨sender, call⟩ := tx
  simp only [World.step, Option.bind_eq_bind, Option.bind_eq_some_iff, require_eq_some] at h
  obtain ⟨_, hthis, h⟩ := h
  cases call with
  | core call =>
      obtain ⟨core, hcore, rfl⟩ := Option.map_eq_some_iff.mp h
      obtain ⟨hsupply, hbalance⟩ := hw.guarded.le_balance hthis hissue hcore
      exact ⟨⟨hw.guarded.step hthis hcore, hw.staked, Nat.le_trans hw.held hbalance⟩, hsupply⟩
  | stake amount => exact hw.stake hthis h
  | withdraw amount => exact hw.withdraw hthis h
  | propose now target data =>
      obtain ⟨_, _, -, -, rfl⟩ := propose_cases h
      exact ⟨⟨hw.guarded, hw.staked, hw.held⟩, rfl⟩
  | vote now id support =>
      obtain ⟨-, _, -, rfl⟩ := vote_cases h
      exact ⟨⟨hw.guarded, hw.staked, hw.held⟩, rfl⟩

/-! ## What the tallies count -/

/-- The votes on `id`, in order. -/
def votesOn (log : List Voted) (id : U256) : List Voted := log.filter fun v => v.id = id

/-- What the votes `vs` weigh together. -/
def weighed (vs : List Voted) : Nat := (vs.map fun v => v.weight.toNat).sum

/-- Each tally is the weight of its votes, cast by distinct accounts and within the supply; an id
not yet given out is closed and has no votes. -/
structure Tallied (w : World) : Prop where
  unborn : ∀ id, w.gov.nextProposalId.toNat ≤ id.toNat →
    (w.gov.proposals id).voteEnd = 0 ∧ votesOn w.gov.voted id = []
  tally : ∀ id, (w.gov.proposals id).yes.toNat + (w.gov.proposals id).no.toNat =
    weighed (votesOn w.gov.voted id)
  voters : ∀ id, ((votesOn w.gov.voted id).map (·.voter)).Nodup
  within : ∀ id, weighed (votesOn w.gov.voted id) ≤ w.core.totalSupply.toNat

/-- **Counted once.** When it is cast, a vote is the first of its caster on the proposal, and every
earlier voter still has at least its counted weight staked. -/
def CountsOnce (w : World) (sender : Address) : Call → Prop
  | .vote _ id _ => ∀ v ∈ votesOn w.gov.voted id,
      v.voter ≠ sender ∧ v.weight.toNat ≤ (w.gov.stake v.voter).toNat
  | _ => True

instance (w : World) (sender : Address) (call : Call) : Decidable (w.CountsOnce sender call) :=
  match call with
  | .vote _ id _ =>
      inferInstanceAs (Decidable (∀ v ∈ votesOn w.gov.voted id,
        v.voter ≠ sender ∧ v.weight.toNat ≤ (w.gov.stake v.voter).toNat))
  | .core _ => isTrue trivial
  | .stake _ => isTrue trivial
  | .withdraw _ => isTrue trivial
  | .propose .. => isTrue trivial

theorem votesOn_concat (log : List Voted) (v : Voted) (id : U256) :
    votesOn (log ++ [v]) id = votesOn log id ++ if v.id = id then [v] else [] := by
  by_cases h : v.id = id <;> simp [votesOn, h]

theorem weighed_concat (vs : List Voted) (v : Voted) :
    weighed (vs ++ [v]) = weighed vs + v.weight.toNat := by
  simp [weighed]

/-- Distinct voters with their weight still staked weigh at most the total stake. -/
theorem weighed_le_total {stake : Address → U256} {vs : List Voted}
    (hdistinct : (vs.map (·.voter)).Nodup)
    (hstaked : ∀ v ∈ vs, v.weight.toNat ≤ (stake v.voter).toNat) : weighed vs ≤ total stake := by
  calc weighed vs ≤ (vs.map fun v => (stake v.voter).toNat).sum := List.sum_le_sum hstaked
    _ = ((vs.map (·.voter)).map fun a => (stake a).toNat).sum := by rw [List.map_map]; rfl
    _ ≤ total stake := sum_list_le_sum_mapping BitVec.toNat stake hdistinct

/-- A call that leaves the tallies, the log and the ids alone. -/
theorem Tallied.of_eq (hw : w.Tallied) (hprop : w'.gov.proposals = w.gov.proposals)
    (hlog : w'.gov.voted = w.gov.voted) (hid : w'.gov.nextProposalId = w.gov.nextProposalId)
    (hsupply : w'.core.totalSupply = w.core.totalSupply) : w'.Tallied := by
  obtain ⟨unborn, tally, voters, within⟩ := hw
  refine ⟨?_, ?_, ?_, ?_⟩
  · rwa [hprop, hlog, hid]
  · rwa [hprop, hlog]
  · rwa [hlog]
  · rwa [hlog, hsupply]

theorem Tallied.propose (hw : w.Tallied) {now : U256} {target : Address} {data : Bytes}
    (h : w.propose now sender target data = some w') : w'.Tallied := by
  obtain ⟨nextProposalId, voteEnd, hnext, -, rfl⟩ := propose_cases h
  obtain ⟨-, hempty⟩ := hw.unborn w.gov.nextProposalId (Nat.le_refl _)
  refine ⟨?_, ?_, hw.voters, hw.within⟩
  · intro id hid
    have hne : id ≠ w.gov.nextProposalId := by
      rintro rfl
      simp only [hnext] at hid
      omega
    simp only [hnext, Function.update_of_ne hne] at hid ⊢
    exact hw.unborn id (by omega)
  · intro id
    show (Function.update w.gov.proposals w.gov.nextProposalId _ id).yes.toNat +
      (Function.update w.gov.proposals w.gov.nextProposalId _ id).no.toNat = _
    by_cases hid : id = w.gov.nextProposalId
    · subst hid
      rw [Function.update_self, hempty]
      rfl
    · rw [Function.update_of_ne hid]
      exact hw.tally id

theorem Tallied.vote (hw : w.Tallied) (hb : w.Backed this) {now id : U256} {support : Bool}
    (h : w.vote now sender id support = some w') (honce : w.CountsOnce sender (.vote now id support)) :
    w'.Tallied := by
  obtain ⟨hopen, counted, hcount, rfl⟩ := vote_cases h
  obtain ⟨hsum, hend⟩ := count_cases hcount
  have hfirst : ∀ v ∈ votesOn w.gov.voted id,
      v.voter ≠ sender ∧ v.weight.toNat ≤ (w.gov.stake v.voter).toNat := honce
  let cast : Voted := ⟨id, sender, support, w.gov.stake sender⟩
  have hnew : ((votesOn w.gov.voted id ++ [cast]).map (·.voter)).Nodup := by
    rw [List.map_append, List.nodup_append]
    refine ⟨hw.voters id, List.nodup_singleton _, ?_⟩
    intro a ha b hbmem
    obtain ⟨v, hv, rfl⟩ := List.mem_map.mp ha
    rw [show b = sender by simpa [cast] using hbmem]
    exact (hfirst v hv).1
  refine ⟨?_, ?_, ?_, ?_⟩
  · intro j hj
    obtain ⟨hclosed, hnone⟩ := hw.unborn j hj
    -- an open proposal has been given out
    have hne : j ≠ id := by
      rintro rfl
      rw [hclosed, BitVec.lt_def] at hopen
      exact Nat.not_lt_zero _ hopen
    simp only [Function.update_of_ne hne, votesOn_concat, if_neg (Ne.symm hne), List.append_nil]
    exact ⟨hclosed, hnone⟩
  · -- the tally of `id` grows by the weight of this vote, the others stay
    intro j
    show (Function.update w.gov.proposals id counted j).yes.toNat +
      (Function.update w.gov.proposals id counted j).no.toNat = _
    rw [votesOn_concat]
    by_cases hj : j = id
    · subst hj
      rw [Function.update_self, if_pos rfl, weighed_concat, hsum, hw.tally]
    · rw [Function.update_of_ne hj, if_neg (Ne.symm hj), List.append_nil]
      exact hw.tally j
  · intro j
    show ((votesOn (w.gov.voted ++ [_]) j).map (·.voter)).Nodup
    rw [votesOn_concat]
    by_cases hj : j = id
    · subst hj
      rw [if_pos rfl]
      exact hnew
    · rw [if_neg (Ne.symm hj), List.append_nil]
      exact hw.voters j
  · intro j
    show weighed (votesOn (w.gov.voted ++ [_]) j) ≤ w.core.totalSupply.toNat
    rw [votesOn_concat]
    by_cases hj : j = id
    · subst hj
      rw [if_pos rfl]
      -- the counted weights are staked now, by distinct accounts, and the contract holds them
      have hstakes : ∀ v ∈ votesOn w.gov.voted j ++ [cast],
          v.weight.toNat ≤ (w.gov.stake v.voter).toNat := by
        intro v hv
        rcases List.mem_append.mp hv with hold | hlast
        · exact (hfirst v hold).2
        · rw [List.mem_singleton.mp hlast]
      calc weighed (votesOn w.gov.voted j ++ [cast])
          ≤ total w.gov.stake := weighed_le_total hnew hstakes
        _ = w.gov.totalStake.toNat := hb.staked
        _ ≤ (w.core.balanceOf this).toNat := hb.held
        _ ≤ total w.core.balanceOf := le_total _ _
        _ = w.core.totalSupply.toNat := hb.guarded.conserved
    · rw [if_neg (Ne.symm hj), List.append_nil]
      exact hw.within j

/-- **One call.** Backed stakes and counted tallies survive any call that issues nothing and, if it
votes, counts once. -/
theorem Tallied.step (hw : w.Tallied) (hb : w.Backed this) {tx : Tx Call}
    (h : World.step this w tx = some w')
    (hissue : tx.call.issues = false) (honce : w.CountsOnce tx.sender tx.call) : w'.Tallied := by
  obtain ⟨-, hsupply⟩ := hb.step h hissue
  obtain ⟨sender, call⟩ := tx
  simp only [World.step, Option.bind_eq_bind, Option.bind_eq_some_iff, require_eq_some] at h
  obtain ⟨_, -, h⟩ := h
  cases call with
  | core call =>
      obtain ⟨core, -, rfl⟩ := Option.map_eq_some_iff.mp h
      exact hw.of_eq rfl rfl rfl hsupply
  | stake amount =>
      obtain ⟨core, stake, totalStake, -, -, -, rfl⟩ := stake_cases h
      exact hw.of_eq rfl rfl rfl hsupply
  | withdraw amount =>
      obtain ⟨core, stake, totalStake, -, -, -, rfl⟩ := withdraw_cases h
      exact hw.of_eq rfl rfl rfl hsupply
  | propose now target data => exact hw.propose h
  | vote now id support => exact hw.vote hb h honce

/-! ## Runs -/

/-- `setup` is what happened to the token before the governance contract was deployed. -/
def start (admin : Address) (setup : List (Tx Core.Call)) : World := ⟨Core.run admin setup, deploy⟩

/-- The accepted calls of the run `txs`. -/
def moves (this admin : Address) (setup : List (Tx Core.Call)) (txs : List (Tx Call)) :
    List (Move World (Tx Call)) :=
  trace (step this) (start admin setup) txs

def run (this admin : Address) (setup : List (Tx Core.Call)) (txs : List (Tx Call)) : World :=
  exec (revert (step this)) (start admin setup) txs

/-- No accepted call mints or burns `CORE`. -/
def Unissued (ms : List (Move World (Tx Call))) : Prop :=
  ∀ m ∈ ms, m.call.call.issues = false

instance (ms : List (Move World (Tx Call))) : Decidable (Unissued ms) :=
  inferInstanceAs (Decidable (∀ m ∈ ms, _))

theorem start_backed (admin : Address) {setup : List (Tx Core.Call)}
    (h : ∀ tx ∈ setup, tx.sender ≠ this) : (start admin setup).Backed this where
  guarded := Core.run_guarded admin h
  staked := by simp [start, deploy, total]
  held := by simp [start, deploy]

theorem start_tallied (admin : Address) (setup : List (Tx Core.Call)) :
    (start admin setup).Tallied where
  unborn _ _ := ⟨rfl, rfl⟩
  tally _ := rfl
  voters _ := List.nodup_nil
  within _ := Nat.zero_le _

/-- No proposal has counted more than there is. -/
def WithinSupply (w : World) : Prop :=
  ∀ id, (w.gov.proposals id).yes.toNat + (w.gov.proposals id).no.toNat ≤ w.core.totalSupply.toNat

/-- **When tallies stay within the supply.** In every run without issue in which every accepted vote
counts once, the state reached has no tally above the supply. -/
theorem tally_le_supply (this admin : Address) {setup : List (Tx Core.Call)}
    (hsetup : ∀ tx ∈ setup, tx.sender ≠ this) (txs : List (Tx Call))
    (hissue : Unissued (moves this admin setup txs))
    (honce : ∀ m ∈ moves this admin setup txs, m.pre.CountsOnce m.call.sender m.call.call) :
    (run this admin setup txs).WithinSupply := by
  let ok : Move World (Tx Call) → Prop := fun m =>
    m.call.call.issues = false ∧ m.pre.CountsOnce m.call.sender m.call.call
  let P : World → List (Move World (Tx Call)) → Prop := fun w _ => w.Backed this ∧ w.Tallied
  have hrun : P (run this admin setup txs) (moves this admin setup txs) := by
    apply trace_induction ok P
    · exact ⟨start_backed admin hsetup, start_tallied admin setup⟩
    · rintro w tr tx w' ⟨hb, hw⟩ hstep ⟨hquiet, hcounts⟩
      exact ⟨(hb.step hstep hquiet).1, hw.step hb hstep hquiet hcounts⟩
    · intro m hm
      exact ⟨hissue m hm, honce m hm⟩
  intro id
  rw [hrun.2.tally id]
  exact hrun.2.within id

/-- Account 1 mints 5 to account 7 and 3 to account 8, who let the contract at 20 spend them. -/
def sampleSetup : List (Tx Core.Call) :=
  [⟨1, .mint 7 5⟩, ⟨1, .mint 8 3⟩, ⟨7, .approve 20 5⟩, ⟨8, .approve 20 3⟩]

/-- Both stake and vote, against each other. -/
def splitVote : List (Tx Call) :=
  [⟨7, .stake 5⟩, ⟨8, .stake 3⟩, ⟨7, .propose 0 9 []⟩, ⟨7, .vote 1 0 true⟩, ⟨8, .vote 2 0 false⟩]

theorem tally_le_supply_split : (run 20 1 sampleSetup splitVote).WithinSupply :=
  tally_le_supply 20 1 (by decide) _ (by decide +kernel) (by decide +kernel)

/-- Account 7 votes twice with its 5 staked: 10 are counted, and 8 exist. -/
theorem tally_exceeds_supply :
    Unissued (moves 20 1 sampleSetup (splitVote.take 4 ++ [⟨7, .vote 2 0 true⟩])) ∧
      ¬ (run 20 1 sampleSetup (splitVote.take 4 ++ [⟨7, .vote 2 0 true⟩])).WithinSupply := by
  refine ⟨by decide +kernel, ?_⟩
  intro h
  exact absurd (h 0) (by decide +kernel)

end World

end Governance

end ChainBeasts.Contracts
