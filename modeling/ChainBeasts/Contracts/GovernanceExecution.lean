import ChainBeasts.Contracts.Governance
import ChainBeasts.Rollback

/-! # Executing proposals

`execute` calls the proposal's target with the proposal's data, as the governance contract. The
target may be any contract: the token, the governance contract itself, or foreign code that calls
either of them back, catches failures or fails and takes everything back. So the state here is a
stack of open calls, each with the contracts as they were when it began, and the block time, which
moves only between transactions.

The decoding of call data is a parameter; what is decoded is a message to the token or to the
governance contract. `proposed` and `executed` are the logs of the events of those names, with the
block time, and are rolled back with the contracts. -/

namespace ChainBeasts.Contracts.Governance.Execution

open ChainBeasts.Evm ChainBeasts.Machine ChainBeasts.Rollback

/-- `7 days`. -/
def timelock : U256 := 604800

/-- `1 ether`. -/
def quorum : U256 := ether

/-! ## The contracts -/

/-- The external functions that call nobody but the token. -/
inductive Call where
  | token (call : Core.Call)
  | stake (amount : U256)
  | withdraw (amount : U256)
  | propose (target : Address) (data : Bytes)
  | vote (id : U256) (support : Bool)
  | onAction (target : Address) (selector : U32) (data : Bytes)
  | view

/-- The external functions of the token and of the governance contract. -/
inductive Message where
  | call (call : Call)
  | execute (id : U256)

/-- Where the two contracts are, and what call data means to them. -/
structure Deployment where
  governance : Address
  token : Address
  abi : Address → Bytes → Option Message

/-- The `Proposed` event, with what was proposed and when. -/
structure Proposed where
  id : U256
  target : Address
  data : Bytes
  time : U256
  deriving DecidableEq

/-- The `Executed` event: the call that was made, when, and on what tallies. -/
structure Executed where
  id : U256
  target : Address
  data : Bytes
  time : U256
  yes : U256
  no : U256
  deriving DecidableEq

/-- What a failing call takes back. -/
structure Snapshot where
  world : World
  lastTarget : Address
  lastSelector : U32
  lastData : Bytes
  proposed : List Proposed
  executed : List Executed

namespace Snapshot

/-- The contracts just deployed, beside the token. -/
def deploy (core : Core) : Snapshot :=
  ⟨⟨core, Governance.deploy⟩, zeroAddress, 0, [], [], []⟩

/-- The record of a proposal. -/
def record (s : Snapshot) (id : U256) : Proposal := s.world.gov.proposals id

def handle (governance : Address) (s : Snapshot) (now : U256) (sender : Address) :
    Call → Option Snapshot
  | .token call => do
      let core ← s.world.core.step sender call
      return { s with world := { s.world with core } }
  | .stake amount => do
      let world ← s.world.stake governance sender amount
      return { s with world }
  | .withdraw amount => do
      let world ← s.world.withdraw governance sender amount
      return { s with world }
  | .propose target data => do
      let world ← s.world.propose now sender target data
      let event : Proposed := ⟨s.world.gov.nextProposalId, target, data, now⟩
      return { s with world, proposed := s.proposed ++ [event] }
  | .vote id support => do
      let world ← s.world.vote now sender id support
      return { s with world }
  | .onAction lastTarget lastSelector lastData =>
      return { s with lastTarget, lastSelector, lastData }
  | .view => return s

/-- `execute` up to the call it makes, and that call. -/
def execute (s : Snapshot) (now : U256) (id : U256) : Option (Snapshot × Executed) := do
  let p := s.record id
  require (p.executed = false)
  let unlocked ← checkedAdd p.voteEnd timelock
  require (unlocked ≤ now)
  require (p.no < p.yes ∧ quorum ≤ p.yes)
  let proposals := Function.update s.world.gov.proposals id { p with executed := true }
  let made : Executed := ⟨id, p.target, p.data, now, p.yes, p.no⟩
  let gov := { s.world.gov with proposals }
  return ({ s with world := { s.world with gov }, executed := s.executed ++ [made] }, made)

end Snapshot

/-! ## Open calls -/

/-- Who runs in an open call: foreign code, or the contract itself, with the call it still has to
make. -/
inductive Runner where
  | foreign
  | own (todo : Option Message)

def Runner.isOwn : Runner → Bool
  | .foreign => false
  | .own _ => true

/-- The block time and the open calls. -/
structure State where
  now : U256
  calls : Stack Runner Snapshot

inductive Event where
  /-- The next block. -/
  | tick (now : U256)
  /-- An account or foreign code calls one of the two contracts. -/
  | message (sender : Address) (m : Message)
  /-- The contract makes the call of the proposal it executes. -/
  | own
  /-- An account or foreign code calls foreign code. -/
  | enter
  /-- The innermost open call returns, or fails. -/
  | leave (ok : Bool)

/-- Who answers a call to `target`. Neither of the two contracts has a fallback function. -/
def Deployment.callee (env : Deployment) (target : Address) (data : Bytes) : Option Runner :=
  if target = env.token ∨ target = env.governance then
    (env.abi target data).map fun m => .own (some m)
  else some .foreign

namespace State

/-- The contracts as they are now. -/
def current (s : State) : Snapshot := s.calls.current

def perform (env : Deployment) (s : State) (sender : Address) : Message → Option State
  | .call call => do
      let x ← s.current.handle env.governance s.now sender call
      return { s with calls := s.calls.replace x }
  | .execute id => do
      let (x, made) ← s.current.execute s.now id
      let runner ← env.callee made.target made.data
      return { s with calls := (s.calls.push runner).replace x }

/-- The innermost call fails. A call the contract makes itself takes `execute` down with it. -/
def fail (s : State) : Option State := do
  let calls ← s.calls.abort Runner.isOwn
  return { s with calls }

/-- Foreign code runs, or an account may start a transaction. -/
def Foreign (s : State) : Prop := ∀ f ∈ s.calls.frames.head?, f.kind.isOwn = false

instance (s : State) : Decidable s.Foreign :=
  inferInstanceAs (Decidable (∀ f ∈ s.calls.frames.head?, f.kind.isOwn = false))

/-- The call the innermost `execute` still has to make. -/
def todo (s : State) : Option Message :=
  match s.calls.frames.head? with
  | some ⟨.own m, _⟩ => m
  | _ => none

def step (env : Deployment) (s : State) : Event → Option State
  | .tick now => do
      require (s.calls.frames.isEmpty ∧ s.now ≤ now)
      return { s with now }
  | .message sender m => do
      require (s.Foreign ∧ sender ≠ env.governance)
      s.perform env sender m
  | .own => do
      let m ← s.todo
      let s' : State := { s with calls := s.calls.become (.own none) }
      -- where the call fails, so does `execute`
      s'.perform env env.governance m <|> s'.fail
  | .enter => do
      require s.Foreign
      return { s with calls := s.calls.push .foreign }
  | .leave true => do
      require (s.todo.isNone)
      let calls ← s.calls.commit
      return { s with calls }
  | .leave false => s.fail

end State

/-- `setup` is what happened to the token before the governance contract was deployed, at `now`. -/
def start (admin : Address) (setup : List (Tx Core.Call)) (now : U256) : State :=
  ⟨now, ⟨.deploy (Core.run admin setup), []⟩⟩

def run (env : Deployment) (admin : Address) (setup : List (Tx Core.Call)) (now : U256)
    (evs : List Event) : State :=
  exec (revert (State.step env)) (start admin setup now) evs

/-! ## What a message does to the proposals -/

namespace Snapshot
variable {governance sender : Address} {now : U256} {s s' : Snapshot}

/-- **Everything a call can do to the proposals.** It leaves them alone, or adds one that is open
for the voting period, or counts a vote on an open one. -/
theorem handle_cases {call : Call} (h : s.handle governance now sender call = some s') :
    s'.executed = s.executed ∧
    ((s'.world.gov.proposals = s.world.gov.proposals ∧
        s'.world.gov.nextProposalId = s.world.gov.nextProposalId ∧ s'.proposed = s.proposed) ∨
      (∃ target data voteEnd, voteEnd.toNat = now.toNat + votingPeriod.toNat ∧
        s'.world.gov.nextProposalId.toNat = s.world.gov.nextProposalId.toNat + 1 ∧
        s'.world.gov.proposals = Function.update s.world.gov.proposals s.world.gov.nextProposalId
          ⟨target, data, voteEnd, 0, 0, false⟩ ∧
        s'.proposed = s.proposed ++ [⟨s.world.gov.nextProposalId, target, data, now⟩]) ∨
      (∃ id counted, now < (s.record id).voteEnd ∧
        counted = { s.record id with yes := counted.yes, no := counted.no } ∧
        s'.world.gov.proposals = Function.update s.world.gov.proposals id counted ∧
        s'.world.gov.nextProposalId = s.world.gov.nextProposalId ∧ s'.proposed = s.proposed)) := by
  cases call with
  | token call =>
      obtain ⟨core, -, hs⟩ := Option.bind_eq_some_iff.mp h
      cases hs
      exact ⟨rfl, Or.inl ⟨rfl, rfl, rfl⟩⟩
  | stake amount =>
      obtain ⟨world, hw, hs⟩ := Option.bind_eq_some_iff.mp h
      cases hs
      obtain ⟨core, stake, totalStake, -, -, -, rfl⟩ := World.stake_cases hw
      exact ⟨rfl, Or.inl ⟨rfl, rfl, rfl⟩⟩
  | withdraw amount =>
      obtain ⟨world, hw, hs⟩ := Option.bind_eq_some_iff.mp h
      cases hs
      obtain ⟨core, stake, totalStake, -, -, -, rfl⟩ := World.withdraw_cases hw
      exact ⟨rfl, Or.inl ⟨rfl, rfl, rfl⟩⟩
  | propose target data =>
      obtain ⟨world, hw, hs⟩ := Option.bind_eq_some_iff.mp h
      cases hs
      obtain ⟨nextProposalId, voteEnd, hnext, hend, rfl⟩ := World.propose_cases hw
      exact ⟨rfl, Or.inr (Or.inl ⟨target, data, voteEnd, hend, hnext, rfl, rfl⟩)⟩
  | vote id support =>
      obtain ⟨world, hw, hs⟩ := Option.bind_eq_some_iff.mp h
      cases hs
      obtain ⟨hopen, counted, hcount, rfl⟩ := World.vote_cases hw
      exact ⟨rfl, Or.inr (Or.inr ⟨id, counted, hopen, World.count_keeps hcount, rfl, rfl, rfl⟩)⟩
  | onAction target selector data =>
      cases h
      exact ⟨rfl, Or.inl ⟨rfl, rfl, rfl⟩⟩
  | view =>
      cases h
      exact ⟨rfl, Or.inl ⟨rfl, rfl, rfl⟩⟩

theorem execute_cases {id : U256} {made : Executed} (h : s.execute now id = some (s', made)) :
    (s.record id).executed = false ∧
      (s.record id).voteEnd.toNat + timelock.toNat ≤ now.toNat ∧
      (s.record id).no < (s.record id).yes ∧ quorum ≤ (s.record id).yes ∧
      made = ⟨id, (s.record id).target, (s.record id).data, now, (s.record id).yes,
        (s.record id).no⟩ ∧
      s'.world.gov.proposals =
        Function.update s.world.gov.proposals id { s.record id with executed := true } ∧
      s'.world.gov.nextProposalId = s.world.gov.nextProposalId ∧ s'.proposed = s.proposed ∧
      s'.executed = s.executed ++ [made] := by
  simp only [execute, Option.bind_eq_bind, Option.bind_eq_some_iff, require_eq_some,
    checkedAdd_eq_some, Option.pure_def, Option.some.injEq, Prod.mk.injEq] at h
  obtain ⟨_, hfresh, unlocked, hunlocked, _, hpassed, _, ⟨hmajority, hquorum⟩, rfl, rfl⟩ := h
  rw [BitVec.le_def, hunlocked] at hpassed
  exact ⟨hfresh, hpassed, hmajority, hquorum, rfl, rfl, rfl, rfl, rfl⟩

/-! ## What the logs record -/

/-- The execution had a proposal of the same call, created a voting period and a timelock before,
and a majority with a quorum. -/
structure Justified (proposed : List Proposed) (c : Executed) : Prop where
  proposal : ∃ p ∈ proposed, p.id = c.id ∧ p.target = c.target ∧ p.data = c.data ∧
    p.time.toNat + votingPeriod.toNat + timelock.toNat ≤ c.time.toNat
  majority : c.no < c.yes
  quorum : quorum ≤ c.yes

/-- The record says what was proposed and when the vote ends. -/
structure Describes (p : Proposed) (r : Proposal) : Prop where
  target : r.target = p.target
  data : r.data = p.data
  voteEnd : r.voteEnd.toNat = p.time.toNat + votingPeriod.toNat

/-- The execution is past, and its proposal still has the tallies it was executed on. -/
structure Settled (now : U256) (c : Executed) (r : Proposal) : Prop where
  past : c.time ≤ now
  done : r.executed = true
  yes : r.yes = c.yes
  no : r.no = c.no

/-- The logs and the records agree. -/
structure Recorded (now : U256) (s : Snapshot) : Prop where
  known : ∀ p ∈ s.proposed, p.id < s.world.gov.nextProposalId ∧ Describes p (s.record p.id)
  born : ∀ id, id < s.world.gov.nextProposalId → ∃ p ∈ s.proposed, p.id = id
  unborn : ∀ id, s.world.gov.nextProposalId ≤ id →
    (s.record id).voteEnd = 0 ∧ (s.record id).yes = 0
  ids : (s.proposed.map (·.id)).Nodup
  settled : ∀ c ∈ s.executed, Justified s.proposed c ∧ Settled now c (s.record c.id)
  once : (s.executed.map (·.id)).Nodup

theorem deploy_recorded (now : U256) (core : Core) : (deploy core).Recorded now where
  known p hp := by cases hp
  born id h := absurd h BitVec.not_lt_zero
  unborn _ _ := ⟨rfl, rfl⟩
  ids := List.nodup_nil
  settled c hc := by cases hc
  once := List.nodup_nil

theorem Recorded.later {now' : U256} (h : s.Recorded now) (hle : now ≤ now') :
    s.Recorded now' := by
  obtain ⟨known, born, unborn, ids, settled, once⟩ := h
  refine ⟨known, born, unborn, ids, ?_, once⟩
  intro c hc
  obtain ⟨hjust, past, done, yes, no⟩ := settled c hc
  exact ⟨hjust, BitVec.le_trans past hle, done, yes, no⟩

/-- An executed proposal is closed. -/
theorem Recorded.closed (h : s.Recorded now) {c : Executed} (hc : c ∈ s.executed) :
    (s.record c.id).voteEnd ≤ now := by
  obtain ⟨⟨⟨p, hp, hid, -, -, htime⟩, -, -⟩, hpast, -, -, -⟩ := h.settled c hc
  have hend := (h.known p hp).2.voteEnd
  rw [hid] at hend
  rw [BitVec.le_def] at hpast ⊢
  omega

theorem Recorded.of_eq (h : s.Recorded now) (hrecords : s'.record = s.record)
    (hnext : s'.world.gov.nextProposalId = s.world.gov.nextProposalId)
    (hproposed : s'.proposed = s.proposed) (hexecuted : s'.executed = s.executed) :
    s'.Recorded now := by
  obtain ⟨known, born, unborn, ids, settled, once⟩ := h
  refine ⟨?_, ?_, ?_, ?_, ?_, ?_⟩
  · rwa [hproposed, hnext, hrecords]
  · rwa [hproposed, hnext]
  · rwa [hnext, hrecords]
  · rwa [hproposed]
  · rwa [hexecuted, hproposed, hrecords]
  · rwa [hexecuted]

theorem Recorded.propose (h : s.Recorded now) {target : Address} {data : Bytes} {voteEnd : U256}
    (hend : voteEnd.toNat = now.toNat + votingPeriod.toNat)
    (hnext : s'.world.gov.nextProposalId.toNat = s.world.gov.nextProposalId.toNat + 1)
    (hrecords : s'.record = Function.update s.record s.world.gov.nextProposalId
      ⟨target, data, voteEnd, 0, 0, false⟩)
    (hproposed : s'.proposed = s.proposed ++ [⟨s.world.gov.nextProposalId, target, data, now⟩])
    (hexecuted : s'.executed = s.executed) : s'.Recorded now := by
  have hbelow : ∀ id, id < s'.world.gov.nextProposalId ↔
      id < s.world.gov.nextProposalId ∨ id = s.world.gov.nextProposalId := by
    intro id
    rw [BitVec.lt_def, BitVec.lt_def, hnext, ← BitVec.toNat_inj]
    omega
  have hold : ∀ p ∈ s.proposed, p.id ≠ s.world.gov.nextProposalId := by
    intro p hp heq
    have hlt := (h.known p hp).1
    rw [heq] at hlt
    exact BitVec.lt_irrefl _ hlt
  refine ⟨?_, ?_, ?_, ?_, ?_, ?_⟩
  · intro p hp
    rw [hproposed] at hp
    rcases List.mem_append.mp hp with hprev | hlast
    · obtain ⟨hlt, hdescribes⟩ := h.known p hprev
      rw [hrecords, Function.update_of_ne (hold p hprev)]
      exact ⟨(hbelow _).mpr (Or.inl hlt), hdescribes⟩
    · obtain rfl := List.mem_singleton.mp hlast
      rw [hrecords, Function.update_self]
      exact ⟨(hbelow _).mpr (Or.inr rfl), rfl, rfl, hend⟩
  · intro id hid
    rw [hproposed]
    rcases (hbelow id).mp hid with hlt | rfl
    · obtain ⟨p, hp, hpid⟩ := h.born id hlt
      exact ⟨p, List.mem_append_left _ hp, hpid⟩
    · exact ⟨_, List.mem_append_right _ (List.mem_singleton_self _), rfl⟩
  · intro id hid
    have hnot := mt (hbelow id).mpr (BitVec.not_lt.mpr hid)
    obtain ⟨hlt, hne⟩ := not_or.mp hnot
    rw [hrecords, Function.update_of_ne hne]
    exact h.unborn id (BitVec.not_lt.mp hlt)
  · rw [hproposed, List.map_append, List.nodup_append]
    refine ⟨h.ids, List.nodup_singleton _, ?_⟩
    intro id hid id' hid' heq
    obtain ⟨p, hp, rfl⟩ := List.mem_map.mp hid
    rw [List.map_singleton, List.mem_singleton] at hid'
    exact hold p hp (heq.trans hid')
  · intro c hc
    rw [hexecuted] at hc
    obtain ⟨⟨⟨p, hp, hpid, hcall⟩, hmajority, hquorum⟩, hsettled⟩ := h.settled c hc
    refine ⟨⟨⟨p, ?_, hpid, hcall⟩, hmajority, hquorum⟩, ?_⟩
    · rw [hproposed]
      exact List.mem_append_left _ hp
    · rw [hrecords, Function.update_of_ne (by rw [← hpid]; exact hold p hp)]
      exact hsettled
  · rw [hexecuted]
    exact h.once

/-- Only a proposal that was given out is still open, or was voted for. -/
theorem Recorded.given (h : s.Recorded now) {id : U256}
    (hvoted : now < (s.record id).voteEnd ∨ quorum ≤ (s.record id).yes) :
    id < s.world.gov.nextProposalId := by
  by_contra hnot
  obtain ⟨hend, hyes⟩ := h.unborn id (BitVec.not_lt.mp hnot)
  rw [hend, hyes] at hvoted
  rcases hvoted with hopen | hquorum
  · exact BitVec.not_lt_zero hopen
  · exact absurd hquorum (by decide)

/-- A given record may be revised without changing what it describes, as long as the log of the
executions stays right. -/
theorem Recorded.revise (h : s.Recorded now) {id : U256} {r : Proposal}
    (hgiven : id < s.world.gov.nextProposalId)
    (hsame : ∀ p, Describes p (s.record id) → Describes p r)
    (hrecords : s'.record = Function.update s.record id r)
    (hnext : s'.world.gov.nextProposalId = s.world.gov.nextProposalId)
    (hproposed : s'.proposed = s.proposed)
    (settled : ∀ c ∈ s'.executed, Justified s.proposed c ∧ Settled now c (s'.record c.id))
    (once : (s'.executed.map (·.id)).Nodup) : s'.Recorded now := by
  refine ⟨?_, ?_, ?_, ?_, ?_, once⟩
  · rw [hproposed, hnext, hrecords]
    intro p hp
    obtain ⟨hknown, hdescribes⟩ := h.known p hp
    refine ⟨hknown, ?_⟩
    by_cases hid : p.id = id
    · rw [hid] at hdescribes ⊢
      rw [Function.update_self]
      exact hsame p hdescribes
    · rwa [Function.update_of_ne hid]
  · rw [hnext, hproposed]
    exact h.born
  · intro j hj
    rw [hnext] at hj
    have hne : j ≠ id := by
      rintro rfl
      exact BitVec.not_le.mpr hgiven hj
    rw [hrecords, Function.update_of_ne hne]
    exact h.unborn j hj
  · rw [hproposed]
    exact h.ids
  · rwa [hproposed]

theorem Recorded.vote (h : s.Recorded now) {id : U256} {counted : Proposal}
    (hopen : now < (s.record id).voteEnd)
    (hcounted : counted = { s.record id with yes := counted.yes, no := counted.no })
    (hrecords : s'.record = Function.update s.record id counted)
    (hnext : s'.world.gov.nextProposalId = s.world.gov.nextProposalId)
    (hproposed : s'.proposed = s.proposed) (hexecuted : s'.executed = s.executed) :
    s'.Recorded now := by
  have hsame : ∀ p, Describes p (s.record id) → Describes p counted := by
    intro p hp
    rw [hcounted]
    exact ⟨hp.target, hp.data, hp.voteEnd⟩
  refine h.revise (h.given (Or.inl hopen)) hsame hrecords hnext hproposed ?_ ?_
  · intro c hc
    rw [hexecuted] at hc
    obtain ⟨hjust, hsettled⟩ := h.settled c hc
    -- an executed proposal is closed, so the vote is on another one
    have hne : c.id ≠ id := by
      rintro rfl
      exact BitVec.not_le.mpr hopen (h.closed hc)
    rw [hrecords, Function.update_of_ne hne]
    exact ⟨hjust, hsettled⟩
  · rw [hexecuted]
    exact h.once

theorem Recorded.execute (h : s.Recorded now) {id : U256} {made : Executed}
    (hexec : s.execute now id = some (s', made)) : s'.Recorded now := by
  obtain ⟨hfresh, hpassed, hmajority, hquorum, hmade, hrecords, hnext, hproposed, hexecuted⟩ :=
    execute_cases hexec
  replace hrecords : s'.record = Function.update s.record id { s.record id with executed := true } :=
    hrecords
  have hgiven := h.given (Or.inr hquorum)
  have hfirst : ∀ c ∈ s.executed, c.id ≠ id := by
    rintro c hc rfl
    have hdone := (h.settled c hc).2.done
    rw [hfresh] at hdone
    cases hdone
  have hsame : ∀ p, Describes p (s.record id) →
      Describes p { s.record id with executed := true } :=
    fun p hp => ⟨hp.target, hp.data, hp.voteEnd⟩
  refine h.revise hgiven hsame hrecords hnext hproposed ?_ ?_
  · intro c hc
    rw [hexecuted] at hc
    rcases List.mem_append.mp hc with hprev | hlast
    · rw [hrecords, Function.update_of_ne (hfirst c hprev)]
      exact h.settled c hprev
    · obtain rfl := List.mem_singleton.mp hlast
      obtain ⟨p, hp, hpid⟩ := h.born id hgiven
      obtain ⟨htarget, hdata, hend⟩ := (h.known p hp).2
      rw [hpid] at htarget hdata hend
      rw [hmade, hrecords, Function.update_self]
      refine ⟨⟨⟨p, hp, hpid, htarget.symm, hdata.symm, ?_⟩, hmajority, hquorum⟩,
        BitVec.le_refl _, rfl, rfl, rfl⟩
      simp only
      omega
  · rw [hexecuted, List.map_append, List.nodup_append]
    refine ⟨h.once, List.nodup_singleton _, ?_⟩
    intro j hj j' hj' heq
    obtain ⟨c, hc, rfl⟩ := List.mem_map.mp hj
    rw [List.map_singleton, List.mem_singleton, hmade] at hj'
    exact hfirst c hc (heq.trans hj')

theorem Recorded.handle (h : s.Recorded now) {call : Call}
    (hcall : s.handle governance now sender call = some s') : s'.Recorded now := by
  obtain ⟨hexecuted, ⟨hrecords, hnext, hproposed⟩ | ⟨target, data, voteEnd, hend, hnext, hrecords,
    hproposed⟩ | ⟨id, counted, hopen, hcounted, hrecords, hnext, hproposed⟩⟩ := handle_cases hcall
  · exact h.of_eq hrecords hnext hproposed hexecuted
  · exact h.propose hend hnext hrecords hproposed hexecuted
  · exact h.vote hopen hcounted hrecords hnext hproposed hexecuted

/-! ## Closed proposals -/

/-- The proposal exists and its vote is over. -/
def Closed (now : U256) (s : Snapshot) (id : U256) : Prop :=
  id < s.world.gov.nextProposalId ∧ (s.record id).voteEnd ≤ now

/-- The same proposals are closed, with the same call and the same tallies. -/
structure SameClosed (now : U256) (a b : Snapshot) : Prop where
  closed : ∀ id, Closed now a id ↔ Closed now b id
  record : ∀ id, Closed now a id →
    b.record id = { a.record id with executed := (b.record id).executed }

theorem SameClosed.refl (now : U256) (a : Snapshot) : SameClosed now a a :=
  ⟨fun _ => Iff.rfl, fun _ _ => rfl⟩

theorem SameClosed.symm {a b : Snapshot} (h : SameClosed now a b) : SameClosed now b a := by
  refine ⟨fun id => (h.closed id).symm, ?_⟩
  intro id hid
  rw [h.record id ((h.closed id).mpr hid)]

theorem SameClosed.trans {a b c : Snapshot} (hab : SameClosed now a b) (hbc : SameClosed now b c) :
    SameClosed now a c := by
  refine ⟨fun id => (hab.closed id).trans (hbc.closed id), ?_⟩
  intro id hid
  rw [hbc.record id ((hab.closed id).mp hid), hab.record id hid]

/-- A call leaves the closed proposals as they are. -/
theorem handle_sameClosed {call : Call} (hcall : s.handle governance now sender call = some s') :
    SameClosed now s s' := by
  obtain ⟨-, ⟨hrecords, hnext, -⟩ | ⟨target, data, voteEnd, hend, hnext, hrecords, -⟩ |
    ⟨id, counted, hopen, hcounted, hrecords, hnext, -⟩⟩ := handle_cases hcall
  · replace hrecords : s'.record = s.record := hrecords
    refine ⟨fun id => ?_, fun id _ => ?_⟩
    · rw [Closed, Closed, hrecords, hnext]
    · rw [hrecords]
  · replace hrecords : s'.record = Function.update s.record s.world.gov.nextProposalId
      ⟨target, data, voteEnd, 0, 0, false⟩ := hrecords
    have hperiod : 0 < votingPeriod.toNat := by decide
    -- the new proposal is not closed, and was not there before
    have hclosed : ∀ id, Closed now s id ↔ Closed now s' id := by
      intro id
      simp only [Closed, hrecords, BitVec.lt_def, BitVec.le_def, hnext]
      by_cases hid : id = s.world.gov.nextProposalId
      · subst hid
        rw [Function.update_self]
        dsimp only
        omega
      · rw [Function.update_of_ne hid]
        have hne := mt BitVec.eq_of_toNat_eq hid
        omega
    refine ⟨hclosed, fun id hid => ?_⟩
    have hne : id ≠ s.world.gov.nextProposalId := by
      rintro rfl
      exact BitVec.lt_irrefl _ hid.1
    rw [hrecords, Function.update_of_ne hne]
  · replace hrecords : s'.record = Function.update s.record id counted := hrecords
    have hend : counted.voteEnd = (s.record id).voteEnd := by rw [hcounted]
    refine ⟨fun j => ?_, fun j hj => ?_⟩
    · rw [Closed, Closed, hrecords, hnext]
      by_cases hj : j = id
      · rw [hj, Function.update_self, hend]
      · rw [Function.update_of_ne hj]
    · have hne : j ≠ id := by
        rintro rfl
        exact BitVec.not_le.mpr hopen hj.2
      rw [hrecords, Function.update_of_ne hne]

theorem execute_sameClosed {id : U256} {made : Executed}
    (hexec : s.execute now id = some (s', made)) : SameClosed now s s' := by
  obtain ⟨-, -, -, -, -, hrecords, hnext, -, -⟩ := execute_cases hexec
  replace hrecords : s'.record = Function.update s.record id { s.record id with executed := true } :=
    hrecords
  refine ⟨fun j => ?_, fun j hj => ?_⟩
  · rw [Closed, Closed, hrecords, hnext]
    by_cases hj : j = id
    · rw [hj, Function.update_self]
    · rw [Function.update_of_ne hj]
  · rw [hrecords]
    by_cases hj : j = id
    · rw [hj, Function.update_self]
    · rw [Function.update_of_ne hj]

end Snapshot

/-! ## What an event does to the open calls -/

namespace State
variable {env : Deployment} {sender : Address} {s s' : State} {m : Message} {ev : Event}

theorem perform_cases (h : s.perform env sender m = some s') :
    (∃ call x, m = .call call ∧
      s.current.handle env.governance s.now sender call = some x ∧
      s' = { s with calls := s.calls.replace x }) ∨
    (∃ id x made runner, m = .execute id ∧ s.current.execute s.now id = some (x, made) ∧
      env.callee made.target made.data = some runner ∧
      s' = { s with calls := (s.calls.push runner).replace x }) := by
  cases m with
  | call call =>
      obtain ⟨x, hx, hs⟩ := Option.bind_eq_some_iff.mp h
      exact Or.inl ⟨call, x, rfl, hx, (Option.some.inj hs).symm⟩
  | execute id =>
      obtain ⟨⟨x, made⟩, hx, hs⟩ := Option.bind_eq_some_iff.mp h
      obtain ⟨runner, hrunner, hs⟩ := Option.bind_eq_some_iff.mp hs
      exact Or.inr ⟨id, x, made, runner, rfl, hx, hrunner, (Option.some.inj hs).symm⟩

theorem fail_cases (h : s.fail = some s') :
    ∃ calls, s.calls.abort Runner.isOwn = some calls ∧ s' = { s with calls } := by
  obtain ⟨calls, hcalls, hs⟩ := Option.bind_eq_some_iff.mp h
  exact ⟨calls, hcalls, (Option.some.inj hs).symm⟩

/-- The message an event delivers to one of the two contracts, and its sender. -/
def delivers (env : Deployment) (s : State) : Event → Option (Address × Message)
  | .message sender m => some (sender, m)
  | .own => s.todo.map fun m => (env.governance, m)
  | _ => none

variable {P : Snapshot → Prop}

theorem perform_holds (h : s.perform env sender m = some s') (hs : s.calls.Holds P)
    (hcall : ∀ call x, m = .call call →
      s.current.handle env.governance s.now sender call = some x → P x)
    (hexecute : ∀ id x made, m = .execute id → s.current.execute s.now id = some (x, made) → P x) :
    s'.calls.Holds P ∧ s'.now = s.now := by
  obtain ⟨call, x, hm, hx, rfl⟩ | ⟨id, x, made, runner, hm, hx, -, rfl⟩ := perform_cases h
  · exact ⟨hs.replace (hcall call x hm hx), rfl⟩
  · exact ⟨hs.push.replace (hexecute id x made hm hx), rfl⟩

theorem fail_holds (h : s.fail = some s') (hs : s.calls.Holds P) :
    s'.calls.Holds P ∧ s'.now = s.now := by
  obtain ⟨calls, hcalls, rfl⟩ := fail_cases h
  exact ⟨hs.abort hcalls, rfl⟩

/-- **The step rule.** What the message of an event keeps holds, with all states saved, after the
event. Time passes only between transactions. -/
theorem step_holds (h : s.step env ev = some s') (hs : s.calls.Holds P)
    (hcall : ∀ sender call x, s.delivers env ev = some (sender, .call call) →
      s.current.handle env.governance s.now sender call = some x → P x)
    (hexecute : ∀ sender id x made, s.delivers env ev = some (sender, .execute id) →
      s.current.execute s.now id = some (x, made) → P x) :
    s'.calls.Holds P ∧ (s'.now = s.now ∨
      s.now ≤ s'.now ∧ s.calls.frames = [] ∧ s'.calls = s.calls) := by
  cases ev with
  | tick now =>
      obtain ⟨_, hreq, hs'⟩ := Option.bind_eq_some_iff.mp h
      obtain ⟨hidle, hle⟩ := require_eq_some.mp hreq
      cases hs'
      exact ⟨hs, Or.inr ⟨hle, List.isEmpty_iff.mp hidle, rfl⟩⟩
  | message sender m =>
      obtain ⟨_, -, hperform⟩ := Option.bind_eq_some_iff.mp h
      have hdelivers : s.delivers env (.message sender m) = some (sender, m) := rfl
      obtain ⟨hheld, hnow⟩ := perform_holds hperform hs
        (fun call x hm hx => hcall sender call x (by rw [hdelivers, hm]) hx)
        (fun id x made hm hx => hexecute sender id x made (by rw [hdelivers, hm]) hx)
      exact ⟨hheld, Or.inl hnow⟩
  | own =>
      obtain ⟨m, htodo, hown⟩ := Option.bind_eq_some_iff.mp h
      have hdelivers : s.delivers env .own = some (env.governance, m) := by
        rw [delivers, htodo, Option.map_some]
      -- the call is made from the same contracts
      let called : State := { s with calls := s.calls.become (.own none) }
      have hcurrent : called.current = s.current := s.calls.become_current _
      have hsaved : called.calls.Holds P := hs.become
      obtain hperform | hfail : called.perform env env.governance m = some s' ∨
          called.fail = some s' := by
        cases hp : called.perform env env.governance m with
        | none => exact Or.inr (by simpa [called, hp] using hown)
        | some t => exact Or.inl (by simpa [called, hp] using hown)
      · obtain ⟨hheld, hnow⟩ := perform_holds hperform hsaved
          (fun call x hm hx => hcall _ call x (by rw [hdelivers, hm]) (by rwa [hcurrent] at hx))
          (fun id x made hm hx =>
            hexecute _ id x made (by rw [hdelivers, hm]) (by rwa [hcurrent] at hx))
        exact ⟨hheld, Or.inl hnow⟩
      · obtain ⟨hheld, hnow⟩ := fail_holds hfail hsaved
        exact ⟨hheld, Or.inl hnow⟩
  | enter =>
      obtain ⟨_, -, hs'⟩ := Option.bind_eq_some_iff.mp h
      cases hs'
      exact ⟨hs.push, Or.inl rfl⟩
  | leave ok =>
      cases ok with
      | true =>
          obtain ⟨_, -, hcommit⟩ := Option.bind_eq_some_iff.mp h
          obtain ⟨calls, hcalls, hs'⟩ := Option.bind_eq_some_iff.mp hcommit
          cases hs'
          exact ⟨hs.commit hcalls, Or.inl rfl⟩
      | false =>
          obtain ⟨hheld, hnow⟩ := fail_holds h hs
          exact ⟨hheld, Or.inl hnow⟩

/-! ## Every run -/

/-- The logs are right and no open call can bring a closed proposal back differently. -/
structure Sound (s : State) : Prop where
  recorded : s.calls.Holds (Snapshot.Recorded s.now)
  sameClosed : s.calls.Holds (Snapshot.SameClosed s.now s.current)

/-- **One event.** It keeps the logs right and the closed proposals as they are. -/
theorem Sound.step (hs : s.Sound) (h : s.step env ev = some s') :
    s'.Sound ∧ s.now ≤ s'.now ∧ Snapshot.SameClosed s.now s.current s'.current := by
  have hcurrent := hs.recorded.current
  obtain ⟨hrecorded, htime⟩ := step_holds h hs.recorded
    (fun sender call x _ hx => hcurrent.handle hx)
    (fun sender id x made _ hx => hcurrent.execute hx)
  obtain ⟨hsame, -⟩ := step_holds h hs.sameClosed
    (fun sender call x _ hx => Snapshot.handle_sameClosed hx)
    (fun sender id x made _ hx => Snapshot.execute_sameClosed hx)
  have hsince : Snapshot.SameClosed s.now s.current s'.current := hsame.current
  rcases htime with hnow | ⟨hle, hidle, hcalls⟩
  · rw [← hnow] at hrecorded hsame hsince ⊢
    refine ⟨⟨hrecorded, ?_⟩, BitVec.le_refl _, hsince⟩
    exact hsame.imp fun x hx => hsince.symm.trans hx
  · refine ⟨⟨?_, ?_⟩, hle, hsince⟩
    · exact hrecorded.imp fun x hx => hx.later hle
    · -- between transactions nothing is saved
      intro x hx
      rw [hcalls, Stack.snapshots, hidle, List.map_nil, List.mem_singleton] at hx
      rw [hx, current, hcalls]
      exact Snapshot.SameClosed.refl _ _

/-- What a state guarantees of the executions so far. -/
structure ExecutesAsVoted (env : Deployment) (s : State) : Prop where
  /-- Every execution was proposed, approved and late enough. -/
  justified : ∀ c ∈ s.current.executed, Snapshot.Justified s.current.proposed c
  /-- The tallies are still those it was executed on. -/
  tallies : ∀ c ∈ s.current.executed,
    (s.current.record c.id).yes = c.yes ∧ (s.current.record c.id).no = c.no
  proposedOnce : (s.current.proposed.map (·.id)).Nodup
  executedOnce : (s.current.executed.map (·.id)).Nodup
  /-- An accepted `execute` is logged at its time, and makes the call that is logged. -/
  logged : ∀ sender id s', s.perform env sender (.execute id) = some s' →
    ∃ c, s'.current.executed = s.current.executed ++ [c] ∧ c.id = id ∧ c.time = s.now ∧
      s'.calls.frames.head?.map Frame.kind = env.callee c.target c.data
  /-- An id that was never proposed can be neither voted on nor executed. -/
  unknown : ∀ id, (∀ p ∈ s.current.proposed, p.id ≠ id) → ∀ sender,
    (∀ support, s.perform env sender (.call (.vote id support)) = none) ∧
      s.perform env sender (.execute id) = none

theorem perform_logged {id : U256} (h : s.perform env sender (.execute id) = some s') :
    ∃ c, s'.current.executed = s.current.executed ++ [c] ∧ c.id = id ∧ c.time = s.now ∧
      s'.calls.frames.head?.map Frame.kind = env.callee c.target c.data := by
  obtain ⟨_, _, hm, -⟩ | ⟨j, x, made, runner, hm, hx, hrunner, rfl⟩ := perform_cases h
  · cases hm
  · cases hm
    obtain ⟨-, -, -, -, hmade, -, -, -, hexecuted⟩ := Snapshot.execute_cases hx
    exact ⟨made, hexecuted, by rw [hmade], by rw [hmade], hrunner.symm⟩

theorem Sound.executesAsVoted (hs : s.Sound) : s.ExecutesAsVoted env := by
  have h := hs.recorded.current
  refine ⟨fun c hc => (h.settled c hc).1, ?_, h.ids, h.once, fun _ _ _ => perform_logged, ?_⟩
  · intro c hc
    obtain ⟨-, -, -, hyes, hno⟩ := h.settled c hc
    exact ⟨hyes, hno⟩
  · intro id hunknown sender
    have hnot : ¬ id < s.current.world.gov.nextProposalId := by
      intro hlt
      obtain ⟨p, hp, hid⟩ := h.born id hlt
      exact hunknown p hp hid
    refine ⟨fun support => ?_, ?_⟩
    · rw [Option.eq_none_iff_forall_ne_some]
      intro s' hvote
      obtain ⟨call, x, hm, hx, -⟩ | ⟨_, _, _, _, hm, -⟩ := perform_cases hvote
      · cases hm
        obtain ⟨world, hw, -⟩ := Option.bind_eq_some_iff.mp hx
        exact hnot (h.given (Or.inl (World.vote_cases hw).1))
      · cases hm
    · rw [Option.eq_none_iff_forall_ne_some]
      intro s' hexecute
      obtain ⟨_, _, hm, -⟩ | ⟨j, x, made, runner, hm, hx, -, -⟩ := perform_cases hexecute
      · cases hm
      · cases hm
        obtain ⟨-, -, -, hquorum, -⟩ := Snapshot.execute_cases hx
        exact hnot (h.given (Or.inr hquorum))

end State

theorem start_sound (admin : Address) (setup : List (Tx Core.Call)) (now : U256) :
    (start admin setup now).Sound where
  recorded := Stack.holds_nil.mpr (Snapshot.deploy_recorded now _)
  sameClosed := Stack.holds_nil.mpr (Snapshot.SameClosed.refl now _)

theorem run_sound (env : Deployment) (admin : Address) (setup : List (Tx Core.Call)) (now : U256)
    (evs : List Event) : (run env admin setup now evs).Sound :=
  revert_induction State.Sound (start_sound admin setup now) (fun _ _ _ hs h => (hs.step h).1) evs

/-- **Execution follows the vote.** In every run, with calls nested and rolled back in any way,
every execution is justified by its proposal and is the only one of it, unknown proposals stay
untouched, and the tallies of a proposal whose vote is over never change again. -/
theorem execution_follows_vote (env : Deployment) (admin : Address) (setup : List (Tx Core.Call))
    (now : U256) (evs : List Event) :
    (run env admin setup now evs).ExecutesAsVoted env ∧
      ∀ id, Snapshot.Closed (run env admin setup now evs).now (run env admin setup now evs).current
        id → ∀ more,
        ((run env admin setup now (evs ++ more)).current.record id).yes =
            ((run env admin setup now evs).current.record id).yes ∧
          ((run env admin setup now (evs ++ more)).current.record id).no =
            ((run env admin setup now evs).current.record id).no := by
  refine ⟨(run_sound env admin setup now evs).executesAsVoted, ?_⟩
  intro id hclosed more
  let s := run env admin setup now evs
  let P (t : State) : Prop := t.Sound ∧ Snapshot.Closed t.now t.current id ∧
    (t.current.record id).yes = (s.current.record id).yes ∧
    (t.current.record id).no = (s.current.record id).no
  have hrun : P (exec (revert (State.step env)) s more) := by
    apply revert_induction P ⟨run_sound env admin setup now evs, hclosed, rfl, rfl⟩
    rintro t ev t' ⟨hsound, ht, hyes, hno⟩ hstep
    obtain ⟨hsound', hle, hsame⟩ := hsound.step hstep
    have ht' := (hsame.closed id).mp ht
    refine ⟨hsound', ⟨ht'.1, BitVec.le_trans ht'.2 hle⟩, ?_, ?_⟩
    · rw [hsame.record id ht]
      exact hyes
    · rw [hsame.record id ht]
      exact hno
  rw [run, exec_append]
  exact hrun.2.2

end ChainBeasts.Contracts.Governance.Execution
