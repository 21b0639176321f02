import ChainBeasts.Contracts.GovernanceExecution
import ChainBeasts.Evm.Abi

/-! # `SeasonRegistry.sol` under the governance contract

The registry holds the constants of a season, and one address may change them. Where that is the
governance contract, a change is the call of an executed proposal. After most changes the registry
calls a hook in turn, which may be any contract, so the change may be in the middle of others; and a
hook that fails is caught, so that what it did is taken back and the change stays.

`voted` are the calls to the registry among the executions, `made` those that the governance contract
got through. They are the same in every run, see `registry_follows_votes`. -/

namespace ChainBeasts.Contracts

open ChainBeasts.Evm ChainBeasts.Machine ChainBeasts.Rollback
open ChainBeasts.Contracts.Governance (Execution.Snapshot)

structure SeasonRegistry where
  governance : Address
  governanceHook : Address
  tables : Bytes32 → Bytes
  maxNetworkBytes : U256

namespace SeasonRegistry

/-- The external functions that write. -/
inductive Call where
  | setGovernanceHook (hook : Address)
  | setTable (key : Bytes32) (data : Bytes)
  | setGovernance (newGovernance : Address)
  | setMaxNetworkBytes (limit : U256)
  deriving DecidableEq

/-- The constructor. -/
def deploy (sender governanceAddr : Address) : SeasonRegistry where
  governance := if governanceAddr = zeroAddress then sender else governanceAddr
  governanceHook := zeroAddress
  tables _ := []
  maxNetworkBytes := 64 * 1024

def write (s : SeasonRegistry) : Call → SeasonRegistry
  | .setGovernanceHook hook => { s with governanceHook := hook }
  | .setTable key data => { s with tables := Function.update s.tables key data }
  | .setGovernance newGovernance => { s with governance := newGovernance }
  | .setMaxNetworkBytes limit => { s with maxNetworkBytes := limit }

/-- The setters, up to the notification. -/
def step (s : SeasonRegistry) (sender : Address) (call : Call) : Option SeasonRegistry := do
  require (sender = s.governance)
  return s.write call

/-- What `_notifyHook` is given. The hook is not told of its own change. -/
def notification : Call → Option (U32 × Bytes)
  | .setGovernanceHook _ => none
  | .setTable key data => some (0x6d0fd311, packWord key ++ packWord 64 ++ Abi.tail data)
  | .setGovernance newGovernance => some (0xab033ea9, packWord (newGovernance.setWidth 256))
  | .setMaxNetworkBytes limit => some (0xe7b275d1, packWord limit)

theorem step_eq_some {s s' : SeasonRegistry} {sender : Address} {call : Call} :
    s.step sender call = some s' ↔ sender = s.governance ∧ s.write call = s' := by
  simp only [step, Option.bind_eq_bind, Option.bind_eq_some_iff, require_eq_some, Option.pure_def,
    Option.some.injEq, exists_and_left, exists_const]

/-! ## The two contracts -/

/-- An accepted change, with who made it and when. -/
structure Change where
  sender : Address
  call : Call
  time : U256
  deriving DecidableEq

/-- The governance contract with its token, the registry, and the changes made so far. -/
structure World where
  gov : Execution.Snapshot
  registry : SeasonRegistry
  changes : List Change

/-- What call data means to the registry. -/
inductive Message where
  | set (call : Call)
  | view

/-- Where the registry is, beside the governance contract. -/
structure Deployment extends Governance.Execution.Deployment where
  registry : Address
  registryAbi : Bytes → Option Message
  hasCode : Address → Bool
  governance_ne_zero : governance ≠ zeroAddress

/-- Who runs in an open call: the registry may be the target of a proposal. -/
inductive Runner where
  | other (runner : Governance.Execution.Runner)
  | registry (todo : Option Message)

/-- A failure inside goes through to the caller. The registry catches those of its hook. -/
def Runner.isOwn : Runner → Bool
  | .other runner => runner.isOwn
  | .registry _ => false

structure State where
  now : U256
  calls : Stack Runner World

inductive Event where
  | tick (now : U256)
  /-- An account or foreign code calls the token or the governance contract. -/
  | message (sender : Address) (m : Governance.Execution.Message)
  /-- An account or foreign code calls a setter of the registry. -/
  | set (sender : Address) (call : Call)
  /-- The contract makes the call of the proposal it executes. -/
  | own
  | enter
  | leave (ok : Bool)

namespace State

def current (s : State) : World := s.calls.current

/-- Who answers a call to `target`. -/
def callee (env : Deployment) (target : Address) (data : Bytes) : Option Runner :=
  if target = env.registry then (env.registryAbi data).map fun m => .registry (some m)
  else (env.toDeployment.callee target data).map .other

def perform (env : Deployment) (s : State) (sender : Address) :
    Governance.Execution.Message → Option State
  | .call call => do
      let gov ← s.current.gov.handle env.governance s.now sender call
      return { s with calls := s.calls.replace { s.current with gov } }
  | .execute id => do
      let (gov, made) ← s.current.gov.execute s.now id
      let runner ← callee env made.target made.data
      return { s with calls := (s.calls.push runner).replace { s.current with gov } }

/-- `_notifyHook`. A hook without code makes the call revert, as a `try` does not catch that. The
governance contract takes note of the action, and neither the token nor the registry has such a
function. -/
def notify (env : Deployment) (s : State) (call : Call) : Option State :=
  match notification call with
  | none => some s
  | some (selector, data) =>
    let hook := s.current.registry.governanceHook
    if hook = zeroAddress then some s
    else if env.hasCode hook = false then none
    else if hook = env.governance then
      s.perform env env.registry (.call (.onAction env.registry selector data))
    else if hook = env.token ∨ hook = env.registry then some s
    else some { s with calls := s.calls.push (.other .foreign) }

/-- A setter. -/
def set (env : Deployment) (s : State) (sender : Address) (call : Call) : Option State := do
  let registry ← s.current.registry.step sender call
  let changes := s.current.changes ++ [⟨sender, call, s.now⟩]
  let written : State := { s with calls := s.calls.replace { s.current with registry, changes } }
  written.notify env call

def fail (s : State) : Option State := do
  let calls ← s.calls.abort Runner.isOwn
  return { s with calls }

/-- Foreign code runs, or an account may start a transaction. -/
def Foreign (s : State) : Bool :=
  match s.calls.frames.head?.map Frame.kind with
  | none => true
  | some (.other .foreign) => true
  | _ => false

/-- The innermost open call, before it has done what it is for. -/
inductive Todo where
  | message (m : Governance.Execution.Message)
  | registry (m : Message)

def todo (s : State) : Option Todo :=
  match s.calls.frames.head?.map Frame.kind with
  | some (.other (.own (some m))) => some (.message m)
  | some (.registry (some m)) => some (.registry m)
  | _ => none

/-- The call that the governance contract makes, as itself. -/
def own (env : Deployment) (s : State) : Todo → Option State
  | .message m =>
      let called : State := { s with calls := s.calls.become (.other (.own none)) }
      called.perform env env.governance m
  | .registry (.set call) =>
      let called : State := { s with calls := s.calls.become (.registry none) }
      called.set env env.governance call
  | .registry .view => some { s with calls := s.calls.become (.registry none) }

def step (env : Deployment) (s : State) : Event → Option State
  | .tick now => do
      require (s.calls.frames.isEmpty ∧ s.now ≤ now)
      return { s with now }
  | .message sender m => do
      require (s.Foreign ∧ sender ≠ env.governance ∧ sender ≠ env.registry)
      s.perform env sender m
  | .set sender call => do
      require (s.Foreign ∧ sender ≠ env.governance ∧ sender ≠ env.registry)
      s.set env sender call
  | .own => do
      let t ← s.todo
      -- where the call fails, so does `execute`
      s.own env t <|> s.fail
  | .enter => do
      require s.Foreign
      return { s with calls := s.calls.push (.other .foreign) }
  | .leave true => do
      require (s.todo.isNone)
      let calls ← s.calls.commit
      return { s with calls }
  | .leave false => s.fail

end State

/-- The registry is deployed by `deployer` beside the governance contract, for it. -/
def start (env : Deployment) (deployer admin : Address) (setup : List (Tx Core.Call)) (now : U256) :
    State :=
  ⟨now, ⟨⟨.deploy (Core.run admin setup), deploy deployer env.governance, []⟩, []⟩⟩

def run (env : Deployment) (deployer admin : Address) (setup : List (Tx Core.Call)) (now : U256)
    (evs : List Event) : State :=
  exec (revert (State.step env)) (start env deployer admin setup now) evs

/-! ## What was voted and what was made -/

/-- The call to the registry that an execution is, and when. -/
def asked (env : Deployment) (e : Governance.Execution.Executed) : Option (Call × U256) :=
  if e.target = env.registry then
    match env.registryAbi e.data with
    | some (.set call) => some (call, e.time)
    | _ => none
  else none

/-- The calls to the registry among the executions. -/
def voted (env : Deployment) (w : World) : List (Call × U256) :=
  w.gov.executed.filterMap (asked env)

/-- The changes that the governance contract made. -/
def made (env : Deployment) (w : World) : List (Call × U256) :=
  (w.changes.filter fun c => c.sender = env.governance).map fun c => (c.call, c.time)

/-- The registry is what the changes make of it, each of them by its governance of that moment. -/
def Replayed (env : Deployment) (deployer : Address) (w : World) : Prop :=
  w.changes.foldlM (fun r c => r.step c.sender c.call) (deploy deployer env.governance) =
    some w.registry

structure Kept (env : Deployment) (deployer : Address) (now : U256) (w : World) : Prop where
  recorded : w.gov.Recorded now
  replayed : Replayed env deployer w

section Steps
variable {env : Deployment} {deployer sender : Address} {now : U256} {w : World} {s s' : State}

theorem voted_concat {gov : Execution.Snapshot} {e : Governance.Execution.Executed}
    (h : gov.executed = w.gov.executed ++ [e]) :
    voted env { w with gov } = voted env w ++ (asked env e).toList := by
  unfold voted
  rw [h, List.filterMap_append]
  cases hasked : asked env e <;> simp [hasked]

theorem made_concat (registry : SeasonRegistry) (c : Change) :
    made env { w with registry, changes := w.changes ++ [c] } =
      made env w ++ if c.sender = env.governance then [(c.call, c.time)] else [] := by
  unfold made
  rw [List.filter_append, List.map_append]
  by_cases h : c.sender = env.governance <;> simp [h]

theorem Kept.set (h : Kept env deployer now w) {registry : SeasonRegistry} {c : Change}
    (hstep : w.registry.step c.sender c.call = some registry) :
    Kept env deployer now { w with registry, changes := w.changes ++ [c] } := by
  refine ⟨h.recorded, ?_⟩
  have hbefore := h.replayed
  unfold Replayed at hbefore ⊢
  simp [List.foldlM_append, hbefore, hstep]

/-- A call to the governance contract, or to the token, is no change of the registry. -/
theorem Kept.handle (h : Kept env deployer now w) {call : Governance.Execution.Call}
    {gov : Execution.Snapshot} (hcall : w.gov.handle env.governance now sender call = some gov) :
    Kept env deployer now { w with gov } ∧ voted env { w with gov } = voted env w := by
  refine ⟨⟨h.recorded.handle hcall, h.replayed⟩, ?_⟩
  unfold voted
  rw [(Governance.Execution.Snapshot.handle_cases hcall).1]

/-! ## One event -/

/-- No open call but the innermost one has a change still to make. -/
def Quiet (frames : List (Frame Runner World)) : Prop :=
  ∀ f ∈ frames, ∀ call, f.kind ≠ .registry (some (.set call))

/-- The change that an open call has still to make. -/
def Runner.pending (now : U256) : Runner → List (Call × U256)
  | .registry (some (.set call)) => [(call, now)]
  | _ => []

def State.pending (s : State) : List (Call × U256) :=
  match s.calls.frames with
  | [] => []
  | f :: _ => f.kind.pending s.now

/-- What holds of the open calls: what is saved is as it should be, and what was voted was made when
it was saved. -/
structure Saved (env : Deployment) (deployer : Address) (now : U256)
    (frames : List (Frame Runner World)) : Prop where
  kept : ∀ f ∈ frames, Kept env deployer now f.saved
  even : ∀ f ∈ frames, voted env f.saved = made env f.saved

/-- Nothing is on its way. -/
structure Calm (env : Deployment) (deployer : Address) (s : State) : Prop where
  kept : Kept env deployer s.now s.current
  even : voted env s.current = made env s.current
  saved : Saved env deployer s.now s.calls.frames
  quiet : Quiet s.calls.frames

/-- What was voted was made, but for what the innermost call has still to make. -/
structure Sound (env : Deployment) (deployer : Address) (s : State) : Prop where
  kept : Kept env deployer s.now s.current
  even : voted env s.current = made env s.current ++ s.pending
  saved : Saved env deployer s.now s.calls.frames
  quiet : Quiet s.calls.frames.tail

theorem Runner.pending_eq_nil {runner : Runner} (h : ∀ call, runner ≠ .registry (some (.set call))) :
    runner.pending now = [] := by
  match runner, h with
  | .registry (some (.set call)), h => exact absurd rfl (h call)
  | .registry (some .view), _ => rfl
  | .registry none, _ => rfl
  | .other _, _ => rfl

theorem pending_of_quiet (h : Quiet s.calls.frames) : s.pending = [] := by
  unfold State.pending
  split
  · rfl
  · next f rest hframes =>
      rw [hframes] at h
      exact Runner.pending_eq_nil (h f List.mem_cons_self)

theorem Calm.sound (h : Calm env deployer s) : Sound env deployer s where
  kept := h.kept
  even := by rw [pending_of_quiet h.quiet, List.append_nil, h.even]
  saved := h.saved
  quiet f hf := h.quiet f (List.mem_of_mem_tail hf)

/-- Nothing is on its way where the innermost call has no change to make. -/
theorem Sound.calm (h : Sound env deployer s)
    (hhead : ∀ f ∈ s.calls.frames.head?, ∀ call, f.kind ≠ .registry (some (.set call))) :
    Calm env deployer s := by
  have hquiet : Quiet s.calls.frames := by
    have htail := h.quiet
    cases hframes : s.calls.frames with
    | nil => exact fun f hf => absurd hf List.not_mem_nil
    | cons f rest =>
        rw [hframes] at hhead htail
        exact List.forall_mem_cons.mpr ⟨hhead f rfl, htail⟩
  refine ⟨h.kept, ?_, h.saved, hquiet⟩
  rw [h.even, pending_of_quiet hquiet, List.append_nil]

theorem perform_cases {m : Governance.Execution.Message} (h : s.perform env sender m = some s') :
    (∃ call gov, m = .call call ∧
      s.current.gov.handle env.governance s.now sender call = some gov ∧
      s' = { s with calls := s.calls.replace { s.current with gov } }) ∨
    (∃ id gov e runner, m = .execute id ∧ s.current.gov.execute s.now id = some (gov, e) ∧
      State.callee env e.target e.data = some runner ∧
      s' = { s with calls := (s.calls.push runner).replace { s.current with gov } }) := by
  cases m with
  | call call =>
      obtain ⟨gov, hgov, hs⟩ := Option.bind_eq_some_iff.mp h
      exact Or.inl ⟨call, gov, rfl, hgov, (Option.some.inj hs).symm⟩
  | execute id =>
      obtain ⟨⟨gov, e⟩, hgov, hs⟩ := Option.bind_eq_some_iff.mp h
      obtain ⟨runner, hrunner, hs⟩ := Option.bind_eq_some_iff.mp hs
      exact Or.inr ⟨id, gov, e, runner, rfl, hgov, hrunner, (Option.some.inj hs).symm⟩

/-- An execution that is a change of the registry has that change to make. -/
theorem pending_callee {e : Governance.Execution.Executed} {runner : Runner}
    (h : State.callee env e.target e.data = some runner) :
    runner.pending e.time = (asked env e).toList := by
  unfold State.callee at h
  unfold asked
  by_cases htarget : e.target = env.registry
  · rw [if_pos htarget] at h ⊢
    obtain ⟨m, hm, rfl⟩ := Option.map_eq_some_iff.mp h
    rw [hm]
    cases m with
    | set call => rfl
    | view => rfl
  · rw [if_neg htarget] at h ⊢
    obtain ⟨r, -, rfl⟩ := Option.map_eq_some_iff.mp h
    rfl

theorem Calm.push (h : Calm env deployer s) (runner : Runner) :
    Saved env deployer s.now (s.calls.push runner).frames :=
  ⟨List.forall_mem_cons.mpr ⟨h.kept, h.saved.kept⟩, List.forall_mem_cons.mpr ⟨h.even, h.saved.even⟩⟩

/-- A call to the governance contract or to the token. -/
theorem Calm.call (h : Calm env deployer s) {call : Governance.Execution.Call}
    (hcall : s.perform env sender (.call call) = some s') :
    Calm env deployer s' ∧ s'.now = s.now := by
  obtain ⟨_, gov, hm, hgov, rfl⟩ | ⟨id, gov, e, runner, hm, -⟩ := perform_cases hcall
  · cases hm
    obtain ⟨hkept, hvoted⟩ := h.kept.handle hgov
    exact ⟨⟨hkept, hvoted.trans h.even, h.saved, h.quiet⟩, rfl⟩
  · cases hm

theorem Calm.perform (h : Calm env deployer s) {m : Governance.Execution.Message}
    (hm : s.perform env sender m = some s') : Sound env deployer s' ∧ s'.now = s.now := by
  cases m with
  | call call =>
      obtain ⟨hcalm, hnow⟩ := h.call hm
      exact ⟨hcalm.sound, hnow⟩
  | execute id =>
      obtain ⟨_, _, hm', -⟩ | ⟨id, gov, e, runner, -, hexecute, hrunner, rfl⟩ := perform_cases hm
      · cases hm'
      · obtain ⟨-, -, -, -, he, -, -, -, hexecuted⟩ :=
          Governance.Execution.Snapshot.execute_cases hexecute
        have htime : e.time = s.now := by rw [he]
        refine ⟨⟨⟨h.kept.recorded.execute hexecute, h.kept.replayed⟩, ?_, h.push runner, h.quiet⟩, rfl⟩
        show voted env { s.current with gov } = made env s.current ++ runner.pending s.now
        rw [voted_concat hexecuted, ← h.even, ← htime, pending_callee hrunner]

/-- The notification changes nothing of the registry. -/
theorem Calm.notify (h : Calm env deployer s) {call : Call} (hs : s.notify env call = some s') :
    Calm env deployer s' ∧ s'.now = s.now := by
  unfold State.notify at hs
  cases hnote : notification call with
  | none =>
      rw [hnote] at hs
      cases hs
      exact ⟨h, rfl⟩
  | some note =>
      obtain ⟨selector, data⟩ := note
      rw [hnote] at hs
      dsimp only at hs
      split at hs
      · cases hs
        exact ⟨h, rfl⟩
      · split at hs
        · cases hs
        · split at hs
          · exact h.call hs
          · split at hs
            · cases hs
              exact ⟨h, rfl⟩
            · obtain rfl := Option.some.inj hs
              refine ⟨⟨h.kept, h.even, h.push _, ?_⟩, rfl⟩
              refine List.forall_mem_cons.mpr ⟨fun call hkind => ?_, h.quiet⟩
              cases hkind

/-- **A change is made**, of which the governance contract has just as many on their way as it makes
here. -/
theorem set_calm {call : Call} (hkept : Kept env deployer s.now s.current)
    (heven : voted env s.current = made env s.current ++
      if sender = env.governance then [(call, s.now)] else [])
    (hsaved : Saved env deployer s.now s.calls.frames) (hquiet : Quiet s.calls.frames)
    (h : s.set env sender call = some s') : Calm env deployer s' ∧ s'.now = s.now := by
  obtain ⟨registry, hstep, hnotify⟩ := Option.bind_eq_some_iff.mp h
  have hwritten : Calm env deployer { s with calls := s.calls.replace { s.current with
      registry, changes := s.current.changes ++ [⟨sender, call, s.now⟩] } } := by
    refine ⟨hkept.set hstep, ?_, hsaved, hquiet⟩
    show voted env s.current = made env { s.current with
      registry, changes := s.current.changes ++ [⟨sender, call, s.now⟩] }
    rw [made_concat, heven]
  exact hwritten.notify hnotify

/-- A failure takes everything back to where nothing was on its way. -/
theorem Sound.fail (h : Sound env deployer s) (hs : s.fail = some s') :
    Calm env deployer s' ∧ s'.now = s.now := by
  obtain ⟨calls, habort, hs⟩ := Option.bind_eq_some_iff.mp hs
  obtain rfl := Option.some.inj hs
  obtain ⟨f, rest, hsuffix, rfl⟩ := Stack.unwind_cases habort
  have hf : f ∈ s.calls.frames := hsuffix.subset List.mem_cons_self
  have hrest : ∀ g ∈ rest, g ∈ s.calls.frames :=
    fun g hg => hsuffix.subset (List.mem_cons_of_mem _ hg)
  refine ⟨⟨h.saved.kept f hf, h.saved.even f hf, ⟨fun g hg => h.saved.kept g (hrest g hg),
    fun g hg => h.saved.even g (hrest g hg)⟩, fun g hg => h.quiet g ?_⟩, rfl⟩
  obtain ⟨front, hfront⟩ := hsuffix
  rw [← hfront]
  cases front with
  | nil => exact hg
  | cons _ front => exact List.mem_append_right _ (List.mem_cons_of_mem _ hg)

/-- Foreign code has nothing on its way. -/
theorem Sound.calm_of_foreign (h : Sound env deployer s) (hforeign : s.Foreign = true) :
    Calm env deployer s := by
  refine h.calm fun f hf call hkind => ?_
  unfold State.Foreign at hforeign
  rw [Option.mem_def.mp hf, Option.map_some, hkind] at hforeign
  cases hforeign

theorem State.todo_eq {f : Frame Runner World} {rest : List (Frame Runner World)}
    (hframes : s.calls.frames = f :: rest) : s.todo = match f.kind with
      | .other (.own (some m)) => some (.message m)
      | .registry (some m) => some (.registry m)
      | _ => none := by
  unfold State.todo
  rw [hframes, List.head?_cons, Option.map_some]
  rcases f with ⟨kind, saved⟩
  rcases kind with (_ | _ | _) | (_ | _) <;> rfl

/-- **The call of a proposal.** -/
theorem Sound.own (h : Sound env deployer s) {t : State.Todo} (ht : s.todo = some t)
    (hown : s.own env t = some s') : Sound env deployer s' ∧ s'.now = s.now := by
  cases hframes : s.calls.frames with
  | nil =>
      unfold State.todo at ht
      rw [hframes] at ht
      cases ht
  | cons f rest =>
      have hbecome (kind : Runner) : s.calls.become kind = ⟨s.current, ⟨kind, f.saved⟩ :: rest⟩ := by
        unfold Stack.become
        rw [hframes]
        rfl
      have heven := h.even
      have hsaved := h.saved
      have hquiet := h.quiet
      unfold State.pending at heven
      rw [hframes] at heven hsaved hquiet
      rw [State.todo_eq hframes] at ht
      have hsaved' (kind : Runner) : Saved env deployer s.now (⟨kind, f.saved⟩ :: rest) :=
        ⟨List.forall_mem_cons.mpr (List.forall_mem_cons.mp hsaved.kept),
          List.forall_mem_cons.mpr (List.forall_mem_cons.mp hsaved.even)⟩
      have hquiet' {kind : Runner} (hkind : ∀ call, kind ≠ .registry (some (.set call))) :
          Quiet (⟨kind, f.saved⟩ :: rest) := List.forall_mem_cons.mpr ⟨hkind, hquiet⟩
      obtain ⟨kind, saved⟩ := f
      -- what the innermost call still has to do
      match kind, t, ht with
      | .other (.own (some m)), .message _, rfl =>
          have hcalm : Calm env deployer
              { s with calls := s.calls.become (.other (.own none)) } := by
            rw [hbecome]
            exact ⟨h.kept, heven.trans (List.append_nil _), hsaved' _, hquiet' fun _ => nofun⟩
          exact hcalm.perform hown
      | .registry (some (.set call)), .registry _, rfl =>
          have hcall : State.set env { s with calls := s.calls.become (.registry none) }
              env.governance call = some s' := hown
          rw [hbecome] at hcall
          obtain ⟨hcalm, hnow⟩ :=
            set_calm (s := ⟨s.now, s.current, ⟨.registry none, saved⟩ :: rest⟩) h.kept
              (by rw [if_pos rfl]; exact heven) (hsaved' _) (hquiet' fun _ => nofun) hcall
          exact ⟨hcalm.sound, hnow⟩
      | .registry (some .view), .registry _, rfl =>
          have hcalm : Calm env deployer { s with calls := s.calls.become (.registry none) } := by
            rw [hbecome]
            exact ⟨h.kept, heven.trans (List.append_nil _), hsaved' _, hquiet' fun _ => nofun⟩
          obtain rfl := Option.some.inj hown
          exact ⟨hcalm.sound, rfl⟩

/-- **One event.** -/
theorem Sound.step (h : Sound env deployer s) {ev : Event} (hs : s.step env ev = some s') :
    Sound env deployer s' := by
  cases ev with
  | tick now =>
      obtain ⟨_, hreq, hs⟩ := Option.bind_eq_some_iff.mp hs
      obtain ⟨hidle, hle⟩ := require_eq_some.mp hreq
      obtain rfl := Option.some.inj hs
      have hnone : s.calls.frames = [] := List.isEmpty_iff.mp hidle
      have hcalm := h.calm (by rw [hnone]; exact fun f hf => by cases hf)
      refine Calm.sound ⟨⟨hcalm.kept.recorded.later hle, hcalm.kept.replayed⟩, hcalm.even, ?_,
        hcalm.quiet⟩
      -- between transactions no call is open
      show Saved env deployer now s.calls.frames
      rw [hnone]
      exact ⟨fun f hf => absurd hf List.not_mem_nil, fun f hf => absurd hf List.not_mem_nil⟩
  | message sender m =>
      obtain ⟨_, hreq, hperform⟩ := Option.bind_eq_some_iff.mp hs
      exact ((h.calm_of_foreign (require_eq_some.mp hreq).1).perform hperform).1
  | set sender call =>
      obtain ⟨_, hreq, hset⟩ := Option.bind_eq_some_iff.mp hs
      obtain ⟨hforeign, hsender, -⟩ := require_eq_some.mp hreq
      have hcalm := h.calm_of_foreign hforeign
      have heven : voted env s.current = made env s.current ++
          if sender = env.governance then [(call, s.now)] else [] := by
        rw [if_neg hsender, List.append_nil, hcalm.even]
      exact (set_calm hcalm.kept heven hcalm.saved hcalm.quiet hset).1.sound
  | own =>
      obtain ⟨t, ht, hown⟩ := Option.bind_eq_some_iff.mp hs
      cases hmade : s.own env t with
      | some t' =>
          rw [hmade] at hown
          obtain rfl := Option.some.inj hown
          exact (h.own ht hmade).1
      | none =>
          rw [hmade] at hown
          exact (h.fail hown).1.sound
  | enter =>
      obtain ⟨_, hreq, hs⟩ := Option.bind_eq_some_iff.mp hs
      obtain rfl := Option.some.inj hs
      have hcalm := h.calm_of_foreign (require_eq_some.mp hreq)
      refine Calm.sound ⟨hcalm.kept, hcalm.even, hcalm.push _, ?_⟩
      refine List.forall_mem_cons.mpr ⟨fun call hkind => ?_, hcalm.quiet⟩
      cases hkind
  | leave ok =>
      cases ok with
      | true =>
          obtain ⟨_, hreq, hs⟩ := Option.bind_eq_some_iff.mp hs
          obtain ⟨calls, hcommit, hs⟩ := Option.bind_eq_some_iff.mp hs
          obtain rfl := Option.some.inj hs
          have htodo := require_eq_some.mp hreq
          have hcalm := h.calm fun f hf call hkind => by
            unfold State.todo at htodo
            rw [Option.mem_def.mp hf, Option.map_some, hkind] at htodo
            cases htodo
          unfold Stack.commit at hcommit
          split at hcommit
          · cases hcommit
          · next f rest hframes =>
              obtain rfl := Option.some.inj hcommit
              have hsaved := hcalm.saved
              have hquiet := hcalm.quiet
              rw [hframes] at hsaved hquiet
              exact Calm.sound ⟨hcalm.kept, hcalm.even,
                ⟨(List.forall_mem_cons.mp hsaved.kept).2, (List.forall_mem_cons.mp hsaved.even).2⟩,
                (List.forall_mem_cons.mp hquiet).2⟩
      | false => exact (h.fail hs).1.sound

end Steps

theorem run_registry_sound (env : Deployment) (deployer admin : Address)
    (setup : List (Tx Core.Call)) (now : U256) (evs : List Event) :
    Sound env deployer (run env deployer admin setup now evs) := by
  have hstart : Calm env deployer (start env deployer admin setup now) := by
    refine ⟨⟨Governance.Execution.Snapshot.deploy_recorded now _, rfl⟩, rfl, ?_, ?_⟩
    · exact ⟨fun f hf => absurd hf List.not_mem_nil, fun f hf => absurd hf List.not_mem_nil⟩
    · exact fun f hf => absurd hf List.not_mem_nil
  exact revert_induction (Sound env deployer) hstart.sound (fun s ev s' hs h => hs.step h) evs

/-! ## Nothing without a vote -/

/-- A registry that is no longer the governance contract's was handed over by it. -/
theorem handed_over (env : Deployment) (deployer : Address) {changes : List Change}
    {r : SeasonRegistry}
    (h : changes.foldlM (fun r c => r.step c.sender c.call) (deploy deployer env.governance) = some r)
    (hother : r.governance ≠ env.governance ∨ ∃ c ∈ changes, c.sender ≠ env.governance) :
    ∃ c ∈ changes, c.sender = env.governance ∧
      ∃ g, c.call = .setGovernance g ∧ g ≠ env.governance := by
  induction changes using List.reverseRecOn generalizing r with
  | nil =>
      obtain rfl := Option.some.inj h
      rcases hother with hfirst | ⟨c, hc, -⟩
      · exact absurd (if_neg env.governance_ne_zero) hfirst
      · exact absurd hc List.not_mem_nil
  | append_singleton changes c ih =>
      rw [List.foldlM_append] at h
      obtain ⟨before, hbefore, hlast⟩ := Option.bind_eq_some_iff.mp h
      have hstep : before.step c.sender c.call = some r := by simpa using hlast
      obtain ⟨hsender, rfl⟩ := step_eq_some.mp hstep
      by_cases hhanded : before.governance ≠ env.governance ∨ ∃ c ∈ changes, c.sender ≠ env.governance
      · obtain ⟨c', hc', hrest⟩ := ih hbefore hhanded
        exact ⟨c', List.mem_append_left _ hc', hrest⟩
      · obtain ⟨hown, hall⟩ := not_or.mp hhanded
        have howner : c.sender = env.governance := hsender.trans (not_not.mp hown)
        refine ⟨c, List.mem_append_right _ (List.mem_singleton_self c), howner, ?_⟩
        rcases hother with hnow | ⟨c', hc', hforeign⟩
        · cases hcall : c.call with
          | setGovernance g =>
              rw [hcall] at hnow
              exact ⟨g, rfl, hnow⟩
          | _ =>
              rw [hcall] at hnow
              exact absurd hnow hown
        · rcases List.mem_append.mp hc' with hold | hlast
          · exact absurd ⟨c', hold, hforeign⟩ hall
          · rw [List.mem_singleton.mp hlast] at hforeign
            exact absurd howner hforeign

/-- What a state guarantees of the registry. -/
structure FollowsVotes (env : Deployment) (deployer : Address) (s : State) : Prop where
  /-- Every execution was proposed, approved and late enough. -/
  justified : ∀ e ∈ s.current.gov.executed,
    Governance.Execution.Snapshot.Justified s.current.gov.proposed e
  /-- The registry is what its changes make of it. -/
  replayed : Replayed env deployer s.current
  /-- Between transactions the governance contract has made the changes that were voted, and no
  others. -/
  made : s.calls.frames = [] → made env s.current = voted env s.current
  /-- Someone else can have made a change only after a vote that handed the registry over. -/
  others : (∃ c ∈ s.current.changes, c.sender ≠ env.governance) →
    ∃ g time, (.setGovernance g, time) ∈ voted env s.current ∧ g ≠ env.governance

/-- **The registry follows the votes.** In every run, with executions, setters, hooks and any other
code nested, failing and calling back in any way: between transactions the governance contract has
made exactly the changes that executed proposals ask for, in order and at the time of the execution;
each of these proposals was up for a voting period and a timelock and had a majority with a quorum;
and if anyone else ever changed the registry, a vote had handed it over. -/
theorem registry_follows_votes (env : Deployment) (deployer admin : Address)
    (setup : List (Tx Core.Call)) (now : U256) (evs : List Event) :
    FollowsVotes env deployer (run env deployer admin setup now evs) := by
  have hs := run_registry_sound env deployer admin setup now evs
  refine ⟨fun e he => (hs.kept.recorded.settled e he).1, hs.kept.replayed, fun hidle => ?_,
    fun hother => ?_⟩
  · have hcalm := hs.calm (by rw [hidle]; exact fun f hf => by cases hf)
    exact hcalm.even.symm
  · obtain ⟨c, hc, hsender, g, hcall, hg⟩ := handed_over env deployer hs.kept.replayed (Or.inr hother)
    refine ⟨g, c.time, ?_, hg⟩
    rw [hs.even]
    refine List.mem_append_left _ (List.mem_map.mpr ⟨c, ?_, by rw [hcall]⟩)
    exact List.mem_filter.mpr ⟨hc, decide_eq_true hsender⟩

end SeasonRegistry

end ChainBeasts.Contracts
