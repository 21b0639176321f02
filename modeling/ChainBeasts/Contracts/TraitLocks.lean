import ChainBeasts.Contracts.CreatureIds
import ChainBeasts.Rollback

/-! # Locked traits

`lockTraits` takes a zero name hash for "not locked yet", and it takes a zero name hash as an
argument as well; so a lock under a zero hash is none, and the same owner can lock the same token
again. And between that check and its write it calls `core.transferFrom`. Anyone may have set the
core, and what it runs may call the token contract again: a lock that is made meanwhile is overwritten
when the first call goes on. `traits_permanent_iff` says when a lock holds for good.

The state is a stack of open calls, each with the contract as it was when it began. The other external
functions call nobody that could call back, so they are done at once (`CreatureNFT.step`); and where
the core does not call back either, a lock is that of `CreatureNFT` (`exists_run`). -/

namespace ChainBeasts.Contracts.CreatureNFT

open ChainBeasts.Evm ChainBeasts.Machine ChainBeasts.Rollback

section
variable {keccak256 : Bytes → Bytes32} {s s' : CreatureNFT} {env : Env} {this sender : Address}
  {t packedTraits : U256} {nameHash : Bytes32}

/-- When a lock is accepted, and what it writes. -/
theorem lockTraits_eq_some_iff : s.lockTraits env sender t packedTraits nameHash = some s' ↔
    s.ownerOf t = sender ∧ (s.traits t).nameHash = 0 ∧ s.core ≠ zeroAddress ∧
      env.coreTransfer = true ∧
      s' = { s with traits := Function.update s.traits t ⟨packedTraits, nameHash⟩ } := by
  simp only [lockTraits, Option.bind_eq_bind, Option.bind_eq_some_iff, require_eq_some,
    Option.pure_def, Option.some.injEq, exists_const, eq_comm (b := s')]

theorem traits_mintNext {toAddr : Address} {w : Bytes} {dna : Bytes32}
    (h : s.mintNext toAddr w dna = some s') : s'.traits = s.traits := by
  obtain ⟨nextId, -, rfl⟩ := mintNext_cases h
  rfl

/-- Only a lock writes traits. -/
theorem step_traits {call : Call} (hother : ∀ t p n, call ≠ .lockTraits t p n)
    (h : s.step keccak256 this env sender call = some s') : s'.traits = s.traits := by
  cases call with
  | setSeasonRegistry reg =>
      obtain rfl := setSeasonRegistry_cases h
      rfl
  | setMarketplace m =>
      obtain rfl := setMarketplace_cases h
      rfl
  | setBridge b =>
      obtain ⟨-, rfl⟩ := setBridge_cases h
      rfl
  | setCore c =>
      obtain rfl := setCore_cases h
      rfl
  | hatch w =>
      obtain ⟨dna, minted, hminted, rfl⟩ := hatch_cases h
      have hkept : minted.traits = s.traits := traits_mintNext hminted
      exact hkept
  | approve toAddr t =>
      obtain ⟨-, rfl⟩ := approve_cases h
      rfl
  | transferFrom fromAddr toAddr t =>
      obtain ⟨-, -, rfl⟩ := transferFrom_cases h
      rfl
  | breed toAddr w =>
      obtain ⟨dna, hminted⟩ := breed_cases h
      exact traits_mintNext hminted
  | mintFromBridge toAddr t w dna =>
      obtain ⟨-, -, nextId, -, rfl⟩ := mintFromBridge_cases h
      rfl
  | burnFromBridge t =>
      obtain ⟨-, -, rfl⟩ := burnFromBridge_cases h
      rfl
  | lockTraits t p n => exact absurd rfl (hother t p n)

end

namespace Locking

/-- A `TraitsLocked` event. The number tells the locks of a run apart. -/
structure Lock where
  number : Nat
  tokenId : U256
  traits : Traits
  deriving DecidableEq

/-- What a failing call takes back. -/
structure Snapshot where
  nft : CreatureNFT
  locked : List Lock

/-- What an open call is: foreign code, or a `lockTraits` that waits for `core.transferFrom`. -/
inductive Runner where
  | foreign
  | locking (tokenId : U256) (traits : Traits)
  deriving DecidableEq

/-- `number` counts the locks, those that are taken back included. -/
structure State where
  number : Nat
  calls : Stack Runner Snapshot

inductive Event where
  /-- An account or foreign code calls the contract. -/
  | message (env : Env) (tx : Tx Call)
  /-- Foreign code calls foreign code. -/
  | enter
  /-- The foreign code of the innermost open call returns, or fails. What `core.transferFrom` returns
  is `ok`; where it is `false`, the lock fails. -/
  | leave (ok : Bool)

namespace State

/-- The contract as it is now. -/
def current (s : State) : Snapshot := s.calls.current

/-- What the innermost open call is. -/
def pending (s : State) : Option Runner := s.calls.frames.head?.map Frame.kind

/-- The last two lines of `lockTraits`. -/
def write (s : State) (tokenId : U256) (traits : Traits) : State where
  number := s.number + 1
  calls := s.calls.replace
    ⟨{ s.current.nft with traits := Function.update s.current.nft.traits tokenId traits },
      s.current.locked ++ [⟨s.number, tokenId, traits⟩]⟩

/-- A call is done at once, but for `lockTraits`, which comes to its call of the core. -/
def perform (keccak256 : Bytes → Bytes32) (this : Address) (s : State) (env : Env)
    (sender : Address) : Call → Option State
  | .lockTraits tokenId packedTraits nameHash => do
      require (s.current.nft.ownerOf tokenId = sender)
      require ((s.current.nft.traits tokenId).nameHash = 0)
      require (s.current.nft.core ≠ zeroAddress)
      return { s with calls := s.calls.push (.locking tokenId ⟨packedTraits, nameHash⟩) }
  | call => do
      let nft ← s.current.nft.step keccak256 this env sender call
      return { s with calls := s.calls.replace { s.current with nft } }

/-- The contract does not call itself; as its own core it would miss the returned value, and the lock
would fail. -/
def step (keccak256 : Bytes → Bytes32) (this : Address) (s : State) : Event → Option State
  | .message env tx => do
      require (tx.sender ≠ zeroAddress ∧ tx.sender ≠ this)
      s.perform keccak256 this env tx.sender tx.call
  | .enter => return { s with calls := s.calls.push .foreign }
  | .leave true => do
      let calls ← s.calls.commit
      match s.pending with
      | some (.locking tokenId traits) => return write { s with calls } tokenId traits
      | _ => return { s with calls }
  | .leave false => do
      let calls ← s.calls.abort fun _ => false
      return { s with calls }

end State

def start : State := ⟨0, ⟨⟨.deploy, []⟩, []⟩⟩

def run (keccak256 : Bytes → Bytes32) (this : Address) (evs : List Event) : State :=
  exec (revert (State.step keccak256 this)) start evs

variable {keccak256 : Bytes → Bytes32} {this sender : Address} {s s' : State} {ev : Event}
  {env : Env} {t : U256} {u : Traits} {e : Lock}

/-! ## What a step can do -/

/-- A lock begins only where none is, and only a lock that goes on writes traits. -/
inductive Turn (s : State) : State → Prop
  | done (x : Snapshot) (traits : x.nft.traits = s.current.nft.traits)
      (locked : x.locked = s.current.locked) : Turn s { s with calls := s.calls.replace x }
  | began (k : Runner)
      (unlocked : ∀ t u, k = .locking t u → (s.current.nft.traits t).nameHash = 0) :
      Turn s { s with calls := s.calls.push k }
  | returned (f : Frame Runner Snapshot) (rest : List (Frame Runner Snapshot))
      (frames : s.calls.frames = f :: rest) (foreign : f.kind = .foreign) :
      Turn s { s with calls := ⟨s.current, rest⟩ }
  | locked (f : Frame Runner Snapshot) (rest : List (Frame Runner Snapshot)) (t : U256) (u : Traits)
      (frames : s.calls.frames = f :: rest) (kind : f.kind = .locking t u) :
      Turn s (State.write { s with calls := ⟨s.current, rest⟩ } t u)
  | failed (f : Frame Runner Snapshot) (rest : List (Frame Runner Snapshot))
      (frames : s.calls.frames = f :: rest) : Turn s { s with calls := ⟨f.saved, rest⟩ }

theorem perform_other {call : Call} (hother : ∀ t p n, call ≠ .lockTraits t p n) :
    s.perform keccak256 this env sender call =
      (s.current.nft.step keccak256 this env sender call).bind fun nft =>
        some { s with calls := s.calls.replace { s.current with nft } } := by
  cases call with
  | lockTraits t p n => exact absurd rfl (hother t p n)
  | _ => rfl

theorem perform_lockTraits {p : U256} {n : Bytes32} :
    s.perform keccak256 this env sender (.lockTraits t p n) = some s' ↔
      s.current.nft.ownerOf t = sender ∧ (s.current.nft.traits t).nameHash = 0 ∧
        s.current.nft.core ≠ zeroAddress ∧
        s' = { s with calls := s.calls.push (.locking t ⟨p, n⟩) } := by
  simp only [State.perform, Option.bind_eq_bind, Option.bind_eq_some_iff, require_eq_some,
    Option.pure_def, Option.some.injEq, exists_const, eq_comm (b := s')]

theorem turn_of_perform {call : Call} (h : s.perform keccak256 this env sender call = some s') :
    Turn s s' := by
  by_cases hother : ∀ t p n, call ≠ .lockTraits t p n
  · rw [perform_other hother] at h
    obtain ⟨nft, hstep, hs'⟩ := Option.bind_eq_some_iff.mp h
    obtain rfl := Option.some.inj hs'
    exact .done _ (step_traits hother hstep) rfl
  · push Not at hother
    obtain ⟨t, p, n, rfl⟩ := hother
    obtain ⟨-, hopen, -, rfl⟩ := perform_lockTraits.mp h
    refine .began _ ?_
    rintro t u heq
    cases heq
    exact hopen

theorem commit_eq {f : Frame Runner Snapshot} {rest : List (Frame Runner Snapshot)}
    (hframes : s.calls.frames = f :: rest) : s.calls.commit = some ⟨s.current, rest⟩ := by
  rw [Stack.commit, hframes]
  rfl

theorem abort_eq {f : Frame Runner Snapshot} {rest : List (Frame Runner Snapshot)}
    (hframes : s.calls.frames = f :: rest) :
    s.calls.abort (fun _ => false) = some ⟨f.saved, rest⟩ := by
  rw [Stack.abort, hframes, Stack.unwind, if_neg]
  cases rest <;> simp

theorem step_leave (keccak256 : Bytes → Bytes32) (this : Address)
    {f : Frame Runner Snapshot} {rest : List (Frame Runner Snapshot)}
    (hframes : s.calls.frames = f :: rest) :
    s.step keccak256 this (.leave true) = some (match f.kind with
      | .foreign => { s with calls := ⟨s.current, rest⟩ }
      | .locking t u => State.write { s with calls := ⟨s.current, rest⟩ } t u) := by
  have hpending : s.pending = some f.kind := by
    rw [State.pending, hframes]
    rfl
  simp only [State.step, commit_eq hframes, hpending, Option.bind_eq_bind, Option.bind_some]
  cases f.kind <;> rfl

theorem turn_of_step (h : s.step keccak256 this ev = some s') : Turn s s' := by
  cases ev with
  | message env tx =>
      obtain ⟨_, -, hperform⟩ := Option.bind_eq_some_iff.mp h
      exact turn_of_perform hperform
  | enter =>
      cases h
      exact .began _ (by simp)
  | leave ok =>
      cases hframes : s.calls.frames with
      | nil =>
          cases ok with
          | true => simp [State.step, Stack.commit, hframes] at h
          | false => simp [State.step, Stack.abort, Stack.unwind, hframes] at h
      | cons f rest =>
          cases ok with
          | true =>
              rw [step_leave _ _ hframes] at h
              obtain rfl := Option.some.inj h
              cases hkind : f.kind with
              | foreign => exact .returned f rest hframes hkind
              | locking t u => exact .locked f rest t u hframes hkind
          | false =>
              simp only [State.step, abort_eq hframes, Option.bind_eq_bind, Option.bind_some,
                Option.pure_def, Option.some.injEq] at h
              rw [← h]
              exact .failed f rest hframes

/-! ## Runs without calls in between -/

theorem step_other (env : Env) {call : Call} {nft : CreatureNFT}
    (hsender : sender ≠ zeroAddress ∧ sender ≠ this) (hother : ∀ t p n, call ≠ .lockTraits t p n)
    (h : s.current.nft.step keccak256 this env sender call = some nft) :
    s.step keccak256 this (.message env ⟨sender, call⟩) =
      some { s with calls := s.calls.replace ⟨nft, s.current.locked⟩ } := by
  simp only [State.step, require, if_pos hsender, Option.bind_eq_bind, Option.bind_some]
  rw [perform_other hother, h]
  rfl

/-- A lock that nothing happens in between is the plain one. -/
theorem exec_lock (env : Env) {p : U256} {n : Bytes32}
    (hsender : sender ≠ zeroAddress ∧ sender ≠ this)
    (howner : s.current.nft.ownerOf t = sender) (hopen : (s.current.nft.traits t).nameHash = 0)
    (hcore : s.current.nft.core ≠ zeroAddress) :
    exec (revert (State.step keccak256 this)) s
      [.message env ⟨sender, .lockTraits t p n⟩, .leave true] = s.write t ⟨p, n⟩ := by
  have hmessage : s.step keccak256 this (.message env ⟨sender, .lockTraits t p n⟩) =
      some { s with calls := s.calls.push (.locking t ⟨p, n⟩) } := by
    simp only [State.step, require, if_pos hsender, Option.bind_eq_bind, Option.bind_some]
    exact perform_lockTraits.mpr ⟨howner, hopen, hcore, rfl⟩
  rw [exec_cons, revert_some hmessage, exec_cons, revert_some (step_leave _ _ rfl)]
  rfl

/-- **The plain contract** is the one where nothing happens while the core is called: each of its
runs is a run here. -/
theorem exists_run (txs : List (Env × Tx Call)) (hself : ∀ e ∈ txs, e.2.sender ≠ this) :
    ∃ evs, (run keccak256 this evs).calls.frames = [] ∧
      (run keccak256 this evs).current.nft = CreatureNFT.run keccak256 this txs := by
  induction txs using List.reverseRecOn with
  | nil => exact ⟨[], rfl, rfl⟩
  | append_singleton txs e ih =>
      obtain ⟨evs, hnil, hnft⟩ := ih fun e he => hself e (List.mem_append_left _ he)
      rw [CreatureNFT.run, exec_concat, ← CreatureNFT.run, ← hnft]
      cases haccept : accept keccak256 this (run keccak256 this evs).current.nft e with
      | none =>
          rw [revert_none haccept]
          exact ⟨evs, hnil, rfl⟩
      | some s' =>
          rw [revert_some haccept]
          obtain ⟨env, sender, call⟩ := e
          obtain ⟨hsender, hstep⟩ := accept_cases haccept
          have hboth : sender ≠ zeroAddress ∧ sender ≠ this :=
            ⟨hsender, hself _ (List.mem_append_right _ List.mem_cons_self)⟩
          by_cases hother : ∀ t p n, call ≠ .lockTraits t p n
          · refine ⟨evs ++ [.message env ⟨sender, call⟩], ?_⟩
            rw [run, exec_concat, ← run, revert_some (step_other env hboth hother hstep)]
            exact ⟨hnil, rfl⟩
          · push Not at hother
            obtain ⟨t, p, n, rfl⟩ := hother
            obtain ⟨howner, hopen, hcore, -, rfl⟩ := lockTraits_eq_some_iff.mp hstep
            refine ⟨evs ++ [.message env ⟨sender, .lockTraits t p n⟩, .leave true], ?_⟩
            rw [run, exec_append, ← run, exec_lock env hboth howner hopen hcore]
            exact ⟨hnil, rfl⟩

/-! ## Numbers -/

/-- No lock has a number that is still to come. -/
def Numbered (s : State) : Prop := s.calls.Holds fun x => ∀ e ∈ x.locked, e.number < s.number

theorem Turn.number_le (h : Turn s s') : s.number ≤ s'.number := by
  cases h with
  | locked => exact Nat.le_succ _
  | _ => exact le_rfl

theorem Numbered.turn (hs : Numbered s) (h : Turn s s') : Numbered s' := by
  cases h with
  | done x _ locked => exact hs.replace (by rw [locked]; exact hs.current)
  | began => exact hs.push
  | returned f rest frames => exact hs.commit (commit_eq frames)
  | locked f rest t u frames =>
      have hrest : (⟨s.current, rest⟩ : Stack Runner Snapshot).Holds
          fun x => ∀ e ∈ x.locked, e.number < s.number + 1 :=
        (hs.commit (commit_eq frames)).imp fun x hx e he => Nat.lt_succ_of_lt (hx e he)
      refine hrest.replace ?_
      intro e he
      rcases List.mem_append.mp he with he | he
      · exact hrest.current e he
      · rw [List.mem_singleton.mp he]
        exact Nat.lt_succ_self _
  | failed f rest frames => exact hs.abort (abort_eq frames)

theorem start_numbered : Numbered start := by
  unfold Numbered start
  exact Stack.holds_nil.mpr (by simp)

theorem run_numbered (evs : List Event) : Numbered (run keccak256 this evs) :=
  revert_induction Numbered start_numbered (fun _ _ _ hs h => hs.turn (turn_of_step h)) evs

/-! ## A lock that stands -/

/-- What an open call is going to write for a token. -/
def Runner.writes (tokenId : U256) : Runner → Option Traits
  | .foreign => none
  | .locking tokenId' traits => if tokenId' = tokenId then some traits else none

theorem Runner.mem_writes {k : Runner} : u ∈ k.writes t ↔ k = .locking t u := by
  cases k with
  | foreign => simp [writes]
  | locking t' v => simp [writes]

/-- No open call waits to lock the token with other traits. -/
def Unrivalled (tokenId : U256) (traits : Traits) (frames : List (Frame Runner Snapshot)) : Prop :=
  ∀ f ∈ frames, ∀ v ∈ f.kind.writes tokenId, v = traits

instance (tokenId : U256) (traits : Traits) (frames : List (Frame Runner Snapshot)) :
    Decidable (Unrivalled tokenId traits frames) :=
  inferInstanceAs (Decidable (∀ f ∈ frames, _))

theorem unrivalled_cons {f : Frame Runner Snapshot} {rest : List (Frame Runner Snapshot)} :
    Unrivalled t u (f :: rest) ↔ (∀ v, f.kind = .locking t v → v = u) ∧ Unrivalled t u rest := by
  simp only [Unrivalled, List.forall_mem_cons, Runner.mem_writes]

/-- Where the lock is in the log, the traits are what it wrote, and no open call is about to write
others. -/
def Firm (e : Lock) (x : Snapshot) (frames : List (Frame Runner Snapshot)) : Prop :=
  e ∈ x.locked → x.nft.traits e.tokenId = e.traits ∧ Unrivalled e.tokenId e.traits frames

structure Standing (e : Lock) (s : State) : Prop where
  past : e.number < s.number
  firm : s.calls.Throughout (Firm e)

theorem Firm.tail {x : Snapshot} {f : Frame Runner Snapshot} {rest : List (Frame Runner Snapshot)}
    (h : Firm e x (f :: rest)) : Firm e x rest := by
  intro he
  obtain ⟨htraits, halone⟩ := h he
  exact ⟨htraits, (unrivalled_cons.mp halone).2⟩

/-- **One step**, by anyone, leaves a lock under a name as it is. -/
theorem Standing.turn (hname : e.traits.nameHash ≠ 0) (hs : Standing e s) (h : Turn s s') :
    Standing e s' := by
  refine ⟨hs.past.trans_le h.number_le, ?_⟩
  have hnow : Firm e s.current s.calls.frames := hs.firm.current
  cases h with
  | done x traits locked =>
      refine hs.firm.replace ?_
      rw [Firm, traits, locked]
      exact hnow
  | began k unlocked =>
      refine hs.firm.push ?_
      intro he
      obtain ⟨htraits, halone⟩ := hnow he
      refine ⟨htraits, unrivalled_cons.mpr ⟨?_, halone⟩⟩
      intro v hkind
      -- the check of a second lock sees the name of the first
      have hopen := unlocked e.tokenId v hkind
      rw [htraits] at hopen
      exact absurd hopen hname
  | returned f rest frames =>
      rw [frames] at hnow
      exact hs.firm.pop frames hnow.tail
  | locked f rest t u frames kind =>
      rw [frames] at hnow
      refine hs.firm.pop frames ?_
      intro he
      rcases List.mem_append.mp he with he | he
      · obtain ⟨htraits, halone⟩ := hnow he
        obtain ⟨hsame, hrest⟩ := unrivalled_cons.mp halone
        refine ⟨?_, hrest⟩
        by_cases heq : e.tokenId = t
        · subst heq
          rw [← hsame u kind]
          exact Function.update_self _ _ _
        · exact (Function.update_of_ne heq _ _).trans htraits
      · rw [List.mem_singleton.mp he] at hs
        exact absurd hs.past (lt_irrefl _)
  | failed f rest frames => exact hs.firm.drop frames

theorem Standing.run (hname : e.traits.nameHash ≠ 0) (hs : Standing e s) (more : List Event) :
    Standing e (exec (revert (State.step keccak256 this)) s more) :=
  revert_induction (Standing e) hs (fun _ _ _ hs h => hs.turn hname (turn_of_step h)) more

theorem exists_frame {k : Runner} (h : s.pending = some k) :
    ∃ f rest, s.calls.frames = f :: rest ∧ f.kind = k := by
  obtain ⟨f, hhead, hkind⟩ := Option.map_eq_some_iff.mp h
  obtain ⟨rest, hframes⟩ := List.head?_eq_some_iff.mp hhead
  exact ⟨f, rest, hframes, hkind⟩

/-- A lock stands as soon as it is made. -/
theorem standing_of_leave (keccak256 : Bytes → Bytes32) (this : Address)
    (hs : Numbered s) (h : s.pending = some (.locking t u))
    (halone : Unrivalled t u s.calls.frames) :
    Standing ⟨s.number, t, u⟩ (revert (State.step keccak256 this) s (.leave true)) := by
  obtain ⟨f, rest, hframes, hkind⟩ := exists_frame h
  have hleave := step_leave keccak256 this hframes
  rw [hkind] at hleave
  rw [revert_some hleave]
  rw [hframes] at halone
  refine ⟨Nat.lt_succ_self _, ?_, ?_⟩
  · exact fun _ => ⟨Function.update_self _ _ _, (unrivalled_cons.mp halone).2⟩
  · intro g outer hsuffix he
    -- what was saved before has no lock of this number
    have hsaved : g.saved ∈ s.calls.snapshots := by
      refine List.mem_cons_of_mem _ (List.mem_map_of_mem ?_)
      rw [hframes]
      exact List.mem_cons_of_mem _ (hsuffix.subset List.mem_cons_self)
    exact absurd (hs g.saved hsaved _ he) (lt_irrefl _)

/-! ## How a lock is undone -/

/-- What a call that returns keeps, and what it writes. -/
structure Returned (s : State) (f : Frame Runner Snapshot) (rest : List (Frame Runner Snapshot))
    (s' : State) : Prop where
  frames : s'.calls.frames = rest
  owners : s'.current.nft.ownerOf = s.current.nft.ownerOf
  log : s.current.locked ⊆ s'.current.locked
  locks : ∀ t u, f.kind = .locking t u → s'.current.nft.traits t = u
  keeps : ∀ t, (∀ u, f.kind ≠ .locking t u) → s'.current.nft.traits t = s.current.nft.traits t

theorem exists_returned (keccak256 : Bytes → Bytes32) (this : Address)
    {f : Frame Runner Snapshot} {rest : List (Frame Runner Snapshot)}
    (hframes : s.calls.frames = f :: rest) :
    ∃ s', revert (State.step keccak256 this) s (.leave true) = s' ∧ Returned s f rest s' := by
  refine ⟨_, revert_some (step_leave _ _ hframes), ?_⟩
  cases hkind : f.kind with
  | foreign => exact ⟨rfl, rfl, List.Subset.refl _, by simp [hkind], fun _ _ => rfl⟩
  | locking t u =>
      refine ⟨rfl, rfl, List.subset_append_left _ _, ?_, ?_⟩
      · intro t' u' heq
        obtain ⟨rfl, rfl⟩ := Runner.locking.inj (hkind.symm.trans heq)
        exact Function.update_self _ _ _
      · intro t' hother
        have hne : t' ≠ t := by
          rintro rfl
          exact hother u hkind
        exact Function.update_of_ne hne _ _

/-- All open calls can return. -/
theorem exists_unwound (keccak256 : Bytes → Bytes32) (this : Address) (t : U256) (u : Traits)
    (s : State) : ∃ more, ∃ s', exec (revert (State.step keccak256 this)) s more = s' ∧
      s'.current.nft.ownerOf = s.current.nft.ownerOf ∧ s.current.locked ⊆ s'.current.locked ∧
      (Unrivalled t u s.calls.frames → s.current.nft.traits t = u →
        s'.current.nft.traits t = u) := by
  induction hframes : s.calls.frames generalizing s with
  | nil => exact ⟨[], s, rfl, rfl, List.Subset.refl _, fun _ h => h⟩
  | cons f rest ih =>
      obtain ⟨s₁, hleave, hback⟩ := exists_returned keccak256 this hframes
      obtain ⟨more, s', hmore, howners, hlog, htraits⟩ := ih s₁ hback.frames
      refine ⟨.leave true :: more, s', ?_, howners.trans hback.owners,
        List.Subset.trans hback.log hlog, ?_⟩
      · rw [exec_cons, hleave, hmore]
      · intro halone hnow
        obtain ⟨hsame, hrest⟩ := unrivalled_cons.mp halone
        apply htraits hrest
        by_cases hmine : ∃ v, f.kind = .locking t v
        · obtain ⟨v, hv⟩ := hmine
          rw [hback.locks t v hv]
          exact hsame v hv
        · rw [hback.keeps t fun v hv => hmine ⟨v, hv⟩]
          exact hnow

/-- A rival that returns overwrites the lock. -/
theorem exists_overwritten (keccak256 : Bytes → Bytes32) (this : Address)
    (h : ¬ Unrivalled t u s.calls.frames) : ∃ more, ∃ s',
    exec (revert (State.step keccak256 this)) s more = s' ∧
      s.current.locked ⊆ s'.current.locked ∧ s'.current.nft.traits t ≠ u := by
  induction hframes : s.calls.frames generalizing s with
  | nil =>
      rw [hframes] at h
      simp [Unrivalled] at h
  | cons f rest ih =>
      obtain ⟨s₁, hleave, hback⟩ := exists_returned keccak256 this hframes
      rw [hframes, unrivalled_cons, Classical.not_and_iff_not_or_not] at h
      rcases h with hrival | hrest
      · push Not at hrival
        obtain ⟨v, hkind, hne⟩ := hrival
        refine ⟨[.leave true], s₁, hleave, hback.log, ?_⟩
        rw [hback.locks t v hkind]
        exact hne
      · rw [← hback.frames] at hrest
        obtain ⟨more, s', hmore, hlog, hne⟩ := ih hrest hback.frames
        refine ⟨.leave true :: more, s', ?_, List.Subset.trans hback.log hlog, hne⟩
        rw [exec_cons, hleave, hmore]

/-- Where the core is not set yet, anyone can set it. -/
theorem exists_core (keccak256 : Bytes → Bytes32) (this : Address) (s : State)
    (hsender : sender ≠ zeroAddress ∧ sender ≠ this) : ∃ more, ∃ s',
    exec (revert (State.step keccak256 this)) s more = s' ∧ s'.current.nft.core ≠ zeroAddress ∧
      s'.current.nft.ownerOf = s.current.nft.ownerOf ∧
      s'.current.nft.traits = s.current.nft.traits ∧ s'.current.locked = s.current.locked := by
  by_cases hcore : s.current.nft.core = zeroAddress
  · have hset : s.current.nft.step keccak256 this ⟨0, 0, true⟩ sender (.setCore 1) =
        some { s.current.nft with core := 1 } := by
      simp only [CreatureNFT.step, setCore, require, if_pos hcore, Option.bind_eq_bind,
        Option.bind_some, Option.pure_def]
    exact ⟨[_], _, revert_some (step_other _ hsender (by simp) hset),
      (by decide : (1 : Address) ≠ zeroAddress), rfl, rfl, rfl⟩
  · exact ⟨[], s, rfl, hcore, rfl, rfl, rfl⟩

/-- Whoever owns a token without a name can lock it again. -/
theorem exists_relocked (keccak256 : Bytes → Bytes32) (this : Address)
    (howner : s.current.nft.ownerOf t ≠ zeroAddress)
    (hself : s.current.nft.ownerOf t ≠ this) (hopen : (s.current.nft.traits t).nameHash = 0)
    (p : U256) : ∃ more, ∃ s', exec (revert (State.step keccak256 this)) s more = s' ∧
      s.current.locked ⊆ s'.current.locked ∧ s'.current.nft.traits t = ⟨p, 0⟩ := by
  obtain ⟨more, s₁, hmore, hcore, howners, htraits, hlocked⟩ :=
    exists_core keccak256 this s ⟨howner, hself⟩
  rw [← howners] at howner hself
  rw [← htraits] at hopen
  obtain ⟨lock, hlock⟩ : ∃ lock,
      exec (revert (State.step keccak256 this)) s₁ lock = s₁.write t ⟨p, 0⟩ :=
    ⟨_, exec_lock ⟨0, 0, true⟩ ⟨howner, hself⟩ rfl hopen hcore⟩
  refine ⟨more ++ lock, s₁.write t ⟨p, 0⟩, ?_, ?_, Function.update_self _ _ _⟩
  · rw [exec_append, hmore]
    exact hlock
  · rw [← hlocked]
    exact List.subset_append_left _ _

/-! ## Whole runs -/

/-- The traits are what the lock wrote, for as long as the lock is not taken back. -/
def Permanent (keccak256 : Bytes → Bytes32) (this : Address) (evs : List Event) (tokenId : U256)
    (traits : Traits) : Prop :=
  ∀ more, ⟨(run keccak256 this evs).number, tokenId, traits⟩ ∈
      (run keccak256 this (evs ++ .leave true :: more)).current.locked →
    (run keccak256 this (evs ++ .leave true :: more)).current.nft.traits tokenId = traits

theorem run_append (evs more : List Event) :
    run keccak256 this (evs ++ .leave true :: more) =
      exec (revert (State.step keccak256 this))
        (revert (State.step keccak256 this) (run keccak256 this evs) (.leave true)) more := by
  rw [run, exec_append, exec_cons]
  rfl

theorem mem_locked_of_leave (keccak256 : Bytes → Bytes32) (this : Address)
    (h : s.pending = some (.locking t u)) :
    ⟨s.number, t, u⟩ ∈ (revert (State.step keccak256 this) s (.leave true)).current.locked := by
  obtain ⟨f, rest, hframes, hkind⟩ := exists_frame h
  rw [revert_some (step_leave _ _ hframes), hkind]
  exact List.mem_append_right _ List.mem_cons_self

/-- A later step that changes the traits of a lock, if any. -/
theorem not_permanent {evs more : List Event}
    (h : (run keccak256 this evs).pending = some (.locking t u))
    (hleave : revert (State.step keccak256 this) (run keccak256 this evs) (.leave true) = s)
    (hmore : exec (revert (State.step keccak256 this)) s more = s')
    (hkept : s.current.locked ⊆ s'.current.locked) (hchanged : s'.current.nft.traits t ≠ u) :
    ¬ Permanent keccak256 this evs t u := by
  intro hpermanent
  have hlocked := mem_locked_of_leave keccak256 this h
  have hsame := hpermanent more
  rw [run_append, hleave, hmore] at hsame
  rw [hleave] at hlocked
  exact hchanged (hsame (hkept hlocked))

/-- Account 7 hatches token 1, the core token is set, and 7 is about to lock the traits 5. -/
def underWay (nameHash : Bytes32) : List Event :=
  [.message ⟨0, 0, true⟩ ⟨7, .hatch [1, 2]⟩, .message ⟨0, 0, true⟩ ⟨9, .setCore 20⟩,
    .message ⟨0, 0, true⟩ ⟨7, .lockTraits 1 5 nameHash⟩]

/-- **Locked twice.** The first lock wrote the packed traits 5, under no name, and the second, by the
same owner, writes 6. -/
theorem nameless_lock_changed :
    (run (fun _ => 0) 10 (underWay 0)).pending = some (.locking 1 ⟨5, 0⟩) ∧
      (run (fun _ => 0) 10 (underWay 0 ++ [.leave true])).current.nft.traits 1 = ⟨5, 0⟩ ∧
      ¬ Permanent (fun _ => 0) 10 (underWay 0) 1 ⟨5, 0⟩ := by
  refine ⟨by decide +kernel, by decide +kernel, ?_⟩
  intro hpermanent
  have hsame := hpermanent
    [.message ⟨0, 0, true⟩ ⟨7, .lockTraits 1 6 0⟩, .leave true] (by decide +kernel)
  exact absurd hsame (by decide +kernel)

/-- **When a lock is one.** In every run, whatever calls are open and whoever calls later, the traits
of an accepted lock hold for good if its name hash is not zero and no other lock of the token waits
for its transfer. As long as the token has an owner, they hold for good only then. -/
theorem traits_permanent_iff (keccak256 : Bytes → Bytes32) (this : Address) (evs : List Event)
    (t : U256) (u : Traits) (h : (run keccak256 this evs).pending = some (.locking t u)) :
    (u.nameHash ≠ 0 ∧ Unrivalled t u (run keccak256 this evs).calls.frames →
      Permanent keccak256 this evs t u) ∧
    ((run keccak256 this evs).current.nft.ownerOf t ≠ zeroAddress →
      (run keccak256 this evs).current.nft.ownerOf t ≠ this →
      (Permanent keccak256 this evs t u ↔
        u.nameHash ≠ 0 ∧ Unrivalled t u (run keccak256 this evs).calls.frames)) := by
  have hkeeps : u.nameHash ≠ 0 ∧ Unrivalled t u (run keccak256 this evs).calls.frames →
      Permanent keccak256 this evs t u := by
    rintro ⟨hname, halone⟩ more hlocked
    rw [run_append] at hlocked ⊢
    have hstanding := standing_of_leave keccak256 this (run_numbered evs) h halone
    exact ((hstanding.run hname more).firm.current hlocked).1
  refine ⟨hkeeps, fun howner hself => ⟨?_, hkeeps⟩⟩
  intro hpermanent
  obtain ⟨f, rest, hframes, hkind⟩ := exists_frame h
  obtain ⟨s₁, hleave, hback⟩ := exists_returned keccak256 this hframes
  have halone : Unrivalled t u s₁.calls.frames := by
    by_contra hrival
    obtain ⟨more, s', hmore, hlog, hchanged⟩ := exists_overwritten keccak256 this hrival
    exact not_permanent h hleave hmore hlog hchanged hpermanent
  constructor
  · -- all calls return, and the owner locks other traits, under no name again
    intro hzero
    obtain ⟨more, s₂, hmore, howners, hlog₂, htraits₂⟩ := exists_unwound keccak256 this t u s₁
    have hopen : s₂.current.nft.traits t = u := htraits₂ halone (hback.locks t u hkind)
    rw [← hback.owners, ← howners] at howner hself
    rw [← hopen] at hzero
    obtain ⟨again, s₃, hagain, hlog₃, htraits₃⟩ :=
      exists_relocked keccak256 this howner hself hzero (u.packedTraits + 1)
    have hboth : exec (revert (State.step keccak256 this)) s₁ (more ++ again) = s₃ := by
      rw [exec_append, hmore, hagain]
    refine not_permanent h hleave hboth (List.Subset.trans hlog₂ hlog₃) ?_ hpermanent
    rw [htraits₃]
    intro heq
    have hpacked : u.packedTraits + 1 = u.packedTraits := congrArg Traits.packedTraits heq
    simp at hpacked
  · rw [hback.frames] at halone
    rw [hframes, unrivalled_cons]
    refine ⟨?_, halone⟩
    intro v hv
    exact (Runner.locking.inj (hv.symm.trans hkind)).2

/-- Account 7 locks token 1 under the name hash 3, and the core calls nobody. -/
theorem named_lock_permanent : Permanent (fun _ => 0) 10 (underWay 3) 1 ⟨5, 3⟩ :=
  (traits_permanent_iff (fun _ => 0) 10 (underWay 3) 1 ⟨5, 3⟩ (by decide +kernel)).1
    ⟨by decide, by decide +kernel⟩

-- the core calls back: the lock of 6 succeeds and is overwritten, though its name hash is 4
example :
    let evs : List Event := underWay 3 ++ [.message ⟨0, 0, true⟩ ⟨7, .lockTraits 1 6 4⟩, .leave true]
    (run (fun _ => 0) 10 evs).current.nft.traits 1 = ⟨6, 4⟩ ∧
      (run (fun _ => 0) 10 (evs ++ [.leave true])).current.nft.traits 1 = ⟨5, 3⟩ := by
  decide +kernel

end Locking

end ChainBeasts.Contracts.CreatureNFT
