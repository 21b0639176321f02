import ChainBeasts.Clock
import ChainBeasts.Evm.Packed

/-! # `CurriculumDuel.sol`

A challenger commits to a dataset and a secret, and reveals the dataset within three blocks of the
battle block, or forfeits. The windows are told apart by the record of the duel, which `challenge`
writes as a whole: what was done to an id before (anybody may forfeit one that is not scheduled yet)
is gone then, except for a stored dataset, which the reveal overwrites. From then on a duel is
revealed or forfeited once, each in its window, and keeps its outcome (`duels_kept`). -/

namespace ChainBeasts.Contracts

open ChainBeasts.Evm ChainBeasts.Machine ChainBeasts.Clock

structure CurriculumDuel.Duel where
  challenger : Address
  opponent : Address
  battleBlock : U256
  datasetCommit : Bytes32
  secret : Bytes32
  revealed : Bool
  forfeited : Bool
  deriving DecidableEq

structure CurriculumDuel where
  nextId : U256
  duels : U256 → CurriculumDuel.Duel
  datasets : U256 → Bytes

namespace CurriculumDuel

def revealWindow : U256 := 3

def deploy : CurriculumDuel where
  nextId := 1
  duels _ := ⟨zeroAddress, zeroAddress, 0, 0, 0, false, false⟩
  datasets _ := []

/-- The precompiled signature check: hash, `v`, `r` and `s`. -/
abbrev Recover := Bytes32 → BitVec 8 → Bytes32 → Bytes32 → Address

/-- The id it returns is `nextId`. -/
def challenge (keccak256 : Bytes → Bytes32) (ecrecover : Recover) (x : CurriculumDuel)
    (block : U256) (sender opponent : Address) (battleBlock : U256)
    (datasetCommit secret : Bytes32) (v : BitVec 8) (r s : Bytes32) : Option CurriculumDuel := do
  require (block < battleBlock)
  let msgHash := keccak256 (packWord datasetCommit ++ packWord secret ++ packWord battleBlock)
  require (ecrecover msgHash v r s = sender)
  let nextId ← checkedAdd x.nextId 1
  let d : Duel := ⟨sender, opponent, battleBlock, datasetCommit, secret, false, false⟩
  return { x with nextId, duels := Function.update x.duels x.nextId d }

def revealDataset (keccak256 : Bytes → Bytes32) (x : CurriculumDuel) (block duelId : U256)
    (data : Bytes) (secret : Bytes32) : Option CurriculumDuel := do
  let d := x.duels duelId
  require (d.battleBlock ≤ block)
  let revealEnd ← checkedAdd d.battleBlock revealWindow
  require (block < revealEnd)
  require (¬ d.revealed ∧ ¬ d.forfeited)
  require (secret = d.secret)
  require (keccak256 data = d.datasetCommit)
  return { x with
    datasets := Function.update x.datasets duelId data
    duels := Function.update x.duels duelId { d with revealed := true } }

def claimForfeit (x : CurriculumDuel) (block duelId : U256) : Option CurriculumDuel := do
  let d := x.duels duelId
  let revealEnd ← checkedAdd d.battleBlock revealWindow
  require (revealEnd ≤ block)
  require (¬ d.revealed ∧ ¬ d.forfeited)
  return { x with duels := Function.update x.duels duelId { d with forfeited := true } }

/-- The external functions that write. -/
inductive Call where
  | challenge (opponent : Address) (battleBlock : U256) (datasetCommit secret : Bytes32)
      (v : BitVec 8) (r s : Bytes32)
  | revealDataset (duelId : U256) (data : Bytes) (secret : Bytes32)
  | claimForfeit (duelId : U256)
  deriving DecidableEq

def step (keccak256 : Bytes → Bytes32) (ecrecover : Recover) (block : U256) (x : CurriculumDuel)
    (tx : Tx Call) : Option CurriculumDuel :=
  match tx.call with
  | .challenge opponent battleBlock datasetCommit secret v r s =>
      x.challenge keccak256 ecrecover block tx.sender opponent battleBlock datasetCommit secret v r s
  | .revealDataset duelId data secret => x.revealDataset keccak256 block duelId data secret
  | .claimForfeit duelId => x.claimForfeit block duelId

/-- The contract after `evs`, from its deployment in block `block`. -/
def run (keccak256 : Bytes → Bytes32) (ecrecover : Recover) (block : U256)
    (evs : List (Event U256 (Tx Call))) : Clocked U256 CurriculumDuel :=
  Clock.run (step keccak256 ecrecover) ⟨block, deploy⟩ evs

/-- An event of a run, with the states around it. -/
abbrev Happening := Move (Clocked U256 CurriculumDuel) (Event U256 (Tx Call))

/-- What happened: the accepted calls and the new blocks. -/
def moves (keccak256 : Bytes → Bytes32) (ecrecover : Recover) (block : U256)
    (evs : List (Event U256 (Tx Call))) : List Happening :=
  Clock.moves (step keccak256 ecrecover) ⟨block, deploy⟩ evs

/-! ## What each function can do -/

variable {keccak256 : Bytes → Bytes32} {ecrecover : Recover} {x x' : CurriculumDuel}
  {block id : U256} {sender : Address}

theorem checkedAdd_window {a b : U256} (h : checkedAdd a revealWindow = some b) :
    b.toNat = a.toNat + 3 :=
  checkedAdd_eq_some.mp h

theorem challenge_cases {opponent : Address} {battleBlock : U256} {datasetCommit secret : Bytes32}
    {v : BitVec 8} {r s : Bytes32}
    (h : x.challenge keccak256 ecrecover block sender opponent battleBlock datasetCommit secret v r s
      = some x') :
    block < battleBlock ∧ ∃ nextId : U256, nextId.toNat = x.nextId.toNat + 1 ∧
      x' = { x with
        nextId
        duels := Function.update x.duels x.nextId
          ⟨sender, opponent, battleBlock, datasetCommit, secret, false, false⟩ } := by
  simp only [challenge, Option.bind_eq_bind, Option.bind_eq_some_iff, require_eq_some,
    checkedAdd_eq_some, Option.pure_def, Option.some.injEq] at h
  obtain ⟨_, hpast, _, -, nextId, hnext, rfl⟩ := h
  exact ⟨hpast, nextId, hnext, rfl⟩

theorem revealDataset_cases {data : Bytes} {secret : Bytes32}
    (h : x.revealDataset keccak256 block id data secret = some x') :
    (x.duels id).battleBlock.toNat ≤ block.toNat ∧
      block.toNat < (x.duels id).battleBlock.toNat + 3 ∧
      (x.duels id).revealed = false ∧ (x.duels id).forfeited = false ∧
      keccak256 data = (x.duels id).datasetCommit ∧
      x' = { x with
        datasets := Function.update x.datasets id data
        duels := Function.update x.duels id { x.duels id with revealed := true } } := by
  simp only [revealDataset, Option.bind_eq_bind, Option.bind_eq_some_iff, require_eq_some,
    Option.pure_def, Option.some.injEq, Bool.not_eq_true] at h
  obtain ⟨_, hearly, revealEnd, hend, _, hover, _, ⟨hrevealed, hforfeited⟩, _, -, _, hcommit, rfl⟩ :=
    h
  rw [BitVec.lt_def, checkedAdd_window hend] at hover
  exact ⟨BitVec.le_def.mp hearly, hover, hrevealed, hforfeited, hcommit, rfl⟩

theorem claimForfeit_cases (h : x.claimForfeit block id = some x') :
    (x.duels id).battleBlock.toNat + 3 ≤ block.toNat ∧ (x.duels id).revealed = false ∧
      (x.duels id).forfeited = false ∧
      x' = { x with duels := Function.update x.duels id { x.duels id with forfeited := true } } := by
  simp only [claimForfeit, Option.bind_eq_bind, Option.bind_eq_some_iff, require_eq_some,
    Option.pure_def, Option.some.injEq, Bool.not_eq_true] at h
  obtain ⟨revealEnd, hend, _, hover, _, ⟨hrevealed, hforfeited⟩, rfl⟩ := h
  rw [BitVec.le_def, checkedAdd_window hend] at hover
  exact ⟨hover, hrevealed, hforfeited, rfl⟩

/-! ## One call and one duel -/

/-- The duel `id` has been scheduled. -/
def Scheduled (x : CurriculumDuel) (id : U256) : Prop := 1 ≤ id.toNat ∧ id.toNat < x.nextId.toNat

/-- What a call does to the duel `id`: nothing, schedule it, reveal it in its window, or forfeit it
after. -/
inductive Touch (keccak256 : Bytes → Bytes32) (block : U256) (x : CurriculumDuel) (id : U256)
    (x' : CurriculumDuel) : Call → Prop
  | kept {call : Call} (duel : x'.duels id = x.duels id) (dataset : x'.datasets id = x.datasets id) :
      Touch keccak256 block x id x' call
  | scheduled {call : Call} (fresh : id = x.nextId) (revealed : (x'.duels id).revealed = false)
      (forfeited : (x'.duels id).forfeited = false) : Touch keccak256 block x id x' call
  | revealed (data : Bytes) (secret : Bytes32)
      (early : (x.duels id).battleBlock.toNat ≤ block.toNat)
      (late : block.toNat < (x.duels id).battleBlock.toNat + 3)
      (unrevealed : (x.duels id).revealed = false) (unforfeited : (x.duels id).forfeited = false)
      (commit : keccak256 data = (x.duels id).datasetCommit)
      (duel : x'.duels id = { x.duels id with revealed := true })
      (dataset : x'.datasets id = data) :
      Touch keccak256 block x id x' (.revealDataset id data secret)
  | forfeited (late : (x.duels id).battleBlock.toNat + 3 ≤ block.toNat)
      (unrevealed : (x.duels id).revealed = false) (unforfeited : (x.duels id).forfeited = false)
      (duel : x'.duels id = { x.duels id with forfeited := true })
      (dataset : x'.datasets id = x.datasets id) : Touch keccak256 block x id x' (.claimForfeit id)

/-- **One call and one duel.** The counter only rises. -/
theorem step_touch {tx : Tx Call} (h : x.step keccak256 ecrecover block tx = some x') :
    x.nextId.toNat ≤ x'.nextId.toNat ∧ ∀ id, Touch keccak256 block x id x' tx.call := by
  obtain ⟨sender, call⟩ := tx
  cases call with
  | challenge opponent battleBlock datasetCommit secret v r s =>
      obtain ⟨-, nextId, hnext, rfl⟩ := challenge_cases h
      refine ⟨?_, fun id => ?_⟩
      · show x.nextId.toNat ≤ nextId.toNat
        omega
      · by_cases hid : id = x.nextId
        · subst hid
          apply Touch.scheduled rfl
          · simp only [Function.update_self]
          · simp only [Function.update_self]
        · exact .kept (Function.update_of_ne hid _ _) rfl
  | revealDataset duelId data secret =>
      obtain ⟨hearly, hover, hrevealed, hforfeited, hcommit, rfl⟩ := revealDataset_cases h
      refine ⟨Nat.le_refl _, fun id => ?_⟩
      by_cases hid : id = duelId
      · subst hid
        exact .revealed data secret hearly hover hrevealed hforfeited hcommit
          (Function.update_self _ _ _) (Function.update_self _ _ _)
      · exact .kept (Function.update_of_ne hid _ _) (Function.update_of_ne hid _ _)
  | claimForfeit duelId =>
      obtain ⟨hover, hrevealed, hforfeited, rfl⟩ := claimForfeit_cases h
      refine ⟨Nat.le_refl _, fun id => ?_⟩
      by_cases hid : id = duelId
      · subst hid
        exact .forfeited hover hrevealed hforfeited (Function.update_self _ _ _) rfl
      · exact .kept (Function.update_of_ne hid _ _) rfl

/-! ## Every run -/

/-- The byte string a call presents as its dataset. -/
def dataset (m : Happening) : Option Bytes :=
  match m.call with
  | .call ⟨_, .revealDataset _ data _⟩ => some data
  | _ => none

/-- The state `x` after the moves `tr`: no duel has both flags, and a dataset that was revealed was
presented and has the digest committed to. -/
structure Sound (keccak256 : Bytes → Bytes32) (x : CurriculumDuel) (tr : List Happening) : Prop where
  exclusive : ∀ id, ¬ ((x.duels id).revealed = true ∧ (x.duels id).forfeited = true)
  presented : ∀ id, (x.duels id).revealed = true → x.datasets id ∈ tr.filterMap dataset
  committed : ∀ id, (x.duels id).revealed = true →
    keccak256 (x.datasets id) = (x.duels id).datasetCommit

theorem Sound.step {tr : List Happening} {tx : Tx Call} (hs : Sound keccak256 x tr)
    (h : x.step keccak256 ecrecover block tx = some x') :
    Sound keccak256 x' (tr ++ [⟨⟨block, x⟩, .call tx, ⟨block, x'⟩⟩]) := by
  obtain ⟨-, htouch⟩ := step_touch h
  obtain ⟨sender, call⟩ := tx
  refine ⟨fun id => ?_, fun id hrevealed => ?_, fun id hrevealed => ?_⟩
  · cases htouch id with
    | kept duel dataset =>
        rw [duel]
        exact hs.exclusive id
    | scheduled fresh revealed forfeited => simp [revealed]
    | revealed data secret early late unrevealed unforfeited commit duel dataset =>
        simp [duel, unforfeited]
    | forfeited late unrevealed unforfeited duel dataset => simp [duel, unrevealed]
  · rw [List.filterMap_append]
    apply List.mem_append.mpr
    cases htouch id with
    | kept duel dataset =>
        rw [duel] at hrevealed
        rw [dataset]
        exact Or.inl (hs.presented id hrevealed)
    | scheduled fresh revealed forfeited => rw [revealed] at hrevealed; cases hrevealed
    | revealed data secret early late unrevealed unforfeited commit duel dataset =>
        rw [dataset]
        exact Or.inr (List.mem_singleton_self data)
    | forfeited late unrevealed unforfeited duel dataset =>
        rw [duel] at hrevealed
        exact absurd (unrevealed.symm.trans hrevealed) Bool.false_ne_true
  · cases htouch id with
    | kept duel dataset =>
        rw [duel] at hrevealed ⊢
        rw [dataset]
        exact hs.committed id hrevealed
    | scheduled fresh revealed forfeited => rw [revealed] at hrevealed; cases hrevealed
    | revealed data secret early late unrevealed unforfeited commit duel dataset =>
        rw [dataset, duel]
        exact commit
    | forfeited late unrevealed unforfeited duel dataset =>
        rw [duel] at hrevealed
        exact absurd (unrevealed.symm.trans hrevealed) Bool.false_ne_true

theorem run_sound (keccak256 : Bytes → Bytes32) (ecrecover : Recover) (block : U256)
    (evs : List (Event U256 (Tx Call))) :
    Sound keccak256 (run keccak256 ecrecover block evs).state
      (moves keccak256 ecrecover block evs) := by
  apply clock_induction (P := fun s tr => Sound keccak256 s.state tr)
  · refine ⟨fun id => ?_, fun id hrevealed => ?_, fun id hrevealed => ?_⟩
    · simp [deploy]
    · cases hrevealed
    · cases hrevealed
  · intro s tr now hs hle
    refine ⟨hs.exclusive, fun id hrevealed => ?_, hs.committed⟩
    rw [List.filterMap_append]
    exact List.mem_append_left _ (hs.presented id hrevealed)
  · intro s tr tx x' hs h
    exact hs.step h

/-- Once a duel is scheduled and has an outcome, it keeps it. -/
theorem run_settled {s : Clocked U256 CurriculumDuel} (hscheduled : s.state.Scheduled id)
    (houtcome : (s.state.duels id).revealed = true ∨ (s.state.duels id).forfeited = true)
    (more : List (Event U256 (Tx Call))) :
    (Clock.run (step keccak256 ecrecover) s more).state.duels id = s.state.duels id ∧
      (Clock.run (step keccak256 ecrecover) s more).state.datasets id = s.state.datasets id := by
  refine (clock_invariant (P := fun (_ : U256) (x : CurriculumDuel) => x.Scheduled id ∧
    x.duels id = s.state.duels id ∧ x.datasets id = s.state.datasets id) ?_ ?_ ?_ more).2
  · exact ⟨hscheduled, rfl, rfl⟩
  · intro block block' x hx hle
    exact hx
  · rintro block x tx x' ⟨hx, hduel, hdataset⟩ h
    obtain ⟨hle, htouch⟩ := step_touch h
    refine ⟨⟨hx.1, Nat.lt_of_lt_of_le hx.2 hle⟩, ?_⟩
    rw [← hduel] at houtcome
    generalize tx.call = call at htouch
    cases htouch id with
    | kept duel dataset => exact ⟨duel.trans hduel, dataset.trans hdataset⟩
    | scheduled fresh revealed forfeited =>
        -- the counter has passed the id
        exact absurd (congrArg BitVec.toNat fresh) (Nat.ne_of_lt hx.2)
    | revealed data secret early late unrevealed unforfeited commit duel dataset =>
        simp [unrevealed, unforfeited] at houtcome
    | forfeited late unrevealed unforfeited duel dataset =>
        simp [unrevealed, unforfeited] at houtcome

/-! ## The windows -/

/-- Every event of a run touches the duel or keeps it; a new block keeps all of them. -/
theorem touch_of_mem {evs : List (Event U256 (Tx Call))} {m : Happening}
    (hm : m ∈ moves keccak256 ecrecover block evs) (id : U256) :
    ∃ call, Touch keccak256 m.pre.now m.pre.state id m.post.state call := by
  have hstep := step_of_mem_trace hm
  obtain ⟨now, -, -, hpost⟩ | ⟨tx, x', -, hnext, hpost⟩ := step_cases hstep
  · rw [hpost]
    exact ⟨.claimForfeit id, .kept rfl rfl⟩
  · rw [hpost]
    exact ⟨tx.call, (step_touch hnext).2 id⟩

/-- A dataset is revealed in its window. -/
theorem Touch.revealed_in_window {call : Call} (h : Touch keccak256 block x id x' call)
    (hold : (x.duels id).revealed = false) (hnew : (x'.duels id).revealed = true) :
    (x.duels id).battleBlock.toNat ≤ block.toNat ∧
      block.toNat < (x.duels id).battleBlock.toNat + 3 := by
  cases h with
  | kept duel dataset =>
      rw [duel, hold] at hnew
      cases hnew
  | scheduled fresh revealed forfeited =>
      rw [revealed] at hnew
      cases hnew
  | revealed data secret early late unrevealed unforfeited commit duel dataset =>
      exact ⟨early, late⟩
  | forfeited late unrevealed unforfeited duel dataset =>
      rw [duel] at hnew
      exact absurd (hold.symm.trans hnew) Bool.false_ne_true

/-- A duel is forfeited after its window. -/
theorem Touch.forfeited_after_window {call : Call} (h : Touch keccak256 block x id x' call)
    (hold : (x.duels id).forfeited = false) (hnew : (x'.duels id).forfeited = true) :
    (x.duels id).battleBlock.toNat + 3 ≤ block.toNat := by
  cases h with
  | kept duel dataset =>
      rw [duel, hold] at hnew
      cases hnew
  | scheduled fresh revealed forfeited =>
      rw [forfeited] at hnew
      cases hnew
  | revealed data secret early late unrevealed unforfeited commit duel dataset =>
      rw [duel] at hnew
      exact absurd (hold.symm.trans hnew) Bool.false_ne_true
  | forfeited late unrevealed unforfeited duel dataset => exact late

/-- What the contract guarantees after `evs`. The windows hold for every id, scheduled or not; an
outcome lasts for a scheduled one. -/
structure Kept (keccak256 : Bytes → Bytes32) (ecrecover : Recover) (block : U256)
    (evs : List (Event U256 (Tx Call))) : Prop where
  exclusive : ∀ id, ¬ (((run keccak256 ecrecover block evs).state.duels id).revealed = true ∧
    ((run keccak256 ecrecover block evs).state.duels id).forfeited = true)
  revealed : ∀ m ∈ moves keccak256 ecrecover block evs, ∀ id,
    (m.pre.state.duels id).revealed = false → (m.post.state.duels id).revealed = true →
    (m.pre.state.duels id).battleBlock.toNat ≤ m.pre.now.toNat ∧
      m.pre.now.toNat < (m.pre.state.duels id).battleBlock.toNat + 3
  forfeited : ∀ m ∈ moves keccak256 ecrecover block evs, ∀ id,
    (m.pre.state.duels id).forfeited = false → (m.post.state.duels id).forfeited = true →
    (m.pre.state.duels id).battleBlock.toNat + 3 ≤ m.pre.now.toNat
  settled : ∀ id, (run keccak256 ecrecover block evs).state.Scheduled id →
    ((run keccak256 ecrecover block evs).state.duels id).revealed = true ∨
      ((run keccak256 ecrecover block evs).state.duels id).forfeited = true → ∀ more,
    (run keccak256 ecrecover block (evs ++ more)).state.duels id =
        (run keccak256 ecrecover block evs).state.duels id ∧
      (run keccak256 ecrecover block (evs ++ more)).state.datasets id =
        (run keccak256 ecrecover block evs).state.datasets id
  committed : ∀ id, ((run keccak256 ecrecover block evs).state.duels id).revealed = true →
    keccak256 ((run keccak256 ecrecover block evs).state.datasets id) =
      ((run keccak256 ecrecover block evs).state.duels id).datasetCommit
  /-- Where nothing that was presented collides with `data`, and `data` is what was committed to. -/
  dataset : ∀ id, ((run keccak256 ecrecover block evs).state.duels id).revealed = true → ∀ data,
    (∀ d ∈ (moves keccak256 ecrecover block evs).filterMap dataset,
      keccak256 d = keccak256 data → d = data) →
    keccak256 data = ((run keccak256 ecrecover block evs).state.duels id).datasetCommit →
    (run keccak256 ecrecover block evs).state.datasets id = data

/-- **A duel is revealed or forfeited, once and in time**, in every run. -/
theorem duels_kept (keccak256 : Bytes → Bytes32) (ecrecover : Recover) (block : U256)
    (evs : List (Event U256 (Tx Call))) : Kept keccak256 ecrecover block evs := by
  have hs := run_sound keccak256 ecrecover block evs
  refine ⟨hs.exclusive, ?_, ?_, ?_, hs.committed, ?_⟩
  · intro m hm id hold hnew
    obtain ⟨call, htouch⟩ := touch_of_mem hm id
    exact htouch.revealed_in_window hold hnew
  · intro m hm id hold hnew
    obtain ⟨call, htouch⟩ := touch_of_mem hm id
    exact htouch.forfeited_after_window hold hnew
  · intro id hscheduled houtcome more
    rw [run, run, run_append]
    exact run_settled hscheduled houtcome more
  · intro id hrevealed data hfree hcommit
    apply hfree _ (hs.presented id hrevealed)
    rw [hs.committed id hrevealed, hcommit]

end CurriculumDuel

end ChainBeasts.Contracts
