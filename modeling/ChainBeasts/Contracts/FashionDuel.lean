import ChainBeasts.Clock
import ChainBeasts.Evm.Packed

/-! # `FashionDuel.sol`

Commit-reveal votes on style battles. A duel is initiated with a judging block, a commit window and
a reveal window, and tallied once the reveal window is over. All phases are told apart by comparing
`block.number` with a record that is all zeros until the duel is initiated: nobody can commit or
reveal before, but everybody can tally (`tallied_right_iff`).

`tallies` is the log of the `Tally` events. -/

namespace ChainBeasts.Contracts

open ChainBeasts.Evm ChainBeasts.Machine ChainBeasts.Clock

inductive VoteSide where
  | none
  | challenger
  | opponent
  deriving DecidableEq

/-- `uint8(side)`. -/
def VoteSide.toUint8 : VoteSide → Nat
  | .none => 0
  | .challenger => 1
  | .opponent => 2

structure Duel where
  challenger : Address
  opponent : Address
  judgeBlock : U256
  commitEnd : U256
  revealEnd : U256
  resolved : Bool
  deriving DecidableEq

structure FashionDuel where
  nextId : U256
  duels : U256 → Duel
  commitments : U256 → Address → Bytes32
  reveals : U256 → Address → VoteSide
  weightChallenger : U256 → U256
  weightOpponent : U256 → U256
  tallies : List (U256 × VoteSide)

namespace FashionDuel

def deploy : FashionDuel where
  nextId := 1
  duels _ := ⟨zeroAddress, zeroAddress, 0, 0, 0, false⟩
  commitments _ _ := 0
  reveals _ _ := .none
  weightChallenger _ := 0
  weightOpponent _ := 0
  tallies := []

/-- The id it returns is `nextId`. It does not write `resolved`. -/
def initiate (s : FashionDuel) (block : U256) (sender opponent : Address)
    (judgeBlock commitWindow revealWindow : U256) : Option FashionDuel := do
  require (block < judgeBlock)
  let nextId ← checkedAdd s.nextId 1
  let commitEnd ← checkedAdd judgeBlock commitWindow
  let revealEnd ← checkedAdd commitEnd revealWindow
  let d : Duel := { s.duels s.nextId with
    challenger := sender, opponent, judgeBlock, commitEnd, revealEnd }
  return { s with nextId, duels := Function.update s.duels s.nextId d }

/-- `m[id][account] = value`. -/
def write {α : Type} (m : U256 → Address → α) (id : U256) (account : Address) (value : α) :
    U256 → Address → α :=
  Function.update m id (Function.update (m id) account value)

def commit (s : FashionDuel) (block : U256) (sender : Address) (duelId : U256)
    (commitment : Bytes32) : Option FashionDuel := do
  let d := s.duels duelId
  require (d.judgeBlock ≤ block)
  require (block < d.commitEnd)
  return { s with commitments := write s.commitments duelId sender commitment }

/-- `keccak256(abi.encodePacked(uint8(side), salt))`. -/
def encodeVote (keccak256 : Bytes → Bytes32) (side : VoteSide) (salt : Bytes32) : Bytes32 :=
  keccak256 (bigEndian 1 side.toUint8 ++ packWord salt)

/-- The two weights after one more vote for `side`. -/
def weigh (s : FashionDuel) (duelId : U256) : VoteSide → Option FashionDuel
  | .challenger => do
      let weight ← checkedAdd (s.weightChallenger duelId) 1
      return { s with weightChallenger := Function.update s.weightChallenger duelId weight }
  | .opponent => do
      let weight ← checkedAdd (s.weightOpponent duelId) 1
      return { s with weightOpponent := Function.update s.weightOpponent duelId weight }
  | .none => return s

def reveal (keccak256 : Bytes → Bytes32) (s : FashionDuel) (block : U256) (sender : Address)
    (duelId : U256) (side : VoteSide) (salt : Bytes32) : Option FashionDuel := do
  let d := s.duels duelId
  require (d.commitEnd ≤ block)
  require (block < d.revealEnd)
  require (s.commitments duelId sender = encodeVote keccak256 side salt)
  require (s.reveals duelId sender = .none)
  let revealed := { s with reveals := write s.reveals duelId sender side }
  revealed.weigh duelId side

/-- Ties go to the challenger. -/
def winner (s : FashionDuel) (duelId : U256) : VoteSide :=
  if s.weightOpponent duelId ≤ s.weightChallenger duelId then .challenger else .opponent

def tally (s : FashionDuel) (block duelId : U256) : Option FashionDuel := do
  let d := s.duels duelId
  require (d.revealEnd ≤ block)
  require (¬ d.resolved)
  return { s with
    duels := Function.update s.duels duelId { d with resolved := true }
    tallies := s.tallies ++ [(duelId, s.winner duelId)] }

/-- The external functions that write. -/
inductive Call where
  | initiate (opponent : Address) (judgeBlock commitWindow revealWindow : U256)
  | commit (duelId : U256) (commitment : Bytes32)
  | reveal (duelId : U256) (side : VoteSide) (salt : Bytes32)
  | tally (duelId : U256)
  deriving DecidableEq

def step (keccak256 : Bytes → Bytes32) (block : U256) (s : FashionDuel) (tx : Tx Call) :
    Option FashionDuel :=
  match tx.call with
  | .initiate opponent judgeBlock commitWindow revealWindow =>
      s.initiate block tx.sender opponent judgeBlock commitWindow revealWindow
  | .commit duelId commitment => s.commit block tx.sender duelId commitment
  | .reveal duelId side salt => s.reveal keccak256 block tx.sender duelId side salt
  | .tally duelId => s.tally block duelId

/-- The contract after `evs`, from its deployment in block `block`. -/
def run (keccak256 : Bytes → Bytes32) (block : U256) (evs : List (Event U256 (Tx Call))) :
    Clocked U256 FashionDuel :=
  Clock.run (step keccak256) ⟨block, deploy⟩ evs

/-- An event of a run, with the states around it. -/
abbrev Happening := Move (Clocked U256 FashionDuel) (Event U256 (Tx Call))

/-- What happened: the accepted calls and the new blocks. -/
def moves (keccak256 : Bytes → Bytes32) (block : U256) (evs : List (Event U256 (Tx Call))) :
    List Happening :=
  Clock.moves (step keccak256) ⟨block, deploy⟩ evs

/-! ## What each function can do -/

variable {keccak256 : Bytes → Bytes32} {s s' : FashionDuel} {block id : U256}
  {sender voter : Address}

theorem initiate_cases {opponent : Address} {judgeBlock commitWindow revealWindow : U256}
    (h : s.initiate block sender opponent judgeBlock commitWindow revealWindow = some s') :
    ∃ nextId commitEnd revealEnd : U256, block < judgeBlock ∧ judgeBlock ≤ commitEnd ∧
      commitEnd ≤ revealEnd ∧ nextId.toNat = s.nextId.toNat + 1 ∧
      s' = { s with
        nextId
        duels := Function.update s.duels s.nextId { s.duels s.nextId with
          challenger := sender, opponent, judgeBlock, commitEnd, revealEnd } } := by
  simp only [initiate, Option.bind_eq_bind, Option.bind_eq_some_iff, require_eq_some,
    checkedAdd_eq_some, Option.pure_def, Option.some.injEq] at h
  obtain ⟨_, hjudge, nextId, hnext, commitEnd, hcommit, revealEnd, hreveal, rfl⟩ := h
  refine ⟨nextId, commitEnd, revealEnd, hjudge, ?_, ?_, hnext, rfl⟩
  · rw [BitVec.le_def]
    omega
  · rw [BitVec.le_def]
    omega

theorem commit_cases {commitment : Bytes32} (h : s.commit block sender id commitment = some s') :
    (s.duels id).judgeBlock ≤ block ∧ block < (s.duels id).commitEnd ∧
      s' = { s with commitments := write s.commitments id sender commitment } := by
  simp only [commit, Option.bind_eq_bind, Option.bind_eq_some_iff, require_eq_some,
    Option.pure_def, Option.some.injEq] at h
  obtain ⟨_, hjudge, _, hend, rfl⟩ := h
  exact ⟨hjudge, hend, rfl⟩

theorem weigh_cases {side : VoteSide} (h : s.weigh id side = some s') :
    (side = .challenger ∧ ∃ weight : U256, weight.toNat = (s.weightChallenger id).toNat + 1 ∧
        s' = { s with weightChallenger := Function.update s.weightChallenger id weight }) ∨
      (side = .opponent ∧ ∃ weight : U256, weight.toNat = (s.weightOpponent id).toNat + 1 ∧
        s' = { s with weightOpponent := Function.update s.weightOpponent id weight }) ∨
      (side = .none ∧ s' = s) := by
  cases side with
  | challenger =>
      obtain ⟨weight, hweight, hs⟩ := Option.bind_eq_some_iff.mp h
      exact Or.inl ⟨rfl, weight, checkedAdd_eq_some.mp hweight, (Option.some.inj hs).symm⟩
  | opponent =>
      obtain ⟨weight, hweight, hs⟩ := Option.bind_eq_some_iff.mp h
      exact Or.inr (Or.inl ⟨rfl, weight, checkedAdd_eq_some.mp hweight, (Option.some.inj hs).symm⟩)
  | none => exact Or.inr (Or.inr ⟨rfl, (Option.some.inj h).symm⟩)

theorem reveal_cases {side : VoteSide} {salt : Bytes32}
    (h : s.reveal keccak256 block sender id side salt = some s') :
    (s.duels id).commitEnd ≤ block ∧ block < (s.duels id).revealEnd ∧
      s.commitments id sender = encodeVote keccak256 side salt ∧ s.reveals id sender = .none ∧
      weigh { s with reveals := write s.reveals id sender side } id side = some s' := by
  simp only [reveal, Option.bind_eq_bind, Option.bind_eq_some_iff, require_eq_some] at h
  obtain ⟨_, hend, _, hreveal, _, hcommitted, _, hfirst, hweigh⟩ := h
  exact ⟨hend, hreveal, hcommitted, hfirst, hweigh⟩

theorem tally_cases (h : s.tally block id = some s') :
    (s.duels id).revealEnd ≤ block ∧ (s.duels id).resolved = false ∧
      s' = { s with
        duels := Function.update s.duels id { s.duels id with resolved := true }
        tallies := s.tallies ++ [(id, s.winner id)] } := by
  simp only [tally, Option.bind_eq_bind, Option.bind_eq_some_iff, require_eq_some,
    Option.pure_def, Option.some.injEq] at h
  obtain ⟨_, hend, _, hopen, rfl⟩ := h
  exact ⟨hend, by simpa using hopen, rfl⟩

theorem exists_tally (hend : (s.duels id).revealEnd ≤ block)
    (hopen : (s.duels id).resolved = false) : ∃ s', s.tally block id = some s' := by
  simp [tally, require, hend, hopen]

/-! ## The phases -/

/-- An id that `initiate` has returned. -/
def Initiated (s : FashionDuel) (id : U256) : Prop := 0 < id ∧ id < s.nextId

instance (s : FashionDuel) (id : U256) : Decidable (s.Initiated id) :=
  inferInstanceAs (Decidable (_ ∧ _))

/-- **Everything a call can do to the records.** It starts a duel at the next id and keeps what is
there of `resolved`, or resolves one, or leaves them alone. -/
theorem step_duels {tx : Tx Call} (h : s.step keccak256 block tx = some s') :
    (∃ d : Duel, (∀ id, tx.call ≠ .tally id) ∧ s'.nextId.toNat = s.nextId.toNat + 1 ∧
        s'.duels = Function.update s.duels s.nextId d ∧ block < d.judgeBlock ∧
        d.judgeBlock ≤ d.commitEnd ∧ d.commitEnd ≤ d.revealEnd ∧
        d.resolved = (s.duels s.nextId).resolved) ∨
      (∃ id, tx.call = .tally id ∧ (s.duels id).revealEnd ≤ block ∧
        (s.duels id).resolved = false ∧ s'.nextId = s.nextId ∧
        s'.duels = Function.update s.duels id { s.duels id with resolved := true }) ∨
      ((∀ id, tx.call ≠ .tally id) ∧ s'.nextId = s.nextId ∧ s'.duels = s.duels) := by
  obtain ⟨sender, call⟩ := tx
  cases call with
  | initiate opponent judgeBlock commitWindow revealWindow =>
      obtain ⟨nextId, commitEnd, revealEnd, hjudge, hcommit, hreveal, hnext, rfl⟩ :=
        initiate_cases h
      exact Or.inl ⟨_, by simp, hnext, rfl, hjudge, hcommit, hreveal, rfl⟩
  | commit id commitment =>
      obtain ⟨-, -, rfl⟩ := commit_cases h
      exact Or.inr (Or.inr ⟨by simp, rfl, rfl⟩)
  | reveal id side salt =>
      obtain ⟨-, -, -, -, hweigh⟩ := reveal_cases h
      obtain ⟨-, weight, -, rfl⟩ | ⟨-, weight, -, rfl⟩ | ⟨-, rfl⟩ := weigh_cases hweigh
      · exact Or.inr (Or.inr ⟨by simp, rfl, rfl⟩)
      · exact Or.inr (Or.inr ⟨by simp, rfl, rfl⟩)
      · exact Or.inr (Or.inr ⟨by simp, rfl, rfl⟩)
  | tally id =>
      obtain ⟨hend, hopen, rfl⟩ := tally_cases h
      exact Or.inr (Or.inl ⟨id, rfl, hend, hopen, rfl, rfl⟩)

/-- A call starts a duel at the next id, or leaves all windows as they are. -/
theorem starts_or_keeps {tx : Tx Call} (h : s.step keccak256 block tx = some s') :
    (∃ d : Duel, s'.nextId.toNat = s.nextId.toNat + 1 ∧
        s'.duels = Function.update s.duels s.nextId d ∧
        d.judgeBlock ≤ d.commitEnd ∧ d.commitEnd ≤ d.revealEnd) ∨
      s'.nextId = s.nextId ∧ ∀ id, (s'.duels id).judgeBlock = (s.duels id).judgeBlock ∧
        (s'.duels id).commitEnd = (s.duels id).commitEnd ∧
        (s'.duels id).revealEnd = (s.duels id).revealEnd := by
  obtain ⟨d, -, hnext, hduels, -, hcommit, hreveal, -⟩ | ⟨t, -, -, -, hnext, hduels⟩ |
    ⟨-, hnext, hduels⟩ := step_duels h
  · exact Or.inl ⟨d, hnext, hduels, hcommit, hreveal⟩
  · refine Or.inr ⟨hnext, ?_⟩
    rw [hduels, Function.forall_update_iff s.duels fun id d =>
      d.judgeBlock = (s.duels id).judgeBlock ∧ d.commitEnd = (s.duels id).commitEnd ∧
        d.revealEnd = (s.duels id).revealEnd]
    exact ⟨⟨rfl, rfl, rfl⟩, fun id _ => ⟨rfl, rfl, rfl⟩⟩
  · refine Or.inr ⟨hnext, ?_⟩
    rw [hduels]
    exact fun id => ⟨rfl, rfl, rfl⟩

/-- The windows of an initiated duel are fixed. -/
theorem step_windows {tx : Tx Call} (h : s.step keccak256 block tx = some s')
    (hid : s.Initiated id) :
    (s'.duels id).judgeBlock = (s.duels id).judgeBlock ∧
      (s'.duels id).commitEnd = (s.duels id).commitEnd ∧
      (s'.duels id).revealEnd = (s.duels id).revealEnd := by
  obtain ⟨d, -, hduels, -⟩ | ⟨-, hkept⟩ := starts_or_keeps h
  · have hne : id ≠ s.nextId := by
      rintro rfl
      exact BitVec.lt_irrefl _ hid.2
    rw [hduels, Function.update_of_ne hne]
    exact ⟨rfl, rfl, rfl⟩
  · exact hkept id

/-- The phases of a duel follow each other, and those of an id not given out are empty. -/
structure Phased (s : FashionDuel) : Prop where
  positive : 0 < s.nextId
  unborn : ∀ id, ¬ s.Initiated id → (s.duels id).commitEnd = 0 ∧ (s.duels id).revealEnd = 0
  ordered : ∀ id, (s.duels id).judgeBlock ≤ (s.duels id).commitEnd ∧
    (s.duels id).commitEnd ≤ (s.duels id).revealEnd

theorem deploy_phased : deploy.Phased where
  positive := by decide
  unborn _ _ := ⟨rfl, rfl⟩
  ordered _ := ⟨BitVec.le_refl _, BitVec.le_refl _⟩

/-- Only what is initiated has phases that end. -/
theorem Phased.initiated_of_lt (hs : s.Phased) {now id : U256}
    (h : now < (s.duels id).commitEnd ∨ now < (s.duels id).revealEnd) : s.Initiated id := by
  by_contra hnot
  obtain ⟨hcommit, hreveal⟩ := hs.unborn id hnot
  rw [hcommit, hreveal, or_self] at h
  exact BitVec.not_lt_zero h

/-- Exactly the next id is initiated when `nextId` goes up. -/
theorem initiated_succ (hpos : 0 < s.nextId) (hnext : s'.nextId.toNat = s.nextId.toNat + 1) :
    s'.Initiated id ↔ s.Initiated id ∨ id = s.nextId := by
  rw [Initiated, Initiated, BitVec.lt_def, BitVec.lt_def, BitVec.lt_def, hnext,
    ← BitVec.toNat_inj]
  rw [BitVec.lt_def] at hpos
  omega

/-- **One call** keeps the phases, and what is initiated. -/
theorem Phased.step (hs : s.Phased) {tx : Tx Call} (h : s.step keccak256 block tx = some s') :
    s'.Phased ∧ ∀ id, s.Initiated id → s'.Initiated id := by
  obtain ⟨positive, unborn, ordered⟩ := hs
  obtain ⟨d, hnext, hduels, hwindows⟩ | ⟨hnext, hkept⟩ := starts_or_keeps h
  · have hinit : ∀ id, s'.Initiated id ↔ s.Initiated id ∨ id = s.nextId :=
      fun id => initiated_succ positive hnext
    refine ⟨⟨?_, ?_, ?_⟩, fun id hid => (hinit id).mpr (Or.inl hid)⟩
    · rw [BitVec.lt_def] at positive ⊢
      omega
    · intro id hid
      rw [hinit, not_or] at hid
      rw [hduels, Function.update_of_ne hid.2]
      exact unborn id hid.1
    · rw [hduels, Function.forall_update_iff s.duels fun _ d =>
        d.judgeBlock ≤ d.commitEnd ∧ d.commitEnd ≤ d.revealEnd]
      exact ⟨hwindows, fun id _ => ordered id⟩
  · have hinit : ∀ id, s'.Initiated id ↔ s.Initiated id := by
      intro id
      rw [Initiated, Initiated, hnext]
    refine ⟨⟨by rwa [hnext], ?_, ?_⟩, fun id hid => (hinit id).mpr hid⟩
    · intro id hid
      obtain ⟨-, hcommit, hreveal⟩ := hkept id
      rw [hcommit, hreveal]
      exact unborn id (mt (hinit id).mpr hid)
    · intro id
      obtain ⟨hjudge, hcommit, hreveal⟩ := hkept id
      rw [hjudge, hcommit, hreveal]
      exact ordered id

end FashionDuel

end ChainBeasts.Contracts
