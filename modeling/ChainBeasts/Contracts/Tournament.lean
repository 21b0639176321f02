import ChainBeasts.Evm.Ether
import ChainBeasts.Evm.Ledger
import ChainBeasts.Evm.Packed
import ChainBeasts.Machine

/-! # `Tournament.sol`

Seeded matches, and brackets with a prize. Whoever creates a bracket pays its prize into the
contract; whoever reports the winners of a round replaces the players by them, and a round with one
winner finishes the bracket and pays the prize out. `prizes_conserved` is the account of the money.

A state is the contract with the ether of all accounts. `paid` is the log of the `PrizePaid`
events. What the recipient of a payout does with it is part of the call: it may refuse. -/

namespace ChainBeasts.Contracts

open ChainBeasts.Evm ChainBeasts.Machine

structure MatchInfo where
  playerA : Address
  playerB : Address
  seed : U256

structure Bracket where
  players : List Address
  prizePool : U256
  finished : Bool
  winner : Address

/-- A bracket that was never created. -/
def Bracket.empty : Bracket := ⟨[], 0, false, zeroAddress⟩

structure Tournament where
  nextId : U256
  matchInfo : U256 → MatchInfo
  nextBracketId : U256
  brackets : U256 → Bracket

namespace Tournament

def deploy : Tournament where
  nextId := 1
  matchInfo _ := ⟨zeroAddress, zeroAddress, 0⟩
  nextBracketId := 0
  brackets _ := .empty

/-- The `PrizePaid` event. -/
structure PrizePaid where
  id : U256
  winner : Address
  amount : U256
  deriving DecidableEq

structure World where
  tour : Tournament
  ether : Address → Nat
  paid : List PrizePaid

/-- `mload(add(data, 32))`: the first word of the table. -/
def seedOf (data : Bytes) : U256 :=
  BitVec.ofNat 256 ((data.take 32).foldl (fun acc b => acc * 256 + b.toNat) 0)

/-- `data` is what `seasons.getTable(SEED_KEY)` answers. -/
def create (s : Tournament) (data : Bytes) (a b : Address) : Option Tournament := do
  require (32 ≤ data.length)
  let nextId ← checkedAdd s.nextId 1
  return { s with nextId, matchInfo := Function.update s.matchInfo s.nextId ⟨a, b, seedOf data⟩ }

namespace World

/-- The bracket with this id. -/
def bracket (s : World) (id : U256) : Bracket := s.tour.brackets id

def setBracket (s : World) (id : U256) (b : Bracket) : World :=
  { s with tour := { s.tour with brackets := Function.update s.tour.brackets id b } }

/-- `this` is the address of the contract. The id it returns is `nextBracketId`. -/
def createBracket (this : Address) (s : World) (sender : Address) (value : U256)
    (players : List Address) : Option World := do
  let ether ← pay s.ether sender this value.toNat
  require (1 < players.length)
  let nextBracketId ← checkedAdd s.tour.nextBracketId 1
  let id := s.tour.nextBracketId
  let b : Bracket := { s.bracket id with
    prizePool := value, players := (s.bracket id).players ++ players }
  let brackets := Function.update s.tour.brackets id b
  return { s with ether, tour := { s.tour with nextBracketId, brackets } }

/-- `payable(winner).transfer(prize)` and its event. The contract cannot receive ether itself. -/
def payPrize (this : Address) (s : World) (accepts : Bool) (id : U256) (winner : Address)
    (prize : U256) : Option World :=
  if 0 < prize then do
    require (winner ≠ this ∧ accepts = true)
    let ether ← pay s.ether this winner prize.toNat
    return { s with ether, paid := s.paid ++ [⟨id, winner, prize⟩] }
  else some s

def reportWinners (this : Address) (s : World) (accepts : Bool) (id : U256)
    (winners : List Address) : Option World := do
  let b := s.bracket id
  require (b.finished = false)
  require (0 < winners.length)
  -- every winner is found among the players
  require (winners.all fun w => b.players.contains w)
  match winners with
  | [winner] =>
      let finished := s.setBracket id { players := [winner], prizePool := 0, finished := true, winner }
      finished.payPrize this accepts id winner b.prizePool
  | _ => return s.setBracket id { b with players := winners }

end World

/-- The external functions that write. `accepts` is whether the recipient takes the payout. -/
inductive Call where
  | create (data : Bytes) (a b : Address)
  | createBracket (value : U256) (players : List Address)
  | reportWinners (accepts : Bool) (id : U256) (winners : List Address)

inductive Event where
  | call (tx : Tx Call)
  /-- The other accounts' ether moves, for reasons of their own. -/
  | other (ether : Address → Nat)

def World.step (this : Address) (s : World) : Event → Option World
  | .call ⟨sender, call⟩ => do
      require (sender ≠ this)
      match call with
      | .create data a b => (s.tour.create data a b).map fun tour => { s with tour }
      | .createBracket value players => s.createBracket this sender value players
      | .reportWinners accepts id winners => s.reportWinners this accepts id winners
  | .other ether => do
      require (ether this = s.ether this)
      return { s with ether }

/-- The contract just deployed, without ether. -/
def start (this : Address) (ether : Address → Nat) : World :=
  ⟨deploy, Function.update ether this 0, []⟩

def run (this : Address) (ether : Address → Nat) (evs : List Event) : World :=
  exec (revert (World.step this)) (start this ether) evs

/-- The accepted events of a run with the states around them. -/
def moves (this : Address) (ether : Address → Nat) (evs : List Event) : List (Move World Event) :=
  trace (World.step this) (start this ether) evs

/-! ## What each function can do -/

namespace World
variable {this sender : Address} {s s' : World} {id : U256}

@[simp] theorem setBracket_self (s : World) (id : U256) (b : Bracket) :
    (s.setBracket id b).bracket id = b := Function.update_self _ _ _

theorem setBracket_of_ne {b : Bracket} {j : U256} (h : j ≠ id) :
    (s.setBracket id b).bracket j = s.bracket j := Function.update_of_ne h _ _

theorem createBracket_cases {value : U256} {players : List Address}
    (h : s.createBracket this sender value players = some s') :
    ∃ ether, ∃ nextBracketId : U256, pay s.ether sender this value.toNat = some ether ∧
      1 < players.length ∧ nextBracketId.toNat = s.tour.nextBracketId.toNat + 1 ∧
      s' = { s with
        ether
        tour := { s.tour with
          nextBracketId
          brackets := Function.update s.tour.brackets s.tour.nextBracketId
            { s.bracket s.tour.nextBracketId with
              prizePool := value
              players := (s.bracket s.tour.nextBracketId).players ++ players } } } := by
  simp only [createBracket, Option.bind_eq_bind, Option.bind_eq_some_iff, require_eq_some,
    checkedAdd_eq_some, Option.pure_def, Option.some.injEq] at h
  obtain ⟨ether, hpay, _, hplayers, nextBracketId, hnext, rfl⟩ := h
  exact ⟨ether, nextBracketId, hpay, hplayers, hnext, rfl⟩

/-- The new bracket, where nothing is known of its id yet. -/
theorem createBracket_born {value : U256} {players : List Address}
    (h : s.createBracket this sender value players = some s')
    (hempty : s.bracket s.tour.nextBracketId = .empty) :
    s'.bracket s.tour.nextBracketId = ⟨players, value, false, zeroAddress⟩ ∧
      (∀ j, j ≠ s.tour.nextBracketId → s'.bracket j = s.bracket j) ∧
      ∀ j, j < s'.tour.nextBracketId ↔ j < s.tour.nextBracketId ∨ j = s.tour.nextBracketId := by
  obtain ⟨ether, nextBracketId, -, -, hnext, hs'⟩ := createBracket_cases h
  rw [hempty] at hs'
  refine ⟨?_, fun j hj => ?_, fun j => ?_⟩
  · rw [hs']
    exact Function.update_self _ _ _
  · rw [hs']
    exact Function.update_of_ne hj _ _
  · rw [hs', BitVec.lt_def, BitVec.lt_def, hnext, ← BitVec.toNat_inj]
    omega

theorem payPrize_cases {accepts : Bool} {winner : Address} {prize : U256}
    (h : s.payPrize this accepts id winner prize = some s') :
    (prize = 0 ∧ s' = s) ∨
      (0 < prize ∧ winner ≠ this ∧ accepts = true ∧
        ∃ ether, pay s.ether this winner prize.toNat = some ether ∧
          s' = { s with ether, paid := s.paid ++ [⟨id, winner, prize⟩] }) := by
  unfold payPrize at h
  split at h
  · next hprize =>
      simp only [Option.bind_eq_bind, Option.bind_eq_some_iff, require_eq_some, Option.pure_def,
        Option.some.injEq] at h
      obtain ⟨_, ⟨hother, haccepts⟩, ether, hpay, rfl⟩ := h
      exact Or.inr ⟨hprize, hother, haccepts, ether, hpay, rfl⟩
  · next hprize =>
      have hzero : prize = 0 := BitVec.le_zero_iff.mp (BitVec.not_lt.mp hprize)
      exact Or.inl ⟨hzero, (Option.some.inj h).symm⟩

/-- **A report**: a round that goes on, or the end of the bracket with its payout. -/
theorem reportWinners_cases {accepts : Bool} {winners : List Address}
    (h : s.reportWinners this accepts id winners = some s') :
    (s.bracket id).finished = false ∧ (∀ w ∈ winners, w ∈ (s.bracket id).players) ∧
      ((1 < winners.length ∧ s' = s.setBracket id { s.bracket id with players := winners }) ∨
        ∃ winner, winners = [winner] ∧
          (s.setBracket id ⟨[winner], 0, true, winner⟩).payPrize this accepts id winner
            (s.bracket id).prizePool = some s') := by
  obtain ⟨_, hopen, h⟩ := Option.bind_eq_some_iff.mp h
  obtain ⟨_, hsome, h⟩ := Option.bind_eq_some_iff.mp h
  obtain ⟨_, hvalid, h⟩ := Option.bind_eq_some_iff.mp h
  rw [require_eq_some] at hopen hsome hvalid
  refine ⟨hopen, by simpa using hvalid, ?_⟩
  cases winners with
  | nil => exact absurd hsome (Nat.lt_irrefl 0)
  | cons winner rest =>
      cases rest with
      | nil => exact Or.inr ⟨winner, rfl, h⟩
      | cons other rest => exact Or.inl ⟨by simp, (Option.some.inj h).symm⟩

end World

/-! ## Brackets and rounds -/

/-- What a bracket was created with. -/
structure Creation where
  id : U256
  players : List Address
  prize : U256
  deriving DecidableEq

def created (m : Move World Event) : Option Creation :=
  match m.call with
  | .call ⟨_, .createBracket value players⟩ => some ⟨m.pre.tour.nextBracketId, players, value⟩
  | _ => none

/-- The round that is reported: the bracket and its winners. -/
def reported (m : Move World Event) : Option (U256 × List Address) :=
  match m.call with
  | .call ⟨_, .reportWinners _ id winners⟩ => some (id, winners)
  | _ => none

/-- The brackets created, in order. -/
def creations (tr : List (Move World Event)) : List Creation := tr.filterMap created

variable {this : Address} {s s' : World} {ev : Event}

/-- **Everything an event can be**: a bracket is created, or a round is reported, or nothing happens
to the brackets and to the contract's ether. -/
theorem step_cases (h : s.step this ev = some s') :
    (∃ sender value players, ev = .call ⟨sender, .createBracket value players⟩ ∧ sender ≠ this ∧
        s.createBracket this sender value players = some s') ∨
      (∃ sender accepts id winners, ev = .call ⟨sender, .reportWinners accepts id winners⟩ ∧
        s.reportWinners this accepts id winners = some s') ∨
      ((∀ m : Move World Event, m.call = ev → created m = none ∧ reported m = none) ∧
        s'.tour.nextBracketId = s.tour.nextBracketId ∧ s'.tour.brackets = s.tour.brackets ∧
        s'.ether this = s.ether this ∧ s'.paid = s.paid) := by
  cases ev with
  | call tx =>
      obtain ⟨sender, call⟩ := tx
      obtain ⟨_, hsender, h⟩ := Option.bind_eq_some_iff.mp h
      rw [require_eq_some] at hsender
      cases call with
      | create data a b =>
          obtain ⟨tour, htour, rfl⟩ := Option.map_eq_some_iff.mp h
          simp only [create, Option.bind_eq_bind, Option.bind_eq_some_iff, Option.pure_def,
            Option.some.injEq] at htour
          obtain ⟨_, -, nextId, -, rfl⟩ := htour
          refine Or.inr (Or.inr ⟨?_, rfl, rfl, rfl, rfl⟩)
          intro m hm
          rw [created, reported, hm]
          exact ⟨rfl, rfl⟩
      | createBracket value players => exact Or.inl ⟨sender, value, players, rfl, hsender, h⟩
      | reportWinners accepts id winners =>
          exact Or.inr (Or.inl ⟨sender, accepts, id, winners, rfl, h⟩)
  | other ether =>
      obtain ⟨_, hsame, hs⟩ := Option.bind_eq_some_iff.mp h
      rw [require_eq_some] at hsame
      cases hs
      refine Or.inr (Or.inr ⟨?_, rfl, rfl, hsame, rfl⟩)
      intro m hm
      rw [created, reported, hm]
      exact ⟨rfl, rfl⟩

theorem creations_concat (tr : List (Move World Event)) (m : Move World Event) :
    creations (tr ++ [m]) = creations tr ++ (created m).toList := by
  cases h : created m <;> simp [creations, h]

theorem creations_of_none {tr : List (Move World Event)} {m : Move World Event}
    (h : created m = none) : creations (tr ++ [m]) = creations tr := by
  rw [creations_concat, h, Option.toList_none, List.append_nil]

theorem creations_of_some {tr : List (Move World Event)} {m : Move World Event} {c : Creation}
    (h : created m = some c) : creations (tr ++ [m]) = creations tr ++ [c] := by
  rw [creations_concat, h, Option.toList_some]

end Tournament

end ChainBeasts.Contracts
