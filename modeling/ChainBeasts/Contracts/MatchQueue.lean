import ChainBeasts.Contracts.Matchmaker
import ChainBeasts.Evm.Packed
import ChainBeasts.Machine

/-! # The queue of the matchmaker

`enqueue` and `_runMatch` of `contracts/Matchmaker.sol` with the `record` of
`contracts/MatchLedger.sol`, which anyone may call. The queue is never shortened: `head` moves over
it two requests at a time, and an enqueue that finds somebody waiting fights the two at once. So at
most one request waits, and the `k`-th report of the matchmaker is about the entries `2k` and
`2k + 1` of the queue (`queue_fought_in_order`).

A fight that does not end, or not within the gas, takes the whole call back: `rounds` is what the
gas of a call pays for. -/

namespace ChainBeasts.Contracts

open ChainBeasts.Evm ChainBeasts.Machine

/-! ## `MatchLedger.sol` -/

structure Result where
  creatureA : U256
  creatureB : U256
  winnerId : U256
  battleHash : Bytes32
  reporter : Address
  deriving DecidableEq

structure MatchLedger where
  nextBattleId : U256
  results : U256 → Result

namespace MatchLedger

def deploy : MatchLedger := ⟨1, fun _ => ⟨0, 0, 0, 0, zeroAddress⟩⟩

/-- The id of the battle and the ledger after it. -/
def record (l : MatchLedger) (sender : Address) (creatureA creatureB winnerId : U256)
    (battleHash : Bytes32) : Option (U256 × MatchLedger) := do
  let battleId := l.nextBattleId
  let nextBattleId ← checkedAdd l.nextBattleId 1
  let result : Result := ⟨creatureA, creatureB, winnerId, battleHash, sender⟩
  return (battleId, ⟨nextBattleId, Function.update l.results battleId result⟩)

/-- The results written so far, in the order of their ids. -/
def written (l : MatchLedger) : List Result :=
  (List.range' 1 (l.nextBattleId.toNat - 1)).map fun i => l.results (BitVec.ofNat 256 i)

/-- The results one account has written. -/
def reports (l : MatchLedger) (reporter : Address) : List Result :=
  l.written.filter fun r => r.reporter = reporter

variable {l l' : MatchLedger} {sender : Address} {creatureA creatureB winnerId battleId : U256}
  {battleHash : Bytes32}

/-- `record` writes one more result, under the next id. -/
theorem record_cases (hl : 1 ≤ l.nextBattleId.toNat)
    (h : l.record sender creatureA creatureB winnerId battleHash = some (battleId, l')) :
    1 ≤ l'.nextBattleId.toNat ∧
      l'.written = l.written ++ [⟨creatureA, creatureB, winnerId, battleHash, sender⟩] := by
  simp only [record, Option.bind_eq_bind, Option.bind_eq_some_iff, checkedAdd_eq_some,
    Option.pure_def, Option.some.injEq, Prod.mk.injEq] at h
  obtain ⟨nextBattleId, hnext, rfl, rfl⟩ := h
  have hone : (1 : U256).toNat = 1 := rfl
  have hids : nextBattleId.toNat - 1 = l.nextBattleId.toNat - 1 + 1 := by omega
  refine ⟨by show 1 ≤ nextBattleId.toNat; omega, ?_⟩
  show (List.range' 1 (nextBattleId.toNat - 1)).map _ = _
  rw [hids, List.range'_1_concat, List.map_append, List.map_singleton]
  congr 1
  · -- the earlier ids are smaller than the one written
    apply List.map_congr_left
    intro i hi
    have hlt : i < l.nextBattleId.toNat := by
      have hrange := List.mem_range'_1.mp hi
      omega
    apply Function.update_of_ne
    intro heq
    have hnat := congrArg BitVec.toNat heq
    rw [BitVec.toNat_ofNat, Nat.mod_eq_of_lt (Nat.lt_trans hlt l.nextBattleId.isLt)] at hnat
    omega
  · have hlast : 1 + (l.nextBattleId.toNat - 1) = l.nextBattleId.toNat := by omega
    simp [hlast]

/-- What others write is no report of `reporter`. -/
theorem reports_of_ne {reporter : Address} (hl : 1 ≤ l.nextBattleId.toNat)
    (h : l.record sender creatureA creatureB winnerId battleHash = some (battleId, l'))
    (hne : sender ≠ reporter) : l'.reports reporter = l.reports reporter := by
  rw [reports, reports, (record_cases hl h).2, List.filter_append]
  simp [hne]

theorem reports_self (hl : 1 ≤ l.nextBattleId.toNat)
    (h : l.record sender creatureA creatureB winnerId battleHash = some (battleId, l')) :
    l'.reports sender =
      l.reports sender ++ [⟨creatureA, creatureB, winnerId, battleHash, sender⟩] := by
  rw [reports, reports, (record_cases hl h).2, List.filter_append]
  simp

end MatchLedger

end ChainBeasts.Contracts

namespace ChainBeasts.Matchmaker

open ChainBeasts.Evm ChainBeasts.Machine ChainBeasts.Contracts

/-! ## `Matchmaker.sol` -/

structure Request where
  owner : Address
  stats : Stats

/-- The contract and the ledger it reports to. -/
structure World where
  queue : List Request
  head : U256
  ledger : MatchLedger

namespace World

def deploy : World := ⟨[], 0, .deploy⟩

/-- `abi.encodePacked` of the ids and the stats, four bytes each. -/
def battleBytes (a b : Stats) : Bytes :=
  [a.id, b.id, a.power, a.defense, a.stamina, b.power, b.defense, b.stamina].flatMap
    fun x => bigEndian 4 x.toNat

/-- `queue.length - head`. -/
def pending (s : World) : Option U256 := checkedSub (BitVec.ofNat 256 s.queue.length) s.head

/-- `this` is the contract's own address, the sender the ledger sees. -/
def runMatch (keccak256 : Bytes → Bytes32) (this : Address) (rounds : Nat) (s : World) :
    Option World := do
  let a ← s.queue[s.head.toNat]?
  let second ← checkedAdd s.head 1
  let b ← s.queue[second.toNat]?
  let head ← checkedAdd second 1
  let winner ← fight a.stats b.stats 0 rounds
  let battleHash := keccak256 (battleBytes a.stats b.stats)
  let (_, ledger) ← s.ledger.record this (a.stats.id.setWidth 256) (b.stats.id.setWidth 256)
    (winner.setWidth 256) battleHash
  return { s with head, ledger }

/-- The length of an array is a word: `push` refuses to go past it. -/
def enqueue (keccak256 : Bytes → Bytes32) (this : Address) (rounds : Nat) (s : World)
    (sender : Address) (creatureId power defense stamina : BitVec 32) : Option World := do
  require (s.queue.length + 1 < 2 ^ 256)
  let request : Request := ⟨sender, ⟨power, defense, stamina, creatureId⟩⟩
  let queued : World := { s with queue := s.queue ++ [request] }
  let waiting ← queued.pending
  if 2 ≤ waiting then queued.runMatch keccak256 this rounds else some queued

/-- What accounts can do: join the queue, or write to the ledger themselves. -/
inductive Call where
  | enqueue (rounds : Nat) (creatureId power defense stamina : BitVec 32)
  | record (creatureA creatureB winnerId : U256) (battleHash : Bytes32)

/-- The contract acts through its code only: no transaction carries its address. -/
def step (keccak256 : Bytes → Bytes32) (this : Address) (s : World) (tx : Tx Call) :
    Option World := do
  require (tx.sender ≠ this)
  match tx.call with
  | .enqueue rounds creatureId power defense stamina =>
      s.enqueue keccak256 this rounds tx.sender creatureId power defense stamina
  | .record creatureA creatureB winnerId battleHash =>
      (s.ledger.record tx.sender creatureA creatureB winnerId battleHash).map
        fun written => { s with ledger := written.2 }

def run (keccak256 : Bytes → Bytes32) (this : Address) (txs : List (Tx Call)) : World :=
  exec (revert (step keccak256 this)) deploy txs

/-- The accepted calls of a run. -/
def moves (keccak256 : Bytes → Bytes32) (this : Address) (txs : List (Tx Call)) :
    List (Move World (Tx Call)) :=
  trace (step keccak256 this) deploy txs

/-! ## What is on record -/

/-- The request of an `enqueue`. -/
def request (tx : Tx Call) : Option Request :=
  match tx.call with
  | .enqueue _ creatureId power defense stamina =>
      some ⟨tx.sender, ⟨power, defense, stamina, creatureId⟩⟩
  | .record .. => none

/-- The requests of the calls, in the order of the calls. -/
def requests (tr : List (Move World (Tx Call))) : List Request := tr.filterMap (request ·.call)

/-- A report of the fight between two requests: their creatures, and the winner `_fight` finds on
the stats stored with them. -/
structure Records (keccak256 : Bytes → Bytes32) (this : Address) (a b : Request) (r : Result) :
    Prop where
  creatureA : r.creatureA = a.stats.id.setWidth 256
  creatureB : r.creatureB = b.stats.id.setWidth 256
  winner : ∃ rounds w, fight a.stats b.stats 0 rounds = some w ∧ r.winnerId = w.setWidth 256
  battleHash : r.battleHash = keccak256 (battleBytes a.stats b.stats)
  reporter : r.reporter = this

/-- The queue is what the accepted calls asked for. At most one request waits, and the reports of the
matchmaker are about the others, two by two and in order. -/
structure FoughtInOrder (keccak256 : Bytes → Bytes32) (this : Address) (s : World)
    (tr : List (Move World (Tx Call))) : Prop where
  queue : s.queue = requests tr
  waiting : s.queue.length = s.head.toNat + s.queue.length % 2
  count : (s.ledger.reports this).length = s.head.toNat / 2
  fought : ∀ k r, (s.ledger.reports this)[k]? = some r → ∃ a b,
    s.queue[2 * k]? = some a ∧ s.queue[2 * k + 1]? = some b ∧ Records keccak256 this a b r

/-- The array has room for the request; and if another waits, the two come to an end of their fight
within the gas, and the ledger has an id for it. -/
structure Takes (s : World) (rounds : Nat) (x : Request) : Prop where
  room : s.queue.length + 1 < 2 ^ 256
  fought : ∀ a, s.queue[s.head.toNat]? = some a →
    (fight a.stats x.stats 0 rounds).isSome = true ∧ s.ledger.nextBattleId.toNat + 1 < 2 ^ 256

/-- The invariant: ids start at one. -/
structure Aligned (keccak256 : Bytes → Bytes32) (this : Address) (s : World)
    (tr : List (Move World (Tx Call))) : Prop where
  ids : 1 ≤ s.ledger.nextBattleId.toNat
  inOrder : FoughtInOrder keccak256 this s tr

variable {keccak256 : Bytes → Bytes32} {this : Address} {s s' : World} {rounds : Nat}
  {tr : List (Move World (Tx Call))}

theorem requests_concat (m : Move World (Tx Call)) :
    requests (tr ++ [m]) = requests tr ++ (request m.call).toList := by
  rw [requests, List.filterMap_append]
  cases h : request m.call <;> simp [requests, h]

theorem runMatch_cases (hl : 1 ≤ s.ledger.nextBattleId.toNat)
    (h : s.runMatch keccak256 this rounds = some s') :
    ∃ a b r, s.queue[s.head.toNat]? = some a ∧ s.queue[s.head.toNat + 1]? = some b ∧
      Records keccak256 this a b r ∧ s'.queue = s.queue ∧ s'.head.toNat = s.head.toNat + 2 ∧
      1 ≤ s'.ledger.nextBattleId.toNat ∧
      s'.ledger.reports this = s.ledger.reports this ++ [r] := by
  simp only [runMatch, Option.bind_eq_bind, Option.bind_eq_some_iff, checkedAdd_eq_some,
    Option.pure_def, Option.some.injEq] at h
  obtain ⟨a, ha, second, hsecond, b, hb, head, hhead, w, hw, ⟨battleId, ledger⟩, hrec, rfl⟩ := h
  have hone : (1 : U256).toNat = 1 := rfl
  rw [hone] at hsecond hhead
  rw [hsecond] at hb
  refine ⟨a, b, _, ha, hb, ⟨rfl, rfl, ⟨rounds, w, hw, rfl⟩, rfl, rfl⟩, rfl, ?_,
    (MatchLedger.record_cases hl hrec).1, MatchLedger.reports_self hl hrec⟩
  show head.toNat = s.head.toNat + 2
  omega

/-- Entries of the queue stay where they are. -/
theorem entry_kept {queue : List Request} {i : Nat} {a x : Request} (h : queue[i]? = some a) :
    (queue ++ [x])[i]? = some a := by
  obtain ⟨hlt, -⟩ := List.getElem?_eq_some_iff.mp h
  rw [List.getElem?_append_left hlt, h]

/-- What is on a longer record was on it, or is the new entry. -/
theorem entry_concat {l : List Result} {k : Nat} {x y : Result} (h : (l ++ [x])[k]? = some y) :
    l[k]? = some y ∨ k = l.length ∧ y = x := by
  have hlt := (List.getElem?_eq_some_iff.mp h).1
  rw [List.length_append, List.length_singleton] at hlt
  by_cases hold : k < l.length
  · rw [List.getElem?_append_left hold] at h
    exact Or.inl h
  · obtain rfl : k = l.length := Nat.le_antisymm (Nat.le_of_lt_succ hlt) (Nat.le_of_not_lt hold)
    rw [List.getElem?_concat_length] at h
    exact Or.inr ⟨rfl, (Option.some.inj h).symm⟩

/-- How many requests wait once one more is in the queue. -/
theorem FoughtInOrder.toNat_waiting (hs : FoughtInOrder keccak256 this s tr) {x : Request}
    {waiting : U256} (hroom : s.queue.length + 1 < 2 ^ 256)
    (h : World.pending { s with queue := s.queue ++ [x] } = some waiting) :
    waiting.toNat = s.queue.length % 2 + 1 := by
  have hwaiting := hs.waiting
  have hsub : waiting.toNat + s.head.toNat = (BitVec.ofNat 256 (s.queue ++ [x]).length).toNat :=
    checkedSub_eq_some.mp h
  rw [BitVec.toNat_ofNat, List.length_append, List.length_singleton, Nat.mod_eq_of_lt hroom]
    at hsub
  omega

theorem Aligned.enqueue (hs : Aligned keccak256 this s tr) {sender : Address}
    {creatureId power defense stamina : BitVec 32} {m : Move World (Tx Call)}
    (hm : request m.call = some ⟨sender, ⟨power, defense, stamina, creatureId⟩⟩)
    (h : s.enqueue keccak256 this rounds sender creatureId power defense stamina = some s') :
    Aligned keccak256 this s' (tr ++ [m]) := by
  obtain ⟨hids, hqueued, hwaiting, hcount, hfought⟩ := hs
  have hinOrder : FoughtInOrder keccak256 this s tr := ⟨hqueued, hwaiting, hcount, hfought⟩
  have hrequests : s.queue ++ [⟨sender, ⟨power, defense, stamina, creatureId⟩⟩] =
      requests (tr ++ [m]) := by
    rw [requests_concat, hm, hqueued]
    rfl
  simp only [World.enqueue, Option.bind_eq_bind, Option.bind_eq_some_iff, require_eq_some] at h
  obtain ⟨_, hroom, waiting, hpending, h⟩ := h
  have hlen := hinOrder.toNat_waiting hroom hpending
  have htwo : (2 : U256).toNat = 2 := rfl
  split at h
  · next hle =>
      rw [BitVec.le_def, htwo] at hle
      obtain ⟨a, b, r, ha, hb, hrecords, hqueue, hhead, hids', hreports⟩ :=
        runMatch_cases (by exact hids) h
      refine ⟨hids', hqueue.trans hrequests, ?_, ?_, ?_⟩
      · rw [hqueue, List.length_append, List.length_singleton, hhead]
        show s.queue.length + 1 = s.head.toNat + 2 + (s.queue.length + 1) % 2
        omega
      · rw [hreports, hhead, List.length_append, List.length_singleton]
        show (s.ledger.reports this).length + 1 = (s.head.toNat + 2) / 2
        omega
      · intro k r' hk
        rw [hreports] at hk
        rw [hqueue]
        obtain hold | ⟨rfl, rfl⟩ := entry_concat hk
        · obtain ⟨x, y, hx, hy, hxy⟩ := hfought k r' hold
          exact ⟨x, y, entry_kept hx, entry_kept hy, hxy⟩
        · have hfirst : 2 * (s.ledger.reports this).length = s.head.toNat := by omega
          rw [hfirst]
          exact ⟨a, b, ha, hb, hrecords⟩
  · next hless =>
      rw [BitVec.le_def, htwo] at hless
      obtain rfl := Option.some.inj h
      refine ⟨hids, hrequests, ?_, hcount, ?_⟩
      · show (s.queue ++ [_]).length = s.head.toNat + (s.queue ++ [_]).length % 2
        rw [List.length_append, List.length_singleton]
        omega
      · intro k r hk
        obtain ⟨x, y, hx, hy, hxy⟩ := hfought k r hk
        exact ⟨x, y, entry_kept hx, entry_kept hy, hxy⟩

/-- What others write to the ledger changes no report of the matchmaker. -/
theorem Aligned.record (hs : Aligned keccak256 this s tr) {sender : Address}
    {creatureA creatureB winnerId battleId : U256} {battleHash : Bytes32} {ledger : MatchLedger}
    {m : Move World (Tx Call)} (hm : request m.call = none) (hsender : sender ≠ this)
    (h : s.ledger.record sender creatureA creatureB winnerId battleHash = some (battleId, ledger)) :
    Aligned keccak256 this { s with ledger } (tr ++ [m]) := by
  obtain ⟨hids, hqueued, hwaiting, hcount, hfought⟩ := hs
  have hsame := MatchLedger.reports_of_ne hids h hsender
  refine ⟨(MatchLedger.record_cases hids h).1, ?_, hwaiting, ?_, ?_⟩
  · rw [requests_concat, hm, Option.toList_none, List.append_nil]
    exact hqueued
  · show (ledger.reports this).length = _
    rw [hsame, hcount]
  · show ∀ k r, (ledger.reports this)[k]? = some r → _
    rw [hsame]
    exact hfought

theorem Aligned.step (hs : Aligned keccak256 this s tr) {tx : Tx Call}
    (h : World.step keccak256 this s tx = some s') :
    Aligned keccak256 this s' (tr ++ [⟨s, tx, s'⟩]) := by
  obtain ⟨sender, call⟩ := tx
  obtain ⟨_, hsender, h⟩ := Option.bind_eq_some_iff.mp h
  rw [require_eq_some] at hsender
  cases call with
  | enqueue rounds creatureId power defense stamina => exact hs.enqueue rfl h
  | record creatureA creatureB winnerId battleHash =>
      obtain ⟨⟨battleId, ledger⟩, hrec, rfl⟩ := Option.map_eq_some_iff.mp h
      exact hs.record rfl hsender hrec

theorem deploy_aligned (keccak256 : Bytes → Bytes32) (this : Address) :
    Aligned keccak256 this deploy [] := by
  refine ⟨Nat.le_refl 1, rfl, rfl, rfl, ?_⟩
  intro k r hk
  cases hk

/-! ## What is taken -/

/-- The request that waits, if the number of requests is odd. -/
theorem FoughtInOrder.waits (hs : FoughtInOrder keccak256 this s tr) :
    (s.queue.length % 2 = 0 ∧ s.queue[s.head.toNat]? = none) ∨
      (s.queue.length % 2 = 1 ∧ s.queue.length = s.head.toNat + 1 ∧
        ∃ a, s.queue[s.head.toNat]? = some a) := by
  have hwaiting := hs.waiting
  obtain heven | hodd := Nat.mod_two_eq_zero_or_one s.queue.length
  · refine Or.inl ⟨heven, ?_⟩
    rw [List.getElem?_eq_none_iff]
    omega
  · refine Or.inr ⟨hodd, by omega, ?_⟩
    have hlt : s.head.toNat < s.queue.length := by omega
    exact ⟨_, List.getElem?_eq_getElem hlt⟩

/-- With two requests left, the match is run if the fight ends and the ledger has an id. -/
theorem runMatch_isSome_iff {a b : Request} (ha : s.queue[s.head.toNat]? = some a)
    (hb : s.queue[s.head.toNat + 1]? = some b) (hlen : s.queue.length < 2 ^ 256) :
    (s.runMatch keccak256 this rounds).isSome = true ↔
      (fight a.stats b.stats 0 rounds).isSome = true ∧
        s.ledger.nextBattleId.toNat + 1 < 2 ^ 256 := by
  have hone : (1 : U256).toNat = 1 := rfl
  obtain ⟨hlast, -⟩ := List.getElem?_eq_some_iff.mp hb
  obtain ⟨second, hsecond⟩ : ∃ second, checkedAdd s.head 1 = some second :=
    exists_checkedAdd (by omega)
  have hnext := checkedAdd_eq_some.mp hsecond
  rw [hone] at hnext
  obtain ⟨head, hhead⟩ : ∃ head, checkedAdd second 1 = some head := exists_checkedAdd (by omega)
  rw [← hnext] at hb
  simp only [runMatch, Option.bind_eq_bind, ha, hb, hsecond, hhead, Option.bind_some]
  cases hfight : fight a.stats b.stats 0 rounds with
  | none => simp
  | some w =>
      simp only [Option.bind_some, Option.isSome_some, true_and, MatchLedger.record,
        Option.bind_eq_bind]
      by_cases hid : s.ledger.nextBattleId.toNat + 1 < 2 ^ 256
      · obtain ⟨nextBattleId, hadd⟩ : ∃ id, checkedAdd s.ledger.nextBattleId 1 = some id :=
          exists_checkedAdd (by omega)
        simp only [hadd, Option.bind_some, Option.pure_def, Option.isSome_some, hid]
      · have hadd : checkedAdd s.ledger.nextBattleId 1 = none := if_neg hid
        simp only [hadd, Option.bind_none, Option.isSome_none, hid, Bool.false_eq_true]

theorem FoughtInOrder.enqueue_isSome_iff (hs : FoughtInOrder keccak256 this s tr)
    (sender : Address) (creatureId power defense stamina : BitVec 32) :
    (s.enqueue keccak256 this rounds sender creatureId power defense stamina).isSome = true ↔
      s.Takes rounds ⟨sender, ⟨power, defense, stamina, creatureId⟩⟩ := by
  have htwo : (2 : U256).toNat = 2 := rfl
  by_cases hroom : s.queue.length + 1 < 2 ^ 256
  · obtain ⟨waiting, hpending⟩ : ∃ waiting, World.pending { s with
        queue := s.queue ++ [⟨sender, ⟨power, defense, stamina, creatureId⟩⟩] } = some waiting := by
      have hwaiting := hs.waiting
      apply exists_checkedSub
      show s.head.toNat ≤ _
      rw [BitVec.toNat_ofNat, List.length_append, List.length_singleton, Nat.mod_eq_of_lt hroom]
      omega
    have hlen := hs.toNat_waiting hroom hpending
    have hrequire : require (s.queue.length + 1 < 2 ^ 256) = some () := require_eq_some.mpr hroom
    simp only [World.enqueue, Option.bind_eq_bind, hrequire, hpending, Option.bind_some]
    obtain ⟨heven, hnobody⟩ | ⟨hodd, hlength, a, ha⟩ := hs.waits
    · rw [if_neg (by rw [BitVec.le_def, htwo]; omega)]
      refine iff_of_true rfl ⟨hroom, fun a ha => ?_⟩
      rw [hnobody] at ha
      cases ha
    · rw [if_pos (by rw [BitVec.le_def, htwo]; omega), runMatch_isSome_iff (entry_kept ha)
        (by rw [← hlength]; exact List.getElem?_concat_length)
        (by rwa [List.length_append, List.length_singleton])]
      constructor
      · intro hends
        refine ⟨hroom, fun a' ha' => ?_⟩
        obtain rfl := Option.some.inj (ha.symm.trans ha')
        exact hends
      · intro htakes
        exact htakes.fought a ha
  · refine iff_of_false ?_ fun htakes => hroom htakes.room
    have hrequire : require (s.queue.length + 1 < 2 ^ 256) = none := if_neg hroom
    simp only [World.enqueue, hrequire, Option.bind_eq_bind, Option.bind_none, Option.isSome_none,
      Bool.false_eq_true, not_false_eq_true]

/-- **First in, first out**: in every run and whoever else writes to the ledger, the queue is what the
accepted calls asked for, in their order, and it is fought two by two, nobody twice and none skipped;
and a call is accepted unless the array or the ledger is full or its fight does not end. -/
theorem queue_fought_in_order (keccak256 : Bytes → Bytes32) (this : Address)
    (txs : List (Tx Call)) :
    FoughtInOrder keccak256 this (run keccak256 this txs) (moves keccak256 this txs) ∧
      ∀ rounds sender creatureId power defense stamina,
        ((run keccak256 this txs).enqueue keccak256 this rounds sender creatureId power defense
            stamina).isSome = true ↔
          (run keccak256 this txs).Takes rounds
            ⟨sender, ⟨power, defense, stamina, creatureId⟩⟩ := by
  have haligned : Aligned keccak256 this (run keccak256 this txs) (moves keccak256 this txs) := by
    apply trace_run_induction (P := Aligned keccak256 this)
    · exact deploy_aligned keccak256 this
    · intro s tr tx s' hs h
      exact hs.step h
  refine ⟨haligned.inOrder, ?_⟩
  intro rounds sender creatureId power defense stamina
  exact haligned.inOrder.enqueue_isSome_iff sender creatureId power defense stamina

end World

end ChainBeasts.Matchmaker
