import ChainBeasts.Battle.Standoff
import ChainBeasts.Machine
import ChainBeasts.Onchain.MatchLedger

/-! # The offline matchmaker

`Matchmaker` of `neuropet/battle.hpp`, `Arena` of `neuropet/arena.hpp` and the `MatchLedger` in
memory they write to. Matchmakers and arenas hold a pointer to a ledger, or none; several of them may
share one, and `set_ledger` may redirect a pointer at any time.

A battle that never ends never gives the caller back control, so a call comes with the number of
rounds its battle may take, and runs are read off the calls that return. -/

namespace ChainBeasts.Offline

open ChainBeasts.Battle ChainBeasts.Machine
open ChainBeasts.Onchain (MatchResult)

/-! ## The ledger -/

structure MatchLedger where
  nextId : BitVec 32
  results : List MatchResult

namespace MatchLedger

def empty : MatchLedger := ⟨1, []⟩

/-- The battle id, and the ledger after it. -/
def recordResult (l : MatchLedger) (winner loser : BitVec 32) : BitVec 32 × MatchLedger :=
  (l.nextId, ⟨l.nextId + 1, l.results ++ [⟨l.nextId, winner, loser⟩]⟩)

end MatchLedger

/-! ## Matchmakers and arenas -/

structure Matchmaker (L : Type) where
  queue : List CreatureStats
  engine : BattleEngine
  ledger : Option L

structure Arena (L : Type) where
  engine : BattleEngine
  ledger : Option L

structure World (M A L : Type) where
  matchmakers : M → Matchmaker L
  arenas : A → Arena L
  ledgers : L → MatchLedger

/-- What a program does with its matchmakers and arenas. `n` is the number of rounds a battle may
take. -/
inductive Call (M A L : Type) where
  | enqueue (m : M) (creature : CreatureStats)
  | tryMatch (m : M) (seed : BitVec 32) (n : Nat)
  | battle (r : A) (a b : CreatureStats) (seed : BitVec 32) (n : Nat)
  | setLedger (m : M) (ledger : Option L)
  | setArenaLedger (r : A) (ledger : Option L)

variable {M A L : Type} [DecidableEq M] [DecidableEq A] [DecidableEq L]

/-- `loser = winner == a.id ? b.id : a.id`. -/
def loser (a b : CreatureStats) (winner : BitVec 32) : BitVec 32 :=
  if winner = a.id then b.id else a.id

/-- `if (ledger_) ledger_->record_result(winner, loser)`. -/
def record (ledgers : L → MatchLedger) (ledger : Option L) (a b : CreatureStats)
    (winner : BitVec 32) : L → MatchLedger :=
  match ledger with
  | some l =>
    Function.update ledgers l ((ledgers l).recordResult winner (loser a b winner)).2
  | none => ledgers

namespace World

def enqueue (w : World M A L) (m : M) (creature : CreatureStats) : World M A L :=
  let mm := w.matchmakers m
  { w with
    matchmakers := Function.update w.matchmakers m { mm with queue := mm.queue ++ [creature] } }

/-- The id of the winner, if two creatures were waiting. -/
def tryMatch (I : IntArith) (w : World M A L) (m : M) (seed : BitVec 32) (n : Nat) :
    Option (Option (BitVec 32) × World M A L) :=
  let mm := w.matchmakers m
  match mm.queue with
  | a :: b :: rest => do
    let winner ← mm.engine.fight I a b seed n
    return (some winner,
      { w with
        matchmakers := Function.update w.matchmakers m { mm with queue := rest }
        ledgers := record w.ledgers mm.ledger a b winner })
  | _ => some (none, w)

def battle (I : IntArith) (w : World M A L) (r : A) (a b : CreatureStats) (seed : BitVec 32)
    (n : Nat) : Option (BitVec 32 × World M A L) := do
  let winner ← (w.arenas r).engine.fight I a b seed n
  return (winner, { w with ledgers := record w.ledgers (w.arenas r).ledger a b winner })

def step (I : IntArith) (w : World M A L) : Call M A L → Option (World M A L)
  | .enqueue m creature => some (w.enqueue m creature)
  | .tryMatch m seed n => (w.tryMatch I m seed n).map Prod.snd
  | .battle r a b seed n => (w.battle I r a b seed n).map Prod.snd
  | .setLedger m ledger =>
    some { w with
      matchmakers := Function.update w.matchmakers m { w.matchmakers m with ledger := ledger } }
  | .setArenaLedger r ledger =>
    some { w with
      arenas := Function.update w.arenas r { w.arenas r with ledger := ledger } }

/-- New matchmakers and arenas, each with its board and the ledger it was given, and new ledgers. -/
def start (board : M ⊕ A → BattleEngine) (pointer : M ⊕ A → Option L) : World M A L where
  matchmakers m := ⟨[], board (.inl m), pointer (.inl m)⟩
  arenas r := ⟨board (.inr r), pointer (.inr r)⟩
  ledgers _ := .empty

end World

/-! ## What was fought -/

/-- A battle that was fought: where, by whom, who won, and the ledger it was to be written to. -/
structure Bout (M A L : Type) where
  host : M ⊕ A
  a : CreatureStats
  b : CreatureStats
  seed : BitVec 32
  winner : BitVec 32
  ledger : Option L

namespace Bout

def pair (x : Bout M A L) : List CreatureStats := [x.a, x.b]

/-- The entry of a ledger for its `i`-th battle, counted from 0. -/
def entry (i : Nat) (x : Bout M A L) : MatchResult :=
  ⟨BitVec.ofNat 32 (i + 1), x.winner, loser x.a x.b x.winner⟩

end Bout

/-- The battle that a call fights. -/
def bout (I : IntArith) (w : World M A L) : Call M A L → Option (Bout M A L)
  | .tryMatch m seed n =>
    let mm := w.matchmakers m
    match mm.queue with
    | a :: b :: _ =>
      (mm.engine.fight I a b seed n).map fun winner => ⟨.inl m, a, b, seed, winner, mm.ledger⟩
    | _ => none
  | .battle r a b seed n =>
    ((w.arenas r).engine.fight I a b seed n).map fun winner =>
      ⟨.inr r, a, b, seed, winner, (w.arenas r).ledger⟩
  | _ => none

/-- The battles of a run, in order. -/
def bouts (I : IntArith) (tr : List (Move (World M A L) (Call M A L))) : List (Bout M A L) :=
  tr.filterMap fun mv => bout I mv.pre mv.call

/-- The creature that a call puts into the queue of `m`. -/
def arrival (m : M) : Call M A L → Option CreatureStats
  | .enqueue m' creature => if m' = m then some creature else none
  | _ => none

/-- The creatures put into the queue of `m`, in order. -/
def arrivals (m : M) (tr : List (Move (World M A L) (Call M A L))) : List CreatureStats :=
  tr.filterMap fun mv => arrival m mv.call

def heldAt (host : M ⊕ A) (xs : List (Bout M A L)) : List (Bout M A L) :=
  xs.filter fun x => x.host = host

def writtenTo (l : L) (xs : List (Bout M A L)) : List (Bout M A L) :=
  xs.filter fun x => x.ledger = some l

/-! ## One call -/

namespace World

def board (w : World M A L) : M ⊕ A → BattleEngine
  | .inl m => (w.matchmakers m).engine
  | .inr r => (w.arenas r).engine

def queue (w : World M A L) (m : M) : List CreatureStats := (w.matchmakers m).queue

variable {I : IntArith} {w w' : World M A L} {c : Call M A L}

omit [DecidableEq A] [DecidableEq L] in
theorem queue_update (w : World M A L) (m m' : M) (x : Matchmaker L) :
    (Function.update w.matchmakers m x m').queue = if m' = m then x.queue else w.queue m' := by
  by_cases h : m' = m
  · subst h
    simp
  · simp [h, queue]

omit [DecidableEq A] [DecidableEq L] in
theorem engine_update (w : World M A L) (m m' : M) (x : Matchmaker L)
    (hx : x.engine = (w.matchmakers m).engine) :
    (Function.update w.matchmakers m x m').engine = (w.matchmakers m').engine := by
  by_cases h : m' = m
  · subst h
    simpa using hx
  · simp [h]

/-- **Everything a call can do.** Either nobody fights, and the queues grow by those who enqueue; or
there is one battle, on the board of its host, and its fighters leave the front of its queue. -/
theorem step_cases (h : step I w c = some w') :
    (∀ host, w'.board host = w.board host) ∧
      (bout I w c = none ∧ w'.ledgers = w.ledgers ∧
          (∀ m, w'.queue m = w.queue m ++ (arrival m c).toList) ∨
        ∃ x n, bout I w c = some x ∧ (w.board x.host).fight I x.a x.b x.seed n = some x.winner ∧
          w'.ledgers = record w.ledgers x.ledger x.a x.b x.winner ∧
          (∀ m, (if x.host = .inl m then x.pair else []) ++ w'.queue m = w.queue m) ∧
          ∀ m, arrival m c = none) := by
  cases c with
  | enqueue m creature =>
      cases h
      refine ⟨?_, Or.inl ⟨rfl, rfl, ?_⟩⟩
      · rintro (m' | r)
        · exact engine_update w m m' _ rfl
        · rfl
      · intro m'
        rw [queue, enqueue, queue_update, arrival]
        by_cases hm : m' = m
        · subst hm
          simp [queue]
        · simp [hm, Ne.symm hm]
  | tryMatch m seed n =>
      simp only [step, tryMatch] at h
      cases hq : (w.matchmakers m).queue with
      | nil =>
          simp only [hq, Option.map_some, Option.some.injEq] at h
          subst h
          exact ⟨fun _ => rfl, Or.inl ⟨by simp [bout, hq], rfl, by simp [arrival]⟩⟩
      | cons a rest =>
          cases rest with
          | nil =>
              simp only [hq, Option.map_some, Option.some.injEq] at h
              subst h
              exact ⟨fun _ => rfl, Or.inl ⟨by simp [bout, hq], rfl, by simp [arrival]⟩⟩
          | cons b rest =>
              simp only [hq, Option.bind_eq_bind, Option.pure_def, Option.map_eq_some_iff,
                Option.bind_eq_some_iff, Option.some.injEq] at h
              obtain ⟨-, ⟨winner, hfight, rfl⟩, rfl⟩ := h
              refine ⟨?_, Or.inr ⟨⟨.inl m, a, b, seed, winner, (w.matchmakers m).ledger⟩, n,
                by simp [bout, hq, hfight], hfight, rfl, ?_, fun _ => rfl⟩⟩
              · rintro (m' | r)
                · exact engine_update w m m' _ rfl
                · rfl
              · intro m'
                show _ ++ (Function.update w.matchmakers m _ m').queue = _
                rw [queue_update]
                by_cases hm : m' = m
                · subst hm
                  simp [queue, hq, Bout.pair]
                · simp [hm, Ne.symm hm]
  | battle r a b seed n =>
      simp only [step, battle, Option.bind_eq_bind, Option.pure_def, Option.map_eq_some_iff,
        Option.bind_eq_some_iff, Option.some.injEq] at h
      obtain ⟨-, ⟨winner, hfight, rfl⟩, rfl⟩ := h
      refine ⟨?_, Or.inr ⟨⟨.inr r, a, b, seed, winner, (w.arenas r).ledger⟩, n,
        by simp [bout, hfight], hfight, rfl, fun m => by simp [queue], fun _ => rfl⟩⟩
      rintro (m | r') <;> rfl
  | setLedger m ledger =>
      cases h
      refine ⟨?_, Or.inl ⟨rfl, rfl, ?_⟩⟩
      · rintro (m' | r)
        · exact engine_update w m m' _ rfl
        · rfl
      · intro m'
        show (Function.update w.matchmakers m _ m').queue = w.queue m' ++ []
        rw [queue_update, List.append_nil]
        by_cases hm : m' = m
        · subst hm
          simp [queue]
        · simp [hm]
  | setArenaLedger r ledger =>
      cases h
      refine ⟨?_, Or.inl ⟨rfl, rfl, ?_⟩⟩
      · rintro (m | r')
        · rfl
        · show (Function.update w.arenas r _ r').engine = (w.arenas r').engine
          by_cases hr : r' = r
          · subst hr
            simp
          · simp [hr]
      · intro m
        simp [arrival, queue]

end World

/-! ## Whole runs -/

section Runs

variable {I : IntArith} {tr : List (Move (World M A L) (Call M A L))}
  {mv : Move (World M A L) (Call M A L)} {m : M} {l : L}

omit [DecidableEq A] [DecidableEq L] in
theorem arrivals_concat :
    arrivals m (tr ++ [mv]) = arrivals m tr ++ (arrival m mv.call).toList := by
  unfold arrivals
  rw [List.filterMap_append]
  cases h : arrival m mv.call <;> simp [h]

omit [DecidableEq M] [DecidableEq A] [DecidableEq L] in
theorem bouts_concat : bouts I (tr ++ [mv]) = bouts I tr ++ (bout I mv.pre mv.call).toList := by
  unfold bouts
  rw [List.filterMap_append]
  cases h : bout I mv.pre mv.call <;> simp [h]

omit [DecidableEq L] in
theorem heldAt_concat {host : M ⊕ A} {xs : List (Bout M A L)} {x : Bout M A L} :
    (heldAt host (xs ++ [x])).flatMap Bout.pair =
      (heldAt host xs).flatMap Bout.pair ++ if x.host = host then x.pair else [] := by
  unfold heldAt
  by_cases h : x.host = host <;> simp [List.filter_append, h]

/-- The ledger lists the battles written to it, numbered from 1. -/
def Lists (ledger : MatchLedger) (xs : List (Bout M A L)) : Prop :=
  ledger.results = xs.mapIdx Bout.entry ∧ ledger.nextId = BitVec.ofNat 32 (xs.length + 1)

omit [DecidableEq M] [DecidableEq A] [DecidableEq L] in
theorem Lists.recordResult {ledger : MatchLedger} {xs : List (Bout M A L)}
    (h : Lists ledger xs) (x : Bout M A L) :
    Lists (ledger.recordResult x.winner (loser x.a x.b x.winner)).2 (xs ++ [x]) := by
  obtain ⟨hresults, hid⟩ := h
  constructor
  · simp only [MatchLedger.recordResult, List.mapIdx_concat, hresults, hid, Bout.entry]
  · simp only [MatchLedger.recordResult, hid, List.length_append, List.length_singleton]
    exact (BitVec.ofNat_add (xs.length + 1) 1).symm

omit [DecidableEq M] [DecidableEq A] in
theorem Lists.record {ledgers : L → MatchLedger} {xs : List (Bout M A L)}
    (h : ∀ l, Lists (ledgers l) (writtenTo l xs)) (x : Bout M A L) (l : L) :
    Lists (record ledgers x.ledger x.a x.b x.winner l) (writtenTo l (xs ++ [x])) := by
  have hsplit : writtenTo l (xs ++ [x]) = writtenTo l xs ++ writtenTo l [x] := by
    simp [writtenTo]
  rw [hsplit]
  unfold Offline.record
  cases hx : x.ledger with
  | none => simpa [writtenTo, hx] using h l
  | some l' =>
      by_cases hl : l = l'
      · subst hl
        have hone : writtenTo l [x] = [x] := by simp [writtenTo, hx]
        rw [hone]
        simpa using (h l).recordResult x
      · have hnone : writtenTo l [x] = [] := by simp [writtenTo, hx, Ne.symm hl]
        rw [hnone, List.append_nil]
        simpa [hl] using h l

/-- What every call keeps. -/
structure Kept (I : IntArith) (board : M ⊕ A → BattleEngine) (w : World M A L)
    (tr : List (Move (World M A L) (Call M A L))) : Prop where
  boards : ∀ host, w.board host = board host
  fought : ∀ x ∈ bouts I tr, ∃ n, (board x.host).fight I x.a x.b x.seed n = some x.winner
  served : ∀ m, (heldAt (.inl m) (bouts I tr)).flatMap Bout.pair ++ w.queue m = arrivals m tr
  listed : ∀ l, Lists (w.ledgers l) (writtenTo l (bouts I tr))

theorem Kept.step {board : M ⊕ A → BattleEngine} {w w' : World M A L} {c : Call M A L}
    (h : Kept I board w tr) (hstep : World.step I w c = some w') :
    Kept I board w' (tr ++ [⟨w, c, w'⟩]) := by
  obtain ⟨hboards, ⟨hbout, hledgers, hqueue⟩ |
    ⟨x, n, hbout, hfight, hledgers, hqueue, harrival⟩⟩ := World.step_cases hstep
  · have hsame : bouts I (tr ++ [⟨w, c, w'⟩]) = bouts I tr := by
      rw [bouts_concat, hbout, Option.toList_none, List.append_nil]
    refine ⟨fun host => (hboards host).trans (h.boards host), ?_, fun m => ?_, fun l => ?_⟩
    · rw [hsame]
      exact h.fought
    · rw [hsame, arrivals_concat, hqueue m, ← List.append_assoc, h.served m]
    · rw [hsame, hledgers]
      exact h.listed l
  · have hmore : bouts I (tr ++ [⟨w, c, w'⟩]) = bouts I tr ++ [x] := by
      rw [bouts_concat, hbout, Option.toList_some]
    refine ⟨fun host => (hboards host).trans (h.boards host), ?_, fun m => ?_, fun l => ?_⟩
    · rw [hmore, List.forall_mem_append]
      refine ⟨h.fought, List.forall_mem_singleton.mpr ⟨n, ?_⟩⟩
      rw [← h.boards]
      exact hfight
    · rw [hmore, heldAt_concat, List.append_assoc, hqueue m, arrivals_concat, harrival m,
        Option.toList_none, List.append_nil, h.served m]
    · rw [hmore, hledgers]
      exact Lists.record h.listed x l

/-- **Every creature fights once, in its turn, and every battle is written down once.** In any run of
calls on any number of matchmakers and arenas sharing any ledgers, whatever is redirected on the way:
the creatures that have fought at a matchmaker, two by two, followed by those that wait, are those
that were enqueued there, in order; each ledger lists exactly the battles that were fought while it
was pointed to, in order and numbered from 1 (in 32 bits); and each battle was won as its board
decides. -/
theorem matches_in_order (I : IntArith) (board : M ⊕ A → BattleEngine) (pointer : M ⊕ A → Option L)
    (calls : List (Call M A L)) :
    let w := exec (revert (World.step I)) (.start board pointer) calls
    let tr := trace (World.step I) (.start board pointer) calls
    (∀ m, (heldAt (.inl m) (bouts I tr)).flatMap Bout.pair ++ w.queue m = arrivals m tr) ∧
      (∀ l, (w.ledgers l).results = (writtenTo l (bouts I tr)).mapIdx Bout.entry) ∧
      ∀ x ∈ bouts I tr, ∃ n, (board x.host).fight I x.a x.b x.seed n = some x.winner := by
  have hkept : Kept I board (exec (revert (World.step I)) (.start board pointer) calls)
      (trace (World.step I) (.start board pointer) calls) := by
    refine trace_run_induction (P := fun w tr => Kept I board w tr) ?_ ?_ calls
    · refine ⟨?_, by simp [bouts], fun _ => rfl, fun _ => ⟨rfl, rfl⟩⟩
      rintro (m | r) <;> rfl
    · intro w tr c w' h hstep
      exact h.step hstep
  exact ⟨hkept.served, fun l => (hkept.listed l).1, hkept.fought⟩

end Runs

end ChainBeasts.Offline
