import ChainBeasts.Contracts.Tokens
import ChainBeasts.Machine

/-! # `TrainingLedger.sol`

Miners submit checkpoints, burning the ENERGY they spent; a verified checkpoint is finalized in
epoch order and pays ENERGY and CORE to its miner. The ledger calls both tokens, so its state is
modelled together with theirs: a call changes all three or, when anything reverts, none.

The rule that a creature's loss never rises is enforced against `lastLoss`, whose zero doubles as
"nothing finalized yet". `losses_antitone_iff` says exactly which finalizations escape it: those
of a creature that has a finalized checkpoint whose loss was zero. -/

namespace ChainBeasts.Contracts

open ChainBeasts.Evm ChainBeasts.Machine

/-- `_maxBytes()`: the limit of the season registry, or the default when none is set. -/
def maxBytes (seasons : Option U256) : U256 := seasons.getD (64 * 1024)

structure Submission where
  creatureId : U256
  epochId : U256
  miner : Address
  loss : U32
  energySpent : U32
  deriving DecidableEq

structure TrainingLedger where
  submission : Bytes32 → Submission
  finalized : Bytes32 → Bool
  lastLoss : U256 → U32
  nextEpoch : U256 → U256

namespace TrainingLedger

/-- `CORE_PER_ENERGY`. -/
def corePerEnergy : U256 := ether

def deploy : TrainingLedger :=
  ⟨fun _ => ⟨0, 0, zeroAddress, 0, 0⟩, fun _ => false, fun _ => 0, fun _ => 0⟩

/-- The ledger and the two tokens it writes to. -/
structure World where
  ledger : TrainingLedger
  energy : Energy
  core : Core

/-- `if (energySpent > 0) energy.burnFrom(sender, energySpent)`. -/
def burnSpent (self : Address) (energy : Energy) (sender : Address) (energySpent : U32) :
    Option Energy :=
  if 0 < energySpent then energy.burnFrom self sender (energySpent.setWidth 256) else some energy

/-- `seasons` is the answer of the season registry, if one is set; `lossDrop` and `ruleHash` only
go into the event. `self` is the ledger's own address, the sender of its token calls. -/
def submitCheckpoint (self : Address) (w : World) (sender : Address) (seasons : Option U256)
    (creatureId epochId : U256) (rootHash : Bytes32) (modelBytes loss energySpent : U32) :
    Option World := do
  require (modelBytes.setWidth 256 ≤ maxBytes seasons)
  let energy ← burnSpent self w.energy sender energySpent
  let sub : Submission := ⟨creatureId, epochId, sender, loss, energySpent⟩
  let submission := Function.update w.ledger.submission rootHash sub
  return { w with energy, ledger := { w.ledger with submission } }

def rewardMiner (self : Address) (w : World) (miner : Address) (amount : U256) :
    Option World := do
  let energy ← w.energy.mint self miner amount
  return { w with energy }

/-- `verified` is the answer of `verifier.verify(rootHash)`. The CORE reward cannot overflow:
`2^32 * 10^18 < 2^256`. -/
def finalizeCheckpoint (self : Address) (w : World) (verified : Bool) (rootHash : Bytes32) :
    Option World := do
  require (¬ w.ledger.finalized rootHash)
  require (verified = true)
  let sub := w.ledger.submission rootHash
  require (sub.miner ≠ zeroAddress)
  require (sub.epochId = w.ledger.nextEpoch sub.creatureId)
  let prev := w.ledger.lastLoss sub.creatureId
  require (prev = 0 ∨ sub.loss ≤ prev)
  let epoch ← checkedAdd sub.epochId 1
  let nextEpoch := Function.update w.ledger.nextEpoch sub.creatureId epoch
  let lastLoss := Function.update w.ledger.lastLoss sub.creatureId sub.loss
  let finalized := Function.update w.ledger.finalized rootHash true
  let energy ← w.energy.mint self sub.miner (sub.energySpent.setWidth 256)
  let core ← w.core.mint self sub.miner (sub.energySpent.setWidth 256 * corePerEnergy)
  return { energy, core, ledger := { w.ledger with nextEpoch, lastLoss, finalized } }

/-- The external functions of the ledger and of the tokens, with the answers the ledger gets from
the contracts it only reads. -/
inductive Call where
  | submitCheckpoint (seasons : Option U256) (creatureId epochId : U256) (rootHash : Bytes32)
      (modelBytes loss energySpent : U32)
  | rewardMiner (miner : Address) (amount : U256)
  | finalizeCheckpoint (verified : Bool) (rootHash : Bytes32)
  | energy (call : Energy.Call)
  | core (call : Core.Call)

def step (self : Address) (w : World) (tx : Tx Call) : Option World :=
  match tx.call with
  | .submitCheckpoint seasons creatureId epochId rootHash modelBytes loss energySpent =>
      submitCheckpoint self w tx.sender seasons creatureId epochId rootHash modelBytes loss
        energySpent
  | .rewardMiner miner amount => rewardMiner self w miner amount
  | .finalizeCheckpoint verified rootHash => finalizeCheckpoint self w verified rootHash
  | .energy call => (w.energy.step tx.sender call).map fun energy => { w with energy }
  | .core call => (w.core.step tx.sender call).map fun core => { w with core }

variable {self : Address} {w w' : World}

/-- Everything an accepted finalization checked, and what it wrote in the ledger. -/
theorem finalizeCheckpoint_cases {verified : Bool} {r : Bytes32}
    (h : finalizeCheckpoint self w verified r = some w') :
    let sub := w.ledger.submission r
    w.ledger.finalized r = false ∧ verified = true ∧ sub.miner ≠ zeroAddress ∧
      sub.epochId = w.ledger.nextEpoch sub.creatureId ∧
      (w.ledger.lastLoss sub.creatureId = 0 ∨ sub.loss ≤ w.ledger.lastLoss sub.creatureId) ∧
      ∃ epoch : U256, epoch.toNat = sub.epochId.toNat + 1 ∧
        w'.ledger = { w.ledger with
          nextEpoch := Function.update w.ledger.nextEpoch sub.creatureId epoch
          lastLoss := Function.update w.ledger.lastLoss sub.creatureId sub.loss
          finalized := Function.update w.ledger.finalized r true } := by
  simp only [finalizeCheckpoint, Option.bind_eq_bind, Option.bind_eq_some_iff, require_eq_some,
    checkedAdd_eq_some, Option.pure_def, Option.some.injEq] at h
  obtain ⟨_, hfin, _, hver, _, hminer, _, hepoch, _, hloss, epoch, hnext, _, _, _, _, rfl⟩ := h
  exact ⟨by simpa using hfin, hver, hminer, hepoch, hloss, epoch, hnext, rfl⟩

/-- No other call touches the finalization records. -/
theorem step_records {tx : Tx Call} (h : step self w tx = some w')
    (hne : ∀ v r, tx.call ≠ .finalizeCheckpoint v r) :
    w'.ledger.lastLoss = w.ledger.lastLoss ∧ w'.ledger.nextEpoch = w.ledger.nextEpoch := by
  obtain ⟨sender, call⟩ := tx
  cases call with
  | submitCheckpoint seasons c e r mb l es =>
      simp only [step, submitCheckpoint, Option.bind_eq_bind, Option.bind_eq_some_iff,
        Option.pure_def, Option.some.injEq] at h
      obtain ⟨_, _, _, _, rfl⟩ := h
      exact ⟨rfl, rfl⟩
  | rewardMiner miner amount =>
      simp only [step, rewardMiner, Option.bind_eq_bind, Option.bind_eq_some_iff,
        Option.pure_def, Option.some.injEq] at h
      obtain ⟨_, _, rfl⟩ := h
      exact ⟨rfl, rfl⟩
  | finalizeCheckpoint v r => exact absurd rfl (hne v r)
  | energy call =>
      obtain ⟨_, _, rfl⟩ := Option.map_eq_some_iff.mp h
      exact ⟨rfl, rfl⟩
  | core call =>
      obtain ⟨_, _, rfl⟩ := Option.map_eq_some_iff.mp h
      exact ⟨rfl, rfl⟩

/-! ## The losses of a creature -/

/-- The loss a call finalizes for creature `c`, if it finalizes one. -/
def finalizedLoss (c : U256) (m : Move World (Tx Call)) : Option U32 :=
  match m.call.call with
  | .finalizeCheckpoint _ r =>
      let sub := m.pre.ledger.submission r
      if sub.creatureId = c then some sub.loss else none
  | _ => none

/-- The losses of creature `c`'s finalized checkpoints, in finalization order. -/
def losses (c : U256) (tr : List (Move World (Tx Call))) : List U32 := tr.filterMap (finalizedLoss c)

theorem losses_concat (c : U256) (tr : List (Move World (Tx Call))) (m : Move World (Tx Call)) :
    losses c (tr ++ [m]) = losses c tr ++ (finalizedLoss c m).toList := by
  simp only [losses, List.filterMap_append]
  cases h : finalizedLoss c m <;> simp [h]

/-- A finalization adds its loss to its own creature's history and to no other. -/
theorem losses_finalize {tr : List (Move World (Tx Call))} {tx : Tx Call} {v : Bool} {r : Bytes32}
    (hcall : tx.call = .finalizeCheckpoint v r) (c : U256) :
    losses c (tr ++ [⟨w, tx, w'⟩]) = losses c tr ++
      if (w.ledger.submission r).creatureId = c then [(w.ledger.submission r).loss] else [] := by
  rw [losses_concat]
  simp only [finalizedLoss, hcall]
  split <;> rfl

/-- Every other call adds nothing to any history. -/
theorem losses_other {tr : List (Move World (Tx Call))} {tx : Tx Call}
    (hne : ∀ v r, tx.call ≠ .finalizeCheckpoint v r) (c : U256) :
    losses c (tr ++ [⟨w, tx, w'⟩]) = losses c tr := by
  rw [losses_concat]
  unfold finalizedLoss
  split
  · next v r e => exact absurd e (hne v r)
  · simp

/-- The records agree with the history: `nextEpoch` counts the finalized checkpoints of a creature
and `lastLoss` is the loss of the last of them. -/
structure Recorded (w : World) (tr : List (Move World (Tx Call))) : Prop where
  count : ∀ c, (w.ledger.nextEpoch c).toNat = (losses c tr).length
  last : ∀ c, ∀ l ∈ (losses c tr).getLast?, w.ledger.lastLoss c = l

theorem Recorded.step {tr : List (Move World (Tx Call))} {tx : Tx Call} (hw : Recorded w tr)
    (h : step self w tx = some w') : Recorded w' (tr ++ [⟨w, tx, w'⟩]) := by
  by_cases hfin : ∃ v r, tx.call = .finalizeCheckpoint v r
  · obtain ⟨v, r, hcall⟩ := hfin
    simp only [TrainingLedger.step, hcall] at h
    obtain ⟨-, -, -, hepoch, -, epoch, hnext, hledger⟩ := finalizeCheckpoint_cases h
    constructor
    · intro c
      rw [losses_finalize hcall, hledger]
      by_cases hc : (w.ledger.submission r).creatureId = c
      · subst hc
        have hcount := hw.count (w.ledger.submission r).creatureId
        simp only [Function.update_self, if_true, List.length_append, List.length_singleton]
        rw [hnext, hepoch, hcount]
      · simp [hc, Function.update_of_ne (Ne.symm hc), hw.count c]
    · intro c l hl
      rw [losses_finalize hcall] at hl
      rw [hledger]
      by_cases hc : (w.ledger.submission r).creatureId = c
      · subst hc
        simpa using hl
      · rw [if_neg hc, List.append_nil] at hl
        simpa [Function.update_of_ne (Ne.symm hc)] using hw.last c l hl
  · have hne : ∀ v r, tx.call ≠ .finalizeCheckpoint v r := fun v r e => hfin ⟨v, r, e⟩
    obtain ⟨hlast, hnext⟩ := step_records h hne
    constructor
    · intro c
      rw [losses_other hne, hnext]
      exact hw.count c
    · intro c l hl
      rw [losses_other hne] at hl
      rw [hlast]
      exact hw.last c l hl

/-- What the last loss of a creature was, read off the records. -/
theorem Recorded.getLast? {tr : List (Move World (Tx Call))} (hw : Recorded w tr) (c : U256) :
    (losses c tr).getLast? =
      if w.ledger.nextEpoch c = 0 then none else some (w.ledger.lastLoss c) := by
  have hcount := hw.count c
  cases hl : (losses c tr).getLast? with
  | none =>
      rw [List.getLast?_eq_none_iff.mp hl, List.length_nil] at hcount
      rw [if_pos (BitVec.eq_of_toNat_eq hcount)]
  | some l =>
      have hne : w.ledger.nextEpoch c ≠ 0 := by
        intro h0
        rw [h0] at hcount
        rw [List.length_eq_zero_iff.mp hcount.symm] at hl
        exact absurd hl (by simp)
      rw [if_neg hne, hw.last c l hl]

/-- The call does not slip past the loss rule: if it finalizes a checkpoint of a creature that
already has one and whose recorded loss is zero, then the new loss is zero too. -/
def RespectsZero (m : Move World (Tx Call)) : Prop :=
  match m.call.call with
  | .finalizeCheckpoint _ r =>
      let sub := m.pre.ledger.submission r
      m.pre.ledger.nextEpoch sub.creatureId ≠ 0 → m.pre.ledger.lastLoss sub.creatureId = 0 →
        sub.loss = 0
  | _ => True

/-- A creature's losses never rise: each is at most the one finalized before it. -/
def NeverRises (ls : List U32) : Prop := ls.IsChain fun earlier later => later ≤ earlier

/-- **One accepted call.** It keeps every history falling exactly when it respects the zero. -/
theorem neverRises_step {tr : List (Move World (Tx Call))} {tx : Tx Call} (hw : Recorded w tr)
    (h : step self w tx = some w') :
    (∀ c, NeverRises (losses c (tr ++ [⟨w, tx, w'⟩]))) ↔
      (∀ c, NeverRises (losses c tr)) ∧ RespectsZero ⟨w, tx, w'⟩ := by
  by_cases hfin : ∃ v r, tx.call = .finalizeCheckpoint v r
  · obtain ⟨v, r, hcall⟩ := hfin
    simp only [TrainingLedger.step, hcall] at h
    obtain ⟨-, -, -, -, hguard, -⟩ := finalizeCheckpoint_cases h
    have hrespects : RespectsZero ⟨w, tx, w'⟩ ↔
        ∀ l ∈ (losses (w.ledger.submission r).creatureId tr).getLast?,
          (w.ledger.submission r).loss ≤ l := by
      -- the guard `prev == 0 || loss <= prev` leaves only the case `prev = 0` open
      simp only [RespectsZero, hcall, hw.getLast?]
      split
      · next h0 => simp [h0]
      · next h0 =>
          simp only [Option.mem_def, Option.some.injEq, forall_eq']
          rcases hguard with hz | hle
          · rw [hz]
            exact ⟨fun hr => by simp [hr h0 rfl], fun hle _ _ => by simpa using hle⟩
          · exact ⟨fun _ => hle, fun _ _ hz => by rw [hz] at hle; simpa using hle⟩
    rw [hrespects]
    constructor
    · intro hall
      refine ⟨fun c => ?_, ?_⟩
      · have := hall c
        rw [losses_finalize hcall, NeverRises, List.isChain_append] at this
        exact this.1
      · have := hall (w.ledger.submission r).creatureId
        rw [losses_finalize hcall, if_pos rfl, NeverRises, List.isChain_append] at this
        exact fun l hl => this.2.2 l hl _ rfl
    · rintro ⟨hall, hnew⟩ c
      rw [losses_finalize hcall, NeverRises, List.isChain_append]
      refine ⟨hall c, ?_, ?_⟩
      · split <;> simp
      · by_cases hc : (w.ledger.submission r).creatureId = c
        · subst hc
          simpa using hnew
        · simp [hc]
  · have hne : ∀ v r, tx.call ≠ .finalizeCheckpoint v r := fun v r e => hfin ⟨v, r, e⟩
    have hrespects : RespectsZero ⟨w, tx, w'⟩ := by
      unfold RespectsZero
      split
      · next v r e => exact absurd e (hne v r)
      · trivial
    simp [losses_other hne, hrespects]

/-- **The loss rule, exactly.** In a run from deployment the losses of every creature never rise
if and only if every accepted finalization respects the zero. -/
theorem losses_antitone_iff (self : Address) (energy : Energy) (core : Core)
    (txs : List (Tx Call)) :
    (∀ c, NeverRises (losses c (trace (step self) ⟨deploy, energy, core⟩ txs))) ↔
      ∀ m ∈ trace (step self) ⟨deploy, energy, core⟩ txs, RespectsZero m := by
  let P (w : World) (tr : List (Move World (Tx Call))) : Prop :=
    Recorded w tr ∧ ((∀ c, NeverRises (losses c tr)) ↔ ∀ m ∈ tr, RespectsZero m)
  suffices key : P (exec (revert (step self)) ⟨deploy, energy, core⟩ txs)
      (trace (step self) ⟨deploy, energy, core⟩ txs) from key.2
  refine trace_run_induction ?_ ?_ txs
  · exact ⟨⟨fun _ => rfl, fun _ _ hl => by simp [losses] at hl⟩, by simp [losses, NeverRises]⟩
  · rintro w tr tx w' ⟨hw, ih⟩ h
    refine ⟨hw.step h, ?_⟩
    rw [neverRises_step hw h, ih]
    simp [or_imp, forall_and]

/-- Two checkpoints of creature 1, the first with loss zero, the second with loss five. -/
def zeroThenFive : List (Tx Call) :=
  [⟨7, .submitCheckpoint none 1 0 100 32 0 0⟩, ⟨7, .finalizeCheckpoint true 100⟩,
    ⟨7, .submitCheckpoint none 1 1 101 32 5 0⟩, ⟨7, .finalizeCheckpoint true 101⟩]

/-- The ledger finalizes both, and the loss has risen from zero to five. -/
theorem losses_rise_after_zero :
    losses 1 (trace (step 50) ⟨deploy, Energy.deploy 50, Core.deploy 50⟩ zeroThenFive) = [0, 5] ∧
      ¬ ∀ c, NeverRises
        (losses c (trace (step 50) ⟨deploy, Energy.deploy 50, Core.deploy 50⟩ zeroThenFive)) := by
  have h : losses 1 (trace (step 50) ⟨deploy, Energy.deploy 50, Core.deploy 50⟩ zeroThenFive)
      = [0, 5] := by decide
  refine ⟨h, fun hall => ?_⟩
  have h1 := hall 1
  rw [h] at h1
  exact absurd h1 (by simp [NeverRises])

end TrainingLedger

end ChainBeasts.Contracts
