import ChainBeasts.Machine
import Mathlib.Algebra.GroupWithZero.Nat
import Mathlib.Data.List.Nodup

/-! # `pouw_chain.hpp` and the attestation counters of `validator.hpp`

The in-memory chain: checkpoints wait in `pending`, are attested or proven, and `finalize_checkpoint`
turns one into a block. An `unordered_map` is a function into `Option`, an `unordered_set` a
function into `Bool`; counters and balances are the fixed-width words of the source. -/

namespace ChainBeasts.Pouw

abbrev SizeT := BitVec 64
abbrev U32 := BitVec 32
abbrev U64 := BitVec 64

/-- What the chain uses of `float`: two literals and two comparisons. No law is assumed, so a
result over any `LossValue` covers NaN. -/
class LossValue (F : Type) where
  zero : F
  minusOne : F
  ge : F → F → Bool
  gt : F → F → Bool

/-! ## `Validator` -/

structure Validator where
  quorum : SizeT
  counts : String → Option SizeT

namespace Validator

def new (quorum : SizeT) : Validator := ⟨quorum, fun _ => none⟩

/-- `++counts_[root]`. -/
def attest (v : Validator) (root : String) : Validator :=
  { v with counts := Function.update v.counts root (some ((v.counts root).getD 0 + 1)) }

def hasQuorum (v : Validator) (root : String) : Bool :=
  match v.counts root with
  | none => false
  | some n => decide (v.quorum ≤ n)

end Validator

/-! ## `PoUWChain` -/

structure Block (F : Type) where
  index : U32
  creatureId : U32
  epochId : U32
  rootHash : String
  miner : String
  loss : F
  energySpent : U32

structure Pending (F : Type) where
  creatureId : U32
  epochId : U32
  miner : String
  loss : F
  energySpent : U32

structure PoUWChain (F : Type) where
  chain : List (Block F)
  pending : String → Option (Pending F)
  finalized : String → Bool
  proven : String → Bool
  energyBalances : String → Option U64
  coreBalances : String → Option U64
  nextEpoch : U32 → Option U32
  lastLoss : U32 → Option F
  validator : Validator

namespace PoUWChain
variable {F : Type}

/-- `CORE_PER_ENERGY`. -/
def corePerEnergy : U64 := 1

def new (quorum : SizeT) : PoUWChain F where
  chain := []
  pending _ := none
  finalized _ := false
  proven _ := false
  energyBalances _ := none
  coreBalances _ := none
  nextEpoch _ := none
  lastLoss _ := none
  validator := .new quorum

def submitCheckpoint (s : PoUWChain F) (creatureId epochId : U32) (rootHash miner : String)
    (loss : F) (energySpent : U32) : PoUWChain F :=
  { s with pending :=
    Function.update s.pending rootHash (some ⟨creatureId, epochId, miner, loss, energySpent⟩) }

def submitProof (s : PoUWChain F) (rootHash : String) : PoUWChain F :=
  { s with proven := Function.update s.proven rootHash true }

def attest (s : PoUWChain F) (rootHash : String) : PoUWChain F :=
  { s with validator := s.validator.attest rootHash }

/-- The writes of a successful `finalize_checkpoint`: the block is appended, the miner credited, the
creature's records advanced, and the root leaves `proven` and `pending`. -/
def append (s : PoUWChain F) (rootHash : String) (it : Pending F) : PoUWChain F :=
  let blk : Block F :=
    { index := BitVec.ofNat 32 (s.chain.length + 1)
      creatureId := it.creatureId
      epochId := it.epochId
      rootHash := rootHash
      miner := it.miner
      loss := it.loss
      energySpent := it.energySpent }
  let energy := (s.energyBalances blk.miner).getD 0 + it.energySpent.setWidth 64
  let core := (s.coreBalances blk.miner).getD 0 + it.energySpent.setWidth 64 * corePerEnergy
  { s with
    chain := s.chain ++ [blk]
    energyBalances := Function.update s.energyBalances blk.miner (some energy)
    coreBalances := Function.update s.coreBalances blk.miner (some core)
    finalized := Function.update s.finalized rootHash true
    proven := Function.update s.proven rootHash false
    nextEpoch := Function.update s.nextEpoch blk.creatureId (some (blk.epochId + 1))
    lastLoss := Function.update s.lastLoss blk.creatureId (some blk.loss)
    pending := Function.update s.pending rootHash none }

def finalizeCheckpoint [LossValue F] (s : PoUWChain F) (rootHash : String) :
    Bool × PoUWChain F :=
  if ¬ s.validator.hasQuorum rootHash ∧ ¬ s.proven rootHash then (false, s)
  else match s.pending rootHash with
  | none => (false, s)
  | some it =>
    if s.finalized rootHash then (false, s)
    else if it.epochId ≠ (s.nextEpoch it.creatureId).getD 0 then (false, s)
    else
      let prevLoss := (s.lastLoss it.creatureId).getD LossValue.minusOne
      if LossValue.ge prevLoss LossValue.zero ∧ LossValue.gt it.loss prevLoss then (false, s)
      else (true, s.append rootHash it)

/-- `energy_balance(miner)`. -/
def energyBalance (s : PoUWChain F) (miner : String) : U64 := (s.energyBalances miner).getD 0

/-- `core_balance(miner)`. -/
def coreBalance (s : PoUWChain F) (miner : String) : U64 := (s.coreBalances miner).getD 0

/-- The public calls that write. -/
inductive Call (F : Type) where
  | submitCheckpoint (creatureId epochId : U32) (rootHash miner : String) (loss : F)
      (energySpent : U32)
  | attest (rootHash : String)
  | submitProof (rootHash : String)
  | finalizeCheckpoint (rootHash : String)

def next [LossValue F] (s : PoUWChain F) : Call F → PoUWChain F
  | .submitCheckpoint creatureId epochId rootHash miner loss energySpent =>
      s.submitCheckpoint creatureId epochId rootHash miner loss energySpent
  | .attest rootHash => s.attest rootHash
  | .submitProof rootHash => s.submitProof rootHash
  | .finalizeCheckpoint rootHash => (s.finalizeCheckpoint rootHash).2

/-- The chain after the calls `cs`, from construction. -/
def run [LossValue F] (quorum : SizeT) (cs : List (Call F)) : PoUWChain F :=
  Machine.exec next (new quorum) cs

variable [LossValue F]

/-- The loss `it` waits with is higher than a previous loss that is not the `-1` sentinel. -/
def regresses (s : PoUWChain F) (it : Pending F) : Prop :=
  let prevLoss := (s.lastLoss it.creatureId).getD LossValue.minusOne
  LossValue.ge prevLoss LossValue.zero = true ∧ LossValue.gt it.loss prevLoss = true

/-- **Inversion.** A finalization either refuses and changes nothing, or every check passed and it
appended the pending entry. -/
theorem finalize_checkpoint_cases (s : PoUWChain F) (r : String) :
    s.finalizeCheckpoint r = (false, s) ∨
      ∃ it, s.pending r = some it ∧ (s.validator.hasQuorum r = true ∨ s.proven r = true) ∧
        s.finalized r = false ∧ it.epochId = (s.nextEpoch it.creatureId).getD 0 ∧
        ¬ s.regresses it ∧ s.finalizeCheckpoint r = (true, s.append r it) := by
  unfold finalizeCheckpoint
  by_cases hq : ¬ s.validator.hasQuorum r ∧ ¬ s.proven r
  · rw [if_pos hq]
    exact Or.inl rfl
  rw [if_neg hq]
  cases hp : s.pending r with
  | none => exact Or.inl rfl
  | some it =>
      dsimp only
      split_ifs with hf he hl
      · exact Or.inl rfl
      · exact Or.inl rfl
      · exact Or.inl rfl
      · refine Or.inr ⟨it, rfl, ?_, by simpa using hf, by simpa using he, hl, rfl⟩
        by_cases h : s.validator.hasQuorum r = true
        · exact Or.inl h
        · exact Or.inr (by simpa [h] using hq)

end PoUWChain

end ChainBeasts.Pouw
