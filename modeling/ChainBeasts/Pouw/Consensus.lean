import ChainBeasts.Contracts.TrainingRewards
import ChainBeasts.Contracts.ProofVerifier
import ChainBeasts.Pouw.LossRule
import Mathlib.Logic.Embedding.Basic

/-! # The chain and the contracts as one consensus rule

`PoUWChain` and `TrainingLedger` with its `ProofVerifier` are run on the same events. `Related`
connects the two states: erased containers against mappings that are never erased, a `-1` sentinel
against a `0`, a set of proven roots against a counter set to the quorum. `Related.attempt_cases` is
the heart: in related states a finalization succeeds on one side exactly when it does on the other,
unless it slips through the zero sentinel of the ledger. The chain has no limit on the size of a model:
what the ledger refuses for its size waits on the chain only (`Related.taken_iff`).

The counters of the chain are words of the machine. Where an attestation counter or an epoch would
wrap, the two sides part, and the run leaves the condition of `same_rule`. -/

namespace ChainBeasts.Pouw.Consensus

open ChainBeasts.Contracts ChainBeasts.Evm ChainBeasts.Machine
open ChainBeasts.Contracts.TrainingLedger (World outstanding)

/-- How the chain writes the ledger's values: roots and miners as strings, losses as floats, which
are exact below `2^24`. -/
structure Spelling (F : Type) [ExactLoss F] where
  root : Bytes32 ↪ String
  miner : Address ↪ String
  loss : BitVec 32 → F
  loss_zero : loss 0 = LossValue.zero
  loss_lt : ∀ a b : BitVec 32, a.toNat < 2 ^ 24 → b.toNat < 2 ^ 24 → (loss a < loss b ↔ a < b)

/-- What both sides are told. A proof is a proof of its own digest. -/
inductive Event where
  | submit (miner : Address) (creature epoch : BitVec 32) (root : Bytes32)
      (loss energySpent : BitVec 32) (seasons : Option U256) (modelBytes : BitVec 32)
  | attest (validator : Address) (root : Bytes32)
  | prove (prover : Address) (proof : Bytes)
  | finalize (caller : Address) (root : Bytes32)

/-- The reward of a finalization: who gets it, for which epoch, and how much ENERGY. -/
structure Reward where
  miner : String
  epoch : Nat
  energy : Nat
  deriving DecidableEq

/-- The two sides. -/
structure Pair (F : Type) where
  chain : PoUWChain F
  verifier : ProofVerifier
  world : World

section
variable {F : Type} [ExactLoss F] (keccak256 : Bytes → Bytes32) (enc : Spelling F) (addr : Address)

/-! ## The chain's side -/

/-- The call the chain gets. -/
def chainCall : Event → PoUWChain.Call F
  | .submit miner creature epoch root loss energySpent _ _ =>
      .submitCheckpoint creature epoch (enc.root root) (enc.miner miner) (enc.loss loss) energySpent
  | .attest _ root => .attest (enc.root root)
  | .prove _ proof => .submitProof (enc.root (ZkVerifier.verify keccak256 proof))
  | .finalize _ root => .finalizeCheckpoint (enc.root root)

/-- The reward the chain pays: the miner and epoch of the new block, and what the miner's energy
balance gained. -/
def chainReward (s : PoUWChain F) : Event → Option Reward
  | .finalize _ root =>
      let (accepted, s') := s.finalizeCheckpoint (enc.root root)
      if accepted then s'.chain.getLast?.map fun blk =>
        ⟨blk.miner, blk.epochId.toNat,
          (s'.energyBalance blk.miner - s.energyBalance blk.miner).toNat⟩
      else none
  | _ => none

/-! ## The contracts' side -/

/-- The call the verifier gets, if it gets one. -/
def verifierCall : Event → Option (Tx ProofVerifier.Call)
  | .attest validator root => some ⟨validator, .attest root⟩
  | .prove prover proof => some ⟨prover, .submitProof (ZkVerifier.verify keccak256 proof) proof⟩
  | _ => none

/-- The call the ledger gets, if it gets one. It asks the verifier itself. -/
def ledgerCall (v : ProofVerifier) : Event → Option (Tx TrainingLedger.Call)
  | .submit miner creature epoch root loss energySpent seasons modelBytes =>
      some ⟨miner, .submitCheckpoint seasons (creature.setWidth 256) (epoch.setWidth 256) root
        modelBytes loss energySpent⟩
  | .finalize caller root => some ⟨caller, .finalizeCheckpoint (v.verify root) root⟩
  | _ => none

def verifierNext (v : ProofVerifier) (ev : Event) : ProofVerifier :=
  match verifierCall keccak256 ev with
  | some tx => revert (ProofVerifier.step fun _ proof => some (keccak256 proof)) v tx
  | none => v

def ledgerNext (v : ProofVerifier) (w : World) (ev : Event) : World :=
  match ledgerCall v ev with
  | some tx => revert (TrainingLedger.step addr) w tx
  | none => w

/-- The reward the ledger pays: the miner and epoch of the submission, and what the miner's ENERGY
balance gained. -/
def ledgerReward (v : ProofVerifier) (w : World) : Event → Option Reward
  | .finalize _ root =>
      let sub := w.ledger.submission root
      (TrainingLedger.finalizeCheckpoint addr w (v.verify root) root).map fun w' =>
        ⟨enc.miner sub.miner, sub.epochId.toNat,
          (w'.energy.balanceOf sub.miner).toNat - (w.energy.balanceOf sub.miner).toNat⟩
  | _ => none

/-! ## Both sides on one event -/

def next (p : Pair F) (ev : Event) : Pair F where
  chain := p.chain.next (chainCall keccak256 enc ev)
  verifier := verifierNext keccak256 p.verifier ev
  world := ledgerNext addr p.verifier p.world ev

/-- A fresh chain and fresh contracts with the quorum `q`, the ledger beside the tokens. -/
def start (q : SizeT) (energy : Energy) (core : Core) : Pair F where
  chain := .new q
  verifier := { ProofVerifier.deploy zeroAddress with quorum := q.setWidth 256 }
  world := ⟨TrainingLedger.deploy, energy, core⟩

/-! ## The relation between the two sides -/

/-- A root is backed alike on both sides until it is finalized: the proofs agree, an unproven root
has as many attestations, and a proof satisfies the ledger's quorum. -/
structure SameBacking (q : SizeT) (s : PoUWChain F) (v : ProofVerifier) (fin : Bytes32 → Bool) :
    Prop where
  chain_quorum : s.validator.quorum = q
  quorum : v.quorum = q.setWidth 256
  proven : ∀ r, fin r = false → s.proven (enc.root r) = v.proven r
  counts : ∀ r, fin r = false → v.proven r = false →
    ((s.validator.counts (enc.root r)).getD 0).toNat = (v.attestations r).toNat
  reached : ∀ r, fin r = false → v.proven r = true → v.verify r = true

/-- The same checkpoint waits, or none does. -/
def Waits : Option (Pending F) → Submission → Prop
  | none, sub => sub.miner = zeroAddress
  | some it, sub => ∃ (creature epoch loss energySpent : BitVec 32) (miner : Address),
      miner ≠ zeroAddress ∧ loss.toNat < 2 ^ 24 ∧
      it = ⟨creature, epoch, enc.miner miner, enc.loss loss, energySpent⟩ ∧
      sub = ⟨creature.setWidth 256, epoch.setWidth 256, miner, loss, energySpent⟩

/-- The same last loss; no loss on the chain is no finalized epoch and the zero on the ledger. -/
def SameLoss : Option F → U256 → BitVec 32 → Prop
  | none, epoch, loss => epoch = 0 ∧ loss = 0
  | some x, epoch, loss => epoch ≠ 0 ∧ x = enc.loss loss ∧ loss.toNat < 2 ^ 24

/-- The records of the two sides agree. -/
structure SameRecords (s : PoUWChain F) (l : TrainingLedger) : Prop where
  finalized : ∀ r, s.finalized (enc.root r) = l.finalized r
  waiting : ∀ r, l.finalized r = false → Waits enc (s.pending (enc.root r)) (l.submission r)
  epochs : ∀ c : BitVec 32,
    ((s.nextEpoch c).getD 0).toNat = (l.nextEpoch (c.setWidth 256)).toNat
  losses : ∀ c : BitVec 32,
    SameLoss enc (s.lastLoss c) (l.nextEpoch (c.setWidth 256)) (l.lastLoss (c.setWidth 256))

/-- The ledger can mint what it may still have to pay: it is the admin, the balances add up, and
what is owed fits beside the supply. -/
structure Solvent (w : World) : Prop where
  energyAdmin : addr = w.energy.admin
  coreAdmin : addr = w.core.admin
  energy : w.energy.Conserved
  core : w.core.Conserved
  covered : w.energy.totalSupply.toNat + outstanding w.ledger < 2 ^ 256

structure Related (q : SizeT) (p : Pair F) : Prop where
  backing : SameBacking enc q p.chain p.verifier p.world.ledger.finalized
  records : SameRecords enc p.chain p.world.ledger
  solvent : Solvent addr p.world

/-! ## What a run is asked -/

/-- The events the two sides are compared on: real senders, exact losses, miners holding the ENERGY
they spend, and the CORE cap not reached. -/
def InDomain (p : Pair F) : Event → Prop
  | .submit miner _ _ _ loss energySpent _ _ =>
      miner ≠ zeroAddress ∧ loss.toNat < 2 ^ 24 ∧
        energySpent.toNat ≤ (p.world.energy.balanceOf miner).toNat
  | .finalize _ root =>
      p.world.core.totalSupply.toNat +
        (p.world.ledger.submission root).energySpent.toNat * 10 ^ 18 ≤ Core.cap.toNat
  | _ => True

/-- A model that is submitted is within the size limit of the ledger. -/
def Sized : Event → Prop
  | .submit _ _ _ _ _ _ seasons modelBytes => modelBytes.setWidth 256 ≤ maxBytes seasons
  | _ => True

/-- The ledger has nothing left to check of the root but the loss. -/
structure Eligible (p : Pair F) (root : Bytes32) : Prop where
  fresh : p.world.ledger.finalized root = false
  verified : p.verifier.verify root = true
  known : (p.world.ledger.submission root).miner ≠ zeroAddress
  epoch : (p.world.ledger.submission root).epochId =
    p.world.ledger.nextEpoch (p.world.ledger.submission root).creatureId

/-- **The zero sentinel.** An eligible checkpoint has a loss above zero, and the creature's last
finalized loss was zero: the ledger takes the zero for "no checkpoint yet". -/
structure Slips (p : Pair F) (root : Bytes32) : Prop where
  eligible : Eligible p root
  later : p.world.ledger.nextEpoch (p.world.ledger.submission root).creatureId ≠ 0
  zero : p.world.ledger.lastLoss (p.world.ledger.submission root).creatureId = 0
  higher : (p.world.ledger.submission root).loss ≠ 0

/-- The event is an attempt that slips through the sentinel. -/
def Slipping (p : Pair F) : Event → Prop
  | .finalize _ root => Slips p root
  | _ => False

/-- The event wraps no counter of the chain: not the attestations of a root that still needs them,
not the epoch of a creature. -/
def NoWrap (p : Pair F) : Event → Prop
  | .attest _ root => p.world.ledger.finalized root = false → p.verifier.proven root = false →
      (p.verifier.attestations root).toNat + 1 < 2 ^ 64
  | .finalize _ root => Eligible p root →
      (p.world.ledger.submission root).epochId.toNat + 1 < 2 ^ 32
  | _ => True

/-- The two sides pay the same reward, or both pay none. -/
def Agree (p : Pair F) (ev : Event) : Prop :=
  chainReward enc p.chain ev = ledgerReward enc addr p.verifier p.world ev

/-- A submission, which the chain takes in any case, is taken by the ledger as well. -/
def Taken (p : Pair F) : Event → Prop
  | .submit miner creature epoch root loss energySpent seasons modelBytes =>
      (TrainingLedger.submitCheckpoint addr p.world miner seasons (creature.setWidth 256)
        (epoch.setWidth 256) root modelBytes loss energySpent).isSome = true
  | _ => True

instance (p : Pair F) (ev : Event) : Decidable (Taken addr p ev) :=
  match ev with
  | .submit .. => inferInstanceAs (Decidable (_ = _))
  | .attest .. | .prove .. | .finalize .. => isTrue trivial

instance (p : Pair F) (ev : Event) : Decidable (InDomain p ev) :=
  match ev with
  | .submit .. => inferInstanceAs (Decidable (_ ∧ _))
  | .attest .. | .prove .. => isTrue trivial
  | .finalize .. => inferInstanceAs (Decidable (_ ≤ _))

instance (p : Pair F) (root : Bytes32) : Decidable (Eligible p root) :=
  decidable_of_iff (_ ∧ _ ∧ _ ∧ _)
    ⟨fun ⟨fresh, verified, known, epoch⟩ => ⟨fresh, verified, known, epoch⟩,
      fun ⟨fresh, verified, known, epoch⟩ => ⟨fresh, verified, known, epoch⟩⟩

instance (p : Pair F) (ev : Event) : Decidable (NoWrap p ev) :=
  match ev with
  | .attest .. => inferInstanceAs (Decidable (_ → _ → _))
  | .submit .. | .prove .. => isTrue trivial
  | .finalize .. => inferInstanceAs (Decidable (_ → _))

instance (p : Pair F) (ev : Event) : Decidable (Agree enc addr p ev) :=
  inferInstanceAs (Decidable (_ = _))

variable {keccak256 enc addr} {q : SizeT} {p : Pair F} {r : Bytes32}

/-! ## Backing -/

theorem widen_inj {a b : BitVec 32} (h : a.setWidth 256 = b.setWidth 256) : a = b := by
  apply BitVec.eq_of_toNat_eq
  rw [← TrainingLedger.toNat_widen a, ← TrainingLedger.toNat_widen b, h]

/-- Until a root is finalized, the verifier confirms it exactly when the chain has a quorum or a
proof. -/
theorem SameBacking.verify_iff {s : PoUWChain F} {v : ProofVerifier} {fin : Bytes32 → Bool}
    (h : SameBacking enc q s v fin) (hq : 1 ≤ q) (hfin : fin r = false) :
    v.verify r = true ↔
      s.validator.hasQuorum (enc.root r) = true ∨ s.proven (enc.root r) = true := by
  have hproven := h.proven r hfin
  cases hp : v.proven r with
  | true =>
      rw [hp] at hproven
      simp [hproven, h.reached r hfin hp]
  | false =>
      rw [hp] at hproven
      have hcounts := h.counts r hfin hp
      have hone : 1 ≤ q.toNat := by simpa [BitVec.le_def] using hq
      have hwide : (q.setWidth 256).toNat = q.toNat := by
        have := q.isLt
        rw [BitVec.toNat_setWidth, Nat.mod_eq_of_lt (by omega)]
      simp only [ProofVerifier.verify, Validator.hasQuorum, h.chain_quorum, h.quorum, hproven,
        decide_eq_true_eq, BitVec.le_def, hwide, Bool.false_eq_true, or_false]
      cases hc : s.validator.counts (enc.root r) with
      | none =>
          rw [hc, Option.getD_none] at hcounts
          have hzero : (0 : SizeT).toNat = 0 := rfl
          simp only [Bool.false_eq_true, iff_false]
          omega
      | some n =>
          rw [hc, Option.getD_some] at hcounts
          simp only [decide_eq_true_eq]
          omega

/-- A counter with room takes another attestation. -/
theorem exists_attest {v : ProofVerifier} (h : (v.attestations r).toNat + 1 < 2 ^ 64) :
    ∃ v', v.attest r = some v' := by
  have hone : (1 : U256).toNat = 1 := rfl
  have hsum : (v.attestations r).toNat + (1 : U256).toNat < 2 ^ 256 := by omega
  obtain ⟨count, hc⟩ := exists_checkedAdd hsum
  rw [ProofVerifier.attest, hc]
  exact ⟨_, rfl⟩

theorem SameBacking.attest {s : PoUWChain F} {v : ProofVerifier} {fin : Bytes32 → Bool}
    (h : SameBacking enc q s v fin) (validator : Address)
    (hfits : fin r = false → v.proven r = false → (v.attestations r).toNat + 1 < 2 ^ 64) :
    SameBacking enc q (s.next (chainCall keccak256 enc (.attest validator r)))
      (verifierNext keccak256 v (.attest validator r)) fin := by
  have hone : (1 : SizeT).toNat = 1 := rfl
  -- the chain's counters after the call
  have hcount : ∀ x, x ≠ r → (s.next (chainCall keccak256 enc (.attest validator r))).validator.counts
      (enc.root x) = s.validator.counts (enc.root x) := by
    intro x hx
    exact Function.update_of_ne (fun e => hx (enc.root.injective e)) _ _
  cases hv : v.attest r with
  | none =>
      -- the verifier's counter is full, so the root no longer needs attestations
      have hsame : verifierNext keccak256 v (.attest validator r) = v := revert_none hv
      rw [hsame]
      refine ⟨h.chain_quorum, h.quorum, h.proven, ?_, h.reached⟩
      intro x hx hpx
      by_cases hxr : x = r
      · subst hxr
        obtain ⟨v', hv'⟩ := exists_attest (hfits hx hpx)
        cases hv.symm.trans hv'
      · rw [hcount x hxr]
        exact h.counts x hx hpx
  | some v' =>
      have hnew : verifierNext keccak256 v (.attest validator r) = v' := revert_some hv
      rw [hnew]
      obtain ⟨count, hc, rfl⟩ := ProofVerifier.attest_cases hv
      refine ⟨h.chain_quorum, h.quorum, h.proven, ?_, ?_⟩
      · intro x hx hpx
        by_cases hxr : x = r
        · subst hxr
          have hroom := hfits hx hpx
          have hold := h.counts x hx hpx
          have hchain : (s.next (chainCall keccak256 enc (.attest validator x))).validator.counts
              (enc.root x) = some ((s.validator.counts (enc.root x)).getD 0 + 1) :=
            Function.update_self _ _ _
          simp only [hchain, Option.getD_some, Function.update_self, BitVec.toNat_add, hone, hold, hc]
          exact Nat.mod_eq_of_lt hroom
        · rw [hcount x hxr]
          simp only [Function.update_of_ne hxr]
          exact h.counts x hx hpx
      · intro x hx hpx
        have hold := h.reached x hx hpx
        by_cases hxr : x = r
        · subst hxr
          simp only [ProofVerifier.verify, decide_eq_true_eq, BitVec.le_def,
            Function.update_self] at hold ⊢
          omega
        · simpa only [ProofVerifier.verify, Function.update_of_ne hxr] using hold

/-- A second proof of a root is refused. -/
theorem prove_again {v : ProofVerifier} {prover : Address} {proof : Bytes}
    (h : v.proven (ZkVerifier.verify keccak256 proof) = true) :
    verifierNext keccak256 v (.prove prover proof) = v := by
  apply revert_none
  simp only [ProofVerifier.step, ProofVerifier.submitProof]
  rw [h]
  rfl

/-- The first one marks it, and counts as a quorum. -/
theorem prove_first {v : ProofVerifier} {prover : Address} {proof : Bytes}
    (h : v.proven (ZkVerifier.verify keccak256 proof) = false) :
    verifierNext keccak256 v (.prove prover proof) = { v with
      proven := Function.update v.proven (ZkVerifier.verify keccak256 proof) true
      attestations :=
        Function.update v.attestations (ZkVerifier.verify keccak256 proof) v.quorum } := by
  apply revert_some
  simp only [ProofVerifier.step, ProofVerifier.submitProof]
  rw [h]
  simp [require, ZkVerifier.verify]

theorem SameBacking.prove {s : PoUWChain F} {v : ProofVerifier} {fin : Bytes32 → Bool}
    (h : SameBacking enc q s v fin) (prover : Address) (proof : Bytes) :
    SameBacking enc q (s.next (chainCall keccak256 enc (.prove prover proof)))
      (verifierNext keccak256 v (.prove prover proof)) fin := by
  let root := ZkVerifier.verify keccak256 proof
  have hroot : ∀ x, x ≠ root →
      (s.next (chainCall keccak256 enc (.prove prover proof))).proven (enc.root x) =
        s.proven (enc.root x) := by
    intro x hx
    exact Function.update_of_ne (fun e => hx (enc.root.injective e)) _ _
  have hself : (s.next (chainCall keccak256 enc (.prove prover proof))).proven (enc.root root) =
      true := Function.update_self _ _ _
  cases hp : v.proven root with
  | true =>
      -- nothing changes on the chain either
      rw [prove_again hp]
      refine ⟨h.chain_quorum, h.quorum, ?_, h.counts, h.reached⟩
      intro x hx
      by_cases hxr : x = root
      · rw [hxr, hself, hp]
      · rw [hroot x hxr]
        exact h.proven x hx
  | false =>
      have hnew : verifierNext keccak256 v (.prove prover proof) = { v with
          proven := Function.update v.proven root true
          attestations := Function.update v.attestations root v.quorum } := prove_first hp
      rw [hnew]
      refine ⟨h.chain_quorum, h.quorum, ?_, ?_, ?_⟩
      · intro x hx
        by_cases hxr : x = root
        · rw [hxr, hself]
          exact (Function.update_self root true v.proven).symm
        · rw [hroot x hxr]
          simpa only [Function.update_of_ne hxr] using h.proven x hx
      · intro x hx hpx
        by_cases hxr : x = root
        · simp [hxr] at hpx
        · simp only [Function.update_of_ne hxr] at hpx ⊢
          exact h.counts x hx hpx
      · intro x hx hpx
        by_cases hxr : x = root
        · simp [ProofVerifier.verify, hxr]
        · simp only [ProofVerifier.verify, Function.update_of_ne hxr] at hpx ⊢
          exact h.reached x hx hpx

/-- Calls that touch neither the counters nor the proofs keep the backing. -/
theorem SameBacking.of_eq {s s' : PoUWChain F} {v : ProofVerifier} {fin : Bytes32 → Bool}
    (h : SameBacking enc q s v fin) (hvalidator : s'.validator = s.validator)
    (hproven : s'.proven = s.proven) : SameBacking enc q s' v fin := by
  refine ⟨?_, h.quorum, ?_, ?_, h.reached⟩
  · rw [hvalidator]
    exact h.chain_quorum
  · rw [hproven]
    exact h.proven
  · rw [hvalidator]
    exact h.counts

/-- A finalized root needs no backing any more. -/
theorem SameBacking.append {s : PoUWChain F} {v : ProofVerifier} {fin : Bytes32 → Bool}
    {it : Pending F} (h : SameBacking enc q s v fin) :
    SameBacking enc q (s.append (enc.root r) it) v (Function.update fin r true) := by
  have hopen : ∀ x, Function.update fin r true x = false → x ≠ r ∧ fin x = false := by
    intro x hx
    by_cases hxr : x = r
    · simp [hxr] at hx
    · exact ⟨hxr, by simpa [hxr] using hx⟩
  refine ⟨h.chain_quorum, h.quorum, ?_, ?_, ?_⟩
  · intro x hx
    obtain ⟨hxr, hx⟩ := hopen x hx
    have hne : enc.root x ≠ enc.root r := fun e => hxr (enc.root.injective e)
    simpa [PoUWChain.append, hne] using h.proven x hx
  · intro x hx
    exact h.counts x (hopen x hx).2
  · intro x hx
    exact h.reached x (hopen x hx).2

/-! ## Records -/

theorem SameRecords.submit {s : PoUWChain F} {l : TrainingLedger}
    {creature epoch loss energySpent : BitVec 32} {miner : Address} (h : SameRecords enc s l)
    (hminer : miner ≠ zeroAddress) (hloss : loss.toNat < 2 ^ 24) :
    SameRecords enc
      (s.submitCheckpoint creature epoch (enc.root r) (enc.miner miner) (enc.loss loss) energySpent)
      { l with submission := Function.update l.submission r (
          ⟨creature.setWidth 256, epoch.setWidth 256, miner, loss, energySpent⟩ : Submission) } := by
  refine ⟨h.finalized, ?_, h.epochs, h.losses⟩
  intro x hx
  by_cases hxr : x = r
  · subst hxr
    simp only [PoUWChain.submitCheckpoint, Function.update_self]
    exact ⟨creature, epoch, loss, energySpent, miner, hminer, hloss, rfl, rfl⟩
  · have hne : enc.root x ≠ enc.root r := fun e => hxr (enc.root.injective e)
    simpa only [PoUWChain.submitCheckpoint, Function.update_of_ne hne, Function.update_of_ne hxr]
      using h.waiting x hx

/-- A creature with a loss above zero has a finalized checkpoint. -/
theorem SameRecords.later {s : PoUWChain F} {l : TrainingLedger} {creature : BitVec 32}
    (h : SameRecords enc s l) (hloss : l.lastLoss (creature.setWidth 256) ≠ 0) :
    l.nextEpoch (creature.setWidth 256) ≠ 0 := by
  have hsame := h.losses creature
  cases hl : s.lastLoss creature with
  | none =>
      rw [hl] at hsame
      exact absurd hsame.2 hloss
  | some prev =>
      rw [hl] at hsame
      exact hsame.1

/-- The records after both sides finalized the same checkpoint. -/
theorem SameRecords.append {s : PoUWChain F} {l : TrainingLedger}
    {creature epoch loss energySpent : BitVec 32} {miner : String} {epoch' : U256}
    (h : SameRecords enc s l) (hloss : loss.toNat < 2 ^ 24)
    (hepoch : epoch'.toNat = epoch.toNat + 1) (hfits : epoch.toNat + 1 < 2 ^ 32) :
    SameRecords enc
      (s.append (enc.root r) ⟨creature, epoch, miner, enc.loss loss, energySpent⟩)
      { l with
        nextEpoch := Function.update l.nextEpoch (creature.setWidth 256) epoch'
        lastLoss := Function.update l.lastLoss (creature.setWidth 256) loss
        finalized := Function.update l.finalized r true } := by
  have hwide : ∀ k : BitVec 32, k ≠ creature → k.setWidth 256 ≠ creature.setWidth 256 :=
    fun k hk e => hk (widen_inj e)
  refine ⟨?_, ?_, ?_, ?_⟩
  · intro x
    by_cases hxr : x = r
    · simp [PoUWChain.append, hxr]
    · have hne : enc.root x ≠ enc.root r := fun e => hxr (enc.root.injective e)
      simp [PoUWChain.append, hne, hxr, h.finalized x]
  · intro x hx
    by_cases hxr : x = r
    · simp [hxr] at hx
    · have hne : enc.root x ≠ enc.root r := fun e => hxr (enc.root.injective e)
      simp only [Function.update_of_ne hxr] at hx
      simpa only [PoUWChain.append, Function.update_of_ne hne] using h.waiting x hx
  · intro k
    have hone : (1 : BitVec 32).toNat = 1 := rfl
    by_cases hk : k = creature
    · subst hk
      simp only [PoUWChain.append, Function.update_self, Option.getD_some, BitVec.toNat_add, hone,
        hepoch]
      exact Nat.mod_eq_of_lt hfits
    · simpa only [PoUWChain.append, Function.update_of_ne hk, Function.update_of_ne (hwide k hk)]
        using h.epochs k
  · intro k
    by_cases hk : k = creature
    · subst hk
      simp only [PoUWChain.append, Function.update_self]
      refine ⟨?_, rfl, hloss⟩
      rintro rfl
      have hzero : (0 : U256).toNat = 0 := rfl
      omega
    · simpa only [PoUWChain.append, Function.update_of_ne hk, Function.update_of_ne (hwide k hk)]
        using h.losses k

/-! ## Solvency -/

theorem Solvent.submit {w w' : World} {sender : Address} {seasons : Option U256} {c e : U256}
    {modelBytes loss energySpent : BitVec 32} (h : Solvent addr w)
    (hsub : TrainingLedger.submitCheckpoint addr w sender seasons c e r modelBytes loss
      energySpent = some w') : Solvent addr w' := by
  obtain ⟨hburn, hcore, hledger⟩ := TrainingLedger.submitCheckpoint_cases hsub
  obtain ⟨hadmin, hissued⟩ := TrainingLedger.burnSpent_issues hburn
  have hconserved : w'.energy.Conserved := by
    unfold TrainingLedger.burnSpent at hburn
    split at hburn
    · exact h.energy.burnFrom hburn
    · rw [← Option.some.inj hburn]
      exact h.energy
  have hout := TrainingLedger.outstanding_submit w.ledger r ⟨c, e, sender, loss, energySpent⟩
  rw [← hledger] at hout
  have hsupply := hissued.supply
  have hcovered := h.covered
  refine ⟨by rw [hadmin]; exact h.energyAdmin, by rw [hcore]; exact h.coreAdmin, hconserved,
    by rw [hcore]; exact h.core, ?_⟩
  simp only at hout
  omega

theorem Solvent.exists_submit {w : World} {sender : Address} {seasons : Option U256}
    {modelBytes energySpent : BitVec 32} (h : Solvent addr w) (c e : U256) (loss : BitVec 32)
    (hsize : modelBytes.setWidth 256 ≤ maxBytes seasons)
    (hheld : energySpent.toNat ≤ (w.energy.balanceOf sender).toNat) :
    ∃ w', TrainingLedger.submitCheckpoint addr w sender seasons c e r modelBytes loss energySpent =
      some w' := by
  have hburn : ∃ energy, TrainingLedger.burnSpent addr w.energy sender energySpent =
      some energy := by
    unfold TrainingLedger.burnSpent
    split
    · apply h.energy.exists_burnFrom h.energyAdmin
      rwa [TrainingLedger.toNat_widen]
    · exact ⟨_, rfl⟩
  obtain ⟨energy, hburn⟩ := hburn
  exact ⟨_, by simp [TrainingLedger.submitCheckpoint, require, hsize, hburn]; rfl⟩

theorem Solvent.finalize {w w' : World} {verified : Bool} (h : Solvent addr w)
    (hfin : TrainingLedger.finalizeCheckpoint addr w verified r = some w') : Solvent addr w' := by
  obtain ⟨hopen, -, -, -, -, epoch, -, hledger⟩ := TrainingLedger.finalizeCheckpoint_cases hfin
  obtain ⟨henergy, hcore⟩ := TrainingLedger.finalizeCheckpoint_mints hfin
  obtain ⟨hadmin, hissued⟩ := Energy.mint_issues henergy
  have hcoreAdmin : w'.core.admin = w.core.admin := by
    obtain ⟨_, _, -, -, hw⟩ := Core.mint_cases hcore
    rw [hw]
  have hsupply := hissued.supply
  rw [TrainingLedger.toNat_widen] at hsupply
  have hout : outstanding w'.ledger + (w.ledger.submission r).energySpent.toNat =
      outstanding w.ledger :=
    TrainingLedger.outstanding_finalize hopen (by rw [hledger]) (by rw [hledger])
  have hcovered := h.covered
  refine ⟨by rw [hadmin]; exact h.energyAdmin, by rw [hcoreAdmin]; exact h.coreAdmin,
    h.energy.mint henergy, h.core.mint hcore, ?_⟩
  omega

/-! ## One finalization attempt -/

/-- The ledger's attempt on a root, with the verifier's answer. -/
def ledgerAttempt (addr : Address) (p : Pair F) (r : Bytes32) : Option World :=
  TrainingLedger.finalizeCheckpoint addr p.world (p.verifier.verify r) r

omit [ExactLoss F] in
/-- An accepted attempt was eligible and passed the loss guard. -/
theorem eligible_of_attempt {w' : World} (h : ledgerAttempt addr p r = some w') :
    Eligible p r ∧
      (p.world.ledger.lastLoss (p.world.ledger.submission r).creatureId = 0 ∨
        (p.world.ledger.submission r).loss ≤
          p.world.ledger.lastLoss (p.world.ledger.submission r).creatureId) := by
  obtain ⟨hfresh, hverified, hknown, hepoch, hguard, -⟩ :=
    TrainingLedger.finalizeCheckpoint_cases h
  exact ⟨⟨hfresh, hverified, hknown, hepoch⟩, hguard⟩

omit [ExactLoss F] in
/-- An eligible attempt that passes the guard is accepted: no mint can fail. -/
theorem Solvent.attempt (h : Solvent addr p.world) (he : Eligible p r)
    (hguard : p.world.ledger.lastLoss (p.world.ledger.submission r).creatureId = 0 ∨
      (p.world.ledger.submission r).loss ≤
        p.world.ledger.lastLoss (p.world.ledger.submission r).creatureId)
    (hnarrow : (p.world.ledger.submission r).epochId.toNat + 1 < 2 ^ 256)
    (hcap : p.world.core.totalSupply.toNat +
      (p.world.ledger.submission r).energySpent.toNat * 10 ^ 18 ≤ Core.cap.toNat) :
    ∃ w', ledgerAttempt addr p r = some w' := by
  obtain ⟨hfresh, hverified, hknown, hepoch⟩ := he
  have howed : (p.world.ledger.submission r).energySpent.toNat ≤ outstanding p.world.ledger := by
    have hout : outstanding { p.world.ledger with
        finalized := Function.update p.world.ledger.finalized r true } +
        (p.world.ledger.submission r).energySpent.toNat = outstanding p.world.ledger :=
      TrainingLedger.outstanding_finalize hfresh rfl rfl
    omega
  have hcovered := h.covered
  obtain ⟨energy, henergy⟩ : ∃ energy, p.world.energy.mint addr
      (p.world.ledger.submission r).miner
      ((p.world.ledger.submission r).energySpent.setWidth 256) = some energy := by
    apply h.energy.exists_mint h.energyAdmin
    rw [TrainingLedger.toNat_widen]
    omega
  obtain ⟨core, hcore⟩ : ∃ core, p.world.core.mint addr (p.world.ledger.submission r).miner
      ((p.world.ledger.submission r).energySpent.setWidth 256 *
        TrainingLedger.corePerEnergy) = some core := by
    apply h.core.exists_mint h.coreAdmin
    rw [TrainingLedger.toNat_coreReward]
    exact hcap
  have hone : (1 : U256).toNat = 1 := rfl
  obtain ⟨epoch, hnext⟩ := exists_checkedAdd
    (a := (p.world.ledger.submission r).epochId) (b := (1 : U256)) (by omega)
  simp only [ledgerAttempt, TrainingLedger.finalizeCheckpoint, require, hfresh, hverified, hnext,
    henergy, hcore, if_pos hknown, if_pos hepoch, if_pos hguard]
  exact ⟨_, rfl⟩

/-- What is eligible on the ledger is ready on the chain, and is the same checkpoint. -/
theorem Related.exists_ready (h : Related enc addr q p) (hq : 1 ≤ q) (he : Eligible p r) :
    ∃ (creature epoch loss energySpent : BitVec 32) (miner : Address), loss.toNat < 2 ^ 24 ∧
      p.world.ledger.submission r =
        ⟨creature.setWidth 256, epoch.setWidth 256, miner, loss, energySpent⟩ ∧
      p.chain.Ready (enc.root r) ⟨creature, epoch, enc.miner miner, enc.loss loss, energySpent⟩ := by
  obtain ⟨hfresh, hverified, hknown, hepoch⟩ := he
  have hwaits := h.records.waiting r hfresh
  cases hp : p.chain.pending (enc.root r) with
  | none =>
      rw [hp] at hwaits
      exact absurd hwaits hknown
  | some it =>
      rw [hp] at hwaits
      obtain ⟨creature, epoch, loss, energySpent, miner, -, hloss, rfl, hsub⟩ := hwaits
      refine ⟨creature, epoch, loss, energySpent, miner, hloss, hsub, ?_, hp, ?_, ?_⟩
      · exact (h.backing.verify_iff hq hfresh).mp hverified
      · rw [h.records.finalized, hfresh]
      · rw [hsub] at hepoch
        apply BitVec.eq_of_toNat_eq
        rw [h.records.epochs creature, ← hepoch, TrainingLedger.toNat_widen]

/-- What is ready on the chain is eligible on the ledger. -/
theorem Related.eligible (h : Related enc addr q p) (hq : 1 ≤ q) {it : Pending F}
    (hready : p.chain.Ready (enc.root r) it) : Eligible p r := by
  obtain ⟨hbacked, hp, hfresh, hepoch⟩ := hready
  rw [h.records.finalized] at hfresh
  have hwaits := h.records.waiting r hfresh
  rw [hp] at hwaits
  obtain ⟨creature, epoch, loss, energySpent, miner, hminer, -, rfl, hsub⟩ := hwaits
  refine ⟨hfresh, (h.backing.verify_iff hq hfresh).mpr hbacked, ?_, ?_⟩
  · rw [hsub]
    exact hminer
  · rw [hsub]
    apply BitVec.eq_of_toNat_eq
    rw [TrainingLedger.toNat_widen, ← h.records.epochs creature]
    exact congrArg BitVec.toNat hepoch

/-- The loss rule of the chain in the ledger's terms: there is an earlier checkpoint, and the loss
is above its loss. -/
theorem Related.regresses_iff (h : Related enc addr q p) (creature : BitVec 32)
    {epoch loss energySpent : BitVec 32} {miner : String} (hloss : loss.toNat < 2 ^ 24) :
    p.chain.regresses ⟨creature, epoch, miner, enc.loss loss, energySpent⟩ ↔
      p.world.ledger.nextEpoch (creature.setWidth 256) ≠ 0 ∧
        p.world.ledger.lastLoss (creature.setWidth 256) < loss := by
  have hsame := h.records.losses creature
  rw [PoUWChain.regresses_iff]
  cases hl : p.chain.lastLoss creature with
  | none =>
      rw [hl] at hsame
      simp [hsame.1]
  | some prev =>
      rw [hl] at hsame
      obtain ⟨hne, rfl, hexact⟩ := hsame
      -- every loss of the ledger is at least zero
      have hzero : LossValue.zero ≤ enc.loss (p.world.ledger.lastLoss (creature.setWidth 256)) := by
        rw [← enc.loss_zero, ← not_lt, enc.loss_lt _ _ hexact (by decide)]
        exact BitVec.not_lt_zero
      have hlt := enc.loss_lt _ _ hexact hloss
      constructor
      · rintro ⟨_, hl, -, hrise⟩
        cases hl
        exact ⟨hne, hlt.mp hrise⟩
      · rintro ⟨-, hrise⟩
        exact ⟨_, rfl, hzero, hlt.mpr hrise⟩

/-- Both sides accept the attempt, for the same checkpoint. -/
structure Accepted (enc : Spelling F) (addr : Address) (p : Pair F) (r : Bytes32)
    (creature epoch loss energySpent : BitVec 32) (miner : Address) (w' : World) : Prop where
  exact : loss.toNat < 2 ^ 24
  submission : p.world.ledger.submission r =
    ⟨creature.setWidth 256, epoch.setWidth 256, miner, loss, energySpent⟩
  chain : p.chain.finalizeCheckpoint (enc.root r) = (true, p.chain.append (enc.root r)
    ⟨creature, epoch, enc.miner miner, enc.loss loss, energySpent⟩)
  ledger : ledgerAttempt addr p r = some w'

/-- **One attempt.** Between related sides both refuse, or both accept the same checkpoint, or the
attempt slips through the sentinel: the chain refuses and the ledger accepts. -/
theorem Related.attempt_cases (h : Related enc addr q p) (hq : 1 ≤ q) {caller : Address}
    (hdom : InDomain p (.finalize caller r)) :
    (¬ Slips p r ∧ p.chain.finalizeCheckpoint (enc.root r) = (false, p.chain) ∧
      ledgerAttempt addr p r = none) ∨
    (¬ Slips p r ∧ Eligible p r ∧ ∃ creature epoch loss energySpent miner w',
      Accepted enc addr p r creature epoch loss energySpent miner w') ∨
    (Slips p r ∧ p.chain.finalizeCheckpoint (enc.root r) = (false, p.chain) ∧
      ∃ w', ledgerAttempt addr p r = some w') := by
  by_cases he : Eligible p r
  · obtain ⟨creature, epoch, loss, energySpent, miner, hloss, hsub, hready⟩ := h.exists_ready hq he
    have hnarrow : (p.world.ledger.submission r).epochId.toNat + 1 < 2 ^ 256 := by
      have := epoch.isLt
      rw [hsub, TrainingLedger.toNat_widen]
      omega
    have hrule : p.chain.regresses ⟨creature, epoch, enc.miner miner, enc.loss loss, energySpent⟩ ↔
        _ := h.regresses_iff creature hloss
    by_cases hreg : p.chain.regresses ⟨creature, epoch, enc.miner miner, enc.loss loss, energySpent⟩
    · have hchain := PoUWChain.finalize_of_regresses hready.pending hreg
      obtain ⟨hlater, hrise⟩ := hrule.mp hreg
      by_cases hzero : p.world.ledger.lastLoss (creature.setWidth 256) = 0
      · refine Or.inr (Or.inr ⟨⟨he, ?_, ?_, ?_⟩, hchain, ?_⟩)
        · rwa [hsub]
        · rwa [hsub]
        · rw [hsub]
          rintro rfl
          exact BitVec.not_lt_zero hrise
        · apply h.solvent.attempt he (Or.inl _) hnarrow hdom
          rwa [hsub]
      · -- above zero the two rules are the same
        refine Or.inl ⟨fun hslips => ?_, hchain, ?_⟩
        · have := hslips.zero
          rw [hsub] at this
          exact hzero this
        · rw [Option.eq_none_iff_forall_ne_some]
          intro w' haccepted
          obtain ⟨-, hguard⟩ := eligible_of_attempt haccepted
          rw [hsub] at hguard
          exact hguard.elim hzero (BitVec.not_le.mpr hrise)
    · have hguard : p.world.ledger.lastLoss (creature.setWidth 256) = 0 ∨
          loss ≤ p.world.ledger.lastLoss (creature.setWidth 256) := by
        by_contra hcon
        obtain ⟨hzero, hrise⟩ := not_or.mp hcon
        exact hreg (hrule.mpr ⟨h.records.later hzero, BitVec.not_le.mp hrise⟩)
      refine Or.inr (Or.inl ⟨fun hslips => hreg (hrule.mpr ⟨?_, ?_⟩), he, ?_⟩)
      · have := hslips.later
        rwa [hsub] at this
      · obtain ⟨-, -, hzero, hhigher⟩ := hslips
        rw [hsub] at hzero hhigher
        rw [hzero]
        exact (BitVec.pos_iff_ne_zero loss).mpr hhigher
      · obtain ⟨w', hledger⟩ := h.solvent.attempt he (by rwa [hsub]) hnarrow hdom
        exact ⟨creature, epoch, loss, energySpent, miner, w', hloss, hsub,
          PoUWChain.finalize_of_ready hready hreg, hledger⟩
  · refine Or.inl ⟨fun hslips => he hslips.eligible, ?_, ?_⟩
    · obtain hrefused | ⟨it, hp, hbacked, hfresh, hepoch, -⟩ :=
        p.chain.finalize_checkpoint_cases (enc.root r)
      · exact hrefused
      · exact absurd (h.eligible hq ⟨hbacked, hp, hfresh, hepoch⟩) he
    · rw [Option.eq_none_iff_forall_ne_some]
      intro w' haccepted
      exact he (eligible_of_attempt haccepted).1

/-! ## The rewards -/

section
variable {creature epoch loss energySpent : BitVec 32} {miner caller : Address} {w' : World}

theorem Accepted.chain_reward
    (h : Accepted enc addr p r creature epoch loss energySpent miner w') :
    chainReward enc p.chain (.finalize caller r) =
      some ⟨enc.miner miner, epoch.toNat, energySpent.toNat⟩ := by
  let it : Pending F := ⟨creature, epoch, enc.miner miner, enc.loss loss, energySpent⟩
  have hlast : (p.chain.append (enc.root r) it).chain.getLast? =
      some (p.chain.newBlock (enc.root r) it) := by
    rw [PoUWChain.append_chain, List.getLast?_concat]
  have hgain : (p.chain.append (enc.root r) it).energyBalance (enc.miner miner) -
      p.chain.energyBalance (enc.miner miner) = energySpent.setWidth 64 := by
    rw [PoUWChain.append_energyBalance, PoUWChain.reward, if_pos rfl, BitVec.add_comm,
      BitVec.add_sub_cancel]
  have hwide : (energySpent.setWidth 64).toNat = energySpent.toNat := by
    have := energySpent.isLt
    rw [BitVec.toNat_setWidth, Nat.mod_eq_of_lt (by omega)]
  simp only [chainReward, h.chain, if_true, it] at hlast hgain ⊢
  rw [hlast, Option.map_some]
  simp only [PoUWChain.newBlock, hgain, hwide]

theorem Accepted.ledger_reward
    (h : Accepted enc addr p r creature epoch loss energySpent miner w') :
    ledgerReward enc addr p.verifier p.world (.finalize caller r) =
      some ⟨enc.miner miner, epoch.toNat, energySpent.toNat⟩ := by
  obtain ⟨henergy, -⟩ := TrainingLedger.finalizeCheckpoint_mints h.ledger
  obtain ⟨-, hissued⟩ := Energy.mint_issues henergy
  have howner := hissued.owner
  rw [h.submission, TrainingLedger.toNat_widen] at howner
  have hattempt := h.ledger
  unfold ledgerAttempt at hattempt
  rw [ledgerReward, hattempt, Option.map_some, h.submission]
  simp only [TrainingLedger.toNat_widen, howner, Nat.add_sub_cancel_left]

/-- After an accepted attempt the sides are related again, unless the epoch wraps. -/
theorem Accepted.related (h : Accepted enc addr p r creature epoch loss energySpent miner w')
    (hp : Related enc addr q p) (hfits : epoch.toNat + 1 < 2 ^ 32) :
    Related enc addr q ⟨p.chain.append (enc.root r)
      ⟨creature, epoch, enc.miner miner, enc.loss loss, energySpent⟩, p.verifier, w'⟩ := by
  obtain ⟨-, -, -, -, -, epoch', hepoch, hledger⟩ := TrainingLedger.finalizeCheckpoint_cases h.ledger
  rw [h.submission] at hepoch hledger
  rw [TrainingLedger.toNat_widen] at hepoch
  refine ⟨?_, ?_, hp.solvent.finalize h.ledger⟩
  · show SameBacking _ _ _ _ w'.ledger.finalized
    rw [hledger]
    exact hp.backing.append
  · show SameRecords _ _ w'.ledger
    rw [hledger]
    exact hp.records.append h.exact hepoch hfits

end

/-- **One event's rewards.** Between related sides they agree exactly when the event does not slip
through the sentinel. -/
theorem Related.agree_iff (h : Related enc addr q p) (hq : 1 ≤ q) (ev : Event)
    (hdom : InDomain p ev) : Agree enc addr p ev ↔ ¬ Slipping p ev := by
  cases ev with
  | submit => exact iff_of_true rfl not_false
  | attest => exact iff_of_true rfl not_false
  | prove => exact iff_of_true rfl not_false
  | finalize caller root =>
      obtain ⟨hkept, hchain, hledger⟩ | ⟨hkept, -, creature, epoch, loss, energySpent, miner, w',
        haccepted⟩ | ⟨hslips, hchain, w', hledger⟩ := h.attempt_cases hq hdom
      · unfold ledgerAttempt at hledger
        simp [Agree, Slipping, chainReward, ledgerReward, hchain, hledger, hkept]
      · simp [Agree, Slipping, haccepted.chain_reward, haccepted.ledger_reward, hkept]
      · unfold ledgerAttempt at hledger
        simp [Agree, Slipping, chainReward, ledgerReward, hchain, hledger, hslips]

/-- **One event's submission.** Between related sides the ledger takes it exactly when it is within
the size limit. -/
theorem Related.taken_iff (h : Related enc addr q p) (ev : Event) (hdom : InDomain p ev) :
    Taken addr p ev ↔ Sized ev := by
  cases ev with
  | submit miner creature epoch root loss energySpent seasons modelBytes =>
      obtain ⟨-, -, hheld⟩ := hdom
      constructor
      · intro htaken
        obtain ⟨w', hsub⟩ := Option.isSome_iff_exists.mp htaken
        exact TrainingLedger.submitCheckpoint_size hsub
      · intro hsize
        obtain ⟨w', hsub⟩ := h.solvent.exists_submit (r := root) (creature.setWidth 256)
          (epoch.setWidth 256) loss hsize hheld
        exact Option.isSome_iff_exists.mpr ⟨w', hsub⟩
  | attest => exact Iff.rfl
  | prove => exact Iff.rfl
  | finalize => exact Iff.rfl

/-! ## Runs -/

/-- **One event.** Related sides stay related unless it is over the size limit, slips or wraps a
counter. -/
theorem Related.next (h : Related enc addr q p) (hq : 1 ≤ q) (ev : Event) (hdom : InDomain p ev)
    (hwrap : NoWrap p ev) (hsize : Sized ev) (hkept : ¬ Slipping p ev) :
    Related enc addr q (next keccak256 enc addr p ev) := by
  cases ev with
  | submit miner creature epoch root loss energySpent seasons modelBytes =>
      obtain ⟨hminer, hloss, hheld⟩ := hdom
      obtain ⟨w', hsub⟩ := h.solvent.exists_submit (r := root) (creature.setWidth 256)
        (epoch.setWidth 256) loss hsize hheld
      have hworld : (Consensus.next keccak256 enc addr p (.submit miner creature epoch root loss
          energySpent seasons modelBytes)).world = w' := revert_some hsub
      obtain ⟨-, -, hledger⟩ := TrainingLedger.submitCheckpoint_cases hsub
      refine ⟨?_, ?_, ?_⟩
      · rw [hworld, hledger]
        exact h.backing.of_eq rfl rfl
      · rw [hworld, hledger]
        exact h.records.submit hminer hloss
      · rw [hworld]
        exact h.solvent.submit hsub
  | attest validator root =>
      obtain ⟨hfinalized, hwaiting, hepochs, hlosses⟩ := h.records
      exact ⟨h.backing.attest validator hwrap, ⟨hfinalized, hwaiting, hepochs, hlosses⟩, h.solvent⟩
  | prove prover proof =>
      obtain ⟨hfinalized, hwaiting, hepochs, hlosses⟩ := h.records
      exact ⟨h.backing.prove prover proof, ⟨hfinalized, hwaiting, hepochs, hlosses⟩, h.solvent⟩
  | finalize caller root =>
      obtain ⟨-, hchain, hledger⟩ | ⟨-, he, creature, epoch, loss, energySpent, miner, w',
        haccepted⟩ | ⟨hslips, -⟩ := h.attempt_cases hq hdom
      · have hsame : Consensus.next keccak256 enc addr p (.finalize caller root) = p := by
          have hworld : ledgerNext addr p.verifier p.world (.finalize caller root) = p.world :=
            revert_none hledger
          have hleft : p.chain.next (chainCall keccak256 enc (.finalize caller root)) = p.chain :=
            congrArg Prod.snd hchain
          rw [Consensus.next, hworld, hleft]
          rfl
        rw [hsame]
        exact h
      · have hboth : Consensus.next keccak256 enc addr p (.finalize caller root) =
            ⟨p.chain.append (enc.root root) ⟨creature, epoch, enc.miner miner, enc.loss loss,
              energySpent⟩, p.verifier, w'⟩ := by
          have hworld : ledgerNext addr p.verifier p.world (.finalize caller root) = w' :=
            revert_some haccepted.ledger
          have happended : p.chain.next (chainCall keccak256 enc (.finalize caller root)) =
              p.chain.append (enc.root root) _ := congrArg Prod.snd haccepted.chain
          rw [Consensus.next, hworld, happended]
          rfl
        have hnarrow := hwrap he
        rw [haccepted.submission, TrainingLedger.toNat_widen] at hnarrow
        rw [hboth]
        exact haccepted.related h hnarrow
      · exact absurd hslips hkept

theorem start_related (q : SizeT) {energy : Energy} {core : Core} (henergy : energy.Conserved)
    (hcore : core.Conserved) (hadmin : addr = energy.admin) (hadminCore : addr = core.admin) :
    Related enc addr q (start q energy core) := by
  refine ⟨⟨rfl, rfl, fun r _ => rfl, fun r _ _ => rfl, fun r _ h => by cases h⟩,
    ⟨fun r => rfl, fun r _ => rfl, fun k => rfl, fun k => ⟨rfl, rfl⟩⟩,
    ⟨hadmin, hadminCore, henergy, hcore, ?_⟩⟩
  simp only [start, TrainingLedger.outstanding_deploy]
  exact energy.totalSupply.isLt

/-- **The same rule.** In a run of the domain that wraps no counter of the chain, every event pays the
same on both sides and every submission is taken by both exactly when all submissions are within the
size limit and no attempt slips through the zero sentinel. If the submissions are within the limit, the
events pay the same exactly when no attempt slips. -/
theorem same_rule (q : SizeT) (hq : 1 ≤ q) (adminE adminC : Address)
    (setupE : List (Tx Energy.Call)) (setupC : List (Tx Core.Call))
    (hadminE : addr = (Energy.run adminE setupE).admin)
    (hadminC : addr = (Core.run adminC setupC).admin) (evs : List Event)
    (hok : ∀ m ∈ history (next keccak256 enc addr)
      (start q (Energy.run adminE setupE) (Core.run adminC setupC)) evs,
        InDomain m.pre m.call ∧ NoWrap m.pre m.call) :
    ((∀ m ∈ history (next keccak256 enc addr)
      (start q (Energy.run adminE setupE) (Core.run adminC setupC)) evs,
        Agree enc addr m.pre m.call ∧ Taken addr m.pre m.call) ↔
      ∀ m ∈ history (next keccak256 enc addr)
        (start q (Energy.run adminE setupE) (Core.run adminC setupC)) evs,
          Sized m.call ∧ ¬ Slipping m.pre m.call) ∧
    ((∀ ev ∈ evs, Sized ev) →
      ((∀ m ∈ history (next keccak256 enc addr)
        (start q (Energy.run adminE setupE) (Core.run adminC setupC)) evs,
          Agree enc addr m.pre m.call) ↔
        ∀ m ∈ history (next keccak256 enc addr)
          (start q (Energy.run adminE setupE) (Core.run adminC setupC)) evs,
            ¬ Slipping m.pre m.call)) := by
  -- the sides are related as long as nothing was over the limit or slipped
  let P (p : Pair F) (tr : List (Move (Pair F) Event)) : Prop :=
    ((∀ m ∈ tr, Agree enc addr m.pre m.call ∧ Taken addr m.pre m.call) ↔
      ∀ m ∈ tr, Sized m.call ∧ ¬ Slipping m.pre m.call) ∧
    ((∀ m ∈ tr, Sized m.call) →
      ((∀ m ∈ tr, Agree enc addr m.pre m.call) ↔ ∀ m ∈ tr, ¬ Slipping m.pre m.call)) ∧
    ((∀ m ∈ tr, Sized m.call ∧ ¬ Slipping m.pre m.call) → Related enc addr q p)
  have hrun := history_induction (fun m => InDomain m.pre m.call ∧ NoWrap m.pre m.call) P
    ⟨by simp, by simp, fun _ => start_related q (Energy.run_conserved adminE setupE)
      (Core.run_conserved adminC setupC) hadminE hadminC⟩ ?_ evs hok
  · refine ⟨hrun.1, fun hsized => hrun.2.1 fun m hm => hsized _ (mem_of_mem_trace hm)⟩
  · intro s tr ev ih hgood
    obtain ⟨hboth, hpaid, hrelated⟩ := ih
    obtain ⟨hdom, hwrap⟩ := hgood
    simp only [P, List.forall_mem_append, List.forall_mem_singleton]
    refine ⟨?_, ?_, ?_⟩
    · rw [hboth]
      apply and_congr_right
      intro hmet
      have h := hrelated hmet
      rw [h.agree_iff hq ev hdom, h.taken_iff ev hdom, and_comm]
    · rintro ⟨hsized, -⟩
      rw [hpaid hsized]
      apply and_congr_right
      intro hkept
      exact (hrelated fun m hm => ⟨hsized m hm, hkept m hm⟩).agree_iff hq ev hdom
    · rintro ⟨hmet, hsize, hkept⟩
      exact (hrelated hmet).next hq ev hdom hwrap hsize hkept

end

/-! ## Two runs -/

/-- As many strokes as the word says. -/
def strokes {n : Nat} (x : BitVec n) : String := String.ofList (List.replicate x.toNat '|')

theorem strokes_injective (n : Nat) : Function.Injective (strokes (n := n)) := by
  intro x y h
  have hlist := congrArg List.length (String.ofList_injective h)
  rw [List.length_replicate, List.length_replicate] at hlist
  exact BitVec.eq_of_toNat_eq hlist

/-- Words are written in strokes, losses are integers. -/
def inStrokes : Spelling Int where
  root := ⟨strokes, strokes_injective 256⟩
  miner := ⟨strokes, strokes_injective 160⟩
  loss b := (b.toNat : Int)
  loss_zero := rfl
  loss_lt a b _ _ := by
    rw [BitVec.lt_def]
    exact Int.ofNat_lt

/-- Account 7 holds 20 ENERGY, and the ledger at 50 is the admin. -/
def funded : List (Tx Energy.Call) := [⟨9, .mint 7 20⟩, ⟨9, .setAdmin 50⟩]

/-- The ledger at 50 is the admin. -/
def handed : List (Tx Core.Call) := [⟨9, .setAdmin 50⟩]

/-- Two checkpoints of creature 1, the first attested twice, the second proven by a proof of its
digest, here the length of the proof. -/
def falling : List Event :=
  [.submit 7 1 0 1 9 4 none 0, .attest 3 1, .finalize 8 1, .attest 5 1, .finalize 8 1,
    .submit 7 1 1 2 6 3 none 0, .prove 5 [0, 0], .finalize 8 2, .finalize 8 2]

theorem same_rule_falling :
    (∀ m ∈ history (next (fun proof => BitVec.ofNat 256 proof.length) inStrokes 50)
      (start 2 (Energy.run 9 funded) (Core.run 9 handed)) falling,
        InDomain m.pre m.call ∧ NoWrap m.pre m.call) ∧
    ∀ m ∈ history (next (fun proof => BitVec.ofNat 256 proof.length) inStrokes 50)
      (start 2 (Energy.run 9 funded) (Core.run 9 handed)) falling,
        Sized m.call ∧ ¬ Slipping m.pre m.call := by
  have hok : ∀ m ∈ history (next (fun proof => BitVec.ofNat 256 proof.length) inStrokes 50)
      (start 2 (Energy.run 9 funded) (Core.run 9 handed)) falling,
        InDomain m.pre m.call ∧ NoWrap m.pre m.call := by decide +kernel
  exact ⟨hok, (same_rule 2 (by decide) 9 9 funded handed (by decide) (by decide) falling hok).1.mp
    (by decide +kernel)⟩

/-- After a checkpoint with loss zero, one with loss five. -/
def rising : List Event :=
  [.submit 7 1 0 1 0 4 none 0, .attest 3 1, .finalize 8 1,
    .submit 7 1 1 2 5 3 none 0, .attest 3 2, .finalize 8 2]

/-- The ledger finalizes and pays the second checkpoint of `rising`, the chain refuses it. -/
theorem rules_part_at_zero :
    (∀ m ∈ history (next (fun proof => BitVec.ofNat 256 proof.length) inStrokes 50)
      (start 1 (Energy.run 9 funded) (Core.run 9 handed)) rising, InDomain m.pre m.call) ∧
    ¬ ∀ m ∈ history (next (fun proof => BitVec.ofNat 256 proof.length) inStrokes 50)
      (start 1 (Energy.run 9 funded) (Core.run 9 handed)) rising, Agree inStrokes 50 m.pre m.call := by
  decide +kernel

end ChainBeasts.Pouw.Consensus
