import ChainBeasts.Contracts.TrainingLedger

/-! # What the training ledger pays, and to whom

The history of a run is read off its accepted calls: `submitted` and `finalization` say which
checkpoint a call submits or finalizes. `Booked` ties the ledger to that history. The record of a
root is its latest submission, whose sender burned the ENERGY it names; a root is finalized at most
once; and a creature's finalized epochs count up from zero.

From this follow what a finalization pays and to whom (`every_run_booked`, `paid_to_latest`). The
ENERGY the ledger mints stays within what it burned as long as nobody uses `rewardMiner`, which
mints without a checkpoint (`minted_le_burned_iff`). -/

namespace ChainBeasts.Contracts

open ChainBeasts.Evm ChainBeasts.Machine

namespace TrainingLedger

variable {self : Address} {w w' : World}

/-- A 32-bit amount widened to a word. -/
theorem toNat_widen (x : U32) : (x.setWidth 256).toNat = x.toNat := by
  have hx := x.isLt
  rw [BitVec.toNat_setWidth, Nat.mod_eq_of_lt (by omega)]

/-- The CORE reward does not wrap: `2^32 * 10^18 < 2^256`. -/
theorem toNat_coreReward (x : U32) :
    (x.setWidth 256 * corePerEnergy).toNat = x.toNat * 10 ^ 18 := by
  have hx := x.isLt
  have hone : corePerEnergy.toNat = 10 ^ 18 := rfl
  rw [BitVec.toNat_mul, toNat_widen, hone, Nat.mod_eq_of_lt (by omega)]

/-! ## What a call does to the tokens -/

/-- The burn of a submission, read backwards. -/
theorem burnSpent_issues {energy energy' : Energy} {sender : Address} {energySpent : U32}
    (h : burnSpent self energy sender energySpent = some energy') :
    energy'.admin = energy.admin ∧ Issued sender energySpent.toNat energy'.balanceOf
      energy.balanceOf energy'.totalSupply energy.totalSupply := by
  unfold burnSpent at h
  split at h
  · have hburn := Energy.burnFrom_issues h
    rwa [toNat_widen] at hburn
  · next hzero =>
      cases h
      have hnone : energySpent.toNat = 0 := by
        rw [BitVec.lt_def] at hzero
        have h0 : (0 : U32).toNat = 0 := rfl
        omega
      rw [hnone]
      exact ⟨rfl, Issued.nothing _ _ _⟩

theorem submitCheckpoint_cases {sender : Address} {seasons : Option U256} {c e : U256}
    {r : Bytes32} {modelBytes loss energySpent : U32}
    (h : submitCheckpoint self w sender seasons c e r modelBytes loss energySpent = some w') :
    burnSpent self w.energy sender energySpent = some w'.energy ∧ w'.core = w.core ∧
      w'.ledger = { w.ledger with
        submission := Function.update w.ledger.submission r ⟨c, e, sender, loss, energySpent⟩ } := by
  simp only [submitCheckpoint, Option.bind_eq_bind, Option.bind_eq_some_iff, require_eq_some,
    Option.pure_def, Option.some.injEq] at h
  obtain ⟨_, _, energy, hburn, rfl⟩ := h
  exact ⟨hburn, rfl, rfl⟩

theorem submitCheckpoint_size {sender : Address} {seasons : Option U256} {c e : U256}
    {r : Bytes32} {modelBytes loss energySpent : U32}
    (h : submitCheckpoint self w sender seasons c e r modelBytes loss energySpent = some w') :
    modelBytes.setWidth 256 ≤ maxBytes seasons := by
  simp only [submitCheckpoint, Option.bind_eq_bind, Option.bind_eq_some_iff, require_eq_some] at h
  obtain ⟨_, hsize, -⟩ := h
  exact hsize

theorem rewardMiner_cases {miner : Address} {amount : U256}
    (h : rewardMiner self w miner amount = some w') :
    w.energy.mint self miner amount = some w'.energy ∧ w'.core = w.core ∧
      w'.ledger = w.ledger := by
  simp only [rewardMiner, Option.bind_eq_bind, Option.bind_eq_some_iff, Option.pure_def,
    Option.some.injEq] at h
  obtain ⟨energy, hmint, rfl⟩ := h
  exact ⟨hmint, rfl, rfl⟩

/-- The two mints of an accepted finalization. -/
theorem finalizeCheckpoint_mints {verified : Bool} {r : Bytes32}
    (h : finalizeCheckpoint self w verified r = some w') :
    let sub := w.ledger.submission r
    w.energy.mint self sub.miner (sub.energySpent.setWidth 256) = some w'.energy ∧
      w.core.mint self sub.miner (sub.energySpent.setWidth 256 * corePerEnergy) =
        some w'.core := by
  simp only [finalizeCheckpoint, Option.bind_eq_bind, Option.bind_eq_some_iff, require_eq_some,
    checkedAdd_eq_some, Option.pure_def, Option.some.injEq] at h
  obtain ⟨_, _, _, _, _, _, _, _, _, _, epoch, _, energy, hmint, core, hcore, rfl⟩ := h
  exact ⟨hmint, hcore⟩

/-! ## The history of a run -/

/-- The accepted calls of the run `txs` on a fresh ledger beside the tokens. -/
def moves (self : Address) (energy : Energy) (core : Core) (txs : List (Tx Call)) :
    List (Move World (Tx Call)) :=
  trace (step self) ⟨deploy, energy, core⟩ txs

def run (self : Address) (energy : Energy) (core : Core) (txs : List (Tx Call)) : World :=
  exec (revert (step self)) ⟨deploy, energy, core⟩ txs

/-- The root and the checkpoint a call submits, if it submits one. -/
def submitted (m : Move World (Tx Call)) : Option (Bytes32 × Submission) :=
  match m.call.call with
  | .submitCheckpoint _ c e r _ loss energySpent =>
      some (r, ⟨c, e, m.call.sender, loss, energySpent⟩)
  | _ => none

/-- The root a call finalizes and the submission recorded for it, if it finalizes one. -/
def finalization (m : Move World (Tx Call)) : Option (Bytes32 × Submission) :=
  match m.call.call with
  | .finalizeCheckpoint _ r => some (r, m.pre.ledger.submission r)
  | _ => none

/-- The finalized checkpoints, in order. -/
def finalizations (tr : List (Move World (Tx Call))) : List (Bytes32 × Submission) :=
  tr.filterMap finalization

/-- The epochs of creature `c`'s finalized checkpoints, in order. -/
def epochs (c : U256) (tr : List (Move World (Tx Call))) : List Nat :=
  ((finalizations tr).filter (·.2.creatureId = c)).map (·.2.epochId.toNat)

theorem finalizations_concat (tr : List (Move World (Tx Call))) (m : Move World (Tx Call)) :
    finalizations (tr ++ [m]) = finalizations tr ++ (finalization m).toList := by
  simp only [finalizations, List.filterMap_append]
  cases h : finalization m <;> simp [h]

theorem epochs_concat (c : U256) (tr : List (Move World (Tx Call))) (m : Move World (Tx Call)) :
    epochs c (tr ++ [m]) = epochs c tr ++
      (((finalization m).toList.filter (·.2.creatureId = c)).map (·.2.epochId.toNat)) := by
  simp [epochs, finalizations_concat]

/-- The sender of a submission burned the ENERGY the submission names. -/
def Burned (m : Move World (Tx Call)) (sub : Submission) : Prop :=
  Issued sub.miner sub.energySpent.toNat m.post.energy.balanceOf m.pre.energy.balanceOf
    m.post.energy.totalSupply m.pre.energy.totalSupply

/-- The finalization minted to the submission's miner the ENERGY the submission names, and `10^18`
CORE for each unit, and nothing to anyone else. -/
structure Rewarded (m : Move World (Tx Call)) (sub : Submission) : Prop where
  energy : Issued sub.miner sub.energySpent.toNat m.pre.energy.balanceOf m.post.energy.balanceOf
    m.pre.energy.totalSupply m.post.energy.totalSupply
  core : Issued sub.miner (sub.energySpent.toNat * 10 ^ 18) m.pre.core.balanceOf
    m.post.core.balanceOf m.pre.core.totalSupply m.post.core.totalSupply

theorem step_burned {tx : Tx Call} (h : step self w tx = some w') {r : Bytes32} {sub : Submission}
    (hsub : submitted ⟨w, tx, w'⟩ = some (r, sub)) : Burned ⟨w, tx, w'⟩ sub := by
  obtain ⟨sender, call⟩ := tx
  cases call with
  | submitCheckpoint seasons c e q mb loss es =>
      obtain ⟨rfl, rfl⟩ : q = r ∧ _ = sub := by simpa [submitted] using hsub
      obtain ⟨hburn, -, -⟩ := submitCheckpoint_cases h
      exact (burnSpent_issues hburn).2
  | rewardMiner => cases hsub
  | finalizeCheckpoint => cases hsub
  | energy => cases hsub
  | core => cases hsub

theorem step_rewarded {tx : Tx Call} (h : step self w tx = some w') {r : Bytes32}
    {sub : Submission} (hfin : finalization ⟨w, tx, w'⟩ = some (r, sub)) :
    Rewarded ⟨w, tx, w'⟩ sub := by
  obtain ⟨sender, call⟩ := tx
  cases call with
  | finalizeCheckpoint v q =>
      obtain ⟨rfl, rfl⟩ : q = r ∧ _ = sub := by simpa [finalization] using hfin
      obtain ⟨henergy, hcore⟩ := finalizeCheckpoint_mints h
      obtain ⟨-, henergy⟩ := Energy.mint_issues henergy
      obtain ⟨balanceOf, totalSupply, hc, hsupply, hw⟩ := Core.mint_cases hcore
      rw [toNat_widen] at henergy
      have hissued := Issued.of_credit hc hsupply
      rw [toNat_coreReward] at hissued
      refine ⟨henergy, ?_⟩
      rw [hw]
      exact hissued
  | submitCheckpoint => cases hfin
  | rewardMiner => cases hfin
  | energy => cases hfin
  | core => cases hfin

/-- **Everything a call can do to the ledger.** It submits a checkpoint, or finalizes the one
recorded, or leaves the ledger alone. -/
theorem step_ledger {tx : Tx Call} (h : step self w tx = some w') :
    (∃ r sub, submitted ⟨w, tx, w'⟩ = some (r, sub) ∧ finalization ⟨w, tx, w'⟩ = none ∧
      w'.ledger = { w.ledger with submission := Function.update w.ledger.submission r sub }) ∨
    (∃ r epoch, submitted ⟨w, tx, w'⟩ = none ∧
      finalization ⟨w, tx, w'⟩ = some (r, w.ledger.submission r) ∧
      w.ledger.finalized r = false ∧ (w.ledger.submission r).miner ≠ zeroAddress ∧
      (w.ledger.submission r).epochId = w.ledger.nextEpoch (w.ledger.submission r).creatureId ∧
      epoch.toNat = (w.ledger.submission r).epochId.toNat + 1 ∧
      w'.ledger = { w.ledger with
        nextEpoch := Function.update w.ledger.nextEpoch (w.ledger.submission r).creatureId epoch
        lastLoss := Function.update w.ledger.lastLoss (w.ledger.submission r).creatureId
          (w.ledger.submission r).loss
        finalized := Function.update w.ledger.finalized r true }) ∨
    (submitted ⟨w, tx, w'⟩ = none ∧ finalization ⟨w, tx, w'⟩ = none ∧ w'.ledger = w.ledger) := by
  obtain ⟨sender, call⟩ := tx
  cases call with
  | submitCheckpoint seasons c e r mb loss es =>
      obtain ⟨-, -, hledger⟩ := submitCheckpoint_cases h
      exact Or.inl ⟨r, _, rfl, rfl, hledger⟩
  | rewardMiner miner amount =>
      obtain ⟨-, -, hledger⟩ := rewardMiner_cases h
      exact Or.inr (Or.inr ⟨rfl, rfl, hledger⟩)
  | finalizeCheckpoint v r =>
      obtain ⟨hopen, -, hminer, hepoch, -, epoch, hnext, hledger⟩ := finalizeCheckpoint_cases h
      exact Or.inr (Or.inl ⟨r, epoch, rfl, rfl, hopen, hminer, hepoch, hnext, hledger⟩)
  | energy call =>
      obtain ⟨_, _, rfl⟩ := Option.map_eq_some_iff.mp h
      exact Or.inr (Or.inr ⟨rfl, rfl, rfl⟩)
  | core call =>
      obtain ⟨_, _, rfl⟩ := Option.map_eq_some_iff.mp h
      exact Or.inr (Or.inr ⟨rfl, rfl, rfl⟩)

/-! ## Which submission a finalization pays -/

/-- Call `j` is the latest submission for `r` in the history, of the checkpoint `sub`. -/
structure LatestFor (tr : List (Move World (Tx Call))) (r : Bytes32) (sub : Submission) (j : Nat) :
    Prop where
  submission : tr[j]?.bind submitted = some (r, sub)
  latest : ∀ k, j < k → ∀ other, tr[k]?.bind submitted ≠ some (r, other)

/-- Call `i` finalizes the checkpoint `sub`, which call `j` submitted: the latest submission for the
root before `i`. -/
structure Pays (tr : List (Move World (Tx Call))) (r : Bytes32) (sub : Submission) (j i : Nat) :
    Prop where
  submission : LatestFor (tr.take i) r sub j
  finalization : tr[i]?.bind finalization = some (r, sub)

variable {tr : List (Move World (Tx Call))} {m : Move World (Tx Call)} {r : Bytes32}
  {sub : Submission} {i j : Nat}

/-- Earlier calls keep their place. -/
theorem bind_concat_of_lt {α : Type} (f : Move World (Tx Call) → Option α) (h : i < tr.length) :
    (tr ++ [m])[i]?.bind f = tr[i]?.bind f := by
  rw [List.getElem?_append_left h]

theorem lt_of_bind {α : Type} {f : Move World (Tx Call) → Option α} {x : α}
    (h : tr[i]?.bind f = some x) : i < tr.length := by
  obtain ⟨m, hm, -⟩ := Option.bind_eq_some_iff.mp h
  exact (List.getElem?_eq_some_iff.mp hm).1

/-- A fact about a call of the longer history is one about the old history or about the new call. -/
theorem bind_concat_cases {α : Type} {f : Move World (Tx Call) → Option α} {x : α}
    (h : (tr ++ [m])[i]?.bind f = some x) :
    (i < tr.length ∧ tr[i]?.bind f = some x) ∨ (i = tr.length ∧ f m = some x) := by
  have hi := lt_of_bind h
  rw [List.length_append, List.length_singleton] at hi
  rcases Nat.lt_or_ge i tr.length with hlt | hge
  · rw [bind_concat_of_lt f hlt] at h
    exact Or.inl ⟨hlt, h⟩
  · obtain rfl : i = tr.length := by omega
    simp only [List.getElem?_concat_length, Option.bind_some] at h
    exact Or.inr ⟨rfl, h⟩

theorem LatestFor.concat (h : LatestFor tr r sub j) (hm : ∀ other, submitted m ≠ some (r, other)) :
    LatestFor (tr ++ [m]) r sub j := by
  refine ⟨?_, ?_⟩
  · rw [bind_concat_of_lt _ (lt_of_bind h.submission)]
    exact h.submission
  · intro k hk other hsub
    rcases bind_concat_cases hsub with ⟨-, hold⟩ | ⟨-, hnew⟩
    · exact h.latest k hk other hold
    · exact hm other hnew

theorem latestFor_concat (hm : submitted m = some (r, sub)) :
    LatestFor (tr ++ [m]) r sub tr.length := by
  refine ⟨by simpa using hm, ?_⟩
  intro k hk other hsub
  have := lt_of_bind hsub
  rw [List.length_append, List.length_singleton] at this
  omega

theorem Pays.concat (h : Pays tr r sub j i) : Pays (tr ++ [m]) r sub j i := by
  have hi := lt_of_bind h.finalization
  refine ⟨?_, ?_⟩
  · rw [List.take_append_of_le_length (Nat.le_of_lt hi)]
    exact h.submission
  · rw [bind_concat_of_lt _ hi]
    exact h.finalization

/-! ## The books -/

/-- The ledger agrees with its history: the finalized roots are those finalized, each once; the
epochs of a creature count up to `nextEpoch`; the record of a root is its latest submission, which
burned what it names; and every finalization rewarded its miner for the submission it pays. -/
structure Booked (w : World) (tr : List (Move World (Tx Call))) : Prop where
  finalized : ∀ r, w.ledger.finalized r = true ↔ r ∈ (finalizations tr).map Prod.fst
  once : ((finalizations tr).map Prod.fst).Nodup
  epochs : ∀ c, epochs c tr = List.range (w.ledger.nextEpoch c).toNat
  recorded : ∀ r, (w.ledger.submission r).miner ≠ zeroAddress →
    ∃ j, LatestFor tr r (w.ledger.submission r) j
  burned : ∀ m ∈ tr, ∀ r sub, submitted m = some (r, sub) → Burned m sub
  rewarded : ∀ m ∈ tr, ∀ r sub, finalization m = some (r, sub) → Rewarded m sub
  paid : ∀ i r sub, tr[i]?.bind finalization = some (r, sub) → ∃ j, Pays tr r sub j i

theorem deploy_booked (energy : Energy) (core : Core) : Booked ⟨deploy, energy, core⟩ [] where
  finalized := by simp [deploy, finalizations]
  once := by simp [finalizations]
  epochs _ := rfl
  recorded _ h := absurd rfl h
  burned := by simp
  rewarded := by simp
  paid := by simp

/-- The parts of the books that are about the new call alone. -/
theorem Booked.concat {tx : Tx Call} (hw : Booked w tr) (h : step self w tx = some w')
    (finalized : ∀ r, w'.ledger.finalized r = true ↔
      r ∈ (finalizations (tr ++ [⟨w, tx, w'⟩])).map Prod.fst)
    (once : ((finalizations (tr ++ [⟨w, tx, w'⟩])).map Prod.fst).Nodup)
    (epochs : ∀ c, TrainingLedger.epochs c (tr ++ [⟨w, tx, w'⟩]) =
      List.range (w'.ledger.nextEpoch c).toNat)
    (recorded : ∀ r, (w'.ledger.submission r).miner ≠ zeroAddress →
      ∃ j, LatestFor (tr ++ [⟨w, tx, w'⟩]) r (w'.ledger.submission r) j)
    (paid : ∀ r sub, finalization ⟨w, tx, w'⟩ = some (r, sub) → ∃ j, LatestFor tr r sub j) :
    Booked w' (tr ++ [⟨w, tx, w'⟩]) := by
  refine ⟨finalized, once, epochs, recorded, ?_, ?_, ?_⟩
  · intro m hm r sub hsub
    rcases List.mem_append.mp hm with hold | hnew
    · exact hw.burned m hold r sub hsub
    · rw [List.mem_singleton] at hnew
      subst hnew
      exact step_burned h hsub
  · intro m hm r sub hfin
    rcases List.mem_append.mp hm with hold | hnew
    · exact hw.rewarded m hold r sub hfin
    · rw [List.mem_singleton] at hnew
      subst hnew
      exact step_rewarded h hfin
  · intro i r sub hfin
    rcases bind_concat_cases hfin with ⟨-, hold⟩ | ⟨rfl, hnew⟩
    · obtain ⟨j, hj⟩ := hw.paid i r sub hold
      exact ⟨j, hj.concat⟩
    · obtain ⟨j, hj⟩ := paid r sub hnew
      refine ⟨j, ?_, hfin⟩
      rwa [List.take_left]

/-- A call that finalizes nothing has only its submission to book. -/
theorem Booked.unfinalized {tx : Tx Call} (hw : Booked w tr) (h : step self w tx = some w')
    (hfin : finalization ⟨w, tx, w'⟩ = none) (hfinalized : w'.ledger.finalized = w.ledger.finalized)
    (hnext : w'.ledger.nextEpoch = w.ledger.nextEpoch)
    (recorded : ∀ r, (w'.ledger.submission r).miner ≠ zeroAddress →
      ∃ j, LatestFor (tr ++ [⟨w, tx, w'⟩]) r (w'.ledger.submission r) j) :
    Booked w' (tr ++ [⟨w, tx, w'⟩]) := by
  have hsame : finalizations (tr ++ [⟨w, tx, w'⟩]) = finalizations tr := by
    simp [finalizations_concat, hfin]
  refine hw.concat h ?_ ?_ ?_ recorded ?_
  · rw [hsame, hfinalized]
    exact hw.finalized
  · rw [hsame]
    exact hw.once
  · intro c
    rw [TrainingLedger.epochs, hsame, hnext]
    exact hw.epochs c
  · intro q other hq
    rw [hfin] at hq
    cases hq

theorem Booked.submit {tx : Tx Call} (hw : Booked w tr) (h : step self w tx = some w')
    (hsub : submitted ⟨w, tx, w'⟩ = some (r, sub)) (hfin : finalization ⟨w, tx, w'⟩ = none)
    (hledger : w'.ledger =
      { w.ledger with submission := Function.update w.ledger.submission r sub }) :
    Booked w' (tr ++ [⟨w, tx, w'⟩]) := by
  refine hw.unfinalized h hfin (by rw [hledger]) (by rw [hledger]) ?_
  intro q hq
  rw [hledger] at hq ⊢
  by_cases hqr : q = r
  · subst hqr
    simp only [Function.update_self]
    exact ⟨_, latestFor_concat hsub⟩
  · simp only [Function.update_of_ne hqr] at hq ⊢
    obtain ⟨j, hj⟩ := hw.recorded q hq
    refine ⟨j, hj.concat ?_⟩
    intro other hother
    rw [hsub] at hother
    cases hother
    exact hqr rfl

theorem Booked.finalize {tx : Tx Call} {epoch : U256} {loss : U256 → U32} (hw : Booked w tr)
    (h : step self w tx = some w') (hsub : submitted ⟨w, tx, w'⟩ = none)
    (hfin : finalization ⟨w, tx, w'⟩ = some (r, w.ledger.submission r))
    (hopen : w.ledger.finalized r = false) (hminer : (w.ledger.submission r).miner ≠ zeroAddress)
    (hepoch : (w.ledger.submission r).epochId =
      w.ledger.nextEpoch (w.ledger.submission r).creatureId)
    (hnext : epoch.toNat = (w.ledger.submission r).epochId.toNat + 1)
    (hledger : w'.ledger = { w.ledger with
      nextEpoch := Function.update w.ledger.nextEpoch (w.ledger.submission r).creatureId epoch
      lastLoss := loss
      finalized := Function.update w.ledger.finalized r true }) :
    Booked w' (tr ++ [⟨w, tx, w'⟩]) := by
  have hroots : (finalizations (tr ++ [⟨w, tx, w'⟩])).map Prod.fst =
      (finalizations tr).map Prod.fst ++ [r] := by
    simp [finalizations_concat, hfin]
  have hnew : r ∉ (finalizations tr).map Prod.fst := by
    rw [← hw.finalized, hopen]
    simp
  apply hw.concat h
  · intro q
    rw [hroots, hledger, List.mem_append, List.mem_singleton, ← hw.finalized]
    by_cases hq : q = r
    · simp [hq]
    · simp [hq]
  · rw [hroots, List.nodup_append]
    refine ⟨hw.once, List.nodup_singleton r, ?_⟩
    intro a ha b hb
    rw [List.mem_singleton.mp hb]
    rintro rfl
    exact hnew ha
  · intro c
    rw [epochs_concat, hfin, hw.epochs c, hledger]
    by_cases hc : (w.ledger.submission r).creatureId = c
    · subst hc
      simp only [Option.toList_some, Function.update_self, hnext, List.range_succ]
      simp [hepoch]
    · simp [hc, Function.update_of_ne (Ne.symm hc)]
  · intro q hq
    rw [hledger] at hq ⊢
    obtain ⟨j, hj⟩ := hw.recorded q hq
    exact ⟨j, hj.concat (by simp [hsub])⟩
  · intro q other hq
    rw [hfin] at hq
    cases hq
    exact hw.recorded r hminer

/-- A call that leaves the ledger alone keeps the books. -/
theorem Booked.quiet {tx : Tx Call} (hw : Booked w tr) (h : step self w tx = some w')
    (hsub : submitted ⟨w, tx, w'⟩ = none) (hfin : finalization ⟨w, tx, w'⟩ = none)
    (hledger : w'.ledger = w.ledger) : Booked w' (tr ++ [⟨w, tx, w'⟩]) := by
  refine hw.unfinalized h hfin (by rw [hledger]) (by rw [hledger]) ?_
  intro q hq
  rw [hledger] at hq ⊢
  obtain ⟨j, hj⟩ := hw.recorded q hq
  exact ⟨j, hj.concat (by simp [hsub])⟩

theorem Booked.step {tx : Tx Call} (hw : Booked w tr) (h : step self w tx = some w') :
    Booked w' (tr ++ [⟨w, tx, w'⟩]) := by
  rcases step_ledger h with ⟨r, sub, hsub, hfin, hledger⟩ |
    ⟨r, epoch, hsub, hfin, hopen, hminer, hepoch, hnext, hledger⟩ | ⟨hsub, hfin, hledger⟩
  · exact hw.submit h hsub hfin hledger
  · exact hw.finalize h hsub hfin hopen hminer hepoch hnext hledger
  · exact hw.quiet h hsub hfin hledger

theorem run_booked (self : Address) (energy : Energy) (core : Core) (txs : List (Tx Call)) :
    Booked (run self energy core txs) (moves self energy core txs) := by
  apply trace_run_induction (deploy_booked energy core)
  intro w tr tx w' hw h
  exact hw.step h

/-- A root is finalized at one place of the history. -/
theorem Booked.place_unique (hw : Booked w tr) {i i' : Nat} {sub sub' : Submission}
    (h : tr[i]?.bind finalization = some (r, sub))
    (h' : tr[i']?.bind finalization = some (r, sub')) : i = i' := by
  have hdistinct := hw.once
  rw [finalizations, List.map_filterMap, List.Nodup, List.pairwise_filterMap,
    List.pairwise_iff_getElem] at hdistinct
  obtain ⟨m, hm, hfin⟩ := Option.bind_eq_some_iff.mp h
  obtain ⟨m', hm', hfin'⟩ := Option.bind_eq_some_iff.mp h'
  obtain ⟨hi, rfl⟩ := List.getElem?_eq_some_iff.mp hm
  obtain ⟨hi', rfl⟩ := List.getElem?_eq_some_iff.mp hm'
  rcases Nat.lt_trichotomy i i' with hlt | heq | hgt
  · exact absurd rfl (hdistinct i i' hi hi' hlt r (by simp [hfin]) r (by simp [hfin']))
  · exact heq
  · exact absurd rfl (hdistinct i' i hi' hi hgt r (by simp [hfin']) r (by simp [hfin]))

/-! ## Calls that revert -/

/-- The call reaches a token call that reverts: the burn of a submission, or a mint of a
finalization. -/
def TokenCallReverts (self : Address) (w : World) (tx : Tx Call) : Prop :=
  match tx.call with
  | .submitCheckpoint _ _ _ _ _ _ energySpent =>
      0 < energySpent ∧ w.energy.burnFrom self tx.sender (energySpent.setWidth 256) = none
  | .finalizeCheckpoint _ r =>
      let sub := w.ledger.submission r
      w.energy.mint self sub.miner (sub.energySpent.setWidth 256) = none ∨
        w.core.mint self sub.miner (sub.energySpent.setWidth 256 * corePerEnergy) = none
  | _ => False

theorem step_of_tokenCallReverts {tx : Tx Call} (h : TokenCallReverts self w tx) :
    TrainingLedger.step self w tx = none := by
  obtain ⟨sender, call⟩ := tx
  cases hstep : TrainingLedger.step self w ⟨sender, call⟩ with
  | none => rfl
  | some w' =>
      exfalso
      cases call with
      | submitCheckpoint seasons c e r mb loss es =>
          obtain ⟨hpos, hnone⟩ := h
          obtain ⟨hburn, -, -⟩ := submitCheckpoint_cases hstep
          rw [burnSpent, if_pos hpos, hnone] at hburn
          cases hburn
      | finalizeCheckpoint v r =>
          obtain ⟨henergy, hcore⟩ := finalizeCheckpoint_mints hstep
          rcases h with hnone | hnone
          · rw [hnone] at henergy
            cases henergy
          · rw [hnone] at hcore
            cases hcore
      | rewardMiner => exact h
      | energy => exact h
      | core => exact h

/-! ## Every run -/

/-- Who paid for a finalization: a call by the rewarded miner that burned what is paid out. -/
theorem Booked.payer (hw : Booked w tr) (h : tr[i]?.bind finalization = some (r, sub)) :
    ∃ j m, tr[j]? = some m ∧ m.call.sender = sub.miner ∧ Burned m sub ∧ Pays tr r sub j i := by
  obtain ⟨j, hj⟩ := hw.paid i r sub h
  obtain ⟨m, hm, hsub⟩ := Option.bind_eq_some_iff.mp hj.submission.submission
  have hmem : m ∈ tr := List.mem_of_mem_take (List.mem_of_getElem? hm)
  have hsender : m.call.sender = sub.miner := by
    unfold submitted at hsub
    split at hsub
    · cases hsub
      rfl
    · cases hsub
  refine ⟨j, m, ?_, hsender, hw.burned m hmem r sub hsub, hj⟩
  have hlt : j < (tr.take i).length := (List.getElem?_eq_some_iff.mp hm).1
  rw [List.length_take] at hlt
  rw [List.getElem?_take_of_lt (by omega)] at hm
  exact hm

/-- **Every run of the ledger**, whatever is called by whom and in whatever order:

a root is finalized at most once; the finalized epochs of a creature are `0, 1, …, n - 1` and
`nextEpoch` is `n`; a finalization mints the ENERGY and the CORE of its submission to the miner, who
burned that ENERGY in the latest submission for the root, and no submission is paid twice; and a
call that is refused anywhere, also by a token, changes nothing. -/
theorem every_run_booked (self : Address) (energy : Energy) (core : Core) (txs : List (Tx Call)) :
    ((finalizations (moves self energy core txs)).map Prod.fst).Nodup ∧
    (∀ c, epochs c (moves self energy core txs) =
        List.range (epochs c (moves self energy core txs)).length ∧
      ((run self energy core txs).ledger.nextEpoch c).toNat =
        (epochs c (moves self energy core txs)).length) ∧
    (∀ i m r sub, (moves self energy core txs)[i]? = some m → finalization m = some (r, sub) →
      Rewarded m sub ∧ ∃ j m', (moves self energy core txs)[j]? = some m' ∧
        m'.call.sender = sub.miner ∧ Burned m' sub ∧ Pays (moves self energy core txs) r sub j i) ∧
    (∀ j i i' r r' sub sub', Pays (moves self energy core txs) r sub j i →
      Pays (moves self energy core txs) r' sub' j i' → i = i') ∧
    ∀ w tx, step self w tx = none ∨ TokenCallReverts self w tx → revert (step self) w tx = w := by
  have hw := run_booked self energy core txs
  refine ⟨hw.once, ?_, ?_, ?_, ?_⟩
  · intro c
    have hepochs := hw.epochs c
    have hlength : (epochs c (moves self energy core txs)).length =
        ((run self energy core txs).ledger.nextEpoch c).toNat := by
      rw [hepochs, List.length_range]
    exact ⟨by rw [hlength]; exact hepochs, hlength.symm⟩
  · intro i m r sub hm hfin
    refine ⟨hw.rewarded m (List.mem_of_getElem? hm) r sub hfin, ?_⟩
    apply hw.payer
    rw [hm]
    exact hfin
  · intro j i i' r r' sub sub' h h'
    -- call `j` submits for one root, and that root is finalized once
    obtain ⟨m, hm, hsub⟩ := Option.bind_eq_some_iff.mp h.submission.submission
    obtain ⟨m', hm', hsub'⟩ := Option.bind_eq_some_iff.mp h'.submission.submission
    have hj := (List.getElem?_eq_some_iff.mp hm).1
    have hj' := (List.getElem?_eq_some_iff.mp hm').1
    rw [List.length_take] at hj hj'
    rw [List.getElem?_take_of_lt (by omega)] at hm hm'
    rw [hm] at hm'
    cases hm'
    rw [hsub] at hsub'
    cases hsub'
    exact hw.place_unique h.finalization h'.finalization
  · rintro w tx (h | h)
    · exact revert_none h
    · exact revert_none (step_of_tokenCallReverts h)

/-! ## Who is rewarded -/

/-- Call `k` is the first submission for `r` in the history, of the checkpoint `sub`. -/
structure FirstFor (tr : List (Move World (Tx Call))) (r : Bytes32) (sub : Submission) (k : Nat) :
    Prop where
  submission : tr[k]?.bind submitted = some (r, sub)
  first : ∀ k', k' < k → ∀ other, tr[k']?.bind submitted ≠ some (r, other)

/-- Every finalization rewards the sender of the first submission for its root, for that very
checkpoint. -/
def PaysFirst (tr : List (Move World (Tx Call))) : Prop :=
  ∀ (i : Nat) (r : Bytes32) (sub : Submission), tr[i]?.bind finalization = some (r, sub) →
    ∀ (k : Nat) (first : Submission), FirstFor tr r first k →
    sub.miner = first.miner ∧ sub.creatureId = first.creatureId ∧ sub.epochId = first.epochId ∧
      sub.loss = first.loss

/-- **The latest submission wins.** In every run a finalization pays for the latest submission of
its root: its sender is rewarded, for its creature, epoch and loss. So the sender of the first
submission is rewarded if no other account has submitted for the root since. -/
theorem paid_to_latest (self : Address) (energy : Energy) (core : Core) (txs : List (Tx Call))
    (i : Nat) (r : Bytes32) (sub : Submission)
    (hfin : (moves self energy core txs)[i]?.bind finalization = some (r, sub)) :
    (∃ j m', (moves self energy core txs)[j]? = some m' ∧ m'.call.sender = sub.miner ∧
      Pays (moves self energy core txs) r sub j i) ∧
    (∀ m ∈ (moves self energy core txs)[i]?, Rewarded m sub) ∧
    ∀ k first, FirstFor ((moves self energy core txs).take i) r first k →
      (∀ k' other, k < k' → ((moves self energy core txs).take i)[k']?.bind submitted =
        some (r, other) → other.miner = first.miner) → sub.miner = first.miner := by
  have hw := run_booked self energy core txs
  obtain ⟨j, m', hm', hsender, -, hpays⟩ := hw.payer hfin
  refine ⟨⟨j, m', hm', hsender, hpays⟩, ?_, ?_⟩
  · intro m hm
    refine hw.rewarded m (List.mem_of_getElem? hm) r sub ?_
    rw [Option.mem_def] at hm
    rw [hm] at hfin
    exact hfin
  · intro k first hk hothers
    have hj := hpays.submission
    rcases Nat.lt_trichotomy j k with hlt | rfl | hgt
    · exact absurd hj.submission (hk.first j hlt sub)
    · have hsame := hj.submission
      rw [hk.submission] at hsame
      cases hsame
      rfl
    · exact hothers j sub hgt hj.submission

/-- Accounts 7 and 8 submit for root 100, 8 last; then it is finalized. -/
def overtaken : List (Tx Call) :=
  [⟨7, .submitCheckpoint none 1 0 100 32 9 0⟩, ⟨8, .submitCheckpoint none 1 0 100 32 5 0⟩,
    ⟨7, .finalizeCheckpoint true 100⟩]

theorem paid_to_latest_overtaken :
    ∃ j m', (moves 50 (Energy.deploy 50) (Core.deploy 50) overtaken)[j]? = some m' ∧
      m'.call.sender = 8 ∧
      Pays (moves 50 (Energy.deploy 50) (Core.deploy 50) overtaken) 100 ⟨1, 0, 8, 5, 0⟩ j 2 :=
  (paid_to_latest 50 (Energy.deploy 50) (Core.deploy 50) overtaken 2 100 ⟨1, 0, 8, 5, 0⟩
    (by decide +kernel)).1

/-- Account 8 takes the pending checkpoint of account 7 over. -/
theorem overtaken_pays_last :
    ¬ PaysFirst (moves 50 (Energy.deploy 50) (Core.deploy 50) overtaken) := by
  intro h
  have hfirst : FirstFor (moves 50 (Energy.deploy 50) (Core.deploy 50) overtaken) 100
      ⟨1, 0, 7, 9, 0⟩ 0 := ⟨by decide +kernel, by simp⟩
  have hpaid := h 2 100 ⟨1, 0, 8, 5, 0⟩ (by decide +kernel) 0 _ hfirst
  exact absurd hpaid.1 (by decide)

/-! ## ENERGY in and out

The potential of the accounting: what the unfinalized records could still be paid. -/

/-- What a root may still be paid. -/
def owed (finalized : Bool) (sub : Submission) : Nat :=
  if finalized then 0 else sub.energySpent.toNat

/-- What all roots may still be paid. A sum over all words: never to be unfolded by accident. -/
@[irreducible] def outstanding (l : TrainingLedger) : Nat :=
  ∑ r, owed (l.finalized r) (l.submission r)

theorem outstanding_eq (l : TrainingLedger) :
    outstanding l = ∑ r, owed (l.finalized r) (l.submission r) := by
  unfold outstanding
  rfl

theorem outstanding_deploy : outstanding deploy = 0 := by
  rw [outstanding_eq]
  exact Finset.sum_eq_zero fun _ _ => rfl

theorem owed_le (finalized : Bool) (sub : Submission) :
    owed finalized sub ≤ sub.energySpent.toNat := by
  cases finalized with
  | true => exact Nat.zero_le _
  | false => exact Nat.le_refl _

/-- A submission adds at most its own ENERGY: what it overwrites is given up. -/
theorem outstanding_submit (l : TrainingLedger) (r : Bytes32) (sub : Submission) :
    outstanding { l with submission := Function.update l.submission r sub } ≤
      outstanding l + sub.energySpent.toNat := by
  have hsum := sum_update (fun q => owed (l.finalized q)) l.submission r sub
  have hle := owed_le (l.finalized r) sub
  rw [outstanding_eq, outstanding_eq]
  calc _ ≤ _ := Nat.le_add_right _ _
    _ = _ := hsum
    _ ≤ _ := Nat.add_le_add_left hle _

/-- A finalization gives up what its root was owed. -/
theorem outstanding_finalize {l l' : TrainingLedger} {r : Bytes32} (hopen : l.finalized r = false)
    (hfin : l'.finalized = Function.update l.finalized r true)
    (hsub : l'.submission = l.submission) :
    outstanding l' + (l.submission r).energySpent.toNat = outstanding l := by
  have hsum := sum_update (fun q b => owed b (l.submission q)) l.finalized r true
  have hgone : owed true (l.submission r) = 0 := rfl
  have howed : owed (l.finalized r) (l.submission r) = (l.submission r).energySpent.toNat := by
    rw [hopen]
    rfl
  rw [hgone, Nat.add_zero, howed] at hsum
  rw [outstanding_eq, outstanding_eq, hfin, hsub]
  exact hsum

/-- The ENERGY a call of the ledger brought into being. A call on a token is not the ledger's. -/
def mintedBy (m : Move World (Tx Call)) : Nat :=
  match m.call.call with
  | .energy _ => 0
  | .core _ => 0
  | _ => m.post.energy.totalSupply.toNat - m.pre.energy.totalSupply.toNat

/-- The ENERGY a call of the ledger destroyed. -/
def burnedBy (m : Move World (Tx Call)) : Nat :=
  match m.call.call with
  | .energy _ => 0
  | .core _ => 0
  | _ => m.pre.energy.totalSupply.toNat - m.post.energy.totalSupply.toNat

def minted (tr : List (Move World (Tx Call))) : Nat := (tr.map mintedBy).sum

def burned (tr : List (Move World (Tx Call))) : Nat := (tr.map burnedBy).sum

/-- The call mints ENERGY through `rewardMiner`. -/
def RewardsOutright (m : Move World (Tx Call)) : Prop :=
  match m.call.call with
  | .rewardMiner _ amount => 0 < amount
  | _ => False

/-- The call finalizes a checkpoint the verifier confirmed. -/
def Confirmed (m : Move World (Tx Call)) : Prop :=
  ∃ r, m.call.call = .finalizeCheckpoint true r

/-- **One accepted call** without an outright reward: what it mints and what it leaves owed are
covered by what was owed and what it burns, and it mints for confirmed checkpoints alone. -/
theorem step_covered {tx : Tx Call} (h : step self w tx = some w')
    (hok : ¬ RewardsOutright ⟨w, tx, w'⟩) :
    mintedBy ⟨w, tx, w'⟩ + outstanding w'.ledger ≤
        burnedBy ⟨w, tx, w'⟩ + outstanding w.ledger ∧
      (0 < mintedBy ⟨w, tx, w'⟩ → Confirmed ⟨w, tx, w'⟩) := by
  obtain ⟨sender, call⟩ := tx
  cases call with
  | submitCheckpoint seasons c e r mb loss es =>
      obtain ⟨hburn, -, hledger⟩ := submitCheckpoint_cases h
      have hsupply := (burnSpent_issues hburn).2.supply
      have hout := outstanding_submit w.ledger r ⟨c, e, sender, loss, es⟩
      rw [← hledger] at hout
      simp only [mintedBy, burnedBy]
      simp only at hout
      exact ⟨by omega, fun hpos => by omega⟩
  | rewardMiner miner amount =>
      obtain ⟨hmint, -, hledger⟩ := rewardMiner_cases h
      have hsupply := (Energy.mint_issues hmint).2.supply
      have hzero : amount.toNat = 0 := by
        simp only [RewardsOutright, BitVec.lt_def] at hok
        have h0 : (0 : U256).toNat = 0 := rfl
        omega
      simp only [mintedBy, burnedBy, hledger]
      exact ⟨by omega, fun hpos => by omega⟩
  | finalizeCheckpoint v r =>
      obtain ⟨hopen, rfl, -, -, -, epoch, -, hledger⟩ := finalizeCheckpoint_cases h
      obtain ⟨hmint, -⟩ := finalizeCheckpoint_mints h
      have hsupply := (Energy.mint_issues hmint).2.supply
      rw [toNat_widen] at hsupply
      have hout : outstanding w'.ledger + (w.ledger.submission r).energySpent.toNat =
          outstanding w.ledger :=
        outstanding_finalize hopen (by rw [hledger]) (by rw [hledger])
      simp only [mintedBy, burnedBy]
      exact ⟨by omega, fun _ => ⟨r, rfl⟩⟩
  | energy call =>
      obtain ⟨_, _, rfl⟩ := Option.map_eq_some_iff.mp h
      refine ⟨?_, fun hpos => absurd hpos (Nat.lt_irrefl 0)⟩
      simp only [mintedBy, burnedBy, Nat.le_refl]
  | core call =>
      obtain ⟨_, _, rfl⟩ := Option.map_eq_some_iff.mp h
      refine ⟨?_, fun hpos => absurd hpos (Nat.lt_irrefl 0)⟩
      simp only [mintedBy, burnedBy, Nat.le_refl]

/-- An outright reward is a mint that no checkpoint stands behind. -/
theorem step_outright {tx : Tx Call} (h : step self w tx = some w')
    (hbad : RewardsOutright ⟨w, tx, w'⟩) :
    0 < mintedBy ⟨w, tx, w'⟩ ∧ ¬ Confirmed ⟨w, tx, w'⟩ := by
  obtain ⟨sender, call⟩ := tx
  cases call with
  | rewardMiner miner amount =>
      obtain ⟨hmint, -, -⟩ := rewardMiner_cases h
      have hsupply := (Energy.mint_issues hmint).2.supply
      have hpos : 0 < amount.toNat := hbad
      refine ⟨?_, ?_⟩
      · simp only [mintedBy]
        omega
      · rintro ⟨r, hr⟩
        cases hr
  | submitCheckpoint => exact absurd hbad id
  | finalizeCheckpoint => exact absurd hbad id
  | energy => exact absurd hbad id
  | core => exact absurd hbad id

theorem minted_concat (tr : List (Move World (Tx Call))) (m : Move World (Tx Call)) :
    minted (tr ++ [m]) = minted tr + mintedBy m := by
  simp [minted]

theorem burned_concat (tr : List (Move World (Tx Call))) (m : Move World (Tx Call)) :
    burned (tr ++ [m]) = burned tr + burnedBy m := by
  simp [burned]

/-- At every moment the ledger has minted at most what it burned. -/
def NeverOverdrawn (tr : List (Move World (Tx Call))) : Prop :=
  ∀ n, minted (tr.take n) ≤ burned (tr.take n)

theorem NeverOverdrawn.concat (h : NeverOverdrawn tr)
    (hm : minted (tr ++ [m]) ≤ burned (tr ++ [m])) : NeverOverdrawn (tr ++ [m]) := by
  intro n
  rcases Nat.lt_or_ge tr.length n with hlt | hge
  · rw [List.take_of_length_le (by simp; omega)]
    exact hm
  · rw [List.take_append_of_le_length hge]
    exact h n

/-- **When the ENERGY balance holds.** In a run the ledger never mints more than it has burned, and
mints for confirmed checkpoints only, if and only if nobody is rewarded through `rewardMiner`. -/
theorem minted_le_burned_iff (self : Address) (energy : Energy) (core : Core)
    (txs : List (Tx Call)) :
    (NeverOverdrawn (moves self energy core txs) ∧
        ∀ m ∈ moves self energy core txs, 0 < mintedBy m → Confirmed m) ↔
      ∀ m ∈ moves self energy core txs, ¬ RewardsOutright m := by
  constructor
  · rintro ⟨-, hconfirmed⟩ m hm hbad
    obtain ⟨hpos, hnot⟩ := step_outright (step_of_mem_trace hm) hbad
    exact hnot (hconfirmed m hm hpos)
  · intro hok
    let P (w : World) (tr : List (Move World (Tx Call))) : Prop :=
      NeverOverdrawn tr ∧ minted tr + outstanding w.ledger ≤ burned tr ∧
        ∀ m ∈ tr, 0 < mintedBy m → Confirmed m
    have hrun : P (run self energy core txs) (moves self energy core txs) := by
      refine trace_induction (fun m => ¬ RewardsOutright m) P ?_ ?_ txs hok
      · refine ⟨fun n => by simp [minted], ?_, by simp⟩
        rw [outstanding_deploy]
        exact Nat.le_refl 0
      · rintro w tr tx w' ⟨hnever, hcovered, hconfirmed⟩ h hm
        obtain ⟨hstep, hmint⟩ := step_covered h hm
        have hnow : minted (tr ++ [⟨w, tx, w'⟩]) + outstanding w'.ledger ≤
            burned (tr ++ [⟨w, tx, w'⟩]) := by
          rw [minted_concat, burned_concat]
          omega
        refine ⟨hnever.concat (by omega), hnow, ?_⟩
        intro m hmem
        rcases List.mem_append.mp hmem with hold | hnew
        · exact hconfirmed m hold
        · rw [List.mem_singleton.mp hnew]
          exact hmint
    exact ⟨hrun.1, hrun.2.2⟩

/-- The ledger at 50, admin of a fresh ENERGY token, is asked to reward account 7 with 5. -/
theorem reward_without_burn :
    ¬ NeverOverdrawn (moves 50 (Energy.deploy 50) (Core.deploy 50) [⟨7, .rewardMiner 7 5⟩]) := by
  intro h
  exact absurd (h 1) (by decide +kernel)

end TrainingLedger

end ChainBeasts.Contracts
