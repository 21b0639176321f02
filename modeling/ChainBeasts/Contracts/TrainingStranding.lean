import ChainBeasts.Contracts.TokenLaws
import ChainBeasts.Contracts.TrainingRewards

/-! # When a checkpoint cannot be finalized

A finalization ends in two mints, and the CORE token refuses to grow beyond its cap: a checkpoint
whose reward is past the cap reverts after every check of the ledger has passed. The ledger never
burns CORE, so the room under the cap only shrinks and such a record is refused for good
(`refused_of_past_cap`). Its creature is not lost, for anybody may replace the record by one that
spends nothing (`finalized_after_renewal`). -/

namespace ChainBeasts.Contracts

open ChainBeasts.Evm ChainBeasts.Machine

/-! ## Calls by somebody else than the admin -/

theorem Energy.step_outsider {s s' : Energy} {sender : Address} {call : Energy.Call}
    (hsender : sender ≠ s.admin) (h : s.step sender call = some s') : s'.admin = s.admin := by
  cases call with
  | setAdmin newAdmin => exact absurd (setAdmin_cases h).1 hsender
  | mint toAddr amount => exact absurd (mint_admin h) hsender
  | burnFrom src amount => exact absurd (burnFrom_cases h).1 hsender
  | spend amount =>
      obtain ⟨_, _, _, _, rfl⟩ := spend_cases h
      rfl
  | transfer toAddr amount =>
      obtain ⟨_, _, _, _, rfl⟩ := transfer_cases h
      rfl

/-- Without its admin the token keeps both its admin and its supply. -/
theorem Core.step_outsider {s s' : Core} {sender : Address} {call : Core.Call}
    (hsender : sender ≠ s.admin) (h : s.step sender call = some s') :
    s'.admin = s.admin ∧ s'.totalSupply = s.totalSupply := by
  cases call with
  | setAdmin newAdmin => simp [step, setAdmin, require, hsender] at h
  | mint toAddr amount => exact absurd (mint_checks h).1 hsender
  | burnFrom src amount => simp [step, burnFrom, require, hsender] at h
  | approve spender amount =>
      obtain rfl := Option.some.inj h
      exact ⟨rfl, rfl⟩
  | transfer toAddr amount =>
      obtain ⟨_, _, _, _, rfl⟩ := transfer_eq_some.mp h
      exact ⟨rfl, rfl⟩
  | transferFrom src toAddr amount =>
      obtain ⟨_, _, _, _, _, _, rfl⟩ := transferFrom_cases h
      exact ⟨rfl, rfl⟩

namespace TrainingLedger

variable {self : Address} {w w' : World} {r : Bytes32}

/-! ## The ledger as admin -/

/-- The ledger at `ledger` is the admin of both tokens, which keep their laws. -/
structure Administered (ledger : Address) (w : World) : Prop where
  energyAdmin : w.energy.admin = ledger
  coreAdmin : w.core.admin = ledger
  energy : w.energy.Conserved
  core : w.core.Conserved
  capped : w.core.totalSupply ≤ Core.cap

/-- A call of somebody else leaves the ledger the admin, and no less CORE. -/
theorem Administered.step {tx : Tx Call} (hw : Administered self w) (hsender : tx.sender ≠ self)
    (h : step self w tx = some w') :
    Administered self w' ∧ w.core.totalSupply ≤ w'.core.totalSupply := by
  obtain ⟨sender, call⟩ := tx
  cases call with
  | submitCheckpoint seasons c e r mb loss es =>
      obtain ⟨hburn, hcore, -⟩ := submitCheckpoint_cases h
      have hconserved : w'.energy.Conserved := by
        unfold burnSpent at hburn
        split at hburn
        · exact hw.energy.burnFrom hburn
        · exact Option.some.inj hburn ▸ hw.energy
      have hadmin := (burnSpent_issues hburn).1
      rw [hcore]
      exact ⟨⟨hadmin.trans hw.energyAdmin, hcore ▸ hw.coreAdmin, hconserved, hcore ▸ hw.core,
        hcore ▸ hw.capped⟩, BitVec.le_refl _⟩
  | rewardMiner miner amount =>
      obtain ⟨hmint, hcore, -⟩ := rewardMiner_cases h
      have hadmin := (Energy.mint_issues hmint).1
      rw [hcore]
      exact ⟨⟨hadmin.trans hw.energyAdmin, hcore ▸ hw.coreAdmin, hw.energy.mint hmint,
        hcore ▸ hw.core, hcore ▸ hw.capped⟩, BitVec.le_refl _⟩
  | finalizeCheckpoint v r =>
      obtain ⟨henergy, hcore⟩ := finalizeCheckpoint_mints h
      have hadmin := (Energy.mint_issues henergy).1
      obtain ⟨balanceOf, totalSupply, -, hsupply, hminted⟩ := Core.mint_cases hcore
      refine ⟨⟨hadmin.trans hw.energyAdmin, ?_, hw.energy.mint henergy, hw.core.mint hcore,
        (Core.mint_checks hcore).2⟩, ?_⟩
      · rw [hminted]
        exact hw.coreAdmin
      · rw [hminted, BitVec.le_def]
        show w.core.totalSupply.toNat ≤ totalSupply.toNat
        omega
  | energy call =>
      obtain ⟨energy, hstep, rfl⟩ := Option.map_eq_some_iff.mp h
      have houtsider : sender ≠ w.energy.admin := hw.energyAdmin ▸ hsender
      have hadmin := Energy.step_outsider houtsider hstep
      exact ⟨⟨hadmin.trans hw.energyAdmin, hw.coreAdmin, hw.energy.step hstep, hw.core,
        hw.capped⟩, BitVec.le_refl _⟩
  | core call =>
      obtain ⟨core, hstep, rfl⟩ := Option.map_eq_some_iff.mp h
      have houtsider : sender ≠ w.core.admin := hw.coreAdmin ▸ hsender
      obtain ⟨hadmin, hsupply⟩ := Core.step_outsider houtsider hstep
      exact ⟨⟨hw.energyAdmin, hadmin.trans hw.coreAdmin, hw.energy, hw.core.step hstep,
        Core.step_capped hw.capped hstep⟩, BitVec.le_of_eq hsupply.symm⟩

/-- After any calls of others the ledger is still the admin, and there is no less CORE. -/
theorem Administered.exec {txs : List (Tx Call)} (hw : Administered self w)
    (hsenders : ∀ tx ∈ txs, tx.sender ≠ self) :
    Administered self (Machine.exec (revert (TrainingLedger.step self)) w txs) ∧
      w.core.totalSupply ≤
        (Machine.exec (revert (TrainingLedger.step self)) w txs).core.totalSupply := by
  refine trace_induction (fun m : Move World (Tx Call) => m.call.sender ≠ self)
    (fun w' _ => Administered self w' ∧ w.core.totalSupply ≤ w'.core.totalSupply)
    ⟨hw, BitVec.le_refl _⟩ ?_ txs fun m hm => hsenders _ (mem_of_mem_trace hm)
  intro w' _ tx w'' hw' hstep hsender
  obtain ⟨hkept, hmore⟩ := hw'.1.step hsender hstep
  exact ⟨hkept, BitVec.le_trans hw'.2 hmore⟩

/-- From any states of the two tokens in which the ledger has become their admin. -/
theorem administered_run {energyAdmin coreAdmin : Address} {energyTxs : List (Tx Energy.Call)}
    {coreTxs : List (Tx Core.Call)} {txs : List (Tx Call)}
    (henergy : (Energy.run energyAdmin energyTxs).admin = self)
    (hcore : (Core.run coreAdmin coreTxs).admin = self) (hsenders : ∀ tx ∈ txs, tx.sender ≠ self) :
    Administered self
      (run self (Energy.run energyAdmin energyTxs) (Core.run coreAdmin coreTxs) txs) := by
  have hstart : Administered self
      ⟨deploy, Energy.run energyAdmin energyTxs, Core.run coreAdmin coreTxs⟩ :=
    ⟨henergy, hcore, Energy.run_conserved _ _, Core.run_conserved _ _, Core.run_capped _ _⟩
  exact (hstart.exec hsenders).1

/-! ## One finalization -/

/-- The record of `r` has passed, or would pass, every check of the ledger on a confirmed root. -/
structure Pending (w : World) (r : Bytes32) : Prop where
  unfinalized : w.ledger.finalized r = false
  recorded : (w.ledger.submission r).miner ≠ zeroAddress
  next : (w.ledger.submission r).epochId = w.ledger.nextEpoch (w.ledger.submission r).creatureId
  loss : w.ledger.lastLoss (w.ledger.submission r).creatureId = 0 ∨
    (w.ledger.submission r).loss ≤ w.ledger.lastLoss (w.ledger.submission r).creatureId

instance (w : World) (r : Bytes32) : Decidable (Pending w r) :=
  decidable_of_iff (w.ledger.finalized r = false ∧
      (w.ledger.submission r).miner ≠ zeroAddress ∧
      (w.ledger.submission r).epochId =
        w.ledger.nextEpoch (w.ledger.submission r).creatureId ∧
      (w.ledger.lastLoss (w.ledger.submission r).creatureId = 0 ∨
        (w.ledger.submission r).loss ≤ w.ledger.lastLoss (w.ledger.submission r).creatureId))
    ⟨fun ⟨h₁, h₂, h₃, h₄⟩ => ⟨h₁, h₂, h₃, h₄⟩, fun ⟨h₁, h₂, h₃, h₄⟩ => ⟨h₁, h₂, h₃, h₄⟩⟩

/-- The CORE supply after the reward of `energySpent`. -/
def rewardedSupply (w : World) (energySpent : U32) : Nat :=
  w.core.totalSupply.toNat + energySpent.toNat * 10 ^ 18

/-- There is room for both rewards and for the number of the next epoch. -/
def HasRoom (w : World) (sub : Submission) : Prop :=
  rewardedSupply w sub.energySpent ≤ Core.cap.toNat ∧
    w.energy.totalSupply.toNat + sub.energySpent.toNat < 2 ^ 256 ∧
    sub.epochId.toNat + 1 < 2 ^ 256

theorem hasRoom_of_finalized {v : Bool} (h : finalizeCheckpoint self w v r = some w') :
    HasRoom w (w.ledger.submission r) := by
  obtain ⟨-, -, -, -, -, epoch, hepoch, -⟩ := finalizeCheckpoint_cases h
  obtain ⟨henergy, hcore⟩ := finalizeCheckpoint_mints h
  have hsupply := (Energy.mint_issues henergy).2.supply
  have hcap := (Core.mint_checks hcore).2
  obtain ⟨balanceOf, totalSupply, -, hraised, hminted⟩ := Core.mint_cases hcore
  rw [toNat_widen] at hsupply
  rw [toNat_coreReward] at hraised
  rw [hminted, BitVec.le_def] at hcap
  refine ⟨?_, ?_, ?_⟩
  · show w.core.totalSupply.toNat + _ ≤ _
    rw [← hraised]
    exact hcap
  · rw [← hsupply]
    exact w'.energy.totalSupply.isLt
  · rw [← hepoch]
    exact epoch.isLt

theorem exists_finalize (hw : Administered self w) (hpending : Pending w r)
    (hroom : HasRoom w (w.ledger.submission r)) :
    ∃ w', finalizeCheckpoint self w true r = some w' := by
  obtain ⟨hcap, hfit, hepochs⟩ := hroom
  have hepoch : ∃ epoch, checkedAdd (w.ledger.submission r).epochId 1#256 = some epoch :=
    exists_checkedAdd hepochs
  have henergy : ∃ energy, w.energy.mint self (w.ledger.submission r).miner
      ((w.ledger.submission r).energySpent.setWidth 256) = some energy := by
    apply hw.energy.exists_mint hw.energyAdmin.symm
    rw [toNat_widen]
    exact hfit
  have hcore : ∃ core, w.core.mint self (w.ledger.submission r).miner
      ((w.ledger.submission r).energySpent.setWidth 256 * corePerEnergy) = some core := by
    apply hw.core.exists_mint hw.coreAdmin.symm
    rw [toNat_coreReward]
    exact hcap
  obtain ⟨epoch, hepoch⟩ := hepoch
  obtain ⟨energy, henergy⟩ := henergy
  obtain ⟨core, hcore⟩ := hcore
  obtain ⟨hopen, hrecorded, hnext, hloss⟩ := hpending
  have hloss' : w.ledger.lastLoss (w.ledger.submission r).creatureId = 0#32 ∨
      (w.ledger.submission r).loss ≤ w.ledger.lastLoss (w.ledger.submission r).creatureId := hloss
  simp [finalizeCheckpoint, require, hopen, hrecorded, ← hnext, hloss', hepoch, henergy, hcore]

/-! ## For good -/

/-- **Past the cap.** A record whose reward does not fit under the cap is refused in every later
state it is still in. -/
theorem refused_of_past_cap {later : List (Tx Call)} (hw : Administered self w)
    (hsenders : ∀ tx ∈ later, tx.sender ≠ self)
    (hpast : Core.cap.toNat < rewardedSupply w (w.ledger.submission r).energySpent)
    (hkept : (exec (revert (step self)) w later).ledger.submission r = w.ledger.submission r)
    (v : Bool) : finalizeCheckpoint self (exec (revert (step self)) w later) v r = none := by
  cases hfin : finalizeCheckpoint self (exec (revert (step self)) w later) v r with
  | none => rfl
  | some w' =>
      have hcap := (hasRoom_of_finalized hfin).1
      have hmore := BitVec.le_def.mp (hw.exec hsenders).2
      rw [hkept] at hcap
      unfold rewardedSupply at hcap hpast
      omega

/-- The same checkpoint once more, with no ENERGY spent, and its finalization. -/
def renewal (seasons : Option U256) (sender : Address) (r : Bytes32) (sub : Submission) :
    List (Tx Call) :=
  [⟨sender, .submitCheckpoint seasons sub.creatureId sub.epochId r 0 sub.loss 0⟩,
    ⟨sender, .finalizeCheckpoint true r⟩]

/-- **Not stranded.** Anybody can have the creature's next epoch finalized on the same root. -/
theorem finalized_after_renewal {sender : Address} (hw : Administered self w)
    (hpending : Pending w r) (hepochs : (w.ledger.submission r).epochId.toNat + 1 < 2 ^ 256)
    (hsender : sender ≠ zeroAddress) (seasons : Option U256) :
    (exec (revert (step self)) w
      (renewal seasons sender r (w.ledger.submission r))).ledger.finalized r = true := by
  obtain ⟨hopen, hrecorded, hnext, hloss⟩ := hpending
  let sub : Submission := ⟨(w.ledger.submission r).creatureId, (w.ledger.submission r).epochId,
    sender, (w.ledger.submission r).loss, 0⟩
  let renewed : World :=
    { w with ledger := { w.ledger with submission := Function.update w.ledger.submission r sub } }
  have hsubmit : step self w ⟨sender, .submitCheckpoint seasons sub.creatureId sub.epochId r 0
      sub.loss 0⟩ = some renewed := by
    have hsmall : (0 : U32).setWidth 256 ≤ maxBytes seasons := Nat.zero_le _
    simp only [step, submitCheckpoint, require, if_pos hsmall, burnSpent]
    rfl
  have hsame : renewed.ledger.submission r = sub := Function.update_self ..
  have hpending' : Pending renewed r := by
    refine ⟨hopen, ?_, ?_, ?_⟩
    · rw [hsame]
      exact hsender
    · rw [hsame]
      exact hnext
    · rw [hsame]
      exact hloss
  have hroom : HasRoom renewed (renewed.ledger.submission r) := by
    have hnothing : sub.energySpent.toNat = 0 := rfl
    rw [hsame]
    refine ⟨?_, ?_, hepochs⟩
    · rw [rewardedSupply, hnothing, Nat.zero_mul]
      exact BitVec.le_def.mp hw.capped
    · rw [hnothing]
      exact w.energy.totalSupply.isLt
  have hw' : Administered self renewed :=
    ⟨hw.energyAdmin, hw.coreAdmin, hw.energy, hw.core, hw.capped⟩
  obtain ⟨w', hfin⟩ := exists_finalize hw' hpending' hroom
  obtain ⟨-, -, -, -, -, _, -, hledger⟩ := finalizeCheckpoint_cases hfin
  unfold renewal
  rw [exec_cons, revert_some hsubmit, exec_cons, revert_some hfin, exec_nil, hledger]
  exact Function.update_self ..

/-- **What can be finalized.** In every state the ledger reaches as the admin of both tokens, a
confirmed root whose record passes the ledger's checks can be finalized if and only if both rewards
fit, the CORE reward under the cap. Past the cap the record is refused as long as it stands, but
anybody who spends nothing can take the creature on from there. -/
theorem finalizable_iff (self energyAdmin coreAdmin : Address) (energyTxs : List (Tx Energy.Call))
    (coreTxs : List (Tx Core.Call)) (txs : List (Tx Call)) (r : Bytes32)
    (henergy : (Energy.run energyAdmin energyTxs).admin = self)
    (hcore : (Core.run coreAdmin coreTxs).admin = self) (hsenders : ∀ tx ∈ txs, tx.sender ≠ self) :
    let w := run self (Energy.run energyAdmin energyTxs) (Core.run coreAdmin coreTxs) txs
    let sub := w.ledger.submission r
    Pending w r →
      ((∃ w', finalizeCheckpoint self w true r = some w') ↔ HasRoom w sub) ∧
      (Core.cap.toNat < rewardedSupply w sub.energySpent →
        ∀ later : List (Tx Call), (∀ tx ∈ later, tx.sender ≠ self) →
          (exec (revert (step self)) w later).ledger.submission r = sub →
          ∀ v, finalizeCheckpoint self (exec (revert (step self)) w later) v r = none) ∧
      (sub.epochId.toNat + 1 < 2 ^ 256 → ∀ seasons sender, sender ≠ zeroAddress →
        (exec (revert (step self)) w (renewal seasons sender r sub)).ledger.finalized r = true) := by
  intro w sub hpending
  have hw : Administered self w := administered_run henergy hcore hsenders
  refine ⟨⟨?_, exists_finalize hw hpending⟩, ?_, ?_⟩
  · rintro ⟨w', hfin⟩
    exact hasRoom_of_finalized hfin
  · intro hpast later hlater hkept v
    exact refused_of_past_cap hw hlater hpast hkept v
  · intro hepochs seasons sender hsender
    exact finalized_after_renewal hw hpending hepochs hsender seasons

/-- Account 7 is rewarded with `10^9 + 1` ENERGY and spends it all on one checkpoint. -/
def spendthrift : List (Tx Call) :=
  [⟨7, .rewardMiner 7 1000000001⟩, ⟨7, .submitCheckpoint none 1 0 100 32 9 1000000001⟩]

theorem spendthrift_outsider : ∀ tx ∈ spendthrift, tx.sender ≠ 50 := by
  decide

theorem spendthrift_pending :
    Pending (run 50 (Energy.run 50 []) (Core.run 50 []) spendthrift) 100 := by
  decide +kernel

/-- A finalization of that checkpoint is not possible, a renewal by account 8 is. -/
theorem finalizable_iff_spendthrift :
    let w := run 50 (Energy.run 50 []) (Core.run 50 []) spendthrift
    (exec (revert (step 50)) w (renewal none 8 100 (w.ledger.submission 100))).ledger.finalized
      100 = true :=
  (finalizable_iff 50 50 50 [] [] spendthrift 100 rfl rfl spendthrift_outsider
    spendthrift_pending).2.2 (by decide +kernel) none 8 (by decide)

/-- The checkpoint of `spendthrift` passes all checks of the ledger, and no call of anybody gets it
finalized as it stands. -/
theorem spendthrift_refused :
    Pending (run 50 (Energy.run 50 []) (Core.run 50 []) spendthrift) 100 ∧
      ∀ later : List (Tx Call), (∀ tx ∈ later, tx.sender ≠ 50) →
        (exec (revert (step 50)) (run 50 (Energy.run 50 []) (Core.run 50 []) spendthrift)
          later).ledger.submission 100 =
            (run 50 (Energy.run 50 []) (Core.run 50 []) spendthrift).ledger.submission 100 →
        finalizeCheckpoint 50 (exec (revert (step 50))
          (run 50 (Energy.run 50 []) (Core.run 50 []) spendthrift) later) true 100 = none := by
  refine ⟨spendthrift_pending, ?_⟩
  intro later hlater hkept
  have hadmin : Administered 50 (run 50 (Energy.run 50 []) (Core.run 50 []) spendthrift) :=
    administered_run rfl rfl spendthrift_outsider
  have hpast : Core.cap.toNat < rewardedSupply
      (run 50 (Energy.run 50 []) (Core.run 50 []) spendthrift)
      ((run 50 (Energy.run 50 []) (Core.run 50 []) spendthrift).ledger.submission 100).energySpent := by
    decide +kernel
  exact refused_of_past_cap hadmin hlater hpast hkept true

end TrainingLedger

end ChainBeasts.Contracts
