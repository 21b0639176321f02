import ChainBeasts.Evm.Ledger
import ChainBeasts.Machine

/-! # The `Energy` and `Core` tokens

Both contracts keep a balance sheet, a total and an admin. `Core` adds allowances and the cap.
The events they emit are read by no contract and are left out. -/

namespace ChainBeasts.Contracts

open ChainBeasts.Evm ChainBeasts.Machine

/-! ## `Energy.sol` -/

structure Energy where
  admin : Address
  totalSupply : U256
  balanceOf : Address → U256

namespace Energy

/-- The constructor: the deployer is the admin. -/
def deploy (sender : Address) : Energy := ⟨sender, 0, fun _ => 0⟩

def setAdmin (s : Energy) (sender newAdmin : Address) : Option Energy := do
  require (sender = s.admin)
  return { s with admin := newAdmin }

def mint (s : Energy) (sender toAddr : Address) (amount : U256) : Option Energy := do
  require (sender = s.admin)
  let balanceOf ← credit s.balanceOf toAddr amount
  let totalSupply ← checkedAdd s.totalSupply amount
  return { s with balanceOf, totalSupply }

def burnFrom (s : Energy) (sender fromAddr : Address) (amount : U256) : Option Energy := do
  require (sender = s.admin)
  let balanceOf ← debit s.balanceOf fromAddr amount
  let totalSupply ← checkedSub s.totalSupply amount
  return { s with balanceOf, totalSupply }

def spend (s : Energy) (sender : Address) (amount : U256) : Option Energy := do
  let balanceOf ← debit s.balanceOf sender amount
  let totalSupply ← checkedSub s.totalSupply amount
  return { s with balanceOf, totalSupply }

def transfer (s : Energy) (sender toAddr : Address) (amount : U256) : Option Energy := do
  let debited ← debit s.balanceOf sender amount
  let balanceOf ← credit debited toAddr amount
  return { s with balanceOf }

/-- The external functions of the contract. -/
inductive Call where
  | setAdmin (newAdmin : Address)
  | mint (toAddr : Address) (amount : U256)
  | burnFrom (fromAddr : Address) (amount : U256)
  | spend (amount : U256)
  | transfer (toAddr : Address) (amount : U256)

def step (s : Energy) (sender : Address) : Call → Option Energy
  | .setAdmin newAdmin => s.setAdmin sender newAdmin
  | .mint toAddr amount => s.mint sender toAddr amount
  | .burnFrom fromAddr amount => s.burnFrom sender fromAddr amount
  | .spend amount => s.spend sender amount
  | .transfer toAddr amount => s.transfer sender toAddr amount

variable {s s' : Energy} {sender a : Address} {amount : U256}

theorem setAdmin_cases {newAdmin : Address} (h : s.setAdmin sender newAdmin = some s') :
    sender = s.admin ∧ s' = { s with admin := newAdmin } := by
  simp only [setAdmin, Option.bind_eq_bind, Option.bind_eq_some_iff, require_eq_some,
    Option.pure_def, Option.some.injEq] at h
  obtain ⟨_, hadmin, rfl⟩ := h
  exact ⟨hadmin, rfl⟩

theorem mint_cases (h : s.mint sender a amount = some s') :
    ∃ balanceOf totalSupply, sender = s.admin ∧ credit s.balanceOf a amount = some balanceOf ∧
      totalSupply.toNat = s.totalSupply.toNat + amount.toNat ∧
      s' = { s with balanceOf, totalSupply } := by
  simp only [mint, Option.bind_eq_bind, Option.bind_eq_some_iff, require_eq_some,
    checkedAdd_eq_some, Option.pure_def, Option.some.injEq] at h
  obtain ⟨_, hadmin, balanceOf, hc, totalSupply, hsupply, rfl⟩ := h
  exact ⟨balanceOf, totalSupply, hadmin, hc, hsupply, rfl⟩

theorem spend_cases (h : s.spend sender amount = some s') :
    ∃ balanceOf totalSupply, debit s.balanceOf sender amount = some balanceOf ∧
      totalSupply.toNat + amount.toNat = s.totalSupply.toNat ∧
      s' = { s with balanceOf, totalSupply } := by
  simp only [spend, Option.bind_eq_bind, Option.bind_eq_some_iff, checkedSub_eq_some,
    Option.pure_def, Option.some.injEq] at h
  obtain ⟨balanceOf, hd, totalSupply, hsupply, rfl⟩ := h
  exact ⟨balanceOf, totalSupply, hd, hsupply, rfl⟩

/-- `burnFrom` is `spend` on behalf of another, for the admin only. -/
theorem burnFrom_cases (h : s.burnFrom sender a amount = some s') :
    sender = s.admin ∧ s.spend a amount = some s' := by
  obtain ⟨_, hadmin, hspend⟩ := Option.bind_eq_some_iff.mp h
  exact ⟨require_eq_some.mp hadmin, hspend⟩

theorem transfer_cases (h : s.transfer sender a amount = some s') :
    ∃ debited balanceOf, debit s.balanceOf sender amount = some debited ∧
      credit debited a amount = some balanceOf ∧ s' = { s with balanceOf } := by
  simp only [transfer, Option.bind_eq_bind, Option.bind_eq_some_iff, Option.pure_def,
    Option.some.injEq] at h
  obtain ⟨debited, hd, balanceOf, hc, rfl⟩ := h
  exact ⟨debited, balanceOf, hd, hc, rfl⟩

theorem mint_issues (h : s.mint sender a amount = some s') :
    s'.admin = s.admin ∧
      Issued a amount.toNat s.balanceOf s'.balanceOf s.totalSupply s'.totalSupply := by
  obtain ⟨balanceOf, totalSupply, -, hc, hsupply, rfl⟩ := mint_cases h
  exact ⟨rfl, Issued.of_credit hc hsupply⟩

/-- Burning is the mint read backwards. -/
theorem burnFrom_issues (h : s.burnFrom sender a amount = some s') :
    s'.admin = s.admin ∧
      Issued a amount.toNat s'.balanceOf s.balanceOf s'.totalSupply s.totalSupply := by
  obtain ⟨-, hspend⟩ := burnFrom_cases h
  obtain ⟨balanceOf, totalSupply, hd, hsupply, rfl⟩ := spend_cases hspend
  exact ⟨rfl, Issued.of_debit hd hsupply⟩

/-- The token after the transactions `txs`, from deployment by `admin`. -/
def run (admin : Address) (txs : List (Tx Call)) : Energy :=
  exec (revert fun (s : Energy) (tx : Tx Call) => s.step tx.sender tx.call) (deploy admin) txs

/-- The balances add up to the total supply. -/
def Conserved (s : Energy) : Prop := total s.balanceOf = s.totalSupply.toNat

theorem Conserved.mint (hs : s.Conserved) (h : s.mint sender a amount = some s') :
    s'.Conserved := by
  obtain ⟨balanceOf, totalSupply, -, hc, hsupply, rfl⟩ := mint_cases h
  have hcredit := total_credit hc
  simp only [Conserved] at hs ⊢
  omega

theorem Conserved.spend (hs : s.Conserved) (h : s.spend sender amount = some s') :
    s'.Conserved := by
  obtain ⟨balanceOf, totalSupply, hd, hsupply, rfl⟩ := spend_cases h
  have hdebit := total_debit hd
  simp only [Conserved] at hs ⊢
  omega

theorem Conserved.burnFrom (hs : s.Conserved) (h : s.burnFrom sender a amount = some s') :
    s'.Conserved :=
  hs.spend (burnFrom_cases h).2

theorem Conserved.step (hs : s.Conserved) {call : Call} (h : s.step sender call = some s') :
    s'.Conserved := by
  cases call with
  | setAdmin newAdmin =>
      obtain ⟨-, rfl⟩ := setAdmin_cases h
      exact hs
  | mint toAddr amount => exact hs.mint h
  | burnFrom src amount => exact hs.burnFrom h
  | spend amount => exact hs.spend h
  | transfer toAddr amount =>
      obtain ⟨debited, balanceOf, hd, hc, rfl⟩ := transfer_cases h
      show total balanceOf = s.totalSupply.toNat
      rw [total_moved hd hc]
      exact hs

theorem run_conserved (admin : Address) (txs : List (Tx Call)) : (run admin txs).Conserved :=
  revert_induction Conserved (by simp [Conserved, total, deploy])
    (fun _ _ _ hs h => hs.step h) txs

/-- The admin can mint while the supply stays in range. -/
theorem Conserved.exists_mint (hs : s.Conserved) (hadmin : sender = s.admin)
    (hfit : s.totalSupply.toNat + amount.toNat < 2 ^ 256) :
    ∃ s', s.mint sender a amount = some s' := by
  have hle : (s.balanceOf a).toNat ≤ s.totalSupply.toNat := by
    rw [← hs]
    exact le_total s.balanceOf a
  have hroom : (s.balanceOf a).toNat + amount.toNat < 2 ^ 256 := by omega
  obtain ⟨balanceOf, hc⟩ := exists_credit hroom
  obtain ⟨totalSupply, hsupply⟩ := exists_checkedAdd hfit
  refine ⟨{ s with balanceOf, totalSupply }, ?_⟩
  simp [Energy.mint, require, hadmin, hc, hsupply]

/-- The admin can burn what an account holds. -/
theorem Conserved.exists_burnFrom (hs : s.Conserved) (hadmin : sender = s.admin)
    (hheld : amount.toNat ≤ (s.balanceOf a).toNat) : ∃ s', s.burnFrom sender a amount = some s' := by
  have hle : (s.balanceOf a).toNat ≤ s.totalSupply.toNat := by
    rw [← hs]
    exact le_total s.balanceOf a
  obtain ⟨balanceOf, hd⟩ := exists_debit hheld
  obtain ⟨totalSupply, hsupply⟩ := exists_checkedSub (Nat.le_trans hheld hle)
  refine ⟨{ s with balanceOf, totalSupply }, ?_⟩
  simp [Energy.burnFrom, require, hadmin, hd, hsupply]

end Energy

/-! ## `Core.sol` -/

structure Core where
  admin : Address
  totalSupply : U256
  balanceOf : Address → U256
  allowance : Address → Address → U256

namespace Core

/-- `1_000_000_000 ether`. -/
def cap : U256 := 1000000000000000000000000000#256

/-- The constructor: the deployer is the admin. -/
def deploy (sender : Address) : Core := ⟨sender, 0, fun _ => 0, fun _ _ => 0⟩

def setAdmin (s : Core) (sender newAdmin : Address) : Option Core := do
  require (sender = s.admin)
  return { s with admin := newAdmin }

def mint (s : Core) (sender toAddr : Address) (amount : U256) : Option Core := do
  require (sender = s.admin)
  let raised ← checkedAdd s.totalSupply amount
  require (raised ≤ cap)
  let balanceOf ← credit s.balanceOf toAddr amount
  let totalSupply ← checkedAdd s.totalSupply amount
  return { s with balanceOf, totalSupply }

def burnFrom (s : Core) (sender fromAddr : Address) (amount : U256) : Option Core := do
  require (sender = s.admin)
  let balanceOf ← debit s.balanceOf fromAddr amount
  let totalSupply ← checkedSub s.totalSupply amount
  return { s with balanceOf, totalSupply }

/-- `allowance[owner][spender] = amount`. -/
def setAllowance (s : Core) (owner spender : Address) (amount : U256) : Core :=
  let row := Function.update (s.allowance owner) spender amount
  { s with allowance := Function.update s.allowance owner row }

def approve (s : Core) (sender spender : Address) (amount : U256) : Option Core :=
  return s.setAllowance sender spender amount

def transfer (s : Core) (sender toAddr : Address) (amount : U256) : Option Core := do
  let debited ← debit s.balanceOf sender amount
  let balanceOf ← credit debited toAddr amount
  return { s with balanceOf }

def transferFrom (s : Core) (sender fromAddr toAddr : Address) (amount : U256) : Option Core := do
  require (amount ≤ s.balanceOf fromAddr)
  require (amount ≤ s.allowance fromAddr sender)
  let left ← checkedSub (s.allowance fromAddr sender) amount
  let debited ← debit s.balanceOf fromAddr amount
  let balanceOf ← credit debited toAddr amount
  return { s.setAllowance fromAddr sender left with balanceOf }

/-- The external functions of the contract. -/
inductive Call where
  | setAdmin (newAdmin : Address)
  | mint (toAddr : Address) (amount : U256)
  | burnFrom (fromAddr : Address) (amount : U256)
  | approve (spender : Address) (amount : U256)
  | transfer (toAddr : Address) (amount : U256)
  | transferFrom (fromAddr toAddr : Address) (amount : U256)

def step (s : Core) (sender : Address) : Call → Option Core
  | .setAdmin newAdmin => s.setAdmin sender newAdmin
  | .mint toAddr amount => s.mint sender toAddr amount
  | .burnFrom fromAddr amount => s.burnFrom sender fromAddr amount
  | .approve spender amount => s.approve sender spender amount
  | .transfer toAddr amount => s.transfer sender toAddr amount
  | .transferFrom fromAddr toAddr amount => s.transferFrom sender fromAddr toAddr amount

/-- `mint` and `burnFrom` change the total supply; nothing else does. -/
def Call.issues : Call → Bool
  | .mint .. => true
  | .burnFrom .. => true
  | _ => false

/-- The token after the transactions `txs`, from deployment by `admin`. -/
def run (admin : Address) (txs : List (Tx Call)) : Core :=
  exec (revert fun (s : Core) (tx : Tx Call) => s.step tx.sender tx.call) (deploy admin) txs

/-! ### What each call does to the balances -/

variable {s s' : Core} {sender src toAddr : Address} {amount : U256}

theorem transfer_eq_some :
    s.transfer sender toAddr amount = some s' ↔
      ∃ debited balanceOf, debit s.balanceOf sender amount = some debited ∧
        credit debited toAddr amount = some balanceOf ∧ s' = { s with balanceOf } := by
  simp only [transfer, Option.bind_eq_bind, Option.bind_eq_some_iff, Option.pure_def,
    Option.some.injEq, exists_and_left, @eq_comm _ s']

theorem transferFrom_cases (h : s.transferFrom sender src toAddr amount = some s') :
    ∃ left debited balanceOf, left.toNat + amount.toNat = (s.allowance src sender).toNat ∧
      debit s.balanceOf src amount = some debited ∧ credit debited toAddr amount = some balanceOf ∧
      s' = { s.setAllowance src sender left with balanceOf } := by
  simp only [transferFrom, Option.bind_eq_bind, Option.bind_eq_some_iff, require_eq_some,
    checkedSub_eq_some, Option.pure_def, Option.some.injEq] at h
  obtain ⟨_, _, _, _, left, hleft, debited, hd, balanceOf, hc, rfl⟩ := h
  exact ⟨left, debited, balanceOf, hleft, hd, hc, rfl⟩

theorem setAdmin_cases {newAdmin : Address} (h : s.setAdmin sender newAdmin = some s') :
    ∃ admin, s' = { s with admin } := by
  simp only [setAdmin, Option.bind_eq_bind, Option.bind_eq_some_iff, Option.pure_def,
    Option.some.injEq] at h
  obtain ⟨_, _, rfl⟩ := h
  exact ⟨_, rfl⟩

theorem mint_cases (h : s.mint sender toAddr amount = some s') :
    ∃ balanceOf totalSupply, credit s.balanceOf toAddr amount = some balanceOf ∧
      totalSupply.toNat = s.totalSupply.toNat + amount.toNat ∧
      s' = { s with balanceOf, totalSupply } := by
  simp only [mint, Option.bind_eq_bind, Option.bind_eq_some_iff, require_eq_some,
    checkedAdd_eq_some, Option.pure_def, Option.some.injEq] at h
  obtain ⟨_, _, _, _, _, _, balanceOf, hc, totalSupply, hsupply, rfl⟩ := h
  exact ⟨balanceOf, totalSupply, hc, hsupply, rfl⟩

theorem burnFrom_cases (h : s.burnFrom sender src amount = some s') :
    ∃ balanceOf totalSupply, debit s.balanceOf src amount = some balanceOf ∧
      totalSupply.toNat + amount.toNat = s.totalSupply.toNat ∧
      s' = { s with balanceOf, totalSupply } := by
  simp only [burnFrom, Option.bind_eq_bind, Option.bind_eq_some_iff, require_eq_some,
    checkedSub_eq_some, Option.pure_def, Option.some.injEq] at h
  obtain ⟨_, _, balanceOf, hd, totalSupply, hsupply, rfl⟩ := h
  exact ⟨balanceOf, totalSupply, hd, hsupply, rfl⟩

/-! ### Guarded balances

The balances add up to the supply, and a contract that approves nobody keeps what it holds. -/

/-- The balances add up to the total supply. -/
def Conserved (s : Core) : Prop := total s.balanceOf = s.totalSupply.toNat

/-- The balances add up and `holder` has approved nobody. -/
structure Guarded (holder : Address) (s : Core) : Prop where
  conserved : s.Conserved
  unapproved : ∀ spender, s.allowance holder spender = 0

theorem Conserved.mint (hs : s.Conserved) (h : s.mint sender toAddr amount = some s') :
    s'.Conserved := by
  obtain ⟨balanceOf, totalSupply, hc, hsupply, rfl⟩ := mint_cases h
  have hcredit := total_credit hc
  simp only [Conserved] at hs ⊢
  omega

theorem Conserved.transfer (hs : s.Conserved) (h : s.transfer sender toAddr amount = some s') :
    s'.Conserved := by
  obtain ⟨debited, balanceOf, hd, hc, rfl⟩ := transfer_eq_some.mp h
  show total balanceOf = s.totalSupply.toNat
  rw [total_moved hd hc]
  exact hs

theorem Conserved.transferFrom (hs : s.Conserved)
    (h : s.transferFrom sender src toAddr amount = some s') : s'.Conserved := by
  obtain ⟨left, debited, balanceOf, hleft, hd, hc, rfl⟩ := transferFrom_cases h
  show total balanceOf = s.totalSupply.toNat
  rw [total_moved hd hc]
  exact hs

/-- **Any call** keeps the balances adding up. -/
theorem Conserved.step (hs : s.Conserved) {call : Call} (h : s.step sender call = some s') :
    s'.Conserved := by
  cases call with
  | setAdmin newAdmin =>
      obtain ⟨admin, rfl⟩ := setAdmin_cases h
      exact hs
  | mint toAddr amount => exact hs.mint h
  | burnFrom src amount =>
      obtain ⟨balanceOf, totalSupply, hd, hsupply, rfl⟩ := burnFrom_cases h
      have hdebit := total_debit hd
      simp only [Conserved] at hs ⊢
      omega
  | approve spender amount =>
      obtain rfl := Option.some.inj h
      exact hs
  | transfer toAddr amount => exact hs.transfer h
  | transferFrom src toAddr amount => exact hs.transferFrom h

theorem run_conserved (admin : Address) (txs : List (Tx Call)) : (run admin txs).Conserved :=
  revert_induction Conserved (by simp [Conserved, total, deploy])
    (fun _ _ _ hs h => hs.step h) txs

/-- The admin can mint up to the cap. -/
theorem Conserved.exists_mint (hs : s.Conserved) (hadmin : sender = s.admin)
    (hcap : s.totalSupply.toNat + amount.toNat ≤ cap.toNat) :
    ∃ s', s.mint sender toAddr amount = some s' := by
  have hle : (s.balanceOf toAddr).toNat ≤ s.totalSupply.toNat := by
    rw [← hs]
    exact le_total s.balanceOf toAddr
  have hbound : cap.toNat < 2 ^ 256 := cap.isLt
  have hroom : (s.balanceOf toAddr).toNat + amount.toNat < 2 ^ 256 := by omega
  have hfit : s.totalSupply.toNat + amount.toNat < 2 ^ 256 := by omega
  obtain ⟨balanceOf, hc⟩ := exists_credit hroom
  obtain ⟨totalSupply, hsupply⟩ := exists_checkedAdd hfit
  have hraised : totalSupply ≤ cap := by
    rw [BitVec.le_def, checkedAdd_eq_some.mp hsupply]
    exact hcap
  refine ⟨{ s with balanceOf, totalSupply }, ?_⟩
  simp [Core.mint, require, hadmin, hc, hsupply, hraised]

variable {holder : Address}

theorem deploy_guarded (admin : Address) : (deploy admin).Guarded holder where
  conserved := by simp [Conserved, total, deploy]
  unapproved _ := rfl

theorem Guarded.transfer (hs : s.Guarded holder) (h : s.transfer sender toAddr amount = some s') :
    s'.Guarded holder := by
  refine ⟨hs.conserved.transfer h, ?_⟩
  obtain ⟨debited, balanceOf, -, -, rfl⟩ := transfer_eq_some.mp h
  exact hs.unapproved

theorem Guarded.transferFrom (hs : s.Guarded holder)
    (h : s.transferFrom sender src toAddr amount = some s') : s'.Guarded holder := by
  refine ⟨hs.conserved.transferFrom h, ?_⟩
  obtain ⟨left, debited, balanceOf, hleft, hd, hc, rfl⟩ := transferFrom_cases h
  intro spender
  show Function.update s.allowance src (Function.update (s.allowance src) sender left) holder
    spender = 0
  by_cases hsrc : holder = src
  · subst hsrc
    rw [Function.update_self]
    -- nothing was approved, so nothing is left
    have hnone := hs.unapproved sender
    by_cases hsp : spender = sender
    · subst hsp
      rw [Function.update_self]
      apply BitVec.eq_of_toNat_eq
      rw [hnone] at hleft
      have hzero : (0 : U256).toNat = 0 := rfl
      omega
    · rw [Function.update_of_ne hsp]
      exact hs.unapproved spender
  · rw [Function.update_of_ne hsrc]
    exact hs.unapproved spender

theorem Guarded.approve (hs : s.Guarded holder) {spender : Address} (hholder : sender ≠ holder)
    (h : s.approve sender spender amount = some s') : s'.Guarded holder := by
  obtain rfl := Option.some.inj h
  refine ⟨hs.conserved, ?_⟩
  intro x
  show Function.update s.allowance sender _ holder x = 0
  rw [Function.update_of_ne (Ne.symm hholder)]
  exact hs.unapproved x

theorem Guarded.step (hs : s.Guarded holder) (hholder : sender ≠ holder) {call : Call}
    (h : s.step sender call = some s') : s'.Guarded holder := by
  cases call with
  | setAdmin newAdmin =>
      refine ⟨hs.conserved.step h, ?_⟩
      obtain ⟨admin, rfl⟩ := setAdmin_cases h
      exact hs.unapproved
  | mint toAddr amount =>
      refine ⟨hs.conserved.step h, ?_⟩
      obtain ⟨balanceOf, totalSupply, -, -, rfl⟩ := mint_cases h
      exact hs.unapproved
  | burnFrom src amount =>
      refine ⟨hs.conserved.step h, ?_⟩
      obtain ⟨balanceOf, totalSupply, -, -, rfl⟩ := burnFrom_cases h
      exact hs.unapproved
  | approve spender amount => exact hs.approve hholder h
  | transfer toAddr amount => exact hs.transfer h
  | transferFrom src toAddr amount => exact hs.transferFrom h

theorem run_guarded (admin : Address) {txs : List (Tx Call)} (h : ∀ tx ∈ txs, tx.sender ≠ holder) :
    (run admin txs).Guarded holder :=
  trace_induction (fun m => m.call.sender ≠ holder) (fun s _ => Guarded holder s)
    (deploy_guarded admin) (fun _ _ _ _ hs hstep hsender => hs.step hsender hstep) txs
    fun _ hm => h _ (mem_of_mem_trace hm)

/-- Without issue the supply stays, and an account that signs nothing and has approved nobody loses
nothing. -/
theorem Guarded.le_balance (hs : s.Guarded holder) (hholder : sender ≠ holder) {call : Call}
    (hcall : call.issues = false) (h : s.step sender call = some s') :
    s'.totalSupply = s.totalSupply ∧ (s.balanceOf holder).toNat ≤ (s'.balanceOf holder).toNat := by
  cases call with
  | setAdmin newAdmin =>
      obtain ⟨admin, rfl⟩ := setAdmin_cases h
      exact ⟨rfl, Nat.le_refl _⟩
  | mint toAddr amount => cases hcall
  | burnFrom src amount => cases hcall
  | approve spender amount =>
      obtain rfl := Option.some.inj h
      exact ⟨rfl, Nat.le_refl _⟩
  | transfer toAddr amount =>
      obtain ⟨debited, balanceOf, hd, hc, rfl⟩ := transfer_eq_some.mp h
      refine ⟨rfl, ?_⟩
      have hkept := debit_of_ne hd (Ne.symm hholder)
      have hcredit := le_credit hc holder
      rwa [hkept] at hcredit
  | transferFrom src toAddr amount =>
      obtain ⟨left, debited, balanceOf, hleft, hd, hc, rfl⟩ := transferFrom_cases h
      refine ⟨rfl, ?_⟩
      have hcredit := le_credit hc holder
      by_cases hsrc : holder = src
      · subst hsrc
        -- the holder has approved nobody, so the amount is zero
        have hdebit := debit_self hd
        have hnone := hs.unapproved sender
        rw [hnone] at hleft
        have hzero : (0 : U256).toNat = 0 := rfl
        have hmoved : (s.balanceOf holder).toNat ≤ (balanceOf holder).toNat := by omega
        exact hmoved
      · have hkept := debit_of_ne hd hsrc
        rwa [hkept] at hcredit

end Core

end ChainBeasts.Contracts
