import ChainBeasts.Contracts.Tokens

/-! # The laws of the two tokens

What holders of `Energy` and `Core` rely on, in every reachable state: the balances add up to the
supply, only the admin's `mint` raises it (for `Core` up to the cap), paying oneself changes nothing,
and a spender takes no more from an account than it was last approved for (`energy_sound`,
`core_sound`). -/

namespace ChainBeasts.Contracts

open ChainBeasts.Evm ChainBeasts.Machine

namespace Energy

variable {s s' : Energy} {sender : Address} {call : Call}

/-- The laws of the state `s`. -/
structure Sound (s : Energy) : Prop where
  conserved : s.Conserved
  raised : ∀ sender call s', s.step sender call = some s' → s.totalSupply < s'.totalSupply →
    sender = s.admin ∧ ∃ toAddr amount, call = .mint toAddr amount
  selfTransfer : ∀ sender amount s', s.transfer sender sender amount = some s' → s' = s

theorem transfer_self {amount : U256} (h : s.transfer sender sender amount = some s') : s' = s := by
  obtain ⟨debited, balanceOf, hd, hc, rfl⟩ := transfer_cases h
  rw [credit_debit_self hd hc]

theorem spend_supply_le {amount : U256} (h : s.spend sender amount = some s') :
    s'.totalSupply ≤ s.totalSupply := by
  obtain ⟨balanceOf, totalSupply, -, hsupply, rfl⟩ := spend_cases h
  show totalSupply.toNat ≤ s.totalSupply.toNat
  omega

/-- Only `mint` raises the supply. -/
theorem mint_or_supply_le (h : s.step sender call = some s') :
    (∃ toAddr amount, call = .mint toAddr amount) ∨ s'.totalSupply ≤ s.totalSupply := by
  cases call with
  | setAdmin newAdmin =>
      obtain ⟨-, rfl⟩ := setAdmin_cases h
      exact Or.inr (Nat.le_refl _)
  | mint toAddr amount => exact Or.inl ⟨toAddr, amount, rfl⟩
  | burnFrom src amount => exact Or.inr (spend_supply_le (burnFrom_cases h).2)
  | spend amount => exact Or.inr (spend_supply_le h)
  | transfer toAddr amount =>
      obtain ⟨debited, balanceOf, -, -, rfl⟩ := transfer_cases h
      exact Or.inr (Nat.le_refl _)

theorem mint_admin {toAddr : Address} {amount : U256} (h : s.mint sender toAddr amount = some s') :
    sender = s.admin := by
  obtain ⟨balanceOf, totalSupply, hadmin, -⟩ := mint_cases h
  exact hadmin

theorem raised_by_mint (h : s.step sender call = some s') (hraised : s.totalSupply < s'.totalSupply) :
    sender = s.admin ∧ ∃ toAddr amount, call = .mint toAddr amount := by
  obtain ⟨toAddr, amount, rfl⟩ | hle := mint_or_supply_le h
  · exact ⟨mint_admin h, toAddr, amount, rfl⟩
  · exact absurd hraised (BitVec.not_lt.mpr hle)

/-- **`Energy` keeps its laws**, in every run. -/
theorem energy_sound (admin : Address) (txs : List (Tx Call)) : (run admin txs).Sound where
  conserved := run_conserved admin txs
  raised _ _ _ h hraised := raised_by_mint h hraised
  selfTransfer _ _ _ h := transfer_self h

end Energy

namespace Core

/-- An accepted call, with the states around it. -/
abbrev Happening := Move Core (Tx Call)

/-- The accepted calls of a run, in order. -/
def moves (admin : Address) (txs : List (Tx Call)) : List Happening :=
  trace (fun (s : Core) (tx : Tx Call) => s.step tx.sender tx.call) (deploy admin) txs

/-- The amount a call approves for the spender. -/
def approval (owner spender : Address) (tx : Tx Call) : Option U256 :=
  match tx.call with
  | .approve p amount => if tx.sender = owner ∧ p = spender then some amount else none
  | _ => none

/-- The amount a call moves out of the owner's account on the spender's behalf. -/
def drawn (owner spender : Address) (tx : Tx Call) : Nat :=
  match tx.call with
  | .transferFrom fromAddr _ amount =>
      if fromAddr = owner ∧ tx.sender = spender then amount.toNat else 0
  | _ => 0

/-- The amount the spender has moved out of the owner's account. -/
def spent (owner spender : Address) (tr : List Happening) : Nat :=
  (tr.map fun m => drawn owner spender m.call).sum

/-- No call approves the spender. -/
def NoApproval (owner spender : Address) (tr : List Happening) : Prop :=
  ∀ m ∈ tr, approval owner spender m.call = none

/-- The laws of the state `s` after the accepted calls `tr`. A transfer to oneself through an
allowance still uses up the allowance. -/
structure Sound (s : Core) (tr : List Happening) : Prop where
  conserved : s.Conserved
  capped : s.totalSupply ≤ cap
  raised : ∀ sender call s', s.step sender call = some s' → s.totalSupply < s'.totalSupply →
    sender = s.admin ∧ ∃ toAddr amount, call = .mint toAddr amount
  selfTransfer : ∀ sender amount s', s.transfer sender sender amount = some s' → s' = s
  selfTransferFrom : ∀ sender a amount s', s.transferFrom sender a a amount = some s' →
    ∃ left, s' = s.setAllowance a sender left
  unapproved : ∀ owner spender, NoApproval owner spender tr → spent owner spender tr = 0
  spending : ∀ owner spender amount before m between, tr = before ++ m :: between →
    approval owner spender m.call = some amount → NoApproval owner spender between →
    spent owner spender between ≤ amount.toNat

/-! ## The supply -/

variable {s s' : Core} {sender : Address} {call : Call} {amount : U256}

theorem transfer_self (h : s.transfer sender sender amount = some s') : s' = s := by
  obtain ⟨debited, balanceOf, hd, hc, rfl⟩ := transfer_eq_some.mp h
  rw [credit_debit_self hd hc]

theorem transferFrom_self {a : Address} (h : s.transferFrom sender a a amount = some s') :
    ∃ left, s' = s.setAllowance a sender left := by
  obtain ⟨left, debited, balanceOf, -, hd, hc, rfl⟩ := transferFrom_cases h
  rw [credit_debit_self hd hc]
  exact ⟨left, rfl⟩

/-- What `mint` checks: the caller and the cap. -/
theorem mint_checks {toAddr : Address} (h : s.mint sender toAddr amount = some s') :
    sender = s.admin ∧ s'.totalSupply ≤ cap := by
  simp only [mint, Option.bind_eq_bind, Option.bind_eq_some_iff, require_eq_some, Option.pure_def,
    Option.some.injEq] at h
  obtain ⟨_, hadmin, raised, hraised, _, hcap, balanceOf, -, totalSupply, hsupply, rfl⟩ := h
  -- the sum is taken twice, once for the check and once for the write
  obtain rfl : raised = totalSupply := Option.some.inj (hraised.symm.trans hsupply)
  exact ⟨hadmin, hcap⟩

/-- Only `mint` raises the supply. -/
theorem mint_or_supply_le (h : s.step sender call = some s') :
    (∃ toAddr amount, call = .mint toAddr amount) ∨ s'.totalSupply ≤ s.totalSupply := by
  cases call with
  | setAdmin newAdmin =>
      obtain ⟨admin, rfl⟩ := setAdmin_cases h
      exact Or.inr (Nat.le_refl _)
  | mint toAddr amount => exact Or.inl ⟨toAddr, amount, rfl⟩
  | burnFrom src amount =>
      obtain ⟨balanceOf, totalSupply, -, hsupply, rfl⟩ := burnFrom_cases h
      apply Or.inr
      show totalSupply.toNat ≤ s.totalSupply.toNat
      omega
  | approve spender amount =>
      obtain rfl := Option.some.inj h
      exact Or.inr (Nat.le_refl _)
  | transfer toAddr amount =>
      obtain ⟨debited, balanceOf, -, -, rfl⟩ := transfer_eq_some.mp h
      exact Or.inr (Nat.le_refl _)
  | transferFrom src toAddr amount =>
      obtain ⟨left, debited, balanceOf, -, -, -, rfl⟩ := transferFrom_cases h
      exact Or.inr (Nat.le_refl _)

theorem raised_by_mint (h : s.step sender call = some s') (hraised : s.totalSupply < s'.totalSupply) :
    sender = s.admin ∧ ∃ toAddr amount, call = .mint toAddr amount := by
  obtain ⟨toAddr, amount, rfl⟩ | hle := mint_or_supply_le h
  · exact ⟨(mint_checks h).1, toAddr, amount, rfl⟩
  · exact absurd hraised (BitVec.not_lt.mpr hle)

theorem step_capped (hs : s.totalSupply ≤ cap) (h : s.step sender call = some s') :
    s'.totalSupply ≤ cap := by
  obtain ⟨toAddr, amount, rfl⟩ | hle := mint_or_supply_le h
  · exact (mint_checks h).2
  · exact BitVec.le_trans hle hs

/-! ## The allowances -/

variable {owner spender : Address}

theorem allowance_setAllowance (s : Core) (o p : Address) (amount : U256) :
    (s.setAllowance o p amount).allowance owner spender =
      if o = owner ∧ p = spender then amount else s.allowance owner spender := by
  show Function.update s.allowance o (Function.update (s.allowance o) p amount) owner spender = _
  by_cases ho : o = owner
  · subst ho
    rw [Function.update_self]
    by_cases hp : p = spender
    · subst hp
      rw [Function.update_self, if_pos ⟨rfl, rfl⟩]
    · rw [Function.update_of_ne (Ne.symm hp), if_neg fun h => hp h.2]
  · rw [Function.update_of_ne (Ne.symm ho), if_neg fun h => ho h.1]

/-- **One call and one allowance.** An approval sets it, any other call takes off what it draws. -/
theorem step_allowance (owner spender : Address) (h : s.step sender call = some s') :
    match approval owner spender ⟨sender, call⟩ with
    | some amount => s'.allowance owner spender = amount
    | none => (s'.allowance owner spender).toNat + drawn owner spender ⟨sender, call⟩ =
        (s.allowance owner spender).toNat := by
  cases call with
  | setAdmin newAdmin =>
      obtain ⟨admin, rfl⟩ := setAdmin_cases h
      rfl
  | mint toAddr amount =>
      obtain ⟨balanceOf, totalSupply, -, -, rfl⟩ := mint_cases h
      rfl
  | burnFrom src amount =>
      obtain ⟨balanceOf, totalSupply, -, -, rfl⟩ := burnFrom_cases h
      rfl
  | approve p amount =>
      obtain rfl := Option.some.inj h
      by_cases hpair : sender = owner ∧ p = spender
      · simp only [approval, if_pos hpair]
        rw [allowance_setAllowance, if_pos hpair]
      · simp only [approval, if_neg hpair]
        rw [allowance_setAllowance, if_neg hpair]
        rfl
  | transfer toAddr amount =>
      obtain ⟨debited, balanceOf, -, -, rfl⟩ := transfer_eq_some.mp h
      rfl
  | transferFrom src toAddr amount =>
      obtain ⟨left, debited, balanceOf, hleft, -, -, rfl⟩ := transferFrom_cases h
      show ((s.setAllowance src sender left).allowance owner spender).toNat + _ = _
      rw [allowance_setAllowance]
      by_cases hpair : src = owner ∧ sender = spender
      · obtain ⟨rfl, rfl⟩ := hpair
        simp only [drawn, and_self, if_true]
        exact hleft
      · simp only [drawn, if_neg hpair]
        rfl

/-- What an allowance says about the calls since: with what was drawn it makes up the amount last
approved, and nothing where nothing was approved. -/
structure Metered (s : Core) (tr : List Happening) : Prop where
  unapproved : ∀ owner spender, NoApproval owner spender tr →
    (s.allowance owner spender).toNat + spent owner spender tr = 0
  spending : ∀ owner spender amount before m between, tr = before ++ m :: between →
    approval owner spender m.call = some amount → NoApproval owner spender between →
    (s.allowance owner spender).toNat + spent owner spender between = amount.toNat

theorem spent_concat (owner spender : Address) (tr : List Happening) (m : Happening) :
    spent owner spender (tr ++ [m]) = spent owner spender tr + drawn owner spender m.call := by
  simp [spent]

theorem noApproval_concat {tr : List Happening} {m : Happening} :
    NoApproval owner spender (tr ++ [m]) ↔
      NoApproval owner spender tr ∧ approval owner spender m.call = none := by
  simp [NoApproval, or_imp, forall_and]

theorem Metered.step {tr : List Happening} {tx : Tx Call} (hs : s.Metered tr)
    (h : Core.step s tx.sender tx.call = some s') : s'.Metered (tr ++ [⟨s, tx, s'⟩]) := by
  have hdrawn : ∀ owner spender, approval owner spender tx = none →
      (s'.allowance owner spender).toNat + drawn owner spender tx =
        (s.allowance owner spender).toNat := by
    intro owner spender hnone
    have hstep := step_allowance owner spender h
    rwa [hnone] at hstep
  refine ⟨?_, ?_⟩
  · intro owner spender hno
    obtain ⟨hold, hnone⟩ := noApproval_concat.mp hno
    have hzero := hs.unapproved owner spender hold
    have hmoved := hdrawn owner spender hnone
    rw [spent_concat]
    show _ + (_ + drawn owner spender tx) = 0
    omega
  · intro owner spender amount before m between hsplit happroved hno
    induction between using List.reverseRecOn with
    | nil =>
        -- the approval is the call just made
        obtain ⟨-, hm⟩ := List.append_inj' hsplit rfl
        obtain rfl := (List.cons.inj hm).1
        have hstep := step_allowance owner spender h
        rw [happroved] at hstep
        rw [hstep]
        rfl
    | append_singleton between m' =>
        rw [← List.cons_append, ← List.append_assoc] at hsplit
        obtain ⟨hrest, hm⟩ := List.append_inj' hsplit rfl
        obtain rfl := (List.cons.inj hm).1
        obtain ⟨hold, hnone⟩ := noApproval_concat.mp hno
        have hbefore := hs.spending owner spender amount before m between hrest happroved hold
        have hmoved := hdrawn owner spender hnone
        rw [spent_concat]
        show _ + (_ + drawn owner spender tx) = _
        omega

theorem run_metered (admin : Address) (txs : List (Tx Call)) :
    (run admin txs).Metered (moves admin txs) := by
  apply trace_run_induction (P := Metered)
  · refine ⟨fun _ _ _ => rfl, ?_⟩
    intro owner spender amount before m between hsplit
    exact absurd hsplit.symm (by simp)
  · intro s tr tx s' hs h
    exact hs.step h

theorem run_capped (admin : Address) (txs : List (Tx Call)) :
    (run admin txs).totalSupply ≤ cap := by
  apply revert_induction (fun s : Core => s.totalSupply ≤ cap)
  · show (0 : U256) ≤ cap
    decide
  · intro s tx s' hs h
    exact step_capped hs h

/-- **`Core` keeps its laws**, in every run. -/
theorem core_sound (admin : Address) (txs : List (Tx Call)) :
    (run admin txs).Sound (moves admin txs) where
  conserved := run_conserved admin txs
  capped := run_capped admin txs
  raised _ _ _ h hraised := raised_by_mint h hraised
  selfTransfer _ _ _ h := transfer_self h
  selfTransferFrom _ _ _ _ h := transferFrom_self h
  unapproved owner spender hno := by
    have hzero := (run_metered admin txs).unapproved owner spender hno
    omega
  spending owner spender amount before m between hsplit happroved hno := by
    have hsum := (run_metered admin txs).spending owner spender amount before m between hsplit
      happroved hno
    omega

end Core

/-- **The laws of both tokens**, in every run of each. -/
theorem tokens_sound (energyAdmin coreAdmin : Address) (energyTxs : List (Tx Energy.Call))
    (coreTxs : List (Tx Core.Call)) :
    (Energy.run energyAdmin energyTxs).Sound ∧
      (Core.run coreAdmin coreTxs).Sound (Core.moves coreAdmin coreTxs) :=
  ⟨Energy.energy_sound energyAdmin energyTxs, Core.core_sound coreAdmin coreTxs⟩

end ChainBeasts.Contracts
