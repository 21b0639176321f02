import ChainBeasts.Contracts.GovernanceExecution
import ChainBeasts.Evm.Packed

/-! # Whether stakers can withdraw

The contract promises that a stake can be withdrawn at any time. It holds the staked `CORE` itself,
and an executed proposal calls as the contract: it may transfer the stakes away, approve a spender
who takes them, or stake what the contract already holds. `stakes_redeemable_iff` says that these
are the only ways to lose a stake: stakes stay redeemable exactly as long as no accepted call takes
more than the contract holds beyond them. -/

namespace ChainBeasts.Contracts.Governance.Execution

open ChainBeasts.Evm ChainBeasts.Machine ChainBeasts.Rollback

/-! ## What a call takes -/

/-- What a token call takes out of `holder`'s balance. -/
def outflow (holder sender : Address) : Core.Call → Nat
  | .transfer toAddr amount => if sender = holder ∧ toAddr ≠ holder then amount.toNat else 0
  | .transferFrom src toAddr amount => if src = holder ∧ toAddr ≠ holder then amount.toNat else 0
  | .burnFrom src amount => if src = holder then amount.toNat else 0
  | _ => 0

/-- What a call takes from what the contract holds beyond the stakes. A stake of its own adds to the
stakes and brings nothing in. -/
def taken (governance sender : Address) : Call → Nat
  | .token call => outflow governance sender call
  | .stake amount => if sender = governance then amount.toNat else 0
  | _ => 0

/-- A payment inside a mapping moves `holder`'s entry by what it takes. -/
theorem paid_balance {m debited m' : Address → U256} {src toAddr holder : Address} {amount : U256}
    (hd : debit m src amount = some debited) (hc : credit debited toAddr amount = some m') :
    (if src = holder ∧ toAddr ≠ holder then amount.toNat else 0) = 0 ∧
        (m holder).toNat ≤ (m' holder).toNat ∨
      (m' holder).toNat + (if src = holder ∧ toAddr ≠ holder then amount.toNat else 0) =
        (m holder).toNat := by
  by_cases htaken : src = holder ∧ toAddr ≠ holder
  · obtain ⟨rfl, hto⟩ := htaken
    have hdebit := debit_self hd
    rw [if_pos ⟨rfl, hto⟩, credit_of_ne hc (Ne.symm hto)]
    exact Or.inr hdebit
  · rw [if_neg htaken]
    refine Or.inl ⟨rfl, ?_⟩
    have hcredit := le_credit hc holder
    by_cases hsrc : src = holder
    · -- the holder pays itself
      have hto : toAddr = holder := by
        by_contra hne
        exact htaken ⟨hsrc, hne⟩
      subst hsrc hto
      have hdebit := debit_self hd
      have hself := credit_self hc
      omega
    · rwa [debit_of_ne hd (Ne.symm hsrc)] at hcredit

/-- A token call takes its outflow from the balance, or adds to it. -/
theorem step_outflow (holder : Address) {core core' : Core} {sender : Address} {call : Core.Call}
    (h : core.step sender call = some core') :
    outflow holder sender call = 0 ∧
        (core.balanceOf holder).toNat ≤ (core'.balanceOf holder).toNat ∨
      (core'.balanceOf holder).toNat + outflow holder sender call =
        (core.balanceOf holder).toNat := by
  cases call with
  | setAdmin newAdmin =>
      obtain ⟨admin, rfl⟩ := Core.setAdmin_cases h
      exact Or.inl ⟨rfl, Nat.le_refl _⟩
  | mint toAddr amount =>
      obtain ⟨balanceOf, totalSupply, hc, -, rfl⟩ := Core.mint_cases h
      exact Or.inl ⟨rfl, le_credit hc holder⟩
  | burnFrom src amount =>
      obtain ⟨balanceOf, totalSupply, hd, -, rfl⟩ := Core.burnFrom_cases h
      right
      by_cases hsrc : src = holder
      · subst hsrc
        simpa only [outflow, if_true] using debit_self hd
      · simp only [outflow, if_neg hsrc, debit_of_ne hd (Ne.symm hsrc), Nat.add_zero]
  | approve spender amount =>
      obtain rfl := Option.some.inj h
      exact Or.inl ⟨rfl, Nat.le_refl _⟩
  | transfer toAddr amount =>
      obtain ⟨debited, balanceOf, hd, hc, rfl⟩ := Core.transfer_eq_some.mp h
      exact paid_balance hd hc
  | transferFrom src toAddr amount =>
      obtain ⟨left, debited, balanceOf, -, hd, hc, rfl⟩ := Core.transferFrom_cases h
      exact paid_balance hd hc

namespace Snapshot

/-- The call takes no more than the contract holds beyond the stakes. -/
def Spares (governance : Address) (x : Snapshot) (sender : Address) (call : Call) : Prop :=
  x.world.gov.totalStake.toNat + taken governance sender call ≤
    (x.world.core.balanceOf governance).toNat

/-- The balances and the stakes add up to their totals. -/
structure Accounted (x : Snapshot) : Prop where
  conserved : x.world.core.Conserved
  staked : total x.world.gov.stake = x.world.gov.totalStake.toNat

/-- The contract holds what is staked. -/
def Held (governance : Address) (x : Snapshot) : Prop :=
  x.world.gov.totalStake.toNat ≤ (x.world.core.balanceOf governance).toNat

instance (governance : Address) (x : Snapshot) : Decidable (x.Held governance) :=
  inferInstanceAs (Decidable (_ ≤ _))

/-- The stakes add up to `totalStake`, the contract holds as much, and every staker can withdraw the
full stake. -/
structure Redeemable (governance : Address) (now : U256) (x : Snapshot) : Prop where
  staked : total x.world.gov.stake = x.world.gov.totalStake.toNat
  held : x.Held governance
  withdraw : ∀ account,
    (x.handle governance now account (.withdraw (x.world.gov.stake account))).isSome

variable {governance sender : Address} {now : U256} {x x' : Snapshot}

theorem Accounted.redeemable (h : x.Accounted) (hheld : x.Held governance) (now : U256) :
    x.Redeemable governance now := by
  refine ⟨h.staked, hheld, ?_⟩
  intro account
  have hstake : (x.world.gov.stake account).toNat ≤ x.world.gov.totalStake.toNat := by
    rw [← h.staked]
    exact le_total _ _
  obtain ⟨stake, hdebit⟩ := exists_debit (Nat.le_refl (x.world.gov.stake account).toNat)
  obtain ⟨totalStake, htotal⟩ := exists_checkedSub hstake
  obtain ⟨debited, hpaid⟩ := exists_debit (Nat.le_trans hstake hheld)
  -- the supply is a word, so the credit fits
  have hsupply := x.world.core.totalSupply.isLt
  rw [← h.conserved, ← total_debit hpaid] at hsupply
  have hbalance := le_total debited account
  have hroom : (debited account).toNat + (x.world.gov.stake account).toNat < 2 ^ 256 := by omega
  obtain ⟨balanceOf, hcredit⟩ := exists_credit hroom
  have htransfer : x.world.core.transfer governance account (x.world.gov.stake account) =
      some { x.world.core with balanceOf } :=
    Core.transfer_eq_some.mpr ⟨debited, balanceOf, hpaid, hcredit, rfl⟩
  simp [handle, World.withdraw, hdebit, htotal, htransfer]

/-- A step that leaves the balances and the stakes alone. -/
theorem Accounted.of_eq (h : x.Accounted) (hcore : x'.world.core = x.world.core)
    (hstake : x'.world.gov.stake = x.world.gov.stake)
    (htotal : x'.world.gov.totalStake = x.world.gov.totalStake) : x'.Accounted := by
  refine ⟨?_, ?_⟩
  · rw [hcore]
    exact h.conserved
  · rw [hstake, htotal]
    exact h.staked

/-- **Any call.** The totals stay right, and the stakes stay held exactly when the call spares
them. -/
theorem Accounted.handle {call : Call} (h : x.Accounted)
    (hcall : x.handle governance now sender call = some x') :
    x'.Accounted ∧
      (x.Held governance → (x'.Held governance ↔ x.Spares governance sender call)) := by
  cases call with
  | token call =>
      obtain ⟨core, hcore, hs⟩ := Option.bind_eq_some_iff.mp hcall
      cases hs
      refine ⟨⟨h.conserved.step hcore, h.staked⟩, fun hheld => ?_⟩
      have hflow := step_outflow governance hcore
      simp only [Held, Spares, taken] at hheld ⊢
      omega
  | stake amount =>
      obtain ⟨world, hw, hs⟩ := Option.bind_eq_some_iff.mp hcall
      cases hs
      obtain ⟨core, stake, totalStake, hpaid, hstake, htotal, rfl⟩ := World.stake_cases hw
      have hsum := total_credit hstake
      have hstaked := h.staked
      refine ⟨⟨h.conserved.transferFrom hpaid, by simp only; omega⟩, fun hheld => ?_⟩
      obtain ⟨left, debited, balanceOf, -, hd, hc, rfl⟩ := Core.transferFrom_cases hpaid
      have hcredit := credit_self hc
      simp only [Held, Spares, taken] at hheld ⊢
      by_cases hsender : sender = governance
      · subst hsender
        have hdebit := debit_self hd
        rw [if_pos rfl]
        omega
      · rw [debit_of_ne hd (Ne.symm hsender)] at hcredit
        rw [if_neg hsender]
        omega
  | withdraw amount =>
      obtain ⟨world, hw, hs⟩ := Option.bind_eq_some_iff.mp hcall
      cases hs
      obtain ⟨core, stake, totalStake, hpaid, hstake, htotal, rfl⟩ := World.withdraw_cases hw
      have hsum := total_debit hstake
      have hstaked := h.staked
      refine ⟨⟨h.conserved.transfer hpaid, by simp only; omega⟩, fun hheld => ?_⟩
      obtain ⟨debited, balanceOf, hd, hc, rfl⟩ := Core.transfer_eq_some.mp hpaid
      have hdebit := debit_self hd
      have hcredit := le_credit hc governance
      simp only [Held, Spares, taken] at hheld ⊢
      omega
  | propose target data =>
      obtain ⟨world, hw, hs⟩ := Option.bind_eq_some_iff.mp hcall
      cases hs
      obtain ⟨nextProposalId, voteEnd, -, -, rfl⟩ := World.propose_cases hw
      exact ⟨h.of_eq rfl rfl rfl, fun hheld => iff_of_true hheld hheld⟩
  | vote id support =>
      obtain ⟨world, hw, hs⟩ := Option.bind_eq_some_iff.mp hcall
      cases hs
      obtain ⟨-, counted, -, rfl⟩ := World.vote_cases hw
      exact ⟨h.of_eq rfl rfl rfl, fun hheld => iff_of_true hheld hheld⟩
  | onAction target selector data =>
      cases hcall
      exact ⟨h.of_eq rfl rfl rfl, fun hheld => iff_of_true hheld hheld⟩
  | view =>
      cases hcall
      exact ⟨h, fun hheld => iff_of_true hheld hheld⟩

/-- `execute` itself moves nothing. -/
theorem Accounted.execute {id : U256} {made : Executed} (h : x.Accounted)
    (hexec : x.execute now id = some (x', made)) :
    x'.Accounted ∧ ∀ governance, x.Held governance → x'.Held governance := by
  simp only [Snapshot.execute, Option.bind_eq_bind, Option.bind_eq_some_iff, Option.pure_def,
    Option.some.injEq, Prod.mk.injEq] at hexec
  obtain ⟨_, -, _, -, _, -, _, -, rfl, -⟩ := hexec
  exact ⟨h.of_eq rfl rfl rfl, fun _ hheld => hheld⟩

end Snapshot

/-! ## Runs -/

namespace State
variable {env : Deployment} {s s' : State} {ev : Event}

/-- If the event delivers a call that is accepted, the call spares the stakes. -/
def SparesStakes (env : Deployment) (s : State) (ev : Event) : Prop :=
  ∀ sender call x, s.delivers env ev = some (sender, .call call) →
    s.current.handle env.governance s.now sender call = some x →
    s.current.Spares env.governance sender call

/-- After an accepted call the contracts are as the call left them. -/
theorem current_of_delivers {sender : Address} {call : Call} {x : Snapshot}
    (h : s.step env ev = some s') (hd : s.delivers env ev = some (sender, .call call))
    (hx : s.current.handle env.governance s.now sender call = some x) : s'.current = x := by
  cases ev with
  | message sender m =>
      cases hd
      obtain ⟨_, -, hperform⟩ := Option.bind_eq_some_iff.mp h
      simp only [perform, hx, Option.bind_eq_bind, Option.bind_some, Option.pure_def,
        Option.some.injEq] at hperform
      rw [← hperform]
      rfl
  | own =>
      obtain ⟨m, htodo, hown⟩ := Option.bind_eq_some_iff.mp h
      rw [delivers, htodo] at hd
      cases hd
      have hcurrent : ({ s with calls := s.calls.become (.own none) } : State).current = s.current :=
        s.calls.become_current _
      simp only [perform, hcurrent, hx, Option.bind_eq_bind, Option.bind_some, Option.pure_def]
        at hown
      cases hown
      rfl
  | tick now => cases hd
  | enter => cases hd
  | leave ok => cases hd

/-- The stakes are accounted for and held. -/
def Funded (governance : Address) (x : Snapshot) : Prop := x.Accounted ∧ x.Held governance

/-- **One event.** Funded stakes stay funded, in every saved state too, when the event spares
them. -/
theorem funded_step (hs : s.calls.Holds (Funded env.governance)) (h : s.step env ev = some s')
    (hspares : s.SparesStakes env ev) : s'.calls.Holds (Funded env.governance) := by
  obtain ⟨haccounted, hheld⟩ := hs.current
  refine (step_holds h hs ?_ ?_).1
  · intro sender call x hd hx
    obtain ⟨haccounted', hiff⟩ := haccounted.handle hx
    exact ⟨haccounted', (hiff hheld).mpr (hspares sender call x hd hx)⟩
  · intro sender id x made _ hx
    obtain ⟨haccounted', hkept⟩ := haccounted.execute hx
    exact ⟨haccounted', hkept _ hheld⟩

/-- An event after which the stakes are held spared them. -/
theorem spares_of_held (hs : s.calls.Holds (Funded env.governance)) (h : s.step env ev = some s')
    (hheld' : s'.current.Held env.governance) : s.SparesStakes env ev := by
  obtain ⟨haccounted, hheld⟩ := hs.current
  intro sender call x hd hx
  obtain ⟨-, hiff⟩ := haccounted.handle hx
  rw [current_of_delivers h hd hx] at hheld'
  exact (hiff hheld).mp hheld'

end State

/-- The accepted events of a run. -/
def moves (env : Deployment) (admin : Address) (setup : List (Tx Core.Call)) (now : U256)
    (evs : List Event) : List (Move State Event) :=
  trace (State.step env) (start admin setup now) evs

theorem deploy_accounted (admin : Address) (setup : List (Tx Core.Call)) :
    (Snapshot.deploy (Core.run admin setup)).Accounted where
  conserved := Core.run_conserved admin setup
  staked := by simp [Snapshot.deploy, deploy, total]

/-- In every run `totalStake` is the sum of the stakes, whatever proposals execute. -/
theorem run_accounted (env : Deployment) (admin : Address) (setup : List (Tx Core.Call))
    (now : U256) (evs : List Event) : (run env admin setup now evs).current.Accounted := by
  let P (s : State) : Prop := s.calls.Holds Snapshot.Accounted
  have hrun : P (run env admin setup now evs) := by
    apply revert_induction P (Stack.holds_nil.mpr (deploy_accounted admin setup))
    intro s ev s' hs hstep
    exact (State.step_holds hstep hs (fun _ _ _ _ hx => (hs.current.handle hx).1)
      (fun _ _ _ _ _ hx => (hs.current.execute hx).1)).1
  exact hrun.current

/-- **When stakes are redeemable.** In a run every staker can withdraw the full stake in every state
reached exactly when every accepted call took no more than the contract held beyond the stakes. -/
theorem stakes_redeemable_iff (env : Deployment) (admin : Address) (setup : List (Tx Core.Call))
    (now : U256) (evs : List Event) :
    (∀ m ∈ moves env admin setup now evs,
      m.post.current.Redeemable env.governance m.post.now) ↔
      ∀ m ∈ moves env admin setup now evs, m.pre.SparesStakes env m.call := by
  let P (s : State) (tr : List (Move State Event)) : Prop :=
    ((∀ m ∈ tr, m.post.current.Redeemable env.governance m.post.now) ↔
      ∀ m ∈ tr, m.pre.SparesStakes env m.call) ∧
    ((∀ m ∈ tr, m.pre.SparesStakes env m.call) → s.calls.Holds (State.Funded env.governance))
  have hstart : State.Funded env.governance (.deploy (Core.run admin setup)) :=
    ⟨deploy_accounted admin setup, Nat.zero_le _⟩
  have hrun : P (run env admin setup now evs) (moves env admin setup now evs) := by
    apply trace_run_induction
    · exact ⟨by simp, fun _ => Stack.holds_nil.mpr hstart⟩
    · rintro s tr ev s' ⟨hiff, hfunded⟩ hstep
      simp only [P, List.forall_mem_append, List.forall_mem_singleton]
      refine ⟨⟨?_, ?_⟩, ?_⟩
      · rintro ⟨hprev, hlast⟩
        have hspared := hiff.mp hprev
        exact ⟨hspared, State.spares_of_held (hfunded hspared) hstep hlast.held⟩
      · rintro ⟨hspared, hlast⟩
        obtain ⟨haccounted, hheld⟩ := (State.funded_step (hfunded hspared) hstep hlast).current
        exact ⟨hiff.mpr hspared, haccounted.redeemable hheld _⟩
      · rintro ⟨hspared, hlast⟩
        exact State.funded_step (hfunded hspared) hstep hlast
  exact hrun.1

/-! ## A proposal that takes the stakes -/

/-- The number a big-endian byte string says. -/
def number (bs : Bytes) : Nat := bs.foldl (fun n b => n * 256 + b.toNat) 0

/-- The selector of `transfer(address,uint256)`. -/
def transferSelector : Bytes := [0xa9, 0x05, 0x9c, 0xbb]

def transferData (toAddr : Address) (amount : U256) : Bytes :=
  transferSelector ++ (bigEndian 32 toAddr.toNat ++ packWord amount)

/-- What the token makes of the call data of a `transfer`. -/
def transferAbi (token target : Address) (data : Bytes) : Option Message :=
  if target = token ∧ data.length = 68 ∧ data.take 4 = transferSelector then
    some (.call (.token (.transfer (BitVec.ofNat 160 (number ((data.drop 4).take 32)))
      (BitVec.ofNat 256 (number (data.drop 36))))))
  else none

/-- The contract is at 20 and the token at 30. -/
def sample : Deployment := ⟨20, 30, transferAbi 30⟩

/-- Account 7 holds 2 CORE and lets the contract spend them. -/
def sampleSetup : List (Tx Core.Call) := [⟨1, .mint 7 (2 * ether)⟩, ⟨7, .approve 20 (2 * ether)⟩]

/-- Account 7 stakes its CORE; a proposal to send it to account 9 is passed and executed. -/
def drain : List Event :=
  [.message 7 (.call (.stake (2 * ether))),
    .message 7 (.call (.propose 30 (transferData 9 (2 * ether)))),
    .message 7 (.call (.vote 0 true)), .tick 864000, .message 8 (.execute 0), .own, .leave true]

/-- The stake is still on record, and the contract holds nothing. -/
theorem stakes_drained :
    ¬ ∀ m ∈ moves sample 1 sampleSetup 0 drain,
      m.post.current.Redeemable sample.governance m.post.now := by
  intro h
  have hlast : ∃ m ∈ moves sample 1 sampleSetup 0 drain,
      ¬ m.post.current.Held sample.governance := by
    decide +kernel
  obtain ⟨m, hm, hnot⟩ := hlast
  exact hnot (h m hm).held

end ChainBeasts.Contracts.Governance.Execution
