import ChainBeasts.Evm.Word

/-! # Ether

The balances of all accounts, in wei, as naturals: no balance comes near a word's limit. Every
movement of ether is a `pay`, and what it does is one equation for each account, also where an
account pays itself. -/

namespace ChainBeasts.Evm

variable {K : Type} [DecidableEq K]

/-- `src` pays `amount` to `dst`, unless it does not have it. -/
def pay (ether : K → Nat) (src dst : K) (amount : Nat) : Option (K → Nat) := do
  require (amount ≤ ether src)
  let debited := Function.update ether src (ether src - amount)
  return Function.update debited dst (debited dst + amount)

/-- What an account pays or gets when `amount` moves at `k`. -/
def share (k : K) (amount : Nat) (j : K) : Nat := if j = k then amount else 0

@[simp] theorem share_self (k : K) (amount : Nat) : share k amount k = amount := if_pos rfl

theorem share_of_ne {k j : K} {amount : Nat} (h : j ≠ k) : share k amount j = 0 := if_neg h

@[simp] theorem share_zero (k j : K) : share k 0 j = 0 := ite_self 0

variable {ether ether' : K → Nat} {src dst : K} {amount : Nat}

/-- **One payment**, account by account. -/
theorem pay_cases (h : pay ether src dst amount = some ether') :
    amount ≤ ether src ∧
      ∀ j, ether' j + share src amount j = ether j + share dst amount j := by
  simp only [pay, Option.bind_eq_bind, Option.bind_eq_some_iff, require_eq_some, Option.pure_def,
    Option.some.injEq] at h
  obtain ⟨_, hle, rfl⟩ := h
  refine ⟨hle, fun j => ?_⟩
  simp only [share, Function.update_apply]
  by_cases hsrc : j = src
  · by_cases hdst : j = dst
    · subst hsrc hdst
      simp only [if_true]
      omega
    · subst hsrc
      simp only [if_neg hdst, if_true]
      omega
  · by_cases hdst : j = dst
    · subst hdst
      simp [hsrc]
    · simp [hsrc, hdst]

theorem exists_pay (h : amount ≤ ether src) : ∃ ether', pay ether src dst amount = some ether' := by
  simp [pay, require, h]

/-! ## Movements -/

/-- `amount` moves from `src` to `dst`, and nothing else does. -/
def Moves (ether ether' : K → Nat) (src dst : K) (amount : Nat) : Prop :=
  ∀ j, ether' j + share src amount j = ether j + share dst amount j

theorem share_add (k : K) (m n : Nat) (j : K) : share k (m + n) j = share k m j + share k n j := by
  by_cases h : j = k <;> simp [share, h]

theorem pay_moves (h : pay ether src dst amount = some ether') :
    Moves ether ether' src dst amount := (pay_cases h).2

@[simp] theorem moves_zero : Moves ether ether src dst 0 := fun _ => by simp

theorem Moves.payee (h : Moves ether ether' src dst amount) (hne : dst ≠ src) :
    ether' dst = ether dst + amount := by
  have hdst := h dst
  rwa [share_of_ne hne, share_self] at hdst

theorem Moves.of_ne {j : K} (h : Moves ether ether' src dst amount) (hsrc : j ≠ src)
    (hdst : j ≠ dst) : ether' j = ether j := by
  have hj := h j
  rwa [share_of_ne hsrc, share_of_ne hdst] at hj

/-- What the payee gives back was not paid. -/
theorem Moves.refund {ether₁ : K → Nat} {kept : Nat} (h₁ : Moves ether ether₁ src dst amount)
    (h₂ : Moves ether₁ ether' dst src (amount - kept)) (hle : kept ≤ amount) :
    Moves ether ether' src dst kept := by
  intro j
  have hpaid := h₁ j
  have hback := h₂ j
  rw [← Nat.sub_add_cancel hle, share_add, share_add] at hpaid
  omega

/-- A payment comes in, part of it is passed on and the rest goes back. -/
theorem Moves.passOn {ether₁ ether₂ : K → Nat} {via : K} {price : Nat}
    (h₁ : Moves ether ether₁ src via amount) (h₂ : Moves ether₁ ether₂ via dst price)
    (h₃ : Moves ether₂ ether' via src (amount - price)) (hle : price ≤ amount) :
    Moves ether ether' src dst price := by
  intro j
  have hpaid := h₁ j
  have hpassed := h₂ j
  have hback := h₃ j
  rw [← Nat.sub_add_cancel hle, share_add, share_add] at hpaid
  omega

end ChainBeasts.Evm
