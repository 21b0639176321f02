import ChainBeasts.Evm.Word

/-! # Balance sheets

A token keeps a mapping from accounts to amounts. The two writes every token makes are `credit`
and `debit`; each is characterised once, entry by entry and in total, and the token contracts use
nothing else about them. -/

namespace ChainBeasts.Evm

variable {K : Type} [DecidableEq K]

/-- `m[k] += amount`. -/
def credit (m : K → U256) (k : K) (amount : U256) : Option (K → U256) := do
  let v ← checkedAdd (m k) amount
  return Function.update m k v

/-- `require(m[k] >= amount); m[k] -= amount`. -/
def debit (m : K → U256) (k : K) (amount : U256) : Option (K → U256) := do
  require (amount ≤ m k)
  let v ← checkedSub (m k) amount
  return Function.update m k v

theorem credit_eq_some {m m' : K → U256} {k : K} {amount : U256} :
    credit m k amount = some m' ↔
      ∃ v, v.toNat = (m k).toNat + amount.toNat ∧ m' = Function.update m k v := by
  simp only [credit, Option.bind_eq_bind, Option.bind_eq_some_iff, checkedAdd_eq_some,
    Option.pure_def, Option.some.injEq, @eq_comm _ m']

theorem debit_eq_some {m m' : K → U256} {k : K} {amount : U256} :
    debit m k amount = some m' ↔
      ∃ v, v.toNat + amount.toNat = (m k).toNat ∧ m' = Function.update m k v := by
  simp only [debit, Option.bind_eq_bind, Option.bind_eq_some_iff, require_eq_some,
    checkedSub_eq_some, Option.pure_def, Option.some.injEq, BitVec.le_def]
  constructor
  · rintro ⟨_, _, v, hv, rfl⟩
    exact ⟨v, hv, rfl⟩
  · rintro ⟨v, hv, rfl⟩
    exact ⟨(), by omega, v, hv, rfl⟩

theorem exists_credit {m : K → U256} {k : K} {amount : U256}
    (h : (m k).toNat + amount.toNat < 2 ^ 256) : ∃ m', credit m k amount = some m' := by
  obtain ⟨v, hv⟩ := exists_checkedAdd h
  exact ⟨_, credit_eq_some.mpr ⟨v, checkedAdd_eq_some.mp hv, rfl⟩⟩

theorem exists_debit {m : K → U256} {k : K} {amount : U256} (h : amount.toNat ≤ (m k).toNat) :
    ∃ m', debit m k amount = some m' := by
  obtain ⟨v, hv⟩ := exists_checkedSub h
  exact ⟨_, debit_eq_some.mpr ⟨v, checkedSub_eq_some.mp hv, rfl⟩⟩

theorem credit_self {m m' : K → U256} {k : K} {amount : U256} (h : credit m k amount = some m') :
    (m' k).toNat = (m k).toNat + amount.toNat := by
  obtain ⟨v, hv, rfl⟩ := credit_eq_some.mp h
  rwa [Function.update_self]

theorem credit_of_ne {m m' : K → U256} {k j : K} {amount : U256}
    (h : credit m k amount = some m') (hj : j ≠ k) : m' j = m j := by
  obtain ⟨v, -, rfl⟩ := credit_eq_some.mp h
  exact Function.update_of_ne hj v m

theorem debit_self {m m' : K → U256} {k : K} {amount : U256} (h : debit m k amount = some m') :
    (m' k).toNat + amount.toNat = (m k).toNat := by
  obtain ⟨v, hv, rfl⟩ := debit_eq_some.mp h
  rwa [Function.update_self]

theorem debit_of_ne {m m' : K → U256} {k j : K} {amount : U256}
    (h : debit m k amount = some m') (hj : j ≠ k) : m' j = m j := by
  obtain ⟨v, -, rfl⟩ := debit_eq_some.mp h
  exact Function.update_of_ne hj v m

/-- A credit never lowers an entry. -/
theorem le_credit {m m' : K → U256} {k : K} {amount : U256} (h : credit m k amount = some m')
    (j : K) : (m j).toNat ≤ (m' j).toNat := by
  by_cases hj : j = k
  · subst hj
    have := credit_self h
    omega
  · rw [credit_of_ne h hj]

/-- What an entry pays to itself it keeps. -/
theorem credit_debit_self {m debited m' : K → U256} {k : K} {amount : U256}
    (hd : debit m k amount = some debited) (hc : credit debited k amount = some m') : m' = m := by
  obtain ⟨v, hv, rfl⟩ := debit_eq_some.mp hd
  obtain ⟨w, hw, rfl⟩ := credit_eq_some.mp hc
  rw [Function.update_self, hv] at hw
  rw [Function.update_idem, BitVec.eq_of_toNat_eq hw]
  exact Function.update_eq_self k m

/-! ## Issue

A mint read forwards and a burn read backwards: `n` units are issued to `k`. -/

/-- The entry at `k` and the supply are up by `n`; no other entry moved. -/
structure Issued (k : K) (n : Nat) (m m' : K → U256) (supply supply' : U256) : Prop where
  owner : (m' k).toNat = (m k).toNat + n
  others : ∀ j, j ≠ k → m' j = m j
  supply : supply'.toNat = supply.toNat + n

omit [DecidableEq K] in
theorem Issued.nothing (k : K) (m : K → U256) (supply : U256) : Issued k 0 m m supply supply :=
  ⟨rfl, fun _ _ => rfl, rfl⟩

theorem Issued.of_credit {m m' : K → U256} {k : K} {amount supply supply' : U256}
    (h : credit m k amount = some m') (hs : supply'.toNat = supply.toNat + amount.toNat) :
    Issued k amount.toNat m m' supply supply' :=
  ⟨credit_self h, fun _ hj => credit_of_ne h hj, hs⟩

theorem Issued.of_debit {m m' : K → U256} {k : K} {amount supply supply' : U256}
    (h : debit m k amount = some m') (hs : supply'.toNat + amount.toNat = supply.toNat) :
    Issued k amount.toNat m' m supply' supply :=
  ⟨(debit_self h).symm, fun _ hj => (debit_of_ne h hj).symm, hs.symm⟩

/-! ## Totals -/

variable [Fintype K]

/-- The sum of all entries. -/
def total (m : K → U256) : Nat := ∑ k, (m k).toNat

theorem total_credit {m m' : K → U256} {k : K} {amount : U256}
    (h : credit m k amount = some m') : total m' = total m + amount.toNat := by
  obtain ⟨v, hv, rfl⟩ := credit_eq_some.mp h
  have := sum_update (fun _ => BitVec.toNat) m k v
  simp only [total]
  omega

theorem total_debit {m m' : K → U256} {k : K} {amount : U256}
    (h : debit m k amount = some m') : total m' + amount.toNat = total m := by
  obtain ⟨v, hv, rfl⟩ := debit_eq_some.mp h
  have := sum_update (fun _ => BitVec.toNat) m k v
  simp only [total]
  omega

theorem total_moved {m debited m' : K → U256} {j k : K} {amount : U256}
    (hd : debit m j amount = some debited) (hc : credit debited k amount = some m') :
    total m' = total m := by
  have hdebit := total_debit hd
  have hcredit := total_credit hc
  omega

omit [DecidableEq K] in
theorem le_total (m : K → U256) (k : K) : (m k).toNat ≤ total m :=
  le_sum_mapping BitVec.toNat m k

end ChainBeasts.Evm
