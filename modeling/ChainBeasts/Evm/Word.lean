import Mathlib.Algebra.BigOperators.Group.Finset.Piecewise
import Mathlib.Algebra.GroupWithZero.Nat
import Mathlib.Algebra.Order.BigOperators.Group.Finset
import Mathlib.Data.Fintype.EquivFin

/-! # Words, addresses and checked arithmetic

Solidity 0.8 semantics shared by every contract model: 256-bit words, 160-bit addresses, `require`,
and the arithmetic that reverts instead of wrapping. A call is an `Option` computation whose
`none` is a revert. Everything is related to plain naturals by one `iff` for each operation, so
that an invariant about balances is an invariant about `Nat` sums. -/

namespace ChainBeasts.Evm

abbrev Address := BitVec 160
abbrev U256 := BitVec 256
abbrev U32 := BitVec 32
abbrev Bytes32 := BitVec 256
abbrev Bytes := List (BitVec 8)

/-- `address(0)`. -/
abbrev zeroAddress : Address := 0#160

/-- One ether: `10^18`. -/
def ether : U256 := 1000000000000000000#256

/-- A transaction: `msg.sender` and the call it makes. -/
structure Tx (α : Type) where
  sender : Address
  call : α
  deriving DecidableEq

/-- Solidity's `require`: the call reverts unless `p` holds. -/
def require (p : Prop) [Decidable p] : Option Unit := if p then some () else none

@[simp] theorem require_eq_some {p : Prop} [Decidable p] {u : Unit} :
    require p = some u ↔ p := by
  simp [require]

/-! ## Checked arithmetic -/

/-- `a + b` on unsigned `w`-bit words, reverting on overflow. -/
def checkedAdd {w : Nat} (a b : BitVec w) : Option (BitVec w) :=
  if a.toNat + b.toNat < 2 ^ w then some (a + b) else none

/-- `a - b` on unsigned words, reverting on underflow. -/
def checkedSub {w : Nat} (a b : BitVec w) : Option (BitVec w) :=
  if b.toNat ≤ a.toNat then some (a - b) else none

theorem checkedAdd_eq_some {w : Nat} {a b c : BitVec w} :
    checkedAdd a b = some c ↔ c.toNat = a.toNat + b.toNat := by
  simp only [checkedAdd, Option.ite_none_right_eq_some, Option.some.injEq]
  constructor
  · rintro ⟨h, rfl⟩
    rw [BitVec.toNat_add, Nat.mod_eq_of_lt h]
  · intro h
    have hc := c.isLt
    refine ⟨by omega, BitVec.eq_of_toNat_eq ?_⟩
    rw [BitVec.toNat_add, Nat.mod_eq_of_lt (by omega), h]

theorem checkedSub_eq_some {w : Nat} {a b c : BitVec w} :
    checkedSub a b = some c ↔ c.toNat + b.toNat = a.toNat := by
  simp only [checkedSub, Option.ite_none_right_eq_some, Option.some.injEq]
  constructor
  · rintro ⟨h, rfl⟩
    rw [BitVec.toNat_sub_of_le (BitVec.le_def.mpr h)]
    omega
  · intro h
    refine ⟨by omega, BitVec.eq_of_toNat_eq ?_⟩
    rw [BitVec.toNat_sub_of_le (BitVec.le_def.mpr (by omega))]
    omega

/-- An addition that stays in range does not revert. -/
theorem exists_checkedAdd {w : Nat} {a b : BitVec w} (h : a.toNat + b.toNat < 2 ^ w) :
    ∃ c, checkedAdd a b = some c := ⟨a + b, if_pos h⟩

theorem exists_checkedSub {w : Nat} {a b : BitVec w} (h : b.toNat ≤ a.toNat) :
    ∃ c, checkedSub a b = some c := ⟨a - b, if_pos h⟩

/-! ## Mappings

A `mapping(K => V)` is a function, its default the zero value. A total over all keys is a finite
sum because the key types are. -/

instance instFintypeBitVec (w : Nat) : Fintype (BitVec w) :=
  Fintype.ofEquiv (Fin (2 ^ w)) ⟨BitVec.ofFin, BitVec.toFin, fun _ => rfl, fun _ => rfl⟩

section Sums
variable {K V : Type*} [Fintype K] [DecidableEq K]

/-- **One write.** The total after writing `v` at `k` differs by the new value less the old. -/
theorem sum_update (f : K → V → Nat) (m : K → V) (k : K) (v : V) :
    ∑ x, f x (Function.update m k v x) + f k (m k) = ∑ x, f x (m x) + f k v := by
  have hrest : ∑ x ∈ Finset.univ.erase k, f x (Function.update m k v x)
      = ∑ x ∈ Finset.univ.erase k, f x (m x) := by
    apply Finset.sum_congr rfl
    intro x hx
    rw [Function.update_of_ne (Finset.ne_of_mem_erase hx)]
  have hnew := Finset.add_sum_erase Finset.univ (fun x => f x (Function.update m k v x))
    (Finset.mem_univ k)
  have hold := Finset.add_sum_erase Finset.univ (fun x => f x (m x)) (Finset.mem_univ k)
  simp only [Function.update_self, hrest] at hnew
  omega

/-- **One write, counted.** Where the value `a` is written over another one, one more key has it. -/
theorem card_update [DecidableEq V] (m : K → V) (k : K) (v a : V) (hk : m k ≠ a) :
    (Finset.univ.filter fun x => Function.update m k v x = a).card =
      (Finset.univ.filter fun x => m x = a).card + if v = a then 1 else 0 := by
  have hsum := sum_update (fun _ x => if x = a then 1 else 0) m k v
  rw [if_neg hk, Nat.add_zero] at hsum
  rw [Finset.card_filter, Finset.card_filter]
  exact hsum

omit [DecidableEq K] in
/-- One entry is at most the total. -/
theorem le_sum_mapping (f : V → Nat) (m : K → V) (k : K) : f (m k) ≤ ∑ x, f (m x) :=
  Finset.single_le_sum (f := fun x => f (m x)) (fun _ _ => Nat.zero_le _) (Finset.mem_univ k)

/-- Entries at distinct keys add up to at most the total. -/
theorem sum_list_le_sum_mapping (f : V → Nat) (m : K → V) {ks : List K} (h : ks.Nodup) :
    (ks.map fun k => f (m k)).sum ≤ ∑ x, f (m x) := by
  rw [← List.sum_toFinset _ h]
  exact Finset.sum_le_sum_of_subset (Finset.subset_univ _)

end Sums

end ChainBeasts.Evm
