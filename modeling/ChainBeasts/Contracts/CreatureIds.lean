import ChainBeasts.Contracts.CreatureNFT
import ChainBeasts.Machine

/-! # Token ids

Ids come from the counter of `CreatureNFT`, or over the bridge from anywhere. The counter stays
above every id that ever was in use, however far the bridge jumps ahead (`ids_fresh`): an id that
would take it past the last word is refused.

`this` is the token contract's own address. No call comes from the zero address. -/

namespace ChainBeasts.Contracts.CreatureNFT

open ChainBeasts.Evm ChainBeasts.Machine

/-- A call by an account, with what it reads outside the contract. -/
def accept (keccak256 : Bytes → Bytes32) (this : Address) (s : CreatureNFT) (e : Env × Tx Call) :
    Option CreatureNFT := do
  require (e.2.sender ≠ zeroAddress)
  s.step keccak256 this e.1 e.2.sender e.2.call

def run (keccak256 : Bytes → Bytes32) (this : Address) (txs : List (Env × Tx Call)) : CreatureNFT :=
  exec (revert (accept keccak256 this)) deploy txs

/-- Nothing is known of the token. -/
structure Untouched (s : CreatureNFT) (id : U256) : Prop where
  owner : s.ownerOf id = zeroAddress
  creature : s.creatures id = .empty
  approval : s.getApproved id = zeroAddress

/-- Nothing is known of the ids the counter has not reached. -/
def Fresh (s : CreatureNFT) : Prop := ∀ id, s.nextId ≤ id → s.Untouched id

theorem deploy_fresh : deploy.Fresh := fun _ _ => ⟨rfl, rfl, rfl⟩

/-! ## What a call does to an id -/

variable {keccak256 : Bytes → Bytes32} {s s' : CreatureNFT} {env : Env}
  {this sender toAddr : Address} {id : U256}

theorem Untouched.of_eq (h : s.Untouched id) (howner : s'.ownerOf id = s.ownerOf id)
    (hcreature : s'.creatures id = s.creatures id)
    (happroval : s'.getApproved id = s.getApproved id) : s'.Untouched id :=
  ⟨howner.trans h.owner, hcreature.trans h.creature, happroval.trans h.approval⟩

theorem nextId_le_mintNext {w : Bytes} {dna : Bytes32} (h : s.mintNext toAddr w dna = some s') :
    s.nextId < s'.nextId := by
  obtain ⟨nextId, hnext, rfl⟩ := mintNext_cases h
  rw [BitVec.lt_def, hnext]
  exact Nat.lt_succ_self _

/-- The counter takes one id, and leaves the others alone. -/
theorem mintNext_untouched {w : Bytes} {dna : Bytes32} (h : s.mintNext toAddr w dna = some s')
    (hid : s'.nextId ≤ id) (hs : s.Untouched id) : s'.Untouched id := by
  have hlt := nextId_le_mintNext h
  have hne : id ≠ s.nextId := by
    rintro rfl
    exact BitVec.not_le.mpr hlt hid
  obtain ⟨nextId, -, rfl⟩ := mintNext_cases h
  exact hs.of_eq (Function.update_of_ne hne _ _) (Function.update_of_ne hne _ _) rfl

/-- **One call** never lowers the counter, and leaves the ids above it alone. -/
theorem step_untouched {call : Call} (hsender : sender ≠ zeroAddress)
    (h : s.step keccak256 this env sender call = some s') :
    s.nextId ≤ s'.nextId ∧ ∀ id, s'.nextId ≤ id → s.Untouched id → s'.Untouched id := by
  cases call with
  | setSeasonRegistry reg =>
      obtain rfl := setSeasonRegistry_cases h
      exact ⟨BitVec.le_refl _, fun id _ hs => hs.of_eq rfl rfl rfl⟩
  | setMarketplace m =>
      obtain rfl := setMarketplace_cases h
      exact ⟨BitVec.le_refl _, fun id _ hs => hs.of_eq rfl rfl rfl⟩
  | setBridge b =>
      obtain ⟨-, rfl⟩ := setBridge_cases h
      exact ⟨BitVec.le_refl _, fun id _ hs => hs.of_eq rfl rfl rfl⟩
  | setCore c =>
      obtain rfl := setCore_cases h
      exact ⟨BitVec.le_refl _, fun id _ hs => hs.of_eq rfl rfl rfl⟩
  | hatch w =>
      obtain ⟨dna, minted, hminted, rfl⟩ := hatch_cases h
      have hlt : s.nextId < minted.nextId := nextId_le_mintNext hminted
      refine ⟨BitVec.le_of_lt hlt, fun id hid hs => ?_⟩
      have hkept : minted.Untouched id := mintNext_untouched hminted hid hs
      exact hkept.of_eq rfl rfl rfl
  | approve toAddr t =>
      obtain ⟨howner, rfl⟩ := approve_cases h
      refine ⟨BitVec.le_refl _, fun id _ hs => ?_⟩
      -- nobody owns the token
      have hne : id ≠ t := by
        rintro rfl
        rw [hs.owner] at howner
        exact hsender howner.symm
      exact hs.of_eq rfl rfl (Function.update_of_ne hne _ _)
  | transferFrom fromAddr toAddr t =>
      obtain ⟨rfl, hauth, rfl⟩ := transferFrom_cases h
      refine ⟨BitVec.le_refl _, fun id _ hs => ?_⟩
      -- nobody owns the token or is approved for it
      have hne : id ≠ t := by
        rintro rfl
        rw [hs.owner, hs.approval, or_self] at hauth
        exact hsender hauth
      exact hs.of_eq (Function.update_of_ne hne _ _) rfl (Function.update_of_ne hne _ _)
  | breed toAddr w =>
      obtain ⟨dna, hminted⟩ := breed_cases h
      exact ⟨BitVec.le_of_lt (nextId_le_mintNext hminted), fun id => mintNext_untouched hminted⟩
  | mintFromBridge toAddr t w dna =>
      obtain ⟨-, -, nextId, hraise, rfl⟩ := mintFromBridge_cases h
      obtain ⟨hle, hlt⟩ := raiseNextId_cases hraise
      refine ⟨BitVec.le_def.mpr hle, fun id hid hs => ?_⟩
      have hne : id ≠ t := by
        rintro rfl
        exact BitVec.not_le.mpr (BitVec.lt_def.mpr hlt) hid
      exact hs.of_eq (Function.update_of_ne hne _ _) (Function.update_of_ne hne _ _) rfl
  | burnFromBridge t =>
      obtain ⟨-, -, rfl⟩ := burnFromBridge_cases h
      refine ⟨BitVec.le_refl _, fun id _ hs => ?_⟩
      by_cases hid : id = t
      · subst hid
        exact ⟨Function.update_self _ _ _, Function.update_self _ _ _, Function.update_self _ _ _⟩
      · exact hs.of_eq (Function.update_of_ne hid _ _) (Function.update_of_ne hid _ _)
          (Function.update_of_ne hid _ _)
  | lockTraits t packedTraits nameHash =>
      obtain rfl := lockTraits_cases h
      exact ⟨BitVec.le_refl _, fun id _ hs => hs.of_eq rfl rfl rfl⟩

/-! ## What a call does to one token -/

/-- A token without an owner is approved for nobody. -/
def Unapproved (s : CreatureNFT) : Prop :=
  ∀ id, s.ownerOf id = zeroAddress → s.getApproved id = zeroAddress

/-- What every call keeps. -/
structure Tidy (s : CreatureNFT) : Prop where
  fresh : s.Fresh
  unapproved : s.Unapproved

theorem deploy_tidy : deploy.Tidy := ⟨deploy_fresh, fun _ _ => rfl⟩

/-- How a call changes the owner and the approval of the token `id`. -/
inductive Touch (this : Address) (s : CreatureNFT) (sender : Address) (id : U256)
    (s' : CreatureNFT) : Call → Prop
  | kept {call : Call} (owner : s'.ownerOf id = s.ownerOf id)
      (approval : s'.getApproved id = s.getApproved id) : Touch this s sender id s' call
  | approved {toAddr : Address} (auth : s.ownerOf id = sender) (owner : s'.ownerOf id = s.ownerOf id)
      (approval : s'.getApproved id = toAddr) : Touch this s sender id s' (.approve toAddr id)
  | moved {fromAddr toAddr : Address} (auth : s.ownerOf id = fromAddr) (owner : s'.ownerOf id = toAddr)
      (approval : s'.getApproved id = zeroAddress) :
      Touch this s sender id s' (.transferFrom fromAddr toAddr id)
  | minted {call : Call} (unowned : s.ownerOf id = zeroAddress)
      (approval : s'.getApproved id = zeroAddress) : Touch this s sender id s' call
  | burned (auth : s.ownerOf id = this) (approval : s'.getApproved id = zeroAddress) :
      Touch this s sender id s' (.burnFromBridge id)

theorem Fresh.touch_mintNext {call : Call} {w : Bytes} {dna : Bytes32} (hs : s.Fresh)
    (h : s.mintNext toAddr w dna = some s') (id : U256) : Touch this s sender id s' call := by
  obtain ⟨nextId, -, rfl⟩ := mintNext_cases h
  have hnext := hs s.nextId (BitVec.le_refl _)
  by_cases hid : id = s.nextId
  · subst hid
    exact .minted hnext.owner hnext.approval
  · exact .kept (Function.update_of_ne hid _ _) rfl

/-- **One call and one token.** -/
theorem Tidy.touch {call : Call} (hs : s.Tidy)
    (h : s.step keccak256 this env sender call = some s') (id : U256) :
    Touch this s sender id s' call := by
  cases call with
  | setSeasonRegistry reg =>
      obtain rfl := setSeasonRegistry_cases h
      exact .kept rfl rfl
  | setMarketplace m =>
      obtain rfl := setMarketplace_cases h
      exact .kept rfl rfl
  | setBridge b =>
      obtain ⟨-, rfl⟩ := setBridge_cases h
      exact .kept rfl rfl
  | setCore c =>
      obtain rfl := setCore_cases h
      exact .kept rfl rfl
  | hatch w =>
      obtain ⟨dna, minted, hminted, rfl⟩ := hatch_cases h
      have hmint : Touch this s sender id minted (.hatch w) := hs.fresh.touch_mintNext hminted id
      cases hmint with
      | kept owner approval => exact .kept owner approval
      | minted unowned approval => exact .minted unowned approval
  | approve toAddr t =>
      obtain ⟨howner, rfl⟩ := approve_cases h
      by_cases hid : id = t
      · subst hid
        exact .approved howner rfl (Function.update_self _ _ _)
      · exact .kept rfl (Function.update_of_ne hid _ _)
  | transferFrom fromAddr toAddr t =>
      obtain ⟨howner, -, rfl⟩ := transferFrom_cases h
      by_cases hid : id = t
      · subst hid
        exact .moved howner (Function.update_self _ _ _) (Function.update_self _ _ _)
      · exact .kept (Function.update_of_ne hid _ _) (Function.update_of_ne hid _ _)
  | breed toAddr w =>
      obtain ⟨dna, hminted⟩ := breed_cases h
      exact hs.fresh.touch_mintNext hminted id
  | mintFromBridge toAddr t w dna =>
      obtain ⟨-, hunowned, nextId, -, rfl⟩ := mintFromBridge_cases h
      by_cases hid : id = t
      · subst hid
        exact .minted hunowned (hs.unapproved id hunowned)
      · exact .kept (Function.update_of_ne hid _ _) rfl
  | burnFromBridge t =>
      obtain ⟨-, howner, rfl⟩ := burnFromBridge_cases h
      by_cases hid : id = t
      · subst hid
        exact .burned howner (Function.update_self _ _ _)
      · exact .kept (Function.update_of_ne hid _ _) (Function.update_of_ne hid _ _)
  | lockTraits t packedTraits nameHash =>
      obtain rfl := lockTraits_cases h
      exact .kept rfl rfl

theorem Tidy.step {call : Call} (hs : s.Tidy) (hsender : sender ≠ zeroAddress)
    (h : s.step keccak256 this env sender call = some s') : s'.Tidy := by
  obtain ⟨hle, hkept⟩ := step_untouched hsender h
  refine ⟨fun id hid => hkept id hid (hs.fresh id (BitVec.le_trans hle hid)), fun id hunowned => ?_⟩
  cases hs.touch h id with
  | kept owner approval =>
      rw [owner] at hunowned
      exact approval.trans (hs.unapproved id hunowned)
  | approved auth owner approval =>
      rw [owner, auth] at hunowned
      exact absurd hunowned hsender
  | moved auth owner approval => exact approval
  | minted unowned approval => exact approval
  | burned auth approval => exact approval

/-! ## Every run -/

theorem accept_cases {e : Env × Tx Call} (h : accept keccak256 this s e = some s') :
    e.2.sender ≠ zeroAddress ∧ s.step keccak256 this e.1 e.2.sender e.2.call = some s' := by
  obtain ⟨_, hsender, hstep⟩ := Option.bind_eq_some_iff.mp h
  exact ⟨require_eq_some.mp hsender, hstep⟩

theorem Fresh.accept {e : Env × Tx Call} (hs : s.Fresh)
    (h : CreatureNFT.accept keccak256 this s e = some s') : s'.Fresh ∧ s.nextId ≤ s'.nextId := by
  obtain ⟨hsender, hstep⟩ := accept_cases h
  obtain ⟨hle, hkept⟩ := step_untouched hsender hstep
  exact ⟨fun id hid => hkept id hid (hs id (BitVec.le_trans hle hid)), hle⟩

theorem run_fresh (keccak256 : Bytes → Bytes32) (this : Address) (txs : List (Env × Tx Call)) :
    (run keccak256 this txs).Fresh :=
  revert_induction Fresh deploy_fresh (fun _ _ _ hs h => (hs.accept h).1) txs

/-- The counter never goes back. -/
theorem nextId_le_run (keccak256 : Bytes → Bytes32) (this : Address)
    (before after : List (Env × Tx Call)) :
    (run keccak256 this before).nextId ≤ (run keccak256 this (before ++ after)).nextId := by
  rw [run, run, exec_append]
  refine (revert_induction (fun t : CreatureNFT => t.Fresh ∧
    (run keccak256 this before).nextId ≤ t.nextId) ?_ ?_ after).2
  · exact ⟨run_fresh keccak256 this before, BitVec.le_refl _⟩
  · rintro t e t' ⟨hfresh, hle⟩ h
    obtain ⟨hfresh', hle'⟩ := hfresh.accept h
    exact ⟨hfresh', BitVec.le_trans hle hle'⟩

/-- A new token at `id`: no state of the run so far knew it, and nothing else is overwritten. -/
structure NewToken (keccak256 : Bytes → Bytes32) (this : Address) (txs : List (Env × Tx Call))
    (s' : CreatureNFT) (id : U256) (owner : Address) : Prop where
  unknown : ∀ before after, txs = before ++ after → (run keccak256 this before).Untouched id
  minted : s'.ownerOf id = owner
  owners : ∀ j, j ≠ id → s'.ownerOf j = (run keccak256 this txs).ownerOf j
  creatures : ∀ j, j ≠ id → s'.creatures j = (run keccak256 this txs).creatures j
  approvals : s'.getApproved = (run keccak256 this txs).getApproved

/-- What the ids of a run guarantee: the counter is above every id that ever had an owner, `hatch`
and `breed` make new tokens at the counter, and the bridge replaces no token that has an owner. -/
structure IdsFresh (keccak256 : Bytes → Bytes32) (this : Address) (txs : List (Env × Tx Call)) :
    Prop where
  below : ∀ before after, txs = before ++ after → ∀ id,
    (run keccak256 this before).ownerOf id ≠ zeroAddress → id < (run keccak256 this txs).nextId
  hatch : ∀ env sender w s', (run keccak256 this txs).hatch keccak256 env sender w = some s' →
    NewToken keccak256 this txs s' (run keccak256 this txs).nextId sender
  breed : ∀ env sender toAddr w s',
    (run keccak256 this txs).breed keccak256 env sender toAddr w = some s' →
    NewToken keccak256 this txs s' (run keccak256 this txs).nextId toAddr
  bridge : ∀ env sender toAddr id w dna s',
    (run keccak256 this txs).mintFromBridge env sender toAddr id w dna = some s' →
    (run keccak256 this txs).ownerOf id = zeroAddress

theorem newToken_mintNext {txs : List (Env × Tx Call)} {w : Bytes} {dna : Bytes32}
    (h : (run keccak256 this txs).mintNext toAddr w dna = some s') :
    NewToken keccak256 this txs s' (run keccak256 this txs).nextId toAddr := by
  obtain ⟨nextId, -, rfl⟩ := mintNext_cases h
  refine ⟨?_, Function.update_self _ _ _, fun j hj => Function.update_of_ne hj _ _,
    fun j hj => Function.update_of_ne hj _ _, rfl⟩
  rintro before after rfl
  exact run_fresh keccak256 this before _ (nextId_le_run keccak256 this before after)

/-- **Ids are fresh** in every run. -/
theorem ids_fresh (keccak256 : Bytes → Bytes32) (this : Address) (txs : List (Env × Tx Call)) :
    IdsFresh keccak256 this txs := by
  refine ⟨?_, ?_, ?_, ?_⟩
  · rintro before after rfl id howner
    by_contra hnot
    have hle := nextId_le_run keccak256 this before after
    have hunknown := run_fresh keccak256 this before id (BitVec.le_trans hle (BitVec.not_lt.mp hnot))
    exact howner hunknown.owner
  · intro env sender w s' h
    obtain ⟨dna, minted, hminted, rfl⟩ := hatch_cases h
    obtain ⟨unknown, howner, owners, creatures, approvals⟩ := newToken_mintNext hminted
    exact ⟨unknown, howner, owners, creatures, approvals⟩
  · intro env sender toAddr w s' h
    obtain ⟨dna, hminted⟩ := breed_cases h
    exact newToken_mintNext hminted
  · intro env sender toAddr id w dna s' h
    exact (mintFromBridge_cases h).2.1

end ChainBeasts.Contracts.CreatureNFT
