import ChainBeasts.Contracts.CreatureIds
import Mathlib.Data.List.DropRight

/-! # Who may move a token

An approval is wiped by every transfer and burn, and a token nobody owns has none (`Tidy`), so the
bridge, which mints without looking at approvals, cannot revive an old one. What `getApproved`
holds is therefore the last approval given since the token was last acquired, and its giver is the
owner of today (`OnFile`). From that the two ways an owner can change are read off
(`owners_protected`). -/

namespace ChainBeasts.Contracts.CreatureNFT

open ChainBeasts.Evm ChainBeasts.Machine

/-- An accepted call, with the states around it. -/
abbrev Happening := Move CreatureNFT (Env × Tx Call)

/-- The accepted calls of a run, in order. -/
def moves (keccak256 : Bytes → Bytes32) (this : Address) (txs : List (Env × Tx Call)) :
    List Happening :=
  trace (accept keccak256 this) deploy txs

/-- A transfer, burn or bridge mint of the token, also where its owner stays the same. -/
def handsOver (id : U256) : Call → Bool
  | .transferFrom _ _ t => t = id
  | .mintFromBridge _ t _ _ => t = id
  | .burnFromBridge t => t = id
  | _ => false

/-- The token was acquired or given up. -/
def Acquired (id : U256) (m : Happening) : Prop :=
  handsOver id m.call.2.call = true ∨ m.post.ownerOf id ≠ m.pre.ownerOf id

instance (id : U256) (m : Happening) : Decidable (Acquired id m) :=
  inferInstanceAs (Decidable (_ ∨ _))

/-- The calls since the token was last acquired. -/
def tenure (id : U256) (tr : List Happening) : List Happening :=
  tr.rtakeWhile fun m => ¬ Acquired id m

/-- The address a call approves for the token. -/
def grant (id : U256) : Call → Option Address
  | .approve toAddr t => if t = id then some toAddr else none
  | _ => none

/-- The address approved last, or nobody. -/
def lastGrant (id : U256) (tr : List Happening) : Address :=
  (tr.filterMap fun m => grant id m.call.2.call).getLast?.getD zeroAddress

/-! ## One call and the approval -/

variable {keccak256 : Bytes → Bytes32} {s s' : CreatureNFT} {env : Env} {this sender : Address}
  {call : Call} {id : U256}

theorem grant_eq_some {toAddr : Address} (h : grant id call = some toAddr) :
    call = .approve toAddr id := by
  cases call with
  | approve a t =>
      simp only [grant, Option.ite_none_right_eq_some, Option.some.injEq] at h
      rw [h.1, h.2]
  | _ => cases h

/-- A call that gives up the token wipes its approval. -/
theorem Tidy.wiped (hs : s.Tidy) (h : s.step keccak256 this env sender call = some s')
    (hacq : handsOver id call = true ∨ s'.ownerOf id ≠ s.ownerOf id) :
    s'.getApproved id = zeroAddress := by
  obtain hgone | howner := hacq
  · cases call with
    | transferFrom fromAddr toAddr t =>
        obtain rfl : t = id := of_decide_eq_true hgone
        obtain ⟨-, -, rfl⟩ := transferFrom_cases h
        exact Function.update_self _ _ _
    | mintFromBridge toAddr t w dna =>
        obtain rfl : t = id := of_decide_eq_true hgone
        -- the mint leaves the approval, but there was none
        obtain ⟨-, hunowned, nextId, -, rfl⟩ := mintFromBridge_cases h
        exact hs.unapproved t hunowned
    | burnFromBridge t =>
        obtain rfl : t = id := of_decide_eq_true hgone
        obtain ⟨-, -, rfl⟩ := burnFromBridge_cases h
        exact Function.update_self _ _ _
    | _ => cases hgone
  · cases hs.touch h id with
    | kept owner approval => exact absurd owner howner
    | approved auth owner approval => exact absurd owner howner
    | moved auth owner approval => exact approval
    | minted unowned approval => exact approval
    | burned auth approval => exact approval

/-- A call that leaves the token with its owner leaves its approval too, or is the owner's own
`approve`. -/
theorem Tidy.held (hs : s.Tidy) (h : s.step keccak256 this env sender call = some s')
    (hkept : handsOver id call = false) (howner : s'.ownerOf id = s.ownerOf id) :
    s'.getApproved id = (grant id call).getD (s.getApproved id) := by
  cases hs.touch h id with
  | kept owner approval =>
      cases hgrant : grant id call with
      | none => exact approval
      | some toAddr =>
          obtain rfl := grant_eq_some hgrant
          obtain ⟨-, rfl⟩ := approve_cases h
          exact Function.update_self _ _ _
  | approved auth owner approval =>
      rw [approval, grant, if_pos rfl]
      rfl
  | moved auth owner approval => simp [handsOver] at hkept
  | minted unowned approval =>
      cases hgrant : grant id call with
      | none => rw [approval, Option.getD_none, hs.unapproved id unowned]
      | some toAddr =>
          obtain rfl := grant_eq_some hgrant
          obtain ⟨-, rfl⟩ := approve_cases h
          exact Function.update_self _ _ _
  | burned auth approval => simp [handsOver] at hkept

/-- Only the owner approves. -/
theorem granter_eq {toAddr : Address} (h : s.step keccak256 this env sender call = some s')
    (hgrant : grant id call = some toAddr) : sender = s.ownerOf id := by
  obtain rfl := grant_eq_some hgrant
  exact (approve_cases h).1.symm

/-! ## The approval on file -/

theorem tenure_of_acquired {tr : List Happening} {m : Happening} (h : Acquired id m) :
    tenure id (tr ++ [m]) = [] :=
  List.rtakeWhile_concat_neg _ _ _ (by simpa using h)

theorem tenure_of_not_acquired {tr : List Happening} {m : Happening} (h : ¬ Acquired id m) :
    tenure id (tr ++ [m]) = tenure id tr ++ [m] :=
  List.rtakeWhile_concat_pos _ _ _ (by simpa using h)

theorem lastGrant_concat (id : U256) (tr : List Happening) (m : Happening) :
    lastGrant id (tr ++ [m]) = (grant id m.call.2.call).getD (lastGrant id tr) := by
  unfold lastGrant
  rw [List.filterMap_append]
  cases hgrant : grant id m.call.2.call with
  | none => simp [hgrant]
  | some toAddr => simp [hgrant]

/-- Whoever was approved last was approved by some call. -/
theorem exists_of_lastGrant {tr : List Happening} {a : Address} (h : lastGrant id tr = a)
    (ha : a ≠ zeroAddress) : ∃ m ∈ tr, grant id m.call.2.call = some a := by
  unfold lastGrant at h
  cases hlast : (tr.filterMap fun m => grant id m.call.2.call).getLast? with
  | none =>
      rw [hlast] at h
      exact absurd h.symm ha
  | some b =>
      rw [hlast, Option.getD_some] at h
      subst h
      obtain ⟨m, hm, hgrant⟩ := List.mem_filterMap.mp (List.mem_of_getLast? hlast)
      exact ⟨m, hm, hgrant⟩

/-- The approval a token carries is the last one of the current tenure, and every approval of the
current tenure was given by the owner of today. -/
structure OnFile (s : CreatureNFT) (tr : List Happening) : Prop where
  tidy : s.Tidy
  inForce : ∀ id, s.getApproved id = lastGrant id (tenure id tr)
  granter : ∀ id, ∀ m ∈ tenure id tr, ∀ toAddr, grant id m.call.2.call = some toAddr →
    m.call.2.sender = s.ownerOf id

theorem OnFile.step {tr : List Happening} {e : Env × Tx Call} (hs : OnFile s tr)
    (h : accept keccak256 this s e = some s') : OnFile s' (tr ++ [⟨s, e, s'⟩]) := by
  obtain ⟨hsender, hstep⟩ := accept_cases h
  refine ⟨hs.tidy.step hsender hstep, fun id => ?_, fun id => ?_⟩
  · by_cases hacq : Acquired id ⟨s, e, s'⟩
    · rw [tenure_of_acquired hacq]
      exact hs.tidy.wiped hstep hacq
    · obtain ⟨hkept, howner⟩ := not_or.mp hacq
      rw [tenure_of_not_acquired hacq, lastGrant_concat, ← hs.inForce id]
      exact hs.tidy.held hstep (Bool.not_eq_true _ ▸ hkept) (not_not.mp howner)
  · by_cases hacq : Acquired id ⟨s, e, s'⟩
    · rw [tenure_of_acquired hacq]
      exact fun m hm => absurd hm List.not_mem_nil
    · have howner : s'.ownerOf id = s.ownerOf id := not_not.mp (not_or.mp hacq).2
      rw [tenure_of_not_acquired hacq, howner]
      exact List.forall_mem_append.mpr ⟨hs.granter id,
        List.forall_mem_singleton.mpr fun _ hgrant => granter_eq hstep hgrant⟩

theorem run_onFile (keccak256 : Bytes → Bytes32) (this : Address) (txs : List (Env × Tx Call)) :
    OnFile (run keccak256 this txs) (moves keccak256 this txs) :=
  trace_run_induction (P := OnFile)
    ⟨deploy_tidy, fun _ => rfl, fun _ _ hm => absurd hm List.not_mem_nil⟩
    (fun _ _ _ _ hs h => hs.step h) txs

/-! ## Who may move a token -/

/-- Why a call may take a token from its owner: it is a transfer by the owner, a transfer by the
address the owner has approved last since acquiring the token, or the bridge's burn. -/
inductive Allowed (s : CreatureNFT) (tr : List Happening) (id : U256) : Tx Call → Prop
  | owner (fromAddr toAddr : Address) :
      Allowed s tr id ⟨s.ownerOf id, .transferFrom fromAddr toAddr id⟩
  | approved (sender fromAddr toAddr : Address) (last : lastGrant id (tenure id tr) = sender)
      (given : ∃ m ∈ tenure id tr, m.call.2 = ⟨s.ownerOf id, .approve sender id⟩) :
      Allowed s tr id ⟨sender, .transferFrom fromAddr toAddr id⟩
  | bridge : Allowed s tr id ⟨s.bridge, .burnFromBridge id⟩

/-- The state `s` after the accepted calls `tr`: tokens leave their owners only as allowed, a token
without owner has no approval, and an approval does not outlast the tenure it was given in. -/
structure Protected (keccak256 : Bytes → Bytes32) (this : Address) (s : CreatureNFT)
    (tr : List Happening) : Prop where
  allowed : ∀ e s', accept keccak256 this s e = some s' → ∀ id, s.ownerOf id ≠ zeroAddress →
    s'.ownerOf id ≠ s.ownerOf id → Allowed s tr id e.2
  unapproved : s.Unapproved
  inForce : ∀ id, s.getApproved id = lastGrant id (tenure id tr)
  wiped : ∀ e s', accept keccak256 this s e = some s' → ∀ id, Acquired id ⟨s, e, s'⟩ →
    s'.getApproved id = zeroAddress

theorem OnFile.allowed {tr : List Happening} {e : Env × Tx Call} (hs : OnFile s tr)
    (h : accept keccak256 this s e = some s') (howned : s.ownerOf id ≠ zeroAddress)
    (hchanged : s'.ownerOf id ≠ s.ownerOf id) : Allowed s tr id e.2 := by
  obtain ⟨env, sender, call⟩ := e
  obtain ⟨hsender, hstep⟩ := accept_cases h
  cases hs.tidy.touch hstep id with
  | kept owner approval => exact absurd owner hchanged
  | approved auth owner approval => exact absurd owner hchanged
  | @moved fromAddr toAddr auth owner approval =>
      obtain ⟨-, hauth, -⟩ := transferFrom_cases hstep
      obtain hself | happroved := hauth
      · obtain rfl : sender = s.ownerOf id := hself.trans auth.symm
        exact .owner _ _
      · have hgrant : lastGrant id (tenure id tr) = sender := (hs.inForce id).symm.trans happroved.symm
        obtain ⟨m, hm, hgiven⟩ := exists_of_lastGrant hgrant hsender
        have hcall := grant_eq_some hgiven
        have hgiver := hs.granter id m hm sender hgiven
        refine .approved _ _ _ hgrant ⟨m, hm, ?_⟩
        rw [← hgiver, ← hcall]
  | minted unowned approval => exact absurd unowned howned
  | burned auth approval =>
      obtain rfl : sender = s.bridge := (burnFromBridge_cases hstep).1
      exact .bridge

/-- **Owners are protected**, in every run. -/
theorem owners_protected (keccak256 : Bytes → Bytes32) (this : Address)
    (txs : List (Env × Tx Call)) :
    Protected keccak256 this (run keccak256 this txs) (moves keccak256 this txs) := by
  have hs := run_onFile keccak256 this txs
  exact {
    allowed := fun e s' h id howned hchanged => hs.allowed h howned hchanged
    unapproved := hs.tidy.unapproved
    inForce := hs.inForce
    wiped := fun e s' h id hacq => hs.tidy.wiped (accept_cases h).2 hacq }

end ChainBeasts.Contracts.CreatureNFT
