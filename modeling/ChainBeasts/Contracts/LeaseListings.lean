import ChainBeasts.Contracts.MarketplaceLeases

/-! # Who can list a token for lease

An expired rental is over for `rent`, for `cancelLease` and for the view, but not for
`listForLease`, which asks for a record without a renter, and only the next rental or a cancellation
takes the renter out. So once a token has been rented its owner cannot list it again, and a new owner
cannot cancel the record either, which is in another name (`new_owner_shut_out`). A vacant token can
be listed exactly when the last thing that happened to its record was not a rental
(`listable_iff`). -/

namespace ChainBeasts.Contracts.Marketplace

open ChainBeasts.Evm ChainBeasts.Machine ChainBeasts.Clock

/-- The calls that write a lease record. -/
inductive LeaseCall where
  | listForLease
  | cancelLease
  | rent
  deriving DecidableEq

/-- What an event does to the record of `t`. -/
def leaseCall (t : U256) (m : Happening) : Option LeaseCall :=
  match m.call with
  | .call (.market _ ⟨_, .listForLease tokenId _ _⟩) =>
      if t = tokenId then some .listForLease else none
  | .call (.market _ ⟨_, .cancelLease tokenId⟩) => if t = tokenId then some .cancelLease else none
  | .call (.market _ ⟨_, .rent _ tokenId⟩) => if t = tokenId then some .rent else none
  | _ => none

/-- The last accepted call on the record of `t`. -/
def lastLeaseCall (t : U256) (tr : List Happening) : Option LeaseCall :=
  (tr.filterMap (leaseCall t)).getLast?

/-- The owner of `t` can list it for lease, at any price and for any duration. -/
def Listable (site : Site) (s : Clocked U256 World) (t : U256) : Prop :=
  ∀ env price duration, (s.state.step site s.now
    (.market env ⟨s.state.nft.ownerOf t, .listForLease t price duration⟩)).isSome

instance (w : World) (now tokenId : U256) : Decidable (w.Vacant now tokenId) :=
  inferInstanceAs (Decidable (_ ∨ _))

/-! ## What the last call leaves -/

/-- The record after the last call on it. -/
def Leaves : Option LeaseCall → Lease → Prop
  | none, l => l = .empty
  | some .cancelLease, l => l = .empty
  | some .listForLease, l => l.owner ≠ zeroAddress ∧ l.renter = zeroAddress ∧ l.expiry = 0
  | some .rent, l => l.owner ≠ zeroAddress ∧ l.renter ≠ zeroAddress

variable {site : Site} {now : U256} {w w' : World} {t : U256} {tr : List Happening}

theorem lastLeaseCall_concat (t : U256) (tr : List Happening) (m : Happening) :
    lastLeaseCall t (tr ++ [m]) = (leaseCall t m).or (lastLeaseCall t tr) := by
  rw [lastLeaseCall, List.filterMap_append]
  cases hm : leaseCall t m with
  | none => simp [hm, lastLeaseCall]
  | some c => simp [hm]

theorem Leaves.kept {m : Happening} (hs : Leaves (lastLeaseCall t tr) (w.market.leases t))
    (hquiet : leaseCall t m = none) (hsame : w'.market.leases t = w.market.leases t) :
    Leaves (lastLeaseCall t (tr ++ [m])) (w'.market.leases t) := by
  rw [lastLeaseCall_concat, hquiet, Option.none_or, hsame]
  exact hs

theorem Leaves.written {m : Happening} {c : LeaseCall} {l : Lease} (hcall : leaseCall t m = some c)
    (hlease : w'.market.leases t = l) (hl : Leaves (some c) l) :
    Leaves (lastLeaseCall t (tr ++ [m])) (w'.market.leases t) := by
  rw [lastLeaseCall_concat, hcall, Option.some_or, hlease]
  exact hl

/-- A call that names no lease leaves none to speak of. -/
theorem leaseCall_quiet {env : Env} {sender : Address} {call : Call} (hquiet : Call.Quiet call)
    (pre post : Clocked U256 World) :
    leaseCall t ⟨pre, .call (.market env ⟨sender, call⟩), post⟩ = none := by
  cases call <;> first | rfl | exact absurd hquiet (by simp [Call.Quiet])

/-- **One action.** -/
theorem Leaves.step {a : Action} (hs : Leaves (lastLeaseCall t tr) (w.market.leases t))
    (h : w.step site now a = some w') :
    Leaves (lastLeaseCall t (tr ++ [⟨⟨now, w⟩, .call a, ⟨now, w'⟩⟩])) (w'.market.leases t) := by
  cases step_effect h with
  | quiet quiet nft listings leases => exact hs.kept (leaseCall_quiet quiet _ _) (congrFun leases t)
  | @listForLease _ _ tokenId _ _ user owner free =>
      by_cases ht : t = tokenId
      · subst ht
        exact .written (if_pos rfl) (Function.update_self _ _ _) ⟨user.1, rfl, rfl⟩
      · exact hs.kept (if_neg ht) (Function.update_of_ne ht _ _)
  | @cancelLease _ _ tokenId user owner vacant =>
      by_cases ht : t = tokenId
      · subst ht
        exact .written (if_pos rfl) (Function.update_self _ _ _) rfl
      · exact hs.kept (if_neg ht) (Function.update_of_ne ht _ _)
  | @rent _ _ _ tokenId _ _ user listed vacant =>
      by_cases ht : t = tokenId
      · subst ht
        exact .written (if_pos rfl) (Function.update_self _ _ _) ⟨listed, user.1⟩
      · exact hs.kept (if_neg ht) (Function.update_of_ne ht _ _)
  | _ => exact hs.kept rfl rfl

theorem run_leaves (site : Site) (governance : Address) (ether : Address → Nat) (now : U256)
    (evs : List (Event U256 Action)) (t : U256) :
    Leaves (lastLeaseCall t (moves site governance ether now evs))
      ((run site governance ether now evs).state.market.leases t) := by
  apply clock_induction (P := fun s tr => Leaves (lastLeaseCall t tr) (s.state.market.leases t))
  · rfl
  · intro s tr now hs _
    exact hs.kept rfl rfl
  · intro s tr a w' hs hstep
    exact hs.step hstep

/-! ## When a token can be listed -/

theorem listable_iff_free {s : Clocked U256 World} (huser : site.IsUser (s.state.nft.ownerOf t)) :
    Listable site s t ↔ (s.state.market.leases t).owner = zeroAddress ∨
      (s.state.market.leases t).renter = zeroAddress ∧ (s.state.market.leases t).expiry < s.now := by
  have hcall : ∀ env price duration, (s.state.step site s.now
      (.market env ⟨s.state.nft.ownerOf t, .listForLease t price duration⟩)).isSome ↔
        ((s.state.market.leases t).owner = zeroAddress ∨
          (s.state.market.leases t).renter = zeroAddress ∧
            (s.state.market.leases t).expiry < s.now) := by
    intro env price duration
    simp only [World.step, World.call, World.listForLease, require, huser, if_true,
      Option.bind_eq_bind, Option.bind_some]
    split
    · next hfree => simp [hfree]
    · next hbusy => simpa using hbusy
  constructor
  · intro h
    exact (hcall ⟨⟨0, 0, true⟩, fun _ => true, true⟩ 0 0).mp (h _ 0 0)
  · intro hfree env price duration
    exact (hcall env price duration).mpr hfree

/-- `7` leases its token out to `8` for 10 seconds at no price and gives it to `9`; the rental is
long over. -/
def rentedOnce : List (Event U256 Action) :=
  let hatching : CreatureNFT.Env := ⟨0, 0, true⟩
  let leasing : Env := ⟨hatching, fun _ => true, false⟩
  [.tick 1, .call (.nft hatching ⟨7, .hatch []⟩),
    .call (.market leasing ⟨7, .listForLease 1 0 10⟩),
    .call (.market leasing ⟨8, .rent 0 1⟩),
    .call (.nft hatching ⟨7, .transferFrom 7 9 1⟩), .tick 1000]

/-- **Shut out.** `9` owns the token and the view shows no renter, but `9` can neither list it nor
cancel the record. -/
theorem new_owner_shut_out :
    let site : Site := ⟨fun _ => 0, 100, 200, by decide⟩
    let s := run site 1 (fun _ => 5) 0 rentedOnce
    s.state.nft.ownerOf 1 = 9 ∧ site.IsUser 9 ∧ s.state.Vacant s.now 1 ∧ ¬ Listable site s 1 ∧
      s.state.cancelLease s.now 9 1 = none := by
  refine ⟨by decide +kernel, by decide, by decide +kernel, ?_, by decide +kernel⟩
  rw [listable_iff_free (by decide +kernel)]
  decide +kernel

/-- **When a vacant token can be listed.** In every reachable state, for every token whose owner is
an account that can call: exactly when the last accepted call on its lease record was not a rental,
nor a listing while the timestamp is still zero. -/
theorem listable_iff (site : Site) (governance : Address) (ether : Address → Nat) (now : U256)
    (evs : List (Event U256 Action)) (t : U256)
    (huser : site.IsUser ((run site governance ether now evs).state.nft.ownerOf t)) :
    ((run site governance ether now evs).state.Vacant (run site governance ether now evs).now t →
        Listable site (run site governance ether now evs) t) ↔
      ((run site governance ether now evs).state.Vacant (run site governance ether now evs).now t →
        lastLeaseCall t (moves site governance ether now evs) ≠ some .rent ∧
        (lastLeaseCall t (moves site governance ether now evs) = some .listForLease →
          0 < (run site governance ether now evs).now)) := by
  have hleaves := run_leaves site governance ether now evs t
  rw [listable_iff_free huser]
  generalize run site governance ether now evs = s at hleaves
  generalize lastLeaseCall t (moves site governance ether now evs) = last at hleaves ⊢
  apply forall_congr'
  intro _
  match last, hleaves with
  | none, hempty => simp [show s.state.market.leases t = .empty from hempty, Lease.empty]
  | some .cancelLease, hempty =>
      simp [show s.state.market.leases t = .empty from hempty, Lease.empty]
  | some .listForLease, ⟨howner, hrenter, hexpiry⟩ => simp [howner, hrenter, hexpiry]
  | some .rent, ⟨howner, hrenter⟩ => simp [howner, hrenter]

/-- Before the rental `7` could list the token again. -/
theorem listable_before_rental :
    let site : Site := ⟨fun _ => 0, 100, 200, by decide⟩
    Listable site (run site 1 (fun _ => 5) 0 (rentedOnce.take 3)) 1 := by
  intro site
  exact (listable_iff site 1 (fun _ => 5) 0 (rentedOnce.take 3) 1 (by decide +kernel)).mpr
    (fun _ => by decide +kernel) (by decide +kernel)

end ChainBeasts.Contracts.Marketplace
