import ChainBeasts.Contracts.MarketplaceLeases

/-! # Whom a rental pays

`listForLease` checks that the caller owns the token, and the record outlives the ownership: `buy`
deletes the listing of the token it moves and leaves its lease alone, and `rent` pays whoever the
record names. So a former owner goes on collecting (`former_owner_paid`). As long as every token on
lease only goes to the owner its record names, rentals pay the owner of the token
(`rent_pays_owner`). -/

namespace ChainBeasts.Contracts.Marketplace

open ChainBeasts.Evm ChainBeasts.Machine ChainBeasts.Clock

/-- A successful rental pays the account that owns the token at that moment. -/
def PaysOwner (site : Site) (s : Clocked U256 World) : Prop :=
  ∀ env renter value tokenId w',
    s.state.step site s.now (.market env ⟨renter, .rent value tokenId⟩) = some w' →
    Moves s.state.ether w'.ether renter (s.state.nft.ownerOf tokenId)
      (s.state.market.leases tokenId).price.toNat

/-! ## A former owner is paid -/

/-- `7` lists its token for sale at 5 wei and for lease at 3, and `8` buys it. -/
def soldOnLease : List (Event U256 Action) :=
  let hatching : CreatureNFT.Env := ⟨0, 0, true⟩
  let selling : Env := ⟨hatching, fun _ => true, false⟩
  [.call (.nft hatching ⟨7, .hatch []⟩),
    .call (.nft hatching ⟨7, .approve 200 1⟩),
    .call (.market selling ⟨7, .list 1 5⟩),
    .call (.market selling ⟨7, .listForLease 1 3 100⟩),
    .call (.market selling ⟨8, .buy 5 1⟩)]

/-- **The seller collects the rent.** `9` rents from `8`, whose ether stays where it was. -/
theorem former_owner_paid : ¬ ∀ site governance ether now evs,
    PaysOwner site (run site governance ether now evs) := by
  intro hclaim
  let site : Site := ⟨fun _ => 0, 100, 200, by decide⟩
  let renting : Env := ⟨⟨0, 0, true⟩, fun _ => true, false⟩
  have hrented : ((run site 1 (fun _ => 5) 0 soldOnLease).state.step site
      (run site 1 (fun _ => 5) 0 soldOnLease).now (.market renting ⟨9, .rent 3 1⟩)).map
      (fun w => w.ether 8) = some ((run site 1 (fun _ => 5) 0 soldOnLease).state.ether 8) := by
    decide +kernel
  obtain ⟨w', hw', hunpaid⟩ := Option.map_eq_some_iff.mp hrented
  have hpaid := hclaim site 1 (fun _ => 5) 0 soldOnLease renting 9 3 1 w' hw' 8
  rw [hunpaid] at hpaid
  exact absurd hpaid (by decide +kernel)

/-! ## Tokens on lease -/

/-- A token that changes hands. -/
structure Handover where
  tokenId : U256
  toAddr : Address
  deriving DecidableEq

def handover (m : Happening) : Option Handover :=
  match m.call with
  | .call (.nft _ ⟨_, .transferFrom _ toAddr tokenId⟩) => some ⟨tokenId, toAddr⟩
  | .call (.market _ ⟨sender, .buy _ tokenId⟩) => some ⟨tokenId, sender⟩
  | _ => none

/-- A token on lease goes to nobody but the owner its lease names. -/
def StaysWithLease (m : Happening) : Prop :=
  ∀ h ∈ handover m, (m.pre.state.market.leases h.tokenId).owner = zeroAddress ∨
    h.toAddr = (m.pre.state.market.leases h.tokenId).owner

instance (m : Happening) : Decidable (StaysWithLease m) :=
  inferInstanceAs (Decidable (∀ _ ∈ _, _))

/-- Every lease is in the name of the token's owner. -/
structure LeasedByOwners (site : Site) (w : World) : Prop where
  tidy : w.nft.Tidy
  users : LeasesOfUsers site w
  owners : ∀ t, (w.market.leases t).owner ≠ zeroAddress →
    w.nft.ownerOf t = (w.market.leases t).owner

variable {site : Site} {now : U256} {w w' : World} {t : U256}

/-- A token on lease that is not handed over stays where it is. -/
theorem LeasedByOwners.owner_kept {a : Action} (hw : LeasedByOwners site w)
    (h : w.step site now a = some w') (hok : StaysWithLease ⟨⟨now, w⟩, .call a, ⟨now, w'⟩⟩)
    (hleased : (w.market.leases t).owner ≠ zeroAddress) :
    w'.nft.ownerOf t = w.nft.ownerOf t := by
  have howned := hw.owners t hleased
  have huser := hw.users t hleased
  rw [← howned] at huser
  cases step_effect h with
  | quiet quiet nft => rw [nft]
  | buy user priced enough token =>
      cases hw.tidy.touch token t with
      | kept owner => exact owner
      | moved auth owner =>
          have hto := (hok _ rfl).resolve_left hleased
          exact owner.trans (hto.trans howned.symm)
      | minted unowned => exact absurd unowned huser.1
  | breed user enough token =>
      cases hw.tidy.touch token t with
      | kept owner => exact owner
      | minted unowned => exact absurd unowned huser.1
  | nft user token =>
      cases hw.tidy.touch token t with
      | kept owner => exact owner
      | approved auth owner => exact owner
      | moved auth owner =>
          have hto := (hok _ rfl).resolve_left hleased
          exact owner.trans (hto.trans howned.symm)
      | minted unowned => exact absurd unowned huser.1
      -- what is burned belongs to the token contract
      | burned auth => exact absurd auth huser.2.1
  | _ => rfl

theorem LeasedByOwners.step {a : Action} (hw : LeasedByOwners site w)
    (h : w.step site now a = some w') (hok : StaysWithLease ⟨⟨now, w⟩, .call a, ⟨now, w'⟩⟩) :
    LeasedByOwners site w' := by
  refine ⟨step_tidy hw.tidy h, hw.users.step h, fun t hleased => ?_⟩
  cases step_lease h t with
  | kept same =>
      rw [same] at hleased ⊢
      exact (hw.owner_kept h hok hleased).trans (hw.owners t hleased)
  | listed l user owner tokens free lease =>
      rw [lease, tokens]
      exact owner
  | ended vacant lease =>
      rw [lease] at hleased
      exact absurd rfl hleased
  | rented renter expiry vacant tokens lease =>
      rw [lease] at hleased ⊢
      rw [tokens]
      exact hw.owners t hleased

/-- **Rentals pay the owner**, in every run that hands no token on lease to anyone else. -/
theorem rent_pays_owner (site : Site) (governance : Address) (ether : Address → Nat) (now : U256)
    (evs : List (Event U256 Action))
    (hok : ∀ m ∈ moves site governance ether now evs, StaysWithLease m) :
    PaysOwner site (run site governance ether now evs) := by
  have hs : LeasedByOwners site (run site governance ether now evs).state := by
    refine guarded_invariant StaysWithLease (P := fun _ w => LeasedByOwners site w) ?_ ?_ ?_ evs hok
    · exact ⟨CreatureNFT.deploy_tidy, fun t howner => absurd rfl howner,
        fun t howner => absurd rfl howner⟩
    · intro _ _ w hw _
      exact hw
    · intro _ w a w' hw hstep hgood
      exact hw.step hstep hgood
  intro env renter value tokenId w' hrent
  cases step_effect hrent with
  | quiet quiet => cases quiet
  | rent user listed vacant enough until_ moves =>
      rw [hs.owners tokenId listed]
      exact moves

/-- The buyer lists the token for lease after the sale. -/
def leasedAfterSale : List (Event U256 Action) :=
  let selling : Env := ⟨⟨0, 0, true⟩, fun _ => true, false⟩
  soldOnLease.take 3 ++
    [.call (.market selling ⟨8, .buy 5 1⟩), .call (.market selling ⟨8, .listForLease 1 3 100⟩)]

theorem rent_pays_owner_buyer :
    let site : Site := ⟨fun _ => 0, 100, 200, by decide⟩
    PaysOwner site (run site 1 (fun _ => 5) 0 leasedAfterSale) := by
  intro site
  exact rent_pays_owner site 1 (fun _ => 5) 0 leasedAfterSale (by decide +kernel)

end ChainBeasts.Contracts.Marketplace
