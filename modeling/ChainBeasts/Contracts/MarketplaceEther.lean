import ChainBeasts.Contracts.Marketplace

/-! # The marketplace's ether

Sales and rentals pass the price on and keep nothing; only breeding fees stay. So the balance of the
contract is what was charged for breeding, at the fee in force each time (`ether_kept`). -/

namespace ChainBeasts.Contracts.Marketplace

open ChainBeasts.Evm ChainBeasts.Machine ChainBeasts.Clock

/-- What an accepted event leaves with the marketplace. -/
def feeOf (m : Happening) : Nat :=
  match m.call with
  | .call (.market _ ⟨_, .breed _ _ _ _⟩) => m.pre.state.market.breedFee.toNat
  | _ => 0

def fees (tr : List Happening) : Nat := (tr.map feeOf).sum

@[simp] theorem fees_concat (tr : List Happening) (m : Happening) :
    fees (tr ++ [m]) = fees tr + feeOf m := by
  simp [fees]

/-- The price moves from the buyer to the seller, the token the other way, and the listing is gone.
Of what the buyer sent, all above the price is back. -/
structure Sale (w w' : World) (buyer : Address) (value tokenId : U256) : Prop where
  listed : 0 < (w.market.listings tokenId).price
  enough : (w.market.listings tokenId).price ≤ value
  ether : Moves w.ether w'.ether buyer (w.market.listings tokenId).seller
    (w.market.listings tokenId).price.toNat
  seller : w.nft.ownerOf tokenId = (w.market.listings tokenId).seller
  token : w'.nft.ownerOf = Function.update w.nft.ownerOf tokenId buyer
  listings : w'.market.listings = Function.update w.market.listings tokenId .empty

/-- The price moves from the renter to the owner of the lease. -/
structure Rental (w w' : World) (renter : Address) (value tokenId : U256) : Prop where
  enough : (w.market.leases tokenId).price ≤ value
  ether : Moves w.ether w'.ether renter (w.market.leases tokenId).owner
    (w.market.leases tokenId).price.toNat

/-- The fee in force moves from the breeder to the marketplace. -/
structure Breeding (site : Site) (w w' : World) (breeder : Address) (value : U256) : Prop where
  enough : w.market.breedFee ≤ value
  ether : Moves w.ether w'.ether breeder site.market w.market.breedFee.toNat

structure EtherKept (site : Site) (w : World) (tr : List Happening) : Prop where
  balance : w.ether site.market = fees tr
  sales : ∀ m ∈ tr, ∀ env buyer value tokenId,
    m.call = .call (.market env ⟨buyer, .buy value tokenId⟩) →
    Sale m.pre.state m.post.state buyer value tokenId
  rentals : ∀ m ∈ tr, ∀ env renter value tokenId,
    m.call = .call (.market env ⟨renter, .rent value tokenId⟩) →
    Rental m.pre.state m.post.state renter value tokenId
  breedings : ∀ m ∈ tr, ∀ env breeder value parentA parentB weights,
    m.call = .call (.market env ⟨breeder, .breed value parentA parentB weights⟩) →
    Breeding site m.pre.state m.post.state breeder value

variable {site : Site} {now : U256} {w w' : World}

/-! ## One call -/

theorem sale_of_step {env : Env} {buyer : Address} {value tokenId : U256}
    (h : w.step site now (.market env ⟨buyer, .buy value tokenId⟩) = some w') :
    Sale w w' buyer value tokenId := by
  cases step_effect h with
  | quiet quiet => cases quiet
  | buy user priced enough token moves other =>
      obtain ⟨howner, -, rfl⟩ := CreatureNFT.transferFrom_cases token
      exact ⟨priced, enough, moves, howner, rfl, rfl⟩

theorem rental_of_step {env : Env} {renter : Address} {value tokenId : U256}
    (h : w.step site now (.market env ⟨renter, .rent value tokenId⟩) = some w') :
    Rental w w' renter value tokenId := by
  cases step_effect h with
  | quiet quiet => cases quiet
  | rent user listed vacant enough until_ moves other => exact ⟨enough, moves⟩

theorem breeding_of_step {env : Env} {breeder : Address} {value parentA parentB : U256}
    {weights : Bytes}
    (h : w.step site now (.market env ⟨breeder, .breed value parentA parentB weights⟩) = some w') :
    Breeding site w w' breeder value := by
  cases step_effect h with
  | quiet quiet => cases quiet
  | breed user enough token moves => exact ⟨enough, moves⟩

/-- **What one action leaves with the marketplace**: the price goes from one user to another. -/
theorem step_balance {a : Action} (s s' : Clocked U256 World)
    (h : s.state.step site now a = some s'.state) :
    s'.state.ether site.market = s.state.ether site.market + feeOf ⟨s, .call a, s'⟩ := by
  obtain ⟨_, w⟩ := s
  obtain ⟨_, w'⟩ := s'
  cases step_effect h with
  | quiet quiet nft listings leases ether =>
      rename_i call
      rw [ether]
      cases call <;> first | rfl | cases quiet
  | buy user priced enough token moves other =>
      exact moves.of_ne (Ne.symm user.2.2) (Ne.symm other)
  | breed user enough token moves => exact moves.payee (Ne.symm user.2.2)
  | rent user listed vacant enough until_ moves other =>
      exact moves.of_ne (Ne.symm user.2.2) (Ne.symm other)
  | other kept => exact kept
  | _ => rfl

/-! ## Every run -/

theorem run_balance (site : Site) (governance : Address) (ether : Address → Nat) (now : U256)
    (evs : List (Event U256 Action)) :
    (run site governance ether now evs).state.ether site.market =
      fees (moves site governance ether now evs) := by
  refine clock_induction (P := fun s tr => s.state.ether site.market = fees tr) ?_ ?_ ?_ evs
  · exact Function.update_self _ _ _
  · intro s tr now hs hle
    rw [fees_concat]
    exact hs
  · intro s tr a w' hs hnext
    rw [fees_concat, ← hs]
    exact step_balance s { s with state := w' } hnext

/-- **The marketplace keeps the fees and nothing else**, in every run. -/
theorem ether_kept (site : Site) (governance : Address) (ether : Address → Nat) (now : U256)
    (evs : List (Event U256 Action)) :
    EtherKept site (run site governance ether now evs).state
      (moves site governance ether now evs) := by
  refine ⟨run_balance site governance ether now evs, ?_, ?_, ?_⟩
  · intro m hm env buyer value tokenId hcall
    exact sale_of_step (next_of_mem_moves hm hcall)
  · intro m hm env renter value tokenId hcall
    exact rental_of_step (next_of_mem_moves hm hcall)
  · intro m hm env breeder value parentA parentB weights hcall
    exact breeding_of_step (next_of_mem_moves hm hcall)

end ChainBeasts.Contracts.Marketplace
