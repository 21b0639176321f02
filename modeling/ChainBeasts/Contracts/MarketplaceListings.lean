import ChainBeasts.Contracts.Marketplace
import Mathlib.Data.List.DropRight

/-! # Old listings

A listing outlives a transfer of its token: an owner who gives a token away and gets it back finds
the old price still standing, and can be held to it (`stale_listing_sold`). What a transfer does end
is the approval. So a token is only sold at an old price if its owner has approved the marketplace
again since the token came back (`sales_consented`). -/

namespace ChainBeasts.Contracts.Marketplace

open ChainBeasts.Evm ChainBeasts.Machine ChainBeasts.Clock

/-- A price that was set. -/
structure Pricing where
  seller : Address
  tokenId : U256
  price : U256
  deriving DecidableEq

def priced (m : Happening) : Option Pricing :=
  match m.call with
  | .call (.market _ ⟨sender, .list tokenId price⟩) => some ⟨sender, tokenId, price⟩
  | .call (.market _ ⟨sender, .updatePrice tokenId newPrice⟩) => some ⟨sender, tokenId, newPrice⟩
  | _ => none

/-- An approval that was given. -/
structure Approval where
  owner : Address
  toAddr : Address
  tokenId : U256
  deriving DecidableEq

def approved (m : Happening) : Option Approval :=
  match m.call with
  | .call (.nft _ ⟨sender, .approve toAddr tokenId⟩) => some ⟨sender, toAddr, tokenId⟩
  | _ => none

/-- The events since `owner` most recently became the token's owner. -/
def tenure (tokenId : U256) (owner : Address) (tr : List Happening) : List Happening :=
  tr.rtakeWhile fun m => m.pre.state.nft.ownerOf tokenId = owner

/-- Whatever is sold now is sold at a price its seller set since becoming the owner. -/
def SoldAtOwnPrice (site : Site) (s : Clocked U256 World) (tr : List Happening) : Prop :=
  ∀ env buyer value tokenId w',
    s.state.step site s.now (.market env ⟨buyer, .buy value tokenId⟩) = some w' →
    ∃ m ∈ tenure tokenId (s.state.market.listings tokenId).seller tr,
      priced m = some ⟨(s.state.market.listings tokenId).seller, tokenId,
        (s.state.market.listings tokenId).price⟩

/-! ## A stale listing -/

/-- `7` lists its token at 5 wei, gives it away, gets it back and approves the marketplace. -/
def stale : List (Event U256 Action) :=
  let hatching : CreatureNFT.Env := ⟨0, 0, true⟩
  let selling : Env := ⟨hatching, fun _ => true, false⟩
  [.call (.nft hatching ⟨7, .hatch []⟩),
    .call (.nft hatching ⟨7, .approve 200 1⟩),
    .call (.market selling ⟨7, .list 1 5⟩),
    .call (.nft hatching ⟨7, .transferFrom 7 8 1⟩),
    .call (.nft hatching ⟨8, .transferFrom 8 7 1⟩),
    .call (.nft hatching ⟨7, .approve 200 1⟩)]

/-- **A stale listing is sold.** `9` buys the token at the price of the first time around. -/
theorem stale_listing_sold : ¬ ∀ site governance ether now evs,
    SoldAtOwnPrice site (run site governance ether now evs)
      (moves site governance ether now evs) := by
  intro hclaim
  let site : Site := ⟨fun _ => 0, 100, 200, by decide⟩
  let buying : Env := ⟨⟨0, 0, true⟩, fun _ => true, false⟩
  have hsold : ((run site 1 (fun _ => 5) 0 stale).state.step site
      (run site 1 (fun _ => 5) 0 stale).now (.market buying ⟨9, .buy 5 1⟩)).isSome = true := by
    decide +kernel
  obtain ⟨w', hw'⟩ := Option.isSome_iff_exists.mp hsold
  obtain ⟨m, hm, hpriced⟩ := hclaim site 1 (fun _ => 5) 0 stale buying 9 5 1 w' hw'
  have hnone : (tenure 1 ((run site 1 (fun _ => 5) 0 stale).state.market.listings 1).seller
      (moves site 1 (fun _ => 5) 0 stale)).all (fun m => priced m = none) = true := by
    decide +kernel
  have hm' := List.all_eq_true.mp hnone m hm
  rw [hpriced] at hm'
  cases hm'

/-! ## What stands behind a listing -/

/-- The seller owns the token, set its price, and approved the marketplace since becoming the
owner. -/
structure Consented (site : Site) (w : World) (tr : List Happening) (tokenId : U256) : Prop where
  owner : w.nft.ownerOf tokenId = (w.market.listings tokenId).seller
  price : ∃ m ∈ tr, priced m = some ⟨(w.market.listings tokenId).seller, tokenId,
    (w.market.listings tokenId).price⟩
  approval : ∃ m ∈ tenure tokenId (w.market.listings tokenId).seller tr,
    approved m = some ⟨(w.market.listings tokenId).seller, site.market, tokenId⟩

def SoldWithConsent (site : Site) (s : Clocked U256 World) (tr : List Happening) : Prop :=
  ∀ env buyer value tokenId w',
    s.state.step site s.now (.market env ⟨buyer, .buy value tokenId⟩) = some w' →
    Consented site s.state tr tokenId

/-- Every listing was made by a user, and every approval of the marketplace by the token's owner
since becoming the owner. -/
structure OnRecord (site : Site) (w : World) (tr : List Happening) : Prop where
  tidy : w.nft.Tidy
  listings : ∀ t, w.market.listings t = .empty ∨
    site.IsUser (w.market.listings t).seller ∧
      ∃ m ∈ tr, priced m = some ⟨(w.market.listings t).seller, t, (w.market.listings t).price⟩
  approvals : ∀ t, w.nft.getApproved t = site.market →
    ∃ m ∈ tenure t (w.nft.ownerOf t) tr, approved m = some ⟨w.nft.ownerOf t, site.market, t⟩

variable {site : Site} {now : U256} {s s' : Clocked U256 World} {tr : List Happening}

/-- The owner's tenure goes on. -/
theorem tenure_concat (tr : List Happening) (s s' : Clocked U256 World) (ev : Event U256 Action)
    (t : U256) : tenure t (s.state.nft.ownerOf t) (tr ++ [⟨s, ev, s'⟩]) =
      tenure t (s.state.nft.ownerOf t) tr ++ [⟨s, ev, s'⟩] :=
  List.rtakeWhile_concat_pos _ _ _ (decide_eq_true rfl)

theorem step_listing {a : Action} (h : s.state.step site now a = some s'.state) (t : U256) :
    s'.state.market.listings t = s.state.market.listings t ∨
      s'.state.market.listings t = .empty ∨
      site.IsUser (s'.state.market.listings t).seller ∧
        priced ⟨s, .call a, s'⟩ = some ⟨(s'.state.market.listings t).seller, t,
          (s'.state.market.listings t).price⟩ := by
  obtain ⟨_, w⟩ := s
  obtain ⟨_, w'⟩ := s'
  cases step_effect h with
  | quiet quiet nft listings => exact Or.inl (congrFun listings t)
  | @list _ _ tokenId _ user owner =>
      by_cases ht : t = tokenId
      · subst ht
        simp only [Function.update_self]
        exact Or.inr (Or.inr ⟨user, rfl⟩)
      · exact Or.inl (Function.update_of_ne ht _ _)
  | @updatePrice _ _ tokenId _ user seller =>
      by_cases ht : t = tokenId
      · subst ht
        simp only [Function.update_self]
        exact Or.inr (Or.inr ⟨user, rfl⟩)
      · exact Or.inl (Function.update_of_ne ht _ _)
  | @cancel _ _ tokenId =>
      by_cases ht : t = tokenId
      · subst ht
        exact Or.inr (Or.inl (Function.update_self _ _ _))
      · exact Or.inl (Function.update_of_ne ht _ _)
  | @buy _ _ _ tokenId =>
      by_cases ht : t = tokenId
      · subst ht
        exact Or.inr (Or.inl (Function.update_self _ _ _))
      · exact Or.inl (Function.update_of_ne ht _ _)
  | _ => exact Or.inl rfl

/-- An approval stays with its owner, ends, or was just given. -/
theorem step_approval {a : Action} (hs : s.state.nft.Tidy)
    (h : s.state.step site now a = some s'.state) (t : U256) :
    s'.state.nft.getApproved t = zeroAddress ∨
      s'.state.nft.ownerOf t = s.state.nft.ownerOf t ∧
        (s'.state.nft.getApproved t = s.state.nft.getApproved t ∨
          approved ⟨s, .call a, s'⟩ =
            some ⟨s.state.nft.ownerOf t, s'.state.nft.getApproved t, t⟩) := by
  obtain ⟨_, w⟩ := s
  obtain ⟨_, w'⟩ := s'
  cases step_effect h with
  | quiet quiet nft =>
      exact Or.inr ⟨congrArg (fun n => n.ownerOf t) nft,
        Or.inl (congrArg (fun n => n.getApproved t) nft)⟩
  | buy user priced enough token =>
      cases hs.touch token t with
      | kept owner approval => exact Or.inr ⟨owner, Or.inl approval⟩
      | moved auth owner approval => exact Or.inl approval
      | minted unowned approval => exact Or.inl approval
  | breed user enough token =>
      cases hs.touch token t with
      | kept owner approval => exact Or.inr ⟨owner, Or.inl approval⟩
      | minted unowned approval => exact Or.inl approval
  | nft user token =>
      cases hs.touch token t with
      | kept owner approval => exact Or.inr ⟨owner, Or.inl approval⟩
      | approved auth owner approval =>
          refine Or.inr ⟨owner, Or.inr ?_⟩
          rw [auth, approval]
          rfl
      | moved auth owner approval => exact Or.inl approval
      | minted unowned approval => exact Or.inl approval
      | burned auth approval => exact Or.inl approval
  | _ => exact Or.inr ⟨rfl, Or.inl rfl⟩

theorem start_onRecord (site : Site) (governance : Address) (ether : Address → Nat) :
    OnRecord site (start site governance ether) [] where
  tidy := CreatureNFT.deploy_tidy
  listings _ := Or.inl rfl
  approvals _ h := absurd h.symm site.market_ne_zero

theorem OnRecord.tick (hs : OnRecord site s.state tr) (ev : Event U256 Action) :
    OnRecord site s.state (tr ++ [⟨s, ev, s'⟩]) := by
  refine ⟨hs.tidy, fun t => ?_, fun t happroved => ?_⟩
  · refine (hs.listings t).imp_right (And.imp_right ?_)
    rintro ⟨m, hm, hpriced⟩
    exact ⟨m, List.mem_append_left _ hm, hpriced⟩
  · obtain ⟨m, hm, hgiven⟩ := hs.approvals t happroved
    rw [tenure_concat]
    exact ⟨m, List.mem_append_left _ hm, hgiven⟩

theorem OnRecord.step {a : Action} (hs : OnRecord site s.state tr)
    (h : s.state.step site now a = some s'.state) :
    OnRecord site s'.state (tr ++ [⟨s, .call a, s'⟩]) := by
  refine ⟨step_tidy hs.tidy h, fun t => ?_, fun t happroved => ?_⟩
  · obtain hsame | hempty | ⟨huser, hpriced⟩ := step_listing h t
    · rw [hsame]
      refine (hs.listings t).imp_right (And.imp_right ?_)
      rintro ⟨m, hm, hpriced⟩
      exact ⟨m, List.mem_append_left _ hm, hpriced⟩
    · exact Or.inl hempty
    · exact Or.inr ⟨huser, _, List.mem_append_right _ (List.mem_singleton_self _), hpriced⟩
  · obtain hended | ⟨howner, hsame | hgiven⟩ := step_approval hs.tidy h t
    · rw [hended] at happroved
      exact absurd happroved.symm site.market_ne_zero
    · obtain ⟨m, hm, hgiven⟩ := hs.approvals t (hsame.symm.trans happroved)
      rw [howner, tenure_concat]
      exact ⟨m, List.mem_append_left _ hm, hgiven⟩
    · rw [happroved] at hgiven
      rw [howner, tenure_concat]
      exact ⟨_, List.mem_append_right _ (List.mem_singleton_self _), hgiven⟩

theorem run_onRecord (site : Site) (governance : Address) (ether : Address → Nat) (now : U256)
    (evs : List (Event U256 Action)) :
    OnRecord site (run site governance ether now evs).state
      (moves site governance ether now evs) := by
  refine clock_induction (P := fun s tr => OnRecord site s.state tr)
    (start_onRecord site governance ether) ?_ ?_ evs
  · intro s tr now hs hle
    exact hs.tick (.tick now)
  · intro s tr a w' hs hnext
    have hstep : s.state.step site s.now a = some (Clocked.mk s.now w').state := hnext
    exact hs.step hstep

/-! ## Sales -/

/-- **Sales are consented to**, in every run. -/
theorem sales_consented (site : Site) (governance : Address) (ether : Address → Nat) (now : U256)
    (evs : List (Event U256 Action)) :
    SoldWithConsent site (run site governance ether now evs)
      (moves site governance ether now evs) := by
  intro env buyer value tokenId w' hbuy
  have hs := run_onRecord site governance ether now evs
  generalize run site governance ether now evs = s at hs hbuy ⊢
  cases step_effect hbuy with
  | quiet quiet => cases quiet
  | buy user listed enough token =>
      obtain ⟨howner, hauth, -⟩ := CreatureNFT.transferFrom_cases token
      obtain hempty | ⟨huser, hpriced⟩ := hs.listings tokenId
      · rw [hempty] at listed
        exact absurd listed (BitVec.lt_irrefl _)
      -- the marketplace is not the seller, so it is approved
      have happroved := hauth.resolve_left (Ne.symm huser.2.2)
      obtain ⟨m, hm, hgiven⟩ := hs.approvals tokenId happroved.symm
      rw [howner] at hm hgiven
      exact ⟨howner, hpriced, m, hm, hgiven⟩

end ChainBeasts.Contracts.Marketplace
