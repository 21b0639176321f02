import ChainBeasts.Contracts.Marketplace

/-! # Leases

A rental stands until it expires, the expiry included, whatever is called (`Undisturbed`). The
expiry is read in four places, and they agree with what the view shows: a token can be rented
exactly if `getLease` shows no renter (`leases_kept`). -/

namespace ChainBeasts.Contracts.Marketplace

open ChainBeasts.Evm ChainBeasts.Machine ChainBeasts.Clock

variable {site : Site} {now : U256} {w w' : World} {t : U256}

/-- What an action does to the lease record of the token `t`. -/
inductive LeaseMove (site : Site) (now : U256) (w w' : World) (t : U256) : Prop
  | kept (same : w'.market.leases t = w.market.leases t)
  | listed (l : Lease) (user : site.IsUser l.owner) (owner : w.nft.ownerOf t = l.owner)
      (tokens : w'.nft = w.nft)
      (free : (w.market.leases t).owner = zeroAddress ∨ (w.market.leases t).renter = zeroAddress)
      (lease : w'.market.leases t = l)
  | ended (vacant : w.Vacant now t) (lease : w'.market.leases t = .empty)
  | rented (renter expiry) (vacant : w.Vacant now t) (tokens : w'.nft = w.nft)
      (lease : w'.market.leases t = { w.market.leases t with renter, expiry })

/-- **One action and one lease.** -/
theorem step_lease {a : Action} (h : w.step site now a = some w') (t : U256) :
    LeaseMove site now w w' t := by
  cases step_effect h with
  | quiet quiet nft listings leases => exact .kept (congrFun leases t)
  | @listForLease _ _ tokenId _ _ user owner free =>
      by_cases ht : t = tokenId
      · subst ht
        exact .listed _ user owner rfl free (Function.update_self _ _ _)
      · exact .kept (Function.update_of_ne ht _ _)
  | @cancelLease _ _ tokenId user owner vacant =>
      by_cases ht : t = tokenId
      · subst ht
        exact .ended vacant (Function.update_self _ _ _)
      · exact .kept (Function.update_of_ne ht _ _)
  | @rent _ _ _ tokenId _ _ user listed vacant =>
      by_cases ht : t = tokenId
      · subst ht
        exact .rented _ _ vacant rfl (Function.update_self _ _ _)
      · exact .kept (Function.update_of_ne ht _ _)
  | _ => exact .kept rfl

/-! ## A rental stands -/

/-- A lease in force: rented, and not expired. -/
structure InForce (l : Lease) (now : U256) : Prop where
  owner : l.owner ≠ zeroAddress
  renter : l.renter ≠ zeroAddress
  live : now ≤ l.expiry

/-- No action touches a lease in force. -/
theorem InForce.step {a : Action} (hl : InForce (w.market.leases t) now)
    (h : w.step site now a = some w') : w'.market.leases t = w.market.leases t := by
  have hoccupied : ¬ w.Vacant now t := not_or.mpr ⟨hl.renter, BitVec.not_lt.mpr hl.live⟩
  cases step_lease h t with
  | kept same => exact same
  | listed l user owner tokens free => exact absurd free (not_or.mpr ⟨hl.owner, hl.renter⟩)
  | ended vacant => exact absurd vacant hoccupied
  | rented renter expiry vacant => exact absurd vacant hoccupied

/-- In a run that ends before the expiry, the lease stays in force. -/
theorem InForce.run (hl : InForce (w.market.leases t) now) (evs : List (Event U256 Action))
    (hlive : (Clock.run (World.step site) ⟨now, w⟩ evs).now ≤ (w.market.leases t).expiry) :
    (Clock.run (World.step site) ⟨now, w⟩ evs).state.market.leases t = w.market.leases t := by
  refine clock_invariant (P := fun now' x => now' ≤ (w.market.leases t).expiry →
    x.market.leases t = w.market.leases t) ?_ ?_ ?_ evs hlive
  · exact fun _ => rfl
  · intro now' later x hx hle hlater
    exact hx (BitVec.le_trans hle hlater)
  · intro now' x a x' hx hstep hnow
    have hsame := hx hnow
    have hforce : InForce (x.market.leases t) now' := by
      rw [hsame]
      exact ⟨hl.owner, hl.renter, hnow⟩
    exact (hforce.step hstep).trans hsame

theorem rented_of_step {env : Env} {renter : Address} {value : U256}
    (h : w.step site now (.market env ⟨renter, .rent value t⟩) = some w') :
    (w'.market.leases t).renter = renter ∧
      (w'.market.leases t).expiry.toNat = now.toNat + (w.market.leases t).duration.toNat ∧
      InForce (w'.market.leases t) now := by
  cases step_effect h with
  | quiet quiet => cases quiet
  | @rent _ _ _ _ expiry _ user listed vacant enough until_ =>
      rw [checkedAdd_eq_some] at until_
      have hlease : Function.update w.market.leases t
          { w.market.leases t with renter := renter, expiry } t =
          { w.market.leases t with renter := renter, expiry } := Function.update_self _ _ _
      simp only [World.setLease, hlease]
      refine ⟨trivial, until_, listed, user.1, ?_⟩
      rw [BitVec.le_def, until_]
      exact Nat.le_add_right _ _

/-! ## Who can rent -/

/-- Leases are listed by users. -/
def LeasesOfUsers (site : Site) (w : World) : Prop :=
  ∀ t, (w.market.leases t).owner ≠ zeroAddress → site.IsUser (w.market.leases t).owner

theorem LeasesOfUsers.step {a : Action} (hw : LeasesOfUsers site w)
    (h : w.step site now a = some w') : LeasesOfUsers site w' := by
  intro t howner
  cases step_lease h t with
  | kept same =>
      rw [same] at howner ⊢
      exact hw t howner
  | listed l user owner tokens free lease =>
      rw [lease]
      exact user
  | ended vacant lease =>
      rw [lease] at howner
      exact absurd rfl howner
  | rented renter expiry vacant tokens lease =>
      rw [lease] at howner ⊢
      exact hw t howner

theorem run_leasesOfUsers (site : Site) (governance : Address) (ether : Address → Nat) (now : U256)
    (evs : List (Event U256 Action)) :
    LeasesOfUsers site (run site governance ether now evs).state := by
  refine clock_invariant (P := fun _ w => LeasesOfUsers site w) ?_ ?_ ?_ evs
  · intro t howner
    exact absurd rfl howner
  · intro _ _ w hw _
    exact hw
  · intro _ w a w' hw hstep
    exact hw.step hstep

/-- Nothing but the price is needed to rent a vacant token. -/
theorem exists_rent {env : Env} {renter : Address} (huser : site.IsUser renter)
    (hlisted : (w.market.leases t).owner ≠ zeroAddress)
    (hother : (w.market.leases t).owner ≠ site.market)
    (haccepts : env.accepts (w.market.leases t).owner = true)
    (hexpiry : now.toNat + (w.market.leases t).duration.toNat < 2 ^ 256)
    (hfunds : (w.market.leases t).price.toNat ≤ w.ether renter) (hvacant : w.Vacant now t) :
    ∃ w', w.rent site now env renter (w.market.leases t).price t = some w' := by
  obtain ⟨ether₁, hpay⟩ : ∃ ether₁, pay w.ether renter site.market
      (w.market.leases t).price.toNat = some ether₁ := exists_pay hfunds
  have hheld : (w.market.leases t).price.toNat ≤ ether₁ site.market := by
    rw [(pay_moves hpay).payee (Ne.symm huser.2.2)]
    exact Nat.le_add_left _ _
  obtain ⟨ether₂, hpaid⟩ : ∃ ether₂, pay ether₁ site.market (w.market.leases t).owner
      (w.market.leases t).price.toNat = some ether₂ := exists_pay hheld
  have htransfer : site.transfer env ether₁ (w.market.leases t).owner
      (w.market.leases t).price.toNat = some ether₂ := by
    simp [Site.transfer, require, hother, haccepts, hpaid]
  obtain ⟨expiry, hsum⟩ := exists_checkedAdd hexpiry
  have hfree : (if (w.market.leases t).renter ≠ zeroAddress ∧ (w.market.leases t).expiry < now
      then zeroAddress else (w.market.leases t).renter) = zeroAddress := by
    rcases hvacant with hnone | hexpired
    · simp [hnone]
    · simp [hexpired]
  simp [World.rent, Site.refund, require, hpay, hlisted, hfree, hsum, htransfer]

/-- A rental that was just paid for stands, in every later state up to its expiry. -/
def Undisturbed (site : Site) (s : Clocked U256 World) : Prop :=
  ∀ env renter value t w',
    s.state.step site s.now (.market env ⟨renter, .rent value t⟩) = some w' →
    (w'.market.leases t).renter = renter ∧
      (w'.market.leases t).expiry.toNat = s.now.toNat + (s.state.market.leases t).duration.toNat ∧
      ∀ more, (Clock.run (World.step site) ⟨s.now, w'⟩ more).now ≤ (w'.market.leases t).expiry →
        (Clock.run (World.step site) ⟨s.now, w'⟩ more).state.market.leases t =
          w'.market.leases t

/-- A listed token, whose owner takes the ether and whose expiry is a timestamp, can be rented at
its price exactly if the view shows no renter. -/
def RentableAsShown (site : Site) (s : Clocked U256 World) : Prop :=
  ∀ env renter t, site.IsUser renter → (s.state.market.leases t).owner ≠ zeroAddress →
    env.accepts (s.state.market.leases t).owner = true →
    s.now.toNat + (s.state.market.leases t).duration.toNat < 2 ^ 256 →
    (s.state.market.leases t).price.toNat ≤ s.state.ether renter →
    ((s.state.step site s.now
        (.market env ⟨renter, .rent (s.state.market.leases t).price t⟩)).isSome = true ↔
      (s.state.getLease s.now t).renter = zeroAddress)

structure LeasesKept (site : Site) (s : Clocked U256 World) : Prop where
  undisturbed : Undisturbed site s
  rentable : RentableAsShown site s

/-- **Leases are kept**, in every reachable state. -/
theorem leases_kept (site : Site) (governance : Address) (ether : Address → Nat) (now : U256)
    (evs : List (Event U256 Action)) :
    LeasesKept site (run site governance ether now evs) := by
  have hs := run_leasesOfUsers site governance ether now evs
  generalize run site governance ether now evs = s at hs ⊢
  refine ⟨?_, ?_⟩
  · intro env renter value t w' hrent
    obtain ⟨hrenter, hexpiry, hforce⟩ := rented_of_step hrent
    exact ⟨hrenter, hexpiry, hforce.run⟩
  · intro env renter t huser hlisted haccepts hexpiry hfunds
    rw [World.getLease_renter]
    constructor
    · intro hrent
      obtain ⟨w', hrent⟩ := Option.isSome_iff_exists.mp hrent
      cases step_effect hrent with
      | quiet quiet => cases quiet
      | rent user listed vacant => exact vacant
    · intro hvacant
      obtain ⟨w', hrent⟩ := exists_rent huser hlisted (hs t hlisted).2.2 haccepts hexpiry hfunds
        hvacant
      rw [World.step, require, if_pos huser]
      exact Option.isSome_iff_exists.mpr ⟨w', hrent⟩

end ChainBeasts.Contracts.Marketplace
