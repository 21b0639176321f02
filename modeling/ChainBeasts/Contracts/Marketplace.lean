import ChainBeasts.Clock
import ChainBeasts.Contracts.CreatureIds
import ChainBeasts.Evm.Ether

/-! # `Marketplace.sol`

Sales, breeding and leases of creatures, and the items attached to them. The marketplace reads and
moves tokens of `CreatureNFT` and passes ether on, so a state is both contracts with the ether of
all accounts, under the clock of `block.timestamp`.

What the recipients of ether do with it is part of a call: they may refuse, and do not call back.
What a governance hook does is left to the calls that follow: it runs last. -/

namespace ChainBeasts.Contracts

open ChainBeasts.Evm ChainBeasts.Machine

structure Listing where
  seller : Address
  price : U256
  deriving DecidableEq

def Listing.empty : Listing := ⟨zeroAddress, 0⟩

structure Lease where
  owner : Address
  price : U256
  duration : U256
  renter : Address
  expiry : U256
  deriving DecidableEq

def Lease.empty : Lease := ⟨zeroAddress, 0, 0, zeroAddress, 0⟩

structure Marketplace where
  governance : Address
  governanceHook : Address
  breedFee : U256
  listings : U256 → Listing
  leases : U256 → Lease
  itemOwner : U256 → Address
  itemAttachedTo : U256 → U256

namespace Marketplace

/-- `governance` is the constructor's second argument, or its sender where that is zero. -/
def deploy (governance : Address) : Marketplace where
  governance
  governanceHook := zeroAddress
  breedFee := ether
  listings _ := .empty
  leases _ := .empty
  itemOwner _ := zeroAddress
  itemAttachedTo _ := 0

/-- The two contracts' addresses and the hash function. -/
structure Site where
  keccak256 : Bytes → Bytes32
  nft : Address
  market : Address
  market_ne_zero : market ≠ zeroAddress

/-- What a call meets outside the two contracts: what `CreatureNFT` reads, who takes ether, and
whether there is a contract at the hook's address. -/
structure Env where
  nft : CreatureNFT.Env
  accepts : Address → Bool
  hookHasCode : Bool

structure World where
  nft : CreatureNFT
  market : Marketplace
  ether : Address → Nat

/-- Both contracts just deployed, the marketplace without ether. -/
def start (site : Site) (governance : Address) (ether : Address → Nat) : World :=
  ⟨.deploy, .deploy governance, Function.update ether site.market 0⟩

/-! ## Ether -/

/-- `payable(dst).transfer(amount)`. The marketplace cannot receive ether this way. -/
def Site.transfer (site : Site) (env : Env) (ether : Address → Nat) (dst : Address) (amount : Nat) :
    Option (Address → Nat) := do
  require (dst ≠ site.market ∧ env.accepts dst = true)
  pay ether site.market dst amount

/-- `if (msg.value > price) payable(msg.sender).transfer(msg.value - price)`. -/
def Site.refund (site : Site) (env : Env) (ether : Address → Nat) (sender : Address)
    (value price : U256) : Option (Address → Nat) :=
  if price < value then site.transfer env ether sender (value.toNat - price.toNat) else some ether

namespace World

/-! ## Governance -/

/-- `_notifyHook`: the call fails where there is no contract, and what the hook does with it is
caught. -/
def notifyHook (w : World) (env : Env) : Option World := do
  require (w.market.governanceHook = zeroAddress ∨ env.hookHasCode = true)
  return w

def setGovernanceHook (w : World) (sender hook : Address) : Option World := do
  require (sender = w.market.governance)
  return { w with market := { w.market with governanceHook := hook } }

def setBreedFee (w : World) (env : Env) (sender : Address) (fee : U256) : Option World := do
  require (sender = w.market.governance)
  let changed : World := { w with market := { w.market with breedFee := fee } }
  changed.notifyHook env

def setGovernance (w : World) (env : Env) (sender newGovernance : Address) : Option World := do
  require (sender = w.market.governance)
  let changed : World := { w with market := { w.market with governance := newGovernance } }
  changed.notifyHook env

/-! ## Items -/

def registerItem (w : World) (sender : Address) (itemId : U256) : Option World := do
  require (w.market.itemOwner itemId = zeroAddress)
  let itemOwner := Function.update w.market.itemOwner itemId sender
  return { w with market := { w.market with itemOwner } }

def attachItem (w : World) (sender : Address) (creatureId itemId : U256) : Option World := do
  require (w.nft.ownerOf creatureId = sender)
  require (w.market.itemOwner itemId = sender)
  require (w.market.itemAttachedTo itemId = 0)
  let itemAttachedTo := Function.update w.market.itemAttachedTo itemId creatureId
  return { w with market := { w.market with itemAttachedTo } }

def detachItem (w : World) (sender : Address) (creatureId itemId : U256) : Option World := do
  require (w.nft.ownerOf creatureId = sender)
  require (w.market.itemAttachedTo itemId = creatureId)
  let itemAttachedTo := Function.update w.market.itemAttachedTo itemId 0
  return { w with market := { w.market with itemAttachedTo } }

/-! ## Sales -/

def setListing (w : World) (tokenId : U256) (l : Listing) : World :=
  { w with market := { w.market with listings := Function.update w.market.listings tokenId l } }

def list (w : World) (sender : Address) (tokenId price : U256) : Option World := do
  require (w.nft.ownerOf tokenId = sender)
  return w.setListing tokenId ⟨sender, price⟩

def updatePrice (w : World) (sender : Address) (tokenId newPrice : U256) : Option World := do
  let l := w.market.listings tokenId
  require (l.seller = sender)
  return w.setListing tokenId { l with price := newPrice }

def cancel (w : World) (sender : Address) (tokenId : U256) : Option World := do
  let l := w.market.listings tokenId
  require (l.seller = sender)
  return w.setListing tokenId .empty

def buy (site : Site) (w : World) (env : Env) (sender : Address) (value tokenId : U256) :
    Option World := do
  let ether ← pay w.ether sender site.market value.toNat
  let l := w.market.listings tokenId
  require (0 < l.price)
  require (l.price ≤ value)
  let cleared := w.setListing tokenId .empty
  let nft ← w.nft.transferFrom site.market l.seller sender tokenId
  let ether ← site.transfer env ether l.seller l.price.toNat
  let ether ← site.refund env ether sender value l.price
  return { cleared with nft, ether }

def breed (site : Site) (w : World) (env : Env) (sender : Address) (value parentA parentB : U256)
    (weights : Bytes) : Option World := do
  let ether ← pay w.ether sender site.market value.toNat
  require (w.nft.ownerOf parentA = sender)
  require (w.nft.ownerOf parentB = sender)
  require (w.market.breedFee ≤ value)
  let nft ← w.nft.breed site.keccak256 env.nft site.market sender weights
  let ether ← site.refund env ether sender value w.market.breedFee
  return { w with nft, ether }

/-! ## Leases -/

def setLease (w : World) (tokenId : U256) (l : Lease) : World :=
  { w with market := { w.market with leases := Function.update w.market.leases tokenId l } }

def listForLease (w : World) (now : U256) (sender : Address) (tokenId price duration : U256) :
    Option World := do
  require (w.nft.ownerOf tokenId = sender)
  let l := w.market.leases tokenId
  require (l.owner = zeroAddress ∨ (l.renter = zeroAddress ∧ l.expiry < now))
  return w.setLease tokenId ⟨sender, price, duration, zeroAddress, 0⟩

def cancelLease (w : World) (now : U256) (sender : Address) (tokenId : U256) : Option World := do
  let l := w.market.leases tokenId
  require (l.owner = sender)
  require (l.renter = zeroAddress ∨ l.expiry < now)
  return w.setLease tokenId .empty

def rent (site : Site) (w : World) (now : U256) (env : Env) (sender : Address)
    (value tokenId : U256) : Option World := do
  let ether ← pay w.ether sender site.market value.toNat
  let l := w.market.leases tokenId
  require (l.owner ≠ zeroAddress)
  let renter := if l.renter ≠ zeroAddress ∧ l.expiry < now then zeroAddress else l.renter
  require (renter = zeroAddress)
  require (l.price ≤ value)
  let expiry ← checkedAdd now l.duration
  let rented := w.setLease tokenId { l with renter := sender, expiry }
  let ether ← site.transfer env ether l.owner l.price.toNat
  let ether ← site.refund env ether sender value l.price
  return { rented with ether }

/-- An expired rental is not shown. -/
def getLease (w : World) (now tokenId : U256) : Lease :=
  let info := w.market.leases tokenId
  if info.renter ≠ zeroAddress ∧ info.expiry < now then
    { info with renter := zeroAddress, expiry := 0 }
  else info

end World

/-! ## What each function can do -/

section Cases
variable {site : Site} {env : Env} {ether ether' : Address → Nat} {w w' : World}
  {now value price tokenId fee creatureId itemId : U256} {sender dst hook newGovernance : Address}
  {amount : Nat}

theorem Site.transfer_cases (h : site.transfer env ether dst amount = some ether') :
    dst ≠ site.market ∧ env.accepts dst = true ∧ Moves ether ether' site.market dst amount := by
  simp only [Site.transfer, Option.bind_eq_bind, Option.bind_eq_some_iff, require_eq_some] at h
  obtain ⟨_, ⟨hother, haccepts⟩, hpay⟩ := h
  exact ⟨hother, haccepts, pay_moves hpay⟩

theorem Site.refund_cases (h : site.refund env ether sender value price = some ether') :
    Moves ether ether' site.market sender (value.toNat - price.toNat) := by
  unfold Site.refund at h
  split at h
  · exact (Site.transfer_cases h).2.2
  · next hnot =>
      have hequal : value.toNat - price.toNat = 0 := Nat.sub_eq_zero_of_le (Nat.le_of_not_lt hnot)
      rw [hequal, ← Option.some.inj h]
      exact moves_zero

namespace World

theorem notifyHook_cases (h : w.notifyHook env = some w') : w' = w := by
  simp only [notifyHook, Option.bind_eq_bind, Option.bind_eq_some_iff, Option.pure_def,
    Option.some.injEq] at h
  obtain ⟨_, -, rfl⟩ := h
  rfl

theorem setGovernanceHook_cases (h : w.setGovernanceHook sender hook = some w') :
    w' = { w with market := { w.market with governanceHook := hook } } := by
  simp only [setGovernanceHook, Option.bind_eq_bind, Option.bind_eq_some_iff, Option.pure_def,
    Option.some.injEq] at h
  obtain ⟨_, -, rfl⟩ := h
  rfl

theorem setBreedFee_cases (h : w.setBreedFee env sender fee = some w') :
    w' = { w with market := { w.market with breedFee := fee } } := by
  obtain ⟨_, -, hnotify⟩ := Option.bind_eq_some_iff.mp h
  exact notifyHook_cases hnotify

theorem setGovernance_cases (h : w.setGovernance env sender newGovernance = some w') :
    w' = { w with market := { w.market with governance := newGovernance } } := by
  obtain ⟨_, -, hnotify⟩ := Option.bind_eq_some_iff.mp h
  exact notifyHook_cases hnotify

theorem registerItem_cases (h : w.registerItem sender itemId = some w') :
    w' = { w with market := { w.market with
      itemOwner := Function.update w.market.itemOwner itemId sender } } := by
  simp only [registerItem, Option.bind_eq_bind, Option.bind_eq_some_iff, Option.pure_def,
    Option.some.injEq] at h
  obtain ⟨_, -, rfl⟩ := h
  rfl

theorem attachItem_cases (h : w.attachItem sender creatureId itemId = some w') :
    w.nft.ownerOf creatureId = sender ∧ w.market.itemAttachedTo itemId = 0 ∧
      w' = { w with market := { w.market with
        itemAttachedTo := Function.update w.market.itemAttachedTo itemId creatureId } } := by
  simp only [attachItem, Option.bind_eq_bind, Option.bind_eq_some_iff, require_eq_some,
    Option.pure_def, Option.some.injEq] at h
  obtain ⟨_, howner, _, -, _, hfree, rfl⟩ := h
  exact ⟨howner, hfree, rfl⟩

theorem detachItem_cases (h : w.detachItem sender creatureId itemId = some w') :
    w.nft.ownerOf creatureId = sender ∧ w.market.itemAttachedTo itemId = creatureId ∧
      w' = { w with market := { w.market with
        itemAttachedTo := Function.update w.market.itemAttachedTo itemId 0 } } := by
  simp only [detachItem, Option.bind_eq_bind, Option.bind_eq_some_iff, require_eq_some,
    Option.pure_def, Option.some.injEq] at h
  obtain ⟨_, howner, _, hon, rfl⟩ := h
  exact ⟨howner, hon, rfl⟩

theorem list_cases (h : w.list sender tokenId price = some w') :
    w.nft.ownerOf tokenId = sender ∧ w' = w.setListing tokenId ⟨sender, price⟩ := by
  simp only [list, Option.bind_eq_bind, Option.bind_eq_some_iff, require_eq_some, Option.pure_def,
    Option.some.injEq] at h
  obtain ⟨_, howner, rfl⟩ := h
  exact ⟨howner, rfl⟩

theorem updatePrice_cases (h : w.updatePrice sender tokenId price = some w') :
    (w.market.listings tokenId).seller = sender ∧
      w' = w.setListing tokenId ⟨sender, price⟩ := by
  simp only [updatePrice, Option.bind_eq_bind, Option.bind_eq_some_iff, require_eq_some,
    Option.pure_def, Option.some.injEq] at h
  obtain ⟨_, hseller, rfl⟩ := h
  exact ⟨hseller, by rw [← hseller]⟩

theorem cancel_cases (h : w.cancel sender tokenId = some w') :
    (w.market.listings tokenId).seller = sender ∧ w' = w.setListing tokenId .empty := by
  simp only [cancel, Option.bind_eq_bind, Option.bind_eq_some_iff, require_eq_some,
    Option.pure_def, Option.some.injEq] at h
  obtain ⟨_, hseller, rfl⟩ := h
  exact ⟨hseller, rfl⟩

theorem buy_cases (h : w.buy site env sender value tokenId = some w') :
    0 < (w.market.listings tokenId).price ∧ (w.market.listings tokenId).price ≤ value ∧
      ∃ nft ether, w.nft.transferFrom site.market (w.market.listings tokenId).seller sender tokenId
          = some nft ∧
        Moves w.ether ether sender (w.market.listings tokenId).seller
          (w.market.listings tokenId).price.toNat ∧
        (w.market.listings tokenId).seller ≠ site.market ∧
        w' = { w.setListing tokenId .empty with nft, ether } := by
  simp only [buy, Option.bind_eq_bind, Option.bind_eq_some_iff, require_eq_some, Option.pure_def,
    Option.some.injEq] at h
  obtain ⟨_, hpay, _, hprice, _, hle, nft, htoken, _, htransfer, ether, hrefund, rfl⟩ := h
  obtain ⟨hother, -, hmoves⟩ := Site.transfer_cases htransfer
  have hback := Site.refund_cases hrefund
  exact ⟨hprice, hle, nft, ether, htoken, (pay_moves hpay).passOn hmoves hback hle, hother, rfl⟩

theorem breed_cases {parentA parentB : U256} {weights : Bytes}
    (h : w.breed site env sender value parentA parentB weights = some w') :
    w.nft.ownerOf parentA = sender ∧ w.nft.ownerOf parentB = sender ∧ w.market.breedFee ≤ value ∧
      ∃ nft ether, w.nft.breed site.keccak256 env.nft site.market sender weights = some nft ∧
        Moves w.ether ether sender site.market w.market.breedFee.toNat ∧
        w' = { w with nft, ether } := by
  simp only [breed, Option.bind_eq_bind, Option.bind_eq_some_iff, require_eq_some, Option.pure_def,
    Option.some.injEq] at h
  obtain ⟨_, hpay, _, hA, _, hB, _, hle, nft, htoken, ether, hrefund, rfl⟩ := h
  have hback := Site.refund_cases hrefund
  exact ⟨hA, hB, hle, nft, ether, htoken, (pay_moves hpay).refund hback hle, rfl⟩

theorem listForLease_cases {duration : U256}
    (h : w.listForLease now sender tokenId price duration = some w') :
    w.nft.ownerOf tokenId = sender ∧
      ((w.market.leases tokenId).owner = zeroAddress ∨
        (w.market.leases tokenId).renter = zeroAddress) ∧
      w' = w.setLease tokenId ⟨sender, price, duration, zeroAddress, 0⟩ := by
  simp only [listForLease, Option.bind_eq_bind, Option.bind_eq_some_iff, require_eq_some,
    Option.pure_def, Option.some.injEq] at h
  obtain ⟨_, howner, _, hfree, rfl⟩ := h
  exact ⟨howner, hfree.imp_right And.left, rfl⟩

theorem cancelLease_cases (h : w.cancelLease now sender tokenId = some w') :
    (w.market.leases tokenId).owner = sender ∧
      ((w.market.leases tokenId).renter = zeroAddress ∨ (w.market.leases tokenId).expiry < now) ∧
      w' = w.setLease tokenId .empty := by
  simp only [cancelLease, Option.bind_eq_bind, Option.bind_eq_some_iff, require_eq_some,
    Option.pure_def, Option.some.injEq] at h
  obtain ⟨_, howner, _, hfree, rfl⟩ := h
  exact ⟨howner, hfree, rfl⟩

/-- Nobody rents the token: it is free or its rental has expired. -/
def Vacant (w : World) (now tokenId : U256) : Prop :=
  (w.market.leases tokenId).renter = zeroAddress ∨ (w.market.leases tokenId).expiry < now

/-- The view agrees with `Vacant`, also at the expiry. -/
theorem getLease_renter :
    (w.getLease now tokenId).renter = zeroAddress ↔ w.Vacant now tokenId := by
  unfold getLease Vacant
  by_cases hrenter : (w.market.leases tokenId).renter = zeroAddress
  · simp [hrenter]
  · by_cases hexpired : (w.market.leases tokenId).expiry < now
    · simp [hrenter, hexpired]
    · simp [hrenter, hexpired]

theorem rent_cases (h : w.rent site now env sender value tokenId = some w') :
    (w.market.leases tokenId).owner ≠ zeroAddress ∧ w.Vacant now tokenId ∧
      (w.market.leases tokenId).price ≤ value ∧
      ∃ expiry ether, checkedAdd now (w.market.leases tokenId).duration = some expiry ∧
        Moves w.ether ether sender (w.market.leases tokenId).owner
          (w.market.leases tokenId).price.toNat ∧
        (w.market.leases tokenId).owner ≠ site.market ∧
        w' = { w.setLease tokenId
          { w.market.leases tokenId with renter := sender, expiry } with ether } := by
  simp only [rent, Option.bind_eq_bind, Option.bind_eq_some_iff, require_eq_some, Option.pure_def,
    Option.some.injEq] at h
  obtain ⟨_, hpay, _, howner, _, hfree, _, hle, expiry, hexpiry, _, htransfer, ether, hrefund,
    rfl⟩ := h
  obtain ⟨hother, -, hmoves⟩ := Site.transfer_cases htransfer
  have hback := Site.refund_cases hrefund
  have hvacant : w.Vacant now tokenId := by
    by_contra hnot
    obtain ⟨hrenter, hlive⟩ := not_or.mp hnot
    rw [if_neg fun h => hlive h.2] at hfree
    exact hrenter hfree
  exact ⟨howner, hvacant, hle, expiry, ether, hexpiry, (pay_moves hpay).passOn hmoves hback hle,
    hother, rfl⟩

end World

end Cases

/-! ## Runs -/

/-- The external functions that write; `value` is `msg.value` where the function is payable. -/
inductive Call where
  | setGovernanceHook (hook : Address)
  | setBreedFee (fee : U256)
  | setGovernance (newGovernance : Address)
  | registerItem (itemId : U256)
  | attachItem (creatureId itemId : U256)
  | detachItem (creatureId itemId : U256)
  | list (tokenId price : U256)
  | updatePrice (tokenId newPrice : U256)
  | cancel (tokenId : U256)
  | buy (value tokenId : U256)
  | breed (value parentA parentB : U256) (weights : Bytes)
  | listForLease (tokenId price duration : U256)
  | cancelLease (tokenId : U256)
  | rent (value tokenId : U256)
  deriving DecidableEq

inductive Action where
  | market (env : Env) (tx : Tx Call)
  | nft (env : CreatureNFT.Env) (tx : Tx CreatureNFT.Call)
  /-- The other accounts' ether moves, for reasons of their own. -/
  | other (ether : Address → Nat)

/-- An account that can call: not one of the two contracts, and not the zero address. -/
def Site.IsUser (site : Site) (a : Address) : Prop :=
  a ≠ zeroAddress ∧ a ≠ site.nft ∧ a ≠ site.market

instance (site : Site) (a : Address) : Decidable (site.IsUser a) :=
  inferInstanceAs (Decidable (_ ∧ _ ∧ _))

def World.call (site : Site) (now : U256) (w : World) (env : Env) (sender : Address) :
    Call → Option World
  | .setGovernanceHook hook => w.setGovernanceHook sender hook
  | .setBreedFee fee => w.setBreedFee env sender fee
  | .setGovernance newGovernance => w.setGovernance env sender newGovernance
  | .registerItem itemId => w.registerItem sender itemId
  | .attachItem creatureId itemId => w.attachItem sender creatureId itemId
  | .detachItem creatureId itemId => w.detachItem sender creatureId itemId
  | .list tokenId price => w.list sender tokenId price
  | .updatePrice tokenId newPrice => w.updatePrice sender tokenId newPrice
  | .cancel tokenId => w.cancel sender tokenId
  | .buy value tokenId => w.buy site env sender value tokenId
  | .breed value parentA parentB weights => w.breed site env sender value parentA parentB weights
  | .listForLease tokenId price duration => w.listForLease now sender tokenId price duration
  | .cancelLease tokenId => w.cancelLease now sender tokenId
  | .rent value tokenId => w.rent site now env sender value tokenId

def World.step (site : Site) (now : U256) (w : World) : Action → Option World
  | .market env ⟨sender, call⟩ => do
      require (site.IsUser sender)
      w.call site now env sender call
  | .nft env ⟨sender, call⟩ => do
      require (site.IsUser sender)
      let nft ← w.nft.step site.keccak256 site.nft env sender call
      return { w with nft }
  | .other ether => do
      require (ether site.market = w.ether site.market)
      return { w with ether }

/-- The calls that concern no token, listing, lease or ether. -/
def Call.Quiet : Call → Prop
  | .setGovernanceHook _ | .setBreedFee _ | .setGovernance _ => True
  | .registerItem _ | .attachItem _ _ | .detachItem _ _ => True
  | _ => False

/-- What an accepted action does to the tokens, the listings, the leases and the ether. -/
inductive Effect (site : Site) (now : U256) (w : World) : Action → World → Prop
  | quiet {env sender call w'} (quiet : Call.Quiet call) (nft : w'.nft = w.nft)
      (listings : w'.market.listings = w.market.listings)
      (leases : w'.market.leases = w.market.leases) (ether : w'.ether = w.ether) :
      Effect site now w (.market env ⟨sender, call⟩) w'
  | list {env sender tokenId price} (user : site.IsUser sender)
      (owner : w.nft.ownerOf tokenId = sender) :
      Effect site now w (.market env ⟨sender, .list tokenId price⟩)
        (w.setListing tokenId ⟨sender, price⟩)
  | updatePrice {env sender tokenId price} (user : site.IsUser sender)
      (seller : (w.market.listings tokenId).seller = sender) :
      Effect site now w (.market env ⟨sender, .updatePrice tokenId price⟩)
        (w.setListing tokenId ⟨sender, price⟩)
  | cancel {env sender tokenId} (user : site.IsUser sender)
      (seller : (w.market.listings tokenId).seller = sender) :
      Effect site now w (.market env ⟨sender, .cancel tokenId⟩) (w.setListing tokenId .empty)
  | buy {env sender value tokenId nft ether} (user : site.IsUser sender)
      (priced : 0 < (w.market.listings tokenId).price)
      (enough : (w.market.listings tokenId).price ≤ value)
      (token : w.nft.step site.keccak256 site.nft env.nft site.market
        (.transferFrom (w.market.listings tokenId).seller sender tokenId) = some nft)
      (moves : Moves w.ether ether sender (w.market.listings tokenId).seller
        (w.market.listings tokenId).price.toNat)
      (other : (w.market.listings tokenId).seller ≠ site.market) :
      Effect site now w (.market env ⟨sender, .buy value tokenId⟩)
        { w.setListing tokenId .empty with nft, ether }
  | breed {env sender value parentA parentB weights nft ether} (user : site.IsUser sender)
      (enough : w.market.breedFee ≤ value)
      (token : w.nft.step site.keccak256 site.nft env.nft site.market (.breed sender weights) =
        some nft)
      (moves : Moves w.ether ether sender site.market w.market.breedFee.toNat) :
      Effect site now w (.market env ⟨sender, .breed value parentA parentB weights⟩)
        { w with nft, ether }
  | listForLease {env sender tokenId price duration} (user : site.IsUser sender)
      (owner : w.nft.ownerOf tokenId = sender)
      (free : (w.market.leases tokenId).owner = zeroAddress ∨
        (w.market.leases tokenId).renter = zeroAddress) :
      Effect site now w (.market env ⟨sender, .listForLease tokenId price duration⟩)
        (w.setLease tokenId ⟨sender, price, duration, zeroAddress, 0⟩)
  | cancelLease {env sender tokenId} (user : site.IsUser sender)
      (owner : (w.market.leases tokenId).owner = sender) (vacant : w.Vacant now tokenId) :
      Effect site now w (.market env ⟨sender, .cancelLease tokenId⟩) (w.setLease tokenId .empty)
  | rent {env sender value tokenId expiry ether} (user : site.IsUser sender)
      (listed : (w.market.leases tokenId).owner ≠ zeroAddress) (vacant : w.Vacant now tokenId)
      (enough : (w.market.leases tokenId).price ≤ value)
      (until_ : checkedAdd now (w.market.leases tokenId).duration = some expiry)
      (moves : Moves w.ether ether sender (w.market.leases tokenId).owner
        (w.market.leases tokenId).price.toNat)
      (other : (w.market.leases tokenId).owner ≠ site.market) :
      Effect site now w (.market env ⟨sender, .rent value tokenId⟩)
        { w.setLease tokenId { w.market.leases tokenId with renter := sender, expiry } with ether }
  | nft {env sender call nft} (user : site.IsUser sender)
      (token : w.nft.step site.keccak256 site.nft env sender call = some nft) :
      Effect site now w (.nft env ⟨sender, call⟩) { w with nft }
  | other {ether} (kept : ether site.market = w.ether site.market) :
      Effect site now w (.other ether) { w with ether }

theorem call_effect {site : Site} {now : U256} {w w' : World} {env : Env} {sender : Address}
    {call : Call} (user : site.IsUser sender) (h : w.call site now env sender call = some w') :
    Effect site now w (.market env ⟨sender, call⟩) w' := by
  cases call with
  | setGovernanceHook hook =>
      obtain rfl := World.setGovernanceHook_cases h
      exact .quiet trivial rfl rfl rfl rfl
  | setBreedFee fee =>
      obtain rfl := World.setBreedFee_cases h
      exact .quiet trivial rfl rfl rfl rfl
  | setGovernance newGovernance =>
      obtain rfl := World.setGovernance_cases h
      exact .quiet trivial rfl rfl rfl rfl
  | registerItem itemId =>
      obtain rfl := World.registerItem_cases h
      exact .quiet trivial rfl rfl rfl rfl
  | attachItem creatureId itemId =>
      obtain ⟨-, -, rfl⟩ := World.attachItem_cases h
      exact .quiet trivial rfl rfl rfl rfl
  | detachItem creatureId itemId =>
      obtain ⟨-, -, rfl⟩ := World.detachItem_cases h
      exact .quiet trivial rfl rfl rfl rfl
  | list tokenId price =>
      obtain ⟨howner, rfl⟩ := World.list_cases h
      exact .list user howner
  | updatePrice tokenId newPrice =>
      obtain ⟨hseller, rfl⟩ := World.updatePrice_cases h
      exact .updatePrice user hseller
  | cancel tokenId =>
      obtain ⟨hseller, rfl⟩ := World.cancel_cases h
      exact .cancel user hseller
  | buy value tokenId =>
      obtain ⟨hprice, hle, nft, ether, htoken, hmoves, hother, rfl⟩ := World.buy_cases h
      exact .buy user hprice hle htoken hmoves hother
  | breed value parentA parentB weights =>
      obtain ⟨-, -, hle, nft, ether, htoken, hmoves, rfl⟩ := World.breed_cases h
      exact .breed user hle htoken hmoves
  | listForLease tokenId price duration =>
      obtain ⟨howner, hfree, rfl⟩ := World.listForLease_cases h
      exact .listForLease user howner hfree
  | cancelLease tokenId =>
      obtain ⟨howner, hvacant, rfl⟩ := World.cancelLease_cases h
      exact .cancelLease user howner hvacant
  | rent value tokenId =>
      obtain ⟨howner, hvacant, hle, expiry, ether, hexpiry, hmoves, hother, rfl⟩ :=
        World.rent_cases h
      exact .rent user howner hvacant hle hexpiry hmoves hother

/-- **One action.** -/
theorem step_effect {site : Site} {now : U256} {w w' : World} {a : Action}
    (h : w.step site now a = some w') : Effect site now w a w' := by
  cases a with
  | market env tx =>
      obtain ⟨_, huser, hcall⟩ := Option.bind_eq_some_iff.mp h
      exact call_effect (require_eq_some.mp huser) hcall
  | nft env tx =>
      simp only [World.step, Option.bind_eq_bind, Option.bind_eq_some_iff, require_eq_some,
        Option.pure_def, Option.some.injEq] at h
      obtain ⟨_, huser, nft, htoken, rfl⟩ := h
      exact .nft huser htoken
  | other ether =>
      simp only [World.step, Option.bind_eq_bind, Option.bind_eq_some_iff, require_eq_some,
        Option.pure_def, Option.some.injEq] at h
      obtain ⟨_, hkept, rfl⟩ := h
      exact .other hkept

/-- The tokens stay tidy, whoever moves them. -/
theorem step_tidy {site : Site} {now : U256} {w w' : World} {a : Action} (hs : w.nft.Tidy)
    (h : w.step site now a = some w') : w'.nft.Tidy := by
  cases step_effect h with
  | quiet quiet nft =>
      rw [nft]
      exact hs
  | buy user priced enough token => exact hs.step site.market_ne_zero token
  | breed user enough token => exact hs.step site.market_ne_zero token
  | nft user token => exact hs.step user.1 token
  | _ => exact hs

open Clock

/-- The contracts after `evs`, deployed at `now`. -/
def run (site : Site) (governance : Address) (ether : Address → Nat) (now : U256)
    (evs : List (Event U256 Action)) : Clocked U256 World :=
  Clock.run (World.step site) ⟨now, start site governance ether⟩ evs

/-- An accepted event with the states around it. -/
abbrev Happening := Move (Clocked U256 World) (Event U256 Action)

def moves (site : Site) (governance : Address) (ether : Address → Nat) (now : U256)
    (evs : List (Event U256 Action)) : List Happening :=
  Clock.moves (World.step site) ⟨now, start site governance ether⟩ evs

end Marketplace

end ChainBeasts.Contracts
