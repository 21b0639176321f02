import ChainBeasts.Contracts.Marketplace

/-! # Items on creatures

`itemAttachedTo` is the creature that carries an item, and zero where none does. That is a fine
encoding as long as no creature has the id zero. The counter never gives it out, but the bridge can:
an item attached to creature 0 counts as free (`attached_twice`). In every run that attaches and
detaches on other creatures only, the events of an item alternate (`item_events_alternate`), and
every run is one in which the bridge mints no token 0 (`creature_zero_unused`). -/

namespace ChainBeasts.Contracts.Marketplace

open ChainBeasts.Evm ChainBeasts.Machine ChainBeasts.Clock

/-! ## Events -/

/-- `ItemAttached` and `ItemDetached`, as far as one item is concerned. -/
inductive ItemEvent where
  | attached (creatureId : U256)
  | detached (creatureId : U256)
  deriving DecidableEq

/-- The event about `item` that an accepted call emits. -/
def itemEvent (item : U256) (m : Happening) : Option ItemEvent :=
  match m.call with
  | .call (.market _ ⟨_, .attachItem creatureId itemId⟩) =>
      if item = itemId then some (.attached creatureId) else none
  | .call (.market _ ⟨_, .detachItem creatureId itemId⟩) =>
      if item = itemId then some (.detached creatureId) else none
  | _ => none

/-- Attached and detached in turn, starting with attached, and each time detached from where it
was. -/
def Alternates : List ItemEvent → Bool
  | [] => true
  | [.attached _] => true
  | .attached c :: .detached c' :: evs => c' = c && Alternates evs
  | _ => false

/-- The creature that an event names. -/
def ItemEvent.creature : ItemEvent → U256
  | .attached c => c
  | .detached c => c

/-- The event about `item`, if there is one, names another creature than creature 0. -/
def OnCreature (item : U256) (m : Happening) : Prop :=
  ∀ e ∈ itemEvent item m, e.creature ≠ 0

instance (item : U256) (m : Happening) : Decidable (OnCreature item m) :=
  inferInstanceAs (Decidable (∀ _ ∈ _, _))

/-- Token 0 is minted over the bridge. -/
def MintsZero (m : Happening) : Prop :=
  match m.call with
  | .call (.nft _ ⟨_, .mintFromBridge _ tokenId _ _⟩) => tokenId = 0
  | _ => False

/-! ## Where an item is -/

/-- What an event does to an item: `none` is an item on no creature, and there is no result where
the event cannot be. -/
def place (on : Option U256) : ItemEvent → Option (Option U256)
  | .attached c => if on = none then some (some c) else none
  | .detached c => if on = some c then some none else none

/-- Events that can be, one after the other, alternate. -/
theorem alternates_of_place : ∀ {evs : List ItemEvent} {on : Option U256},
    evs.foldlM place none = some on → Alternates evs = true
  | [], _, _ => rfl
  | [.attached _], _, _ => rfl
  | .detached c :: evs, on, h => by simp [List.foldlM_cons, place] at h
  | .attached c :: .attached c' :: evs, on, h => by simp [List.foldlM_cons, place] at h
  | .attached c :: .detached c' :: evs, on, h => by
      by_cases hc : c = c'
      · subst hc
        have hrest : evs.foldlM place none = some on := by
          simpa [List.foldlM_cons, place] using h
        rw [Alternates, alternates_of_place hrest]
        simp
      · simp [List.foldlM_cons, place, hc] at h

variable {site : Site} {now : U256} {w w' : World} {item : U256} {tr : List Happening}

/-- Where the marketplace says the item is. -/
def carrier (w : World) (item : U256) : Option U256 :=
  if w.market.itemAttachedTo item = 0 then none else some (w.market.itemAttachedTo item)

theorem carrier_congr (h : w'.market.itemAttachedTo item = w.market.itemAttachedTo item) :
    carrier w' item = carrier w item := by
  unfold carrier
  rw [h]

/-- Only `attachItem` and `detachItem` move items. -/
theorem items_kept {env : Env} {sender : Address} {call : Call}
    (hattach : ∀ c i, call ≠ .attachItem c i) (hdetach : ∀ c i, call ≠ .detachItem c i)
    (h : w.call site now env sender call = some w') :
    w'.market.itemAttachedTo = w.market.itemAttachedTo := by
  cases call with
  | setGovernanceHook hook =>
      obtain rfl := World.setGovernanceHook_cases h
      rfl
  | setBreedFee fee =>
      obtain rfl := World.setBreedFee_cases h
      rfl
  | setGovernance newGovernance =>
      obtain rfl := World.setGovernance_cases h
      rfl
  | registerItem itemId =>
      obtain rfl := World.registerItem_cases h
      rfl
  | attachItem creatureId itemId => exact absurd rfl (hattach creatureId itemId)
  | detachItem creatureId itemId => exact absurd rfl (hdetach creatureId itemId)
  | list tokenId price =>
      obtain ⟨-, rfl⟩ := World.list_cases h
      rfl
  | updatePrice tokenId newPrice =>
      obtain ⟨-, rfl⟩ := World.updatePrice_cases h
      rfl
  | cancel tokenId =>
      obtain ⟨-, rfl⟩ := World.cancel_cases h
      rfl
  | buy value tokenId =>
      obtain ⟨-, -, nft, ether, -, -, -, rfl⟩ := World.buy_cases h
      rfl
  | breed value parentA parentB weights =>
      obtain ⟨-, -, -, nft, ether, -, -, rfl⟩ := World.breed_cases h
      rfl
  | listForLease tokenId price duration =>
      obtain ⟨-, -, rfl⟩ := World.listForLease_cases h
      rfl
  | cancelLease tokenId =>
      obtain ⟨-, -, rfl⟩ := World.cancelLease_cases h
      rfl
  | rent value tokenId =>
      obtain ⟨-, -, -, expiry, ether, -, -, -, rfl⟩ := World.rent_cases h
      rfl

/-- What an accepted action does to the place of an item. -/
inductive ItemMove (item : U256) (w w' : World) : Option ItemEvent → Prop
  | kept (same : w'.market.itemAttachedTo item = w.market.itemAttachedTo item) :
      ItemMove item w w' none
  | attached {c : U256} (owned : w.nft.ownerOf c ≠ zeroAddress)
      (free : w.market.itemAttachedTo item = 0) (nowOn : w'.market.itemAttachedTo item = c) :
      ItemMove item w w' (some (.attached c))
  | detached {c : U256} (owned : w.nft.ownerOf c ≠ zeroAddress)
      (wasOn : w.market.itemAttachedTo item = c) (free : w'.market.itemAttachedTo item = 0) :
      ItemMove item w w' (some (.detached c))

/-- **One action and one item.** -/
theorem step_item {a : Action} (h : w.step site now a = some w') (item : U256) :
    ItemMove item w w' (itemEvent item ⟨⟨now, w⟩, .call a, ⟨now, w'⟩⟩) := by
  cases a with
  | market env tx =>
      obtain ⟨sender, call⟩ := tx
      obtain ⟨_, huser, hcall⟩ := Option.bind_eq_some_iff.mp h
      have hsender : sender ≠ zeroAddress := (require_eq_some.mp huser).1
      cases call with
      | attachItem c i =>
          obtain ⟨rfl, hfree, rfl⟩ := World.attachItem_cases hcall
          show ItemMove item w _ (if item = i then some (.attached c) else none)
          by_cases hi : item = i
          · subst hi
            rw [if_pos rfl]
            exact .attached hsender hfree (Function.update_self ..)
          · rw [if_neg hi]
            apply ItemMove.kept
            exact Function.update_of_ne hi ..
      | detachItem c i =>
          obtain ⟨rfl, hon, rfl⟩ := World.detachItem_cases hcall
          show ItemMove item w _ (if item = i then some (.detached c) else none)
          by_cases hi : item = i
          · subst hi
            rw [if_pos rfl]
            exact .detached hsender hon (Function.update_self ..)
          · rw [if_neg hi]
            apply ItemMove.kept
            exact Function.update_of_ne hi ..
      | _ => exact .kept (congrFun (items_kept (by simp) (by simp) hcall) item)
  | nft env tx =>
      obtain ⟨_, -, hnft⟩ := Option.bind_eq_some_iff.mp h
      obtain ⟨nft, -, hw⟩ := Option.bind_eq_some_iff.mp hnft
      obtain rfl := Option.some.inj hw
      exact .kept rfl
  | other ether =>
      obtain ⟨_, -, hw⟩ := Option.bind_eq_some_iff.mp h
      obtain rfl := Option.some.inj hw
      exact .kept rfl

/-! ## Items alternate -/

/-- The events about an item, in order. -/
def itemEvents (item : U256) (tr : List Happening) : List ItemEvent := tr.filterMap (itemEvent item)

/-- Two creatures carry one item: it is attached to creature 0, which came over the bridge, and then
to creature 1. -/
def zeroBridged : List (Event U256 Action) :=
  let calling : CreatureNFT.Env := ⟨0, 0, true⟩
  let trading : Env := ⟨calling, fun _ => true, false⟩
  [.call (.nft calling ⟨5, .setBridge 5⟩),
    .call (.nft calling ⟨5, .mintFromBridge 7 0 [] 1⟩),
    .call (.nft calling ⟨7, .hatch []⟩),
    .call (.market trading ⟨7, .registerItem 3⟩),
    .call (.market trading ⟨7, .attachItem 0 3⟩),
    .call (.market trading ⟨7, .attachItem 1 3⟩)]

/-- **On two creatures at once.** -/
theorem attached_twice :
    let site : Site := ⟨fun _ => 0, 100, 200, by decide⟩
    itemEvents 3 (moves site 1 (fun _ => 5) 0 zeroBridged) = [.attached 0, .attached 1] ∧
      ¬ ∀ item, Alternates (itemEvents item (moves site 1 (fun _ => 5) 0 zeroBridged)) = true := by
  intro site
  have hevents : itemEvents 3 (moves site 1 (fun _ => 5) 0 zeroBridged) =
      [.attached 0, .attached 1] := by
    decide +kernel
  refine ⟨hevents, ?_⟩
  intro hall
  have hitem := hall 3
  rw [hevents] at hitem
  exact absurd hitem (by decide)

/-- The events so far can be, and the record says where they left the item. -/
def Placed (item : U256) (w : World) (tr : List Happening) : Prop :=
  (itemEvents item tr).foldlM place none = some (carrier w item)

theorem carrier_of_ne {c : U256} (h : w.market.itemAttachedTo item = c) (hc : c ≠ 0) :
    carrier w item = some c := by
  rw [carrier, h, if_neg hc]

theorem carrier_of_free (h : w.market.itemAttachedTo item = 0) : carrier w item = none := by
  rw [carrier, if_pos h]

theorem Placed.concat {m : Happening} (hs : Placed item w tr)
    (hm : ItemMove item w w' (itemEvent item m)) (hok : OnCreature item m) :
    Placed item w' (tr ++ [m]) := by
  unfold Placed itemEvents at hs ⊢
  rw [List.filterMap_append, List.foldlM_append, hs]
  unfold OnCreature at hok
  cases hevent : itemEvent item m with
  | none =>
      rw [hevent] at hm
      cases hm with
      | kept same => simp [hevent, carrier_congr same]
  | some e =>
      rw [hevent] at hm hok
      have hne : e.creature ≠ 0 := hok e rfl
      cases hm with
      | attached owned free nowOn =>
          simp [hevent, place, carrier_of_free free, carrier_of_ne nowOn hne]
      | detached owned wasOn free =>
          simp [hevent, place, carrier_of_free free, carrier_of_ne wasOn hne]

/-- **Items are on one creature at most**, in every run: the events of an item that is attached to
and detached from other creatures than creature 0 alternate. -/
theorem item_events_alternate (site : Site) (governance : Address) (ether : Address → Nat)
    (now : U256) (evs : List (Event U256 Action)) (item : U256)
    (hok : ∀ m ∈ moves site governance ether now evs, OnCreature item m) :
    Alternates (itemEvents item (moves site governance ether now evs)) = true := by
  have hplaced : Placed item (run site governance ether now evs).state
      (moves site governance ether now evs) := by
    refine trace_induction (OnCreature item) (fun s tr => Placed item s.state tr) ?_ ?_ evs hok
    · rfl
    · intro s tr ev s' hs hstep hgood
      obtain ⟨now, rfl, -, rfl⟩ | ⟨a, w', rfl, hnext, rfl⟩ := step_cases hstep
      · exact hs.concat (.kept rfl) hgood
      · exact hs.concat (step_item hnext item) hgood
  exact alternates_of_place hplaced

/-- Creature 1 takes the item off and puts it on again. -/
def offAndOn : List (Event U256 Action) :=
  let trading : Env := ⟨⟨0, 0, true⟩, fun _ => true, false⟩
  zeroBridged.take 4 ++ [.call (.market trading ⟨7, .attachItem 1 3⟩),
    .call (.market trading ⟨7, .detachItem 1 3⟩), .call (.market trading ⟨7, .attachItem 1 3⟩)]

theorem item_events_alternate_off_and_on :
    let site : Site := ⟨fun _ => 0, 100, 200, by decide⟩
    Alternates (itemEvents 3 (moves site 1 (fun _ => 5) 0 offAndOn)) = true := by
  intro site
  exact item_events_alternate site 1 (fun _ => 5) 0 offAndOn 3 (by decide +kernel)

/-! ## Where creature 0 comes from -/

/-- Creature 0 has no owner and is none of the counter's. -/
structure NoZero (s : CreatureNFT) : Prop where
  tidy : s.Tidy
  unowned : s.ownerOf 0 = zeroAddress
  started : s.nextId ≠ 0

theorem deploy_noZero : NoZero CreatureNFT.deploy := ⟨CreatureNFT.deploy_tidy, rfl, by decide⟩

section Tokens
variable {keccak256 : Bytes → Bytes32} {this sender toAddr : Address} {env : CreatureNFT.Env}
  {s s' : CreatureNFT}

theorem NoZero.mintNext {weights : Bytes} {dna : Bytes32} (hs : NoZero s)
    (h : s.mintNext toAddr weights dna = some s') :
    s'.ownerOf 0 = zeroAddress ∧ s'.nextId ≠ 0 := by
  obtain ⟨nextId, hnext, rfl⟩ := CreatureNFT.mintNext_cases h
  refine ⟨?_, ?_⟩
  · show Function.update s.ownerOf s.nextId toAddr 0 = zeroAddress
    rw [Function.update_of_ne hs.started.symm]
    exact hs.unowned
  · rintro rfl
    exact absurd hnext (by simp)

/-- **One call**, if it is not the bridge's about token 0. -/
theorem NoZero.step {call : CreatureNFT.Call} (hs : NoZero s) (hsender : sender ≠ zeroAddress)
    (hcall : ∀ a w dna, call ≠ .mintFromBridge a 0 w dna)
    (h : s.step keccak256 this env sender call = some s') : NoZero s' := by
  have htidy : s'.Tidy := hs.tidy.step hsender h
  cases call with
  | setSeasonRegistry reg =>
      obtain rfl := CreatureNFT.setSeasonRegistry_cases h
      exact ⟨htidy, hs.unowned, hs.started⟩
  | setMarketplace m =>
      obtain rfl := CreatureNFT.setMarketplace_cases h
      exact ⟨htidy, hs.unowned, hs.started⟩
  | setBridge b =>
      obtain ⟨-, rfl⟩ := CreatureNFT.setBridge_cases h
      exact ⟨htidy, hs.unowned, hs.started⟩
  | setCore c =>
      obtain rfl := CreatureNFT.setCore_cases h
      exact ⟨htidy, hs.unowned, hs.started⟩
  | hatch w =>
      obtain ⟨dna, minted, hminted, rfl⟩ := CreatureNFT.hatch_cases h
      obtain ⟨hunowned, hstarted⟩ := hs.mintNext hminted
      exact ⟨htidy, hunowned, hstarted⟩
  | approve toAddr t =>
      obtain ⟨-, rfl⟩ := CreatureNFT.approve_cases h
      exact ⟨htidy, hs.unowned, hs.started⟩
  | transferFrom fromAddr toAddr t =>
      obtain ⟨rfl, hauth, rfl⟩ := CreatureNFT.transferFrom_cases h
      refine ⟨htidy, ?_, hs.started⟩
      -- nobody owns creature 0 or is approved for it
      have hne : 0 ≠ t := by
        rintro rfl
        rw [hs.unowned, hs.tidy.unapproved 0 hs.unowned, or_self] at hauth
        exact hsender hauth
      show Function.update s.ownerOf t toAddr 0 = zeroAddress
      rw [Function.update_of_ne hne]
      exact hs.unowned
  | breed toAddr w =>
      obtain ⟨dna, hminted⟩ := CreatureNFT.breed_cases h
      obtain ⟨hunowned, hstarted⟩ := hs.mintNext hminted
      exact ⟨htidy, hunowned, hstarted⟩
  | mintFromBridge toAddr t w dna =>
      obtain ⟨-, -, nextId, hraise, rfl⟩ := CreatureNFT.mintFromBridge_cases h
      obtain ⟨-, hlt⟩ := CreatureNFT.raiseNextId_cases hraise
      have hne : 0 ≠ t := by
        rintro rfl
        exact hcall toAddr w dna rfl
      refine ⟨htidy, ?_, ?_⟩
      · show Function.update s.ownerOf t toAddr 0 = zeroAddress
        rw [Function.update_of_ne hne]
        exact hs.unowned
      · rintro rfl
        exact absurd hlt (Nat.not_lt_zero _)
  | burnFromBridge t =>
      obtain ⟨-, -, rfl⟩ := CreatureNFT.burnFromBridge_cases h
      refine ⟨htidy, ?_, hs.started⟩
      show Function.update s.ownerOf t zeroAddress 0 = zeroAddress
      by_cases ht : 0 = t
      · rw [← ht, Function.update_self]
      · rw [Function.update_of_ne ht]
        exact hs.unowned
  | lockTraits t packedTraits nameHash =>
      obtain rfl := CreatureNFT.lockTraits_cases h
      exact ⟨htidy, hs.unowned, hs.started⟩

end Tokens

theorem NoZero.action {a : Action} (hs : NoZero w.nft) (h : w.step site now a = some w')
    (hok : ¬ MintsZero ⟨⟨now, w⟩, .call a, ⟨now, w'⟩⟩) : NoZero w'.nft := by
  cases step_effect h with
  | quiet quiet nft =>
      rw [nft]
      exact hs
  | buy user priced enough token => exact hs.step site.market_ne_zero (by simp) token
  | breed user enough token => exact hs.step site.market_ne_zero (by simp) token
  | nft user token =>
      refine hs.step user.1 ?_ token
      rintro a weights dna rfl
      exact hok rfl
  | _ => exact hs

/-- **No creature 0** in any run in which the bridge mints none: every item is on other creatures
only. -/
theorem creature_zero_unused (site : Site) (governance : Address) (ether : Address → Nat)
    (now : U256) (evs : List (Event U256 Action))
    (hok : ∀ m ∈ moves site governance ether now evs, ¬ MintsZero m) (item : U256) :
    ∀ m ∈ moves site governance ether now evs, OnCreature item m := by
  refine (trace_induction (fun m => ¬ MintsZero m)
    (fun s tr => NoZero s.state.nft ∧ ∀ m ∈ tr, OnCreature item m) ?_ ?_ evs hok).2
  · exact ⟨deploy_noZero, by simp⟩
  · intro s tr ev s' hs hstep hgood
    obtain ⟨now, rfl, -, rfl⟩ | ⟨a, w', rfl, hnext, rfl⟩ := step_cases hstep
    · refine ⟨hs.1, List.forall_mem_append.mpr ⟨hs.2, ?_⟩⟩
      simp [OnCreature, itemEvent]
    · refine ⟨hs.1.action hnext hgood, List.forall_mem_append.mpr ⟨hs.2, ?_⟩⟩
      rw [List.forall_mem_singleton]
      intro e he
      have hmove := step_item hnext item
      rw [Option.mem_def] at he
      rw [he] at hmove
      cases hmove with
      | @attached c owned =>
          rintro (rfl : c = 0)
          exact owned hs.1.unowned
      | @detached c owned =>
          rintro (rfl : c = 0)
          exact owned hs.1.unowned

end ChainBeasts.Contracts.Marketplace
