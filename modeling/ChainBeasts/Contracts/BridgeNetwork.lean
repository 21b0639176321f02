import ChainBeasts.Contracts.BridgeBalance
import Mathlib.Algebra.BigOperators.Fin

/-! # A network of bridged chains

`n` chains, each a token contract wired to its bridge, and a verifier that answers `true` for
exactly the roots some bridge has emitted. A transaction names the chain it is made on, so a run is
any interleaving.

The root of a departure does not depend on its destination, and each bridge only remembers the roots
it has processed itself: one departure can be redeemed on every other chain
(`redeemed_on_two_chains`). When every arrival is made where a departure with its root was sent to,
nothing is redeemed twice, and a token hatched once circulates on at most one chain
(`circulates_once`). -/

namespace ChainBeasts.Contracts

open ChainBeasts.Evm ChainBeasts.Machine

/-! ## The network -/

/-- One state for each of the `n` chains. -/
abbrev Network (n : Nat) := Fin n → Chain

namespace Network

variable {n : Nat} {keccak256 : Bytes → Bytes32} {d : Fin n → Deployment} {net net' : Network n}

/-- Every `BridgeOut` event of every chain. -/
def events (net : Network n) : List BridgeOut := (List.finRange n).flatMap fun i => (net i).out

theorem mem_events {e : BridgeOut} : e ∈ net.events ↔ ∃ i, e ∈ (net i).out := by
  simp [events]

/-- Some bridge has emitted the root: what every verifier answers. -/
def Emitted (net : Network n) (r : Bytes32) : Prop := ∃ e ∈ net.events, e.rootHash = r

instance (net : Network n) (r : Bytes32) : Decidable (net.Emitted r) :=
  inferInstanceAs (Decidable (∃ e ∈ net.events, e.rootHash = r))

def deploy (d : Fin n → Deployment) (verifier : Fin n → Address) : Network n :=
  fun i => Chain.deploy (d i) (verifier i)

/-- A transaction on chain `on`. -/
structure On (n : Nat) (α : Type) where
  on : Fin n
  tx : Tx α

abbrev NetworkMove (n : Nat) := Move (Network n) (On n Chain.Call)

def step (keccak256 : Bytes → Bytes32) (d : Fin n → Deployment) (net : Network n)
    (c : On n Chain.Call) : Option (Network n) :=
  ((net c.on).step keccak256 (d c.on) (fun r => decide (net.Emitted r)) c.tx).map
    (Function.update net c.on)

/-- The network after the transactions `cs`. -/
def run (keccak256 : Bytes → Bytes32) (d : Fin n → Deployment) (verifier : Fin n → Address)
    (cs : List (On n Chain.Call)) : Network n :=
  exec (revert (step keccak256 d)) (deploy d verifier) cs

/-- The accepted transactions of a run. -/
def moves (keccak256 : Bytes → Bytes32) (d : Fin n → Deployment) (verifier : Fin n → Address)
    (cs : List (On n Chain.Call)) : List (NetworkMove n) :=
  trace (step keccak256 d) (deploy d verifier) cs

/-- How often `t` has been hatched, on any chain. -/
def hatches (net : Network n) (t : U256) : Nat := ∑ i, (net i).hatches t

/-- **One home.** A token hatched once circulates on at most one chain, and no root is processed by
more bridges than the departures that emitted it. -/
def OneHome (d : Fin n → Deployment) (net : Network n) : Prop :=
  (∀ t, net.hatches t ≤ 1 →
    ∀ i j, (net i).Circulates (d i) t → (net j).Circulates (d j) t → i = j) ∧
  ∀ r, (Finset.univ.filter fun i => (net i).bridge.processed r = true).card ≤
    net.events.countP fun e => e.rootHash = r

/-- The buffers hashed in the moves `tr`. -/
def hashed (d : Fin n → Deployment) (tr : List (NetworkMove n)) : List Bytes :=
  tr.flatMap fun m => (m.pre m.call.on).hashes (d m.call.on) m.call.tx

/-- An arrival is made on the chain that a departure with its root was sent to. -/
def RedeemedWhereSent (keccak256 : Bytes → Bytes32) (d : Fin n → Deployment)
    (m : NetworkMove n) : Prop :=
  ∀ ur ∈ Chain.redeems keccak256 m.call.tx.call,
    ∃ e ∈ m.pre.events, e.rootHash = ur.2 ∧ e.dstChainId = (d m.call.on).chainId

instance (keccak256 : Bytes → Bytes32) (d : Fin n → Deployment) (m : NetworkMove n) :
    Decidable (RedeemedWhereSent keccak256 d m) :=
  Option.decidableForallMem (Chain.redeems keccak256 m.call.tx.call)

/-! ### What a step changes -/

theorem step_cases {c : On n Chain.Call} (h : step keccak256 d net c = some net') :
    ∃ s', (net c.on).step keccak256 (d c.on) (fun r => decide (net.Emitted r)) c.tx = some s' ∧
      net' = Function.update net c.on s' := by
  obtain ⟨s', hs, rfl⟩ := Option.map_eq_some_iff.mp h
  exact ⟨s', hs, rfl⟩

theorem step_wired {c : On n Chain.Call} (hw : ∀ i, (net i).Wired (d i))
    (h : step keccak256 d net c = some net') (i : Fin n) : (net' i).Wired (d i) := by
  obtain ⟨s', hs, rfl⟩ := step_cases h
  by_cases hi : i = c.on
  · subst hi
    rw [Function.update_self]
    exact (hw _).step hs
  · rw [Function.update_of_ne hi]
    exact hw i

/-- The events after one chain has added `es` to its own. -/
theorem mem_events_update {i : Fin n} {s' : Chain} {es : List BridgeOut}
    (h : s'.out = (net i).out ++ es) (e : BridgeOut) :
    e ∈ events (Function.update net i s') ↔ e ∈ net.events ∨ e ∈ es := by
  simp only [mem_events]
  constructor
  · rintro ⟨j, hj⟩
    by_cases hji : j = i
    · subst hji
      rw [Function.update_self, h, List.mem_append] at hj
      exact hj.imp_left fun hold => ⟨_, hold⟩
    · rw [Function.update_of_ne hji] at hj
      exact Or.inl ⟨j, hj⟩
  · rintro (⟨j, hj⟩ | hnew)
    · refine ⟨j, ?_⟩
      by_cases hji : j = i
      · subst hji
        rw [Function.update_self, h]
        exact List.mem_append_left _ hj
      · rwa [Function.update_of_ne hji]
    · refine ⟨i, ?_⟩
      rw [Function.update_self, h]
      exact List.mem_append_right _ hnew

theorem mem_events_step {c : On n Chain.Call} (h : step keccak256 d net c = some net')
    (e : BridgeOut) :
    e ∈ net'.events ↔
      e ∈ net.events ∨ e ∈ (net c.on).emits keccak256 (d c.on) c.tx := by
  obtain ⟨s', hs, rfl⟩ := step_cases h
  exact mem_events_update (Chain.step_out hs) e

theorem processed_step {c : On n Chain.Call} (h : step keccak256 d net c = some net') (i : Fin n)
    (r : Bytes32) : (net' i).bridge.processed r = true ↔
      (net i).bridge.processed r = true ∨
        i = c.on ∧ ∃ t, Chain.redeems keccak256 c.tx.call = some (t, r) := by
  obtain ⟨s', hs, rfl⟩ := step_cases h
  by_cases hi : i = c.on
  · subst hi
    rw [Function.update_self, Chain.step_processed hs]
    simp
  · rw [Function.update_of_ne hi]
    simp [hi]

/-! ### Arrivals -/

/-- The chains and roots of the arrivals of `t` among the moves `tr`. -/
def arrivals (keccak256 : Bytes → Bytes32) (t : U256) (tr : List (NetworkMove n)) :
    List (Fin n × Bytes32) :=
  tr.filterMap fun m => (Chain.redeems keccak256 m.call.tx.call).bind fun ur =>
    if ur.1 = t then some (m.call.on, ur.2) else none

theorem mem_arrivals_concat {t : U256} {tr : List (NetworkMove n)}
    {m : NetworkMove n} {a : Fin n × Bytes32} :
    a ∈ arrivals keccak256 t (tr ++ [m]) ↔ a ∈ arrivals keccak256 t tr ∨
      a.1 = m.call.on ∧ Chain.redeems keccak256 m.call.tx.call = some (t, a.2) := by
  obtain ⟨i, r⟩ := a
  simp only [arrivals, List.filterMap_append, List.mem_append]
  apply or_congr_right
  rcases hr : Chain.redeems keccak256 m.call.tx.call with _ | ⟨u, q⟩
  · simp [hr]
  · by_cases hu : u = t
    · subst hu
      simp [hr, eq_comm]
    · simp [hr, hu]

theorem nodup_arrivals_concat {t : U256} {tr : List (NetworkMove n)}
    {m : NetworkMove n} (h : (arrivals keccak256 t tr).Nodup)
    (hnew : ∀ r, Chain.redeems keccak256 m.call.tx.call = some (t, r) →
      (m.call.on, r) ∉ arrivals keccak256 t tr) :
    (arrivals keccak256 t (tr ++ [m])).Nodup := by
  simp only [arrivals, List.filterMap_append] at h hnew ⊢
  rcases hr : Chain.redeems keccak256 m.call.tx.call with _ | ⟨u, q⟩
  · simpa [hr] using h
  · by_cases hu : u = t
    · subst hu
      have hfresh := hnew q hr
      refine List.Nodup.append h (by simp [hr]) ?_
      intro a ha hb
      simp only [List.filterMap_cons, hr, Option.bind_some, if_true, List.filterMap_nil,
        List.mem_singleton] at hb
      exact hfresh (hb ▸ ha)
    · simpa [hr, hu] using h

theorem length_arrivals_concat {t : U256} {tr : List (NetworkMove n)}
    {m : NetworkMove n} : (arrivals keccak256 t (tr ++ [m])).length =
      (arrivals keccak256 t tr).length + Chain.arrives m.call.tx.call t := by
  obtain ⟨pre, ⟨i, ⟨sender, call⟩⟩, post⟩ := m
  cases call with
  | nft env call => simp [arrivals, Chain.redeems, Chain.arrives]
  | bridgeOut u dst => simp [arrivals, Chain.redeems, Chain.arrives]
  | bridgeIn env u toAddr src dst w dna proof =>
      by_cases hu : u = t <;> simp [arrivals, Chain.redeems, Chain.arrives, hu]

/-! ### The invariant -/

/-- The state `net` reached by the moves `tr`, whose buffers are among `bs`, is accounted for: every
processed root was sent to the chain that processed it, roots belong to their tokens, arrivals are
distinct, and circulation is balanced by hatchings and arrivals. -/
structure Accounted (keccak256 : Bytes → Bytes32) (d : Fin n → Deployment) (bs : List Bytes)
    (net : Network n) (tr : List (NetworkMove n)) : Prop where
  wired : ∀ i, (net i).Wired (d i)
  sent : ∀ i r, (net i).bridge.processed r = true →
    ∃ e ∈ net.events, e.rootHash = r ∧ e.dstChainId = (d i).chainId
  roots : ∀ e ∈ net.events, Chain.RootOf keccak256 bs e.tokenId e.rootHash
  distinct : ∀ t, (arrivals keccak256 t tr).Nodup
  arrived : ∀ t, ∀ a ∈ arrivals keccak256 t tr,
    (net a.1).bridge.processed a.2 = true ∧ Chain.RootOf keccak256 bs t a.2
  balance : ∀ t, ∑ i, (net i).holds (d i) t + ∑ i, (net i).departures t ≤
    net.hatches t + (arrivals keccak256 t tr).length

theorem accounted_deploy (bs : List Bytes) {verifier : Fin n → Address}
    (hver : ∀ i, verifier i ≠ zeroAddress) :
    Accounted keccak256 d bs (deploy d verifier) [] where
  wired i := Chain.deploy_wired (hver i)
  sent i r h := by simp [deploy, Chain.deploy] at h
  roots e he := by simp [mem_events, deploy, Chain.deploy] at he
  distinct t := List.nodup_nil
  arrived t a ha := by simp [arrivals] at ha
  balance t := by
    simp [deploy, Chain.deploy, Chain.holds, Chain.Circulates, Chain.departures, CreatureNFT.deploy]

/-- **One transaction.** An accepted transaction whose buffers are among `bs`, and which redeems
where the departure was sent, keeps the accounts. -/
theorem Accounted.step {bs : List Bytes} {tr : List (NetworkMove n)} {c : On n Chain.Call}
    (hacc : Accounted keccak256 d bs net tr) (h : step keccak256 d net c = some net')
    (hbs : (net c.on).hashes (d c.on) c.tx ⊆ bs)
    (hdst : RedeemedWhereSent keccak256 d ⟨net, c, net'⟩) :
    Accounted keccak256 d bs net' (tr ++ [⟨net, c, net'⟩]) where
  wired := step_wired hacc.wired h
  sent i r hr := by
    have hkeep : ∀ e, e ∈ net.events → e ∈ net'.events := fun e he =>
      (mem_events_step h e).mpr (Or.inl he)
    rcases (processed_step h i r).mp hr with hold | ⟨rfl, t, hnew⟩
    · obtain ⟨e, he, hroot⟩ := hacc.sent i r hold
      exact ⟨e, hkeep e he, hroot⟩
    · obtain ⟨e, he, hroot⟩ := hdst (t, r) hnew
      exact ⟨e, hkeep e he, hroot⟩
  roots e he := by
    rcases (mem_events_step h e).mp he with hold | hnew
    · exact hacc.roots e hold
    · exact (Chain.rootOf_of_emits hnew).mono hbs
  distinct t := by
    apply nodup_arrivals_concat (hacc.distinct t)
    intro r hr hmem
    obtain ⟨s', hs, -⟩ := step_cases h
    obtain ⟨hunprocessed, -⟩ := Chain.step_redeems hs hr
    have hprocessed := (hacc.arrived t _ hmem).1
    rw [hunprocessed] at hprocessed
    exact absurd hprocessed (by simp)
  arrived t a ha := by
    rw [processed_step h]
    rcases mem_arrivals_concat.mp ha with hold | ⟨hon, hnew⟩
    · obtain ⟨hproc, hroot⟩ := hacc.arrived t a hold
      exact ⟨Or.inl hproc, hroot⟩
    · exact ⟨Or.inr ⟨hon, t, hnew⟩, (Chain.rootOf_of_redeems hnew).mono hbs⟩
  balance t := by
    obtain ⟨s', hs, rfl⟩ := step_cases h
    have hbal := Chain.step_balance (hacc.wired c.on).settled hs t
    have hold := hacc.balance t
    have hholds := sum_update (fun i (s : Chain) => s.holds (d i) t) net c.on s'
    have hdep := sum_update (fun _ (s : Chain) => s.departures t) net c.on s'
    have hhatch := sum_update (fun _ (s : Chain) => s.hatches t) net c.on s'
    have hlen : (arrivals keccak256 t (tr ++ [⟨net, c, Function.update net c.on s'⟩])).length =
        (arrivals keccak256 t tr).length + Chain.arrives c.tx.call t := length_arrivals_concat
    simp only [hatches] at hold ⊢
    omega

theorem accounted_run {verifier : Fin n → Address} (hver : ∀ i, verifier i ≠ zeroAddress)
    (cs : List (On n Chain.Call))
    (hdst : ∀ m ∈ moves keccak256 d verifier cs, RedeemedWhereSent keccak256 d m) :
    Accounted keccak256 d (hashed d (moves keccak256 d verifier cs)) (run keccak256 d verifier cs)
      (moves keccak256 d verifier cs) := by
  let ok : NetworkMove n → Prop := fun m =>
    (m.pre m.call.on).hashes (d m.call.on) m.call.tx ⊆
        hashed d (moves keccak256 d verifier cs) ∧ RedeemedWhereSent keccak256 d m
  apply trace_induction ok (Accounted keccak256 d (hashed d (moves keccak256 d verifier cs)))
  · exact accounted_deploy _ hver
  · intro s tr c s' hacc hstep ⟨hbs, hsent⟩
    exact hacc.step hstep hbs hsent
  · intro m hm
    exact ⟨fun b hb => List.mem_flatMap.mpr ⟨m, hm, hb⟩, hdst m hm⟩

/-! ### One home -/

/-- Each arrival of `t` was sent by a departure of `t` of its own. -/
theorem Accounted.arrivals_le {bs : List Bytes} {tr : List (NetworkMove n)}
    (hacc : Accounted keccak256 d bs net tr) (hfree : Chain.CollisionFree keccak256 bs)
    (hids : Function.Injective fun i => (d i).chainId) (t : U256) :
    (arrivals keccak256 t tr).length ≤ ∑ i, (net i).departures t := by
  let sentTo : Fin n × Bytes32 → Bytes32 × U256 := fun a => (a.2, (d a.1).chainId)
  let key : BridgeOut → Bytes32 × U256 := fun e => (e.rootHash, e.dstChainId)
  have hinj : Function.Injective sentTo := by
    rintro ⟨i, r⟩ ⟨j, q⟩ heq
    obtain ⟨rfl, hid⟩ := Prod.mk.inj heq
    exact Prod.ext (hids hid) rfl
  have hsub : (arrivals keccak256 t tr).map sentTo ⊆
      (net.events.filter fun e => e.tokenId = t).map key := by
    intro k hk
    obtain ⟨a, ha, rfl⟩ := List.mem_map.mp hk
    obtain ⟨hproc, hroot⟩ := hacc.arrived t a ha
    obtain ⟨e, he, hr, hdst⟩ := hacc.sent a.1 a.2 hproc
    have htoken : e.tokenId = t := (hacc.roots e he).unique hfree (by rwa [hr])
    refine List.mem_map.mpr ⟨e, by simp [he, htoken], ?_⟩
    simp only [key, sentTo, hr, hdst]
  have hlen := (List.subperm_of_subset ((hacc.distinct t).map hinj) hsub).length_le
  calc (arrivals keccak256 t tr).length
      ≤ (net.events.filter fun e => e.tokenId = t).length := by simpa using hlen
    _ = ∑ i, (net i).departures t := by
        rw [← List.countP_eq_length_filter, events, List.countP_flatMap, Fin.sum_univ_def]
        rfl

/-- Bridges that processed a root are at most the departures that emitted it. -/
theorem Accounted.processed_le {bs : List Bytes} {tr : List (NetworkMove n)}
    (hacc : Accounted keccak256 d bs net tr) (hids : Function.Injective fun i => (d i).chainId)
    (r : Bytes32) :
    (Finset.univ.filter fun i => (net i).bridge.processed r = true).card ≤
      net.events.countP fun e => e.rootHash = r := by
  let dsts := (net.events.filter fun e => e.rootHash = r).map (·.dstChainId)
  have hsub : (Finset.univ.filter fun i => (net i).bridge.processed r = true).image
      (fun i => (d i).chainId) ⊆ dsts.toFinset := by
    intro id hid
    obtain ⟨i, hi, rfl⟩ := Finset.mem_image.mp hid
    obtain ⟨e, he, hr, hdst⟩ := hacc.sent i r (by simpa using hi)
    rw [List.mem_toFinset]
    exact List.mem_map.mpr ⟨e, by simp [he, hr], hdst⟩
  calc (Finset.univ.filter fun i => (net i).bridge.processed r = true).card
      = ((Finset.univ.filter fun i => (net i).bridge.processed r = true).image
          fun i => (d i).chainId).card := (Finset.card_image_of_injective _ hids).symm
    _ ≤ dsts.toFinset.card := Finset.card_le_card hsub
    _ ≤ dsts.length := List.toFinset_card_le dsts
    _ = net.events.countP fun e => e.rootHash = r := by
        rw [List.length_map, ← List.countP_eq_length_filter]

/-- **When a token has one home.** Chain ids are distinct, every chain has a verifier, and no two of
the buffers hashed in the run collide. If every accepted arrival is made on the chain that a
departure with its root was sent to, then in the state reached a token hatched once circulates on at
most one chain, and no departure is redeemed twice. -/
theorem circulates_once (keccak256 : Bytes → Bytes32) (d : Fin n → Deployment)
    {verifier : Fin n → Address} (hids : Function.Injective fun i => (d i).chainId)
    (hver : ∀ i, verifier i ≠ zeroAddress) (cs : List (On n Chain.Call))
    (hfree : Chain.CollisionFree keccak256 (hashed d (moves keccak256 d verifier cs)))
    (hdst : ∀ m ∈ moves keccak256 d verifier cs, RedeemedWhereSent keccak256 d m) :
    OneHome d (run keccak256 d verifier cs) := by
  have hacc := accounted_run hver cs hdst
  refine ⟨?_, hacc.processed_le hids⟩
  intro t hhatch i j hi hj
  by_contra hne
  have hbal := hacc.balance t
  have harr := hacc.arrivals_le hfree hids t
  have hpair : 1 + 1 ≤ ∑ k, (run keccak256 d verifier cs k).holds (d k) t := by
    calc 1 + 1 = ∑ k ∈ {i, j}, (run keccak256 d verifier cs k).holds (d k) t := by
          rw [Finset.sum_pair hne, Chain.holds_of_circulates hi, Chain.holds_of_circulates hj]
      _ ≤ _ := Finset.sum_le_sum_of_subset (Finset.subset_univ _)
  omega

/-- Chains 1, 2 and 3. -/
def sampleNetwork (i : Fin 3) : Deployment :=
  { Chain.sampleDeployment with chainId := BitVec.ofNat 256 (i + 1) }

/-- The first two of them. -/
def home : Fin 3 := 0
def abroad : Fin 3 := 1

/-- Token 1, hatched by account 7 on chain 1, leaves for chain 2. -/
def departureOfSeven : List (On 3 Chain.Call) :=
  [⟨0, 7, .nft ⟨0, 0, false⟩ (.hatch [1, 2])⟩, ⟨0, 7, .nft ⟨0, 0, false⟩ (.approve 11 1)⟩,
    ⟨0, 7, .bridgeOut 1 2⟩]

/-- Its arrival, as a call anyone can make on any chain. -/
def arrivalOfSeven : Tx Chain.Call :=
  ⟨8, .bridgeIn ⟨0, 0, false⟩ 1 7 1 2 [1, 2] (Chain.sampleDigest (packWord 0 ++ packAddress 7)) []⟩

theorem circulates_once_seven :
    OneHome sampleNetwork (run Chain.sampleDigest sampleNetwork (fun _ => 12)
      (departureOfSeven ++ [⟨1, arrivalOfSeven⟩])) :=
  circulates_once _ _ (by decide) (by decide) _ (by decide +kernel) (by decide +kernel)

/-- The same arrival made on chain 2, where the departure was sent, and on chain 3. -/
def twiceRedeemed : Network 3 :=
  run Chain.sampleDigest sampleNetwork (fun _ => 12)
    (departureOfSeven ++ [⟨1, arrivalOfSeven⟩, ⟨2, arrivalOfSeven⟩])

/-- Both are accepted: token 1, hatched once, circulates on chain 2 and on chain 3. -/
theorem redeemed_on_two_chains :
    (twiceRedeemed.hatches 1 = 1 ∧ (twiceRedeemed 1).Circulates (sampleNetwork 1) 1 ∧
      (twiceRedeemed 2).Circulates (sampleNetwork 2) 1) ∧ ¬ OneHome sampleNetwork twiceRedeemed := by
  have hboth : twiceRedeemed.hatches 1 = 1 ∧ (twiceRedeemed 1).Circulates (sampleNetwork 1) 1 ∧
      (twiceRedeemed 2).Circulates (sampleNetwork 2) 1 := by decide +kernel
  refine ⟨hboth, ?_⟩
  intro h
  have heq := h.1 1 (Nat.le_of_eq hboth.1) 1 2 hboth.2.1 hboth.2.2
  exact absurd heq (by decide)

end Network

end ChainBeasts.Contracts
