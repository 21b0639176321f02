import ChainBeasts.Contracts.CreatureNFTBridge

/-! # The books of one bridged chain

Everything a transaction writes that other chains can see: the departures it emits, the roots it
redeems, and the buffers it hashes for them. Then the balance of one chain (`Chain.step_balance`):
circulation plus departures rises by no more than hatchings plus arrivals. -/

namespace ChainBeasts.Contracts

open ChainBeasts.Evm ChainBeasts.Machine

/-! ## One chain: what a transaction writes to its logs -/

namespace Chain

variable {keccak256 : Bytes → Bytes32} {d : Deployment} {verify : Bytes32 → Bool} {s s' : Chain}

/-- The events an accepted transaction emits. -/
def emits (keccak256 : Bytes → Bytes32) (d : Deployment) (s : Chain) (tx : Tx Call) :
    List BridgeOut :=
  match tx.call with
  | .bridgeOut t dst =>
      let info := s.nft.creatures t
      [⟨t, tx.sender, dst, info.genesisWeights, info.dna,
        keccak256 (preimage t tx.sender d.chainId info.genesisWeights info.dna)⟩]
  | _ => []

/-- The token an arrival is about, and the root it redeems. -/
def redeems (keccak256 : Bytes → Bytes32) : Call → Option (U256 × Bytes32)
  | .bridgeIn _ t toAddr src _ w dna _ => some (t, keccak256 (preimage t toAddr src w dna))
  | _ => none

/-- The buffers the bridge hashes for a transaction. -/
def hashes (d : Deployment) (s : Chain) (tx : Tx Call) : List Bytes :=
  match tx.call with
  | .nft _ _ => []
  | .bridgeOut t _ =>
      let info := s.nft.creatures t
      [preimage t tx.sender d.chainId info.genesisWeights info.dna]
  | .bridgeIn _ t toAddr src _ w dna _ => [preimage t toAddr src w dna]

/-- `r` is the digest of one of the buffers `bs`, and that buffer is about token `t`. -/
def RootOf (keccak256 : Bytes → Bytes32) (bs : List Bytes) (t : U256) (r : Bytes32) : Prop :=
  ∃ account src w dna, preimage t account src w dna ∈ bs ∧
    keccak256 (preimage t account src w dna) = r

/-- No two of the buffers `bs` have the same digest. -/
def CollisionFree (keccak256 : Bytes → Bytes32) (bs : List Bytes) : Prop :=
  ∀ p ∈ bs, ∀ q ∈ bs, keccak256 p = keccak256 q → p = q

instance (keccak256 : Bytes → Bytes32) (bs : List Bytes) : Decidable (CollisionFree keccak256 bs) :=
  inferInstanceAs (Decidable (∀ p ∈ bs, ∀ q ∈ bs, _ → _))

theorem preimage_inj {t u : U256} {a b : Address} {src src' : U256} {w w' : Bytes}
    {dna dna' : Bytes32} (h : preimage t a src w dna = preimage u b src' w' dna') :
    t = u ∧ a = b ∧ src = src' ∧ w = w' ∧ dna = dna' := by
  have hfields := Packed.encode_inj h
  simpa only [Packed.mk.injEq] using hfields

theorem RootOf.mono {bs bs' : List Bytes} {t : U256} {r : Bytes32} (h : RootOf keccak256 bs t r)
    (hsub : bs ⊆ bs') : RootOf keccak256 bs' t r := by
  obtain ⟨a, src, w, dna, hmem, hr⟩ := h
  exact ⟨a, src, w, dna, hsub hmem, hr⟩

/-- A root is about one token. -/
theorem RootOf.unique {bs : List Bytes} (hfree : CollisionFree keccak256 bs) {t u : U256}
    {r : Bytes32} (ht : RootOf keccak256 bs t r) (hu : RootOf keccak256 bs u r) : t = u := by
  obtain ⟨a, src, w, dna, hmem, hr⟩ := ht
  obtain ⟨a', src', w', dna', hmem', hr'⟩ := hu
  exact (preimage_inj (hfree _ hmem _ hmem' (hr.trans hr'.symm))).1

/-- An emitted root is the digest of the event's own fields, on the chain that emits it. -/
theorem root_of_emits {tx : Tx Call} {e : BridgeOut} (h : e ∈ emits keccak256 d s tx) :
    preimage e.tokenId e.owner d.chainId e.genesisWeights e.dna ∈ hashes d s tx ∧
      e.rootHash = keccak256 (preimage e.tokenId e.owner d.chainId e.genesisWeights e.dna) := by
  obtain ⟨sender, call⟩ := tx
  cases call with
  | nft env call => simp [emits] at h
  | bridgeOut t dst =>
      obtain rfl := List.mem_singleton.mp h
      exact ⟨List.mem_singleton_self _, rfl⟩
  | bridgeIn env t toAddr src dst w dna proof => simp [emits] at h

theorem rootOf_of_emits {tx : Tx Call} {e : BridgeOut} (h : e ∈ emits keccak256 d s tx) :
    RootOf keccak256 (hashes d s tx) e.tokenId e.rootHash :=
  ⟨_, _, _, _, (root_of_emits h).1, (root_of_emits h).2.symm⟩

theorem rootOf_of_redeems {tx : Tx Call} {t : U256} {r : Bytes32}
    (h : redeems keccak256 tx.call = some (t, r)) : RootOf keccak256 (hashes d s tx) t r := by
  obtain ⟨sender, call⟩ := tx
  cases call with
  | nft env call => simp [redeems] at h
  | bridgeOut t dst => simp [redeems] at h
  | bridgeIn env u toAddr src dst w dna proof =>
      simp only [redeems, Option.some.injEq, Prod.mk.injEq] at h
      obtain ⟨rfl, rfl⟩ := h
      exact ⟨_, _, _, _, List.mem_singleton_self _, rfl⟩

/-- What an accepted transaction of a user is: the call it makes and what the call's own lemma says
about it. -/
theorem step_cases {tx : Tx Call} (h : step keccak256 d verify s tx = some s') :
    IsUser d tx.sender ∧
      ((∃ env call nft, tx.call = .nft env call ∧ s' = { s with nft } ∧
          s.nft.step keccak256 d.nftAddr env tx.sender call = some nft) ∨
        (∃ t dst, tx.call = .bridgeOut t dst ∧
          s.bridgeOut keccak256 d tx.sender t dst = some s') ∨
        (∃ env t toAddr src dst w dna proof, tx.call = .bridgeIn env t toAddr src dst w dna proof ∧
          s.bridgeIn keccak256 d verify env t toAddr src dst w dna proof = some s')) := by
  obtain ⟨sender, call⟩ := tx
  simp only [step, Option.bind_eq_bind, Option.bind_eq_some_iff, require_eq_some] at h
  obtain ⟨_, huser, h⟩ := h
  refine ⟨huser, ?_⟩
  cases call with
  | nft env call =>
      obtain ⟨nft, hnft, rfl⟩ := Option.map_eq_some_iff.mp h
      exact Or.inl ⟨env, call, nft, rfl, rfl, hnft⟩
  | bridgeOut t dst => exact Or.inr (Or.inl ⟨t, dst, rfl, h⟩)
  | bridgeIn env t toAddr src dst w dna proof =>
      exact Or.inr (Or.inr ⟨env, t, toAddr, src, dst, w, dna, proof, rfl, h⟩)

theorem step_out {tx : Tx Call} (h : step keccak256 d verify s tx = some s') :
    s'.out = s.out ++ emits keccak256 d s tx := by
  obtain ⟨sender, call⟩ := tx
  obtain ⟨-, hcall⟩ := step_cases h
  rcases hcall with ⟨env, call, nft, rfl, rfl, -⟩ | ⟨t, dst, rfl, hcall⟩ |
    ⟨env, t, toAddr, src, dst, w, dna, proof, rfl, hcall⟩
  · simp [emits]
  · obtain ⟨-, -, rfl⟩ := bridgeOut_cases hcall
    rfl
  · obtain ⟨-, -, hout, -⟩ := bridgeIn_cases hcall
    simp [emits, hout]

/-- A root is processed from the transaction that redeems it on. -/
theorem step_processed {tx : Tx Call} (h : step keccak256 d verify s tx = some s') (r : Bytes32) :
    s'.bridge.processed r = true ↔
      s.bridge.processed r = true ∨ ∃ t, redeems keccak256 tx.call = some (t, r) := by
  obtain ⟨sender, call⟩ := tx
  obtain ⟨-, hcall⟩ := step_cases h
  rcases hcall with ⟨env, call, nft, rfl, rfl, -⟩ | ⟨t, dst, rfl, hcall⟩ |
    ⟨env, t, toAddr, src, dst, w, dna, proof, rfl, hcall⟩
  · simp [redeems]
  · obtain ⟨-, -, rfl⟩ := bridgeOut_cases hcall
    simp [redeems]
  · obtain ⟨-, -, -, hproc, -⟩ := bridgeIn_cases hcall
    rw [hproc]
    by_cases hr : r = keccak256 (preimage t toAddr src w dna)
    · simp [redeems, hr]
    · simp [redeems, Function.update_of_ne hr, Ne.symm hr]

/-- A redeemed root was unprocessed and is one the verifier accepts. -/
theorem step_redeems {tx : Tx Call} (h : step keccak256 d verify s tx = some s') {t : U256}
    {r : Bytes32} (hr : redeems keccak256 tx.call = some (t, r)) :
    s.bridge.processed r = false ∧ (s.bridge.verifier ≠ zeroAddress → verify r = true) := by
  obtain ⟨sender, call⟩ := tx
  obtain ⟨-, hcall⟩ := step_cases h
  rcases hcall with ⟨env, call, nft, rfl, rfl, -⟩ | ⟨t, dst, rfl, hcall⟩ |
    ⟨env, t, toAddr, src, dst, w, dna, proof, rfl, hcall⟩
  · simp [redeems] at hr
  · simp [redeems] at hr
  · obtain ⟨hproc, hver, -⟩ := bridgeIn_cases hcall
    simp only [redeems, Option.some.injEq, Prod.mk.injEq] at hr
    obtain ⟨-, rfl⟩ := hr
    exact ⟨hproc, hver⟩

/-! ## One chain: the balance -/

/-- Token `t` circulates: its owner is neither zero nor the bridge. -/
def Circulates (d : Deployment) (s : Chain) (t : U256) : Prop :=
  s.nft.ownerOf t ≠ zeroAddress ∧ s.nft.ownerOf t ≠ d.bridgeAddr

instance (d : Deployment) (s : Chain) (t : U256) : Decidable (s.Circulates d t) :=
  inferInstanceAs (Decidable (_ ∧ _))

/-- What holds of one chain whatever happens: the wiring stays, ids from `nextId` on are unowned, and
only a circulating token is approved to anyone. -/
structure Settled (d : Deployment) (s : Chain) : Prop where
  bridge : s.nft.bridge = d.bridgeAddr
  fresh : ∀ t, s.nft.nextId.toNat ≤ t.toNat → s.nft.ownerOf t = zeroAddress
  approved : ∀ t, s.nft.getApproved t ≠ zeroAddress → s.Circulates d t

theorem deploy_settled (d : Deployment) (verifier : Address) : (deploy d verifier).Settled d where
  bridge := rfl
  fresh _ _ := rfl
  approved _ h := absurd rfl h

/-- The same, on a chain that has a verifier. -/
structure Wired (d : Deployment) (s : Chain) : Prop where
  bridge : s.nft.bridge = d.bridgeAddr
  verifier : s.bridge.verifier ≠ zeroAddress
  fresh : ∀ t, s.nft.nextId.toNat ≤ t.toNat → s.nft.ownerOf t = zeroAddress
  approved : ∀ t, s.nft.getApproved t ≠ zeroAddress → s.Circulates d t

theorem Wired.settled (hw : s.Wired d) : s.Settled d := ⟨hw.bridge, hw.fresh, hw.approved⟩

theorem Settled.wired (hs : s.Settled d) (h : s.bridge.verifier ≠ zeroAddress) : s.Wired d :=
  ⟨hs.bridge, h, hs.fresh, hs.approved⟩

theorem deploy_wired {verifier : Address} (h : verifier ≠ zeroAddress) :
    (deploy d verifier).Wired d :=
  (deploy_settled d verifier).wired h

/-- `1` when `t` circulates. -/
def holds (d : Deployment) (s : Chain) (t : U256) : Nat := if s.Circulates d t then 1 else 0

/-- How often `t` has departed. -/
def departures (s : Chain) (t : U256) : Nat := s.out.countP fun e => e.tokenId = t

/-- How often `t` has been hatched. -/
def hatches (s : Chain) (t : U256) : Nat := s.nft.hatched.count t

/-- `1` when the call is an arrival of `t`. -/
def arrives (call : Call) (t : U256) : Nat :=
  match call with
  | .bridgeIn _ t' .. => if t' = t then 1 else 0
  | _ => 0

theorem holds_le_one (d : Deployment) (s : Chain) (t : U256) : s.holds d t ≤ 1 := by
  unfold holds
  split <;> omega

theorem holds_congr (h : s'.nft.ownerOf = s.nft.ownerOf) (t : U256) :
    s'.holds d t = s.holds d t := by
  simp only [holds]
  exact if_congr (by simp only [Circulates, h]) rfl rfl

theorem holds_of_ne {u : U256} {owner : Address}
    (h : s'.nft.ownerOf = Function.update s.nft.ownerOf u owner) {t : U256} (ht : t ≠ u) :
    s'.holds d t = s.holds d t := by
  simp only [holds]
  exact if_congr (by simp only [Circulates, h, Function.update_of_ne ht]) rfl rfl

theorem holds_of_circulates {t : U256} (h : s.Circulates d t) : s.holds d t = 1 := if_pos h

/-- A user owns and is approved for circulating tokens only. -/
theorem Settled.circulates_of_auth (hs : s.Settled d) {sender : Address} (hu : IsUser d sender)
    {t : U256} (h : sender = s.nft.ownerOf t ∨ sender = s.nft.getApproved t) :
    s.Circulates d t := by
  rcases h with rfl | rfl
  · exact ⟨hu.1, hu.2.2⟩
  · exact hs.approved t hu.1

/-! ### A call on the token contract -/

/-- An id not yet given out keeps having no owner. -/
theorem Settled.fresh_of_userMove (hs : s.Settled d) {sender : Address} (hu : IsUser d sender)
    {nft : CreatureNFT} (h : CreatureNFT.UserMove s.nft sender nft) (t : U256)
    (ht : nft.nextId.toNat ≤ t.toNat) : nft.ownerOf t = zeroAddress := by
  cases h with
  | quiet owners _ ids _ =>
      simp only [owners, ids] at ht ⊢
      exact hs.fresh t ht
  | approved u toAddr _ owners _ ids _ =>
      simp only [owners, ids] at ht ⊢
      exact hs.fresh t ht
  | moved u toAddr auth owners _ ids _ =>
      simp only [owners, ids] at ht ⊢
      have hne : t ≠ u := by
        rintro rfl
        exact (hs.circulates_of_auth hu auth).1 (hs.fresh t ht)
      rw [Function.update_of_ne hne]
      exact hs.fresh t ht
  | hatched owner owners _ ids _ =>
      simp only [owners, ids] at ht ⊢
      have hne : t ≠ s.nft.nextId := by
        rintro rfl
        omega
      rw [Function.update_of_ne hne]
      exact hs.fresh t (by omega)

/-- Whoever is approved owns the token, and is neither contract nor nobody. -/
theorem Settled.approved_of_userMove (hs : s.Settled d) {sender : Address} (hu : IsUser d sender)
    {nft : CreatureNFT} (h : CreatureNFT.UserMove s.nft sender nft) (t : U256)
    (ht : nft.getApproved t ≠ zeroAddress) : ({ s with nft } : Chain).Circulates d t := by
  cases h with
  | quiet owners approvals _ _ =>
      simp only [Circulates, owners, approvals] at ht ⊢
      exact hs.approved t ht
  | approved u toAddr owner owners approvals _ _ =>
      simp only [Circulates, owners, approvals] at ht ⊢
      by_cases htu : t = u
      · subst htu
        exact owner ▸ ⟨hu.1, hu.2.2⟩
      · rw [Function.update_of_ne htu] at ht
        exact hs.approved t ht
  | moved u toAddr _ owners approvals _ _ =>
      simp only [Circulates, owners, approvals] at ht ⊢
      by_cases htu : t = u
      · subst htu
        simp at ht
      · rw [Function.update_of_ne htu] at ht ⊢
        exact hs.approved t ht
  | hatched owner owners approvals _ _ =>
      simp only [Circulates, owners, approvals] at ht ⊢
      -- the fresh id had no owner, so nobody was approved for it
      have hne : t ≠ s.nft.nextId := by
        rintro rfl
        exact (hs.approved _ ht).1 (hs.fresh _ (Nat.le_refl _))
      rw [Function.update_of_ne hne]
      exact hs.approved t ht

theorem Settled.of_userMove (hs : s.Settled d) {sender : Address} (hu : IsUser d sender)
    {nft : CreatureNFT} (hb : nft.bridge = s.nft.bridge)
    (h : CreatureNFT.UserMove s.nft sender nft) : ({ s with nft } : Chain).Settled d :=
  ⟨hb.trans hs.bridge, hs.fresh_of_userMove hu h, hs.approved_of_userMove hu h⟩

theorem Settled.balance_of_userMove (hs : s.Settled d) {sender : Address} (hu : IsUser d sender)
    {nft : CreatureNFT} (h : CreatureNFT.UserMove s.nft sender nft) (t : U256) :
    ({ s with nft } : Chain).holds d t + s.hatches t ≤
      s.holds d t + ({ s with nft } : Chain).hatches t := by
  cases h with
  | quiet owners _ _ log =>
      rw [holds_congr (s := s) (by exact owners)]
      simp [hatches, log]
  | approved u toAddr _ owners _ _ log =>
      rw [holds_congr (s := s) (by exact owners)]
      simp [hatches, log]
  | moved u toAddr auth owners _ _ log =>
      by_cases htu : t = u
      · subst htu
        have hlive := holds_of_circulates (hs.circulates_of_auth hu auth)
        have hone := holds_le_one d { s with nft } t
        simp only [hatches, log]
        omega
      · rw [holds_of_ne (s := s) (by exact owners) htu]
        simp [hatches, log]
  | hatched owner owners _ _ log =>
      by_cases htu : t = s.nft.nextId
      · have hone := holds_le_one d { s with nft } t
        simp only [hatches, log, List.count_append, htu, List.count_singleton_self] at hone ⊢
        omega
      · rw [holds_of_ne (s := s) (by exact owners) htu]
        simp only [hatches, log, List.count_append]
        omega

/-! ### A departure -/

theorem Settled.of_bridgeOut (hs : s.Settled d) {sender : Address} (hu : IsUser d sender)
    {t dst : U256} (h : s.bridgeOut keccak256 d sender t dst = some s') : s'.Settled d := by
  obtain ⟨howner, -, rfl⟩ := bridgeOut_cases h
  have hlive := hs.circulates_of_auth hu (Or.inl howner.symm)
  refine ⟨hs.bridge, ?_, ?_⟩
  · intro u hu
    have hne : u ≠ t := by
      rintro rfl
      exact hlive.1 (hs.fresh u hu)
    simp only [Function.update_of_ne hne]
    exact hs.fresh u hu
  · intro u hu
    by_cases hut : u = t
    · subst hut
      simp at hu
    · simp only [Circulates, Function.update_of_ne hut] at hu ⊢
      exact hs.approved u hu

theorem Settled.balance_of_bridgeOut (hs : s.Settled d) {sender : Address} (hu : IsUser d sender)
    {t dst : U256} (h : s.bridgeOut keccak256 d sender t dst = some s') (u : U256) :
    s'.holds d u + s'.departures u + s.hatches u ≤
      s.holds d u + s.departures u + s'.hatches u := by
  obtain ⟨howner, -, rfl⟩ := bridgeOut_cases h
  by_cases hut : u = t
  · subst hut
    have hlive := holds_of_circulates (hs.circulates_of_auth hu (Or.inl howner.symm))
    simp only [holds, Circulates, Function.update_self, ne_eq, not_true, and_false, if_false,
      departures, hatches, List.countP_append] at hlive ⊢
    simp only [decide_true, List.countP_singleton, if_true]
    omega
  · rw [holds_of_ne (s := s) rfl hut]
    simp [departures, hatches, List.countP_append, Ne.symm hut]

/-! ### An arrival -/

/-- An arrival puts its token into the hands of `toAddr`: it was at the bridge or unowned. -/
theorem bridgeIn_owner (hb : s.nft.bridge = d.bridgeAddr) {env : CreatureNFT.Env}
    {t src dst : U256} {toAddr : Address} {w proof : Bytes} {dna : Bytes32}
    (h : s.bridgeIn keccak256 d verify env t toAddr src dst w dna proof = some s') :
    s'.nft.bridge = d.bridgeAddr ∧ s'.nft.hatched = s.nft.hatched ∧
      s'.nft.ownerOf = Function.update s.nft.ownerOf t toAddr ∧
      (s.nft.ownerOf t = d.bridgeAddr ∧ s'.nft.nextId = s.nft.nextId ∧
          s'.nft.getApproved = Function.update s.nft.getApproved t zeroAddress ∨
        s.nft.ownerOf t = zeroAddress ∧ s.nft.nextId.toNat ≤ s'.nft.nextId.toNat ∧
          t.toNat < s'.nft.nextId.toNat ∧ s'.nft.getApproved = s.nft.getApproved) := by
  obtain ⟨-, -, -, -, -, hnft⟩ := bridgeIn_cases h
  rcases hnft with ⟨-, hmove, -⟩ | ⟨-, hmint, -⟩
  · obtain ⟨howner, -, heq⟩ := CreatureNFT.transferFrom_cases hmove
    simp only [heq]
    exact ⟨hb, trivial, trivial, Or.inl ⟨howner, trivial, trivial⟩⟩
  · obtain ⟨-, howner, nextId, hnext, heq⟩ := CreatureNFT.mintFromBridge_cases hmint
    obtain ⟨hle, hlt⟩ := CreatureNFT.raiseNextId_cases hnext
    simp only [heq]
    exact ⟨hb, trivial, trivial, Or.inr ⟨howner, hle, hlt, trivial⟩⟩

theorem Settled.of_bridgeIn (hs : s.Settled d) {env : CreatureNFT.Env} {t src dst : U256}
    {toAddr : Address} {w proof : Bytes} {dna : Bytes32}
    (h : s.bridgeIn keccak256 d verify env t toAddr src dst w dna proof = some s') :
    s'.Settled d := by
  obtain ⟨hbridge, -, howners, hcase⟩ := bridgeIn_owner hs.bridge h
  refine ⟨hbridge, ?_, ?_⟩
  · intro u hu
    rcases hcase with ⟨howner, hids, -⟩ | ⟨-, hle, hlt, -⟩
    · rw [hids] at hu
      have hne : u ≠ t := by
        rintro rfl
        exact d.bridge_ne_zero (howner.symm.trans (hs.fresh u hu))
      rw [howners, Function.update_of_ne hne]
      exact hs.fresh u hu
    · have hne : u ≠ t := by
        rintro rfl
        omega
      rw [howners, Function.update_of_ne hne]
      exact hs.fresh u (Nat.le_trans hle hu)
  · intro u hu
    have hne : u ≠ t := by
      rintro rfl
      rcases hcase with ⟨-, -, happroved⟩ | ⟨howner, -, -, happroved⟩
      · simp [happroved] at hu
      · rw [happroved] at hu
        exact (hs.approved u hu).1 howner
    have hold : s.nft.getApproved u ≠ zeroAddress := by
      rcases hcase with ⟨-, -, happroved⟩ | ⟨-, -, -, happroved⟩
      · rwa [happroved, Function.update_of_ne hne] at hu
      · rwa [happroved] at hu
    simp only [Circulates, howners, Function.update_of_ne hne]
    exact hs.approved u hold

theorem Settled.balance_of_bridgeIn (hs : s.Settled d) {env : CreatureNFT.Env} {t src dst : U256}
    {toAddr : Address} {w proof : Bytes} {dna : Bytes32}
    (h : s.bridgeIn keccak256 d verify env t toAddr src dst w dna proof = some s') (u : U256) :
    s'.holds d u + s'.departures u + s.hatches u ≤
      s.holds d u + s.departures u + s'.hatches u + if t = u then 1 else 0 := by
  obtain ⟨-, hhatched, howners, -⟩ := bridgeIn_owner hs.bridge h
  obtain ⟨-, -, hout, -⟩ := bridgeIn_cases h
  simp only [departures, hatches, hout, hhatched]
  by_cases htu : t = u
  · have hone := holds_le_one d s' u
    rw [if_pos htu]
    omega
  · rw [holds_of_ne (s := s) howners (Ne.symm htu)]
    omega

/-! ### Every transaction -/

theorem Settled.step (hs : s.Settled d) {tx : Tx Call}
    (h : Chain.step keccak256 d verify s tx = some s') : s'.Settled d := by
  obtain ⟨hu, hcall⟩ := step_cases h
  rcases hcall with ⟨env, call, nft, -, rfl, hnft⟩ | ⟨t, dst, -, hout⟩ |
    ⟨env, t, toAddr, src, dst, w, dna, proof, -, hin⟩
  · obtain ⟨hmove, hb⟩ := CreatureNFT.step_user (by rw [hs.bridge]; exact d.bridge_ne_zero)
      (by rw [hs.bridge]; exact hu.2.2) hnft
    exact hs.of_userMove hu hb hmove
  · exact hs.of_bridgeOut hu hout
  · exact hs.of_bridgeIn hin

/-- The verifier is the one the bridge was deployed with. -/
theorem step_verifier {tx : Tx Call} (h : step keccak256 d verify s tx = some s') :
    s'.bridge.verifier = s.bridge.verifier := by
  obtain ⟨-, hcall⟩ := step_cases h
  rcases hcall with ⟨env, call, nft, -, rfl, -⟩ | ⟨t, dst, -, hout⟩ |
    ⟨env, t, toAddr, src, dst, w, dna, proof, -, hin⟩
  · rfl
  · obtain ⟨-, -, rfl⟩ := bridgeOut_cases hout
    rfl
  · obtain ⟨-, -, -, -, hver, -⟩ := bridgeIn_cases hin
    exact hver

theorem Wired.step (hw : s.Wired d) {tx : Tx Call}
    (h : Chain.step keccak256 d verify s tx = some s') : s'.Wired d :=
  (hw.settled.step h).wired (by rw [step_verifier h]; exact hw.verifier)

/-- **The balance of one chain.** No transaction raises circulation plus departures by more than the
hatchings and the arrival it makes. -/
theorem step_balance (hs : s.Settled d) {tx : Tx Call}
    (h : step keccak256 d verify s tx = some s') (t : U256) :
    s'.holds d t + s'.departures t + s.hatches t ≤
      s.holds d t + s.departures t + s'.hatches t + arrives tx.call t := by
  obtain ⟨hu, hcall⟩ := step_cases h
  rcases hcall with ⟨env, call, nft, hc, rfl, hnft⟩ | ⟨u, dst, hc, hout⟩ |
    ⟨env, u, toAddr, src, dst, w, dna, proof, hc, hin⟩
  · obtain ⟨hmove, -⟩ := CreatureNFT.step_user (by rw [hs.bridge]; exact d.bridge_ne_zero)
      (by rw [hs.bridge]; exact hu.2.2) hnft
    have hbal := hs.balance_of_userMove hu hmove t
    simp only [departures] at hbal ⊢
    omega
  · have hbal := hs.balance_of_bridgeOut hu hout t
    omega
  · rw [hc]
    exact hs.balance_of_bridgeIn hin t

end Chain

end ChainBeasts.Contracts
