import ChainBeasts.Contracts.BridgeBalance

/-! # What the bridge holds

The flags of the bridge follow the owners of the token contract, with any verifier or none: a locked
token is owned by the bridge and is no mirror, and its record is the one it left with
(`bridge_custody`). Users have no way in, since nobody is approved for a token of the bridge
(`Settled`) and the bridge, once set, is set for good. -/

namespace ChainBeasts.Contracts

open ChainBeasts.Evm ChainBeasts.Machine

namespace CreatureNFT

variable {keccak256 : Bytes → Bytes32} {s s' : CreatureNFT} {env : Env} {this sender : Address}
  {id : U256}

theorem mintNext_creature {toAddr : Address} {w : Bytes} {dna : Bytes32}
    (h : s.mintNext toAddr w dna = some s') (hid : id ≠ s.nextId) :
    s'.creatures id = s.creatures id := by
  obtain ⟨nextId, -, rfl⟩ := mintNext_cases h
  exact Function.update_of_ne hid _ _

/-- A user writes creature records only at the counter. -/
theorem user_creature {call : Call} (huser : sender ≠ s.bridge)
    (h : s.step keccak256 this env sender call = some s') (hid : id ≠ s.nextId) :
    s'.creatures id = s.creatures id := by
  cases call with
  | setSeasonRegistry reg =>
      obtain rfl := setSeasonRegistry_cases h
      rfl
  | setMarketplace m =>
      obtain rfl := setMarketplace_cases h
      rfl
  | setBridge b =>
      obtain ⟨-, rfl⟩ := setBridge_cases h
      rfl
  | setCore c =>
      obtain rfl := setCore_cases h
      rfl
  | hatch w =>
      obtain ⟨dna, minted, hminted, rfl⟩ := hatch_cases h
      have hkept : minted.creatures id = s.creatures id := mintNext_creature hminted hid
      exact hkept
  | approve toAddr t =>
      obtain ⟨-, rfl⟩ := approve_cases h
      rfl
  | transferFrom fromAddr toAddr t =>
      obtain ⟨-, -, rfl⟩ := transferFrom_cases h
      rfl
  | breed toAddr w =>
      obtain ⟨dna, hminted⟩ := breed_cases h
      exact mintNext_creature hminted hid
  | mintFromBridge toAddr t w dna =>
      obtain ⟨hbridge, -⟩ := mintFromBridge_cases h
      exact absurd hbridge huser
  | burnFromBridge t =>
      obtain ⟨hbridge, -⟩ := burnFromBridge_cases h
      exact absurd hbridge huser
  | lockTraits t packedTraits nameHash =>
      obtain rfl := lockTraits_cases h
      rfl

theorem UserMove.nextId_le (h : UserMove s sender s') : s.nextId.toNat ≤ s'.nextId.toNat := by
  cases h with
  | quiet owners approvals ids log => rw [ids]
  | approved t toAddr owner owners approvals ids log => rw [ids]
  | moved t toAddr auth owners approvals ids log => rw [ids]
  | hatched owner owners approvals ids log => omega

end CreatureNFT

/-- The creature record a departure announced. -/
def BridgeOut.record (e : BridgeOut) : Creature := ⟨e.genesisWeights, e.dna⟩

namespace Chain

variable {keccak256 : Bytes → Bytes32} {d : Deployment} {verify : Bytes32 → Bool} {s s' : Chain}
  {t : U256}

/-! ## The bridge's tokens -/

theorem Settled.lt_nextId (hs : s.Settled d) (h : s.nft.ownerOf t ≠ zeroAddress) :
    t.toNat < s.nft.nextId.toNat := by
  by_contra hnot
  exact h (hs.fresh t (Nat.le_of_not_lt hnot))

theorem Settled.unapproved (hs : s.Settled d) (h : s.nft.ownerOf t = d.bridgeAddr) :
    s.nft.getApproved t = zeroAddress := by
  by_contra happroved
  exact (hs.approved t happroved).2 h

/-- No user can take a token from the bridge. -/
theorem Settled.keeps (hs : s.Settled d) {sender : Address} (hu : IsUser d sender)
    {nft : CreatureNFT} (h : CreatureNFT.UserMove s.nft sender nft)
    (howner : s.nft.ownerOf t = d.bridgeAddr) : nft.ownerOf t = d.bridgeAddr := by
  cases h with
  | quiet owners approvals ids log => rw [owners, howner]
  | approved u toAddr owner owners approvals ids log => rw [owners, howner]
  | moved u toAddr auth owners approvals ids log =>
      have hne : t ≠ u := by
        rintro rfl
        exact (hs.circulates_of_auth hu auth).2 howner
      rw [owners, Function.update_of_ne hne, howner]
  | hatched owner owners approvals ids log =>
      have hne : t ≠ s.nft.nextId := by
        rintro rfl
        exact d.bridge_ne_zero (howner.symm.trans (hs.fresh _ (Nat.le_refl _)))
      rw [owners, Function.update_of_ne hne, howner]

/-! ## The invariant -/

/-- The flags of the bridge and the owners and records of the tokens they are about. -/
structure Custody (d : Deployment) (s : Chain) : Prop where
  settled : s.Settled d
  held : ∀ t, s.bridge.locked t = true → s.nft.ownerOf t = d.bridgeAddr
  apart : ∀ t, s.bridge.locked t = true → s.bridge.mirror t = false
  announced : ∀ t, s.bridge.locked t = true → ∃ e ∈ s.out, e.tokenId = t
  known : ∀ e ∈ s.out, e.tokenId.toNat < s.nft.nextId.toNat
  records : ∀ e ∈ s.out, s.bridge.mirror e.tokenId = false →
    s.nft.creatures e.tokenId = e.record

theorem deploy_custody (d : Deployment) (verifier : Address) : (deploy d verifier).Custody d where
  settled := deploy_settled d verifier
  held _ h := absurd h Bool.false_ne_true
  apart _ h := absurd h Bool.false_ne_true
  announced _ h := absurd h Bool.false_ne_true
  known _ h := absurd h List.not_mem_nil
  records _ h := absurd h List.not_mem_nil

theorem Custody.of_nft (hs : s.Custody d) {sender : Address} (hu : IsUser d sender)
    {env : CreatureNFT.Env} {call : CreatureNFT.Call} {nft : CreatureNFT}
    (h : s.nft.step keccak256 d.nftAddr env sender call = some nft) :
    ({ s with nft } : Chain).Custody d := by
  have huser : sender ≠ s.nft.bridge := by
    rw [hs.settled.bridge]
    exact hu.2.2
  obtain ⟨hmove, hb⟩ := CreatureNFT.step_user (by rw [hs.settled.bridge]; exact d.bridge_ne_zero)
    huser h
  refine ⟨hs.settled.of_userMove hu hb hmove, ?_, hs.apart, hs.announced, ?_, ?_⟩
  · intro t hlocked
    exact hs.settled.keeps hu hmove (hs.held t hlocked)
  · intro e he
    exact Nat.lt_of_lt_of_le (hs.known e he) hmove.nextId_le
  · intro e he hmirror
    have hne : e.tokenId ≠ s.nft.nextId := by
      intro heq
      exact Nat.lt_irrefl _ (heq ▸ hs.known e he)
    have hkept : nft.creatures e.tokenId = s.nft.creatures e.tokenId :=
      CreatureNFT.user_creature huser h hne
    exact hkept.trans (hs.records e he hmirror)

theorem Custody.of_bridgeOut (hs : s.Custody d) {sender : Address} (hu : IsUser d sender)
    {dst : U256} (h : s.bridgeOut keccak256 d sender t dst = some s') : s'.Custody d := by
  have hsettled := hs.settled.of_bridgeOut hu h
  obtain ⟨howner, hmirror, rfl⟩ := bridgeOut_cases h
  refine ⟨hsettled, ?_, ?_, ?_, ?_, ?_⟩
  · intro u hlocked
    by_cases hut : u = t
    · subst hut
      exact Function.update_self _ _ _
    · apply (Function.update_of_ne hut _ _).trans
      apply hs.held u
      exact (Function.update_of_ne hut _ _).symm.trans hlocked
  · intro u hlocked
    by_cases hut : u = t
    · subst hut
      exact hmirror
    · exact hs.apart u ((Function.update_of_ne hut _ _).symm.trans hlocked)
  · intro u hlocked
    by_cases hut : u = t
    · subst hut
      exact ⟨_, List.mem_append_right _ (List.mem_singleton_self _), rfl⟩
    · obtain ⟨e, he, htoken⟩ := hs.announced u ((Function.update_of_ne hut _ _).symm.trans hlocked)
      exact ⟨e, List.mem_append_left _ he, htoken⟩
  · refine List.forall_mem_append.mpr ⟨hs.known, List.forall_mem_singleton.mpr ?_⟩
    apply hs.settled.lt_nextId
    rw [howner]
    exact hu.1
  · exact List.forall_mem_append.mpr ⟨hs.records, List.forall_mem_singleton.mpr fun _ => rfl⟩

/-- A locked token is released. -/
theorem Custody.of_release (hs : s.Custody d) (hsettled : s'.Settled d) {toAddr : Address}
    (hmove : s.nft.transferFrom d.bridgeAddr d.bridgeAddr toAddr t = some s'.nft)
    (hflags : s'.bridge.locked = Function.update s.bridge.locked t false)
    (hmirrors : s'.bridge.mirror = s.bridge.mirror) (hout : s'.out = s.out) : s'.Custody d := by
  obtain ⟨-, -, hnft⟩ := CreatureNFT.transferFrom_cases hmove
  have hstill : ∀ u, s'.bridge.locked u = true → u ≠ t ∧ s.bridge.locked u = true := by
    intro u hu
    rw [hflags] at hu
    have hut : u ≠ t := by
      rintro rfl
      simp at hu
    exact ⟨hut, (Function.update_of_ne hut _ _).symm.trans hu⟩
  refine ⟨hsettled, ?_, ?_, ?_, ?_, ?_⟩
  · intro u hu
    obtain ⟨hut, hold⟩ := hstill u hu
    rw [hnft]
    exact (Function.update_of_ne hut _ _).trans (hs.held u hold)
  · intro u hu
    rw [hmirrors]
    exact hs.apart u (hstill u hu).2
  · intro u hu
    rw [hout]
    exact hs.announced u (hstill u hu).2
  · rw [hout, hnft]
    exact hs.known
  · rw [hout, hnft, hmirrors]
    exact hs.records

/-- A mirror is minted for a token that is not locked. -/
theorem Custody.of_mint (hs : s.Custody d) (hsettled : s'.Settled d)
    (hlocked : s.bridge.locked t = false) {env : CreatureNFT.Env} {toAddr : Address} {w : Bytes}
    {dna : Bytes32} (hmint : s.nft.mintFromBridge env d.bridgeAddr toAddr t w dna = some s'.nft)
    (hflags : s'.bridge.locked = s.bridge.locked)
    (hmirrors : s'.bridge.mirror = Function.update s.bridge.mirror t true)
    (hout : s'.out = s.out) : s'.Custody d := by
  obtain ⟨-, hunowned, nextId, hnext, hnft⟩ := CreatureNFT.mintFromBridge_cases hmint
  obtain ⟨hle, -⟩ := CreatureNFT.raiseNextId_cases hnext
  have hother : ∀ u, s.bridge.locked u = true → u ≠ t := by
    rintro u hu rfl
    exact Bool.false_ne_true (hlocked.symm.trans hu)
  refine ⟨hsettled, ?_, ?_, ?_, ?_, ?_⟩
  · intro u hu
    rw [hflags] at hu
    rw [hnft]
    exact (Function.update_of_ne (hother u hu) _ _).trans (hs.held u hu)
  · intro u hu
    rw [hflags] at hu
    rw [hmirrors, Function.update_of_ne (hother u hu)]
    exact hs.apart u hu
  · rw [hflags, hout]
    exact hs.announced
  · intro e he
    rw [hout] at he
    rw [hnft]
    exact Nat.lt_of_lt_of_le (hs.known e he) hle
  · intro e he hmirror
    rw [hout] at he
    rw [hmirrors] at hmirror
    -- what is a mirror now keeps no promise about its record
    have het : e.tokenId ≠ t := by
      intro heq
      simp [heq] at hmirror
    rw [Function.update_of_ne het] at hmirror
    rw [hnft]
    exact (Function.update_of_ne het _ _).trans (hs.records e he hmirror)

theorem Custody.of_bridgeIn (hs : s.Custody d) {env : CreatureNFT.Env} {src dst : U256}
    {toAddr : Address} {w proof : Bytes} {dna : Bytes32}
    (h : s.bridgeIn keccak256 d verify env t toAddr src dst w dna proof = some s') :
    s'.Custody d := by
  have hsettled := hs.settled.of_bridgeIn h
  obtain ⟨-, -, hout, -, -, hcase⟩ := bridgeIn_cases h
  rcases hcase with ⟨-, hmove, hflags, hmirrors⟩ | ⟨hlocked, hmint, hflags, hmirrors⟩
  · exact hs.of_release hsettled hmove hflags hmirrors hout
  · exact hs.of_mint hsettled hlocked hmint hflags hmirrors hout

theorem Custody.step (hs : s.Custody d) {tx : Tx Call}
    (h : Chain.step keccak256 d verify s tx = some s') : s'.Custody d := by
  obtain ⟨hu, hcall⟩ := step_cases h
  rcases hcall with ⟨env, call, nft, -, rfl, hnft⟩ | ⟨t, dst, -, hout⟩ |
    ⟨env, t, toAddr, src, dst, w, dna, proof, -, hin⟩
  · exact hs.of_nft hu hnft
  · exact hs.of_bridgeOut hu hout
  · exact hs.of_bridgeIn hin

theorem run_custody (keccak256 : Bytes → Bytes32) (d : Deployment) (verifier : Address)
    (txs : List ((Bytes32 → Bool) × Tx Call)) : (run keccak256 d verifier txs).Custody d := by
  apply revert_induction (Custody d)
  · exact deploy_custody d verifier
  · intro s vtx s' hs h
    exact hs.step h

/-! ## Releases -/

/-- The roots are not part of the invariant. -/
theorem Custody.of_processed (hs : s.Custody d) (processed : Bytes32 → Bool) :
    ({ s with bridge := { s.bridge with processed } } : Chain).Custody d where
  settled := ⟨hs.settled.bridge, hs.settled.fresh, hs.settled.approved⟩
  held := hs.held
  apart := hs.apart
  announced := hs.announced
  known := hs.known
  records := hs.records

/-- The token `t` released to `toAddr`, and nothing else changed but the root. -/
def release (s : Chain) (t : U256) (toAddr : Address) (rootHash : Bytes32) : Chain :=
  { s with
    nft := { s.nft with ownerOf := Function.update s.nft.ownerOf t toAddr }
    bridge := { s.bridge with
      locked := Function.update s.bridge.locked t false
      processed := Function.update s.bridge.processed rootHash true } }

/-- The transfer out of the bridge does not fail: the bridge owns what it has locked. -/
theorem Custody.arrive_locked (hs : s.Custody d) (hlocked : s.bridge.locked t = true)
    (env : CreatureNFT.Env) (toAddr : Address) (w : Bytes) (dna : Bytes32) :
    s.arrive d env t toAddr w dna = some { s with
      nft := { s.nft with ownerOf := Function.update s.nft.ownerOf t toAddr }
      bridge := { s.bridge with locked := Function.update s.bridge.locked t false } } := by
  have howner := hs.held t hlocked
  have hcleared : Function.update s.nft.getApproved t zeroAddress = s.nft.getApproved :=
    Function.update_eq_self_iff.mpr (hs.settled.unapproved howner).symm
  simp [arrive, CreatureNFT.transferFrom, require, hlocked, howner, hcleared]

/-- **An arrival of a locked token** with an unprocessed, verified root releases it, whatever
weights and dna it names. -/
theorem Custody.bridgeIn_locked (hs : s.Custody d) (hlocked : s.bridge.locked t = true)
    (verify : Bytes32 → Bool) (env : CreatureNFT.Env) (toAddr : Address) (src dst : U256)
    (w : Bytes) (dna : Bytes32) (proof : Bytes) {rootHash : Bytes32}
    (hroot : keccak256 (preimage t toAddr src w dna) = rootHash) :
    s.bridgeIn keccak256 d verify env t toAddr src dst w dna proof =
      if s.bridge.processed rootHash = false ∧
          (s.bridge.verifier ≠ zeroAddress → verify rootHash = true)
      then some (s.release t toAddr rootHash) else none := by
  let processed := Function.update s.bridge.processed rootHash true
  have harrive := (hs.of_processed processed).arrive_locked hlocked env toAddr w dna
  by_cases hproc : s.bridge.processed rootHash = false
  · by_cases hver : s.bridge.verifier ≠ zeroAddress → verify rootHash = true
    · rw [if_pos ⟨hproc, hver⟩]
      simp only [bridgeIn, hroot, require, if_pos hver, hproc, Bool.false_eq_true, not_false_iff,
        if_true, Option.bind_eq_bind, Option.bind_some]
      exact harrive
    · rw [if_neg fun hboth => hver hboth.2]
      simp [bridgeIn, require, hroot, hver]
  · rw [if_neg fun hboth => hproc hboth.1]
    simp [bridgeIn, require, hroot, hproc]

/-! ## Custody in every run -/

/-- What the bridge guarantees in a reachable state: it owns what it has locked, nothing is both
locked and a mirror, a token becomes a mirror only where it is minted and had no owner, and an
arrival of a locked token releases that token with the record it left with. -/
structure Safekeeping (keccak256 : Bytes → Bytes32) (d : Deployment) (s : Chain) : Prop where
  held : ∀ t, s.bridge.locked t = true → s.nft.ownerOf t = d.bridgeAddr
  apart : ∀ t, ¬ (s.bridge.locked t = true ∧ s.bridge.mirror t = true)
  minted : ∀ verify tx s', step keccak256 d verify s tx = some s' → ∀ t,
    s.bridge.mirror t = false → s'.bridge.mirror t = true →
    s.nft.ownerOf t = zeroAddress ∧ ∃ env toAddr w dna,
      s.nft.mintFromBridge env d.bridgeAddr toAddr t w dna = some s'.nft
  released : ∀ verify env t toAddr src dst w dna proof rootHash, s.bridge.locked t = true →
    keccak256 (preimage t toAddr src w dna) = rootHash →
    s.bridgeIn keccak256 d verify env t toAddr src dst w dna proof =
      if s.bridge.processed rootHash = false ∧
          (s.bridge.verifier ≠ zeroAddress → verify rootHash = true)
      then some (s.release t toAddr rootHash) else none
  record : ∀ t, s.bridge.locked t = true → (∃ e ∈ s.out, e.tokenId = t) ∧
    ∀ e ∈ s.out, e.tokenId = t → s.nft.creatures t = e.record

/-- Nothing becomes a mirror but what an arrival mints. -/
theorem step_mirror {tx : Tx Call} (h : step keccak256 d verify s tx = some s')
    (hold : s.bridge.mirror t = false) (hnew : s'.bridge.mirror t = true) :
    s.nft.ownerOf t = zeroAddress ∧ ∃ env toAddr w dna,
      s.nft.mintFromBridge env d.bridgeAddr toAddr t w dna = some s'.nft := by
  obtain ⟨-, hcall⟩ := step_cases h
  rcases hcall with ⟨env, call, nft, -, rfl, -⟩ | ⟨u, dst, -, hout⟩ |
    ⟨env, u, toAddr, src, dst, w, dna, proof, -, hin⟩
  · exact absurd (hold.symm.trans hnew) Bool.false_ne_true
  · obtain ⟨-, -, rfl⟩ := bridgeOut_cases hout
    exact absurd (hold.symm.trans hnew) Bool.false_ne_true
  · obtain ⟨-, -, -, -, -, hcase⟩ := bridgeIn_cases hin
    rcases hcase with ⟨-, -, -, hmirrors⟩ | ⟨-, hmint, -, hmirrors⟩
    · rw [hmirrors, hold] at hnew
      exact absurd hnew Bool.false_ne_true
    · obtain rfl : t = u := by
        by_contra hne
        rw [hmirrors, Function.update_of_ne hne, hold] at hnew
        exact Bool.false_ne_true hnew
      exact ⟨(CreatureNFT.mintFromBridge_cases hmint).2.1, env, toAddr, w, dna, hmint⟩

/-- **The bridge keeps what it locks**, in every run. -/
theorem bridge_custody (keccak256 : Bytes → Bytes32) (d : Deployment) (verifier : Address)
    (txs : List ((Bytes32 → Bool) × Tx Call)) :
    Safekeeping keccak256 d (run keccak256 d verifier txs) := by
  have hs := run_custody keccak256 d verifier txs
  refine ⟨hs.held, ?_, ?_, ?_, ?_⟩
  · rintro t ⟨hlocked, hmirror⟩
    exact Bool.false_ne_true ((hs.apart t hlocked).symm.trans hmirror)
  · intro verify tx s' h t
    exact step_mirror h
  · intro verify env t toAddr src dst w dna proof rootHash hlocked
    exact hs.bridgeIn_locked hlocked verify env toAddr src dst w dna proof
  · intro t hlocked
    refine ⟨hs.announced t hlocked, ?_⟩
    rintro e he rfl
    exact hs.records e he (hs.apart _ hlocked)

end Chain

end ChainBeasts.Contracts
