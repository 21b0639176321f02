import ChainBeasts.Contracts.TrainingLedger
import ChainBeasts.Evm.Packed

/-! # `CreatureNFT.sol`

The token contract: hatching, ownership and approvals, the three addresses that can be set once, and
the entry points of the marketplace and the bridge. `hatched` is the log of the `CreatureHatched`
events, which is how a token that originated here is told from one that arrived over the bridge. -/

namespace ChainBeasts.Contracts

open ChainBeasts.Evm

structure Creature where
  genesisWeights : Bytes
  dna : Bytes32
  deriving DecidableEq

/-- A deleted (or never written) creature record. -/
def Creature.empty : Creature := ⟨[], 0⟩

structure Traits where
  packedTraits : U256
  nameHash : Bytes32
  deriving DecidableEq

structure CreatureNFT where
  bridge : Address
  seasons : Address
  nextId : U256
  ownerOf : U256 → Address
  hasHatched : Address → Bool
  creatures : U256 → Creature
  getApproved : U256 → Address
  marketplace : Address
  core : Address
  traits : U256 → Traits
  hatched : List U256

namespace CreatureNFT

/-- What a call reads outside the contract: `blockhash(block.number - 1)`, the limit of the season
registry, and the answer of `core.transferFrom`. -/
structure Env where
  blockhash : Bytes32
  maxNetworkBytes : U256
  coreTransfer : Bool
  deriving DecidableEq

def deploy : CreatureNFT where
  bridge := zeroAddress
  seasons := zeroAddress
  nextId := 1
  ownerOf _ := zeroAddress
  hasHatched _ := false
  creatures _ := .empty
  getApproved _ := zeroAddress
  marketplace := zeroAddress
  core := zeroAddress
  traits _ := ⟨0, 0⟩
  hatched := []

/-- `genesisWeights.length <= _maxBytes()`. -/
def fits (s : CreatureNFT) (env : Env) (genesisWeights : Bytes) : Prop :=
  genesisWeights.length ≤
    (maxBytes (if s.seasons ≠ zeroAddress then some env.maxNetworkBytes else none)).toNat

instance (s : CreatureNFT) (env : Env) (genesisWeights : Bytes) :
    Decidable (s.fits env genesisWeights) :=
  inferInstanceAs (Decidable (_ ≤ _))

def setSeasonRegistry (s : CreatureNFT) (reg : Address) : Option CreatureNFT := do
  require (s.seasons = zeroAddress)
  return { s with seasons := reg }

def setMarketplace (s : CreatureNFT) (m : Address) : Option CreatureNFT := do
  require (s.marketplace = zeroAddress)
  return { s with marketplace := m }

def setBridge (s : CreatureNFT) (b : Address) : Option CreatureNFT := do
  require (s.bridge = zeroAddress)
  return { s with bridge := b }

def setCore (s : CreatureNFT) (c : Address) : Option CreatureNFT := do
  require (s.core = zeroAddress)
  return { s with core := c }

/-- The writes `hatch` and `breed` share: the next id goes to `owner` with its creature record. -/
def mintNext (s : CreatureNFT) (owner : Address) (genesisWeights : Bytes) (dna : Bytes32) :
    Option CreatureNFT := do
  let nextId ← checkedAdd s.nextId 1
  return { s with
    nextId
    ownerOf := Function.update s.ownerOf s.nextId owner
    creatures := Function.update s.creatures s.nextId ⟨genesisWeights, dna⟩
    hatched := s.hatched ++ [s.nextId] }

def hatch (keccak256 : Bytes → Bytes32) (s : CreatureNFT) (env : Env) (sender : Address)
    (genesisWeights : Bytes) : Option CreatureNFT := do
  require (¬ s.hasHatched sender)
  require (s.fits env genesisWeights)
  let minted ← s.mintNext sender genesisWeights
    (keccak256 (packWord env.blockhash ++ packAddress sender))
  return { minted with hasHatched := Function.update s.hasHatched sender true }

def approve (s : CreatureNFT) (sender toAddr : Address) (tokenId : U256) : Option CreatureNFT := do
  require (s.ownerOf tokenId = sender)
  return { s with getApproved := Function.update s.getApproved tokenId toAddr }

def transferFrom (s : CreatureNFT) (sender fromAddr toAddr : Address) (tokenId : U256) :
    Option CreatureNFT := do
  require (s.ownerOf tokenId = fromAddr)
  require (sender = fromAddr ∨ sender = s.getApproved tokenId)
  return { s with
    ownerOf := Function.update s.ownerOf tokenId toAddr
    getApproved := Function.update s.getApproved tokenId zeroAddress }

def breed (keccak256 : Bytes → Bytes32) (s : CreatureNFT) (env : Env) (sender toAddr : Address)
    (genesisWeights : Bytes) : Option CreatureNFT := do
  require (sender = s.marketplace)
  require (s.fits env genesisWeights)
  s.mintNext toAddr genesisWeights
    (keccak256 (packWord env.blockhash ++ packAddress toAddr ++ packWord s.nextId))

/-- `if (tokenId >= nextId) nextId = tokenId + 1`. -/
def raiseNextId (s : CreatureNFT) (tokenId : U256) : Option U256 :=
  if s.nextId ≤ tokenId then checkedAdd tokenId 1 else some s.nextId

def mintFromBridge (s : CreatureNFT) (env : Env) (sender toAddr : Address) (tokenId : U256)
    (genesisWeights : Bytes) (dna : Bytes32) : Option CreatureNFT := do
  require (sender = s.bridge)
  require (s.ownerOf tokenId = zeroAddress)
  require (s.fits env genesisWeights)
  let nextId ← s.raiseNextId tokenId
  return { s with
    nextId
    ownerOf := Function.update s.ownerOf tokenId toAddr
    creatures := Function.update s.creatures tokenId ⟨genesisWeights, dna⟩ }

/-- `this` is the token contract's own address: `_ownerOf[tokenId] == address(this)`. -/
def burnFromBridge (s : CreatureNFT) (this sender : Address) (tokenId : U256) :
    Option CreatureNFT := do
  require (sender = s.bridge)
  require (s.ownerOf tokenId = this)
  return { s with
    ownerOf := Function.update s.ownerOf tokenId zeroAddress
    creatures := Function.update s.creatures tokenId .empty
    getApproved := Function.update s.getApproved tokenId zeroAddress }

/-- `env.coreTransfer` is what `core.transferFrom` returns. That the core may call back before it
returns is in `Locking.State.step`. -/
def lockTraits (s : CreatureNFT) (env : Env) (sender : Address) (tokenId packedTraits : U256)
    (nameHash : Bytes32) : Option CreatureNFT := do
  require (s.ownerOf tokenId = sender)
  require ((s.traits tokenId).nameHash = 0)
  require (s.core ≠ zeroAddress)
  require (env.coreTransfer = true)
  return { s with traits := Function.update s.traits tokenId ⟨packedTraits, nameHash⟩ }

/-- The external functions that write. -/
inductive Call where
  | setSeasonRegistry (reg : Address)
  | setMarketplace (m : Address)
  | setBridge (b : Address)
  | setCore (c : Address)
  | hatch (genesisWeights : Bytes)
  | approve (toAddr : Address) (tokenId : U256)
  | transferFrom (fromAddr toAddr : Address) (tokenId : U256)
  | breed (toAddr : Address) (genesisWeights : Bytes)
  | mintFromBridge (toAddr : Address) (tokenId : U256) (genesisWeights : Bytes) (dna : Bytes32)
  | burnFromBridge (tokenId : U256)
  | lockTraits (tokenId packedTraits : U256) (nameHash : Bytes32)
  deriving DecidableEq

def step (keccak256 : Bytes → Bytes32) (this : Address) (s : CreatureNFT) (env : Env)
    (sender : Address) : Call → Option CreatureNFT
  | .setSeasonRegistry reg => s.setSeasonRegistry reg
  | .setMarketplace m => s.setMarketplace m
  | .setBridge b => s.setBridge b
  | .setCore c => s.setCore c
  | .hatch genesisWeights => s.hatch keccak256 env sender genesisWeights
  | .approve toAddr tokenId => s.approve sender toAddr tokenId
  | .transferFrom fromAddr toAddr tokenId => s.transferFrom sender fromAddr toAddr tokenId
  | .breed toAddr genesisWeights => s.breed keccak256 env sender toAddr genesisWeights
  | .mintFromBridge toAddr tokenId genesisWeights dna =>
      s.mintFromBridge env sender toAddr tokenId genesisWeights dna
  | .burnFromBridge tokenId => s.burnFromBridge this sender tokenId
  | .lockTraits tokenId packedTraits nameHash =>
      s.lockTraits env sender tokenId packedTraits nameHash

/-! ## What each function can do -/

variable {keccak256 : Bytes → Bytes32} {s s' : CreatureNFT} {env : Env}
  {this sender fromAddr toAddr : Address} {t : U256}

theorem mintNext_cases {w : Bytes} {dna : Bytes32} (h : s.mintNext toAddr w dna = some s') :
    ∃ nextId : U256, nextId.toNat = s.nextId.toNat + 1 ∧ s' = { s with
      nextId
      ownerOf := Function.update s.ownerOf s.nextId toAddr
      creatures := Function.update s.creatures s.nextId ⟨w, dna⟩
      hatched := s.hatched ++ [s.nextId] } := by
  simp only [mintNext, Option.bind_eq_bind, Option.bind_eq_some_iff, checkedAdd_eq_some,
    Option.pure_def, Option.some.injEq] at h
  obtain ⟨nextId, hnext, rfl⟩ := h
  exact ⟨nextId, hnext, rfl⟩

theorem setSeasonRegistry_cases {reg : Address} (h : s.setSeasonRegistry reg = some s') :
    s' = { s with seasons := reg } := by
  simp only [setSeasonRegistry, Option.bind_eq_bind, Option.bind_eq_some_iff, Option.pure_def,
    Option.some.injEq] at h
  obtain ⟨_, -, rfl⟩ := h
  rfl

theorem setMarketplace_cases {m : Address} (h : s.setMarketplace m = some s') :
    s' = { s with marketplace := m } := by
  simp only [setMarketplace, Option.bind_eq_bind, Option.bind_eq_some_iff, Option.pure_def,
    Option.some.injEq] at h
  obtain ⟨_, -, rfl⟩ := h
  rfl

theorem setBridge_cases {b : Address} (h : s.setBridge b = some s') :
    s.bridge = zeroAddress ∧ s' = { s with bridge := b } := by
  simp only [setBridge, Option.bind_eq_bind, Option.bind_eq_some_iff, require_eq_some,
    Option.pure_def, Option.some.injEq] at h
  obtain ⟨_, hzero, rfl⟩ := h
  exact ⟨hzero, rfl⟩

theorem setCore_cases {c : Address} (h : s.setCore c = some s') : s' = { s with core := c } := by
  simp only [setCore, Option.bind_eq_bind, Option.bind_eq_some_iff, Option.pure_def,
    Option.some.injEq] at h
  obtain ⟨_, -, rfl⟩ := h
  rfl

theorem hatch_cases {w : Bytes} (h : s.hatch keccak256 env sender w = some s') :
    ∃ dna minted, s.mintNext sender w dna = some minted ∧
      s' = { minted with hasHatched := Function.update s.hasHatched sender true } := by
  simp only [hatch, Option.bind_eq_bind, Option.bind_eq_some_iff, Option.pure_def,
    Option.some.injEq] at h
  obtain ⟨_, -, _, -, minted, hminted, rfl⟩ := h
  exact ⟨_, minted, hminted, rfl⟩

theorem breed_cases {w : Bytes} (h : s.breed keccak256 env sender toAddr w = some s') :
    ∃ dna, s.mintNext toAddr w dna = some s' := by
  simp only [breed, Option.bind_eq_bind, Option.bind_eq_some_iff] at h
  obtain ⟨_, -, _, -, hminted⟩ := h
  exact ⟨_, hminted⟩

theorem lockTraits_cases {packedTraits : U256} {nameHash : Bytes32}
    (h : s.lockTraits env sender t packedTraits nameHash = some s') :
    s' = { s with traits := Function.update s.traits t ⟨packedTraits, nameHash⟩ } := by
  simp only [lockTraits, Option.bind_eq_bind, Option.bind_eq_some_iff, Option.pure_def,
    Option.some.injEq] at h
  obtain ⟨_, -, _, -, _, -, _, -, rfl⟩ := h
  rfl

theorem approve_cases (h : s.approve sender toAddr t = some s') :
    s.ownerOf t = sender ∧
      s' = { s with getApproved := Function.update s.getApproved t toAddr } := by
  simp only [approve, Option.bind_eq_bind, Option.bind_eq_some_iff, require_eq_some,
    Option.pure_def, Option.some.injEq] at h
  obtain ⟨_, howner, rfl⟩ := h
  exact ⟨howner, rfl⟩

theorem transferFrom_cases (h : s.transferFrom sender fromAddr toAddr t = some s') :
    s.ownerOf t = fromAddr ∧ (sender = fromAddr ∨ sender = s.getApproved t) ∧ s' = { s with
      ownerOf := Function.update s.ownerOf t toAddr
      getApproved := Function.update s.getApproved t zeroAddress } := by
  simp only [transferFrom, Option.bind_eq_bind, Option.bind_eq_some_iff, require_eq_some,
    Option.pure_def, Option.some.injEq] at h
  obtain ⟨_, howner, _, hauth, rfl⟩ := h
  exact ⟨howner, hauth, rfl⟩

theorem raiseNextId_cases {n : U256} (h : s.raiseNextId t = some n) :
    s.nextId.toNat ≤ n.toNat ∧ t.toNat < n.toNat := by
  unfold raiseNextId at h
  split at h
  · next hle =>
      rw [checkedAdd_eq_some] at h
      rw [BitVec.le_def] at hle
      have hone : (1 : U256).toNat = 1 := rfl
      omega
  · next hlt =>
      obtain rfl : s.nextId = n := Option.some.inj h
      rw [BitVec.le_def] at hlt
      omega

theorem mintFromBridge_cases {w : Bytes} {dna : Bytes32}
    (h : s.mintFromBridge env sender toAddr t w dna = some s') :
    sender = s.bridge ∧ s.ownerOf t = zeroAddress ∧ ∃ nextId, s.raiseNextId t = some nextId ∧
      s' = { s with
        nextId
        ownerOf := Function.update s.ownerOf t toAddr
        creatures := Function.update s.creatures t ⟨w, dna⟩ } := by
  simp only [mintFromBridge, Option.bind_eq_bind, Option.bind_eq_some_iff, require_eq_some,
    Option.pure_def, Option.some.injEq] at h
  obtain ⟨_, hbridge, _, howner, _, _, nextId, hnext, rfl⟩ := h
  exact ⟨hbridge, howner, nextId, hnext, rfl⟩

theorem burnFromBridge_cases (h : s.burnFromBridge this sender t = some s') :
    sender = s.bridge ∧ s.ownerOf t = this ∧ s' = { s with
      ownerOf := Function.update s.ownerOf t zeroAddress
      creatures := Function.update s.creatures t .empty
      getApproved := Function.update s.getApproved t zeroAddress } := by
  simp only [burnFromBridge, Option.bind_eq_bind, Option.bind_eq_some_iff, require_eq_some,
    Option.pure_def, Option.some.injEq] at h
  obtain ⟨_, hbridge, _, howner, rfl⟩ := h
  exact ⟨hbridge, howner, rfl⟩

/-! ## What a user can do

An account that is not the bridge reaches neither `mintFromBridge` nor `burnFromBridge`, and a
bridge once set stays set. -/

/-- How a user's call changes owners, approvals, ids and the hatch log. -/
inductive UserMove (s : CreatureNFT) (sender : Address) (s' : CreatureNFT) : Prop
  | quiet (owners : s'.ownerOf = s.ownerOf) (approvals : s'.getApproved = s.getApproved)
      (ids : s'.nextId = s.nextId) (log : s'.hatched = s.hatched)
  | approved (t : U256) (toAddr : Address) (owner : s.ownerOf t = sender)
      (owners : s'.ownerOf = s.ownerOf)
      (approvals : s'.getApproved = Function.update s.getApproved t toAddr)
      (ids : s'.nextId = s.nextId) (log : s'.hatched = s.hatched)
  | moved (t : U256) (toAddr : Address) (auth : sender = s.ownerOf t ∨ sender = s.getApproved t)
      (owners : s'.ownerOf = Function.update s.ownerOf t toAddr)
      (approvals : s'.getApproved = Function.update s.getApproved t zeroAddress)
      (ids : s'.nextId = s.nextId) (log : s'.hatched = s.hatched)
  | hatched (owner : Address) (owners : s'.ownerOf = Function.update s.ownerOf s.nextId owner)
      (approvals : s'.getApproved = s.getApproved) (ids : s'.nextId.toNat = s.nextId.toNat + 1)
      (log : s'.hatched = s.hatched ++ [s.nextId])

theorem userMove_of_mintNext {w : Bytes} {dna : Bytes32} (h : s.mintNext toAddr w dna = some s') :
    UserMove s sender s' ∧ s'.bridge = s.bridge := by
  obtain ⟨nextId, hnext, rfl⟩ := mintNext_cases h
  exact ⟨.hatched toAddr rfl rfl hnext rfl, rfl⟩

/-- **One user call.** Once a bridge is set, a call by anyone else is one of the four moves and
leaves the bridge as it is. -/
theorem step_user {call : Call} (hset : s.bridge ≠ zeroAddress) (huser : sender ≠ s.bridge)
    (h : s.step keccak256 this env sender call = some s') :
    UserMove s sender s' ∧ s'.bridge = s.bridge := by
  cases call with
  | setSeasonRegistry reg =>
      obtain rfl := setSeasonRegistry_cases h
      exact ⟨.quiet rfl rfl rfl rfl, rfl⟩
  | setMarketplace m =>
      obtain rfl := setMarketplace_cases h
      exact ⟨.quiet rfl rfl rfl rfl, rfl⟩
  -- the bridge can be set only once
  | setBridge b => exact absurd (setBridge_cases h).1 hset
  | setCore c =>
      obtain rfl := setCore_cases h
      exact ⟨.quiet rfl rfl rfl rfl, rfl⟩
  | hatch w =>
      obtain ⟨dna, minted, hminted, rfl⟩ := hatch_cases h
      obtain ⟨nextId, hnext, rfl⟩ := mintNext_cases hminted
      exact ⟨.hatched sender rfl rfl hnext rfl, rfl⟩
  | approve toAddr t =>
      obtain ⟨howner, rfl⟩ := approve_cases h
      exact ⟨.approved t toAddr howner rfl rfl rfl rfl, rfl⟩
  | transferFrom fromAddr toAddr t =>
      obtain ⟨rfl, hauth, rfl⟩ := transferFrom_cases h
      exact ⟨.moved t toAddr hauth rfl rfl rfl rfl, rfl⟩
  | breed toAddr w =>
      obtain ⟨dna, hminted⟩ := breed_cases h
      exact userMove_of_mintNext hminted
  | mintFromBridge toAddr t w dna =>
      obtain ⟨hbridge, -⟩ := mintFromBridge_cases h
      exact absurd hbridge huser
  | burnFromBridge t =>
      obtain ⟨hbridge, -⟩ := burnFromBridge_cases h
      exact absurd hbridge huser
  | lockTraits t packedTraits nameHash =>
      obtain rfl := lockTraits_cases h
      exact ⟨.quiet rfl rfl rfl rfl, rfl⟩

end CreatureNFT

end ChainBeasts.Contracts
