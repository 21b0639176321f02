import ChainBeasts.Contracts.CreatureNFT
import ChainBeasts.Machine

/-! # `CreatureNFTBridge.sol`

The lock/mint bridge of one chain, together with the token contract it is wired to: a bridge call
writes both. `out` is the log of the `BridgeOut` events.

A token that arrived over the bridge is burned when it leaves again, and the burn asks for a token
held by the *token contract*, while `bridgeOut` has just moved it to the *bridge*. So a mirror never
leaves (`mirror_never_leaves`). -/

namespace ChainBeasts.Contracts

open ChainBeasts.Evm ChainBeasts.Machine

/-- The addresses and the chain id one deployment of the two contracts has. -/
structure Deployment where
  chainId : U256
  nftAddr : Address
  bridgeAddr : Address
  distinct : bridgeAddr ≠ nftAddr
  bridge_ne_zero : bridgeAddr ≠ zeroAddress

structure CreatureNFTBridge where
  verifier : Address
  locked : U256 → Bool
  mirror : U256 → Bool
  processed : Bytes32 → Bool

/-- The `BridgeOut` event. -/
structure BridgeOut where
  tokenId : U256
  owner : Address
  dstChainId : U256
  genesisWeights : Bytes
  dna : Bytes32
  rootHash : Bytes32
  deriving DecidableEq

/-- One chain: the token contract, its bridge, and the departures the bridge has announced. -/
structure Chain where
  nft : CreatureNFT
  bridge : CreatureNFTBridge
  out : List BridgeOut

namespace Chain

/-- Both contracts deployed and wired: `nft.setBridge(bridge)` has been called. -/
def deploy (d : Deployment) (verifier : Address) : Chain where
  nft := { CreatureNFT.deploy with bridge := d.bridgeAddr }
  bridge := ⟨verifier, fun _ => false, fun _ => false, fun _ => false⟩
  out := []

/-- The buffer both directions hash: token, account, source chain, weights and dna. The destination
is not part of it. -/
def preimage (tokenId : U256) (account : Address) (srcChainId : U256) (genesisWeights : Bytes)
    (dna : Bytes32) : Bytes :=
  Packed.encode ⟨tokenId, account, srcChainId, genesisWeights, dna⟩

/-- The branch of `bridgeOut`: a mirror is moved to the bridge and burned, any other token is moved
to the bridge and locked. -/
def depart (d : Deployment) (s : Chain) (sender : Address) (tokenId : U256) : Option Chain :=
  if s.bridge.mirror tokenId then do
    let held ← s.nft.transferFrom d.bridgeAddr sender d.bridgeAddr tokenId
    let nft ← held.burnFromBridge d.nftAddr d.bridgeAddr tokenId
    let mirror := Function.update s.bridge.mirror tokenId false
    return { s with nft, bridge := { s.bridge with mirror } }
  else do
    let nft ← s.nft.transferFrom d.bridgeAddr sender d.bridgeAddr tokenId
    let locked := Function.update s.bridge.locked tokenId true
    return { s with nft, bridge := { s.bridge with locked } }

def bridgeOut (keccak256 : Bytes → Bytes32) (d : Deployment) (s : Chain) (sender : Address)
    (tokenId dstChainId : U256) : Option Chain := do
  require (s.nft.ownerOf tokenId = sender)
  let info := s.nft.creatures tokenId
  let rootHash := keccak256 (preimage tokenId sender d.chainId info.genesisWeights info.dna)
  let left ← s.depart d sender tokenId
  let event : BridgeOut :=
    ⟨tokenId, sender, dstChainId, info.genesisWeights, info.dna, rootHash⟩
  return { left with out := left.out ++ [event] }

/-- The branch of `bridgeIn`: a token locked here is released, any other is minted as a mirror. -/
def arrive (d : Deployment) (s : Chain) (env : CreatureNFT.Env) (tokenId : U256) (toAddr : Address)
    (genesisWeights : Bytes) (dna : Bytes32) : Option Chain :=
  if s.bridge.locked tokenId then do
    let locked := Function.update s.bridge.locked tokenId false
    let nft ← s.nft.transferFrom d.bridgeAddr d.bridgeAddr toAddr tokenId
    return { s with nft, bridge := { s.bridge with locked } }
  else do
    let nft ← s.nft.mintFromBridge env d.bridgeAddr toAddr tokenId genesisWeights dna
    let mirror := Function.update s.bridge.mirror tokenId true
    return { s with nft, bridge := { s.bridge with mirror } }

/-- `verify` is what `verifier.verify` answers at the moment of the call. The source reads neither
`dstChainId` nor `proof`. -/
def bridgeIn (keccak256 : Bytes → Bytes32) (d : Deployment) (verify : Bytes32 → Bool) (s : Chain)
    (env : CreatureNFT.Env) (tokenId : U256) (toAddr : Address) (srcChainId _dstChainId : U256)
    (genesisWeights : Bytes) (dna : Bytes32) (_proof : Bytes) : Option Chain := do
  let rootHash := keccak256 (preimage tokenId toAddr srcChainId genesisWeights dna)
  require (¬ s.bridge.processed rootHash)
  require (s.bridge.verifier ≠ zeroAddress → verify rootHash = true)
  let processed := Function.update s.bridge.processed rootHash true
  let accepted : Chain := { s with bridge := { s.bridge with processed } }
  accepted.arrive d env tokenId toAddr genesisWeights dna

/-- The external functions of both contracts. -/
inductive Call where
  | nft (env : CreatureNFT.Env) (call : CreatureNFT.Call)
  | bridgeOut (tokenId dstChainId : U256)
  | bridgeIn (env : CreatureNFT.Env) (tokenId : U256) (toAddr : Address)
      (srcChainId dstChainId : U256) (genesisWeights : Bytes) (dna : Bytes32) (proof : Bytes)

/-- Anyone but the two contracts: these act through their code only, so no transaction carries
their address, and none carries the zero address. -/
def IsUser (d : Deployment) (a : Address) : Prop :=
  a ≠ zeroAddress ∧ a ≠ d.nftAddr ∧ a ≠ d.bridgeAddr

instance (d : Deployment) (a : Address) : Decidable (IsUser d a) :=
  inferInstanceAs (Decidable (_ ∧ _ ∧ _))

def step (keccak256 : Bytes → Bytes32) (d : Deployment) (verify : Bytes32 → Bool) (s : Chain)
    (tx : Tx Call) : Option Chain := do
  require (IsUser d tx.sender)
  match tx.call with
  | .nft env call =>
      (s.nft.step keccak256 d.nftAddr env tx.sender call).map fun nft => { s with nft }
  | .bridgeOut tokenId dstChainId => s.bridgeOut keccak256 d tx.sender tokenId dstChainId
  | .bridgeIn env tokenId toAddr srcChainId dstChainId genesisWeights dna proof =>
      s.bridgeIn keccak256 d verify env tokenId toAddr srcChainId dstChainId genesisWeights dna
        proof

/-- The chain after the transactions `txs`, each with the answers its verifier gives. -/
def run (keccak256 : Bytes → Bytes32) (d : Deployment) (verifier : Address)
    (txs : List ((Bytes32 → Bool) × Tx Call)) : Chain :=
  exec (revert fun s (vtx : (Bytes32 → Bool) × Tx Call) => step keccak256 d vtx.1 s vtx.2)
    (deploy d verifier) txs

/-! ## What the bridge functions can do -/

variable {keccak256 : Bytes → Bytes32} {d : Deployment} {verify : Bytes32 → Bool} {s s' : Chain}

/-- **A mirror is stuck.** Its departure moves it to the bridge and then asks for a token held by
the token contract. -/
theorem depart_mirror {sender : Address} {t : U256} (h : s.bridge.mirror t = true) :
    s.depart d sender t = none := by
  rw [Option.eq_none_iff_forall_ne_some]
  intro s' hs
  simp only [depart, h, if_true, Option.bind_eq_bind, Option.bind_eq_some_iff] at hs
  obtain ⟨held, hheld, nft, hburn, -⟩ := hs
  obtain ⟨-, -, rfl⟩ := CreatureNFT.transferFrom_cases hheld
  obtain ⟨-, howner, -⟩ := CreatureNFT.burnFromBridge_cases hburn
  simp only [Function.update_self] at howner
  exact d.distinct howner

/-- An accepted departure is one of a token that is no mirror: it is locked. -/
theorem bridgeOut_cases {sender : Address} {t dst : U256}
    (h : s.bridgeOut keccak256 d sender t dst = some s') :
    s.nft.ownerOf t = sender ∧ s.bridge.mirror t = false ∧
      s' = { nft := { s.nft with
               ownerOf := Function.update s.nft.ownerOf t d.bridgeAddr
               getApproved := Function.update s.nft.getApproved t zeroAddress }
             bridge := { s.bridge with locked := Function.update s.bridge.locked t true }
             out := s.out ++ [⟨t, sender, dst, (s.nft.creatures t).genesisWeights,
               (s.nft.creatures t).dna, keccak256 (preimage t sender d.chainId
                 (s.nft.creatures t).genesisWeights (s.nft.creatures t).dna)⟩] } := by
  simp only [bridgeOut, Option.bind_eq_bind, Option.bind_eq_some_iff, require_eq_some,
    Option.pure_def, Option.some.injEq] at h
  obtain ⟨_, howner, left, hleft, rfl⟩ := h
  have hmirror : s.bridge.mirror t = false := by
    cases hm : s.bridge.mirror t with
    | false => rfl
    | true => rw [depart_mirror hm] at hleft; exact absurd hleft (by simp)
  simp only [depart, hmirror, Bool.false_eq_true, if_false, Option.bind_eq_bind,
    Option.bind_eq_some_iff, Option.pure_def, Option.some.injEq] at hleft
  obtain ⟨nft, hnft, rfl⟩ := hleft
  obtain ⟨-, -, rfl⟩ := CreatureNFT.transferFrom_cases hnft
  exact ⟨howner, hmirror, rfl⟩

/-- An accepted arrival has an unprocessed, verified root, and either releases a token locked here
or mints one that has no owner. -/
theorem bridgeIn_cases {env : CreatureNFT.Env} {t src dst : U256} {toAddr : Address} {w proof : Bytes}
    {dna : Bytes32} (h : s.bridgeIn keccak256 d verify env t toAddr src dst w dna proof = some s') :
    let root := keccak256 (preimage t toAddr src w dna)
    s.bridge.processed root = false ∧ (s.bridge.verifier ≠ zeroAddress → verify root = true) ∧
      s'.out = s.out ∧ s'.bridge.processed = Function.update s.bridge.processed root true ∧
      s'.bridge.verifier = s.bridge.verifier ∧
      (s.bridge.locked t = true ∧
          s.nft.transferFrom d.bridgeAddr d.bridgeAddr toAddr t = some s'.nft ∧
          s'.bridge.locked = Function.update s.bridge.locked t false ∧
          s'.bridge.mirror = s.bridge.mirror ∨
        s.bridge.locked t = false ∧
          s.nft.mintFromBridge env d.bridgeAddr toAddr t w dna = some s'.nft ∧
          s'.bridge.locked = s.bridge.locked ∧
          s'.bridge.mirror = Function.update s.bridge.mirror t true) := by
  simp only [bridgeIn, Option.bind_eq_bind, Option.bind_eq_some_iff, require_eq_some] at h
  obtain ⟨_, hproc, _, hver, h⟩ := h
  refine ⟨by simpa using hproc, hver, ?_⟩
  unfold arrive at h
  split at h
  · next hlocked =>
      simp only [Option.bind_eq_bind, Option.bind_eq_some_iff, Option.pure_def,
        Option.some.injEq] at h
      obtain ⟨nft, hnft, rfl⟩ := h
      exact ⟨rfl, rfl, rfl, Or.inl ⟨hlocked, hnft, rfl, rfl⟩⟩
  · next hlocked =>
      simp only [Option.bind_eq_bind, Option.bind_eq_some_iff, Option.pure_def,
        Option.some.injEq] at h
      obtain ⟨nft, hnft, rfl⟩ := h
      exact ⟨rfl, rfl, rfl, Or.inr ⟨by simpa using hlocked, hnft, rfl, rfl⟩⟩

/-! ## A mirror never leaves -/

/-- The departure of a mirror as intended: the call succeeds and the token is gone from this chain,
its record deleted. -/
def CanLeave (keccak256 : Bytes → Bytes32) (d : Deployment) (s : Chain) (owner : Address)
    (t dst : U256) : Prop :=
  ∃ s', s.bridgeOut keccak256 d owner t dst = some s' ∧ s'.nft.ownerOf t = zeroAddress ∧
    s'.bridge.mirror t = false ∧ s'.nft.creatures t = .empty

theorem bridgeOut_mirror {sender : Address} {t dst : U256} (h : s.bridge.mirror t = true) :
    s.bridgeOut keccak256 d sender t dst = none := by
  rw [Option.eq_none_iff_forall_ne_some]
  intro s' hs
  obtain ⟨-, hmirror, -⟩ := bridgeOut_cases hs
  rw [h] at hmirror
  exact absurd hmirror (by simp)

/-- **Never.** In every reachable state, for every mirror, destination and caller: the departure
fails, approved or not. -/
theorem mirror_never_leaves (keccak256 : Bytes → Bytes32) (d : Deployment) (verifier : Address)
    (txs : List ((Bytes32 → Bool) × Tx Call)) (sender : Address) {t : U256} (dst : U256)
    (hmirror : (run keccak256 d verifier txs).bridge.mirror t = true) :
    ¬ (run keccak256 d verifier txs).CanLeave keccak256 d sender t dst := by
  rintro ⟨s', hs, -⟩
  rw [bridgeOut_mirror hmirror] at hs
  exact absurd hs (by simp)

/-- A deployment on chain 1, and a digest for concrete runs. -/
def sampleDeployment : Deployment := ⟨1, 10, 11, by decide, by decide⟩

def sampleDigest (bs : Bytes) : Bytes32 :=
  BitVec.ofNat 256 (bs.foldl (fun acc b => acc * 257 + b.toNat + 1) 0)

/-- Token 5 arrives for account 7, who approves the bridge. -/
def mirrorOfSeven : List ((Bytes32 → Bool) × Tx Call) :=
  [(fun _ => true, ⟨7, .bridgeIn ⟨0, 0, false⟩ 5 7 2 1 [1, 2] 3 []⟩),
    (fun _ => true, ⟨7, .nft ⟨0, 0, false⟩ (.approve 11 5)⟩)]

theorem mirror_never_leaves_seven :
    ¬ (run sampleDigest sampleDeployment 12 mirrorOfSeven).CanLeave sampleDigest sampleDeployment
      7 5 2 :=
  mirror_never_leaves _ _ _ _ _ _ (by decide)

/-- The mirror's owner has approved the bridge, and still the departure fails. -/
theorem approved_mirror_stuck :
    let s := run sampleDigest sampleDeployment 12 mirrorOfSeven
    s.bridge.mirror 5 = true ∧ s.nft.ownerOf 5 = 7 ∧ s.nft.getApproved 5 = 11 ∧
      s.nft.bridge = sampleDeployment.bridgeAddr ∧
      ¬ s.CanLeave sampleDigest sampleDeployment 7 5 2 := by
  refine ⟨by decide, by decide, by decide, by decide, ?_⟩
  rintro ⟨s', hs, -⟩
  rw [bridgeOut_mirror (by decide)] at hs
  exact absurd hs (by simp)

end Chain

end ChainBeasts.Contracts
