import ChainBeasts.Client.Bracket
import ChainBeasts.Contracts.BridgeCustody

/-! # The bridge page

`bridgeOut` of `bridge.ts` hands two transactions to the wallet: the approval of the bridge, and the
departure. It does not wait for the first to be mined, and what others send may come between the
two. The departure is accepted all the same exactly where the account owned the token to begin with
and the token is no mirror, see `page_departs`. -/

namespace ChainBeasts.Client.Bridge

open ChainBeasts.Evm ChainBeasts.Contracts ChainBeasts.Machine
open ChainBeasts.Contracts.Chain (IsUser)
open ChainBeasts.Onchain (text Spells)
open ChainBeasts.Pouw.ProofSystem (toHex)

/-! ## The page -/

structure Page where
  bridgeAddr : Bytes
  nftAddr : Bytes

def approveSelector : Bytes := text "095ea7b3"
def bridgeOutSelector : Bytes := text "57c74f6e"

def approveTx (page : Page) (tokenId : Nat) : Transaction :=
  let approveData := approveSelector ++ encAddr page.bridgeAddr ++ encUint tokenId
  { toAddr := page.nftAddr, data := text "0x" ++ approveData }

def departTx (page : Page) (tokenId dstChainId : Nat) : Transaction :=
  let data := bridgeOutSelector ++ encUint tokenId ++ encUint dstChainId
  { toAddr := page.bridgeAddr, data := text "0x" ++ data }

/-- What the wallet is handed and takes, in order: the first it refuses ends the call. -/
def bridgeOut (page : Page) (takes : Transaction → Bool) (tokenId dstChainId : Nat) :
    List Transaction :=
  [approveTx page tokenId, departTx page tokenId dstChainId].takeWhile takes

theorem bridgeOut_taken (page : Page) (tokenId dstChainId : Nat) :
    bridgeOut page (fun _ => true) tokenId dstChainId =
      [approveTx page tokenId, departTx page tokenId dstChainId] := rfl

/-! ## The contracts -/

/-- The contracts take the call out of the transaction. -/
inductive Asks (d : Deployment) (tx : Transaction) : Chain.Call → Prop
  | approve {args : Bytes} {toAddr : Address} {tokenId : U256} (env : CreatureNFT.Env)
      (callee : Names tx.toAddr d.nftAddr) (carries : tx.Carries [0x09, 0x5e, 0xa7, 0xb3] args)
      (approved : Abi.addressAt args 0 = some toAddr) (token : Abi.wordAt args 32 = some tokenId) :
      Asks d tx (.nft env (.approve toAddr tokenId))
  | bridgeOut {args : Bytes} {tokenId dstChainId : U256} (callee : Names tx.toAddr d.bridgeAddr)
      (carries : tx.Carries [0x57, 0xc7, 0x4f, 0x6e] args)
      (token : Abi.wordAt args 0 = some tokenId) (destination : Abi.wordAt args 32 = some dstChainId) :
      Asks d tx (.bridgeOut tokenId dstChainId)

/-- The two words that a call has for arguments. -/
theorem read_pair (v w : U256) : Abi.wordAt (packWord v ++ packWord w) 0 = some v ∧
    Abi.wordAt (packWord v ++ packWord w) 32 = some w := by
  refine ⟨Abi.wordAt_packWord v _, ?_⟩
  have hsecond := Abi.wordAt_packWord_add v (packWord w ++ []) 0
  rw [Abi.wordAt_packWord, List.append_nil] at hsecond
  exact hsecond

section Layout

variable {page : Page} {d : Deployment} {call : Chain.Call}

theorem approveTx_carries (hbridge : Names page.bridgeAddr d.bridgeAddr) (t : U256) :
    (approveTx page t.toNat).Carries [0x09, 0x5e, 0xa7, 0xb3]
      (packWord (d.bridgeAddr.setWidth 256) ++ packWord t) := by
  have hselector : Spells approveSelector [0x09, 0x5e, 0xa7, 0xb3] :=
    Onchain.spells_to_hex [0x09, 0x5e, 0xa7, 0xb3]
  refine ⟨_, rfl, ?_⟩
  rw [← List.append_assoc]
  exact (hselector.append (spells_encAddr hbridge)).append (spells_encUint t)

theorem departTx_carries (page : Page) (t dst : U256) :
    (departTx page t.toNat dst.toNat).Carries [0x57, 0xc7, 0x4f, 0x6e]
      (packWord t ++ packWord dst) := by
  have hselector : Spells bridgeOutSelector [0x57, 0xc7, 0x4f, 0x6e] :=
    Onchain.spells_to_hex [0x57, 0xc7, 0x4f, 0x6e]
  refine ⟨_, rfl, ?_⟩
  rw [← List.append_assoc]
  exact (hselector.append (spells_encUint t)).append (spells_encUint dst)

/-- The first transaction is the approval of the bridge. -/
theorem approveTx_asks (hbridge : Names page.bridgeAddr d.bridgeAddr)
    (hnft : Names page.nftAddr d.nftAddr) (t : U256) (env : CreatureNFT.Env) :
    Asks d (approveTx page t.toNat) (.nft env (.approve d.bridgeAddr t)) := by
  obtain ⟨hfirst, hsecond⟩ := read_pair (d.bridgeAddr.setWidth 256) t
  exact .approve env hnft (approveTx_carries hbridge t) (Abi.addressAt_eq_some.mpr hfirst) hsecond

theorem departTx_asks (hbridge : Names page.bridgeAddr d.bridgeAddr) (t dst : U256) :
    Asks d (departTx page t.toNat dst.toNat) (.bridgeOut t dst) := by
  obtain ⟨hfirst, hsecond⟩ := read_pair t dst
  exact .bridgeOut hbridge (departTx_carries page t dst) hfirst hsecond

/-- A contract takes no other call out of the first transaction. -/
theorem Asks.of_approveTx (hbridge : Names page.bridgeAddr d.bridgeAddr)
    (hnft : Names page.nftAddr d.nftAddr) {t : U256} (h : Asks d (approveTx page t.toNat) call) :
    ∃ env, call = .nft env (.approve d.bridgeAddr t) := by
  obtain ⟨hfirst, hsecond⟩ := read_pair (d.bridgeAddr.setWidth 256) t
  cases h with
  | approve env callee carries approved token =>
      have hargs := carries.unique (approveTx_carries hbridge t)
      rw [hargs, Abi.addressAt_eq_some.mpr hfirst, Option.some.injEq] at approved
      rw [hargs, hsecond, Option.some.injEq] at token
      exact ⟨env, by rw [approved, token]⟩
  -- the token contract is not the bridge
  | bridgeOut callee carries token destination => exact absurd (callee.unique hnft) d.distinct

theorem Asks.of_departTx (hbridge : Names page.bridgeAddr d.bridgeAddr) {t dst : U256}
    (h : Asks d (departTx page t.toNat dst.toNat) call) : call = .bridgeOut t dst := by
  obtain ⟨hfirst, hsecond⟩ := read_pair t dst
  cases h with
  | approve env callee carries approved token =>
      exact absurd (hbridge.unique callee) d.distinct
  | bridgeOut callee carries token destination =>
      have hargs := carries.unique (departTx_carries page t dst)
      rw [hargs, hfirst, Option.some.injEq] at token
      rw [hargs, hsecond, Option.some.injEq] at destination
      rw [token, destination]

end Layout

/-! ## Between the two transactions -/

section Between

variable {keccak256 : Bytes → Bytes32} {d : Deployment} {verify : Bytes32 → Bool} {s s' : Chain}
  {a : Address} {t : U256} {tx : Tx Chain.Call}

/-- What the approval leaves: the token is the account's, and only the bridge may move it. -/
structure Pending (d : Deployment) (s : Chain) (a : Address) (t : U256) (m : Bool) (c : Creature) :
    Prop where
  owner : s.nft.ownerOf t = a
  approved : s.nft.getApproved t = d.bridgeAddr
  mirror : s.bridge.mirror t = m
  creature : s.nft.creatures t = c

/-- The account has not approved the bridge for the token. -/
def Idle (s : Chain) (a : Address) (t : U256) : Prop :=
  s.nft.ownerOf t = a → s.nft.getApproved t = zeroAddress

/-- No call of another user on the token contract touches the token. -/
theorem Pending.of_nft {m : Bool} {c : Creature} (hs : s.Settled d) (ha : IsUser d a)
    (hp : Pending d s a t m c) (hu : IsUser d tx.sender) (hother : tx.sender ≠ a)
    {env : CreatureNFT.Env} {call : CreatureNFT.Call} {nft : CreatureNFT}
    (h : s.nft.step keccak256 d.nftAddr env tx.sender call = some nft) :
    Pending d { s with nft } a t m c := by
  have huser : tx.sender ≠ s.nft.bridge := by
    rw [hs.bridge]
    exact hu.2.2
  have hborn : t ≠ s.nft.nextId := by
    rintro rfl
    exact ha.1 (hp.owner.symm.trans (hs.fresh _ (Nat.le_refl _)))
  have hcreature : nft.creatures t = c :=
    (CreatureNFT.user_creature huser h hborn).trans hp.creature
  obtain ⟨hmove, -⟩ := CreatureNFT.step_user (by rw [hs.bridge]; exact d.bridge_ne_zero) huser h
  cases hmove with
  | quiet owners approvals ids log =>
      exact ⟨by rw [owners, hp.owner], by rw [approvals, hp.approved], hp.mirror, hcreature⟩
  | approved u toAddr owner owners approvals ids log =>
      have hne : t ≠ u := by
        rintro rfl
        exact hother (owner.symm.trans hp.owner)
      exact ⟨by rw [owners, hp.owner], by rw [approvals, Function.update_of_ne hne, hp.approved],
        hp.mirror, hcreature⟩
  | moved u toAddr auth owners approvals ids log =>
      have hne : t ≠ u := by
        rintro rfl
        rw [hp.owner, hp.approved] at auth
        exact auth.elim hother hu.2.2
      exact ⟨by rw [owners, Function.update_of_ne hne, hp.owner],
        by rw [approvals, Function.update_of_ne hne, hp.approved], hp.mirror, hcreature⟩
  | hatched owner owners approvals ids log =>
      exact ⟨by rw [owners, Function.update_of_ne hborn, hp.owner],
        by rw [approvals, hp.approved], hp.mirror, hcreature⟩

/-- **The approval stands** while only others call. -/
theorem Pending.step {m : Bool} {c : Creature} (hs : s.Custody d) (ha : IsUser d a)
    (hp : Pending d s a t m c) (hother : tx.sender ≠ a)
    (h : Chain.step keccak256 d verify s tx = some s') : Pending d s' a t m c := by
  obtain ⟨hu, hcall⟩ := Chain.step_cases h
  rcases hcall with ⟨env, call, nft, -, rfl, hnft⟩ | ⟨u, dst, -, hout⟩ |
    ⟨env, u, toAddr, src, dst, w, dna, proof, -, hin⟩
  · exact hp.of_nft hs.settled ha hu hother hnft
  · obtain ⟨howner, -, rfl⟩ := Chain.bridgeOut_cases hout
    have hne : t ≠ u := by
      rintro rfl
      exact hother (howner.symm.trans hp.owner)
    exact ⟨(Function.update_of_ne hne _ _).trans hp.owner,
      (Function.update_of_ne hne _ _).trans hp.approved, hp.mirror, hp.creature⟩
  · obtain ⟨-, -, -, -, -, hcase⟩ := Chain.bridgeIn_cases hin
    rcases hcase with ⟨hlocked, hmove, -, hmirrors⟩ | ⟨-, hmint, -, hmirrors⟩
    · obtain ⟨-, -, hnft⟩ := CreatureNFT.transferFrom_cases hmove
      -- what is locked is the bridge's
      have hne : t ≠ u := by
        rintro rfl
        exact ha.2.2 (hp.owner.symm.trans (hs.held t hlocked))
      refine ⟨?_, ?_, by rw [hmirrors, hp.mirror], by rw [hnft, hp.creature]⟩
      · rw [hnft]
        exact (Function.update_of_ne hne _ _).trans hp.owner
      · rw [hnft]
        exact (Function.update_of_ne hne _ _).trans hp.approved
    · obtain ⟨-, hunowned, nextId, -, hnft⟩ := CreatureNFT.mintFromBridge_cases hmint
      have hne : t ≠ u := by
        rintro rfl
        exact ha.1 (hp.owner.symm.trans hunowned)
      refine ⟨?_, by rw [hnft, hp.approved], ?_, ?_⟩
      · rw [hnft]
        exact (Function.update_of_ne hne _ _).trans hp.owner
      · rw [hmirrors, Function.update_of_ne hne, hp.mirror]
      · rw [hnft]
        exact (Function.update_of_ne hne _ _).trans hp.creature

/-- A token that comes to the account comes without an approval. -/
theorem Idle.step (hs : s.Custody d) (hi : Idle s a t) (hother : tx.sender ≠ a)
    (h : Chain.step keccak256 d verify s tx = some s') : Idle s' a t := by
  obtain ⟨hu, hcall⟩ := Chain.step_cases h
  rcases hcall with ⟨env, call, nft, -, rfl, hnft⟩ | ⟨u, dst, -, hout⟩ |
    ⟨env, u, toAddr, src, dst, w, dna, proof, -, hin⟩
  · obtain ⟨hmove, -⟩ := CreatureNFT.step_user
      (by rw [hs.settled.bridge]; exact d.bridge_ne_zero)
      (by rw [hs.settled.bridge]; exact hu.2.2) hnft
    show nft.ownerOf t = a → nft.getApproved t = zeroAddress
    cases hmove with
    | quiet owners approvals ids log =>
        rw [owners, approvals]
        exact hi
    | approved u toAddr owner owners approvals ids log =>
        rw [owners, approvals]
        intro hown
        have hne : t ≠ u := by
          rintro rfl
          exact hother (owner.symm.trans hown)
        rw [Function.update_of_ne hne]
        exact hi hown
    | moved u toAddr auth owners approvals ids log =>
        rw [owners, approvals]
        by_cases hut : t = u
        · rw [hut, Function.update_self, Function.update_self]
          exact fun _ => rfl
        · rw [Function.update_of_ne hut, Function.update_of_ne hut]
          exact hi
    | hatched owner owners approvals ids log =>
        rw [owners, approvals]
        by_cases hborn : t = s.nft.nextId
        · intro _
          by_contra happroved
          exact (hs.settled.approved t happroved).1 (hs.settled.fresh t (by rw [hborn]))
        · rw [Function.update_of_ne hborn]
          exact hi
  · obtain ⟨-, -, rfl⟩ := Chain.bridgeOut_cases hout
    by_cases hut : t = u
    · intro _
      rw [hut]
      exact Function.update_self _ _ _
    · intro hown
      have hold := hi ((Function.update_of_ne hut _ _).symm.trans hown)
      exact (Function.update_of_ne hut _ _).trans hold
  · obtain ⟨-, -, -, -, -, hcase⟩ := Chain.bridgeIn_cases hin
    rcases hcase with ⟨-, hmove, -, -⟩ | ⟨-, hmint, -, -⟩
    · obtain ⟨-, -, hnft⟩ := CreatureNFT.transferFrom_cases hmove
      rw [Idle, hnft]
      by_cases hut : t = u
      · intro _
        rw [hut]
        exact Function.update_self _ _ _
      · intro hown
        exact (Function.update_of_ne hut _ _).trans
          (hi ((Function.update_of_ne hut _ _).symm.trans hown))
    · obtain ⟨-, hunowned, nextId, -, hnft⟩ := CreatureNFT.mintFromBridge_cases hmint
      rw [Idle, hnft]
      by_cases hut : t = u
      · intro _
        by_contra happroved
        exact (hs.settled.approved t happroved).1 (by rw [hut, hunowned])
      · intro hown
        exact hi ((Function.update_of_ne hut _ _).symm.trans hown)

variable {between : List ((Bytes32 → Bool) × Tx Chain.Call)}

/-- The calls of others, run from a state of a run. -/
def others (keccak256 : Bytes → Bytes32) (d : Deployment) (s : Chain)
    (between : List ((Bytes32 → Bool) × Tx Chain.Call)) : Chain :=
  exec (revert fun s (e : (Bytes32 → Bool) × Tx Chain.Call) => Chain.step keccak256 d e.1 s e.2) s
    between

theorem Pending.others {m : Bool} {c : Creature} (hs : s.Custody d) (ha : IsUser d a)
    (hp : Pending d s a t m c) (hothers : ∀ e ∈ between, e.2.sender ≠ a) :
    Pending d (others keccak256 d s between) a t m c := by
  refine (trace_induction (fun m => m.call.2.sender ≠ a)
    (fun s _ => s.Custody d ∧ Pending d s a t m c) ⟨hs, hp⟩ ?_ between
    fun m hm => hothers _ (mem_of_mem_trace hm)).2
  rintro s tr e s' ⟨hs, hp⟩ hcall hother
  exact ⟨hs.step hcall, hp.step hs ha hother hcall⟩

theorem Idle.others (hs : s.Custody d) (hi : Idle s a t)
    (hothers : ∀ e ∈ between, e.2.sender ≠ a) : Idle (others keccak256 d s between) a t := by
  refine (trace_induction (fun m => m.call.2.sender ≠ a) (fun s _ => s.Custody d ∧ Idle s a t)
    ⟨hs, hi⟩ ?_ between fun m hm => hothers _ (mem_of_mem_trace hm)).2
  rintro s tr e s' ⟨hs, hi⟩ hcall hother
  exact ⟨hs.step hcall, hi.step hs hother hcall⟩

end Between

/-! ## Both transactions -/

section Departure

variable {keccak256 : Bytes → Bytes32} {d : Deployment} {verify : Bytes32 → Bool} {s s' : Chain}
  {a : Address} {t dst : U256}

/-- The token is locked, and the departure announced with the record the token had in `s`. -/
structure Departed (keccak256 : Bytes → Bytes32) (d : Deployment) (s mid after : Chain) (a : Address)
    (t dst : U256) : Prop where
  owner : after.nft.ownerOf t = d.bridgeAddr
  locked : after.bridge.locked t = true
  out : after.out = mid.out ++ [⟨t, a, dst, (s.nft.creatures t).genesisWeights,
    (s.nft.creatures t).dna, keccak256 (Chain.preimage t a d.chainId
      (s.nft.creatures t).genesisWeights (s.nft.creatures t).dna)⟩]

variable (keccak256 verify) in
theorem approve_owned (env : CreatureNFT.Env) (ha : IsUser d a) (howner : s.nft.ownerOf t = a) :
    Chain.step keccak256 d verify s ⟨a, .nft env (.approve d.bridgeAddr t)⟩ =
      some { s with nft := { s.nft with
        getApproved := Function.update s.nft.getApproved t d.bridgeAddr } } := by
  simp [Chain.step, CreatureNFT.step, CreatureNFT.approve, require, ha, howner]

variable (keccak256 d verify) in
theorem approve_foreign (env : CreatureNFT.Env) (howner : s.nft.ownerOf t ≠ a) :
    Chain.step keccak256 d verify s ⟨a, .nft env (.approve d.bridgeAddr t)⟩ = none := by
  simp [Chain.step, CreatureNFT.step, CreatureNFT.approve, require, howner]

variable (keccak256 verify dst) in
/-- Where the approval stands and the token is no mirror, the departure is accepted. -/
theorem Pending.departs {mid : Chain} (ha : IsUser d a)
    (hp : Pending d mid a t false (s.nft.creatures t)) :
    ∃ after, Chain.step keccak256 d verify mid ⟨a, .bridgeOut t dst⟩ = some after ∧
      Departed keccak256 d s mid after a t dst := by
  obtain ⟨howner, happroved, hmirror, hcreature⟩ := hp
  have hmoved : mid.nft.transferFrom d.bridgeAddr a d.bridgeAddr t = some { mid.nft with
      ownerOf := Function.update mid.nft.ownerOf t d.bridgeAddr
      getApproved := Function.update mid.nft.getApproved t zeroAddress } := by
    simp [CreatureNFT.transferFrom, require, howner, happroved]
  simp only [Chain.step, Chain.bridgeOut, Chain.depart, require, ha, howner, hmirror, hmoved,
    hcreature, if_true, Bool.false_eq_true, if_false, Option.bind_eq_bind, Option.bind_some,
    Option.pure_def, Option.some.injEq, exists_eq_left']
  exact ⟨Function.update_self _ _ _, Function.update_self _ _ _, rfl⟩

/-- A token departs only for its owner, as no mirror, and with the bridge approved. -/
theorem departure_cases (ha : IsUser d a)
    (h : Chain.step keccak256 d verify s ⟨a, .bridgeOut t dst⟩ = some s') :
    s.nft.ownerOf t = a ∧ s.nft.getApproved t = d.bridgeAddr ∧ s.bridge.mirror t = false := by
  simp only [Chain.step, Option.bind_eq_bind, Option.bind_eq_some_iff] at h
  obtain ⟨_, -, hout⟩ := h
  obtain ⟨howner, hmirror, -⟩ := Chain.bridgeOut_cases hout
  refine ⟨howner, ?_, hmirror⟩
  simp only [Chain.bridgeOut, Chain.depart, hmirror, Bool.false_eq_true, if_false,
    Option.bind_eq_bind, Option.bind_eq_some_iff] at hout
  obtain ⟨_, -, left, ⟨nft, hmove, -⟩, -⟩ := hout
  obtain ⟨-, hauth, -⟩ := CreatureNFT.transferFrom_cases hmove
  exact (hauth.resolve_left ha.2.2.symm).symm

/-- **When the departure is accepted.** An account has the page send both its transactions, and
others' come before, between and after them, in any number. If the account owns the token when the
first is mined, and the token is no mirror, then the second locks it and announces the record it had
then; in every other case the second changes nothing. -/
theorem page_departs (keccak256 : Bytes → Bytes32) (d : Deployment) (verifier : Address)
    (before between : List ((Bytes32 → Bool) × Tx Chain.Call)) {a : Address} (ha : IsUser d a)
    (hothers : ∀ e ∈ between, e.2.sender ≠ a) {page : Page}
    (hbridge : Names page.bridgeAddr d.bridgeAddr) (hnft : Names page.nftAddr d.nftAddr)
    (takes : Transaction → Bool) (t dst : U256) {first second : Transaction}
    (hsent : bridgeOut page takes t.toNat dst.toNat = [first, second])
    {approval departure : Chain.Call}
    (happroval : Asks d first approval) (hdeparture : Asks d second departure)
    (verify verify' : Bytes32 → Bool) :
    let s := Chain.run keccak256 d verifier before
    let upTo := before ++ (verify, ⟨a, approval⟩) :: between
    let mid := Chain.run keccak256 d verifier upTo
    let after := Chain.run keccak256 d verifier (upTo ++ [(verify', ⟨a, departure⟩)])
    (s.nft.ownerOf t = a ∧ s.bridge.mirror t = false → Departed keccak256 d s mid after a t dst) ∧
      (¬ (s.nft.ownerOf t = a ∧ s.bridge.mirror t = false) → after = mid) := by
  obtain ⟨rfl, rfl⟩ : approveTx page t.toNat = first ∧ departTx page t.toNat dst.toNat = second := by
    unfold bridgeOut at hsent
    simp only [List.takeWhile_cons, List.takeWhile_nil] at hsent
    split at hsent
    · split at hsent
      · cases hsent
        exact ⟨rfl, rfl⟩
      · cases hsent
    · cases hsent
  obtain ⟨env, rfl⟩ := happroval.of_approveTx hbridge hnft
  obtain rfl := hdeparture.of_departTx hbridge
  intro s upTo mid after
  have hs : s.Custody d := Chain.run_custody keccak256 d verifier before
  have hmid : mid = others keccak256 d
      (revert (fun s (e : (Bytes32 → Bool) × Tx Chain.Call) => Chain.step keccak256 d e.1 s e.2) s
        (verify, ⟨a, .nft env (.approve d.bridgeAddr t)⟩)) between := by
    show exec _ _ (before ++ _ :: between) = _
    rw [exec_append, exec_cons]
    rfl
  have hafter : after = revert (fun s (e : (Bytes32 → Bool) × Tx Chain.Call) =>
      Chain.step keccak256 d e.1 s e.2) mid (verify', ⟨a, .bridgeOut t dst⟩) := exec_concat _ _ _ _
  have hrefused (h : ∀ s', Chain.step keccak256 d verify' mid ⟨a, .bridgeOut t dst⟩ ≠ some s') :
      after = mid :=
    hafter.trans (revert_none (Option.eq_none_iff_forall_ne_some.mpr h))
  by_cases howner : s.nft.ownerOf t = a
  · have hfirst := approve_owned keccak256 verify env ha howner
    have hmid := hmid.trans (congrArg (others keccak256 d · between) (revert_some hfirst))
    have hcustody := hs.step hfirst
    have hpending : Pending d mid a t (s.bridge.mirror t) (s.nft.creatures t) := by
      rw [hmid]
      refine Pending.others hcustody ha ?_ hothers
      exact ⟨howner, Function.update_self _ _ _, rfl, rfl⟩
    cases hmirror : s.bridge.mirror t with
    | false =>
        rw [hmirror] at hpending
        obtain ⟨out, hout, hdeparted⟩ :=
          hpending.departs keccak256 verify' dst ha
        have hafter := hafter.trans (revert_some hout)
        rw [hafter]
        exact ⟨fun _ => hdeparted, fun h => absurd ⟨howner, rfl⟩ h⟩
    | true =>
        refine ⟨fun h => absurd h.2 (by simp), fun _ => hrefused fun s' hs' => ?_⟩
        obtain ⟨-, -, hplain⟩ := departure_cases ha hs'
        rw [hpending.mirror, hmirror] at hplain
        exact absurd hplain (by simp)
  · have hfirst := approve_foreign keccak256 d verify env howner
    have hmid := hmid.trans (congrArg (others keccak256 d · between) (revert_none hfirst))
    have hidle : Idle mid a t := by
      rw [hmid]
      exact Idle.others hs (fun h => absurd h howner) hothers
    refine ⟨fun h => absurd h.1 howner, fun _ => hrefused fun s' hs' => ?_⟩
    obtain ⟨hown, happroved, -⟩ := departure_cases ha hs'
    rw [hidle hown] at happroved
    exact d.bridge_ne_zero happroved.symm

/-- Account 7 hatches token 1; between its two transactions account 8 hatches token 2 and tries to
take token 1. -/
def hatchedBySeven : List ((Bytes32 → Bool) × Tx Chain.Call) :=
  [(fun _ => true, ⟨7, .nft ⟨0, 0, false⟩ (.hatch [1, 2])⟩)]

def byEight : List ((Bytes32 → Bool) × Tx Chain.Call) :=
  [(fun _ => true, ⟨8, .nft ⟨0, 0, false⟩ (.hatch [3])⟩),
    (fun _ => true, ⟨8, .nft ⟨0, 0, false⟩ (.transferFrom 7 8 1)⟩)]

theorem page_departs_seven :
    (Chain.run Chain.sampleDigest Chain.sampleDeployment 12 (hatchedBySeven ++
      (fun _ => true, ⟨7, .nft ⟨0, 0, false⟩ (.approve 11 1)⟩) :: byEight ++
      [(fun _ => true, ⟨7, .bridgeOut 1 2⟩)])).bridge.locked 1 = true := by
  have hbridge : Names (Page.mk (nameOf 11) (nameOf 10)).bridgeAddr
      Chain.sampleDeployment.bridgeAddr := names_nameOf 11
  have hnft : Names (Page.mk (nameOf 11) (nameOf 10)).nftAddr Chain.sampleDeployment.nftAddr :=
    names_nameOf 10
  have hboth := page_departs Chain.sampleDigest Chain.sampleDeployment 12 hatchedBySeven byEight
    (a := 7) (by decide) (by decide) hbridge hnft (fun _ => true) 1 2 (bridgeOut_taken _ _ _)
    (approveTx_asks hbridge hnft 1 ⟨0, 0, false⟩) (departTx_asks hbridge 1 2) (fun _ => true)
    fun _ => true
  exact (hboth.1 (by decide)).locked

end Departure

end ChainBeasts.Client.Bridge
