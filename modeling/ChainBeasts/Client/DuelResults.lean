import ChainBeasts.Client.Bracket
import ChainBeasts.Client.PluginMarketplace
import ChainBeasts.Contracts.FashionSettled
import ChainBeasts.While

/-! # The results page of the fashion duels

`getResults` of `tournament.ts` asks a node for the number of duels, and then for the record of each
and, where it is resolved, for its two weights. Every question is answered from the latest block, so
the contract moves on between them; and any of them may fail, which ends the loop with what has been
found by then.

The strings of the answers are read at fixed places (`readDuel_answer`). What the page lists is not
torn all the same: see `results_consistent`. -/

namespace ChainBeasts.Client.Tournament

open ChainBeasts.Evm ChainBeasts.Contracts ChainBeasts.Clock
open ChainBeasts.Onchain (text digit value Spells)
open ChainBeasts.Pouw.ProofSystem (toHex)

/-! ## The page -/

inductive Winner where
  | challenger
  | opponent
  deriving DecidableEq

structure DuelResult where
  id : Nat
  challenger : Bytes
  opponent : Bytes
  winner : Winner
  deriving DecidableEq

structure Page where
  fashionDuelAddr : Bytes

def nextIdSelector : Bytes := text "0x61b8ce8c"
def duelsSelector : Bytes := text "0x859a62d0"
def weightChSelector : Bytes := text "0x42ade315"
def weightOpSelector : Bytes := text "0xeb4fc291"

/-- `'0x' + SELECTOR.slice(2) + encUint(id)`. -/
def request (selector : Bytes) (id : Nat) : Bytes := text "0x" ++ (selector.drop 2 ++ encUint id)

/-- What the `k`-th `ethCall` returns, from an address and data; `none` where it throws. -/
abbrev Wallet : Type := Nat → Bytes → Bytes → Option Bytes

/-- `BigInt(s)`, of a text with a prefix. -/
def BigInt : Bytes → Option Nat
  | z :: x :: h => if z = 0x30 ∧ (x = 0x78 ∨ x = 0x58) then BigInt0x h else none
  | _ => none

/-- The parties, and whether the duel is resolved. -/
def readDuel (duelData : Bytes) : Option (Bytes × Bytes × Bool) := do
  let challenger := text "0x" ++ slice duelData 26 66
  let opponent := text "0x" ++ slice duelData 90 130
  let resolved ← BigInt0x (slice duelData 322 386)
  return (challenger, opponent, resolved ≠ 0)

/-- What was found so far, and the number of calls made. -/
structure Progress where
  results : List DuelResult
  calls : Nat

/-- The body of the loop; `false` if something was thrown. -/
def visit (page : Page) (wallet : Wallet) (id : Nat) (p : Progress) : Bool × Progress :=
  match (wallet p.calls page.fashionDuelAddr (request duelsSelector id)).bind readDuel with
  | none => (false, ⟨p.results, p.calls + 1⟩)
  | some (challenger, opponent, resolved) =>
    if resolved then
      match wallet (p.calls + 1) page.fashionDuelAddr (request weightChSelector id) with
      | none => (false, ⟨p.results, p.calls + 2⟩)
      | some wcHex =>
        match wallet (p.calls + 2) page.fashionDuelAddr (request weightOpSelector id) with
        | none => (false, ⟨p.results, p.calls + 3⟩)
        | some woHex =>
          match BigInt wcHex, BigInt woHex with
          | some wc, some wo =>
            let winner := if wc ≥ wo then .challenger else .opponent
            -- `push` throws where the array is as long as one can be
            if p.results.length + 1 < 2 ^ 32 then
              (true, ⟨p.results ++ [⟨id, challenger, opponent, winner⟩], p.calls + 3⟩)
            else (false, ⟨p.results, p.calls + 3⟩)
          | _, _ => (false, ⟨p.results, p.calls + 3⟩)
    else (true, ⟨p.results, p.calls + 1⟩)

/-- The variables of the loop; something `thrown` ends it. -/
structure Search where
  id : Nat
  found : Progress
  thrown : Bool

/-- A result of arithmetic that is no greater than `2 ^ 1023`, as a `Number`. -/
def number (n : Nat) : Nat := (PluginMarketplace.nearest n).untopD 0

/-- `for (let id = 1; id < nextId; ++id)`. -/
def loop (page : Page) (wallet : Wallet) (nextId : Nat) : While.Loop Search where
  guard s := !s.thrown && decide (s.id < nextId)
  body s :=
    match visit page wallet s.id s.found with
    | (true, found) => ⟨number (s.id + 1), found, false⟩
    | (false, found) => ⟨s.id, found, true⟩

/-- The results, with the number of calls, if `rounds` rounds are enough. -/
def getResults (page : Page) (wallet : Wallet) (rounds : Nat) : Option Progress :=
  match (wallet 0 page.fashionDuelAddr nextIdSelector).bind BigInt with
  | none => some ⟨[], 1⟩
  | some nextId =>
    ((loop page wallet (number nextId)).run rounds ⟨1, ⟨[], 1⟩, false⟩).map Search.found

/-! ## The node -/

/-- The words of a record, in the order of its fields. -/
def duelWords (d : Duel) : List U256 :=
  [d.challenger.setWidth 256, d.opponent.setWidth 256, d.judgeBlock, d.commitEnd, d.revealEnd,
    if d.resolved then 1 else 0]

/-- What the getters return that the page asks for. -/
def view (s : FashionDuel) (calldata : Bytes) : Option Bytes :=
  let selector := calldata.take 4
  if selector = [0x61, 0xb8, 0xce, 0x8c] then some (packWord s.nextId)
  else do
    let id ← Abi.wordAt (calldata.drop 4) 0
    if selector = [0x85, 0x9a, 0x62, 0xd0] then some ((duelWords (s.duels id)).flatMap packWord)
    else if selector = [0x42, 0xad, 0xe3, 0x15] then some (packWord (s.weightChallenger id))
    else if selector = [0xeb, 0x4f, 0xc2, 0x91] then some (packWord (s.weightOpponent id))
    else none

/-- A call of the contract that does not fail is answered from the state of its moment. -/
def Serves (page : Page) (wallet : Wallet) (moment : Nat → FashionDuel) : Prop :=
  ∀ k h calldata res, Spells h calldata →
    wallet k page.fashionDuelAddr (text "0x" ++ h) = some res →
    ∃ out digits, view (moment k) calldata = some out ∧ res = text "0x" ++ digits ∧ Spells digits out

/-- No call fails that the contract answers. -/
def Up (page : Page) (wallet : Wallet) (moment : Nat → FashionDuel) : Prop :=
  ∀ k h calldata, Spells h calldata → (view (moment k) calldata).isSome →
    (wallet k page.fashionDuelAddr (text "0x" ++ h)).isSome

/-! ## The strings of the answers -/

/-- A slice of an answer, from a byte to a byte. -/
theorem spells_slice {h bs : Bytes} (hs : Spells h bs) (i n : Nat) :
    Spells (slice (text "0x" ++ h) (2 + 2 * i) (2 + 2 * i + 2 * n)) ((bs.drop i).take n) := by
  have hplace : slice (text "0x" ++ h) (2 + 2 * i) (2 + 2 * i + 2 * n) =
      (h.drop (2 * i)).take (2 * n) := by
    rw [slice, ← List.drop_drop, Nat.add_sub_cancel_left]
    rfl
  rw [hplace]
  exact spells_take (spells_drop hs i) n

theorem BigInt_answer {h : Bytes} {w : U256} (hs : Spells h (packWord w)) :
    BigInt (text "0x" ++ h) = some w.toNat := BigInt0x_word hs

/-- The `i`-th word of an answer is in front of those behind it. -/
theorem drop_words {ws : List U256} {i : Nat} {w : U256} (hi : ws[i]? = some w) :
    ∃ back, (ws.flatMap packWord).drop (32 * i) = packWord w ++ back := by
  induction ws generalizing i with
  | nil => simp at hi
  | cons v ws ih =>
      rw [List.flatMap_cons]
      cases i with
      | zero =>
          cases hi
          exact ⟨_, rfl⟩
      | succ i =>
          obtain ⟨back, hback⟩ := ih hi
          refine ⟨back, ?_⟩
          rw [Nat.mul_succ, Nat.add_comm, ← List.drop_drop, List.drop_left' (length_packWord _), hback]

theorem word_bytes {ws : List U256} {i : Nat} {w : U256} (hi : ws[i]? = some w) :
    ((ws.flatMap packWord).drop (32 * i)).take 32 = packWord w := by
  obtain ⟨back, hback⟩ := drop_words hi
  rw [hback, List.take_left' (length_packWord _)]

/-- An address is in the last 20 bytes of its word. -/
theorem address_bytes {ws : List U256} {i : Nat} {a : Address}
    (hi : ws[i]? = some (a.setWidth 256)) :
    ((ws.flatMap packWord).drop (32 * i + 12)).take 20 = packAddress a := by
  obtain ⟨back, hback⟩ := drop_words hi
  rw [← List.drop_drop, hback, packWord_setWidth, List.append_assoc,
    List.drop_left' List.length_replicate, List.take_left' (length_packAddress _)]

/-- **The places of a record.** -/
theorem readDuel_answer {h : Bytes} {d : Duel} (hs : Spells h ((duelWords d).flatMap packWord)) :
    ∃ challenger opponent, readDuel (text "0x" ++ h) = some (challenger, opponent, d.resolved) ∧
      Names challenger d.challenger ∧ Names opponent d.opponent := by
  have hchallenger := spells_slice hs (32 * 0 + 12) 20
  have hopponent := spells_slice hs (32 * 1 + 12) 20
  have hresolved := spells_slice hs (32 * 5) 32
  rw [address_bytes (a := d.challenger) rfl] at hchallenger
  rw [address_bytes (a := d.opponent) rfl] at hopponent
  rw [word_bytes (w := if d.resolved then 1 else 0) rfl] at hresolved
  refine ⟨_, _, ?_, ⟨_, hchallenger, Or.inr (Or.inl rfl)⟩, ⟨_, hopponent, Or.inr (Or.inl rfl)⟩⟩
  have hread : BigInt0x (slice (text "0x" ++ h) 322 386) = _ := BigInt0x_word hresolved
  simp only [readDuel, hread, Option.bind_eq_bind, Option.bind_some, Option.pure_def,
    Option.some.injEq, Prod.mk.injEq]
  exact ⟨trivial, trivial, by cases d.resolved <;> decide⟩

/-! ## The questions -/

section Questions

variable {page : Page} {wallet : Wallet} {moment : Nat → FashionDuel} {k : Nat} {id : U256}
  {res : Bytes}

theorem spells_request {selector bs : Bytes} (hs : Spells (selector.drop 2) bs) (id : U256) :
    ∃ h, request selector id.toNat = text "0x" ++ h ∧ Spells h (bs ++ packWord id) :=
  ⟨_, rfl, hs.append (spells_encUint id)⟩

theorem spells_duels : Spells (duelsSelector.drop 2) [0x85, 0x9a, 0x62, 0xd0] :=
  Onchain.spells_to_hex [0x85, 0x9a, 0x62, 0xd0]

theorem spells_weightCh : Spells (weightChSelector.drop 2) [0x42, 0xad, 0xe3, 0x15] :=
  Onchain.spells_to_hex [0x42, 0xad, 0xe3, 0x15]

theorem spells_weightOp : Spells (weightOpSelector.drop 2) [0xeb, 0x4f, 0xc2, 0x91] :=
  Onchain.spells_to_hex [0xeb, 0x4f, 0xc2, 0x91]

theorem spells_nextId : Spells (nextIdSelector.drop 2) [0x61, 0xb8, 0xce, 0x8c] :=
  Onchain.spells_to_hex [0x61, 0xb8, 0xce, 0x8c]

theorem view_nextId (s : FashionDuel) :
    view s [0x61, 0xb8, 0xce, 0x8c] = some (packWord s.nextId) := by
  simp [view]

theorem view_duels (s : FashionDuel) (id : U256) :
    view s ([0x85, 0x9a, 0x62, 0xd0] ++ packWord id) =
      some ((duelWords (s.duels id)).flatMap packWord) := by
  have hid := Abi.wordAt_packWord id []
  rw [List.append_nil] at hid
  simp [view, hid]

theorem view_weightCh (s : FashionDuel) (id : U256) :
    view s ([0x42, 0xad, 0xe3, 0x15] ++ packWord id) = some (packWord (s.weightChallenger id)) := by
  have hid := Abi.wordAt_packWord id []
  rw [List.append_nil] at hid
  simp [view, hid]

theorem view_weightOp (s : FashionDuel) (id : U256) :
    view s ([0xeb, 0x4f, 0xc2, 0x91] ++ packWord id) = some (packWord (s.weightOpponent id)) := by
  have hid := Abi.wordAt_packWord id []
  rw [List.append_nil] at hid
  simp [view, hid]

theorem nextId_answered (hserves : Serves page wallet moment)
    (hres : wallet k page.fashionDuelAddr nextIdSelector = some res) :
    BigInt res = some (moment k).nextId.toNat := by
  obtain ⟨out, digits, hout, rfl, hdigits⟩ := hserves k _ _ res spells_nextId hres
  rw [view_nextId] at hout
  obtain rfl := Option.some.inj hout
  exact BigInt_answer hdigits

theorem duel_answered (hserves : Serves page wallet moment)
    (hres : wallet k page.fashionDuelAddr (request duelsSelector id.toNat) = some res) :
    ∃ challenger opponent, readDuel res =
        some (challenger, opponent, ((moment k).duels id).resolved) ∧
      Names challenger ((moment k).duels id).challenger ∧
      Names opponent ((moment k).duels id).opponent := by
  obtain ⟨h, hrequest, hs⟩ := spells_request spells_duels id
  rw [hrequest] at hres
  obtain ⟨out, digits, hout, rfl, hdigits⟩ := hserves k h _ res hs hres
  rw [view_duels] at hout
  obtain rfl := Option.some.inj hout
  exact readDuel_answer hdigits

theorem weightCh_answered (hserves : Serves page wallet moment)
    (hres : wallet k page.fashionDuelAddr (request weightChSelector id.toNat) = some res) :
    BigInt res = some ((moment k).weightChallenger id).toNat := by
  obtain ⟨h, hrequest, hs⟩ := spells_request spells_weightCh id
  rw [hrequest] at hres
  obtain ⟨out, digits, hout, rfl, hdigits⟩ := hserves k h _ res hs hres
  rw [view_weightCh] at hout
  obtain rfl := Option.some.inj hout
  exact BigInt_answer hdigits

theorem weightOp_answered (hserves : Serves page wallet moment)
    (hres : wallet k page.fashionDuelAddr (request weightOpSelector id.toNat) = some res) :
    BigInt res = some ((moment k).weightOpponent id).toNat := by
  obtain ⟨h, hrequest, hs⟩ := spells_request spells_weightOp id
  rw [hrequest] at hres
  obtain ⟨out, digits, hout, rfl, hdigits⟩ := hserves k h _ res hs hres
  rw [view_weightOp] at hout
  obtain rfl := Option.some.inj hout
  exact BigInt_answer hdigits

/-- While the node is up, every question of the page is answered. -/
theorem Up.answers (hup : Up page wallet moment) {selector bs : Bytes}
    (hs : Spells (selector.drop 2) bs) (id : U256)
    (hview : (view (moment k) (bs ++ packWord id)).isSome) :
    ∃ res, wallet k page.fashionDuelAddr (request selector id.toNat) = some res := by
  obtain ⟨h, hrequest, hspells⟩ := spells_request hs id
  rw [hrequest]
  exact Option.isSome_iff_exists.mp (hup k h _ hspells hview)

/-! ## One round -/

/-- The entry that the answers from call `k` on make. -/
structure Entry (moment : Nat → FashionDuel) (k : Nat) (id : U256) (x : DuelResult) : Prop where
  number : x.id = id.toNat
  resolved : ((moment k).duels id).resolved = true
  challenger : Names x.challenger ((moment k).duels id).challenger
  opponent : Names x.opponent ((moment k).duels id).opponent
  winner : x.winner =
    if (moment (k + 2)).weightOpponent id ≤ (moment (k + 1)).weightChallenger id then .challenger
    else .opponent

/-- **What one round can do.** It adds nothing and goes on only if the duel is not resolved, or it
adds one entry; and while the node is up it goes on. -/
theorem visit_cases (hserves : Serves page wallet moment) (id : U256) {p : Progress}
    (hlen : p.results.length + 1 < 2 ^ 32) :
    (∃ more, visit page wallet id.toNat p = (false, ⟨p.results, p.calls + more⟩) ∧
        ¬ Up page wallet moment) ∨
      (visit page wallet id.toNat p = (true, ⟨p.results, p.calls + 1⟩) ∧
        ((moment p.calls).duels id).resolved = false) ∨
      ∃ x, visit page wallet id.toNat p = (true, ⟨p.results ++ [x], p.calls + 3⟩) ∧
        Entry moment p.calls id x := by
  unfold visit
  cases hduel : wallet p.calls page.fashionDuelAddr (request duelsSelector id.toNat) with
  | none =>
      refine Or.inl ⟨1, rfl, fun hup => ?_⟩
      obtain ⟨res, hres⟩ := hup.answers spells_duels id (by rw [view_duels, Option.isSome_some])
      rw [hduel] at hres
      cases hres
  | some res =>
      obtain ⟨challenger, opponent, hread, hchallenger, hopponent⟩ := duel_answered hserves hduel
      simp only [Option.bind_some, hread]
      cases hresolved : ((moment p.calls).duels id).resolved with
      | false => exact Or.inr (Or.inl ⟨rfl, rfl⟩)
      | true =>
          simp only [if_true]
          cases hwc : wallet (p.calls + 1) page.fashionDuelAddr
              (request weightChSelector id.toNat) with
          | none =>
              refine Or.inl ⟨2, rfl, fun hup => ?_⟩
              obtain ⟨res, hres⟩ := hup.answers spells_weightCh id
                (by rw [view_weightCh, Option.isSome_some])
              rw [hwc] at hres
              cases hres
          | some wcHex =>
              cases hwo : wallet (p.calls + 2) page.fashionDuelAddr
                  (request weightOpSelector id.toNat) with
              | none =>
                  refine Or.inl ⟨3, rfl, fun hup => ?_⟩
                  obtain ⟨res, hres⟩ := hup.answers spells_weightOp id
                    (by rw [view_weightOp, Option.isSome_some])
                  rw [hwo] at hres
                  cases hres
              | some woHex =>
                  simp only [weightCh_answered hserves hwc, weightOp_answered hserves hwo, hlen,
                    if_true]
                  exact Or.inr (Or.inr ⟨_, rfl, rfl, hresolved, hchallenger, hopponent, rfl⟩)

end Questions

/-! ## A run beside the page -/

/-- The side whose victory an entry shows. -/
def DuelResult.side (x : DuelResult) : VoteSide :=
  match x.winner with
  | .challenger => .challenger
  | .opponent => .opponent

/-- The entry is right after the events: it has the parties of a duel that is resolved, and if that
duel was tallied after its initiation, the winner of the `Tally` event. -/
structure Listed (keccak256 : Bytes → Bytes32) (block : U256)
    (evs : List (Event U256 (Tx FashionDuel.Call))) (x : DuelResult) (id : U256) : Prop where
  number : x.id = id.toNat
  initiated : (FashionDuel.run keccak256 block evs).state.Initiated id
  resolved : ((FashionDuel.run keccak256 block evs).state.duels id).resolved = true
  challenger : Names x.challenger ((FashionDuel.run keccak256 block evs).state.duels id).challenger
  opponent : Names x.opponent ((FashionDuel.run keccak256 block evs).state.duels id).opponent
  winner : FashionDuel.Done (FashionDuel.chronicle keccak256 block evs) id →
    (id, x.side) ∈ (FashionDuel.run keccak256 block evs).state.tallies

section Run

variable {keccak256 : Bytes → Bytes32} {block : U256}
  {evs evs' : List (Event U256 (Tx FashionDuel.Call))}
  {x : DuelResult} {id : U256}

/-- **An entry that is right stays right.** -/
theorem Listed.later (hx : Listed keccak256 block evs x id) (h : evs <+: evs') :
    Listed keccak256 block evs' x id := by
  have hkept := FashionDuel.kept_of_prefix keccak256 block h id
  refine ⟨hx.number, hkept.initiated hx.initiated, hkept.resolved hx.resolved, ?_, ?_, fun hdone => ?_⟩
  · rw [hkept.challenger hx.initiated]
    exact hx.challenger
  · rw [hkept.opponent hx.initiated]
    exact hx.opponent
  · exact hkept.tallies.subset (hx.winner (FashionDuel.done_of_resolved h hx.resolved hdone))

variable {log : Nat → List (Event U256 (Tx FashionDuel.Call))}

theorem log_mono (hlog : ∀ k, log k <+: log (k + 1)) {k m : Nat} (h : k ≤ m) : log k <+: log m := by
  induction m, h using Nat.le_induction with
  | base => exact List.prefix_refl _
  | succ m _ ih => exact ih.trans (hlog m)

/-- The state when the `k`-th call is answered. -/
def moments (keccak256 : Bytes → Bytes32) (block : U256)
    (log : Nat → List (Event U256 (Tx FashionDuel.Call))) (k : Nat) : FashionDuel :=
  (FashionDuel.run keccak256 block (log k)).state

/-- **An entry is right**, although its three parts are read at different moments. -/
theorem Entry.listed (hlog : ∀ k, log k <+: log (k + 1)) {k : Nat}
    (hborn : (moments keccak256 block log k).Initiated id)
    (hx : Entry (moments keccak256 block log) k id x) :
    Listed keccak256 block (log k) x id := by
  refine ⟨hx.number, hborn, hx.resolved, hx.challenger, hx.opponent, fun hdone => ?_⟩
  have hs := FashionDuel.run_settled keccak256 block (log k) id hdone
  -- the weights are those at the time of the tally
  have hfirst := FashionDuel.sameVotes_of_prefix (log_mono hlog (Nat.le_add_right k 1)) hs
  have hsecond := FashionDuel.sameVotes_of_prefix (log_mono hlog (Nat.le_add_right k 2)) hs
  have hwinner := hx.winner
  unfold moments at hwinner
  rw [← hfirst.weightChallenger, ← hsecond.weightOpponent] at hwinner
  have hside : x.side = (FashionDuel.run keccak256 block (log k)).state.winner id := by
    rw [DuelResult.side, hwinner, FashionDuel.winner]
    split <;> simp_all
  rw [hside]
  exact hs.emitted

/-! ## The loop -/

/-- What has been found when the loop gets to `next`: right entries with smaller ids, in order. -/
structure Found (keccak256 : Bytes → Bytes32) (block : U256)
    (evs : List (Event U256 (Tx FashionDuel.Call))) (next : Nat) (results : List DuelResult) :
    Prop where
  listed : ∀ x ∈ results, x.id < next ∧ ∃ id, Listed keccak256 block evs x id
  sorted : results.Pairwise fun x y => x.id < y.id
  few : results.length < next

theorem Found.later {next next' : Nat} {results : List DuelResult}
    (hfound : Found keccak256 block evs next results) (h : evs <+: evs') (hnext : next ≤ next') :
    Found keccak256 block evs' next' results := by
  refine ⟨fun x hx => ?_, hfound.sorted, Nat.lt_of_lt_of_le hfound.few hnext⟩
  obtain ⟨hlt, id, hid⟩ := hfound.listed x hx
  exact ⟨Nat.lt_of_lt_of_le hlt hnext, id, hid.later h⟩

theorem Found.push {next : Nat} {results : List DuelResult}
    (hfound : Found keccak256 block evs next results) (hx : Listed keccak256 block evs x id)
    (hid : id.toNat = next) : Found keccak256 block evs (next + 1) (results ++ [x]) := by
  refine ⟨?_, ?_, ?_⟩
  · rw [List.forall_mem_append, List.forall_mem_singleton]
    refine ⟨fun y hy => ?_, by rw [hx.number, hid]; exact Nat.lt_succ_self next, id, hx⟩
    obtain ⟨hlt, hlisted⟩ := hfound.listed y hy
    exact ⟨Nat.lt_succ_of_lt hlt, hlisted⟩
  · rw [List.pairwise_append]
    refine ⟨hfound.sorted, List.pairwise_singleton _ _, ?_⟩
    intro y hy z hz
    rw [List.mem_singleton.mp hz, hx.number, hid]
    exact (hfound.listed y hy).1
  · rw [List.length_append, List.length_singleton]
    exact Nat.succ_lt_succ hfound.few

theorem number_eq {n : Nat} (hn : n < 2 ^ 53) : number n = n := by
  have hlog : n.log2 - 52 = 0 := by
    by_cases hzero : n = 0
    · rw [hzero]
      rfl
    · have hlt : n.log2 < 53 := (Nat.log2_lt hzero).mpr hn
      omega
  have hpow : ∀ m, 53 < m → n < 2 ^ m := fun m hm =>
    Nat.lt_trans hn (Nat.pow_lt_pow_right Nat.one_lt_two hm)
  have hfits := hpow 1024 (by decide)
  unfold number PluginMarketplace.nearest
  rw [hlog]
  simp only [pow_zero, Nat.mod_one, Nat.div_one, Nat.mul_one, Nat.mul_zero, Nat.not_lt_zero,
    Nat.one_ne_zero, false_and, or_self, if_false, hfits, if_true]
  rfl

theorem body_of_thrown {page : Page} {wallet : Wallet} {s : Search} {p : Progress} (nextId : Nat)
    (h : visit page wallet s.id s.found = (false, p)) :
    (loop page wallet nextId).body s = ⟨s.id, p, true⟩ := by
  simp only [loop, h]

theorem body_of_visited {page : Page} {wallet : Wallet} {s : Search} {p : Progress} (nextId : Nat)
    (hid : s.id + 1 < 2 ^ 53) (h : visit page wallet s.id s.found = (true, p)) :
    (loop page wallet nextId).body s = ⟨s.id + 1, p, false⟩ := by
  simp only [loop, h, number_eq hid]

/-- What holds whenever the loop is entered: the entries so far are right, and while the node is up
nothing was thrown and no duel was left out that was resolved from the start. -/
structure Searched (keccak256 : Bytes → Bytes32) (block : U256)
    (log : Nat → List (Event U256 (Tx FashionDuel.Call))) (page : Page) (wallet : Wallet)
    (s : Search) : Prop where
  positive : 0 < s.id
  below : s.id ≤ (moments keccak256 block log 0).nextId.toNat
  found : Found keccak256 block (log s.found.calls) s.id s.found.results
  up : Up page wallet (moments keccak256 block log) → s.thrown = false ∧
    ∀ id, (moments keccak256 block log 0).Initiated id →
      ((moments keccak256 block log 0).duels id).resolved = true → id.toNat < s.id →
      ∃ x ∈ s.found.results, x.id = id.toNat

variable {page : Page} {wallet : Wallet}

/-- **One round**: it gets to the next id, or throws. -/
theorem Searched.body (hlog : ∀ k, log k <+: log (k + 1))
    (hserves : Serves page wallet (moments keccak256 block log))
    (hfew : (moments keccak256 block log 0).nextId.toNat < 2 ^ 32) {s : Search}
    (hs : Searched keccak256 block log page wallet s)
    (hlt : s.id < (moments keccak256 block log 0).nextId.toNat) (nextId : Nat) :
    Searched keccak256 block log page wallet ((loop page wallet nextId).body s) ∧
      (((loop page wallet nextId).body s).thrown = true ∨
        ((loop page wallet nextId).body s).id = s.id + 1) := by
  obtain ⟨hpos, hbelow, hfound, hup⟩ := hs
  have hword : (BitVec.ofNat 256 s.id).toNat = s.id := by
    rw [BitVec.toNat_ofNat, Nat.mod_eq_of_lt (by omega)]
  have hborn : (moments keccak256 block log 0).Initiated (BitVec.ofNat 256 s.id) := by
    rw [FashionDuel.Initiated, BitVec.lt_def, BitVec.lt_def, hword]
    exact ⟨hpos, hlt⟩
  have hlength : s.found.results.length + 1 < 2 ^ 32 := by
    have hless := hfound.few
    omega
  have hkept := FashionDuel.kept_of_prefix keccak256 block
    (log_mono hlog (Nat.zero_le s.found.calls)) (BitVec.ofNat 256 s.id)
  have hcases := visit_cases hserves (BitVec.ofNat 256 s.id) hlength
  rw [hword] at hcases
  obtain ⟨more, hvisit, hdown⟩ | ⟨hvisit, hopen⟩ | ⟨x, hvisit, hentry⟩ := hcases
  · rw [body_of_thrown nextId hvisit]
    refine ⟨⟨hpos, hbelow, ?_, fun h => absurd h hdown⟩, Or.inl rfl⟩
    exact hfound.later (log_mono hlog (Nat.le_add_right _ _)) (Nat.le_refl _)
  · rw [body_of_visited nextId (by omega) hvisit]
    refine ⟨⟨Nat.succ_pos _, hlt, ?_, fun h => ⟨rfl, fun j hj hresolved hless => ?_⟩⟩, Or.inr rfl⟩
    · exact hfound.later (log_mono hlog (Nat.le_add_right _ _)) (Nat.le_succ _)
    · refine (hup h).2 j hj hresolved (Nat.lt_of_le_of_ne (Nat.le_of_lt_succ hless) ?_)
      -- the duel of this round was not resolved when the page asked
      intro heq
      obtain rfl : j = BitVec.ofNat 256 s.id := BitVec.eq_of_toNat_eq (by rw [heq, hword])
      have hdone := hkept.resolved hresolved
      unfold moments at hopen
      rw [hopen] at hdone
      cases hdone
  · rw [body_of_visited nextId (by omega) hvisit]
    have hlisted := hentry.listed hlog (hkept.initiated hborn)
    have hgrown : log s.found.calls <+: log (s.found.calls + 3) :=
      log_mono hlog (Nat.le_add_right _ _)
    refine ⟨⟨Nat.succ_pos _, hlt, ?_, fun h => ⟨rfl, fun j hj hresolved hless => ?_⟩⟩, Or.inr rfl⟩
    · exact (hfound.later hgrown (Nat.le_refl _)).push (hlisted.later hgrown) hword
    · by_cases heq : j.toNat = s.id
      · exact ⟨x, by simp, by rw [hentry.number, hword, heq]⟩
      · have hearlier : j.toNat < s.id := Nat.lt_of_le_of_ne (Nat.le_of_lt_succ hless) heq
        obtain ⟨y, hy, hid⟩ := (hup h).2 j hj hresolved hearlier
        exact ⟨y, List.mem_append_left _ hy, hid⟩

variable (page wallet) in
theorem searched_start (hpos : 0 < (moments keccak256 block log 0).nextId.toNat) :
    Searched keccak256 block log page wallet ⟨1, ⟨[], 1⟩, false⟩ := by
  refine ⟨Nat.one_pos, hpos, ⟨by simp, .nil, Nat.one_pos⟩, fun _ => ⟨rfl, fun id hid _ hless => ?_⟩⟩
  have hzero := BitVec.lt_def.mp hid.1
  rw [Nat.lt_one_iff.mp hless] at hzero
  exact absurd hzero (Nat.lt_irrefl 0)

theorem guard_iff {nextId : Nat} {s : Search} :
    (loop page wallet nextId).guard s = true ↔ s.thrown = false ∧ s.id < nextId := by
  simp [loop]

/-- The loop ends: every round gets to the next id, or throws. -/
theorem loop_ends (hlog : ∀ k, log k <+: log (k + 1))
    (hserves : Serves page wallet (moments keccak256 block log))
    (hfew : (moments keccak256 block log 0).nextId.toNat < 2 ^ 32) {s : Search}
    (hs : Searched keccak256 block log page wallet s) :
    (loop page wallet (moments keccak256 block log 0).nextId.toNat).Ends s := by
  refine While.Loop.ends_of_variant (Searched keccak256 block log page wallet)
    (fun t => if t.thrown then 0 else (moments keccak256 block log 0).nextId.toNat + 1 - t.id) ?_ hs
  intro t hguard ht
  obtain ⟨hgoes, hlt⟩ := guard_iff.mp hguard
  obtain ⟨hbody, hthrown | hid⟩ := ht.body hlog hserves hfew hlt _
  · refine ⟨hbody, ?_⟩
    rw [hgoes, hthrown]
    simp only [if_true, Bool.false_eq_true, if_false]
    omega
  · refine ⟨hbody, ?_⟩
    rw [hgoes, hid]
    simp only [Bool.false_eq_true, if_false]
    split <;> omega

theorem loop_searched (hlog : ∀ k, log k <+: log (k + 1))
    (hserves : Serves page wallet (moments keccak256 block log))
    (hfew : (moments keccak256 block log 0).nextId.toNat < 2 ^ 32) {s t : Search}
    (hs : Searched keccak256 block log page wallet s)
    (hrun : (loop page wallet (moments keccak256 block log 0).nextId.toNat).Returns s t) :
    Searched keccak256 block log page wallet t ∧
      (t.thrown = true ∨ (moments keccak256 block log 0).nextId.toNat ≤ t.id) := by
  obtain ⟨ht, hstop⟩ := hrun.induction (Searched keccak256 block log page wallet) hs
    fun u hguard hu => (hu.body hlog hserves hfew (guard_iff.mp hguard).2 _).1
  refine ⟨ht, ?_⟩
  have hnot : ¬ (t.thrown = false ∧ t.id < (moments keccak256 block log 0).nextId.toNat) := by
    rw [← guard_iff, hstop]
    exact Bool.false_ne_true
  cases hthrown : t.thrown with
  | true => exact Or.inl rfl
  | false => exact Or.inr (Nat.not_lt.mp fun hlt => hnot ⟨hthrown, hlt⟩)

/-- **What the page lists is right at the end, and nothing is missing from the start.** The contract
may move on between any two calls of the page, and any call may fail. The ids ascend; every entry has
the parties of a resolved duel and, unless that duel was tallied before it was initiated, the winner
of its `Tally` event, as of the last call; and if no call fails, every duel is listed that was resolved
at the first. -/
theorem results_consistent (keccak256 : Bytes → Bytes32) (block : U256)
    (log : Nat → List (Event U256 (Tx FashionDuel.Call))) (hlog : ∀ k, log k <+: log (k + 1))
    (page : Page) (wallet : Wallet) (hserves : Serves page wallet (moments keccak256 block log))
    (hfew : (moments keccak256 block log 0).nextId.toNat < 2 ^ 32) :
    (∃ rounds out, getResults page wallet rounds = some out) ∧
      ∀ rounds out, getResults page wallet rounds = some out →
        (out.results.Pairwise fun x y => x.id < y.id) ∧
          (∀ x ∈ out.results, ∃ id, Listed keccak256 block (log out.calls) x id) ∧
          (Up page wallet (moments keccak256 block log) →
            ∀ id, (moments keccak256 block log 0).Initiated id →
              ((moments keccak256 block log 0).duels id).resolved = true →
              ∃ x ∈ out.results, x.id = id.toNat) := by
  have hphased := (FashionDuel.run_resolved keccak256 block (log 0)).phased
  have hpos : 0 < (moments keccak256 block log 0).nextId.toNat := BitVec.lt_def.mp hphased.positive
  have hstart := searched_start page wallet hpos
  have hexact : number (moments keccak256 block log 0).nextId.toNat =
      (moments keccak256 block log 0).nextId.toNat := number_eq (by omega)
  cases hcall : wallet 0 page.fashionDuelAddr nextIdSelector with
  | none =>
      have hnothing : ∀ rounds, getResults page wallet rounds = some ⟨[], 1⟩ := by
        intro rounds
        simp only [getResults, hcall, Option.bind_none]
      refine ⟨⟨0, _, hnothing 0⟩, fun rounds out hout => ?_⟩
      rw [hnothing] at hout
      obtain rfl := Option.some.inj hout
      refine ⟨.nil, by simp, fun hup => ?_⟩
      have hanswered := hup 0 _ _ spells_nextId (by rw [view_nextId, Option.isSome_some])
      have hrefused : wallet 0 page.fashionDuelAddr (text "0x" ++ nextIdSelector.drop 2) = none :=
        hcall
      rw [hrefused] at hanswered
      cases hanswered
  | some res =>
      have hloop : ∀ rounds, getResults page wallet rounds =
          ((loop page wallet (moments keccak256 block log 0).nextId.toNat).run rounds
            ⟨1, ⟨[], 1⟩, false⟩).map Search.found := by
        intro rounds
        simp only [getResults, hcall, Option.bind_some, nextId_answered hserves hcall, hexact]
      refine ⟨?_, fun rounds out hout => ?_⟩
      · obtain ⟨s, rounds, hs⟩ := loop_ends hlog hserves hfew hstart
        exact ⟨rounds, s.found, by rw [hloop, hs, Option.map_some]⟩
      · rw [hloop] at hout
        obtain ⟨s, hs, rfl⟩ := Option.map_eq_some_iff.mp hout
        obtain ⟨hsearched, hstop⟩ := loop_searched hlog hserves hfew hstart ⟨rounds, hs⟩
        refine ⟨hsearched.found.sorted, fun x hx => (hsearched.found.listed x hx).2, ?_⟩
        intro hup id hid hresolved
        obtain ⟨hgoes, hall⟩ := hsearched.up hup
        refine hall id hid hresolved (Nat.lt_of_lt_of_le (BitVec.lt_def.mp hid.2) ?_)
        exact hstop.resolve_left (by rw [hgoes]; exact Bool.false_ne_true)

/-- A node that is up, and whose chain stands still. -/
def node (s : FashionDuel) : Wallet := fun _ _ data =>
  ((Onchain.decodeHex data).bind (view s)).map fun out => text "0x" ++ toHex out

theorem node_answers (s : FashionDuel) (k : Nat) (addr : Bytes) {h calldata : Bytes}
    (hs : Spells h calldata) :
    node s k addr (text "0x" ++ h) = (view s calldata).map fun out => text "0x" ++ toHex out := by
  have hdecode : Onchain.decodeHex (text "0x" ++ h) = some calldata :=
    Onchain.decode_hex_stripped (s := text "0x" ++ h) hs
  rw [node, hdecode, Option.bind_some]

/-- Account 7 challenges account 8; nobody votes, and the duel is tallied. -/
def unvoted : List (Event U256 (Tx FashionDuel.Call)) :=
  [.call ⟨7, .initiate 8 2 1 1⟩, .tick 4, .call ⟨5, .tally 1⟩]

theorem results_consistent_unvoted :
    ∃ rounds out,
      getResults ⟨text "0xfd"⟩ (node (moments (fun _ => 1) 1 (fun _ => unvoted) 0)) rounds = some out ∧
        ∃ x ∈ out.results, x.id = 1 := by
  have hserves : Serves ⟨text "0xfd"⟩ (node (moments (fun _ => 1) 1 (fun _ => unvoted) 0))
      (moments (fun _ => 1) 1 fun _ => unvoted) := by
    intro k h calldata res hs hres
    rw [node_answers _ _ _ hs] at hres
    obtain ⟨out, hout, rfl⟩ := Option.map_eq_some_iff.mp hres
    exact ⟨out, toHex out, hout, rfl, Onchain.spells_to_hex out⟩
  have hup : Up ⟨text "0xfd"⟩ (node (moments (fun _ => 1) 1 (fun _ => unvoted) 0))
      (moments (fun _ => 1) 1 fun _ => unvoted) := by
    intro k h calldata hs hview
    rw [node_answers _ _ _ hs, Option.isSome_map]
    exact hview
  obtain ⟨⟨rounds, out, hout⟩, hall⟩ := results_consistent (fun _ => 1) 1 (fun _ => unvoted)
    (fun _ => List.prefix_refl _) _ _ hserves (by decide)
  exact ⟨rounds, out, hout, (hall rounds out hout).2.2 hup 1 (by decide) (by decide)⟩

end Run

end ChainBeasts.Client.Tournament
