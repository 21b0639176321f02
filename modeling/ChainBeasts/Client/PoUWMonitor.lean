import ChainBeasts.Client.Bracket
import ChainBeasts.Machine

/-! # Polling for rewards

`PoUWMonitor` asks the node for the logs from `lastBlock` on, at every tick of a timer, and moves
`lastBlock` behind each log of a reply. A tick does not wait for the reply to the one before it, so
requests overlap, and two of them that start from the same block bring the same log twice.

The machine below has the chain, the node and the page. A run processes no log twice if and only if
every reply that has logs in it finds `lastBlock` where its request found it (`nodup_iff_onTime`). -/

namespace ChainBeasts.Client.PoUWMonitor

open ChainBeasts.Evm
open ChainBeasts.Machine
open ChainBeasts.Onchain (text lower Spells)
open ChainBeasts.Pouw.ProofSystem (toHex)

/-! ## The page -/

/-- What `eth_getLogs` returns of a log of the ledger; `data` is the number in it. -/
structure Log where
  blockNumber : Nat
  logIndex : Nat
  topics : List Bytes
  data : Nat
  deriving DecidableEq

structure MiningReward where
  block : Nat
  amount : Nat
  deriving DecidableEq

/-- A request in flight: where it starts, and the reply once the node has answered. -/
structure Request where
  fromBlock : Nat
  reply : Option (List Log)
  deriving DecidableEq

/-- The logs of the chain so far, what the page has in memory, and the logs that it called back
for. -/
structure State where
  logs : List Log
  lastBlock : Nat
  requests : List Request
  calls : List Log
  deriving DecidableEq

def init : State := { logs := [], lastBlock := 0, requests := [], calls := [] }

/-- The argument of the callback. -/
def reward (log : Log) : MiningReward := { block := log.blockNumber, amount := log.data }

/-- `topics.length === 2 && topics[1].toLowerCase().endsWith(miner.slice(2).toLowerCase())`. -/
def concerns (miner : Bytes) (log : Log) : Bool :=
  match log.topics with
  | [_, topic] => (miner.drop 2).map lower <:+ topic.map lower
  | _ => false

/-- One round of the loop over a reply. -/
def handle (miner : Bytes) (s : State) (log : Log) : State :=
  let s := if concerns miner log then { s with calls := s.calls ++ [log] } else s
  { s with lastBlock := log.blockNumber + 1 }

/-! ## The machine -/

/-- The first log comes before the second on the chain. -/
def Log.Before (l l' : Log) : Prop :=
  l.blockNumber < l'.blockNumber ∨ l.blockNumber = l'.blockNumber ∧ l.logIndex < l'.logIndex

instance (l l' : Log) : Decidable (l.Before l') := inferInstanceAs (Decidable (_ ∨ _))

/-- What the node answers. -/
def ethGetLogs (logs : List Log) (fromBlock : Nat) : List Log :=
  logs.filter fun l => fromBlock ≤ l.blockNumber

/-- `i` is the place of a request among those in flight. -/
inductive Event where
  | append (l : Log)
  | tick
  | answer (i : Nat)
  | deliver (i : Nat)
  | fail (i : Nat)
  deriving DecidableEq

/-- A request is answered once, at any time; a reply is processed in one go, at any later time. -/
def step (miner : Bytes) (s : State) : Event → Option State
  | .append l => if ∀ l' ∈ s.logs, l'.Before l then some { s with logs := s.logs ++ [l] } else none
  | .tick => some { s with requests := s.requests ++ [⟨s.lastBlock, none⟩] }
  | .answer i => do
    let r ← s.requests[i]?
    if r.reply = none then
      let reply := some (ethGetLogs s.logs r.fromBlock)
      some { s with requests := s.requests.set i { r with reply } }
    else none
  | .deliver i => do
    let r ← s.requests[i]?
    let logs ← r.reply
    some { logs.foldl (handle miner) s with requests := s.requests.eraseIdx i }
  | .fail i => do
    let _ ← s.requests[i]?
    some { s with requests := s.requests.eraseIdx i }

/-- The start and the logs of the reply that a move processes. -/
def delivery (m : Move State Event) : Option (Nat × List Log) :=
  match m.call with
  | .deliver i => do
    let r ← m.pre.requests[i]?
    let logs ← r.reply
    some (r.fromBlock, logs)
  | _ => none

/-- The logs that a move processes. -/
def arrived (m : Move State Event) : List Log := (delivery m).elim [] Prod.snd

/-- All logs processed, in order. -/
def processed (tr : List (Move State Event)) : List Log := tr.flatMap arrived

/-- A reply with logs in it finds `lastBlock` where its request found it. -/
def OnTime (m : Move State Event) : Prop :=
  ∀ d ∈ delivery m, d.2 ≠ [] → m.pre.lastBlock = d.1

instance (m : Move State Event) : Decidable (OnTime m) :=
  inferInstanceAs (Decidable (∀ d ∈ delivery m, d.2 ≠ [] → m.pre.lastBlock = d.1))

variable {miner : Bytes} {s s' : State} {tr : List (Move State Event)}

theorem processed_concat (tr : List (Move State Event)) (m : Move State Event) :
    processed (tr ++ [m]) = processed tr ++ arrived m := by
  rw [processed, List.flatMap_append, List.flatMap_singleton]
  rfl

/-! ## What a step does -/

@[simp] theorem handle_logs (s : State) (l : Log) : (handle miner s l).logs = s.logs := by
  unfold handle
  dsimp only
  split <;> rfl

@[simp] theorem handle_lastBlock (s : State) (l : Log) :
    (handle miner s l).lastBlock = l.blockNumber + 1 := rfl

theorem handled_logs (s : State) (logs : List Log) :
    (logs.foldl (handle miner) s).logs = s.logs := by
  induction logs generalizing s with
  | nil => rfl
  | cons l logs ih => rw [List.foldl_cons, ih, handle_logs]

theorem handled_calls (s : State) (logs : List Log) :
    (logs.foldl (handle miner) s).calls = s.calls ++ logs.filter (concerns miner) := by
  induction logs generalizing s with
  | nil => exact (List.append_nil _).symm
  | cons l logs ih =>
      rw [List.foldl_cons, ih, List.filter_cons]
      unfold handle
      by_cases hl : concerns miner l = true
      · rw [if_pos hl, if_pos hl]
        exact List.append_assoc _ _ _
      · rw [if_neg hl, if_neg hl]

/-- `lastBlock` ends up behind every log of an ordered reply. -/
theorem lt_handled_lastBlock {logs : List Log} (h : logs.Pairwise Log.Before) {l : Log}
    (hl : l ∈ logs) : l.blockNumber < (logs.foldl (handle miner) s).lastBlock := by
  induction logs using List.reverseRecOn with
  | nil => simp at hl
  | append_singleton logs last ih =>
      rw [List.foldl_append, List.foldl_cons, List.foldl_nil, handle_lastBlock]
      rcases List.mem_append.mp hl with hl | hl
      · have hbefore := (List.pairwise_append.mp h).2.2 l hl last List.mem_cons_self
        rcases hbefore with hlt | ⟨heq, -⟩ <;> omega
      · rw [List.mem_singleton.mp hl]
        exact Nat.lt_succ_self _

theorem Log.Before.ne {l l' : Log} (h : l.Before l') : l ≠ l' := by
  intro heq
  subst heq
  rcases h with hlt | ⟨-, hlt⟩ <;> exact Nat.lt_irrefl _ hlt

/-- What a step can do, with the reply that it processes. -/
inductive Step (miner : Bytes) (s : State) : Option (Nat × List Log) → State → Prop where
  | append {l : Log} (hl : ∀ l' ∈ s.logs, l'.Before l) :
      Step miner s none { s with logs := s.logs ++ [l] }
  | tick : Step miner s none { s with requests := s.requests ++ [⟨s.lastBlock, none⟩] }
  | answer {r : Request} {requests : List Request} (hr : r ∈ s.requests)
      (hsub : ∀ q ∈ requests, q ∈ s.requests ∨
        q = { r with reply := some (ethGetLogs s.logs r.fromBlock) }) :
      Step miner s none { s with requests }
  | fail {requests : List Request} (hsub : requests ⊆ s.requests) :
      Step miner s none { s with requests }
  | deliver {r : Request} {logs : List Log} {requests : List Request} (hr : r ∈ s.requests)
      (hlogs : r.reply = some logs) (hsub : requests ⊆ s.requests) :
      Step miner s (some (r.fromBlock, logs)) { logs.foldl (handle miner) s with requests }

theorem step_cases {e : Event} (h : step miner s e = some s') :
    Step miner s (delivery ⟨s, e, s'⟩) s' := by
  cases e with
  | append l =>
      simp only [step, Option.ite_none_right_eq_some, Option.some.injEq] at h
      obtain ⟨hl, rfl⟩ := h
      exact .append hl
  | tick =>
      obtain rfl := Option.some.inj h
      exact .tick
  | answer i =>
      simp only [step, Option.bind_eq_bind, Option.bind_eq_some_iff,
        Option.ite_none_right_eq_some, Option.some.injEq] at h
      obtain ⟨r, hr, -, rfl⟩ := h
      apply Step.answer (List.mem_of_getElem? hr)
      intro q hq
      exact List.mem_or_eq_of_mem_set hq
  | deliver i =>
      simp only [step, Option.bind_eq_bind, Option.bind_eq_some_iff, Option.some.injEq] at h
      obtain ⟨r, hr, logs, hlogs, rfl⟩ := h
      have hdelivery : ∀ t, delivery ⟨s, .deliver i, t⟩ = some (r.fromBlock, logs) := by
        intro t
        simp [delivery, hr, hlogs]
      rw [hdelivery]
      exact .deliver (List.mem_of_getElem? hr) hlogs List.eraseIdx_subset
  | fail i =>
      simp only [step, Option.bind_eq_bind, Option.bind_eq_some_iff, Option.some.injEq] at h
      obtain ⟨r, -, rfl⟩ := h
      exact .fail List.eraseIdx_subset

/-! ## What holds in every run -/

/-- The chain is in order, and a reply is what the node had of it at some time. -/
structure Sound (s : State) : Prop where
  ordered : s.logs.Pairwise Log.Before
  replies : ∀ r ∈ s.requests, ∀ logs, r.reply = some logs →
    ∃ chain, chain <+: s.logs ∧ logs = ethGetLogs chain r.fromBlock

theorem Sound.step {d : Option (Nat × List Log)} (hs : Sound s) (h : Step miner s d s') :
    Sound s' := by
  cases h with
  | append hl =>
      refine ⟨?_, ?_⟩
      · apply List.pairwise_append.mpr
        refine ⟨hs.ordered, List.pairwise_singleton _ _, ?_⟩
        intro l' hl' l hmem
        rw [List.mem_singleton.mp hmem]
        exact hl l' hl'
      · intro r hr logs hlogs
        obtain ⟨chain, hchain, hreply⟩ := hs.replies r hr logs hlogs
        exact ⟨chain, hchain.trans (List.prefix_append _ _), hreply⟩
  | tick =>
      refine ⟨hs.ordered, ?_⟩
      intro r hr logs hlogs
      rcases List.mem_append.mp hr with hr | hr
      · exact hs.replies r hr logs hlogs
      · rw [List.mem_singleton.mp hr] at hlogs
        cases hlogs
  | answer hr hsub =>
      refine ⟨hs.ordered, ?_⟩
      intro q hq logs hlogs
      rcases hsub q hq with hq | rfl
      · exact hs.replies q hq logs hlogs
      · exact ⟨s.logs, List.prefix_refl _, (Option.some.inj hlogs).symm⟩
  | fail hsub => exact ⟨hs.ordered, fun r hr => hs.replies r (hsub hr)⟩
  | @deliver r logs requests hr hlogs hsub =>
      refine ⟨?_, ?_⟩
      · show (logs.foldl (handle miner) s).logs.Pairwise Log.Before
        rw [handled_logs]
        exact hs.ordered
      · intro q hq reply hreply
        show ∃ chain, chain <+: (logs.foldl (handle miner) s).logs ∧ _
        rw [handled_logs]
        exact hs.replies q (hsub hq) reply hreply

/-- A reply is in order. -/
theorem Sound.reply_ordered (hs : Sound s) {r : Request} (hr : r ∈ s.requests) {logs : List Log}
    (hlogs : r.reply = some logs) : logs.Pairwise Log.Before := by
  obtain ⟨chain, hchain, rfl⟩ := hs.replies r hr logs hlogs
  exact (hs.ordered.sublist hchain.sublist).filter _

theorem Sound.le_of_reply (hs : Sound s) {r : Request} (hr : r ∈ s.requests) {logs : List Log}
    (hlogs : r.reply = some logs) {l : Log} (hl : l ∈ logs) : r.fromBlock ≤ l.blockNumber := by
  obtain ⟨chain, -, rfl⟩ := hs.replies r hr logs hlogs
  exact of_decide_eq_true (List.mem_filter.mp hl).2

/-- Every reply from a block that has logs in it has the first log from that block. -/
theorem Sound.first_of_reply (hs : Sound s) {r : Request} (hr : r ∈ s.requests) {logs : List Log}
    (hlogs : r.reply = some logs) (hne : logs ≠ []) :
    ∃ l ∈ logs, s.logs.find? (fun l => r.fromBlock ≤ l.blockNumber) = some l := by
  obtain ⟨chain, ⟨later, hlater⟩, rfl⟩ := hs.replies r hr logs hlogs
  refine ⟨_, List.head_mem hne, ?_⟩
  have hfirst := List.head?_filter.symm.trans (List.head?_eq_some_head hne)
  rw [← hlater, List.find?_append, hfirst]
  rfl

/-! ## What holds while every reply is on time -/

/-- No log is processed twice, `lastBlock` is behind all of them, and where a request started before
`lastBlock`, the first log that it can bring is among them. -/
structure Kept (s : State) (done : List Log) : Prop where
  nodup : done.Nodup
  behind : ∀ l ∈ done, l.blockNumber < s.lastBlock
  start_le : ∀ r ∈ s.requests, r.fromBlock ≤ s.lastBlock
  passed : ∀ r ∈ s.requests, r.fromBlock < s.lastBlock →
    ∃ l ∈ done, s.logs.find? (fun l => r.fromBlock ≤ l.blockNumber) = some l

theorem Kept.quiet {done : List Log} (hk : Kept s done) (h : Step miner s none s') :
    Kept s' done := by
  cases h with
  | append hl =>
      refine ⟨hk.nodup, hk.behind, hk.start_le, ?_⟩
      intro r hr hlt
      obtain ⟨l, hl, hfirst⟩ := hk.passed r hr hlt
      refine ⟨l, hl, ?_⟩
      rw [List.find?_append, hfirst]
      rfl
  | tick =>
      refine ⟨hk.nodup, hk.behind, ?_, ?_⟩
      · intro r hr
        rcases List.mem_append.mp hr with hr | hr
        · exact hk.start_le r hr
        · rw [List.mem_singleton.mp hr]
      · intro r hr hlt
        rcases List.mem_append.mp hr with hr | hr
        · exact hk.passed r hr hlt
        · rw [List.mem_singleton.mp hr] at hlt
          exact absurd hlt (Nat.lt_irrefl _)
  | @answer r requests hr hsub =>
      refine ⟨hk.nodup, hk.behind, ?_, ?_⟩
      · intro q hq
        rcases hsub q hq with hq | rfl
        · exact hk.start_le q hq
        · exact hk.start_le r hr
      · intro q hq hlt
        rcases hsub q hq with hq | rfl
        · exact hk.passed q hq hlt
        · exact hk.passed r hr hlt
  | fail hsub =>
      exact ⟨hk.nodup, hk.behind, fun r hr => hk.start_le r (hsub hr),
        fun r hr => hk.passed r (hsub hr)⟩

/-- A reply that is on time brings nothing that has been processed, and takes `lastBlock` behind
everything. -/
theorem Kept.deliver {done logs : List Log} {r : Request} {requests : List Request} (hs : Sound s)
    (hk : Kept s done) (hr : r ∈ s.requests) (hlogs : r.reply = some logs)
    (hsub : requests ⊆ s.requests) (htime : logs ≠ [] → s.lastBlock = r.fromBlock) :
    Kept { logs.foldl (handle miner) s with requests } (done ++ logs) := by
  by_cases hne : logs = []
  · subst hne
    rw [List.append_nil]
    exact ⟨hk.nodup, hk.behind, fun q hq => hk.start_le q (hsub hq),
      fun q hq => hk.passed q (hsub hq)⟩
  have hstart := htime hne
  have hordered := hs.reply_ordered hr hlogs
  have hge : ∀ l ∈ logs, s.lastBlock ≤ l.blockNumber := by
    intro l hl
    rw [hstart]
    exact hs.le_of_reply hr hlogs hl
  have hlt : ∀ l ∈ logs, l.blockNumber < (logs.foldl (handle miner) s).lastBlock :=
    fun l hl => lt_handled_lastBlock hordered hl
  have hadvance : s.lastBlock < (logs.foldl (handle miner) s).lastBlock :=
    (hge _ (List.head_mem hne)).trans_lt (hlt _ (List.head_mem hne))
  refine ⟨?_, ?_, ?_, ?_⟩
  · apply List.nodup_append.mpr
    refine ⟨hk.nodup, hordered.imp Log.Before.ne, ?_⟩
    intro l hl l' hl' heq
    subst heq
    exact absurd (hk.behind l hl) (Nat.not_lt.mpr (hge l hl'))
  · intro l hl
    rcases List.mem_append.mp hl with hl | hl
    · exact (hk.behind l hl).trans hadvance
    · exact hlt l hl
  · intro q hq
    exact (hk.start_le q (hsub hq)).trans hadvance.le
  · intro q hq _
    show ∃ l ∈ done ++ logs, (logs.foldl (handle miner) s).logs.find? _ = some l
    rw [handled_logs]
    rcases Nat.lt_or_eq_of_le (hk.start_le q (hsub hq)) with hearlier | heq
    · obtain ⟨l, hl, hfirst⟩ := hk.passed q (hsub hq) hearlier
      exact ⟨l, List.mem_append_left _ hl, hfirst⟩
    · -- it started from the same block, so the first log is in this reply
      obtain ⟨l, hl, hfirst⟩ := hs.first_of_reply hr hlogs hne
      rw [heq, hstart]
      exact ⟨l, List.mem_append_right _ hl, hfirst⟩

/-- A reply that is late brings a log again. -/
theorem Kept.onTime_of_nodup {done logs : List Log} {r : Request} (hs : Sound s) (hk : Kept s done)
    (hr : r ∈ s.requests) (hlogs : r.reply = some logs) (hnodup : (done ++ logs).Nodup)
    (hne : logs ≠ []) : s.lastBlock = r.fromBlock := by
  rcases Nat.lt_or_eq_of_le (hk.start_le r hr) with hlate | heq
  · obtain ⟨l, hl, hfirst⟩ := hk.passed r hr hlate
    obtain ⟨l', hl', hfirst'⟩ := hs.first_of_reply hr hlogs hne
    obtain rfl := Option.some.inj (hfirst.symm.trans hfirst')
    exact absurd rfl ((List.nodup_append.mp hnodup).2.2 l hl l hl')
  · exact heq.symm

/-! ## Runs -/

/-- What is known after a run. -/
structure Books (miner : Bytes) (s : State) (tr : List (Move State Event)) : Prop where
  sound : Sound s
  calls : s.calls = (processed tr).filter (concerns miner)
  kept : (∀ m ∈ tr, OnTime m) → Kept s (processed tr)
  onTime : (processed tr).Nodup → ∀ m ∈ tr, OnTime m

theorem Books.quiet {m : Move State Event} (hb : Books miner s tr) (hd : delivery m = none)
    (h : Step miner s none s') : Books miner s' (tr ++ [m]) := by
  have harrived : arrived m = [] := by
    rw [arrived, hd]
    rfl
  have hsame : processed (tr ++ [m]) = processed tr := by
    rw [processed_concat, harrived, List.append_nil]
  have hcalls : s'.calls = s.calls := by
    cases h <;> rfl
  refine ⟨hb.sound.step h, ?_, ?_, ?_⟩
  · rw [hcalls, hsame]
    exact hb.calls
  · intro hall
    rw [hsame]
    exact (hb.kept fun m hm => hall m (List.mem_append_left _ hm)).quiet h
  · intro hnodup m' hm
    rw [hsame] at hnodup
    rcases List.mem_append.mp hm with hm | hm
    · exact hb.onTime hnodup m' hm
    · rw [List.mem_singleton.mp hm]
      intro d hsome
      rw [hd] at hsome
      cases hsome

theorem Books.deliver {m : Move State Event} {r : Request} {logs : List Log}
    {requests : List Request} (hb : Books miner s tr) (hpre : m.pre = s)
    (hd : delivery m = some (r.fromBlock, logs)) (hr : r ∈ s.requests)
    (hlogs : r.reply = some logs) (hsub : requests ⊆ s.requests) :
    Books miner { logs.foldl (handle miner) s with requests } (tr ++ [m]) := by
  have hmore : processed (tr ++ [m]) = processed tr ++ logs := by
    rw [processed_concat, arrived, hd]
    rfl
  refine ⟨hb.sound.step (.deliver hr hlogs hsub), ?_, ?_, ?_⟩
  · rw [hmore, List.filter_append, ← hb.calls]
    exact handled_calls s logs
  · intro hall
    have htime := hall m (List.mem_append_right _ List.mem_cons_self) _ hd
    rw [hpre] at htime
    rw [hmore]
    exact Kept.deliver hb.sound (hb.kept fun m hm => hall m (List.mem_append_left _ hm)) hr hlogs
      hsub htime
  · intro hnodup m' hm
    rw [hmore] at hnodup
    have hearlier := hb.onTime (List.nodup_append.mp hnodup).1
    rcases List.mem_append.mp hm with hm | hm
    · exact hearlier m' hm
    · rw [List.mem_singleton.mp hm]
      intro d hsome hne
      rw [hd] at hsome
      obtain rfl := Option.some.inj hsome
      rw [hpre]
      exact (hb.kept hearlier).onTime_of_nodup hb.sound hr hlogs hnodup hne

theorem Books.step {e : Event} (hb : Books miner s tr) (h : step miner s e = some s') :
    Books miner s' (tr ++ [⟨s, e, s'⟩]) := by
  have hcases := step_cases h
  generalize hd : delivery ⟨s, e, s'⟩ = d at hcases
  cases d with
  | none => exact hb.quiet hd hcases
  | some d =>
      cases hcases with
      | deliver hr hlogs hsub => exact hb.deliver rfl hd hr hlogs hsub

/-- The state after a run, and its moves. -/
def after (miner : Bytes) (es : List Event) : State := exec (revert (step miner)) init es

def moves (miner : Bytes) (es : List Event) : List (Move State Event) := trace (step miner) init es

theorem books (miner : Bytes) (es : List Event) : Books miner (after miner es) (moves miner es) := by
  apply trace_run_induction (P := Books miner)
  · refine ⟨⟨.nil, by simp [init]⟩, rfl, fun _ => ?_, by simp⟩
    exact ⟨.nil, by simp [processed], by simp [init], by simp [init]⟩
  · intro s tr e s' hb h
    exact hb.step h

/-- **No log is processed twice if and only if every reply is on time.** -/
theorem nodup_iff_onTime (miner : Bytes) (es : List Event) :
    (processed (moves miner es)).Nodup ↔ ∀ m ∈ moves miner es, OnTime m :=
  ⟨(books miner es).onTime, fun h => ((books miner es).kept h).nodup⟩

/-! ## Rewards -/

/-- A log of the event `Reward` with the miner `a`, whose topic is spelled in either case. -/
def RewardOf (a : Address) (log : Log) : Prop :=
  ∃ event h, log.topics = [event, text "0x" ++ h] ∧ Spells h (packWord (a.setWidth 256))

/-- The page recognizes the rewards of the miner that it watches. -/
theorem concerns_of_rewardOf {a : Address} {log : Log} (hminer : Names miner a)
    (h : RewardOf a log) : concerns miner log = true := by
  obtain ⟨event, topic, htopics, hspells⟩ := h
  obtain ⟨digits, hdigits, hform⟩ := hminer
  have hword : topic.map lower = List.replicate 24 0x30 ++ digits.map lower := by
    rw [← hspells.to_hex_eq, ← hdigits.to_hex_eq, packWord_setWidth, Onchain.to_hex_append]
    rfl
  have hcut : (miner.drop 2).map lower <:+ digits.map lower := by
    rcases hform with rfl | rfl | rfl
    · rw [List.map_drop]
      exact List.drop_suffix _ _
    · exact List.suffix_refl _
    · exact List.suffix_refl _
  unfold concerns
  rw [htopics]
  apply decide_eq_true
  rw [List.map_append, hword]
  exact hcut.trans ((List.suffix_append _ _).trans (List.suffix_append _ _))

/-- Every reward of the miner in a reply that the page has processed was passed to the callback
once. -/
def OncePerReward (miner : Bytes) (a : Address) (es : List Event) : Prop :=
  ∀ log ∈ processed (moves miner es), RewardOf a log → (after miner es).calls.count log = 1

/-- The log of 10 wei for the miner 0x00..07. -/
def rewardOfSeven : Log where
  blockNumber := 5
  logIndex := 0
  topics := [text "0x01", text "0x" ++ toHex (packWord 7)]
  data := 10

/-- Two ticks before the first reply. -/
def overlapping : List Event :=
  [.append rewardOfSeven, .tick, .tick, .answer 0, .answer 1, .deliver 0, .deliver 0]

theorem rewardOf_seven : RewardOf 7 rewardOfSeven :=
  ⟨text "0x01", _, rfl, Onchain.spells_to_hex _⟩

/-- One reward, called back for twice. -/
theorem reward_reported_twice :
    ¬ (∀ miner a es, Names miner a → OncePerReward miner a es) ∧
      (after (nameOf 7) overlapping).calls.map reward = [⟨5, 10⟩, ⟨5, 10⟩] := by
  have hcalls : (after (nameOf 7) overlapping).calls = [rewardOfSeven, rewardOfSeven] := by
    decide +kernel
  have harrived : processed (moves (nameOf 7) overlapping) = [rewardOfSeven, rewardOfSeven] := by
    decide +kernel
  constructor
  · intro hall
    have hone := hall (nameOf 7) 7 overlapping (names_nameOf 7) rewardOfSeven
      (by rw [harrived]; exact List.mem_cons_self) rewardOf_seven
    rw [hcalls] at hone
    exact absurd hone (by decide +kernel)
  · rw [hcalls]
    rfl

/-- **When the rewards are reported once each.** In every run whose replies are all on time; and
where all that the ledger logs are rewards of the miner, in no other. -/
theorem once_per_reward {a : Address} (hminer : Names miner a) (es : List Event) :
    ((∀ m ∈ moves miner es, OnTime m) → OncePerReward miner a es) ∧
      ((∀ log ∈ processed (moves miner es), RewardOf a log) → OncePerReward miner a es →
        ∀ m ∈ moves miner es, OnTime m) := by
  have hb := books miner es
  constructor
  · intro htime log hlog hreward
    have hnodup := (nodup_iff_onTime miner es).mpr htime
    rw [hb.calls]
    apply List.count_eq_one_of_mem (hnodup.filter _)
    exact List.mem_filter.mpr ⟨hlog, concerns_of_rewardOf hminer hreward⟩
  · intro hrewards honce
    apply (nodup_iff_onTime miner es).mp
    have hcalls : (after miner es).calls = processed (moves miner es) := by
      rw [hb.calls]
      apply List.filter_eq_self.mpr
      intro log hlog
      exact concerns_of_rewardOf hminer (hrewards log hlog)
    apply List.nodup_iff_count_eq_one.mpr
    intro log hlog
    have hone := honce log hlog (hrewards log hlog)
    rwa [hcalls] at hone

/-- Two ticks that each wait for the reply before. -/
def inTurn : List Event :=
  [.append rewardOfSeven, .tick, .answer 0, .deliver 0, .tick, .answer 0, .deliver 0]

theorem once_per_reward_in_turn :
    OncePerReward (nameOf 7) 7 inTurn ∧ processed (moves (nameOf 7) inTurn) = [rewardOfSeven] := by
  refine ⟨?_, by decide +kernel⟩
  have htime : ∀ m ∈ moves (nameOf 7) inTurn, OnTime m := by decide +kernel
  exact (once_per_reward (names_nameOf 7) inTurn).1 htime

end ChainBeasts.Client.PoUWMonitor
