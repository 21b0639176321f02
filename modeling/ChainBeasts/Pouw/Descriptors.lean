import ChainBeasts.Handles
import ChainBeasts.Machine
import Mathlib.Data.List.Nodup

/-! # The descriptors of a node

`ProofAggregatorServer` runs a thread that accepts, a thread for each connection and the threads of
its callers, and the kernel hands the number of a closed socket out again. A thread that reads a
connection closes its descriptor when it ends, whatever has become of it; `broadcast`, where a send
fails, and `stop` close descriptors that such a thread still has, and do not tell it.

A state has the numbers that are open, the list `clients_` with its lock, and where each thread is;
any order of steps is a run, a step being one locked section or one socket call. While the lock is
held for more than one socket call, `locked` is set. As long as neither `broadcast` nor `stop` closes
anything in the list, every descriptor is closed once at most (`closed_once`). -/

namespace ChainBeasts.Pouw.Descriptors

open ChainBeasts.Handles
open ChainBeasts.Machine

/-! ## Threads -/

/-- Where a thread is. -/
inductive Thread where
  /-- `accept_loop`, before `accept`, and before it makes a client of what it got -/
  | accepting
  | accepted (c : Nat)
  /-- `connect`, before `::connect`, and before it makes a client of its socket -/
  | connecting (c : Nat)
  | connected (c : Nat)
  /-- one of these two, before it starts the thread that reads -/
  | pushed (c : Nat) (acceptor : Bool)
  /-- `handle_client`, at the head of its loop, before `recv_proof` and before `broadcast` -/
  | looping (fd : Nat)
  | receiving (fd : Nat)
  | received (fd : Nat)
  /-- `handle_client`, behind its loop, and before `close` -/
  | leaving (fd : Nat)
  | erased (fd : Nat)
  /-- `submit`, before `broadcast` -/
  | submitting
  /-- `broadcast` at place `k` of the list, called by the thread that reads `back` or by `submit` -/
  | broadcasting (k : Nat) (back : Option Nat)
  /-- `stop`, at its start, before it closes the server's socket, before it joins the accepting
  thread, before it takes the lock, and at place `k` of the list -/
  | stopping
  | unlistening
  | joining
  | locking
  | closing (k : Nat)
  deriving DecidableEq

def Thread.accepts : Thread → Bool
  | .accepting | .accepted _ | .pushed _ true => true
  | _ => false

structure State where
  /-- the open numbers of the process -/
  table : List Nat
  running : Bool
  serverFd : Option Nat
  clients : List Nat
  locked : Bool
  threads : List Thread
  /-- what was opened, closed and taken off the list -/
  log : List Call
  deriving DecidableEq

/-- A server that has been started. -/
def start (table : List Nat) (serverFd : Nat) : State where
  table := serverFd :: table
  running := true
  serverFd := some serverFd
  clients := []
  locked := false
  threads := [.accepting]
  log := [.opened serverFd]

def State.opens (s : State) (n : Nat) : State :=
  { s with table := n :: s.table, log := s.log ++ [.opened n] }

/-- A number that is not open is closed to no effect. -/
def State.closes (s : State) (n : Nat) : State :=
  { s with table := s.table.filter (· ≠ n), log := s.log ++ [.closed n] }

/-- What a socket call comes back with. -/
inductive Outcome where
  | got (n : Nat)
  | ok
  | fail
  deriving DecidableEq

/-- What the next step of a thread makes of the state, and the threads in its place. -/
def advance (s : State) (o : Outcome) : Thread → Option (State × List Thread)
  | .accepting =>
    match o with
    | .got n => if s.serverFd ≠ none ∧ n ∉ s.table then some (s.opens n, [.accepted n]) else none
    | .ok => none
    | .fail => some (s, if s.running then [.accepting] else [])
  | .accepted c =>
    if s.locked then none else some ({ s with clients := s.clients ++ [c] }, [.pushed c true])
  | .connecting c =>
    match o with
    | .got _ => none
    | .ok => some (s, [.connected c])
    | .fail => some (s.closes c, [])
  | .connected c =>
    if s.locked then none else some ({ s with clients := s.clients ++ [c] }, [.pushed c false])
  | .pushed c acceptor =>
    some (s, .looping c :: if acceptor && s.running then [.accepting] else [])
  | .looping fd => some (s, [if s.running then .receiving fd else .leaving fd])
  | .receiving fd =>
    match o with
    | .got _ => none
    | .ok => if fd ∈ s.table then some (s, [.received fd]) else none
    | .fail => some (s, [.leaving fd])
  | .received fd =>
    if s.locked then none else some ({ s with locked := true }, [.broadcasting 0 (some fd)])
  | .leaving fd =>
    if s.locked then none
    else some ({ s with
      clients := s.clients.filter (· ≠ fd)
      log := if fd ∈ s.clients then s.log ++ [.removed fd] else s.log }, [.erased fd])
  | .erased fd => some (s.closes fd, [])
  | .submitting =>
    if s.locked then none else some ({ s with locked := true }, [.broadcasting 0 none])
  | .broadcasting k back =>
    match s.clients[k]? with
    | some c =>
      match o with
      | .got _ => none
      | .ok => if c ∈ s.table then some (s, [.broadcasting (k + 1) back]) else none
      | .fail =>
        let s' := s.closes c
        some ({ s' with clients := s.clients.eraseIdx k, log := s'.log ++ [.removed c] },
          [.broadcasting k back])
    | none => some ({ s with locked := false }, (back.map Thread.looping).toList)
  | .stopping =>
    if s.running then some ({ s with running := false }, [.unlistening]) else some (s, [])
  | .unlistening =>
    match s.serverFd with
    | some n => some ({ s.closes n with serverFd := none }, [.joining])
    | none => some (s, [.joining])
  | .joining => if s.threads.any Thread.accepts then none else some (s, [.locking])
  | .locking => if s.locked then none else some ({ s with locked := true }, [.closing 0])
  | .closing k =>
    match s.clients[k]? with
    | some c => some (s.closes c, [.closing (k + 1)])
    | none =>
      some ({ s with
        clients := [], log := s.log ++ s.clients.map Call.removed, locked := false }, [])

/-- A caller comes in, `connect` with the number of its new socket; or the thread at place `i` goes
on, and its socket call, if it makes one, comes back with `o`. -/
inductive Event where
  | connect (n : Nat)
  | submit
  | stop
  | go (i : Nat) (o : Outcome)
  deriving DecidableEq

def step (s : State) : Event → Option State
  | .connect n =>
    if n ∉ s.table then some { s.opens n with threads := s.threads ++ [.connecting n] } else none
  | .submit => some { s with threads := s.threads ++ [.submitting] }
  | .stop => some { s with threads := s.threads ++ [.stopping] }
  | .go i o => do
    let t ← s.threads[i]?
    let (s', new) ← advance s o t
    some { s' with threads := s.threads.take i ++ (new ++ s.threads.drop (i + 1)) }

/-- The step closes a descriptor that is on the list: a send of `broadcast` fails, or `stop` has not
come to the end of the list. -/
def ClosesListed (m : Move State Event) : Bool :=
  match m.call with
  | .go i o =>
    match m.pre.threads[i]? with
    | some (.broadcasting k _) => k < m.pre.clients.length ∧ o = .fail
    | some (.closing k) => k < m.pre.clients.length
    | _ => false
  | _ => false

/-! ## Who owns a descriptor -/

/-- A descriptor belongs to the thread that is going to close it, or to start one that will. -/
def Thread.owns : Thread → List Nat
  | .accepted c | .connecting c | .connected c | .pushed c _ => [c]
  | .looping fd | .receiving fd | .received fd | .leaving fd | .erased fd => [fd]
  | .broadcasting _ back => back.toList
  | .accepting | .submitting | .stopping | .unlistening | .joining | .locking | .closing _ => []

/-- The descriptor that a thread has on the list: it is going to close it, and does not look whether
it still is there. -/
def Thread.lists : Thread → List Nat
  | .pushed c _ => [c]
  | .looping fd | .receiving fd | .received fd | .leaving fd => [fd]
  | .broadcasting _ back => back.toList
  | _ => []

def owners (s : State) : List Nat := s.serverFd.toList ++ s.threads.flatMap Thread.owns

variable {s s' : State} {o : Outcome} {t : Thread} {new : List Thread} {others : List Nat}

/-- What a step of a thread can do: nothing to any descriptor, or one of the calls and locked
sections that do. -/
inductive Effect (s : State) : Outcome → Thread → State → List Thread → Prop where
  | quiet {o : Outcome} {t : Thread} {s' : State} {new : List Thread} (htable : s'.table = s.table)
      (hlog : s'.log = s.log) (hserver : s'.serverFd = s.serverFd)
      (hclients : s'.clients = s.clients) (howns : new.flatMap Thread.owns = t.owns)
      (hlists : new.flatMap Thread.lists = t.lists) : Effect s o t s' new
  | accepting {n : Nat} (hn : n ∉ s.table) :
      Effect s (.got n) .accepting (s.opens n) [.accepted n]
  | accepted {o : Outcome} {c : Nat} :
      Effect s o (.accepted c) { s with clients := s.clients ++ [c] } [.pushed c true]
  | connecting {c : Nat} : Effect s .fail (.connecting c) (s.closes c) []
  | connected {o : Outcome} {c : Nat} :
      Effect s o (.connected c) { s with clients := s.clients ++ [c] } [.pushed c false]
  | leaving {o : Outcome} {fd : Nat} {log : List Call}
      (hlog : log = s.log ++ [.removed fd] ∨ log = s.log) :
      Effect s o (.leaving fd) { s with clients := s.clients.filter (· ≠ fd), log } [.erased fd]
  | erased {o : Outcome} {fd : Nat} : Effect s o (.erased fd) (s.closes fd) []
  | broadcasting {k c : Nat} {back : Option Nat} (hc : s.clients[k]? = some c) :
      Effect s .fail (.broadcasting k back) { s.closes c with
        clients := s.clients.eraseIdx k, log := (s.closes c).log ++ [.removed c] }
        [.broadcasting k back]
  | unlistening {o : Outcome} {n : Nat} (hn : s.serverFd = some n) :
      Effect s o .unlistening { s.closes n with serverFd := none } [.joining]
  | closing {o : Outcome} {k c : Nat} (hc : s.clients[k]? = some c) :
      Effect s o (.closing k) (s.closes c) [.closing (k + 1)]
  | cleared {o : Outcome} {k : Nat} : Effect s o (.closing k) { s with
      clients := [], log := s.log ++ s.clients.map Call.removed, locked := false } []

theorem advance_cases (h : advance s o t = some (s', new)) : Effect s o t s' new := by
  cases t with
  | accepting =>
      cases o with
      | got n =>
          obtain ⟨⟨-, hn⟩, heq⟩ := Option.ite_none_right_eq_some.mp h
          cases heq
          exact .accepting hn
      | ok => cases h
      | fail =>
          cases h
          split <;> exact .quiet rfl rfl rfl rfl rfl rfl
  | accepted c =>
      obtain ⟨-, heq⟩ := Option.ite_none_left_eq_some.mp h
      cases heq
      exact .accepted
  | connecting c =>
      cases o with
      | got n => cases h
      | ok =>
          cases h
          exact .quiet rfl rfl rfl rfl rfl rfl
      | fail =>
          cases h
          exact .connecting
  | connected c =>
      obtain ⟨-, heq⟩ := Option.ite_none_left_eq_some.mp h
      cases heq
      exact .connected
  | pushed c acceptor =>
      cases h
      split <;> exact .quiet rfl rfl rfl rfl rfl rfl
  | looping fd =>
      cases h
      split <;> exact .quiet rfl rfl rfl rfl rfl rfl
  | receiving fd =>
      cases o with
      | got n => cases h
      | ok =>
          obtain ⟨-, heq⟩ := Option.ite_none_right_eq_some.mp h
          cases heq
          exact .quiet rfl rfl rfl rfl rfl rfl
      | fail =>
          cases h
          exact .quiet rfl rfl rfl rfl rfl rfl
  | leaving fd =>
      obtain ⟨-, heq⟩ := Option.ite_none_left_eq_some.mp h
      cases heq
      exact .leaving (ite_eq_or_eq _ _ _)
  | erased fd =>
      cases h
      exact .erased
  | broadcasting k back =>
      simp only [advance] at h
      cases hc : s.clients[k]? with
      | none =>
          simp only [hc] at h
          cases h
          cases back <;> exact .quiet rfl rfl rfl rfl rfl rfl
      | some c =>
          simp only [hc] at h
          cases o with
          | got n => cases h
          | ok =>
              obtain ⟨-, heq⟩ := Option.ite_none_right_eq_some.mp h
              cases heq
              cases back <;> exact .quiet rfl rfl rfl rfl rfl rfl
          | fail =>
              cases h
              exact .broadcasting hc
  | stopping =>
      simp only [advance] at h
      split at h <;> cases h <;> exact .quiet rfl rfl rfl rfl rfl rfl
  | unlistening =>
      simp only [advance] at h
      cases hserver : s.serverFd with
      | none =>
          simp only [hserver] at h
          cases h
          exact .quiet rfl rfl rfl rfl rfl rfl
      | some n =>
          simp only [hserver] at h
          cases h
          exact .unlistening hserver
  | received _ | submitting | joining | locking =>
      -- the thread waits, and takes the lock or goes on
      obtain ⟨-, heq⟩ := Option.ite_none_left_eq_some.mp h
      cases heq
      exact .quiet rfl rfl rfl rfl rfl rfl
  | closing k =>
      simp only [advance] at h
      cases hc : s.clients[k]? with
      | none =>
          simp only [hc] at h
          cases h
          exact .cleared
      | some c =>
          simp only [hc] at h
          cases h
          exact .closing hc

/-! ## One owner -/

/-- The server's socket stays with the server, and `n` is new. -/
theorem opens_owned {n : Nat} (h : Owned s.table s.log (s.serverFd.toList ++ others))
    (hn : n ∉ s.table) :
    Owned (s.opens n).table (s.opens n).log (s.serverFd.toList ++ (n :: others)) :=
  (h.opened hn).perm List.perm_middle.symm

theorem closes_owned {n : Nat} (h : Owned s.table s.log (s.serverFd.toList ++ (n :: others))) :
    Owned (s.closes n).table (s.closes n).log (s.serverFd.toList ++ others) :=
  (h.perm List.perm_middle).closed

theorem removed_owned {owners : List Nat} {log : List Call} (h : Owned s.table log owners)
    (cs : List Nat) : Owned s.table (log ++ cs.map Call.removed) owners := by
  induction cs generalizing log with
  | nil => simpa using h
  | cons c cs ih =>
      have hrest := ih (h.removed c)
      rwa [List.append_assoc, List.singleton_append] at hrest

/-- **A step of a thread keeps every descriptor with one owner**, unless it closes one that is on the
list. -/
theorem Effect.owned (h : Effect s o t s' new)
    (hlisted : ∀ k, (∀ back, t = .broadcasting k back → o = .fail → s.clients.length ≤ k) ∧
      (t = .closing k → s.clients.length ≤ k))
    (hs : Owned s.table s.log (s.serverFd.toList ++ (t.owns ++ others))) :
    Owned s'.table s'.log (s'.serverFd.toList ++ (new.flatMap Thread.owns ++ others)) := by
  cases h with
  | quiet htable hlog hserver _ howns _ =>
      rw [htable, hlog, hserver, howns]
      exact hs
  | accepting hn => exact opens_owned hs hn
  | accepted => exact hs
  | connecting => exact closes_owned hs
  | connected => exact hs
  | @leaving _ fd _ hlog =>
      rcases hlog with rfl | rfl
      · exact hs.removed fd
      · exact hs
  | erased => exact closes_owned hs
  | @broadcasting k c back hc =>
      have hend := List.getElem?_eq_none ((hlisted k).1 back rfl rfl)
      rw [hend] at hc
      cases hc
  | unlistening hn =>
      rw [hn] at hs
      exact Owned.closed hs
  | @closing _ k c hc =>
      have hend := List.getElem?_eq_none ((hlisted k).2 rfl)
      rw [hend] at hc
      cases hc
  | cleared => exact removed_owned hs s.clients
/-- What some threads have of descriptors, wherever they stand. -/
theorem flatMap_perm (f : Thread → List Nat) (front new back : List Thread) :
    ((front ++ (new ++ back)).flatMap f).Perm
      (new.flatMap f ++ (front.flatMap f ++ back.flatMap f)) := by
  rw [List.flatMap_append, List.flatMap_append]
  exact List.perm_append_comm_assoc _ _ _

/-- What the threads have, the one at place `i` first. -/
theorem threads_perm (f : Thread → List Nat) {threads : List Thread} {i : Nat}
    (ht : threads[i]? = some t) : (threads.flatMap f).Perm
      (f t ++ ((threads.take i).flatMap f ++ (threads.drop (i + 1)).flatMap f)) := by
  obtain ⟨hi, rfl⟩ := List.getElem?_eq_some_iff.mp ht
  have hsplit : threads.take i ++ ([threads[i]] ++ threads.drop (i + 1)) = threads := by
    rw [List.singleton_append, ← List.drop_eq_getElem_cons hi, List.take_append_drop]
  have hperm := flatMap_perm f (threads.take i) [threads[i]] (threads.drop (i + 1))
  rwa [hsplit, List.flatMap_singleton] at hperm

theorem step_go {i : Nat} (h : step s (.go i o) = some s') :
    ∃ t s₁ new, s.threads[i]? = some t ∧ advance s o t = some (s₁, new) ∧
      s' = { s₁ with threads := s.threads.take i ++ (new ++ s.threads.drop (i + 1)) } := by
  simp only [step, Option.bind_eq_bind, Option.bind_eq_some_iff, Option.some.injEq,
    Prod.exists] at h
  obtain ⟨t, ht, s₁, new, hadvance, rfl⟩ := h
  exact ⟨t, s₁, new, ht, hadvance, rfl⟩

/-- **The step lemma.** -/
theorem step_owned {e : Event} (h : step s e = some s') (hclean : ClosesListed ⟨s, e, s'⟩ = false)
    (hs : Owned s.table s.log (owners s)) : Owned s'.table s'.log (owners s') := by
  have hidle : ∀ t : Thread, t.owns = [] →
      (s.threads ++ [t]).flatMap Thread.owns = s.threads.flatMap Thread.owns := by
    intro t ht
    rw [List.flatMap_append, List.flatMap_singleton, ht, List.append_nil]
  cases e with
  | connect n =>
      obtain ⟨hn, heq⟩ := Option.ite_none_right_eq_some.mp h
      cases heq
      apply (opens_owned hs hn).perm
      show (s.serverFd.toList ++ (n :: _)).Perm (s.serverFd.toList ++ List.flatMap _ _)
      rw [List.flatMap_append]
      exact (List.perm_append_singleton n _).symm.append_left _
  | submit =>
      cases h
      show Owned s.table s.log (s.serverFd.toList ++ List.flatMap _ _)
      rw [hidle _ rfl]
      exact hs
  | stop =>
      cases h
      show Owned s.table s.log (s.serverFd.toList ++ List.flatMap _ _)
      rw [hidle _ rfl]
      exact hs
  | go i o =>
      obtain ⟨t, s₁, new, ht, hadvance, rfl⟩ := step_go h
      have hlisted : ∀ k, (∀ back, t = .broadcasting k back → o = .fail → s.clients.length ≤ k) ∧
          (t = .closing k → s.clients.length ≤ k) := by
        intro k
        simp only [ClosesListed, ht] at hclean
        refine ⟨?_, ?_⟩
        · intro back hthread ho
          rw [hthread] at hclean
          simpa [ho] using hclean
        · intro hthread
          rw [hthread] at hclean
          simpa using hclean
      have hbefore := (threads_perm Thread.owns ht).append_left s.serverFd.toList
      have hafter := (advance_cases hadvance).owned hlisted (hs.perm hbefore)
      exact hafter.perm ((flatMap_perm Thread.owns _ new _).append_left _).symm

/-! ## The list and the threads -/

/-- A step puts a descriptor on the list together with the thread that is going to read it, and a
thread that is done with reading takes its own off. -/
theorem Effect.listed (h : Effect s o t s' new) (hs : ∀ c ∈ s.clients, c ∈ t.lists ++ others) :
    ∀ c ∈ s'.clients, c ∈ new.flatMap Thread.lists ++ others := by
  have hpush : ∀ c : Nat, (∀ d ∈ s.clients, d ∈ others) →
      ∀ d ∈ s.clients ++ [c], d ∈ c :: others := by
    intro c hall d hd
    rcases List.mem_append.mp hd with hd | hd
    · exact List.mem_cons_of_mem c (hall d hd)
    · rw [List.mem_singleton.mp hd]
      exact List.mem_cons_self
  cases h with
  | quiet _ _ _ hclients _ hlists =>
      rw [hclients, hlists]
      exact hs
  | accepting hn => exact hs
  | accepted => exact hpush _ hs
  | connecting => exact hs
  | connected => exact hpush _ hs
  | leaving hlog =>
      intro d hd
      obtain ⟨hd, hne⟩ := List.mem_filter.mp hd
      exact (List.mem_cons.mp (hs d hd)).resolve_left (of_decide_eq_true hne)
  | erased => exact hs
  | @broadcasting k c back hc =>
      intro d hd
      have hmem := hs d (List.mem_of_mem_eraseIdx hd)
      cases back <;> exact hmem
  | unlistening hn => exact hs
  | closing hc => exact hs
  | cleared =>
      intro d hd
      exact absurd hd List.not_mem_nil

/-- Every descriptor on the list is that of a thread. -/
def Listed (s : State) : Prop := ∀ c ∈ s.clients, c ∈ s.threads.flatMap Thread.lists

theorem Listed.step {e : Event} (hs : Listed s) (h : step s e = some s') : Listed s' := by
  have hmore : ∀ t : Thread, ∀ c ∈ s.clients, c ∈ (s.threads ++ [t]).flatMap Thread.lists := by
    intro t c hc
    rw [List.flatMap_append]
    exact List.mem_append_left _ (hs c hc)
  cases e with
  | connect n =>
      obtain ⟨-, heq⟩ := Option.ite_none_right_eq_some.mp h
      cases heq
      exact hmore _
  | submit =>
      cases h
      exact hmore _
  | stop =>
      cases h
      exact hmore _
  | go i o =>
      obtain ⟨t, s₁, new, ht, hadvance, rfl⟩ := step_go h
      have hafter := (advance_cases hadvance).listed fun c hc =>
        (threads_perm Thread.lists ht).mem_iff.mp (hs c hc)
      intro c hc
      exact (flatMap_perm Thread.lists _ new _).mem_iff.mpr (hafter c hc)

/-! ## Runs -/

/-- The state after a run of a server that has been started. -/
def after (table : List Nat) (serverFd : Nat) (es : List Event) : State :=
  exec (revert step) (start table serverFd) es

def moves (table : List Nat) (serverFd : Nat) (es : List Event) : List (Move State Event) :=
  trace step (start table serverFd) es

theorem start_owned {table : List Nat} {serverFd : Nat} :
    Owned (start table serverFd).table (start table serverFd).log
      (owners (start table serverFd)) := by
  have hlog : ∀ m, closings m [.opened serverFd] = 0 := by
    intro m
    by_cases hm : m = serverFd
    · rw [hm]
      exact closings_opened serverFd []
    · exact @closings_concat m [] (.opened serverFd) (by simpa using Ne.symm hm) (by simp)
  refine ⟨List.nodup_singleton _, ?_, fun m _ => hlog m, ?_⟩
  · intro m hm
    rw [List.mem_singleton.mp hm]
    exact List.mem_cons_self
  · intro m
    show closings m [.opened serverFd] ≤ 1
    rw [hlog m]
    exact Nat.zero_le 1

/-- **Why the list is not to be closed.** A step that closes a descriptor of the list closes that of
a thread which is going to close it, and which the step leaves where it is. -/
theorem closes_under_thread (table : List Nat) (serverFd : Nat) (es : List Event) {e : Event}
    (h : step (after table serverFd es) e = some s')
    (hlisted : ClosesListed ⟨after table serverFd es, e, s'⟩ = true) :
    ∃ c ∈ (after table serverFd es).clients, 1 ≤ closings c s'.log ∧
      ∃ t ∈ s'.threads, c ∈ t.lists := by
  have hall : Listed (after table serverFd es) := by
    apply revert_induction Listed
    · intro c hc
      cases hc
    · intro s e s' hs h
      exact hs.step h
  generalize after table serverFd es = s at h hlisted hall
  cases e with
  | connect n => cases hlisted
  | submit => cases hlisted
  | stop => cases hlisted
  | go i o =>
      obtain ⟨t, s₁, new, ht, hadvance, rfl⟩ := step_go h
      simp only [ClosesListed, ht] at hlisted
      -- the thread whose descriptor it is, is one of the others, or calls `broadcast` itself
      have hstays : ∀ c ∈ s.clients, new.flatMap Thread.lists = t.lists →
          ∃ t ∈ s.threads.take i ++ (new ++ s.threads.drop (i + 1)), c ∈ t.lists := by
        intro c hc hsame
        have hmem := (threads_perm Thread.lists ht).mem_iff.mp (hall c hc)
        rw [← hsame] at hmem
        exact List.mem_flatMap.mp ((flatMap_perm Thread.lists _ new _).mem_iff.mpr hmem)
      cases t with
      | broadcasting k back =>
          obtain ⟨hk, rfl⟩ := of_decide_eq_true hlisted
          have hc := List.getElem?_eq_getElem hk
          simp only [advance, hc] at hadvance
          cases hadvance
          refine ⟨_, List.getElem_mem hk, ?_, hstays _ (List.getElem_mem hk) ?_⟩
          · show 1 ≤ closings _ (s.log ++ [.closed _] ++ [.removed _])
            rw [closings_concat (by simp) (by simp), closings_closed]
            exact Nat.le_add_left 1 _
          · exact List.flatMap_singleton _ _
      | closing k =>
          have hk : k < s.clients.length := of_decide_eq_true hlisted
          have hc := List.getElem?_eq_getElem hk
          simp only [advance, hc] at hadvance
          cases hadvance
          refine ⟨_, List.getElem_mem hk, ?_, hstays _ (List.getElem_mem hk) rfl⟩
          show 1 ≤ closings _ (s.log ++ [.closed _])
          rw [closings_closed]
          exact Nat.le_add_left 1 _
      | _ => cases hlisted

/-- A client comes in as 4, and a send to it fails while its thread is receiving. -/
def sendFails : List Event :=
  [.go 0 (.got 4), .go 0 .ok, .go 0 .ok, .go 0 .ok, .submit, .go 2 .ok, .go 2 .fail, .go 2 .ok,
    .go 0 .fail, .go 0 .ok]

/-- The number goes to a new client before the thread of the old one closes it, and a send to the
new client fails in turn. -/
def reused : List Event :=
  sendFails ++ [.go 1 (.got 4), .go 1 .ok, .go 0 .ok, .submit, .go 1 .ok, .go 1 .fail]

/-- The server is stopped while the thread is receiving. -/
def stopped : List Event :=
  [.go 0 (.got 4), .go 0 .ok, .go 0 .ok, .go 0 .ok, .stop, .go 2 .ok, .go 2 .ok, .go 1 .fail,
    .go 1 .ok, .go 1 .ok, .go 1 .ok, .go 1 .ok, .go 0 .fail, .go 0 .ok, .go 0 .ok]

/-- The thread closes once more what `broadcast` or `stop` has closed; and the second client is
closed twice while it is on the list. -/
theorem closed_twice :
    ¬ (∀ table serverFd es n, closings n (after table serverFd es).log ≤ 1 ∧
        listedClosings n (after table serverFd es).log ≤ 1) ∧
      closings 4 (after [0, 1, 2] 3 (sendFails ++ [.go 0 .ok])).log = 2 ∧
      listedClosings 4 (after [0, 1, 2] 3 reused).log = 2 ∧
      closings 4 (after [0, 1, 2] 3 stopped).log = 2 := by
  have hreused : listedClosings 4 (after [0, 1, 2] 3 reused).log = 2 := by decide +kernel
  refine ⟨?_, by decide +kernel, hreused, by decide +kernel⟩
  intro hall
  have honce := (hall [0, 1, 2] 3 reused 4).2
  rw [hreused] at honce
  exact absurd honce (by decide)

/-- **When every descriptor is closed once at most.** In every run in which no step closes a
descriptor that is on the list, each number is closed at most once from one time it is opened to the
next, and so before it is removed. -/
theorem closed_once (table : List Nat) (serverFd : Nat) (es : List Event)
    (hclean : ∀ m ∈ moves table serverFd es, ClosesListed m = false) (n : Nat) :
    closings n (after table serverFd es).log ≤ 1 ∧
      listedClosings n (after table serverFd es).log ≤ 1 := by
  have howned : Owned (after table serverFd es).table (after table serverFd es).log
      (owners (after table serverFd es)) := by
    apply trace_induction (fun m => ClosesListed m = false)
      (fun s _ => Owned s.table s.log (owners s)) start_owned ?_ es hclean
    intro s tr e s' hs h hm
    exact step_owned h hm hs
  exact ⟨howned.once n, Nat.le_trans (listedClosings_le n _) (howned.once n)⟩

/-- A client that closes its end is read to its end. -/
def readToEnd : List Event :=
  [.go 0 (.got 4), .go 0 .ok, .go 0 .ok, .go 0 .ok, .go 0 .fail, .go 0 .ok, .go 0 .ok]

theorem closed_once_four : closings 4 (after [0, 1, 2] 3 readToEnd).log ≤ 1 ∧
    listedClosings 4 (after [0, 1, 2] 3 readToEnd).log ≤ 1 :=
  closed_once [0, 1, 2] 3 readToEnd (by decide +kernel) 4

end ChainBeasts.Pouw.Descriptors
