import ChainBeasts.Progress
import ChainBeasts.Int8.Inference

/-! # `GpuDispatchQueue` of `int8_kernel.hpp`

A worker thread takes tasks off a queue and calls them. What happens under the lock is one step; the
condition variable wakes the worker on a notification, or for no reason. An `enqueue` notifies after it
has released the lock, so the queue may have changed again by then.

`worker_` is declared in front of `stop_`, and members are initialized in the order of their
declarations: the thread runs before `stop_` is false, and sees what lies there. `gpu_queue` is static,
so that is 0; then no task is lost, none is called twice or out of order, and the destructor waits for
all of them (`drains_iff`). -/

namespace ChainBeasts.Int8.GpuDispatchQueue

open ChainBeasts.Machine

/-! ## The source -/

/-- The thread of `run`. -/
inductive Worker (T : Type) where
  /-- About to look at the queue. -/
  | ready
  /-- In `cv_.wait`, asleep. -/
  | asleep
  | calling (task : T)
  /-- `run` has returned. -/
  | exited

/-- The thread that the queue belongs to. -/
inductive Owner where
  /-- The worker is started, and `stop_` not initialized. -/
  | constructing
  | inUse
  /-- In the destructor: `stop_` is set, -/
  | stopping
  /-- the worker notified -/
  | joining
  /-- and joined. -/
  | gone
  deriving DecidableEq

structure State (T Mem : Type) where
  tasks : List T
  stop : Bool
  worker : Worker T
  owner : Owner
  /-- The calls of `enqueue` that are about to notify. -/
  notifying : Nat
  /-- What the tasks read and write. -/
  memory : Mem

inductive Event (T : Type) where
  /-- The constructor goes on. -/
  | construct
  | enqueue (task : T)
  | notify
  /-- The destructor sets `stop_`, -/
  | stop
  /-- notifies the worker -/
  | notifyStop
  /-- and waits for it. -/
  | join
  /-- The worker wakes up for no reason, -/
  | wake
  /-- looks at the queue -/
  | look
  /-- and ends a call. -/
  | finish

variable {T Mem : Type} (call : T → Mem → Mem)

/-- `cv_.notify_one`. -/
def Worker.notified : Worker T → Worker T
  | .asleep => .ready
  | w => w

/-- From the evaluation of the predicate under the lock to its release. -/
def State.look (s : State T Mem) : State T Mem :=
  match s.tasks with
  | [] => { s with worker := if s.stop then .exited else .asleep }
  | task :: tasks => { s with tasks := tasks, worker := .calling task }

/-- The queue may be used between its construction and its destruction, and no use of it may be under
way when it is destroyed. -/
def step (s : State T Mem) : Event T → Option (State T Mem)
  | .construct =>
    if s.owner = .constructing then some { s with stop := false, owner := .inUse } else none
  | .enqueue task =>
    if s.owner = .inUse then
      some { s with tasks := s.tasks ++ [task], notifying := s.notifying + 1 }
    else none
  | .notify =>
    if 0 < s.notifying then
      some { s with notifying := s.notifying - 1, worker := s.worker.notified }
    else none
  | .stop =>
    if s.owner = .inUse ∧ s.notifying = 0 then some { s with stop := true, owner := .stopping }
    else none
  | .notifyStop =>
    if s.owner = .stopping then some { s with owner := .joining, worker := s.worker.notified }
    else none
  | .join =>
    match s.owner, s.worker with
    | .joining, .exited => some { s with owner := .gone }
    | _, _ => none
  | .wake =>
    match s.worker with
    | .asleep => some { s with worker := .ready }
    | _ => none
  | .look =>
    match s.worker with
    | .ready => some s.look
    | _ => none
  | .finish =>
    match s.worker with
    | .calling task => some { s with worker := .ready, memory := call task s.memory }
    | _ => none

/-- `stop` is what lies in `stop_`. -/
def start (stop : Bool) (memory : Mem) : State T Mem := ⟨[], stop, .ready, .constructing, 0, memory⟩

def run (stop : Bool) (memory : Mem) (events : List (Event T)) : State T Mem :=
  exec (revert (step call)) (start stop memory) events

def moves (stop : Bool) (memory : Mem) (events : List (Event T)) :
    List (Move (State T Mem) (Event T)) :=
  trace (step call) (start stop memory) events

/-! ## Orders -/

/-- The task of a call of `enqueue`. -/
def Event.task : Event T → Option T
  | .enqueue task => some task
  | _ => none

def Worker.task : Worker T → Option T
  | .calling task => some task
  | _ => none

/-- The task whose call ends. -/
def ended (m : Move (State T Mem) (Event T)) : Option T :=
  match m.call with
  | .finish => m.pre.worker.task
  | _ => none

def enqueued (tr : List (Move (State T Mem) (Event T))) : List T := tr.filterMap (·.call.task)

/-- The tasks that have been called; their futures are ready. -/
def called (tr : List (Move (State T Mem) (Event T))) : List T := tr.filterMap ended

/-- The memory after some tasks, called one after the other. -/
def calledInOrder (memory : Mem) (tasks : List T) : Mem := tasks.foldl (fun m t => call t m) memory

/-- The tasks that have not been called yet. -/
def State.pending (s : State T Mem) : List T := s.worker.task.toList ++ s.tasks

/-- What the threads do by themselves. -/
def Event.Own : Event T → Prop
  | .enqueue _ | .stop | .wake => False
  | _ => True

/-! ## No task is lost as long as the worker runs -/

/-- `tr` are the moves up to `s`. -/
structure Accounted (m₀ : Mem) (s : State T Mem) (tr : List (Move (State T Mem) (Event T))) :
    Prop where
  order : called tr ++ s.pending = enqueued tr
  memory : s.memory = calledInOrder call m₀ (called tr)

variable {call}

theorem called_concat {tr : List (Move (State T Mem) (Event T))} (m : Move (State T Mem) (Event T)) :
    called (tr ++ [m]) = called tr ++ (ended m).toList := by
  simp only [called, List.filterMap_append, List.filterMap_cons, List.filterMap_nil]
  cases ended m <;> rfl

theorem enqueued_concat {tr : List (Move (State T Mem) (Event T))}
    (m : Move (State T Mem) (Event T)) :
    enqueued (tr ++ [m]) = enqueued tr ++ m.call.task.toList := by
  simp only [enqueued, List.filterMap_append, List.filterMap_cons, List.filterMap_nil]
  cases m.call.task <;> rfl

@[simp] theorem Worker.task_notified (w : Worker T) : w.notified.task = w.task := by
  cases w <;> rfl

/-- A step that neither adds a task nor ends a call leaves the account as it is. -/
theorem Accounted.quiet {m₀ : Mem} {s s' : State T Mem} {tr : List (Move (State T Mem) (Event T))}
    {e : Event T} (h : Accounted call m₀ s tr) (htask : e.task = none)
    (hended : ended ⟨s, e, s'⟩ = none) (hpending : s'.pending = s.pending)
    (hmemory : s'.memory = s.memory) : Accounted call m₀ s' (tr ++ [⟨s, e, s'⟩]) := by
  constructor
  · rw [called_concat, enqueued_concat, hended, htask, hpending]
    simpa using h.order
  · rw [called_concat, hended, hmemory]
    simpa using h.memory

/-- Looking at the queue moves its first task to the hand of the worker. -/
theorem State.look_pending {s : State T Mem} (h : s.worker = .ready) :
    s.look.pending = s.pending := by
  unfold State.look
  split
  · next hempty =>
      cases hstop : s.stop <;> simp [State.pending, hempty, h, Worker.task]
  · next task tasks hfront => simp [State.pending, hfront, h, Worker.task]

theorem State.look_memory (s : State T Mem) : s.look.memory = s.memory := by
  unfold State.look
  split <;> rfl

theorem Accounted.step {m₀ : Mem} {s s' : State T Mem} {tr : List (Move (State T Mem) (Event T))}
    {e : Event T} (h : Accounted call m₀ s tr) (hstep : step call s e = some s') :
    Accounted call m₀ s' (tr ++ [⟨s, e, s'⟩]) := by
  cases e with
  | construct =>
      obtain ⟨-, hs⟩ := Option.ite_none_right_eq_some.mp hstep
      cases hs
      exact h.quiet rfl rfl rfl rfl
  | enqueue task =>
      obtain ⟨-, hs⟩ := Option.ite_none_right_eq_some.mp hstep
      cases hs
      constructor
      · rw [called_concat, enqueued_concat]
        simp only [ended, Event.task, Option.toList_none, Option.toList_some, List.append_nil,
          ← h.order]
        simp [State.pending]
      · rw [called_concat]
        simpa [ended] using h.memory
  | notify =>
      obtain ⟨-, hs⟩ := Option.ite_none_right_eq_some.mp hstep
      cases hs
      exact h.quiet rfl rfl (by simp [State.pending]) rfl
  | stop =>
      obtain ⟨-, hs⟩ := Option.ite_none_right_eq_some.mp hstep
      cases hs
      exact h.quiet rfl rfl rfl rfl
  | notifyStop =>
      obtain ⟨-, hs⟩ := Option.ite_none_right_eq_some.mp hstep
      cases hs
      exact h.quiet rfl rfl (by simp [State.pending]) rfl
  | join =>
      simp only [GpuDispatchQueue.step] at hstep
      split at hstep
      · cases hstep
        exact h.quiet rfl rfl rfl rfl
      · cases hstep
  | wake =>
      simp only [GpuDispatchQueue.step] at hstep
      split at hstep
      · next hworker =>
          cases hstep
          exact h.quiet rfl rfl (by simp [State.pending, hworker, Worker.task]) rfl
      · cases hstep
  | look =>
      simp only [GpuDispatchQueue.step] at hstep
      split at hstep
      · next hworker =>
          cases hstep
          exact h.quiet rfl rfl (State.look_pending hworker) s.look_memory
      · cases hstep
  | finish =>
      simp only [GpuDispatchQueue.step] at hstep
      split at hstep
      · next task hworker =>
          cases hstep
          constructor
          · rw [called_concat, enqueued_concat]
            simp only [ended, hworker, Event.task, ← h.order]
            simp [State.pending, hworker, Worker.task]
          · rw [called_concat]
            simp [ended, hworker, Worker.task, calledInOrder, h.memory]
      · cases hstep

variable (call) in
/-- Whatever lies in `stop_`, tasks are called one after the other, in the order of `enqueue`. -/
theorem accounted (stop : Bool) (m₀ : Mem) (events : List (Event T)) :
    Accounted call m₀ (run call stop m₀ events) (moves call stop m₀ events) :=
  trace_run_induction (P := Accounted call m₀) ⟨rfl, rfl⟩ (fun _ _ _ _ h hs => h.step hs) events

/-! ## The worker is woken for every task -/

/-- The destructor has set `stop_`. -/
def Owner.Ends : Owner → Prop
  | .stopping | .joining | .gone => True
  | _ => False

/-- What holds if `stop_` was false from the beginning. -/
structure Awake (s : State T Mem) : Prop where
  stop : s.stop = true ↔ s.owner.Ends
  /-- A worker that sleeps though there is something to do is about to be notified. -/
  asleep : s.worker = .asleep → s.tasks ≠ [] ∨ s.stop = true →
    0 < s.notifying ∨ s.owner = .stopping
  exited : s.worker = .exited → s.tasks = [] ∧ s.owner.Ends
  gone : s.owner = .gone → s.worker = .exited

theorem Worker.notified_ne_asleep (w : Worker T) : w.notified ≠ .asleep := by
  cases w <;> simp [Worker.notified]

theorem Worker.notified_eq_exited {w : Worker T} : w.notified = .exited ↔ w = .exited := by
  cases w <;> simp [Worker.notified]

theorem State.look_awake {s : State T Mem} (h : Awake s) (hworker : s.worker = .ready) :
    Awake s.look := by
  have hgone : s.owner ≠ .gone := fun hown => by simp [h.gone hown] at hworker
  unfold State.look
  split
  · next hempty =>
      cases hstop : s.stop with
      | false =>
          refine ⟨by simpa [hstop] using h.stop, ?_, ?_, fun hown => absurd hown hgone⟩
          · intro _ hsome
            simp [hempty] at hsome
          · simp
      | true =>
          refine ⟨by simpa [hstop] using h.stop, by simp, ?_, fun hown => absurd hown hgone⟩
          intro _
          exact ⟨hempty, h.stop.mp hstop⟩
  · exact ⟨h.stop, by simp, by simp, fun hown => absurd hown hgone⟩

theorem Awake.step {s s' : State T Mem} {e : Event T} (h : Awake s)
    (hstep : step call s e = some s') : Awake s' := by
  cases e with
  | construct =>
      obtain ⟨howner, hs⟩ := Option.ite_none_right_eq_some.mp hstep
      cases hs
      have hstop : s.stop = false := by
        simpa [howner, Owner.Ends] using h.stop
      refine ⟨by simp [Owner.Ends], ?_, ?_, by simp⟩
      · intro hasleep hsome
        have := h.asleep hasleep (by simpa [hstop] using hsome)
        simpa [howner] using this
      · intro hexited
        simpa [howner, Owner.Ends] using (h.exited hexited).2
  | enqueue task =>
      obtain ⟨howner, hs⟩ := Option.ite_none_right_eq_some.mp hstep
      cases hs
      refine ⟨h.stop, fun _ _ => Or.inl (Nat.succ_pos _), ?_, h.gone⟩
      intro hexited
      exact absurd (h.exited hexited).2 (by simp [howner, Owner.Ends])
  | notify =>
      obtain ⟨-, hs⟩ := Option.ite_none_right_eq_some.mp hstep
      cases hs
      refine ⟨h.stop, fun hasleep => absurd hasleep s.worker.notified_ne_asleep, ?_, ?_⟩
      · intro hexited
        exact h.exited (Worker.notified_eq_exited.mp hexited)
      · intro hown
        exact Worker.notified_eq_exited.mpr (h.gone hown)
  | stop =>
      obtain ⟨⟨howner, -⟩, hs⟩ := Option.ite_none_right_eq_some.mp hstep
      cases hs
      refine ⟨by simp [Owner.Ends], fun _ _ => Or.inr rfl, ?_, by simp⟩
      intro hexited
      exact ⟨(h.exited hexited).1, trivial⟩
  | notifyStop =>
      obtain ⟨howner, hs⟩ := Option.ite_none_right_eq_some.mp hstep
      cases hs
      refine ⟨?_, fun hasleep => absurd hasleep s.worker.notified_ne_asleep, ?_, by simp⟩
      · simpa [howner, Owner.Ends] using h.stop
      · intro hexited
        exact ⟨(h.exited (Worker.notified_eq_exited.mp hexited)).1, trivial⟩
  | join =>
      simp only [GpuDispatchQueue.step] at hstep
      split at hstep
      · next howner hworker =>
          cases hstep
          refine ⟨?_, ?_, ?_, fun _ => hworker⟩
          · simpa [howner, Owner.Ends] using h.stop
          · simp [hworker]
          · exact fun hexited => ⟨(h.exited hexited).1, trivial⟩
      · cases hstep
  | wake =>
      simp only [GpuDispatchQueue.step] at hstep
      split at hstep
      · next hworker =>
          cases hstep
          refine ⟨h.stop, by simp, by simp, ?_⟩
          intro hown
          simp [h.gone hown] at hworker
      · cases hstep
  | look =>
      simp only [GpuDispatchQueue.step] at hstep
      split at hstep
      · next hworker =>
          cases hstep
          exact State.look_awake h hworker
      · cases hstep
  | finish =>
      simp only [GpuDispatchQueue.step] at hstep
      split at hstep
      · next task hworker =>
          cases hstep
          refine ⟨h.stop, by simp, by simp, ?_⟩
          intro hown
          simp [h.gone hown] at hworker
      · cases hstep

variable (call) in
theorem awake (m₀ : Mem) (events : List (Event T)) : Awake (run call false m₀ events) :=
  revert_induction Awake
    ⟨by simp [start, Owner.Ends], by simp [start], by simp [start], by simp [start]⟩
    (fun _ _ _ h hs => h.step hs) events

/-- A worker that can go no further has nothing left, and the destructor does not wait for it. -/
theorem Awake.at_rest {s : State T Mem} (h : Awake s)
    (hrest : AtRest (GpuDispatchQueue.step call) Event.Own s) :
    s.pending = [] ∧ (s.owner = .inUse ∨ s.owner = .gone) := by
  have hconstruct := hrest .construct trivial
  have hnotify := hrest .notify trivial
  have hnotifyStop := hrest .notifyStop trivial
  have hjoin := hrest .join trivial
  have hlook := hrest .look trivial
  have hfinish := hrest .finish trivial
  simp only [GpuDispatchQueue.step, ite_eq_right_iff, reduceCtorEq, imp_false] at *
  cases hworker : s.worker with
  | ready => simp [hworker] at hlook
  | calling task => simp [hworker] at hfinish
  | asleep =>
      have hnone : ¬ (s.tasks ≠ [] ∨ s.stop = true) := fun hsome =>
        (h.asleep hworker hsome).elim hnotify hnotifyStop
      obtain ⟨htasks, hstop⟩ := not_or.mp hnone
      refine ⟨by simpa [State.pending, hworker, Worker.task] using htasks, Or.inl ?_⟩
      have hends : ¬ s.owner.Ends := fun hends => hstop (h.stop.mpr hends)
      cases howner : s.owner <;> simp_all [Owner.Ends]
  | exited =>
      obtain ⟨htasks, hends⟩ := h.exited hworker
      refine ⟨by simp [State.pending, hworker, Worker.task, htasks], Or.inr ?_⟩
      cases howner : s.owner <;> simp_all [Owner.Ends]

/-! ## The threads come to rest -/

def Worker.work : Worker T → Nat
  | .calling _ => 2
  | .ready => 1
  | _ => 0

def Owner.work : Owner → Nat
  | .stopping => 3
  | .constructing | .joining => 1
  | _ => 0

/-- A bound on the steps that are left. -/
def State.work (s : State T Mem) : Nat :=
  2 * s.tasks.length + s.worker.work + 2 * s.notifying + s.owner.work

theorem Worker.work_notified_le (w : Worker T) : w.notified.work ≤ w.work + 1 := by
  cases w <;> simp [Worker.notified, Worker.work]

variable (call) in
theorem lowers : Lowers (step call) Event.Own State.work := by
  intro s e s' hown hstep
  cases e with
  | enqueue | stop | wake => exact hown.elim
  | construct =>
      obtain ⟨howner, hs⟩ := Option.ite_none_right_eq_some.mp hstep
      cases hs
      simp only [State.work, howner, Owner.work]
      omega
  | notify =>
      obtain ⟨hnotifying, hs⟩ := Option.ite_none_right_eq_some.mp hstep
      cases hs
      have hwork := s.worker.work_notified_le
      simp only [State.work]
      omega
  | notifyStop =>
      obtain ⟨howner, hs⟩ := Option.ite_none_right_eq_some.mp hstep
      cases hs
      have hwork := s.worker.work_notified_le
      simp only [State.work, howner, Owner.work]
      omega
  | join =>
      simp only [GpuDispatchQueue.step] at hstep
      split at hstep
      · next howner _ =>
          cases hstep
          simp only [State.work, howner, Owner.work]
          omega
      · cases hstep
  | look =>
      simp only [GpuDispatchQueue.step] at hstep
      split at hstep
      · next hworker =>
          cases hstep
          unfold State.look
          split
          · next hempty =>
              cases hstop : s.stop <;> simp [State.work, Worker.work, hworker, hempty]
          · next task tasks hfront =>
              simp only [State.work, Worker.work, hworker, hfront, List.length_cons]
              omega
      · cases hstep
  | finish =>
      simp only [GpuDispatchQueue.step] at hstep
      split at hstep
      · next task hworker =>
          cases hstep
          simp only [State.work, Worker.work, hworker]
          omega
      · cases hstep

/-! ## Every task is called -/

variable (call) in
/-- The tasks are called one after the other, in the order of their calls of `enqueue`. Left alone, the
threads come to rest, and then every task has been called and the destructor has returned if it was
entered, **if and only if `stop_` was false before it was initialized.** -/
theorem drains_iff (m₀ : Mem) (task : T) (stop : Bool) :
    (∀ events : List (Event T),
      Accounted call m₀ (run call stop m₀ events) (moves call stop m₀ events) ∧
      (∀ more, (∀ e ∈ more, e.Own) →
        (trace (step call) (run call stop m₀ events) more).length ≤
          (run call stop m₀ events).work) ∧
      (AtRest (step call) Event.Own (run call stop m₀ events) →
        called (moves call stop m₀ events) = enqueued (moves call stop m₀ events) ∧
        ((run call stop m₀ events).owner = .inUse ∨ (run call stop m₀ events).owner = .gone)) ∧
      ((run call stop m₀ events).owner = .gone →
        called (moves call stop m₀ events) = enqueued (moves call stop m₀ events))) ↔
      stop = false := by
  constructor
  · intro h
    cases stop with
    | false => rfl
    | true =>
        -- The worker sees `stop_` and an empty queue before the constructor has cleared it.
        have hlost := ((h [.look, .construct, .enqueue task, .notify]).2.2.1 ?_).1
        · simp [moves, start, trace, step, State.look, called, enqueued, ended, Event.task,
            List.filterMap_cons] at hlost
        · intro e hown
          cases e <;>
            simp [run, start, exec, revert, step, State.look, Worker.notified, Event.Own] at hown ⊢
  · rintro rfl events
    have hacc := accounted call false m₀ events
    have hawake := awake call m₀ events
    have hdone : (run call false m₀ events).pending = [] →
        called (moves call false m₀ events) = enqueued (moves call false m₀ events) := by
      intro hpending
      simpa [hpending] using hacc.order
    refine ⟨hacc, fun more hmore => (lowers call).length_trace_le hmore, ?_, ?_⟩
    · intro hrest
      obtain ⟨hpending, howner⟩ := hawake.at_rest hrest
      exact ⟨hdone hpending, howner⟩
    · intro hgone
      have hexited := hawake.gone hgone
      refine hdone ?_
      simp [State.pending, hexited, Worker.task, (hawake.exited hexited).1]

end ChainBeasts.Int8.GpuDispatchQueue
