import Acso.ThreadPool.History

/-!
# The sections under the lock, statement by statement

In `Pool` a thread does at once what it does under `queueLock`.  Here it takes the lock and
then goes through the statements of its section one by one, while the threads that do not
need the lock go on: a task is begun or ends, the dispatcher reads `done` in its `while`, the
destructor notifies and joins.  Between its test and its sleep a thread holds the lock.

`LockedMoves` lists everything a step can do (`lockedMoves_of_step`), and `Frame` says what a
step without the lock leaves alone (`frame_of_moves`).
-/

namespace Acso.ThreadPool

open Acso.Lib

/-! ## Threads that hold the lock -/

/-- The next statement of `schedule`. -/
inductive ScheduleAt
  | push
  | notify
  | unlock
  deriving DecidableEq

/-- The next statement of the locked section of `worker`. -/
inductive WorkerAt
  /-- The condition of `wait`. -/
  | test
  /-- It is false, and the thread goes to sleep. -/
  | sleep
  /-- `if (done && tasks.empty()) break`. -/
  | check
  | pop
  | notify
  | unlock
  deriving DecidableEq

/-- The next statement of the locked section of `dispatcher`. -/
inductive DispatcherAt
  | test
  | sleep
  | check
  | notify
  | unlock
  deriving DecidableEq

/-- The next statement of `wait`. -/
inductive WaitAt
  | test
  | sleep
  | notify
  | unlock
  deriving DecidableEq

/-- The next statement of the locked section of the destructor. -/
inductive DestructorAt
  | setDone
  | unlock
  deriving DecidableEq

/-- The thread that holds `queueLock`. -/
inductive Holder (n : Nat)
  | schedule (origin : Option (Fin n)) (callable : Bool) (pc : ScheduleAt)
  | worker (i : Fin n) (pc : WorkerAt)
  | dispatcher (pc : DispatcherAt)
  | wait (c : Caller n) (pc : WaitAt)
  | destructor (pc : DestructorAt)
  deriving DecidableEq

structure LockedPool (n : Nat) extends Pool n where
  queueLock : Option (Holder n)

inductive LockedLabel (n : Nat)
  /-- A call of `schedule` begins and takes the lock. -/
  | lockSchedule (origin : Option (Fin n)) (callable : Bool)
  | lockWorker (i : Fin n)
  | lockDispatcher
  /-- A call of `wait` begins and takes the lock. -/
  | lockWait (c : Caller n)
  /-- A call of `wait` that has been woken up takes the lock again. -/
  | relockWait (c : Caller n)
  | lockDestructor
  /-- The next statement under the lock; `notify_one` wakes `wake`. -/
  | proceed (wake : Option (Sleeper n))
  /-- A step that does not need the lock. -/
  | unlocked (l : Label n)

def CallerPc.sleep : CallerPc → CallerPc
  | .waiting before _ => .waiting before true
  | .idle => .idle

namespace LockedPool

variable {n : Nat} (s : LockedPool n)

def init (n : Nat) : LockedPool n := ⟨Pool.init n, none⟩

/-- The condition on which workers and dispatcher wait. -/
def wakeCondition : Bool := !s.tasks.isEmpty || s.done

def proceedSchedule (origin : Option (Fin n)) (callable : Bool) (wake : Option (Sleeper n)) :
    ScheduleAt → Option (LockedPool n)
  | .push => some ⟨s.toPool.push callable, some (.schedule origin callable .notify)⟩
  | .notify =>
    if s.CanNotify wake then
      some ⟨s.toPool.notifyOneTask wake, some (.schedule origin callable .unlock)⟩
    else none
  | .unlock => some ⟨s.toPool, none⟩

def proceedWorker (i : Fin n) : WorkerAt → LockedPool n
  | .test => ⟨s.toPool, some (.worker i (if s.wakeCondition then .check else .sleep))⟩
  | .sleep => ⟨s.toPool.setWorker i .asleep, none⟩
  | .check =>
    if s.done && s.tasks.isEmpty then ⟨s.toPool.setWorker i .exited, none⟩
    else ⟨s.toPool, some (.worker i .pop)⟩
  | .pop =>
    match s.tasks with
    | [] => ⟨s.toPool, some (.worker i .notify)⟩
    | task :: tasks =>
      ⟨{ s.toPool with tasks := tasks }.setWorker i (.holding task), some (.worker i .notify)⟩
  | .notify =>
    ⟨if s.tasks.isEmpty then s.toPool.notifyAllEmpty else s.toPool, some (.worker i .unlock)⟩
  | .unlock => ⟨s.toPool, none⟩

/-- Nobody waits on `workerIsAvailable`. -/
def proceedDispatcher : DispatcherAt → LockedPool n
  | .test => ⟨s.toPool, some (.dispatcher (if s.wakeCondition then .check else .sleep))⟩
  | .sleep => ⟨{ s.toPool with dispatcher := .asleep }, none⟩
  | .check =>
    if s.done && s.tasks.isEmpty then ⟨{ s.toPool with dispatcher := .exited }, none⟩
    else ⟨s.toPool, some (.dispatcher .notify)⟩
  | .notify => ⟨s.toPool, some (.dispatcher .unlock)⟩
  | .unlock => ⟨{ s.toPool with dispatcher := .top }, none⟩

/-- After its last statement the call only has to give the lock back. -/
def proceedWait (c : Caller n) : WaitAt → LockedPool n
  | .test => ⟨s.toPool, some (.wait c (if s.tasks.isEmpty then .notify else .sleep))⟩
  | .sleep => ⟨s.toPool.setCaller c (s.callers c).sleep, none⟩
  | .notify => ⟨(s.toPool.setCaller c .idle).notifyAllTask, some (.wait c .unlock)⟩
  | .unlock => ⟨s.toPool, none⟩

def proceedDestructor : DestructorAt → LockedPool n
  | .setDone =>
    ⟨{ s.toPool with done := true, destructor := .doneSet }, some (.destructor .unlock)⟩
  | .unlock => ⟨s.toPool, none⟩

def proceed (wake : Option (Sleeper n)) : Holder n → Option (LockedPool n)
  | .schedule origin callable pc => s.proceedSchedule origin callable wake pc
  | .worker i pc => some (s.proceedWorker i pc)
  | .dispatcher pc => some (s.proceedDispatcher pc)
  | .wait c pc => some (s.proceedWait c pc)
  | .destructor pc => some (s.proceedDestructor pc)

/-- The step needs no lock, and its thread is not in a section. -/
def lockFree : Label n → Bool
  | .invoke i =>
    match s.queueLock with
    | some (.worker j _) => decide (j ≠ i)
    | _ => true
  | .finish i =>
    match s.queueLock with
    | some (.schedule (some j) _ _) => decide (j ≠ i)
    | some (.wait (.task j) _) => decide (j ≠ i)
    | _ => true
  | .dispatcherTest => true
  | .destroy =>
    match s.queueLock with
    | some (.destructor _) => false
    | _ => decide (s.destructor ≠ .entered)
  | .spurious _ => true
  | .spuriousCaller _ => true
  | _ => false

/-- Takes the lock, if it is free. -/
def lock (h : Holder n) : Option (LockedPool n) :=
  if s.queueLock = none then some ⟨s.toPool, some h⟩ else none

def step : LockedLabel n → Option (LockedPool n)
  | .lockSchedule origin callable =>
    if s.MayCall origin then s.lock (.schedule origin callable .push) else none
  | .lockWorker i => if s.workers i = .ready then s.lock (.worker i .test) else none
  | .lockDispatcher => if s.dispatcher = .ready then s.lock (.dispatcher .test) else none
  | .lockWait c =>
    if s.queueLock = none ∧ s.callers c = .idle ∧ s.MayCall c.origin then
      some ⟨s.toPool.setCaller c (.waiting s.scheduled false), some (.wait c .test)⟩
    else none
  | .relockWait c =>
    match s.callers c with
    | .waiting _ false => s.lock (.wait c .test)
    | _ => none
  | .lockDestructor =>
    if s.destructor = .entered then s.lock (.destructor .setDone) else none
  | .proceed wake => s.queueLock.bind (s.proceed wake)
  | .unlocked l =>
    if s.lockFree l then (s.toPool.step l).map fun t => ⟨t, s.queueLock⟩ else none

end LockedPool

def lockedSystem (n : Nat) : System (LockedPool n) (LockedLabel n) := ⟨LockedPool.step⟩


/-! ## What a step can do -/

variable {n : Nat}

/-- **What a step can do.** -/
inductive LockedMoves (s : LockedPool n) : LockedLabel n → LockedPool n → Prop
  | lockSchedule (origin : Option (Fin n)) (callable : Bool) (hfree : s.queueLock = none)
      (hmay : s.MayCall origin) :
      LockedMoves s (.lockSchedule origin callable)
        ⟨s.toPool, some (.schedule origin callable .push)⟩
  | lockWorker (i : Fin n) (hfree : s.queueLock = none) (hready : s.workers i = .ready) :
      LockedMoves s (.lockWorker i) ⟨s.toPool, some (.worker i .test)⟩
  | lockDispatcher (hfree : s.queueLock = none) (hready : s.dispatcher = .ready) :
      LockedMoves s .lockDispatcher ⟨s.toPool, some (.dispatcher .test)⟩
  | lockWait (c : Caller n) (hfree : s.queueLock = none) (hidle : s.callers c = .idle)
      (hmay : s.MayCall c.origin) :
      LockedMoves s (.lockWait c)
        ⟨s.toPool.setCaller c (.waiting s.scheduled false), some (.wait c .test)⟩
  | relockWait (c : Caller n) (before : List Task) (hfree : s.queueLock = none)
      (hc : s.callers c = .waiting before false) :
      LockedMoves s (.relockWait c) ⟨s.toPool, some (.wait c .test)⟩
  | lockDestructor (hfree : s.queueLock = none) (hd : s.destructor = .entered) :
      LockedMoves s .lockDestructor ⟨s.toPool, some (.destructor .setDone)⟩
  | proceed (wake : Option (Sleeper n)) (h : Holder n) (s' : LockedPool n)
      (hlock : s.queueLock = some h) (hs' : s.proceed wake h = some s') :
      LockedMoves s (.proceed wake) s'
  | unlocked (l : Label n) (t : Pool n) (hl : s.lockFree l = true) (hmoves : Moves s.toPool l t) :
      LockedMoves s (.unlocked l) ⟨t, s.queueLock⟩

theorem lock_eq_some {s s' : LockedPool n} {h : Holder n} :
    s.lock h = some s' ↔ s.queueLock = none ∧ s' = ⟨s.toPool, some h⟩ := by
  rw [LockedPool.lock, Option.ite_none_right_eq_some, Option.some.injEq]
  exact and_congr_right fun _ => eq_comm

/-- **Every step is such a move.** -/
theorem lockedMoves_of_step {s s' : LockedPool n} {l : LockedLabel n} (h : s.step l = some s') :
    LockedMoves s l s' := by
  cases l with
  | lockSchedule origin callable =>
    obtain ⟨hmay, hs'⟩ := Option.ite_none_right_eq_some.mp h
    obtain ⟨hfree, rfl⟩ := lock_eq_some.mp hs'
    exact .lockSchedule origin callable hfree hmay
  | lockWorker i =>
    obtain ⟨hready, hs'⟩ := Option.ite_none_right_eq_some.mp h
    obtain ⟨hfree, rfl⟩ := lock_eq_some.mp hs'
    exact .lockWorker i hfree hready
  | lockDispatcher =>
    obtain ⟨hready, hs'⟩ := Option.ite_none_right_eq_some.mp h
    obtain ⟨hfree, rfl⟩ := lock_eq_some.mp hs'
    exact .lockDispatcher hfree hready
  | lockWait c =>
    obtain ⟨⟨hfree, hidle, hmay⟩, hs'⟩ := Option.ite_none_right_eq_some.mp h
    exact Option.some.inj hs' ▸ .lockWait c hfree hidle hmay
  | relockWait c =>
    rw [LockedPool.step] at h
    split at h
    · rename_i before hc
      obtain ⟨hfree, rfl⟩ := lock_eq_some.mp h
      exact .relockWait c before hfree hc
    · cases h
  | lockDestructor =>
    obtain ⟨hd, hs'⟩ := Option.ite_none_right_eq_some.mp h
    obtain ⟨hfree, rfl⟩ := lock_eq_some.mp hs'
    exact .lockDestructor hfree hd
  | proceed wake =>
    obtain ⟨holder, hlock, hs'⟩ := Option.bind_eq_some_iff.mp h
    exact .proceed wake holder s' hlock hs'
  | unlocked l =>
    obtain ⟨hl, hs'⟩ := Option.ite_none_right_eq_some.mp h
    obtain ⟨t, ht, rfl⟩ := Option.map_eq_some_iff.mp hs'
    exact .unlocked l t hl (moves_of_step ht)

/-! ## What the threads without the lock leave alone -/

/-- Where a destructor is that has not yet set `done`, or has. -/
def DestructorPc.HasSetDone : DestructorPc → Prop
  | .notCalled => False
  | .entered => False
  | _ => True

/-- The destructor has performed `taskIsAvailable.notify_all()`. -/
def DestructorPc.HasNotified : DestructorPc → Prop
  | .notCalled => False
  | .entered => False
  | .doneSet => False
  | _ => True

/-- What a step without the lock can do to the threads.  It changes neither the queue nor
`done`, and nothing about a thread that holds the lock. -/
structure Frame (s : LockedPool n) (t : Pool n) : Prop where
  tasks : t.tasks = s.tasks
  done : t.done = s.done
  scheduled : t.scheduled = s.scheduled
  workers : ∀ i, t.workers i = s.workers i ∨ (s.workers i = .asleep ∧ t.workers i = .ready) ∨
    (∃ task, s.workers i = .holding task ∧ (∀ pc, s.queueLock ≠ some (.worker i pc)) ∧
      t.workers i ≠ .asleep) ∨
    ∃ task, s.workers i = .running task ∧
      (∀ callable pc, s.queueLock ≠ some (.schedule (some i) callable pc)) ∧ t.workers i ≠ .asleep
  dispatcher : t.dispatcher = s.dispatcher ∨ (s.dispatcher = .asleep ∧ t.dispatcher = .ready) ∨
    (s.dispatcher = .top ∧ t.dispatcher ≠ .asleep)
  callers : ∀ c, t.callers c = s.callers c ∨ t.callers c = (s.callers c).wake
  destructor : t.destructor = s.destructor ∨
    (s.destructor = .notCalled ∧ t.destructor = .entered) ∨
    (s.destructor.HasSetDone ∧ t.destructor.HasSetDone ∧
      (∀ pc, s.queueLock ≠ some (.destructor pc)) ∧
      (t.destructor.HasNotified ∧ (s.destructor.HasNotified ∨ ∀ x, ¬ t.Sleeps x)))

section frame

variable {s : LockedPool n} {t : Pool n}

theorem not_sleeps_notifyAllTask (s : Pool n) (x : Sleeper n) : ¬ s.notifyAllTask.Sleeps x := by
  cases x with
  | worker i =>
    show (s.workers i).wake ≠ .asleep
    cases s.workers i <;> simp [WorkerPc.wake]
  | dispatcher =>
    show s.dispatcher.wake ≠ .asleep
    cases s.dispatcher <;> simp [DispatcherPc.wake]

/-- A worker between its sections. -/
theorem frame_setWorker {i : Fin n} {pc : WorkerPc} {started finished skipped : List Task}
    (hpc : pc ≠ .asleep)
    (hi : (∃ task, s.workers i = .holding task ∧ ∀ pc, s.queueLock ≠ some (.worker i pc)) ∨
      ∃ task, s.workers i = .running task ∧
        ∀ callable pc, s.queueLock ≠ some (.schedule (some i) callable pc)) :
    Frame s ({ s.toPool with
      started := started, finished := finished, skipped := skipped }.setWorker i pc) where
  tasks := rfl
  done := rfl
  scheduled := rfl
  workers := by
    intro j
    rw [workers_setWorker]
    by_cases hj : j = i
    · rw [if_pos hj, hj]
      rcases hi with ⟨task, hw, hlock⟩ | ⟨task, hw, hlock⟩
      · exact .inr (.inr (.inl ⟨task, hw, hlock, hpc⟩))
      · exact .inr (.inr (.inr ⟨task, hw, hlock, hpc⟩))
    · rw [if_neg hj]
      exact .inl rfl
  dispatcher := .inl rfl
  callers := fun _ => .inl rfl
  destructor := .inl rfl

theorem DestructorPc.HasNotified.hasSetDone {pc : DestructorPc} (h : pc.HasNotified) :
    pc.HasSetDone := by cases pc <;> first | exact h | trivial

/-- A step of the destructor that wakes nobody. -/
theorem frame_destructor {pc : DestructorPc}
    (h : (s.destructor = .notCalled ∧ pc = .entered) ∨
      (s.destructor.HasNotified ∧ pc.HasNotified ∧ ∀ pc, s.queueLock ≠ some (.destructor pc))) :
    Frame s { s.toPool with destructor := pc } where
  tasks := rfl
  done := rfl
  scheduled := rfl
  workers := fun _ => .inl rfl
  dispatcher := .inl rfl
  callers := fun _ => .inl rfl
  destructor := by
    rcases h with h | ⟨hs, hpc, hlock⟩
    · exact .inr (.inl h)
    · exact .inr (.inr ⟨hs.hasSetDone, hpc.hasSetDone, hlock, hpc, .inl hs⟩)

/-- A change of the dispatcher alone. -/
theorem frame_dispatcher {pc : DispatcherPc}
    (h : (s.dispatcher = .asleep ∧ pc = .ready) ∨ (s.dispatcher = .top ∧ pc ≠ .asleep)) :
    Frame s { s.toPool with dispatcher := pc } where
  tasks := rfl
  done := rfl
  scheduled := rfl
  workers := fun _ => .inl rfl
  dispatcher := .inr h
  callers := fun _ => .inl rfl
  destructor := .inl rfl

theorem lockFree_invoke {i : Fin n} (h : s.lockFree (.invoke i) = true) (pc : WorkerAt) :
    s.queueLock ≠ some (.worker i pc) := by
  intro hlock
  rw [LockedPool.lockFree, hlock] at h
  exact of_decide_eq_true h rfl

theorem lockFree_finish {i : Fin n} (h : s.lockFree (.finish i) = true) (callable : Bool)
    (pc : ScheduleAt) : s.queueLock ≠ some (.schedule (some i) callable pc) := by
  intro hlock
  rw [LockedPool.lockFree, hlock] at h
  exact of_decide_eq_true h rfl

theorem lockFree_destroy (h : s.lockFree .destroy = true) :
    s.destructor ≠ .entered ∧ ∀ pc, s.queueLock ≠ some (.destructor pc) := by
  rw [LockedPool.lockFree] at h
  split at h
  · cases h
  · rename_i hlock
    exact ⟨of_decide_eq_true h, hlock⟩

theorem WorkerPc.wake_cases (pc : WorkerPc) : pc.wake = pc ∨ (pc = .asleep ∧ pc.wake = .ready) := by
  cases pc <;> simp [WorkerPc.wake]

theorem DispatcherPc.wake_cases (pc : DispatcherPc) :
    pc.wake = pc ∨ (pc = .asleep ∧ pc.wake = .ready) := by
  cases pc <;> simp [DispatcherPc.wake]

/-- **A step without the lock** stays in the frame. -/
theorem frame_of_moves {l : Label n} (hl : s.lockFree l = true) (h : Moves s.toPool l t) :
    Frame s t := by
  cases h with
  | start i task hi hcall =>
    exact frame_setWorker (by simp) (.inl ⟨task, hi, lockFree_invoke hl⟩)
  | skip i task hi hcall =>
    exact frame_setWorker (by simp) (.inl ⟨task, hi, lockFree_invoke hl⟩)
  | finish i task hi hidle =>
    exact frame_setWorker (by simp) (.inr ⟨task, hi, lockFree_finish hl⟩)
  | dispatcherTest htop =>
    refine frame_dispatcher (.inr ⟨htop, ?_⟩)
    split <;> simp
  | enter h => exact frame_destructor (.inl ⟨h, rfl⟩)
  | setDone h => exact absurd h (lockFree_destroy hl).1
  | notifyTask h =>
    have hdone : s.destructor.HasSetDone := by rw [h]; trivial
    refine ⟨rfl, rfl, rfl, fun i => ?_, ?_, fun _ => .inl rfl, ?_⟩
    · exact (WorkerPc.wake_cases (s.workers i)).imp_right .inl
    · exact (DispatcherPc.wake_cases s.dispatcher).imp_right .inl
    · exact .inr (.inr ⟨hdone, trivial, (lockFree_destroy hl).2, trivial, .inr fun x hx =>
        not_sleeps_notifyAllTask s.toPool x hx⟩)
  | notifyEmpty h =>
    have hnotified : s.destructor.HasNotified := by rw [h]; trivial
    refine ⟨rfl, rfl, rfl, fun _ => .inl rfl, .inl rfl, fun _ => .inr rfl, ?_⟩
    exact .inr (.inr ⟨hnotified.hasSetDone, trivial, (lockFree_destroy hl).2, trivial,
      .inl hnotified⟩)
  | joinDispatcher h hd =>
    exact frame_destructor (.inr ⟨by rw [h]; trivial, trivial, (lockFree_destroy hl).2⟩)
  | joinNext k h hw hk =>
    exact frame_destructor (.inr ⟨by rw [h]; trivial, trivial, (lockFree_destroy hl).2⟩)
  | destroyed k h hk =>
    exact frame_destructor (.inr ⟨by rw [h]; trivial, trivial, (lockFree_destroy hl).2⟩)
  | wakeUp x hx =>
    cases x with
    | worker i =>
      refine ⟨rfl, rfl, rfl, fun j => ?_, .inl rfl, fun _ => .inl rfl, .inl rfl⟩
      have hj := workers_setWorker s.toPool i j .ready
      by_cases hji : j = i
      · rw [if_pos hji] at hj
        exact .inr (.inl ⟨hji ▸ hx, hj⟩)
      · rw [if_neg hji] at hj
        exact .inl hj
    | dispatcher => exact frame_dispatcher (.inl ⟨hx, rfl⟩)
  | wakeCaller c =>
    refine ⟨rfl, rfl, rfl, fun _ => .inl rfl, .inl rfl, fun c' => ?_, .inl rfl⟩
    rw [callers_setCaller]
    split
    · rename_i heq
      exact .inr (by rw [heq])
    · exact .inl rfl
  | _ => cases hl

/-! ### Consequences -/

namespace Frame

variable (h : Frame s t)

include h

/-- A worker that is ready stays so. -/
theorem ready {i : Fin n} (hi : s.workers i = .ready) : t.workers i = .ready := by
  rcases h.workers i with heq | ⟨hw, -⟩ | ⟨task, hw, -⟩ | ⟨task, hw, -⟩
  · rw [heq, hi]
  all_goals
    rw [hi] at hw
    cases hw

theorem holding {i : Fin n} {pc : WorkerAt} (hlock : s.queueLock = some (.worker i pc)) {task : Task}
    (hi : s.workers i = .holding task) : t.workers i = .holding task := by
  rcases h.workers i with heq | ⟨hw, -⟩ | ⟨task', -, hfree, -⟩ | ⟨task', hw, -⟩
  · rw [heq, hi]
  · rw [hi] at hw
    cases hw
  · exact absurd hlock (hfree pc)
  · rw [hi] at hw
    cases hw

theorem running {i : Fin n} {callable : Bool} {pc : ScheduleAt}
    (hlock : s.queueLock = some (.schedule (some i) callable pc)) {task : Task}
    (hi : s.workers i = .running task) : t.workers i = .running task := by
  rcases h.workers i with heq | ⟨hw, -⟩ | ⟨task', hw, -⟩ | ⟨task', -, hfree, -⟩
  · rw [heq, hi]
  · rw [hi] at hw
    cases hw
  · rw [hi] at hw
    cases hw
  · exact absurd hlock (hfree callable pc)

theorem dispatcher_ready (hd : s.dispatcher = .ready) : t.dispatcher = .ready := by
  rcases h.dispatcher with heq | ⟨hs, -⟩ | ⟨hs, -⟩
  · rw [heq, hd]
  all_goals
    rw [hd] at hs
    cases hs

theorem waiting {c : Caller n} {before : List Task} (hc : s.callers c = .waiting before false) :
    t.callers c = .waiting before false := by
  rcases h.callers c with heq | heq
  · rw [heq, hc]
  · rw [heq, hc]
    rfl

theorem idle {c : Caller n} (hc : s.callers c = .idle) : t.callers c = .idle := by
  rcases h.callers c with heq | heq
  · rw [heq, hc]
  · rw [heq, hc]
    rfl

theorem asleep {c : Caller n} {before : List Task} (hc : t.callers c = .waiting before true) :
    s.callers c = .waiting before true := by
  rcases h.callers c with heq | heq
  · rwa [← heq]
  · rw [heq] at hc
    cases hs : s.callers c <;> rw [hs] at hc <;> cases hc

theorem sleeps {x : Sleeper n} (hx : t.Sleeps x) : s.Sleeps x := by
  cases x with
  | worker i =>
    have ht : t.workers i = .asleep := hx
    rcases h.workers i with heq | ⟨-, hw⟩ | ⟨_, -, -, hw⟩ | ⟨_, -, -, hw⟩
    · exact heq.symm.trans ht
    · rw [ht] at hw
      cases hw
    · exact absurd ht hw
    · exact absurd ht hw
  | dispatcher =>
    have ht : t.dispatcher = .asleep := hx
    rcases h.dispatcher with heq | ⟨-, hw⟩ | ⟨-, hw⟩
    · exact heq.symm.trans ht
    · rw [ht] at hw
      cases hw
    · exact absurd ht hw

theorem hasSetDone_iff : t.destructor.HasSetDone ↔ s.destructor.HasSetDone := by
  rcases h.destructor with heq | ⟨hs, ht⟩ | ⟨hs, ht, -⟩
  · rw [heq]
  · rw [hs, ht]
    exact Iff.rfl
  · exact iff_of_true ht hs

theorem called (hs : s.destructor = .notCalled ∨ s.destructor = .entered) :
    t.destructor = .notCalled ∨ t.destructor = .entered := by
  rcases h.destructor with heq | ⟨-, ht⟩ | ⟨hs', -⟩
  · rwa [heq]
  · exact .inr ht
  · rcases hs with hs | hs
    all_goals
      rw [hs] at hs'
      exact hs'.elim

theorem destructor_eq {pc : DestructorAt} (hlock : s.queueLock = some (.destructor pc))
    (hs : s.destructor ≠ .notCalled) : t.destructor = s.destructor := by
  rcases h.destructor with heq | ⟨hs', -⟩ | ⟨-, -, hfree, -⟩
  · exact heq
  · exact absurd hs' hs
  · exact absurd hlock (hfree pc)

/-- A destructor that has notified did so before, or has just left no sleeper. -/
theorem awake (ht : t.destructor.HasNotified) :
    s.destructor.HasNotified ∨ ∀ x, ¬ t.Sleeps x := by
  rcases h.destructor with heq | ⟨-, ht'⟩ | ⟨-, -, -, -, hawake⟩
  · rw [heq] at ht
    exact .inl ht
  · rw [ht'] at ht
    exact ht.elim
  · exact hawake

end Frame

end frame

end Acso.ThreadPool
