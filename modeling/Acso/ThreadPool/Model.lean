import Mathlib.Data.Fintype.Basic
import Acso.Lib.System

/-!
# The thread pool

`thread-pool.cc` as a labelled system.  One step is what a thread does under
`queueLock` at once, the beginning or the end of a task, or one statement of the
destructor; the label says which thread moves and, for `notify_one`, which
sleeper wakes.  A thread that waits on a condition variable is asleep until a
notification or a spurious wake-up makes it ready to test its condition again.
A task may call `schedule` and `wait`, and goes on when the call has returned.

The state carries a history: the tasks that have been scheduled, started,
finished and skipped, in this order of time.
-/

namespace Acso.ThreadPool

/-- A scheduled `function<void(void)>`; the ticket tells the calls of `schedule` apart.  An
empty function is not callable. -/
structure Task where
  ticket : Nat
  callable : Bool
  deriving DecidableEq

/-- Where a worker is. -/
inductive WorkerPc
  /-- About to test the condition of its `wait`. -/
  | ready
  /-- In `taskIsAvailable.wait`. -/
  | asleep
  /-- Has popped a task. -/
  | holding (t : Task)
  /-- In `task()`. -/
  | running (t : Task)
  | exited
  deriving DecidableEq

/-- Where the dispatcher is. -/
inductive DispatcherPc
  /-- At `while (!done)`. -/
  | top
  /-- About to test the condition of its `wait`. -/
  | ready
  /-- In `taskIsAvailable.wait`. -/
  | asleep
  | exited
  deriving DecidableEq

/-- The threads that call `wait`: the one of a worker in its task, and those outside. -/
inductive Caller (n : Nat)
  | task (i : Fin n)
  | outside (k : Nat)
  deriving DecidableEq

/-- Where a caller of `wait` is, with the tasks scheduled before its call. -/
inductive CallerPc
  | idle
  | waiting (before : List Task) (asleep : Bool)
  deriving DecidableEq

/-- Where the destructor is. -/
inductive DestructorPc
  | notCalled
  | entered
  | doneSet
  | tasksNotified
  | joiningDispatcher
  /-- At entry `k` of `wts`. -/
  | joining (k : Nat)
  | returned
  deriving DecidableEq

structure Pool (n : Nat) where
  tasks : List Task
  done : Bool
  workers : Fin n → WorkerPc
  dispatcher : DispatcherPc
  callers : Caller n → CallerPc
  destructor : DestructorPc
  scheduled : List Task
  started : List Task
  finished : List Task
  skipped : List Task

/-- The threads that wait on `taskIsAvailable`. -/
inductive Sleeper (n : Nat)
  | worker (i : Fin n)
  | dispatcher
  deriving DecidableEq

/-- The steps. -/
inductive Label (n : Nat)
  /-- `schedule`, called by the task on a worker or by some thread outside. -/
  | schedule (origin : Option (Fin n)) (callable : Bool) (wake : Option (Sleeper n))
  /-- A worker tests its condition and does what follows under the lock. -/
  | worker (i : Fin n)
  /-- `if (task) task()`, up to the first statement of the task. -/
  | invoke (i : Fin n)
  /-- The task returns, if it is not in a call of `wait`. -/
  | finish (i : Fin n)
  /-- `while (!done)`. -/
  | dispatcherTest
  /-- The dispatcher tests its condition and does what follows under the lock. -/
  | dispatcher
  /-- A call of `wait` begins. -/
  | waitCall (c : Caller n)
  /-- It tests its condition. -/
  | wait (c : Caller n)
  /-- The next statement of the destructor. -/
  | destroy
  /-- A spurious wake-up. -/
  | spurious (x : Sleeper n)
  | spuriousCaller (c : Caller n)

/-- The pool as constructed. -/
def Pool.init (n : Nat) : Pool n where
  tasks := []
  done := false
  workers := fun _ => .ready
  dispatcher := .top
  callers := fun _ => .idle
  destructor := .notCalled
  scheduled := []
  started := []
  finished := []
  skipped := []

def WorkerPc.wake : WorkerPc → WorkerPc
  | .asleep => .ready
  | pc => pc

def DispatcherPc.wake : DispatcherPc → DispatcherPc
  | .asleep => .ready
  | pc => pc

/-- The worker in whose task the caller is. -/
def Caller.origin {n : Nat} : Caller n → Option (Fin n)
  | .task i => some i
  | .outside _ => none

def CallerPc.wake : CallerPc → CallerPc
  | .waiting before _ => .waiting before false
  | .idle => .idle

namespace Pool

variable {n : Nat} (s : Pool n)

def setWorker (i : Fin n) (pc : WorkerPc) : Pool n :=
  { s with workers := Function.update s.workers i pc }

def setCaller (c : Caller n) (pc : CallerPc) : Pool n :=
  { s with callers := Function.update s.callers c pc }

/-! ## Notifications -/

def Sleeps : Sleeper n → Prop
  | .worker i => s.workers i = .asleep
  | .dispatcher => s.dispatcher = .asleep

/-- Makes one sleeper ready. -/
def wakeUp (x : Sleeper n) : Pool n :=
  { s with
    workers := match x with
      | .worker i => Function.update s.workers i .ready
      | .dispatcher => s.workers
    dispatcher := match x with
      | .worker _ => s.dispatcher
      | .dispatcher => .ready }

/-- `taskIsAvailable.notify_one()` can wake this thread, or nobody if nobody sleeps. -/
def CanNotify : Option (Sleeper n) → Prop
  | some x => s.Sleeps x
  | none => ∀ x, ¬ s.Sleeps x

/-- `taskIsAvailable.notify_one()`. -/
def notifyOneTask (wake : Option (Sleeper n)) : Pool n :=
  { s with
    workers := match wake with
      | some x => (s.wakeUp x).workers
      | none => s.workers
    dispatcher := match wake with
      | some x => (s.wakeUp x).dispatcher
      | none => s.dispatcher }

/-- `taskIsAvailable.notify_all()`. -/
def notifyAllTask : Pool n :=
  { s with workers := fun i => (s.workers i).wake, dispatcher := s.dispatcher.wake }

/-- `waitForEmpty.notify_all()`. -/
def notifyAllEmpty : Pool n := { s with callers := fun c => (s.callers c).wake }

/-! ## The threads -/

/-- The threads that may call `schedule` and `wait`: a running task that is not in a call of
`wait`, or one outside as long as the destructor has not been called. -/
def MayCall : Option (Fin n) → Prop
  | some i => (∃ t, s.workers i = .running t) ∧ s.callers (.task i) = .idle
  | none => s.destructor = .notCalled

/-- `tasks.push(thunk)`. -/
def push (callable : Bool) : Pool n :=
  let thunk : Task := ⟨s.scheduled.length, callable⟩
  { s with tasks := s.tasks ++ [thunk], scheduled := s.scheduled ++ [thunk] }

/-- The locked section of `worker`. -/
def worker (i : Fin n) : Pool n :=
  match s.tasks with
  | [] => if s.done then s.setWorker i .exited else s.setWorker i .asleep
  | task :: tasks =>
    let s := { s with tasks := tasks }.setWorker i (.holding task)
    if tasks = [] then s.notifyAllEmpty else s

def invoke (i : Fin n) (task : Task) : Pool n :=
  if task.callable then { s with started := s.started ++ [task] }.setWorker i (.running task)
  else { s with skipped := s.skipped ++ [task] }.setWorker i .ready

def finish (i : Fin n) (task : Task) : Pool n :=
  { s with finished := s.finished ++ [task] }.setWorker i .ready

/-- The locked section of `dispatcher`.  Nobody ever waits on `workerIsAvailable`,
so notifying it does nothing. -/
def dispatcherSection : Pool n :=
  match s.tasks with
  | [] => if s.done then { s with dispatcher := .exited } else { s with dispatcher := .asleep }
  | _ :: _ => { s with dispatcher := .top }

/-- The locked section of `wait`. -/
def wait (c : Caller n) (before : List Task) : Pool n :=
  if s.tasks = [] then (s.setCaller c .idle).notifyAllTask
  else s.setCaller c (.waiting before true)

/-- The destructor.  `wts` has `2 * n` entries, and only the last `n` of them, the
ones the constructor has pushed, have a thread to join. -/
def destroy : Option (Pool n) :=
  match s.destructor with
  | .notCalled => some { s with destructor := .entered }
  | .entered => some { s with done := true, destructor := .doneSet }
  | .doneSet => some { s.notifyAllTask with destructor := .tasksNotified }
  | .tasksNotified => some { s.notifyAllEmpty with destructor := .joiningDispatcher }
  | .joiningDispatcher =>
    if s.dispatcher = .exited then some { s with destructor := .joining 0 } else none
  | .joining k =>
    if k < n then some { s with destructor := .joining (k + 1) }
    else if h : k - n < n then
      if s.workers ⟨k - n, h⟩ = .exited then some { s with destructor := .joining (k + 1) }
      else none
    else some { s with destructor := .returned }
  | .returned => none

instance : DecidablePred s.Sleeps
  | .worker _ => inferInstanceAs (Decidable (_ = _))
  | .dispatcher => inferInstanceAs (Decidable (_ = _))

instance : Decidable (∀ x, ¬ s.Sleeps x) :=
  decidable_of_iff ((∀ i, s.workers i ≠ .asleep) ∧ s.dispatcher ≠ .asleep)
    ⟨fun h x => match x with
      | .worker i => h.1 i
      | .dispatcher => h.2,
     fun h => ⟨fun i => h (.worker i), h .dispatcher⟩⟩

instance : DecidablePred s.CanNotify
  | some x => inferInstanceAs (Decidable (s.Sleeps x))
  | none => inferInstanceAs (Decidable (∀ x, ¬ s.Sleeps x))

def isRunning : WorkerPc → Bool
  | .running _ => true
  | _ => false

theorem isRunning_iff (pc : WorkerPc) : isRunning pc = true ↔ ∃ t, pc = .running t := by
  cases pc <;> simp [isRunning]

instance : DecidablePred s.MayCall
  | some i =>
    decidable_of_iff (isRunning (s.workers i) = true ∧ s.callers (.task i) = .idle)
      (and_congr_left' (isRunning_iff (s.workers i)))
  | none => inferInstanceAs (Decidable (_ = _))

def step : Label n → Option (Pool n)
  | .schedule origin callable wake =>
    if s.MayCall origin ∧ s.CanNotify wake then some ((s.push callable).notifyOneTask wake)
    else none
  | .worker i => if s.workers i = .ready then some (s.worker i) else none
  | .invoke i =>
    match s.workers i with
    | .holding task => some (s.invoke i task)
    | _ => none
  | .finish i =>
    match s.workers i with
    | .running task => if s.callers (.task i) = .idle then some (s.finish i task) else none
    | _ => none
  | .dispatcherTest =>
    if s.dispatcher = .top then
      some { s with dispatcher := if s.done then .exited else .ready }
    else none
  | .dispatcher => if s.dispatcher = .ready then some s.dispatcherSection else none
  | .waitCall c =>
    if s.callers c = .idle ∧ s.MayCall c.origin then
      some (s.setCaller c (.waiting s.scheduled false))
    else none
  | .wait c =>
    match s.callers c with
    | .waiting before false => some (s.wait c before)
    | _ => none
  | .destroy => s.destroy
  | .spurious x => if s.Sleeps x then some (s.wakeUp x) else none
  | .spuriousCaller c => some (s.setCaller c (s.callers c).wake)

end Pool

open Lib in
def poolSystem (n : Nat) : System (Pool n) (Label n) := ⟨Pool.step⟩

end Acso.ThreadPool
