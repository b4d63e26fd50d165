import Mathlib.Data.Fintype.Basic
import Acso.Lib.System

/-!
# The semaphore

`Semaphore.cc` as a labelled system: `n` threads call `signal` and `wait` in any order, and go
through them statement by statement.  A thread that waits on `condition_` has given `mutex_`
back and sleeps until `notify_all` or a spurious wake-up; then it locks `mutex_` again and
tests the predicate once more.

`held` is history: what a thread has taken from `count_` less what it has added to it.

`Moves` lists everything a step can do (`moves_of_step`).
-/

namespace Acso.Semaphores

open Acso.Lib

/-- The next statement of `signal`. -/
inductive SignalAt
  | lock
  | count
  | notify
  | unlock
  deriving DecidableEq

/-- The next statement of `wait`. -/
inductive WaitAt
  | lock
  /-- The predicate of `condition_.wait`. -/
  | test
  /-- It is false, and the thread gives the mutex back and goes to sleep. -/
  | sleep
  | asleep
  /-- Woken up, at the mutex. -/
  | relock
  | count
  | unlock
  deriving DecidableEq

inductive ThreadPc
  | outside
  | signal (pc : SignalAt)
  | wait (pc : WaitAt)
  deriving DecidableEq

/-- The thread holds the mutex. -/
def ThreadPc.locked : ThreadPc → Bool
  | .signal .count | .signal .notify | .signal .unlock => true
  | .wait .test | .wait .sleep | .wait .count | .wait .unlock => true
  | _ => false

/-- `notify_all`, for one thread. -/
def ThreadPc.wake : ThreadPc → ThreadPc
  | .wait .asleep => .wait .relock
  | pc => pc

structure Semaphore (n : Nat) where
  /-- `count_`, an `int` that is taken not to overflow. -/
  count : Int
  mutex : Option (Fin n)
  threads : Fin n → ThreadPc
  held : Fin n → Int

inductive Label (n : Nat)
  /-- A thread calls `signal`. -/
  | callSignal (i : Fin n)
  /-- A thread calls `wait`. -/
  | callWait (i : Fin n)
  /-- The next statement of a call. -/
  | next (i : Fin n)
  /-- A spurious wake-up. -/
  | spurious (i : Fin n)

namespace Semaphore

variable {n : Nat} (s : Semaphore n)

/-- The constructor. -/
def init (n : Nat) (count : Int) : Semaphore n := ⟨count, none, fun _ => .outside, fun _ => 0⟩

def setThread (i : Fin n) (pc : ThreadPc) : Semaphore n :=
  { s with threads := Function.update s.threads i pc }

/-- Waits for the mutex. -/
def lock (i : Fin n) (pc : ThreadPc) : Option (Semaphore n) :=
  if s.mutex = none then some { s.setThread i pc with mutex := some i } else none

def unlock (i : Fin n) (pc : ThreadPc) : Semaphore n := { s.setThread i pc with mutex := none }

/-- `count_ = count_ + d`. -/
def addCount (i : Fin n) (d : Int) : Semaphore n :=
  { s with count := s.count + d, held := Function.update s.held i (s.held i - d) }

/-- `condition_.notify_all()`. -/
def notifyAll : Semaphore n := { s with threads := fun i => (s.threads i).wake }

/-- The next statement of thread `i`. -/
def next (i : Fin n) : Option (Semaphore n) :=
  match s.threads i with
  | .outside => none
  | .signal .lock => s.lock i (.signal .count)
  | .signal .count => some ((s.addCount i 1).setThread i (.signal .notify))
  | .signal .notify => some (s.notifyAll.setThread i (.signal .unlock))
  | .signal .unlock => some (s.unlock i .outside)
  | .wait .lock => s.lock i (.wait .test)
  | .wait .test => some (s.setThread i (.wait (if 0 < s.count then .count else .sleep)))
  | .wait .sleep => some (s.unlock i (.wait .asleep))
  | .wait .asleep => none
  | .wait .relock => s.lock i (.wait .test)
  | .wait .count => some ((s.addCount i (-1)).setThread i (.wait .unlock))
  | .wait .unlock => some (s.unlock i .outside)

def step : Label n → Option (Semaphore n)
  | .callSignal i =>
    if s.threads i = .outside then some (s.setThread i (.signal .lock)) else none
  | .callWait i => if s.threads i = .outside then some (s.setThread i (.wait .lock)) else none
  | .next i => s.next i
  | .spurious i =>
    if s.threads i = .wait .asleep then some (s.setThread i (.wait .relock)) else none

end Semaphore

def semaphoreSystem (n : Nat) : System (Semaphore n) (Label n) := ⟨Semaphore.step⟩

/-! ## What a step can do -/

/-- The statements that wait for the mutex, with what follows them. -/
inductive Locks : ThreadPc → ThreadPc → Prop
  | signal : Locks (.signal .lock) (.signal .count)
  | wait : Locks (.wait .lock) (.wait .test)
  | relock : Locks (.wait .relock) (.wait .test)

/-- The statements that give the mutex back, with what follows them. -/
inductive Unlocks : ThreadPc → ThreadPc → Prop
  | signal : Unlocks (.signal .unlock) .outside
  | wait : Unlocks (.wait .unlock) .outside
  | sleep : Unlocks (.wait .sleep) (.wait .asleep)

/-- The statements at which a thread begins a call or wakes up spuriously. -/
inductive Enters : Label n → Fin n → ThreadPc → ThreadPc → Prop
  | signal (i : Fin n) : Enters (.callSignal i) i .outside (.signal .lock)
  | wait (i : Fin n) : Enters (.callWait i) i .outside (.wait .lock)
  | spurious (i : Fin n) : Enters (.spurious i) i (.wait .asleep) (.wait .relock)

/-- **What a step can do.** -/
inductive Moves (s : Semaphore n) : Label n → Semaphore n → Prop
  | enters (l : Label n) (i : Fin n) (pc pc' : ThreadPc) (hl : Enters l i pc pc')
      (hi : s.threads i = pc) : Moves s l (s.setThread i pc')
  | lock (i : Fin n) (pc pc' : ThreadPc) (hpc : Locks pc pc') (hi : s.threads i = pc)
      (hfree : s.mutex = none) : Moves s (.next i) { s.setThread i pc' with mutex := some i }
  | unlock (i : Fin n) (pc pc' : ThreadPc) (hpc : Unlocks pc pc') (hi : s.threads i = pc) :
      Moves s (.next i) (s.unlock i pc')
  | give (i : Fin n) (hi : s.threads i = .signal .count) :
      Moves s (.next i) ((s.addCount i 1).setThread i (.signal .notify))
  | notify (i : Fin n) (hi : s.threads i = .signal .notify) :
      Moves s (.next i) (s.notifyAll.setThread i (.signal .unlock))
  | pass (i : Fin n) (hi : s.threads i = .wait .test) (hcount : 0 < s.count) :
      Moves s (.next i) (s.setThread i (.wait .count))
  | fail (i : Fin n) (hi : s.threads i = .wait .test) (hcount : ¬ 0 < s.count) :
      Moves s (.next i) (s.setThread i (.wait .sleep))
  | take (i : Fin n) (hi : s.threads i = .wait .count) :
      Moves s (.next i) ((s.addCount i (-1)).setThread i (.wait .unlock))

variable {n : Nat} {s s' : Semaphore n}

theorem lock_eq_some {i : Fin n} {pc : ThreadPc} :
    s.lock i pc = some s' ↔ s.mutex = none ∧ s' = { s.setThread i pc with mutex := some i } := by
  rw [Semaphore.lock, Option.ite_none_right_eq_some, Option.some.injEq]
  exact and_congr_right fun _ => eq_comm

theorem moves_of_next {i : Fin n} (h : s.next i = some s') : Moves s (.next i) s' := by
  rw [Semaphore.next] at h
  split at h
  · cases h
  · rename_i hi
    obtain ⟨hfree, rfl⟩ := lock_eq_some.mp h
    exact .lock i _ _ .signal hi hfree
  · rename_i hi
    exact Option.some.inj h ▸ .give i hi
  · rename_i hi
    exact Option.some.inj h ▸ .notify i hi
  · rename_i hi
    exact Option.some.inj h ▸ .unlock i _ _ .signal hi
  · rename_i hi
    obtain ⟨hfree, rfl⟩ := lock_eq_some.mp h
    exact .lock i _ _ .wait hi hfree
  · rename_i hi
    obtain rfl := Option.some.inj h
    by_cases hcount : 0 < s.count
    · rw [if_pos hcount]
      exact .pass i hi hcount
    · rw [if_neg hcount]
      exact .fail i hi hcount
  · rename_i hi
    exact Option.some.inj h ▸ .unlock i _ _ .sleep hi
  · cases h
  · rename_i hi
    obtain ⟨hfree, rfl⟩ := lock_eq_some.mp h
    exact .lock i _ _ .relock hi hfree
  · rename_i hi
    exact Option.some.inj h ▸ .take i hi
  · rename_i hi
    exact Option.some.inj h ▸ .unlock i _ _ .wait hi

/-- **Every step is such a move.** -/
theorem moves_of_step {l : Label n} (h : (semaphoreSystem n).step s l = some s') :
    Moves s l s' := by
  change s.step l = some s' at h
  cases l with
  | callSignal i =>
    obtain ⟨hi, hs'⟩ := Option.ite_none_right_eq_some.mp h
    exact Option.some.inj hs' ▸ .enters _ i _ _ (.signal i) hi
  | callWait i =>
    obtain ⟨hi, hs'⟩ := Option.ite_none_right_eq_some.mp h
    exact Option.some.inj hs' ▸ .enters _ i _ _ (.wait i) hi
  | next i => exact moves_of_next h
  | spurious i =>
    obtain ⟨hi, hs'⟩ := Option.ite_none_right_eq_some.mp h
    exact Option.some.inj hs' ▸ .enters _ i _ _ (.spurious i) hi

end Acso.Semaphores
