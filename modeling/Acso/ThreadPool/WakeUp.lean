import Acso.ThreadPool.History

/-!
# Lost wake-ups

The dispatcher waits on the same condition variable as the workers, and
`schedule` notifies one of them.  If all workers are asleep and the dispatcher is
the one that wakes, it tells `workerIsAvailable`, on which nobody waits, and the
task stays in the queue.  `lostWakeUp_iff` says that this step, and no other,
loses a wake-up.
-/

namespace Acso.ThreadPool

open Acso.Lib

variable {n : Nat}

/-- A task is in the queue and all workers are asleep. -/
def LostWakeUp (s : Pool n) : Prop := s.tasks ≠ [] ∧ ∀ i, s.workers i = .asleep

/-- A call of `schedule` that wakes the dispatcher while all workers are asleep. -/
def WakesDispatcherOnly (s : Pool n) (l : Label n) : Prop :=
  (∀ i, s.workers i = .asleep) ∧
    ∃ origin callable, l = .schedule origin callable (some .dispatcher)

/-- A state in which some worker is awake. -/
theorem not_lostWakeUp_of_awake {s : Pool n} {i : Fin n} (h : s.workers i ≠ .asleep) :
    ¬ LostWakeUp s := fun hl => h (hl.2 i)

/-- Setting a worker to anything but `asleep`. -/
theorem not_lostWakeUp_setWorker (s : Pool n) (i : Fin n) {pc : WorkerPc} (hpc : pc ≠ .asleep) :
    ¬ LostWakeUp (s.setWorker i pc) := by
  refine not_lostWakeUp_of_awake (i := i) ?_
  rw [workers_setWorker, if_pos rfl]
  exact hpc

theorem not_lostWakeUp_notifyAllTask (hn : 0 < n) {s t : Pool n}
    (ht : t.workers = s.notifyAllTask.workers) : ¬ LostWakeUp t := by
  refine not_lostWakeUp_of_awake (i := ⟨0, hn⟩) ?_
  rw [ht]
  show (s.workers ⟨0, hn⟩).wake ≠ .asleep
  cases s.workers ⟨0, hn⟩ <;> simp [WorkerPc.wake]

/-- **One step** loses a wake-up exactly if it wakes only the dispatcher. -/
theorem lostWakeUp_step (hn : 0 < n) (s : Pool n) (l : Label n) (s' : Pool n)
    (hs : ¬ LostWakeUp s) (h : (poolSystem n).step s l = some s') :
    LostWakeUp s' ↔ WakesDispatcherOnly s l := by
  have hother : (∀ origin callable, l ≠ .schedule origin callable (some .dispatcher)) →
      ¬ LostWakeUp s' → (LostWakeUp s' ↔ WakesDispatcherOnly s l) := by
    intro hl hlost
    refine iff_of_false hlost ?_
    rintro ⟨-, origin, callable, heq⟩
    exact hl origin callable heq
  cases moves_of_step h with
  | schedule origin callable wake hmay hwake =>
    rcases wake with _ | x
    · refine hother (fun _ _ => by simp) (not_lostWakeUp_of_awake (i := ⟨0, hn⟩) ?_)
      exact hwake (.worker ⟨0, hn⟩)
    · cases x with
      | worker i => exact hother (fun _ _ => by simp) (not_lostWakeUp_setWorker _ i (by simp))
      | dispatcher =>
        have hne : (s.push callable).tasks ≠ [] := by simp [Pool.push]
        exact ⟨fun hl => ⟨hl.2, origin, callable, rfl⟩, fun hc => ⟨hne, hc.1⟩⟩
  | take i task tasks callers hready htasks hcallers =>
    exact hother (fun _ _ => by simp) (not_lostWakeUp_setWorker _ i (by simp))
  | sleep i hready htasks hdone => exact hother (fun _ _ => by simp) fun hl => hl.1 htasks
  | exit i hready htasks hdone =>
    exact hother (fun _ _ => by simp) (not_lostWakeUp_setWorker _ i (by simp))
  | start i task hi hcall =>
    exact hother (fun _ _ => by simp) (not_lostWakeUp_setWorker _ i (by simp))
  | skip i task hi hcall =>
    exact hother (fun _ _ => by simp) (not_lostWakeUp_setWorker _ i (by simp))
  | finish i task hi =>
    exact hother (fun _ _ => by simp) (not_lostWakeUp_setWorker _ i (by simp))
  | waitReturn c before hc htasks =>
    exact hother (fun _ _ => by simp) (not_lostWakeUp_notifyAllTask hn rfl)
  | notifyTask h => exact hother (fun _ _ => by simp) (not_lostWakeUp_notifyAllTask hn rfl)
  | wakeUp x hx =>
    cases x with
    | worker i => exact hother (fun _ _ => by simp) (not_lostWakeUp_setWorker _ i (by simp))
    | dispatcher => exact hother (fun _ _ => by simp) hs
  | _ => exact hother (fun _ _ => by simp) hs

/-- **Along a run** no wake-up is lost if and only if no call of `schedule` wakes
only the dispatcher. -/
theorem lostWakeUp_iff (hn : 1 ≤ n) (ls : List (Label n)) (s : Pool n)
    (hrun : (poolSystem n).run (Pool.init n) ls = some s) :
    (poolSystem n).Visits (fun s => ¬ LostWakeUp s) (Pool.init n) ls ↔
      (poolSystem n).Along (fun s l => ¬ WakesDispatcherOnly s l) (Pool.init n) ls :=
  (poolSystem n).visits_iff_along (fun _ => True) LostWakeUp WakesDispatcherOnly
    (fun _ _ _ _ _ => trivial) (fun s l s' _ hs h => lostWakeUp_step hn s l s' hs h) trivial
    (fun hl => hl.1 rfl) hrun

/-- The worker and the dispatcher fall asleep; then a task is scheduled, and it is
the dispatcher that wakes. -/
def dispatcherWakes : List (Label 1) :=
  [.worker ⟨0, Nat.one_pos⟩, .dispatcherTest, .dispatcher,
    .schedule none true (some .dispatcher)]

theorem dispatcherWakes_iff :
    (poolSystem 1).Visits (fun s => ¬ LostWakeUp s) (Pool.init 1) dispatcherWakes ↔
      (poolSystem 1).Along (fun s l => ¬ WakesDispatcherOnly s l) (Pool.init 1) dispatcherWakes :=
  lostWakeUp_iff (Nat.le_refl 1) dispatcherWakes _ rfl

theorem dispatcherWakes_loses :
    ¬ ∀ n, 1 ≤ n → ∀ (ls : List (Label n)) (s : Pool n),
      (poolSystem n).run (Pool.init n) ls = some s → ¬ LostWakeUp s := by
  intro h
  exact h 1 (Nat.le_refl 1) dispatcherWakes _ rfl ⟨by decide, by decide⟩

end Acso.ThreadPool
