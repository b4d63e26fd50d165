import Acso.ThreadPool.History

/-!
# Destruction

A worker exits only when it finds, under the lock, the queue empty and `done`
set.  After that only a running task can schedule, and the worker that runs it
has not exited.  So when all workers have exited the queue is empty
(`Pool.Shutting.drained`), and the destructor returns only then
(`destroyed_drained`).
-/

namespace Acso.ThreadPool

open Acso.Lib

variable {n : Nat}

/-! ## Exiting -/

theorem WorkerPc.wake_eq_exited {pc : WorkerPc} : pc.wake = .exited ↔ pc = .exited := by
  cases pc <;> simp [WorkerPc.wake]

/-- Moving a worker that has not exited to a place that is not `exited`. -/
theorem exited_setWorker {s : Pool n} {i : Fin n} {pc : WorkerPc} (hi : s.workers i ≠ .exited)
    (hpc : pc ≠ .exited) (j : Fin n) :
    (s.setWorker i pc).workers j = .exited ↔ s.workers j = .exited := by
  rw [workers_setWorker]
  split
  · rename_i heq
    rw [heq]
    exact iff_of_false hpc hi
  · exact Iff.rfl

theorem exited_wakeUp {s : Pool n} {x : Sleeper n} (hx : s.Sleeps x) (j : Fin n) :
    (s.wakeUp x).workers j = .exited ↔ s.workers j = .exited := by
  cases x with
  | worker i =>
    have hi : s.workers i ≠ .exited := by
      rw [show s.workers i = .asleep from hx]
      simp
    exact exited_setWorker hi (by simp) j
  | dispatcher => exact Iff.rfl

/-- **A worker exits** by finding the queue empty and `done` set, and stays out. -/
theorem exited_step {s s' : Pool n} {l : Label n} (h : s.step l = some s') (j : Fin n) :
    s'.workers j = .exited ↔ s.workers j = .exited ∨
      (l = .worker j ∧ s.workers j = .ready ∧ s.tasks = [] ∧ s.done = true) := by
  have hkept : ∀ {t : Pool n}, (t.workers j = .exited ↔ s.workers j = .exited) →
      (l = .worker j → s.workers j = .ready → s.tasks = [] → s.done = true → False) →
        (t.workers j = .exited ↔ s.workers j = .exited ∨
          (l = .worker j ∧ s.workers j = .ready ∧ s.tasks = [] ∧ s.done = true)) := by
    intro t ht hno
    rw [ht]
    exact (or_iff_left fun ⟨hl, hr, ht, hd⟩ => hno hl hr ht hd).symm
  cases moves_of_step h with
  | schedule origin callable wake hmay hwake =>
    refine hkept ?_ (fun hl => nomatch hl)
    cases wake with
    | none => exact Iff.rfl
    | some x => exact exited_wakeUp (s := s.push callable) hwake j
  | take i task tasks callers hready htasks hcallers =>
    refine hkept (exited_setWorker (by simp [hready]) (by simp) j) ?_
    intro _ _ hempty _
    rw [htasks] at hempty
    cases hempty
  | sleep i hready htasks hdone =>
    refine hkept (exited_setWorker (by simp [hready]) (by simp) j) ?_
    intro _ _ _ htrue
    rw [hdone] at htrue
    cases htrue
  | exit i hready htasks hdone =>
    rw [workers_setWorker]
    split
    · rename_i heq
      subst heq
      exact iff_of_true rfl (.inr ⟨rfl, hready, htasks, hdone⟩)
    · rename_i hne
      refine (or_iff_left ?_).symm
      rintro ⟨hl, -⟩
      cases hl
      exact hne rfl
  | start i task hi hcall =>
    exact hkept (exited_setWorker (by simp [hi]) (by simp) j) fun hl => nomatch hl
  | skip i task hi hcall =>
    exact hkept (exited_setWorker (by simp [hi]) (by simp) j) fun hl => nomatch hl
  | finish i task hi =>
    exact hkept (exited_setWorker (by simp [hi]) (by simp) j) fun hl => nomatch hl
  | waitReturn c before hc htasks => exact hkept WorkerPc.wake_eq_exited fun hl => nomatch hl
  | notifyTask h => exact hkept WorkerPc.wake_eq_exited fun hl => nomatch hl
  | wakeUp x hx => exact hkept (exited_wakeUp hx j) fun hl => nomatch hl
  | _ => exact hkept Iff.rfl fun hl => nomatch hl

/-! ## Shutting down -/

/-- What holds of the shutdown in every state of a run. -/
structure Pool.Shutting (s : Pool n) : Prop where
  exited : ∀ i, s.workers i = .exited → s.done = true
  notCalled : s.destructor = .notCalled → s.done = false
  drained : (∀ i, s.workers i = .exited) → s.tasks = []
  joined : ∀ k, s.destructor = .joining k → ∀ i : Fin n, n + i < k → s.workers i = .exited
  returned : s.destructor = .returned → ∀ i, s.workers i = .exited

theorem done_step {s s' : Pool n} {l : Label n} (h : s.step l = some s') (hd : s.done = true) :
    s'.done = true := by
  cases moves_of_step h with
  | setDone h => rfl
  | _ => exact hd

theorem notCalled_step {s s' : Pool n} {l : Label n}
    (hs : s.destructor = .notCalled → s.done = false) (h : s.step l = some s')
    (hd : s'.destructor = .notCalled) : s'.done = false := by
  cases moves_of_step h with
  | enter h => cases hd
  | setDone h => cases hd
  | notifyTask h => cases hd
  | notifyEmpty h => cases hd
  | joinDispatcher h hexit => cases hd
  | joinNext k h hw hk => cases hd
  | destroyed k h hk => cases hd
  | _ => exact hs hd

/-- **Nothing is scheduled once all workers have exited**, and the last one to exit
leaves the queue empty. -/
theorem drained_step (hn : 0 < n) {s s' : Pool n} {l : Label n} (hs : s.Shutting)
    (h : s.step l = some s') (hall : ∀ i, s'.workers i = .exited) : s'.tasks = [] := by
  by_cases hold : ∀ i, s.workers i = .exited
  · have htasks := hs.drained hold
    cases moves_of_step h with
    | schedule origin callable wake hmay hwake =>
      cases origin with
      | none =>
        have hfalse := hs.notCalled hmay
        rw [hs.exited _ (hold ⟨0, hn⟩)] at hfalse
        cases hfalse
      | some i =>
        obtain ⟨⟨t, hi⟩, -⟩ := hmay
        rw [hold i] at hi
        cases hi
    | take i task tasks callers hready htasks hcallers =>
      rw [hold i] at hready
      cases hready
    | _ => exact htasks
  · obtain ⟨i, hi⟩ := not_forall.mp hold
    rcases (exited_step h i).mp (hall i) with hi' | ⟨rfl, hready, htasks, hdone⟩
    · exact absurd hi' hi
    · cases moves_of_step h with
      | take i' task tasks callers hready' htasks' hcallers =>
        rw [htasks] at htasks'
        cases htasks'
      | sleep => exact htasks
      | exit => exact htasks

theorem joined_step {s s' : Pool n} {l : Label n} (hs : s.Shutting) (h : s.step l = some s')
    {k : Nat} (hk : s'.destructor = .joining k) {i : Fin n} (hi : n + i < k) :
    s'.workers i = .exited := by
  have hkept : s.workers i = .exited → s'.workers i = .exited :=
    fun hexit => (exited_step h i).mpr (.inl hexit)
  cases moves_of_step h with
  | joinDispatcher h hexit =>
    cases hk
    omega
  | joinNext k' hj hw hlt =>
    cases hk
    rcases Nat.lt_succ_iff_lt_or_eq.mp hi with hi | hi
    · exact hkept (hs.joined k' hj i hi)
    · exact hkept (hw i hi)
  | enter h => cases hk
  | setDone h => cases hk
  | notifyTask h => cases hk
  | notifyEmpty h => cases hk
  | destroyed k' h hle => cases hk
  | _ => exact hkept (hs.joined k hk i hi)

theorem returned_step {s s' : Pool n} {l : Label n} (hs : s.Shutting) (h : s.step l = some s')
    (hret : s'.destructor = .returned) (i : Fin n) : s'.workers i = .exited := by
  have hkept : s.workers i = .exited → s'.workers i = .exited :=
    fun hexit => (exited_step h i).mpr (.inl hexit)
  cases moves_of_step h with
  | destroyed k hj hle =>
    have hlt := i.isLt
    exact hkept (hs.joined k hj i (by omega))
  | enter h => cases hret
  | setDone h => cases hret
  | notifyTask h => cases hret
  | notifyEmpty h => cases hret
  | joinDispatcher h hexit => cases hret
  | joinNext k h hw hk => cases hret
  | _ => exact hkept (hs.returned hret i)

theorem shutting_init : (Pool.init n).Shutting where
  exited := fun i hi => by cases hi
  notCalled := fun _ => rfl
  drained := fun _ => rfl
  joined := fun k hk => by cases hk
  returned := fun h => by cases h

theorem shutting_step (hn : 0 < n) (s : Pool n) (l : Label n) (s' : Pool n) (hs : s.Shutting)
    (h : (poolSystem n).step s l = some s') : s'.Shutting where
  exited := by
    intro i hi
    rcases (exited_step h i).mp hi with hi | ⟨-, -, -, hdone⟩
    · exact done_step h (hs.exited i hi)
    · exact done_step h hdone
  notCalled := notCalled_step hs.notCalled h
  drained := drained_step hn hs h
  joined := fun _ hk _ hi => joined_step hs h hk hi
  returned := returned_step hs h

/-- **When the destructor returns** the queue is empty, and every task that has been
scheduled, the empty functions apart, has been executed once, to its end. -/
theorem destroyed_drained (hn : 1 ≤ n) (ls : List (Label n)) (s : Pool n)
    (hrun : (poolSystem n).run (Pool.init n) ls = some s) (hret : s.destructor = .returned) :
    s.tasks = [] ∧ ∀ t ∈ s.scheduled, t.callable = true →
      s.started.count t = 1 ∧ s.finished.count t = 1 := by
  have hrec := (poolSystem n).run_invariant recorded_step (recorded_init n) hrun
  have hshut := (poolSystem n).run_invariant (shutting_step hn) shutting_init hrun
  have hexit := hshut.returned hret
  have hempty := hshut.drained hexit
  refine ⟨hempty, ?_⟩
  intro t ht hcall
  refine hrec.conserved.finished_once (hrec.count_scheduled ht) (not_mem_queue hempty)
    (hrec.not_mem_skipped hcall) ?_
  intro i
  show WorkPool.has t (s.workers i).hand = 0
  rw [hexit i]
  rfl

/-- One worker; its task schedules another one after the destructor has set `done`. -/
def lateSchedule : List (Label 1) :=
  let i : Fin 1 := ⟨0, Nat.one_pos⟩
  [.dispatcherTest, .dispatcher, .schedule none true (some .dispatcher), .worker i, .invoke i,
    .destroy, .destroy, .schedule (some i) true none, .finish i, .dispatcher, .dispatcherTest,
    .destroy, .destroy, .destroy, .destroy, .worker i, .invoke i, .finish i, .worker i, .destroy,
    .destroy]

theorem lateSchedule_drained :
    ∃ s, (poolSystem 1).run (Pool.init 1) lateSchedule = some s ∧ s.scheduled.length = 2 ∧
      s.tasks = [] ∧ ∀ t ∈ s.scheduled, t.callable = true →
        s.started.count t = 1 ∧ s.finished.count t = 1 :=
  ⟨_, rfl, rfl, destroyed_drained (Nat.le_refl 1) lateSchedule _ rfl rfl⟩

end Acso.ThreadPool
