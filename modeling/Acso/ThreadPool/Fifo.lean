import Acso.ThreadPool.History

/-!
# Order and conservation

`Pool.events` reports the calls of `schedule`, the tasks the workers take out of the
queue and those they begin.  The tasks taken so far, followed by those in the queue,
are the tasks in the order they were scheduled in; each has been taken by one worker,
which is the only one that begins it, and only once (`tasks_fifo`).
-/

namespace Acso.ThreadPool

open Acso.Lib

variable {n : Nat}

/-! ## Events -/

inductive TaskEvent (n : Nat)
  | scheduled (t : Task)
  | taken (i : Fin n) (t : Task)
  | begun (i : Fin n) (t : Task)

/-- What a step does to tasks. -/
def Pool.events (s : Pool n) : Label n → List (TaskEvent n)
  | .schedule _ callable _ => [.scheduled ⟨s.scheduled.length, callable⟩]
  | .worker i =>
    match s.tasks with
    | [] => []
    | task :: _ => [.taken i task]
  | .invoke i =>
    match s.workers i with
    | .holding task => if task.callable then [.begun i task] else []
    | _ => []
  | _ => []

def TaskEvent.scheduled? : TaskEvent n → Option Task
  | .scheduled t => some t
  | _ => none

def TaskEvent.taken? : TaskEvent n → Option (Fin n × Task)
  | .taken i t => some (i, t)
  | _ => none

def TaskEvent.begun? : TaskEvent n → Option (Fin n × Task)
  | .begun i t => some (i, t)
  | _ => none

/-- The tasks in the order their calls of `schedule` held the lock. -/
def scheduledTasks (es : List (TaskEvent n)) : List Task := es.filterMap TaskEvent.scheduled?

/-- The tasks taken out of the queue, each with the worker that took it. -/
def takenTasks (es : List (TaskEvent n)) : List (Fin n × Task) := es.filterMap TaskEvent.taken?

/-- The tasks begun, each with the worker that runs it. -/
def begunTasks (es : List (TaskEvent n)) : List (Fin n × Task) := es.filterMap TaskEvent.begun?

/-! ## The invariant -/

/-- `1` if the worker holds the task, else `0`. -/
def WorkerPc.holds (pc : WorkerPc) (t : Task) : Nat := if pc = .holding t then 1 else 0

/-- What holds of the events so far.  A worker that holds a task has taken it once
more than it has begun it. -/
structure Pool.InOrder (es : List (TaskEvent n)) (s : Pool n) : Prop where
  order : (takenTasks es).map Prod.snd ++ s.tasks = scheduledTasks es
  scheduled : scheduledTasks es = s.scheduled
  begun : ∀ i t, (begunTasks es).count (i, t) + (s.workers i).holds t ≤
    (takenTasks es).count (i, t)

theorem inOrder_init : Pool.InOrder [] (Pool.init n) where
  order := rfl
  scheduled := rfl
  begun := fun _ _ => Nat.le_refl 0

/-- A step that touches neither the queue nor the tasks in hand. -/
theorem Pool.InOrder.idle {es : List (TaskEvent n)} {s s' : Pool n} {l : Label n}
    (hs : Pool.InOrder es s) (hevents : s.events l = []) (htasks : s'.tasks = s.tasks)
    (hscheduled : s'.scheduled = s.scheduled)
    (hholds : ∀ i t, (s'.workers i).holds t ≤ (s.workers i).holds t) :
    Pool.InOrder (es ++ s.events l) s' := by
  rw [hevents, List.append_nil]
  refine ⟨?_, ?_, ?_⟩
  · rw [htasks]
    exact hs.order
  · rw [hscheduled]
    exact hs.scheduled
  · intro i t
    exact (Nat.add_le_add_left (hholds i t) _).trans (hs.begun i t)

theorem holds_setWorker (s : Pool n) (i : Fin n) (pc : WorkerPc) (hpc : ∀ t, pc.holds t = 0) :
    ∀ j t, ((s.setWorker i pc).workers j).holds t ≤ (s.workers j).holds t := by
  intro j t
  rw [workers_setWorker]
  split
  · rw [hpc]
    exact Nat.zero_le _
  · exact Nat.le_refl _

theorem holds_wake (pc : WorkerPc) (t : Task) : pc.wake.holds t = pc.holds t := by
  cases pc <;> rfl

theorem holds_wakeUp (s : Pool n) (x : Sleeper n) (j : Fin n) (t : Task) :
    ((s.wakeUp x).workers j).holds t ≤ (s.workers j).holds t := by
  cases x with
  | worker i => exact holds_setWorker s i .ready (fun _ => rfl) j t
  | dispatcher => exact Nat.le_refl _

theorem holds_notifyOneTask (s : Pool n) (wake : Option (Sleeper n)) (j : Fin n) (t : Task) :
    ((s.notifyOneTask wake).workers j).holds t ≤ (s.workers j).holds t := by
  cases wake with
  | none => exact Nat.le_refl _
  | some x => exact holds_wakeUp s x j t

theorem holds_notifyAllTask (s : Pool n) (j : Fin n) (t : Task) :
    (s.notifyAllTask.workers j).holds t ≤ (s.workers j).holds t :=
  Nat.le_of_eq (holds_wake (s.workers j) t)

section append

variable (es : List (TaskEvent n)) (e : TaskEvent n)

theorem scheduledTasks_concat :
    scheduledTasks (es ++ [e]) = scheduledTasks es ++ e.scheduled?.toList := by
  rw [scheduledTasks, List.filterMap_append]
  cases e <;> rfl

theorem takenTasks_concat : takenTasks (es ++ [e]) = takenTasks es ++ e.taken?.toList := by
  rw [takenTasks, List.filterMap_append]
  cases e <;> rfl

theorem begunTasks_concat : begunTasks (es ++ [e]) = begunTasks es ++ e.begun?.toList := by
  rw [begunTasks, List.filterMap_append]
  cases e <;> rfl

end append

section step

variable {es : List (TaskEvent n)} {s : Pool n}

/-- A call of `schedule` puts its task at the end of both lists. -/
theorem inOrder_schedule (hs : Pool.InOrder es s) (origin : Option (Fin n)) (callable : Bool)
    (wake : Option (Sleeper n)) :
    Pool.InOrder (es ++ s.events (.schedule origin callable wake))
      ((s.push callable).notifyOneTask wake) := by
  have hevents : s.events (.schedule origin callable wake) =
      [.scheduled ⟨s.scheduled.length, callable⟩] := rfl
  rw [hevents]
  refine ⟨?_, ?_, ?_⟩
  · simp only [scheduledTasks_concat, takenTasks_concat, TaskEvent.taken?, Option.toList_none,
      List.append_nil, ← hs.order, List.append_assoc]
    rfl
  · rw [scheduledTasks_concat, hs.scheduled]
    rfl
  · intro i t
    have hholds := holds_notifyOneTask (s.push callable) wake i t
    simp only [begunTasks_concat, takenTasks_concat, TaskEvent.begun?, TaskEvent.taken?,
      Option.toList_none, List.append_nil]
    exact (Nat.add_le_add_left hholds _).trans (hs.begun i t)

/-- A worker that takes a task takes the oldest one. -/
theorem inOrder_take (hs : Pool.InOrder es s) {i : Fin n} {task : Task} {tasks : List Task}
    (callers : Caller n → CallerPc) (hready : s.workers i = .ready) (htasks : s.tasks = task :: tasks) :
    Pool.InOrder (es ++ s.events (.worker i))
      ({ s with tasks := tasks, callers := callers }.setWorker i (.holding task)) := by
  have hevents : s.events (.worker i) = [.taken i task] := by
    simp only [Pool.events, htasks]
  have hscheduled : scheduledTasks (es ++ [.taken i task]) = scheduledTasks es := by
    rw [scheduledTasks_concat]
    exact List.append_nil _
  rw [hevents]
  refine ⟨?_, ?_, ?_⟩
  · have horder := hs.order
    rw [htasks] at horder
    rw [takenTasks_concat, hscheduled, ← horder, List.map_append, List.append_assoc]
    rfl
  · rw [hscheduled]
    exact hs.scheduled
  · intro j t
    have hle := hs.begun j t
    simp only [begunTasks_concat, takenTasks_concat, TaskEvent.begun?, TaskEvent.taken?,
      Option.toList_none, Option.toList_some, List.append_nil, List.count_append,
      workers_setWorker]
    split
    · rename_i hji
      have hfree : (s.workers j).holds t = 0 := by
        rw [hji, hready]
        rfl
      have hcount : (WorkerPc.holding task).holds t ≤ List.count (j, t) [(i, task)] := by
        rw [hji, WorkerPc.holds]
        split
        · rename_i heq
          cases heq
          simp
        · exact Nat.zero_le _
      omega
    · exact hle.trans (Nat.le_add_right _ _)

/-- A worker that begins a task no longer holds it. -/
theorem inOrder_start (hs : Pool.InOrder es s) {i : Fin n} {task : Task}
    (hi : s.workers i = .holding task) (hcall : task.callable = true) :
    Pool.InOrder (es ++ s.events (.invoke i))
      ({ s with started := s.started ++ [task] }.setWorker i (.running task)) := by
  have hevents : s.events (.invoke i) = [.begun i task] := by
    simp only [Pool.events, hi, hcall, if_true]
  have htaken : takenTasks (es ++ [.begun i task]) = takenTasks es := by
    rw [takenTasks_concat]
    exact List.append_nil _
  have hscheduled : scheduledTasks (es ++ [.begun i task]) = scheduledTasks es := by
    rw [scheduledTasks_concat]
    exact List.append_nil _
  rw [hevents]
  refine ⟨?_, ?_, ?_⟩
  · rw [htaken, hscheduled]
    exact hs.order
  · rw [hscheduled]
    exact hs.scheduled
  · intro j t
    have hle := hs.begun j t
    rw [begunTasks_concat, htaken, TaskEvent.begun?, Option.toList_some, List.count_append,
      workers_setWorker]
    by_cases hjt : (j, t) = (i, task)
    · obtain ⟨rfl, rfl⟩ := Prod.mk.inj hjt
      have hheld : (s.workers j).holds t = 1 := by
        rw [hi]
        exact if_pos rfl
      have hnow : (WorkerPc.running t).holds t = 0 := rfl
      rw [if_pos rfl, hnow, List.count_singleton_self]
      omega
    · have hnone : List.count (j, t) [(i, task)] = 0 :=
        List.count_eq_zero.mpr fun hmem => hjt (List.mem_singleton.mp hmem)
      have hnow := holds_setWorker s i (.running task) (fun _ => rfl) j t
      rw [workers_setWorker] at hnow
      dsimp only
      omega

end step

/-- **Every step keeps the order.** -/
theorem inOrder_step (es : List (TaskEvent n)) (s : Pool n) (l : Label n) (s' : Pool n)
    (hs : Pool.InOrder es s) (h : (poolSystem n).step s l = some s') :
    Pool.InOrder (es ++ s.events l) s' := by
  cases moves_of_step h with
  | schedule origin callable wake hmay hwake => exact inOrder_schedule hs origin callable wake
  | take i task tasks callers hready htasks hcallers => exact inOrder_take hs callers hready htasks
  | start i task hi hcall => exact inOrder_start hs hi hcall
  | sleep i hready htasks hdone =>
    exact hs.idle (by simp only [Pool.events, htasks]) rfl rfl (holds_setWorker s i _ fun _ => rfl)
  | exit i hready htasks hdone =>
    exact hs.idle (by simp only [Pool.events, htasks]) rfl rfl (holds_setWorker s i _ fun _ => rfl)
  | skip i task hi hcall =>
    exact hs.idle (by simp [Pool.events, hi, hcall]) rfl rfl (holds_setWorker s i _ fun _ => rfl)
  | finish i task hi => exact hs.idle rfl rfl rfl (holds_setWorker s i _ fun _ => rfl)
  | waitReturn c before hc htasks => exact hs.idle rfl rfl rfl (holds_notifyAllTask s)
  | notifyTask h => exact hs.idle rfl rfl rfl (holds_notifyAllTask s)
  | wakeUp x hx => exact hs.idle rfl rfl rfl (holds_wakeUp s x)
  | _ => exact hs.idle rfl rfl rfl fun _ _ => Nat.le_refl _

/-- What the invariant says of every run. -/
theorem run_inOrder {ls : List (Label n)} {s : Pool n}
    (h : (poolSystem n).run (Pool.init n) ls = some s) :
    Pool.InOrder ((poolSystem n).log Pool.events (Pool.init n) ls) s := by
  have hlog := (poolSystem n).log_invariant inOrder_step inOrder_init h
  rwa [List.nil_append] at hlog

/-! ## Consequences -/

section InOrder

variable {es : List (TaskEvent n)} {s : Pool n} (hs : Pool.InOrder es s) (hrec : s.Recorded)
include hs hrec

theorem nodup_scheduledTasks : (scheduledTasks es).Nodup := by
  rw [hs.scheduled]
  have htickets : (s.scheduled.map Task.ticket).Nodup := by
    rw [hrec.tickets]
    exact List.nodup_range
  exact List.Nodup.of_map _ htickets

theorem nodup_takenTasks : ((takenTasks es).map Prod.snd).Nodup := by
  have hall := nodup_scheduledTasks hs hrec
  rw [← hs.order] at hall
  exact (List.nodup_append.mp hall).1

theorem taken_worker_unique {i j : Fin n} {t : Task} (hi : (i, t) ∈ takenTasks es)
    (hj : (j, t) ∈ takenTasks es) : j = i :=
  congrArg Prod.fst (List.inj_on_of_nodup_map (nodup_takenTasks hs hrec) hj hi rfl)

theorem count_begun_le_one (i : Fin n) (t : Task) : (begunTasks es).count (i, t) ≤ 1 := by
  have htaken : (takenTasks es).count (i, t) ≤ 1 :=
    List.nodup_iff_count_le_one.mp (List.Nodup.of_map _ (nodup_takenTasks hs hrec)) (i, t)
  exact ((Nat.le_add_right _ _).trans (hs.begun i t)).trans htaken

omit hrec in
theorem taken_of_begun {i : Fin n} {t : Task} (h : (i, t) ∈ begunTasks es) :
    (i, t) ∈ takenTasks es := by
  have hpos := List.count_pos_iff.mpr h
  have hle := hs.begun i t
  exact List.count_pos_iff.mp (by omega)

end InOrder

/-- **Conservation and order.**  In every run, with any number of workers, the tasks
taken so far followed by those in the queue are the scheduled tasks in the order of the
lock, which are all different; a taken task has been taken by one worker, once; it is
begun at most once, and only there. -/
theorem tasks_fifo {ls : List (Label n)} {s : Pool n} {es : List (TaskEvent n)}
    (h : (poolSystem n).run (Pool.init n) ls = some s)
    (hes : (poolSystem n).log Pool.events (Pool.init n) ls = es) :
    (takenTasks es).map Prod.snd ++ s.tasks = scheduledTasks es ∧ (scheduledTasks es).Nodup ∧
    (∀ t ∈ (takenTasks es).map Prod.snd, ∃ i, (takenTasks es).count (i, t) = 1 ∧
      (∀ j, (j, t) ∈ takenTasks es → j = i) ∧ (begunTasks es).count (i, t) ≤ 1 ∧
      ∀ j, (j, t) ∈ begunTasks es → j = i) ∧
    ∀ i t, (i, t) ∈ begunTasks es → (i, t) ∈ takenTasks es := by
  subst hes
  have hs := run_inOrder h
  have hrec := (poolSystem n).run_invariant recorded_step (recorded_init n) h
  refine ⟨hs.order, nodup_scheduledTasks hs hrec, ?_, fun i t => taken_of_begun hs⟩
  intro t ht
  obtain ⟨⟨i, t'⟩, hmem, rfl⟩ := List.mem_map.mp ht
  have hnodup : (takenTasks _).Nodup := List.Nodup.of_map _ (nodup_takenTasks hs hrec)
  refine ⟨i, List.count_eq_one_of_mem hnodup hmem, fun j hj => ?_, ?_, fun j hj => ?_⟩
  · exact taken_worker_unique hs hrec hmem hj
  · exact count_begun_le_one hs hrec i _
  · exact taken_worker_unique hs hrec hmem (taken_of_begun hs hj)

/-- Two workers and two tasks, of which the second worker runs the first. -/
def twoTasks : List (Label 2) :=
  [.schedule none true none, .schedule none false none, .worker 1, .worker 0, .invoke 1]

theorem twoTasks_fifo : ∃ (s : Pool 2) (es : List (TaskEvent 2)),
    (poolSystem 2).run (Pool.init 2) twoTasks = some s ∧
    takenTasks es = [(1, ⟨0, true⟩), (0, ⟨1, false⟩)] ∧ begunTasks es = [(1, ⟨0, true⟩)] ∧
    (takenTasks es).map Prod.snd ++ s.tasks = scheduledTasks es :=
  ⟨_, _, rfl, rfl, rfl, (@tasks_fifo 2 twoTasks _ _ rfl rfl).1⟩

end Acso.ThreadPool
