import Acso.Lib.WorkPool
import Acso.ThreadPool.Model

/-!
# Steps and history

`Moves` lists everything a step can do, guards included, and `moves_of_step` is
the only place where `step` is unfolded.  Without the sleeping and waking the
pool is a work pool (`poolSystem_refines`), so no task is lost or duplicated.
`Pool.Recorded` collects what holds of the history in every state of a run.
-/

namespace Acso.ThreadPool

open Acso.Lib

variable {n : Nat}

/-- **What a step can do.** -/
inductive Moves (s : Pool n) : Label n → Pool n → Prop
  | schedule (origin : Option (Fin n)) (callable : Bool) (wake : Option (Sleeper n))
      (hmay : s.MayCall origin) (hwake : s.CanNotify wake) :
      Moves s (.schedule origin callable wake) ((s.push callable).notifyOneTask wake)
  | take (i : Fin n) (task : Task) (tasks : List Task) (callers : Caller n → CallerPc)
      (hready : s.workers i = .ready) (htasks : s.tasks = task :: tasks)
      (hcallers : callers = if tasks = [] then fun c => (s.callers c).wake else s.callers) :
      Moves s (.worker i)
        ({ s with tasks := tasks, callers := callers }.setWorker i (.holding task))
  | sleep (i : Fin n) (hready : s.workers i = .ready) (htasks : s.tasks = [])
      (hdone : s.done = false) : Moves s (.worker i) (s.setWorker i .asleep)
  | exit (i : Fin n) (hready : s.workers i = .ready) (htasks : s.tasks = [])
      (hdone : s.done = true) : Moves s (.worker i) (s.setWorker i .exited)
  | start (i : Fin n) (task : Task) (hi : s.workers i = .holding task)
      (hcall : task.callable = true) :
      Moves s (.invoke i) ({ s with started := s.started ++ [task] }.setWorker i (.running task))
  | skip (i : Fin n) (task : Task) (hi : s.workers i = .holding task)
      (hcall : task.callable = false) :
      Moves s (.invoke i) ({ s with skipped := s.skipped ++ [task] }.setWorker i .ready)
  | finish (i : Fin n) (task : Task) (hi : s.workers i = .running task)
      (hidle : s.callers (.task i) = .idle) :
      Moves s (.finish i) ({ s with finished := s.finished ++ [task] }.setWorker i .ready)
  | dispatcherTest (htop : s.dispatcher = .top) :
      Moves s .dispatcherTest { s with dispatcher := if s.done then .exited else .ready }
  | dispatcherLoop (hready : s.dispatcher = .ready) (htasks : s.tasks ≠ []) :
      Moves s .dispatcher { s with dispatcher := .top }
  | dispatcherSleep (hready : s.dispatcher = .ready) (htasks : s.tasks = [])
      (hdone : s.done = false) : Moves s .dispatcher { s with dispatcher := .asleep }
  | dispatcherExit (hready : s.dispatcher = .ready) (htasks : s.tasks = [])
      (hdone : s.done = true) : Moves s .dispatcher { s with dispatcher := .exited }
  | waitCall (c : Caller n) (hidle : s.callers c = .idle) (hmay : s.MayCall c.origin) :
      Moves s (.waitCall c) (s.setCaller c (.waiting s.scheduled false))
  | waitReturn (c : Caller n) (before : List Task) (hc : s.callers c = .waiting before false)
      (htasks : s.tasks = []) : Moves s (.wait c) (s.setCaller c .idle).notifyAllTask
  | waitSleep (c : Caller n) (before : List Task) (hc : s.callers c = .waiting before false)
      (htasks : s.tasks ≠ []) : Moves s (.wait c) (s.setCaller c (.waiting before true))
  | enter (h : s.destructor = .notCalled) : Moves s .destroy { s with destructor := .entered }
  | setDone (h : s.destructor = .entered) :
      Moves s .destroy { s with done := true, destructor := .doneSet }
  | notifyTask (h : s.destructor = .doneSet) :
      Moves s .destroy { s.notifyAllTask with destructor := .tasksNotified }
  | notifyEmpty (h : s.destructor = .tasksNotified) :
      Moves s .destroy { s.notifyAllEmpty with destructor := .joiningDispatcher }
  | joinDispatcher (h : s.destructor = .joiningDispatcher) (hd : s.dispatcher = .exited) :
      Moves s .destroy { s with destructor := .joining 0 }
  | joinNext (k : Nat) (h : s.destructor = .joining k)
      (hw : ∀ i : Fin n, n + i = k → s.workers i = .exited) (hk : k < 2 * n) :
      Moves s .destroy { s with destructor := .joining (k + 1) }
  | destroyed (k : Nat) (h : s.destructor = .joining k) (hk : 2 * n ≤ k) :
      Moves s .destroy { s with destructor := .returned }
  | wakeUp (x : Sleeper n) (hx : s.Sleeps x) : Moves s (.spurious x) (s.wakeUp x)
  | wakeCaller (c : Caller n) : Moves s (.spuriousCaller c) (s.setCaller c (s.callers c).wake)

theorem workers_setWorker (s : Pool n) (i j : Fin n) (pc : WorkerPc) :
    (s.setWorker i pc).workers j = if j = i then pc else s.workers j :=
  Function.update_apply s.workers i pc j

theorem callers_setCaller (s : Pool n) (c c' : Caller n) (pc : CallerPc) :
    (s.setCaller c pc).callers c' = if c' = c then pc else s.callers c' :=
  Function.update_apply s.callers c pc c'

section inversion

variable {s s' : Pool n}

theorem moves_worker {i : Fin n} (hready : s.workers i = .ready) :
    Moves s (.worker i) (s.worker i) := by
  unfold Pool.worker
  split
  · rename_i htasks
    by_cases hdone : s.done = true
    · rw [if_pos hdone]
      exact .exit i hready htasks hdone
    · rw [if_neg hdone]
      exact .sleep i hready htasks (by simpa using hdone)
  · rename_i task tasks htasks
    by_cases hempty : tasks = []
    · rw [if_pos hempty]
      exact .take i task tasks _ hready htasks (if_pos hempty).symm
    · rw [if_neg hempty]
      exact .take i task tasks _ hready htasks (if_neg hempty).symm

theorem moves_dispatcher (hready : s.dispatcher = .ready) :
    Moves s .dispatcher s.dispatcherSection := by
  unfold Pool.dispatcherSection
  split
  · rename_i htasks
    by_cases hdone : s.done = true
    · rw [if_pos hdone]
      exact .dispatcherExit hready htasks hdone
    · rw [if_neg hdone]
      exact .dispatcherSleep hready htasks (by simpa using hdone)
  · rename_i htasks
    exact .dispatcherLoop hready (by simp [htasks])

theorem moves_destroy (h : s.destroy = some s') : Moves s .destroy s' := by
  unfold Pool.destroy at h
  split at h
  · obtain rfl := Option.some.inj h
    exact .enter ‹_›
  · obtain rfl := Option.some.inj h
    exact .setDone ‹_›
  · obtain rfl := Option.some.inj h
    exact .notifyTask ‹_›
  · obtain rfl := Option.some.inj h
    exact .notifyEmpty ‹_›
  · split at h
    · obtain rfl := Option.some.inj h
      exact .joinDispatcher ‹_› ‹_›
    · cases h
  · rename_i k hk
    split at h
    · obtain rfl := Option.some.inj h
      exact .joinNext k hk (fun i hi => by omega) (by omega)
    · split at h
      · rename_i hlt
        split at h
        · rename_i hexit
          obtain rfl := Option.some.inj h
          refine .joinNext k hk (fun i hi => ?_) (by omega)
          have hi' : i = ⟨k - n, hlt⟩ := Fin.ext (by show i.val = k - n; omega)
          rw [hi', hexit]
        · cases h
      · obtain rfl := Option.some.inj h
        exact .destroyed k hk (by omega)
  · cases h

/-- **Every step is a move.** -/
theorem moves_of_step {l : Label n} (h : s.step l = some s') : Moves s l s' := by
  cases l with
  | schedule origin callable wake =>
    obtain ⟨⟨hmay, hwake⟩, hs'⟩ := Option.ite_none_right_eq_some.mp h
    exact Option.some.inj hs' ▸ .schedule origin callable wake hmay hwake
  | worker i =>
    obtain ⟨hready, hs'⟩ := Option.ite_none_right_eq_some.mp h
    exact Option.some.inj hs' ▸ moves_worker hready
  | invoke i =>
    rw [Pool.step] at h
    split at h
    · rename_i task hi
      obtain rfl := Option.some.inj h
      unfold Pool.invoke
      by_cases hcall : task.callable = true
      · rw [if_pos hcall]
        exact .start i task hi hcall
      · rw [if_neg hcall]
        exact .skip i task hi (by simpa using hcall)
    · cases h
  | finish i =>
    rw [Pool.step] at h
    split at h
    · rename_i task hi
      obtain ⟨hidle, hs'⟩ := Option.ite_none_right_eq_some.mp h
      exact Option.some.inj hs' ▸ .finish i task hi hidle
    · cases h
  | dispatcherTest =>
    obtain ⟨htop, hs'⟩ := Option.ite_none_right_eq_some.mp h
    exact Option.some.inj hs' ▸ .dispatcherTest htop
  | dispatcher =>
    obtain ⟨hready, hs'⟩ := Option.ite_none_right_eq_some.mp h
    exact Option.some.inj hs' ▸ moves_dispatcher hready
  | waitCall c =>
    obtain ⟨⟨hidle, hmay⟩, hs'⟩ := Option.ite_none_right_eq_some.mp h
    exact Option.some.inj hs' ▸ .waitCall c hidle hmay
  | wait c =>
    rw [Pool.step] at h
    split at h
    · rename_i before hc
      obtain rfl := Option.some.inj h
      unfold Pool.wait
      by_cases htasks : s.tasks = []
      · rw [if_pos htasks]
        exact .waitReturn c before hc htasks
      · rw [if_neg htasks]
        exact .waitSleep c before hc htasks
    · cases h
  | destroy => exact moves_destroy h
  | spurious x =>
    obtain ⟨hx, hs'⟩ := Option.ite_none_right_eq_some.mp h
    exact Option.some.inj hs' ▸ .wakeUp x hx
  | spuriousCaller c =>
    obtain rfl := Option.some.inj h
    exact .wakeCaller c

end inversion

/-! ## The pool as a work pool -/

/-- What a worker has in its hands. -/
def WorkerPc.hand : WorkerPc → Hand Task
  | .holding t => .holding t
  | .running t => .running t
  | _ => .empty

/-- The pool without its threads' sleeping and waking. -/
def Pool.work (s : Pool n) : WorkPool n Task where
  queue := s.tasks
  hands := fun i => (s.workers i).hand
  submitted := s.scheduled
  started := s.started
  finished := s.finished
  dropped := s.skipped

theorem WorkerPc.hand_wake (pc : WorkerPc) : pc.wake.hand = pc.hand := by cases pc <;> rfl

section work

variable (s : Pool n)

theorem work_setWorker (i : Fin n) (pc : WorkerPc) :
    (s.setWorker i pc).work = s.work.setHand i pc.hand := by
  have h := Function.comp_update WorkerPc.hand s.workers i pc
  simp only [Pool.work, Pool.setWorker, WorkPool.setHand]
  exact congrArg (fun hands => WorkPool.mk s.tasks hands s.scheduled s.started s.finished s.skipped) h

/-- A worker with empty hands before and after. -/
theorem work_setWorker_empty {i : Fin n} {pc : WorkerPc} (hi : (s.workers i).hand = .empty)
    (hpc : pc.hand = .empty) : (s.setWorker i pc).work = s.work := by
  have h : Function.update s.work.hands i .empty = s.work.hands := by
    rw [← hi]
    exact Function.update_eq_self i s.work.hands
  rw [work_setWorker, hpc, WorkPool.setHand, h]

theorem work_wakeUp {x : Sleeper n} (hx : s.Sleeps x) : (s.wakeUp x).work = s.work := by
  cases x with
  | worker i =>
    have hi : s.workers i = .asleep := hx
    exact work_setWorker_empty s (by rw [hi]; rfl) rfl
  | dispatcher => rfl

theorem work_notifyAllTask : s.notifyAllTask.work = s.work := by
  simp only [Pool.work, Pool.notifyAllTask, WorkerPc.hand_wake]

theorem work_notifyOneTask {wake : Option (Sleeper n)} (h : s.CanNotify wake) :
    (s.notifyOneTask wake).work = s.work := by
  cases wake with
  | none => rfl
  | some x => exact work_wakeUp s h

end work

/-- **The thread pool refines the work pool.** -/
theorem poolSystem_refines (n : Nat) :
    (poolSystem n).Refines (WorkPool.system n Task) Pool.work := by
  intro s l s' h
  have hands : ∀ {i pc}, s.workers i = pc → s.work.hands i = pc.hand :=
    fun h => congrArg WorkerPc.hand h
  cases moves_of_step h with
  | schedule origin callable wake hmay hwake =>
    have hwork := work_notifyOneTask (s.push callable)
      (show (s.push callable).CanNotify wake from hwake)
    exact .inr ⟨.submit ⟨s.scheduled.length, callable⟩, hwork ▸ rfl⟩
  | take i task tasks callers hready htasks hcallers =>
    have hqueue : s.work.queue = task :: tasks := htasks
    refine .inr ⟨.take i, ?_⟩
    rw [work_setWorker]
    simp only [WorkPool.system, WorkPool.step, hands hready, hqueue]
    rfl
  | sleep i hready htasks hdone =>
    exact .inl (work_setWorker_empty s (by rw [hready]; rfl) rfl)
  | exit i hready htasks hdone =>
    exact .inl (work_setWorker_empty s (by rw [hready]; rfl) rfl)
  | start i task hi hcall =>
    refine .inr ⟨.start i, ?_⟩
    rw [work_setWorker]
    simp only [WorkPool.system, WorkPool.step, hands hi]
    rfl
  | skip i task hi hcall =>
    refine .inr ⟨.drop i, ?_⟩
    rw [work_setWorker]
    simp only [WorkPool.system, WorkPool.step, hands hi]
    rfl
  | finish i task hi hidle =>
    refine .inr ⟨.finish i, ?_⟩
    rw [work_setWorker]
    simp only [WorkPool.system, WorkPool.step, hands hi]
    rfl
  | waitReturn c before hc htasks =>
    have hwork := work_notifyAllTask (s.setCaller c .idle)
    exact .inl hwork
  | notifyTask h =>
    have hwork := work_notifyAllTask s
    exact .inl hwork
  | wakeUp x hx => exact .inl (work_wakeUp s hx)
  | _ => exact .inl rfl

/-! ## The history of a run -/

/-- What holds of the history: no task is lost, the tickets are those of the calls
of `schedule` in order, only empty functions are skipped, and what a waiting
caller remembers has been scheduled. -/
structure Pool.Recorded (s : Pool n) : Prop where
  conserved : s.work.Conserved
  tickets : s.scheduled.map Task.ticket = List.range s.scheduled.length
  skipped : ∀ t ∈ s.skipped, t.callable = false
  snapshots : ∀ c before asleep, s.callers c = .waiting before asleep →
    ∀ t ∈ before, t ∈ s.scheduled

theorem tickets_step {s s' : Pool n} {l : Label n}
    (hs : s.scheduled.map Task.ticket = List.range s.scheduled.length) (h : s.step l = some s') :
    s'.scheduled.map Task.ticket = List.range s'.scheduled.length := by
  cases moves_of_step h with
  | schedule origin callable wake hmay hwake =>
    have hpush : ((s.push callable).notifyOneTask wake).scheduled =
        s.scheduled ++ [⟨s.scheduled.length, callable⟩] := rfl
    rw [hpush, List.map_append, hs, List.length_append, List.length_singleton, List.range_succ]
    rfl
  | _ => exact hs

theorem skipped_step {s s' : Pool n} {l : Label n} (hs : ∀ t ∈ s.skipped, t.callable = false)
    (h : s.step l = some s') : ∀ t ∈ s'.skipped, t.callable = false := by
  cases moves_of_step h with
  | skip i task hi hcall =>
    intro t ht
    rcases List.mem_append.mp ht with ht | ht
    · exact hs t ht
    · rw [List.mem_singleton.mp ht, hcall]
  | _ => exact hs

theorem CallerPc.wake_eq_waiting {pc : CallerPc} {before : List Task} {asleep : Bool}
    (h : pc.wake = .waiting before asleep) : ∃ asleep', pc = .waiting before asleep' := by
  cases pc with
  | idle => cases h
  | waiting before' asleep' =>
    cases h
    exact ⟨asleep', rfl⟩

theorem scheduled_step {s s' : Pool n} {l : Label n} (h : s.step l = some s') :
    ∀ t ∈ s.scheduled, t ∈ s'.scheduled := by
  intro t ht
  cases moves_of_step h with
  | schedule origin callable wake hmay hwake => exact List.mem_append_left _ ht
  | _ => exact ht

/-- What a caller remembers after a step, it has remembered before, or its call has begun
by the step and it is all that has been scheduled. -/
theorem callers_step {s s' : Pool n} {l : Label n} (h : s.step l = some s') {c : Caller n}
    {before : List Task} {asleep : Bool} (hc : s'.callers c = .waiting before asleep) :
    (∃ asleep', s.callers c = .waiting before asleep') ∨
      l = .waitCall c ∧ before = s.scheduled := by
  cases moves_of_step h with
  | take i task tasks callers hready htasks hcallers =>
    have hc' : callers c = .waiting before asleep := hc
    rw [hcallers] at hc'
    split at hc'
    · exact .inl (CallerPc.wake_eq_waiting hc')
    · exact .inl ⟨asleep, hc'⟩
  | waitCall c' hidle hmay =>
    rw [callers_setCaller] at hc
    split at hc
    · rename_i heq
      cases hc
      exact .inr ⟨by rw [heq], rfl⟩
    · exact .inl ⟨asleep, hc⟩
  | waitReturn c' before' hc' htasks =>
    have hc'' : (s.setCaller c' .idle).callers c = .waiting before asleep := hc
    rw [callers_setCaller] at hc''
    split at hc''
    · cases hc''
    · exact .inl ⟨asleep, hc''⟩
  | waitSleep c' before' hc' htasks =>
    rw [callers_setCaller] at hc
    split at hc
    · rename_i heq
      cases hc
      exact .inl ⟨false, heq ▸ hc'⟩
    · exact .inl ⟨asleep, hc⟩
  | notifyEmpty h => exact .inl (CallerPc.wake_eq_waiting hc)
  | wakeCaller c' =>
    rw [callers_setCaller] at hc
    split at hc
    · rename_i heq
      exact .inl (heq ▸ CallerPc.wake_eq_waiting hc)
    · exact .inl ⟨asleep, hc⟩
  | _ => exact .inl ⟨asleep, hc⟩

theorem recorded_init (n : Nat) : (Pool.init n).Recorded where
  conserved := WorkPool.conserved_init
  tickets := rfl
  skipped := fun t ht => by cases ht
  snapshots := fun c before asleep hc => by cases hc

/-- **Every step keeps the history in order.** -/
theorem recorded_step (s : Pool n) (l : Label n) (s' : Pool n) (hs : s.Recorded)
    (h : (poolSystem n).step s l = some s') : s'.Recorded where
  conserved := (poolSystem_refines n).invariant_step WorkPool.conserved_step hs.conserved h
  tickets := tickets_step hs.tickets h
  skipped := skipped_step hs.skipped h
  snapshots := by
    intro c before asleep hc t ht
    rcases callers_step h hc with ⟨asleep', hc'⟩ | ⟨-, rfl⟩
    · exact scheduled_step h t (hs.snapshots c before asleep' hc' t ht)
    · exact scheduled_step h t ht

/-- **Every run** of the pool is a run of the work pool. -/
theorem run_refines {ls : List (Label n)} {s : Pool n}
    (h : (poolSystem n).run (Pool.init n) ls = some s) :
    ∃ es, (WorkPool.system n Task).run (WorkPool.init n Task) es = some s.work :=
  (poolSystem_refines n).run h

/-- A scheduled task has been scheduled once. -/
theorem Pool.Recorded.count_scheduled {s : Pool n} (hs : s.Recorded) {t : Task}
    (ht : t ∈ s.scheduled) : s.scheduled.count t = 1 := by
  have hnodup : (s.scheduled.map Task.ticket).Nodup := by
    rw [hs.tickets]
    exact List.nodup_range
  exact List.count_eq_one_of_mem (List.Nodup.of_map _ hnodup) ht

theorem Pool.Recorded.not_mem_skipped {s : Pool n} (hs : s.Recorded) {t : Task}
    (hcall : t.callable = true) : t ∉ s.skipped := by
  intro hmem
  have hfalse := hs.skipped t hmem
  rw [hcall] at hfalse
  cases hfalse

theorem has_hand_ne_zero {t : Task} {pc : WorkerPc} :
    WorkPool.has t pc.hand ≠ 0 ↔ pc = .holding t ∨ pc = .running t := by
  cases pc <;> simp [WorkerPc.hand, WorkPool.has]

/-- What is queued, in the hands of a worker, finished or skipped has been scheduled. -/
theorem Pool.Recorded.mem_scheduled {s : Pool n} (hs : s.Recorded) {t : Task}
    (h : t ∈ s.tasks ∨ (∃ i, WorkPool.has t (s.workers i).hand ≠ 0) ∨ t ∈ s.finished ∨
      t ∈ s.skipped) : t ∈ s.scheduled :=
  hs.conserved.mem_submitted h

/-- A task in the hands of a worker is not finished. -/
theorem Pool.Recorded.not_mem_finished {s : Pool n} (hs : s.Recorded) {t : Task} {i : Fin n}
    (hi : WorkPool.has t (s.workers i).hand ≠ 0) : t ∉ s.finished :=
  hs.conserved.not_mem_finished (hs.count_scheduled (hs.mem_scheduled (.inr (.inl ⟨i, hi⟩)))) hi

theorem not_mem_queue {s : Pool n} (h : s.tasks = []) {t : Task} : t ∉ s.work.queue := by
  show t ∉ s.tasks
  rw [h]
  exact List.not_mem_nil

end Acso.ThreadPool
