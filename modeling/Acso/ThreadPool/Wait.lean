import Acso.Lib.Traces
import Acso.ThreadPool.Atomic
import Acso.ThreadPool.Destruction

/-!
# Waiting for execution

`wait` returns when the queue is empty, but a worker runs the task it has popped after it has
left the lock.  So a call of `wait` does not wait for the tasks that have been popped: the queue
can be emptied with one of them still to be run (`exists_drain`), and then the call returns.
Unless nothing but empty functions is left when the call begins, or the only worker that is left
has to come back from the last task to pop an empty function behind it, or all that are left
are in calls of `wait` themselves and no call returns any more, there is an order of the steps
in which the call returns too early (`wait_returns_iff`).
-/

namespace Acso.ThreadPool

open Acso.Lib

variable {n : Nat}

/-- By this step the call of `wait` returns that `c` began when `before` had been scheduled. -/
def Returns (c : Caller n) (before : List Task) (s s' : Pool n) : Prop :=
  (∃ asleep, s.callers c = .waiting before asleep) ∧ s'.callers c = .idle

/-- If it is this call that returns by the step, the tasks scheduled before it, the empty
functions apart, have finished. -/
def ReturnsAfter (c : Caller n) (before : List Task) (s : Pool n) (l : Label n) : Prop :=
  ∀ s', (poolSystem n).step s l = some s' → Returns c before s s' →
    ∀ t ∈ before, t.callable = true → t ∈ s'.finished

/-- The same for every call. -/
def ReturnsAfterTasks (s : Pool n) (l : Label n) : Prop :=
  ∀ c before, ReturnsAfter c before s l

/-- The worker is between popping the task and its end. -/
def Pool.Has (s : Pool n) (i : Fin n) (t : Task) : Prop :=
  s.workers i = .holding t ∨ s.workers i = .running t

/-- Only empty functions are in the queue and in the hands of the workers. -/
def Pool.Idle (s : Pool n) : Prop :=
  (∀ t ∈ s.tasks, t.callable = false) ∧ ∀ i t, s.Has i t → t.callable = false

/-- Only one worker is left, and the queue ends with an empty function. -/
def Pool.EndsEmpty (s : Pool n) : Prop :=
  (∃ w, ∀ i, i ≠ w → s.workers i = .exited) ∧
    ∃ u, s.tasks.getLast? = some u ∧ u.callable = false

/-- There is a task in the queue, and every worker that is left is in a call of `wait`, the one
of `c` included.  So nobody takes the task, and none of the calls returns. -/
def Pool.Stuck (s : Pool n) (c : Caller n) : Prop :=
  s.tasks ≠ [] ∧ ∀ i, s.workers i ≠ .exited → c = .task i ∨ s.callers (.task i) ≠ .idle

/-- A call of `wait` that `c` begins now cannot return too early. -/
def Pool.NothingToMiss (s : Pool n) (c : Caller n) : Prop := s.Idle ∨ s.EndsEmpty ∨ s.Stuck c

/-- If a call of `wait` begins by the step, it cannot return too early. -/
def CallsInTime (s : Pool n) (l : Label n) : Prop := ∀ c, l = .waitCall c → s.NothingToMiss c

/-! ## Queue and hands -/

section step

variable {s s' : Pool n} {l : Label n}

theorem has_setWorker {i j : Fin n} {pc : WorkerPc} {t : Task} :
    (s.setWorker i pc).Has j t ↔
      if j = i then pc = .holding t ∨ pc = .running t else s.Has j t := by
  rw [Pool.Has, workers_setWorker]
  split <;> rfl

/-- A worker that is at rest afterwards has nothing. -/
theorem has_of_setWorker_ready {i j : Fin n} {t : Task} (h : (s.setWorker i .ready).Has j t) :
    s.Has j t := by
  rw [has_setWorker] at h
  split at h
  · simp at h
  · exact h

theorem has_wake {pc : WorkerPc} {t : Task} :
    (pc.wake = .holding t ∨ pc.wake = .running t) ↔ (pc = .holding t ∨ pc = .running t) := by
  cases pc <;> simp [WorkerPc.wake]

/-- **What a step does to the queue and the hands**: nothing new, one fresh task behind the
queue, or one task from its front in the hands of a worker. -/
theorem hands_step (h : (poolSystem n).step s l = some s') :
    (s'.tasks = s.tasks ∧ ∀ i t, s'.Has i t → s.Has i t) ∨
      (∃ callable, s'.tasks = s.tasks ++ [⟨s.scheduled.length, callable⟩] ∧
        ∀ i t, s'.Has i t → s.Has i t) ∨
      ∃ i task, s.workers i = .ready ∧ s.tasks = task :: s'.tasks ∧
        (∀ t, s'.Has i t → t = task) ∧ ∀ j, j ≠ i → ∀ t, s'.Has j t → s.Has j t := by
  have hwakeUp : ∀ (s : Pool n) (x : Sleeper n) i t, (s.wakeUp x).Has i t → s.Has i t := by
    intro s x i t ht
    cases x with
    | worker j => exact has_of_setWorker_ready (i := j) ht
    | dispatcher => exact ht
  cases moves_of_step h with
  | schedule origin callable wake hmay hwake =>
    refine .inr (.inl ⟨callable, rfl, fun i t ht => ?_⟩)
    cases wake with
    | none => exact ht
    | some x => exact hwakeUp (s.push callable) x i t ht
  | take i task tasks callers hready htasks hcallers =>
    refine .inr (.inr ⟨i, task, hready, htasks, fun t ht => ?_, fun j hj t ht => ?_⟩)
    · rw [has_setWorker, if_pos rfl] at ht
      simpa [eq_comm] using ht
    · rw [has_setWorker, if_neg hj] at ht
      exact ht
  | sleep i | exit i =>
    refine .inl ⟨rfl, fun j t ht => ?_⟩
    rw [has_setWorker] at ht
    split at ht
    · simp at ht
    · exact ht
  | start i task hi hcall =>
    refine .inl ⟨rfl, fun j t ht => ?_⟩
    rw [has_setWorker] at ht
    split at ht
    · rename_i heq
      refine .inl ?_
      rw [heq, hi]
      simpa using ht
    · exact ht
  | skip i | finish i => exact .inl ⟨rfl, fun j t ht => has_of_setWorker_ready (i := i) ht⟩
  | waitReturn | notifyTask => exact .inl ⟨rfl, fun j t ht => has_wake.mp ht⟩
  | wakeUp x hx =>
    refine .inl ⟨?_, hwakeUp s x⟩
    cases x <;> rfl
  | _ => exact .inl ⟨rfl, fun _ _ ht => ht⟩

theorem finished_kept (h : (poolSystem n).step s l = some s') :
    ∀ t ∈ s.finished, t ∈ s'.finished := by
  intro t ht
  cases moves_of_step h with
  | finish i task hi => exact List.mem_append_left _ ht
  | _ => exact ht

/-- A scheduled task that is not queued and not empty has finished, or a worker has it. -/
theorem Pool.Recorded.mem_finished_or_has (hs : s.Recorded) {t : Task} (ht : t ∈ s.scheduled)
    (hq : t ∉ s.tasks) (hcall : t.callable = true) : t ∈ s.finished ∨ ∃ i, s.Has i t := by
  have hiff := hs.conserved.mem_finished_iff (hs.count_scheduled ht) hq (hs.not_mem_skipped hcall)
  by_cases hhas : ∃ i, s.Has i t
  · exact .inr hhas
  · exact .inl (hiff.mpr fun i => not_not.mp fun hi => hhas ⟨i, has_hand_ne_zero.mp hi⟩)

/-- **A call of `wait` returns** by its own step, when it finds the queue empty. -/
theorem idle_step (h : (poolSystem n).step s l = some s') {c : Caller n}
    (hidle : s'.callers c = .idle) : s.callers c = .idle ∨ s.tasks = [] := by
  have hwake : ∀ {pc : CallerPc}, pc.wake = .idle → pc = .idle := by
    intro pc hpc
    cases pc with
    | idle => rfl
    | waiting before asleep => cases hpc
  cases moves_of_step h with
  | take i task tasks callers hready htasks hcallers =>
    have hc : callers c = .idle := hidle
    rw [hcallers] at hc
    split at hc
    · exact .inl (hwake hc)
    · exact .inl hc
  | waitCall c' | waitSleep c' =>
    rw [callers_setCaller] at hidle
    split at hidle
    · cases hidle
    · exact .inl hidle
  | waitReturn c' before' hc htasks => exact .inr htasks
  | notifyEmpty => exact .inl (hwake hidle)
  | wakeCaller c' =>
    rw [callers_setCaller] at hidle
    split at hidle
    · rename_i heq
      exact .inl (hwake (heq ▸ hidle))
    · exact .inl hidle
  | _ => exact .inl hidle

theorem returns_empty (h : (poolSystem n).step s l = some s') {c : Caller n} {before : List Task}
    (hret : Returns c before s s') : s.tasks = [] := by
  obtain ⟨⟨asleep, hwaiting⟩, hidle⟩ := hret
  refine (idle_step h hidle).resolve_left ?_
  rw [hwaiting]
  simp

end step

/-! ## Tasks that call -/

/-- The task that is in a call of `wait` is running, and a running task is not empty. -/
structure Pool.Calling (s : Pool n) : Prop where
  running : ∀ i, s.callers (.task i) ≠ .idle → ∃ t, s.workers i = .running t
  callable : ∀ i t, s.workers i = .running t → t.callable = true

theorem calling_init (n : Nat) : (Pool.init n).Calling where
  running := fun _ h => absurd rfl h
  callable := fun _ _ h => nomatch h

section calling

variable {s s' : Pool n} {l : Label n}

/-- Only a task that is in no call ends. -/
theorem running_step (h : (poolSystem n).step s l = some s') {i : Fin n} {t : Task}
    (hi : s.workers i = .running t) :
    s'.workers i = .running t ∨ s.callers (.task i) = .idle ∧ s'.callers (.task i) = .idle := by
  have hset : ∀ (s : Pool n) {j : Fin n} {pc : WorkerPc}, s.workers i = .running t →
      (∀ t, s.workers j ≠ .running t) → (s.setWorker j pc).workers i = .running t := by
    intro s j pc hi hj
    rw [workers_setWorker, if_neg]
    · exact hi
    · rintro rfl
      exact hj t hi
  have hwake : ∀ {s : Pool n}, s.workers i = .running t → (s.workers i).wake = .running t := by
    intro s hi
    rw [hi]
    rfl
  cases moves_of_step h with
  | schedule origin callable wake hmay hwake => exact .inl (running_notifyOneTask hwake hi)
  | take j task tasks callers hready => exact .inl (hset _ hi (by simp [hready]))
  | sleep j hready | exit j hready => exact .inl (hset s hi (by simp [hready]))
  | start j task hj | skip j task hj => exact .inl (hset _ hi (by simp [hj]))
  | finish j task hj hidle =>
    by_cases hij : i = j
    · exact .inr ⟨hij ▸ hidle, hij ▸ hidle⟩
    · left
      rw [workers_setWorker, if_neg hij]
      exact hi
  | waitReturn | notifyTask => exact .inl (hwake hi)
  | wakeUp x hx =>
    cases x with
    | worker j =>
      have hasleep : s.workers j = .asleep := hx
      exact .inl (hset s hi (by simp [hasleep]))
    | dispatcher => exact .inl hi
  | _ => exact .inl hi

theorem running_of_setWorker {i j : Fin n} {p : WorkerPc} {t : Task} (hp : p ≠ .running t)
    (h : (s.setWorker j p).workers i = .running t) : s.workers i = .running t := by
  rw [workers_setWorker] at h
  split at h
  · exact absurd h hp
  · exact h

theorem running_of_wake {pc : WorkerPc} {t : Task} (h : pc.wake = .running t) :
    pc = .running t := by
  cases pc <;> cases h
  rfl

/-- Only a task that is not empty begins. -/
theorem running_of_step (h : (poolSystem n).step s l = some s') {i : Fin n} {t : Task}
    (hi : s'.workers i = .running t) : s.workers i = .running t ∨ t.callable = true := by
  cases moves_of_step h with
  | schedule origin callable wake hmay hwake =>
    rcases wake with _ | ⟨j⟩ | _
    · exact .inl hi
    · exact .inl (running_of_setWorker (s := s) (p := .ready) (by simp) hi)
    · exact .inl hi
  | take j | sleep j | exit j | skip j | finish j =>
    exact .inl (running_of_setWorker (s := s) (by simp) hi)
  | start j task hj hcall =>
    rw [workers_setWorker] at hi
    split at hi
    · cases hi
      exact .inr hcall
    · exact .inl hi
  | waitReturn | notifyTask => exact .inl (running_of_wake hi)
  | wakeUp x hx =>
    cases x with
    | worker j => exact .inl (running_of_setWorker (s := s) (p := .ready) (by simp) hi)
    | dispatcher => exact .inl hi
  | _ => exact .inl hi

theorem calling_step (s : Pool n) (l : Label n) (s' : Pool n) (hs : s.Calling)
    (h : (poolSystem n).step s l = some s') : s'.Calling where
  running := by
    intro i hcall
    cases hc : s'.callers (.task i) with
    | idle => exact absurd hc hcall
    | waiting before asleep =>
      rcases callers_step h hc with ⟨asleep', hc'⟩ | ⟨rfl, -⟩
      · obtain ⟨t, hi⟩ := hs.running i (by simp [hc'])
        rcases running_step h hi with hi' | ⟨hidle, -⟩
        · exact ⟨t, hi'⟩
        · rw [hc'] at hidle
          cases hidle
      · have hmoves : Moves s (.waitCall (.task i)) s' := moves_of_step h
        cases hmoves with
        | waitCall _ _ hmay => exact hmay.1
  callable := by
    intro i t hi
    rcases running_of_step h hi with hi | hcall
    · exact hs.callable i t hi
    · exact hcall

end calling

/-! ## In time -/

/-- The last worker has an empty function of `before` to pop, which is the last of them, or it
has popped them all and has none that is not empty. -/
def Pool.Serves (s : Pool n) (before : List Task) (w : Fin n) : Prop :=
  (∃ u later, u.callable = false ∧ (∃ front, s.tasks = front ++ u :: later) ∧
      ∀ t ∈ later, t ∉ before) ∨
    (∀ t ∈ s.tasks, t ∉ before) ∧ ∀ t, s.Has w t → t.callable = true → t ∉ before

/-- There is a task, and nobody to take it. -/
def Pool.Deadlocked (s : Pool n) : Prop :=
  s.tasks ≠ [] ∧ ∀ i, s.workers i ≠ .exited → s.callers (.task i) ≠ .idle

/-- A call that began when `before` had been scheduled cannot return too early any more. -/
def Pool.Safe (s : Pool n) (before : List Task) : Prop :=
  (∀ t ∈ before, t.callable = true → t ∈ s.finished) ∨
    (∃ w, (∀ i, i ≠ w → s.workers i = .exited) ∧ s.Serves before w) ∨ s.Deadlocked

section safe

variable {s s' : Pool n} {l : Label n} {before : List Task}

theorem serves_step {w : Fin n} (halone : ∀ i, i ≠ w → s.workers i = .exited)
    (hfresh : ∀ callable, ⟨s.scheduled.length, callable⟩ ∉ before) (hs : s.Serves before w)
    (h : (poolSystem n).step s l = some s') : s'.Serves before w := by
  rcases hands_step h with ⟨htasks, hhas⟩ | ⟨callable, htasks, hhas⟩ |
    ⟨i, task, hready, htasks, htaken, -⟩
  · rcases hs with ⟨u, later, hu, ⟨front, hq⟩, hlater⟩ | ⟨hnone, hhand⟩
    · exact .inl ⟨u, later, hu, ⟨front, htasks.trans hq⟩, hlater⟩
    · exact .inr ⟨htasks ▸ hnone, fun t ht => hhand t (hhas w t ht)⟩
  · rcases hs with ⟨u, later, hu, ⟨front, hq⟩, hlater⟩ | ⟨hnone, hhand⟩
    · refine .inl ⟨u, later ++ [⟨s.scheduled.length, callable⟩], hu, ⟨front, ?_⟩, ?_⟩
      · rw [htasks, hq, List.append_assoc, List.cons_append]
      · intro t ht
        rcases List.mem_append.mp ht with ht | ht
        · exact hlater t ht
        · exact List.mem_singleton.mp ht ▸ hfresh callable
    · refine .inr ⟨?_, fun t ht => hhand t (hhas w t ht)⟩
      intro t ht
      rw [htasks] at ht
      rcases List.mem_append.mp ht with ht | ht
      · exact hnone t ht
      · exact List.mem_singleton.mp ht ▸ hfresh callable
  · -- It is the last worker that takes a task.
    have hw : i = w := by
      by_contra hne
      rw [halone i hne] at hready
      cases hready
    subst hw
    rcases hs with ⟨u, later, hu, ⟨front, hq⟩, hlater⟩ | ⟨hnone, hhand⟩
    · rw [htasks] at hq
      cases front with
      | nil =>
        obtain ⟨rfl, hrest⟩ := List.cons.inj hq
        refine .inr ⟨hrest ▸ hlater, fun t ht hcall => ?_⟩
        rw [htaken t ht, hu] at hcall
        cases hcall
      | cons a front => exact .inl ⟨u, later, hu, ⟨front, (List.cons.inj hq).2⟩, hlater⟩
    · rw [htasks] at hnone
      refine .inr ⟨fun t ht => hnone t (List.mem_cons_of_mem _ ht), fun t ht _ => ?_⟩
      exact htaken t ht ▸ hnone task (List.mem_cons_self ..)

/-- Nobody takes the task, and no call returns. -/
theorem deadlocked_step (hcalling : s.Calling) (hs : s.Deadlocked)
    (h : (poolSystem n).step s l = some s') : s'.Deadlocked := by
  obtain ⟨hne, hcall⟩ := hs
  refine ⟨?_, fun i hi hidle => ?_⟩
  · rcases hands_step h with ⟨htasks, -⟩ | ⟨callable, htasks, -⟩ | ⟨i, task, hready, -⟩
    · rwa [htasks]
    · simp [htasks]
    · obtain ⟨t, hi⟩ := hcalling.running i (hcall i (by simp [hready]))
      rw [hready] at hi
      cases hi
  · have hlive : s.workers i ≠ .exited := fun hexit => hi ((exited_step h i).mpr (.inl hexit))
    rcases idle_step h hidle with hidle' | hempty
    · exact hcall i hlive hidle'
    · exact hne hempty

theorem safe_step (hcalling : s.Calling)
    (hfresh : ∀ callable, ⟨s.scheduled.length, callable⟩ ∉ before) (hs : s.Safe before)
    (h : (poolSystem n).step s l = some s') : s'.Safe before := by
  rcases hs with hfinished | ⟨w, halone, hserves⟩ | hdead
  · exact .inl fun t ht hcall => finished_kept h t (hfinished t ht hcall)
  · refine .inr (.inl ⟨w, fun i hi => ?_, serves_step halone hfresh hserves h⟩)
    exact (exited_step h i).mpr (.inl (halone i hi))
  · exact .inr (.inr (deadlocked_step hcalling hdead h))

/-- At the moment the call returns. -/
theorem safe_returns (hrec : s.Recorded) (hbefore : ∀ t ∈ before, t ∈ s.scheduled)
    (hs : s.Safe before) (hempty : s.tasks = []) :
    ∀ t ∈ before, t.callable = true → t ∈ s.finished := by
  rcases hs with hfinished | ⟨w, halone, hserves⟩ | ⟨hne, -⟩
  · exact hfinished
  · intro t ht hcall
    rcases hrec.mem_finished_or_has (hbefore t ht) (not_mem_queue hempty) hcall with hfin | ⟨i, hi⟩
    · exact hfin
    · rcases hserves with ⟨u, later, -, ⟨front, hq⟩, -⟩ | ⟨-, hhand⟩
      · rw [hempty] at hq
        simp at hq
      · by_cases hw : i = w
        · exact absurd ht (hhand t (hw ▸ hi) hcall)
        · rw [Pool.Has, halone i hw] at hi
          simp at hi
  · exact absurd hempty hne

/-- By the call a worker can become one that is waiting. -/
theorem deadlocked_setCaller (s : Pool n) (c : Caller n) (before : List Task) (asleep : Bool) :
    (s.setCaller c (.waiting before asleep)).Deadlocked ↔ s.Stuck c := by
  refine and_congr_right fun _ => forall₂_congr fun i _ => ?_
  rw [callers_setCaller]
  split
  · rename_i heq
    exact iff_of_true (by simp) (.inl heq.symm)
  · rename_i hne
    exact (or_iff_right fun heq => hne heq.symm).symm

/-- At the moment the call begins. -/
theorem safe_of_nothingToMiss (hrec : s.Recorded) {c : Caller n} (hs : s.NothingToMiss c) :
    (s.setCaller c (.waiting s.scheduled false)).Safe s.scheduled := by
  rcases hs with ⟨hqueue, hhands⟩ | ⟨⟨w, halone⟩, u, hlast, hu⟩ | hstuck
  · refine .inl fun t ht hcall => ?_
    have hq : t ∉ s.tasks := by
      intro hmem
      rw [hqueue t hmem] at hcall
      cases hcall
    rcases hrec.mem_finished_or_has ht hq hcall with hfin | ⟨i, hi⟩
    · exact hfin
    · rw [hhands i t hi] at hcall
      cases hcall
  · obtain ⟨front, hfront⟩ := List.getLast?_eq_some_iff.mp hlast
    exact .inr (.inl ⟨w, halone, .inl ⟨u, [], hu, ⟨front, hfront⟩, by simp⟩⟩)
  · exact .inr (.inr ((deadlocked_setCaller s c _ _).mpr hstuck))

theorem fresh_not_mem (hrec : s.Recorded) (hbefore : ∀ t ∈ before, t ∈ s.scheduled)
    (callable : Bool) : (⟨s.scheduled.length, callable⟩ : Task) ∉ before := by
  intro hmem
  have hticket : s.scheduled.length ∈ s.scheduled.map Task.ticket :=
    List.mem_map.mpr ⟨_, hbefore _ hmem, rfl⟩
  rw [hrec.tickets, List.mem_range] at hticket
  exact absurd hticket (Nat.lt_irrefl _)

end safe

/-! ## Too early -/

/-- Steps of the workers in `W` lead from `s` to `t`; the other workers and the tasks that have
been scheduled stay what they are, and callers of `wait` at most wake up. -/
structure Pool.Leads (W : Set (Fin n)) (s t : Pool n) : Prop where
  reaches : ∃ ls, (poolSystem n).run s ls = some t
  others : ∀ i, i ∉ W → t.workers i = s.workers i
  scheduled : t.scheduled = s.scheduled
  callers : ∀ c, t.callers c = s.callers c ∨ t.callers c = (s.callers c).wake

section drain

variable {s t u : Pool n} {W : Set (Fin n)} {w : Fin n}

theorem Pool.Leads.refl : s.Leads W s where
  reaches := ⟨[], rfl⟩
  others := fun _ _ => rfl
  scheduled := rfl
  callers := fun _ => .inl rfl

theorem CallerPc.wake_wake (pc : CallerPc) : pc.wake.wake = pc.wake := by cases pc <;> rfl

theorem Pool.Leads.trans (h : s.Leads W t) (h' : t.Leads W u) : s.Leads W u where
  reaches := by
    obtain ⟨ls, hls⟩ := h.reaches
    obtain ⟨ls', hls'⟩ := h'.reaches
    exact ⟨ls ++ ls', (poolSystem n).run_append_eq_some.mpr ⟨t, hls, hls'⟩⟩
  others := fun i hi => (h'.others i hi).trans (h.others i hi)
  scheduled := h'.scheduled.trans h.scheduled
  callers := by
    intro c
    rcases h'.callers c with h' | h' <;> rcases h.callers c with h | h <;> rw [h', h]
    · exact .inl rfl
    · exact .inr rfl
    · exact .inr rfl
    · exact .inr (CallerPc.wake_wake _)

theorem Pool.Leads.mono {V : Set (Fin n)} (h : s.Leads W t) (hWV : W ⊆ V) : s.Leads V t :=
  ⟨h.reaches, fun i hi => h.others i fun hmem => hi (hWV hmem), h.scheduled, h.callers⟩

theorem Pool.Leads.idle (h : s.Leads W t) {c : Caller n} (hc : s.callers c = .idle) :
    t.callers c = .idle := by
  rcases h.callers c with h | h
  · rw [h, hc]
  · rw [h, hc]
    rfl

theorem Pool.Leads.waiting (h : s.Leads W t) {c : Caller n} {before : List Task} {asleep : Bool}
    (hc : s.callers c = .waiting before asleep) : ∃ asleep', t.callers c = .waiting before asleep' := by
  rcases h.callers c with h | h
  · exact ⟨asleep, h.trans hc⟩
  · exact ⟨false, h.trans (congrArg CallerPc.wake hc)⟩

/-- A step of one worker. -/
theorem leads_of_moves {l : Label n} (h : Moves s l t)
    (hothers : ∀ i, i ≠ w → t.workers i = s.workers i) (hscheduled : t.scheduled = s.scheduled)
    (hcallers : ∀ c, t.callers c = s.callers c ∨ t.callers c = (s.callers c).wake) :
    s.Leads {w} t where
  reaches := ⟨[l], (poolSystem n).run_cons_eq_some.mpr ⟨t, step_of_moves h, rfl⟩⟩
  others := hothers
  scheduled := hscheduled
  callers := hcallers

/-- A worker that has not exited comes to test its condition, if its task is in no call. -/
theorem exists_ready (hw : s.workers w ≠ .exited) (hidle : s.callers (.task w) = .idle) :
    ∃ t, s.Leads {w} t ∧ t.workers w = .ready ∧ t.tasks = s.tasks := by
  have hset : ∀ (s : Pool n) pc, (s.setWorker w pc).workers w = pc := fun s pc => by
    rw [workers_setWorker, if_pos rfl]
  have hothers : ∀ (s : Pool n) pc i, i ≠ w → (s.setWorker w pc).workers i = s.workers i := by
    intro s pc i hi
    rw [workers_setWorker, if_neg hi]
  have hfinish : ∀ (s : Pool n) task, s.workers w = .running task →
      s.callers (.task w) = .idle →
        ∃ t, s.Leads {w} t ∧ t.workers w = .ready ∧ t.tasks = s.tasks := by
    intro s task hi hidle
    have hmoves := Moves.finish w task hi hidle
    exact ⟨_, leads_of_moves hmoves (hothers _ _) rfl fun _ => .inl rfl, hset _ _, rfl⟩
  cases hi : s.workers w with
  | ready => exact ⟨s, .refl, hi, rfl⟩
  | asleep =>
    have hmoves := Moves.wakeUp (.worker w) hi
    exact ⟨_, leads_of_moves hmoves (hothers _ _) rfl fun _ => .inl rfl, hset s _, rfl⟩
  | holding task =>
    cases hcall : task.callable with
    | true =>
      have hmoves := Moves.start w task hi hcall
      have hstart := leads_of_moves hmoves (hothers _ _) rfl fun _ => .inl rfl
      obtain ⟨t, ht, hready, htasks⟩ :=
        hfinish ({ s with started := s.started ++ [task] }.setWorker w (.running task)) task
          (hset _ _) hidle
      exact ⟨t, hstart.trans ht, hready, htasks⟩
    | false =>
      have hmoves := Moves.skip w task hi hcall
      exact ⟨_, leads_of_moves hmoves (hothers _ _) rfl fun _ => .inl rfl, hset _ _, rfl⟩
  | running task => exact hfinish s task hi hidle
  | exited => exact absurd hi hw

/-- It takes the task at the front. -/
theorem exists_take (hw : s.workers w ≠ .exited) (hidle : s.callers (.task w) = .idle)
    {task : Task} {tasks : List Task} (htasks : s.tasks = task :: tasks) :
    ∃ t, s.Leads {w} t ∧ t.workers w = .holding task ∧ t.tasks = tasks := by
  obtain ⟨t, ht, hready, hsame⟩ := exists_ready hw hidle
  have hmoves := Moves.take w task tasks _ hready (hsame.trans htasks) rfl
  refine ⟨_, ht.trans (leads_of_moves hmoves ?_ rfl ?_), ?_, rfl⟩
  · intro i hi
    rw [workers_setWorker, if_neg hi]
  · intro c
    show (if tasks = [] then fun c => (t.callers c).wake else t.callers) c = _ ∨ _
    split
    · exact .inr rfl
    · exact .inl rfl
  · rw [workers_setWorker, if_pos rfl]

/-- **A worker can drain the queue** up to and with any task, which it then has, while all the
others stand still. -/
theorem exists_drain (hw : s.workers w ≠ .exited) (hidle : s.callers (.task w) = .idle)
    {front rest : List Task} {task : Task} (htasks : s.tasks = front ++ task :: rest) :
    ∃ t, s.Leads {w} t ∧ t.workers w = .holding task ∧ t.tasks = rest := by
  induction front generalizing s with
  | nil => exact exists_take hw hidle htasks
  | cons a front ih =>
    obtain ⟨t, ht, hholding, hrest⟩ := exists_take hw hidle htasks
    obtain ⟨u, hu, hlast⟩ := ih (s := t) (by rw [hholding]; simp) (ht.idle hidle) hrest
    exact ⟨u, ht.trans hu, hlast⟩

/-- If the queue is empty while a worker has one of its tasks, the call can return too early. -/
theorem returns_early (hrec : s.Recorded) {c : Caller n} {before : List Task} {asleep : Bool}
    (hc : s.callers c = .waiting before asleep) (hempty : s.tasks = []) {i : Fin n} {task : Task}
    (hi : s.Has i task) (htask : task ∈ before) (hcall : task.callable = true) :
    ¬ ∀ ls, (poolSystem n).Along (ReturnsAfter c before) s ls := by
  intro h
  have hwoken : (s.setCaller c (s.callers c).wake).callers c = .waiting before false := by
    rw [callers_setCaller, if_pos rfl, hc]
    rfl
  obtain ⟨-, hrest⟩ := h [.spuriousCaller c, .wait c]
  obtain ⟨hreturn, -⟩ := hrest _ (step_of_moves (.wakeCaller c))
  have hidle : ((s.setCaller c (s.callers c).wake).setCaller c .idle).notifyAllTask.callers c = .idle :=
    (callers_setCaller ..).trans (if_pos rfl)
  have hfinished := hreturn _ (step_of_moves (.waitReturn c before hwoken hempty))
    ⟨⟨false, hwoken⟩, hidle⟩ task htask hcall
  exact hrec.not_mem_finished (has_hand_ne_zero.mpr hi) hfinished

/-- **Where there is something to miss**, the queue can be emptied with one of the tasks in the
hands of a worker. -/
theorem exists_early (hrec : s.Recorded) (hcalling : s.Calling) (hidle : ¬ s.Idle)
    (hends : ¬ s.EndsEmpty) (hdead : ¬ s.Deadlocked) :
    ∃ t, s.Leads Set.univ t ∧ t.tasks = [] ∧
      ∃ i, ∃ task ∈ s.scheduled, t.Has i task ∧ task.callable = true := by
  have huniv : ∀ W : Set (Fin n), W ⊆ Set.univ := Set.subset_univ
  have hqueued : ∀ t ∈ s.tasks, t ∈ s.scheduled := fun t ht => hrec.mem_scheduled (.inl ht)
  have hhad : ∀ i t, s.Has i t → t ∈ s.scheduled := fun i t hi =>
    hrec.mem_scheduled (.inr (.inl ⟨i, has_hand_ne_zero.mpr hi⟩))
  rcases List.eq_nil_or_concat' s.tasks with hempty | ⟨front, u, hq⟩
  · -- The queue is empty, so a worker has a task.
    have hhand : ¬ ∀ i t, s.Has i t → t.callable = false :=
      fun h => hidle ⟨by simp [hempty], h⟩
    simp only [not_forall, Bool.not_eq_false] at hhand
    obtain ⟨i, task, hi, hcall⟩ := hhand
    exact ⟨s, .refl, hempty, i, task, hhad i task hi, hi, hcall⟩
  · have hne : s.tasks ≠ [] := by simp [hq]
    obtain ⟨w, hw, hfree⟩ : ∃ w, s.workers w ≠ .exited ∧ s.callers (.task w) = .idle := by
      by_contra hnone
      push Not at hnone
      exact hdead ⟨hne, hnone⟩
    by_cases hcall : ∃ v, s.callers (.task v) ≠ .idle
    · -- A task is in a call of `wait`, which a free worker drains the queue for.
      obtain ⟨v, hv⟩ := hcall
      obtain ⟨task, hrunning⟩ := hcalling.running v hv
      obtain ⟨t, ht, -, hrest⟩ := exists_drain hw hfree hq
      have hvw : v ≠ w := by
        rintro rfl
        exact hv hfree
      refine ⟨t, ht.mono (huniv _), hrest, v, task, hhad v task (.inr hrunning), .inr ?_,
        hcalling.callable v task hrunning⟩
      rw [ht.others v (by simpa using hvw), hrunning]
    simp only [not_exists, not_not] at hcall
    cases hu : u.callable with
    | true =>
      -- The last task is the one that is missed.
      obtain ⟨t, ht, hholding, hrest⟩ := exists_drain hw hfree hq
      exact ⟨t, ht.mono (huniv _), hrest, w, u, hqueued u (by simp [hq]), .inl hholding, hu⟩
    | false =>
      have hother : ∀ w, ∃ i, i ≠ w ∧ s.workers i ≠ .exited := by
        intro w
        by_contra hnone
        push Not at hnone
        exact hends ⟨⟨w, hnone⟩, u, by simp [hq], hu⟩
      by_cases hqueue : ∀ t ∈ s.tasks, t.callable = false
      · -- A worker stands still with its task, and another one drains the queue.
        have hhand : ¬ ∀ i t, s.Has i t → t.callable = false := fun h => hidle ⟨hqueue, h⟩
        simp only [not_forall, Bool.not_eq_false] at hhand
        obtain ⟨i, task, hi, hcallable⟩ := hhand
        obtain ⟨v, hv, hlivev⟩ := hother i
        obtain ⟨t, ht, -, hrest⟩ := exists_drain hlivev (hcall v) hq
        refine ⟨t, ht.mono (huniv _), hrest, i, task, hhad i task hi, ?_, hcallable⟩
        rw [Pool.Has, ht.others i (by simpa using hv.symm)]
        exact hi
      · -- One worker takes a task and stands still, and another one drains what is behind it.
        simp only [not_forall, Bool.not_eq_false] at hqueue
        obtain ⟨task, hmem, hcallable⟩ := hqueue
        obtain ⟨left, right, hsplit⟩ := List.append_of_mem hmem
        obtain ⟨t, ht, hholding, hrest⟩ := exists_drain hw hfree hsplit
        obtain ⟨v, hv, hlivev⟩ := hother w
        have hright : right ≠ [] := by
          rintro rfl
          rw [hq] at hsplit
          obtain ⟨-, heq⟩ := List.append_inj' hsplit rfl
          rw [← List.singleton_inj.mp heq, hu] at hcallable
          cases hcallable
        obtain ⟨front', u', hlast⟩ := (List.eq_nil_or_concat' right).resolve_left hright
        have hsame : t.workers v = s.workers v := ht.others v (by simpa using hv)
        obtain ⟨t', ht', -, hrest'⟩ := exists_drain (s := t) (by rw [hsame]; exact hlivev)
          (ht.idle (hcall v)) (hrest.trans hlast)
        refine ⟨t', (ht.mono (huniv _)).trans (ht'.mono (huniv _)), hrest', w, task,
          hqueued task hmem, .inl ?_, hcallable⟩
        rw [ht'.others w (by simpa using hv.symm), hholding]

end drain

/-! ## The calls -/

section calls

variable {s : Pool n}

/-- A call that is safe returns after the tasks. -/
theorem returnsAfter_of_safe (hrec : s.Recorded) {c : Caller n} {before : List Task} (l : Label n)
    (hs : ∀ asleep, s.callers c = .waiting before asleep → s.Safe before) :
    ReturnsAfter c before s l := by
  intro s' h hret task htask hcall
  obtain ⟨asleep, hc⟩ := hret.1
  have hdone := safe_returns hrec (hrec.snapshots c before asleep hc) (hs asleep hc)
    (returns_empty h hret)
  exact finished_kept h task (hdone task htask hcall)

/-- And it stays so, whatever comes. -/
theorem along_of_safe (hrec : s.Recorded) (hcalling : s.Calling) (c : Caller n)
    {before : List Task} (hbefore : ∀ t ∈ before, t ∈ s.scheduled) (hs : s.Safe before)
    (ls : List (Label n)) : (poolSystem n).Along (ReturnsAfter c before) s ls := by
  refine (poolSystem n).along_of_along
    (fun s => s.Recorded ∧ s.Calling ∧ (∀ t ∈ before, t ∈ s.scheduled) ∧ s.Safe before) ?_ ?_ ls
    ⟨hrec, hcalling, hbefore, hs⟩ ((poolSystem n).along_true s ls)
  · rintro s l s' ⟨hrec, hcalling, hbefore, hs⟩ - h
    exact ⟨recorded_step s l s' hrec h, calling_step s l s' hcalling h,
      fun t ht => scheduled_step h t (hbefore t ht),
      safe_step hcalling (fresh_not_mem hrec hbefore) hs h⟩
  · rintro s l ⟨hrec, -, -, hs⟩
    exact returnsAfter_of_safe hrec l fun _ _ => hs

/-- Every call that has begun in time is safe. -/
structure Pool.InTime (s : Pool n) : Prop where
  recorded : s.Recorded
  calling : s.Calling
  safe : ∀ c before asleep, s.callers c = .waiting before asleep → s.Safe before

theorem inTime_init (n : Nat) : (Pool.init n).InTime where
  recorded := recorded_init n
  calling := calling_init n
  safe := fun c before asleep hc => by cases hc

theorem inTime_step (s : Pool n) (l : Label n) (s' : Pool n) (hs : s.InTime)
    (hcall : CallsInTime s l) (h : (poolSystem n).step s l = some s') : s'.InTime where
  recorded := recorded_step s l s' hs.recorded h
  calling := calling_step s l s' hs.calling h
  safe := by
    intro c before asleep hc
    rcases callers_step h hc with ⟨asleep', hc'⟩ | ⟨rfl, rfl⟩
    · have hbefore := hs.recorded.snapshots c before asleep' hc'
      exact safe_step hs.calling (fresh_not_mem hs.recorded hbefore) (hs.safe c before asleep' hc') h
    · have hmoves : Moves s (.waitCall c) s' := moves_of_step h
      cases hmoves with
      | waitCall _ hidle hmay => exact safe_of_nothingToMiss hs.recorded (hcall c rfl)

end calls

/-- **When `wait` waits for execution.**  In every run whose calls of `wait` begin when there is
nothing to miss, each returns after the tasks scheduled before it.  And a call returns after them
in every continuation of the run exactly if it begins at such a moment. -/
theorem wait_returns_iff (ls : List (Label n)) (s : Pool n)
    (hrun : (poolSystem n).run (Pool.init n) ls = some s) :
    ((poolSystem n).Along CallsInTime (Pool.init n) ls →
        (poolSystem n).Along ReturnsAfterTasks (Pool.init n) ls) ∧
      ∀ c s', (poolSystem n).step s (.waitCall c) = some s' →
        ((∀ ls', (poolSystem n).Along (ReturnsAfter c s.scheduled) s' ls') ↔ s.NothingToMiss c) := by
  constructor
  · refine (poolSystem n).along_of_along Pool.InTime inTime_step ?_ ls (inTime_init n)
    rintro s l hs c before
    exact returnsAfter_of_safe hs.recorded l fun asleep hc => hs.safe c before asleep hc
  · intro c s' h
    have hrec := (poolSystem n).run_invariant recorded_step (recorded_init n) hrun
    have hcalling := (poolSystem n).run_invariant calling_step (calling_init n) hrun
    have hrec' := recorded_step s _ s' hrec h
    have hcalling' := calling_step s _ s' hcalling h
    have hmoves : Moves s (.waitCall c) s' := moves_of_step h
    cases hmoves with
    | waitCall _ hidle hmay =>
      constructor
      · intro halong
        by_contra hmiss
        obtain ⟨hnotIdle, hmiss⟩ := not_or.mp hmiss
        obtain ⟨hends, hstuck⟩ := not_or.mp hmiss
        have hdead := mt (deadlocked_setCaller s c s.scheduled false).mp hstuck
        obtain ⟨t, ht, hempty, i, task, htask, hi, hcall⟩ :=
          exists_early hrec' hcalling' hnotIdle hends hdead
        obtain ⟨ls', hls'⟩ := ht.reaches
        obtain ⟨asleep, hc⟩ := ht.waiting (c := c) ((callers_setCaller ..).trans (if_pos rfl))
        have hrect := (poolSystem n).run_invariant recorded_step hrec' hls'
        exact returns_early hrect hc hempty hi htask hcall fun ks =>
          (poolSystem n).along_of_run hls' (halong (ls' ++ ks))
      · intro hnothing
        exact along_of_safe hrec' hcalling' c (fun _ ht => ht) (safe_of_nothingToMiss hrec hnothing)

/-- One worker pops the only task and begins it; a call of `wait` made now returns at once. -/
def earlyReturn : List (Label 1) :=
  let i : Fin 1 := ⟨0, Nat.one_pos⟩
  [.schedule none true none, .worker i, .invoke i, .waitCall (.outside 0), .wait (.outside 0)]

/-- In the same run the call can return too early, as the task is running when it begins. -/
theorem earlyReturn_missed :
    ∃ s s', (poolSystem 1).run (Pool.init 1) (earlyReturn.take 3) = some s ∧
      (poolSystem 1).step s (.waitCall (.outside 0)) = some s' ∧
      ¬ ∀ ls', (poolSystem 1).Along (ReturnsAfter (.outside 0) s.scheduled) s' ls' := by
  refine ⟨_, _, rfl, rfl, ?_⟩
  rw [(wait_returns_iff (earlyReturn.take 3) _ rfl).2 (.outside 0) _ rfl]
  rintro (hidle | ⟨-, u, hu, -⟩ | ⟨hne, -⟩)
  · exact absurd (hidle.2 ⟨0, Nat.one_pos⟩ ⟨0, true⟩ (.inr rfl)) (by decide)
  · cases hu
  · exact hne rfl

theorem earlyReturn_breaks_wait :
    ¬ ∀ n, 1 ≤ n → ∀ (ls : List (Label n)) (s : Pool n),
      (poolSystem n).run (Pool.init n) ls = some s →
        (poolSystem n).Along ReturnsAfterTasks (Pool.init n) ls := by
  intro h
  have halong := h 1 (Nat.le_refl 1) earlyReturn _ rfl
  obtain ⟨-, h1⟩ := halong
  obtain ⟨-, h2⟩ := h1 _ rfl
  obtain ⟨-, h3⟩ := h2 _ rfl
  obtain ⟨-, h4⟩ := h3 _ rfl
  obtain ⟨hwait, -⟩ := h4 _ rfl
  have hfinished := hwait (.outside 0) [⟨0, true⟩] _ rfl ⟨⟨false, rfl⟩, rfl⟩ ⟨0, true⟩ (by simp) rfl
  cases hfinished

end Acso.ThreadPool
