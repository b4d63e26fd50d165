import Acso.ThreadPool.Locked

/-!
# What holds at every statement under the lock

`Pool.AtStatement` says what the thread that holds the lock can rely on at its next
statement: nobody else has touched the queue or `done` since its test.  With the facts about
sleepers in `LockedPool.Sound` this is an invariant (`sound_step`).
-/

namespace Acso.ThreadPool

open Acso.Lib

variable {n : Nat}

/-- What the thread that holds the lock can rely on at its next statement. -/
def Pool.AtStatement (s : Pool n) : Holder n → Prop
  | .schedule origin callable pc =>
    (∀ i, origin = some i →
      (∃ task, s.workers i = .running task) ∧ s.callers (.task i) = .idle) ∧
    (origin = none → s.destructor = .notCalled ∨ s.destructor = .entered) ∧
    (pc = .notify → ∃ tasks scheduled, s.tasks = tasks ++ [⟨scheduled.length, callable⟩] ∧
      s.scheduled = scheduled ++ [⟨scheduled.length, callable⟩])
  | .worker i .test => s.workers i = .ready
  | .worker i .sleep => s.workers i = .ready ∧ s.tasks = [] ∧ s.done = false
  | .worker i .check => s.workers i = .ready ∧ (s.tasks ≠ [] ∨ s.done = true)
  | .worker i .pop => s.workers i = .ready ∧ s.tasks ≠ []
  | .worker i .notify => ∃ task, s.workers i = .holding task
  | .worker i .unlock => ∃ task, s.workers i = .holding task
  | .dispatcher .test => s.dispatcher = .ready
  | .dispatcher .sleep => s.dispatcher = .ready ∧ s.tasks = [] ∧ s.done = false
  | .dispatcher .check => s.dispatcher = .ready ∧ (s.tasks ≠ [] ∨ s.done = true)
  | .dispatcher .notify => s.dispatcher = .ready ∧ s.tasks ≠ []
  | .dispatcher .unlock => s.dispatcher = .ready ∧ s.tasks ≠ []
  | .wait c .test => ∃ before, s.callers c = .waiting before false
  | .wait c .sleep => (∃ before, s.callers c = .waiting before false) ∧ s.tasks ≠ []
  | .wait c .notify => (∃ before, s.callers c = .waiting before false) ∧ s.tasks = []
  | .wait _ .unlock => True
  | .destructor .setDone => s.destructor = .entered
  | .destructor .unlock => s.destructor = .doneSet

structure LockedPool.Sound (s : LockedPool n) : Prop where
  done : s.done = true ↔ s.destructor.HasSetDone
  /-- The notification of the destructor leaves no sleeper behind. -/
  sleepers : s.destructor.HasNotified → ∀ x, ¬ s.Sleeps x
  /-- A caller of `wait` sleeps on tasks, or on a worker that is about to wake it. -/
  callers : ∀ c before, s.callers c = .waiting before true →
    s.tasks ≠ [] ∨ ∃ i, s.queueLock = some (.worker i .notify)
  holder : ∀ h, s.queueLock = some h → s.AtStatement h

theorem sound_init (n : Nat) : (LockedPool.init n).Sound where
  done := iff_of_false Bool.false_ne_true id
  sleepers := fun h => h.elim
  callers := fun _ _ h => nomatch h
  holder := fun _ h => nomatch h

/-! ## Parts of a pool -/

section pool

variable {s : Pool n}

/-- Only this worker can fall asleep. -/
theorem sleeps_of_setWorker {i : Fin n} {pc : WorkerPc} (hpc : pc ≠ .asleep) {x : Sleeper n}
    (hx : (s.setWorker i pc).Sleeps x) : s.Sleeps x := by
  cases x with
  | worker j =>
    have hj : (s.setWorker i pc).workers j = .asleep := hx
    rw [workers_setWorker] at hj
    split at hj
    · exact absurd hj hpc
    · exact hj
  | dispatcher => exact hx

theorem sleeps_of_notifyOneTask {wake : Option (Sleeper n)} {x : Sleeper n}
    (hx : (s.notifyOneTask wake).Sleeps x) : s.Sleeps x := by
  rcases wake with _ | ⟨i⟩ | _
  · exact hx
  · have hready : (s.setWorker i .ready).Sleeps x := hx
    exact sleeps_of_setWorker (by simp) hready
  · cases x with
    | worker j => exact hx
    | dispatcher => cases hx

/-- Waking a sleeper does not touch a running task. -/
theorem running_notifyOneTask {wake : Option (Sleeper n)} (hwake : s.CanNotify wake) {i : Fin n}
    {task : Task} (hi : s.workers i = .running task) :
    (s.notifyOneTask wake).workers i = .running task := by
  rcases wake with _ | ⟨j⟩ | _
  · exact hi
  · have hne : i ≠ j := by
      rintro rfl
      have hsleep : s.workers i = .asleep := hwake
      rw [hi] at hsleep
      cases hsleep
    have hj := workers_setWorker s j i .ready
    rw [if_neg hne] at hj
    exact hj.trans hi
  · exact hi

theorem wakeCondition_iff (s : LockedPool n) :
    s.wakeCondition = true ↔ s.tasks ≠ [] ∨ s.done = true := by
  rw [LockedPool.wakeCondition, Bool.or_eq_true, Bool.not_eq_true', List.isEmpty_eq_false_iff]

theorem not_wakeCondition_iff (s : LockedPool n) :
    ¬ s.wakeCondition = true ↔ s.tasks = [] ∧ s.done = false := by
  rw [wakeCondition_iff, not_or, not_not, Bool.not_eq_true]

/-- A thread that has been woken up and does not leave has a task. -/
theorem tasks_ne_nil_of_stays (hcond : s.tasks ≠ [] ∨ s.done = true)
    (hstays : ¬ (s.done && s.tasks.isEmpty) = true) : s.tasks ≠ [] := by
  rw [Bool.and_eq_true, List.isEmpty_iff, not_and'] at hstays
  exact fun hempty => hcond.elim (fun h => h hempty) (hstays hempty)

/-- Only a worker wakes the callers of `wait`. -/
theorem not_notifying {s : LockedPool n} {h : Holder n} (hlock : s.queueLock = some h)
    (hother : ∀ i, h ≠ .worker i .notify) (i : Fin n) :
    s.queueLock ≠ some (.worker i .notify) := by
  rw [hlock]
  exact fun heq => hother i (Option.some.inj heq)

end pool

/-! ## The statements -/

section step

variable {s : LockedPool n}

namespace LockedPool.Sound

variable (hs : s.Sound)

include hs

/-- The lock changes hands, and the pool stays as it is. -/
theorem relock {lock : Option (Holder n)} (hlock : ∀ i, s.queueLock ≠ some (.worker i .notify))
    (hholder : ∀ h, lock = some h → s.AtStatement h) : (⟨s.toPool, lock⟩ : LockedPool n).Sound where
  done := hs.done
  sleepers := hs.sleepers
  callers := by
    intro c before hc
    rcases hs.callers c before hc with htasks | ⟨i, hi⟩
    · exact .inl htasks
    · exact absurd hi (hlock i)
  holder := hholder

theorem schedule {origin : Option (Fin n)} {callable : Bool} {pc : ScheduleAt}
    (hlock : s.queueLock = some (.schedule origin callable pc)) {wake : Option (Sleeper n)}
    {s' : LockedPool n} (h : s.proceedSchedule origin callable wake pc = some s') : s'.Sound := by
  have hne := not_notifying hlock (by simp)
  obtain ⟨horigin, hcalled, hthunk⟩ := hs.holder _ hlock
  cases pc with
  | push =>
    obtain rfl := Option.some.inj h
    exact {
      done := hs.done
      sleepers := hs.sleepers
      callers := fun c before _ => .inl (by simp [Pool.push])
      holder := by
        rintro _ ⟨⟩
        exact ⟨horigin, hcalled, fun _ => ⟨s.tasks, s.scheduled, rfl, rfl⟩⟩ }
  | notify =>
    obtain ⟨hwake, hs'⟩ := Option.ite_none_right_eq_some.mp h
    obtain rfl := Option.some.inj hs'
    exact {
      done := hs.done
      sleepers := fun hn x hx => hs.sleepers hn x (sleeps_of_notifyOneTask hx)
      callers := fun c before hc => (hs.callers c before hc).imp_right fun ⟨i, hi⟩ => (hne i hi).elim
      holder := by
        rintro _ ⟨⟩
        refine ⟨fun i hi => ?_, hcalled, fun hpc => nomatch hpc⟩
        obtain ⟨⟨task, htask⟩, hidle⟩ := horigin i hi
        exact ⟨⟨task, running_notifyOneTask hwake htask⟩, hidle⟩ }
  | unlock =>
    obtain rfl := Option.some.inj h
    exact hs.relock hne (fun h' hh => nomatch hh)

theorem worker {i : Fin n} {pc : WorkerAt} (hlock : s.queueLock = some (.worker i pc)) :
    (s.proceedWorker i pc).Sound := by
  have hat := hs.holder _ hlock
  -- until it pops a task, callers that sleep have tasks to sleep on
  have htasks : pc ≠ .notify → ∀ c before, s.callers c = .waiting before true → s.tasks ≠ [] := by
    intro hpc c before hc
    rcases hs.callers c before hc with htasks | ⟨j, hj⟩
    · exact htasks
    · rw [hlock, Option.some.injEq, Holder.worker.injEq] at hj
      exact absurd hj.2 hpc
  have hne : pc ≠ .notify → ∀ j, s.queueLock ≠ some (.worker j .notify) := by
    intro hpc j hj
    rw [hlock, Option.some.injEq, Holder.worker.injEq] at hj
    exact hpc hj.2
  cases pc with
  | test =>
    refine hs.relock (hne (by simp)) ?_
    rintro _ ⟨⟩
    by_cases hcond : s.wakeCondition = true
    · rw [if_pos hcond]
      exact ⟨hat, (wakeCondition_iff s).mp hcond⟩
    · rw [if_neg hcond]
      exact ⟨hat, (not_wakeCondition_iff s).mp hcond⟩
  | sleep =>
    obtain ⟨hready, hempty, hdone⟩ := hat
    exact {
      done := hs.done
      sleepers := by
        intro hn
        rw [hs.done.mpr hn.hasSetDone] at hdone
        cases hdone
      callers := fun c before hc => .inl (htasks (by simp) c before hc)
      holder := fun h' hh => nomatch hh }
  | check =>
    obtain ⟨hready, hcond⟩ := hat
    rw [LockedPool.proceedWorker]
    by_cases hleave : (s.done && s.tasks.isEmpty) = true
    · rw [if_pos hleave]
      exact {
        done := hs.done
        sleepers := fun hn x hx => hs.sleepers hn x (sleeps_of_setWorker (by simp) hx)
        callers := fun c before hc => .inl (htasks (by simp) c before hc)
        holder := fun h' hh => nomatch hh }
    · rw [if_neg hleave]
      refine hs.relock (hne (by simp)) ?_
      rintro _ ⟨⟩
      exact ⟨hready, tasks_ne_nil_of_stays hcond hleave⟩
  | pop =>
    obtain ⟨hready, hnonempty⟩ := hat
    rw [LockedPool.proceedWorker]
    split
    · rename_i hempty
      exact absurd hempty hnonempty
    · rename_i task tasks hqueue
      exact {
        done := hs.done
        sleepers := fun hn x hx => hs.sleepers hn x (sleeps_of_setWorker (by simp) hx)
        callers := fun c before hc => .inr ⟨i, rfl⟩
        holder := by
          rintro _ ⟨⟩
          exact ⟨task, by rw [workers_setWorker, if_pos rfl]⟩ }
  | notify =>
    rw [LockedPool.proceedWorker]
    by_cases hempty : s.tasks.isEmpty = true
    · rw [if_pos hempty]
      exact {
        done := hs.done
        sleepers := hs.sleepers
        callers := by
          intro c before hc
          have hwake : (s.callers c).wake = .waiting before true := hc
          cases hcaller : s.callers c <;> rw [hcaller] at hwake <;> cases hwake
        holder := by
          rintro _ ⟨⟩
          exact hat }
    · rw [if_neg hempty]
      exact {
        done := hs.done
        sleepers := hs.sleepers
        callers := fun c before _ => .inl fun h => hempty (List.isEmpty_iff.mpr h)
        holder := by
          rintro _ ⟨⟩
          exact hat }
  | unlock => exact hs.relock (hne (by simp)) (fun h' hh => nomatch hh)

theorem dispatcher {pc : DispatcherAt} (hlock : s.queueLock = some (.dispatcher pc)) :
    (s.proceedDispatcher pc).Sound := by
  have hat := hs.holder _ hlock
  have hne := not_notifying hlock (by simp)
  have hcallers : ∀ c before, s.callers c = .waiting before true → s.tasks ≠ [] :=
    fun c before hc => (hs.callers c before hc).resolve_right fun ⟨i, hi⟩ => hne i hi
  have hawake : ∀ pc, pc ≠ .asleep → s.destructor.HasNotified → ∀ x,
      ¬ ({ s.toPool with dispatcher := pc } : Pool n).Sleeps x := by
    intro pc hpc hn x hx
    cases x with
    | worker i => exact hs.sleepers hn (.worker i) hx
    | dispatcher => exact hpc hx
  cases pc with
  | test =>
    refine hs.relock hne ?_
    rintro _ ⟨⟩
    by_cases hcond : s.wakeCondition = true
    · rw [if_pos hcond]
      exact ⟨hat, (wakeCondition_iff s).mp hcond⟩
    · rw [if_neg hcond]
      exact ⟨hat, (not_wakeCondition_iff s).mp hcond⟩
  | sleep =>
    obtain ⟨hready, hempty, hdone⟩ := hat
    exact {
      done := hs.done
      sleepers := by
        intro hn
        rw [hs.done.mpr hn.hasSetDone] at hdone
        cases hdone
      callers := fun c before hc => .inl (hcallers c before hc)
      holder := fun h' hh => nomatch hh }
  | check =>
    obtain ⟨hready, hcond⟩ := hat
    rw [LockedPool.proceedDispatcher]
    by_cases hleave : (s.done && s.tasks.isEmpty) = true
    · rw [if_pos hleave]
      exact {
        done := hs.done
        sleepers := hawake _ (by simp)
        callers := fun c before hc => .inl (hcallers c before hc)
        holder := fun h' hh => nomatch hh }
    · rw [if_neg hleave]
      refine hs.relock hne ?_
      rintro _ ⟨⟩
      exact ⟨hready, tasks_ne_nil_of_stays hcond hleave⟩
  | notify =>
    refine hs.relock hne ?_
    rintro _ ⟨⟩
    exact hat
  | unlock =>
    exact {
      done := hs.done
      sleepers := hawake _ (by simp)
      callers := fun c before hc => .inl (hcallers c before hc)
      holder := fun h' hh => nomatch hh }

theorem wait {c : Caller n} {pc : WaitAt} (hlock : s.queueLock = some (.wait c pc)) :
    (s.proceedWait c pc).Sound := by
  have hat := hs.holder _ hlock
  have hne := not_notifying hlock (by simp)
  cases pc with
  | test =>
    refine hs.relock hne ?_
    rintro _ ⟨⟩
    by_cases hempty : s.tasks.isEmpty = true
    · rw [if_pos hempty]
      exact ⟨hat, List.isEmpty_iff.mp hempty⟩
    · rw [if_neg hempty]
      exact ⟨hat, fun h => hempty (List.isEmpty_iff.mpr h)⟩
  | sleep =>
    exact {
      done := hs.done
      sleepers := hs.sleepers
      callers := fun _ _ _ => .inl hat.2
      holder := fun h' hh => nomatch hh }
  | notify =>
    exact {
      done := hs.done
      sleepers := fun _ x => not_sleeps_notifyAllTask _ x
      callers := by
        intro c' before hc
        have hc' : (s.toPool.setCaller c .idle).callers c' = .waiting before true := hc
        rw [callers_setCaller] at hc'
        split at hc'
        · cases hc'
        · exact (hs.callers c' before hc').imp_right fun ⟨i, hi⟩ => (hne i hi).elim
      holder := by
        rintro _ ⟨⟩
        trivial }
  | unlock => exact hs.relock hne (fun h' hh => nomatch hh)

theorem destructor {pc : DestructorAt} (hlock : s.queueLock = some (.destructor pc)) :
    (s.proceedDestructor pc).Sound := by
  have hne := not_notifying hlock (by simp)
  cases pc with
  | setDone =>
    exact {
      done := iff_of_true rfl trivial
      sleepers := fun hn => hn.elim
      callers := fun c before hc => (hs.callers c before hc).imp_right fun ⟨i, hi⟩ => (hne i hi).elim
      holder := by
        rintro _ ⟨⟩
        rfl }
  | unlock => exact hs.relock hne (fun h' hh => nomatch hh)

end LockedPool.Sound

/-- Steps without the lock do not disturb the thread that holds it. -/
theorem Frame.atStatement {t : Pool n} (hf : Frame s t) {h : Holder n} (hlock : s.queueLock = some h)
    (hat : s.AtStatement h) : t.AtStatement h := by
  have hwaiting : ∀ c, (∃ before, s.callers c = .waiting before false) →
      ∃ before, t.callers c = .waiting before false :=
    fun c ⟨before, hc⟩ => ⟨before, hf.waiting hc⟩
  cases h with
  | schedule origin callable pc =>
    obtain ⟨horigin, hcalled, hthunk⟩ := hat
    refine ⟨?_, ?_, ?_⟩
    · rintro i rfl
      obtain ⟨⟨task, htask⟩, hidle⟩ := horigin i rfl
      exact ⟨⟨task, hf.running hlock htask⟩, hf.idle hidle⟩
    · exact fun hnone => hf.called (hcalled hnone)
    · intro hpc
      rw [hf.tasks, hf.scheduled]
      exact hthunk hpc
  | worker i pc =>
    cases pc with
    | test => exact hf.ready hat
    | sleep => exact ⟨hf.ready hat.1, hf.tasks.trans hat.2.1, hf.done.trans hat.2.2⟩
    | check =>
      refine ⟨hf.ready hat.1, ?_⟩
      rw [hf.tasks, hf.done]
      exact hat.2
    | pop =>
      refine ⟨hf.ready hat.1, ?_⟩
      rw [hf.tasks]
      exact hat.2
    | notify => exact hat.imp fun task htask => hf.holding hlock htask
    | unlock => exact hat.imp fun task htask => hf.holding hlock htask
  | dispatcher pc =>
    cases pc with
    | test => exact hf.dispatcher_ready hat
    | sleep => exact ⟨hf.dispatcher_ready hat.1, hf.tasks.trans hat.2.1, hf.done.trans hat.2.2⟩
    | check =>
      refine ⟨hf.dispatcher_ready hat.1, ?_⟩
      rw [hf.tasks, hf.done]
      exact hat.2
    | notify =>
      refine ⟨hf.dispatcher_ready hat.1, ?_⟩
      rw [hf.tasks]
      exact hat.2
    | unlock =>
      refine ⟨hf.dispatcher_ready hat.1, ?_⟩
      rw [hf.tasks]
      exact hat.2
  | wait c pc =>
    cases pc with
    | test => exact hwaiting c hat
    | sleep =>
      refine ⟨hwaiting c hat.1, ?_⟩
      rw [hf.tasks]
      exact hat.2
    | notify => exact ⟨hwaiting c hat.1, hf.tasks.trans hat.2⟩
    | unlock => trivial
  | destructor pc =>
    have hsame := hf.destructor_eq hlock (by cases pc <;> simp [Pool.AtStatement] at hat <;> simp [hat])
    cases pc with
    | setDone => exact hsame.trans hat
    | unlock => exact hsame.trans hat

namespace LockedPool.Sound

variable (hs : s.Sound)

include hs

theorem unlocked {t : Pool n} (hf : Frame s t) : (⟨t, s.queueLock⟩ : LockedPool n).Sound where
  done := by
    show t.done = true ↔ _
    rw [hf.done, hf.hasSetDone_iff]
    exact hs.done
  sleepers := by
    intro hn x hx
    rcases hf.awake hn with hs' | hawake
    · exact hs.sleepers hs' x (hf.sleeps hx)
    · exact hawake x hx
  callers := by
    intro c before hc
    show t.tasks ≠ [] ∨ _
    rw [hf.tasks]
    exact hs.callers c before (hf.asleep hc)
  holder := fun h hlock => hf.atStatement hlock (hs.holder h hlock)

/-- Taking the lock. -/
theorem lock (hfree : s.queueLock = none) {h : Holder n} (hat : s.AtStatement h) :
    (⟨s.toPool, some h⟩ : LockedPool n).Sound := by
  refine hs.relock (fun i => by rw [hfree]; simp) ?_
  rintro _ ⟨⟩
  exact hat

end LockedPool.Sound

end step

/-- **Every step keeps the invariant.** -/
theorem sound_step (s : LockedPool n) (l : LockedLabel n) (s' : LockedPool n) (hs : s.Sound)
    (h : (lockedSystem n).step s l = some s') : s'.Sound := by
  cases lockedMoves_of_step h with
  | lockSchedule origin callable hfree hmay =>
    refine hs.lock hfree ⟨?_, ?_, fun hpc => nomatch hpc⟩
    · rintro i rfl
      exact hmay
    · rintro rfl
      exact .inl hmay
  | lockWorker i hfree hready => exact hs.lock hfree hready
  | lockDispatcher hfree hready => exact hs.lock hfree hready
  | lockWait c hfree hidle hmay =>
    exact {
      done := hs.done
      sleepers := hs.sleepers
      callers := by
        intro c' before hc
        have hc' : (s.toPool.setCaller c (.waiting s.scheduled false)).callers c' =
            .waiting before true := hc
        rw [callers_setCaller] at hc'
        split at hc'
        · cases hc'
        · refine (hs.callers c' before hc').imp_right ?_
          rintro ⟨i, hi⟩
          rw [hfree] at hi
          cases hi
      holder := by
        rintro _ ⟨⟩
        exact ⟨s.scheduled, by rw [callers_setCaller, if_pos rfl]⟩ }
  | relockWait c before hfree hc => exact hs.lock hfree ⟨before, hc⟩
  | lockDestructor hfree hd => exact hs.lock hfree hd
  | proceed wake holder s' hlock hs' =>
    cases holder with
    | schedule origin callable pc => exact hs.schedule hlock hs'
    | worker i pc => exact Option.some.inj hs' ▸ hs.worker hlock
    | dispatcher pc => exact Option.some.inj hs' ▸ hs.dispatcher hlock
    | wait c pc => exact Option.some.inj hs' ▸ hs.wait hlock
    | destructor pc => exact Option.some.inj hs' ▸ hs.destructor hlock
  | unlocked l t hl hmoves => exact hs.unlocked (frame_of_moves hl hmoves)

theorem sound_of_run {ls : List (LockedLabel n)} {s : LockedPool n}
    (h : (lockedSystem n).run (LockedPool.init n) ls = some s) : s.Sound :=
  (lockedSystem n).run_invariant sound_step (sound_init n) h

end Acso.ThreadPool
