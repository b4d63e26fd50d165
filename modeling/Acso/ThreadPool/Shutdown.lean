import Acso.ThreadPool.Atomic
import Acso.ThreadPool.Destruction

/-!
# Nobody sleeps through the end

The destructor sets `done` under the lock and notifies after it has left it.  A thread that
tested before that is asleep by then, as it kept the lock, and is woken; one that tests later
sees `done` (`shutdown_wakes_all`).  In the same way no call of `wait` sleeps on an empty
queue: the worker that empties it notifies before it gives the lock back
(`no_waiter_on_empty`).
-/

namespace Acso.ThreadPool

open Acso.Lib

variable {n : Nat}

/-- The thread has left its loop. -/
def Pool.Exited (s : Pool n) : Sleeper n → Prop
  | .worker i => s.workers i = .exited
  | .dispatcher => s.dispatcher = .exited

/-- The thread holds the lock with an empty queue, and is about to test the condition of its
`wait` or that of its `break`. -/
def LockedPool.HoldsEmpty (s : LockedPool n) : Sleeper n → Prop
  | .worker i => s.tasks = [] ∧
      (s.queueLock = some (.worker i .test) ∨ s.queueLock = some (.worker i .check))
  | .dispatcher => s.tasks = [] ∧
      (s.queueLock = some (.dispatcher .test) ∨ s.queueLock = some (.dispatcher .check))

/-! ## Those who have left -/

/-- A thread that has left its loop does not come back. -/
theorem exited_kept {x : Sleeper n} (s : Pool n) (l : Label n) (s' : Pool n) (hx : s.Exited x)
    (h : (poolSystem n).step s l = some s') : s'.Exited x := by
  cases x with
  | worker i => exact (exited_step h i).mpr (.inl hx)
  | dispatcher =>
    have hd : s.dispatcher = .exited := hx
    have hwake : s.dispatcher.wake = .exited := by rw [hd]; rfl
    cases moves_of_step h with
    | schedule origin callable wake hmay hnotify =>
      rcases wake with _ | ⟨i⟩ | _
      · exact hd
      · exact hd
      · have hsleeps : s.dispatcher = .asleep := hnotify
        rw [hd] at hsleeps
        cases hsleeps
    | dispatcherTest hat | dispatcherLoop hat | dispatcherSleep hat | dispatcherExit hat =>
      rw [hd] at hat
      cases hat
    | waitReturn | notifyTask => exact hwake
    | wakeUp x hsleeps =>
      cases x with
      | worker i => exact hd
      | dispatcher =>
        have hasleep : s.dispatcher = .asleep := hsleeps
        rw [hd] at hasleep
        cases hasleep
    | _ => exact hd

/-- The destructor does not go back. -/
theorem hasNotified_kept (s : Pool n) (l : Label n) (s' : Pool n) (hn : s.destructor.HasNotified)
    (h : (poolSystem n).step s l = some s') : s'.destructor.HasNotified := by
  cases moves_of_step h with
  | enter hd | setDone hd =>
    rw [hd] at hn
    exact hn.elim
  | notifyTask | notifyEmpty | joinDispatcher | joinNext | destroyed => trivial
  | _ => exact hn

section leaving

variable {s s' : LockedPool n} {l : LockedLabel n}

theorem exited_atomic (x : Sleeper n) : s.atomic.Exited x ↔ s.Exited x := by
  obtain ⟨hworkers, hdispatcher⟩ := s.atomic_threads
  cases x with
  | worker i => rw [Pool.Exited, Pool.Exited, hworkers]
  | dispatcher => rw [Pool.Exited, Pool.Exited, hdispatcher]

theorem hasNotified_step (hs : s.Sound) (hn : s.destructor.HasNotified)
    (h : (lockedSystem n).step s l = some s') : s'.destructor.HasNotified :=
  LockedPool.hasNotified_atomic.mp ((lockedSystem_refines n).invariant_step _ hasNotified_kept hs
    (LockedPool.hasNotified_atomic.mpr hn) h)

theorem stays_exited (hs : s.Sound) {x : Sleeper n} (hx : s.Exited x)
    (h : (lockedSystem n).step s l = some s') : s'.Exited x :=
  (exited_atomic x).mp ((lockedSystem_refines n).invariant_step _ exited_kept hs
    ((exited_atomic x).mpr hx) h)

/-! ## Those who are about to leave -/

/-- At its test the thread sees `done`, -/
theorem worker_test_passes (hdone : s.done = true) {i : Fin n}
    (hlock : s.queueLock = some (.worker i .test)) (wake : Option (Sleeper n)) :
    (lockedSystem n).step s (.proceed wake) = some ⟨s.toPool, some (.worker i .check)⟩ := by
  have hcond : s.wakeCondition = true := (wakeCondition_iff s).mpr (.inr hdone)
  show s.queueLock.bind (s.proceed wake) = _
  rw [hlock, Option.bind_some, LockedPool.proceed, LockedPool.proceedWorker, hcond, if_pos rfl]

/-- and with an empty queue it leaves its loop. -/
theorem worker_check_leaves (hdone : s.done = true) (hempty : s.tasks = []) {i : Fin n}
    (hlock : s.queueLock = some (.worker i .check)) (wake : Option (Sleeper n)) :
    (lockedSystem n).step s (.proceed wake) = some ⟨s.toPool.setWorker i .exited, none⟩ := by
  show s.queueLock.bind (s.proceed wake) = _
  rw [hlock, Option.bind_some, LockedPool.proceed, LockedPool.proceedWorker, hdone, hempty]
  rfl

theorem dispatcher_test_passes (hdone : s.done = true)
    (hlock : s.queueLock = some (.dispatcher .test)) (wake : Option (Sleeper n)) :
    (lockedSystem n).step s (.proceed wake) = some ⟨s.toPool, some (.dispatcher .check)⟩ := by
  have hcond : s.wakeCondition = true := (wakeCondition_iff s).mpr (.inr hdone)
  show s.queueLock.bind (s.proceed wake) = _
  rw [hlock, Option.bind_some, LockedPool.proceed, LockedPool.proceedDispatcher, hcond, if_pos rfl]

theorem dispatcher_check_leaves (hdone : s.done = true) (hempty : s.tasks = [])
    (hlock : s.queueLock = some (.dispatcher .check)) (wake : Option (Sleeper n)) :
    (lockedSystem n).step s (.proceed wake) =
      some ⟨{ s.toPool with dispatcher := .exited }, none⟩ := by
  show s.queueLock.bind (s.proceed wake) = _
  rw [hlock, Option.bind_some, LockedPool.proceed, LockedPool.proceedDispatcher, hdone, hempty]
  rfl

/-- The next statement of the thread, if it is at its test, and the one that takes it out. -/
theorem holdsEmpty_proceeds (hdone : s.done = true) {x : Sleeper n} (hx : s.HoldsEmpty x)
    (wake : Option (Sleeper n)) :
    ∃ t, (lockedSystem n).step s (.proceed wake) = some t ∧
      (t.Exited x ∨ t.HoldsEmpty x ∧
        ∃ u, (lockedSystem n).step t (.proceed wake) = some u ∧ u.Exited x) := by
  have hexit : ∀ i, (s.toPool.setWorker i .exited).Exited (.worker i) := by
    intro i
    show (s.toPool.setWorker i .exited).workers i = .exited
    rw [workers_setWorker, if_pos rfl]
  cases x with
  | worker i =>
    obtain ⟨hempty, htest | hcheck⟩ := hx
    · have hleaves := worker_check_leaves (s := ⟨s.toPool, some (.worker i .check)⟩) hdone hempty rfl
        wake
      exact ⟨_, worker_test_passes hdone htest wake,
        .inr ⟨⟨hempty, .inr rfl⟩, _, hleaves, hexit i⟩⟩
    · exact ⟨_, worker_check_leaves hdone hempty hcheck wake, .inl (hexit i)⟩
  | dispatcher =>
    obtain ⟨hempty, htest | hcheck⟩ := hx
    · have hleaves := dispatcher_check_leaves (s := ⟨s.toPool, some (.dispatcher .check)⟩) hdone hempty
        rfl wake
      exact ⟨_, dispatcher_test_passes hdone htest wake,
        .inr ⟨⟨hempty, .inr rfl⟩, _, hleaves, rfl⟩⟩
    · exact ⟨_, dispatcher_check_leaves hdone hempty hcheck wake, .inl rfl⟩

theorem lock_ne_none {x : Sleeper n} (hx : s.HoldsEmpty x) : s.queueLock ≠ none := by
  intro hfree
  cases x <;> obtain ⟨-, hlock | hlock⟩ := hx <;> rw [hfree] at hlock <;> cases hlock

/-- Meanwhile nobody else can stop it. -/
theorem holdsEmpty_step (hs : s.Sound) (hn : s.destructor.HasNotified) {x : Sleeper n}
    (hx : s.HoldsEmpty x) (h : (lockedSystem n).step s l = some s') :
    s'.HoldsEmpty x ∨ s'.Exited x := by
  have hlocked := lock_ne_none hx
  cases lockedMoves_of_step h with
  | proceed wake holder s' hlock hs' =>
    obtain ⟨t, ht, hleaves⟩ := holdsEmpty_proceeds (hs.done.mpr hn.hasSetDone) hx wake
    obtain rfl := Option.some.inj (h.symm.trans ht)
    exact hleaves.elim .inr fun hholds => .inl hholds.1
  | unlocked l t hl hmoves =>
    have htasks := (frame_of_moves hl hmoves).tasks
    refine .inl ?_
    cases x with
    | worker i => exact ⟨htasks.trans hx.1, hx.2⟩
    | dispatcher => exact ⟨htasks.trans hx.1, hx.2⟩
  | lockSchedule origin callable hfree => exact absurd hfree hlocked
  | lockWorker i hfree => exact absurd hfree hlocked
  | lockDispatcher hfree => exact absurd hfree hlocked
  | lockWait c hfree => exact absurd hfree hlocked
  | relockWait c before hfree => exact absurd hfree hlocked
  | lockDestructor hfree => exact absurd hfree hlocked

/-- Two statements take it out. -/
theorem holdsEmpty_leaves (hdone : s.done = true) {x : Sleeper n} (hx : s.HoldsEmpty x) :
    ∃ k ≤ 2, ∃ t, (lockedSystem n).run s (List.replicate k (.proceed none)) = some t ∧
      t.Exited x := by
  obtain ⟨t, ht, hexited | ⟨-, u, hu, hexited⟩⟩ := holdsEmpty_proceeds hdone hx none
  · exact ⟨1, by decide, t, (System.run_cons_eq_some _).mpr ⟨t, ht, rfl⟩, hexited⟩
  · exact ⟨2, by decide, u, (System.run_cons_eq_some _).mpr
      ⟨t, ht, (System.run_cons_eq_some _).mpr ⟨u, hu, rfl⟩⟩, hexited⟩

/-- A thread on its way out. -/
structure LockedPool.Leaving (x : Sleeper n) (s : LockedPool n) : Prop where
  sound : s.Sound
  notified : s.destructor.HasNotified
  place : s.HoldsEmpty x ∨ s.Exited x

theorem leaving_step (x : Sleeper n) (s : LockedPool n) (l : LockedLabel n) (s' : LockedPool n)
    (hs : s.Leaving x) (h : (lockedSystem n).step s l = some s') : s'.Leaving x where
  sound := sound_step s l s' hs.sound h
  notified := hasNotified_step hs.sound hs.notified h
  place := by
    rcases hs.place with hx | hx
    · exact holdsEmpty_step hs.sound hs.notified hx h
    · exact .inr (stays_exited hs.sound hx h)

end leaving

/-- **After the notification nobody sleeps, and nobody stays.**  Once the destructor has set
`done` and performed `taskIsAvailable.notify_all()`, no worker is asleep, nor the dispatcher;
and a thread that gets hold of the lock with an empty queue leaves its loop, by its own next
two statements, whatever the others do. -/
theorem shutdown_wakes_all (n : Nat) (ls : List (LockedLabel n)) (s : LockedPool n)
    (hrun : (lockedSystem n).run (LockedPool.init n) ls = some s)
    (hn : s.destructor.HasNotified) :
    (∀ x, ¬ s.Sleeps x) ∧ ∀ x, s.HoldsEmpty x →
      (∃ k ≤ 2, ∃ t, (lockedSystem n).run s (List.replicate k (.proceed none)) = some t ∧
        t.Exited x) ∧
      ∀ ls' t, (lockedSystem n).run s ls' = some t → t.HoldsEmpty x ∨ t.Exited x := by
  have hs := sound_of_run hrun
  refine ⟨hs.sleepers hn, fun x hx => ⟨holdsEmpty_leaves (hs.done.mpr hn.hasSetDone) hx, ?_⟩⟩
  intro ls' t ht
  exact ((lockedSystem n).run_invariant (leaving_step x) ⟨hs, hn, .inl hx⟩ ht).place

/-- The worker is between its test and its sleep when the destructor starts. -/
def lateSleeper : List (LockedLabel 1) :=
  let i : Fin 1 := ⟨0, Nat.one_pos⟩
  [.lockWorker i, .proceed none, .unlocked .destroy, .proceed none, .lockDestructor, .proceed none,
    .proceed none, .unlocked .destroy, .lockWorker i]

theorem lateSleeper_leaves : ∃ s, (lockedSystem 1).run (LockedPool.init 1) lateSleeper = some s ∧
    ∃ k ≤ 2, ∃ t, (lockedSystem 1).run s (List.replicate k (.proceed none)) = some t ∧
      t.Exited (.worker ⟨0, Nat.one_pos⟩) :=
  ⟨_, rfl, ((shutdown_wakes_all 1 lateSleeper _ rfl trivial).2 (.worker ⟨0, Nat.one_pos⟩)
    ⟨rfl, .inl rfl⟩).1⟩

/-- **No caller of `wait` sleeps on an empty queue** that nobody is working on under the lock. -/
theorem no_waiter_on_empty (n : Nat) (ls : List (LockedLabel n)) (s : LockedPool n)
    (hrun : (lockedSystem n).run (LockedPool.init n) ls = some s) (hfree : s.queueLock = none)
    (hempty : s.tasks = []) : ∀ c before, s.callers c ≠ .waiting before true := by
  intro c before hc
  rcases (sound_of_run hrun).callers c before hc with htasks | ⟨i, hi⟩
  · exact htasks hempty
  · rw [hfree] at hi
    cases hi

/-- A caller falls asleep on a task, and the worker takes the task. -/
def taskTaken : List (LockedLabel 1) :=
  let i : Fin 1 := ⟨0, Nat.one_pos⟩
  [.lockSchedule none true, .proceed none, .proceed none, .proceed none, .lockWait (.outside 0),
    .proceed none, .proceed none, .lockWorker i, .proceed none, .proceed none, .proceed none,
    .proceed none, .proceed none]

theorem taskTaken_wakes : ∃ s, (lockedSystem 1).run (LockedPool.init 1) taskTaken = some s ∧
    ∀ c before, s.callers c ≠ .waiting before true :=
  ⟨_, rfl, no_waiter_on_empty 1 taskTaken _ rfl rfl rfl⟩

end Acso.ThreadPool
