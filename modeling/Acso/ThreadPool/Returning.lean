import Acso.Lib.Tally
import Acso.ThreadPool.Atomic
import Acso.ThreadPool.Destruction

/-!
# The destructor returns

Before `done` is set the dispatcher can go round its loop for ever, as long as a task is in the
queue.  Afterwards its next test ends it, no worker goes to sleep any more, and every step of the
workers, the dispatcher and the destructor leaves less to do (`stepsLeft_step`); only a call of
`schedule` makes it more.  And one of them can always go on, until the destructor has returned
(`closing_progress`).
-/

namespace Acso.ThreadPool

open Acso.Lib

variable {n : Nat}

/-- The step of a worker, of the dispatcher or of the destructor. -/
def Label.own : Label n → Bool
  | .worker _ | .invoke _ | .finish _ | .dispatcherTest | .dispatcher | .destroy => true
  | _ => false

/-- A call of `schedule`. -/
def Label.schedules : Label n → Bool
  | .schedule _ _ _ => true
  | _ => false

/-! ## What is left to do -/

def WorkerPc.stepsLeft : WorkerPc → Nat
  | .holding _ => 3
  | .running _ | .asleep => 2
  | .ready => 1
  | .exited => 0

def DispatcherPc.stepsLeft : DispatcherPc → Nat
  | .asleep => 3
  | .ready => 2
  | .top => 1
  | .exited => 0

def DestructorPc.stepsLeft (n : Nat) : DestructorPc → Nat
  | .notCalled => 2 * n + 6
  | .entered => 2 * n + 5
  | .doneSet => 2 * n + 4
  | .tasksNotified => 2 * n + 3
  | .joiningDispatcher => 2 * n + 2
  | .joining k => 2 * n - k + 1
  | .returned => 0

/-- How many steps are left at most once `done` is set: taking a task, starting it and coming
back from it are three. -/
def Pool.stepsLeft (s : Pool n) : Nat :=
  3 * s.tasks.length + tally WorkerPc.stepsLeft s.workers + s.dispatcher.stepsLeft +
    s.destructor.stepsLeft n

section step

variable {s s' : Pool n} {l : Label n}

theorem stepsLeft_setWorker (s : Pool n) (i : Fin n) (pc : WorkerPc) :
    (s.setWorker i pc).stepsLeft + (s.workers i).stepsLeft = s.stepsLeft + pc.stepsLeft := by
  have hworkers := tally_update WorkerPc.stepsLeft s.workers i pc
  simp only [Pool.stepsLeft, Pool.setWorker]
  omega

theorem WorkerPc.stepsLeft_wake (pc : WorkerPc) : pc.wake.stepsLeft ≤ pc.stepsLeft := by
  cases pc <;> simp [WorkerPc.wake, WorkerPc.stepsLeft]

theorem DispatcherPc.stepsLeft_wake (pc : DispatcherPc) : pc.wake.stepsLeft ≤ pc.stepsLeft := by
  cases pc <;> simp [DispatcherPc.wake, DispatcherPc.stepsLeft]

/-- Waking leaves less to do. -/
theorem stepsLeft_notifyAllTask (s : Pool n) : s.notifyAllTask.stepsLeft ≤ s.stepsLeft := by
  have hworkers : tally WorkerPc.stepsLeft s.notifyAllTask.workers ≤
      tally WorkerPc.stepsLeft s.workers + n * 0 :=
    tally_le_add fun i => (s.workers i).stepsLeft_wake
  have hdispatcher := s.dispatcher.stepsLeft_wake
  simp only [Pool.stepsLeft, Pool.notifyAllTask] at *
  omega

theorem stepsLeft_wakeUp {x : Sleeper n} (hx : s.Sleeps x) :
    (s.wakeUp x).stepsLeft ≤ s.stepsLeft := by
  cases x with
  | worker i =>
    have hmove := stepsLeft_setWorker s i .ready
    rw [show s.workers i = .asleep from hx] at hmove
    show (s.setWorker i .ready).stepsLeft ≤ _
    simp only [WorkerPc.stepsLeft] at hmove
    omega
  | dispatcher =>
    have hasleep : s.dispatcher = .asleep := hx
    simp only [Pool.stepsLeft, Pool.wakeUp, hasleep, DispatcherPc.stepsLeft]
    omega

theorem stepsLeft_push (s : Pool n) (callable : Bool) :
    (s.push callable).stepsLeft = s.stepsLeft + 3 := by
  simp only [Pool.stepsLeft, Pool.push, List.length_append, List.length_singleton]
  omega

/-- **Once `done` is set**, every own step leaves less to do, and only `schedule` makes it more. -/
theorem stepsLeft_step (hdone : s.done = true) (h : (poolSystem n).step s l = some s') :
    (if l.own then 1 else 0) + s'.stepsLeft ≤ s.stepsLeft + (if l.schedules then 3 else 0) := by
  have hown : l.own = true → s'.stepsLeft < s.stepsLeft →
      (if l.own then 1 else 0) + s'.stepsLeft ≤ s.stepsLeft + (if l.schedules then 3 else 0) := by
    intro hl hless
    rw [if_pos hl]
    omega
  have hother : l.own = false → s'.stepsLeft ≤ s.stepsLeft →
      (if l.own then 1 else 0) + s'.stepsLeft ≤ s.stepsLeft + (if l.schedules then 3 else 0) := by
    intro hl hle
    rw [if_neg (by rw [hl]; exact Bool.false_ne_true)]
    omega
  have hmove := fun i pc => stepsLeft_setWorker s i pc
  cases moves_of_step h with
  | schedule origin callable wake hmay hwake =>
    have hpush := stepsLeft_push s callable
    have hnotify : ((s.push callable).notifyOneTask wake).stepsLeft ≤
        (s.push callable).stepsLeft := by
      cases wake with
      | none => exact le_refl _
      | some x => exact stepsLeft_wakeUp (s := s.push callable) hwake
    show 0 + _ ≤ s.stepsLeft + 3
    omega
  | take i task tasks callers hready htasks hcallers =>
    refine hown rfl ?_
    have htake := stepsLeft_setWorker { s with tasks := tasks, callers := callers } i (.holding task)
    have hqueue : ({ s with tasks := tasks, callers := callers } : Pool n).stepsLeft + 3 =
        s.stepsLeft := by
      simp only [Pool.stepsLeft, htasks, List.length_cons]
      omega
    simp only [hready, WorkerPc.stepsLeft] at htake
    omega
  | sleep i hready htasks hnot =>
    rw [hdone] at hnot
    cases hnot
  | exit i hready htasks hdone =>
    have hexit := hmove i .exited
    simp only [hready, WorkerPc.stepsLeft] at hexit
    exact hown rfl (by omega)
  | start i task hi hcall =>
    have hstart := hmove i (.running task)
    simp only [hi, WorkerPc.stepsLeft] at hstart
    exact hown rfl (show (s.setWorker i (.running task)).stepsLeft < _ by omega)
  | skip i task hi hcall =>
    have hskip := hmove i .ready
    simp only [hi, WorkerPc.stepsLeft] at hskip
    exact hown rfl (show (s.setWorker i .ready).stepsLeft < _ by omega)
  | finish i task hi =>
    have hfinish := hmove i .ready
    simp only [hi, WorkerPc.stepsLeft] at hfinish
    exact hown rfl (show (s.setWorker i .ready).stepsLeft < _ by omega)
  | dispatcherTest htop =>
    refine hown rfl ?_
    simp only [Pool.stepsLeft, htop, hdone, if_true, DispatcherPc.stepsLeft]
    omega
  | dispatcherSleep hready htasks hnot =>
    rw [hdone] at hnot
    cases hnot
  | dispatcherLoop hready | dispatcherExit hready =>
    refine hown rfl ?_
    simp only [Pool.stepsLeft, hready, DispatcherPc.stepsLeft]
    omega
  | notifyTask hd =>
    refine hown rfl (lt_of_lt_of_le ?_ (stepsLeft_notifyAllTask s))
    have hd' : s.notifyAllTask.destructor = .doneSet := hd
    simp only [Pool.stepsLeft, hd', DestructorPc.stepsLeft]
    omega
  | enter hd | setDone hd | notifyEmpty hd | joinDispatcher hd =>
    refine hown rfl ?_
    simp only [Pool.stepsLeft, Pool.notifyAllEmpty, hd, DestructorPc.stepsLeft]
    omega
  | joinNext k hd hw hk | destroyed k hd hk =>
    refine hown rfl ?_
    simp only [Pool.stepsLeft, hd, DestructorPc.stepsLeft]
    omega
  | waitReturn c before hc htasks => exact hother rfl (stepsLeft_notifyAllTask (s.setCaller c .idle))
  | wakeUp x hx => exact hother rfl (stepsLeft_wakeUp hx)
  | waitCall | waitSleep | wakeCaller => exact hother rfl (le_refl _)

theorem stepsLeft_le (hs : s.destructor.HasSetDone) :
    s.stepsLeft ≤ 3 * s.tasks.length + 5 * n + 7 := by
  have hworker : ∀ i, (s.workers i).stepsLeft ≤ 0 + 3 := by
    intro i
    cases s.workers i <;> simp [WorkerPc.stepsLeft]
  have hzero : tally WorkerPc.stepsLeft (fun _ : Fin n => WorkerPc.exited) = 0 :=
    tally_eq_zero.mpr fun _ => rfl
  have hworkers : tally WorkerPc.stepsLeft s.workers ≤ 0 + n * 3 := hzero ▸ tally_le_add hworker
  have hdispatcher : s.dispatcher.stepsLeft ≤ 3 := by
    cases s.dispatcher <;> simp [DispatcherPc.stepsLeft]
  have hdestructor : s.destructor.stepsLeft n ≤ 2 * n + 4 := by
    cases hpc : s.destructor with
    | notCalled | entered =>
      rw [hpc] at hs
      exact hs.elim
    | _ =>
      simp only [DestructorPc.stepsLeft]
      omega
  rw [Pool.stepsLeft]
  omega

/-! ## Somebody can go on -/

/-- What the destructor has seen to. -/
structure Pool.Closing (s : Pool n) : Prop where
  done : s.done = true ↔ s.destructor.HasSetDone
  awake : s.destructor.HasNotified → ∀ x, ¬ s.Sleeps x

/-- A worker, the dispatcher or the destructor can go on, and not by the end of a task. -/
def Pool.GoesOn (s : Pool n) : Prop :=
  ∃ l s', l.own = true ∧ (∀ i, l ≠ .finish i) ∧ (poolSystem n).step s l = some s'

theorem closing_init : (Pool.init n).Closing where
  done := iff_of_false Bool.false_ne_true not_false
  awake := fun h => h.elim

theorem closing_done (hs : s.Closing) (h : (poolSystem n).step s l = some s') :
    s'.done = true ↔ s'.destructor.HasSetDone := by
  have hdone := hs.done
  cases moves_of_step h with
  | enter hd | notifyTask hd | notifyEmpty hd | joinDispatcher hd =>
    rw [hd] at hdone
    exact hdone
  | setDone hd => exact iff_of_true rfl trivial
  | joinNext k hd hw hk | destroyed k hd hk =>
    rw [hd] at hdone
    exact hdone
  | _ => exact hdone

theorem sleeps_of_dispatcher {pc : DispatcherPc} (hpc : pc ≠ .asleep) {x : Sleeper n}
    (hx : ({ s with dispatcher := pc } : Pool n).Sleeps x) : s.Sleeps x := by
  cases x with
  | worker i => exact hx
  | dispatcher => exact absurd hx hpc

/-- After the notification nobody falls asleep, as `done` is set. -/
theorem closing_awake (hs : s.Closing) (h : (poolSystem n).step s l = some s')
    (hn : s'.destructor.HasNotified) (x : Sleeper n) : ¬ s'.Sleeps x := by
  have hkept : s.destructor.HasNotified → ¬ s.Sleeps x := fun hn => hs.awake hn x
  have hdone : s.destructor.HasNotified → s.done ≠ false := by
    intro hn hnot
    rw [hs.done.mpr hn.hasSetDone] at hnot
    cases hnot
  cases moves_of_step h with
  | schedule origin callable wake hmay hwake =>
    exact fun hx => hkept hn (sleeps_of_notifyOneTask (s := s.push callable) hx)
  | sleep i hready htasks hnot => exact absurd hnot (hdone hn)
  | take | exit | start | skip | finish =>
    exact fun hx => hkept hn (sleeps_of_setWorker (by simp) hx)
  | dispatcherTest htop => exact fun hx => hkept hn (sleeps_of_dispatcher (by split <;> simp) hx)
  | dispatcherSleep hready htasks hnot => exact absurd hnot (hdone hn)
  | dispatcherLoop | dispatcherExit => exact fun hx => hkept hn (sleeps_of_dispatcher (by simp) hx)
  | waitReturn | notifyTask => exact not_sleeps_notifyAllTask _ x
  | enter | setDone => exact hn.elim
  | notifyEmpty hd | joinDispatcher hd => exact hkept (hd ▸ trivial)
  | joinNext k hd hw hk | destroyed k hd hk => exact hkept (hd ▸ trivial)
  | wakeUp x hx => exact absurd hx (hs.awake hn x)
  | _ => exact hkept hn

theorem closing_step (s : Pool n) (l : Label n) (s' : Pool n) (hs : s.Closing)
    (h : (poolSystem n).step s l = some s') : s'.Closing :=
  ⟨closing_done hs h, closing_awake hs h⟩

/-- A move that lets the pool go on. -/
theorem goesOn_of_moves (hl : l.own = true) (hfinish : ∀ i, l ≠ .finish i) (h : Moves s l s') :
    s.GoesOn := ⟨l, s', hl, hfinish, step_of_moves h⟩

/-- A worker that is awake goes on until it exits, unless it is in a task. -/
theorem worker_goesOn {i : Fin n} (hawake : s.workers i ≠ .asleep)
    (hexited : s.workers i ≠ .exited) : (∃ task, s.workers i = .running task) ∨ s.GoesOn := by
  cases hi : s.workers i with
  | ready => exact .inr (goesOn_of_moves rfl (by simp) (moves_worker hi))
  | asleep => exact absurd hi hawake
  | holding task =>
    refine .inr ?_
    cases hcall : task.callable with
    | true => exact goesOn_of_moves rfl (by simp) (.start i task hi hcall)
    | false => exact goesOn_of_moves rfl (by simp) (.skip i task hi hcall)
  | running task => exact .inl ⟨task, rfl⟩
  | exited => exact absurd hi hexited

theorem dispatcher_goesOn (hawake : s.dispatcher ≠ .asleep) (hexited : s.dispatcher ≠ .exited) :
    s.GoesOn := by
  cases hd : s.dispatcher with
  | top => exact goesOn_of_moves rfl (by simp) (.dispatcherTest hd)
  | ready => exact goesOn_of_moves rfl (by simp) (moves_dispatcher hd)
  | asleep => exact absurd hd hawake
  | exited => exact absurd hd hexited

/-- **The destructor waits for nobody who cannot go on**, tasks apart. -/
theorem closing_progress (hs : s.Closing) (hdone : s.done = true) :
    s.destructor = .returned ∨ (∃ i task, s.workers i = .running task) ∨ s.GoesOn := by
  have hset := hs.done.mp hdone
  have hawake := hs.awake
  cases hd : s.destructor with
  | notCalled | entered =>
    rw [hd] at hset
    exact hset.elim
  | doneSet => exact .inr (.inr (goesOn_of_moves rfl (by simp) (.notifyTask hd)))
  | tasksNotified => exact .inr (.inr (goesOn_of_moves rfl (by simp) (.notifyEmpty hd)))
  | joiningDispatcher =>
    rw [hd] at hawake
    by_cases hexited : s.dispatcher = .exited
    · exact .inr (.inr (goesOn_of_moves rfl (by simp) (.joinDispatcher hd hexited)))
    · exact .inr (.inr (dispatcher_goesOn (hawake trivial .dispatcher) hexited))
  | joining k =>
    rw [hd] at hawake
    by_cases hk : 2 * n ≤ k
    · exact .inr (.inr (goesOn_of_moves rfl (by simp) (.destroyed k hd hk)))
    · by_cases hexited : ∀ i : Fin n, n + i = k → s.workers i = .exited
      · exact .inr (.inr (goesOn_of_moves rfl (by simp) (.joinNext k hd hexited (by omega))))
      · simp only [not_forall] at hexited
        obtain ⟨i, -, hi⟩ := hexited
        rcases worker_goesOn (hawake trivial (.worker i)) hi with ⟨task, hrunning⟩ | hgoes
        · exact .inr (.inl ⟨i, task, hrunning⟩)
        · exact .inr (.inr hgoes)
  | returned => exact .inl rfl

end step

/-- **The destructor returns.**  Once it has set `done`, its own steps and those of the workers and
the dispatcher are at most three for every task in the queue or scheduled since, and `5 * n + 7`
more, in whatever order and whatever the callers do in between.  And until it has returned, one of
these threads can go on, or a task is still running. -/
theorem destructor_returns (n : Nat) (ls : List (Label n)) (s : Pool n)
    (hrun : (poolSystem n).run (Pool.init n) ls = some s) (hdone : s.done = true)
    (ls' : List (Label n)) (t : Pool n) (ht : (poolSystem n).run s ls' = some t) :
    ls'.countP Label.own ≤
        3 * (s.tasks.length + ls'.countP Label.schedules) + 5 * n + 7 ∧
      (t.destructor = .returned ∨ (∃ i task, t.workers i = .running task) ∨ t.GoesOn) := by
  have hs := (poolSystem n).run_invariant closing_step closing_init hrun
  have hcount := (poolSystem n).countP_add_potential (fun s => s.done = true) Pool.stepsLeft
    Label.own Label.schedules 3 (fun _ _ _ hd h => done_step h hd)
    (fun _ _ _ hd h => stepsLeft_step hd h) hdone ht
  have hbound := stepsLeft_le (hs.done.mp hdone)
  refine ⟨by omega, ?_⟩
  have hdone' := (poolSystem n).run_invariant (fun _ _ _ hd h => done_step h hd) hdone ht
  exact closing_progress ((poolSystem n).run_invariant closing_step hs ht) hdone'

/-- In `lateSchedule` the destructor has set `done` after seven steps.  Fourteen follow, and with
them it has returned. -/
theorem lateSchedule_returns :
    ∃ s t, (poolSystem 1).run (Pool.init 1) (lateSchedule.take 7) = some s ∧
      (poolSystem 1).run s (lateSchedule.drop 7) = some t ∧ t.destructor = .returned ∧
      (lateSchedule.drop 7).countP Label.own ≤ 15 :=
  ⟨_, _, rfl, rfl, rfl, (destructor_returns 1 (lateSchedule.take 7) _ rfl rfl
    (lateSchedule.drop 7) _ rfl).1⟩

end Acso.ThreadPool
