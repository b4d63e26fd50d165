import Acso.ThreadPool.LockedInvariant

/-!
# The sections are atomic

`LockedPool` goes through the sections under `queueLock` statement by statement; in `Pool`
each section is one step.  Here the first refines the second.  A section takes place at the
statement after which nobody can tell that it is not over: `schedule` at its `notify_one`,
a worker at its `pop`, the others where they change the pool.

* `step_of_moves`: what `Moves` allows is a step.
* `Pool.outside`: the pool as it is seen while a section is in progress.
* `moves_seen`, `moves_uncalled`: a step without the lock does not look at what a section
  has not finished.
* `lockedSystem_refines`: every statement is one step of the pool, or none.
* `run_atomic`: whenever the lock is free, the pool is in a state that `Pool` can reach.
-/

namespace Acso.ThreadPool

open Acso.Lib

variable {n : Nat}

/-! ## Moves are steps -/

section moves

variable {s s' : Pool n}

theorem destroy_of_joining {k : Nat} (h : s.destructor = .joining k)
    (hw : ∀ i : Fin n, n + i = k → s.workers i = .exited) (hk : k < 2 * n) :
    s.destroy = some { s with destructor := .joining (k + 1) } := by
  by_cases hlow : k < n
  · simp only [Pool.destroy, h, if_pos hlow]
  · have hhigh : k - n < n := by omega
    have hexit : s.workers ⟨k - n, hhigh⟩ = .exited := hw _ (by show n + (k - n) = k; omega)
    simp only [Pool.destroy, h, if_neg hlow, dif_pos hhigh, if_pos hexit]

/-- **Every move is a step.** -/
theorem step_of_moves {l : Label n} (h : Moves s l s') : s.step l = some s' := by
  cases h with
  | schedule origin callable wake hmay hwake => exact if_pos ⟨hmay, hwake⟩
  | take i task tasks callers hready htasks hcallers =>
    by_cases hempty : tasks = []
    · simp only [Pool.step, if_pos hready, Pool.worker, htasks, hcallers, if_pos hempty]
      rfl
    · simp only [Pool.step, if_pos hready, Pool.worker, htasks, hcallers, if_neg hempty]
  | sleep i hready htasks hdone =>
    rw [Pool.step, if_pos hready, Pool.worker, htasks, hdone]
    rfl
  | exit i hready htasks hdone =>
    rw [Pool.step, if_pos hready, Pool.worker, htasks, hdone]
    rfl
  | start i task hi hcall => simp only [Pool.step, hi, Pool.invoke, if_pos hcall]
  | skip i task hi hcall =>
    simp only [Pool.step, hi, Pool.invoke, hcall]
    rfl
  | finish i task hi hidle => simp only [Pool.step, hi, if_pos hidle, Pool.finish]
  | dispatcherTest htop => exact if_pos htop
  | dispatcherLoop hready htasks =>
    obtain ⟨task, tasks, hqueue⟩ := List.exists_cons_of_ne_nil htasks
    rw [Pool.step, if_pos hready, Pool.dispatcherSection, hqueue]
  | dispatcherSleep hready htasks hdone =>
    rw [Pool.step, if_pos hready, Pool.dispatcherSection, htasks, hdone]
    rfl
  | dispatcherExit hready htasks hdone =>
    rw [Pool.step, if_pos hready, Pool.dispatcherSection, htasks, hdone]
    rfl
  | waitCall c hidle hmay => exact if_pos ⟨hidle, hmay⟩
  | waitReturn c before hc htasks => simp only [Pool.step, hc, Pool.wait, if_pos htasks]
  | waitSleep c before hc htasks => simp only [Pool.step, hc, Pool.wait, if_neg htasks]
  | enter h | setDone h | notifyTask h | notifyEmpty h => rw [Pool.step, Pool.destroy, h]
  | joinDispatcher h hd => simp only [Pool.step, Pool.destroy, h, if_pos hd]
  | joinNext k h hw hk => exact destroy_of_joining h hw hk
  | destroyed k h hk =>
    have hlow : ¬ k < n := by omega
    have hhigh : ¬ k - n < n := by omega
    simp only [Pool.step, Pool.destroy, h, if_neg hlow, dif_neg hhigh]
  | wakeUp x hx => exact if_pos hx
  | wakeCaller c => rfl

end moves

/-! ## Seen from outside -/

def DestructorPc.uncalled : DestructorPc → DestructorPc
  | .entered => .notCalled
  | pc => pc

namespace Pool

variable (s : Pool n)

/-- The queue and the callers of `wait` look different. -/
def seen (tasks scheduled : List Task) (look : CallerPc → CallerPc) : Pool n :=
  { s with tasks := tasks, scheduled := scheduled, callers := fun c => look (s.callers c) }

/-- Without the task that was pushed last. -/
def unpushed : Pool n := s.seen s.tasks.dropLast s.scheduled.dropLast id

/-- The callers of `wait` have been woken up, if there is no task. -/
def emptyNotified : Pool n :=
  s.seen s.tasks s.scheduled (if s.tasks = [] then CallerPc.wake else id)

/-- The destructor has not been called while `origin` is calling. -/
def uncalled (origin : Option (Fin n)) : Pool n :=
  match origin with
  | some _ => s
  | none => { s with destructor := s.destructor.uncalled }

/-- What the others see while `h` holds the lock.  `schedule` takes place when it notifies,
and a worker that has popped the last task has notified.  A call of `schedule` from outside
is over before the destructor begins. -/
def outside : Holder n → Pool n
  | .schedule origin _ .notify => s.unpushed.uncalled origin
  | .schedule origin _ _ => s.uncalled origin
  | .worker _ .notify => s.emptyNotified
  | _ => s

end Pool

/-- **The pool, seen from outside the sections.** -/
def LockedPool.atomic (s : LockedPool n) : Pool n :=
  match s.queueLock with
  | some h => s.toPool.outside h
  | none => s.toPool

/-- The threads are seen where they are. -/
theorem Pool.outside_threads (s : Pool n) (h : Holder n) :
    (s.outside h).workers = s.workers ∧ (s.outside h).dispatcher = s.dispatcher := by
  cases h with
  | schedule origin callable pc => cases origin <;> cases pc <;> exact ⟨rfl, rfl⟩
  | worker i pc => cases pc <;> exact ⟨rfl, rfl⟩
  | dispatcher | wait | destructor => exact ⟨rfl, rfl⟩

theorem LockedPool.atomic_threads (s : LockedPool n) :
    s.atomic.workers = s.workers ∧ s.atomic.dispatcher = s.dispatcher := by
  unfold atomic
  split
  · exact s.toPool.outside_threads _
  · exact ⟨rfl, rfl⟩

theorem DestructorPc.hasNotified_uncalled (pc : DestructorPc) :
    pc.uncalled.HasNotified ↔ pc.HasNotified := by
  cases pc <;> exact Iff.rfl

theorem Pool.hasNotified_outside (s : Pool n) (h : Holder n) :
    (s.outside h).destructor.HasNotified ↔ s.destructor.HasNotified := by
  cases h with
  | schedule origin callable pc =>
    cases origin with
    | some i => cases pc <;> exact Iff.rfl
    | none => cases pc <;> exact DestructorPc.hasNotified_uncalled _
  | worker i pc => cases pc <;> exact Iff.rfl
  | dispatcher | wait | destructor => exact Iff.rfl

theorem LockedPool.hasNotified_atomic {s : LockedPool n} :
    s.atomic.destructor.HasNotified ↔ s.destructor.HasNotified := by
  unfold atomic
  split
  · exact s.toPool.hasNotified_outside _
  · exact Iff.rfl

/-! ## Steps without the lock -/

/-- The steps that need no lock. -/
def Label.Free : Label n → Prop
  | .invoke _ | .finish _ | .dispatcherTest | .destroy | .spurious _ | .spuriousCaller _ => True
  | _ => False

theorem LockedPool.free_of_lockFree {s : LockedPool n} {l : Label n} (h : s.lockFree l = true) :
    l.Free := by
  cases l <;> trivial

section free

variable {s t : Pool n} {l : Label n}

/-- Such a step does not look at the queue, and it treats callers alike. -/
theorem moves_seen (hl : l.Free) (h : Moves s l t) (tasks scheduled : List Task)
    {look : CallerPc → CallerPc} (hlook : ∀ pc, look pc.wake = (look pc).wake)
    (hidle : look .idle = .idle) :
    Moves (s.seen tasks scheduled look) l (t.seen tasks scheduled look) := by
  cases h with
  | schedule | take | sleep | exit | dispatcherLoop | dispatcherSleep | dispatcherExit | waitCall
  | waitReturn | waitSleep => exact hl.elim
  | start i task hi hcall => exact .start i task hi hcall
  | skip i task hi hcall => exact .skip i task hi hcall
  | finish i task hi hc => exact .finish i task hi ((congrArg look hc).trans hidle)
  | dispatcherTest htop => exact .dispatcherTest htop
  | enter h => exact .enter h
  | setDone h => exact .setDone h
  | notifyTask h => exact .notifyTask h
  | notifyEmpty h =>
    have hmove := Moves.notifyEmpty (s := s.seen tasks scheduled look) h
    simpa [Pool.seen, Pool.notifyAllEmpty, hlook] using hmove
  | joinDispatcher h hd => exact .joinDispatcher h hd
  | joinNext k h hw hk => exact .joinNext k h hw hk
  | destroyed k h hk => exact .destroyed k h hk
  | wakeUp x hx => exact .wakeUp x hx
  | wakeCaller c =>
    have hmove := Moves.wakeCaller (s := s.seen tasks scheduled look) c
    have hcallers := Function.comp_update look s.callers c (s.callers c).wake
    rw [hlook] at hcallers
    rw [Pool.seen, Pool.setCaller]
    show Moves _ _ { s with
      tasks := tasks, scheduled := scheduled,
      callers := look ∘ Function.update s.callers c (s.callers c).wake }
    rw [hcallers]
    exact hmove

/-- Nor does it look at a destructor that has not set `done`. -/
theorem moves_uncalled (hl : l.Free) (h : Moves s l t) (origin : Option (Fin n))
    (hcalled : origin = none → s.destructor = .notCalled ∨ s.destructor = .entered)
    (hfree : l = .destroy → s.destructor ≠ .entered) :
    t.uncalled origin = s.uncalled origin ∨ Moves (s.uncalled origin) l (t.uncalled origin) := by
  cases origin with
  | some i => exact .inr h
  | none =>
    replace hcalled := hcalled rfl
    cases h with
    | schedule | take | sleep | exit | dispatcherLoop | dispatcherSleep | dispatcherExit
    | waitCall | waitReturn | waitSleep => exact hl.elim
    | start i task hi hcall => exact .inr (.start i task hi hcall)
    | skip i task hi hcall => exact .inr (.skip i task hi hcall)
    | finish i task hi hc => exact .inr (.finish i task hi hc)
    | dispatcherTest htop => exact .inr (.dispatcherTest htop)
    | enter h =>
      left
      simp [Pool.uncalled, DestructorPc.uncalled, h]
    | setDone h => exact absurd h (hfree rfl)
    | notifyTask h | notifyEmpty h | joinDispatcher h | joinNext _ h | destroyed _ h =>
      simp [h] at hcalled
    | wakeUp x hx => exact .inr (.wakeUp x hx)
    | wakeCaller c => exact .inr (.wakeCaller c)

end free

/-! ## Statements under the lock -/

/-- From outside, nothing or one step of the pool. -/
def LockedPool.Follows (s s' : LockedPool n) : Prop :=
  s'.atomic = s.atomic ∨ ∃ k, Moves s.atomic k s'.atomic

section statements

variable {s s' : LockedPool n}

theorem LockedPool.atomic_of_lock {h : Holder n} (hlock : s.queueLock = some h) :
    s.atomic = s.toPool.outside h := by
  rw [atomic, hlock]

theorem LockedPool.atomic_of_free (hfree : s.queueLock = none) : s.atomic = s.toPool := by
  rw [atomic, hfree]

/-- Where the others see the pool as it is. -/
theorem LockedPool.Follows.of_moves {h : Holder n} (hlock : s.queueLock = some h)
    (hsame : s.toPool.outside h = s.toPool) {k : Label n} (hm : Moves s.toPool k s'.atomic) :
    s.Follows s' := by
  refine .inr ⟨k, ?_⟩
  rwa [LockedPool.atomic_of_lock hlock, hsame]

theorem Pool.unpushed_push (s : Pool n) (callable : Bool) : (s.push callable).unpushed = s := by
  simp [Pool.push, Pool.unpushed, Pool.seen]

theorem Pool.push_unpushed {s : Pool n} {callable : Bool}
    (h : ∃ tasks scheduled, s.tasks = tasks ++ [⟨scheduled.length, callable⟩] ∧
      s.scheduled = scheduled ++ [⟨scheduled.length, callable⟩]) :
    s.unpushed.push callable = s := by
  obtain ⟨tasks, scheduled, htasks, hscheduled⟩ := h
  cases s
  simp only at htasks hscheduled
  simp [Pool.push, Pool.unpushed, Pool.seen, htasks, hscheduled]

theorem Pool.uncalled_eq {s : Pool n} {origin : Option (Fin n)}
    (h : origin = none → s.destructor ≠ .entered) : s.uncalled origin = s := by
  cases origin with
  | some i => rfl
  | none =>
    have hne := h rfl
    cases hd : s.destructor with
    | entered => exact absurd hd hne
    | notCalled | doneSet | tasksNotified | joiningDispatcher | joining | returned =>
      cases s
      simp only at hd
      simp [Pool.uncalled, DestructorPc.uncalled, hd]

namespace LockedPool.Sound

variable (hs : s.Sound)

include hs

theorem follows_schedule {origin : Option (Fin n)} {callable : Bool} {pc : ScheduleAt}
    (hlock : s.queueLock = some (.schedule origin callable pc)) {wake : Option (Sleeper n)}
    (h : s.proceedSchedule origin callable wake pc = some s') : s.Follows s' := by
  obtain ⟨horigin, hcalled, hthunk⟩ := hs.holder _ hlock
  have hatomic := LockedPool.atomic_of_lock hlock
  cases pc with
  | push =>
    obtain rfl := Option.some.inj h
    left
    rw [hatomic]
    show (s.toPool.push callable).unpushed.uncalled origin = s.toPool.uncalled origin
    rw [Pool.unpushed_push]
  | notify =>
    obtain ⟨hwake, hs'⟩ := Option.ite_none_right_eq_some.mp h
    obtain rfl := Option.some.inj hs'
    have hmay : (s.unpushed.uncalled origin).MayCall origin := by
      cases origin with
      | some i => exact horigin i rfl
      | none => rcases hcalled rfl with hd | hd <;>
          simp [Pool.MayCall, Pool.uncalled, Pool.unpushed, Pool.seen, DestructorPc.uncalled, hd]
    have hwake' : (s.unpushed.uncalled origin).CanNotify wake := by cases origin <;> exact hwake
    have hover : ((s.unpushed.uncalled origin).push callable).notifyOneTask wake =
        ((s.unpushed.push callable).notifyOneTask wake).uncalled origin := by
      cases origin <;> rfl
    have hmove := Moves.schedule origin callable wake hmay hwake'
    rw [hover, Pool.push_unpushed (hthunk rfl)] at hmove
    right
    rw [hatomic]
    exact ⟨_, hmove⟩
  | unlock =>
    obtain rfl := Option.some.inj h
    have hafter : (⟨s.toPool, none⟩ : LockedPool n).atomic = s.toPool := rfl
    rw [LockedPool.Follows, hatomic, hafter]
    show s.toPool = s.uncalled origin ∨ ∃ k, Moves (s.uncalled origin) k s.toPool
    by_cases hentered : origin = none ∧ s.destructor = .entered
    · -- the destructor has been called since, and is seen to begin now
      obtain ⟨rfl, hd⟩ := hentered
      have hnot : (s.uncalled none).destructor = .notCalled := by
        simp [Pool.uncalled, DestructorPc.uncalled, hd]
      have hmove := Moves.enter hnot
      rw [← hd] at hmove
      exact .inr ⟨_, hmove⟩
    · left
      exact (Pool.uncalled_eq fun hnone hd => hentered ⟨hnone, hd⟩).symm

theorem follows_worker {i : Fin n} {pc : WorkerAt} (hlock : s.queueLock = some (.worker i pc)) :
    s.Follows (s.proceedWorker i pc) := by
  have hat := hs.holder _ hlock
  have hatomic := LockedPool.atomic_of_lock hlock
  cases pc with
  | test =>
    left
    rw [hatomic, LockedPool.proceedWorker]
    split <;> rfl
  | sleep =>
    obtain ⟨hready, hempty, hdone⟩ := hat
    exact .of_moves hlock rfl (.sleep i hready hempty hdone)
  | check =>
    rw [LockedPool.proceedWorker]
    by_cases hleave : (s.done && s.tasks.isEmpty) = true
    · rw [if_pos hleave]
      rw [Bool.and_eq_true, List.isEmpty_iff] at hleave
      exact .of_moves hlock rfl (.exit i hat.1 hleave.2 hleave.1)
    · rw [if_neg hleave]
      exact .inl hatomic.symm
  | pop =>
    obtain ⟨hready, hnonempty⟩ := hat
    obtain ⟨task, tasks, hqueue⟩ := List.exists_cons_of_ne_nil hnonempty
    have hmove := Moves.take i task tasks _ hready hqueue rfl
    have hafter : (s.proceedWorker i .pop).atomic =
        { s.toPool with
          tasks := tasks
          callers := if tasks = [] then fun c => (s.callers c).wake else s.callers
          }.setWorker i (.holding task) := by
      simp only [LockedPool.proceedWorker, hqueue, LockedPool.atomic, Pool.outside,
        Pool.emptyNotified, Pool.setWorker]
      split <;> rfl
    rw [← hafter] at hmove
    exact .of_moves hlock rfl hmove
  | notify =>
    left
    rw [hatomic, LockedPool.proceedWorker]
    by_cases hempty : s.tasks = []
    · rw [if_pos (List.isEmpty_iff.mpr hempty)]
      simp only [LockedPool.atomic, Pool.outside, Pool.emptyNotified, if_pos hempty]
      rfl
    · rw [if_neg (fun h => hempty (List.isEmpty_iff.mp h))]
      simp only [LockedPool.atomic, Pool.outside, Pool.emptyNotified, if_neg hempty]
      rfl
  | unlock => exact .inl hatomic.symm

theorem follows_dispatcher {pc : DispatcherAt} (hlock : s.queueLock = some (.dispatcher pc)) :
    s.Follows (s.proceedDispatcher pc) := by
  have hat := hs.holder _ hlock
  have hatomic := LockedPool.atomic_of_lock hlock
  cases pc with
  | test => exact .inl hatomic.symm
  | sleep =>
    obtain ⟨hready, hempty, hdone⟩ := hat
    exact .of_moves hlock rfl (.dispatcherSleep hready hempty hdone)
  | check =>
    rw [LockedPool.proceedDispatcher]
    by_cases hleave : (s.done && s.tasks.isEmpty) = true
    · rw [if_pos hleave]
      rw [Bool.and_eq_true, List.isEmpty_iff] at hleave
      exact .of_moves hlock rfl (.dispatcherExit hat.1 hleave.2 hleave.1)
    · rw [if_neg hleave]
      exact .inl hatomic.symm
  | notify => exact .inl hatomic.symm
  | unlock => exact .of_moves hlock rfl (.dispatcherLoop hat.1 hat.2)

theorem follows_wait {c : Caller n} {pc : WaitAt} (hlock : s.queueLock = some (.wait c pc)) :
    s.Follows (s.proceedWait c pc) := by
  have hat := hs.holder _ hlock
  have hatomic := LockedPool.atomic_of_lock hlock
  cases pc with
  | test => exact .inl hatomic.symm
  | sleep =>
    obtain ⟨⟨before, hc⟩, htasks⟩ := hat
    have hmove := Moves.waitSleep c before hc htasks
    have hafter : (s.proceedWait c .sleep).atomic = s.setCaller c (.waiting before true) := by
      rw [LockedPool.proceedWait, hc]
      rfl
    rw [← hafter] at hmove
    exact .of_moves hlock rfl hmove
  | notify =>
    obtain ⟨⟨before, hc⟩, htasks⟩ := hat
    exact .of_moves hlock rfl (.waitReturn c before hc htasks)
  | unlock => exact .inl hatomic.symm

theorem follows_destructor {pc : DestructorAt} (hlock : s.queueLock = some (.destructor pc)) :
    s.Follows (s.proceedDestructor pc) := by
  have hat := hs.holder _ hlock
  have hatomic := LockedPool.atomic_of_lock hlock
  cases pc with
  | setDone => exact .of_moves hlock rfl (.setDone hat)
  | unlock => exact .inl hatomic.symm

theorem follows_unlocked {l : Label n} {t : Pool n} (hl : s.lockFree l = true)
    (hm : Moves s.toPool l t) : s.Follows ⟨t, s.queueLock⟩ := by
  have hfree := LockedPool.free_of_lockFree hl
  have hf := frame_of_moves hl hm
  have hdestroy : l = .destroy → s.destructor ≠ .entered := by
    rintro rfl
    exact (lockFree_destroy hl).1
  cases hlock : s.queueLock with
  | none =>
    right
    rw [LockedPool.atomic_of_free hlock]
    exact ⟨l, hm⟩
  | some h =>
    have hafter : (⟨t, some h⟩ : LockedPool n).atomic = t.outside h := rfl
    rw [LockedPool.Follows, LockedPool.atomic_of_lock hlock, hafter]
    cases h with
    | schedule origin callable pc =>
      obtain ⟨-, hcalled, -⟩ := hs.holder _ hlock
      have hstep : ∀ {p q : Pool n}, p.destructor = s.destructor → Moves p l q →
          q.uncalled origin = p.uncalled origin ∨
            ∃ k, Moves (p.uncalled origin) k (q.uncalled origin) := by
        intro p q hp hmoves
        rw [← hp] at hcalled hdestroy
        exact (moves_uncalled hfree hmoves origin hcalled hdestroy).imp_right fun h => ⟨l, h⟩
      cases pc with
      | push => exact hstep rfl hm
      | unlock => exact hstep rfl hm
      | notify =>
        have hseen : Moves s.unpushed l t.unpushed := by
          rw [Pool.unpushed, Pool.unpushed, hf.tasks, hf.scheduled]
          exact moves_seen hfree hm _ _ (fun _ => rfl) rfl
        exact hstep rfl hseen
    | worker i pc =>
      cases pc with
      | notify =>
        have hseen : Moves s.emptyNotified l t.emptyNotified := by
          rw [Pool.emptyNotified, Pool.emptyNotified, hf.tasks, hf.scheduled]
          refine moves_seen hfree hm _ _ (fun pc => ?_) ?_
          all_goals split <;> rfl
        exact .inr ⟨l, hseen⟩
      | test | sleep | check | pop | unlock => exact .inr ⟨l, hm⟩
    | dispatcher | wait | destructor => exact .inr ⟨l, hm⟩

end LockedPool.Sound

end statements

/-! ## The refinement -/

/-- **Every statement is one step of the pool, or none.** -/
theorem lockedSystem_refines (n : Nat) :
    (lockedSystem n).RefinesOn LockedPool.Sound (poolSystem n) LockedPool.atomic := by
  intro s l s' hs h
  have hfollows : s.Follows s' := by
    cases lockedMoves_of_step h with
    | lockSchedule origin callable hfree hmay =>
      left
      rw [LockedPool.atomic_of_free hfree]
      refine Pool.uncalled_eq ?_
      rintro rfl hd
      have hnot : s.destructor = .notCalled := hmay
      rw [hnot] at hd
      cases hd
    | lockWorker _ hfree | lockDispatcher hfree | relockWait _ _ hfree | lockDestructor hfree =>
      exact .inl (LockedPool.atomic_of_free hfree).symm
    | lockWait c hfree hidle hmay =>
      right
      rw [LockedPool.atomic_of_free hfree]
      exact ⟨_, .waitCall c hidle hmay⟩
    | proceed wake holder s' hlock hs' =>
      cases holder with
      | schedule origin callable pc => exact hs.follows_schedule hlock hs'
      | worker i pc => exact Option.some.inj hs' ▸ hs.follows_worker hlock
      | dispatcher pc => exact Option.some.inj hs' ▸ hs.follows_dispatcher hlock
      | wait c pc => exact Option.some.inj hs' ▸ hs.follows_wait hlock
      | destructor pc => exact Option.some.inj hs' ▸ hs.follows_destructor hlock
    | unlocked l t hl hmoves => exact hs.follows_unlocked hl hmoves
  exact hfollows.imp_right fun ⟨k, hk⟩ => ⟨k, step_of_moves hk⟩

/-- **A run of statements is a run of the pool.** -/
theorem run_atomic {ls : List (LockedLabel n)} {s : LockedPool n}
    (h : (lockedSystem n).run (LockedPool.init n) ls = some s) :
    ∃ ks, (poolSystem n).run (Pool.init n) ks = some s.atomic :=
  (lockedSystem_refines n).run _ sound_step (sound_init n) h

/-- So what holds in every run of the pool holds between the sections: the history of the
tasks is complete. -/
theorem recorded_of_locked_run {ls : List (LockedLabel n)} {s : LockedPool n}
    (h : (lockedSystem n).run (LockedPool.init n) ls = some s) : s.atomic.Recorded := by
  obtain ⟨ks, hks⟩ := run_atomic h
  exact (poolSystem n).run_invariant recorded_step (recorded_init n) hks

end Acso.ThreadPool
