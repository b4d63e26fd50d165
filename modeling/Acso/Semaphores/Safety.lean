import Acso.Lib.Permits
import Acso.Lib.Traces
import Acso.Semaphores.Model

/-!
# What the semaphore guarantees

`Semaphore.Sound` is what holds between any two statements: the mutex is with the thread that
is inside its section, a thread about to decrement `count_` finds it positive, and a thread
that sleeps although it is positive is about to be woken up.

* `semaphore_traces`: the statements on `count_` take and give permits, one at a time and
  never one that is not there, so `count_` and what the threads hold add up to what the
  constructor was given.
* `no_lost_wakeUp`: when the mutex is free and `count_` is positive, nobody sleeps.
* `holders_le_count`: threads that call `wait` before and `signal` after are never more than
  `count` between the two, so with `Semaphore(1)` they exclude each other.
-/

namespace Acso.Semaphores

open Acso.Lib

variable {n : Nat}

@[simp] theorem wake_locked (pc : ThreadPc) : pc.wake.locked = pc.locked := by
  cases pc with
  | wait pc => cases pc <;> rfl
  | _ => rfl

/-- Waking up all threads moves only those that sleep. -/
theorem wake_cases (pc : ThreadPc) :
    (pc ≠ .wait .asleep ∧ pc.wake = pc) ∨ (pc = .wait .asleep ∧ pc.wake = .wait .relock) := by
  cases pc with
  | wait pc => cases pc <;> simp [ThreadPc.wake]
  | _ => simp [ThreadPc.wake]

theorem wake_ne_asleep (pc : ThreadPc) : pc.wake ≠ .wait .asleep := by
  rcases wake_cases pc with ⟨hne, heq⟩ | ⟨-, heq⟩
  · rwa [heq]
  · rw [heq]
    simp

/-- Only a sleeping thread is moved, and it does not stop at these statements. -/
theorem of_wake_eq {pc pc' : ThreadPc} (h : pc.wake = pc') (hne : pc' ≠ .wait .relock) :
    pc = pc' := by
  rcases wake_cases pc with ⟨-, heq⟩ | ⟨-, heq⟩
  · exact heq.symm.trans h
  · exact absurd (h.symm.trans heq) hne

/-! ## The mutex -/

/-- The mutex is with the one thread that is inside its section. -/
def MutexAgrees (mutex : Option (Fin n)) (threads : Fin n → ThreadPc) : Prop :=
  ∀ i, mutex = some i ↔ (threads i).locked = true

namespace MutexAgrees

variable {mutex : Option (Fin n)} {threads : Fin n → ThreadPc} {i : Fin n} {pc : ThreadPc}

theorem keep (h : MutexAgrees mutex threads) (hpc : pc.locked = (threads i).locked) :
    MutexAgrees mutex (Function.update threads i pc) := by
  intro j
  rw [h j, Function.update_apply]
  split
  · rename_i hj
    rw [hpc, hj]
  · rfl

theorem lock (h : MutexAgrees none threads) (hpc : pc.locked = true) :
    MutexAgrees (some i) (Function.update threads i pc) := by
  intro j
  rw [Function.update_apply]
  split
  · rename_i hj
    rw [hj]
    exact iff_of_true rfl hpc
  · rename_i hj
    refine iff_of_false (fun heq => hj (Option.some.inj heq).symm) fun hlocked => ?_
    cases (h j).mpr hlocked

theorem unlock (h : MutexAgrees mutex threads) (hi : (threads i).locked = true)
    (hpc : pc.locked = false) : MutexAgrees none (Function.update threads i pc) := by
  intro j
  rw [Function.update_apply]
  refine iff_of_false (by simp) ?_
  split
  · simp [hpc]
  · rename_i hj
    intro hlocked
    have hboth := ((h j).mpr hlocked).symm.trans ((h i).mpr hi)
    exact hj (Option.some.inj hboth)

theorem wake (h : MutexAgrees mutex threads) :
    MutexAgrees mutex (fun i => (threads i).wake) := by
  intro j
  rw [h j, wake_locked]

/-- Two threads inside their sections are one. -/
theorem unique (h : MutexAgrees mutex threads) {j : Fin n} (hi : (threads i).locked = true)
    (hj : (threads j).locked = true) : j = i :=
  Option.some.inj (((h j).mpr hj).symm.trans ((h i).mpr hi))

end MutexAgrees

/-! ## The invariant -/

structure Semaphore.Sound (s : Semaphore n) : Prop where
  mutex : MutexAgrees s.mutex s.threads
  counting : ∀ i, s.threads i = .wait .count → 0 < s.count
  failed : ∀ i, s.threads i = .wait .sleep → ¬ 0 < s.count
  /-- A thread sleeps because there is no permit, or it is about to be woken up. -/
  sleepers : ∀ i, s.threads i = .wait .asleep →
    ¬ 0 < s.count ∨ ∃ j, s.threads j = .signal .notify

theorem sound_init (n : Nat) (count : Int) : (Semaphore.init n count).Sound where
  mutex := fun _ => iff_of_false (fun h => nomatch h) (by simp [Semaphore.init, ThreadPc.locked])
  counting := fun _ h => nomatch h
  failed := fun _ h => nomatch h
  sleepers := fun _ h => nomatch h

section step

variable {s : Semaphore n}

theorem threads_setThread (s : Semaphore n) (i j : Fin n) (pc : ThreadPc) :
    (s.setThread i pc).threads j = if j = i then pc else s.threads j :=
  Function.update_apply s.threads i pc j

/-- After thread `i` has moved to `pc`, a thread at another statement has not moved. -/
theorem of_setThread {i j : Fin n} {pc pc' : ThreadPc} (h : (s.setThread i pc).threads j = pc')
    (hne : pc ≠ pc') : j ≠ i ∧ s.threads j = pc' := by
  rw [threads_setThread] at h
  split at h
  · exact absurd h hne
  · rename_i hj
    exact ⟨hj, h⟩

/-- The thread that gives notice is the one that holds the mutex. -/
theorem Semaphore.Sound.not_notifying (hs : s.Sound) {i : Fin n}
    (hi : (s.threads i).locked = true) (hne : s.threads i ≠ .signal .notify) (j : Fin n) :
    s.threads j ≠ .signal .notify := by
  intro hj
  have heq := hs.mutex.unique hi (j := j) (by rw [hj]; rfl)
  exact hne (heq ▸ hj)

/-- A move of one thread that changes neither `count_` nor the mutex it holds. -/
theorem Semaphore.Sound.goTo (hs : s.Sound) {i : Fin n} {pc : ThreadPc} {mutex : Option (Fin n)}
    (hmutex : MutexAgrees mutex (s.setThread i pc).threads)
    (hcount : pc = .wait .count → 0 < s.count) (hsleep : pc = .wait .sleep → ¬ 0 < s.count)
    (hasleep : pc = .wait .asleep → ¬ 0 < s.count) (hnotify : s.threads i ≠ .signal .notify) :
    ({ s.setThread i pc with mutex := mutex } : Semaphore n).Sound where
  mutex := hmutex
  counting := by
    intro j hj
    by_cases hpc : pc = .wait .count
    · exact hcount hpc
    · exact hs.counting j (of_setThread hj hpc).2
  failed := by
    intro j hj
    by_cases hpc : pc = .wait .sleep
    · exact hsleep hpc
    · exact hs.failed j (of_setThread hj hpc).2
  sleepers := by
    intro j hj
    by_cases hpc : pc = .wait .asleep
    · exact .inl (hasleep hpc)
    · refine (hs.sleepers j (of_setThread hj hpc).2).imp_right ?_
      rintro ⟨k, hk⟩
      refine ⟨k, ?_⟩
      have hki : k ≠ i := by
        rintro rfl
        exact hnotify hk
      rw [← hk]
      exact (threads_setThread s i k pc).trans (if_neg hki)

/-- **Every step keeps the invariant.** -/
theorem sound_step (s : Semaphore n) (l : Label n) (s' : Semaphore n) (hs : s.Sound)
    (h : (semaphoreSystem n).step s l = some s') : s'.Sound := by
  cases moves_of_step h with
  | enters l i pc pc' hl hi =>
    have hkeep : MutexAgrees s.mutex (Function.update s.threads i pc') :=
      hs.mutex.keep (by rw [hi]; cases hl <;> rfl)
    refine hs.goTo hkeep ?_ ?_ ?_ ?_
    all_goals
      rw [hi] at *
      cases hl <;> simp
  | lock i pc pc' hpc hi hfree =>
    have hmutex := hs.mutex
    rw [hfree] at hmutex
    refine hs.goTo (hmutex.lock ?_) ?_ ?_ ?_ ?_
    all_goals
      rw [hi] at *
      cases hpc <;> simp [ThreadPc.locked]
  | unlock i pc pc' hpc hi =>
    have hlocked : (s.threads i).locked = true := by
      rw [hi]
      cases hpc <;> rfl
    refine hs.goTo (hs.mutex.unlock hlocked ?_) ?_ ?_ ?_ ?_
    · cases hpc <;> rfl
    · cases hpc <;> simp
    · cases hpc <;> simp
    · intro hasleep
      cases hpc with
      | sleep => exact hs.failed i hi
      | _ => cases hasleep
    · rw [hi]
      cases hpc <;> simp
  | give i hi =>
    have hlocked : (s.threads i).locked = true := by rw [hi]; rfl
    exact {
      mutex := hs.mutex.keep (by rw [hi]; rfl)
      counting := by
        intro j hj
        obtain ⟨hne, hj⟩ := of_setThread (s := s.addCount i 1) hj (by simp)
        have hboth := hs.mutex.unique hlocked (j := j) (by rw [show s.threads j = _ from hj]; rfl)
        exact absurd hboth hne
      failed := by
        intro j hj
        obtain ⟨hne, hj⟩ := of_setThread (s := s.addCount i 1) hj (by simp)
        have hboth := hs.mutex.unique hlocked (j := j) (by rw [show s.threads j = _ from hj]; rfl)
        exact absurd hboth hne
      sleepers := fun j _ => .inr ⟨i, (threads_setThread _ i i _).trans (if_pos rfl)⟩ }
  | notify i hi =>
    have hwoken : ∀ {j pc'}, (s.notifyAll.setThread i (.signal .unlock)).threads j = pc' →
        pc' ≠ .signal .unlock → pc' ≠ .wait .relock → s.threads j = pc' := by
      intro j pc' hj hunlock hrelock
      exact of_wake_eq (of_setThread (s := s.notifyAll) hj hunlock.symm).2 hrelock
    exact {
      mutex := hs.mutex.wake.keep (by rw [wake_locked, hi]; rfl)
      counting := fun j hj => hs.counting j (hwoken hj (by simp) (by simp))
      failed := fun j hj => hs.failed j (hwoken hj (by simp) (by simp))
      sleepers := by
        intro j hj
        have hwake := (of_setThread (s := s.notifyAll) hj (by simp)).2
        exact absurd hwake (wake_ne_asleep _) }
  | pass i hi hcount =>
    have hkeep : MutexAgrees s.mutex (Function.update s.threads i (.wait .count)) :=
      hs.mutex.keep (by rw [hi]; rfl)
    refine hs.goTo hkeep (fun _ => hcount) ?_ ?_ ?_
    all_goals simp [hi]
  | fail i hi hcount =>
    have hkeep : MutexAgrees s.mutex (Function.update s.threads i (.wait .sleep)) :=
      hs.mutex.keep (by rw [hi]; rfl)
    refine hs.goTo hkeep ?_ (fun _ => hcount) ?_ ?_
    all_goals simp [hi]
  | take i hi =>
    have hlocked : (s.threads i).locked = true := by rw [hi]; rfl
    have hother : ∀ j, j ≠ i → (s.threads j).locked = false := by
      intro j hne
      by_contra hj
      exact hne (hs.mutex.unique hlocked (by simpa using hj))
    have hpos := hs.counting i hi
    exact {
      mutex := hs.mutex.keep (by rw [hi]; rfl)
      counting := by
        intro j hj
        obtain ⟨hne, hj⟩ := of_setThread (s := s.addCount i (-1)) hj (by simp)
        have hunlocked := hother j hne
        rw [show s.threads j = _ from hj] at hunlocked
        cases hunlocked
      failed := by
        intro j hj
        obtain ⟨hne, hj⟩ := of_setThread (s := s.addCount i (-1)) hj (by simp)
        have hunlocked := hother j hne
        rw [show s.threads j = _ from hj] at hunlocked
        cases hunlocked
      sleepers := by
        intro j hj
        obtain ⟨hne, hj⟩ := of_setThread (s := s.addCount i (-1)) hj (by simp)
        rcases hs.sleepers j hj with hcount | ⟨k, hk⟩
        · exact absurd hpos hcount
        · exact absurd hk (hs.not_notifying hlocked (by rw [hi]; simp) k) }

end step

/-- What every run has reached is sound. -/
theorem sound_run {count : Int} {ls : List (Label n)} {s : Semaphore n}
    (h : (semaphoreSystem n).run (.init n count) ls = some s) : s.Sound :=
  (semaphoreSystem n).run_invariant sound_step (sound_init n count) h

/-! ## Permits -/

def Semaphore.permits (s : Semaphore n) : Permits n := ⟨s.count, s.held⟩

/-- What a step does to the permits. -/
def Semaphore.counts (s : Semaphore n) : Label n → List (Permits.Event n)
  | .next i =>
    match s.threads i with
    | .signal .count => [.give i]
    | .wait .count => [.take i]
    | _ => []
  | _ => []

/-- **Each statement** takes a permit that is there, gives one, or leaves them alone. -/
theorem semaphore_traces : (semaphoreSystem n).Traces Semaphore.Sound (Permits.system n)
    Semaphore.permits Semaphore.counts := by
  intro s l s' hs h
  cases moves_of_step h with
  | enters l i pc pc' hl hi => cases hl <;> rfl
  | lock i pc pc' hpc hi hfree => cases hpc <;> simp only [Semaphore.counts, hi] <;> rfl
  | unlock i pc pc' hpc hi => cases hpc <;> simp only [Semaphore.counts, hi] <;> rfl
  | give i hi =>
    simp only [Semaphore.counts, hi]
    rw [(Permits.system n).run_cons_eq_some]
    refine ⟨s.permits.move i (-1), rfl, congrArg some ?_⟩
    show (⟨s.count - -1, _⟩ : Permits n) = ⟨s.count + 1, _⟩
    rw [Int.sub_neg]
    rfl
  | notify i hi =>
    simp only [Semaphore.counts, hi]
    rfl
  | pass i hi hcount =>
    simp only [Semaphore.counts, hi]
    rfl
  | fail i hi hcount =>
    simp only [Semaphore.counts, hi]
    rfl
  | take i hi =>
    simp only [Semaphore.counts, hi]
    rw [(Permits.system n).run_cons_eq_some]
    refine ⟨s.permits.move i 1, if_pos (hs.counting i hi), congrArg some ?_⟩
    show (⟨s.count - 1, Function.update s.held i (s.held i + 1)⟩ : Permits n) =
      ⟨s.count + -1, Function.update s.held i (s.held i - -1)⟩
    rw [Int.sub_neg, Int.sub_eq_add_neg]

section run

variable {count : Int} {ls : List (Label n)} {s : Semaphore n}

theorem permits_run (h : (semaphoreSystem n).run (.init n count) ls = some s) :
    (Permits.system n).run (.init n count)
      ((semaphoreSystem n).log Semaphore.counts (.init n count) ls) = some s.permits :=
  semaphore_traces.run sound_step (sound_init n count) h

theorem count_add_held (h : (semaphoreSystem n).run (.init n count) ls = some s) :
    s.count + ∑ i, s.held i = count :=
  (Permits.total_run (permits_run h)).trans (Permits.total_init n count)

theorem count_nonneg (hcount : 0 ≤ count)
    (h : (semaphoreSystem n).run (.init n count) ls = some s) : 0 ≤ s.count :=
  Permits.free_nonneg_run hcount (permits_run h)

end run

/-- **`count_` counts permits.**  What a run does to `count_` is a run of `Permits`, so
`count_` and what the threads hold add up to what the constructor was given, and `count_` is
never negative unless it began so. -/
theorem semaphore_permits (count : Int) (ls : List (Label n)) (s : Semaphore n)
    (h : (semaphoreSystem n).run (.init n count) ls = some s) :
    (Permits.system n).run (.init n count)
        ((semaphoreSystem n).log Semaphore.counts (.init n count) ls) = some s.permits ∧
      s.count + ∑ i, s.held i = count ∧ (0 ≤ count → 0 ≤ s.count) :=
  ⟨permits_run h, count_add_held h, fun hcount => count_nonneg hcount h⟩

/-- Thread `i` waits and goes to sleep, and thread `j` increments `count_`. -/
def handOver (i j : Fin n) : List (Label n) :=
  [.callWait i, .next i, .next i, .next i, .callSignal j, .next j, .next j]

theorem handOver_permits :
    ∃ s, (semaphoreSystem 2).run (.init 2 0) (handOver 0 1) = some s ∧ s.count + ∑ i, s.held i = 0 :=
  ⟨_, rfl, (semaphore_permits 0 (handOver 0 1) _ rfl).2.1⟩

/-! ## Wake-ups -/

/-- **No lost wake-up.**  In every state of every run, a thread that sleeps while `count_` is
positive is about to be woken up by the thread that holds the mutex; so while the mutex is
free and `count_` positive, nobody sleeps. -/
theorem no_lost_wakeUp (count : Int) (ls : List (Label n)) (s : Semaphore n)
    (h : (semaphoreSystem n).run (.init n count) ls = some s) (i : Fin n)
    (hi : s.threads i = .wait .asleep) (hcount : 0 < s.count) :
    ∃ j, s.mutex = some j ∧ s.threads j = .signal .notify := by
  have hs := sound_run h
  obtain ⟨j, hj⟩ := (hs.sleepers i hi).resolve_left (not_not_intro hcount)
  exact ⟨j, (hs.mutex j).mpr (by rw [hj]; rfl), hj⟩

theorem handOver_wakes :
    ∃ s, (semaphoreSystem 2).run (.init 2 0) (handOver 0 1) = some s ∧
      ∃ j, s.mutex = some j ∧ s.threads j = .signal .notify :=
  ⟨_, rfl, no_lost_wakeUp 0 (handOver 0 1) _ rfl 0 (by decide) (by decide)⟩

/-! ## Exclusion -/

/-- A thread calls `signal` only for a permit it has taken. -/
def Disciplined (s : Semaphore n) : Label n → Prop
  | .callSignal i => 0 < s.held i
  | _ => True

instance (s : Semaphore n) : DecidablePred (Disciplined s)
  | .callSignal i => inferInstanceAs (Decidable (0 < s.held i))
  | .callWait _ => isTrue trivial
  | .next _ => isTrue trivial
  | .spurious _ => isTrue trivial

/-- Nobody has given more than taken, and who is about to give has a permit. -/
structure Semaphore.Owed (s : Semaphore n) : Prop where
  held : ∀ i, 0 ≤ s.held i
  signal : ∀ i, s.threads i = .signal .lock ∨ s.threads i = .signal .count → 0 < s.held i

theorem owed_init (n : Nat) (count : Int) : (Semaphore.init n count).Owed where
  held := fun _ => le_refl _
  signal := fun _ h => h.elim nofun nofun

/-- A move of one thread that takes or gives nothing. -/
theorem Semaphore.Owed.goTo {s t : Semaphore n} (hs : s.Owed) {i : Fin n} {pc : ThreadPc}
    (hheld : t.held = s.held) (hthreads : t.threads = (s.setThread i pc).threads)
    (hi : pc = .signal .lock ∨ pc = .signal .count → 0 < s.held i) : t.Owed where
  held := by
    rw [hheld]
    exact hs.held
  signal := by
    intro j hj
    rw [hthreads, threads_setThread] at hj
    rw [hheld]
    split at hj
    · rename_i heq
      rw [heq]
      exact hi hj
    · exact hs.signal j hj

theorem owed_step (s : Semaphore n) (l : Label n) (s' : Semaphore n) (hs : s.Owed)
    (hl : Disciplined s l) (h : (semaphoreSystem n).step s l = some s') : s'.Owed := by
  cases moves_of_step h with
  | enters l i pc pc' hl' hi =>
    refine hs.goTo rfl rfl fun hpc => ?_
    cases hl' with
    | signal => exact hl
    | wait => simp at hpc
    | spurious => simp at hpc
  | lock i pc pc' hpc hi hfree =>
    refine hs.goTo rfl rfl fun hpc' => ?_
    cases hpc with
    | signal => exact hs.signal i (.inl hi)
    | wait => simp at hpc'
    | relock => simp at hpc'
  | unlock i pc pc' hpc hi =>
    refine hs.goTo rfl rfl fun hpc' => ?_
    cases hpc <;> simp at hpc'
  | give i hi =>
    have hpos := hs.signal i (.inr hi)
    refine ⟨fun j => ?_, fun j hj => ?_⟩
    · show 0 ≤ Function.update s.held i (s.held i - 1) j
      rw [Function.update_apply]
      have hj := hs.held j
      split <;> omega
    · rw [threads_setThread] at hj
      split at hj
      · simp at hj
      · rename_i hne
        show 0 < Function.update s.held i (s.held i - 1) j
        rw [Function.update_of_ne hne]
        exact hs.signal j hj
  | notify i hi =>
    refine ⟨hs.held, fun j hj => ?_⟩
    rw [threads_setThread] at hj
    split at hj
    · simp at hj
    · exact hs.signal j
        (hj.imp (fun h => of_wake_eq h (by simp)) fun h => of_wake_eq h (by simp))
  | pass i hi hcount => exact hs.goTo rfl rfl (by simp)
  | fail i hi hcount => exact hs.goTo rfl rfl (by simp)
  | take i hi =>
    have hmore : ∀ j, s.held j ≤ Function.update s.held i (s.held i - -1) j := by
      intro j
      rw [Function.update_apply]
      split
      · rename_i hj
        rw [hj]
        omega
      · exact le_refl _
    refine ⟨fun j => (hs.held j).trans (hmore j), fun j hj => ?_⟩
    rw [threads_setThread] at hj
    split at hj
    · simp at hj
    · exact (hs.signal j hj).trans_le (hmore j)

/-- **No more holders than permits.**  If threads call `signal` only for a permit they have
taken, then in every state at most `count` threads have one. -/
theorem holders_le_count (count : Nat) (ls : List (Label n))
    (hdisc : (semaphoreSystem n).Along Disciplined (.init n count) ls) (s : Semaphore n)
    (h : (semaphoreSystem n).run (.init n count) ls = some s) (holders : Finset (Fin n))
    (hheld : ∀ i ∈ holders, 0 < s.held i) : holders.card ≤ count := by
  have howed := (semaphoreSystem n).along_run owed_step (owed_init n count) hdisc h
  have hcard := Permits.holders_le_total (p := s.permits)
    (count_nonneg (Int.natCast_nonneg count) h) howed.held holders hheld
  rw [show s.permits.total = count from count_add_held h] at hcard
  exact Int.ofNat_le.mp hcard

/-- Thread `i` takes the one permit, gives it back and takes it again, and `j` waits. -/
def takeTwice (i j : Fin n) : List (Label n) :=
  [.callWait i, .next i, .next i, .next i, .next i, .callSignal i, .next i, .next i, .next i,
    .next i, .callWait i, .next i, .next i, .next i, .callWait j]

theorem takeTwice_excludes :
    ∃ s, (semaphoreSystem 2).run (.init 2 1) (takeTwice 0 1) = some s ∧ 0 < s.held 0 ∧
      ({0} : Finset (Fin 2)).card ≤ 1 :=
  ⟨_, rfl, by decide, holders_le_count 1 (takeTwice 0 1) (by decide) _ rfl {0} (by decide)⟩

end Acso.Semaphores
