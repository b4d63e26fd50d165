import Acso.Lib.Tally
import Acso.Semaphores.Safety

/-!
# The semaphore comes to rest

Threads inside `signal` and `wait` that nobody disturbs by new calls come to rest after a
bounded number of statements (`work_next`): every statement is nearer to the end of its call,
and `notify_all`, which sends sleepers back to the mutex, comes once in a call.  They rest
outside or asleep in `wait` (`settled_iff`), and `balance`, which no statement changes, says
how many sleep (`semaphore_settles`).
-/

namespace Acso.Semaphores

open Acso.Lib

variable {n : Nat}

/-- `1` if the thread is about to give a permit, else `0`. -/
def ThreadPc.gives : ThreadPc → Nat
  | .signal .lock | .signal .count => 1
  | _ => 0

/-- `1` if the thread is about to take a permit, else `0`. -/
def ThreadPc.takes : ThreadPc → Nat
  | .outside | .signal _ | .wait .unlock => 0
  | .wait _ => 1

/-- `1` if the thread sleeps, else `0`. -/
def ThreadPc.sleeps : ThreadPc → Nat
  | .wait .asleep => 1
  | _ => 0

/-- The permits there will be less those that will be asked for. -/
def Semaphore.balance (s : Semaphore n) : Int :=
  s.count + tally ThreadPc.gives s.threads - tally ThreadPc.takes s.threads

/-- How many statements are left to a thread at most, where a notification counts for what it
makes the `n` threads repeat. -/
def ThreadPc.work (n : Nat) : ThreadPc → Nat
  | .outside => 0
  | .signal .lock => n * 4 + 4
  | .signal .count => n * 4 + 3
  | .signal .notify => n * 4 + 2
  | .signal .unlock => 1
  | .wait .lock => 4
  | .wait .test => 3
  | .wait .sleep => 1
  | .wait .asleep => 0
  | .wait .relock => 4
  | .wait .count => 2
  | .wait .unlock => 1

def Semaphore.work (s : Semaphore n) : Nat := tally (ThreadPc.work n) s.threads

/-- Nobody inside can go on. -/
def Semaphore.Settled (s : Semaphore n) : Prop := ∀ i, s.next i = none

instance (s : Semaphore n) : Decidable s.Settled :=
  decidable_of_iff (∀ i, (s.next i).isNone = true) (forall_congr' fun _ => Option.isNone_iff_eq_none)

/-! ## One statement -/

section next

variable {s s' : Semaphore n} {i : Fin n}

theorem tally_wake {p : ThreadPc → Nat} (hp : ∀ pc : ThreadPc, p pc.wake = p pc)
    (s : Semaphore n) : tally p s.notifyAll.threads = tally p s.threads :=
  tally_congr fun i => hp (s.threads i)

theorem gives_wake (pc : ThreadPc) : pc.wake.gives = pc.gives := by
  rcases wake_cases pc with ⟨-, heq⟩ | ⟨hpc, heq⟩
  · rw [heq]
  · rw [heq, hpc]
    rfl

theorem takes_wake (pc : ThreadPc) : pc.wake.takes = pc.takes := by
  rcases wake_cases pc with ⟨-, heq⟩ | ⟨hpc, heq⟩
  · rw [heq]
  · rw [heq, hpc]
    rfl

theorem work_wake (pc : ThreadPc) : pc.wake.work n ≤ pc.work n + 4 := by
  rcases wake_cases pc with ⟨-, heq⟩ | ⟨hpc, heq⟩
  · rw [heq]
    exact Nat.le_add_right _ _
  · rw [heq, hpc]
    exact le_refl _

/-- The balance after a move of one thread. -/
theorem balance_setThread (s : Semaphore n) (i : Fin n) (pc : ThreadPc) :
    (s.setThread i pc).balance + (s.threads i).gives - (s.threads i).takes =
      s.balance + pc.gives - pc.takes := by
  have hgives := tally_update ThreadPc.gives s.threads i pc
  have htakes := tally_update ThreadPc.takes s.threads i pc
  simp only [Semaphore.balance, Semaphore.setThread]
  omega

theorem balance_addCount (s : Semaphore n) (i : Fin n) (d : Int) :
    (s.addCount i d).balance = s.balance + d := by
  simp only [Semaphore.balance, Semaphore.addCount]
  omega

/-- **A statement changes `count_` by what its thread was about to give or take.** -/
theorem balance_next (h : s.next i = some s') : s'.balance = s.balance := by
  have hmove := fun pc => balance_setThread s i pc
  cases moves_of_next h with
  | enters _ _ _ _ hl => cases hl
  | lock _ pc pc' hpc hi hfree =>
    have hpc' := hmove pc'
    rw [hi] at hpc'
    show (s.setThread i pc').balance = _
    cases hpc <;> simp only [ThreadPc.gives, ThreadPc.takes] at hpc' <;> omega
  | unlock _ pc pc' hpc hi =>
    have hpc' := hmove pc'
    rw [hi] at hpc'
    show (s.setThread i pc').balance = _
    cases hpc <;> simp only [ThreadPc.gives, ThreadPc.takes] at hpc' <;> omega
  | give _ hi =>
    have hpc := balance_setThread (s.addCount i 1) i (.signal .notify)
    rw [balance_addCount, show (s.addCount i 1).threads i = _ from hi] at hpc
    simp only [ThreadPc.gives, ThreadPc.takes] at hpc
    omega
  | notify _ hi =>
    have hpc := balance_setThread s.notifyAll i (.signal .unlock)
    have hwoken : s.notifyAll.balance = s.balance := by
      simp only [Semaphore.balance, tally_wake gives_wake, tally_wake takes_wake]
      rfl
    rw [hwoken, show s.notifyAll.threads i = _ from congrArg ThreadPc.wake hi] at hpc
    simp only [ThreadPc.wake, ThreadPc.gives, ThreadPc.takes] at hpc
    omega
  | pass _ hi hcount =>
    have hpc := hmove (.wait .count)
    rw [hi] at hpc
    simp only [ThreadPc.gives, ThreadPc.takes] at hpc
    omega
  | fail _ hi hcount =>
    have hpc := hmove (.wait .sleep)
    rw [hi] at hpc
    simp only [ThreadPc.gives, ThreadPc.takes] at hpc
    omega
  | take _ hi =>
    have hpc := balance_setThread (s.addCount i (-1)) i (.wait .unlock)
    rw [balance_addCount, show (s.addCount i (-1)).threads i = _ from hi] at hpc
    simp only [ThreadPc.gives, ThreadPc.takes] at hpc
    omega

theorem work_setThread (s : Semaphore n) (i : Fin n) (pc : ThreadPc) :
    (s.setThread i pc).work + (s.threads i).work n = s.work + pc.work n :=
  tally_update (ThreadPc.work n) s.threads i pc

/-- **Every statement leaves less to do.** -/
theorem work_next (h : s.next i = some s') : s'.work < s.work := by
  have hmove := fun pc => work_setThread s i pc
  cases moves_of_next h with
  | enters _ _ _ _ hl => cases hl
  | lock _ pc pc' hpc hi hfree =>
    have hpc' := hmove pc'
    rw [hi] at hpc'
    show (s.setThread i pc').work < _
    cases hpc <;> simp only [ThreadPc.work] at hpc' <;> omega
  | unlock _ pc pc' hpc hi =>
    have hpc' := hmove pc'
    rw [hi] at hpc'
    show (s.setThread i pc').work < _
    cases hpc <;> simp only [ThreadPc.work] at hpc' <;> omega
  | give _ hi =>
    have hpc := hmove (.signal .notify)
    rw [hi] at hpc
    show (s.setThread i (.signal .notify)).work < _
    simp only [ThreadPc.work] at hpc
    omega
  | notify _ hi =>
    have hpc := work_setThread s.notifyAll i (.signal .unlock)
    have hwoken : s.notifyAll.work ≤ s.work + n * 4 := tally_le_add fun j => work_wake (s.threads j)
    rw [show s.notifyAll.threads i = _ from congrArg ThreadPc.wake hi] at hpc
    simp only [ThreadPc.wake, ThreadPc.work] at hpc
    omega
  | pass _ hi hcount =>
    have hpc := hmove (.wait .count)
    rw [hi] at hpc
    simp only [ThreadPc.work] at hpc
    omega
  | fail _ hi hcount =>
    have hpc := hmove (.wait .sleep)
    rw [hi] at hpc
    simp only [ThreadPc.work] at hpc
    omega
  | take _ hi =>
    have hpc := hmove (.wait .unlock)
    rw [hi] at hpc
    show (s.setThread i (.wait .unlock)).work < _
    simp only [ThreadPc.work] at hpc
    omega

/-- A thread that holds the mutex can go on. -/
theorem next_of_locked (hi : (s.threads i).locked = true) : s.next i ≠ none := by
  rw [Semaphore.next]
  split <;> simp_all [ThreadPc.locked]

/-- A thread that waits for the mutex can go on if it is free. -/
theorem next_of_free (hfree : s.mutex = none) (hout : s.threads i ≠ .outside)
    (hawake : s.threads i ≠ .wait .asleep) : s.next i ≠ none := by
  rw [Semaphore.next]
  split <;> simp_all [Semaphore.lock]

/-- **Where nobody can go on**, everybody is outside or asleep. -/
theorem settled_iff (hs : s.Sound) :
    s.Settled ↔ ∀ i, s.threads i = .outside ∨ s.threads i = .wait .asleep := by
  constructor
  · intro hsettled i
    have hfree : s.mutex = none := by
      cases hmutex : s.mutex with
      | none => rfl
      | some j => exact absurd (hsettled j) (next_of_locked ((hs.mutex j).mp hmutex))
    by_contra hi
    rw [not_or] at hi
    exact next_of_free hfree hi.1 hi.2 (hsettled i)
  · intro hrest i
    rw [Semaphore.next]
    rcases hrest i with hi | hi <;> rw [hi]

end next

/-! ## Runs of statements -/

theorem run_next {s t : Semaphore n} {is : List (Fin n)}
    (h : (semaphoreSystem n).run s (is.map .next) = some t) :
    is.length + t.work ≤ s.work ∧ t.balance = s.balance := by
  induction is generalizing s with
  | nil =>
    obtain rfl := Option.some.inj h
    exact ⟨by simp, rfl⟩
  | cons i is ih =>
    obtain ⟨s', hs', ht⟩ := (semaphoreSystem n).run_cons_eq_some.mp h
    obtain ⟨hlength, hbalance⟩ := ih ht
    have hless := work_next hs'
    refine ⟨?_, hbalance.trans (balance_next hs')⟩
    rw [List.length_cons]
    omega

theorem exists_settled (s : Semaphore n) :
    ∃ (is : List (Fin n)) (t : Semaphore n),
      (semaphoreSystem n).run s (is.map .next) = some t ∧ t.Settled := by
  induction hwork : s.work using Nat.strong_induction_on generalizing s with
  | _ k ih =>
    by_cases hsettled : s.Settled
    · exact ⟨[], s, rfl, hsettled⟩
    · obtain ⟨i, hi⟩ := not_forall.mp hsettled
      obtain ⟨s', hs'⟩ := Option.ne_none_iff_exists'.mp hi
      obtain ⟨is, t, ht, hrest⟩ := ih _ (hwork ▸ work_next hs') s' rfl
      exact ⟨i :: is, t, (semaphoreSystem n).run_cons_eq_some.mpr ⟨s', hs', ht⟩, hrest⟩

/-- At rest, the balance is what is left, or what is missing. -/
theorem balance_of_settled {s : Semaphore n} (hs : s.Sound) (hcount : 0 ≤ s.count)
    (hsettled : s.Settled) :
    s.count = max 0 s.balance ∧ (tally ThreadPc.sleeps s.threads : Int) = max 0 (-s.balance) := by
  have hrest := (settled_iff hs).mp hsettled
  have hgives : tally ThreadPc.gives s.threads = 0 := by
    refine tally_eq_zero.mpr fun i => ?_
    rcases hrest i with hi | hi <;> rw [hi] <;> rfl
  have htakes : tally ThreadPc.takes s.threads = tally ThreadPc.sleeps s.threads := by
    refine Finset.sum_congr rfl fun i _ => ?_
    rcases hrest i with hi | hi <;> rw [hi] <;> rfl
  have hempty : 0 < s.count → tally ThreadPc.sleeps s.threads = 0 := by
    intro hpos
    refine tally_eq_zero.mpr fun i => ?_
    rcases hrest i with hi | hi
    · rw [hi]
      rfl
    · obtain ⟨j, hj⟩ := (hs.sleepers i hi).resolve_left (not_not_intro hpos)
      rcases hrest j with hj' | hj' <;> rw [hj'] at hj <;> cases hj
  rw [Semaphore.balance, hgives, htakes]
  omega

/-- **The semaphore comes to rest, and in the right place.**  From every state of every run, and
without new calls and spurious wake-ups, there is a schedule after which no thread can go on, and
no schedule is longer than `work`.  Whichever it was, nobody is left inside but sleepers; and they
are none if `count_`, with what is about to be given, is enough for all who wait, else exactly as
many as it is short of. -/
theorem semaphore_settles (count : Nat) (ls : List (Label n)) (s : Semaphore n)
    (h : (semaphoreSystem n).run (.init n count) ls = some s) :
    (∃ (is : List (Fin n)) (t : Semaphore n),
        (semaphoreSystem n).run s (is.map .next) = some t ∧ t.Settled) ∧
      ∀ (is : List (Fin n)) (t : Semaphore n),
        (semaphoreSystem n).run s (is.map .next) = some t →
        is.length ≤ s.work ∧
          (t.Settled → (∀ i, t.threads i = .outside ∨ t.threads i = .wait .asleep) ∧
            t.count = max 0 s.balance ∧
            (tally ThreadPc.sleeps t.threads : Int) = max 0 (-s.balance)) := by
  refine ⟨exists_settled s, ?_⟩
  intro is t ht
  obtain ⟨hlength, hbalance⟩ := run_next ht
  refine ⟨by omega, ?_⟩
  intro hsettled
  have hrun : (semaphoreSystem n).run (.init n count) (ls ++ is.map .next) = some t :=
    (semaphoreSystem n).run_append_eq_some.mpr ⟨s, h, ht⟩
  have hsound := sound_run hrun
  rw [← hbalance]
  exact ⟨(settled_iff hsound).mp hsettled,
    balance_of_settled hsound (count_nonneg (Int.natCast_nonneg count) hrun) hsettled⟩

/-- In `handOver` one permit is there for the one thread that sleeps. -/
theorem handOver_settles :
    ∃ s, (semaphoreSystem 2).run (.init 2 (0 : Nat)) (handOver 0 1) = some s ∧
      ∀ (is : List (Fin 2)) (t : Semaphore 2),
        (semaphoreSystem 2).run s (is.map .next) = some t → t.Settled →
        (tally ThreadPc.sleeps t.threads : Int) = 0 := by
  refine ⟨_, rfl, ?_⟩
  intro is t ht hsettled
  have hrest := ((semaphore_settles 0 (handOver 0 1) _ rfl).2 is t ht).2 hsettled
  exact hrest.2.2.trans (by decide)

end Acso.Semaphores
