import Mathlib.Algebra.BigOperators.Group.Multiset.Basic
import Mathlib.Algebra.BigOperators.Group.Finset.Basic
import Acso.Lib.System
import Acso.Lib.Tally

/-!
# Work pools

A queue of jobs and `n` hands.  A job is submitted to the queue, taken from its
front by an empty hand, and then run to its end or dropped.  The pool keeps a
list of the jobs that have been submitted, started, finished and dropped.

* `Conserved`: no job is lost or duplicated, and every job that has started is
  running or finished.  `conserved_step`: every step keeps this.
* `mem_finished_iff`: a job submitted once that is neither queued nor dropped is
  finished exactly if no hand has it.  `mem_submitted`, `not_mem_finished`: what is in the pool
  has been submitted, and what a hand has is not finished.
* `sum_map_submitted`: whatever the jobs are worth, what has been submitted is worth as much
  as what is in the queue, in the hands, finished and dropped.
-/

namespace Acso.Lib

/-! ## The pool -/

/-- What a hand does. -/
inductive Hand (τ : Type)
  | empty
  | holding (t : τ)
  | running (t : τ)

structure WorkPool (n : Nat) (τ : Type) where
  queue : List τ
  hands : Fin n → Hand τ
  submitted : List τ
  started : List τ
  finished : List τ
  dropped : List τ

namespace WorkPool

/-- What can happen to a pool. -/
inductive Event (n : Nat) (τ : Type)
  | submit (t : τ)
  | take (i : Fin n)
  | start (i : Fin n)
  | finish (i : Fin n)
  | drop (i : Fin n)

variable {n : Nat} {τ : Type}

/-- The pool with hand `i` set to `h`. -/
def setHand (w : WorkPool n τ) (i : Fin n) (h : Hand τ) : WorkPool n τ :=
  { w with hands := Function.update w.hands i h }

def step (w : WorkPool n τ) : Event n τ → Option (WorkPool n τ)
  | .submit t => some { w with queue := w.queue ++ [t], submitted := w.submitted ++ [t] }
  | .take i =>
    match w.hands i, w.queue with
    | .empty, t :: queue => some ({ w with queue := queue }.setHand i (.holding t))
    | _, _ => none
  | .start i =>
    match w.hands i with
    | .holding t => some ({ w with started := w.started ++ [t] }.setHand i (.running t))
    | _ => none
  | .finish i =>
    match w.hands i with
    | .running t => some ({ w with finished := w.finished ++ [t] }.setHand i .empty)
    | _ => none
  | .drop i =>
    match w.hands i with
    | .holding t => some ({ w with dropped := w.dropped ++ [t] }.setHand i .empty)
    | _ => none

def system (n : Nat) (τ : Type) : System (WorkPool n τ) (Event n τ) := ⟨step⟩

/-- The empty pool. -/
def init (n : Nat) (τ : Type) : WorkPool n τ := ⟨[], fun _ => .empty, [], [], [], []⟩

/-! ## Conservation -/

variable [DecidableEq τ]

/-- `1` if the hand has the job, else `0`. -/
def has (t : τ) : Hand τ → Nat
  | .empty => 0
  | .holding t' => if t' = t then 1 else 0
  | .running t' => if t' = t then 1 else 0

/-- `1` if the hand runs the job, else `0`. -/
def runs (t : τ) : Hand τ → Nat
  | .running t' => if t' = t then 1 else 0
  | _ => 0

/-- A submitted job is in one place, and a started one is running or finished. -/
structure Conserved (w : WorkPool n τ) : Prop where
  submitted : ∀ t, w.submitted.count t =
    w.queue.count t + tally (has t) w.hands + w.finished.count t + w.dropped.count t
  started : ∀ t, w.started.count t = tally (runs t) w.hands + w.finished.count t

theorem conserved_init : (init n τ).Conserved :=
  ⟨fun t => by simp [init, tally, has], fun t => by simp [init, tally, runs]⟩

theorem count_concat (l : List τ) (t t' : τ) :
    (l ++ [t']).count t = l.count t + if t' = t then 1 else 0 := by
  rw [List.count_append, List.count_singleton]
  simp only [beq_iff_eq]

/-- Changing one hand keeps the jobs, if it balances with the change of the lists. -/
theorem Conserved.setHand {w : WorkPool n τ} (hw : w.Conserved) {i : Fin n} {h h' : Hand τ}
    (hi : w.hands i = h) {queue started finished dropped : List τ}
    (hsub : ∀ t, w.queue.count t + has t h + w.finished.count t + w.dropped.count t =
      queue.count t + has t h' + finished.count t + dropped.count t)
    (hstart : ∀ t, started.count t + runs t h + w.finished.count t =
      w.started.count t + runs t h' + finished.count t) :
    Conserved ⟨queue, Function.update w.hands i h', w.submitted, started, finished, dropped⟩ := by
  refine ⟨?_, ?_⟩
  · intro t
    have hcount := hw.submitted t
    have hbalance := hsub t
    have htally := tally_update (has t) w.hands i h'
    rw [hi] at htally
    dsimp only
    omega
  · intro t
    have hcount := hw.started t
    have hbalance := hstart t
    have htally := tally_update (runs t) w.hands i h'
    rw [hi] at htally
    dsimp only
    omega

/-- **Every step keeps the jobs.** -/
theorem conserved_step (w : WorkPool n τ) (e : Event n τ) (w' : WorkPool n τ) (hw : w.Conserved)
    (h : (system n τ).step w e = some w') : w'.Conserved := by
  change w.step e = some w' at h
  cases e with
  | submit t =>
    obtain rfl := Option.some.inj h
    refine ⟨?_, hw.started⟩
    intro t'
    have hcount := hw.submitted t'
    simp only [count_concat]
    omega
  | take i =>
    rw [step] at h
    split at h
    · rename_i t queue hi hq
      obtain rfl := Option.some.inj h
      refine hw.setHand hi ?_ fun _ => rfl
      intro t'
      simp only [hq, has, List.count_cons, beq_iff_eq]
      omega
    · cases h
  | start i =>
    rw [step] at h
    split at h
    · rename_i t hi
      obtain rfl := Option.some.inj h
      refine hw.setHand hi (fun _ => rfl) ?_
      intro t'
      simp only [runs, count_concat]
      omega
    · cases h
  | finish i =>
    rw [step] at h
    split at h
    · rename_i t hi
      obtain rfl := Option.some.inj h
      refine hw.setHand hi ?_ ?_
      · intro t'
        simp only [has, count_concat]
        omega
      · intro t'
        simp only [runs, count_concat]
        omega
    · cases h
  | drop i =>
    rw [step] at h
    split at h
    · rename_i t hi
      obtain rfl := Option.some.inj h
      refine hw.setHand hi ?_ fun _ => rfl
      intro t'
      simp only [has, count_concat]
      omega
    · cases h

/-! ## What conservation says about one job -/

theorem runs_eq_zero_of_has {t : τ} {h : Hand τ} (hh : has t h = 0) : runs t h = 0 := by
  cases h with
  | running t' => exact hh
  | _ => rfl

/-- **A job submitted once and nowhere else** has been started and finished once. -/
theorem Conserved.finished_once {w : WorkPool n τ} (hw : w.Conserved) {t : τ}
    (hs : w.submitted.count t = 1) (hq : t ∉ w.queue) (hd : t ∉ w.dropped)
    (hh : ∀ i, has t (w.hands i) = 0) : w.started.count t = 1 ∧ w.finished.count t = 1 := by
  have hcount := hw.submitted t
  have hstart := hw.started t
  rw [List.count_eq_zero.mpr hq, List.count_eq_zero.mpr hd, tally_eq_zero.mpr hh] at hcount
  rw [tally_eq_zero.mpr fun i => runs_eq_zero_of_has (hh i)] at hstart
  omega

/-- It is finished exactly if no hand has it. -/
theorem Conserved.mem_finished_iff {w : WorkPool n τ} (hw : w.Conserved) {t : τ}
    (hs : w.submitted.count t = 1) (hq : t ∉ w.queue) (hd : t ∉ w.dropped) :
    t ∈ w.finished ↔ ∀ i, has t (w.hands i) = 0 := by
  have hcount := hw.submitted t
  rw [List.count_eq_zero.mpr hq, List.count_eq_zero.mpr hd, hs] at hcount
  rw [← List.one_le_count_iff, ← tally_eq_zero]
  omega

/-- What is somewhere in the pool has been submitted. -/
theorem Conserved.mem_submitted {w : WorkPool n τ} (hw : w.Conserved) {t : τ}
    (h : t ∈ w.queue ∨ (∃ i, has t (w.hands i) ≠ 0) ∨ t ∈ w.finished ∨ t ∈ w.dropped) :
    t ∈ w.submitted := by
  have hcount := hw.submitted t
  have hall : 0 < w.submitted.count t := by
    rcases h with h | ⟨i, hi⟩ | h | h
    · have hpos := List.count_pos_iff.mpr h
      omega
    · have hne : tally (has t) w.hands ≠ 0 := fun hzero => hi (tally_eq_zero.mp hzero i)
      omega
    · have hpos := List.count_pos_iff.mpr h
      omega
    · have hpos := List.count_pos_iff.mpr h
      omega
  exact List.count_pos_iff.mp hall

/-- A job submitted once that a hand has is not finished. -/
theorem Conserved.not_mem_finished {w : WorkPool n τ} (hw : w.Conserved) {t : τ}
    (hs : w.submitted.count t = 1) {i : Fin n} (hi : has t (w.hands i) ≠ 0) : t ∉ w.finished := by
  intro hmem
  have hcount := hw.submitted t
  have hfinished := List.count_pos_iff.mpr hmem
  have hne : tally (has t) w.hands ≠ 0 := fun hzero => hi (tally_eq_zero.mp hzero i)
  omega

/-! ## What the jobs are worth -/

/-- What the job in a hand is worth. -/
def worth {M : Type} [Zero M] (f : τ → M) : Hand τ → M
  | .empty => 0
  | .holding t => f t
  | .running t => f t

def jobs : Hand τ → Multiset τ
  | .empty => 0
  | .holding t => {t}
  | .running t => {t}

theorem count_jobs (t : τ) (h : Hand τ) : (jobs h).count t = has t h := by
  cases h with
  | empty => rfl
  | holding t' => simp [jobs, has, Multiset.count_singleton, eq_comm]
  | running t' => simp [jobs, has, Multiset.count_singleton, eq_comm]

theorem Conserved.jobs_submitted {w : WorkPool n τ} (hw : w.Conserved) :
    (w.submitted : Multiset τ) = w.queue + ∑ i, jobs (w.hands i) + w.finished + w.dropped := by
  refine Multiset.ext.mpr fun t => ?_
  simp only [Multiset.count_add, Multiset.coe_count, Multiset.count_sum', count_jobs]
  exact hw.submitted t

/-- **Nothing of what the jobs are worth is lost.** -/
theorem Conserved.sum_map_submitted {M : Type} [AddCommMonoid M] {w : WorkPool n τ}
    (hw : w.Conserved) (f : τ → M) :
    (w.submitted.map f).sum = (w.queue.map f).sum + ∑ i, worth f (w.hands i) +
      (w.finished.map f).sum + (w.dropped.map f).sum := by
  have hlist : ∀ l : List τ, ((l : Multiset τ).map f).sum = (l.map f).sum := fun l => by simp
  have hhand : ∀ h : Hand τ, ((jobs h).map f).sum = worth f h := by
    intro h
    cases h <;> simp [jobs, worth]
  have hhands : ((∑ i, jobs (w.hands i)).map f).sum = ∑ i, worth f (w.hands i) := by
    have hhom := map_sum (Multiset.sumAddMonoidHom.comp (Multiset.mapAddMonoidHom f))
      (fun i => jobs (w.hands i)) Finset.univ
    refine hhom.trans (Finset.sum_congr rfl fun i _ => hhand (w.hands i))
  rw [← hlist w.submitted, hw.jobs_submitted]
  simp only [Multiset.map_add, Multiset.sum_add, hlist, hhands]

end WorkPool

end Acso.Lib
