import Acso.Lib.Traces
import Acso.ThreadPool.Destruction
import Acso.ThreadPool.TotalSum

/-!
# Writes after the end

`results` is destroyed before the pool, whose destructor still runs the tasks to their ends.  A
task that a worker has in its hands when `results` goes therefore writes into memory that is no
longer there, and there are no other such writes (`strayWrites_iff`).
-/

namespace Acso.ThreadPool

open Acso.Lib

variable {n : Nat} {data : List (BitVec 32)}

/-- The step is the end of a task after `results` has been destroyed. -/
def StrayWrite (s : Program n) (l : ProgramLabel n) : Prop :=
  s.results = none ∧ ∃ i task, l = .thread (.finish i) ∧ s.pool.workers i = .running task

/-- If the step destroys `results`, the workers have nothing in their hands. -/
def DestroysWithFreeHands (s : Program n) (l : ProgramLabel n) : Prop :=
  ∀ wake totalSum, l = .main wake → s.main = .printed totalSum →
    ∀ i, (s.pool.workers i).hand = .empty

/-- `results` is destroyed, and the queue is empty. -/
structure Program.Ending (s : Program n) : Prop where
  results : s.results = none
  tasks : s.pool.tasks = []
  main : ∃ totalSum, s.main = .destroying totalSum

/-- From then on the main thread is in the destructor of the pool. -/
theorem Program.Ending.step_cases {s s' : Program n} {l : ProgramLabel n} (hs : s.Ending)
    (h : (programSystem n data).step s l = some s') :
    (∃ wake pool, l = .main wake ∧ s.pool.step .destroy = some pool ∧
        s' = { s with pool := pool }) ∨
      ∃ l' pool, l = .thread l' ∧ l'.ofThreads = true ∧ s.pool.step l' = some pool ∧
        s' = { s with pool := pool } := by
  obtain ⟨totalSum, hmain⟩ := hs.main
  cases programMoves_of_step h with
  | destroy wake totalSum' pool hmain' hpool => exact .inl ⟨wake, pool, rfl, hpool, rfl⟩
  | thread l pool hl hpool =>
    have hwritten : s.written data l = s.results := by
      rw [hs.results]
      unfold Program.written
      repeat' split
      all_goals simp [hs.results]
    exact .inr ⟨l, pool, rfl, hl, hpool, by rw [hwritten]⟩
  | schedule wake i pool hmain' => simp [hmain] at hmain'
  | skip wake i hmain' => simp [hmain] at hmain'
  | callWait wake i pool hmain' => simp [hmain] at hmain'
  | wait wake pool hmain' => simp [hmain] at hmain'
  | print wake results hmain' => simp [hmain] at hmain'
  | destroyResults wake totalSum' hmain' => simp [hmain] at hmain'

theorem ending_step (s : Program n) (l : ProgramLabel n) (s' : Program n) (hs : s.Ending)
    (h : (programSystem n data).step s l = some s') : s'.Ending := by
  rcases hs.step_cases h with ⟨wake, pool, -, hpool, rfl⟩ | ⟨l', pool, -, hl, hpool, rfl⟩
  · exact ⟨hs.results, (unscheduled_step hpool (by simp)).2 hs.tasks, hs.main⟩
  · exact ⟨hs.results, (unscheduled_step hpool (ofThreads_ne_schedule hl)).2 hs.tasks, hs.main⟩

/-- The hands of a worker change only when it takes a task, begins it or ends it. -/
theorem hand_step {s s' : Pool n} {l : Label n} (h : s.step l = some s') (htasks : s.tasks = [])
    (hl : l.ofThreads = true ∨ l = .destroy) (i : Fin n) :
    ((s'.workers i).hand = .empty ↔ (s.workers i).hand = .empty) ∨
      l = .finish i ∨ ∃ task, s.workers i = .holding task ∧ task.callable = false := by
  have hset : ∀ (j : Fin n) (pc : WorkerPc), (pc.hand = .empty ↔ (s.workers j).hand = .empty) →
      ∀ t : Pool n, t.workers = s.workers →
        (((t.setWorker j pc).workers i).hand = .empty ↔ (s.workers i).hand = .empty) := by
    intro j pc hpc t ht
    rw [workers_setWorker, ht]
    split
    · rename_i hij
      rw [hij]
      exact hpc
    · exact Iff.rfl
  cases moves_of_step h with
  | schedule => rcases hl with hl | hl <;> cases hl
  | take j task tasks callers hready htasks' =>
    rw [htasks] at htasks'
    cases htasks'
  | sleep j hready => exact .inl (hset j .asleep (by rw [hready]; exact Iff.rfl) s rfl)
  | exit j hready => exact .inl (hset j .exited (by rw [hready]; exact Iff.rfl) s rfl)
  | start j task hj hcall =>
    refine .inl (hset j (.running task) ?_ { s with started := s.started ++ [task] } rfl)
    rw [hj]
    exact iff_of_false (by simp [WorkerPc.hand]) (by simp [WorkerPc.hand])
  | skip j task hj hcall =>
    by_cases hij : i = j
    · exact .inr (.inr ⟨task, hij ▸ hj, hcall⟩)
    · refine .inl ?_
      rw [workers_setWorker, if_neg hij]
  | finish j task hj =>
    by_cases hij : i = j
    · exact .inr (.inl (by rw [hij]))
    · refine .inl ?_
      rw [workers_setWorker, if_neg hij]
  | waitCall => rcases hl with hl | hl <;> cases hl
  | waitReturn => rcases hl with hl | hl <;> cases hl
  | waitSleep => rcases hl with hl | hl <;> cases hl
  | notifyTask h =>
    refine .inl ?_
    show ((s.workers i).wake).hand = .empty ↔ _
    rw [WorkerPc.hand_wake]
  | wakeUp x hx =>
    refine .inl ?_
    have hwork := congrFun (congrArg WorkPool.hands (work_wakeUp s hx)) i
    rw [show ((s.wakeUp x).workers i).hand = (s.workers i).hand from hwork]
  | _ => exact .inl Iff.rfl

/-! ## After `results` is destroyed -/

section ending

variable {s t : Program n} {ls : List (ProgramLabel n)}

/-- A step that is not a stray write leaves the hands as empty or as full as they were. -/
theorem Program.Ending.hand_step {s' : Program n} {l : ProgramLabel n} (hs : s.Ending)
    (hkept : s.Kept data) (h : (programSystem n data).step s l = some s')
    (hl : ¬ StrayWrite s l) (i : Fin n) :
    (s'.pool.workers i).hand = .empty ↔ (s.pool.workers i).hand = .empty := by
  have hcallable : ∀ task, s.pool.workers i = .holding task → task.callable ≠ false := by
    intro task hi
    have hmem : task ∈ s.pool.scheduled :=
      hkept.recorded.mem_scheduled (.inr (.inl ⟨i, has_hand_ne_zero.mpr (.inl hi)⟩))
    rw [(hkept.planned.mem_scheduled_iff.mp hmem).2]
    simp
  rcases hs.step_cases h with ⟨wake, pool, -, hpool, rfl⟩ | ⟨l', pool, rfl, hl', hpool, rfl⟩
  · rcases ThreadPool.hand_step hpool hs.tasks (.inr rfl) i with hsame | hfin | ⟨task, hi, hcall⟩
    · exact hsame
    · cases hfin
    · exact absurd hcall (hcallable task hi)
  · rcases ThreadPool.hand_step hpool hs.tasks (.inl hl') i with hsame | rfl | ⟨task, hi, hcall⟩
    · exact hsame
    · cases moves_of_step hpool with
      | finish i task hi => exact absurd ⟨hs.results, i, task, rfl, hi⟩ hl
    · exact absurd hcall (hcallable task hi)

/-- **With free hands** nobody writes any more. -/
theorem along_of_freeHands (hs : s.Ending) (hkept : s.Kept data)
    (hfree : ∀ i, (s.pool.workers i).hand = .empty) :
    (programSystem n data).Along (fun s l => ¬ StrayWrite s l) s ls := by
  induction ls generalizing s with
  | nil => trivial
  | cons l ls ih =>
    have hl : ¬ StrayWrite s l := by
      rintro ⟨-, i, task, -, hi⟩
      have hhand := hfree i
      rw [hi] at hhand
      cases hhand
    refine ⟨hl, fun s' hs' => ?_⟩
    refine ih (ending_step s l s' hs hs') (kept_step s l s' hkept hs') fun i => ?_
    exact (hs.hand_step hkept hs' hl i).mpr (hfree i)

/-- **Without stray writes** the hands are in the end as they were. -/
theorem hand_of_along (hs : s.Ending) (hkept : s.Kept data)
    (hrun : (programSystem n data).run s ls = some t)
    (hls : (programSystem n data).Along (fun s l => ¬ StrayWrite s l) s ls) (i : Fin n) :
    (t.pool.workers i).hand = .empty ↔ (s.pool.workers i).hand = .empty := by
  induction ls generalizing s with
  | nil =>
    obtain rfl := Option.some.inj hrun
    exact Iff.rfl
  | cons l ls ih =>
    obtain ⟨s', hs', ht⟩ := (programSystem n data).run_cons_eq_some.mp hrun
    rw [← hs.hand_step hkept hs' hls.1 i]
    exact ih (ending_step s l s' hs hs') (kept_step s l s' hkept hs') ht (hls.2 s' hs')

end ending

/-! ## Whole runs -/

/-- A step either destroys `results` or leaves it, and before that no write is stray. -/
theorem step_cases_of_results {s s' : Program n} {l : ProgramLabel n}
    (hsome : s.results.isSome = true) (hplan : s.Planned data)
    (h : (programSystem n data).step s l = some s') :
    (∃ wake totalSum, l = .main wake ∧ s.main = .printed totalSum ∧ s'.pool = s.pool ∧
        s'.Ending) ∨
      ((∀ wake totalSum, l = .main wake → s.main ≠ .printed totalSum) ∧
        s'.results.isSome = true) := by
  cases programMoves_of_step h with
  | destroyResults wake totalSum hmain =>
    refine .inl ⟨wake, totalSum, rfl, hmain, rfl, rfl, ?_, totalSum, rfl⟩
    exact hplan.quiet (by rw [hmain]; trivial)
  | thread l pool hl hpool =>
    refine .inr ⟨fun _ _ h => (nomatch h), ?_⟩
    show (s.written data l).isSome = true
    unfold Program.written
    repeat' split
    all_goals simpa using hsome
  | schedule wake i pool hmain => exact .inr ⟨fun _ _ _ => by simp [hmain], hsome⟩
  | skip wake i hmain => exact .inr ⟨fun _ _ _ => by simp [hmain], hsome⟩
  | callWait wake i pool hmain => exact .inr ⟨fun _ _ _ => by simp [hmain], hsome⟩
  | wait wake pool hmain => exact .inr ⟨fun _ _ _ => by simp [hmain], hsome⟩
  | print wake results hmain => exact .inr ⟨fun _ _ _ => by simp [hmain], hsome⟩
  | destroy wake totalSum pool hmain hpool => exact .inr ⟨fun _ _ _ => by simp [hmain], hsome⟩

theorem along_freeHands_of_ending {s : Program n} {ls : List (ProgramLabel n)} (hs : s.Ending) :
    (programSystem n data).Along DestroysWithFreeHands s ls := by
  induction ls generalizing s with
  | nil => trivial
  | cons l ls ih =>
    refine ⟨?_, fun s' hs' => ih (ending_step s l s' hs hs')⟩
    intro wake totalSum _ hmain
    obtain ⟨totalSum', hmain'⟩ := hs.main
    rw [hmain'] at hmain
    cases hmain

theorem strayWrites_iff_from {s t : Program n} {ls : List (ProgramLabel n)}
    (hsome : s.results.isSome = true) (hkept : s.Kept data)
    (hrun : (programSystem n data).run s ls = some t)
    (hexit : ∀ i, t.pool.workers i = .exited) :
    (programSystem n data).Along (fun s l => ¬ StrayWrite s l) s ls ↔
      (programSystem n data).Along DestroysWithFreeHands s ls := by
  induction ls generalizing s with
  | nil => exact Iff.rfl
  | cons l ls ih =>
    obtain ⟨s', hs', ht⟩ := (programSystem n data).run_cons_eq_some.mp hrun
    have hkept' := kept_step s l s' hkept hs'
    have hstray : ¬ StrayWrite s l := by
      rintro ⟨hnone, -⟩
      rw [hnone] at hsome
      cases hsome
    rw [(programSystem n data).along_cons_of_step hs', (programSystem n data).along_cons_of_step hs',
      and_iff_right hstray]
    rcases step_cases_of_results hsome hkept.planned hs' with
      ⟨wake, totalSum, hl, hmain, hpool, hending⟩ | ⟨hother, hsome'⟩
    · rw [and_iff_left (along_freeHands_of_ending hending)]
      constructor
      · intro hls wake' totalSum' _ _ i
        rw [← hpool, ← hand_of_along hending hkept' ht hls i, hexit i]
        rfl
      · intro hfree
        refine along_of_freeHands hending hkept' fun i => ?_
        rw [hpool]
        exact hfree wake totalSum hl hmain i
    · have hfree : DestroysWithFreeHands s l :=
        fun wake totalSum hl hmain => absurd hmain (hother wake totalSum hl)
      rw [and_iff_right hfree]
      exact ih hsome' hkept' ht

/-- **Writes after the end.**  In a run of the program to the end of `main`, no task writes
into the destroyed `results` exactly if the workers have nothing in their hands when it is
destroyed. -/
theorem strayWrites_iff (hn : 1 ≤ n) (data : List (BitVec 32)) (ls : List (ProgramLabel n))
    (s : Program n) (h : (programSystem n data).run (.init n) ls = some s)
    (hret : s.pool.destructor = .returned) :
    (programSystem n data).Along (fun s l => ¬ StrayWrite s l) (.init n) ls ↔
      (programSystem n data).Along DestroysWithFreeHands (.init n) ls := by
  have hstep : ∀ (s : Program n) l s', s.pool.Shutting → (programSystem n data).step s l = some s' →
      s'.pool.Shutting := fun _ _ _ => programSystem_refines.invariant_step (shutting_step hn)
  have hshut := (programSystem n data).run_invariant hstep shutting_init h
  exact strayWrites_iff_from rfl (kept_init n data) h (hshut.returned hret)

/-- After `earlySum`, `main` prints, ends and waits in the destructor for the tasks. -/
def earlyEnd (i j : Fin n) : List (ProgramLabel n) :=
  earlySum i j ++ [.main none, .main none, .main none, .main none, .main none, .main none,
    .thread (.invoke i), .thread (.finish i), .thread (.invoke j), .thread (.finish j),
    .thread (.worker i), .thread (.worker j), .thread .dispatcherTest, .main none, .main none,
    .main none, .main none, .main none, .main none]

/-- The workers have their tasks in their hands when `results` is destroyed, so one of the writes
is stray. -/
theorem earlyEnd_strays :
    ∃ s, (programSystem 2 [1, 2, 3]).run (.init 2) (earlyEnd 0 1) = some s ∧
      ¬ (programSystem 2 [1, 2, 3]).Along (fun s l => ¬ StrayWrite s l) (.init 2) (earlyEnd 0 1) := by
  refine ⟨_, rfl, ?_⟩
  rw [strayWrites_iff (by decide) [1, 2, 3] (earlyEnd 0 1) _ rfl rfl]
  intro hfree
  have hrun : (programSystem 2 [1, 2, 3]).run (.init 2) ((earlyEnd 0 1).take 7) = some _ := rfl
  have hrest := (programSystem 2 [1, 2, 3]).along_of_run hrun
    (show (programSystem 2 [1, 2, 3]).Along DestroysWithFreeHands (.init 2)
      ((earlyEnd 0 1).take 7 ++ (earlyEnd 0 1).drop 7) from hfree)
  cases hrest.1 none 0 rfl rfl 0

end Acso.ThreadPool
