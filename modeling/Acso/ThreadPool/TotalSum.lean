import Acso.ThreadPool.ParallelSum

/-!
# What `main.cc` prints

A finished task has written the sum of its chunk, and no other task writes its cell, so at any
time the cells add up to what the finished tasks are worth (`tallied_step`).  When the main
thread adds them up the queue is empty, and what is missing from the total is what the workers
have in their hands (`printed_total`).
-/

namespace Acso.ThreadPool

open Acso.Lib

variable {n : Nat} {data : List (BitVec 32)}

namespace Program

variable (data : List (BitVec 32)) (s : Program n)

/-- What a task writes, by its ticket. -/
def value (task : Task) : BitVec 32 :=
  match s.thunks[task.ticket]? with
  | some thunk => thunk.value data
  | none => 0

/-- Where it writes it. -/
def cell (task : Task) : Option (Fin n) := (s.thunks.map Thunk.i)[task.ticket]?

/-- What the worker's task is worth. -/
def inHand (i : Fin n) : BitVec 32 := WorkPool.worth (s.value data) (s.pool.workers i).hand

/-- The cells that no finished task writes are zero, and the others add up to what the finished
tasks are worth. -/
structure Tallied (results : Fin n → BitVec 32) : Prop where
  cells : ∀ j, (∀ task ∈ s.pool.finished, s.cell task ≠ some j) → results j = 0
  sum : ∑ j, results j = (s.pool.finished.map (s.value data)).sum

end Program

/-! ## Tasks and their thunks -/

section tasks

variable {s : Program n}

theorem Program.Planned.mem_scheduled_iff (hs : s.Planned data) {task : Task} :
    task ∈ s.pool.scheduled ↔ task.ticket < s.thunks.length ∧ task.callable = true := by
  obtain ⟨ticket, callable⟩ := task
  rw [hs.scheduled, List.mem_map]
  constructor
  · rintro ⟨k, hk, hsame⟩
    cases hsame
    exact ⟨List.mem_range.mp hk, rfl⟩
  · rintro ⟨hlt, hcall⟩
    dsimp only at hcall
    exact ⟨ticket, List.mem_range.mpr hlt, by rw [hcall]⟩

/-- Two scheduled tasks that write the same cell are one. -/
theorem Program.Planned.cell_inj (hs : s.Planned data) {task task' : Task}
    (h : task ∈ s.pool.scheduled) (h' : task' ∈ s.pool.scheduled)
    (hcell : s.cell task = s.cell task') : task = task' := by
  obtain ⟨hlt, hcall⟩ := hs.mem_scheduled_iff.mp h
  obtain ⟨hlt', hcall'⟩ := hs.mem_scheduled_iff.mp h'
  have hnodup : (s.thunks.map Thunk.i).Nodup := hs.thunks ▸ nodup_planned data _
  have hticket := (List.getElem?_inj (by rwa [List.length_map]) hnodup).mp hcell
  obtain ⟨ticket, callable⟩ := task
  obtain ⟨ticket', callable'⟩ := task'
  dsimp only at hticket hcall hcall'
  rw [hticket, hcall, hcall']

/-- No task of the program is skipped. -/
theorem Program.Planned.skipped_eq_nil (hs : s.Planned data) (hrec : s.pool.Recorded) :
    s.pool.skipped = [] := by
  refine List.eq_nil_iff_forall_not_mem.mpr fun task hmem => ?_
  have hcall := (hs.mem_scheduled_iff.mp (hrec.mem_scheduled (.inr (.inr (.inr hmem))))).2
  rw [hrec.skipped task hmem] at hcall
  cases hcall

theorem map_value_scheduled (hs : s.Planned data) :
    s.pool.scheduled.map (s.value data) = s.thunks.map (Thunk.value data) := by
  rw [hs.scheduled, List.map_map]
  refine List.ext_getElem (by simp) ?_
  intro k hk hk'
  have hlt : k < s.thunks.length := by simpa using hk'
  simp [Program.value, List.getElem?_eq_getElem hlt]

end tasks

/-! ## The cells -/

section cells

variable {s : Program n}

/-- A step that finishes no task leaves the cells as they are. -/
theorem Program.Tallied.keep {results : Fin n → BitVec 32} (hs : s.Tallied data results)
    {s' : Program n} (hfinished : s'.pool.finished = s.pool.finished)
    (hvalue : ∀ task ∈ s.pool.finished,
      s'.value data task = s.value data task ∧ s'.cell task = s.cell task) :
    s'.Tallied data results where
  cells := by
    intro j hj
    refine hs.cells j fun task hmem => ?_
    rw [← (hvalue task hmem).2]
    exact hj task (by rwa [hfinished])
  sum := by
    rw [hs.sum, hfinished]
    exact congrArg List.sum (List.map_congr_left fun task hmem => ((hvalue task hmem).1).symm)

/-- **A task that ends** writes its own cell. -/
theorem Program.Tallied.finish {results : Fin n → BitVec 32} (hs : s.Tallied data results)
    (hplan : s.Planned data) (hrec : s.pool.Recorded) {i : Fin n} {task : Task}
    (hi : s.pool.workers i = .running task) {thunk : Thunk n}
    (hthunk : s.thunks[task.ticket]? = some thunk) {s' : Program n} (hthunks : s'.thunks = s.thunks)
    (hfinished : s'.pool.finished = s.pool.finished ++ [task]) :
    s'.Tallied data (Function.update results thunk.i (thunk.value data)) := by
  have hcell : s.cell task = some thunk.i := by rw [Program.cell, List.getElem?_map, hthunk]; rfl
  have hvalue : s.value data task = thunk.value data := by rw [Program.value, hthunk]
  have hsame : ∀ task, s'.value data task = s.value data task ∧ s'.cell task = s.cell task := by
    intro task
    rw [Program.value, Program.cell, hthunks]
    exact ⟨rfl, rfl⟩
  have hfree : results thunk.i = 0 := by
    refine hs.cells thunk.i fun task' hmem hcell' => ?_
    have hscheduled := hrec.mem_scheduled (.inr (.inl ⟨i, has_hand_ne_zero.mpr (.inr hi)⟩))
    have hscheduled' := hrec.mem_scheduled (.inr (.inr (.inl hmem)))
    have heq := hplan.cell_inj hscheduled hscheduled' (hcell.trans hcell'.symm)
    exact hrec.not_mem_finished (has_hand_ne_zero.mpr (.inr hi)) (heq ▸ hmem)
  refine ⟨?_, ?_⟩
  · intro j hj
    have hne : j ≠ thunk.i := by
      rintro rfl
      refine hj task (by rw [hfinished]; simp) ?_
      rw [(hsame task).2, hcell]
    rw [Function.update_of_ne hne]
    refine hs.cells j fun task' hmem => ?_
    rw [← (hsame task').2]
    exact hj task' (by rw [hfinished]; exact List.mem_append_left _ hmem)
  · have hsplit := Finset.add_sum_erase Finset.univ results (Finset.mem_univ thunk.i)
    rw [hfree, zero_add] at hsplit
    rw [Finset.sum_update_of_mem (Finset.mem_univ _), ← Finset.erase_eq, hsplit, hs.sum, hfinished,
      List.map_append, List.sum_append, List.map_singleton, List.sum_singleton, (hsame task).1,
      hvalue, add_comm]
    exact congrArg (fun l => List.sum l + _) (List.map_congr_left fun task _ => ((hsame task).1).symm)

end cells

/-- What holds of the program in every state. -/
structure Program.Kept (data : List (BitVec 32)) (s : Program n) : Prop where
  planned : s.Planned data
  recorded : s.pool.Recorded
  tallied : ∀ results, s.results = some results → s.Tallied data results

theorem kept_init (n : Nat) (data : List (BitVec 32)) : (Program.init n).Kept data where
  planned := planned_init n data
  recorded := recorded_init n
  tallied := by
    rintro results ⟨⟩
    exact ⟨fun _ _ => rfl, by simp [Program.init, Pool.init]⟩

/-- Only the end of a task adds to the finished tasks. -/
theorem finished_step {s s' : Pool n} {l : Label n} (h : s.step l = some s')
    (hl : ∀ i, l ≠ .finish i) : s'.finished = s.finished := by
  cases moves_of_step h with
  | finish i => exact absurd rfl (hl i)
  | _ => rfl

/-- **Every step keeps the cells.** -/
theorem tallied_step (s : Program n) (l : ProgramLabel n) (s' : Program n) (hs : s.Kept data)
    (h : (programSystem n data).step s l = some s') (results : Fin n → BitVec 32)
    (hresults : s'.results = some results) : s'.Tallied data results := by
  have hsame : ∀ {s' : Program n}, s'.results = s.results → s'.results = some results →
      s'.thunks = s.thunks → s'.pool.finished = s.pool.finished → s'.Tallied data results := by
    intro s' hresults hresults' hthunks hfinished
    refine (hs.tallied results (hresults ▸ hresults')).keep hfinished fun task _ => ?_
    rw [Program.value, Program.cell, hthunks]
    exact ⟨rfl, rfl⟩
  cases programMoves_of_step h with
  | schedule wake i pool hmain hstart hpool =>
    refine (hs.tallied results hresults).keep (finished_step hpool (by simp)) ?_
    intro task hmem
    have hlt := (hs.planned.mem_scheduled_iff.mp (hs.recorded.mem_scheduled (.inr (.inr (.inl hmem))))).1
    simp only [Program.value, Program.cell]
    rw [List.getElem?_append_left hlt, List.map_append,
      List.getElem?_append_left (by rwa [List.length_map])]
    exact ⟨rfl, rfl⟩
  | skip wake i hmain hstart => exact hsame rfl hresults rfl rfl
  | callWait wake i pool hmain hi hpool =>
    exact hsame rfl hresults rfl (finished_step hpool (by simp))
  | wait wake pool hmain hpool => exact hsame rfl hresults rfl (finished_step hpool (by simp))
  | print wake results' hmain hresults' => exact hsame rfl hresults rfl rfl
  | destroyResults wake totalSum hmain => cases hresults
  | destroy wake totalSum pool hmain hpool =>
    exact hsame rfl hresults rfl (finished_step hpool (by simp))
  | thread l pool hl hpool =>
    by_cases hfinish : ∃ i, l = .finish i
    · obtain ⟨i, rfl⟩ := hfinish
      cases moves_of_step hpool with
      | finish i task hi =>
        have hscheduled := hs.recorded.mem_scheduled (.inr (.inl ⟨i, has_hand_ne_zero.mpr (.inr hi)⟩))
        obtain ⟨hlt, -⟩ := hs.planned.mem_scheduled_iff.mp hscheduled
        have hthunk := List.getElem?_eq_getElem hlt
        have hwritten : s.written data (.finish i) = some results := hresults
        simp only [Program.written, hi, hthunk] at hwritten
        obtain ⟨results', hresults', rfl⟩ := Option.map_eq_some_iff.mp hwritten
        exact (hs.tallied results' hresults').finish hs.planned hs.recorded hi hthunk rfl rfl
    · rw [not_exists] at hfinish
      refine hsame ?_ hresults rfl (finished_step hpool hfinish)
      cases l <;> first
        | rfl
        | exact absurd rfl (hfinish _)

theorem kept_step (s : Program n) (l : ProgramLabel n) (s' : Program n) (hs : s.Kept data)
    (h : (programSystem n data).step s l = some s') : s'.Kept data where
  planned := planned_step s l s' hs.planned h
  recorded := programSystem_refines.invariant_step recorded_step hs.recorded h
  tallied := tallied_step s l s' hs h

/-! ## The total -/

/-- What the cells lack when the queue is empty. -/
theorem Program.Kept.sum_results {s : Program n} (hs : s.Kept data) (hn : 1 ≤ n)
    (hmain : s.main.HasWaited) {results : Fin n → BitVec 32} (hresults : s.results = some results) :
    ∑ j, results j + ∑ i, s.inHand data i = data.sum := by
  have hturns : s.main.turns n = n := by
    cases hpc : s.main with
    | scheduling i =>
      rw [hpc] at hmain
      exact hmain.elim
    | _ => rfl
  have hall := hs.recorded.conserved.sum_map_submitted (s.value data)
  have hqueue : s.pool.work.queue = [] := hs.planned.quiet hmain
  have hskipped : s.pool.work.dropped = [] := hs.planned.skipped_eq_nil hs.recorded
  have hscheduled : (s.pool.work.submitted.map (s.value data)).sum = data.sum := by
    refine (congrArg List.sum (map_value_scheduled hs.planned)).trans ?_
    rw [hs.planned.thunks, hturns, sum_planned_all hn]
  rw [hscheduled, hqueue, hskipped] at hall
  rw [(hs.tallied results hresults).sum, hall]
  simp only [List.map_nil, List.sum_nil, zero_add, add_zero]
  exact add_comm _ _

/-- **What `main` prints** is the sum of the data less what the workers have in their hands at
that moment, for every way the threads interleave. -/
theorem printed_total (hn : 1 ≤ n) (data : List (BitVec 32)) (ls : List (ProgramLabel n))
    (s s' : Program n) (h : (programSystem n data).run (.init n) ls = some s)
    (wake : Option (Sleeper n)) (hmain : s.main = .summing)
    (hstep : (programSystem n data).step s (.main wake) = some s') :
    ∃ totalSum, s'.main = .printed totalSum ∧
      totalSum + ∑ i, s.inHand data i = data.sum := by
  have hs := (programSystem n data).run_invariant kept_step (kept_init n data) h
  cases programMoves_of_step hstep with
  | print wake results hmain' hresults =>
    refine ⟨_, rfl, ?_⟩
    rw [← List.sum_eq_foldl, List.sum_ofFn]
    exact hs.sum_results hn (by rw [hmain]; trivial) hresults
  | schedule wake i pool hmain' => rw [hmain] at hmain'; cases hmain'
  | skip wake i hmain' => rw [hmain] at hmain'; cases hmain'
  | callWait wake i pool hmain' => rw [hmain] at hmain'; cases hmain'
  | wait wake pool hmain' => rw [hmain] at hmain'; cases hmain'
  | destroyResults wake totalSum hmain' => rw [hmain] at hmain'; cases hmain'
  | destroy wake totalSum pool hmain' => rw [hmain] at hmain'; cases hmain'

/-- Two workers pop the two tasks, and `pool.wait()` returns before they have begun. -/
def earlySum (i j : Fin n) : List (ProgramLabel n) :=
  [.main none, .main none, .main none, .thread (.worker i), .thread (.worker j), .main none]

/-- Then `main` prints 0, and the whole sum is in the hands of the workers. -/
theorem earlySum_total :
    ∃ s s' : Program 2, (programSystem 2 [1, 2, 3]).run (.init 2) (earlySum 0 1) = some s ∧
      (programSystem 2 [1, 2, 3]).step s (.main none) = some s' ∧ s'.main = .printed 0 ∧
      ∃ totalSum, s'.main = .printed totalSum ∧ totalSum + ∑ i, s.inHand [1, 2, 3] i = 6 :=
  ⟨_, _, rfl, rfl, rfl,
    printed_total (by decide) [1, 2, 3] (earlySum 0 1) _ _ rfl none rfl rfl⟩

end Acso.ThreadPool
