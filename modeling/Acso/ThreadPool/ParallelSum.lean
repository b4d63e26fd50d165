import Mathlib.Algebra.BigOperators.Fin
import Mathlib.Data.BitVec
import Acso.ThreadPool.History

/-!
# A sum on the pool

`main.cc`: the main thread cuts the data into chunks, schedules a task for each that writes the
sum of its chunk into a cell of `results`, waits for the pool and adds the cells up.  It is the
only thread that calls the pool, so it moves between the steps of the pool's own threads.  At
the end of `main` its locals are destroyed in the order opposite to their declarations:
`results`, which was declared after the pool, goes before the pool joins its workers.  A task's
write and its end are one step, and so is `main`'s `accumulate` over `results`.

`ProgramMoves` lists everything a step can do (`programMoves_of_step`), and the pool of the
program runs as the pool does (`programSystem_refines`).
-/

namespace Acso.ThreadPool

open Acso.Lib

/-- What the function of a task has captured. -/
structure Thunk (n : Nat) where
  start : Nat
  stop : Nat
  i : Fin n
  deriving DecidableEq

/-- `accumulate(data.begin() + start, data.begin() + stop, 0)`. -/
def computeSum (data : List (BitVec 32)) (start stop : Nat) : BitVec 32 :=
  ((data.drop start).take (stop - start)).foldl (· + ·) 0

/-- Where the main thread is. -/
inductive MainPc
  /-- At turn `i` of the loop, or behind it. -/
  | scheduling (i : Nat)
  /-- In `pool.wait()`. -/
  | waiting
  | summing
  | printed (totalSum : BitVec 32)
  /-- `results` is gone, and the destructor of the pool runs. -/
  | destroying (totalSum : BitVec 32)
  deriving DecidableEq

/-- The program with `n` threads, with what each task has captured, in the order of their
tickets.  `results` is `none` once it is destroyed. -/
structure Program (n : Nat) where
  pool : Pool n
  thunks : List (Thunk n)
  results : Option (Fin n → BitVec 32)
  main : MainPc

inductive ProgramLabel (n : Nat)
  /-- The main thread; if it calls `schedule`, `notify_one` wakes `wake`. -/
  | main (wake : Option (Sleeper n))
  /-- A step of a worker or the dispatcher, or a spurious wake-up. -/
  | thread (l : Label n)

/-- The step is not one of a thread that calls the pool. -/
def Label.ofThreads {n : Nat} : Label n → Bool
  | .schedule .. | .waitCall .. | .wait _ | .destroy => false
  | _ => true

/-- `(n + numThreads - 1) / numThreads`. -/
def chunkSize (data : List (BitVec 32)) (n : Nat) : Nat := (data.length + n - 1) / n

namespace Program

variable {n : Nat}

def init (n : Nat) : Program n := ⟨Pool.init n, [], some fun _ => 0, .scheduling 0⟩

/-- What the lambda of turn `i` captures. -/
def capture (data : List (BitVec 32)) (i : Fin n) : Thunk n :=
  let start := i * chunkSize data n
  let stop := min (start + chunkSize data n) data.length
  ⟨start, stop, i⟩

variable (data : List (BitVec 32)) (s : Program n)

/-- `results` after a step: a task ends by writing its cell, in the same step. -/
def written : Label n → Option (Fin n → BitVec 32)
  | .finish i =>
    match s.pool.workers i with
    | .running task =>
      match s.thunks[task.ticket]? with
      | some thunk =>
        s.results.map fun results =>
          Function.update results thunk.i (computeSum data thunk.start thunk.stop)
      | none => s.results
    | _ => s.results
  | _ => s.results

def mainStep (wake : Option (Sleeper n)) : Option (Program n) :=
  match s.main with
  | .scheduling i =>
    if h : i < n then
      let thunk := capture data ⟨i, h⟩
      if thunk.start < data.length then
        (s.pool.step (.schedule none true wake)).map fun pool =>
          { s with pool := pool, thunks := s.thunks ++ [thunk], main := .scheduling (i + 1) }
      else some { s with main := .scheduling (i + 1) }
    else
      (s.pool.step (.waitCall (.outside 0))).map fun pool =>
        { s with pool := pool, main := .waiting }
  | .waiting =>
    (s.pool.step (.wait (.outside 0))).map fun pool =>
      { s with
        pool := pool,
        main := if pool.callers (.outside 0) = .idle then .summing else .waiting }
  | .summing =>
    s.results.map fun results =>
      { s with main := .printed ((List.ofFn results).foldl (· + ·) 0) }
  | .printed totalSum => some { s with results := none, main := .destroying totalSum }
  | .destroying _ => (s.pool.step .destroy).map fun pool => { s with pool := pool }

def step : ProgramLabel n → Option (Program n)
  | .main wake => s.mainStep data wake
  | .thread l =>
    if l.ofThreads then
      (s.pool.step l).map fun pool => { s with pool := pool, results := s.written data l }
    else none

end Program

def programSystem (n : Nat) (data : List (BitVec 32)) : System (Program n) (ProgramLabel n) :=
  ⟨Program.step data⟩

/-! ## What a step can do -/

variable {n : Nat} {data : List (BitVec 32)}

/-- **What a step can do.** -/
inductive ProgramMoves (data : List (BitVec 32)) (s : Program n) :
    ProgramLabel n → Program n → Prop
  | schedule (wake : Option (Sleeper n)) (i : Fin n) (pool : Pool n)
      (hmain : s.main = .scheduling i) (hstart : (Program.capture data i).start < data.length)
      (hpool : s.pool.step (.schedule none true wake) = some pool) :
      ProgramMoves data s (.main wake)
        { s with
          pool := pool, thunks := s.thunks ++ [Program.capture data i],
          main := .scheduling (i + 1) }
  | skip (wake : Option (Sleeper n)) (i : Fin n) (hmain : s.main = .scheduling i)
      (hstart : data.length ≤ (Program.capture data i).start) :
      ProgramMoves data s (.main wake) { s with main := .scheduling (i + 1) }
  | callWait (wake : Option (Sleeper n)) (i : Nat) (pool : Pool n)
      (hmain : s.main = .scheduling i) (hi : n ≤ i)
      (hpool : s.pool.step (.waitCall (.outside 0)) = some pool) :
      ProgramMoves data s (.main wake) { s with pool := pool, main := .waiting }
  | wait (wake : Option (Sleeper n)) (pool : Pool n) (hmain : s.main = .waiting)
      (hpool : s.pool.step (.wait (.outside 0)) = some pool) :
      ProgramMoves data s (.main wake)
        { s with
          pool := pool,
          main := if pool.callers (.outside 0) = .idle then .summing else .waiting }
  | print (wake : Option (Sleeper n)) (results : Fin n → BitVec 32) (hmain : s.main = .summing)
      (hresults : s.results = some results) :
      ProgramMoves data s (.main wake)
        { s with main := .printed ((List.ofFn results).foldl (· + ·) 0) }
  | destroyResults (wake : Option (Sleeper n)) (totalSum : BitVec 32)
      (hmain : s.main = .printed totalSum) :
      ProgramMoves data s (.main wake) { s with results := none, main := .destroying totalSum }
  | destroy (wake : Option (Sleeper n)) (totalSum : BitVec 32) (pool : Pool n)
      (hmain : s.main = .destroying totalSum) (hpool : s.pool.step .destroy = some pool) :
      ProgramMoves data s (.main wake) { s with pool := pool }
  | thread (l : Label n) (pool : Pool n) (hl : l.ofThreads = true)
      (hpool : s.pool.step l = some pool) :
      ProgramMoves data s (.thread l) { s with pool := pool, results := s.written data l }

/-- **Every step is such a move.** -/
theorem programMoves_of_step {s s' : Program n} {l : ProgramLabel n}
    (h : (programSystem n data).step s l = some s') : ProgramMoves data s l s' := by
  change s.step data l = some s' at h
  cases l with
  | main wake =>
    rw [Program.step, Program.mainStep] at h
    split at h
    · rename_i i hmain
      by_cases hi : i < n
      · rw [dif_pos hi] at h
        by_cases hstart : (Program.capture data ⟨i, hi⟩).start < data.length
        · rw [if_pos hstart] at h
          obtain ⟨pool, hpool, rfl⟩ := Option.map_eq_some_iff.mp h
          exact .schedule wake ⟨i, hi⟩ pool hmain hstart hpool
        · rw [if_neg hstart] at h
          obtain rfl := Option.some.inj h
          exact .skip wake ⟨i, hi⟩ hmain (Nat.le_of_not_lt hstart)
      · rw [dif_neg hi] at h
        obtain ⟨pool, hpool, rfl⟩ := Option.map_eq_some_iff.mp h
        exact .callWait wake i pool hmain (Nat.le_of_not_lt hi) hpool
    · rename_i hmain
      obtain ⟨pool, hpool, rfl⟩ := Option.map_eq_some_iff.mp h
      exact .wait wake pool hmain hpool
    · rename_i hmain
      obtain ⟨results, hresults, rfl⟩ := Option.map_eq_some_iff.mp h
      exact .print wake results hmain hresults
    · rename_i totalSum hmain
      obtain rfl := Option.some.inj h
      exact .destroyResults wake totalSum hmain
    · rename_i totalSum hmain
      obtain ⟨pool, hpool, rfl⟩ := Option.map_eq_some_iff.mp h
      exact .destroy wake totalSum pool hmain hpool
  | thread l =>
    obtain ⟨hl, hs'⟩ := Option.ite_none_right_eq_some.mp h
    obtain ⟨pool, hpool, rfl⟩ := Option.map_eq_some_iff.mp hs'
    exact .thread l pool hl hpool

/-- **The program drives the pool**, and does nothing to it that the pool does not do. -/
theorem programSystem_refines :
    (programSystem n data).Refines (poolSystem n) Program.pool := by
  intro s l s' h
  cases programMoves_of_step h with
  | schedule wake i pool hmain hstart hpool => exact .inr ⟨.schedule none true wake, hpool⟩
  | skip => exact .inl rfl
  | callWait wake i pool hmain hi hpool => exact .inr ⟨.waitCall (.outside 0), hpool⟩
  | wait wake pool hmain hpool => exact .inr ⟨.wait (.outside 0), hpool⟩
  | print => exact .inl rfl
  | destroyResults => exact .inl rfl
  | destroy wake totalSum pool hmain hpool => exact .inr ⟨.destroy, hpool⟩
  | thread l pool hl hpool => exact .inr ⟨l, hpool⟩

/-! ## The chunks -/

theorem computeSum_eq (data : List (BitVec 32)) (start stop : Nat) :
    computeSum data start stop = ((data.drop start).take (stop - start)).sum :=
  List.sum_eq_foldl.symm

/-- What a task writes. -/
def Thunk.value (data : List (BitVec 32)) (thunk : Thunk n) : BitVec 32 :=
  computeSum data thunk.start thunk.stop

theorem value_capture (data : List (BitVec 32)) (i : Fin n) :
    (Program.capture data i).value data =
      ((data.drop (i * chunkSize data n)).take (chunkSize data n)).sum := by
  rw [Thunk.value, computeSum_eq]
  simp only [Program.capture]
  congr 1
  rw [List.take_eq_take_iff, List.length_drop]
  omega

/-- What the loop has scheduled after `k` turns. -/
def planned (n : Nat) (data : List (BitVec 32)) : Nat → List (Thunk n)
  | 0 => []
  | k + 1 =>
    if h : k < n then
      let thunk := Program.capture data ⟨k, h⟩
      if thunk.start < data.length then planned n data k ++ [thunk] else planned n data k
    else planned n data k

theorem planned_succ_of_lt {i : Fin n} (h : (Program.capture data i).start < data.length) :
    planned n data (i + 1) = planned n data i ++ [Program.capture data i] := by
  rw [planned, dif_pos i.isLt]
  exact if_pos h

theorem planned_succ_of_le {i : Fin n} (h : data.length ≤ (Program.capture data i).start) :
    planned n data (i + 1) = planned n data i := by
  rw [planned, dif_pos i.isLt]
  exact if_neg (Nat.not_lt.mpr h)

theorem planned_succ_cases (data : List (BitVec 32)) (k : Nat) :
    planned n data (k + 1) = planned n data k ∨
      ∃ i : Fin n, i = k ∧ planned n data (k + 1) = planned n data k ++ [Program.capture data i] := by
  by_cases hk : k < n
  · by_cases hstart : (Program.capture data ⟨k, hk⟩).start < data.length
    · exact .inr ⟨⟨k, hk⟩, rfl, planned_succ_of_lt (i := ⟨k, hk⟩) hstart⟩
    · exact .inl (planned_succ_of_le (i := ⟨k, hk⟩) (Nat.le_of_not_lt hstart))
  · exact .inl (by rw [planned, dif_neg hk])

/-- **The tasks of `k` turns** cover the data up to there. -/
theorem sum_planned (data : List (BitVec 32)) {k : Nat} (hk : k ≤ n) :
    ((planned n data k).map (Thunk.value data)).sum = (data.take (k * chunkSize data n)).sum := by
  induction k with
  | zero => simp [planned]
  | succ k ih =>
    have hvalue := value_capture data (⟨k, hk⟩ : Fin n)
    rw [Nat.succ_mul, List.take_add, List.sum_append, ← ih (Nat.le_of_succ_le hk), ← hvalue]
    by_cases hstart : (Program.capture data ⟨k, hk⟩).start < data.length
    · rw [planned_succ_of_lt (i := ⟨k, hk⟩) hstart, List.map_append, List.sum_append]
      simp
    · have hempty : (Program.capture data ⟨k, hk⟩).value data = 0 := by
        have hdrop : data.drop (k * chunkSize data n) = [] :=
          List.drop_of_length_le (Nat.le_of_not_lt hstart)
        rw [hvalue, hdrop]
        simp
      rw [planned_succ_of_le (i := ⟨k, hk⟩) (Nat.le_of_not_lt hstart), hempty, add_zero]

/-- **All turns cover all data.** -/
theorem sum_planned_all (hn : 1 ≤ n) (data : List (BitVec 32)) :
    ((planned n data n).map (Thunk.value data)).sum = data.sum := by
  have hcover : data.length ≤ n * chunkSize data n := by
    have hdiv := Nat.div_add_mod (data.length + n - 1) n
    have hmod := Nat.mod_lt (data.length + n - 1) hn
    rw [chunkSize]
    omega
  rw [sum_planned data (Nat.le_refl n), List.take_of_length_le hcover]

theorem planned_i_lt (data : List (BitVec 32)) (k : Nat) :
    ∀ thunk ∈ planned n data k, thunk.i.val < k := by
  induction k with
  | zero => simp [planned]
  | succ k ih =>
    intro thunk hmem
    rcases planned_succ_cases data k with heq | ⟨i, hi, heq⟩
    · rw [heq] at hmem
      exact Nat.lt_succ_of_lt (ih thunk hmem)
    · rw [heq] at hmem
      rcases List.mem_append.mp hmem with hmem | hmem
      · exact Nat.lt_succ_of_lt (ih thunk hmem)
      · rw [List.mem_singleton.mp hmem]
        exact Nat.lt_succ_of_le (Nat.le_of_eq hi)

/-- No two tasks write the same cell. -/
theorem nodup_planned (data : List (BitVec 32)) (k : Nat) :
    ((planned n data k).map Thunk.i).Nodup := by
  induction k with
  | zero => simp [planned]
  | succ k ih =>
    rcases planned_succ_cases data k with heq | ⟨i, hi, heq⟩
    · rwa [heq]
    · rw [heq, List.map_append, List.map_singleton]
      refine List.Nodup.append ih (List.nodup_singleton _) ?_
      rw [List.disjoint_singleton]
      intro hmem
      obtain ⟨thunk, hthunk, hsame⟩ := List.mem_map.mp hmem
      have hlt := planned_i_lt data k thunk hthunk
      rw [hsame] at hlt
      exact absurd hi (Nat.ne_of_lt hlt)

/-! ## The tasks of the program -/

/-- The turns of the loop that are over. -/
def MainPc.turns (n : Nat) : MainPc → Nat
  | .scheduling i => i
  | _ => n

/-- `pool.wait()` has returned. -/
def MainPc.HasWaited : MainPc → Prop
  | .scheduling _ | .waiting => False
  | _ => True

/-- The pool has been given the tasks of the turns so far, and no task is in the queue once
`pool.wait()` has returned. -/
structure Program.Planned (data : List (BitVec 32)) (s : Program n) : Prop where
  turns : s.main.turns n ≤ n
  thunks : s.thunks = planned n data (s.main.turns n)
  scheduled : s.pool.scheduled = (List.range s.thunks.length).map fun k => ⟨k, true⟩
  quiet : s.main.HasWaited → s.pool.tasks = []

theorem planned_init (n : Nat) (data : List (BitVec 32)) : (Program.init n).Planned data where
  turns := Nat.zero_le n
  thunks := rfl
  scheduled := rfl
  quiet := fun h => h.elim

/-- Only `schedule` puts a task into the queue. -/
theorem unscheduled_step {s s' : Pool n} {l : Label n} (h : s.step l = some s')
    (hl : ∀ origin callable wake, l ≠ .schedule origin callable wake) :
    s'.scheduled = s.scheduled ∧ (s.tasks = [] → s'.tasks = []) := by
  cases moves_of_step h with
  | schedule origin callable wake => exact absurd rfl (hl origin callable wake)
  | take i task tasks callers hready htasks =>
    refine ⟨rfl, fun hempty => ?_⟩
    rw [htasks] at hempty
    cases hempty
  | _ => exact ⟨rfl, id⟩

theorem ofThreads_ne_schedule {l : Label n} (hl : l.ofThreads = true) :
    ∀ origin callable wake, l ≠ .schedule origin callable wake := by
  rintro origin callable wake rfl
  cases hl

/-- The steps of `wait` leave an idle caller behind only with an empty queue. -/
theorem tasks_of_wait {s s' : Pool n} {c : Caller n} (h : s.step (.wait c) = some s')
    (hidle : s'.callers c = .idle) : s'.tasks = [] := by
  cases moves_of_step h with
  | waitReturn c before hc htasks => exact htasks
  | waitSleep c before hc htasks =>
    rw [callers_setCaller, if_pos rfl] at hidle
    cases hidle

/-- **Every step keeps the plan.** -/
theorem planned_step (s : Program n) (l : ProgramLabel n) (s' : Program n) (hs : s.Planned data)
    (h : (programSystem n data).step s l = some s') : s'.Planned data := by
  have hkept : ∀ {pool : Pool n} {results : Option (Fin n → BitVec 32)} {main : MainPc},
      pool.scheduled = s.pool.scheduled → main.turns n = s.main.turns n →
        (main.HasWaited → pool.tasks = []) →
          ({ s with pool := pool, results := results, main := main } : Program n).Planned data := by
    intro pool results main hscheduled hturns hquiet
    exact ⟨hturns ▸ hs.turns, hturns ▸ hs.thunks, hscheduled ▸ hs.scheduled, hquiet⟩
  cases programMoves_of_step h with
  | schedule wake i pool hmain hstart hpool =>
    have hthunks : s.thunks = planned n data i := by
      have hplan := hs.thunks
      rwa [hmain] at hplan
    refine ⟨i.isLt, ?_, ?_, fun h => h.elim⟩
    · rw [hthunks]
      exact (planned_succ_of_lt hstart).symm
    · obtain ⟨-, hpool⟩ := Option.ite_none_right_eq_some.mp hpool
      obtain rfl := Option.some.inj hpool
      show s.pool.scheduled ++ [⟨s.pool.scheduled.length, true⟩] = _
      rw [hs.scheduled, List.length_append, List.length_singleton, List.range_succ]
      simp
  | skip wake i hmain hstart =>
    have hthunks : s.thunks = planned n data i := by
      have hplan := hs.thunks
      rwa [hmain] at hplan
    exact ⟨i.isLt, hthunks.trans (planned_succ_of_le hstart).symm, hs.scheduled, fun h => h.elim⟩
  | callWait wake i pool hmain hi hpool =>
    have hturns := hs.turns
    rw [hmain] at hturns
    obtain rfl : i = n := Nat.le_antisymm hturns hi
    refine hkept (unscheduled_step hpool (by simp)).1 ?_ fun h => h.elim
    rw [hmain]
    rfl
  | wait wake pool hmain hpool =>
    refine hkept (unscheduled_step hpool (by simp)).1 ?_ ?_
    · rw [hmain]
      split <;> rfl
    · intro hwaited
      split at hwaited
      · rename_i hidle
        exact tasks_of_wait hpool hidle
      · exact hwaited.elim
  | print wake results hmain hresults =>
    exact hkept rfl (by rw [hmain]; rfl) fun _ => hs.quiet (by rw [hmain]; trivial)
  | destroyResults wake totalSum hmain =>
    exact hkept rfl (by rw [hmain]; rfl) fun _ => hs.quiet (by rw [hmain]; trivial)
  | destroy wake totalSum pool hmain hpool =>
    have hpool := unscheduled_step hpool (by simp)
    exact hkept hpool.1 rfl fun hwaited => hpool.2 (hs.quiet hwaited)
  | thread l pool hl hpool =>
    have hpool := unscheduled_step hpool (ofThreads_ne_schedule hl)
    exact hkept hpool.1 rfl fun hwaited => hpool.2 (hs.quiet hwaited)

end Acso.ThreadPool
