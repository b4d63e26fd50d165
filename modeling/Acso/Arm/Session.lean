import Acso.Arm.Running

/-!
# Sessions

The prompt of `shell.c`, one cycle at a time: between two commands the shell
waits, and within `run` and `go` it takes their turns.  A turn of the system is a
turn of the loops (`session_run`, `session_go`), so its states are those between
commands and between cycles, and in all of them the two latches agree and the
branch flag is clear (`session_latched`).
-/

namespace Acso.Arm

open Acso.Lib

/-- What is typed at the prompt of `get_command`, with what is read after it. -/
inductive Command
  | go
  | run (numCycles : Int)
  | mdump (start stop : Int)
  | rdump
  | input (registerNo : BitVec 5) (registerValue : BitVec 64)
  /-- `?`, and whatever the prompt refuses. -/
  | other

/-- What the shell is doing. -/
inductive Activity
  | prompt
  /-- In the loop of `run`, with so many turns left. -/
  | running (left : Nat)
  /-- In the loop of `go`. -/
  | going

structure Session where
  machine : Machine
  activity : Activity

inductive SessionLabel
  | command (c : Command)
  /-- The next turn of the loop, with what `instruction_data` holds in it. -/
  | turn (instructionData : DataT)

/-- `REGS[register_no] = register_value`, in both latches. -/
def Machine.input (m : Machine) (registerNo : BitVec 5) (registerValue : BitVec 64) : Machine :=
  { m with
    currentState := m.currentState.setReg registerNo registerValue
    nextState := m.nextState.setReg registerNo registerValue }

/-- What a command does before its first turn; `mdump` and `rdump` only print. -/
def Machine.command (m : Machine) : Command → Session
  | .go => if m.runBit = false then ⟨m, .prompt⟩ else ⟨m, .going⟩
  | .run numCycles => if m.runBit = false then ⟨m, .prompt⟩ else ⟨m, .running numCycles.toNat⟩
  | .mdump _ _ => ⟨m, .prompt⟩
  | .rdump => ⟨m, .prompt⟩
  | .input registerNo registerValue => ⟨m.input registerNo registerValue, .prompt⟩
  | .other => ⟨m, .prompt⟩

def Session.step (s : Session) : SessionLabel → Option Session
  | .command c =>
    match s.activity with
    | .prompt => some (s.machine.command c)
    | _ => none
  | .turn instructionData =>
    match s.activity with
    | .prompt => none
    | .running 0 => some ⟨s.machine, .prompt⟩
    | .running (left + 1) =>
      if s.machine.runBit = false then some ⟨s.machine, .prompt⟩
      else some ⟨cycle instructionData s.machine, .running left⟩
    | .going =>
      if s.machine.runBit then some ⟨cycle instructionData s.machine, .going⟩
      else some ⟨s.machine, .prompt⟩

def sessionSystem : System Session SessionLabel := ⟨Session.step⟩

/-! ## The turns of the loops -/

/-- The turns of `run` end where `run` does. -/
theorem session_runLoop (u : Nat → DataT) (n : Nat) (m : Machine) :
    ∃ us : List DataT, sessionSystem.run ⟨m, .running n⟩ (us.map .turn) =
      some ⟨runLoop u n m, .prompt⟩ := by
  induction n generalizing u m with
  | zero => exact ⟨[u 0], rfl⟩
  | succ n ih =>
    by_cases hhalt : m.runBit = false
    · refine ⟨[u 0], ?_⟩
      simp [System.run, sessionSystem, Session.step, runLoop, hhalt]
    · obtain ⟨us, hus⟩ := ih (fun i => u (i + 1)) (cycle (u 0) m)
      refine ⟨u 0 :: us, ?_⟩
      rw [List.map_cons, System.run_cons_eq_some, runLoop, if_neg hhalt]
      refine ⟨⟨cycle (u 0) m, .running n⟩, ?_, hus⟩
      exact if_neg hhalt

/-- **`run` at the prompt.** -/
theorem session_run (u : Nat → DataT) (numCycles : Int) (m : Machine) :
    ∃ us : List DataT, sessionSystem.run ⟨m, .prompt⟩ (.command (.run numCycles) :: us.map .turn) =
      some ⟨run u numCycles m, .prompt⟩ := by
  by_cases hhalt : m.runBit = false
  · refine ⟨[], ?_⟩
    simp [System.run, sessionSystem, Session.step, Machine.command, run, hhalt]
  · obtain ⟨us, hus⟩ := session_runLoop u numCycles.toNat m
    refine ⟨us, ?_⟩
    rw [System.run_cons_eq_some, run, if_neg hhalt]
    refine ⟨⟨m, .running numCycles.toNat⟩, ?_, hus⟩
    exact congrArg some (if_neg hhalt)

/-- The turns of `go` end where `go` does. -/
theorem session_goLoop (u : Nat → DataT) (fuel : Nat) {m m' : Machine}
    (h : goLoop u fuel m = some m') :
    ∃ us : List DataT, sessionSystem.run ⟨m, .going⟩ (us.map .turn) = some ⟨m', .prompt⟩ := by
  induction fuel generalizing u m with
  | zero => cases h
  | succ fuel ih =>
    rw [goLoop] at h
    by_cases hrun : m.runBit = true
    · rw [if_pos hrun] at h
      obtain ⟨us, hus⟩ := ih _ h
      refine ⟨u 0 :: us, ?_⟩
      rw [List.map_cons, System.run_cons_eq_some]
      refine ⟨⟨cycle (u 0) m, .going⟩, ?_, hus⟩
      exact if_pos hrun
    · rw [if_neg hrun] at h
      obtain rfl := Option.some.inj h
      refine ⟨[u 0], ?_⟩
      simp [System.run, sessionSystem, Session.step, hrun]

/-- **`go` at the prompt**, if it terminates. -/
theorem session_go (u : Nat → DataT) (fuel : Nat) {m m' : Machine} (h : go u fuel m = some m') :
    ∃ us : List DataT, sessionSystem.run ⟨m, .prompt⟩ (.command .go :: us.map .turn) =
      some ⟨m', .prompt⟩ := by
  rw [go] at h
  by_cases hhalt : m.runBit = false
  · rw [if_pos hhalt] at h
    obtain rfl := Option.some.inj h
    refine ⟨[], ?_⟩
    simp [System.run, sessionSystem, Session.step, Machine.command, hhalt]
  · rw [if_neg hhalt] at h
    obtain ⟨us, hus⟩ := session_goLoop u fuel h
    refine ⟨us, ?_⟩
    rw [System.run_cons_eq_some]
    refine ⟨⟨m, .going⟩, ?_, hus⟩
    exact congrArg some (if_neg hhalt)

/-! ## The latches -/

/-- The machine with nothing left over from the last instruction. -/
def Machine.relatched (m : Machine) : Machine :=
  { m with nextState := m.currentState, branchFlag := false }

theorem Machine.Latched.relatched {m : Machine} (h : m.Latched) : m.relatched = m := by
  obtain ⟨current, next, runBit, branchFlag, count, mem⟩ := m
  obtain ⟨hnext, hflag⟩ := h
  dsimp only at hnext hflag
  rw [Machine.relatched, hnext, hflag]

theorem Machine.Latched.input {m : Machine} (h : m.Latched) (r : BitVec 5) (v : BitVec 64) :
    (m.input r v).Latched where
  nextState := by rw [Machine.input, h.nextState]
  branchFlag := h.branchFlag

theorem Machine.Latched.command {m : Machine} (h : m.Latched) (c : Command) :
    (m.command c).machine.Latched := by
  cases c with
  | go =>
    rw [Machine.command]
    split <;> exact h
  | run numCycles =>
    rw [Machine.command]
    split <;> exact h
  | mdump start stop => exact h
  | rdump => exact h
  | input r v => exact h.input r v
  | other => exact h

/-- **A step of a session** keeps the latches together. -/
theorem session_latched_step (s : Session) (l : SessionLabel) (s' : Session)
    (hs : s.machine.Latched) (h : sessionSystem.step s l = some s') : s'.machine.Latched := by
  change s.step l = some s' at h
  unfold Session.step at h
  split at h
  · split at h
    · obtain rfl := Option.some.inj h
      exact hs.command _
    · cases h
  · split at h
    · cases h
    · obtain rfl := Option.some.inj h
      exact hs
    · split at h
      · obtain rfl := Option.some.inj h
        exact hs
      · obtain rfl := Option.some.inj h
        exact hs.cycle _
    · split at h
      · obtain rfl := Option.some.inj h
        exact hs.cycle _
      · obtain rfl := Option.some.inj h
        exact hs

theorem initializeMachine_latched (garbage : Memory) (programs : List (List (BitVec 32))) :
    (initializeMachine garbage programs).Latched := by
  cases programs with
  | nil => exact ⟨rfl, rfl⟩
  | cons words programs =>
    rw [initializeMachine_eq_boot]
    exact boot_latched _

/-- **In every state of every session** the latches agree and the branch flag is
clear, so a cycle finds nothing left over from the one before. -/
theorem session_latched (garbage : Memory) (programs : List (List (BitVec 32)))
    (ls : List SessionLabel) :
    sessionSystem.Visits
      (fun s => s.machine.nextState = s.machine.currentState ∧ s.machine.branchFlag = false ∧
        ∀ u, cycle u s.machine = cycle u s.machine.relatched)
      ⟨initializeMachine garbage programs, .prompt⟩ ls := by
  have hvisits := sessionSystem.visits_of_invariant session_latched_step ls
    (s := ⟨initializeMachine garbage programs, .prompt⟩) (initializeMachine_latched garbage programs)
  refine System.Visits.imp ?_ hvisits
  intro s hs
  exact ⟨hs.nextState, hs.branchFlag, fun u => by rw [hs.relatched]⟩

end Acso.Arm
