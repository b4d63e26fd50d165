import Acso.Lib.System
import Acso.Arm.Sim

/-!
# The shell around the simulator

`shell.c`: one `cycle`, the loops of `run` and `go`, and `initialize`.  Both loops
look at the run bit before every cycle, so both are runs of `shellSystem`; its
labels are the contents the local `instruction_data` happens to have in each
cycle.
-/

namespace Acso.Arm

open Acso.Lib

def cycle (instructionData : DataT) (m : Machine) : Machine :=
  let m := processInstruction instructionData m
  { m with currentState := m.nextState, instructionCount := m.instructionCount + 1 }

/-- The loop of `run`, with `n` turns left. -/
def runLoop (instructionData : Nat → DataT) : Nat → Machine → Machine
  | 0, m => m
  | n + 1, m =>
    if m.runBit = false then m
    else runLoop (fun i => instructionData (i + 1)) n (cycle (instructionData 0) m)

def run (instructionData : Nat → DataT) (numCycles : Int) (m : Machine) : Machine :=
  if m.runBit = false then m else runLoop instructionData numCycles.toNat m

/-- The loop of `go`, for as many turns as there is fuel; `none` if it is still
running then. -/
def goLoop (instructionData : Nat → DataT) : Nat → Machine → Option Machine
  | 0, _ => none
  | fuel + 1, m =>
    if m.runBit then goLoop (fun i => instructionData (i + 1)) fuel (cycle (instructionData 0) m)
    else some m

def go (instructionData : Nat → DataT) (fuel : Nat) (m : Machine) : Option Machine :=
  if m.runBit = false then some m else goLoop instructionData fuel m

/-- `while (RUN_BIT) cycle()`, one turn at a time. -/
def shellSystem : System Machine DataT where
  step m instructionData := if m.runBit then some (cycle instructionData m) else none

/-! ## Starting the machine -/

/-- `initMemory` clears `size` bytes of each buffer and leaves the last three as
`malloc` returned them. -/
def initMemory (garbage : Memory) : Memory :=
  fun r offset => if offset < r.size then 0 else garbage r offset

/-- The loop of `loadProgram`: stores the words from `memTextStart + ii` on. -/
def loadWords : Nat → List (BitVec 32) → Memory → Memory
  | _, [], mem => mem
  | ii, word :: words, mem =>
    loadWords (ii + 4) words (memWrite32 mem (BitVec.ofNat 64 (memTextStart + ii)) word)

/-- The globals before `main`. -/
def zeroState : CpuState := ⟨0, Vector.replicate 32 0, false, false⟩

def loadProgram (words : List (BitVec 32)) (m : Machine) : Machine :=
  { m with
    mem := loadWords 0 words m.mem
    currentState := { m.currentState with pc := BitVec.ofNat 64 memTextStart } }

def initializeMachine (garbage : Memory) (programs : List (List (BitVec 32))) : Machine :=
  let m : Machine := ⟨zeroState, zeroState, false, false, 0, initMemory garbage⟩
  let m := programs.foldl (fun m words => loadProgram words m) m
  { m with nextState := m.currentState, runBit := true }

/-- The machine just started on the memory `mem`. -/
def boot (mem : Memory) : Machine :=
  let start := { zeroState with pc := BitVec.ofNat 64 memTextStart }
  ⟨start, start, true, false, 0, mem⟩

theorem foldl_loadProgram (m : Machine) (words : List (BitVec 32))
    (programs : List (List (BitVec 32))) :
    (words :: programs).foldl (fun m words => loadProgram words m) m =
      { m with
        mem := (words :: programs).foldl (fun mem words => loadWords 0 words mem) m.mem
        currentState := { m.currentState with pc := BitVec.ofNat 64 memTextStart } } := by
  induction programs generalizing m words with
  | nil => rfl
  | cons words' programs ih =>
    rw [List.foldl_cons, ih]
    rfl

/-- **After `initializeMachine` the machine is `boot` on the loaded memory.** -/
theorem initializeMachine_eq_boot (garbage : Memory) (words : List (BitVec 32))
    (programs : List (List (BitVec 32))) :
    initializeMachine garbage (words :: programs) =
      boot ((words :: programs).foldl (fun mem words => loadWords 0 words mem)
        (initMemory garbage)) := by
  rw [initializeMachine, foldl_loadProgram]
  rfl

/-- `run` is a run of `shellSystem`. -/
theorem exists_run_runLoop (instructionData : Nat → DataT) (n : Nat) (m : Machine) :
    ∃ ls, shellSystem.run m ls = some (runLoop instructionData n m) := by
  induction n generalizing m instructionData with
  | zero => exact ⟨[], rfl⟩
  | succ n ih =>
    by_cases hrun : m.runBit = false
    · exact ⟨[], by simp [runLoop, hrun]⟩
    · obtain ⟨ls, hls⟩ := ih (fun i => instructionData (i + 1)) (cycle (instructionData 0) m)
      refine ⟨instructionData 0 :: ls, ?_⟩
      rw [shellSystem.run_cons_eq_some]
      refine ⟨_, ?_, by simpa [runLoop, hrun] using hls⟩
      simpa [shellSystem] using hrun

end Acso.Arm
