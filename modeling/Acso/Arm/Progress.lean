import Acso.Arm.ProgramCounter

/-!
# Progress

`go` calls `cycle` until the run bit is clear, so a cycle that changes nothing
is repeated forever.  Apart from a branch to itself there are two kinds of such
cycles: the word matches no row, and `processInstruction` falls through its loop;
or it is an ADD (extended register), which does not move the program counter,
and the sum is what the destination holds already.  `progresses_iff_advances`
says that there are no others, and `along_progresses_iff` that a run spins
nowhere exactly when it meets neither.
-/

namespace Acso.Arm

open Acso.Lib

/-- Something the user can see differs. -/
def Changed (m m' : Machine) : Prop :=
  m'.currentState.pc ≠ m.currentState.pc ∨
    (∃ r, m'.currentState.reg r ≠ m.currentState.reg r) ∨
    m'.currentState.flagN ≠ m.currentState.flagN ∨
    m'.currentState.flagZ ≠ m.currentState.flagZ ∨
    m'.mem ≠ m.mem ∨ m'.runBit ≠ m.runBit

/-- The word is a branch, taken to its own address. -/
def BranchesToItself (m : Machine) : Prop :=
  takenTarget m.currentState m.fetched = some m.currentState.pc

/-- The cycle changes something, unless it is a branch to itself. -/
def Progresses (u : DataT) (m : Machine) : Prop :=
  ¬ BranchesToItself m → Changed m (cycle u m)

/-- The word is an ADD (extended register) whose sum the destination, which is
not `XZR`, holds already. -/
def AddsInPlace (m : Machine) : Prop :=
  WritesAddEr m.fetched ∧
    m.currentState.reg (field m.fetched 5 5) + m.currentState.reg (field m.fetched 16 5) =
      m.currentState.reg (field m.fetched 0 5)

/-- The word matches a row and is not an ADD that leaves its destination as it is. -/
def Advances (m : Machine) : Prop :=
  (∃ row ∈ instructions, row.Matches m.fetched) ∧ ¬ AddsInPlace m

theorem takenTarget_of_dispatch_none {w : BitVec 32} (s : CpuState) (h : dispatch w = none) :
    takenTarget s w = none := by
  have hno := dispatch_eq_none.mp h
  have h5 : w >>> 26 ≠ 0x5 := fun e => hno ⟨6, 0x5, decodeB, executeB⟩ (by simp [instructions]) e.symm
  have h54 : w >>> 24 ≠ 0x54 := fun e =>
    hno ⟨8, 0x54, decodeCb, executeBCond⟩ (by simp [instructions]) e.symm
  have hb4 : w >>> 24 ≠ 0xb4 := fun e =>
    hno ⟨8, 0xb4, decodeCb, executeCbz⟩ (by simp [instructions]) e.symm
  have hb5 : w >>> 24 ≠ 0xb5 := fun e =>
    hno ⟨8, 0xb5, decodeCb, executeCbnz⟩ (by simp [instructions]) e.symm
  have h6b0 : w >>> 21 ≠ 0x6b0 := fun e =>
    hno ⟨11, 0x6b0, decodeR, executeBr⟩ (by simp [instructions]) e.symm
  rw [takenTarget, branchTarget, if_neg h5, if_neg h54, if_neg hb4, if_neg hb5, if_neg h6b0]

/-- A word that matches no row changes nothing. -/
theorem not_progresses_of_none (u : DataT) {m : Machine} (hm : m.Latched)
    (h : dispatch m.fetched = none) : ¬ Progresses u m := by
  intro hp
  have hnot : ¬ BranchesToItself m := by
    rw [BranchesToItself, takenTarget_of_dispatch_none _ h]
    simp
  have hc := hp hnot
  rw [cycle_of_none u h] at hc
  simp [Changed, hm.nextState] at hc

/-- Where the program counter goes to a target or on, the cycle makes progress. -/
theorem progresses_of_pc (u : DataT) {m : Machine}
    (h : (cycle u m).currentState.pc =
      (takenTarget m.currentState m.fetched).getD (m.currentState.pc + 4)) : Progresses u m := by
  intro hnot
  refine .inl ?_
  rw [h]
  cases ht : takenTarget m.currentState m.fetched with
  | none => simp
  | some target =>
    rintro rfl
    exact hnot ht

/-- **ADD (extended register)** changes its destination or nothing. -/
theorem progresses_addEr_iff (u : DataT) {m : Machine} (hm : m.Latched)
    (hw : WritesAddEr m.fetched) : Progresses u m ↔ ¬ AddsInPlace m := by
  obtain ⟨hop, hrd⟩ := hw
  have hd : dispatch m.fetched = some ⟨11, addErOpcode, decodeR, executeAddEr⟩ :=
    dispatch_eq_some.mpr ⟨by simp [instructions, addErOpcode], hop.symm⟩
  have hnot : ¬ BranchesToItself m := by
    rw [BranchesToItself, takenTarget_eq_none _ hd (by decide)]
    simp
  have hcycle : cycle u m = { m with
      currentState := m.currentState.setReg (field m.fetched 0 5)
        (m.currentState.reg (field m.fetched 5 5) + m.currentState.reg (field m.fetched 16 5))
      nextState := m.currentState.setReg (field m.fetched 0 5)
        (m.currentState.reg (field m.fetched 5 5) + m.currentState.reg (field m.fetched 16 5))
      branchFlag := false
      instructionCount := m.instructionCount + 1 } := by
    rw [cycle_of_some u hd]
    simp [Instruction.result, executeAddEr, hrd, hm.nextState]
  constructor
  · rintro hp ⟨-, heq⟩
    have hc := hp hnot
    rw [hcycle, heq, CpuState.setReg_reg_self] at hc
    simp [Changed] at hc
  · intro h _
    refine .inr (.inl ⟨field m.fetched 0 5, fun heq => h ⟨⟨hop, hrd⟩, ?_⟩⟩)
    rwa [hcycle, CpuState.reg_setReg, if_pos rfl] at heq

/-- **One cycle** makes progress exactly when the word advances the machine. -/
theorem progresses_iff_advances (u : DataT) {m : Machine} (hm : m.Latched) :
    Progresses u m ↔ Advances m := by
  cases hd : dispatch m.fetched with
  | none =>
    have hno := dispatch_eq_none.mp hd
    exact iff_of_false (not_progresses_of_none u hm hd) fun ⟨⟨row, hmem, hrow⟩, _⟩ =>
      hno row hmem hrow
  | some row =>
    have hex : ∃ row ∈ instructions, row.Matches m.fetched := ⟨row, dispatch_eq_some.mp hd⟩
    rw [Advances, and_iff_right hex]
    by_cases hw : WritesAddEr m.fetched
    · exact progresses_addEr_iff u hm hw
    · exact iff_of_true (progresses_of_pc u (cycle_pc_eq u hm hd hw)) fun h => hw h.1

/-- **A run of `go`** spins in none of its states exactly when it fetches no
unknown word and no ADD in place. -/
theorem along_progresses_iff (mem : Memory) (us : List DataT) :
    shellSystem.Along (fun m u => m.runBit = true → Progresses u m) (boot mem) us ↔
      shellSystem.Along (fun m _ => m.runBit = true → Advances m) (boot mem) us :=
  shellSystem.along_congr Machine.Latched latched_step
    (fun _ u hm => imp_congr_right fun _ => progresses_iff_advances u hm) us (boot_latched mem)

/-- `movz x1, #10`, and nothing after it. -/
def movzProgram : List (BitVec 32) := [0xd2800141]

/-- Past the end of `movzProgram` the machine spins. -/
theorem movzProgram_spins :
    ¬ ∀ (mem : Memory) (us : List DataT) (m : Machine), shellSystem.run (boot mem) us = some m →
      m.runBit = true → ∀ u, Progresses u m := by
  intro h
  have hp := h (loadWords 0 movzProgram fun _ _ => 0) [default] _ rfl rfl default
  exact not_progresses_of_none default ((boot_latched _).cycle default) (by decide) hp

end Acso.Arm
