import Acso.Arm.Memory

/-!
# The machine state

The globals of the simulator as one record: the two latches `CURRENT_STATE` and
`NEXT_STATE`, the run bit, the branch flag of `sim.c`, the instruction count
and the memory.  The executors read the current latch and write the next one
through `CpuState.writeReg`, which leaves `XZR` alone, `CpuState.setReg`, which
does not, and `CpuState.setFlags`.
-/

namespace Acso.Arm

open Acso.Lib

/-- `CPU_State`. -/
@[ext] structure CpuState where
  pc : BitVec 64
  regs : Vector (BitVec 64) 32
  flagN : Bool
  flagZ : Bool
  deriving DecidableEq

/-- The globals of `shell.c` and `sim.c`. -/
structure Machine where
  currentState : CpuState
  nextState : CpuState
  runBit : Bool
  branchFlag : Bool
  instructionCount : BitVec 32
  mem : Memory

def xzr : BitVec 5 := 0x1f

namespace CpuState

/-- `REGS[r]`. -/
def reg (s : CpuState) (r : BitVec 5) : BitVec 64 := getElem s.regs r.toNat r.isLt

/-- `REGS[r] = v`. -/
def setReg (s : CpuState) (r : BitVec 5) (v : BitVec 64) : CpuState :=
  { s with regs := s.regs.set r.toNat v r.isLt }

/-- `if (r != XZR) REGS[r] = v`. -/
def writeReg (s : CpuState) (r : BitVec 5) (v : BitVec 64) : CpuState :=
  if r ≠ xzr then s.setReg r v else s

/-- `FLAG_N = result >> 63; FLAG_Z = result == 0`. -/
def setFlags (s : CpuState) (result : BitVec 64) : CpuState :=
  { s with flagN := result >>> 63 ≠ 0, flagZ := result = 0 }

@[simp] theorem setReg_pc (s : CpuState) (r v) : (s.setReg r v).pc = s.pc := rfl
@[simp] theorem setReg_flagN (s : CpuState) (r v) : (s.setReg r v).flagN = s.flagN := rfl
@[simp] theorem setReg_flagZ (s : CpuState) (r v) : (s.setReg r v).flagZ = s.flagZ := rfl
@[simp] theorem setFlags_pc (s : CpuState) (v) : (s.setFlags v).pc = s.pc := rfl
@[simp] theorem setFlags_reg (s : CpuState) (v r) : (s.setFlags v).reg r = s.reg r := rfl

@[simp] theorem reg_with_pc (s : CpuState) (pc r) : ({ s with pc := pc } : CpuState).reg r = s.reg r :=
  rfl

theorem reg_setReg (s : CpuState) (r r' : BitVec 5) (v : BitVec 64) :
    (s.setReg r v).reg r' = if r' = r then v else s.reg r' := by
  have hne : r.toNat = r'.toNat ↔ r' = r := by rw [← BitVec.toNat_inj, eq_comm]
  simp only [reg, setReg, Vector.getElem_set]
  by_cases h : r' = r
  · rw [if_pos (hne.mpr h), if_pos h]
  · rw [if_neg (fun e => h (hne.mp e)), if_neg h]

@[simp] theorem writeReg_pc (s : CpuState) (r v) : (s.writeReg r v).pc = s.pc := by
  unfold writeReg; split <;> rfl
@[simp] theorem writeReg_flagN (s : CpuState) (r v) : (s.writeReg r v).flagN = s.flagN := by
  unfold writeReg; split <;> rfl
@[simp] theorem writeReg_flagZ (s : CpuState) (r v) : (s.writeReg r v).flagZ = s.flagZ := by
  unfold writeReg; split <;> rfl

theorem reg_writeReg (s : CpuState) (r r' : BitVec 5) (v : BitVec 64) :
    (s.writeReg r v).reg r' = if r ≠ xzr ∧ r' = r then v else s.reg r' := by
  unfold writeReg
  by_cases h : r = xzr
  · simp [h]
  · simp [h, reg_setReg]

/-- **`writeReg` never touches `XZR`.** -/
@[simp] theorem writeReg_reg_xzr (s : CpuState) (r v) : (s.writeReg r v).reg xzr = s.reg xzr := by
  rw [reg_writeReg, if_neg]
  rintro ⟨h, rfl⟩
  exact h rfl

/-- Two CPU states with the same registers, program counter and flags. -/
theorem ext_reg {s t : CpuState} (hpc : s.pc = t.pc) (hreg : ∀ r, s.reg r = t.reg r)
    (hN : s.flagN = t.flagN) (hZ : s.flagZ = t.flagZ) : s = t := by
  refine CpuState.ext hpc (Vector.ext ?_) hN hZ
  intro i hi
  exact hreg (BitVec.ofFin ⟨i, hi⟩)

/-- Writing a register the value it has. -/
@[simp] theorem setReg_reg_self (s : CpuState) (r : BitVec 5) : s.setReg r (s.reg r) = s := by
  refine ext_reg rfl ?_ rfl rfl
  intro r'
  rw [reg_setReg]
  split
  · rw [‹r' = r›]
  · rfl

end CpuState

end Acso.Arm
