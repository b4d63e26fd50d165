import Acso.Arm.Frame

/-!
# Shifted operands

A64 shifts the second operand of the register rows and complements it in some words of the
logical ones (`ShiftedRow.operand2`).  The executors take both registers as they are
(`cycle_shiftedRow`), which is right for the words that ask for neither
(`shifted_register_result`).
-/

namespace Acso.Arm

/-- A row of the table whose words have a shifted register as their second operand. -/
structure ShiftedRow where
  opcodeLength : Nat
  opcode : BitVec 32
  op : BitVec 64 → BitVec 64 → BitVec 64
  /-- Bit 21 complements the operand. -/
  logical : Bool

/-- ANDS, EOR, ORR, ADDS, SUBS with CMP, and ADD. -/
def shiftedRows : List ShiftedRow :=
  [ ⟨8, 0xea, fun a b => a &&& b, true⟩,
    ⟨8, 0xca, fun a b => a ^^^ b, true⟩,
    ⟨8, 0xaa, fun a b => a ||| b, true⟩,
    ⟨11, 0x558, fun a b => a + b, false⟩,
    ⟨11, 0x758, fun a b => a - b, false⟩,
    ⟨11, 0x458, fun a b => a + b, false⟩ ]

/-- `x` after LSL, LSR, ASR or ROR, as the shift type says. -/
def shiftReg (shiftType : BitVec 2) (x : BitVec 64) (amount : Nat) : BitVec 64 :=
  if shiftType = 0 then x <<< amount
  else if shiftType = 1 then x >>> amount
  else if shiftType = 2 then x.sshiftRight amount
  else x.rotateRight amount

/-- The second operand in A64. -/
def ShiftedRow.operand2 (row : ShiftedRow) (s : CpuState) (w : BitVec 32) : BitVec 64 :=
  let shifted := shiftReg (field w 22 2) (s.reg (field w 16 5)) (field w 10 6).toNat
  if row.logical ∧ field w 21 1 = 1 then ~~~shifted else shifted

/-- The result in A64. -/
def ShiftedRow.result (row : ShiftedRow) (s : CpuState) (w : BitVec 32) : BitVec 64 :=
  row.op (s.reg (field w 5 5)) (row.operand2 s w)

/-- The word shifts by nothing and does not complement. -/
def ShiftedRow.Plain (row : ShiftedRow) (w : BitVec 32) : Prop :=
  field w 10 6 = 0 ∧ (row.logical → field w 21 1 = 0)

theorem shiftReg_zero (shiftType : BitVec 2) (x : BitVec 64) : shiftReg shiftType x 0 = x := by
  unfold shiftReg
  split_ifs
  · exact BitVec.shiftLeft_zero x
  · exact BitVec.ushiftRight_zero x
  · exact BitVec.sshiftRight_zero
  · simp [BitVec.rotateRight, BitVec.rotateRightAux]

theorem ShiftedRow.Plain.result {row : ShiftedRow} {w : BitVec 32} (h : row.Plain w) (s : CpuState) :
    row.result s w = row.op (s.reg (field w 5 5)) (s.reg (field w 16 5)) := by
  have hbit : ¬ (row.logical ∧ field w 21 1 = 1) := by
    rintro ⟨hlogical, hone⟩
    rw [h.2 hlogical] at hone
    cases hone
  rw [ShiftedRow.result, ShiftedRow.operand2, h.1, if_neg hbit]
  exact congrArg _ (shiftReg_zero _ _)

/-! ## The executors -/

section

variable {m : Machine} {w : BitVec 32} (u : DataT) (hrd : field w 0 5 ≠ xzr)
include hrd

theorem aluReg_reg (op : BitVec 64 → BitVec 64 → BitVec 64) (flags : Bool) :
    (aluReg op flags (decodeR u w) m).nextState.reg (field w 0 5) =
      op (m.currentState.reg (field w 5 5)) (m.currentState.reg (field w 16 5)) := by
  simp only [aluReg, decodeR_rn, decodeR_rm, decodeR_rd]
  exact (CpuState.reg_writeReg _ _ _ _).trans (if_pos ⟨hrd, rfl⟩)

theorem executeAddEr_reg : (executeAddEr (decodeR u w) m).nextState.reg (field w 0 5) =
    m.currentState.reg (field w 5 5) + m.currentState.reg (field w 16 5) := by
  simp only [executeAddEr, decodeR_rn, decodeR_rm, decodeR_rd]
  rw [if_pos hrd]
  exact (CpuState.reg_setReg _ _ _ _).trans (if_pos rfl)

end

/-- **The executors take the registers as they are.** -/
theorem cycle_shiftedRow {row : ShiftedRow} (hrow : row ∈ shiftedRows) (u : DataT) {m : Machine}
    (hop : m.fetched >>> (32 - row.opcodeLength) = row.opcode) (hrd : field m.fetched 0 5 ≠ xzr) :
    (cycle u m).currentState.reg (field m.fetched 0 5) =
      row.op (m.currentState.reg (field m.fetched 5 5))
        (m.currentState.reg (field m.fetched 16 5)) := by
  have hdispatch : ∀ execute, ⟨row.opcodeLength, row.opcode, decodeR, execute⟩ ∈ instructions →
      (execute (decodeR u m.fetched) m).nextState.reg (field m.fetched 0 5) =
        row.op (m.currentState.reg (field m.fetched 5 5))
          (m.currentState.reg (field m.fetched 16 5)) →
      (cycle u m).currentState.reg (field m.fetched 0 5) =
        row.op (m.currentState.reg (field m.fetched 5 5))
          (m.currentState.reg (field m.fetched 16 5)) := by
    intro execute hmem hresult
    rw [cycle_reg u (dispatch_eq_some.mpr ⟨hmem, hop.symm⟩)]
    exact hresult
  simp only [shiftedRows, List.mem_cons, List.not_mem_nil, or_false] at hrow
  rcases hrow with rfl | rfl | rfl | rfl | rfl | rfl
  · exact hdispatch executeAndsSr (by simp [instructions]) (aluReg_reg u hrd _ _)
  · exact hdispatch executeEorSr (by simp [instructions]) (aluReg_reg u hrd _ _)
  · exact hdispatch executeOrrSr (by simp [instructions]) (aluReg_reg u hrd _ _)
  · exact hdispatch executeAddsEr (by simp [instructions]) (aluReg_reg u hrd _ _)
  · refine hdispatch executeSubsCmpEr (by simp [instructions]) ?_
    rw [executeSubsCmpEr_eq]
    exact aluReg_reg u hrd _ _
  · exact hdispatch executeAddEr (by simp [instructions]) (executeAddEr_reg u hrd)

/-- **What a register row writes**: its operation on the two registers, whatever the shift
fields hold; which is the A64 result of the words without a shift. -/
theorem shifted_register_result (row : ShiftedRow) (hrow : row ∈ shiftedRows) (u : DataT)
    (m : Machine) (hop : m.fetched >>> (32 - row.opcodeLength) = row.opcode)
    (hrd : field m.fetched 0 5 ≠ xzr) :
    (cycle u m).currentState.reg (field m.fetched 0 5) =
        row.op (m.currentState.reg (field m.fetched 5 5))
          (m.currentState.reg (field m.fetched 16 5)) ∧
      (row.Plain m.fetched → (cycle u m).currentState.reg (field m.fetched 0 5) =
        row.result m.currentState m.fetched) := by
  have hwritten := cycle_shiftedRow hrow u hop hrd
  refine ⟨hwritten, ?_⟩
  intro hplain
  rw [hwritten, hplain.result]

/-- About to execute `w` with `x1 = 1` and `x2 = 2`. -/
def registerMachine (w : BitVec 32) : Machine :=
  let start : CpuState :=
    { (zeroState.setReg 1 1).setReg 2 2 with pc := BitVec.ofNat 64 memTextStart }
  { boot (loadWords 0 [w] fun _ _ => 0) with currentState := start, nextState := start }

/-- `orr x3, x1, x2`. -/
theorem registerMachine_orr :
    (cycle default (registerMachine 0xaa020023)).currentState.reg 3 = 3 := by
  have h := (shifted_register_result ⟨8, 0xaa, fun a b => a ||| b, true⟩ (by simp [shiftedRows])
    default (registerMachine 0xaa020023) (by decide) (by decide)).1
  exact h

/-- `orr x3, x1, x2, lsl #1` should give `5`. -/
theorem registerMachine_unshifted :
    ¬ ∀ row ∈ shiftedRows, ∀ (u : DataT) (m : Machine),
      m.fetched >>> (32 - row.opcodeLength) = row.opcode → field m.fetched 0 5 ≠ xzr →
        (cycle u m).currentState.reg (field m.fetched 0 5) = row.result m.currentState m.fetched := by
  intro h
  have hreg := h ⟨8, 0xaa, fun a b => a ||| b, true⟩ (by simp [shiftedRows]) default
    (registerMachine 0xaa020423) (by decide) (by decide)
  revert hreg
  decide

end Acso.Arm
