import Acso.Lib.SignedOrder
import Acso.Arm.Frame
import Acso.Arm.ProgramCounter

/-!
# Compare and branch

CMP is SUBS with destination `XZR`: it leaves the flags of a difference and no
register.  B.cond reads them with `V = 0`, which is right as long as the difference
does not overflow; then the pair branches exactly when the signed relation that the
condition names holds (`cmp_branch_signed`).
-/

namespace Acso.Arm

open Acso.Lib

/-- The conditions of the simulator. -/
inductive Condition
  | eq
  | ne
  | lt
  | gt
  | le
  deriving DecidableEq

/-- The condition field of a B.cond. -/
def Condition.code : Condition → BitVec 5
  | .eq => 0x0
  | .ne => 0x1
  | .lt => 0xb
  | .gt => 0xc
  | .le => 0xd

/-- The relation that the condition names. -/
def Condition.Holds : Condition → Int → Int → Prop
  | .eq, x, y => x = y
  | .ne, x, y => x ≠ y
  | .lt, x, y => x < y
  | .gt, x, y => x > y
  | .le, x, y => x ≤ y

instance (cond : Condition) (x y : Int) : Decidable (cond.Holds x y) := by
  cases cond <;> unfold Condition.Holds <;> infer_instance

/-- The word compares `x` with `y`: a register or immediate SUBS with destination `XZR`. -/
inductive Compares (s : CpuState) (w : BitVec 32) : BitVec 64 → BitVec 64 → Prop
  | register (hop : w >>> 21 = 0x758) (hrd : field w 0 5 = xzr) :
      Compares s w (s.reg (field w 5 5)) (s.reg (field w 16 5))
  | immediate (hop : w >>> 24 = 0xf1) (hrd : field w 0 5 = xzr) :
      Compares s w (s.reg (field w 5 5)) (immOperand w)

/-! ## The compare -/

section compare

variable {m : Machine} {x y : BitVec 64}

theorem Compares.dispatch {w : BitVec 32} (h : Compares m.currentState w x y) :
    ∃ row, Arm.dispatch w = some row ∧ row.opcode ∈ flagOpcodes ∧ field w 0 5 = xzr ∧
      flagResult m.currentState w = some (x - y) := by
  cases h with
  | register hop hrd =>
    have hd : Arm.dispatch w = some ⟨11, 0x758, decodeR, executeSubsCmpEr⟩ :=
      dispatch_eq_some.mpr ⟨by simp [instructions], hop.symm⟩
    refine ⟨_, hd, by decide, hrd, ?_⟩
    rw [flagResult_eq _ hd]
    simp
  | immediate hop hrd =>
    have hd : Arm.dispatch w = some ⟨8, 0xf1, decodeI, executeSubsCmpImm⟩ :=
      dispatch_eq_some.mpr ⟨by simp [instructions], hop.symm⟩
    refine ⟨_, hd, by decide, hrd, ?_⟩
    rw [flagResult_eq _ hd]
    simp

/-- The rows that set the flags neither branch nor store. -/
theorem flagOpcodes_apart {opcode : BitVec 32} (h : opcode ∈ flagOpcodes) :
    opcode ∉ branchOpcodes ∧ opcode ≠ addErOpcode ∧ opcode ∉ storeOpcodes := by
  simp only [flagOpcodes, List.mem_cons, List.not_mem_nil, or_false] at h
  rcases h with rfl | rfl | rfl | rfl | rfl <;> decide

/-- **A compare** leaves the flags of the difference, and goes on to the next word. -/
theorem cycle_compare (u : DataT) (hm : m.Latched) (h : Compares m.currentState m.fetched x y) :
    (cycle u m).currentState = { m.currentState with
      pc := m.currentState.pc + 4, flagN := (x - y).msb, flagZ := decide (x - y = 0) } ∧
    (cycle u m).mem = m.mem := by
  obtain ⟨row, hd, hflag, hrd, hresult⟩ := h.dispatch
  obtain ⟨result, hresult', hnext⟩ := flag_result u hd hflag
  obtain rfl := Option.some.inj (hresult.symm.trans hresult')
  obtain ⟨hbranch, haddEr, hstore⟩ := flagOpcodes_apart hflag
  obtain ⟨hZ, hN⟩ := (cycle_framed u m hm.nextState).flagsSet _ hresult
  refine ⟨CpuState.ext_reg ?_ ?_ hN ?_, ?_⟩
  · exact cycle_pc_of_other u hm hd hbranch haddEr
  · intro r
    rw [cycle_reg u hd, hnext, hrd, hm.nextState]
    rfl
  · rw [Bool.eq_iff_iff, hZ, decide_eq_true_iff]
  · rcases (cycle_framed u m hm.nextState).memory with ⟨row', hmem', hmatch', hop⟩ | hkeep
    · obtain ⟨hmem, hmatch⟩ := dispatch_eq_some.mp hd
      rw [hmatch'.unique hmem' hmem hmatch] at hop
      exact absurd hop hstore
    · exact hkeep

/-! ## The branch -/

/-- **The flags of a difference that fits** decide every condition. -/
theorem condTaken_iff (hfit : SubFits x y) {s : CpuState} (cond : Condition)
    (hN : s.flagN = (x - y).msb) (hZ : s.flagZ = decide (x - y = 0)) :
    condTaken s cond.code = true ↔ cond.Holds x.toInt y.toInt := by
  have hlt : s.flagN = true ↔ x.toInt < y.toInt := by rw [hN, hfit.msb_sub_iff_lt]
  have heq : s.flagZ = true ↔ x.toInt = y.toInt := by
    rw [hZ, decide_eq_true_iff, sub_eq_zero_iff_toInt]
  rw [condTaken_eq]
  cases cond with
  | eq => exact heq
  | ne =>
    show (!s.flagZ) = true ↔ ¬ _
    rw [← heq, Bool.not_eq_true', Bool.not_eq_true]
  | lt => exact hlt
  | gt =>
    show (!s.flagN && !s.flagZ) = true ↔ x.toInt > y.toInt
    rw [Bool.and_eq_true, Bool.not_eq_true', Bool.not_eq_true', ← Bool.not_eq_true,
      ← Bool.not_eq_true, heq, hlt]
    omega
  | le =>
    show (s.flagN || s.flagZ) = true ↔ x.toInt ≤ y.toInt
    rw [Bool.or_eq_true, heq, hlt]
    omega

end compare

/-- **A conditional branch** goes where its condition says, and changes no register. -/
theorem cycle_bCond (u : DataT) {m : Machine} (hm : m.Latched) (hop : m.fetched >>> 24 = 0x54) :
    (cycle u m).currentState.pc =
        (if condTaken m.currentState (field m.fetched 0 5) then
          pcRelative m.currentState (field m.fetched 5 19) else m.currentState.pc + 4) ∧
      ∀ r, (cycle u m).currentState.reg r = m.currentState.reg r := by
  have hd : dispatch m.fetched = some ⟨8, 0x54, decodeCb, executeBCond⟩ :=
    dispatch_eq_some.mpr ⟨by simp [instructions], hop.symm⟩
  refine ⟨?_, ?_⟩
  · rw [cycle_pc_of_branch u hm hd (by decide), takenTarget, branchTarget_bCond _ _ hd rfl]
    split <;> rfl
  · intro r
    rw [cycle_reg u hd, branch_result u hd (by decide), ← hm.nextState]
    cases takenTarget m.nextState m.fetched <;> rfl

/-- **Compare and branch.**  A CMP of `x` and `y`, whose difference fits, and a B.cond
behind it go to the target exactly if the relation holds of the signed numbers, and change
no register. -/
theorem cmp_branch_signed (u u' : DataT) (m : Machine) (hm : m.Latched) (x y : BitVec 64)
    (hcmp : Compares m.currentState m.fetched x y) (hfit : SubFits x y) (cond : Condition)
    (w : BitVec 32) (hw : memRead32 m.mem (m.currentState.pc + 4) = w) (hop : w >>> 24 = 0x54)
    (hcond : field w 0 5 = cond.code) :
    (cycle u' (cycle u m)).currentState.pc =
        (if cond.Holds x.toInt y.toInt then
          m.currentState.pc + 4 + BitVec.ofInt 64 (4 * (field w 5 19).toInt)
        else m.currentState.pc + 8) ∧
      ∀ r, (cycle u' (cycle u m)).currentState.reg r = m.currentState.reg r := by
  obtain ⟨hstate, hmem⟩ := cycle_compare u hm hcmp
  have hfetch : (cycle u m).fetched = w := by
    rw [Machine.fetched, hstate, hmem]
    exact hw
  have hbranch := cycle_bCond u' (hm.cycle u) (by rw [hfetch]; exact hop)
  rw [hfetch, hcond] at hbranch
  have hholds := condTaken_iff hfit (s := (cycle u m).currentState) cond (by rw [hstate])
    (by rw [hstate])
  have hnext : m.currentState.pc + 4 + 4 = m.currentState.pc + 8 := by
    rw [BitVec.add_assoc]
    rfl
  refine ⟨?_, ?_⟩
  · refine hbranch.1.trans (if_congr hholds ?_ ?_)
    · rw [pcRelative, hstate]
    · rw [hstate, ← hnext]
  · intro r
    rw [hbranch.2, hstate]
    rfl

/-- About to execute `cmp x1, x2; b.lt -8` with `x1 = -1` and `x2 = 1`. -/
def cmpBltMachine : Machine :=
  let start : CpuState :=
    { (zeroState.setReg 1 (-1)).setReg 2 1 with pc := BitVec.ofNat 64 memTextStart }
  { boot (loadWords 0 [0xeb02003f, 0x54ffffcb] fun _ _ => 0) with
    currentState := start, nextState := start }

theorem cmpBltMachine_branches :
    (cycle default (cycle default cmpBltMachine)).currentState.pc =
        (if (-1 : BitVec 64).toInt < (1 : BitVec 64).toInt then
          cmpBltMachine.currentState.pc + 4 + BitVec.ofInt 64 (4 * (-2))
        else cmpBltMachine.currentState.pc + 8) ∧
      ∀ r, (cycle default (cycle default cmpBltMachine)).currentState.reg r =
        cmpBltMachine.currentState.reg r :=
  cmp_branch_signed default default cmpBltMachine ⟨rfl, rfl⟩ (-1) 1
    (.register (by decide) (by decide)) ⟨by decide, by decide⟩ .lt 0x54ffffcb (by decide)
    (by decide) (by decide)

end Acso.Arm
