import Acso.Arm.Rows

/-!
# The program counter law

`lawfulPc` is where the program counter should go: to the target of a branch whose
condition holds, and to the next word otherwise.  `branchTarget` reads this off the word
and the old state alone, without the table or the executors.

A branch row does what `takenTarget` says (`branch_result`), and the other rows
leave the branch flag clear, so they go on to the next word.  There are two exceptions
to the law.  B.cond knows five of the conditions, and goes on to the next word where
another one holds.  ADD (extended register) with a destination other than `XZR` sets the
branch flag and writes no program counter, so the program counter stays where it was.
`cycle_pc_eq_lawfulPc_iff` says that these are the only exceptions.
-/

namespace Acso.Arm

open Acso.Lib

/-! ## Where the program counter should go -/

/-- The conditions of A64, by their number, in the flags. -/
def conditionHolds (cond : BitVec 4) (flagN flagZ flagC flagV : Bool) : Bool :=
  if cond = 0x0 then flagZ                                    -- EQ
  else if cond = 0x1 then !flagZ                              -- NE
  else if cond = 0x2 then flagC                               -- CS
  else if cond = 0x3 then !flagC                              -- CC
  else if cond = 0x4 then flagN                               -- MI
  else if cond = 0x5 then !flagN                              -- PL
  else if cond = 0x6 then flagV                               -- VS
  else if cond = 0x7 then !flagV                              -- VC
  else if cond = 0x8 then flagC && !flagZ                     -- HI
  else if cond = 0x9 then !flagC || flagZ                     -- LS
  else if cond = 0xa then flagN == flagV                      -- GE
  else if cond = 0xb then flagN != flagV                      -- LT
  else if cond = 0xc then !flagZ && flagN == flagV            -- GT
  else if cond = 0xd then flagZ || flagN != flagV             -- LE
  else true                                                   -- AL

/-- The condition of a B.cond holds, with `C = 0` and `V = 0`, as the comment of
`execute_b_cond` says.  Bit 4 of a B.cond is zero. -/
def condHolds (s : CpuState) (cond : BitVec 5) : Bool :=
  !cond.msb && conditionHolds (cond.setWidth 4) s.flagN s.flagZ false false

/-- The conditions of the switch in `execute_b_cond`: EQ, NE, LT, GT and LE. -/
def switchConds : List (BitVec 5) := [0x0, 0x1, 0xb, 0xc, 0xd]

def inSwitch (cond : BitVec 5) : Bool := decide (cond ∈ switchConds)

/-- The simulator takes a B.cond with this condition. -/
def condTaken (s : CpuState) (cond : BitVec 5) : Bool := inSwitch cond && condHolds s cond

/-- The address `imm` words away, `imm` signed. -/
def pcRelative (s : CpuState) {n : Nat} (imm : BitVec n) : BitVec 64 :=
  s.pc + BitVec.ofInt 64 (4 * imm.toInt)

/-- The target of `w`, if it is a branch to be taken in the state `s`, where `holds` says so
of the condition of a B.cond. -/
def branchTarget (holds : BitVec 5 → Bool) (s : CpuState) (w : BitVec 32) : Option (BitVec 64) :=
  if w >>> 26 = 0x5 then some (pcRelative s (field w 0 26))
  else if w >>> 24 = 0x54 then
    if holds (field w 0 5) then some (pcRelative s (field w 5 19)) else none
  else if w >>> 24 = 0xb4 then
    if s.reg (field w 0 5) = 0 then some (pcRelative s (field w 5 19)) else none
  else if w >>> 24 = 0xb5 then
    if s.reg (field w 0 5) ≠ 0 then some (pcRelative s (field w 5 19)) else none
  else if w >>> 21 = 0x6b0 then
    if field w 16 5 = 0x1f ∧ field w 10 6 = 0x0 ∧ field w 0 5 = 0x0 then
      some (s.reg (field w 5 5))
    else none
  else none

/-- The target of `w`, if it is a branch that the simulator takes. -/
def takenTarget (s : CpuState) (w : BitVec 32) : Option (BitVec 64) :=
  branchTarget (condTaken s) s w

/-- Where the program counter should go. -/
def lawfulPc (s : CpuState) (w : BitVec 32) : BitVec 64 :=
  (branchTarget (condHolds s) s w).getD (s.pc + 4)

/-- An ADD (extended register) with a destination other than `XZR`. -/
def WritesAddEr (w : BitVec 32) : Prop := w >>> 21 = addErOpcode ∧ field w 0 5 ≠ xzr

instance (w : BitVec 32) : Decidable (WritesAddEr w) := inferInstanceAs (Decidable (_ ∧ _))

/-- A B.cond whose condition holds, but is not in the switch, and whose target is not the next
word. -/
def MissesCond (s : CpuState) (w : BitVec 32) : Prop :=
  w >>> 24 = 0x54 ∧ condHolds s (field w 0 5) = true ∧ field w 0 5 ∉ switchConds ∧
    field w 5 19 ≠ 1

instance (s : CpuState) (w : BitVec 32) : Decidable (MissesCond s w) :=
  inferInstanceAs (Decidable (_ ∧ _ ∧ _ ∧ _))

/-! ## The branch offsets -/

/-- `signExtend` of an immediate shifted left by two is four times the signed
immediate. -/
theorem signExtend_shiftLeft {k : Nat} (imm : BitVec (k + 1)) (hk : k + 2 < 32) :
    signExtend (((imm.setWidth 32) <<< 2).setWidth 64) (k + 3) =
      BitVec.ofInt 64 (4 * imm.toInt) := by
  have happend : ((imm.setWidth 32) <<< 2).setWidth 64 = (imm ++ 0#2).setWidth 64 := by
    have h := imm.isLt
    have hpow : 2 ^ (k + 3) = 4 * 2 ^ (k + 1) := by rw [Nat.pow_add, Nat.pow_add]; omega
    have hle : 2 ^ (k + 3) ≤ 2 ^ 32 := Nat.pow_le_pow_right (by decide) (by omega)
    apply BitVec.eq_of_toNat_eq
    simp only [BitVec.toNat_setWidth, BitVec.toNat_shiftLeft, BitVec.toNat_append,
      BitVec.toNat_ofNat, Nat.shiftLeft_eq, Nat.zero_mod, Nat.or_zero]
    omega
  rw [happend, signExtend_setWidth (imm ++ 0#2) hk, BitVec.signExtend, BitVec.toInt_append]
  simp

/-! ## The rows -/

variable {m : Machine} {row : Instruction} (u : DataT)

/-- `branchTarget`, read off the opcode of the row a word is dispatched to. -/
theorem branchTarget_eq (holds : BitVec 5 → Bool) {w : BitVec 32} (s : CpuState)
    (h : dispatch w = some row) :
    branchTarget holds s w =
      if row.opcode = 0x5 then some (pcRelative s (field w 0 26))
      else if row.opcode = 0x54 then
        if holds (field w 0 5) then some (pcRelative s (field w 5 19)) else none
      else if row.opcode = 0xb4 then
        if s.reg (field w 0 5) = 0 then some (pcRelative s (field w 5 19)) else none
      else if row.opcode = 0xb5 then
        if s.reg (field w 0 5) ≠ 0 then some (pcRelative s (field w 5 19)) else none
      else if row.opcode = 0x6b0 then
        if field w 16 5 = 0x1f ∧ field w 10 6 = 0x0 ∧ field w 0 5 = 0x0 then
          some (s.reg (field w 5 5))
        else none
      else none := by
  have h5 : w >>> 26 = 0x5 ↔ row.opcode = 0x5 := prefix_iff h 6 0x5 (by decide)
  have h54 : w >>> 24 = 0x54 ↔ row.opcode = 0x54 := prefix_iff h 8 0x54 (by decide)
  have hb4 : w >>> 24 = 0xb4 ↔ row.opcode = 0xb4 := prefix_iff h 8 0xb4 (by decide)
  have hb5 : w >>> 24 = 0xb5 ↔ row.opcode = 0xb5 := prefix_iff h 8 0xb5 (by decide)
  have h6b0 : w >>> 21 = 0x6b0 ↔ row.opcode = 0x6b0 := prefix_iff h 11 0x6b0 (by decide)
  simp only [branchTarget, h5, h54, hb4, hb5, h6b0]

theorem branchTarget_eq_none (holds : BitVec 5 → Bool) {w : BitVec 32} (s : CpuState)
    (h : dispatch w = some row) (hb : row.opcode ∉ branchOpcodes) :
    branchTarget holds s w = none := by
  simp only [branchOpcodes, List.mem_cons, List.not_mem_nil, or_false, not_or] at hb
  rw [branchTarget_eq holds s h, if_neg hb.1, if_neg hb.2.1, if_neg hb.2.2.1, if_neg hb.2.2.2.1,
    if_neg hb.2.2.2.2]

theorem takenTarget_eq_none {w : BitVec 32} (s : CpuState) (h : dispatch w = some row)
    (hb : row.opcode ∉ branchOpcodes) : takenTarget s w = none :=
  branchTarget_eq_none (condTaken s) s h hb

/-- A B.cond. -/
theorem branchTarget_bCond (holds : BitVec 5 → Bool) {w : BitVec 32} (s : CpuState)
    (h : dispatch w = some row) (hop : row.opcode = 0x54) :
    branchTarget holds s w =
      if holds (field w 0 5) then some (pcRelative s (field w 5 19)) else none := by
  rw [branchTarget_eq holds s h, hop]
  rfl

/-- Takes the branch to `target`, if there is one. -/
def Machine.branchTo (m : Machine) : Option (BitVec 64) → Machine
  | some target => m.branch target
  | none => m

theorem executeB_eq (w : BitVec 32) :
    executeB (decodeB u w) m = m.branchTo (some (pcRelative m.currentState (field w 0 26))) := by
  rw [executeB, decodeB_brAddress, signExtend_shiftLeft _ (by decide)]
  rfl

theorem condOffset_decodeCb (w : BitVec 32) :
    condOffset (decodeCb u w) = BitVec.ofInt 64 (4 * (field w 5 19).toInt) := by
  rw [condOffset, decodeCb_condBrAddress, signExtend_shiftLeft _ (by decide)]

/-- The switch, condition by condition. -/
theorem condTaken_eq (s : CpuState) (cond : BitVec 5) :
    condTaken s cond =
      if cond = 0x0 then s.flagZ
      else if cond = 0x1 then !s.flagZ
      else if cond = 0xb then s.flagN
      else if cond = 0xc then !s.flagN && !s.flagZ
      else if cond = 0xd then s.flagN || s.flagZ
      else false := by
  simp only [condTaken, inSwitch, condHolds]
  generalize s.flagN = flagN
  generalize s.flagZ = flagZ
  revert cond flagN flagZ
  decide

theorem executeBCond_eq (w : BitVec 32) :
    executeBCond (decodeCb u w) m = m.branchTo
      (if condTaken m.currentState (field w 0 5) then
        some (pcRelative m.currentState (field w 5 19)) else none) := by
  simp only [executeBCond, condTaken_eq, condOffset_decodeCb, decodeCb_rt]
  split_ifs <;> first | rfl | simp_all

theorem compareBranch_eq (test : BitVec 64 → Bool) (w : BitVec 32) :
    compareBranch test (decodeCb u w) m = m.branchTo
      (if test (m.currentState.reg (field w 0 5)) then
        some (pcRelative m.currentState (field w 5 19)) else none) := by
  simp only [compareBranch, condOffset_decodeCb, decodeCb_rt]
  split <;> rfl

theorem executeCbz_eq (w : BitVec 32) :
    executeCbz (decodeCb u w) m = m.branchTo
      (if m.currentState.reg (field w 0 5) = 0 then
        some (pcRelative m.currentState (field w 5 19)) else none) := by
  rw [executeCbz, compareBranch_eq]
  simp only [beq_iff_eq]

theorem executeCbnz_eq (w : BitVec 32) :
    executeCbnz (decodeCb u w) m = m.branchTo
      (if m.currentState.reg (field w 0 5) ≠ 0 then
        some (pcRelative m.currentState (field w 5 19)) else none) := by
  rw [executeCbnz, compareBranch_eq]
  simp only [bne_iff_ne]

theorem executeBr_eq (w : BitVec 32) :
    executeBr (decodeR u w) m = m.branchTo
      (if field w 16 5 = 0x1f ∧ field w 10 6 = 0x0 ∧ field w 0 5 = 0x0 then
        some (m.currentState.reg (field w 5 5)) else none) := by
  simp only [executeBr, decodeR_rm, decodeR_shamt, decodeR_rd, decodeR_rn]
  split <;> rfl

/-- **A branch row takes exactly the branches of `takenTarget`.** -/
theorem branch_result (h : dispatch m.fetched = some row) (hb : row.opcode ∈ branchOpcodes) :
    row.result u m = m.branchTo (takenTarget m.currentState m.fetched) := by
  have hmem := (dispatch_eq_some.mp h).1
  have hrow : ∀ row' ∈ instructions, row.opcode = row'.opcode → row = row' :=
    fun row' hmem' => eq_of_opcode hmem hmem'
  rw [takenTarget, branchTarget_eq _ _ h]
  simp only [branchOpcodes, List.mem_cons, List.not_mem_nil, or_false] at hb
  rcases hb with hb | hb | hb | hb | hb
  · obtain rfl := hrow ⟨6, 0x5, decodeB, executeB⟩ (by simp [instructions]) hb
    exact executeB_eq u _
  · obtain rfl := hrow ⟨8, 0x54, decodeCb, executeBCond⟩ (by simp [instructions]) hb
    exact executeBCond_eq u _
  · obtain rfl := hrow ⟨8, 0xb4, decodeCb, executeCbz⟩ (by simp [instructions]) hb
    exact executeCbz_eq u _
  · obtain rfl := hrow ⟨8, 0xb5, decodeCb, executeCbnz⟩ (by simp [instructions]) hb
    exact executeCbnz_eq u _
  · obtain rfl := hrow ⟨11, 0x6b0, decodeR, executeBr⟩ (by simp [instructions]) hb
    exact executeBr_eq u _

/-! ## The law -/

theorem cycle_pc_of_branch (hm : m.Latched) (h : dispatch m.fetched = some row)
    (hb : row.opcode ∈ branchOpcodes) :
    (cycle u m).currentState.pc =
      (takenTarget m.currentState m.fetched).getD (m.currentState.pc + 4) := by
  rw [cycle_pc u h, branch_result u h hb]
  cases takenTarget m.currentState m.fetched with
  | none => simp [Machine.branchTo, hm.branchFlag]
  | some target => rfl

theorem cycle_pc_of_other (hm : m.Latched) (h : dispatch m.fetched = some row)
    (hb : row.opcode ∉ branchOpcodes) (ha : row.opcode ≠ addErOpcode) :
    (cycle u m).currentState.pc = m.currentState.pc + 4 := by
  have hflag := (result_effect u h).branchFlag hb ha
  rw [cycle_pc u h, hflag, hm.branchFlag]
  rfl

/-- **ADD (extended register) stays where it is**, unless its destination is `XZR`. -/
theorem cycle_pc_of_addEr (hm : m.Latched) (h : dispatch m.fetched = some row)
    (ha : row.opcode = addErOpcode) :
    (cycle u m).currentState.pc =
      if field m.fetched 0 5 ≠ xzr then m.currentState.pc else m.currentState.pc + 4 := by
  have hmem : (⟨11, 0x458, decodeR, executeAddEr⟩ : Instruction) ∈ instructions := by
    simp [instructions]
  obtain rfl := eq_of_opcode (dispatch_eq_some.mp h).1 hmem ha
  rw [cycle_pc u h]
  simp only [Instruction.result, executeAddEr, decodeR_rd]
  by_cases hrd : field m.fetched 0 5 = xzr
  · simp [hrd, hm.branchFlag]
  · simp [hrd, hm.nextState]

/-- Where the simulator goes. -/
theorem cycle_pc_eq (hm : m.Latched) (h : dispatch m.fetched = some row)
    (hw : ¬ WritesAddEr m.fetched) :
    (cycle u m).currentState.pc =
      (takenTarget m.currentState m.fetched).getD (m.currentState.pc + 4) := by
  by_cases hb : row.opcode ∈ branchOpcodes
  · exact cycle_pc_of_branch u hm h hb
  · rw [takenTarget_eq_none _ h hb]
    by_cases ha : row.opcode = addErOpcode
    · have hadd : m.fetched >>> 21 = addErOpcode :=
        (prefix_iff h 11 addErOpcode (by decide)).mpr ha
      rw [cycle_pc_of_addEr u hm h ha, if_neg fun hrd => hw ⟨hadd, hrd⟩]
      rfl
    · exact cycle_pc_of_other u hm h hb ha

/-- Only one word on is the next word. -/
theorem pc_add_eq_next_iff (pc : BitVec 64) (imm : BitVec 19) :
    pc + BitVec.ofInt 64 (4 * imm.toInt) = pc + 4 ↔ imm = 1 := by
  constructor
  · intro h
    have hfour := congrArg BitVec.toInt ((BitVec.add_right_inj _).mp h)
    have hlo := BitVec.le_toInt imm
    have hhi := BitVec.toInt_lt (x := imm)
    rw [BitVec.toInt_ofInt, Int.bmod_eq_of_le (by omega) (by omega)] at hfour
    refine BitVec.eq_of_toInt_eq ?_
    change 4 * imm.toInt = 4 at hfour
    change imm.toInt = 1
    omega
  · rintro rfl
    rfl

/-- **The simulator takes the branches it should**, those apart whose condition it does not
know. -/
theorem takenTarget_lawful_iff {w : BitVec 32} (s : CpuState) (h : dispatch w = some row) :
    (takenTarget s w).getD (s.pc + 4) = lawfulPc s w ↔ ¬ MissesCond s w := by
  have h54 : w >>> 24 = 0x54 ↔ row.opcode = 0x54 := prefix_iff h 8 0x54 (by decide)
  by_cases hop : row.opcode = 0x54
  · rw [takenTarget, lawfulPc, branchTarget_bCond _ _ h hop, branchTarget_bCond _ _ h hop,
      MissesCond, h54, condTaken, inSwitch]
    have hnext : s.pc + 4 = pcRelative s (field w 5 19) ↔ field w 5 19 = 1 :=
      eq_comm.trans (pc_add_eq_next_iff s.pc (field w 5 19))
    by_cases hmem : field w 0 5 ∈ switchConds
    · simp [hmem]
    · cases hholds : condHolds s (field w 0 5) with
      | false => simp
      | true => simpa [hmem, hop] using hnext
  · refine iff_of_true ?_ fun hmiss => hop (h54.mp hmiss.1)
    rw [takenTarget, lawfulPc, branchTarget_eq _ _ h, branchTarget_eq _ _ h]
    simp only [hop, if_false]

/-- **The program counter law**, and the rows that break it. -/
theorem pc_lawful_iff (hm : m.Latched) (h : dispatch m.fetched = some row) :
    (cycle u m).currentState.pc = lawfulPc m.currentState m.fetched ↔
      ¬ WritesAddEr m.fetched ∧ ¬ MissesCond m.currentState m.fetched := by
  by_cases hw : WritesAddEr m.fetched
  · have ha : row.opcode = addErOpcode := (prefix_iff h 11 addErOpcode (by decide)).mp hw.1
    have hb : row.opcode ∉ branchOpcodes := by rw [ha]; decide
    rw [cycle_pc_of_addEr u hm h ha, if_pos hw.2, lawfulPc, branchTarget_eq_none _ _ h hb]
    simp [hw]
  · rw [cycle_pc_eq u hm h hw, takenTarget_lawful_iff _ h]
    exact (and_iff_right hw).symm

/-- One cycle moves the program counter as the law says if and only if the dispatched word is
neither an ADD (extended register) that writes a register nor a B.cond whose condition holds
without the simulator knowing it. -/
theorem cycle_pc_eq_lawfulPc_iff (u : DataT) (m : Machine) (hm : m.Latched)
    (h : ∃ row ∈ instructions, row.Matches m.fetched) :
    (cycle u m).currentState.pc = lawfulPc m.currentState m.fetched ↔
      ¬ WritesAddEr m.fetched ∧ ¬ MissesCond m.currentState m.fetched := by
  obtain ⟨row, hmem, hrow⟩ := h
  exact pc_lawful_iff u hm (dispatch_eq_some.mpr ⟨hmem, hrow⟩)

/-- At the start, where `N` is clear, `b.ge 8` should be taken, and the switch has no GE. -/
example : MissesCond zeroState 0x5400004a := by decide

/-- `add x0, x1, x2` as the first word of a program. -/
def addErProgram : Machine := initializeMachine (fun _ _ => 0) [[0x8b020020]]

theorem addErProgram_latched : addErProgram.Latched := ⟨rfl, rfl⟩

theorem addErProgram_matches : ∃ row ∈ instructions, row.Matches addErProgram.fetched :=
  ⟨⟨11, 0x458, decodeR, executeAddEr⟩, by simp [instructions], by decide⟩

theorem addErProgram_pc_law :
    (cycle default addErProgram).currentState.pc =
        lawfulPc addErProgram.currentState addErProgram.fetched ↔
      ¬ WritesAddEr addErProgram.fetched ∧
        ¬ MissesCond addErProgram.currentState addErProgram.fetched :=
  cycle_pc_eq_lawfulPc_iff default addErProgram addErProgram_latched addErProgram_matches

/-- The law fails on `add x0, x1, x2`. -/
theorem addErProgram_breaks_pc_law :
    ¬ ∀ (u : DataT) (m : Machine), m.Latched → (∃ row ∈ instructions, row.Matches m.fetched) →
      (cycle u m).currentState.pc = lawfulPc m.currentState m.fetched := by
  intro h
  have hpc := h default addErProgram addErProgram_latched addErProgram_matches
  revert hpc
  decide

end Acso.Arm
