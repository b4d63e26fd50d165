import Acso.Arm.Fields
import Acso.Arm.Shell

/-!
# The rows of the instruction table

No opcode of the table is a prefix of another, so a word starts with at most
one of them (`Instruction.Matches.unique`) and the order of the rows does not
matter (`dispatch_eq_some`, `prefix_iff`).  `execute_effect` is what an executor
can do, whichever row it belongs to; the lemmas after it say what no row touches
and what only some rows touch.  `cycle_of_some` and `cycle_of_none` are one cycle,
which does not depend on what its locals hold before (`cycle_eq_cycle`).
-/

namespace Acso.Arm

open Acso.Lib

/-! ## Opcodes -/

/-- Two prefixes of one word: the shorter one is a prefix of the longer. -/
theorem shiftRight_of_matches {row row' : Instruction} {w : BitVec 32} (h : row.Matches w)
    (h' : row'.Matches w) (hle : row.opcodeLength ≤ row'.opcodeLength)
    (h32 : row'.opcodeLength ≤ 32) :
    row.opcode = row'.opcode >>> (row'.opcodeLength - row.opcodeLength) := by
  rw [h, h', ← BitVec.shiftRight_add]
  congr 1
  omega

/-- The opcode of a row and its length. -/
def Instruction.key (row : Instruction) : Nat × BitVec 32 := (row.opcodeLength, row.opcode)

theorem key_prefix_free : ∀ k ∈ instructions.map Instruction.key,
    ∀ k' ∈ instructions.map Instruction.key, k.1 ≤ 32 ∧
      (k.1 ≤ k'.1 → k.2 = k'.2 >>> (k'.1 - k.1) → k = k') := by decide

theorem key_nodup : (instructions.map Instruction.key).Nodup := by decide

/-- **A word matches at most one row.** -/
theorem Instruction.Matches.unique {row row' : Instruction} {w : BitVec 32}
    (hmem : row ∈ instructions) (hmem' : row' ∈ instructions) (h : row.Matches w)
    (h' : row'.Matches w) : row = row' := by
  have hk := List.mem_map_of_mem (f := Instruction.key) hmem
  have hk' := List.mem_map_of_mem (f := Instruction.key) hmem'
  refine List.inj_on_of_nodup_map key_nodup hmem hmem' ?_
  rcases Nat.le_total row.opcodeLength row'.opcodeLength with hle | hle
  · exact (key_prefix_free _ hk _ hk').2 hle
      (shiftRight_of_matches h h' hle (key_prefix_free _ hk' _ hk).1)
  · exact ((key_prefix_free _ hk' _ hk).2 hle
      (shiftRight_of_matches h' h hle (key_prefix_free _ hk _ hk').1)).symm

theorem dispatch_eq_some {w : BitVec 32} {row : Instruction} :
    dispatch w = some row ↔ row ∈ instructions ∧ row.Matches w := by
  constructor
  · intro h
    exact ⟨List.mem_of_find?_eq_some h, by simpa using List.find?_some h⟩
  · rintro ⟨hmem, hrow⟩
    obtain ⟨row', hrow'⟩ : ∃ row', dispatch w = some row' := by
      rw [← Option.isSome_iff_exists, dispatch, List.find?_isSome]
      exact ⟨row, hmem, by simpa using hrow⟩
    have hm' : row'.Matches w := by simpa using List.find?_some hrow'
    rw [hrow', hrow.unique hmem (List.mem_of_find?_eq_some hrow') hm']

theorem dispatch_eq_none {w : BitVec 32} :
    dispatch w = none ↔ ∀ row ∈ instructions, ¬ row.Matches w := by
  simp [dispatch]

theorem opcode_nodup : (instructions.map Instruction.opcode).Nodup := by decide

theorem eq_of_opcode {row row' : Instruction} (hmem : row ∈ instructions)
    (hmem' : row' ∈ instructions) (h : row.opcode = row'.opcode) : row = row' :=
  List.inj_on_of_nodup_map opcode_nodup hmem hmem' h

/-- Which prefix a dispatched word has is read off the opcode of its row. -/
theorem prefix_iff {w : BitVec 32} {row : Instruction} (h : dispatch w = some row) (l : Nat)
    (opcode : BitVec 32) (hk : (l, opcode) ∈ instructions.map Instruction.key) :
    w >>> (32 - l) = opcode ↔ row.opcode = opcode := by
  obtain ⟨hmem, hrow⟩ := dispatch_eq_some.mp h
  obtain ⟨row', hmem', hkey⟩ := List.mem_map.mp hk
  obtain ⟨rfl, rfl⟩ : row'.opcodeLength = l ∧ row'.opcode = opcode := by
    simpa [Instruction.key] using hkey
  constructor
  · intro hw
    rw [hrow.unique hmem hmem' (show row'.Matches w from hw.symm)]
  · intro hop
    rw [← hop, eq_of_opcode hmem' hmem hop.symm]
    exact hrow.symm

/-! ## The effect of a row -/

/-- The rows that may set the program counter: B, B.cond, CBZ, CBNZ and BR. -/
def branchOpcodes : List (BitVec 32) := [0x5, 0x54, 0xb4, 0xb5, 0x6b0]

/-- ANDS, ADDS and SUBS, the rows that set the flags. -/
def flagOpcodes : List (BitVec 32) := [0xea, 0xb1, 0xf1, 0x558, 0x758]

/-- The other rows that write `Rd`, except ADD (extended register). -/
def plainOpcodes : List (BitVec 32) := [0xca, 0xaa, 0x91, 0x34d, 0x4d8, 0x694]

def addErOpcode : BitVec 32 := 0x458

def storeOpcodes : List (BitVec 32) := [0x7c0, 0x1c0, 0x3c0]

def hltOpcode : BitVec 32 := 0x6a2

/-- What the load rows read at their address. -/
def readOf (opcode : BitVec 32) : Option (Memory → BitVec 64 → BitVec 64) :=
  if opcode = 0x7c2 then some readLdur
  else if opcode = 0x1c2 then some readLdurb
  else if opcode = 0x3c2 then some readLdurh
  else none

/-- Everything the executor of a row can do to a machine. -/
inductive Effect (opcode : BitVec 32) (d : DataT) (m : Machine) : Machine → Prop
  | nothing : Effect opcode d m m
  | branch (target : BitVec 64) (h : opcode ∈ branchOpcodes) : Effect opcode d m (m.branch target)
  | write (v : BitVec 64) (h : opcode ∈ plainOpcodes) :
      Effect opcode d m { m with nextState := m.nextState.writeReg d.rd v }
  | writeFlags (v : BitVec 64) (h : opcode ∈ flagOpcodes) :
      Effect opcode d m { m with nextState := (m.nextState.setFlags v).writeReg d.rd v }
  | addEr (h : opcode = addErOpcode) (hrd : d.rd ≠ xzr) :
      Effect opcode d m
        { m with
          nextState := m.nextState.setReg d.rd (m.currentState.reg d.rn + m.currentState.reg d.rm)
          branchFlag := true }
  | load (read : Memory → BitVec 64 → BitVec 64) (h : readOf opcode = some read) (hop : d.op = 0) :
      Effect opcode d m
        { m with nextState := m.nextState.setReg d.rt (read m.mem (address d m)) }
  | store (mem : Memory) (h : opcode ∈ storeOpcodes) : Effect opcode d m { m with mem := mem }
  | halt (h : opcode = hltOpcode) (hrd : d.rd = 0) : Effect opcode d m { m with runBit := false }

section families

variable {opcode : BitVec 32} (d : DataT) (m : Machine)

theorem effect_branch_ite (h : opcode ∈ branchOpcodes) (c : Prop) [Decidable c] (t : BitVec 64) :
    Effect opcode d m (if c then m.branch t else m) := by
  split
  · exact .branch t h
  · exact .nothing

theorem effect_executeBCond (h : opcode ∈ branchOpcodes) : Effect opcode d m (executeBCond d m) := by
  unfold executeBCond
  repeat' split
  all_goals first
    | exact .branch _ h
    | exact .nothing

theorem effect_aluReg {flags : Bool} (op : BitVec 64 → BitVec 64 → BitVec 64)
    (h : opcode ∈ if flags then flagOpcodes else plainOpcodes) :
    Effect opcode d m (aluReg op flags d m) := by
  cases flags with
  | false => exact .write _ h
  | true => exact .writeFlags _ h

theorem effect_aluImm {flags : Bool} (op : BitVec 64 → BitVec 64 → BitVec 64)
    (h : opcode ∈ if flags then flagOpcodes else plainOpcodes) :
    Effect opcode d m (aluImm op flags d m) := by
  cases flags with
  | false => exact .write _ h
  | true => exact .writeFlags _ h

theorem effect_store (h : opcode ∈ storeOpcodes)
    (write : Memory → BitVec 64 → BitVec 64 → Memory) : Effect opcode d m (store write d m) := by
  unfold store
  split
  · exact .store _ h
  · exact .nothing

theorem effect_load {read : Memory → BitVec 64 → BitVec 64} (h : readOf opcode = some read) :
    Effect opcode d m (load read d m) := by
  unfold load
  split
  · exact .load read h ‹_›
  · exact .nothing

theorem effect_executeAddEr : Effect addErOpcode d m (executeAddEr d m) := by
  unfold executeAddEr
  split
  · exact .addEr rfl ‹_›
  · exact .nothing

theorem effect_executeMul (h : opcode ∈ plainOpcodes) : Effect opcode d m (executeMul d m) := by
  unfold executeMul
  split
  · exact .write _ h
  · exact .nothing

theorem effect_executeHlt : Effect hltOpcode d m (executeHlt d m) := by
  unfold executeHlt
  split
  · exact .halt rfl ‹_›
  · exact .nothing

end families

/-- **What a row does**, over the whole table. -/
theorem execute_effect : ∀ row ∈ instructions, ∀ (d : DataT) (m : Machine),
    Effect row.opcode d m (row.execute d m) := by
  simp only [instructions, List.forall_mem_cons, List.not_mem_nil, false_implies, implies_true,
    and_true]
  refine ⟨fun d m => .branch _ (by decide), fun d m => effect_aluReg d m _ (by decide),
    fun d m => effect_aluReg d m _ (by decide), fun d m => effect_aluReg d m _ (by decide),
    fun d m => effect_aluImm d m _ (by decide), fun d m => effect_aluImm d m _ (by decide),
    fun d m => effect_aluImm d m _ (by decide), fun d m => effect_executeBCond d m (by decide),
    fun d m => effect_branch_ite d m (by decide) _ _,
    fun d m => effect_branch_ite d m (by decide) _ _, fun d m => .write _ (by decide),
    fun d m => effect_aluReg d m _ (by decide), fun d m => effect_aluReg d m _ (by decide),
    fun d m => effect_branch_ite d m (by decide) _ _, effect_executeAddEr,
    fun d m => effect_executeMul d m (by decide), fun d m => effect_store d m (by decide) _,
    fun d m => effect_store d m (by decide) _, fun d m => effect_store d m (by decide) _,
    fun d m => effect_load d m rfl, fun d m => effect_load d m rfl,
    fun d m => effect_load d m rfl, effect_executeHlt, fun d m => .write _ (by decide)⟩

namespace Effect

variable {opcode : BitVec 32} {d : DataT} {m m' : Machine}

theorem currentState (h : Effect opcode d m m') : m'.currentState = m.currentState := by
  cases h <;> rfl

theorem instructionCount (h : Effect opcode d m m') : m'.instructionCount = m.instructionCount := by
  cases h <;> rfl

/-- Only a branch row and ADD (extended register) set the branch flag. -/
theorem branchFlag (h : Effect opcode d m m') (hb : opcode ∉ branchOpcodes)
    (ha : opcode ≠ addErOpcode) : m'.branchFlag = m.branchFlag := by
  cases h with
  | branch _ h => exact absurd h hb
  | addEr h _ => exact absurd h ha
  | _ => rfl

/-- `XZR` changes only through a load that names it. -/
theorem reg_xzr (h : Effect opcode d m m') :
    m'.nextState.reg xzr = m.nextState.reg xzr ∨
      ∃ read, readOf opcode = some read ∧ d.op = 0 ∧ d.rt = xzr ∧
        m'.nextState.reg xzr = read m.mem (address d m) := by
  cases h with
  | nothing => exact .inl rfl
  | branch => exact .inl rfl
  | write => exact .inl (by simp)
  | writeFlags => exact .inl (by simp)
  | addEr _ hrd => exact .inl (by simp [CpuState.reg_setReg, Ne.symm hrd])
  | load read h hop =>
    by_cases hrt : d.rt = xzr
    · exact .inr ⟨read, h, hop, hrt, by simp [CpuState.reg_setReg, hrt]⟩
    · exact .inl (by simp [CpuState.reg_setReg, Ne.symm hrt])
  | store => exact .inl rfl
  | halt => exact .inl rfl

end Effect

/-! ## One cycle -/

/-- The word `processInstruction` fetches. -/
def Machine.fetched (m : Machine) : BitVec 32 := memRead32 m.mem m.currentState.pc

/-- The two latches agree and the branch flag is clear. -/
structure Machine.Latched (m : Machine) : Prop where
  nextState : m.nextState = m.currentState
  branchFlag : m.branchFlag = false

section cycle

variable {m : Machine} {row : Instruction} (u : DataT)

/-- The machine between the executor and the update of the program counter. -/
abbrev Instruction.result (row : Instruction) (u : DataT) (m : Machine) : Machine :=
  row.execute (row.decode u m.fetched) m

theorem result_effect (h : dispatch m.fetched = some row) :
    Effect row.opcode (row.decode u m.fetched) m (row.result u m) :=
  execute_effect row (dispatch_eq_some.mp h).1 _ m

/-- A cycle does not depend on the old contents of `instruction_data`. -/
theorem cycle_eq_cycle (u u' : DataT) (m : Machine) : cycle u m = cycle u' m := by
  rw [cycle, cycle, processInstruction_eq u u' m]

theorem cycle_of_none (h : dispatch m.fetched = none) :
    cycle u m = { m with
      currentState := m.nextState, instructionCount := m.instructionCount + 1 } := by
  rw [Machine.fetched] at h
  simp only [cycle, processInstruction, h]

theorem updatePc_eq (m : Machine) : m.updatePc = { m with
    nextState :=
      if m.branchFlag then m.nextState else { m.nextState with pc := m.currentState.pc + 4 }
    branchFlag := false } := by
  unfold Machine.updatePc
  cases h : m.branchFlag <;> simp

theorem cycle_of_some (h : dispatch m.fetched = some row) :
    let e := row.result u m
    let next := if e.branchFlag then e.nextState else { e.nextState with pc := m.currentState.pc + 4 }
    cycle u m = { e with
      currentState := next, nextState := next, branchFlag := false,
      instructionCount := e.instructionCount + 1 } := by
  have hcur := (result_effect u h).currentState
  have hp : processInstruction u m = (row.result u m).updatePc := by
    rw [Machine.fetched] at h
    simp only [processInstruction, h, Instruction.result, Machine.fetched]
  simp only [cycle, hp, updatePc_eq, hcur]

/-- **The latches agree again after every cycle.** -/
theorem Machine.Latched.cycle (h : m.Latched) : (cycle u m).Latched := by
  cases hd : dispatch m.fetched with
  | none => rw [cycle_of_none u hd]; exact ⟨rfl, h.branchFlag⟩
  | some row => rw [cycle_of_some u hd]; exact ⟨rfl, rfl⟩

theorem cycle_mem (h : dispatch m.fetched = some row) : (cycle u m).mem = (row.result u m).mem := by
  rw [cycle_of_some u h]

theorem cycle_reg (h : dispatch m.fetched = some row) (r : BitVec 5) :
    (cycle u m).currentState.reg r = (row.result u m).nextState.reg r := by
  rw [cycle_of_some u h]
  dsimp only
  split <;> rfl

theorem cycle_pc (h : dispatch m.fetched = some row) :
    (cycle u m).currentState.pc =
      if (row.result u m).branchFlag then (row.result u m).nextState.pc
      else m.currentState.pc + 4 := by
  rw [cycle_of_some u h]
  dsimp only
  split <;> rfl

end cycle

/-- The address a D-format word names: `REGS[Rn]` plus the signed 9-bit offset. -/
def dataAddress (s : CpuState) (w : BitVec 32) : BitVec 64 :=
  s.reg (field w 5 5) + (field w 12 9).signExtend 64

theorem address_decodeD (u : DataT) (w : BitVec 32) (m : Machine) :
    address (decodeD u w) m = dataAddress m.currentState w := by
  rw [address, decodeD_rn, decodeD_dtAddress, signExtend_setWidth _ (by decide), dataAddress]

theorem dispatch_of_readOf {w : BitVec 32} {read : Memory → BitVec 64 → BitVec 64}
    (h : readOf (w >>> 21) = some read) :
    dispatch w = some ⟨11, w >>> 21, decodeD, load read⟩ := by
  rw [dispatch_eq_some]
  refine ⟨?_, rfl⟩
  unfold readOf at h
  split_ifs at h with h1 h2 h3
  · cases h; simp [h1, instructions, executeLdur]
  · cases h; simp [h2, instructions, executeLdurb]
  · cases h; simp [h3, instructions, executeLdurh]

/-- A load leaves in `Rt` what it reads at its address. -/
theorem cycle_load (u : DataT) {m : Machine} {read : Memory → BitVec 64 → BitVec 64}
    (h : readOf (m.fetched >>> 21) = some read) (hop : field m.fetched 10 2 = 0) :
    (cycle u m).currentState.reg (field m.fetched 0 5) =
      read m.mem (dataAddress m.currentState m.fetched) := by
  rw [cycle_reg u (dispatch_of_readOf h)]
  simp only [Instruction.result, load, decodeD_op, hop, decodeD_rt, address_decodeD,
    CpuState.reg_setReg, if_true]

theorem readOf_of_dispatch {w : BitVec 32} {row : Instruction} (h : dispatch w = some row)
    {read : Memory → BitVec 64 → BitVec 64} (hr : readOf row.opcode = some read) :
    readOf (w >>> 21) = some read := by
  have hkey : (11, row.opcode) ∈ instructions.map Instruction.key := by
    unfold readOf at hr
    split_ifs at hr with h1 h2 h3
    · rw [h1]; decide
    · rw [h2]; decide
    · rw [h3]; decide
  rw [(prefix_iff h 11 row.opcode hkey).mpr rfl]
  exact hr

theorem shellSystem_step {m m' : Machine} {u : DataT} :
    shellSystem.step m u = some m' ↔ m.runBit = true ∧ m' = cycle u m := by
  show (if m.runBit then some (cycle u m) else none) = some m' ↔ _
  by_cases hrun : m.runBit = true
  · rw [if_pos hrun, Option.some.injEq, eq_comm]
    exact (and_iff_right hrun).symm
  · simp [hrun]

/-- The latches agree in every state a run visits. -/
theorem latched_step (m : Machine) (u : DataT) (m' : Machine) (hm : m.Latched)
    (h : shellSystem.step m u = some m') : m'.Latched := by
  obtain ⟨-, rfl⟩ := shellSystem_step.mp h
  exact hm.cycle u

theorem boot_latched (mem : Memory) : (boot mem).Latched := ⟨rfl, rfl⟩

end Acso.Arm
