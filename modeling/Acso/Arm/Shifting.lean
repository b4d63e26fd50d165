import Acso.Lib.Logged
import Acso.Arm.ImmediateShift

/-!
# The shifts of the simulator

The functions of `sim.c` once more, with a log of the shifts they perform: how wide the
shifted value is after the integer promotions of C, and by how much it is shifted.  Each has
the value of the function it stands for (`val_processInstruction`), and all shifts but one
have constant counts below the width.  The one is the LSL of the row for immediate shifts:
its count is `64 - immr`, which is too much for the words with `immr = 0` that are no LSR
(`shifts_defined_iff`).
-/

namespace Acso.Arm

open Acso.Lib

/-- A shift of a value of `width` bits. -/
structure CShift where
  width : Nat
  count : Nat

/-- C defines it. -/
def CShift.Defined (s : CShift) : Prop := s.count < s.width

instance (s : CShift) : Decidable s.Defined := inferInstanceAs (Decidable (_ < _))

namespace Shifting

variable {k : Nat}

/-- `x << count`. -/
def shl (x : BitVec k) (count : Nat) : Logged CShift (BitVec k) := ⟨x <<< count, [⟨k, count⟩]⟩

/-- `x >> count`. -/
def shr (x : BitVec k) (count : Nat) : Logged CShift (BitVec k) := ⟨x >>> count, [⟨k, count⟩]⟩

/-- `x << count`, by a count that is computed. -/
def shlBy (x count : BitVec 64) : Logged CShift (BitVec 64) :=
  ⟨x <<< shiftCount count, [⟨64, count.toNat⟩]⟩

/-- `x >> count`, by a count that is computed. -/
def shrBy (x count : BitVec 64) : Logged CShift (BitVec 64) :=
  ⟨x >>> shiftCount count, [⟨64, count.toNat⟩]⟩

/-! ## Memory -/

def memRead32 (mem : Memory) (address : BitVec 64) : Logged CShift (BitVec 32) :=
  match regionAt address.toNat with
  | some r => do
    let offset := address.toNat - r.start
    let byte3 ← shl ((mem r (offset + 3)).setWidth 32) 24
    let byte2 ← shl ((mem r (offset + 2)).setWidth 32) 16
    let byte1 ← shl ((mem r (offset + 1)).setWidth 32) 8
    let byte0 ← shl ((mem r (offset + 0)).setWidth 32) 0
    pure (byte3 ||| byte2 ||| byte1 ||| byte0)
  | none => pure 0

def memWrite32 (mem : Memory) (address : BitVec 64) (value : BitVec 32) : Logged CShift Memory :=
  match regionAt address.toNat with
  | some r => do
    let offset := address.toNat - r.start
    let byte3 ← shr value 24
    let mem := mem.set r (offset + 3) ((byte3 &&& 0xFF).setWidth 8)
    let byte2 ← shr value 16
    let mem := mem.set r (offset + 2) ((byte2 &&& 0xFF).setWidth 8)
    let byte1 ← shr value 8
    let mem := mem.set r (offset + 1) ((byte1 &&& 0xFF).setWidth 8)
    let byte0 ← shr value 0
    pure (mem.set r (offset + 0) ((byte0 &&& 0xFF).setWidth 8))
  | none => pure mem

/-! ## Decoding -/

def shiftBits (instructionCode : BitVec 32) (shiftAmount : Nat) (mask : BitVec 32) :
    Logged CShift (BitVec 32) := do
  let shifted ← shr instructionCode shiftAmount
  pure (shifted &&& mask)

def decodeR (data : DataT) (instructionCode : BitVec 32) : Logged CShift DataT := do
  let rm ← shiftBits instructionCode 16 0x1f
  let shamt ← shiftBits instructionCode 10 0x3f
  let rn ← shiftBits instructionCode 5 0x1f
  pure { data with
    rm := rm.setWidth 5
    shamt := shamt.setWidth 6
    rn := rn.setWidth 5
    rd := (instructionCode &&& 0x1f).setWidth 5 }

def decodeI (data : DataT) (instructionCode : BitVec 32) : Logged CShift DataT := do
  let shift ← shiftBits instructionCode 22 0x3
  let aluImmediate ← shiftBits instructionCode 10 0xfff
  let rn ← shiftBits instructionCode 5 0x1f
  pure { data with
    shift := shift.setWidth 2
    aluImmediate := aluImmediate.setWidth 12
    rn := rn.setWidth 5
    rd := (instructionCode &&& 0x1f).setWidth 5 }

def decodeD (data : DataT) (instructionCode : BitVec 32) : Logged CShift DataT := do
  let dtAddress ← shiftBits instructionCode 12 0x1ff
  let op ← shiftBits instructionCode 10 0x3
  let rn ← shiftBits instructionCode 5 0x1f
  pure { data with
    dtAddress := dtAddress.setWidth 9
    op := op.setWidth 2
    rn := rn.setWidth 5
    rt := (instructionCode &&& 0x1f).setWidth 5 }

def decodeB (data : DataT) (instructionCode : BitVec 32) : Logged CShift DataT :=
  pure (Arm.decodeB data instructionCode)

def decodeCb (data : DataT) (instructionCode : BitVec 32) : Logged CShift DataT := do
  let condBrAddress ← shiftBits instructionCode 5 0x7ffff
  pure { data with
    condBrAddress := condBrAddress.setWidth 19
    rt := (instructionCode &&& 0x1f).setWidth 5 }

def decodeIw (data : DataT) (instructionCode : BitVec 32) : Logged CShift DataT := do
  let movImmediate ← shiftBits instructionCode 5 0xffff
  pure { data with
    movImmediate := movImmediate.setWidth 16
    rd := (instructionCode &&& 0x1f).setWidth 5 }

/-! ## Execution -/

def signExtend (n : BitVec 64) (bits : Nat) : Logged CShift (BitVec 64) := do
  let m ← shl (1 : BitVec 32) (bits - 1)
  pure ((n ^^^ m.setWidth 64) - m.setWidth 64)

def executeB (d : DataT) (m : Machine) : Logged CShift Machine := do
  let shifted ← shl (d.brAddress.setWidth 32) 2
  let offset ← signExtend (shifted.setWidth 64) 28
  pure (m.branch (m.currentState.pc + offset))

def condOffset (d : DataT) : Logged CShift (BitVec 64) := do
  let shifted ← shl (d.condBrAddress.setWidth 32) 2
  signExtend (shifted.setWidth 64) 21

/-- The rest of B.cond shifts nothing. -/
def executeBCond (d : DataT) (m : Machine) : Logged CShift Machine := do
  let _ ← condOffset d
  pure (Arm.executeBCond d m)

def compareBranch (test : BitVec 64 → Bool) (d : DataT) (m : Machine) : Logged CShift Machine := do
  let offset ← condOffset d
  let operand1 := m.currentState.reg d.rt
  pure (if test operand1 then m.branch (m.currentState.pc + offset) else m)

/-- The flags are set when `flags`, with `FLAG_N = result >> 63`. -/
def setFlags (flags : Bool) (s : CpuState) (result : BitVec 64) : Logged CShift CpuState :=
  if flags then do
    let sign ← shr result 63
    pure { s with flagN := sign ≠ 0, flagZ := result = 0 }
  else pure s

def aluReg (op : BitVec 64 → BitVec 64 → BitVec 64) (flags : Bool) (d : DataT) (m : Machine) :
    Logged CShift Machine := do
  let operand1 := m.currentState.reg d.rn
  let operand2 := m.currentState.reg d.rm
  let result := op operand1 operand2
  let next ← setFlags flags m.nextState result
  pure { m with nextState := next.writeReg d.rd result }

/-- The immediate operand. -/
def immediate (d : DataT) : Logged CShift (BitVec 64) :=
  let imm : BitVec 64 := d.aluImmediate.setWidth 64
  if d.shift = 0x1 then shl imm 12 else pure imm

def aluImm (op : BitVec 64 → BitVec 64 → BitVec 64) (flags : Bool) (d : DataT) (m : Machine) :
    Logged CShift Machine := do
  let operand1 := m.currentState.reg d.rn
  let imm ← immediate d
  let result := op operand1 imm
  let next ← setFlags flags m.nextState result
  pure { m with nextState := next.writeReg d.rd result }

/-- LSL or LSR of `src`. -/
def shiftBy (src immr imms : BitVec 64) : Logged CShift (BitVec 64) :=
  if imms ≠ 0x3f then shlBy src (64 - immr) else shrBy src immr

def executeLslLsrImm (d : DataT) (m : Machine) : Logged CShift Machine := do
  let src := m.currentState.reg d.rn
  let high ← shr (d.aluImmediate.setWidth 32) 6
  let result ← shiftBy src (high.setWidth 64) ((d.aluImmediate &&& 0x3f).setWidth 64)
  pure { m with nextState := m.nextState.writeReg d.rd result }

def address (d : DataT) (m : Machine) : Logged CShift (BitVec 64) := do
  let offset ← signExtend (d.dtAddress.setWidth 64) 9
  pure (m.currentState.reg d.rn + offset)

def store (write : Memory → BitVec 64 → BitVec 64 → Logged CShift Memory) (d : DataT) (m : Machine) :
    Logged CShift Machine :=
  if d.op = 0x0 then do
    let address ← address d m
    let mem ← write m.mem address (m.currentState.reg d.rt)
    pure { m with mem := mem }
  else pure m

def writeStur (mem : Memory) (address data : BitVec 64) : Logged CShift Memory := do
  let mem ← memWrite32 mem address ((data &&& 0xffffffff).setWidth 32)
  let high ← shr data 32
  memWrite32 mem (address + 4) (high.setWidth 32)

def writeSturb (mem : Memory) (address reg : BitVec 64) : Logged CShift Memory := do
  let data : BitVec 32 := (reg &&& 0xff).setWidth 32
  let word ← memRead32 mem address
  memWrite32 mem address (data ||| (word &&& 0xffffff00))

def writeSturh (mem : Memory) (address reg : BitVec 64) : Logged CShift Memory := do
  let data : BitVec 64 := reg &&& 0xffff
  let word ← memRead32 mem address
  memWrite32 mem address ((data ||| (word &&& 0xffff0000).setWidth 64).setWidth 32)

def load (read : Memory → BitVec 64 → Logged CShift (BitVec 64)) (d : DataT) (m : Machine) :
    Logged CShift Machine :=
  if d.op = 0x0 then do
    let address ← address d m
    let data ← read m.mem address
    pure { m with nextState := m.nextState.setReg d.rt data }
  else pure m

def readLdur (mem : Memory) (address : BitVec 64) : Logged CShift (BitVec 64) := do
  let lowerHalf ← memRead32 mem address
  let upperHalf ← memRead32 mem (address + 4)
  let upperHalf ← shl (upperHalf.setWidth 64) 32
  pure (lowerHalf.setWidth 64 ||| upperHalf)

def readLdurb (mem : Memory) (address : BitVec 64) : Logged CShift (BitVec 64) := do
  let word ← memRead32 mem address
  let data : BitVec 8 := (word &&& 0xFF).setWidth 8
  pure (data.setWidth 64)

def readLdurh (mem : Memory) (address : BitVec 64) : Logged CShift (BitVec 64) := do
  let word ← memRead32 mem address
  let halfword : BitVec 16 := (word &&& 0xFFFF).setWidth 16
  pure (halfword.signExtend 64)

/-- An executor that shifts nothing. -/
def unshifting (execute : DataT → Machine → Machine) (d : DataT) (m : Machine) :
    Logged CShift Machine := pure (execute d m)

/-! ## Dispatch -/

structure Instruction where
  opcodeLength : Nat
  opcode : BitVec 32
  decode : DataT → BitVec 32 → Logged CShift DataT
  execute : DataT → Machine → Logged CShift Machine

def instructions : List Instruction :=
  [ ⟨6, 0x5, decodeB, executeB⟩,
    ⟨8, 0xea, decodeR, aluReg (fun a b => a &&& b) true⟩,
    ⟨8, 0xca, decodeR, aluReg (fun a b => a ^^^ b) false⟩,
    ⟨8, 0xaa, decodeR, aluReg (fun a b => a ||| b) false⟩,
    ⟨8, 0x91, decodeI, aluImm (fun a b => a + b) false⟩,
    ⟨8, 0xb1, decodeI, aluImm (fun a b => a + b) true⟩,
    ⟨8, 0xf1, decodeI, aluImm (fun a b => a + ~~~b + 1) true⟩,
    ⟨8, 0x54, decodeCb, executeBCond⟩,
    ⟨8, 0xb4, decodeCb, compareBranch fun x => x == 0x0⟩,
    ⟨8, 0xb5, decodeCb, compareBranch fun x => x != 0x0⟩,
    ⟨10, 0x34d, decodeI, executeLslLsrImm⟩,
    ⟨11, 0x558, decodeR, aluReg (fun a b => a + b) true⟩,
    ⟨11, 0x758, decodeR, aluReg (fun a b => a + ~~~b + 1) true⟩,
    ⟨11, 0x6b0, decodeR, unshifting executeBr⟩,
    ⟨11, 0x458, decodeR, unshifting executeAddEr⟩,
    ⟨11, 0x4d8, decodeR, unshifting executeMul⟩,
    ⟨11, 0x7c0, decodeD, store writeStur⟩,
    ⟨11, 0x1c0, decodeD, store writeSturb⟩,
    ⟨11, 0x3c0, decodeD, store writeSturh⟩,
    ⟨11, 0x7c2, decodeD, load readLdur⟩,
    ⟨11, 0x1c2, decodeD, load readLdurb⟩,
    ⟨11, 0x3c2, decodeD, load readLdurh⟩,
    ⟨11, 0x6a2, decodeIw, unshifting executeHlt⟩,
    ⟨11, 0x694, decodeIw, unshifting executeMovz⟩ ]

/-- The loop over the table. -/
def dispatch (instructionCode : BitVec 32) : List Instruction → Logged CShift (Option Instruction)
  | [] => pure none
  | row :: rows => do
    let opcode ← shr instructionCode (32 - row.opcodeLength)
    if row.opcode = opcode then pure (some row) else dispatch instructionCode rows

def processInstruction (instructionData : DataT) (m : Machine) : Logged CShift Machine := do
  let instructionCode ← memRead32 m.mem m.currentState.pc
  match ← dispatch instructionCode instructions with
  | some row =>
    let d ← row.decode instructionData instructionCode
    let m ← row.execute d m
    pure m.updatePc
  | none => pure m

/-! ## Erasing the log -/

theorem val_memRead32 (mem : Memory) (address : BitVec 64) :
    (memRead32 mem address).val = Arm.memRead32 mem address := by
  unfold memRead32 Arm.memRead32
  cases regionAt address.toNat <;> rfl

theorem val_memWrite32 (mem : Memory) (address : BitVec 64) (value : BitVec 32) :
    (memWrite32 mem address value).val = Arm.memWrite32 mem address value := by
  unfold memWrite32 Arm.memWrite32
  cases regionAt address.toNat <;> rfl

theorem val_decodeR (d : DataT) (w : BitVec 32) : (decodeR d w).val = Arm.decodeR d w := rfl
theorem val_decodeI (d : DataT) (w : BitVec 32) : (decodeI d w).val = Arm.decodeI d w := rfl
theorem val_decodeD (d : DataT) (w : BitVec 32) : (decodeD d w).val = Arm.decodeD d w := rfl
theorem val_decodeB (d : DataT) (w : BitVec 32) : (decodeB d w).val = Arm.decodeB d w := rfl
theorem val_decodeCb (d : DataT) (w : BitVec 32) : (decodeCb d w).val = Arm.decodeCb d w := rfl
theorem val_decodeIw (d : DataT) (w : BitVec 32) : (decodeIw d w).val = Arm.decodeIw d w := rfl

theorem val_executeB (d : DataT) (m : Machine) : (executeB d m).val = Arm.executeB d m := rfl

theorem val_executeBCond (d : DataT) (m : Machine) :
    (executeBCond d m).val = Arm.executeBCond d m := rfl

theorem val_compareBranch (test : BitVec 64 → Bool) (d : DataT) (m : Machine) :
    (compareBranch test d m).val = Arm.compareBranch test d m := rfl

theorem val_unshifting (execute : DataT → Machine → Machine) (d : DataT) (m : Machine) :
    (unshifting execute d m).val = execute d m := rfl

theorem val_aluReg (op : BitVec 64 → BitVec 64 → BitVec 64) (flags : Bool) (d : DataT) (m : Machine) :
    (aluReg op flags d m).val = Arm.aluReg op flags d m := by
  cases flags <;> rfl

theorem val_aluImm (op : BitVec 64 → BitVec 64 → BitVec 64) (flags : Bool) (d : DataT) (m : Machine) :
    (aluImm op flags d m).val = Arm.aluImm op flags d m := by
  have himm : (immediate d).val =
      if d.shift = 0x1 then d.aluImmediate.setWidth 64 <<< 12 else d.aluImmediate.setWidth 64 :=
    apply_ite Logged.val _ _ _
  simp only [aluImm, Logged.val_bind, himm]
  cases flags <;> rfl

theorem val_executeSubsCmpImm (d : DataT) (m : Machine) :
    (aluImm (fun a b => a + ~~~b + 1) true d m).val = executeSubsCmpImm d m := val_aluImm _ _ d m

theorem val_executeSubsCmpEr (d : DataT) (m : Machine) :
    (aluReg (fun a b => a + ~~~b + 1) true d m).val = executeSubsCmpEr d m := val_aluReg _ _ d m

theorem setWidth_shiftRight (x : BitVec 12) :
    (x.setWidth 32 >>> 6).setWidth 64 = (x >>> 6).setWidth 64 := by
  apply BitVec.eq_of_toNat_eq
  simp only [BitVec.toNat_setWidth, BitVec.toNat_ushiftRight, Nat.shiftRight_eq_div_pow]
  omega

theorem val_executeLslLsrImm (d : DataT) (m : Machine) :
    (executeLslLsrImm d m).val = Arm.executeLslLsrImm d m := by
  simp only [executeLslLsrImm, Arm.executeLslLsrImm, Logged.val_bind, shr, setWidth_shiftRight,
    shiftBy]
  split <;> rfl

theorem val_store {write : Memory → BitVec 64 → BitVec 64 → Logged CShift Memory}
    {write' : Memory → BitVec 64 → BitVec 64 → Memory}
    (h : ∀ mem a v, (write mem a v).val = write' mem a v) (d : DataT) (m : Machine) :
    (store write d m).val = Arm.store write' d m := by
  unfold store Arm.store
  split
  · simp only [Logged.val_bind, Logged.val_pure, h]
    rfl
  · rfl

theorem val_load {read : Memory → BitVec 64 → Logged CShift (BitVec 64)}
    {read' : Memory → BitVec 64 → BitVec 64} (h : ∀ mem a, (read mem a).val = read' mem a)
    (d : DataT) (m : Machine) : (load read d m).val = Arm.load read' d m := by
  unfold load Arm.load
  split
  · simp only [Logged.val_bind, Logged.val_pure, h]
    rfl
  · rfl

/-- The row without the log. -/
def Instruction.erase (row : Instruction) : Arm.Instruction where
  opcodeLength := row.opcodeLength
  opcode := row.opcode
  decode d w := (row.decode d w).val
  execute d m := (row.execute d m).val

theorem val_executeStur : ∀ d m, (store writeStur d m).val = executeStur d m := by
  refine val_store fun mem a v => ?_
  simp only [writeStur, Logged.val_bind, val_memWrite32, shr]

theorem val_executeSturb : ∀ d m, (store writeSturb d m).val = executeSturb d m := by
  refine val_store fun mem a v => ?_
  simp only [writeSturb, Logged.val_bind, val_memWrite32, val_memRead32]

theorem val_executeSturh : ∀ d m, (store writeSturh d m).val = executeSturh d m := by
  refine val_store fun mem a v => ?_
  simp only [writeSturh, Logged.val_bind, val_memWrite32, val_memRead32]

theorem val_readLdur (mem : Memory) (a : BitVec 64) :
    (readLdur mem a).val = Arm.readLdur mem a := by
  simp only [readLdur, Logged.val_bind, Logged.val_pure, val_memRead32, shl, Arm.readLdur]

theorem val_readLdurb (mem : Memory) (a : BitVec 64) :
    (readLdurb mem a).val = Arm.readLdurb mem a := by
  simp only [readLdurb, Logged.val_bind, Logged.val_pure, val_memRead32, Arm.readLdurb]

theorem val_readLdurh (mem : Memory) (a : BitVec 64) :
    (readLdurh mem a).val = Arm.readLdurh mem a := by
  simp only [readLdurh, Logged.val_bind, Logged.val_pure, val_memRead32, Arm.readLdurh]

theorem erase_cons {row : Instruction} {row' : Arm.Instruction} {rows : List Instruction}
    {rows' : List Arm.Instruction} (hkey : (row.opcodeLength, row.opcode) = row'.key)
    (hdecode : ∀ d w, (row.decode d w).val = row'.decode d w)
    (hexecute : ∀ d m, (row.execute d m).val = row'.execute d m)
    (hrows : rows.map Instruction.erase = rows') :
    (row :: rows).map Instruction.erase = row' :: rows' := by
  obtain ⟨l, opcode, decode, execute⟩ := row'
  obtain ⟨hl, hop⟩ := Prod.mk.inj hkey
  rw [List.map_cons, hrows, Instruction.erase, hl, hop, funext₂ hdecode, funext₂ hexecute]

/-- **The table without the log** is that of the simulator. -/
theorem erase_instructions : instructions.map Instruction.erase = Arm.instructions := by
  unfold instructions Arm.instructions
  refine erase_cons rfl val_decodeB val_executeB ?_
  refine erase_cons rfl val_decodeR (val_aluReg _ _) ?_
  refine erase_cons rfl val_decodeR (val_aluReg _ _) ?_
  refine erase_cons rfl val_decodeR (val_aluReg _ _) ?_
  refine erase_cons rfl val_decodeI (val_aluImm _ _) ?_
  refine erase_cons rfl val_decodeI (val_aluImm _ _) ?_
  refine erase_cons rfl val_decodeI val_executeSubsCmpImm ?_
  refine erase_cons rfl val_decodeCb val_executeBCond ?_
  refine erase_cons rfl val_decodeCb (val_compareBranch _) ?_
  refine erase_cons rfl val_decodeCb (val_compareBranch _) ?_
  refine erase_cons rfl val_decodeI val_executeLslLsrImm ?_
  refine erase_cons rfl val_decodeR (val_aluReg _ _) ?_
  refine erase_cons rfl val_decodeR val_executeSubsCmpEr ?_
  refine erase_cons rfl val_decodeR (val_unshifting _) ?_
  refine erase_cons rfl val_decodeR (val_unshifting _) ?_
  refine erase_cons rfl val_decodeR (val_unshifting _) ?_
  refine erase_cons rfl val_decodeD val_executeStur ?_
  refine erase_cons rfl val_decodeD val_executeSturb ?_
  refine erase_cons rfl val_decodeD val_executeSturh ?_
  refine erase_cons rfl val_decodeD (val_load val_readLdur) ?_
  refine erase_cons rfl val_decodeD (val_load val_readLdurb) ?_
  refine erase_cons rfl val_decodeD (val_load val_readLdurh) ?_
  refine erase_cons rfl val_decodeIw (val_unshifting _) ?_
  refine erase_cons rfl val_decodeIw (val_unshifting _) ?_
  rfl

theorem val_dispatch (w : BitVec 32) (rows : List Instruction) :
    (dispatch w rows).val = rows.find? fun row => decide (row.erase.Matches w) := by
  induction rows with
  | nil => rfl
  | cons row rows ih =>
    rw [dispatch]
    dsimp only [Logged.val_bind, shr]
    by_cases hrow : row.opcode = w >>> (32 - row.opcodeLength)
    · have hmatch : row.erase.Matches w := hrow
      rw [if_pos hrow, List.find?_cons_of_pos (by simpa using hmatch)]
      rfl
    · have hmatch : ¬ row.erase.Matches w := hrow
      rw [if_neg hrow, List.find?_cons_of_neg (by simpa using hmatch), ih]

/-- The row that is found is the row of the simulator. -/
theorem erase_dispatch (w : BitVec 32) :
    (dispatch w instructions).val.map Instruction.erase = Arm.dispatch w := by
  rw [val_dispatch, Arm.dispatch, ← erase_instructions, List.find?_map]
  rfl

/-- **Without the log** this is the simulator. -/
theorem val_processInstruction (instructionData : DataT) (m : Machine) :
    (processInstruction instructionData m).val = Arm.processInstruction instructionData m := by
  simp only [processInstruction, Logged.val_bind, val_memRead32, Arm.processInstruction]
  rw [← erase_dispatch]
  cases (dispatch (Arm.memRead32 m.mem m.currentState.pc) instructions).val <;> rfl

/-! ## The counts -/

section counts

@[simp] theorem all_shl (x : BitVec k) (n : Nat) : (shl x n).All CShift.Defined ↔ n < k :=
  Logged.all_singleton _ _

@[simp] theorem all_shr (x : BitVec k) (n : Nat) : (shr x n).All CShift.Defined ↔ n < k :=
  Logged.all_singleton _ _

@[simp] theorem all_shlBy (x count : BitVec 64) :
    (shlBy x count).All CShift.Defined ↔ count.toNat < 64 := Logged.all_singleton _ _

@[simp] theorem all_shrBy (x count : BitVec 64) :
    (shrBy x count).All CShift.Defined ↔ count.toNat < 64 := Logged.all_singleton _ _

@[simp] theorem all_memRead32 (mem : Memory) (address : BitVec 64) :
    (memRead32 mem address).All CShift.Defined := by
  unfold memRead32
  cases regionAt address.toNat <;> simp

@[simp] theorem all_memWrite32 (mem : Memory) (address : BitVec 64) (value : BitVec 32) :
    (memWrite32 mem address value).All CShift.Defined := by
  unfold memWrite32
  cases regionAt address.toNat <;> simp

@[simp] theorem all_shiftBits (w : BitVec 32) (n : Nat) (mask : BitVec 32) :
    (shiftBits w n mask).All CShift.Defined ↔ n < 32 := by simp [shiftBits]

@[simp] theorem all_signExtend (n : BitVec 64) (bits : Nat) :
    (signExtend n bits).All CShift.Defined ↔ bits - 1 < 32 := by simp [signExtend]

@[simp] theorem all_setFlags (flags : Bool) (s : CpuState) (result : BitVec 64) :
    (setFlags flags s result).All CShift.Defined := by
  cases flags <;> simp [setFlags]

@[simp] theorem all_immediate (d : DataT) : (immediate d).All CShift.Defined := by
  unfold immediate
  split <;> simp

@[simp] theorem all_condOffset (d : DataT) : (condOffset d).All CShift.Defined := by
  simp [condOffset]

@[simp] theorem all_address (d : DataT) (m : Machine) : (address d m).All CShift.Defined := by
  simp [address]

theorem all_decode : ∀ row ∈ instructions, ∀ d w, (row.decode d w).All CShift.Defined := by
  simp only [instructions, List.forall_mem_cons, List.not_mem_nil, false_implies, implies_true,
    and_true]
  and_intros <;> intro d w <;>
    simp [decodeR, decodeI, decodeD, decodeB, decodeCb, decodeIw]

variable (d : DataT) (m : Machine)

theorem all_executeB : (executeB d m).All CShift.Defined := by simp [executeB]

theorem all_executeBCond : (executeBCond d m).All CShift.Defined := by simp [executeBCond]

theorem all_compareBranch (test : BitVec 64 → Bool) :
    (compareBranch test d m).All CShift.Defined := by simp [compareBranch]

theorem all_aluReg (op : BitVec 64 → BitVec 64 → BitVec 64) (flags : Bool) :
    (aluReg op flags d m).All CShift.Defined := by simp [aluReg]

theorem all_aluImm (op : BitVec 64 → BitVec 64 → BitVec 64) (flags : Bool) :
    (aluImm op flags d m).All CShift.Defined := by simp [aluImm]

theorem all_store {write : Memory → BitVec 64 → BitVec 64 → Logged CShift Memory}
    (h : ∀ mem a v, (write mem a v).All CShift.Defined) : (store write d m).All CShift.Defined := by
  unfold store
  split <;> simp [h]

theorem all_load {read : Memory → BitVec 64 → Logged CShift (BitVec 64)}
    (h : ∀ mem a, (read mem a).All CShift.Defined) : (load read d m).All CShift.Defined := by
  unfold load
  split <;> simp [h]

theorem all_writeStur (mem : Memory) (a v : BitVec 64) : (writeStur mem a v).All CShift.Defined := by
  simp [writeStur]

theorem all_writeSturb (mem : Memory) (a v : BitVec 64) :
    (writeSturb mem a v).All CShift.Defined := by simp [writeSturb]

theorem all_writeSturh (mem : Memory) (a v : BitVec 64) :
    (writeSturh mem a v).All CShift.Defined := by simp [writeSturh]

theorem all_readLdur (mem : Memory) (a : BitVec 64) : (readLdur mem a).All CShift.Defined := by
  simp [readLdur]

theorem all_readLdurb (mem : Memory) (a : BitVec 64) : (readLdurb mem a).All CShift.Defined := by
  simp [readLdurb]

theorem all_readLdurh (mem : Memory) (a : BitVec 64) : (readLdurh mem a).All CShift.Defined := by
  simp [readLdurh]

theorem all_unshifting (execute : DataT → Machine → Machine) :
    (unshifting execute d m).All CShift.Defined := Logged.all_pure _

/-- **The row of the immediate shifts** shifts to the left by `64 - immr`. -/
theorem all_executeLslLsrImm (u : DataT) (w : BitVec 32) :
    (executeLslLsrImm (Arm.decodeI u w) m).All CShift.Defined ↔
      (field w 16 6 = 0 → field w 10 6 = 63) := by
  obtain ⟨hhigh, hlow⟩ := field_high_low w
  have himms : ∀ x : BitVec 6, x.setWidth 64 ≠ 0x3f ↔ x ≠ 63 := by decide
  have hleft : ∀ x : BitVec 6, (64 - x.setWidth 64 : BitVec 64).toNat < 64 ↔ x ≠ 0 := by decide
  have hright : ∀ x : BitVec 6, (x.setWidth 64).toNat < 64 := by decide
  rw [executeLslLsrImm, Logged.all_bind, all_shr, and_iff_right (by decide), Logged.all_bind,
    and_iff_left (Logged.all_pure _)]
  dsimp only [shr]
  rw [setWidth_shiftRight, decodeI_aluImmediate, hhigh, hlow, shiftBy]
  by_cases h : field w 10 6 = 63
  · rw [if_neg (not_not_intro (by rw [h]; rfl)), all_shrBy]
    exact iff_of_true (hright _) fun _ => h
  · rw [if_pos ((himms _).mpr h), all_shlBy, hleft]
    exact ⟨fun hne h0 => absurd h0 hne, fun himp h0 => h (himp h0)⟩

theorem all_dispatch (w : BitVec 32) {rows : List Instruction}
    (h : ∀ row ∈ rows, 0 < row.opcodeLength) : (dispatch w rows).All CShift.Defined := by
  induction rows with
  | nil => exact Logged.all_pure _
  | cons row rows ih =>
    rw [List.forall_mem_cons] at h
    rw [dispatch, Logged.all_bind, all_shr]
    refine ⟨by omega, ?_⟩
    split
    · exact Logged.all_pure _
    · exact ih h.2

/-- **What a row shifts.** -/
theorem all_execute : ∀ row ∈ instructions, ∀ (u : DataT) (w : BitVec 32) (m : Machine),
    (row.execute (row.decode u w).val m).All CShift.Defined ↔
      (row.opcode = 0x34d → field w 16 6 = 0 → field w 10 6 = 63) := by
  have hother : ∀ {p : Prop} {opcode : BitVec 32} {q : Prop}, p → opcode ≠ 0x34d →
      (p ↔ (opcode = 0x34d → q)) := fun hp hne => iff_of_true hp fun h => absurd h hne
  simp only [instructions, List.forall_mem_cons, List.not_mem_nil, false_implies, implies_true,
    and_true]
  refine ⟨fun u w m => hother (all_executeB _ _) (by decide),
    fun u w m => hother (all_aluReg _ _ _ _) (by decide),
    fun u w m => hother (all_aluReg _ _ _ _) (by decide),
    fun u w m => hother (all_aluReg _ _ _ _) (by decide),
    fun u w m => hother (all_aluImm _ _ _ _) (by decide),
    fun u w m => hother (all_aluImm _ _ _ _) (by decide),
    fun u w m => hother (all_aluImm _ _ _ _) (by decide),
    fun u w m => hother (all_executeBCond _ _) (by decide),
    fun u w m => hother (all_compareBranch _ _ _) (by decide),
    fun u w m => hother (all_compareBranch _ _ _) (by decide),
    fun u w m => ?_,
    fun u w m => hother (all_aluReg _ _ _ _) (by decide),
    fun u w m => hother (all_aluReg _ _ _ _) (by decide),
    fun u w m => hother (all_unshifting _ _ _) (by decide),
    fun u w m => hother (all_unshifting _ _ _) (by decide),
    fun u w m => hother (all_unshifting _ _ _) (by decide),
    fun u w m => hother (all_store _ _ all_writeStur) (by decide),
    fun u w m => hother (all_store _ _ all_writeSturb) (by decide),
    fun u w m => hother (all_store _ _ all_writeSturh) (by decide),
    fun u w m => hother (all_load _ _ all_readLdur) (by decide),
    fun u w m => hother (all_load _ _ all_readLdurb) (by decide),
    fun u w m => hother (all_load _ _ all_readLdurh) (by decide),
    fun u w m => hother (all_unshifting _ _ _) (by decide),
    fun u w m => hother (all_unshifting _ _ _) (by decide)⟩
  rw [val_decodeI, all_executeLslLsrImm]
  exact (imp_iff_right trivial).symm

end counts

end Shifting

/-- **All shifts of a cycle are defined** if and only if the word is not one of the row for
immediate shifts with `immr = 0` that is no LSR. -/
theorem shifts_defined_iff (u : DataT) (m : Machine) :
    (∀ s ∈ (Shifting.processInstruction u m).log, s.count < s.width) ↔
      ¬ (m.fetched >>> 22 = 0x34d ∧ field m.fetched 16 6 = 0 ∧ field m.fetched 10 6 ≠ 63) := by
  have hlengths : ∀ row ∈ Shifting.instructions, 0 < row.opcodeLength := by
    simp [Shifting.instructions]
  have hdispatch := Shifting.erase_dispatch m.fetched
  have hall : (∀ s ∈ (Shifting.processInstruction u m).log, s.count < s.width) ↔
      (Shifting.processInstruction u m).All CShift.Defined := Iff.rfl
  rw [hall, Shifting.processInstruction, Logged.all_bind, and_iff_right (Shifting.all_memRead32 _ _),
    Logged.all_bind, and_iff_right (Shifting.all_dispatch _ hlengths), Shifting.val_memRead32,
    ← Machine.fetched]
  cases hrow : (Shifting.dispatch m.fetched Shifting.instructions).val with
  | none =>
    rw [hrow] at hdispatch
    have hno := dispatch_eq_none.mp hdispatch.symm ⟨10, 0x34d, decodeI, executeLslLsrImm⟩
      (by simp [instructions])
    refine iff_of_true (Logged.all_pure _) ?_
    rintro ⟨hop, -⟩
    exact hno hop.symm
  | some row =>
    rw [hrow] at hdispatch
    have hmem : row ∈ Shifting.instructions := by
      rw [Shifting.val_dispatch] at hrow
      exact List.mem_of_find?_eq_some hrow
    have hop : m.fetched >>> 22 = 0x34d ↔ row.opcode = 0x34d :=
      prefix_iff hdispatch.symm 10 0x34d (by decide)
    rw [Logged.all_bind, and_iff_right (Shifting.all_decode row hmem _ _), Logged.all_bind,
      and_iff_left (Logged.all_pure _), Shifting.all_execute row hmem, hop]
    simp only [not_and, not_not]

/-- `ubfx x3, x1, #0, #8` shifts a value of 64 bits by 64. -/
theorem ubfx_shifts_by_width :
    ¬ ∀ (u : DataT) (m : Machine) (row : Instruction), dispatch m.fetched = some row →
      ∀ s ∈ (Shifting.processInstruction u m).log, s.count < s.width := by
  intro h
  have hdispatch : dispatch (registerMachine 0xd3401c23).fetched =
      some ⟨10, 0x34d, decodeI, executeLslLsrImm⟩ :=
    dispatch_eq_some.mpr ⟨by simp [instructions], by decide⟩
  have hall := h default (registerMachine 0xd3401c23) _ hdispatch
  revert hall
  decide

end Acso.Arm
