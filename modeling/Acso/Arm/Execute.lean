import Acso.Lib.SignExtend
import Acso.Arm.Decode
import Acso.Arm.Machine

/-!
# The executors

`execute.c`: what each row of the instruction table does once the word is
decoded.  An executor reads `CURRENT_STATE` and writes `NEXT_STATE`, the memory,
the run bit or the branch flag.

Executors that differ in one operator share a definition (`aluReg`, `aluImm`,
`compareBranch`, `store`, `load`) and are that definition at their operator.
`executeAddEr` is not an `aluReg`: it also sets the branch flag.
-/

namespace Acso.Arm

open Acso.Lib

/-- Sign extends the `bits`-bit number `n` to 64 bits. -/
def signExtend (n : BitVec 64) (bits : Nat) : BitVec 64 :=
  let m : BitVec 64 := ((1 : BitVec 32) <<< (bits - 1)).setWidth 64
  (n ^^^ m) - m

theorem signExtend_setWidth {k : Nat} (y : BitVec (k + 1)) (hk : k < 32) :
    signExtend (y.setWidth 64) (k + 1) = y.signExtend 64 := by
  have hlt : 2 ^ k < 2 ^ 32 := Nat.pow_lt_pow_right (by decide) hk
  refine xor_sub_eq_signExtend y (by omega) ?_
  rw [BitVec.toNat_setWidth, BitVec.toNat_shiftLeft, Nat.shiftLeft_eq,
    show (1 : BitVec 32).toNat = 1 from rfl, Nat.one_mul, Nat.add_sub_cancel,
    Nat.mod_eq_of_lt hlt, Nat.mod_eq_of_lt (Nat.lt_trans hlt (by decide))]

/-- A 64-bit C shift.  A count of 64 is undefined in C; the hardware takes the
count modulo 64. -/
def shiftCount (count : BitVec 64) : Nat := count.toNat % 64

/-! ## Branches -/

/-- `NEXT_STATE.PC = target; BRANCH_FLAG = TRUE`. -/
def Machine.branch (m : Machine) (target : BitVec 64) : Machine :=
  { m with nextState := { m.nextState with pc := target }, branchFlag := true }

def executeB (d : DataT) (m : Machine) : Machine :=
  let offset := signExtend (((d.brAddress.setWidth 32) <<< 2).setWidth 64) 28
  m.branch (m.currentState.pc + offset)

/-- The offset of the CB-format branches. -/
def condOffset (d : DataT) : BitVec 64 :=
  signExtend (((d.condBrAddress.setWidth 32) <<< 2).setWidth 64) 21

def executeBCond (d : DataT) (m : Machine) : Machine :=
  let offset := condOffset d
  let taken := m.branch (m.currentState.pc + offset)
  if d.rt = 0x0 then
    if m.currentState.flagZ then taken else m
  else if d.rt = 0x1 then
    if !m.currentState.flagZ then taken else m
  else if d.rt = 0xb then
    if m.currentState.flagN then taken else m
  else if d.rt = 0xc then
    if !m.currentState.flagN && !m.currentState.flagZ then taken else m
  else if d.rt = 0xd then
    if m.currentState.flagN || m.currentState.flagZ then taken else m
  else m

/-- Branches when the register passes `test`. -/
def compareBranch (test : BitVec 64 → Bool) (d : DataT) (m : Machine) : Machine :=
  let offset := condOffset d
  let operand1 := m.currentState.reg d.rt
  if test operand1 then m.branch (m.currentState.pc + offset) else m

def executeCbz : DataT → Machine → Machine := compareBranch (fun x => x == 0x0)
def executeCbnz : DataT → Machine → Machine := compareBranch (fun x => x != 0x0)

def executeBr (d : DataT) (m : Machine) : Machine :=
  if d.rm = 0x1f ∧ d.shamt = 0x0 ∧ d.rd = 0x0 then m.branch (m.currentState.reg d.rn) else m

/-! ## Arithmetic, logic and shifts -/

/-- `op` on two registers, with the flags set when `flags`. -/
def aluReg (op : BitVec 64 → BitVec 64 → BitVec 64) (flags : Bool) (d : DataT) (m : Machine) :
    Machine :=
  let operand1 := m.currentState.reg d.rn
  let operand2 := m.currentState.reg d.rm
  let result := op operand1 operand2
  let next := if flags then m.nextState.setFlags result else m.nextState
  { m with nextState := next.writeReg d.rd result }

def executeAndsSr : DataT → Machine → Machine := aluReg (fun a b => a &&& b) true
def executeEorSr : DataT → Machine → Machine := aluReg (fun a b => a ^^^ b) false
def executeOrrSr : DataT → Machine → Machine := aluReg (fun a b => a ||| b) false
def executeAddsEr : DataT → Machine → Machine := aluReg (fun a b => a + b) true
def executeSubsCmpEr : DataT → Machine → Machine := aluReg (fun a b => a + ~~~b + 1) true

/-- `op` on a register and the immediate, with the flags set when `flags`. -/
def aluImm (op : BitVec 64 → BitVec 64 → BitVec 64) (flags : Bool) (d : DataT) (m : Machine) :
    Machine :=
  let operand1 := m.currentState.reg d.rn
  let imm : BitVec 64 := d.aluImmediate.setWidth 64
  let imm := if d.shift = 0x1 then imm <<< 12 else imm
  let result := op operand1 imm
  let next := if flags then m.nextState.setFlags result else m.nextState
  { m with nextState := next.writeReg d.rd result }

def executeAddImm : DataT → Machine → Machine := aluImm (fun a b => a + b) false
def executeAddsImm : DataT → Machine → Machine := aluImm (fun a b => a + b) true
def executeSubsCmpImm : DataT → Machine → Machine := aluImm (fun a b => a + ~~~b + 1) true

def executeLslLsrImm (d : DataT) (m : Machine) : Machine :=
  let src := m.currentState.reg d.rn
  let immr : BitVec 64 := (d.aluImmediate >>> 6).setWidth 64
  let imms : BitVec 64 := (d.aluImmediate &&& 0x3f).setWidth 64
  let result := if imms ≠ 0x3f then src <<< shiftCount (64 - immr) else src >>> shiftCount immr
  { m with nextState := m.nextState.writeReg d.rd result }

/-- Writes the sum and, unlike `executeAddsEr`, sets the branch flag. -/
def executeAddEr (d : DataT) (m : Machine) : Machine :=
  let operand1 := m.currentState.reg d.rn
  let operand2 := m.currentState.reg d.rm
  let result := operand1 + operand2
  if d.rd ≠ xzr then
    { m with nextState := m.nextState.setReg d.rd result, branchFlag := true }
  else m

def executeMul (d : DataT) (m : Machine) : Machine :=
  if d.shamt = xzr.setWidth 6 then aluReg (fun a b => a * b) false d m else m

def executeMovz (d : DataT) (m : Machine) : Machine :=
  let result : BitVec 64 := d.movImmediate.setWidth 64
  { m with nextState := m.nextState.writeReg d.rd result }

/-! ## Memory and halting -/

/-- `REGS[Rn]` plus the signed offset. -/
def address (d : DataT) (m : Machine) : BitVec 64 :=
  m.currentState.reg d.rn + signExtend (d.dtAddress.setWidth 64) 9

/-- Stores the register `Rt` at the address with `write`. -/
def store (write : Memory → BitVec 64 → BitVec 64 → Memory) (d : DataT) (m : Machine) : Machine :=
  if d.op = 0x0 then { m with mem := write m.mem (address d m) (m.currentState.reg d.rt) } else m

def executeStur : DataT → Machine → Machine := store fun mem address data =>
  let mem := memWrite32 mem address ((data &&& 0xffffffff).setWidth 32)
  memWrite32 mem (address + 4) ((data >>> 32).setWidth 32)

def executeSturb : DataT → Machine → Machine := store fun mem address reg =>
  let data : BitVec 32 := (reg &&& 0xff).setWidth 32
  let data := data ||| (memRead32 mem address &&& 0xffffff00)
  memWrite32 mem address data

def executeSturh : DataT → Machine → Machine := store fun mem address reg =>
  let data : BitVec 64 := reg &&& 0xffff
  let data := data ||| (memRead32 mem address &&& 0xffff0000).setWidth 64
  memWrite32 mem address (data.setWidth 32)

/-- Loads into the register `Rt`, whichever it is, what `read` finds at the address. -/
def load (read : Memory → BitVec 64 → BitVec 64) (d : DataT) (m : Machine) : Machine :=
  if d.op = 0x0 then
    { m with nextState := m.nextState.setReg d.rt (read m.mem (address d m)) }
  else m

def readLdur (mem : Memory) (address : BitVec 64) : BitVec 64 :=
  let lowerHalf := memRead32 mem address
  let upperHalf := memRead32 mem (address + 4)
  lowerHalf.setWidth 64 ||| (upperHalf.setWidth 64 <<< 32)

def readLdurb (mem : Memory) (address : BitVec 64) : BitVec 64 :=
  let word := memRead32 mem address
  let data : BitVec 8 := (word &&& 0xFF).setWidth 8
  data.setWidth 64

def readLdurh (mem : Memory) (address : BitVec 64) : BitVec 64 :=
  let word := memRead32 mem address
  let halfword : BitVec 16 := (word &&& 0xFFFF).setWidth 16
  halfword.signExtend 64

def executeLdur : DataT → Machine → Machine := load readLdur
def executeLdurb : DataT → Machine → Machine := load readLdurb
def executeLdurh : DataT → Machine → Machine := load readLdurh

def executeHlt (d : DataT) (m : Machine) : Machine :=
  if d.rd = 0x0 then { m with runBit := false } else m

end Acso.Arm
