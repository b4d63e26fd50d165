import Acso.Lib.System
import Acso.Arm.Encoding
import Acso.Arm.ProgramCounter

/-!
# The architecture

What the simulator is for: the part of A64 it has, as the architecture means it.  The state
(`Arch`) has 31 general registers, so that number 31 can only be the zero register, the four
flags, and a memory that is mapped here and there; an instruction that reaches outside of it
faults.

* `Instr`: the instructions with their operands.  Where number 31 would be the stack pointer,
  the operand is a `Reg`, which it cannot be.
* `Instr.exec`: what an instruction does, `none` where it faults.
* `Instr.encode`: its word.
* `archSystem`: fetch and execute, labelled by what is executed.
-/

namespace Acso.Arm

open Acso.Lib

/-- The number of a general register. -/
abbrev Reg := { r : BitVec 5 // r ≠ xzr }

structure Arch where
  pc : BitVec 64
  x : Reg → BitVec 64
  flagN : Bool
  flagZ : Bool
  flagC : Bool
  flagV : Bool
  mem : Nat → Option Byte
  halted : Bool

namespace Arch

/-- Number 31 reads as zero. -/
def read (s : Arch) (r : BitVec 5) : BitVec 64 := if h : r ≠ xzr then s.x ⟨r, h⟩ else 0

/-- What is written to number 31 is lost. -/
def write (s : Arch) (r : BitVec 5) (v : BitVec 64) : Arch :=
  if h : r ≠ xzr then { s with x := Function.update s.x ⟨r, h⟩ v } else s

def next (s : Arch) : Arch := { s with pc := s.pc + 4 }

/-- On to `imm` words from here. -/
def jump (s : Arch) {k : Nat} (imm : BitVec k) : Arch :=
  { s with pc := s.pc + BitVec.ofInt 64 (4 * imm.toInt) }

def setFlags (s : Arch) (result : BitVec 64) (carry overflow : Bool) : Arch :=
  { s with
    flagN := result.msb
    flagZ := decide (result = 0)
    flagC := carry
    flagV := overflow }

/-- The condition holds. -/
def holds (s : Arch) (cond : BitVec 4) : Bool :=
  conditionHolds cond s.flagN s.flagZ s.flagC s.flagV

/-- All of the `n` bytes from `address` on are there. -/
def Mapped (s : Arch) (address n : Nat) : Prop := ∀ k < n, (s.mem (address + k)).isSome

instance (s : Arch) (address n : Nat) : Decidable (s.Mapped address n) :=
  inferInstanceAs (Decidable (∀ k < n, _))

/-- The byte at an address that is mapped. -/
def byte (s : Arch) (address : Nat) : Byte := (s.mem address).getD 0

def load (s : Arch) (address n : Nat) : Option (BitVec 64) :=
  if s.Mapped address n then some (BitVec.ofNat 64 (leValue (fun k => s.byte (address + k)) n))
  else none

def store (s : Arch) (address n : Nat) (v : BitVec 64) : Option Arch :=
  if s.Mapped address n then
    some { s with
      mem := fun b =>
        if address ≤ b ∧ b < address + n then some (byteOf v (b - address)) else s.mem b }
  else none

/-- The word at the program counter. -/
def fetch (s : Arch) : Option (BitVec 32) :=
  if s.Mapped s.pc.toNat 4 then
    some (BitVec.ofNat 32 (leValue (fun k => s.byte (s.pc.toNat + k)) 4))
  else none

end Arch

/-! ## The instructions -/

/-- The instructions on two registers. -/
inductive RegOp
  | ands
  | eor
  | orr
  | adds
  | subs
  | add
  | mul
  deriving DecidableEq

/-- How much is loaded or stored. -/
inductive Width
  | byte
  | half
  | doubleword
  deriving DecidableEq

def Width.bytes : Width → Nat
  | .byte => 1
  | .half => 2
  | .doubleword => 8

inductive Instr
  | b (imm : BitVec 26)
  | bCond (cond : BitVec 4) (imm : BitVec 19)
  | cbz (rt : BitVec 5) (imm : BitVec 19)
  | cbnz (rt : BitVec 5) (imm : BitVec 19)
  | br (rn : BitVec 5)
  | reg (op : RegOp) (rd rn rm : BitVec 5)
  | addImm (rd rn : Reg) (imm : BitVec 12) (shifted : Bool)
  | addsImm (rd : BitVec 5) (rn : Reg) (imm : BitVec 12) (shifted : Bool)
  | subsImm (rd : BitVec 5) (rn : Reg) (imm : BitVec 12) (shifted : Bool)
  | lsl (rd rn : BitVec 5) (amount : BitVec 6)
  | lsr (rd rn : BitVec 5) (amount : BitVec 6)
  | movz (rd : BitVec 5) (imm : BitVec 16)
  | stur (w : Width) (rt : BitVec 5) (rn : Reg) (imm : BitVec 9)
  | ldur (w : Width) (rt : BitVec 5) (rn : Reg) (imm : BitVec 9)
  | hlt (imm : BitVec 16)

/-! ## What they do -/

def RegOp.result : RegOp → BitVec 64 → BitVec 64 → BitVec 64
  | .ands, a, b => a &&& b
  | .eor, a, b => a ^^^ b
  | .orr, a, b => a ||| b
  | .adds, a, b => a + b
  | .subs, a, b => a - b
  | .add, a, b => a + b
  | .mul, a, b => a * b

/-- `C` and `V` of a sum. -/
def addCarry (a b : BitVec 64) : Bool × Bool := (a.uaddOverflow b, a.saddOverflow b)

/-- `C` and `V` of a difference; `C` is set unless it borrows. -/
def subCarry (a b : BitVec 64) : Bool × Bool := (!a.usubOverflow b, a.ssubOverflow b)

/-- `C` and `V` of the instructions that set the flags. -/
def RegOp.carry : RegOp → BitVec 64 → BitVec 64 → Option (Bool × Bool)
  | .ands, _, _ => some (false, false)
  | .adds, a, b => some (addCarry a b)
  | .subs, a, b => some (subCarry a b)
  | _, _, _ => none

/-- The immediate operand. -/
def shiftedImm (imm : BitVec 12) (shifted : Bool) : BitVec 64 :=
  if shifted then imm.setWidth 64 <<< 12 else imm.setWidth 64

/-- Sets the flags, if there are `C` and `V`, and the destination. -/
def Arch.finish (s : Arch) (rd : BitVec 5) (result : BitVec 64) (carry : Option (Bool × Bool)) :
    Arch :=
  let s := match carry with
    | some (c, v) => s.setFlags result c v
    | none => s
  (s.write rd result).next

/-- The address of a load or a store. -/
def Arch.effective (s : Arch) (rn : Reg) (imm : BitVec 9) : Nat :=
  (s.read rn + imm.signExtend 64).toNat

def Instr.exec (s : Arch) : Instr → Option Arch
  | .b imm => some (s.jump imm)
  | .bCond cond imm => some (if s.holds cond then s.jump imm else s.next)
  | .cbz rt imm => some (if s.read rt = 0 then s.jump imm else s.next)
  | .cbnz rt imm => some (if s.read rt ≠ 0 then s.jump imm else s.next)
  | .br rn => some { s with pc := s.read rn }
  | .reg op rd rn rm =>
    let a := s.read rn
    let b := s.read rm
    some (s.finish rd (op.result a b) (op.carry a b))
  | .addImm rd rn imm shifted =>
    some (s.finish rd (s.read rn + shiftedImm imm shifted) none)
  | .addsImm rd rn imm shifted =>
    let a := s.read rn
    let b := shiftedImm imm shifted
    some (s.finish rd (a + b) (some (addCarry a b)))
  | .subsImm rd rn imm shifted =>
    let a := s.read rn
    let b := shiftedImm imm shifted
    some (s.finish rd (a - b) (some (subCarry a b)))
  | .lsl rd rn amount => some (s.finish rd (s.read rn <<< amount.toNat) none)
  | .lsr rd rn amount => some (s.finish rd (s.read rn >>> amount.toNat) none)
  | .movz rd imm => some (s.finish rd (imm.setWidth 64) none)
  | .stur w rt rn imm => (s.store (s.effective rn imm) w.bytes (s.read rt)).map Arch.next
  | .ldur w rt rn imm =>
    (s.load (s.effective rn imm) w.bytes).map fun v => (s.write rt v).next
  | .hlt _ => some { s.next with halted := true }

/-! ## Their words -/

/-- A word by its format, its opcode and its operands. -/
structure Encoding where
  format : Format
  opcodeLength : Nat
  opcode : BitVec 32
  operands : DataT

def Encoding.word (e : Encoding) : BitVec 32 := wordOf e.format e.opcodeLength e.opcode e.operands 0

def RegOp.encoding (op : RegOp) (rd rn rm : BitVec 5) : Encoding :=
  let operands : DataT := { (default : DataT) with rm := rm, rn := rn, rd := rd }
  match op with
  | .ands => ⟨.r, 8, 0xea, operands⟩
  | .eor => ⟨.r, 8, 0xca, operands⟩
  | .orr => ⟨.r, 8, 0xaa, operands⟩
  | .adds => ⟨.r, 11, 0x558, operands⟩
  | .subs => ⟨.r, 11, 0x758, operands⟩
  | .add => ⟨.r, 11, 0x458, operands⟩
  | .mul => ⟨.r, 11, 0x4d8, { operands with shamt := 0x1f }⟩

/-- The words with a 12-bit immediate. -/
def immEncoding (opcode : BitVec 32) (rd : BitVec 5) (rn : Reg) (imm : BitVec 12) (shifted : Bool) :
    Encoding :=
  ⟨.i, 8, opcode, { (default : DataT) with
    shift := if shifted then 1 else 0, aluImmediate := imm, rn := rn, rd := rd }⟩

/-- The two fields of an immediate shift. -/
def shiftEncoding (immr imms : BitVec 6) (rd rn : BitVec 5) : Encoding :=
  ⟨.i, 10, 0x34d, { (default : DataT) with aluImmediate := immr ++ imms, rn := rn, rd := rd }⟩

def cbEncoding (opcode : BitVec 32) (rt : BitVec 5) (imm : BitVec 19) : Encoding :=
  ⟨.cb, 8, opcode, { (default : DataT) with condBrAddress := imm, rt := rt }⟩

def Width.storeOpcode : Width → BitVec 32
  | .byte => 0x1c0
  | .half => 0x3c0
  | .doubleword => 0x7c0

def Width.loadOpcode : Width → BitVec 32
  | .byte => 0x1c2
  | .half => 0x3c2
  | .doubleword => 0x7c2

def memEncoding (opcode : BitVec 32) (rt : BitVec 5) (rn : Reg) (imm : BitVec 9) : Encoding :=
  ⟨.d, 11, opcode, { (default : DataT) with dtAddress := imm, op := 0, rn := rn, rt := rt }⟩

def Instr.encoding : Instr → Encoding
  | .b imm => ⟨.b, 6, 0x5, { (default : DataT) with brAddress := imm }⟩
  | .bCond cond imm => cbEncoding 0x54 (cond.setWidth 5) imm
  | .cbz rt imm => cbEncoding 0xb4 rt imm
  | .cbnz rt imm => cbEncoding 0xb5 rt imm
  | .br rn =>
    ⟨.r, 11, 0x6b0, { (default : DataT) with rm := 0x1f, shamt := 0, rn := rn, rd := 0 }⟩
  | .reg op rd rn rm => op.encoding rd rn rm
  | .addImm rd rn imm shifted => immEncoding 0x91 rd rn imm shifted
  | .addsImm rd rn imm shifted => immEncoding 0xb1 rd rn imm shifted
  | .subsImm rd rn imm shifted => immEncoding 0xf1 rd rn imm shifted
  | .lsl rd rn amount => shiftEncoding (-amount) (63 - amount) rd rn
  | .lsr rd rn amount => shiftEncoding amount 63 rd rn
  | .movz rd imm => ⟨.iw, 11, 0x694, { (default : DataT) with movImmediate := imm, rd := rd }⟩
  | .stur w rt rn imm => memEncoding w.storeOpcode rt rn imm
  | .ldur w rt rn imm => memEncoding w.loadOpcode rt rn imm
  | .hlt imm => ⟨.iw, 11, 0x6a2, { (default : DataT) with movImmediate := imm, rd := 0 }⟩

def Instr.encode (i : Instr) : BitVec 32 := i.encoding.word

/-- Executes the instruction at the program counter. -/
def archSystem : System Arch Instr where
  step s i := if s.halted = false ∧ s.fetch = some i.encode then i.exec s else none

/-! ## Registers -/

namespace Arch

theorem read_write (s : Arch) (r r' : BitVec 5) (v : BitVec 64) :
    (s.write r v).read r' = if r ≠ xzr ∧ r' = r then v else s.read r' := by
  unfold write read
  by_cases h : r = xzr
  · simp [h]
  · by_cases h' : r' = xzr
    · have hne : ¬ xzr = r := fun heq => h heq.symm
      simp [h, h', hne]
    · simp [h, h', Function.update_apply, Subtype.mk.injEq]

@[simp] theorem read_next (s : Arch) (r) : s.next.read r = s.read r := rfl
@[simp] theorem read_setFlags (s : Arch) (v c o r) : (s.setFlags v c o).read r = s.read r := rfl

section write

variable (s : Arch) (r : BitVec 5) (v : BitVec 64)

@[simp] theorem write_pc : (s.write r v).pc = s.pc := by unfold write; split <;> rfl
@[simp] theorem write_flagN : (s.write r v).flagN = s.flagN := by unfold write; split <;> rfl
@[simp] theorem write_flagZ : (s.write r v).flagZ = s.flagZ := by unfold write; split <;> rfl
@[simp] theorem write_mem : (s.write r v).mem = s.mem := by unfold write; split <;> rfl
@[simp] theorem write_halted : (s.write r v).halted = s.halted := by unfold write; split <;> rfl

end write

end Arch

theorem archSystem_step {s s' : Arch} {i : Instr} :
    archSystem.step s i = some s' ↔
      s.halted = false ∧ s.fetch = some i.encode ∧ i.exec s = some s' := by
  show (if s.halted = false ∧ s.fetch = some i.encode then i.exec s else none) = some s' ↔ _
  split
  · rename_i h
    simp [h]
  · rename_i h
    simp only [reduceCtorEq, false_iff]
    rintro ⟨hhalted, hfetch, -⟩
    exact h ⟨hhalted, hfetch⟩

end Acso.Arm
