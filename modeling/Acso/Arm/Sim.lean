import Acso.Arm.Execute

/-!
# Dispatch

`sim.c`: the instruction table and `processInstruction`, which decodes and
executes the word at the program counter with the first row whose opcode the
word starts with.  A word that starts with no opcode of the table changes
nothing.
-/

namespace Acso.Arm

/-- `instruction_t`. -/
structure Instruction where
  opcodeLength : Nat
  opcode : BitVec 32
  decode : DataT → BitVec 32 → DataT
  execute : DataT → Machine → Machine

def instructions : List Instruction :=
  [ ⟨6, 0x5, decodeB, executeB⟩,
    ⟨8, 0xea, decodeR, executeAndsSr⟩,
    ⟨8, 0xca, decodeR, executeEorSr⟩,
    ⟨8, 0xaa, decodeR, executeOrrSr⟩,
    ⟨8, 0x91, decodeI, executeAddImm⟩,
    ⟨8, 0xb1, decodeI, executeAddsImm⟩,
    ⟨8, 0xf1, decodeI, executeSubsCmpImm⟩,
    ⟨8, 0x54, decodeCb, executeBCond⟩,
    ⟨8, 0xb4, decodeCb, executeCbz⟩,
    ⟨8, 0xb5, decodeCb, executeCbnz⟩,
    ⟨10, 0x34d, decodeI, executeLslLsrImm⟩,
    ⟨11, 0x558, decodeR, executeAddsEr⟩,
    ⟨11, 0x758, decodeR, executeSubsCmpEr⟩,
    ⟨11, 0x6b0, decodeR, executeBr⟩,
    ⟨11, 0x458, decodeR, executeAddEr⟩,
    ⟨11, 0x4d8, decodeR, executeMul⟩,
    ⟨11, 0x7c0, decodeD, executeStur⟩,
    ⟨11, 0x1c0, decodeD, executeSturb⟩,
    ⟨11, 0x3c0, decodeD, executeSturh⟩,
    ⟨11, 0x7c2, decodeD, executeLdur⟩,
    ⟨11, 0x1c2, decodeD, executeLdurb⟩,
    ⟨11, 0x3c2, decodeD, executeLdurh⟩,
    ⟨11, 0x6a2, decodeIw, executeHlt⟩,
    ⟨11, 0x694, decodeIw, executeMovz⟩ ]

/-- The word starts with the opcode of the row. -/
def Instruction.Matches (row : Instruction) (instructionCode : BitVec 32) : Prop :=
  row.opcode = instructionCode >>> (32 - row.opcodeLength)

instance (row : Instruction) (instructionCode : BitVec 32) :
    Decidable (row.Matches instructionCode) := inferInstanceAs (Decidable (_ = _))

/-- The row the loop over the table stops at. -/
def dispatch (instructionCode : BitVec 32) : Option Instruction :=
  instructions.find? (fun row => decide (row.Matches instructionCode))

/-- The end of `processInstruction`: on to the next word, unless the executor took a branch. -/
def Machine.updatePc (m : Machine) : Machine :=
  if !m.branchFlag then
    { m with nextState := { m.nextState with pc := m.currentState.pc + 4 } }
  else
    { m with branchFlag := false }

/-- `instructionData` is the contents of the local `instruction_data` before the
decoder fills it. -/
def processInstruction (instructionData : DataT) (m : Machine) : Machine :=
  let instructionCode := memRead32 m.mem m.currentState.pc
  match dispatch instructionCode with
  | some row => (row.execute (row.decode instructionData instructionCode) m).updatePc
  | none => m

end Acso.Arm
