import Acso.Lib.LittleEndian

/-!
# Decoding

`decode.c`: each format fills the fields of a `data_t` it has and leaves the
others as they were.  The decoders therefore take the contents the structure
has before the call.  The members of `data_t` are bit-fields, so an assignment
keeps the low bits of the value; `setWidth_shiftBits` says that cutting with
the mask first loses nothing.
-/

namespace Acso.Arm

/-- `data_t`. -/
structure DataT where
  op : BitVec 2
  shift : BitVec 2
  rm : BitVec 5
  rn : BitVec 5
  rd : BitVec 5
  rt : BitVec 5
  shamt : BitVec 6
  dtAddress : BitVec 9
  aluImmediate : BitVec 12
  movImmediate : BitVec 16
  condBrAddress : BitVec 19
  brAddress : BitVec 26
  deriving DecidableEq, Inhabited

def shiftBits (instructionCode : BitVec 32) (shiftAmount : Nat) (mask : BitVec 32) : BitVec 32 :=
  (instructionCode >>> shiftAmount) &&& mask

/-- R-format instructions. -/
def decodeR (data : DataT) (instructionCode : BitVec 32) : DataT :=
  { data with
    rm := (shiftBits instructionCode 16 0x1f).setWidth 5
    shamt := (shiftBits instructionCode 10 0x3f).setWidth 6
    rn := (shiftBits instructionCode 5 0x1f).setWidth 5
    rd := (instructionCode &&& 0x1f).setWidth 5 }

/-- I-format instructions. -/
def decodeI (data : DataT) (instructionCode : BitVec 32) : DataT :=
  { data with
    shift := (shiftBits instructionCode 22 0x3).setWidth 2
    aluImmediate := (shiftBits instructionCode 10 0xfff).setWidth 12
    rn := (shiftBits instructionCode 5 0x1f).setWidth 5
    rd := (instructionCode &&& 0x1f).setWidth 5 }

/-- D-format instructions. -/
def decodeD (data : DataT) (instructionCode : BitVec 32) : DataT :=
  { data with
    dtAddress := (shiftBits instructionCode 12 0x1ff).setWidth 9
    op := (shiftBits instructionCode 10 0x3).setWidth 2
    rn := (shiftBits instructionCode 5 0x1f).setWidth 5
    rt := (instructionCode &&& 0x1f).setWidth 5 }

/-- B-format instructions. -/
def decodeB (data : DataT) (instructionCode : BitVec 32) : DataT :=
  { data with brAddress := (instructionCode &&& 0x3ffffff).setWidth 26 }

/-- CB-format instructions. -/
def decodeCb (data : DataT) (instructionCode : BitVec 32) : DataT :=
  { data with
    condBrAddress := (shiftBits instructionCode 5 0x7ffff).setWidth 19
    rt := (instructionCode &&& 0x1f).setWidth 5 }

/-- IW-format instructions. -/
def decodeIw (data : DataT) (instructionCode : BitVec 32) : DataT :=
  { data with
    movImmediate := (shiftBits instructionCode 5 0xffff).setWidth 16
    rd := (instructionCode &&& 0x1f).setWidth 5 }

/-! ## The fields of a word -/

/-- The `width` bits of an instruction word from bit `start`. -/
abbrev field (instructionCode : BitVec 32) (start width : Nat) : BitVec width :=
  instructionCode.extractLsb' start width

theorem setWidth_shiftBits (w : BitVec 32) (start width : Nat) {mask : BitVec 32}
    (hmask : ∀ i < width, mask.getLsbD i = true) :
    (shiftBits w start mask).setWidth width = field w start width := by
  apply BitVec.eq_of_getLsbD_eq
  intro i hi
  simp [shiftBits, field, hi, hmask i hi]

theorem setWidth_and_mask (w : BitVec 32) (width : Nat) {mask : BitVec 32}
    (hmask : ∀ i < width, mask.getLsbD i = true) :
    (w &&& mask).setWidth width = field w 0 width := by
  apply BitVec.eq_of_getLsbD_eq
  intro i hi
  simp [field, hi, hmask i hi]

section

variable (data : DataT) (w : BitVec 32)

@[simp] theorem decodeR_rm : (decodeR data w).rm = field w 16 5 :=
  setWidth_shiftBits w 16 5 (by decide)
@[simp] theorem decodeR_shamt : (decodeR data w).shamt = field w 10 6 :=
  setWidth_shiftBits w 10 6 (by decide)
@[simp] theorem decodeR_rn : (decodeR data w).rn = field w 5 5 :=
  setWidth_shiftBits w 5 5 (by decide)
@[simp] theorem decodeR_rd : (decodeR data w).rd = field w 0 5 :=
  setWidth_and_mask w 5 (by decide)
@[simp] theorem decodeI_shift : (decodeI data w).shift = field w 22 2 :=
  setWidth_shiftBits w 22 2 (by decide)
@[simp] theorem decodeI_aluImmediate : (decodeI data w).aluImmediate = field w 10 12 :=
  setWidth_shiftBits w 10 12 (by decide)
@[simp] theorem decodeI_rn : (decodeI data w).rn = field w 5 5 :=
  setWidth_shiftBits w 5 5 (by decide)
@[simp] theorem decodeI_rd : (decodeI data w).rd = field w 0 5 :=
  setWidth_and_mask w 5 (by decide)
@[simp] theorem decodeD_dtAddress : (decodeD data w).dtAddress = field w 12 9 :=
  setWidth_shiftBits w 12 9 (by decide)
@[simp] theorem decodeD_op : (decodeD data w).op = field w 10 2 :=
  setWidth_shiftBits w 10 2 (by decide)
@[simp] theorem decodeD_rn : (decodeD data w).rn = field w 5 5 :=
  setWidth_shiftBits w 5 5 (by decide)
@[simp] theorem decodeD_rt : (decodeD data w).rt = field w 0 5 :=
  setWidth_and_mask w 5 (by decide)
@[simp] theorem decodeB_brAddress : (decodeB data w).brAddress = field w 0 26 :=
  setWidth_and_mask w 26 (by decide)
@[simp] theorem decodeCb_condBrAddress : (decodeCb data w).condBrAddress = field w 5 19 :=
  setWidth_shiftBits w 5 19 (by decide)
@[simp] theorem decodeCb_rt : (decodeCb data w).rt = field w 0 5 :=
  setWidth_and_mask w 5 (by decide)
@[simp] theorem decodeIw_movImmediate : (decodeIw data w).movImmediate = field w 5 16 :=
  setWidth_shiftBits w 5 16 (by decide)
@[simp] theorem decodeIw_rd : (decodeIw data w).rd = field w 0 5 :=
  setWidth_and_mask w 5 (by decide)

end

end Acso.Arm
