import Mathlib.Data.Int.Init
import Acso.Lib.Except
import Acso.Lib.LittleEndian

/-!
# The disk image

`diskimg.c` over the bytes of an image.  A read that reaches the end of the image
is short and leaves the rest of its buffer as it was; nothing has initialised the
local buffers of the callers, so what they hold is a parameter, `Junk`.
-/

namespace Acso.FileSystem

open Acso.Lib

def diskimgSectorSize : Nat := 512

/-- A buffer of one sector. -/
structure Sector where
  bytes : List Byte
  length_bytes : bytes.length = diskimgSectorSize

/-- How a call goes wrong: it returns `-1` after printing some lines on `stderr`,
or an assertion fails. -/
inductive Failure
  | minusOne (stderr : List String)
  | assertFailed
  deriving DecidableEq

abbrev Result := Except Failure

/-- What a call finds in its uninitialised memory: at `[]` the call itself, at
`i :: path` the `i`-th call it makes. -/
abbrev Junk := List Nat → Sector

namespace Junk

def here (junk : Junk) : Sector := junk []

def sub (junk : Junk) (i : Nat) : Junk := fun path => junk (i :: path)

end Junk

/-- `sectorNum * DISKIMG_SECTOR_SIZE`, an `int`. -/
def sectorOffset (sectorNum : Nat) : Int :=
  Int.bmod ((diskimgSectorSize * sectorNum : Nat) : Int) (2 ^ 32)

/-- The bytes of `disk` from `offset` on, as far as they go, in front of `buf`. -/
def Sector.overwrite (disk : List Byte) (offset : Nat) (buf : Sector) : Sector where
  bytes :=
    let read := (disk.drop offset).take diskimgSectorSize
    read ++ buf.bytes.drop read.length
  length_bytes := by
    have := buf.length_bytes
    simp only [List.length_append, List.length_drop, List.length_take]
    omega

/-- The number of bytes read, and the buffer afterwards. -/
def diskimgReadsector (disk : List Byte) (sectorNum : Nat) (buf : Sector) :
    Result (Nat × Sector) :=
  -- `lseek` refuses a negative offset
  if sectorOffset sectorNum < 0 then .error (.minusOne [])
  else
    let offset := (sectorOffset sectorNum).toNat
    .ok (((disk.drop offset).take diskimgSectorSize).length, buf.overwrite disk offset)

/-! ## Whole sectors -/

/-- The sector lies inside the image. -/
def SectorInside (disk : List Byte) (k : Nat) : Prop :=
  diskimgSectorSize * k + diskimgSectorSize ≤ disk.length

instance (disk : List Byte) (k : Nat) : Decidable (SectorInside disk k) :=
  inferInstanceAs (Decidable (_ ≤ _))

def sectorBytes (disk : List Byte) (k : Nat) : List Byte :=
  (disk.drop (diskimgSectorSize * k)).take diskimgSectorSize

theorem length_sectorBytes {disk : List Byte} {k : Nat} (h : SectorInside disk k) :
    (sectorBytes disk k).length = diskimgSectorSize := by
  rw [SectorInside] at h
  rw [sectorBytes, List.length_take, List.length_drop]
  omega

/-- Up to sector `2 ^ 22` the offset does not overflow. -/
theorem sectorOffset_eq {k : Nat} (hk : k < 2 ^ 22) :
    sectorOffset k = ((diskimgSectorSize * k : Nat) : Int) := by
  have h : diskimgSectorSize * k < 2 ^ 31 := by
    rw [diskimgSectorSize]
    omega
  refine Int.bmod_eq_of_le ?_ ?_ <;> omega

/-- Reading a sector finds what the image has of it. -/
theorem diskimgReadsector_eq {k : Nat} (hk : k < 2 ^ 22) (disk : List Byte) (buf : Sector) :
    diskimgReadsector disk k buf =
      .ok ((sectorBytes disk k).length, buf.overwrite disk (diskimgSectorSize * k)) := by
  have hoff : (sectorOffset k).toNat = diskimgSectorSize * k := by
    rw [sectorOffset_eq hk, Int.toNat_natCast]
  have hneg : ¬ sectorOffset k < 0 := by
    rw [sectorOffset_eq hk]
    exact Int.not_lt.mpr (Int.natCast_nonneg _)
  rw [diskimgReadsector, if_neg hneg]
  simp only [hoff, sectorBytes]

/-- **Reading a sector inside the image** fills the buffer. -/
theorem diskimgReadsector_inside {disk : List Byte} {k : Nat} (hk : k < 2 ^ 22)
    (h : SectorInside disk k) (buf : Sector) :
    ∃ buf' : Sector, buf'.bytes = sectorBytes disk k ∧
      diskimgReadsector disk k buf = .ok (diskimgSectorSize, buf') := by
  have hlen := length_sectorBytes h
  refine ⟨buf.overwrite disk (diskimgSectorSize * k), ?_, ?_⟩
  · have hrest : buf.bytes.drop diskimgSectorSize = [] :=
      List.drop_eq_nil_of_le (Nat.le_of_eq buf.length_bytes)
    rw [sectorBytes] at hlen
    simp only [Sector.overwrite, hlen, hrest, List.append_nil]
    rfl
  · rw [diskimgReadsector_eq hk, hlen]

/-! ## Sixteen-bit words -/

/-- The `uint16_t` at a byte offset. -/
def wordAt (bytes : List Byte) (offset : Nat) : BitVec 16 :=
  BitVec.ofNat 16 (leValue (fun k => bytes.getD (offset + k) 0) 2)

/-- The word at a place inside a piece of a list. -/
theorem wordAt_take_drop {n i : Nat} (h : i + 2 ≤ n) (l : List Byte) (d : Nat) :
    wordAt ((l.drop d).take n) i = wordAt l (d + i) := by
  have hbyte : ∀ k < 2, ((l.drop d).take n).getD (i + k) 0 = l.getD (d + i + k) 0 := by
    intro k hk
    rw [List.getD_eq_getElem?_getD, List.getElem?_take_of_lt (by omega), List.getElem?_drop,
      ← List.getD_eq_getElem?_getD, Nat.add_assoc]
  rw [wordAt, wordAt]
  simp only [leValue, hbyte 0 (by decide), hbyte 1 (by decide)]

theorem byteOf_wordAt {k : Nat} (hk : k < 2) (bytes : List Byte) (offset : Nat) :
    byteOf (wordAt bytes offset) k = bytes.getD (offset + k) 0 :=
  byteOf_ofNat_leValue _ hk (Nat.le_refl _)

/-- What a read leaves in its buffer: the bytes of the image as far as it goes, and what
was there before. -/
theorem getD_overwrite (disk : List Byte) (offset : Nat) (buf : Sector) {i : Nat}
    (hi : i < diskimgSectorSize) :
    (buf.overwrite disk offset).bytes.getD i 0 =
      if offset + i < disk.length then disk.getD (offset + i) 0 else buf.bytes.getD i 0 := by
  have hlen : ((disk.drop offset).take diskimgSectorSize).length =
      min diskimgSectorSize (disk.length - offset) := by
    rw [List.length_take, List.length_drop]
  simp only [Sector.overwrite, List.getD_eq_getElem?_getD]
  split
  · rw [List.getElem?_append_left (by omega), List.getElem?_take_of_lt hi, List.getElem?_drop]
  · rw [List.getElem?_append_right (by omega), List.getElem?_drop, Nat.add_sub_cancel' (by omega)]

/-- Bytes that the image covers. -/
theorem take_overwrite {disk : List Byte} {offset n : Nat} (hn : n ≤ diskimgSectorSize)
    (h : offset + n ≤ disk.length) (buf : Sector) :
    (buf.overwrite disk offset).bytes.take n = (disk.drop offset).take n := by
  have hlen : n ≤ ((disk.drop offset).take diskimgSectorSize).length := by
    rw [List.length_take, List.length_drop]
    omega
  simp only [Sector.overwrite]
  rw [List.take_append_of_le_length hlen, List.take_take, Nat.min_eq_left hn]

/-- A word that the image covers. -/
theorem wordAt_overwrite {disk : List Byte} {offset i : Nat} (hi : i + 2 ≤ diskimgSectorSize)
    (h : offset + i + 2 ≤ disk.length) (buf : Sector) :
    wordAt (buf.overwrite disk offset).bytes i = wordAt disk (offset + i) := by
  refine ext_byteOf (Nat.le_refl (8 * 2)) ?_
  intro k hk
  rw [byteOf_wordAt hk, byteOf_wordAt hk, getD_overwrite _ _ _ (by omega), if_pos (by omega),
    Nat.add_assoc]

/-- A sector as an array of `uint16_t`. -/
def wordsOf (bytes : List Byte) : Vector (BitVec 16) 256 := Vector.ofFn fun i => wordAt bytes (2 * i)

/-- `a[i]`; beyond the end of the array, whatever memory is there. -/
def readArray {n : Nat} (a : Vector (BitVec 16) n) (i : Nat) (junk : Sector) : BitVec 16 :=
  (a[i]?).getD (wordAt junk.bytes 0)

end Acso.FileSystem
