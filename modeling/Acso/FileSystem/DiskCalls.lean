import Acso.Lib.Calls
import Acso.Lib.Splice
import Acso.FileSystem.DiskImg

/-!
# Calls on a disk image

`diskimg.c` over a descriptor: the bytes of the open file, whether it may be written to, and
its offset.  The offset of a sector is an `int`, so sector numbers are taken modulo `2 ^ 23`,
and the upper half of them is refused (`sectorAddress`).

What the calls are for is an array of sectors that grows by zeros, `SectorArray`.  A call on an
image of whole sectors is one on the array (`diskCall_sameReturns`), so after any sequence of
calls a read finds what was last written to its address (`diskCalls_store`).
-/

namespace Acso.FileSystem

open Acso.Lib

/-! ## Descriptors -/

structure Descriptor where
  bytes : List Byte
  readOnly : Bool
  offset : Nat

/-- `open` with `O_RDONLY` or `O_RDWR`; there is no file where that fails. -/
def diskimgOpen (file : Option (List Byte)) (readOnly : Int) : Result Descriptor :=
  match file with
  | none => .error (.minusOne [])
  | some bytes => .ok ⟨bytes, decide (readOnly ≠ 0), 0⟩

/-- `lseek` from the start of the file, and then something from there on, or `-1`. -/
def Descriptor.lseekThen {α : Type} (fd : Descriptor) (offset : Int)
    (next : Descriptor → Result α × Descriptor) : Result α × Descriptor :=
  if offset < 0 then (.error (.minusOne []), fd) else next { fd with offset := offset.toNat }

def Descriptor.read (fd : Descriptor) (buf : Sector) : Result (Nat × Sector) × Descriptor :=
  let count := ((fd.bytes.drop fd.offset).take diskimgSectorSize).length
  (.ok (count, buf.overwrite fd.bytes fd.offset), { fd with offset := fd.offset + count })

/-- A gap between the end of the file and the offset is filled with zeros. -/
def Descriptor.write (fd : Descriptor) (buf : Sector) : Result Nat × Descriptor :=
  if fd.readOnly then (.error (.minusOne []), fd)
  else
    (.ok diskimgSectorSize,
      ⟨splice 0 fd.bytes fd.offset buf.bytes, fd.readOnly, fd.offset + diskimgSectorSize⟩)

/-- `lseek` to the end; its result is returned as an `int`. -/
def diskimgGetsize (fd : Descriptor) : Int × Descriptor :=
  (Int.bmod fd.bytes.length (2 ^ 32), { fd with offset := fd.bytes.length })

/-- `diskimg_readsector` with the descriptor afterwards. -/
def readsectorAt (fd : Descriptor) (sectorNum : Nat) (buf : Sector) :
    Result (Nat × Sector) × Descriptor :=
  fd.lseekThen (sectorOffset sectorNum) fun fd => fd.read buf

def diskimgWritesector (fd : Descriptor) (sectorNum : Nat) (buf : Sector) : Result Nat × Descriptor :=
  fd.lseekThen (sectorOffset sectorNum) fun fd => fd.write buf

/-- Where the offset was does not matter for what is read. -/
theorem readsectorAt_eq (fd : Descriptor) (sectorNum : Nat) (buf : Sector) :
    (readsectorAt fd sectorNum buf).1 = diskimgReadsector fd.bytes sectorNum buf := by
  rw [readsectorAt, diskimgReadsector, Descriptor.lseekThen]
  by_cases hneg : sectorOffset sectorNum < 0
  · rw [if_pos hneg, if_pos hneg]
  · rw [if_neg hneg, if_neg hneg, Descriptor.read]

inductive DiskCall
  | getsize
  | readsector (sectorNum : Nat) (buf : Sector)
  | writesector (sectorNum : Nat) (buf : Sector)

/-- What a call returns: `-1`, a size, or a number of bytes and the buffer afterwards. -/
inductive DiskReturn
  | failed
  | size (bytes : Int)
  | moved (count : Nat) (buf : Sector)

def DiskReturn.ofResult : Result (Nat × Sector) → DiskReturn
  | .error _ => .failed
  | .ok (count, buf) => .moved count buf

def diskCall : DiskCall → Descriptor → DiskReturn × Descriptor
  | .getsize, fd => (diskimgGetsize fd).map .size id
  | .readsector sectorNum buf, fd => (readsectorAt fd sectorNum buf).map .ofResult id
  | .writesector sectorNum buf, fd =>
    (diskimgWritesector fd sectorNum buf).map (fun r => .ofResult (r.map fun count => (count, buf))) id

/-! ## Addresses -/

/-- The sector that a sector number stands for, if there is one. -/
def sectorAddress (sectorNum : Nat) : Option Nat :=
  if sectorNum % 2 ^ 23 < 2 ^ 22 then some (sectorNum % 2 ^ 23) else none

/-- The product wraps around. -/
theorem sectorOffset_address (sectorNum : Nat) :
    (sectorNum % 2 ^ 23 < 2 ^ 22 →
      sectorOffset sectorNum = ((diskimgSectorSize * (sectorNum % 2 ^ 23) : Nat) : Int)) ∧
    (¬ sectorNum % 2 ^ 23 < 2 ^ 22 → sectorOffset sectorNum < 0) := by
  have hlow : -(((2 ^ 32 : Nat) : Int) / 2) ≤ sectorOffset sectorNum := Int.le_bmod (by decide)
  have hhigh : sectorOffset sectorNum < (((2 ^ 32 : Nat) : Int) + 1) / 2 := Int.bmod_lt (by decide)
  have hmod : sectorOffset sectorNum % ((2 ^ 32 : Nat) : Int) =
      ((diskimgSectorSize * sectorNum : Nat) : Int) % ((2 ^ 32 : Nat) : Int) := Int.bmod_emod
  simp only [diskimgSectorSize] at hmod ⊢
  generalize sectorOffset sectorNum = offset at hlow hhigh hmod
  omega

theorem lseekThen_address {α : Type} (fd : Descriptor) (sectorNum : Nat)
    (next : Descriptor → Result α × Descriptor) :
    fd.lseekThen (sectorOffset sectorNum) next =
      match sectorAddress sectorNum with
      | none => (.error (.minusOne []), fd)
      | some k => next { fd with offset := diskimgSectorSize * k } := by
  obtain ⟨hlow, hhigh⟩ := sectorOffset_address sectorNum
  rw [Descriptor.lseekThen, sectorAddress]
  by_cases hk : sectorNum % 2 ^ 23 < 2 ^ 22
  · rw [if_pos hk, hlow hk, if_neg (Int.not_lt.mpr (Int.natCast_nonneg _)), Int.toNat_natCast]
  · rw [if_neg hk, if_pos (hhigh hk)]

/-! ## The array of sectors -/

def zeroSector : Sector := ⟨List.replicate diskimgSectorSize 0#8, List.length_replicate⟩

structure SectorArray where
  sectors : List Sector
  readOnly : Bool

def SectorArray.image (a : SectorArray) : List Byte := (a.sectors.map Sector.bytes).flatten

/-- A call on the array. -/
def arrayCall : DiskCall → SectorArray → DiskReturn × SectorArray
  | .getsize, a => (.size (Int.bmod (diskimgSectorSize * a.sectors.length : Nat) (2 ^ 32)), a)
  | .readsector sectorNum buf, a =>
    match sectorAddress sectorNum with
    | none => (.failed, a)
    | some k =>
      match a.sectors[k]? with
      | none => (.moved 0 buf, a)
      | some sector => (.moved diskimgSectorSize sector, a)
  | .writesector sectorNum buf, a =>
    match sectorAddress sectorNum with
    | none => (.failed, a)
    | some k =>
      if a.readOnly then (.failed, a)
      else (.moved diskimgSectorSize buf, { a with sectors := splice zeroSector a.sectors k [buf] })

/-- The file of the descriptor holds the sectors. -/
structure Holds (a : SectorArray) (fd : Descriptor) : Prop where
  bytes : fd.bytes = a.image
  readOnly : fd.readOnly = a.readOnly

section

variable (a : SectorArray)

theorem length_of_mem_sectors : ∀ x ∈ a.sectors.map Sector.bytes, x.length = diskimgSectorSize := by
  intro x hx
  obtain ⟨s, -, rfl⟩ := List.mem_map.mp hx
  exact s.length_bytes

theorem length_image : a.image.length = diskimgSectorSize * a.sectors.length := by
  rw [SectorArray.image, length_flatten_blocks (length_of_mem_sectors a), List.length_map]

theorem sectorBytes_image (k : Nat) :
    sectorBytes a.image k = (a.sectors[k]?.map Sector.bytes).getD [] := by
  rw [sectorBytes, SectorArray.image, block_flatten (length_of_mem_sectors a), List.getElem?_map]

theorem Sector.ext_bytes {s t : Sector} (h : s.bytes = t.bytes) : s = t := by
  obtain ⟨bytes, hs⟩ := s
  obtain ⟨bytes', ht⟩ := t
  obtain rfl : bytes = bytes' := h
  rfl

theorem image_splice (k : Nat) (buf : Sector) :
    (SectorArray.mk (splice zeroSector a.sectors k [buf]) a.readOnly).image =
      splice 0 a.image (diskimgSectorSize * k) buf.bytes := by
  have hmap : (splice zeroSector a.sectors k [buf]).map Sector.bytes =
      splice (List.replicate diskimgSectorSize 0) (a.sectors.map Sector.bytes) k [buf.bytes] := by
    simp only [splice, List.map_append, List.map_take, List.map_replicate, List.map_drop,
      List.length_map, List.map_cons, List.map_nil, List.length_singleton]
    rfl
  rw [SectorArray.image, hmap, flatten_splice (length_of_mem_sectors a) k buf.length_bytes]
  rfl

variable {a}

/-- What a read of a sector leaves in the buffer. -/
theorem overwrite_image (k : Nat) (buf : Sector) :
    buf.overwrite a.image (diskimgSectorSize * k) = a.sectors[k]?.getD buf := by
  have hread := sectorBytes_image a k
  rw [sectorBytes] at hread
  refine Sector.ext_bytes ?_
  rw [Sector.overwrite]
  dsimp only
  rw [hread]
  cases hk : a.sectors[k]? with
  | none => rfl
  | some s =>
    rw [Option.map_some, Option.getD_some, Option.getD_some,
      List.drop_eq_nil_of_le (Nat.le_of_eq (buf.length_bytes.trans s.length_bytes.symm)),
      List.append_nil]

/-- **A call on the file** is a call on the array. -/
theorem diskCall_sameReturns : SameReturns arrayCall diskCall Holds := by
  rintro l a fd ⟨hbytes, hro⟩
  cases l with
  | getsize =>
    have hsize : diskimgSectorSize * a.sectors.length = fd.bytes.length := by
      rw [hbytes, length_image]
    exact ⟨congrArg (fun n : Nat => DiskReturn.size (Int.bmod n (2 ^ 32))) hsize, hbytes, hro⟩
  | readsector sectorNum buf =>
    rw [arrayCall, diskCall, readsectorAt, lseekThen_address]
    cases sectorAddress sectorNum with
    | none => exact ⟨rfl, hbytes, hro⟩
    | some k =>
      have hover := overwrite_image (a := a) k buf
      have hread := congrArg List.length (sectorBytes_image a k)
      rw [sectorBytes] at hread
      dsimp only [Descriptor.read]
      rw [hbytes, hover, hread]
      cases a.sectors[k]? with
      | none => exact ⟨rfl, rfl, hro⟩
      | some s =>
        rw [Option.map_some, Option.getD_some, Option.getD_some, s.length_bytes]
        exact ⟨rfl, rfl, hro⟩
  | writesector sectorNum buf =>
    rw [arrayCall, diskCall, diskimgWritesector, lseekThen_address]
    cases sectorAddress sectorNum with
    | none => exact ⟨rfl, hbytes, hro⟩
    | some k =>
      dsimp only [Descriptor.write]
      rw [hro]
      by_cases hwrite : a.readOnly = true
      · rw [if_pos hwrite, if_pos hwrite]
        exact ⟨rfl, hbytes, rfl⟩
      · rw [if_neg hwrite, if_neg hwrite, hbytes, ← image_splice]
        exact ⟨rfl, rfl, rfl⟩

/-! ## What a read finds -/

/-- The sector `k` of the array, if it had enough of them. -/
def SectorArray.at (a : SectorArray) (k : Nat) : Sector := a.sectors.getD k zeroSector

theorem SectorArray.getElem?_eq (a : SectorArray) (k : Nat) :
    a.sectors[k]? = if k < a.sectors.length then some (a.at k) else none := by
  rw [SectorArray.at, List.getD_eq_getElem?_getD]
  by_cases hk : k < a.sectors.length
  · rw [if_pos hk, List.getElem?_eq_getElem hk, Option.getD_some]
  · rw [if_neg hk, List.getElem?_eq_none (Nat.le_of_not_lt hk)]

/-- What a call writes, and where. -/
def DiskCall.written : DiskCall → Option (Nat × Sector)
  | .getsize => none
  | .readsector _ _ => none
  | .writesector sectorNum buf => (sectorAddress sectorNum).map fun k => (k, buf)

/-- The buffer that the last of the calls writes to an address. -/
def lastWritten (k : Nat) : List DiskCall → Option Sector
  | [] => none
  | l :: calls => (lastWritten k calls).or (l.written.bind fun w => if w.1 = k then some w.2 else none)

/-- How many sectors there must be for the calls. -/
def reach : List DiskCall → Nat
  | [] => 0
  | l :: calls => max ((l.written.map fun w => w.1 + 1).getD 0) (reach calls)

/-- The array with something written into it. -/
def SectorArray.put (a : SectorArray) : Option (Nat × Sector) → SectorArray
  | none => a
  | some (k, buf) => { a with sectors := splice zeroSector a.sectors k [buf] }

theorem arrayCall_snd (hw : a.readOnly = false) (l : DiskCall) :
    (arrayCall l a).2 = a.put l.written := by
  cases l with
  | getsize => rfl
  | readsector sectorNum buf =>
    rw [arrayCall, DiskCall.written]
    cases sectorAddress sectorNum with
    | none => rfl
    | some j => cases hj : a.sectors[j]? <;> simp only [hj, SectorArray.put]
  | writesector sectorNum buf =>
    rw [arrayCall, DiskCall.written]
    cases sectorAddress sectorNum with
    | none => rfl
    | some j =>
      have hwrite : ¬ a.readOnly = true := by rw [hw]; exact Bool.false_ne_true
      simp only [if_neg hwrite, Option.map_some, SectorArray.put]

theorem arrayCall_readOnly (hro : a.readOnly = true) (l : DiskCall) : (arrayCall l a).2 = a := by
  cases l with
  | getsize => rfl
  | readsector sectorNum buf =>
    rw [arrayCall]
    cases sectorAddress sectorNum with
    | none => rfl
    | some j => cases hj : a.sectors[j]? <;> simp only [hj]
  | writesector sectorNum buf =>
    rw [arrayCall]
    cases sectorAddress sectorNum with
    | none => rfl
    | some j => simp only [if_pos hro]

/-- **One call** changes the sector that it writes, and no other. -/
theorem put_at (w : Option (Nat × Sector)) (k : Nat) :
    (a.put w).at k = (w.bind fun w => if w.1 = k then some w.2 else none).getD (a.at k) ∧
      (a.put w).sectors.length = max a.sectors.length ((w.map fun w => w.1 + 1).getD 0) ∧
      (a.put w).readOnly = a.readOnly := by
  cases w with
  | none => exact ⟨rfl, (Nat.max_zero _).symm, rfl⟩
  | some w =>
    obtain ⟨j, buf⟩ := w
    refine ⟨?_, length_splice _ _ _, rfl⟩
    simp only [SectorArray.put, SectorArray.at, List.getD_eq_getElem?_getD, getElem?_splice_singleton,
      Option.bind_some]
    by_cases hk : k = j
    · rw [if_pos hk, if_pos hk.symm]
      rfl
    · rw [if_neg hk, if_neg (show ¬ j = k from fun h => hk h.symm), Option.getD_none]
      split
      · rfl
      · rename_i hout
        rw [List.getElem?_eq_none (Nat.le_of_not_lt hout)]
        split <;> rfl

/-- **Any sequence of calls.** -/
theorem runCalls_at (hw : a.readOnly = false) (calls : List DiskCall) (k : Nat) :
    (runCalls arrayCall calls a).2.at k = (lastWritten k calls).getD (a.at k) ∧
      (runCalls arrayCall calls a).2.sectors.length = max a.sectors.length (reach calls) ∧
      (runCalls arrayCall calls a).2.readOnly = false := by
  induction calls generalizing a with
  | nil => exact ⟨rfl, (Nat.max_zero _).symm, hw⟩
  | cons l calls ih =>
    obtain ⟨hat, hlen, hro⟩ := put_at (a := a) l.written k
    obtain ⟨hat', hlen', hro'⟩ := ih (hro.trans hw)
    rw [runCalls_cons_snd, arrayCall_snd hw, hat', hlen', hlen, hat, lastWritten, reach, Nat.max_assoc]
    refine ⟨?_, rfl, hro'⟩
    cases lastWritten k calls <;> rfl

theorem runCalls_readOnly (hro : a.readOnly = true) (calls : List DiskCall) :
    (runCalls arrayCall calls a).2 = a := by
  induction calls with
  | nil => rfl
  | cons l calls ih => rw [runCalls_cons_snd, arrayCall_readOnly hro, ih]

end

/-- **The disk image is a store of sectors.**  Every sequence of calls returns what it returns
on the array.  A file that is open for reading stays as it is.  Otherwise a read after the calls
finds what was last written to the address, or what was there before, or zeros where the file
has grown; a number without an address is refused. -/
theorem diskCalls_store {a : SectorArray} {fd : Descriptor} (h : Holds a fd) (calls : List DiskCall)
    (sectorNum : Nat) (buf : Sector) :
    (runCalls diskCall calls fd).1 = (runCalls arrayCall calls a).1 ∧
    (a.readOnly = true → (runCalls diskCall calls fd).2.bytes = fd.bytes) ∧
    (a.readOnly = false →
      (diskCall (.readsector sectorNum buf) (runCalls diskCall calls fd).2).1 =
        match sectorAddress sectorNum with
        | none => .failed
        | some k =>
          if k < max a.sectors.length (reach calls) then
            .moved diskimgSectorSize ((lastWritten k calls).getD (a.at k))
          else .moved 0 buf) := by
  obtain ⟨hreturns, hend⟩ := diskCall_sameReturns.run calls h
  refine ⟨hreturns.symm, ?_, ?_⟩
  · intro hro
    rw [hend.bytes, runCalls_readOnly hro, h.bytes]
  · intro hw
    rw [← (diskCall_sameReturns (.readsector sectorNum buf) _ _ hend).1, arrayCall]
    cases sectorAddress sectorNum with
    | none => rfl
    | some k =>
      obtain ⟨hat, hlen, -⟩ := runCalls_at hw calls k
      simp only [SectorArray.getElem?_eq, hat, hlen]
      by_cases hk : k < max a.sectors.length (reach calls)
      · simp only [if_pos hk]
      · simp only [if_neg hk]

/-- An image of one sector, open for writing. -/
def blankArray : SectorArray := ⟨[zeroSector], false⟩

def markedSector : Sector := ⟨1 :: List.replicate 511 0, congrArg (· + 1) List.length_replicate⟩

/-- Sector `2 ^ 23 + 2` is sector 2. -/
theorem marked_read :
    (diskCall (.readsector (2 ^ 23 + 2) zeroSector)
      (runCalls diskCall [.writesector 2 markedSector] ⟨blankArray.image, false, 0⟩).2).1 =
        .moved diskimgSectorSize markedSector := by
  have hholds : Holds blankArray ⟨blankArray.image, false, 0⟩ := ⟨rfl, rfl⟩
  have hread := (diskCalls_store hholds [.writesector 2 markedSector] (2 ^ 23 + 2) zeroSector).2.2 rfl
  have haddress : sectorAddress (2 ^ 23 + 2) = some 2 := by decide
  have hwritten : lastWritten 2 [.writesector 2 markedSector] = some markedSector := rfl
  have hreach : 2 < max blankArray.sectors.length (reach [.writesector 2 markedSector]) := by decide
  simp only [haddress, if_pos hreach, hwritten, Option.getD_some] at hread
  exact hread

end Acso.FileSystem
