import Mathlib.Logic.Function.Basic
import Acso.FileSystem.Listing

/-!
# The array of a listing

`GetDirEntries` writes into an array of its caller and returns how much of it is filled.
`getDirEntriesTo` does this in memory; the list that `getDirEntries` gives is what is in the
array from its start on, and the rest of the memory is as before (`getDirEntriesTo_eq`).
-/

namespace Acso.FileSystem

open Acso.Lib

/-- The array `entries` of the caller, and what is behind it in memory. -/
abbrev EntryArray := Nat → Direntv6

/-- The loop over the entries of a block: `count`, the memory, and whether the array is full. -/
def copyEntriesTo (maxNumEntries : Int) :
    List Direntv6 → Nat → EntryArray → Nat × EntryArray × Bool
  | [], count, entries => (count, entries, false)
  | e :: block, count, entries =>
    let entries := Function.update entries count e
    let count := count + 1
    if count ≥ maxNumEntries then (count, entries, true)
    else copyEntriesTo maxNumEntries block count entries

/-- The loop over the blocks. -/
def getDirEntriesLoopTo (fs : UnixFilesystem) (junk : Junk) (inumber maxNumEntries : Int) :
    List Nat → Sector → Nat → EntryArray → Result (Nat × EntryArray)
  | [], _, count, entries => .ok (count, entries)
  | bno :: bnos, dir, count, entries =>
    match fileGetblock fs (junk.sub bno) inumber bno dir with
    | .error e => .error (e.print "Error reading directory\n")
    | .ok (bytesLeft, dir) =>
      let numEntriesInBlock := bytesLeft.toNat / sizeofDirentv6
      match copyEntriesTo maxNumEntries ((direntsOf dir.bytes).take numEntriesInBlock) count
          entries with
      | (count, entries, true) => .ok (count, entries)
      | (count, entries, false) =>
        getDirEntriesLoopTo fs junk inumber maxNumEntries bnos dir count entries

/-- What is returned, and the memory afterwards. -/
def getDirEntriesTo (fs : UnixFilesystem) (junk : Junk) (inumber maxNumEntries : Int)
    (entries : EntryArray) : Result (Nat × EntryArray) := do
  let inode ← inodeIget fs (junk.sub 0) inumber
  if inode.mode &&& ialloc = 0 ∨ inode.mode &&& ifmt ≠ ifdir then .error (.minusOne [])
  else if maxNumEntries < 1 then .error (.minusOne [])
  else
    let size := inodeGetsize inode
    if size % sizeofDirentv6 ≠ 0 then .error .assertFailed
    else
      getDirEntriesLoopTo fs (junk.sub 1) inumber maxNumEntries (List.range (blockCount size))
        (junk.sub 2).here 0 entries

/-! ## The filled part -/

/-- The memory with a list written from the start of the array on. -/
def filled (base : EntryArray) (list : List Direntv6) : EntryArray := fun i => list.getD i (base i)

theorem filled_of_lt (base : EntryArray) {list : List Direntv6} {i : Nat} (hi : i < list.length) :
    filled base list i = list[i] := by
  rw [filled, List.getD_eq_getElem?_getD, List.getElem?_eq_getElem hi, Option.getD_some]

theorem filled_of_le (base : EntryArray) {list : List Direntv6} {i : Nat} (hi : list.length ≤ i) :
    filled base list i = base i := by
  rw [filled, List.getD_eq_getElem?_getD, List.getElem?_eq_none hi, Option.getD_none]

/-- `entries[count] = e`. -/
theorem update_filled (base : EntryArray) (list : List Direntv6) (e : Direntv6) :
    Function.update (filled base list) list.length e = filled base (list ++ [e]) := by
  have hlen : (list ++ [e]).length = list.length + 1 := by simp
  funext i
  rcases Nat.lt_trichotomy i list.length with hi | rfl | hi
  · rw [Function.update_of_ne (Nat.ne_of_lt hi), filled_of_lt base hi, filled_of_lt base (by omega),
      List.getElem_append_left hi]
  · rw [Function.update_self, filled_of_lt base (by omega)]
    simp
  · rw [Function.update_of_ne (Nat.ne_of_gt hi), filled_of_le base hi.le, filled_of_le base (by omega)]

/-- What is returned and left in memory for a list. -/
def arrayOf (base : EntryArray) (list : List Direntv6) : Nat × EntryArray :=
  (list.length, filled base list)

theorem copyEntriesTo_eq (maxNumEntries : Int) (base : EntryArray) (block list : List Direntv6) :
    copyEntriesTo maxNumEntries block list.length (filled base list) =
      ((copyEntries maxNumEntries block list).1.length,
        filled base (copyEntries maxNumEntries block list).1,
        (copyEntries maxNumEntries block list).2) := by
  induction block generalizing list with
  | nil => rfl
  | cons e block ih =>
    have hlen : list.length + 1 = (list ++ [e]).length := by simp
    rw [copyEntriesTo, copyEntries, update_filled, hlen]
    by_cases hfull : ((list ++ [e]).length : Int) ≥ maxNumEntries
    · rw [if_pos hfull, if_pos hfull]
    · rw [if_neg hfull, if_neg hfull, ih]

theorem getDirEntriesLoopTo_eq (fs : UnixFilesystem) (junk : Junk) (inumber maxNumEntries : Int)
    (base : EntryArray) (bnos : List Nat) (dir : Sector) (list : List Direntv6) :
    getDirEntriesLoopTo fs junk inumber maxNumEntries bnos dir list.length (filled base list) =
      (getDirEntriesLoop fs junk inumber maxNumEntries bnos dir list).map (arrayOf base) := by
  induction bnos generalizing dir list with
  | nil => rfl
  | cons bno bnos ih =>
    rw [getDirEntriesLoopTo, getDirEntriesLoop]
    cases fileGetblock fs (junk.sub bno) inumber bno dir with
    | error e => rfl
    | ok r =>
      obtain ⟨bytesLeft, dir'⟩ := r
      dsimp only
      rw [copyEntriesTo_eq]
      cases hcopy : copyEntries maxNumEntries
          ((direntsOf dir'.bytes).take (bytesLeft.toNat / sizeofDirentv6)) list with
      | mk list' full =>
        cases full with
        | true => rfl
        | false => exact ih dir' list'

/-- **The listing in memory.** -/
theorem getDirEntriesTo_eq (fs : UnixFilesystem) (junk : Junk) (inumber maxNumEntries : Int)
    (base : EntryArray) :
    getDirEntriesTo fs junk inumber maxNumEntries base =
      (getDirEntries fs junk inumber maxNumEntries).map (arrayOf base) := by
  rw [getDirEntriesTo, getDirEntries]
  cases inodeIget fs (junk.sub 0) inumber with
  | error e => rfl
  | ok inode =>
    rw [ok_bind, ok_bind]
    dsimp only
    split
    · rfl
    · split
      · rfl
      · split
        · rfl
        · exact getDirEntriesLoopTo_eq fs (junk.sub 1) inumber maxNumEntries base _ _ []

/-! ## The records -/

/-- Record `i` of a directory. -/
def recordAt (disk : List Byte) (inode : Inode) (i : Nat) : Direntv6 :=
  Direntv6.ofBytes (((fileBytes disk inode).drop (sizeofDirentv6 * i)).take sizeofDirentv6)

theorem getElem_dirEntries {disk : List Byte} {inode : Inode} {i : Nat}
    (hi : i < (dirEntries disk inode).length) : (dirEntries disk inode)[i] = recordAt disk inode i := by
  simp only [dirEntries, List.getElem_map, getElem_records, recordAt]

/-- **The listing is exact.**  The entries of a directory, as many as there are and the array
has room for, are its records in order, and nothing else is written. -/
theorem getDirEntries_exact {fs : UnixFilesystem} {inumber : Int} {inode : Inode}
    (ha : AllocatedAt fs.disk inumber inode) (hr : Readable fs.disk inode)
    (hdir : inode.mode &&& ifmt = ifdir) (hsize : inodeGetsize inode % sizeofDirentv6 = 0)
    {maxNumEntries : Int} (hpos : 1 ≤ maxNumEntries) (junk : Junk) (array : EntryArray) :
    ∃ array', getDirEntriesTo fs junk inumber maxNumEntries array =
        .ok (min (inodeGetsize inode / sizeofDirentv6) maxNumEntries.toNat, array') ∧
      ∀ i, array' i =
        if i < min (inodeGetsize inode / sizeofDirentv6) maxNumEntries.toNat then
          recordAt fs.disk inode i
        else array i := by
  obtain ⟨max, rfl⟩ := Int.eq_ofNat_of_zero_le (show 0 ≤ maxNumEntries by omega)
  have hlen : ((dirEntries fs.disk inode).take max).length =
      min (inodeGetsize inode / sizeofDirentv6) max := by
    rw [List.length_take, length_dirEntries, Nat.min_comm]
  refine ⟨filled array ((dirEntries fs.disk inode).take max), ?_, ?_⟩
  · rw [getDirEntriesTo_eq, getDirEntries_take ha hr hdir hsize junk (by omega), Except.map, arrayOf,
      hlen]
    rfl
  · intro i
    rw [Int.toNat_natCast, ← hlen]
    by_cases hi : i < ((dirEntries fs.disk inode).take max).length
    · rw [if_pos hi, filled_of_lt array hi, List.getElem_take, getElem_dirEntries]
    · rw [if_neg hi, filled_of_le array (Nat.le_of_not_lt hi)]

/-- Inode 1: a directory of two entries in sector 3. -/
def pairInodes : List Byte := [0x00, 0xc0, 0, 0, 0, 0, 0x20, 0x00, 0x03, 0x00]

/-- The entries `.` and `a`. -/
def pairData : List Byte :=
  [0x01, 0x00, 0x2e] ++ List.replicate 13 0 ++ [0x02, 0x00, 0x61]

/-- What the array holds before the call. -/
def presetArray : EntryArray := fun _ => ⟨0xffff, Vector.replicate 14 0xff⟩

/-- An array for one entry gets the first of the two, and is left alone behind it. -/
theorem pairDirectory_exact :
    ∃ array', getDirEntriesTo (imageFs pairInodes pairData) zeroJunk 1 1 presetArray =
        .ok (1, array') ∧
      array' 0 = ⟨1, #v[0x2e, 0, 0, 0, 0, 0, 0, 0, 0, 0, 0, 0, 0, 0]⟩ ∧
      array' 1 = ⟨0xffff, Vector.replicate 14 0xff⟩ := by
  have hinode : inodeOf (imageOf pairInodes pairData) 1 = plainInode 0xc000 0x20 3 := by
    rw [inodeOf_imageOf _ _ (by decide) (by decide)]
    decide
  have ha : AllocatedAt (imageFs pairInodes pairData).disk 1 (plainInode 0xc000 0x20 3) :=
    allocatedAt_imageOf (by decide) (by decide) hinode (by decide)
  have hr : Readable (imageFs pairInodes pairData).disk (plainInode 0xc000 0x20 3) :=
    readable_imageOf (by decide) (by decide) (by decide)
  obtain ⟨array', hcall, hentries⟩ :=
    getDirEntries_exact ha hr (by decide) (by decide) (Int.le_refl 1) zeroJunk presetArray
  refine ⟨array', hcall, (hentries 0).trans ?_, hentries 1⟩
  have hblocks := fileBlocks_plainInode (imageOf pairInodes pairData) 3
    (by decide : (0xc000 : BitVec 16) &&& ilarg = 0) (by decide : 0 < (0x20 : BitVec 16).toNat)
    (by decide)
  show recordAt (imageOf pairInodes pairData) (plainInode 0xc000 0x20 3) 0 = _
  rw [recordAt, fileBytes, fileSectors, hblocks, inodeGetsize_plainInode, List.map_singleton,
    List.flatten_singleton]
  show Direntv6.ofBytes (List.take _ (List.drop _ (List.take _ (sectorBytes _ 3)))) = _
  rw [sectorBytes_imageOf]
  decide

end Acso.FileSystem
