import Acso.Lib.Blocks
import Acso.FileSystem.Inode

/-!
# Directories

`directory.c`, which looks a name up, and `GetDirEntries` of
`diskimageaccess.c`, which lists a directory.  Both go through the blocks of the
directory, but the first scans every entry of the sector it read and the second
only those in the valid bytes of the block.
-/

namespace Acso.FileSystem

open Acso.Lib

/-- `struct direntv6`. -/
structure Direntv6 where
  dInumber : BitVec 16
  dName : Vector Byte 14
  deriving DecidableEq

def sizeofDirentv6 : Nat := 16
def sectorDirEntCount : Nat := diskimgSectorSize / sizeofDirentv6

def Direntv6.ofBytes (bytes : List Byte) : Direntv6 where
  dInumber := wordAt bytes 0
  dName := Vector.ofFn fun i => bytes.getD (2 + i) 0

/-- A buffer as an array of entries. -/
def direntsOf (bytes : List Byte) : List Direntv6 :=
  (records sizeofDirentv6 sectorDirEntCount bytes).map Direntv6.ofBytes

/-- The characters before the first NUL. -/
def cstring (bytes : List Byte) : List Byte := bytes.takeWhile fun c => decide (c ≠ 0)

/-- Compares at most `n` characters of two strings, up to the first NUL.  A list
that ends stands for a string with its NUL there. -/
def strncmp : List Byte → List Byte → Nat → Int
  | _, _, 0 => 0
  | a, b, n + 1 =>
    let x := a.headD 0
    let y := b.headD 0
    if x ≠ y then x.toNat - y.toNat
    else if x = 0 then 0
    else strncmp a.tail b.tail n

/-- The entry passes the comparison with `name`. -/
def Direntv6.Carries (name : List Byte) (entry : Direntv6) : Prop :=
  strncmp name entry.dName.toList 14 = 0

instance (name : List Byte) (entry : Direntv6) : Decidable (entry.Carries name) :=
  inferInstanceAs (Decidable (_ = _))

/-! ## Looking a name up -/

/-- The loop over the blocks; `dirEntries` is the buffer they are read into. -/
def findnameLoop (fs : UnixFilesystem) (junk : Junk) (name : List Byte) (dirInode : Inode) :
    List Nat → Sector → Result Direntv6
  | [], _ => .error (.minusOne [])
  | block :: blocks, dirEntries => do
    let dataBlock ← inodeIndexlookup fs (junk.sub block) dirInode block
    let (bytesRead, dirEntries) ← diskimgReadsector fs.disk dataBlock dirEntries
    let entriesCount := bytesRead / sizeofDirentv6
    match ((direntsOf dirEntries.bytes).take entriesCount).find? (fun e => decide (e.Carries name)) with
    | some entry => .ok entry
    | none => findnameLoop fs junk name dirInode blocks dirEntries

/-- The result is what `*dirEnt` holds when the call returns `0`. -/
def directoryFindname (fs : UnixFilesystem) (junk : Junk) (name : List Byte) (dirinumber : Int) :
    Result Direntv6 := do
  let dirInode ← inodeIget fs (junk.sub 0) dirinumber
  if dirInode.mode &&& ifdir = 0 then .error (.minusOne [])
  else
    let dirSize := inodeGetsize dirInode
    findnameLoop fs (junk.sub 1) name dirInode (List.range (blockCount dirSize)) (junk.sub 2).here

/-! ## Listing -/

/-- The loop over the entries of a block: the array filled so far, and whether it
is full. -/
def copyEntries (maxNumEntries : Int) : List Direntv6 → List Direntv6 → List Direntv6 × Bool
  | [], entries => (entries, false)
  | e :: block, entries =>
    let entries := entries ++ [e]
    if entries.length ≥ maxNumEntries then (entries, true)
    else copyEntries maxNumEntries block entries

/-- Prints one more line before `-1` is returned. -/
def Failure.print (line : String) : Failure → Failure
  | .minusOne stderr => .minusOne (stderr ++ [line])
  | .assertFailed => .assertFailed

/-- The loop over the blocks; `dir` is the buffer they are read into. -/
def getDirEntriesLoop (fs : UnixFilesystem) (junk : Junk) (inumber maxNumEntries : Int) :
    List Nat → Sector → List Direntv6 → Result (List Direntv6)
  | [], _, entries => .ok entries
  | bno :: bnos, dir, entries =>
    match fileGetblock fs (junk.sub bno) inumber bno dir with
    | .error e => .error (e.print "Error reading directory\n")
    | .ok (bytesLeft, dir) =>
      let numEntriesInBlock := bytesLeft.toNat / sizeofDirentv6
      match copyEntries maxNumEntries ((direntsOf dir.bytes).take numEntriesInBlock) entries with
      | (entries, true) => .ok entries
      | (entries, false) => getDirEntriesLoop fs junk inumber maxNumEntries bnos dir entries

/-- The result is the part of the array that is filled; its length is what the
function returns. -/
def getDirEntries (fs : UnixFilesystem) (junk : Junk) (inumber maxNumEntries : Int) :
    Result (List Direntv6) := do
  let inode ← inodeIget fs (junk.sub 0) inumber
  if inode.mode &&& ialloc = 0 ∨ inode.mode &&& ifmt ≠ ifdir then .error (.minusOne [])
  else if maxNumEntries < 1 then .error (.minusOne [])
  else
    let size := inodeGetsize inode
    if size % sizeofDirentv6 ≠ 0 then .error .assertFailed
    else
      getDirEntriesLoop fs (junk.sub 1) inumber maxNumEntries (List.range (blockCount size))
        (junk.sub 2).here []

end Acso.FileSystem
