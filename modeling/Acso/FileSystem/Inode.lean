import Acso.FileSystem.DiskImg

/-!
# Inodes and file blocks

`unixfilesystem.c`, `inode.c` and `file.c`.  `inodeIget` copies an inode out of its
sector and `inodeIndexlookup` follows one of three ways to a block: an address
of the inode, an address in one of the seven indirect sectors, or one behind the
double indirect sector.
-/

namespace Acso.FileSystem

open Acso.Lib

def bootblockSector : Nat := 0
def superblockSector : Nat := 1
def inodeStartSector : Nat := 2
def bootblockMagicNum : BitVec 16 := 0o407

structure UnixFilesystem where
  /-- What the descriptor `dfd` reads from. -/
  disk : List Byte
  sIsize : BitVec 16

/-- `%x`. -/
def hex (n : Nat) : String := String.ofList (Nat.toDigits 16 n)

/-- The error is what goes to `stderr` before `NULL` is returned. -/
def unixfilesystemInit (junk : Junk) (disk : List Byte) : Except String UnixFilesystem :=
  match diskimgReadsector disk bootblockSector (junk.sub 0).here with
  | .error _ => .error "Error reading bootblock\n"
  | .ok (count, bootblock) =>
    if count ≠ diskimgSectorSize then .error "Error reading bootblock\n"
    else if wordAt bootblock.bytes 0 ≠ bootblockMagicNum then
      .error ("Bad magic number on disk(0x" ++ hex (wordAt bootblock.bytes 0).toNat ++ ")\n")
    else
      match diskimgReadsector disk superblockSector (junk.sub 1).here with
      | .error _ => .error "Error reading superblock\n"
      | .ok (count, superblock) =>
        if count ≠ diskimgSectorSize then .error "Error reading superblock\n"
        else .ok ⟨disk, wordAt superblock.bytes 0⟩

/-! ## Inodes -/

/-- `struct inode`. -/
structure Inode where
  mode : BitVec 16
  nlink : BitVec 8
  uid : BitVec 8
  gid : BitVec 8
  size0 : BitVec 8
  size1 : BitVec 16
  addr : Vector (BitVec 16) 8
  atime : Vector (BitVec 16) 2
  mtime : Vector (BitVec 16) 2
  deriving DecidableEq

/-- The words from `addr[0]` to the end of the inode. -/
def Inode.words (inode : Inode) : Vector (BitVec 16) 12 := inode.addr ++ inode.atime ++ inode.mtime

def ialloc : BitVec 16 := 0o100000
def ifmt : BitVec 16 := 0o060000
def ifdir : BitVec 16 := 0o040000
def ifchr : BitVec 16 := 0o020000
def ifblk : BitVec 16 := 0o060000
def ilarg : BitVec 16 := 0o010000

/-- The inode in its 32 bytes on disk. -/
def Inode.ofBytes (bytes : List Byte) : Inode where
  mode := wordAt bytes 0
  nlink := bytes.getD 2 0
  uid := bytes.getD 3 0
  gid := bytes.getD 4 0
  size0 := bytes.getD 5 0
  size1 := wordAt bytes 6
  addr := Vector.ofFn fun i => wordAt bytes (8 + 2 * i)
  atime := Vector.ofFn fun i => wordAt bytes (24 + 2 * i)
  mtime := Vector.ofFn fun i => wordAt bytes (28 + 2 * i)

def sizeofInode : Nat := 32
def sectorInodeCount : Nat := diskimgSectorSize / sizeofInode
def sectorAddCount : Nat := diskimgSectorSize / 2
def singleIndirectSectors : Nat := 7
def indirectAddCount : Nat := sectorAddCount * singleIndirectSectors

def inodeIget (fs : UnixFilesystem) (junk : Junk) (inumber : Int) : Result Inode :=
  if inumber ≤ 0 then .error (.minusOne [])
  else do
    let inodeSector := (inumber - 1).toNat / sectorInodeCount
    let positionOnTheSector := (inumber - 1).toNat % sectorInodeCount
    let currentSectorGlobal := inodeStartSector + inodeSector
    let (_, buffer) ← diskimgReadsector fs.disk currentSectorGlobal junk.here
    let inode := Inode.ofBytes
      ((buffer.bytes.drop (sizeofInode * positionOnTheSector)).take sizeofInode)
    if inode.mode &&& ialloc = 0 then
      .error (.minusOne ["Error: Inode " ++ toString inumber ++ " is not allocated.\n"])
    else .ok inode

/-- Reads a sector of addresses and takes the one at `position`. -/
def readAddress (fs : UnixFilesystem) (junk : Junk) (sector position : Nat) : Result Nat := do
  let (_, bufferAdd) ← diskimgReadsector fs.disk sector (junk.sub 0).here
  .ok (readArray (wordsOf bufferAdd.bytes) position junk.here).toNat

def inodeIndexlookup (fs : UnixFilesystem) (junk : Junk) (inode : Inode) (blockNum : Int) :
    Result Nat :=
  if blockNum < 0 then .error (.minusOne [])
  else
    let blockNum := blockNum.toNat
    -- behind the eight addresses `i_addr[blockNum]` takes the times of the inode
    if inode.mode &&& ilarg = 0 then .ok (readArray inode.words blockNum junk.here).toNat
    else if blockNum < indirectAddCount then
      let sector := blockNum / sectorAddCount
      let positionWithinTheSector := blockNum % sectorAddCount
      readAddress fs junk (readArray inode.addr sector junk.here).toNat positionWithinTheSector
    else do
      let blockNumRestarted := blockNum - indirectAddCount
      let firstLevelIndex := blockNumRestarted / sectorAddCount
      let secondLevelIndex := blockNumRestarted % sectorAddCount
      let secondLevelSector ← readAddress fs junk
        (readArray inode.addr singleIndirectSectors junk.here).toNat firstLevelIndex
      readAddress fs (junk.sub 1) secondLevelSector secondLevelIndex

def inodeGetsize (inode : Inode) : Nat := (inode.size0.toNat <<< 16) ||| inode.size1.toNat

theorem inodeGetsize_lt (inode : Inode) : inodeGetsize inode < 2 ^ 24 := by
  have h0 := inode.size0.isLt
  have h1 := inode.size1.isLt
  refine Nat.or_lt_two_pow ?_ (by omega)
  rw [Nat.shiftLeft_eq]
  omega

/-! ## File blocks -/

/-- The number of blocks of a file of `size` bytes. -/
def blockCount (size : Nat) : Nat := (size + diskimgSectorSize - 1) / diskimgSectorSize

/-- The number of valid bytes, and the buffer afterwards. -/
def fileGetblock (fs : UnixFilesystem) (junk : Junk) (inumber blockNum : Int) (buf : Sector) :
    Result (Int × Sector) := do
  let fileInode ← inodeIget fs (junk.sub 0) inumber
  let fileSize := inodeGetsize fileInode
  let maxBlocks := blockCount fileSize
  if blockNum ≥ maxBlocks then .error (.minusOne [])
  else
    let dataBlock ← inodeIndexlookup fs (junk.sub 1) fileInode blockNum
    let (_, buf) ← diskimgReadsector fs.disk dataBlock buf
    let remainingBytes : Int := fileSize - blockNum * diskimgSectorSize
    let validBytes := if remainingBytes < diskimgSectorSize then remainingBytes else diskimgSectorSize
    .ok (validBytes, buf)

end Acso.FileSystem
