import Acso.FileSystem.Contents

/-!
# Small images

`imageOf inodes data` is an image of four sectors that `unixfilesystemInit`
accepts: boot block, superblock with `s_isize = 1`, one sector of inodes and one
of data.  The lemmas find the inodes and the data in it.
-/

namespace Acso.FileSystem

open Acso.Lib

/-- The sector that starts with `bytes` and goes on with zeros. -/
def pad (bytes : List Byte) : List Byte :=
  (bytes ++ List.replicate diskimgSectorSize 0).take diskimgSectorSize

def imageOf (inodes data : List Byte) : List Byte :=
  (pad [0x07, 0x01] ++ pad [0x01, 0x00]) ++ (pad inodes ++ pad data)

/-- An inode with at most one address, and zeros elsewhere. -/
def plainInode (mode size1 addr : BitVec 16) : Inode :=
  ⟨mode, 0, 0, 0, 0, size1, #v[addr, 0, 0, 0, 0, 0, 0, 0], #v[0, 0], #v[0, 0]⟩

/-- Memory that happens to be zero. -/
def zeroJunk : Junk := fun _ => ⟨List.replicate diskimgSectorSize 0, List.length_replicate⟩

/-- The file system on it. -/
def imageFs (inodes data : List Byte) : UnixFilesystem := ⟨imageOf inodes data, 1⟩

@[simp] theorem length_pad (bytes : List Byte) : (pad bytes).length = diskimgSectorSize := by
  simp [pad]

theorem length_imageOf (inodes data : List Byte) : (imageOf inodes data).length = 2048 := by
  simp [imageOf, diskimgSectorSize]

section

variable (inodes data : List Byte)

theorem sectorInside_imageOf {k : Nat} (hk : k < 4) : SectorInside (imageOf inodes data) k := by
  rw [SectorInside, length_imageOf, diskimgSectorSize]
  omega

/-- Past the superblock. -/
theorem drop_imageOf (j : Nat) :
    (imageOf inodes data).drop (diskimgSectorSize * 2 + j) = (pad inodes ++ pad data).drop j := by
  rw [imageOf, ← List.drop_drop, List.drop_left']
  simp [diskimgSectorSize]

theorem sectorBytes_imageOf : sectorBytes (imageOf inodes data) 3 = pad data := by
  have hpos : diskimgSectorSize * 3 = diskimgSectorSize * 2 + diskimgSectorSize := rfl
  rw [sectorBytes, hpos, drop_imageOf, List.drop_left' (length_pad inodes)]
  exact List.take_of_length_le (Nat.le_of_eq (length_pad data))

theorem inodeOf_imageOf {n : Nat} (hn : n ≤ 16) (hpos : 0 < n) :
    inodeOf (imageOf inodes data) n =
      Inode.ofBytes (((pad inodes).drop (sizeofInode * (n - 1))).take sizeofInode) := by
  have hin : sizeofInode * (n - 1) + sizeofInode ≤ (pad inodes).length := by
    rw [length_pad, sizeofInode, diskimgSectorSize]
    omega
  rw [inodeOf, inodeStartSector, drop_imageOf, List.drop_append_of_le_length (by omega),
    List.take_append_of_le_length (by rw [List.length_drop]; omega)]

theorem storedAt_imageOf {n : Nat} (hn : n ≤ 16) (hpos : 0 < n) :
    StoredAt (imageOf inodes data) n (inodeOf (imageOf inodes data) n) := by
  have hsector : inodeSector n = 2 := by
    have hk : ((n : Int) - 1).toNat / 16 = 0 := by omega
    rw [inodeSector, show sectorInodeCount = 16 from rfl, hk]
    rfl
  exact storedAt_inodeOf hpos (by omega) (by rw [hsector]; exact sectorInside_imageOf _ _ (by decide))

/-- **The code accepts an image** with this boot block and superblock. -/
theorem unixfilesystemInit_sectors (junk : Junk) (rest : List Byte) :
    unixfilesystemInit junk (pad [0x07, 0x01] ++ pad [0x01, 0x00] ++ rest) =
      .ok ⟨pad [0x07, 0x01] ++ pad [0x01, 0x00] ++ rest, 1⟩ := by
  generalize hdisk : pad [0x07, 0x01] ++ pad [0x01, 0x00] ++ rest = disk
  have hlen : 1024 ≤ disk.length := by
    simp only [← hdisk, List.length_append, length_pad, diskimgSectorSize]
    omega
  have hin : ∀ k < 2, SectorInside disk k := by
    intro k hk
    rw [SectorInside, diskimgSectorSize]
    omega
  have hboot : sectorBytes disk 0 = pad [0x07, 0x01] := by
    rw [sectorBytes, ← hdisk, List.append_assoc, Nat.mul_zero, List.drop_zero]
    exact List.take_left' (length_pad _)
  have hsuper : sectorBytes disk 1 = pad [0x01, 0x00] := by
    rw [sectorBytes, ← hdisk, List.append_assoc, Nat.mul_one, List.drop_left' (length_pad _)]
    exact List.take_left' (length_pad _)
  obtain ⟨b, hb, hread⟩ := diskimgReadsector_inside (by decide) (hin 0 (by decide)) (junk.sub 0).here
  obtain ⟨s, hs, hread'⟩ := diskimgReadsector_inside (by decide) (hin 1 (by decide)) (junk.sub 1).here
  have hmagic : wordAt (pad [0x07, 0x01]) 0 = bootblockMagicNum := by decide
  have hisize : wordAt (pad [0x01, 0x00]) 0 = 1 := by decide
  simp only [unixfilesystemInit, bootblockSector, superblockSector, hread, hread', hb, hs, hboot,
    hsuper, hmagic, hisize, ne_eq, not_true, if_false]

theorem unixfilesystemInit_imageOf (junk : Junk) :
    unixfilesystemInit junk (imageOf inodes data) = .ok (imageFs inodes data) := by
  rw [imageFs, imageOf]
  exact unixfilesystemInit_sectors junk (pad inodes ++ pad data)

end

/-! ## Files of one sector -/

section

variable {mode size : BitVec 16}

@[simp] theorem inodeGetsize_plainInode (mode size addr : BitVec 16) :
    inodeGetsize (plainInode mode size addr) = size.toNat := by
  simp [inodeGetsize, plainInode]

theorem fileBlocks_plainInode (disk : List Byte) (addr : BitVec 16) (hsmall : mode &&& ilarg = 0)
    (hpos : 0 < size.toNat) (hle : size.toNat ≤ diskimgSectorSize) :
    fileBlocks disk (plainInode mode size addr) = [⟨[], addr.toNat⟩] := by
  have hcount : blockCount size.toNat = 1 := by
    rw [diskimgSectorSize] at hle
    rw [blockCount, diskimgSectorSize]
    omega
  have hmode : (plainInode mode size addr).mode &&& ilarg = 0 := hsmall
  rw [fileBlocks, inodeGetsize_plainInode, hcount, blockMap, if_pos hmode]
  rfl

/-- An empty file needs no sectors. -/
theorem readable_plainInode (disk : List Byte) (mode addr : BitVec 16) :
    Readable disk (plainInode mode 0 addr) where
  small := by
    intro _
    rw [inodeGetsize_plainInode]
    exact Nat.zero_le _
  inside := by
    intro p hp
    rw [fileBlocks, inodeGetsize_plainInode] at hp
    cases hp

variable {inodes data : List Byte} {n : Nat} {addr : BitVec 16}

theorem allocatedAt_imageOf (hn : n ≤ 16) (hpos : 0 < n)
    (h : inodeOf (imageOf inodes data) n = plainInode mode size addr) (halloc : mode &&& ialloc ≠ 0) :
    AllocatedAt (imageOf inodes data) n (plainInode mode size addr) where
  toStoredAt := by
    rw [← h]
    exact storedAt_imageOf inodes data hn hpos
  alloc := halloc

theorem readable_imageOf (hsmall : mode &&& ilarg = 0) (hpos : 0 < size.toNat)
    (hle : size.toNat ≤ diskimgSectorSize) :
    Readable (imageOf inodes data) (plainInode mode size 3) where
  small := by
    intro _
    rw [inodeGetsize_plainInode]
    exact hle.trans (by decide)
  inside := by
    intro p hp k hk
    rw [fileBlocks_plainInode _ _ hsmall hpos hle, List.mem_singleton] at hp
    obtain rfl : k = 3 := by simpa [hp, BlockPath.sectors] using hk
    exact sectorInside_imageOf _ _ (by decide)

end

end Acso.FileSystem
