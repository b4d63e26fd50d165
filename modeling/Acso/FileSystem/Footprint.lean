import Acso.FileSystem.FileReading

/-!
# The sectors a file depends on

A file is found in the sector of its inode, the indirect sectors on the way to its blocks,
and the sectors of the blocks.  Where two images agree on the first two, the file has the
same sectors in both (`fileBlocks_same`); where they agree on all three, it has the same
contents.
-/

namespace Acso.FileSystem

open Acso.Lib

/-- The images have the same sector `k`. -/
def SameSector (disk disk' : List Byte) (k : Nat) : Prop := sectorBytes disk' k = sectorBytes disk k

variable {disk disk' : List Byte}

theorem sectorInside_iff_length {k : Nat} :
    SectorInside disk k ↔ (sectorBytes disk k).length = diskimgSectorSize := by
  rw [SectorInside, sectorBytes, List.length_take, List.length_drop, diskimgSectorSize]
  omega

theorem SameSector.inside {k : Nat} (h : SameSector disk disk' k) :
    SectorInside disk' k ↔ SectorInside disk k := by
  rw [sectorInside_iff_length, sectorInside_iff_length, h]

theorem SameSector.words {k : Nat} (h : SameSector disk disk' k) :
    sectorWords disk' k = sectorWords disk k := by
  rw [sectorWords, sectorWords, h]

/-! ## Inodes -/

/-- The sector of inode `n`. -/
theorem inodeSector_natCast {n : Nat} (hpos : 0 < n) :
    inodeSector n = inodeStartSector + (n - 1) / sectorInodeCount := by
  have hn : ((n : Int) - 1).toNat = n - 1 := by omega
  rw [inodeSector, hn]

theorem inodeSlot_natCast {n : Nat} (hpos : 0 < n) : inodeSlot n = (n - 1) % sectorInodeCount := by
  have hn : ((n : Int) - 1).toNat = n - 1 := by omega
  rw [inodeSlot, hn]

/-- An inode is a piece of its sector. -/
theorem inodeOf_eq {n : Nat} (hpos : 0 < n) :
    inodeOf disk n = Inode.ofBytes (((sectorBytes disk (inodeSector n)).drop
      (sizeofInode * inodeSlot n)).take sizeofInode) := by
  have hslot := inodeSlot_lt n
  have hplace : diskimgSectorSize * inodeSector n + sizeofInode * inodeSlot n =
      diskimgSectorSize * inodeStartSector + sizeofInode * (n - 1) := by
    rw [inodeSector_natCast hpos, inodeSlot_natCast hpos, show sectorInodeCount = 16 from rfl,
      diskimgSectorSize, inodeStartSector, sizeofInode]
    omega
  rw [inodeOf, sectorBytes, List.drop_take, List.take_take, List.drop_drop, hplace,
    Nat.min_eq_left (by rw [sizeofInode, diskimgSectorSize]; omega)]

theorem inodeOf_same {n : Nat} (hpos : 0 < n) (h : SameSector disk disk' (inodeSector n)) :
    inodeOf disk' n = inodeOf disk n := by
  rw [inodeOf_eq hpos, inodeOf_eq hpos, h]

theorem AllocatedAt.same {n : Nat} {inode : Inode} (ha : AllocatedAt disk n inode)
    (hlt : n ≤ 2 ^ 20) (h : SameSector disk disk' (inodeSector n)) : AllocatedAt disk' n inode := by
  obtain ⟨⟨hpos, hseek, hin, hbytes⟩, halloc⟩ := ha
  have hslot := inodeSlot_lt n
  have hlt' : inodeSector n < 2 ^ 22 := by
    rw [inodeSector_natCast (by omega), show sectorInodeCount = 16 from rfl, inodeStartSector]
    omega
  have hoff : (sectorOffset (inodeSector n)).toNat = diskimgSectorSize * inodeSector n := by
    rw [sectorOffset_eq hlt', Int.toNat_natCast]
  rw [hoff] at hin hbytes
  have hcut : ∀ d : List Byte, (d.drop (diskimgSectorSize * inodeSector n +
      sizeofInode * inodeSlot n)).take sizeofInode =
        ((sectorBytes d (inodeSector n)).drop (sizeofInode * inodeSlot n)).take sizeofInode := by
    intro d
    rw [sectorBytes, List.drop_take, List.take_take, List.drop_drop,
      Nat.min_eq_left (by rw [sizeofInode, diskimgSectorSize]; omega)]
  have hlen := congrArg List.length h
  simp only [sectorBytes, List.length_take, List.length_drop] at hlen
  refine ⟨⟨hpos, hseek, ?_, ?_⟩, halloc⟩
  · rw [hoff]
    rw [sizeofInode, diskimgSectorSize] at *
    omega
  · rw [hoff, hcut, h, ← hcut]
    exact hbytes

/-! ## Blocks -/

section

variable {inode : Inode}

theorem getElem?_blockMap_single (hmode : inode.mode &&& ilarg ≠ 0) {b : Nat}
    (hb : b < indirectAddCount) :
    (blockMap disk inode)[b]? =
      (inode.addr.toList.map BitVec.toNat)[b / sectorAddCount]?.bind fun a =>
        (sectorWords disk a)[b % sectorAddCount]?.map fun d => ⟨[a], d⟩ := by
  have hlt : b / sectorAddCount < singleIndirectSectors := Nat.div_lt_of_lt_mul hb
  simp only [blockMap, if_neg hmode]
  rw [List.getElem?_append_left (by rwa [length_singlePart]),
    getElem?_flatMap (by decide) (fun a _ => length_singleIndirect disk a),
    List.getElem?_take_of_lt hlt]
  simp only [singleIndirect, List.getElem?_map]

theorem getElem?_blockMap_double (hmode : inode.mode &&& ilarg ≠ 0) {b : Nat}
    (hb : ¬ b < indirectAddCount) :
    (blockMap disk inode)[b]? =
      (sectorWords disk (inode.addr[7]).toNat)[(b - indirectAddCount) / sectorAddCount]?.bind fun c =>
        (sectorWords disk c)[(b - indirectAddCount) % sectorAddCount]?.map fun d =>
          ⟨[(inode.addr[7]).toNat, c], d⟩ := by
  simp only [blockMap, if_neg hmode]
  rw [List.getElem?_append_right (by rw [length_singlePart]; omega), length_singlePart, addr_drop,
    List.flatMap_singleton, doubleIndirect,
    getElem?_flatMap (c := sectorAddCount) (by decide) (fun c _ => by simp)]
  simp only [List.getElem?_map]

/-- **A block is found the same way** where the indirect sectors on the way are the same. -/
theorem blockMap_same {b : Nat} {p : BlockPath} (h : (blockMap disk inode)[b]? = some p)
    (hsame : ∀ k ∈ p.indirect, SameSector disk disk' k) : (blockMap disk' inode)[b]? = some p := by
  by_cases hmode : inode.mode &&& ilarg = 0
  · simp only [blockMap, if_pos hmode] at h ⊢
    exact h
  by_cases hb : b < indirectAddCount
  · rw [getElem?_blockMap_single hmode hb] at h ⊢
    obtain ⟨a, ha, hp⟩ := Option.bind_eq_some_iff.mp h
    obtain ⟨d, hd, rfl⟩ := Option.map_eq_some_iff.mp hp
    rw [ha, Option.bind_some, (hsame a List.mem_cons_self).words, hd]
    rfl
  · rw [getElem?_blockMap_double hmode hb] at h ⊢
    obtain ⟨c, hc, hp⟩ := Option.bind_eq_some_iff.mp h
    obtain ⟨d, hd, rfl⟩ := Option.map_eq_some_iff.mp hp
    rw [(hsame _ List.mem_cons_self).words, hc, Option.bind_some,
      (hsame c (List.mem_cons_of_mem _ List.mem_cons_self)).words, hd]
    rfl

theorem length_blockMap (disk : List Byte) (inode : Inode) :
    (blockMap disk inode).length =
      if inode.mode &&& ilarg = 0 then 8 else indirectAddCount + sectorAddCount * sectorAddCount := by
  by_cases hmode : inode.mode &&& ilarg = 0
  · simp only [blockMap, if_pos hmode, List.length_map, Vector.length_toList]
  · simp only [blockMap, if_neg hmode]
    rw [List.length_append, length_singlePart, addr_drop, List.flatMap_singleton,
      length_doubleIndirect]

theorem fileBlocks_same
    (hsame : ∀ p ∈ fileBlocks disk inode, ∀ k ∈ p.indirect, SameSector disk disk' k) :
    fileBlocks disk' inode = fileBlocks disk inode := by
  refine List.ext_getElem? ?_
  intro b
  cases hp : (fileBlocks disk inode)[b]? with
  | some p =>
    obtain ⟨hb, hmap⟩ := blockMap_of_fileBlocks hp
    rw [fileBlocks, List.getElem?_take_of_lt hb]
    exact blockMap_same hmap (hsame p (List.mem_of_getElem? hp))
  | none =>
    rw [List.getElem?_eq_none_iff, fileBlocks, List.length_take, length_blockMap] at hp ⊢
    exact hp

/-- The same blocks, and they lie inside. -/
theorem Readable.same (hr : Readable disk inode)
    (hblocks : fileBlocks disk' inode = fileBlocks disk inode)
    (hsame : ∀ p ∈ fileBlocks disk inode, ∀ k ∈ p.sectors, SectorInside disk' k) :
    Readable disk' inode := by
  refine ⟨hr.small, ?_⟩
  rw [hblocks]
  exact hsame

theorem fileSectors_same (hblocks : fileBlocks disk' inode = fileBlocks disk inode)
    (hsame : ∀ p ∈ fileBlocks disk inode, SameSector disk disk' p.sector) :
    fileSectors disk' inode = fileSectors disk inode := by
  rw [fileSectors, fileSectors, hblocks]
  exact List.map_congr_left hsame

end

end Acso.FileSystem
