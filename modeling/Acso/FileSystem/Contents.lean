import Acso.Lib.Blocks
import Acso.FileSystem.Inode

/-!
# What the image says

The contents of a file, stated over the image alone.  `blockMap` lists the blocks
an inode names, each with the sectors that lead to it, and `fileBytes` joins
the sectors of the blocks of a file and cuts them at its size.

* `inodeIget_stored`: fetching an inode finds what is stored at its place.
* `inodeIndexlookup_blockMap`: looking a block up finds it in the block map.
* `fileGetblock_block`: reading a block finds its sector.
-/

namespace Acso.FileSystem

open Acso.Lib

/-! ## Stored inodes -/

/-- The sector of an inode. -/
def inodeSector (inumber : Int) : Nat := inodeStartSector + (inumber - 1).toNat / sectorInodeCount

/-- The place of an inode in its sector. -/
def inodeSlot (inumber : Int) : Nat := (inumber - 1).toNat % sectorInodeCount

/-- The 32 bytes of inode `inumber` lie inside the image and say `inode`. -/
structure StoredAt (disk : List Byte) (inumber : Int) (inode : Inode) : Prop where
  pos : 0 < inumber
  seek : 0 ≤ sectorOffset (inodeSector inumber)
  inside : (sectorOffset (inodeSector inumber)).toNat + sizeofInode * inodeSlot inumber +
    sizeofInode ≤ disk.length
  bytes : inode = Inode.ofBytes ((disk.drop ((sectorOffset (inodeSector inumber)).toNat +
    sizeofInode * inodeSlot inumber)).take sizeofInode)

/-- An inode that is stored and in use. -/
structure AllocatedAt (disk : List Byte) (inumber : Int) (inode : Inode) : Prop extends
    StoredAt disk inumber inode where
  alloc : inode.mode &&& ialloc ≠ 0

theorem inodeSlot_lt (inumber : Int) : inodeSlot inumber < 16 := Nat.mod_lt _ (by decide)

/-- What a read leaves at a place that the image covers. -/
theorem overwrite_slot {disk : List Byte} {offset slot : Nat} (hslot : slot < 16)
    (h : offset + sizeofInode * slot + sizeofInode ≤ disk.length) (buf : Sector) :
    ((buf.overwrite disk offset).bytes.drop (sizeofInode * slot)).take sizeofInode =
      (disk.drop (offset + sizeofInode * slot)).take sizeofInode := by
  simp only [sizeofInode] at h ⊢
  have hlen : 32 * slot + 32 ≤ ((disk.drop offset).take diskimgSectorSize).length := by
    rw [List.length_take, List.length_drop, diskimgSectorSize]
    omega
  simp only [Sector.overwrite]
  rw [List.drop_append_of_le_length (by omega), List.take_append_of_le_length (by
    rw [List.length_drop]; omega), List.drop_take, List.take_take, List.drop_drop,
    Nat.min_eq_left (by rw [diskimgSectorSize]; omega)]

/-- The inode in the buffer of `inodeIget`, after its read. -/
def readInode (disk : List Byte) (inumber : Int) (buf : Sector) : Inode :=
  Inode.ofBytes (((buf.overwrite disk (sectorOffset (inodeSector inumber)).toNat).bytes.drop
    (sizeofInode * inodeSlot inumber)).take sizeofInode)

/-- What `inodeIget` does when it can seek. -/
theorem inodeIget_eq {fs : UnixFilesystem} {inumber : Int} (hpos : 0 < inumber)
    (hseek : 0 ≤ sectorOffset (inodeSector inumber)) (junk : Junk) :
    inodeIget fs junk inumber =
      if (readInode fs.disk inumber junk.here).mode &&& ialloc = 0 then
        .error (.minusOne ["Error: Inode " ++ toString inumber ++ " is not allocated.\n"])
      else .ok (readInode fs.disk inumber junk.here) := by
  obtain ⟨count, hread⟩ : ∃ count, diskimgReadsector fs.disk (inodeSector inumber) junk.here =
      .ok (count, junk.here.overwrite fs.disk (sectorOffset (inodeSector inumber)).toNat) :=
    ⟨_, by rw [diskimgReadsector, if_neg (Int.not_lt.mpr hseek)]⟩
  rw [inodeIget, if_neg (Int.not_le.mpr hpos)]
  show (diskimgReadsector fs.disk (inodeSector inumber) junk.here >>= fun x => _) = _
  rw [hread, ok_bind]
  rfl

/-- **Fetching a stored inode** succeeds exactly if it is in use. -/
theorem inodeIget_stored {fs : UnixFilesystem} {inumber : Int} {inode : Inode}
    (h : StoredAt fs.disk inumber inode) (junk : Junk) :
    inodeIget fs junk inumber =
      if inode.mode &&& ialloc = 0 then
        .error (.minusOne ["Error: Inode " ++ toString inumber ++ " is not allocated.\n"])
      else .ok inode := by
  have hread : readInode fs.disk inumber junk.here = inode := by
    rw [readInode, overwrite_slot (inodeSlot_lt inumber) h.inside, h.bytes]
  rw [inodeIget_eq h.pos h.seek, hread]

theorem inodeIget_allocated {fs : UnixFilesystem} {inumber : Int} {inode : Inode}
    (h : AllocatedAt fs.disk inumber inode) (junk : Junk) :
    inodeIget fs junk inumber = .ok inode := by
  rw [inodeIget_stored h.toStoredAt, if_neg h.alloc]

/-- The inode at its place in the inode area. -/
def inodeOf (disk : List Byte) (inumber : Nat) : Inode :=
  Inode.ofBytes ((disk.drop (diskimgSectorSize * inodeStartSector + sizeofInode * (inumber - 1))).take
    sizeofInode)

/-- Inode `n` starts `32 * (n - 1)` bytes after the superblock. -/
theorem storedAt_inodeOf {disk : List Byte} {inumber : Nat} (hpos : 0 < inumber)
    (hlt : inumber ≤ 2 ^ 20) (h : SectorInside disk (inodeSector inumber)) :
    StoredAt disk inumber (inodeOf disk inumber) := by
  have hk : ((inumber : Int) - 1).toNat = inumber - 1 := by omega
  have hsector : inodeSector inumber = 2 + (inumber - 1) / 16 := by rw [inodeSector, hk]; rfl
  have hslot : inodeSlot inumber = (inumber - 1) % 16 := by rw [inodeSlot, hk]; rfl
  have hoff : sectorOffset (inodeSector inumber) =
      ((512 * (2 + (inumber - 1) / 16) : Nat) : Int) := by
    rw [sectorOffset_eq (by omega), hsector]
    rfl
  have hnat := congrArg Int.toNat hoff
  rw [Int.toNat_natCast] at hnat
  rw [SectorInside, hsector, diskimgSectorSize] at h
  have hplace : 512 * (2 + (inumber - 1) / 16) + sizeofInode * ((inumber - 1) % 16) =
      diskimgSectorSize * inodeStartSector + sizeofInode * (inumber - 1) := by
    rw [sizeofInode, diskimgSectorSize, inodeStartSector]
    omega
  refine ⟨by omega, by omega, ?_, ?_⟩
  · rw [hnat, hslot, sizeofInode]
    omega
  · rw [hnat, hslot, hplace]
    rfl

/-! ## The block map -/

/-- A block that an inode names: the indirect sectors on the way, and its sector. -/
structure BlockPath where
  indirect : List Nat
  sector : Nat

def BlockPath.sectors (p : BlockPath) : List Nat := p.indirect ++ [p.sector]

/-- The words of a sector, as sector numbers. -/
def sectorWords (disk : List Byte) (k : Nat) : List Nat :=
  (wordsOf (sectorBytes disk k)).toList.map BitVec.toNat

/-- The blocks behind an indirect sector. -/
def singleIndirect (disk : List Byte) (a : Nat) : List BlockPath :=
  (sectorWords disk a).map fun d => ⟨[a], d⟩

/-- The blocks behind a double indirect sector. -/
def doubleIndirect (disk : List Byte) (a : Nat) : List BlockPath :=
  (sectorWords disk a).flatMap fun b => (sectorWords disk b).map fun d => ⟨[a, b], d⟩

/-- The blocks an inode names, in order: its addresses, or with `ILARG` the blocks
behind seven indirect sectors and one double indirect sector. -/
def blockMap (disk : List Byte) (inode : Inode) : List BlockPath :=
  let addr := inode.addr.toList.map BitVec.toNat
  if inode.mode &&& ilarg = 0 then addr.map fun d => ⟨[], d⟩
  else
    (addr.take singleIndirectSectors).flatMap (singleIndirect disk) ++
      (addr.drop singleIndirectSectors).flatMap (doubleIndirect disk)

@[simp] theorem length_sectorWords (disk : List Byte) (k : Nat) :
    (sectorWords disk k).length = sectorAddCount := by simp [sectorWords, sectorAddCount,
      diskimgSectorSize]

@[simp] theorem length_singleIndirect (disk : List Byte) (a : Nat) :
    (singleIndirect disk a).length = sectorAddCount := by simp [singleIndirect]

/-- An address in an array of sector numbers. -/
theorem toNat_readArray {n i d : Nat} {a : Vector (BitVec 16) n}
    (h : (a.toList.map BitVec.toNat)[i]? = some d) (junk : Sector) :
    (readArray a i junk).toNat = d := by
  rw [List.getElem?_map, Vector.getElem?_toList, Option.map_eq_some_iff] at h
  obtain ⟨x, hx, rfl⟩ := h
  rw [readArray, hx]
  rfl

/-- The addresses come first. -/
theorem toNat_readArray_words {i d : Nat} {inode : Inode}
    (h : (inode.addr.toList.map BitVec.toNat)[i]? = some d) (junk : Sector) :
    (readArray inode.words i junk).toNat = d := by
  have hi : i < 8 := by
    have hlt := (List.getElem?_eq_some_iff.mp h).1
    rwa [List.length_map, Vector.length_toList] at hlt
  refine toNat_readArray ?_ junk
  have hwords : inode.words.toList = inode.addr.toList ++ (inode.atime.toList ++ inode.mtime.toList) := by
    rw [Inode.words, Vector.toList_append, Vector.toList_append, List.append_assoc]
  rw [hwords, List.map_append, List.getElem?_append_left (by
    rwa [List.length_map, Vector.length_toList]), h]

/-- Sector numbers have 16 bits. -/
theorem lt_of_mem_toNat {n i d : Nat} {a : Vector (BitVec 16) n}
    (h : (a.toList.map BitVec.toNat)[i]? = some d) : d < 2 ^ 22 := by
  rw [List.getElem?_map, Option.map_eq_some_iff] at h
  obtain ⟨x, -, rfl⟩ := h
  have := x.isLt
  omega

/-- The last address is that of the double indirect sector. -/
theorem addr_drop (inode : Inode) :
    (inode.addr.toList.map BitVec.toNat).drop singleIndirectSectors = [(inode.addr[7]).toNat] := by
  have hlen : inode.addr.toList.length = 8 := Vector.length_toList
  rw [← List.map_drop, singleIndirectSectors, List.drop_eq_getElem_cons (by omega),
    List.drop_eq_nil_of_le (by omega), Vector.getElem_toList]
  rfl

theorem getElem?_addr_last (inode : Inode) :
    (inode.addr.toList.map BitVec.toNat)[singleIndirectSectors]? = some (inode.addr[7]).toNat := by
  have h := congrArg (fun l => l[0]?) (addr_drop inode)
  rwa [List.getElem?_drop] at h

/-- Looking a block up in the three parts of the map. -/
theorem blockMap_small {disk : List Byte} {inode : Inode} (hmode : inode.mode &&& ilarg = 0)
    {b : Nat} {p : BlockPath} (h : (blockMap disk inode)[b]? = some p) :
    ∃ d, (inode.addr.toList.map BitVec.toNat)[b]? = some d ∧ p = ⟨[], d⟩ := by
  simp only [blockMap, if_pos hmode] at h
  rw [List.getElem?_map, Option.map_eq_some_iff] at h
  obtain ⟨d, hd, rfl⟩ := h
  exact ⟨d, hd, rfl⟩

theorem length_singlePart (disk : List Byte) (inode : Inode) :
    (((inode.addr.toList.map BitVec.toNat).take singleIndirectSectors).flatMap
      (singleIndirect disk)).length = indirectAddCount := by
  rw [List.length_flatMap, List.map_congr_left fun a _ => length_singleIndirect disk a]
  simp only [List.map_const', List.sum_replicate_nat]
  simp [indirectAddCount, singleIndirectSectors, Nat.mul_comm]

theorem blockMap_single {disk : List Byte} {inode : Inode} (hmode : inode.mode &&& ilarg ≠ 0)
    {b : Nat} (hb : b < indirectAddCount) {p : BlockPath}
    (h : (blockMap disk inode)[b]? = some p) :
    ∃ a d, (inode.addr.toList.map BitVec.toNat)[b / sectorAddCount]? = some a ∧
      (sectorWords disk a)[b % sectorAddCount]? = some d ∧ p = ⟨[a], d⟩ := by
  simp only [blockMap, if_neg hmode] at h
  rw [List.getElem?_append_left (by rwa [length_singlePart]),
    getElem?_flatMap (by decide) (fun a _ => length_singleIndirect disk a),
    Option.bind_eq_some_iff] at h
  obtain ⟨a, ha, hp⟩ := h
  rw [singleIndirect, List.getElem?_map, Option.map_eq_some_iff] at hp
  obtain ⟨d, hd, rfl⟩ := hp
  have hlt : b / sectorAddCount < singleIndirectSectors := Nat.div_lt_of_lt_mul hb
  rw [List.getElem?_take_of_lt hlt] at ha
  exact ⟨a, d, ha, hd, rfl⟩

theorem blockMap_double {disk : List Byte} {inode : Inode} (hmode : inode.mode &&& ilarg ≠ 0)
    {b : Nat} (hb : ¬ b < indirectAddCount) {p : BlockPath}
    (h : (blockMap disk inode)[b]? = some p) :
    ∃ a c d, (inode.addr.toList.map BitVec.toNat)[singleIndirectSectors]? = some a ∧
      (sectorWords disk a)[(b - indirectAddCount) / sectorAddCount]? = some c ∧
      (sectorWords disk c)[(b - indirectAddCount) % sectorAddCount]? = some d ∧
      p = ⟨[a, c], d⟩ := by
  simp only [blockMap, if_neg hmode] at h
  rw [List.getElem?_append_right (by rw [length_singlePart]; omega), length_singlePart] at h
  rw [addr_drop, List.flatMap_singleton, doubleIndirect,
    getElem?_flatMap (c := sectorAddCount) (by decide) (fun c _ => by simp),
    Option.bind_eq_some_iff] at h
  obtain ⟨c, hc, hp⟩ := h
  rw [List.getElem?_map, Option.map_eq_some_iff] at hp
  obtain ⟨d, hd, rfl⟩ := hp
  exact ⟨_, c, d, getElem?_addr_last inode, hc, hd, rfl⟩

/-- The image covers word `i` of the sector. -/
def WordCovered (disk : List Byte) (k i : Nat) : Prop :=
  diskimgSectorSize * k + 2 * i + 2 ≤ disk.length

/-- The image covers the addresses on the way to block `b`. -/
def BlockPath.Covered (disk : List Byte) (b : Nat) (p : BlockPath) : Prop :=
  match p.indirect with
  | [] => True
  | [a] => WordCovered disk a (b % sectorAddCount)
  | a :: c :: _ => WordCovered disk a ((b - indirectAddCount) / sectorAddCount) ∧
      WordCovered disk c ((b - indirectAddCount) % sectorAddCount)

theorem wordCovered_of_inside {disk : List Byte} {k i : Nat} (hi : i < sectorAddCount)
    (h : SectorInside disk k) : WordCovered disk k i := by
  rw [sectorAddCount, diskimgSectorSize] at hi
  rw [SectorInside, diskimgSectorSize] at h
  rw [WordCovered, diskimgSectorSize]
  omega

/-- The word that an address lookup takes from its buffer. -/
theorem readAddress_eq {fs : UnixFilesystem} {k i : Nat} (hk : k < 2 ^ 22) (hi : i < sectorAddCount)
    (junk : Junk) :
    readAddress fs junk k i =
      .ok (wordAt ((junk.sub 0).here.overwrite fs.disk (diskimgSectorSize * k)).bytes
        (2 * i)).toNat := by
  have hi' : i < 256 := hi
  rw [readAddress, diskimgReadsector_eq hk, ok_bind]
  simp only [readArray, wordsOf, Vector.getElem?_ofFn, dif_pos hi', Option.getD_some]

theorem getElem?_sectorWords {disk : List Byte} {k i d : Nat}
    (h : (sectorWords disk k)[i]? = some d) :
    i < sectorAddCount ∧ d = (wordAt disk (diskimgSectorSize * k + 2 * i)).toNat := by
  have hi : i < sectorAddCount := by
    have hlt := (List.getElem?_eq_some_iff.mp h).1
    rwa [length_sectorWords] at hlt
  have hi' : i < 256 := hi
  rw [sectorWords, wordsOf, List.getElem?_map, Vector.getElem?_toList, Vector.getElem?_ofFn,
    dif_pos hi', Option.map_some, Option.some.injEq, sectorBytes] at h
  exact ⟨hi, by rw [← h, wordAt_take_drop (by rw [diskimgSectorSize]; omega)]⟩

theorem readAddress_covered {fs : UnixFilesystem} {k i d : Nat} (hk : k < 2 ^ 22)
    (hin : WordCovered fs.disk k i) (h : (sectorWords fs.disk k)[i]? = some d) (junk : Junk) :
    readAddress fs junk k i = .ok d := by
  obtain ⟨hi, rfl⟩ := getElem?_sectorWords h
  rw [readAddress_eq hk hi]
  rw [sectorAddCount, diskimgSectorSize] at hi
  rw [wordAt_overwrite (by rw [diskimgSectorSize]; omega) hin]

/-- **The lookup finds the block of the map**, if the image covers the addresses on the way. -/
theorem inodeIndexlookup_covered {fs : UnixFilesystem} {inode : Inode} {b : Nat} {p : BlockPath}
    (h : (blockMap fs.disk inode)[b]? = some p) (hcov : p.Covered fs.disk b) (junk : Junk) :
    inodeIndexlookup fs junk inode b = .ok p.sector := by
  have hneg : ¬ (b : Int) < 0 := by omega
  rw [inodeIndexlookup, if_neg hneg]
  simp only [Int.toNat_natCast]
  by_cases hmode : inode.mode &&& ilarg = 0
  · obtain ⟨d, hd, rfl⟩ := blockMap_small hmode h
    rw [if_pos hmode, toNat_readArray_words hd]
  rw [if_neg hmode]
  by_cases hb : b < indirectAddCount
  · obtain ⟨a, d, ha, hd, rfl⟩ := blockMap_single hmode hb h
    rw [if_pos hb, toNat_readArray ha]
    exact readAddress_covered (lt_of_mem_toNat ha) hcov hd junk
  · obtain ⟨a, c, d, ha, hc, hd, rfl⟩ := blockMap_double hmode hb h
    rw [if_neg hb, toNat_readArray ha, readAddress_covered (lt_of_mem_toNat ha) hcov.1 hc junk,
      ok_bind]
    exact readAddress_covered (lt_of_mem_toNat hc) hcov.2 hd (junk.sub 1)

theorem covered_of_inside {disk : List Byte} {inode : Inode} {b : Nat} {p : BlockPath}
    (h : (blockMap disk inode)[b]? = some p) (hin : ∀ k ∈ p.indirect, SectorInside disk k) :
    p.Covered disk b := by
  by_cases hmode : inode.mode &&& ilarg = 0
  · obtain ⟨d, -, rfl⟩ := blockMap_small hmode h
    trivial
  by_cases hb : b < indirectAddCount
  · obtain ⟨a, d, -, hd, rfl⟩ := blockMap_single hmode hb h
    exact wordCovered_of_inside (getElem?_sectorWords hd).1 (hin a (by simp))
  · obtain ⟨a, c, d, -, hc, hd, rfl⟩ := blockMap_double hmode hb h
    exact ⟨wordCovered_of_inside (getElem?_sectorWords hc).1 (hin a (by simp)),
      wordCovered_of_inside (getElem?_sectorWords hd).1 (hin c (by simp))⟩

/-- **The lookup finds the block of the map**, if the sectors on the way can be read. -/
theorem inodeIndexlookup_blockMap {fs : UnixFilesystem} {inode : Inode} {b : Nat} {p : BlockPath}
    (h : (blockMap fs.disk inode)[b]? = some p) (hin : ∀ k ∈ p.indirect, SectorInside fs.disk k)
    (junk : Junk) : inodeIndexlookup fs junk inode b = .ok p.sector :=
  inodeIndexlookup_covered h (covered_of_inside h hin) junk

/-! ## Files -/

/-- The blocks of a file. -/
def fileBlocks (disk : List Byte) (inode : Inode) : List BlockPath :=
  (blockMap disk inode).take (blockCount (inodeGetsize inode))

/-- The sectors of a file. -/
def fileSectors (disk : List Byte) (inode : Inode) : List (List Byte) :=
  (fileBlocks disk inode).map fun p => sectorBytes disk p.sector

/-- The contents of a file: its sectors, up to its size. -/
def fileBytes (disk : List Byte) (inode : Inode) : List Byte :=
  (fileSectors disk inode).flatten.take (inodeGetsize inode)

/-- The addresses suffice for the size, and all sectors on the way to the blocks of
the file lie inside the image. -/
structure Readable (disk : List Byte) (inode : Inode) : Prop where
  small : inode.mode &&& ilarg = 0 → inodeGetsize inode ≤ 8 * diskimgSectorSize
  inside : ∀ p ∈ fileBlocks disk inode, ∀ k ∈ p.sectors, SectorInside disk k

theorem blockCount_le {size n : Nat} (h : size ≤ n * diskimgSectorSize) : blockCount size ≤ n := by
  rw [diskimgSectorSize] at h
  rw [blockCount, diskimgSectorSize]
  omega

theorem lt_blockCount_iff {size b : Nat} : b < blockCount size ↔ diskimgSectorSize * b < size := by
  rw [blockCount, diskimgSectorSize]
  omega

theorem length_doubleIndirect (disk : List Byte) (a : Nat) :
    (doubleIndirect disk a).length = sectorAddCount * sectorAddCount := by
  rw [doubleIndirect, List.length_flatMap,
    List.map_congr_left fun b _ => (List.length_map _).trans (length_sectorWords disk b)]
  simp

/-- A large inode names more blocks than a file can have. -/
theorem blockCount_le_large {disk : List Byte} {inode : Inode} (hmode : inode.mode &&& ilarg ≠ 0) :
    blockCount (inodeGetsize inode) ≤ (blockMap disk inode).length := by
  have hsize := inodeGetsize_lt inode
  have hcount : blockCount (inodeGetsize inode) ≤ 2 ^ 15 :=
    blockCount_le (by rw [diskimgSectorSize]; omega)
  simp only [blockMap, if_neg hmode]
  rw [List.length_append, addr_drop, List.flatMap_singleton, length_doubleIndirect]
  have : 2 ^ 15 ≤ sectorAddCount * sectorAddCount := by decide
  omega

theorem length_fileBlocks {disk : List Byte} {inode : Inode} (h : Readable disk inode) :
    (fileBlocks disk inode).length = blockCount (inodeGetsize inode) := by
  rw [fileBlocks, List.length_take]
  apply Nat.min_eq_left
  by_cases hmode : inode.mode &&& ilarg = 0
  · simp only [blockMap, if_pos hmode, List.length_map, Vector.length_toList]
    exact blockCount_le (h.small hmode)
  · exact blockCount_le_large hmode

/-- A block of a file is a block of the map. -/
theorem blockMap_of_fileBlocks {disk : List Byte} {inode : Inode} {b : Nat} {p : BlockPath}
    (h : (fileBlocks disk inode)[b]? = some p) :
    b < blockCount (inodeGetsize inode) ∧ (blockMap disk inode)[b]? = some p := by
  rw [fileBlocks, List.getElem?_take] at h
  split at h
  · exact ⟨‹_›, h⟩
  · cases h

theorem sector_lt {disk : List Byte} {inode : Inode} {b : Nat} {p : BlockPath}
    (h : (blockMap disk inode)[b]? = some p) : p.sector < 2 ^ 22 := by
  by_cases hmode : inode.mode &&& ilarg = 0
  · obtain ⟨d, hd, rfl⟩ := blockMap_small hmode h
    exact lt_of_mem_toNat hd
  by_cases hb : b < indirectAddCount
  · obtain ⟨a, d, -, hd, rfl⟩ := blockMap_single hmode hb h
    exact lt_of_mem_toNat hd
  · obtain ⟨a, c, d, -, -, hd, rfl⟩ := blockMap_double hmode hb h
    exact lt_of_mem_toNat hd

section reading

variable {fs : UnixFilesystem} {inumber : Int} {inode : Inode}

/-- The sector of a block of a readable file is found and read. -/
theorem readBlock (hr : Readable fs.disk inode) {b : Nat} {p : BlockPath}
    (hp : (fileBlocks fs.disk inode)[b]? = some p) (junk : Junk) (buf : Sector) :
    inodeIndexlookup fs junk inode b = .ok p.sector ∧
      ∃ buf' : Sector, buf'.bytes = sectorBytes fs.disk p.sector ∧
        diskimgReadsector fs.disk p.sector buf = .ok (diskimgSectorSize, buf') := by
  have hin := hr.inside p (List.mem_of_getElem? hp)
  obtain ⟨-, hmap⟩ := blockMap_of_fileBlocks hp
  refine ⟨inodeIndexlookup_blockMap hmap (fun k hk => hin k (by simp [BlockPath.sectors, hk])) junk,
    ?_⟩
  exact diskimgReadsector_inside (sector_lt hmap) (hin _ (by simp [BlockPath.sectors])) buf

/-- The number of valid bytes of block `b`. -/
def validCount (inode : Inode) (b : Nat) : Nat :=
  min diskimgSectorSize (inodeGetsize inode - diskimgSectorSize * b)

/-- Reading a block whose sector is known. -/
theorem fileGetblock_at (ha : AllocatedAt fs.disk inumber inode) {b k : Nat}
    (hb : b < blockCount (inodeGetsize inode)) (hk : k < 2 ^ 22) {junk : Junk}
    (hlookup : inodeIndexlookup fs (junk.sub 1) inode b = .ok k) (buf : Sector) :
    fileGetblock fs junk inumber b buf =
      .ok ((validCount inode b : Int), buf.overwrite fs.disk (diskimgSectorSize * k)) := by
  have hlt := lt_blockCount_iff.mp hb
  have hge : ¬ (b : Int) ≥ (blockCount (inodeGetsize inode) : Int) := by omega
  have hcount : (if (inodeGetsize inode : Int) - b * (diskimgSectorSize : Nat) <
      (diskimgSectorSize : Nat) then
      (inodeGetsize inode : Int) - b * (diskimgSectorSize : Nat) else (diskimgSectorSize : Nat)) =
      (validCount inode b : Int) := by
    rw [validCount]
    rw [diskimgSectorSize] at hlt ⊢
    split <;> omega
  rw [fileGetblock, inodeIget_allocated ha, ok_bind]
  dsimp only
  rw [if_neg hge, hlookup, ok_bind, diskimgReadsector_eq hk, ok_bind]
  dsimp only
  rw [hcount]

/-- **Reading a block of a file** finds its sector. -/
theorem fileGetblock_block (ha : AllocatedAt fs.disk inumber inode) (hr : Readable fs.disk inode)
    {b : Nat} {p : BlockPath} (hp : (fileBlocks fs.disk inode)[b]? = some p) (junk : Junk)
    (buf : Sector) :
    ∃ buf' : Sector, buf'.bytes = sectorBytes fs.disk p.sector ∧
      fileGetblock fs junk inumber b buf = .ok ((validCount inode b : Int), buf') := by
  obtain ⟨hb, hmap⟩ := blockMap_of_fileBlocks hp
  obtain ⟨hlookup, buf', hbuf, hread⟩ := readBlock hr hp (junk.sub 1) buf
  rw [diskimgReadsector_eq (sector_lt hmap), Except.ok.injEq, Prod.mk.injEq] at hread
  exact ⟨buf', hbuf, hread.2 ▸ fileGetblock_at ha hb (sector_lt hmap) hlookup buf⟩

/-- Every other block number is refused. -/
theorem fileGetblock_outside (ha : AllocatedAt fs.disk inumber inode) {b : Int}
    (hb : ¬ (0 ≤ b ∧ b < blockCount (inodeGetsize inode))) (junk : Junk) (buf : Sector) :
    fileGetblock fs junk inumber b buf = .error (.minusOne []) := by
  rw [fileGetblock, inodeIget_allocated ha, ok_bind]
  dsimp only
  by_cases hge : b ≥ (blockCount (inodeGetsize inode) : Int)
  · rw [if_pos hge]
  · have hneg : b < 0 := by omega
    rw [if_neg hge, inodeIndexlookup, if_pos hneg, error_bind]

end reading

end Acso.FileSystem
