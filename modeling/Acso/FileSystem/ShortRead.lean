import Acso.FileSystem.Image
import Acso.FileSystem.Resolution

/-!
# Reads that are cut short

A read past the end of the image is short, and nobody but `directoryFindname` looks at the
number of bytes read.  The others take what they want from the whole buffer, so their
results can depend on what it held before.

* `InodeCovered`, `LookupCovered`, …: the image covers the bytes that a call uses.
* `inodeIget_determined_iff`, `inodeIndexlookup_determined_iff`,
  `fileGetblock_determined_iff`: whether one read determines its result.
* `Call.reproducible_of_covered`: what the image covers is determined, through all layers.
-/

namespace Acso.FileSystem

open Acso.Lib

/-- The outcome does not depend on what the uninitialised memory holds. -/
def Determined {α : Type} (f : Junk → α) : Prop := ∀ junk junk', f junk = f junk'

/-! ## Memory full of one byte -/

def fillSector (c : Byte) : Sector := ⟨List.replicate diskimgSectorSize c, List.length_replicate⟩

def fillJunk (c : Byte) : Junk := fun _ => fillSector c

theorem getD_fillSector (c : Byte) {i : Nat} (hi : i < diskimgSectorSize) :
    (fillSector c).bytes.getD i 0 = c := by
  rw [fillSector, List.getD_eq_getElem?_getD, List.getElem?_replicate_of_lt hi]
  rfl

/-- A byte that the image does not cover is the one of the buffer. -/
theorem getD_overwrite_fillSector {disk : List Byte} {offset i : Nat} (hi : i < diskimgSectorSize)
    (h : disk.length ≤ offset + i) (c : Byte) :
    ((fillSector c).overwrite disk offset).bytes.getD i 0 = c := by
  rw [getD_overwrite _ _ _ hi, if_neg (Nat.not_lt.mpr h), getD_fillSector c hi]

theorem byteOf_overwrite_fillSector {disk : List Byte} {offset i : Nat}
    (hi : i + 2 ≤ diskimgSectorSize) (h : disk.length < offset + i + 2) (c : Byte) :
    byteOf (wordAt ((fillSector c).overwrite disk offset).bytes i) 1 = c := by
  rw [byteOf_wordAt (by decide), getD_overwrite_fillSector (by omega) (by omega)]

/-! ## Fetching an inode -/

/-- Where inode `inumber` is on the image. -/
def inodeOffset (inumber : Int) : Nat :=
  (sectorOffset (inodeSector inumber)).toNat + sizeofInode * inodeSlot inumber

/-- There is nothing to read, or the image covers the inode, or its mode says that it is
not in use. -/
def InodeCovered (disk : List Byte) (inumber : Int) : Prop :=
  inumber ≤ 0 ∨ sectorOffset (inodeSector inumber) < 0 ∨
    inodeOffset inumber + sizeofInode ≤ disk.length ∨
    inodeOffset inumber + 2 ≤ disk.length ∧ wordAt disk (inodeOffset inumber) &&& ialloc = 0

section inode

variable {fs : UnixFilesystem} {inumber : Int}

theorem sizeofInode_mul_inodeSlot (inumber : Int) :
    sizeofInode * inodeSlot inumber + sizeofInode ≤ diskimgSectorSize := by
  have := inodeSlot_lt inumber
  rw [sizeofInode, diskimgSectorSize]
  omega

theorem readInode_mode (disk : List Byte) (inumber : Int) (buf : Sector) :
    (readInode disk inumber buf).mode = wordAt
      (buf.overwrite disk (sectorOffset (inodeSector inumber)).toNat).bytes
        (sizeofInode * inodeSlot inumber) :=
  wordAt_take_drop (by decide) _ _

theorem readInode_mtime (disk : List Byte) (inumber : Int) (buf : Sector) :
    (readInode disk inumber buf).mtime[1] = wordAt
      (buf.overwrite disk (sectorOffset (inodeSector inumber)).toNat).bytes
        (sizeofInode * inodeSlot inumber + 30) := by
  rw [readInode, Inode.ofBytes, Vector.getElem_ofFn]
  exact wordAt_take_drop (by decide) _ _

theorem and_ialloc_eq_zero_iff (w : BitVec 16) : w &&& ialloc = 0 ↔ byteOf w 1 &&& 0x80 = 0 := by
  have hhigh : byteOf (w &&& ialloc) 1 = byteOf w 1 &&& 0x80 := byteOf_and w ialloc 1
  constructor
  · intro h
    rw [← hhigh, h]
    rfl
  · intro h
    refine ext_byteOf (Nat.le_refl (8 * 2)) ?_
    intro k hk
    rcases (by omega : k = 0 ∨ k = 1) with rfl | rfl
    · rw [byteOf_and]
      exact BitVec.and_zero
    · rw [hhigh, h]
      rfl

/-- The mode of an inode that the image covers. -/
theorem readInode_mode_covered {disk : List Byte} (h : inodeOffset inumber + 2 ≤ disk.length)
    (buf : Sector) : (readInode disk inumber buf).mode = wordAt disk (inodeOffset inumber) := by
  have hslot := sizeofInode_mul_inodeSlot inumber
  rw [sizeofInode] at hslot
  rw [readInode_mode, wordAt_overwrite (by rw [sizeofInode]; omega) h]
  rfl

/-- **A covered inode** cannot be fetched at all, or it is the one on the image. -/
theorem InodeCovered.cases (h : InodeCovered fs.disk inumber) :
    (∃ stderr, ∀ junk, inodeIget fs junk inumber = .error (.minusOne stderr)) ∨
      ∃ inode, AllocatedAt fs.disk inumber inode := by
  rcases Int.lt_or_le 0 inumber with hpos | hneg
  swap
  · exact .inl ⟨[], fun junk => by rw [inodeIget, if_pos hneg]⟩
  rcases Int.lt_or_le (sectorOffset (inodeSector inumber)) 0 with hseek | hseek
  · refine .inl ⟨[], fun junk => ?_⟩
    rw [inodeIget, if_neg (Int.not_le.mpr hpos)]
    show (diskimgReadsector fs.disk (inodeSector inumber) junk.here >>= fun x => _) = _
    rw [diskimgReadsector, if_pos hseek]
    rfl
  rcases h with h | h | hinside | ⟨hmode, hfree⟩
  · omega
  · omega
  · by_cases halloc : (Inode.ofBytes ((fs.disk.drop (inodeOffset inumber)).take sizeofInode)).mode &&&
        ialloc = 0
    · exact .inl ⟨_, fun junk =>
        (inodeIget_stored ⟨hpos, hseek, hinside, rfl⟩ junk).trans (if_pos halloc)⟩
    · exact .inr ⟨_, ⟨hpos, hseek, hinside, rfl⟩, halloc⟩
  · refine .inl ⟨_, fun junk => (inodeIget_eq hpos hseek junk).trans (if_pos ?_)⟩
    rw [readInode_mode_covered hmode, hfree]

/-- **Fetching an inode** gives a result of the disk alone if and only if the image covers
the inode. -/
theorem inodeIget_determined_iff :
    Determined (fun junk => inodeIget fs junk inumber) ↔ InodeCovered fs.disk inumber := by
  constructor
  · intro hdet
    by_contra hcov
    simp only [InodeCovered, not_or, not_and, Int.not_le, Int.not_lt, Nat.not_le] at hcov
    obtain ⟨hpos, hseek, hinside, hmode⟩ := hcov
    have hslot := sizeofInode_mul_inodeSlot inumber
    rw [inodeOffset, sizeofInode] at hinside
    rw [sizeofInode] at hslot
    have hsame : inodeIget fs (fillJunk 0) inumber = inodeIget fs (fillJunk 0xff) inumber :=
      hdet _ _
    rw [inodeIget_eq hpos hseek, inodeIget_eq hpos hseek] at hsame
    by_cases hcover : inodeOffset inumber + 2 ≤ fs.disk.length
    · -- the inode is in use whatever the memory holds, but its last byte is not on the image
      rw [readInode_mode_covered hcover, readInode_mode_covered hcover, if_neg (hmode hcover),
        if_neg (hmode hcover), Except.ok.injEq] at hsame
      have hword := congrArg (fun inode : Inode => byteOf inode.mtime[1] 1) hsame
      rw [readInode_mtime, readInode_mtime] at hword
      simp only [Junk.here, fillJunk] at hword
      rw [byteOf_overwrite_fillSector (by rw [sizeofInode]; omega) (by rw [sizeofInode]; omega),
        byteOf_overwrite_fillSector (by rw [sizeofInode]; omega) (by rw [sizeofInode]; omega)] at hword
      revert hword
      decide
    · -- the memory decides whether the inode is in use
      rw [inodeOffset, sizeofInode] at hcover
      have hbyte : ∀ c, byteOf (readInode fs.disk inumber (fillJunk c).here).mode 1 = c := by
        intro c
        rw [readInode_mode]
        exact byteOf_overwrite_fillSector (by rw [sizeofInode]; omega) (by rw [sizeofInode]; omega) c
      have hfree : (readInode fs.disk inumber (fillJunk 0).here).mode &&& ialloc = 0 := by
        rw [and_ialloc_eq_zero_iff, hbyte]
        decide
      have hused : ¬ (readInode fs.disk inumber (fillJunk 0xff).here).mode &&& ialloc = 0 := by
        rw [and_ialloc_eq_zero_iff, hbyte]
        decide
      rw [if_pos hfree, if_neg hused] at hsame
      cases hsame
  · intro hcov junk junk'
    rcases hcov.cases with ⟨stderr, herr⟩ | ⟨inode, ha⟩
    · exact (herr junk).trans (herr junk').symm
    · exact (inodeIget_allocated ha junk).trans (inodeIget_allocated ha junk').symm

end inode

/-! ## Looking a block up -/

/-- The way to block `b`: the one of the block map, or without `ILARG` that over a word of the
inode, which behind the addresses is one of the times. -/
def blockPath (disk : List Byte) (inode : Inode) (b : Nat) : Option BlockPath :=
  if inode.mode &&& ilarg = 0 then inode.words[b]?.map fun d => ⟨[], d.toNat⟩
  else (blockMap disk inode)[b]?

/-- The block number is refused, or there is a way to the block and the image covers the
addresses on it. -/
def LookupCovered (disk : List Byte) (inode : Inode) (blockNum : Int) : Prop :=
  blockNum < 0 ∨ ∃ p, blockPath disk inode blockNum.toNat = some p ∧ p.Covered disk blockNum.toNat

section lookup

variable {fs : UnixFilesystem} {inode : Inode} {blockNum : Int}

theorem blockPath_small {disk : List Byte} {b : Nat} (hmode : inode.mode &&& ilarg = 0)
    {p : BlockPath} (h : blockPath disk inode b = some p) :
    ∃ d, inode.words[b]? = some d ∧ p = ⟨[], d.toNat⟩ := by
  rw [blockPath, if_pos hmode, Option.map_eq_some_iff] at h
  obtain ⟨d, hd, rfl⟩ := h
  exact ⟨d, hd, rfl⟩

theorem blockPath_large {disk : List Byte} {b : Nat} (hmode : inode.mode &&& ilarg ≠ 0) :
    blockPath disk inode b = (blockMap disk inode)[b]? :=
  if_neg hmode

theorem blockPath_sector_lt {disk : List Byte} {b : Nat} {p : BlockPath}
    (h : blockPath disk inode b = some p) : p.sector < 2 ^ 22 := by
  by_cases hmode : inode.mode &&& ilarg = 0
  · obtain ⟨d, -, rfl⟩ := blockPath_small hmode h
    exact d.isLt.trans (by decide)
  · rw [blockPath_large hmode] at h
    exact sector_lt h

/-- **The lookup goes this way**, if the image covers the addresses on it. -/
theorem inodeIndexlookup_path {b : Nat} {p : BlockPath} (h : blockPath fs.disk inode b = some p)
    (hcov : p.Covered fs.disk b) (junk : Junk) :
    inodeIndexlookup fs junk inode b = .ok p.sector := by
  by_cases hmode : inode.mode &&& ilarg = 0
  · obtain ⟨d, hd, rfl⟩ := blockPath_small hmode h
    rw [inodeIndexlookup, if_neg (Int.not_lt.mpr (Int.natCast_nonneg b))]
    simp only [if_pos hmode, Int.toNat_natCast, readArray, hd, Option.getD_some]
  · rw [blockPath_large hmode] at h
    exact inodeIndexlookup_covered h hcov junk

theorem inodeIndexlookup_determined (h : LookupCovered fs.disk inode blockNum) :
    Determined fun junk => inodeIndexlookup fs junk inode blockNum := by
  intro junk junk'
  rcases Int.lt_or_le blockNum 0 with hneg | hpos
  · dsimp only
    rw [inodeIndexlookup, inodeIndexlookup, if_pos hneg, if_pos hneg]
  rcases h with hneg | ⟨p, hp, hcov⟩
  · omega
  obtain ⟨b, rfl⟩ := Int.eq_ofNat_of_zero_le hpos
  exact (inodeIndexlookup_path hp hcov junk).trans (inodeIndexlookup_path hp hcov junk').symm

/-- Behind the inode the memory decides. -/
theorem small_determined {b : Nat} (hmode : inode.mode &&& ilarg = 0)
    (hdet : Determined fun junk => inodeIndexlookup fs junk inode b) : b < 12 := by
  by_contra hb
  have hsame : inodeIndexlookup fs (fillJunk 0) inode b =
      inodeIndexlookup fs (fillJunk 0xff) inode b :=
    hdet _ _
  have hout : ∀ junk : Junk, inodeIndexlookup fs junk inode b =
      .ok (wordAt junk.here.bytes 0).toNat := by
    intro junk
    rw [inodeIndexlookup, if_neg (Int.not_lt.mpr (Int.natCast_nonneg b))]
    simp only [if_pos hmode, Int.toNat_natCast, readArray]
    rw [Vector.getElem?_eq_none (by omega)]
    rfl
  rw [hout, hout, Except.ok.injEq] at hsame
  revert hsame
  decide

/-- Where an address is not covered, the memory decides. -/
theorem readAddress_determined {k i : Nat} (hk : k < 2 ^ 22) (hi : i < sectorAddCount)
    (hdet : Determined fun junk => readAddress fs junk k i) : WordCovered fs.disk k i := by
  by_contra hcov
  have hsame : readAddress fs (fillJunk 0) k i = readAddress fs (fillJunk 0xff) k i := hdet _ _
  rw [WordCovered] at hcov
  rw [sectorAddCount, diskimgSectorSize] at hi
  rw [readAddress_eq hk hi, readAddress_eq hk hi, Except.ok.injEq] at hsame
  have hword := congrArg (fun w : BitVec 16 => byteOf w 1) (BitVec.eq_of_toNat_eq hsame)
  simp only [Junk.here, Junk.sub, fillJunk] at hword
  rw [byteOf_overwrite_fillSector (by rw [diskimgSectorSize]; omega) (by omega),
    byteOf_overwrite_fillSector (by rw [diskimgSectorSize]; omega) (by omega)] at hword
  revert hword
  decide

theorem indirectAddCount_le_length (disk : List Byte) (hmode : inode.mode &&& ilarg ≠ 0) :
    indirectAddCount ≤ (blockMap disk inode).length := by
  simp only [blockMap, if_neg hmode, List.length_append, length_singlePart]
  exact Nat.le_add_right _ _

/-- **Looking a block up** without the double indirect sector gives a result of the disk
alone if and only if the image covers the address of the block. -/
theorem inodeIndexlookup_determined_iff
    (hsingle : inode.mode &&& ilarg = 0 ∨ blockNum < indirectAddCount) :
    Determined (fun junk => inodeIndexlookup fs junk inode blockNum) ↔
      LookupCovered fs.disk inode blockNum := by
  refine ⟨fun hdet => ?_, inodeIndexlookup_determined⟩
  rcases Int.lt_or_le blockNum 0 with hneg | hpos
  · exact .inl hneg
  obtain ⟨b, rfl⟩ := Int.eq_ofNat_of_zero_le hpos
  refine .inr ?_
  rw [Int.toNat_natCast]
  by_cases hmode : inode.mode &&& ilarg = 0
  · have hb := small_determined hmode hdet
    refine ⟨⟨[], inode.words[b].toNat⟩, ?_, trivial⟩
    rw [blockPath, if_pos hmode, Vector.getElem?_eq_getElem hb, Option.map_some]
  · have hb : b < indirectAddCount := by
      rcases hsingle with h | h
      · exact absurd h hmode
      · omega
    have hlen := hb.trans_le (indirectAddCount_le_length fs.disk hmode)
    obtain ⟨a, d, ha, hd, hp⟩ := blockMap_single hmode hb (List.getElem?_eq_getElem hlen)
    refine ⟨_, (blockPath_large hmode).trans (List.getElem?_eq_getElem hlen), ?_⟩
    rw [hp]
    refine readAddress_determined (lt_of_mem_toNat ha) (Nat.mod_lt _ (by decide)) ?_
    intro junk junk'
    have hread : ∀ junk,
        inodeIndexlookup fs junk inode b = readAddress fs junk a (b % sectorAddCount) := by
      intro junk
      rw [inodeIndexlookup, if_neg (Int.not_lt.mpr hpos)]
      simp only [Int.toNat_natCast]
      rw [if_neg hmode, if_pos hb, toNat_readArray ha]
    have hsame : inodeIndexlookup fs junk inode b = inodeIndexlookup fs junk' inode b := hdet _ _
    rwa [hread, hread] at hsame

end lookup

/-! ## Reading a block -/

/-- What a caller may use of a block: the number of valid bytes, and these. -/
def validBytes (result : Result (Int × Sector)) : Result (Int × List Byte) :=
  result.map fun (count, buf) => (count, buf.bytes.take count.toNat)

/-- The image covers the addresses on the way to block `b` and its valid bytes. -/
def BlockCovered (disk : List Byte) (inode : Inode) (b : Nat) : Prop :=
  ∃ p, blockPath disk inode b = some p ∧ p.Covered disk b ∧
    diskimgSectorSize * p.sector + validCount inode b ≤ disk.length

/-- The image covers the inode, and the block if there is one. -/
def GetblockCovered (disk : List Byte) (inumber blockNum : Int) : Prop :=
  InodeCovered disk inumber ∧ ∀ inode, AllocatedAt disk inumber inode → 0 ≤ blockNum →
    blockNum < blockCount (inodeGetsize inode) → BlockCovered disk inode blockNum.toNat

section getblock

variable {fs : UnixFilesystem} {inumber : Int} {inode : Inode}

theorem validCount_pos {b : Nat} (hb : b < blockCount (inodeGetsize inode)) :
    0 < validCount inode b := by
  have hlt := lt_blockCount_iff.mp hb
  rw [validCount, diskimgSectorSize]
  rw [diskimgSectorSize] at hlt
  omega

/-- What is read of a block whose addresses are covered. -/
theorem validBytes_fileGetblock (ha : AllocatedAt fs.disk inumber inode) {b : Nat}
    (hb : b < blockCount (inodeGetsize inode)) {p : BlockPath}
    (hp : blockPath fs.disk inode b = some p) (hcov : p.Covered fs.disk b) (junk : Junk)
    (buf : Sector) :
    validBytes (fileGetblock fs junk inumber b buf) =
      .ok ((validCount inode b : Int),
        (buf.overwrite fs.disk (diskimgSectorSize * p.sector)).bytes.take (validCount inode b)) := by
  rw [fileGetblock_at ha hb (blockPath_sector_lt hp) (inodeIndexlookup_path hp hcov _)]
  rfl

theorem validBytes_covered (ha : AllocatedAt fs.disk inumber inode) {b : Nat}
    (hb : b < blockCount (inodeGetsize inode)) (hcov : BlockCovered fs.disk inode b) :
    ∃ bytes, ∀ junk buf, validBytes (fileGetblock fs junk inumber b buf) =
      .ok ((validCount inode b : Int), bytes) := by
  obtain ⟨p, hp, hpath, hdata⟩ := hcov
  refine ⟨(fs.disk.drop (diskimgSectorSize * p.sector)).take (validCount inode b), ?_⟩
  intro junk buf
  have hle : validCount inode b ≤ diskimgSectorSize := Nat.min_le_left _ _
  rw [validBytes_fileGetblock ha hb hp hpath, take_overwrite hle hdata]

theorem fileGetblock_determined {blockNum : Int} (h : GetblockCovered fs.disk inumber blockNum)
    (junk junk' : Junk) (buf buf' : Sector) :
    validBytes (fileGetblock fs junk inumber blockNum buf) =
      validBytes (fileGetblock fs junk' inumber blockNum buf') := by
  rcases h.1.cases with ⟨stderr, herr⟩ | ⟨inode, ha⟩
  · have hget : ∀ junk buf,
        fileGetblock fs junk inumber blockNum buf = .error (.minusOne stderr) := by
      intro junk buf
      rw [fileGetblock, herr, error_bind]
    rw [hget, hget]
  by_cases hb : 0 ≤ blockNum ∧ blockNum < blockCount (inodeGetsize inode)
  · have hcov := h.2 inode ha hb.1 hb.2
    obtain ⟨b, rfl⟩ := Int.eq_ofNat_of_zero_le hb.1
    obtain ⟨bytes, hbytes⟩ := validBytes_covered ha (Int.ofNat_lt.mp hb.2) hcov
    exact (hbytes junk buf).trans (hbytes junk' buf').symm
  · rw [fileGetblock_outside ha hb, fileGetblock_outside ha hb]

/-- **Reading a block** whose inode and addresses the image covers gives valid bytes of the
disk alone if and only if the image covers these. -/
theorem fileGetblock_determined_iff (ha : AllocatedAt fs.disk inumber inode) {b : Nat}
    (hb : b < blockCount (inodeGetsize inode)) {p : BlockPath}
    (hp : blockPath fs.disk inode b = some p) (hcov : p.Covered fs.disk b) :
    (∀ junk junk' buf buf', validBytes (fileGetblock fs junk inumber b buf) =
        validBytes (fileGetblock fs junk' inumber b buf')) ↔
      diskimgSectorSize * p.sector + validCount inode b ≤ fs.disk.length := by
  constructor
  · intro hdet
    by_contra hshort
    have hpos := validCount_pos hb
    have hle : validCount inode b ≤ diskimgSectorSize := Nat.min_le_left _ _
    have hsame := hdet (fillJunk 0) (fillJunk 0) (fillSector 0) (fillSector 0xff)
    rw [validBytes_fileGetblock ha hb hp hcov, validBytes_fileGetblock ha hb hp hcov,
      Except.ok.injEq, Prod.mk.injEq] at hsame
    -- the last valid byte is not on the image
    have hlast := congrArg (fun bytes => bytes.getD (validCount inode b - 1) 0) hsame.2
    simp only [List.getD_eq_getElem?_getD] at hlast
    rw [List.getElem?_take_of_lt (by omega), List.getElem?_take_of_lt (by omega),
      ← List.getD_eq_getElem?_getD, ← List.getD_eq_getElem?_getD,
      getD_overwrite_fillSector (by omega) (by omega),
      getD_overwrite_fillSector (by omega) (by omega)] at hlast
    revert hlast
    decide
  · intro hdata junk junk' buf buf'
    obtain ⟨bytes, hbytes⟩ := validBytes_covered ha hb ⟨p, hp, hcov, hdata⟩
    exact (hbytes junk buf).trans (hbytes junk' buf').symm

end getblock

/-! ## Searching a directory -/

/-- The slots of block `b` of a directory. -/
def blockSlots (disk : List Byte) (inode : Inode) (b : Nat) : List Direntv6 :=
  match blockPath disk inode b with
  | some p => sectorSlots disk p.sector
  | none => []

/-- The slots of a directory. -/
def slotsOn (disk : List Byte) (inode : Inode) : List Direntv6 :=
  (List.range (blockCount (inodeGetsize inode))).flatMap (blockSlots disk inode)

/-- The image covers the addresses of the blocks up to the one where the name is found. -/
def SearchCovered (disk : List Byte) (name : List Byte) (inode : Inode) : Prop :=
  ∀ b < blockCount (inodeGetsize inode),
    (∀ b' < b, ∀ e ∈ blockSlots disk inode b', ¬ e.Carries name) →
      ∃ p, blockPath disk inode b = some p ∧ p.Covered disk b

/-- The image covers the inode, and what a search needs if it is a directory. -/
def FindnameCovered (disk : List Byte) (name : List Byte) (inumber : Int) : Prop :=
  InodeCovered disk inumber ∧ ∀ inode, AllocatedAt disk inumber inode →
    inode.mode &&& ifdir ≠ 0 → SearchCovered disk name inode

/-- The disk has this entry under this name. -/
def FoundOn (disk : List Byte) (name : List Byte) (inumber : Int) (e : Direntv6) : Prop :=
  ∃ inode, AllocatedAt disk inumber inode ∧ inode.mode &&& ifdir ≠ 0 ∧
    (slotsOn disk inode).find? (fun e => decide (e.Carries name)) = some e

section findname

variable {fs : UnixFilesystem} {name : List Byte} {inode : Inode}

/-- The search from block `i` on, if the name is in no block before. -/
theorem find?_scannedSlots (hcov : SearchCovered fs.disk name inode) (junk : Junk) (k i : Nat)
    (hk : i + k = blockCount (inodeGetsize inode))
    (hbefore : ∀ b < i, ∀ e ∈ blockSlots fs.disk inode b, ¬ e.Carries name) :
    (scannedSlots fs junk inode (List.range' i k)).find? (fun e => decide (e.Carries name)) =
      ((List.range' i k).flatMap (blockSlots fs.disk inode)).find?
        (fun e => decide (e.Carries name)) := by
  induction k generalizing i with
  | zero => rfl
  | succ k ih =>
    obtain ⟨p, hp, hpath⟩ := hcov i (by omega) hbefore
    have hslots : blockSlots fs.disk inode i = sectorSlots fs.disk p.sector := by
      rw [blockSlots, hp]
    rw [List.range'_succ, scannedSlots, List.flatMap_cons, List.flatMap_cons,
      inodeIndexlookup_path hp hpath, List.find?_append, List.find?_append, hslots]
    dsimp only
    cases hfind : (sectorSlots fs.disk p.sector).find? fun e => decide (e.Carries name) with
    | some e => rfl
    | none =>
      rw [Option.none_or, Option.none_or]
      refine ih (i + 1) (by omega) ?_
      intro b hb e he
      rcases Nat.lt_succ_iff_lt_or_eq.mp hb with hlt | rfl
      · exact hbefore b hlt e he
      · rw [hslots] at he
        simpa using List.find?_eq_none.mp hfind e he

/-- **A covered search** fails whatever the memory holds, or finds what is on the disk. -/
theorem FindnameCovered.cases {inumber : Int} (h : FindnameCovered fs.disk name inumber) :
    ∃ result, (∀ junk, directoryFindname fs junk name inumber = result) ∧
      ∀ e, result = .ok e → FoundOn fs.disk name inumber e := by
  rcases h.1.cases with ⟨stderr, herr⟩ | ⟨inode, ha⟩
  · refine ⟨.error (.minusOne stderr), fun junk => ?_, fun e he => ?_⟩
    · rw [directoryFindname, herr, error_bind]
    · cases he
  by_cases hdir : inode.mode &&& ifdir = 0
  · refine ⟨.error (.minusOne []), fun junk => ?_, fun e he => ?_⟩
    · rw [directoryFindname, inodeIget_allocated ha, ok_bind, if_pos hdir]
    · cases he
  · refine ⟨orMinusOne ((slotsOn fs.disk inode).find? fun e => decide (e.Carries name)),
      fun junk => ?_, fun e he => ⟨inode, ha, hdir, orMinusOne_eq_ok.mp he⟩⟩
    have hsearch := find?_scannedSlots (h.2 inode ha hdir) (junk.sub 1)
      (blockCount (inodeGetsize inode)) 0 (Nat.zero_add _) (fun b hb => absurd hb (Nat.not_lt_zero b))
    rw [← List.range_eq_range', ← slotsOn] at hsearch
    rw [directoryFindname, inodeIget_allocated ha, ok_bind, if_neg hdir]
    dsimp only
    rw [findnameLoop_scan, hsearch]

end findname

/-! ## Following a path -/

/-- The image covers what every lookup along the path needs. -/
def PathCovered (disk : List Byte) : List (List Byte) → Nat → Prop
  | [], _ => True
  | token :: tokens, curr => FindnameCovered disk token curr ∧
      ∀ e, FoundOn disk token curr e → PathCovered disk tokens e.dInumber.toNat

theorem pathnameLoop_determined {fs : UnixFilesystem} (i : Nat) (tokens : List (List Byte))
    (curr : Nat) (h : PathCovered fs.disk tokens curr) :
    Determined fun junk => pathnameLoop fs junk i tokens curr := by
  induction tokens generalizing i curr with
  | nil => exact fun _ _ => rfl
  | cons token tokens ih =>
    intro junk junk'
    obtain ⟨result, hresult, hfound⟩ := h.1.cases
    dsimp only
    rw [pathnameLoop, pathnameLoop, hresult, hresult]
    cases result with
    | error e => rw [error_bind, error_bind]
    | ok e => exact ih (i + 1) _ (h.2 e (hfound e rfl)) junk junk'

/-! ## The checksum -/

/-- The image covers the inode and all its blocks. -/
def ChksumCovered (disk : List Byte) (inumber : Int) : Prop :=
  InodeCovered disk inumber ∧ ∀ inode, AllocatedAt disk inumber inode →
    ∀ b < blockCount (inodeGetsize inode), BlockCovered disk inode b

section chksum

variable {fs : UnixFilesystem} {inumber : Int} {inode : Inode} {Ctx : Type} (sha : Sha1 Ctx)

/-- The loop hashes the valid bytes of each block. -/
theorem chksumLoop_determined (ha : AllocatedAt fs.disk inumber inode) (bs : List Nat)
    (hbs : ∀ b ∈ bs, b < blockCount (inodeGetsize inode) ∧ BlockCovered fs.disk inode b)
    (junk junk' : Junk) (ctx : Ctx) :
    chksumLoop sha fs junk inumber (bs.map (diskimgSectorSize * ·)) ctx =
      chksumLoop sha fs junk' inumber (bs.map (diskimgSectorSize * ·)) ctx := by
  induction bs generalizing ctx with
  | nil => rfl
  | cons b bs ih =>
    have hbno : diskimgSectorSize * b / diskimgSectorSize = b :=
      Nat.mul_div_cancel_left b (by decide)
    obtain ⟨hb, p, hp, hpath, hdata⟩ := hbs b (by simp)
    have hle : validCount inode b ≤ diskimgSectorSize := Nat.min_le_left _ _
    have hget := fun junk => fileGetblock_at ha hb (blockPath_sector_lt hp)
      (inodeIndexlookup_path hp hpath ((junk : Junk).sub 1))
    rw [List.map_cons, chksumLoop, chksumLoop]
    simp only [hbno]
    rw [hget, hget, ok_bind, ok_bind]
    dsimp only
    rw [Int.toNat_natCast, take_overwrite hle hdata, take_overwrite hle hdata]
    cases sha.update ctx ((fs.disk.drop (diskimgSectorSize * p.sector)).take (validCount inode b)) with
    | none => rfl
    | some ctx' => exact ih (fun b' hb' => hbs b' (by simp [hb'])) ctx'

theorem chksumfileByinumber_determined (h : ChksumCovered fs.disk inumber) :
    Determined fun junk => chksumfileByinumber sha fs junk inumber := by
  intro junk junk'
  dsimp only
  rw [chksumfileByinumber, chksumfileByinumber]
  cases sha.init with
  | none => rfl
  | some ctx =>
    dsimp only
    rcases h.1.cases with ⟨stderr, herr⟩ | ⟨inode, ha⟩
    · rw [herr, herr, error_bind, error_bind]
    · have hloop := chksumLoop_determined sha ha (List.range (blockCount (inodeGetsize inode)))
        (fun b hb => ⟨List.mem_range.mp hb, h.2 inode ha b (List.mem_range.mp hb)⟩) (junk.sub 1)
        (junk'.sub 1) ctx
      rw [inodeIget_allocated ha, inodeIget_allocated ha, ok_bind, ok_bind, if_neg ha.alloc,
        offsets, hloop, if_neg ha.alloc]

end chksum

/-! ## All calls -/

/-- A call of one of the functions that read the image. -/
inductive Call
  | iget (inumber : Int)
  | indexlookup (inode : Inode) (blockNum : Int)
  | getblock (inumber blockNum : Int)
  | findname (name : List Byte) (dirinumber : Int)
  | lookup (pathname : List Byte)
  | chksum (inumber : Int)

/-- Any two runs of the call return the same, whatever their buffers have held: the same
status, and the same inode, sector number, valid bytes, entry, inode number or, for every
hash, checksum. -/
def Call.Reproducible (fs : UnixFilesystem) : Call → Prop
  | .iget inumber => Determined fun junk => inodeIget fs junk inumber
  | .indexlookup inode blockNum => Determined fun junk => inodeIndexlookup fs junk inode blockNum
  | .getblock inumber blockNum => ∀ junk junk' buf buf',
      validBytes (fileGetblock fs junk inumber blockNum buf) =
        validBytes (fileGetblock fs junk' inumber blockNum buf')
  | .findname name dirinumber => Determined fun junk => directoryFindname fs junk name dirinumber
  | .lookup pathname => Determined fun junk => pathnameLookup fs junk pathname
  | .chksum inumber => ∀ (Ctx : Type) (sha : Sha1 Ctx),
      Determined fun junk => chksumfileByinumber sha fs junk inumber

/-- The image covers what the call uses. -/
def Call.Covered (disk : List Byte) : Call → Prop
  | .iget inumber => InodeCovered disk inumber
  | .indexlookup inode blockNum => LookupCovered disk inode blockNum
  | .getblock inumber blockNum => GetblockCovered disk inumber blockNum
  | .findname name dirinumber => FindnameCovered disk name dirinumber
  | .lookup pathname => pathname.head? = some slash →
      PathCovered disk (tokens slash pathname) rootInumber
  | .chksum inumber => ChksumCovered disk inumber

/-- Only one read of the call can be cut short. -/
def Call.OneRead (disk : List Byte) : Call → Prop
  | .iget _ => True
  | .indexlookup inode blockNum => inode.mode &&& ilarg = 0 ∨ blockNum < indirectAddCount
  | .getblock inumber blockNum => ∃ inode p, AllocatedAt disk inumber inode ∧ 0 ≤ blockNum ∧
      blockNum < blockCount (inodeGetsize inode) ∧
        blockPath disk inode blockNum.toNat = some p ∧ p.Covered disk blockNum.toNat
  | _ => False

theorem AllocatedAt.unique {disk : List Byte} {inumber : Int} {inode inode' : Inode}
    (h : AllocatedAt disk inumber inode) (h' : AllocatedAt disk inumber inode') : inode' = inode :=
  h'.bytes.trans h.bytes.symm

theorem Call.reproducible_of_covered {fs : UnixFilesystem} {call : Call}
    (h : call.Covered fs.disk) : call.Reproducible fs := by
  cases call with
  | iget inumber => exact inodeIget_determined_iff.mpr h
  | indexlookup inode blockNum => exact inodeIndexlookup_determined h
  | getblock inumber blockNum => exact fileGetblock_determined h
  | findname name dirinumber =>
    obtain ⟨result, hresult, -⟩ := FindnameCovered.cases h
    exact fun junk junk' => (hresult junk).trans (hresult junk').symm
  | lookup pathname =>
    intro junk junk'
    dsimp only
    rw [pathnameLookup, pathnameLookup]
    split
    · rfl
    · exact pathnameLoop_determined 0 _ rootInumber (h (not_not.mp ‹_›)) junk junk'
  | chksum inumber => exact fun Ctx sha => chksumfileByinumber_determined sha h

theorem Call.covered_of_reproducible {fs : UnixFilesystem} {call : Call}
    (hone : call.OneRead fs.disk) (h : call.Reproducible fs) : call.Covered fs.disk := by
  cases call with
  | iget inumber => exact inodeIget_determined_iff.mp h
  | indexlookup inode blockNum => exact (inodeIndexlookup_determined_iff hone).mp h
  | getblock inumber blockNum =>
    obtain ⟨inode, p, ha, hpos, hb, hp, hpath⟩ := hone
    obtain ⟨b, rfl⟩ := Int.eq_ofNat_of_zero_le hpos
    have hdata := (fileGetblock_determined_iff ha (Int.ofNat_lt.mp hb) hp hpath).mp h
    refine ⟨.inr (.inr (.inl ha.inside)), ?_⟩
    intro inode' ha' _ _
    rw [ha.unique ha']
    exact ⟨p, hp, hpath, hdata⟩
  | _ => exact hone.elim

/-- **A call whose bytes the image covers is reproducible**, and a call of one read is
reproducible only then. -/
theorem reproducible_iff_covered (fs : UnixFilesystem) (call : Call) :
    (call.Covered fs.disk → call.Reproducible fs) ∧
      (call.OneRead fs.disk → (call.Reproducible fs ↔ call.Covered fs.disk)) :=
  ⟨Call.reproducible_of_covered,
    fun hone => ⟨Call.covered_of_reproducible hone, Call.reproducible_of_covered⟩⟩

/-! ## An image without inodes -/

/-- The image ends behind the superblock. -/
def shortDisk : List Byte := pad [0x07, 0x01] ++ pad [0x01, 0x00]

theorem shortDisk_accepted (junk : Junk) : unixfilesystemInit junk shortDisk = .ok ⟨shortDisk, 1⟩ := by
  have h := unixfilesystemInit_sectors junk []
  rwa [List.append_nil] at h

theorem abcRoot_reproducible : (Call.getblock 1 0).Reproducible (imageFs abcInodes abcData) := by
  refine (reproducible_iff_covered _ _).1 ⟨.inr (.inr (.inl abcInode_allocated.inside)), ?_⟩
  intro inode ha _ _
  rw [abcInode_allocated.unique ha, abcInode_eq]
  refine ⟨⟨[], 3⟩, rfl, trivial, ?_⟩
  show _ ≤ (imageOf abcInodes abcData).length
  rw [length_imageOf]
  decide

/-- Inode 1 of the short image is whatever the memory holds. -/
theorem shortDisk_differs :
    ¬ ∀ (junk : Junk) (disk : List Byte) (fs : UnixFilesystem),
      unixfilesystemInit junk disk = .ok fs → ∀ call : Call, call.Reproducible fs := by
  intro h
  have higet := h zeroJunk shortDisk _ (shortDisk_accepted zeroJunk) (.iget 1)
  have hone : (Call.iget 1).OneRead shortDisk := trivial
  have hcov := Call.covered_of_reproducible hone higet
  have hlen : shortDisk.length = 1024 := by simp [shortDisk, diskimgSectorSize]
  have hoff : inodeOffset 1 = 1024 := by decide
  have hseek : ¬ sectorOffset (inodeSector 1) < 0 := by decide
  simp only [Call.Covered, InodeCovered, hlen, hoff, sizeofInode] at hcov
  rcases hcov with hcov | hcov | hcov | ⟨hcov, -⟩
  · omega
  · exact hseek hcov
  · omega
  · omega

end Acso.FileSystem
