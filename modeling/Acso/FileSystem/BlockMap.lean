import Acso.FileSystem.Image

/-!
# The block map of a large file

With `ILARG` an inode names `7 * 256 + 256 * 256` blocks.  `pointerList` puts their
addresses into one list; `blockSlot` says in which slot of which pointer sector the code
looks for block `b`.  The lookup finds element `b` of the list, which is the word of its
slot, and the slots are in bijection with the block numbers (`block_map_law`).
-/

namespace Acso.FileSystem

open Acso.Lib

/-- `i_addr[7]`, the double indirect sector. -/
def doubleIndirectSector (inode : Inode) : Nat := (inode.addr.toList.map BitVec.toNat).getD 7 0

/-- The addresses of all blocks, in order: the entries of the seven indirect sectors, then
those of the sectors that the double indirect sector names. -/
def pointerList (disk : List Byte) (inode : Inode) : List Nat :=
  let addr := inode.addr.toList.map BitVec.toNat
  (addr.take 7).flatMap (sectorWords disk) ++
    (sectorWords disk (doubleIndirectSector inode)).flatMap (sectorWords disk)

/-- The number of blocks. -/
def pointerCount : Nat := 7 * 256 + 256 * 256

/-- The sectors that the lookup of block `b` reads. -/
def pointerSectors (disk : List Byte) (inode : Inode) (b : Nat) : List Nat :=
  if b < 7 * 256 then ((inode.addr.toList.map BitVec.toNat)[b / 256]?).toList
  else
    doubleIndirectSector inode ::
      ((sectorWords disk (doubleIndirectSector inode))[(b - 7 * 256) / 256]?).toList

/-- A place for an address: in an indirect sector, or in a sector behind the double
indirect one. -/
inductive PointerSlot
  | single (sector position : Nat)
  | double (firstLevelIndex secondLevelIndex : Nat)
  deriving DecidableEq

/-- The indices are inside their arrays. -/
def PointerSlot.Valid : PointerSlot → Prop
  | .single sector position => sector < 7 ∧ position < 256
  | .double firstLevelIndex secondLevelIndex => firstLevelIndex < 256 ∧ secondLevelIndex < 256

/-- The slot in which the code looks for block `b`. -/
def blockSlot (b : Nat) : PointerSlot :=
  if b < indirectAddCount then .single (b / sectorAddCount) (b % sectorAddCount)
  else .double ((b - indirectAddCount) / sectorAddCount) ((b - indirectAddCount) % sectorAddCount)

/-- The block of a slot. -/
def PointerSlot.block : PointerSlot → Nat
  | .single sector position => 256 * sector + position
  | .double firstLevelIndex secondLevelIndex =>
    7 * 256 + (256 * firstLevelIndex + secondLevelIndex)

/-- The word in a slot. -/
def PointerSlot.word (disk : List Byte) (inode : Inode) : PointerSlot → Option Nat
  | .single sector position =>
    (inode.addr.toList.map BitVec.toNat)[sector]?.bind fun a => (sectorWords disk a)[position]?
  | .double firstLevelIndex secondLevelIndex =>
    (sectorWords disk (doubleIndirectSector inode))[firstLevelIndex]?.bind fun a =>
      (sectorWords disk a)[secondLevelIndex]?

/-! ## Slots and block numbers -/

theorem blockSlot_eq (b : Nat) : blockSlot b =
    if b < 7 * 256 then .single (b / 256) (b % 256)
    else .double ((b - 7 * 256) / 256) ((b - 7 * 256) % 256) := rfl

theorem block_blockSlot (b : Nat) : (blockSlot b).block = b := by
  rw [blockSlot_eq]
  split
  · exact Nat.div_add_mod b 256
  · rw [PointerSlot.block, Nat.div_add_mod]
    omega

theorem blockSlot_block {slot : PointerSlot} (h : slot.Valid) :
    slot.block < pointerCount ∧ blockSlot slot.block = slot := by
  cases slot with
  | single sector position =>
    obtain ⟨hs, hp⟩ := h
    rw [PointerSlot.block, pointerCount, blockSlot_eq, if_pos (by omega), PointerSlot.single.injEq]
    omega
  | double first second =>
    obtain ⟨hf, hs⟩ := h
    rw [PointerSlot.block, pointerCount, blockSlot_eq, if_neg (by omega), PointerSlot.double.injEq]
    omega

/-! ## The lookup -/

section lookup

variable {disk : List Byte} {inode : Inode}

theorem getElem?_addr_double (inode : Inode) :
    (inode.addr.toList.map BitVec.toNat)[singleIndirectSectors]? =
      some (doubleIndirectSector inode) := by
  have haddr := getElem?_addr_last inode
  have hdouble : doubleIndirectSector inode = _ := congrArg (Option.getD · 0) haddr
  rw [haddr, hdouble, Option.getD_some]

/-- The list is the block map, without the sectors on the way. -/
theorem pointerList_eq (hmode : inode.mode &&& ilarg ≠ 0) :
    pointerList disk inode = (blockMap disk inode).map BlockPath.sector := by
  have hseven : 7 = singleIndirectSectors := rfl
  have hdouble := Option.some.inj ((getElem?_addr_double inode).symm.trans (getElem?_addr_last inode))
  simp only [pointerList, blockMap, if_neg hmode, hseven, addr_drop, List.flatMap_singleton,
    hdouble, List.map_append, List.map_flatMap, singleIndirect, doubleIndirect, List.map_map]
  simp [Function.comp_def]

theorem length_blockMap_large (hmode : inode.mode &&& ilarg ≠ 0) :
    (blockMap disk inode).length = pointerCount := by
  have hsingle := length_singlePart disk inode
  simp only [blockMap, if_neg hmode]
  rw [List.length_append, hsingle, addr_drop, List.flatMap_singleton, length_doubleIndirect]
  rfl

/-- The path of a block, against its slot and the sectors that are read. -/
theorem slot_of_path (hmode : inode.mode &&& ilarg ≠ 0) {b : Nat} {p : BlockPath}
    (h : (blockMap disk inode)[b]? = some p) :
    (blockSlot b).word disk inode = some p.sector ∧ pointerSectors disk inode b = p.indirect := by
  have haddr := getElem?_addr_double inode
  rw [blockSlot_eq, pointerSectors]
  by_cases hb : b < 7 * 256
  · obtain ⟨a, d, ha, hd, rfl⟩ := blockMap_single hmode hb h
    have ha' : (inode.addr.toList.map BitVec.toNat)[b / 256]? = some a := ha
    rw [if_pos hb, if_pos hb, PointerSlot.word, ha']
    exact ⟨hd, rfl⟩
  · obtain ⟨a, c, d, ha, hc, hd, rfl⟩ := blockMap_double hmode hb h
    obtain rfl := Option.some.inj (haddr.symm.trans ha)
    have hc' : (sectorWords disk (doubleIndirectSector inode))[(b - 7 * 256) / 256]? = some c := hc
    rw [if_neg hb, if_neg hb, PointerSlot.word, hc']
    exact ⟨hd, rfl⟩

end lookup

/-- **The block map law.**  The lookup of a block whose pointer sectors lie inside the image
finds the element of the list, which is the word in its slot; different blocks have different
slots, and every slot has a block. -/
theorem block_map_law (fs : UnixFilesystem) (inode : Inode) (hmode : inode.mode &&& ilarg ≠ 0) :
    (∀ b < pointerCount, (∀ k ∈ pointerSectors fs.disk inode b, SectorInside fs.disk k) →
      ∃ d, (pointerList fs.disk inode)[b]? = some d ∧
        (∀ junk, inodeIndexlookup fs junk inode b = .ok d) ∧
        (blockSlot b).word fs.disk inode = some d) ∧
    (∀ b < pointerCount, ∀ b' < pointerCount, blockSlot b = blockSlot b' → b = b') ∧
    ∀ slot : PointerSlot, slot.Valid → ∃ b < pointerCount, blockSlot b = slot := by
  refine ⟨?_, ?_, ?_⟩
  · intro b hb hin
    have hlen : b < (blockMap fs.disk inode).length := by rwa [length_blockMap_large hmode]
    have hp := List.getElem?_eq_getElem hlen
    obtain ⟨hword, hsectors⟩ := slot_of_path hmode hp
    rw [hsectors] at hin
    refine ⟨_, ?_, inodeIndexlookup_blockMap hp hin, hword⟩
    rw [pointerList_eq hmode, List.getElem?_map, hp]
    rfl
  · intro b _ b' _ heq
    rw [← block_blockSlot b, heq, block_blockSlot]
  · intro slot hvalid
    exact ⟨slot.block, blockSlot_block hvalid⟩

/-- Sector 3 is its first indirect sector and its double indirect one. -/
def largeInode : Inode :=
  { plainInode 0x9000 0 3 with size0 := 0x10, addr := #v[3, 0, 0, 0, 0, 0, 0, 3] }

/-- The addresses 3 and 7. -/
def pointerData : List Byte := [0x03, 0x00, 0x07, 0x00]

/-- Block 1793 is the second behind the double indirect sector, and its address is 7. -/
theorem largeInode_lookup :
    (pointerList (imageFs [] pointerData).disk largeInode)[1793]? = some 7 ∧
      (∀ junk, inodeIndexlookup (imageFs [] pointerData) junk largeInode (1793 : Nat) = .ok 7) ∧
      (blockSlot 1793).word (imageFs [] pointerData).disk largeInode = some 7 := by
  have hwords : ∀ i < 256, (sectorWords (imageFs [] pointerData).disk 3)[i]? =
      some (wordAt (pad pointerData) (2 * i)).toNat := by
    intro i hi
    rw [sectorWords, imageFs, sectorBytes_imageOf, wordsOf, List.getElem?_map,
      Vector.getElem?_toList, Vector.getElem?_ofFn, dif_pos hi, Option.map_some]
  have hfirst : (sectorWords (imageFs [] pointerData).disk 3)[0]? = some 3 :=
    (hwords 0 (by decide)).trans (by decide)
  have hsecond : (sectorWords (imageFs [] pointerData).disk 3)[1]? = some 7 :=
    (hwords 1 (by decide)).trans (by decide)
  have hsectors : pointerSectors (imageFs [] pointerData).disk largeInode 1793 = [3, 3] := by
    show 3 :: ((sectorWords (imageFs [] pointerData).disk 3)[0]?).toList = [3, 3]
    rw [hfirst]
    rfl
  have hword : (blockSlot 1793).word (imageFs [] pointerData).disk largeInode = some 7 := by
    have hslot : blockSlot 1793 = .double 0 1 := by decide
    have hdouble : doubleIndirectSector largeInode = 3 := by decide
    rw [hslot, PointerSlot.word, hdouble, hfirst, Option.bind_some, hsecond]
  have hinside : ∀ k ∈ pointerSectors (imageFs [] pointerData).disk largeInode 1793,
      SectorInside (imageFs [] pointerData).disk k := by
    intro k hk
    obtain rfl : k = 3 := by simpa [hsectors] using hk
    exact sectorInside_imageOf _ _ (by decide)
  obtain ⟨d, hd, hlookup, hslot⟩ :=
    (block_map_law (imageFs [] pointerData) largeInode (by decide)).1 1793 (by decide) hinside
  obtain rfl := Option.some.inj (hslot.symm.trans hword)
  exact ⟨hd, hlookup, hslot⟩

end Acso.FileSystem
