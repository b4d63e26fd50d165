import Mathlib.Data.List.GetD
import Acso.FileSystem.PathDump
import Acso.FileSystem.Rewriting

/-!
# Records on the disk

An inode is 32 bytes and a directory entry 16, with their words low byte first.  What they are
in memory and on the disk determine each other (`Inode.ofBytes_toBytes`, `Inode.toBytes_ofBytes`,
and the same for `Direntv6`).

So a buffer of 16 inodes that is written to a sector of the inode area is what `inodeIget` finds
there afterwards (`inodeIget_written`), and buffers of 32 entries that are written to the blocks
of a directory are what a name is looked up in (`directoryFindname_written`).
-/

namespace Acso.FileSystem

open Acso.Lib

/-! ## Words in a list of bytes -/

/-- A word in memory. -/
def wordBytes (w : BitVec 16) : List Byte := [byteOf w 0, byteOf w 1]

@[simp] theorem length_wordBytes (w : BitVec 16) : (wordBytes w).length = 2 := rfl

theorem wordAt_append_left {a : List Byte} {i : Nat} (h : i + 2 ≤ a.length) (b : List Byte) :
    wordAt (a ++ b) i = wordAt a i := by
  refine ext_byteOf (Nat.le_refl (8 * 2)) ?_
  intro k hk
  rw [byteOf_wordAt hk, byteOf_wordAt hk, List.getD_append _ _ _ _ (by omega)]

theorem wordAt_append_right (a b : List Byte) (i : Nat) :
    wordAt (a ++ b) (a.length + i) = wordAt b i := by
  refine ext_byteOf (Nat.le_refl (8 * 2)) ?_
  intro k hk
  have hsub : a.length + i + k - a.length = i + k := by omega
  rw [byteOf_wordAt hk, byteOf_wordAt hk, List.getD_append_right _ _ _ _ (by omega), hsub]

theorem wordAt_wordBytes (w : BitVec 16) (rest : List Byte) : wordAt (wordBytes w ++ rest) 0 = w := by
  refine ext_byteOf (Nat.le_refl (8 * 2)) ?_
  intro k hk
  rw [byteOf_wordAt hk]
  match k, hk with
  | 0, _ => rfl
  | 1, _ => rfl

/-- Word `i` of some words. -/
theorem wordAt_flatMap {ws : List (BitVec 16)} {i : Nat} (hi : i < ws.length) :
    wordAt (ws.flatMap wordBytes) (2 * i) = ws[i] := by
  induction ws generalizing i with
  | nil => exact absurd hi (Nat.not_lt_zero i)
  | cons w ws ih =>
    rw [List.flatMap_cons]
    cases i with
    | zero => exact wordAt_wordBytes w _
    | succ i =>
      have hpos : 2 * (i + 1) = (wordBytes w).length + 2 * i := by
        rw [length_wordBytes]
        omega
      rw [hpos, wordAt_append_right, ih (Nat.lt_of_succ_lt_succ hi)]
      rfl

theorem length_flatMap_wordBytes (ws : List (BitVec 16)) :
    (ws.flatMap wordBytes).length = 2 * ws.length := length_flatMap_blocks length_wordBytes ws

theorem wordBytes_wordAt {bytes : List Byte} {i : Nat} (h : i + 2 ≤ bytes.length) :
    wordBytes (wordAt bytes i) = (bytes.drop i).take 2 := by
  rw [List.drop_eq_getElem_cons (by omega), List.drop_eq_getElem_cons (by omega),
    List.take_succ_cons, List.take_succ_cons, List.take_zero, wordBytes, byteOf_wordAt (by decide),
    byteOf_wordAt (by decide), Nat.add_zero, List.getD_eq_getElem _ _ (by omega),
    List.getD_eq_getElem _ _ (by omega)]

/-- The words from a place on are the bytes there. -/
theorem flatMap_wordAt {bytes : List Byte} (n : Nat) {i : Nat} (h : i + 2 * n ≤ bytes.length) :
    (Vector.ofFn fun j : Fin n => wordAt bytes (i + 2 * j)).toList.flatMap wordBytes =
      (bytes.drop i).take (2 * n) := by
  rw [Vector.toList_ofFn]
  induction n generalizing i with
  | zero => simp
  | succ n ih =>
    have hnext := ih (i := i + 2) (by omega)
    have hstep : (fun j : Fin n => wordAt bytes (i + 2 * (j.succ : Nat))) =
        fun j : Fin n => wordAt bytes (i + 2 + 2 * (j : Nat)) := by
      funext j
      rw [Fin.val_succ, Nat.mul_succ, Nat.add_right_comm i, Nat.add_assoc i]
    rw [List.ofFn_succ, List.flatMap_cons, hstep, hnext, Fin.val_zero, Nat.mul_zero, Nat.add_zero,
      wordBytes_wordAt (by omega), ← List.drop_drop, ← List.take_add, Nat.mul_succ, Nat.add_comm 2]

/-! ## Inodes -/

/-- The fields before the addresses. -/
def Inode.headBytes (inode : Inode) : List Byte :=
  wordBytes inode.mode ++
    (inode.nlink :: inode.uid :: inode.gid :: inode.size0 :: wordBytes inode.size1)

/-- An inode in memory. -/
def Inode.toBytes (inode : Inode) : List Byte :=
  inode.headBytes ++ (inode.addr.toList.flatMap wordBytes ++
    (inode.atime.toList.flatMap wordBytes ++ inode.mtime.toList.flatMap wordBytes))

@[simp] theorem Inode.length_toBytes (inode : Inode) : inode.toBytes.length = sizeofInode := by
  simp only [Inode.toBytes, List.length_append, length_flatMap_wordBytes, Vector.length_toList]
  rfl

/-- **Reading an inode back.** -/
theorem Inode.ofBytes_toBytes (inode : Inode) : Inode.ofBytes inode.toBytes = inode := by
  have hmode : wordAt inode.toBytes 0 = inode.mode := wordAt_wordBytes _ _
  have hsize1 : wordAt inode.toBytes 6 = inode.size1 := by
    refine (wordAt_append_left (show 6 + 2 ≤ inode.headBytes.length from Nat.le_refl 8) _).trans ?_
    exact (wordAt_append_right (wordBytes inode.mode ++ [inode.nlink, inode.uid, inode.gid,
      inode.size0]) (wordBytes inode.size1) 0).trans (wordAt_wordBytes inode.size1 [])
  have haddr : ∀ i (hi : i < 8), wordAt inode.toBytes (8 + 2 * i) = inode.addr[i] := by
    intro i hi
    refine (wordAt_append_right inode.headBytes _ (2 * i)).trans ?_
    rw [wordAt_append_left (by rw [length_flatMap_wordBytes, Vector.length_toList]; omega),
      wordAt_flatMap (by rw [Vector.length_toList]; exact hi), Vector.getElem_toList]
  have hlen : (inode.addr.toList.flatMap wordBytes).length = 16 := by
    rw [length_flatMap_wordBytes, Vector.length_toList]
  have hatime : ∀ i (hi : i < 2), wordAt inode.toBytes (24 + 2 * i) = inode.atime[i] := by
    intro i hi
    have hpos : 24 + 2 * i =
        inode.headBytes.length + ((inode.addr.toList.flatMap wordBytes).length + 2 * i) := by
      rw [hlen, ← Nat.add_assoc]
      rfl
    rw [hpos, Inode.toBytes, wordAt_append_right, wordAt_append_right,
      wordAt_append_left (by rw [length_flatMap_wordBytes, Vector.length_toList]; omega),
      wordAt_flatMap (by rw [Vector.length_toList]; exact hi), Vector.getElem_toList]
  have hmtime : ∀ i (hi : i < 2), wordAt inode.toBytes (28 + 2 * i) = inode.mtime[i] := by
    intro i hi
    have hlen' : (inode.atime.toList.flatMap wordBytes).length = 4 := by
      rw [length_flatMap_wordBytes, Vector.length_toList]
    have hpos : 28 + 2 * i = inode.headBytes.length + ((inode.addr.toList.flatMap wordBytes).length +
        ((inode.atime.toList.flatMap wordBytes).length + 2 * i)) := by
      rw [hlen, hlen', ← Nat.add_assoc, ← Nat.add_assoc]
      rfl
    rw [hpos, Inode.toBytes, wordAt_append_right, wordAt_append_right, wordAt_append_right,
      wordAt_flatMap (by rw [Vector.length_toList]; exact hi), Vector.getElem_toList]
  have hvector : ∀ {n : Nat} {f : Fin n → BitVec 16} {v : Vector (BitVec 16) n},
      (∀ i (hi : i < n), f ⟨i, hi⟩ = v[i]) → Vector.ofFn f = v := by
    intro n f v h
    refine Vector.ext ?_
    intro i hi
    rw [Vector.getElem_ofFn, h i hi]
  rw [Inode.ofBytes, hmode, hsize1, hvector fun i hi => haddr i hi, hvector fun i hi => hatime i hi,
    hvector fun i hi => hmtime i hi]
  rfl

/-- Single bytes of a list. -/
theorem four_getD {bytes : List Byte} {i : Nat} (h : i + 4 ≤ bytes.length) :
    [bytes.getD i 0, bytes.getD (i + 1) 0, bytes.getD (i + 2) 0, bytes.getD (i + 3) 0] =
      (bytes.drop i).take 4 := by
  rw [List.drop_eq_getElem_cons (by omega), List.drop_eq_getElem_cons (by omega),
    List.drop_eq_getElem_cons (by omega), List.drop_eq_getElem_cons (by omega)]
  simp only [List.take_succ_cons, List.take_zero]
  rw [List.getD_eq_getElem _ _ (by omega), List.getD_eq_getElem _ _ (by omega),
    List.getD_eq_getElem _ _ (by omega), List.getD_eq_getElem _ _ (by omega)]

/-- **Every 32 bytes are an inode.** -/
theorem Inode.toBytes_ofBytes {bytes : List Byte} (h : bytes.length = sizeofInode) :
    (Inode.ofBytes bytes).toBytes = bytes := by
  rw [sizeofInode] at h
  have hhead : (Inode.ofBytes bytes).headBytes = bytes.take 8 := by
    have hmode : wordBytes (wordAt bytes 0) = bytes.take 2 := wordBytes_wordAt (by omega)
    have hfour := four_getD (show 2 + 4 ≤ bytes.length by omega)
    show wordBytes (wordAt bytes 0) ++ ([bytes.getD 2 0, bytes.getD (2 + 1) 0, bytes.getD (2 + 2) 0,
      bytes.getD (2 + 3) 0] ++ wordBytes (wordAt bytes 6)) = bytes.take (2 + (4 + 2))
    rw [hmode, hfour, wordBytes_wordAt (by omega), List.take_add, List.take_add, List.drop_drop]
  have haddr : (Inode.ofBytes bytes).addr.toList.flatMap wordBytes = (bytes.drop 8).take 16 :=
    flatMap_wordAt 8 (by omega)
  have hatime : (Inode.ofBytes bytes).atime.toList.flatMap wordBytes = (bytes.drop 24).take 4 :=
    flatMap_wordAt 2 (by omega)
  have hmtime : (Inode.ofBytes bytes).mtime.toList.flatMap wordBytes = bytes.drop 28 :=
    (flatMap_wordAt 2 (by omega)).trans (List.take_of_length_le (by rw [List.length_drop]; omega))
  have hall : bytes.take 8 ++ ((bytes.drop 8).take 16 ++ ((bytes.drop 24).take 4 ++ bytes.drop 28)) =
      bytes := by
    have h24 : bytes.drop 28 = (bytes.drop 24).drop 4 := by rw [List.drop_drop]
    have h8 : bytes.drop 24 = (bytes.drop 8).drop 16 := by rw [List.drop_drop]
    rw [h24, List.take_append_drop, h8, List.take_append_drop, List.take_append_drop]
  rw [Inode.toBytes, hhead, haddr, hatime, hmtime, hall]

/-! ## Entries -/

@[simp] theorem Direntv6.length_toBytes (entry : Direntv6) : entry.toBytes.length = sizeofDirentv6 := by
  simp [Direntv6.toBytes, sizeofDirentv6]

theorem Direntv6.ofBytes_toBytes (entry : Direntv6) : Direntv6.ofBytes entry.toBytes = entry := by
  have hnumber : wordAt entry.toBytes 0 = entry.dInumber := wordAt_wordBytes _ _
  have hname : (Vector.ofFn fun i : Fin 14 => entry.toBytes.getD (2 + i) 0) = entry.dName := by
    refine Vector.ext ?_
    intro i hi
    have hpos : 2 + i = i + 1 + 1 := by omega
    rw [Vector.getElem_ofFn, hpos, Direntv6.toBytes, List.getD_cons_succ, List.getD_cons_succ,
      List.getD_eq_getElem _ _ (by rw [Vector.length_toList]; exact hi), Vector.getElem_toList]
  rw [Direntv6.ofBytes, hnumber, hname]

theorem Direntv6.toBytes_ofBytes {bytes : List Byte} (h : bytes.length = sizeofDirentv6) :
    (Direntv6.ofBytes bytes).toBytes = bytes := by
  rw [sizeofDirentv6] at h
  have hname : (Vector.ofFn fun i : Fin 14 => bytes.getD (2 + i) 0).toList = bytes.drop 2 := by
    refine List.ext_getElem (by rw [Vector.length_toList, List.length_drop, h]) ?_
    intro i hi _
    rw [Vector.length_toList] at hi
    rw [Vector.getElem_toList, Vector.getElem_ofFn, List.getElem_drop,
      List.getD_eq_getElem _ _ (by omega)]
  show wordBytes (wordAt bytes 0) ++ (Vector.ofFn fun i : Fin 14 => bytes.getD (2 + i) 0).toList = bytes
  rw [hname, wordBytes_wordAt (by omega), List.drop_zero, List.take_append_drop]

/-! ## Sectors of records -/

/-- A buffer of 16 inodes. -/
def inodeBuffer (inodes : Vector Inode 16) : Sector where
  bytes := inodes.toList.flatMap Inode.toBytes
  length_bytes := by
    rw [length_flatMap_blocks Inode.length_toBytes, Vector.length_toList]
    rfl

/-- A buffer of 32 entries. -/
def direntBuffer (entries : Vector Direntv6 32) : Sector where
  bytes := entries.toList.flatMap Direntv6.toBytes
  length_bytes := by
    rw [length_flatMap_blocks Direntv6.length_toBytes, Vector.length_toList]
    rfl

/-- **The entries of a buffer** are those it was filled with. -/
theorem direntsOf_direntBuffer (entries : Vector Direntv6 32) :
    direntsOf (direntBuffer entries).bytes = entries.toList := by
  have hlen : entries.toList.length = 32 := Vector.length_toList
  refine List.ext_getElem (by rw [length_direntsOf, hlen]; rfl) ?_
  intro i _ hi
  simp only [direntsOf, List.getElem_map, getElem_records, direntBuffer]
  rw [block_flatMap Direntv6.length_toBytes hi, Direntv6.ofBytes_toBytes]

section

variable {a : SectorArray} {fd : Descriptor} (hholds : Holds a fd) (hw : a.readOnly = false)
  (calls : List DiskCall)
include hholds hw

/-- **Inodes that are written are found.**  After any calls on an image, `inodeIget` finds in a
sector of the inode area the inodes that were written there last, and in the others what it has
found before. -/
theorem inodeIget_written (sIsize : BitVec 16) {n : Nat} (hpos : 0 < n) (hn : n < 2 ^ 16)
    (hin : SectorInside fd.bytes (inodeSector n)) (junk : Junk) :
    (∀ inodes, lastWritten (inodeSector n) calls = some (inodeBuffer inodes) →
      inodeIget ⟨(runCalls diskCall calls fd).2.bytes, sIsize⟩ junk n =
        if (inodes.get ⟨inodeSlot n, inodeSlot_lt n⟩).mode &&& ialloc = 0 then
          .error (.minusOne ["Error: Inode " ++ toString (n : Int) ++ " is not allocated.\n"])
        else .ok (inodes.get ⟨inodeSlot n, inodeSlot_lt n⟩)) ∧
    (lastWritten (inodeSector n) calls = none →
      inodeIget ⟨(runCalls diskCall calls fd).2.bytes, sIsize⟩ junk n =
        inodeIget ⟨fd.bytes, sIsize⟩ junk n) := by
  have hle : n ≤ 2 ^ 20 := by omega
  have hafter := storedAt_inodeOf hpos hle (sectorInside_after hholds hw calls hin)
  refine ⟨?_, ?_⟩
  · intro inodes hlast
    have hslot : inodeSlot n < inodes.toList.length := by
      rw [Vector.length_toList]
      exact inodeSlot_lt n
    have hinode : inodeOf (runCalls diskCall calls fd).2.bytes n =
        inodes.get ⟨inodeSlot n, inodeSlot_lt n⟩ := by
      rw [inodeOf_eq hpos, sectorBytes_after hholds hw calls hin, bytesAfter, hlast]
      simp only [Option.map_some, Option.getD_some, inodeBuffer]
      rw [block_flatMap Inode.length_toBytes hslot, Inode.ofBytes_toBytes, Vector.getElem_toList]
      rfl
    rw [inodeIget_stored hafter, hinode]
  · intro hlast
    have hsame := sameSector_after hholds hw calls hin hlast
    rw [inodeIget_stored hafter, inodeOf_same hpos hsame, inodeIget_stored (storedAt_inodeOf hpos hle hin)]

/-- **Entries that are written are looked up.**  After any calls that write to every block of a
directory, and neither to its inode nor on the way to its blocks, a name is looked up among the
entries that were written there last, in their order. -/
theorem directoryFindname_written (sIsize : BitVec 16) {n : Nat} (hn : n < 2 ^ 16) {inode : Inode}
    (ha : AllocatedAt fd.bytes n inode) (hr : Readable fd.bytes inode)
    (hdir : inode.mode &&& ifdir ≠ 0) (hinode : lastWritten (inodeSector n) calls = none)
    (hindirect : ∀ p ∈ fileBlocks fd.bytes inode, ∀ k ∈ p.indirect, lastWritten k calls = none)
    {written : Nat → Vector Direntv6 32}
    (hwritten : ∀ b p, (fileBlocks fd.bytes inode)[b]? = some p →
      lastWritten p.sector calls = some (direntBuffer (written b)))
    {name : List Byte} (hname : EntryName name) (junk : Junk) :
    directoryFindname ⟨(runCalls diskCall calls fd).2.bytes, sIsize⟩ junk name n =
      orMinusOne (((List.range (blockCount (inodeGetsize inode))).flatMap
        fun b => (written b).toList).find? fun e => decide (e.name = name)) := by
  have hle : n ≤ 2 ^ 20 := by omega
  have hsector := sameSector_after hholds hw calls (inodeSector_inside hholds hn ha) hinode
  have hafter := ha.same hle hsector
  have hreadable := readable_after hholds hw calls hr hindirect
  have hsectors : fileSectors (runCalls diskCall calls fd).2.bytes inode =
      (List.range (blockCount (inodeGetsize inode))).map fun b => (direntBuffer (written b)).bytes := by
    refine List.ext_getElem? ?_
    intro b
    rw [fileSectors, fileBlocks_after hholds hw calls hr hindirect, List.getElem?_map,
      List.getElem?_map]
    cases hp : (fileBlocks fd.bytes inode)[b]? with
    | some p =>
      have hin : SectorInside fd.bytes p.sector :=
        hr.inside p (List.mem_of_getElem? hp) _ (by simp [BlockPath.sectors])
      rw [List.getElem?_range (blockMap_of_fileBlocks hp).1, Option.map_some, Option.map_some,
        sectorBytes_after hholds hw calls hin, bytesAfter, hwritten b p hp]
      rfl
    | none =>
      rw [List.getElem?_eq_none_iff, length_fileBlocks hr] at hp
      rw [List.getElem?_eq_none (by rwa [List.length_range])]
      rfl
  have hslots : dirSlots (runCalls diskCall calls fd).2.bytes inode =
      (List.range (blockCount (inodeGetsize inode))).flatMap fun b => (written b).toList := by
    rw [dirSlots, hsectors, List.flatMap_map]
    exact List.flatMap_congr fun b _ => direntsOf_direntBuffer (written b)
  rw [← hslots]
  exact directoryFindname_eq hafter hreadable hdir hname junk

end

/-! ## Records are written -/

/-- Sixteen empty files. -/
def emptyInodes : Vector Inode 16 := Vector.replicate 16 (plainInode 0x8000 0 0)

/-- An entry `b` of inode 2, and so on. -/
def bEntries : Vector Direntv6 32 :=
  Vector.replicate 32 ⟨2, #v[0x62, 0, 0, 0, 0, 0, 0, 0, 0, 0, 0, 0, 0, 0]⟩

theorem emptyInodes_written : inodeIget
    ⟨(runCalls diskCall [.writesector 2 (inodeBuffer emptyInodes)] homeDescriptor).2.bytes, 1⟩
      zeroJunk 5 = .ok (plainInode 0x8000 0 0) := by
  have hfound := (inodeIget_written homeArray_holds rfl [.writesector 2 (inodeBuffer emptyInodes)] 1
    (show 0 < 5 by decide) (by decide) (home_sector (by decide)) zeroJunk).1 emptyInodes rfl
  have hslot : emptyInodes.get ⟨inodeSlot (5 : Nat), inodeSlot_lt _⟩ = plainInode 0x8000 0 0 := by decide
  rw [hslot] at hfound
  exact hfound

theorem bEntries_written : directoryFindname
    ⟨(runCalls diskCall [.writesector 3 (direntBuffer bEntries)] homeDescriptor).2.bytes, 1⟩
      zeroJunk [0x62] 1 = .ok ⟨2, #v[0x62, 0, 0, 0, 0, 0, 0, 0, 0, 0, 0, 0, 0, 0]⟩ := by
  have ha := home_allocated .root
  have hr := home_readable .root
  have hblocks : fileBlocks homeDescriptor.bytes (homeInode .root) = [⟨[], 3⟩] := by
    have h := home_blocks .root
    rw [home_inodes] at h
    exact h
  rw [home_inodes] at ha hr
  have hindirect : ∀ p ∈ fileBlocks homeDescriptor.bytes (homeInode .root), ∀ k ∈ p.indirect,
      lastWritten k [.writesector 3 (direntBuffer bEntries)] = none := by
    intro p hp k hk
    rw [hblocks, List.mem_singleton] at hp
    exact absurd (hp ▸ hk) List.not_mem_nil
  have hwritten : ∀ (b : Nat) (p : BlockPath),
      (fileBlocks homeDescriptor.bytes (homeInode .root))[b]? = some p →
      lastWritten p.sector [.writesector 3 (direntBuffer bEntries)] = some (direntBuffer bEntries) := by
    intro b p hp
    have hmem := List.mem_of_getElem? hp
    rw [hblocks, List.mem_singleton] at hmem
    rw [hmem]
    rfl
  have hfound := directoryFindname_written homeArray_holds rfl
    [.writesector 3 (direntBuffer bEntries)] 1 (show 1 < 2 ^ 16 by decide) ha hr (by decide) rfl
    hindirect hwritten (show EntryName [0x62] from ⟨by decide, by decide, by decide⟩) zeroJunk
  have hfirst : (((List.range (blockCount (inodeGetsize (homeInode .root)))).flatMap
      fun _ => bEntries.toList).find? fun e => decide (e.name = [0x62])) =
        some ⟨2, #v[0x62, 0, 0, 0, 0, 0, 0, 0, 0, 0, 0, 0, 0, 0]⟩ := by
    rw [homeInode, inodeGetsize_plainInode]
    decide
  rw [hfirst] at hfound
  exact hfound

end Acso.FileSystem
