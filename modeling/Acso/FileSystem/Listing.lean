import Mathlib.Data.List.TakeWhile
import Acso.FileSystem.Directory
import Acso.FileSystem.FileReading

/-!
# Lookup and listing

`dirEntries` are the entries of a directory, `dirSlots` all entries of its
sectors, those behind its size included.  `getDirEntries` lists the former
(`getDirEntries_eq`), `directoryFindname` searches the latter
(`directoryFindname_eq`).  So the lookup can find a name that no listing shows:
one that an entry behind the size still carries.
-/

namespace Acso.FileSystem

open Acso.Lib

/-! ## Names -/

def Direntv6.name (entry : Direntv6) : List Byte := cstring entry.dName.toList

theorem cstring_of_headD_eq {l : List Byte} (h : l.headD 0 = 0) : cstring l = [] := by
  cases l with
  | nil => rfl
  | cons c l =>
    obtain rfl : c = 0 := h
    rfl

theorem cstring_of_headD_ne {l : List Byte} (h : l.headD 0 ≠ 0) :
    cstring l = l.headD 0 :: cstring l.tail := by
  cases l with
  | nil => exact absurd rfl h
  | cons c l =>
    exact List.takeWhile_cons_of_pos (decide_eq_true h)

theorem length_cstring_le (l : List Byte) : (cstring l).length ≤ l.length :=
  (List.takeWhile_sublist _).length_le

theorem cstring_eq_self {l : List Byte} (h : (0 : Byte) ∉ l) : cstring l = l := by
  refine List.takeWhile_eq_self_iff.mpr ?_
  intro c hc
  rw [decide_eq_true_eq]
  rintro rfl
  exact h hc

/-- `strncmp` compares the first `n` characters of the strings. -/
theorem strncmp_eq_zero_iff (a b : List Byte) (n : Nat) :
    strncmp a b n = 0 ↔ (cstring a).take n = (cstring b).take n := by
  induction n generalizing a b with
  | zero => simp [strncmp]
  | succ n ih =>
    rw [strncmp]
    by_cases hne : a.headD 0 = b.headD 0
    · by_cases hz : a.headD 0 = 0
      · simp only [hne, ne_eq, not_true, if_false, hne ▸ hz, if_true]
        rw [cstring_of_headD_eq hz, cstring_of_headD_eq (hne ▸ hz)]
        exact iff_of_true trivial rfl
      · have hz' : b.headD 0 ≠ 0 := hne ▸ hz
        simp only [hne, ne_eq, not_true, if_false, hz']
        rw [ih, cstring_of_headD_ne hz, cstring_of_headD_ne hz', List.take_succ_cons,
          List.take_succ_cons, hne, List.cons_inj_right]
    · have hdiff : ((a.headD 0).toNat : Int) - (b.headD 0).toNat ≠ 0 := by
        intro h
        exact hne (BitVec.eq_of_toNat_eq (by omega))
      simp only [ne_eq, hne, not_false_iff, if_true, hdiff, false_iff]
      intro h
      by_cases hz : a.headD 0 = 0
      · have hz' : b.headD 0 ≠ 0 := fun h' => hne (hz.trans h'.symm)
        rw [cstring_of_headD_eq hz, cstring_of_headD_ne hz'] at h
        cases h
      · by_cases hz' : b.headD 0 = 0
        · rw [cstring_of_headD_ne hz, cstring_of_headD_eq hz'] at h
          cases h
        · rw [cstring_of_headD_ne hz, cstring_of_headD_ne hz', List.take_succ_cons,
            List.take_succ_cons] at h
          exact hne (List.cons.inj h).1

/-- A name that fits a directory entry. -/
structure EntryName (name : List Byte) : Prop where
  pos : 1 ≤ name.length
  le : name.length ≤ 14
  noNul : (0 : Byte) ∉ name

/-- **The comparison of the code** is that of the names. -/
theorem Direntv6.carries_iff {name : List Byte} (h : EntryName name) (entry : Direntv6) :
    entry.Carries name ↔ entry.name = name := by
  have hlen : (cstring entry.dName.toList).length ≤ 14 :=
    (length_cstring_le _).trans (Nat.le_of_eq (Vector.length_toList))
  rw [Direntv6.Carries, strncmp_eq_zero_iff, cstring_eq_self h.noNul, List.take_of_length_le h.le,
    List.take_of_length_le hlen, Direntv6.name, eq_comm]

/-! ## Entries and slots -/

/-- The entries of a directory: as many as its size holds. -/
def dirEntries (disk : List Byte) (inode : Inode) : List Direntv6 :=
  (records sizeofDirentv6 (inodeGetsize inode / sizeofDirentv6) (fileBytes disk inode)).map
    Direntv6.ofBytes

/-- All entries of the sectors of a directory. -/
def dirSlots (disk : List Byte) (inode : Inode) : List Direntv6 :=
  (fileSectors disk inode).flatMap direntsOf

/-- The entries behind the size, in the unused tail of the last sector. -/
def staleSlots (disk : List Byte) (inode : Inode) : List Direntv6 :=
  (dirSlots disk inode).drop (inodeGetsize inode / sizeofDirentv6)

@[simp] theorem length_direntsOf (bytes : List Byte) :
    (direntsOf bytes).length = sectorDirEntCount := by simp [direntsOf]

/-- **The first slots are the entries.** -/
theorem take_dirSlots {disk : List Byte} {inode : Inode} (hr : Readable disk inode) :
    (dirSlots disk inode).take (inodeGetsize inode / sizeofDirentv6) = dirEntries disk inode := by
  have hslots : dirSlots disk inode = (records sizeofDirentv6
      (sectorDirEntCount * (fileSectors disk inode).length) (fileSectors disk inode).flatten).map
        Direntv6.ofBytes := by
    rw [records_flatten (c := sizeofDirentv6) (m := sectorDirEntCount)
      (length_of_mem_fileSectors hr), List.map_flatMap]
    rfl
  have hle : inodeGetsize inode / sizeofDirentv6 ≤
      sectorDirEntCount * (fileSectors disk inode).length := by
    rw [length_fileSectors hr, blockCount, sectorDirEntCount, sizeofDirentv6, diskimgSectorSize]
    omega
  rw [hslots, ← List.map_take, take_records _ hle, dirEntries, fileBytes,
    records_take (Nat.mul_div_le _ _)]

theorem dirSlots_eq {disk : List Byte} {inode : Inode} (hr : Readable disk inode) :
    dirSlots disk inode = dirEntries disk inode ++ staleSlots disk inode := by
  rw [← take_dirSlots hr, staleSlots, List.take_append_drop]

/-! ## Listing -/

/-- The inner loop copies a block, until the array is full. -/
theorem copyEntries_eq {max : Nat} (block : List Direntv6) {entries : List Direntv6}
    (h : entries.length < max) :
    copyEntries max block entries =
      ((entries ++ block).take max, decide (max ≤ (entries ++ block).length)) := by
  induction block generalizing entries with
  | nil =>
    rw [copyEntries, List.append_nil, List.take_of_length_le h.le, decide_eq_false (by omega)]
  | cons e block ih =>
    have hsplit : entries ++ e :: block = entries ++ [e] ++ block := by simp
    have hlen : (entries ++ [e]).length = entries.length + 1 := by simp
    rw [copyEntries, hsplit]
    by_cases hfull : max ≤ (entries ++ [e]).length
    · have htake : (entries ++ [e] ++ block).take max = entries ++ [e] := by
        rw [List.take_append_of_le_length hfull, List.take_of_length_le (by omega)]
      have hle : max ≤ (entries ++ [e] ++ block).length := by
        rw [List.length_append]
        omega
      rw [if_pos (Int.ofNat_le.mpr hfull), htake, decide_eq_true hle]
    · have hroom : ¬ ((entries ++ [e]).length : Int) ≥ max := by omega
      rw [if_neg hroom, ih (by omega)]

section reading

variable {fs : UnixFilesystem} {inumber : Int} {inode : Inode}

theorem fileSectors_eq_some {disk : List Byte} {b : Nat} {bytes : List Byte}
    (h : (fileSectors disk inode)[b]? = some bytes) :
    ∃ p, (fileBlocks disk inode)[b]? = some p ∧ sectorBytes disk p.sector = bytes := by
  rw [fileSectors, List.getElem?_map, Option.map_eq_some_iff] at h
  exact h

/-- The valid entries of a block are those before the size. -/
theorem take_validCount {block : List Direntv6} (hblock : block.length = sectorDirEntCount)
    (inode : Inode) (i : Nat) : block.take (validCount inode i / sizeofDirentv6) =
      block.take (inodeGetsize inode / sizeofDirentv6 - sectorDirEntCount * i) := by
  rw [List.take_eq_take_iff, hblock, validCount, sectorDirEntCount, sizeofDirentv6,
    diskimgSectorSize]
  omega

/-- A block with another one behind it is full. -/
theorem sectorDirEntCount_le_left {inode : Inode} {i : Nat}
    (h : i + 1 < blockCount (inodeGetsize inode)) :
    sectorDirEntCount ≤ inodeGetsize inode / sizeofDirentv6 - sectorDirEntCount * i := by
  have hlt := lt_blockCount_iff.mp h
  rw [diskimgSectorSize] at hlt
  rw [sectorDirEntCount, sizeofDirentv6, diskimgSectorSize]
  omega

/-- The outer loop, from block `i` on: it adds the entries that are left, until the array is
full. -/
theorem getDirEntriesLoop_eq (ha : AllocatedAt fs.disk inumber inode) (hr : Readable fs.disk inode)
    (junk : Junk) {max : Nat} (k i : Nat) (hk : i + k = (fileSectors fs.disk inode).length)
    (dir : Sector) (entries : List Direntv6)
    (hlen : 0 < k → entries.length = sectorDirEntCount * i) (hfree : entries.length < max) :
    getDirEntriesLoop fs junk inumber max (List.range' i k) dir entries =
      .ok ((entries ++ (((fileSectors fs.disk inode).drop i).flatMap direntsOf).take
        (inodeGetsize inode / sizeofDirentv6 - sectorDirEntCount * i)).take max) := by
  induction k generalizing i dir entries with
  | zero =>
    rw [List.drop_eq_nil_of_le (by omega), List.flatMap_nil, List.take_nil, List.append_nil,
      List.take_of_length_le hfree.le]
    rfl
  | succ k ih =>
    have hi : i < (fileSectors fs.disk inode).length := by omega
    have hcount := length_fileSectors hr
    have hsize := lt_blockCount_iff.mp (hcount ▸ hi)
    have hentries := hlen (Nat.succ_pos k)
    obtain ⟨p, hp, hbytes⟩ := fileSectors_eq_some (List.getElem?_eq_getElem hi)
    obtain ⟨dir', hdir', hget⟩ := fileGetblock_block ha hr hp (junk.sub i) dir
    rw [List.range'_succ, getDirEntriesLoop, hget]
    dsimp only
    rw [Int.toNat_natCast, hdir', hbytes, List.drop_eq_getElem_cons hi, List.flatMap_cons]
    generalize hblock : direntsOf ((fileSectors fs.disk inode)[i]) = block
    have hblocklen : block.length = sectorDirEntCount := by rw [← hblock, length_direntsOf]
    rw [take_validCount hblocklen]
    generalize hleft : inodeGetsize inode / sizeofDirentv6 - sectorDirEntCount * i = left
    have hnext : inodeGetsize inode / sizeofDirentv6 - sectorDirEntCount * (i + 1) =
        left - sectorDirEntCount := by
      rw [← hleft, Nat.mul_succ]
      omega
    have hcut : ∀ more : List Direntv6,
        (block ++ more).take left = block.take left ++ more.take (left - sectorDirEntCount) := by
      intro more
      rw [List.take_append, hblocklen]
    rw [copyEntries_eq (block.take left) hfree, hcut, ← List.append_assoc]
    by_cases hfull : max ≤ (entries ++ block.take left).length
    · -- the array is full, so nothing more is added
      rw [decide_eq_true hfull, List.take_append_of_le_length hfull]
    · rw [decide_eq_false hfull]
      dsimp only
      rw [List.take_of_length_le (by omega),
        ih (i + 1) (by omega) dir' (entries ++ block.take left) ?_ (by omega), hnext]
      intro hpos
      have hall := sectorDirEntCount_le_left (show i + 1 < blockCount (inodeGetsize inode) by omega)
      rw [hleft] at hall
      rw [List.length_append, List.length_take, hblocklen, hentries, Nat.min_eq_right hall,
        Nat.mul_succ]

theorem ifdir_ne_zero {mode : BitVec 16} (h : mode &&& ifmt = ifdir) : mode &&& ifdir ≠ 0 := by
  have hsub : ifdir = ifmt &&& ifdir := by decide
  rw [hsub, ← BitVec.and_assoc, h]
  decide

/-- **Listing a directory** gives its entries, as many as the array has room for. -/
theorem getDirEntries_take (ha : AllocatedAt fs.disk inumber inode) (hr : Readable fs.disk inode)
    (hdir : inode.mode &&& ifmt = ifdir) (hsize : inodeGetsize inode % sizeofDirentv6 = 0)
    (junk : Junk) {max : Nat} (hpos : 1 ≤ max) :
    getDirEntries fs junk inumber max = .ok ((dirEntries fs.disk inode).take max) := by
  have hmode : ¬ (inode.mode &&& ialloc = 0 ∨ inode.mode &&& ifmt ≠ ifdir) := by
    rintro (h | h)
    · exact ha.alloc h
    · exact h hdir
  have hempty : ([] : List Direntv6).length < max := hpos
  have hloop := getDirEntriesLoop_eq ha hr (junk.sub 1) (blockCount (inodeGetsize inode)) 0
    (by rw [length_fileSectors hr, Nat.zero_add]) (junk.sub 2).here [] (fun _ => rfl) hempty
  rw [← List.range_eq_range', List.drop_zero, List.nil_append, Nat.mul_zero, Nat.sub_zero,
    ← dirSlots, take_dirSlots hr] at hloop
  have hroom : ¬ (max : Int) < 1 := by omega
  rw [getDirEntries, inodeIget_allocated ha, ok_bind, if_neg hmode, if_neg hroom]
  dsimp only
  rw [if_neg (not_not_intro hsize), hloop]

theorem length_dirEntries (disk : List Byte) (inode : Inode) :
    (dirEntries disk inode).length = inodeGetsize inode / sizeofDirentv6 := by
  rw [dirEntries, List.length_map, length_records]

/-- The whole directory, if the array has room for it. -/
theorem getDirEntries_eq (ha : AllocatedAt fs.disk inumber inode) (hr : Readable fs.disk inode)
    (hdir : inode.mode &&& ifmt = ifdir) (hsize : inodeGetsize inode % sizeofDirentv6 = 0)
    (junk : Junk) {maxNumEntries : Int} (hpos : 1 ≤ maxNumEntries)
    (hmax : ((inodeGetsize inode / sizeofDirentv6 : Nat) : Int) ≤ maxNumEntries) :
    getDirEntries fs junk inumber maxNumEntries = .ok (dirEntries fs.disk inode) := by
  obtain ⟨max, rfl⟩ := Int.eq_ofNat_of_zero_le (show 0 ≤ maxNumEntries by omega)
  have hall : (dirEntries fs.disk inode).length ≤ max := by
    rw [length_dirEntries]
    omega
  rw [getDirEntries_take ha hr hdir hsize junk (by omega), List.take_of_length_le hall]

/-! ## Looking up -/

/-- The loop from block `i` on searches the slots of the blocks from `i` on. -/
theorem findnameLoop_eq (hr : Readable fs.disk inode) (junk : Junk) {name : List Byte}
    (hname : EntryName name) (k i : Nat) (hk : i + k = (fileSectors fs.disk inode).length)
    (buf : Sector) :
    findnameLoop fs junk name inode (List.range' i k) buf =
      orMinusOne ((((fileSectors fs.disk inode).drop i).flatMap direntsOf).find?
        fun e => decide (e.name = name)) := by
  induction k generalizing i buf with
  | zero =>
    rw [List.drop_eq_nil_of_le (by omega)]
    rfl
  | succ k ih =>
    have hi : i < (fileSectors fs.disk inode).length := by omega
    obtain ⟨p, hp, hbytes⟩ := fileSectors_eq_some (List.getElem?_eq_getElem hi)
    obtain ⟨hlookup, buf', hbuf', hread⟩ := readBlock hr hp (junk.sub i) buf
    have hall : (direntsOf ((fileSectors fs.disk inode)[i])).take
        (diskimgSectorSize / sizeofDirentv6) = direntsOf ((fileSectors fs.disk inode)[i]) :=
      List.take_of_length_le (Nat.le_of_eq (length_direntsOf _))
    have hcarries : (fun e : Direntv6 => decide (e.Carries name)) =
        fun e => decide (e.name = name) :=
      funext fun e => decide_eq_decide.mpr (Direntv6.carries_iff hname e)
    rw [List.range'_succ, List.drop_eq_getElem_cons hi, List.flatMap_cons, List.find?_append,
      findnameLoop, hlookup, ok_bind, hread, ok_bind]
    dsimp only
    rw [hbuf', hbytes, hall, hcarries]
    cases (direntsOf ((fileSectors fs.disk inode)[i])).find? fun e => decide (e.name = name) with
    | some e => rfl
    | none =>
      rw [Option.none_or]
      exact ih (i + 1) (by omega) buf'

/-- **Looking a name up** searches all slots. -/
theorem directoryFindname_eq (ha : AllocatedAt fs.disk inumber inode) (hr : Readable fs.disk inode)
    (hdir : inode.mode &&& ifdir ≠ 0) {name : List Byte} (hname : EntryName name) (junk : Junk) :
    directoryFindname fs junk name inumber =
      orMinusOne ((dirSlots fs.disk inode).find? fun e => decide (e.name = name)) := by
  have hloop := findnameLoop_eq hr (junk.sub 1) hname (blockCount (inodeGetsize inode)) 0
    (by rw [length_fileSectors hr, Nat.zero_add]) (junk.sub 2).here
  rw [← List.range_eq_range', List.drop_zero] at hloop
  rw [directoryFindname, inodeIget_allocated ha, ok_bind, if_neg hdir]
  exact hloop

end reading

/-! ## Agreement -/

/-- The outcome of a lookup is what the listing says: it succeeds exactly if a
listed entry has the name, with the first such entry. -/
def AgreesWith (result : Result Direntv6) (listed : List Direntv6) (name : List Byte) : Prop :=
  ((∃ e, result = .ok e) ↔ ∃ e ∈ listed, e.name = name) ∧
    ∀ e, result = .ok e → listed.find? (fun e => decide (e.name = name)) = some e

theorem orMinusOne_eq_ok {α : Type} {o : Option α} {a : α} : orMinusOne o = .ok a ↔ o = some a := by
  cases o with
  | none => exact iff_of_false (fun h => nomatch h) (fun h => nomatch h)
  | some b => rw [orMinusOne, Except.ok.injEq, Option.some.injEq]

/-- Searching entries and then stale slots gives the first entry, unless only a
stale slot matches. -/
theorem agreesWith_find?_append (listed stale : List Direntv6) (name : List Byte) :
    AgreesWith (orMinusOne ((listed ++ stale).find? fun e => decide (e.name = name))) listed name ↔
      ¬ ((∀ e ∈ listed, e.name ≠ name) ∧ ∃ e ∈ stale, e.name = name) := by
  simp only [AgreesWith, orMinusOne_eq_ok, List.find?_append]
  cases hfind : listed.find? fun e => decide (e.name = name) with
  | some e =>
    have he : ∃ e ∈ listed, e.name = name :=
      ⟨e, List.mem_of_find?_eq_some hfind, by simpa using List.find?_some hfind⟩
    refine iff_of_true ⟨iff_of_true ⟨e, rfl⟩ he, fun e' he' => he'⟩ ?_
    rintro ⟨hno, -⟩
    obtain ⟨e', hmem, hname⟩ := he
    exact hno e' hmem hname
  | none =>
    have hno : ∀ e ∈ listed, e.name ≠ name := by simpa using hfind
    have hstale : (∃ e, stale.find? (fun e => decide (e.name = name)) = some e) ↔
        ∃ e ∈ stale, e.name = name := by
      rw [← Option.isSome_iff_exists, List.find?_isSome]
      simp
    rw [Option.none_or, hstale]
    constructor
    · rintro ⟨hiff, -⟩ ⟨-, hex⟩
      obtain ⟨e, hmem, hname⟩ := hiff.mp hex
      exact hno e hmem hname
    · intro hnot
      have hnone : ¬ ∃ e ∈ stale, e.name = name := fun hex => hnot ⟨hno, hex⟩
      refine ⟨iff_of_false hnone ?_, ?_⟩
      · rintro ⟨e, hmem, hname⟩
        exact hno e hmem hname
      · intro e he
        exact absurd (hstale.mp ⟨e, he⟩) hnone

/-- **Lookup and listing.**  The listing of a directory is its entries, and the
lookup of a name agrees with it if and only if the name is that of an entry or
of no slot behind the size. -/
theorem findname_agrees_iff (fs : UnixFilesystem) (inumber : Int) (inode : Inode)
    (ha : AllocatedAt fs.disk inumber inode) (hr : Readable fs.disk inode)
    (hdir : inode.mode &&& ifmt = ifdir) (hsize : inodeGetsize inode % sizeofDirentv6 = 0)
    (name : List Byte) (hname : EntryName name) (junk : Junk) :
    (∀ maxNumEntries : Int, 1 ≤ maxNumEntries →
      ((inodeGetsize inode / sizeofDirentv6 : Nat) : Int) ≤ maxNumEntries →
      getDirEntries fs junk inumber maxNumEntries = .ok (dirEntries fs.disk inode)) ∧
    (AgreesWith (directoryFindname fs junk name inumber) (dirEntries fs.disk inode) name ↔
      ¬ ((∀ e ∈ dirEntries fs.disk inode, e.name ≠ name) ∧
        ∃ e ∈ staleSlots fs.disk inode, e.name = name)) := by
  refine ⟨?_, ?_⟩
  · intro maxNumEntries hpos hmax
    exact getDirEntries_eq ha hr hdir hsize junk hpos hmax
  · rw [directoryFindname_eq ha hr (ifdir_ne_zero hdir) hname, dirSlots_eq hr]
    exact agreesWith_find?_append _ _ _

/-! ## A directory with a stale slot -/

/-- The slots of a file in the data sector of an image. -/
theorem dirSlots_imageOf {mode size : BitVec 16} (inodes data : List Byte)
    (hsmall : mode &&& ilarg = 0) (hpos : 0 < size.toNat) (hle : size.toNat ≤ diskimgSectorSize) :
    dirSlots (imageOf inodes data) (plainInode mode size 3) = direntsOf (pad data) := by
  rw [dirSlots, fileSectors, fileBlocks_plainInode _ _ hsmall hpos hle]
  exact (List.flatMap_singleton direntsOf _).trans
    (congrArg direntsOf (sectorBytes_imageOf inodes data))

/-- Inode 1: a directory of one entry in sector 3. -/
def staleInodes : List Byte := [0x00, 0xc0, 0, 0, 0, 0, 0x10, 0x00, 0x03, 0x00]

/-- The entry `.`, and behind it an entry `a` that is no longer in use. -/
def staleData : List Byte :=
  [0x01, 0x00, 0x2e, 0, 0, 0, 0, 0, 0, 0, 0, 0, 0, 0, 0, 0] ++ [0x05, 0x00, 0x61]

def staleInode : Inode := inodeOf (imageOf staleInodes staleData) 1

theorem staleInode_eq : staleInode = plainInode 0xc000 16 3 := by
  rw [staleInode, inodeOf_imageOf _ _ (by decide) (by decide)]
  decide

theorem staleInode_allocated :
    AllocatedAt (imageFs staleInodes staleData).disk 1 staleInode := by
  have h := allocatedAt_imageOf (by decide) (by decide) staleInode_eq (by decide)
  rwa [← staleInode_eq] at h

theorem staleInode_readable : Readable (imageFs staleInodes staleData).disk staleInode := by
  rw [staleInode_eq]
  exact readable_imageOf (by decide) (by decide) (by decide)

theorem staleInode_dir : staleInode.mode &&& ifmt = ifdir ∧
    inodeGetsize staleInode % sizeofDirentv6 = 0 := by
  rw [staleInode_eq]
  decide

theorem staleInode_slots :
    dirSlots (imageFs staleInodes staleData).disk staleInode = direntsOf (pad staleData) := by
  rw [staleInode_eq]
  exact dirSlots_imageOf _ _ (by decide) (by decide) (by decide)

theorem staleInode_entries : inodeGetsize staleInode / sizeofDirentv6 = 1 := by
  rw [staleInode_eq]
  rfl

theorem staleDir_finds_dot :
    AgreesWith (directoryFindname (imageFs staleInodes staleData) zeroJunk [0x2e] 1)
      (dirEntries (imageFs staleInodes staleData).disk staleInode) [0x2e] := by
  refine (findname_agrees_iff _ 1 staleInode staleInode_allocated staleInode_readable
    staleInode_dir.1 staleInode_dir.2 [0x2e] ⟨by decide, by decide, by decide⟩ zeroJunk).2.mpr ?_
  rintro ⟨hno, -⟩
  rw [← take_dirSlots staleInode_readable, staleInode_slots, staleInode_entries] at hno
  revert hno
  decide

/-- The directory lists no `a`, but the lookup finds one. -/
theorem staleDir_disagrees :
    ¬ ∀ (junk : Junk) (disk : List Byte) (fs : UnixFilesystem),
      unixfilesystemInit junk disk = .ok fs → ∀ (inumber : Int) (inode : Inode),
      AllocatedAt fs.disk inumber inode → Readable fs.disk inode → inode.mode &&& ifmt = ifdir →
      inodeGetsize inode % sizeofDirentv6 = 0 → ∀ name, EntryName name →
        AgreesWith (directoryFindname fs junk name inumber) (dirEntries fs.disk inode) name := by
  intro h
  have hname : EntryName [0x61] := ⟨by decide, by decide, by decide⟩
  have hagree := h zeroJunk _ _ (unixfilesystemInit_imageOf staleInodes staleData zeroJunk) 1
    staleInode staleInode_allocated staleInode_readable staleInode_dir.1 staleInode_dir.2 [0x61] hname
  rw [directoryFindname_eq staleInode_allocated staleInode_readable
    (ifdir_ne_zero staleInode_dir.1) hname, dirSlots_eq staleInode_readable,
    agreesWith_find?_append, ← take_dirSlots staleInode_readable, staleSlots, staleInode_slots,
    staleInode_entries] at hagree
  revert hagree
  decide

end Acso.FileSystem
