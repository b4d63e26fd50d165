import Acso.FileSystem.Listing
import Acso.FileSystem.Pathname

/-!
# What a path resolves to

On any image, sound or not, `directoryFindname` returns the first slot that carries the
name among `slotsAt`, the slots that its reads find (`directoryFindname_slots`).  It looks
neither at `d_inumber` nor at the whole type of the inode.  So a path is resolved as if
the free slots were not there exactly if no free slot stands in front
(`resolvesLive_iff`), and a path goes on behind a file that is no directory exactly if
the file is block special and has a slot with the name (`lookup_behind_file_iff`).
-/

namespace Acso.FileSystem

open Acso.Lib

/-- A call that returns a negative number. -/
def Negative {α : Type} (result : Result α) : Prop := ∃ stderr, result = .error (.minusOne stderr)

/-! ## The slots a lookup searches -/

/-- The slots that the image has of a sector. -/
def sectorSlots (disk : List Byte) (k : Nat) : List Direntv6 :=
  (records sizeofDirentv6 ((sectorBytes disk k).length / sizeofDirentv6) (sectorBytes disk k)).map
    Direntv6.ofBytes

/-- The slots of the blocks of a directory, found through whatever its addresses say. -/
def scannedSlots (fs : UnixFilesystem) (junk : Junk) (dirInode : Inode) (blocks : List Nat) :
    List Direntv6 :=
  blocks.flatMap fun block =>
    match inodeIndexlookup fs (junk.sub block) dirInode block with
    | .ok dataBlock => sectorSlots fs.disk dataBlock
    | .error _ => []

/-- The slots that a lookup in inode `dirinumber` searches. -/
def slotsAt (fs : UnixFilesystem) (junk : Junk) (dirinumber : Nat) : List Direntv6 :=
  match inodeIget fs (junk.sub 0) dirinumber with
  | .ok dirInode =>
    if dirInode.mode &&& ifdir = 0 then []
    else
      scannedSlots fs (junk.sub 1) dirInode (List.range (blockCount (inodeGetsize dirInode)))
  | .error _ => []

section scan

variable {fs : UnixFilesystem}

/-- The slots among the bytes read do not depend on the buffer. -/
theorem take_direntsOf_overwrite (disk : List Byte) (k : Nat) (buf : Sector) :
    (direntsOf (buf.overwrite disk (diskimgSectorSize * k)).bytes).take
      ((sectorBytes disk k).length / sizeofDirentv6) = sectorSlots disk k := by
  have hle : (sectorBytes disk k).length / sizeofDirentv6 ≤ sectorDirEntCount := by
    have hlen : (sectorBytes disk k).length ≤ diskimgSectorSize := List.length_take_le _ _
    exact Nat.div_le_div_right hlen
  have hprefix : (buf.overwrite disk (diskimgSectorSize * k)).bytes.take
      (sectorBytes disk k).length = sectorBytes disk k := List.take_left
  have hcut := records_take (Nat.mul_div_le (sectorBytes disk k).length sizeofDirentv6)
    (buf.overwrite disk (diskimgSectorSize * k)).bytes
  rw [direntsOf, ← List.map_take, take_records _ hle, ← hcut, hprefix, sectorSlots]

theorem readAddress_ok {junk : Junk} {sector position : Nat} (hk : sector < 2 ^ 22) :
    ∃ k < 2 ^ 16, readAddress fs junk sector position = .ok k := by
  rw [readAddress, diskimgReadsector_eq hk, ok_bind]
  exact ⟨_, BitVec.isLt _, rfl⟩

/-- A block number that is not negative always leads to some sector. -/
theorem inodeIndexlookup_ok (junk : Junk) (inode : Inode) (block : Nat) :
    ∃ k < 2 ^ 16, inodeIndexlookup fs junk inode block = .ok k := by
  have hword : ∀ w : BitVec 16, w.toNat < 2 ^ 22 := fun w => w.isLt.trans (by decide)
  rw [inodeIndexlookup, if_neg (Int.not_lt.mpr (Int.natCast_nonneg block))]
  dsimp only
  split
  · exact ⟨_, BitVec.isLt _, rfl⟩
  · split
    · exact readAddress_ok (hword _)
    · obtain ⟨k, hk, hfirst⟩ := readAddress_ok (hword _)
      rw [hfirst, ok_bind]
      exact readAddress_ok (hk.trans (by decide))

/-- The loop searches the slots of the blocks it is given. -/
theorem findnameLoop_scan (junk : Junk) (name : List Byte) (dirInode : Inode) (blocks : List Nat)
    (buf : Sector) :
    findnameLoop fs junk name dirInode blocks buf =
      orMinusOne ((scannedSlots fs junk dirInode blocks).find? fun e => decide (e.Carries name)) := by
  induction blocks generalizing buf with
  | nil => rfl
  | cons block blocks ih =>
    obtain ⟨k, hk, hlookup⟩ := inodeIndexlookup_ok (junk.sub block) dirInode block
    rw [findnameLoop, hlookup, ok_bind, diskimgReadsector_eq (hk.trans (by decide)), ok_bind]
    dsimp only
    rw [take_direntsOf_overwrite, scannedSlots, List.flatMap_cons, hlookup, List.find?_append]
    cases (sectorSlots fs.disk k).find? fun e => decide (e.Carries name) with
    | some e => rfl
    | none =>
      rw [Option.none_or]
      exact ih _

theorem inodeIget_error {junk : Junk} {inumber : Int} {e : Failure}
    (h : inodeIget fs junk inumber = .error e) : ∃ stderr, e = .minusOne stderr := by
  rw [inodeIget] at h
  split at h
  · exact ⟨_, (Except.error.inj h).symm⟩
  · dsimp only at h
    rw [diskimgReadsector] at h
    split at h
    · exact ⟨_, (Except.error.inj h).symm⟩
    · rw [ok_bind] at h
      dsimp only at h
      split at h
      · exact ⟨_, (Except.error.inj h).symm⟩
      · cases h

/-- **Looking a name up** in anything finds the first slot that carries it. -/
theorem directoryFindname_slots (junk : Junk) (name : List Byte) (dirinumber : Nat) :
    (∃ e, directoryFindname fs junk name dirinumber = .ok e ∧
        (slotsAt fs junk dirinumber).find? (fun e => decide (e.Carries name)) = some e) ∨
      Negative (directoryFindname fs junk name dirinumber) ∧
        (slotsAt fs junk dirinumber).find? (fun e => decide (e.Carries name)) = none := by
  rw [directoryFindname, slotsAt]
  cases hget : inodeIget fs (junk.sub 0) dirinumber with
  | error e =>
    obtain ⟨stderr, rfl⟩ := inodeIget_error hget
    exact .inr ⟨⟨stderr, rfl⟩, rfl⟩
  | ok dirInode =>
    rw [ok_bind]
    by_cases hmode : dirInode.mode &&& ifdir = 0
    · dsimp only
      rw [if_pos hmode, if_pos hmode]
      exact .inr ⟨⟨[], rfl⟩, rfl⟩
    · dsimp only
      rw [if_neg hmode, if_neg hmode, findnameLoop_scan]
      cases (scannedSlots fs (junk.sub 1) dirInode
        (List.range (blockCount (inodeGetsize dirInode)))).find? fun e => decide (e.Carries name) with
      | some e => exact .inl ⟨e, rfl, rfl⟩
      | none => exact .inr ⟨⟨[], rfl⟩, rfl⟩

theorem directoryFindname_ok_iff {junk : Junk} {name : List Byte} {dirinumber : Nat} {e : Direntv6} :
    directoryFindname fs junk name dirinumber = .ok e ↔
      (slotsAt fs junk dirinumber).find? (fun e => decide (e.Carries name)) = some e := by
  rcases directoryFindname_slots junk name dirinumber with
    ⟨e', hok, hfind⟩ | ⟨⟨stderr, herr⟩, hfind⟩
  · rw [hok, hfind, Except.ok.injEq, Option.some.injEq]
  · rw [herr, hfind]
    exact iff_of_false (fun h => nomatch h) (fun h => nomatch h)

end scan

/-! ## Free slots -/

/-- A slot in use. -/
def Direntv6.Live (entry : Direntv6) : Prop := entry.dInumber ≠ 0

instance (entry : Direntv6) : Decidable entry.Live := inferInstanceAs (Decidable (_ ≠ _))

/-- The lookup treats the directory as if its free slots were not there. -/
def IgnoresFree (fs : UnixFilesystem) (junk : Junk) (name : List Byte) (dirinumber : Nat) : Prop :=
  ∀ e, directoryFindname fs junk name dirinumber = .ok e ↔
    ((slotsAt fs junk dirinumber).filter fun e => decide e.Live).find?
      (fun e => decide (e.Carries name)) = some e

/-- Every lookup of the loop over the tokens ignores free slots. -/
def LookupsIgnoreFree (fs : UnixFilesystem) (junk : Junk) : Nat → List (List Byte) → Nat → Prop
  | _, [], _ => True
  | i, token :: tokens, curr => IgnoresFree fs (junk.sub i) token curr ∧
      ∀ e, directoryFindname fs (junk.sub i) token curr = .ok e →
        LookupsIgnoreFree fs junk (i + 1) tokens e.dInumber.toNat

/-- No free slot is ever the outcome: the result is negative or the number of an inode, and
every lookup on the way ignores free slots. -/
structure ResolvesLive (fs : UnixFilesystem) (junk : Junk) (pathname : List Byte) : Prop where
  result : Negative (pathnameLookup fs junk pathname) ∨
    ∃ x, 1 ≤ x ∧ pathnameLookup fs junk pathname = .ok x
  lookups : pathname.head? = some slash →
    LookupsIgnoreFree fs junk 0 (tokens slash pathname) rootInumber

/-- In each directory on the way, the first slot that carries the next component is in use. -/
def FirstSlotsLive (fs : UnixFilesystem) (junk : Junk) : Nat → List (List Byte) → Nat → Prop
  | _, [], _ => True
  | i, token :: tokens, curr => ∀ e,
      (slotsAt fs (junk.sub i) curr).find? (fun e => decide (e.Carries token)) = some e →
        e.Live ∧ FirstSlotsLive fs junk (i + 1) tokens e.dInumber.toNat

/-- Dropping some elements does not change which is found first exactly if the first
is not dropped. -/
theorem find?_eq_find?_filter_iff {α : Type} (p q : α → Bool) (l : List α) :
    (∀ a, l.find? p = some a ↔ (l.filter q).find? p = some a) ↔
      ∀ a, l.find? p = some a → q a = true := by
  constructor
  · intro h a ha
    exact (List.mem_filter.mp (List.mem_of_find?_eq_some ((h a).mp ha))).2
  · intro h
    induction l with
    | nil => simp
    | cons b l ih =>
      by_cases hp : p b = true
      · have hq : q b = true := h b (List.find?_cons_of_pos hp)
        intro a
        rw [List.filter_cons_of_pos hq, List.find?_cons_of_pos hp, List.find?_cons_of_pos hp]
      · rw [List.find?_cons_of_neg hp] at h ⊢
        intro a
        by_cases hq : q b = true
        · rw [List.filter_cons_of_pos hq, List.find?_cons_of_neg hp]
          exact ih h a
        · rw [List.filter_cons_of_neg hq]
          exact ih h a

section free

variable {fs : UnixFilesystem} {junk : Junk}

theorem ignoresFree_iff {name : List Byte} {dirinumber : Nat} :
    IgnoresFree fs junk name dirinumber ↔ ∀ e,
      (slotsAt fs junk dirinumber).find? (fun e => decide (e.Carries name)) = some e → e.Live := by
  have h := find?_eq_find?_filter_iff (fun e : Direntv6 => decide (e.Carries name))
    (fun e => decide e.Live) (slotsAt fs junk dirinumber)
  simp only [decide_eq_true_eq] at h
  simp only [IgnoresFree, directoryFindname_ok_iff]
  exact h

theorem lookupsIgnoreFree_iff (i : Nat) (tokens : List (List Byte)) (curr : Nat) :
    LookupsIgnoreFree fs junk i tokens curr ↔ FirstSlotsLive fs junk i tokens curr := by
  induction tokens generalizing i curr with
  | nil => exact Iff.rfl
  | cons token tokens ih =>
    simp only [LookupsIgnoreFree, FirstSlotsLive, ignoresFree_iff, directoryFindname_ok_iff, ih]
    exact ⟨fun h e he => ⟨h.1 e he, h.2 e he⟩,
      fun h => ⟨fun e he => (h e he).1, fun e he => (h e he).2⟩⟩

/-- Where the first slots are in use, the loop ends at an inode number or fails. -/
theorem pathnameLoop_live (i : Nat) (tokens : List (List Byte)) (curr : Nat) (hcurr : 1 ≤ curr)
    (h : FirstSlotsLive fs junk i tokens curr) :
    Negative (pathnameLoop fs junk i tokens curr) ∨
      ∃ x, 1 ≤ x ∧ pathnameLoop fs junk i tokens curr = .ok x := by
  induction tokens generalizing i curr with
  | nil => exact .inr ⟨curr, hcurr, rfl⟩
  | cons token tokens ih =>
    rw [pathnameLoop]
    rcases directoryFindname_slots (junk.sub i) token curr with
      ⟨e, hok, hfind⟩ | ⟨⟨stderr, herr⟩, -⟩
    · obtain ⟨hlive, hrest⟩ := h e hfind
      have hpos : 1 ≤ e.dInumber.toNat :=
        Nat.one_le_iff_ne_zero.mpr fun hzero => hlive (BitVec.eq_of_toNat_eq hzero)
      rw [hok, ok_bind]
      exact ih (i + 1) _ hpos hrest
    · rw [herr]
      exact .inl ⟨stderr, rfl⟩

end free

/-- **A path never resolves to a free slot, nor is led astray by one,** if and only if in
each directory on the way the first slot that carries the next component is in use. -/
theorem resolvesLive_iff (fs : UnixFilesystem) (junk : Junk) (pathname : List Byte) :
    ResolvesLive fs junk pathname ↔ (pathname.head? = some slash →
      FirstSlotsLive fs junk 0 (tokens slash pathname) rootInumber) := by
  constructor
  · intro h habs
    exact (lookupsIgnoreFree_iff _ _ _).mp (h.lookups habs)
  · intro h
    refine ⟨?_, fun habs => (lookupsIgnoreFree_iff _ _ _).mpr (h habs)⟩
    rw [pathnameLookup]
    by_cases habs : pathname.head? = some slash
    · rw [if_neg (not_not_intro habs)]
      exact pathnameLoop_live 0 _ rootInumber (Nat.le_refl 1) (h habs)
    · rw [if_pos habs]
      exact .inl ⟨[], rfl⟩

/-- Inode 1 is a directory of two slots in sector 3, inode 2 an empty file. -/
def freeInodes : List Byte :=
  [0x00, 0xc0, 0, 0, 0, 0, 0x20, 0x00, 0x03, 0x00] ++ List.replicate 22 0 ++ [0x00, 0x80]

/-- A free slot that still says `a`, and the entry `a` of inode 2. -/
def freeData : List Byte :=
  [0x00, 0x00, 0x61] ++ List.replicate 13 0 ++ [0x02, 0x00, 0x61]

/-- A file of one sector of the image, read as a directory. -/
theorem directoryFindname_imageOf {inodes data : List Byte} {n : Nat} {mode size : BitVec 16}
    (hn : n ≤ 16) (hpos : 0 < n) (h : inodeOf (imageOf inodes data) n = plainInode mode size 3)
    (halloc : mode &&& ialloc ≠ 0) (hsmall : mode &&& ilarg = 0) (hdir : mode &&& ifdir ≠ 0)
    (hsize : 0 < size.toNat ∧ size.toNat ≤ diskimgSectorSize) {name : List Byte}
    (hname : EntryName name) (junk : Junk) :
    directoryFindname (imageFs inodes data) junk name n =
      orMinusOne ((direntsOf (pad data)).find? fun e => decide (e.name = name)) := by
  rw [← dirSlots_imageOf inodes data hsmall hsize.1 hsize.2]
  have ha : AllocatedAt (imageFs inodes data).disk n (plainInode mode size 3) :=
    allocatedAt_imageOf hn hpos h halloc
  exact directoryFindname_eq ha (readable_imageOf hsmall hsize.1 hsize.2) hdir hname junk

theorem freeSlot_lookup :
    pathnameLookup (imageFs freeInodes freeData) zeroJunk [slash, 0x61] = .ok 0 := by
  have hinode : inodeOf (imageOf freeInodes freeData) 1 = plainInode 0xc000 0x20 3 := by
    rw [inodeOf_imageOf _ _ (by decide) (by decide)]
    decide
  have hname : EntryName [0x61] := ⟨by decide, by decide, by decide⟩
  have hfind := directoryFindname_imageOf (by decide) (by decide) hinode (by decide) (by decide)
    (by decide) (by decide) hname (zeroJunk.sub 0)
  have hslot : (direntsOf (pad freeData)).find? (fun e => decide (e.name = [0x61])) =
      some ⟨0, #v[0x61, 0, 0, 0, 0, 0, 0, 0, 0, 0, 0, 0, 0, 0]⟩ := by decide
  rw [hslot] at hfind
  rw [pathnameLookup_root _ _ ⟨by decide, by decide⟩]
  show directoryFindname _ _ _ (1 : Nat) >>= _ = _
  rw [hfind]
  rfl

/-- Although inode 2 has the name `/a`, the path resolves to the free slot in front. -/
theorem freeSlot_found :
    ¬ ∀ (junk : Junk) (disk : List Byte) (fs : UnixFilesystem),
      unixfilesystemInit junk disk = .ok fs → ∀ pathname, ResolvesLive fs junk pathname := by
  intro h
  have hlive := h zeroJunk _ _ (unixfilesystemInit_imageOf freeInodes freeData zeroJunk) [slash, 0x61]
  rcases hlive.result with ⟨stderr, hneg⟩ | ⟨x, hx, hok⟩
  · rw [freeSlot_lookup] at hneg
    cases hneg
  · rw [freeSlot_lookup] at hok
    cases hok
    cases hx

/-! ## Files that are no directories -/

theorem and_ifmt_of_and_ifdir {mode : BitVec 16} (h : mode &&& ifmt ≠ ifdir) :
    mode &&& ifdir ≠ 0 ↔ mode &&& ifmt = ifblk := by
  have hsplit : mode &&& ifmt = mode &&& ifdir ||| mode &&& ifchr := by
    rw [← BitVec.and_or_distrib_left]
    rfl
  have hdir : ifdir = BitVec.twoPow 16 14 := by decide
  have hchr : ifchr = BitVec.twoPow 16 13 := by decide
  rw [hsplit, hdir, hchr, BitVec.and_twoPow, BitVec.and_twoPow] at h ⊢
  revert h
  cases mode.getLsbD 14 <;> cases mode.getLsbD 13 <;> decide

/-- **A path goes on behind a file that is no directory** exactly if the file is block
special and, read as a directory, has a slot that carries the next component. -/
theorem lookup_behind_file_iff (fs : UnixFilesystem) (junk : Junk) (pathname : List Byte) (x : Nat)
    (inode : Inode) (component : List Byte) (hlookup : pathnameLookup fs junk pathname = .ok x)
    (ha : AllocatedAt fs.disk x inode) (hfile : inode.mode &&& ifmt ≠ ifdir)
    (hcomponent : IsToken slash component) :
    Negative (pathnameLookup fs junk (pathname ++ slash :: component)) ↔
      ¬ (inode.mode &&& ifmt = ifblk ∧
        ∃ e ∈ scannedSlots fs ((junk.sub (tokens slash pathname).length).sub 1) inode
          (List.range (blockCount (inodeGetsize inode))), e.Carries component) := by
  rw [pathnameLookup_append fs junk hlookup hcomponent, ← and_ifmt_of_and_ifdir hfile]
  generalize junk.sub (tokens slash pathname).length = junk'
  have hslots : slotsAt fs junk' x =
      if inode.mode &&& ifdir = 0 then []
      else scannedSlots fs (junk'.sub 1) inode (List.range (blockCount (inodeGetsize inode))) := by
    rw [slotsAt, inodeIget_allocated ha]
  rcases directoryFindname_slots junk' component x with
    ⟨e, hok, hfind⟩ | ⟨⟨stderr, herr⟩, hfind⟩
  · have hmem := List.mem_of_find?_eq_some hfind
    have hcarries : e.Carries component := by simpa using List.find?_some hfind
    rw [hslots] at hmem
    split at hmem
    · cases hmem
    · rename_i hdir
      rw [hok, ok_bind]
      refine iff_of_false ?_ (not_not_intro ⟨hdir, e, hmem, hcarries⟩)
      rintro ⟨stderr, h⟩
      cases h
  · rw [herr]
    refine iff_of_true ⟨stderr, rfl⟩ ?_
    rintro ⟨hdir, e, hmem, hcarries⟩
    rw [hslots, if_neg hdir, List.find?_eq_none] at hfind
    exact hfind e hmem (decide_eq_true hcarries)

/-- The root is a regular file. -/
theorem abcRoot_ends : Negative
    (pathnameLookup (imageFs abcInodes abcData) zeroJunk ([slash] ++ slash :: [0x61])) := by
  refine (lookup_behind_file_iff (imageFs abcInodes abcData) zeroJunk [slash] 1 abcInode [0x61] rfl
    abcInode_allocated ?_ ⟨by decide, by decide⟩).mpr ?_
  · rw [abcInode_eq]
    decide
  · rintro ⟨hblk, -⟩
    rw [abcInode_eq] at hblk
    revert hblk
    decide

/-- Inode 1 is a directory and inode 2 block special, both with sector 3. -/
def specialInodes : List Byte :=
  [0x00, 0xc0, 0, 0, 0, 0, 0x10, 0x00, 0x03, 0x00] ++ List.replicate 22 0 ++
    [0x00, 0xe0, 0, 0, 0, 0, 0x10, 0x00, 0x03, 0x00]

/-- The entry `b` of inode 2. -/
def specialData : List Byte := [0x02, 0x00, 0x62]

theorem special_inodes :
    inodeOf (imageOf specialInodes specialData) 1 = plainInode 0xc000 0x10 3 ∧
      inodeOf (imageOf specialInodes specialData) 2 = plainInode 0xe000 0x10 3 := by
  rw [inodeOf_imageOf _ _ (by decide) (by decide), inodeOf_imageOf _ _ (by decide) (by decide)]
  decide

theorem special_lookup :
    pathnameLookup (imageFs specialInodes specialData) zeroJunk [slash, 0x62] = .ok 2 ∧
      pathnameLookup (imageFs specialInodes specialData) zeroJunk
        ([slash, 0x62] ++ slash :: [0x62]) = .ok 2 := by
  have hname : EntryName [0x62] := ⟨by decide, by decide, by decide⟩
  have hslot : (direntsOf (pad specialData)).find? (fun e => decide (e.name = [0x62])) =
      some ⟨2, #v[0x62, 0, 0, 0, 0, 0, 0, 0, 0, 0, 0, 0, 0, 0]⟩ := by decide
  have hroot := directoryFindname_imageOf (by decide) (by decide) special_inodes.1 (by decide)
    (by decide) (by decide) (by decide) hname (zeroJunk.sub 0)
  have hspecial := directoryFindname_imageOf (by decide) (by decide) special_inodes.2 (by decide)
    (by decide) (by decide) (by decide) hname (zeroJunk.sub 1)
  rw [hslot] at hroot hspecial
  have hb : pathnameLookup (imageFs specialInodes specialData) zeroJunk [slash, 0x62] = .ok 2 := by
    rw [pathnameLookup_root _ _ ⟨by decide, by decide⟩]
    show directoryFindname _ _ _ (1 : Nat) >>= _ = _
    rw [hroot]
    rfl
  refine ⟨hb, ?_⟩
  rw [pathnameLookup_append _ _ hb ⟨by decide, by decide⟩]
  show directoryFindname _ (zeroJunk.sub 1) _ (2 : Nat) >>= _ = _
  rw [hspecial]
  rfl

/-- The path `/b/b` goes through the block special file `/b`. -/
theorem special_leads_on :
    ¬ ∀ (junk : Junk) (disk : List Byte) (fs : UnixFilesystem),
      unixfilesystemInit junk disk = .ok fs → ∀ (pathname : List Byte) (x : Nat) (inode : Inode)
      (component : List Byte), pathnameLookup fs junk pathname = .ok x →
      AllocatedAt fs.disk x inode → inode.mode &&& ifmt ≠ ifdir → IsToken slash component →
        Negative (pathnameLookup fs junk (pathname ++ slash :: component)) := by
  intro h
  obtain ⟨stderr, hneg⟩ := h zeroJunk _ _ (unixfilesystemInit_imageOf specialInodes specialData
    zeroJunk) [slash, 0x62] 2 _ [0x62] special_lookup.1 (allocatedAt_imageOf (by decide) (by decide)
    special_inodes.2 (by decide)) (by decide) ⟨by decide, by decide⟩
  rw [special_lookup.2] at hneg
  cases hneg

end Acso.FileSystem
