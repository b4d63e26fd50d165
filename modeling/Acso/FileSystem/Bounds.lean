import Acso.FileSystem.BlockMap
import Acso.FileSystem.Resolution

/-!
# Array accesses of a block lookup

`inodeIndexlookup` indexes `i_addr` and, with `ILARG`, a buffer of pointers or two.  It
stays inside them exactly up to the number of blocks that the inode names
(`accesses_inBounds_iff`), but its callers compare the block number with the size of the
file only.  With `ILARG` no size is too large; without it a size of more than eight
blocks lets both of them index `i_addr` beyond its end (`blockCall_inBounds_iff`).
-/

namespace Acso.FileSystem

open Acso.Lib

/-! ## Accesses -/

/-- An access to an array of `length` elements. -/
structure Access where
  index : Nat
  length : Nat

def Access.InBounds (a : Access) : Prop := a.index < a.length

/-- The length of `i_addr`. -/
def addrCount : Nat := 8

/-- What `inodeIndexlookup` indexes, in order.  None of its reads fails, so it gets to all of
these accesses. -/
def indexlookupAccesses (inode : Inode) (blockNum : Int) : List Access :=
  if blockNum < 0 then []
  else
    let blockNum := blockNum.toNat
    if inode.mode &&& ilarg = 0 then [⟨blockNum, addrCount⟩]
    else if blockNum < indirectAddCount then
      let sector := blockNum / sectorAddCount
      let positionWithinTheSector := blockNum % sectorAddCount
      [⟨sector, addrCount⟩, ⟨positionWithinTheSector, sectorAddCount⟩]
    else
      let blockNumRestarted := blockNum - indirectAddCount
      let firstLevelIndex := blockNumRestarted / sectorAddCount
      let secondLevelIndex := blockNumRestarted % sectorAddCount
      [⟨singleIndirectSectors, addrCount⟩, ⟨firstLevelIndex, sectorAddCount⟩,
        ⟨secondLevelIndex, sectorAddCount⟩]

/-- The number of blocks that an inode names. -/
def namedBlocks (inode : Inode) : Nat := if inode.mode &&& ilarg = 0 then addrCount else pointerCount

/-- **The accesses are inside their arrays** exactly for the blocks that the inode names, and
for negative numbers, which are refused. -/
theorem accesses_inBounds_iff (inode : Inode) (blockNum : Int) :
    (∀ a ∈ indexlookupAccesses inode blockNum, a.InBounds) ↔ blockNum < namedBlocks inode := by
  rw [indexlookupAccesses, namedBlocks]
  by_cases hneg : blockNum < 0
  · rw [if_pos hneg]
    exact iff_of_true (fun a ha => nomatch ha) (hneg.trans_le (Int.natCast_nonneg _))
  obtain ⟨b, rfl⟩ := Int.eq_ofNat_of_zero_le (Int.not_lt.mp hneg)
  rw [if_neg hneg, Int.toNat_natCast, Int.ofNat_lt]
  by_cases hmode : inode.mode &&& ilarg = 0
  · rw [if_pos hmode, if_pos hmode, List.forall_mem_singleton, Access.InBounds]
  rw [if_neg hmode, if_neg hmode, pointerCount]
  have hindirect : indirectAddCount = 7 * 256 := rfl
  have hcount : sectorAddCount = 256 := rfl
  by_cases hb : b < indirectAddCount
  · rw [if_pos hb]
    simp only [List.forall_mem_cons, Access.InBounds, addrCount, hcount]
    rw [hindirect] at hb
    refine iff_of_true ⟨by omega, by omega, fun a ha => nomatch ha⟩ (by omega)
  · rw [if_neg hb]
    simp only [List.forall_mem_cons, Access.InBounds, addrCount, singleIndirectSectors, hindirect,
      hcount]
    rw [hindirect] at hb
    constructor
    · rintro ⟨-, hfirst, -, -⟩
      omega
    · intro h
      exact ⟨by omega, by omega, by omega, fun a ha => nomatch ha⟩

/-! ## Calls -/

/-- A lookup: the inode and the block number. -/
abbrev Lookup := Inode × Int

/-- The lookup that `fileGetblock` makes. -/
def getblockLookups (fs : UnixFilesystem) (junk : Junk) (inumber blockNum : Int) : List Lookup :=
  match inodeIget fs (junk.sub 0) inumber with
  | .error _ => []
  | .ok fileInode =>
    if blockNum ≥ blockCount (inodeGetsize fileInode) then [] else [(fileInode, blockNum)]

/-- The lookups of `findnameLoop`. -/
def findnameLoopLookups (fs : UnixFilesystem) (junk : Junk) (name : List Byte) (dirInode : Inode) :
    List Nat → Sector → List Lookup
  | [], _ => []
  | block :: blocks, dirEntries =>
    (dirInode, (block : Int)) ::
      match inodeIndexlookup fs (junk.sub block) dirInode block >>= fun dataBlock =>
        diskimgReadsector fs.disk dataBlock dirEntries with
      | .error _ => []
      | .ok (bytesRead, dirEntries) =>
        let entriesCount := bytesRead / sizeofDirentv6
        match ((direntsOf dirEntries.bytes).take entriesCount).find?
          (fun e => decide (e.Carries name)) with
        | some _ => []
        | none => findnameLoopLookups fs junk name dirInode blocks dirEntries

/-- The lookups that `directoryFindname` makes. -/
def findnameLookups (fs : UnixFilesystem) (junk : Junk) (name : List Byte) (dirinumber : Int) :
    List Lookup :=
  match inodeIget fs (junk.sub 0) dirinumber with
  | .error _ => []
  | .ok dirInode =>
    if dirInode.mode &&& ifdir = 0 then []
    else
      findnameLoopLookups fs (junk.sub 1) name dirInode
        (List.range (blockCount (inodeGetsize dirInode))) (junk.sub 2).here

/-- The calls that look blocks up. -/
inductive BlockCall
  | getblock (inumber blockNum : Int)
  | findname (name : List Byte) (dirinumber : Int)

namespace BlockCall

def lookups (fs : UnixFilesystem) (junk : Junk) : BlockCall → List Lookup
  | .getblock inumber blockNum => getblockLookups fs junk inumber blockNum
  | .findname name dirinumber => findnameLookups fs junk name dirinumber

/-- No lookup of the call leaves an array. -/
def InBounds (fs : UnixFilesystem) (junk : Junk) (call : BlockCall) : Prop :=
  ∀ lookup ∈ call.lookups fs junk, ∀ a ∈ indexlookupAccesses lookup.1 lookup.2, a.InBounds

/-- Without `ILARG`, the block is one of the first eight or beyond the end of the file, and the
directory has at most eight blocks or the name in one of the first eight. -/
def WithinAddresses (fs : UnixFilesystem) (junk : Junk) : BlockCall → Prop
  | .getblock inumber blockNum => ∀ inode, inodeIget fs (junk.sub 0) inumber = .ok inode →
      inode.mode &&& ilarg = 0 → blockNum < 8 ∨ (blockCount (inodeGetsize inode) : Int) ≤ blockNum
  | .findname name dirinumber => ∀ inode, inodeIget fs (junk.sub 0) dirinumber = .ok inode →
      inode.mode &&& ifdir ≠ 0 → inode.mode &&& ilarg = 0 →
        inodeGetsize inode ≤ 8 * diskimgSectorSize ∨
          ∃ e ∈ scannedSlots fs (junk.sub 1) inode (List.range 8), e.Carries name

end BlockCall

/-! ## Which blocks are looked up -/

section lookups

variable {fs : UnixFilesystem} {junk : Junk} {name : List Byte} {inode : Inode}

/-- What holds wherever a list is split, by its first element. -/
theorem forall_split_cons {α : Type} {Q : List α → α → Prop} {b : α} {blocks : List α} :
    (∀ front block rest, b :: blocks = front ++ block :: rest → Q front block) ↔
      Q [] b ∧ ∀ front block rest, blocks = front ++ block :: rest → Q (b :: front) block := by
  constructor
  · intro h
    exact ⟨h [] b blocks rfl, fun front block rest heq =>
      h (b :: front) block rest (congrArg (b :: ·) heq)⟩
  · rintro ⟨hfirst, hrest⟩ front block rest hsplit
    rcases List.cons_eq_append_iff.mp hsplit with ⟨rfl, heq⟩ | ⟨front, rfl, rfl⟩
    · cases heq
      exact hfirst
    · exact hrest front block rest rfl

/-- A block is looked up if no block before it has a slot that carries the name. -/
theorem forall_findnameLoopLookups (P : Lookup → Prop) (blocks : List Nat) (buf : Sector) :
    (∀ lookup ∈ findnameLoopLookups fs junk name inode blocks buf, P lookup) ↔
      ∀ (front : List Nat) (block : Nat) (rest : List Nat), blocks = front ++ block :: rest →
        (∀ e ∈ scannedSlots fs junk inode front, ¬ e.Carries name) → P (inode, (block : Int)) := by
  induction blocks generalizing buf with
  | nil =>
    refine iff_of_true (fun lookup h => nomatch h) ?_
    intro front block rest h
    exact absurd h.symm (List.append_ne_nil_of_right_ne_nil front (List.cons_ne_nil block rest))
  | cons b blocks ih =>
    obtain ⟨k, hk, hlookup⟩ : ∃ k < 2 ^ 16, inodeIndexlookup fs (junk.sub b) inode b = .ok k :=
      inodeIndexlookup_ok _ inode b
    have hslots : ∀ front, scannedSlots fs junk inode (b :: front) =
        sectorSlots fs.disk k ++ scannedSlots fs junk inode front := by
      intro front
      rw [scannedSlots, List.flatMap_cons, hlookup]
      rfl
    have hnothing : ∀ e ∈ scannedSlots fs junk inode [], ¬ e.Carries name := List.forall_mem_nil _
    rw [findnameLoopLookups, hlookup, ok_bind, diskimgReadsector_eq (hk.trans (by decide)),
      forall_split_cons, forall_prop_of_true hnothing]
    dsimp only
    rw [take_direntsOf_overwrite, List.forall_mem_cons]
    refine and_congr_right fun _ => ?_
    simp only [hslots, List.forall_mem_append]
    cases hfind : (sectorSlots fs.disk k).find? fun e => decide (e.Carries name) with
    | some e =>
      -- the loop ends here
      have hmem := List.mem_of_find?_eq_some hfind
      have hcarries : e.Carries name := by simpa using List.find?_some hfind
      refine iff_of_true (List.forall_mem_nil _) ?_
      intro front block rest heq hfront
      exact absurd hcarries (hfront.1 e hmem)
    | none =>
      have hnone : ∀ e ∈ sectorSlots fs.disk k, ¬ e.Carries name := by
        simpa using hfind
      dsimp only
      rw [ih]
      simp only [and_iff_right hnone]

/-- Splitting the list of the block numbers. -/
theorem range_eq_append_cons {n m : Nat} {front rest : List Nat} :
    List.range n = front ++ m :: rest → front = List.range m ∧ m < n := by
  intro h
  have hlen : front.length < n := by
    have := congrArg List.length h
    simp only [List.length_range, List.length_append, List.length_cons] at this
    omega
  have hm : front.length = m := by
    have hget := congrArg (fun l => l[front.length]?) h
    rwa [List.getElem?_append_right (Nat.le_refl _), Nat.sub_self, List.getElem?_cons_zero,
      List.getElem?_range hlen, Option.some.injEq] at hget
  subst hm
  refine ⟨?_, hlen⟩
  calc front = (List.range n).take front.length := by rw [h, List.take_left]
    _ = List.range front.length := by rw [List.take_range, Nat.min_eq_left hlen.le]

theorem range_eq_append_range {n m : Nat} (h : m < n) :
    ∃ rest, List.range n = List.range m ++ m :: rest := by
  obtain ⟨k, rfl⟩ := Nat.exists_eq_add_of_lt h
  refine ⟨(List.range k).map fun i => m + 1 + i, ?_⟩
  rw [show m + k + 1 = (m + 1) + k by omega, List.range_add, List.range_succ, List.append_assoc]
  rfl

theorem scannedSlots_range_mono {m n : Nat} (h : m ≤ n) {e : Direntv6}
    (he : e ∈ scannedSlots fs junk inode (List.range m)) :
    e ∈ scannedSlots fs junk inode (List.range n) := by
  obtain ⟨block, hblock, hmem⟩ := List.mem_flatMap.mp he
  rw [List.mem_range] at hblock
  exact List.mem_flatMap.mpr ⟨block, List.mem_range.mpr (hblock.trans_le h), hmem⟩

/-- With `ILARG`, an inode names more blocks than its size can ask for. -/
theorem blockCount_le_namedBlocks (hmode : inode.mode &&& ilarg ≠ 0) :
    blockCount (inodeGetsize inode) ≤ namedBlocks inode := by
  have hle : blockCount (inodeGetsize inode) ≤ (blockMap [] inode).length :=
    blockCount_le_large hmode
  rw [length_blockMap_large hmode] at hle
  rwa [namedBlocks, if_neg hmode]

theorem getblock_inBounds_iff (inumber blockNum : Int) :
    (BlockCall.getblock inumber blockNum).InBounds fs junk ↔
      (BlockCall.getblock inumber blockNum).WithinAddresses fs junk := by
  rw [BlockCall.InBounds, BlockCall.lookups, getblockLookups, BlockCall.WithinAddresses]
  cases inodeIget fs (junk.sub 0) inumber with
  | error e => exact iff_of_true (fun _ h => nomatch h) (fun _ h => nomatch h)
  | ok inode =>
    dsimp only
    simp only [Except.ok.injEq, forall_eq']
    by_cases hb : blockNum ≥ (blockCount (inodeGetsize inode) : Int)
    · rw [if_pos hb]
      exact iff_of_true (fun _ h => nomatch h) (fun _ => .inr hb)
    rw [if_neg hb, List.forall_mem_singleton, accesses_inBounds_iff]
    by_cases hmode : inode.mode &&& ilarg = 0
    · rw [namedBlocks, if_pos hmode]
      exact ⟨fun h _ => .inl h, fun h => (h hmode).resolve_right hb⟩
    · have hle := blockCount_le_namedBlocks hmode
      dsimp only
      exact iff_of_true (by omega) (fun h => absurd h hmode)

theorem findname_inBounds_iff (dirinumber : Int) :
    (BlockCall.findname name dirinumber).InBounds fs junk ↔
      (BlockCall.findname name dirinumber).WithinAddresses fs junk := by
  rw [BlockCall.InBounds, BlockCall.lookups, findnameLookups, BlockCall.WithinAddresses]
  cases inodeIget fs (junk.sub 0) dirinumber with
  | error e => exact iff_of_true (fun _ h => nomatch h) (fun _ h => nomatch h)
  | ok inode =>
    dsimp only
    simp only [Except.ok.injEq, forall_eq']
    by_cases hdir : inode.mode &&& ifdir = 0
    · rw [if_pos hdir]
      exact iff_of_true (fun _ h => nomatch h) (fun h => absurd hdir h)
    rw [if_neg hdir, forall_findnameLoopLookups]
    simp only [accesses_inBounds_iff]
    by_cases hmode : inode.mode &&& ilarg = 0
    · have hnamed : namedBlocks inode = 8 := if_pos hmode
      rw [hnamed]
      constructor
      · intro h _ _
        refine or_iff_not_imp_left.mpr fun hsize => ?_
        by_contra hnone
        have hcount : 8 < blockCount (inodeGetsize inode) := by
          rw [lt_blockCount_iff]
          omega
        obtain ⟨rest, hsplit⟩ := range_eq_append_range hcount
        have hlt := h _ _ rest hsplit fun e he hc => hnone ⟨e, he, hc⟩
        omega
      · intro h front block rest hsplit hfront
        obtain ⟨rfl, hlt⟩ := range_eq_append_cons hsplit
        rcases h hdir hmode with hsize | ⟨e, he, hcarries⟩
        · have hcount := blockCount_le hsize
          omega
        · by_contra hge
          exact hfront e (scannedSlots_range_mono (by omega) he) hcarries
    · have hle := blockCount_le_namedBlocks hmode
      refine iff_of_true ?_ (fun _ h => absurd h hmode)
      intro front block rest hsplit _
      obtain ⟨-, hlt⟩ := range_eq_append_cons hsplit
      omega

end lookups

/-- **A call never indexes out of bounds** if and only if it keeps within the addresses of an
inode without `ILARG`. -/
theorem blockCall_inBounds_iff (fs : UnixFilesystem) (junk : Junk) (call : BlockCall) :
    call.InBounds fs junk ↔ call.WithinAddresses fs junk := by
  cases call with
  | getblock inumber blockNum => exact getblock_inBounds_iff inumber blockNum
  | findname name dirinumber => exact findname_inBounds_iff dirinumber

/-- Inode 1 is a file of nine blocks without `ILARG`. -/
def nineBlocksInodes : List Byte := [0x00, 0x80, 0, 0, 0, 0, 0x00, 0x12, 0x03, 0x00]

/-- Its last block is read from behind the addresses. -/
theorem nineBlocks_outside :
    ¬ ∀ (junk : Junk) (disk : List Byte) (fs : UnixFilesystem),
      unixfilesystemInit junk disk = .ok fs → ∀ call : BlockCall, call.InBounds fs junk := by
  intro h
  have hcall := h zeroJunk _ _ (unixfilesystemInit_imageOf nineBlocksInodes [] zeroJunk)
    (.getblock (1 : Nat) 8)
  rw [getblock_inBounds_iff] at hcall
  have hinode : inodeOf (imageOf nineBlocksInodes []) 1 = plainInode 0x8000 0x1200 3 := by
    rw [inodeOf_imageOf _ _ (by decide) (by decide)]
    decide
  have ha : AllocatedAt (imageFs nineBlocksInodes []).disk 1 (plainInode 0x8000 0x1200 3) :=
    allocatedAt_imageOf (n := 1) (by decide) (by decide) hinode (by decide)
  rcases hcall _ (inodeIget_allocated ha _) (by decide) with hlt | hge
  · exact absurd hlt (by decide)
  · rw [inodeGetsize_plainInode] at hge
    exact absurd hge (by decide)

end Acso.FileSystem
