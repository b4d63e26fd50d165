import Acso.FileSystem.DiskCalls
import Acso.FileSystem.StoredGraph

/-!
# Rewriting files

A sector that is written with `diskimg_writesector` may be one that says where files are
(`IsMeta`) or one that only holds contents.  As long as calls on the image write none of the
first kind, every path leads where it has led before, and each file has in each block what was
last written to its sector (`rewriting_files`).
-/

namespace Acso.FileSystem

open Acso.Lib

/-- What a sector holds after the calls. -/
def bytesAfter (calls : List DiskCall) (disk : List Byte) (k : Nat) : List Byte :=
  ((lastWritten k calls).map Sector.bytes).getD (sectorBytes disk k)

/-- The contents of a file after the calls. -/
def contentsAfter (calls : List DiskCall) (disk : List Byte) (inode : Inode) : List Byte :=
  ((fileBlocks disk inode).flatMap fun p => bytesAfter calls disk p.sector).take (inodeGetsize inode)

section

variable {ν : Type}

/-- The sector of an inode, one on the way to a block, or one of a directory. -/
def IsMeta (disk : List Byte) (graph : ν → FileNode ν) (number : ν → Nat) (k : Nat) : Prop :=
  ∃ x, k = inodeSector (number x) ∨ ∃ p ∈ fileBlocks disk (inodeOf disk (number x)),
    k ∈ p.indirect ∨ k = p.sector ∧ ∃ children, graph x = .inner children

/-- The graph with the contents after the calls. -/
def graphAfter (calls : List DiskCall) (disk : List Byte) (graph : ν → FileNode ν) (number : ν → Nat)
    (x : ν) : FileNode ν :=
  match graph x with
  | .leaf _ => .leaf (contentsAfter calls disk (inodeOf disk (number x)))
  | .inner children => .inner children

theorem child_graphAfter (calls : List DiskCall) (disk : List Byte) (graph : ν → FileNode ν)
    (number : ν → Nat) (x : ν) (name : List Byte) :
    (graphAfter calls disk graph number x).child name = (graph x).child name := by
  rw [graphAfter]
  cases graph x <;> rfl

/-- Paths lead where they have led before. -/
theorem resolve_graphAfter (calls : List DiskCall) (disk : List Byte) (graph : ν → FileNode ν)
    (number : ν → Nat) (start : ν) (path : List (List Byte)) :
    resolve (graphAfter calls disk graph number) start path = resolve graph start path := by
  induction path generalizing start with
  | nil => rfl
  | cons name path ih =>
    rw [resolve_cons, resolve_cons, child_graphAfter]
    exact congrArg _ (funext ih)

end

/-! ## Sectors after the calls -/

section

variable {a : SectorArray} {fd : Descriptor} (hholds : Holds a fd) (hw : a.readOnly = false)
  (calls : List DiskCall)
include hholds hw

theorem sectorInside_after {k : Nat} (h : SectorInside fd.bytes k) :
    SectorInside (runCalls diskCall calls fd).2.bytes k := by
  have hend := (diskCall_sameReturns.run calls hholds).2
  have hlen := (runCalls_at hw calls k).2.1
  have hle := Nat.mul_le_mul_left diskimgSectorSize (Nat.le_max_left a.sectors.length (reach calls))
  rw [SectorInside, hholds.bytes, length_image] at h
  rw [SectorInside, hend.bytes, length_image, hlen]
  exact h.trans hle

/-- **A sector of the image** holds what was last written to it. -/
theorem sectorBytes_after {k : Nat} (h : SectorInside fd.bytes k) :
    sectorBytes (runCalls diskCall calls fd).2.bytes k = bytesAfter calls fd.bytes k := by
  have hend := (diskCall_sameReturns.run calls hholds).2
  obtain ⟨hat, hlen, -⟩ := runCalls_at hw calls k
  have hk : k < a.sectors.length := by
    rw [SectorInside, hholds.bytes, length_image, diskimgSectorSize] at h
    omega
  rw [hend.bytes, bytesAfter, hholds.bytes, sectorBytes_image, sectorBytes_image,
    SectorArray.getElem?_eq, SectorArray.getElem?_eq, hat, hlen, if_pos hk,
    if_pos (hk.trans_le (Nat.le_max_left _ _))]
  cases lastWritten k calls <;> rfl

theorem sameSector_after {k : Nat} (h : SectorInside fd.bytes k) (hk : lastWritten k calls = none) :
    SameSector fd.bytes (runCalls diskCall calls fd).2.bytes k := by
  rw [SameSector, sectorBytes_after hholds hw calls h, bytesAfter, hk]
  rfl

/-! ## Files after the calls -/

omit hw in
/-- The sector of an inode is a whole one. -/
theorem inodeSector_inside {n : Nat} (hn : n < 2 ^ 16) {inode : Inode}
    (ha : AllocatedAt fd.bytes n inode) : SectorInside fd.bytes (inodeSector n) := by
  obtain ⟨⟨hpos, -, hin, -⟩, -⟩ := ha
  have hlt : inodeSector n < 2 ^ 22 := by
    rw [inodeSector_natCast (by omega), show sectorInodeCount = 16 from rfl, inodeStartSector]
    omega
  rw [sectorOffset_eq hlt, Int.toNat_natCast, hholds.bytes, length_image] at hin
  rw [SectorInside, hholds.bytes, length_image]
  rw [diskimgSectorSize, sizeofInode] at *
  omega

section file

variable {inode : Inode} (hr : Readable fd.bytes inode)
  (hmeta : ∀ p ∈ fileBlocks fd.bytes inode, ∀ k ∈ p.indirect, lastWritten k calls = none)
include hr hmeta

/-- A file keeps its blocks. -/
theorem fileBlocks_after : fileBlocks (runCalls diskCall calls fd).2.bytes inode =
    fileBlocks fd.bytes inode := by
  refine fileBlocks_same ?_
  intro p hp k hk
  exact sameSector_after hholds hw calls (hr.inside p hp k (by simp [BlockPath.sectors, hk]))
    (hmeta p hp k hk)

theorem readable_after : Readable (runCalls diskCall calls fd).2.bytes inode := by
  refine hr.same (fileBlocks_after hholds hw calls hr hmeta) ?_
  intro p hp k hk
  exact sectorInside_after hholds hw calls (hr.inside p hp k hk)

/-- **The contents of a file** are what was last written to its sectors. -/
theorem fileBytes_after : fileBytes (runCalls diskCall calls fd).2.bytes inode =
    contentsAfter calls fd.bytes inode := by
  have hsectors : (fileBlocks fd.bytes inode).map
        (fun p => sectorBytes (runCalls diskCall calls fd).2.bytes p.sector) =
      (fileBlocks fd.bytes inode).map fun p => bytesAfter calls fd.bytes p.sector := by
    refine List.map_congr_left ?_
    intro p hp
    exact sectorBytes_after hholds hw calls (hr.inside p hp _ (by simp [BlockPath.sectors]))
  rw [fileBytes, fileSectors, fileBlocks_after hholds hw calls hr hmeta, hsectors, contentsAfter,
    List.flatMap_def]

/-- A file whose sectors are not written keeps its sectors. -/
theorem fileSectors_after
    (hdata : ∀ p ∈ fileBlocks fd.bytes inode, lastWritten p.sector calls = none) :
    fileSectors (runCalls diskCall calls fd).2.bytes inode = fileSectors fd.bytes inode := by
  refine fileSectors_same (fileBlocks_after hholds hw calls hr hmeta) ?_
  intro p hp
  exact sameSector_after hholds hw calls (hr.inside p hp _ (by simp [BlockPath.sectors])) (hdata p hp)

end file

/-- **The image has the graph** with the new contents. -/
theorem stores_after {ν : Type} {graph : ν → FileNode ν} {number : ν → Nat}
    (h : Stores fd.bytes graph number)
    (hmeta : ∀ k, IsMeta fd.bytes graph number k → lastWritten k calls = none) :
    Stores (runCalls diskCall calls fd).2.bytes (graphAfter calls fd.bytes graph number) number := by
  have hindirect : ∀ x, ∀ p ∈ fileBlocks fd.bytes (inodeOf fd.bytes (number x)), ∀ k ∈ p.indirect,
      lastWritten k calls = none := fun x p hp k hk => hmeta k ⟨x, .inr ⟨p, hp, .inl hk⟩⟩
  have hpos : ∀ x, 0 < number x := by
    intro x
    have hpos := (h.allocated x).pos
    omega
  have hsector : ∀ x, SameSector fd.bytes (runCalls diskCall calls fd).2.bytes
      (inodeSector (number x)) := by
    intro x
    exact sameSector_after hholds hw calls (inodeSector_inside hholds (h.short x) (h.allocated x))
      (hmeta _ ⟨x, .inl rfl⟩)
  have hinode : ∀ x, inodeOf (runCalls diskCall calls fd).2.bytes (number x) =
      inodeOf fd.bytes (number x) := fun x => inodeOf_same (hpos x) (hsector x)
  refine ⟨h.short, ?_, ?_, ?_⟩
  · intro x
    have hle : number x ≤ 2 ^ 20 := by
      have := h.short x
      omega
    rw [hinode]
    exact (h.allocated x).same hle (hsector x)
  · intro x
    rw [hinode]
    exact readable_after hholds hw calls (h.readable x) (hindirect x)
  · intro x
    have hnode := h.node x
    rw [hinode, graphAfter]
    cases hx : graph x with
    | leaf contents =>
      rw [hx] at hnode
      exact ⟨hnode.1, fileBytes_after hholds hw calls (h.readable x) (hindirect x)⟩
    | inner children =>
      rw [hx] at hnode
      have hsame := fileSectors_after hholds hw calls (h.readable x) (hindirect x)
        fun p hp => hmeta _ ⟨x, .inr ⟨p, hp, .inr ⟨rfl, children, hx⟩⟩⟩
      simp only [StoresNode, namedEntries, dirEntries, fileBytes, staleSlots, dirSlots, hsame]
        at hnode ⊢
      exact hnode

end

/-- **Rewriting contents.**  Take any calls on an image with a graph of files that write to none
of the sectors that say where files are.  Then paths lead where they have led before, a file
reads as what was last written to its sectors, or as before where nothing was, and directories
have the same names. -/
theorem rewriting_files {ν Ctx : Type} (sha : Sha1 Ctx) (hsha : sha.Streaming)
    (graph : ν → FileNode ν) (number : ν → Nat) (root : ν) (hroot : number root = rootInumber)
    (fs : UnixFilesystem) (h : Stores fs.disk graph number) (a : SectorArray) (fd : Descriptor)
    (hholds : Holds a fd) (hw : a.readOnly = false) (hdisk : fd.bytes = fs.disk)
    (calls : List DiskCall)
    (hmeta : ∀ k, IsMeta fs.disk graph number k → lastWritten k calls = none)
    (pathname : List Byte) (hpath : AbsolutePath pathname) (junk : Junk) :
    let after : UnixFilesystem := { fs with disk := (runCalls diskCall calls fd).2.bytes }
    LeadsTo number IsMinusOne (pathnameLookupInPlace after junk pathname)
      (resolve graph root ((segments slash pathname).map entryPart)) ∧
    (∀ x contents, resolve graph root ((segments slash pathname).map entryPart) = some x →
      graph x = .leaf contents →
      chksumfileBypathname sha after junk pathname =
        orMinusOne (sha.digest [contentsAfter calls fs.disk (inodeOf fs.disk (number x))]) ∧
      ((∀ p ∈ fileBlocks fs.disk (inodeOf fs.disk (number x)), lastWritten p.sector calls = none) →
        contentsAfter calls fs.disk (inodeOf fs.disk (number x)) = contents)) ∧
    ∀ x children, resolve graph root ((segments slash pathname).map entryPart) = some x →
      graph x = .inner children →
      ListsAs after (number x) (children.map fun c => (c.1, number c.2)) := by
  intro after
  rw [← hdisk] at h hmeta ⊢
  have hafter : Stores after.disk (graphAfter calls fd.bytes graph number) number :=
    stores_after hholds hw calls h hmeta
  have hresolve := resolve_graphAfter calls fd.bytes graph number root
    ((segments slash pathname).map entryPart)
  refine ⟨hresolve ▸ pathnameLookup_leadsTo hafter hroot hpath junk, ?_, ?_⟩
  · intro x contents hx hleaf
    have hnew : graphAfter calls fd.bytes graph number x =
        .leaf (contentsAfter calls fd.bytes (inodeOf fd.bytes (number x))) := by
      rw [graphAfter, hleaf]
    refine ⟨chksumfileBypathname_leaf hafter hsha hroot hpath (hresolve.trans hx) hnew junk, ?_⟩
    intro hdata
    have hnode := h.node x
    rw [hleaf] at hnode
    have hbytes : ∀ p ∈ fileBlocks fd.bytes (inodeOf fd.bytes (number x)),
        bytesAfter calls fd.bytes p.sector = sectorBytes fd.bytes p.sector := by
      intro p hp
      rw [bytesAfter, hdata p hp]
      rfl
    rw [contentsAfter, List.flatMap_def, List.map_congr_left hbytes]
    exact hnode.2
  · intro x children _ hinner
    have hnew : graphAfter calls fd.bytes graph number x = .inner children := by
      rw [graphAfter, hinner]
    exact node_lists hafter hnew

/-! ## A file is rewritten -/

def padSector (bytes : List Byte) : Sector := ⟨pad bytes, length_pad bytes⟩

/-- The sectors of `homeImage`. -/
def homeArray : SectorArray where
  sectors := [padSector [0x07, 0x01], padSector [0x01, 0x00], padSector homeInodes,
    padSector homeData, padSector abcData]
  readOnly := false

def homeDescriptor : Descriptor := ⟨homeImage, false, 0⟩

theorem homeArray_holds : Holds homeArray homeDescriptor where
  bytes := by
    rw [homeDescriptor, homeImage, imageOf]
    simp [SectorArray.image, homeArray, padSector]
  readOnly := rfl

def xyzData : List Byte := [0x78, 0x79, 0x7a]

/-- The sector of the file is written, and that of the directory is read. -/
def xyzCalls : List DiskCall := [.writesector 4 (padSector xyzData), .readsector 3 zeroSector]

theorem home_blocks (x : HomeNode) : fileBlocks homeImage (inodeOf homeImage (homeNumber x)) =
    match x with
    | .root => [⟨[], 3⟩]
    | .a => [⟨[], 4⟩] := by
  rw [home_inodes]
  cases x with
  | root => exact fileBlocks_plainInode _ _ (by decide) (by decide) (by decide)
  | a => exact fileBlocks_plainInode _ _ (by decide) (by decide) (by decide)

theorem home_meta {k : Nat} (h : IsMeta homeImage homeGraph homeNumber k) : k = 2 ∨ k = 3 := by
  obtain ⟨x, rfl | ⟨p, hp, h⟩⟩ := h
  · cases x <;> exact .inl rfl
  · rw [home_blocks] at hp
    cases x with
    | root =>
      obtain rfl := List.mem_singleton.mp hp
      exact .inr (h.elim (fun h => absurd h List.not_mem_nil) And.left)
    | a =>
      obtain rfl := List.mem_singleton.mp hp
      obtain h | ⟨-, children, h⟩ := h
      · exact absurd h List.not_mem_nil
      · cases h

/-- Then `/a` has the new contents. -/
theorem home_rewritten :
    chksumfileBypathname abcSha1 ⟨(runCalls diskCall xyzCalls homeDescriptor).2.bytes, 1⟩ zeroJunk
      [slash, 0x61] = orMinusOne (abcSha1.digest [xyzData]) := by
  have hmeta : ∀ k, IsMeta homeFs.disk homeGraph homeNumber k → lastWritten k xyzCalls = none := by
    intro k hk
    rcases home_meta hk with rfl | rfl <;> rfl
  have hfile := (rewriting_files abcSha1 abcSha1_streaming homeGraph homeNumber .root rfl homeFs
    home_stores homeArray homeDescriptor homeArray_holds rfl rfl xyzCalls hmeta [slash, 0x61]
    ⟨by decide, by decide⟩ zeroJunk).2.1 .a abcData (by decide) rfl
  have hcontents : contentsAfter xyzCalls homeFs.disk (inodeOf homeFs.disk (homeNumber .a)) =
      xyzData := by
    show contentsAfter xyzCalls homeImage (inodeOf homeImage (homeNumber .a)) = xyzData
    rw [contentsAfter, home_blocks, home_inodes]
    show (bytesAfter xyzCalls homeImage 4 ++ []).take 3 = xyzData
    have hlast : lastWritten 4 xyzCalls = some (padSector xyzData) := rfl
    rw [bytesAfter, hlast]
    decide
  rw [hcontents] at hfile
  exact hfile.1

end Acso.FileSystem
