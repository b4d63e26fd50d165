import Acso.Lib.Naming
import Acso.Lib.Splice
import Acso.FileSystem.Footprint
import Acso.FileSystem.PathDump
import Acso.FileSystem.PathWalk

/-!
# The files behind the paths

What an image is for is a graph of files and directories, without inodes and sectors.
`Stores` says that an image has such a graph.  Then every absolute path leads where the graph
leads it, and reading from there gives the contents (`storedGraph_lookup`).

A component of a path stands for its first 14 characters.  A name may lead to a directory
further up, so the entries `.` and `..` are names like the others.
-/

namespace Acso.FileSystem

open Acso.Lib

/-- Files have contents, directories have names. -/
abbrev FileNode (ν : Type) := Node ν (List Byte) (List Byte)

/-- What a component of a path stands for. -/
def entryPart (component : List Byte) : List Byte := component.take 14

/-- The entries of a directory whose names are not empty. -/
def namedEntries (disk : List Byte) (inode : Inode) : List Direntv6 :=
  (dirEntries disk inode).filter fun e => decide (e.name ≠ [])

section

variable {ν : Type}

/-- The inode is that of a node.  Behind the size of a directory no slot has a name. -/
def StoresNode (disk : List Byte) (number : ν → Nat) (inode : Inode) : FileNode ν → Prop
  | .leaf contents => inode.mode &&& ifdir = 0 ∧ fileBytes disk inode = contents
  | .inner children => inode.mode &&& ifmt = ifdir ∧
      inodeGetsize inode % sizeofDirentv6 = 0 ∧
      (namedEntries disk inode).map (fun e => (e.name, e.dInumber.toNat)) =
        children.map (fun c => (c.1, number c.2)) ∧
      ∀ e ∈ staleSlots disk inode, e.name = []

/-- **The image has the graph**, with the inode numbers of its nodes. -/
structure Stores (disk : List Byte) (graph : ν → FileNode ν) (number : ν → Nat) : Prop where
  /-- Inode numbers have 16 bits. -/
  short : ∀ x, number x < 2 ^ 16
  allocated : ∀ x, AllocatedAt disk (number x) (inodeOf disk (number x))
  readable : ∀ x, Readable disk (inodeOf disk (number x))
  node : ∀ x, StoresNode disk number (inodeOf disk (number x)) (graph x)

/-! ## Looking a component up -/

/-- A component of a string. -/
structure Component (w : List Byte) : Prop extends IsToken slash w where
  nul : 0 ∉ w

theorem Component.entryName {w : List Byte} (h : Component w) : EntryName (entryPart w) where
  pos := by
    have hpos := List.length_pos_iff.mpr h.ne_nil
    rw [entryPart, List.length_take]
    omega
  le := List.length_take_le 14 w
  noNul := fun hmem => h.nul (List.mem_of_mem_take hmem)

/-- Characters behind the fourteenth are not compared. -/
theorem carries_entryPart {w : List Byte} (h : Component w) (entry : Direntv6) :
    entry.Carries w ↔ entry.Carries (entryPart w) := by
  rw [Direntv6.Carries, Direntv6.Carries, strncmp_eq_zero_iff, strncmp_eq_zero_iff,
    cstring_eq_self h.nul, cstring_eq_self h.entryName.noNul, entryPart, List.take_take, Nat.min_self]

theorem findnameLoop_congr {name name' : List Byte}
    (h : ∀ entry : Direntv6, entry.Carries name ↔ entry.Carries name') (fs : UnixFilesystem)
    (junk : Junk) (dirInode : Inode) (blocks : List Nat) (buf : Sector) :
    findnameLoop fs junk name dirInode blocks buf =
      findnameLoop fs junk name' dirInode blocks buf := by
  have hpred : (fun e : Direntv6 => decide (e.Carries name)) = fun e => decide (e.Carries name') :=
    funext fun e => decide_eq_decide.mpr (h e)
  rw [findnameLoop_scan, findnameLoop_scan, hpred]

theorem directoryFindname_entryPart {w : List Byte} (h : Component w) (fs : UnixFilesystem)
    (junk : Junk) (dirinumber : Int) :
    directoryFindname fs junk w dirinumber = directoryFindname fs junk (entryPart w) dirinumber := by
  simp only [directoryFindname, findnameLoop_congr (carries_entryPart h)]

/-- Among the slots of a directory only the named entries can have a name. -/
theorem find?_dirSlots {disk : List Byte} {inode : Inode} (hr : Readable disk inode)
    (hstale : ∀ e ∈ staleSlots disk inode, e.name = []) {name : List Byte} (hname : name ≠ []) :
    (dirSlots disk inode).find? (fun e => decide (e.name = name)) =
      (namedEntries disk inode).find? fun e => decide (e.name = name) := by
  have hnone : (staleSlots disk inode).find? (fun e => decide (e.name = name)) = none := by
    rw [List.find?_eq_none]
    intro e he
    rw [hstale e he, decide_eq_true_eq]
    exact hname.symm
  have hpred : (fun e : Direntv6 => decide (decide (e.name ≠ []) ∧ decide (e.name = name))) =
      fun e => decide (e.name = name) := by
    funext e
    rw [decide_eq_decide, decide_eq_true_eq, decide_eq_true_eq]
    exact and_iff_right_of_imp fun heq => heq ▸ hname
  rw [dirSlots_eq hr, List.find?_append, hnone, Option.or_none, namedEntries, List.find?_filter, hpred]

/-! ## Reading the contents -/

/-- A chunk is a piece of the contents. -/
theorem getElem?_fileChunks {disk : List Byte} {inode : Inode} (hr : Readable disk inode) {b : Nat}
    (hb : b < blockCount (inodeGetsize inode)) : (fileChunks disk inode)[b]? =
      some (((fileBytes disk inode).drop (diskimgSectorSize * b)).take diskimgSectorSize) := by
  have hblock := block_flatten (length_of_mem_fileSectors hr) b
  have hin : b < (fileSectors disk inode).length := hb.trans_eq (length_fileSectors hr).symm
  rw [List.getElem?_eq_getElem hin, Option.getD_some] at hblock
  rw [fileChunks, List.getElem?_mapIdx, List.getElem?_eq_getElem hin, Option.map_some, fileBytes,
    List.drop_take, List.take_take, Nat.min_comm, ← List.take_take, hblock]

/-- Reading an inode gives the contents, block by block and hashed. -/
structure ReadsAs {Ctx : Type} (sha : Sha1 Ctx) (fs : UnixFilesystem) (inumber : Nat)
    (contents : List Byte) : Prop where
  block : ∀ (b : Nat) junk buf, diskimgSectorSize * b < contents.length →
    ∃ (count : Nat) (buf' : Sector), fileGetblock fs junk inumber b buf = .ok ((count : Int), buf') ∧
      buf'.bytes.take count = (contents.drop (diskimgSectorSize * b)).take diskimgSectorSize
  outside : ∀ (b : Int) junk buf, ¬ (0 ≤ b ∧ diskimgSectorSize * b < contents.length) →
    fileGetblock fs junk inumber b buf = .error (.minusOne [])
  checksum : ∀ junk,
    chksumfileByinumber sha fs junk inumber = orMinusOne (sha.digest [contents])

theorem readsAs_fileBytes {Ctx : Type} {sha : Sha1 Ctx} (hsha : sha.Streaming) {fs : UnixFilesystem}
    {inumber : Nat} {inode : Inode} (ha : AllocatedAt fs.disk inumber inode)
    (hr : Readable fs.disk inode) : ReadsAs sha fs inumber (fileBytes fs.disk inode) where
  block := by
    intro b junk buf hb
    rw [length_fileBytes hr, ← lt_blockCount_iff] at hb
    obtain ⟨buf', hget, htake⟩ := fileGetblock_chunk ha hr (getElem?_fileChunks hr hb) junk buf
    exact ⟨_, buf', hget, htake⟩
  outside := by
    intro b junk buf hb
    refine fileGetblock_outside ha ?_ junk buf
    rintro ⟨hpos, hlt⟩
    obtain ⟨n, rfl⟩ := Int.eq_ofNat_of_zero_le hpos
    rw [Int.ofNat_lt, lt_blockCount_iff] at hlt
    rw [length_fileBytes hr] at hb
    exact hb ⟨hpos, by omega⟩
  checksum := by
    intro junk
    rw [chksumfileByinumber_eq sha ha hr]
    simp only [Sha1.digest, hsha.foldlM_update, fileChunks_flatten hr, List.flatten_singleton]

/-- Listing an inode gives the names and where they lead, and perhaps entries without a name. -/
def ListsAs (fs : UnixFilesystem) (inumber : Nat) (names : List (List Byte × Nat)) : Prop :=
  ∃ entries : List Direntv6,
    (entries.filter fun e => decide (e.name ≠ [])).map (fun e => (e.name, e.dInumber.toNat)) = names ∧
    ∀ (junk : Junk) (maxNumEntries : Int), 1 ≤ maxNumEntries → (entries.length : Int) ≤ maxNumEntries →
      getDirEntries fs junk inumber maxNumEntries = .ok entries

/-! ## Following a path -/

/-- The lookup fails with a negative number. -/
def IsMinusOne (e : Failure) : Prop := ∃ stderr, e = .minusOne stderr

section

variable {fs : UnixFilesystem} {graph : ν → FileNode ν} {number : ν → Nat}
  (h : Stores fs.disk graph number)
include h

/-- **One step of a lookup** is one step in the graph. -/
theorem lookupStep_leadsTo {w : List Byte} (hw : Component w) (junk : Junk) (i : Nat) (x : ν) :
    LeadsTo number IsMinusOne (lookupStep fs junk i w (number x))
      ((graph x).child (entryPart w)) := by
  have ha := h.allocated x
  have hr := h.readable x
  have hnode := h.node x
  rw [lookupStep, directoryFindname_entryPart hw]
  cases hgraph : graph x with
  | leaf contents =>
    rw [hgraph] at hnode
    refine ⟨.minusOne [], ⟨[], rfl⟩, ?_⟩
    rw [directoryFindname, inodeIget_allocated ha, ok_bind, if_pos hnode.1]
    rfl
  | inner children =>
    rw [hgraph] at hnode
    obtain ⟨hdir, -, hchildren, hstale⟩ := hnode
    have hname := hw.entryName
    have hne : entryPart w ≠ [] := List.length_pos_iff.mp hname.pos
    have hfind : ((namedEntries fs.disk (inodeOf fs.disk (number x))).find?
          fun e => decide (e.name = entryPart w)).map (fun e => e.dInumber.toNat) =
        ((graph x).child (entryPart w)).map number := by
      have hboth := congrArg (fun l => (l.find? fun c => decide (c.1 = entryPart w)).map Prod.snd)
        hchildren
      simp only [List.find?_map, Option.map_map] at hboth
      rw [hgraph, Node.child, Option.map_map]
      exact hboth
    rw [hgraph] at hfind
    rw [directoryFindname_eq ha hr (ifdir_ne_zero hdir) hname, find?_dirSlots hr hstale hne]
    cases hentry : (namedEntries fs.disk (inodeOf fs.disk (number x))).find?
        fun e => decide (e.name = entryPart w) with
    | none =>
      rw [hentry, Option.map_none, eq_comm, Option.map_eq_none_iff] at hfind
      rw [hfind]
      exact ⟨.minusOne [], ⟨[], rfl⟩, rfl⟩
    | some e =>
      rw [hentry, Option.map_some, eq_comm, Option.map_eq_some_iff] at hfind
      obtain ⟨y, hy, hnumber⟩ := hfind
      rw [hy]
      exact congrArg Except.ok hnumber.symm

/-- **A lookup** leads where the graph leads. -/
theorem pathnameLookup_leadsTo {root : ν} (hroot : number root = rootInumber) {pathname : List Byte}
    (hpath : AbsolutePath pathname) (junk : Junk) :
    LeadsTo number IsMinusOne (pathnameLookupInPlace fs junk pathname)
      (resolve graph root ((segments slash pathname).map entryPart)) := by
  have hcomponent : ∀ c ∈ (segments slash pathname).zipIdx, Component c.1 := by
    intro c hc
    have hmem : c.1 ∈ segments slash pathname := List.fst_mem_of_mem_zipIdx hc
    exact ⟨isToken_of_mem_segments hmem, fun hnul => hpath.nul (subset_of_mem_segments hmem hnul)⟩
  have hnames : (segments slash pathname).zipIdx.map (fun c => entryPart c.1) =
      (segments slash pathname).map entryPart := by
    rw [← Function.comp_def entryPart Prod.fst, ← List.map_map, List.zipIdx_map_fst]
  rw [lookup_eq_walk fs junk hpath, walk, ← hnames, ← hroot]
  exact leadsTo_foldlM (fun c hc x => lookupStep_leadsTo h (hcomponent c hc) junk c.2 x) root

theorem node_reads {Ctx : Type} {sha : Sha1 Ctx} (hsha : sha.Streaming) {x : ν}
    {contents : List Byte} (hx : graph x = .leaf contents) : ReadsAs sha fs (number x) contents := by
  have hnode := h.node x
  rw [hx] at hnode
  exact hnode.2 ▸ readsAs_fileBytes hsha (h.allocated x) (h.readable x)

theorem chksumfileBypathname_leaf {Ctx : Type} {sha : Sha1 Ctx} (hsha : sha.Streaming) {root : ν}
    (hroot : number root = rootInumber) {pathname : List Byte} (hpath : AbsolutePath pathname) {x : ν}
    (hx : resolve graph root ((segments slash pathname).map entryPart) = some x)
    {contents : List Byte} (hcontents : graph x = .leaf contents) (junk : Junk) :
    chksumfileBypathname sha fs junk pathname = orMinusOne (sha.digest [contents]) := by
  have hlookup := pathnameLookup_leadsTo h hroot hpath (junk.sub 0)
  rw [hx, pathnameLookupInPlace_eq fs _ hpath.nul] at hlookup
  rw [chksumfileBypathname, hlookup, ok_bind, (node_reads h hsha hcontents).checksum]

theorem node_lists {x : ν} {children : List (List Byte × ν)} (hx : graph x = .inner children) :
    ListsAs fs (number x) (children.map fun c => (c.1, number c.2)) := by
  have hnode := h.node x
  rw [hx] at hnode
  obtain ⟨hdir, hsize, hchildren, -⟩ := hnode
  refine ⟨dirEntries fs.disk (inodeOf fs.disk (number x)), hchildren, ?_⟩
  intro junk maxNumEntries hpos hmax
  rw [length_dirEntries] at hmax
  exact getDirEntries_eq (h.allocated x) (h.readable x) hdir hsize junk hpos hmax

end

end

/-- **The file system shows the graph.**  Every absolute path leads to the inode of the node that
its components lead to, or to an error if they lead nowhere.  Where it leads to a file, the
blocks and the checksum are those of its contents, and where it leads to a directory, the
listing is that of its names. -/
theorem storedGraph_lookup {ν Ctx : Type} (sha : Sha1 Ctx) (hsha : sha.Streaming)
    (fs : UnixFilesystem) (graph : ν → FileNode ν) (number : ν → Nat)
    (h : Stores fs.disk graph number) (root : ν) (hroot : number root = rootInumber)
    (pathname : List Byte) (hpath : AbsolutePath pathname) :
    (∀ junk, LeadsTo number IsMinusOne (pathnameLookupInPlace fs junk pathname)
      (resolve graph root ((segments slash pathname).map entryPart))) ∧
    ∀ x, resolve graph root ((segments slash pathname).map entryPart) = some x →
      (∀ contents, graph x = .leaf contents → ReadsAs sha fs (number x) contents ∧
        ∀ junk, chksumfileBypathname sha fs junk pathname = orMinusOne (sha.digest [contents])) ∧
      ∀ children, graph x = .inner children →
        ListsAs fs (number x) (children.map fun c => (c.1, number c.2)) := by
  refine ⟨fun junk => pathnameLookup_leadsTo h hroot hpath junk, ?_⟩
  intro x hx
  refine ⟨?_, fun children hchildren => node_lists h hchildren⟩
  intro contents hcontents
  exact ⟨node_reads h hsha hcontents,
    fun junk => chksumfileBypathname_leaf h hsha hroot hpath hx hcontents junk⟩

/-! ## A directory with a file -/

theorem sameSector_append {disk : List Byte} {k : Nat} (h : SectorInside disk k) (more : List Byte) :
    SameSector disk (disk ++ more) k := by
  rw [SectorInside] at h
  rw [SameSector, sectorBytes, sectorBytes, List.drop_append_of_le_length (by omega),
    List.take_append_of_le_length (by rw [List.length_drop]; omega)]

theorem readable_oneBlock {disk : List Byte} {mode size addr : BitVec 16}
    (hsmall : mode &&& ilarg = 0) (hpos : 0 < size.toNat) (hle : size.toNat ≤ diskimgSectorSize)
    (hin : SectorInside disk addr.toNat) : Readable disk (plainInode mode size addr) where
  small := by
    intro _
    rw [inodeGetsize_plainInode]
    exact hle.trans (by decide)
  inside := by
    intro p hp k hk
    rw [fileBlocks_plainInode _ _ hsmall hpos hle, List.mem_singleton] at hp
    obtain rfl : k = addr.toNat := by simpa [hp, BlockPath.sectors] using hk
    exact hin

/-- Inode 1 is a directory of two entries in sector 3, inode 2 a file of three bytes in sector 4. -/
def homeInodes : List Byte :=
  [0x00, 0xc0, 0, 0, 0, 0, 0x20, 0x00, 0x03, 0x00] ++ List.replicate 22 0 ++
    [0x00, 0x80, 0, 0, 0, 0, 0x03, 0x00, 0x04, 0x00]

/-- The entries `.` of inode 1 itself and `a` of inode 2. -/
def homeData : List Byte :=
  [0x01, 0x00, 0x2e] ++ List.replicate 13 0 ++ [0x02, 0x00, 0x61]

def homeImage : List Byte := imageOf homeInodes homeData ++ pad abcData

def homeFs : UnixFilesystem := ⟨homeImage, 1⟩

inductive HomeNode
  | root
  | a
  deriving DecidableEq

def homeGraph : HomeNode → FileNode HomeNode
  | .root => .inner [([0x2e], .root), ([0x61], .a)]
  | .a => .leaf abcData

def homeNumber : HomeNode → Nat
  | .root => 1
  | .a => 2

def homeInode : HomeNode → Inode
  | .root => plainInode 0xc000 0x20 3
  | .a => plainInode 0x8000 3 4

theorem home_sector {k : Nat} (hk : k < 5) : SectorInside homeImage k := by
  rw [SectorInside, homeImage, List.length_append, length_imageOf, length_pad, diskimgSectorSize]
  omega

theorem home_bytes : sectorBytes homeImage 3 = pad homeData ∧ sectorBytes homeImage 4 = pad abcData := by
  have hlen : (imageOf homeInodes homeData).length = diskimgSectorSize * 4 := length_imageOf _ _
  refine ⟨?_, ?_⟩
  · rw [homeImage, sameSector_append (sectorInside_imageOf _ _ (by decide)), sectorBytes_imageOf]
  · rw [sectorBytes, homeImage, ← hlen, List.drop_left]
    exact List.take_of_length_le (Nat.le_of_eq (length_pad _))

theorem inodeOf_homeImage {n : Nat} (hpos : 0 < n) (hn : n ≤ 16) : inodeOf homeImage n =
    Inode.ofBytes (((pad homeInodes).drop (sizeofInode * (n - 1))).take sizeofInode) := by
  have hdiv : (n - 1) / 16 = 0 := by omega
  have hsector : inodeSector n = 2 := by
    rw [inodeSector_natCast hpos, show sectorInodeCount = 16 from rfl, hdiv]
    rfl
  have hsame := sameSector_append (sectorInside_imageOf homeInodes homeData (k := 2) (by decide))
    (pad abcData)
  rw [homeImage, inodeOf_same hpos (hsector ▸ hsame), inodeOf_imageOf _ _ hn hpos]

theorem home_inodes (x : HomeNode) : inodeOf homeImage (homeNumber x) = homeInode x := by
  cases x with
  | root =>
    rw [homeNumber, inodeOf_homeImage (by decide) (by decide)]
    decide
  | a =>
    rw [homeNumber, inodeOf_homeImage (by decide) (by decide)]
    decide

theorem home_allocated (x : HomeNode) :
    AllocatedAt homeImage (homeNumber x) (inodeOf homeImage (homeNumber x)) := by
  have hpos : 0 < homeNumber x := by cases x <;> decide
  have hle : homeNumber x ≤ 2 ^ 20 := by cases x <;> decide
  have hsector : inodeSector (homeNumber x) < 5 := by cases x <;> decide
  refine ⟨storedAt_inodeOf hpos hle (home_sector hsector), ?_⟩
  rw [home_inodes]
  cases x <;> decide

theorem home_readable (x : HomeNode) : Readable homeImage (inodeOf homeImage (homeNumber x)) := by
  rw [home_inodes]
  cases x with
  | root => exact readable_oneBlock (by decide) (by decide) (by decide) (home_sector (by decide))
  | a => exact readable_oneBlock (by decide) (by decide) (by decide) (home_sector (by decide))

theorem home_slots : dirSlots homeImage (plainInode 0xc000 0x20 3) = direntsOf (pad homeData) := by
  rw [dirSlots, fileSectors, fileBlocks_plainInode _ _ (by decide) (by decide) (by decide)]
  exact (List.flatMap_singleton direntsOf _).trans (congrArg direntsOf home_bytes.1)

/-- The image has the graph. -/
theorem home_stores : Stores homeFs.disk homeGraph homeNumber where
  short := by
    intro x
    cases x <;> decide
  allocated := home_allocated
  readable := home_readable
  node := by
    intro x
    show StoresNode homeImage homeNumber (inodeOf homeImage (homeNumber x)) (homeGraph x)
    have hr := home_readable x
    rw [home_inodes] at hr ⊢
    cases x with
    | root =>
      rw [homeInode] at hr ⊢
      have hentries : dirEntries homeImage (plainInode 0xc000 0x20 3) =
          (direntsOf (pad homeData)).take 2 := by
        rw [← take_dirSlots hr, home_slots]
        rfl
      have hstale : staleSlots homeImage (plainInode 0xc000 0x20 3) =
          (direntsOf (pad homeData)).drop 2 := by
        rw [staleSlots, home_slots]
        rfl
      refine ⟨by decide, by decide, ?_, ?_⟩
      · rw [namedEntries, hentries]
        decide
      · rw [hstale]
        decide
    | a =>
      refine ⟨by decide, ?_⟩
      rw [homeInode, fileBytes, fileSectors,
        fileBlocks_plainInode _ _ (by decide) (by decide) (by decide)]
      show [sectorBytes homeImage 4].flatten.take 3 = abcData
      rw [home_bytes.2]
      decide

theorem abcSha1_streaming : abcSha1.Streaming :=
  ⟨fun ctx => by simp [abcSha1], fun ctx a b => by simp [abcSha1]⟩

/-- The path `/./a` leads to the file. -/
theorem home_lookup : chksumfileBypathname abcSha1 homeFs zeroJunk [slash, 0x2e, slash, 0x61] =
    orMinusOne (abcSha1.digest [abcData]) :=
  (((storedGraph_lookup abcSha1 abcSha1_streaming homeFs homeGraph homeNumber home_stores .root rfl
    [slash, 0x2e, slash, 0x61] ⟨by decide, by decide⟩).2 .a (by decide)).1 abcData rfl).2 zeroJunk

end Acso.FileSystem
