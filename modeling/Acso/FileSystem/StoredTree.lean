import Mathlib.Data.Set.List
import Acso.FileSystem.StoredGraph
import Acso.FileSystem.TreeDump

/-!
# A tree of files

Without the names `.` and `..` a graph of files can be a tree.  `FileTree` says when, by the names
and the paths of the graph alone.  The edges of an image with the graph are those of the graph
(`childrenOn_number`), so it is a sound tree (`StoresTree.treeImage`), and the path dump shows
the paths of the graph in preorder (`pathDump_shows`).  The inode dump shows the nodes of the
graph up to the first inode that is not in use (`inodeDump_shows`).
-/

namespace Acso.FileSystem

open Acso.Lib

section

variable {ν : Type}

/-- The children of a node without `.` and `..`. -/
def subnodes (graph : ν → FileNode ν) (x : ν) : List (List Byte × ν) :=
  match graph x with
  | .leaf _ => []
  | .inner children => children.filter fun c => decide (¬ IsDots c.1)

/-- Names that end with a NUL in their entry, each of them once, and not too many of them. -/
structure SoundNames (children : List (List Byte × ν)) : Prop where
  names : ∀ c ∈ children, IsToken slash c.1 ∧ c.1.length ≤ 13
  unique : (children.map Prod.fst).Nodup
  fits : children.length ≤ maxDirentries

/-- Below the root names are sound, and paths are short. -/
structure FileTree (graph : ν → FileNode ν) (root : ν) : Prop where
  sound : ∀ q x children, Walk (subnodes graph) root q x → graph x = .inner children →
    SoundNames children
  short : ∀ q x, Walk (subnodes graph) root q x → (pathOf q).length ≤ 1008

/-- **The image has the tree.** -/
structure StoresTree (disk : List Byte) (graph : ν → FileNode ν) (number : ν → Nat) (root : ν) :
    Prop extends Stores disk graph number where
  start : number root = rootInumber
  tree : FileTree graph root
  /-- All entries of a directory have names. -/
  compact : ∀ x children, graph x = .inner children →
    inodeGetsize (inodeOf disk (number x)) = sizeofDirentv6 * children.length

end

/-! ## The edges of the image -/

theorem length_le_joinTokens (q : List (List Byte)) : q.length ≤ (joinTokens slash q).length := by
  induction q with
  | nil => exact Nat.zero_le _
  | cons w q ih =>
    rw [joinTokens] at ih ⊢
    rw [List.flatMap_cons, List.length_append, List.length_cons, List.length_cons]
    omega

theorem length_le_pathOf (q : List (List Byte)) : q.length ≤ (pathOf q).length := by
  rw [pathOf]
  split
  · rename_i hq
    rw [hq]
    exact Nat.zero_le _
  · exact length_le_joinTokens q

namespace StoresTree

variable {ν : Type} {disk : List Byte} {graph : ν → FileNode ν} {number : ν → Nat} {root : ν}
  (h : StoresTree disk graph number root)
include h

/-- A node that is a directory on the image. -/
theorem inner_of_isDirectory {x : ν} (hdir : IsDirectory disk (number x)) :
    ∃ children, graph x = .inner children := by
  have hnode := h.node x
  cases hx : graph x with
  | leaf contents =>
    rw [hx] at hnode
    exact absurd hnode.1 (ifdir_ne_zero hdir)
  | inner children => exact ⟨children, rfl⟩

/-- **The entries of a directory** are the names of its node. -/
theorem dirEntries_number {x : ν} {children : List (List Byte × ν)} (hx : graph x = .inner children) :
    (dirEntries disk (inodeOf disk (number x))).map (fun e => (e.name, e.dInumber.toNat)) =
      children.map fun c => (c.1, number c.2) := by
  have hnode := h.node x
  rw [hx] at hnode
  obtain ⟨-, -, hchildren, -⟩ := hnode
  have hlen := congrArg List.length hchildren
  have hentries := length_dirEntries disk (inodeOf disk (number x))
  rw [h.compact x children hx, Nat.mul_div_cancel_left _ (by decide)] at hentries
  rw [List.length_map, List.length_map, namedEntries] at hlen
  have hall := List.length_filter_eq_length_iff.mp (hlen.trans hentries.symm)
  rw [← hchildren, namedEntries, List.filter_eq_self.mpr hall]

theorem childrenOn_number (x : ν) :
    childrenOn disk (number x) = (subnodes graph x).map fun c => (c.1, number c.2) := by
  have hnode := h.node x
  cases hx : graph x with
  | leaf contents =>
    rw [hx] at hnode
    have hdir : ¬ IsDirectory disk (number x) := fun hdir => ifdir_ne_zero hdir hnode.1
    rw [childrenOn, if_neg hdir, subnodes, hx]
    rfl
  | inner children =>
    rw [hx] at hnode
    have hdir : IsDirectory disk (number x) := hnode.1
    have hedges : edgesOf (dirEntries disk (inodeOf disk (number x))) =
        ((dirEntries disk (inodeOf disk (number x))).map
          fun e => (e.name, e.dInumber.toNat)).filter fun c => decide (¬ IsDots c.1) := by
      rw [edgesOf, List.filter_map]
      rfl
    rw [childrenOn, if_pos hdir, hedges, h.dirEntries_number hx, subnodes, hx, List.filter_map]
    rfl

theorem walk_number {q : List (List Byte)} {i : Nat}
    (hwalk : Walk (childrenOn disk) rootInumber q i) :
    ∃ x, number x = i ∧ Walk (subnodes graph) root q x := by
  rw [← h.start] at hwalk
  exact hwalk.of_map h.childrenOn_number

/-- A directory of the tree. -/
theorem directory {i : Nat} (hi : Reached disk i) (hdir : IsDirectory disk i) :
    ∃ x children, number x = i ∧ graph x = .inner children ∧ SoundNames children := by
  obtain ⟨q, hq⟩ := hi
  obtain ⟨x, rfl, hwalk⟩ := h.walk_number hq
  obtain ⟨children, hx⟩ := h.inner_of_isDirectory hdir
  exact ⟨x, children, rfl, hx, h.tree.sound q x children hwalk hx⟩

/-- **An image with a tree** is a sound tree. -/
theorem treeImage : TreeImage disk where
  allocated := by
    rintro i ⟨q, hq⟩
    obtain ⟨x, rfl, -⟩ := h.walk_number hq
    exact h.allocated x
  readable := by
    rintro i ⟨q, hq⟩
    obtain ⟨x, rfl, -⟩ := h.walk_number hq
    exact h.readable x
  sizes := by
    intro i hi hdir
    obtain ⟨x, children, rfl, hx, hsound⟩ := h.directory hi hdir
    rw [h.compact x children hx, Nat.mul_mod_right, Nat.mul_div_cancel_left _ (by decide)]
    exact ⟨rfl, hsound.fits⟩
  entries := by
    intro i hi hdir e he
    obtain ⟨x, children, rfl, hx, hsound⟩ := h.directory hi hdir
    have hmem : (e.name, e.dInumber.toNat) ∈ children.map fun c => (c.1, number c.2) := by
      rw [← h.dirEntries_number hx]
      exact List.mem_map_of_mem (f := fun e : Direntv6 => (e.name, e.dInumber.toNat)) he
    obtain ⟨c, hc, heq⟩ := List.mem_map.mp hmem
    obtain ⟨hname, hnumber⟩ := Prod.mk.inj heq
    have hpos := (h.allocated c.2).pos
    refine ⟨fun hzero => ?_, hname ▸ hsound.names c hc⟩
    rw [hnumber, hzero] at hpos
    exact absurd hpos (by decide)
  unique := by
    intro i hi hdir
    obtain ⟨x, children, rfl, hx, hsound⟩ := h.directory hi hdir
    have hnames := congrArg (List.map Prod.fst) (h.dirEntries_number hx)
    rw [List.map_map, List.map_map] at hnames
    exact (congrArg List.Nodup hnames).mpr hsound.unique
  acyclic := by
    rintro i ⟨p, hp⟩
    refine acyclic_of_bounded (n := 1008) (fun q l hq => ?_) hp
    obtain ⟨x, -, hwalk⟩ := h.walk_number hq
    exact (length_le_pathOf q).trans (h.tree.short q x hwalk)
  short := by
    intro q i hq
    obtain ⟨x, -, hwalk⟩ := h.walk_number hq
    exact h.tree.short q x hwalk

end StoresTree

/-! ## The dumps of a tree -/

/-- What a file contains; of a directory, what is on the disk. -/
def nodeBytes {ν : Type} (disk : List Byte) (graph : ν → FileNode ν) (number : ν → Nat) (x : ν) :
    List Byte :=
  match graph x with
  | .leaf contents => contents
  | .inner _ => fileBytes disk (inodeOf disk (number x))

variable {Ctx : Type}

/-- The checksum of some contents, as it is printed. -/
def checksumText (sha : Sha1 Ctx) (contents : List Byte) : String :=
  ((sha.digest [contents]).map chksumfileCvt2string).getD ""

/-- The line of the path dump for a path and its node. -/
def nodePathLine {ν : Type} (sha : Sha1 Ctx) (disk : List Byte) (graph : ν → FileNode ν)
    (number : ν → Nat) (p : List (List Byte) × ν) : Line :=
  .path (pathOf p.1) (number p.2) (inodeOf disk (number p.2)).mode
    (nodeBytes disk graph number p.2).length (checksumText sha (nodeBytes disk graph number p.2))

/-- The line of the inode dump for a node. -/
def nodeInodeLine {ν : Type} (sha : Sha1 Ctx) (disk : List Byte) (graph : ν → FileNode ν)
    (number : ν → Nat) (x : ν) : Line :=
  .inode (number x) (inodeOf disk (number x)).mode (nodeBytes disk graph number x).length
    (checksumText sha (nodeBytes disk graph number x))

theorem digest_fileChunks {sha : Sha1 Ctx} (hstream : sha.Streaming) {disk : List Byte} {inode : Inode}
    (hr : Readable disk inode) :
    sha.digest (fileChunks disk inode) = sha.digest [fileBytes disk inode] := by
  simp only [Sha1.digest, hstream.foldlM_update, fileChunks_flatten hr, List.flatten_singleton]

/-- Where the dump of the inodes ends before the last one. -/
def stopLines : Option Nat → List Line
  | none => []
  | some n => [.stderr ("Error: Inode " ++ toString (n : Int) ++ " is not allocated.\n"),
      .stderr ("Can't read inode " ++ toString n ++ " \n")]

/-- The line for an inode. -/
def inodeLine (sha : Sha1 Ctx) (disk : List Byte) (n : Nat) : Line :=
  .inode n (inodeOf disk n).mode (inodeGetsize (inodeOf disk n))
    (checksumText sha (fileBytes disk (inodeOf disk n)))

section dump

variable {sha : Sha1 Ctx} (hsha : sha.Total) (hstream : sha.Streaming) {fs : UnixFilesystem}
  (harea : InodeAreaInside fs)
  (hread : ∀ n, 1 ≤ n → n < 16 * fs.sIsize.toNat → InUse fs.disk n →
    Readable fs.disk (inodeOf fs.disk n))
include hsha hstream harea hread

/-- **From inode `i` on** the loop prints the inodes in use up to one that is not. -/
theorem dumpLoop_eq (junk : Junk) (k i : Nat) (hi : 1 ≤ i) 
    (hk : ∀ n ∈ List.range' i k, n < 16 * fs.sIsize.toNat) :
    dumpLoop sha fs junk (List.range' i k) =
      ((List.range' i k).takeWhile fun n => decide (InUse fs.disk n)).map (inodeLine sha fs.disk) ++
        stopLines ((List.range' i k).find? fun n => !decide (InUse fs.disk n)) := by
  induction k generalizing i with
  | zero => rfl
  | succ k ih =>
    rw [List.range'_succ] at hk ⊢
    obtain ⟨hlt, hrest⟩ := List.forall_mem_cons.mp hk
    have hstored := storedAt_of_area harea hi hlt
    rw [dumpLoop, inodeIget_stored hstored]
    by_cases huse : InUse fs.disk i
    · have ha : AllocatedAt fs.disk i (inodeOf fs.disk i) :=
        ⟨storedAt_of_area harea hi (by omega), huse⟩
      have hr := hread i hi (by omega) huse
      obtain ⟨chksum, hdigest⟩ := digest_isSome hsha (fileChunks fs.disk (inodeOf fs.disk i))
      rw [if_neg huse]
      dsimp only
      rw [if_neg huse, chksumfileByinumber_eq sha ha hr, hdigest]
      rw [digest_fileChunks hstream hr] at hdigest
      have hline : Line.inode i (inodeOf fs.disk i).mode (inodeGetsize (inodeOf fs.disk i))
          (chksumfileCvt2string chksum) = inodeLine sha fs.disk i := by
        rw [inodeLine, checksumText, hdigest]
        rfl
      rw [List.takeWhile_cons_of_pos (by simpa using huse), List.find?_cons_of_neg (by simpa using huse),
        List.map_cons, List.cons_append, ← ih (i + 1) (by omega) hrest, ← hline]
      rfl
    · rw [if_pos (not_not.mp huse), List.takeWhile_cons_of_neg (by simpa using huse),
        List.find?_cons_of_pos (by simpa using huse)]
      rfl

end dump

namespace StoresTree

variable {ν : Type} {fs : UnixFilesystem} {graph : ν → FileNode ν} {number : ν → Nat} {root : ν}
  {sha : Sha1 Ctx} (h : StoresTree fs.disk graph number root) (hsha : sha.Total)
  (hstream : sha.Streaming)
include h

theorem nodeBytes_eq (x : ν) :
    nodeBytes fs.disk graph number x = fileBytes fs.disk (inodeOf fs.disk (number x)) := by
  have hnode := h.node x
  rw [nodeBytes]
  cases hx : graph x with
  | leaf contents =>
    rw [hx] at hnode
    exact hnode.2.symm
  | inner children => rfl

theorem nodeInodeLine_eq (x : ν) :
    nodeInodeLine sha fs.disk graph number x = inodeLine sha fs.disk (number x) := by
  rw [nodeInodeLine, inodeLine, h.nodeBytes_eq, length_fileBytes (h.readable x)]

include hsha hstream

/-- **The path dump** shows the paths of the tree in preorder. -/
theorem pathDump_shows : ∃ out enough, Preorder (subnodes graph) [([], root)] out ∧
    ∀ fuel, enough ≤ fuel → ∀ junk, dumpPathnameChecksum sha fs fuel junk =
      some ⟨out.map (nodePathLine sha fs.disk graph number), .returned⟩ := by
  obtain ⟨out', enough, hout, hdump⟩ := dumpsPreorder_of_acc h.treeImage hsha
    (acc_of_reached h.treeImage (reached_root _)) (.nil rootInumber)
  rw [← h.start] at hout
  have hroots : [([], number root)] = [(([] : List (List Byte)), root)].map fun r => (r.1, number r.2) :=
    rfl
  rw [hroots] at hout
  obtain ⟨out, rfl, hpre⟩ := hout.of_map h.childrenOn_number
  refine ⟨out, enough, hpre, ?_⟩
  intro fuel hfuel junk
  have hline : ∀ p : List (List Byte) × ν,
      pathLine sha fs.disk (p.1, number p.2) = nodePathLine sha fs.disk graph number p := by
    intro p
    have hr := h.readable p.2
    rw [pathLine, nodePathLine, h.nodeBytes_eq, length_fileBytes hr, checksumText,
      digest_fileChunks hstream hr]
  have hlines := hdump fuel hfuel junk
  rw [List.map_map] at hlines
  refine hlines.trans ?_
  exact congrArg (fun lines => some (Output.mk lines .returned))
    (List.map_congr_left fun p _ => hline p)

/-- **The inode dump** shows nodes up to the first inode that is not in use. -/
theorem inodeDump_shows (harea : InodeAreaInside fs)
    (hall : ∀ n ∈ inumbers fs, InUse fs.disk n → ∃ x, number x = n) :
    ∃ xs : List ν,
      xs.map number = (inumbers fs).takeWhile (fun n => decide (InUse fs.disk n)) ∧
      ∀ junk, dumpInodeChecksum sha fs junk = xs.map (nodeInodeLine sha fs.disk graph number) ++
        stopLines ((inumbers fs).find? fun n => !decide (InUse fs.disk n)) := by
  have hmem : ∀ n, n ∈ inumbers fs ↔ 1 ≤ n ∧ n < 16 * fs.sIsize.toNat := by
    intro n
    rw [inumbers, List.mem_range'_1]
    omega
  have hread : ∀ n, 1 ≤ n → n < 16 * fs.sIsize.toNat → InUse fs.disk n →
      Readable fs.disk (inodeOf fs.disk n) := by
    intro n hpos hlt huse
    obtain ⟨x, rfl⟩ := hall n ((hmem n).mpr ⟨hpos, hlt⟩) huse
    exact h.readable x
  have hnodes : ∀ n ∈ (inumbers fs).takeWhile (fun n => decide (InUse fs.disk n)),
      n ∈ Set.range number := by
    intro n hn
    have huse := List.mem_takeWhile_imp (p := fun n => decide (InUse fs.disk n)) hn
    exact hall n ((List.takeWhile_sublist _).subset hn) (of_decide_eq_true huse)
  have hrange : (inumbers fs).takeWhile (fun n => decide (InUse fs.disk n)) ∈
      Set.range (List.map number) := by
    rw [Set.range_list_map]
    exact hnodes
  obtain ⟨xs, hxs⟩ := hrange
  refine ⟨xs, hxs, ?_⟩
  intro junk
  have hloop := dumpLoop_eq hsha hstream harea hread junk (fs.sIsize.toNat * 16 - 1) 1
    (Nat.le_refl 1) fun n hn => ((hmem n).mp hn).2
  rw [← inumbers, ← hxs, List.map_map] at hloop
  rw [dumpInodeChecksum, hloop]
  exact congrArg (· ++ _) (List.map_congr_left fun x _ => (h.nodeInodeLine_eq x).symm)

end StoresTree

/-! ## The directory with a file -/

theorem home_subnodes : subnodes homeGraph .root = [([0x61], .a)] ∧ subnodes homeGraph .a = [] := by
  decide

theorem home_walks {q : List (List Byte)} {x : HomeNode} (h : Walk (subnodes homeGraph) .root q x) :
    q = [] ∨ q = [[0x61]] := by
  rcases h with _ | ⟨hedge, hrest⟩
  · exact .inl rfl
  · rw [home_subnodes.1, List.mem_singleton] at hedge
    cases hedge
    rcases hrest with _ | ⟨hedge, -⟩
    · exact .inr rfl
    · rw [home_subnodes.2] at hedge
      cases hedge

theorem home_tree : StoresTree homeFs.disk homeGraph homeNumber .root where
  toStores := home_stores
  start := rfl
  tree := by
    constructor
    · intro q x children _ hx
      cases x with
      | root =>
        obtain rfl := Node.inner.inj hx
        refine ⟨?_, by decide, by decide⟩
        intro c hc
        rcases List.mem_cons.mp hc with rfl | hc
        · exact ⟨⟨by decide, by decide⟩, by decide⟩
        · obtain rfl := List.mem_singleton.mp hc
          exact ⟨⟨by decide, by decide⟩, by decide⟩
      | a => cases hx
    · intro q x hwalk
      rcases home_walks hwalk with rfl | rfl <;> decide
  compact := by
    intro x children hx
    show inodeGetsize (inodeOf homeImage (homeNumber x)) = _
    rw [home_inodes]
    cases x with
    | root =>
      obtain rfl := Node.inner.inj hx
      rfl
    | a => cases hx

end Acso.FileSystem
