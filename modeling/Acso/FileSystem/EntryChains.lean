import Acso.Lib.Explore
import Acso.FileSystem.TreeDump

/-!
# Chains of entries

The naming tree of any image, sound or not.  A place is an inode number under some names; a
chain goes from a place to an entry of the directory there, and on to an entry of the directory
that this one names.  Directories may name each other in a circle, so chains need not end.

* `chksumfileByinumber_noAssert`, …: only `GetDirEntries` can fail an assertion, and it does at a
  directory that is no array of entries (`getDirEntries_assertFailed_iff`).
* `Place.path_child`: what `sprintf` puts together spells the names.
* `Chain.split`: a chain is no longer than the path it spells, but for entries without a name at
  its start.
-/

namespace Acso.FileSystem

open Acso.Lib

/-! ## Assertions -/

/-- No assertion fails. -/
def NoAssert {α : Type} (result : Result α) : Prop := result ≠ .error .assertFailed

theorem noAssert_ok {α : Type} (a : α) : NoAssert (.ok a) := fun h => nomatch h

theorem noAssert_minusOne {α : Type} (stderr : List String) :
    NoAssert (.error (.minusOne stderr) : Result α) := fun h => nomatch h

theorem NoAssert.bind {α β : Type} {result : Result α} (h : NoAssert result) {f : α → Result β}
    (hf : ∀ a, NoAssert (f a)) : NoAssert (result >>= f) := by
  cases result with
  | ok a => exact hf a
  | error e =>
    intro he
    exact h (congrArg Except.error (Except.error.inj he))

section noAssert

variable {Ctx : Type} (sha : Sha1 Ctx) (fs : UnixFilesystem) (junk : Junk)

theorem diskimgReadsector_noAssert (disk : List Byte) (sectorNum : Nat) (buf : Sector) :
    NoAssert (diskimgReadsector disk sectorNum buf) := by
  rw [diskimgReadsector]
  split
  · exact noAssert_minusOne _
  · exact noAssert_ok _

theorem inodeIget_noAssert (inumber : Int) : NoAssert (inodeIget fs junk inumber) := by
  rw [inodeIget]
  split
  · exact noAssert_minusOne _
  · refine (diskimgReadsector_noAssert _ _ _).bind fun _ => ?_
    dsimp only
    split
    · exact noAssert_minusOne _
    · exact noAssert_ok _

theorem readAddress_noAssert (sector position : Nat) : NoAssert (readAddress fs junk sector position) :=
  (diskimgReadsector_noAssert _ _ _).bind fun _ => noAssert_ok _

theorem inodeIndexlookup_noAssert (inode : Inode) (blockNum : Int) :
    NoAssert (inodeIndexlookup fs junk inode blockNum) := by
  rw [inodeIndexlookup]
  split
  · exact noAssert_minusOne _
  dsimp only
  split
  · exact noAssert_ok _
  split
  · exact readAddress_noAssert _ _ _ _
  · exact (readAddress_noAssert _ _ _ _).bind fun _ => readAddress_noAssert _ _ _ _

theorem fileGetblock_noAssert (inumber blockNum : Int) (buf : Sector) :
    NoAssert (fileGetblock fs junk inumber blockNum buf) := by
  rw [fileGetblock]
  refine (inodeIget_noAssert _ _ _).bind fun inode => ?_
  dsimp only
  split
  · exact noAssert_minusOne _
  · exact (inodeIndexlookup_noAssert _ _ _ _).bind fun _ =>
      (diskimgReadsector_noAssert _ _ _).bind fun _ => noAssert_ok _

theorem chksumLoop_noAssert (inumber : Int) (offsets : List Nat) (shactx : Ctx) :
    NoAssert (chksumLoop sha fs junk inumber offsets shactx) := by
  induction offsets generalizing shactx with
  | nil => exact noAssert_ok _
  | cons offset offsets ih =>
    rw [chksumLoop]
    refine (fileGetblock_noAssert _ _ _ _ _).bind fun block => ?_
    dsimp only
    split
    · exact noAssert_minusOne _
    · exact ih _

theorem chksumfileByinumber_noAssert (inumber : Int) :
    NoAssert (chksumfileByinumber sha fs junk inumber) := by
  rw [chksumfileByinumber]
  split
  · exact noAssert_minusOne _
  refine (inodeIget_noAssert _ _ _).bind fun inode => ?_
  split
  · exact noAssert_minusOne _
  refine (chksumLoop_noAssert _ _ _ _ _ _).bind fun shactx => ?_
  split
  · exact noAssert_minusOne _
  · exact noAssert_ok _

theorem findnameLoop_noAssert (name : List Byte) (dirInode : Inode) (blocks : List Nat)
    (dirEntries : Sector) : NoAssert (findnameLoop fs junk name dirInode blocks dirEntries) := by
  induction blocks generalizing dirEntries with
  | nil => exact noAssert_minusOne _
  | cons block blocks ih =>
    rw [findnameLoop]
    refine (inodeIndexlookup_noAssert _ _ _ _).bind fun dataBlock =>
      (diskimgReadsector_noAssert _ _ _).bind fun read => ?_
    dsimp only
    split
    · exact noAssert_ok _
    · exact ih _

theorem directoryFindname_noAssert (name : List Byte) (dirinumber : Int) :
    NoAssert (directoryFindname fs junk name dirinumber) := by
  rw [directoryFindname]
  refine (inodeIget_noAssert _ _ _).bind fun dirInode => ?_
  split
  · exact noAssert_minusOne _
  · exact findnameLoop_noAssert _ _ _ _ _ _

theorem pathnameLoop_noAssert (i : Nat) (tokens : List (List Byte)) (curr : Nat) :
    NoAssert (pathnameLoop fs junk i tokens curr) := by
  induction tokens generalizing i curr with
  | nil => exact noAssert_ok _
  | cons token tokens ih =>
    rw [pathnameLoop]
    exact (directoryFindname_noAssert _ _ _ _).bind fun _ => ih _ _

theorem chksumfileBypathname_noAssert (pathname : List Byte) :
    NoAssert (chksumfileBypathname sha fs junk pathname) := by
  rw [chksumfileBypathname]
  refine NoAssert.bind ?_ fun _ => chksumfileByinumber_noAssert _ _ _ _
  rw [pathnameLookup]
  split
  · exact noAssert_minusOne _
  · exact pathnameLoop_noAssert _ _ _ _ _

theorem getDirEntriesLoop_noAssert (inumber maxNumEntries : Int) (bnos : List Nat) (dir : Sector)
    (entries : List Direntv6) :
    NoAssert (getDirEntriesLoop fs junk inumber maxNumEntries bnos dir entries) := by
  induction bnos generalizing dir entries with
  | nil => exact noAssert_ok _
  | cons bno bnos ih =>
    rw [getDirEntriesLoop]
    have hget := fileGetblock_noAssert fs (junk.sub bno) inumber bno dir
    cases hblock : fileGetblock fs (junk.sub bno) inumber bno dir with
    | error e =>
      cases e with
      | minusOne stderr => exact noAssert_minusOne _
      | assertFailed => exact absurd hblock hget
    | ok block =>
      dsimp only
      split
      · exact noAssert_ok _
      · exact ih _ _

/-- An inode that has been fetched is in use. -/
theorem alloc_of_inodeIget {inumber : Int} {inode : Inode}
    (h : inodeIget fs junk inumber = .ok inode) : inode.mode &&& ialloc ≠ 0 := by
  rw [inodeIget] at h
  split at h
  · cases h
  · obtain ⟨read, -, h⟩ := of_bind_eq_ok h
    dsimp only at h
    split at h
    · cases h
    · obtain rfl := Except.ok.inj h
      assumption

/-- **The assertion of `GetDirEntries` fails** at a directory whose size is not that of an array of
entries. -/
theorem getDirEntries_assertFailed_iff (inumber : Int) :
    getDirEntries fs junk inumber maxDirentries = .error .assertFailed ↔
      ∃ inode, inodeIget fs (junk.sub 0) inumber = .ok inode ∧ inode.mode &&& ifmt = ifdir ∧
        inodeGetsize inode % sizeofDirentv6 ≠ 0 := by
  have hroom : ¬ (maxDirentries : Int) < 1 := by decide
  rw [getDirEntries]
  cases higet : inodeIget fs (junk.sub 0) inumber with
  | error e =>
    have hne := inodeIget_noAssert fs (junk.sub 0) inumber
    rw [higet] at hne
    rw [error_bind]
    refine iff_of_false (fun h => hne (congrArg Except.error (Except.error.inj h))) ?_
    rintro ⟨inode, h, -⟩
    cases h
  | ok inode =>
    have halloc := alloc_of_inodeIget fs (junk.sub 0) higet
    rw [ok_bind]
    by_cases hdir : inode.mode &&& ifmt = ifdir
    · rw [if_neg (not_or.mpr ⟨halloc, not_not_intro hdir⟩), if_neg hroom]
      dsimp only
      by_cases hsize : inodeGetsize inode % sizeofDirentv6 = 0
      · rw [if_neg (not_not_intro hsize)]
        refine iff_of_false (getDirEntriesLoop_noAssert _ _ _ _ _ _ _) ?_
        rintro ⟨inode', h, -, hodd⟩
        obtain rfl := Except.ok.inj h
        exact hodd hsize
      · rw [if_pos hsize]
        exact iff_of_true rfl ⟨inode, rfl, hdir, hsize⟩
    · rw [if_pos (.inr hdir)]
      refine iff_of_false (noAssert_minusOne _) ?_
      rintro ⟨inode', h, hdir', -⟩
      obtain rfl := Except.ok.inj h
      exact hdir hdir'

end noAssert

/-! ## Places -/

/-- An inode number under some names, with what is uninitialised where the dump comes to it. -/
structure Place where
  junk : Junk
  names : List (List Byte)
  inumber : Nat

def Place.root (junk : Junk) : Place := ⟨junk, [], rootInumber⟩

/-- The path that the names spell.  Right below the root an empty name leaves it `/`. -/
def Place.path (x : Place) : List Byte := pathOf (x.names.dropWhile List.isEmpty)

/-- The place of an entry, with the entries behind it.  A name of 14 characters goes on into these
with `%s`. -/
def Place.child (x : Place) (entry : Direntv6) (behind : List Direntv6) : Place :=
  ⟨(x.junk.sub 4).sub behind.length, x.names ++ [dNameString (x.junk.sub 4) entry behind],
    entry.dInumber.toNat⟩

/-- The path without the extra slash of the root. -/
def parentPath (pathname : List Byte) : List Byte :=
  if pathname.length = 1 then pathname.tail else pathname

theorem dropWhile_isEmpty_append (names : List (List Byte)) (name : List Byte) :
    (names ++ [name]).dropWhile List.isEmpty =
      if names.dropWhile List.isEmpty = [] then if name = [] then [] else [name]
      else names.dropWhile List.isEmpty ++ [name] := by
  rw [List.dropWhile_append]
  by_cases hnil : names.dropWhile List.isEmpty = []
  · rw [if_pos (by rw [hnil]; rfl), if_pos hnil]
    cases name with
    | nil => rfl
    | cons c name => rfl
  · rw [if_neg (by simpa using hnil), if_neg hnil]

theorem Place.path_of_empty {x : Place} (h : x.names.dropWhile List.isEmpty = []) :
    x.path = [slash] := by
  rw [path, h]
  rfl

/-- The first name that is left is not empty. -/
theorem Place.two_le_length_path {x : Place} (h : x.names.dropWhile List.isEmpty ≠ []) :
    2 ≤ x.path.length := by
  obtain ⟨name, names, hnames⟩ := List.exists_cons_of_ne_nil h
  have hhead := List.head?_dropWhile_not List.isEmpty x.names
  rw [hnames] at hhead
  have hpos : 0 < name.length := List.length_pos_iff.mpr (List.isEmpty_eq_false_iff.mp hhead)
  rw [path, hnames, pathOf, if_neg (List.cons_ne_nil _ _), joinTokens, List.flatMap_cons,
    List.length_append, List.length_cons]
  omega

theorem Place.length_path_pos (x : Place) : 0 < x.path.length := by
  by_cases hnil : x.names.dropWhile List.isEmpty = []
  · rw [path_of_empty hnil]
    decide
  · exact Nat.zero_lt_of_lt (two_le_length_path hnil)

/-- **The path of a child** is what `sprintf` puts together. -/
theorem Place.path_child (x : Place) (entry : Direntv6) (behind : List Direntv6) :
    (x.child entry behind).path = childPath (x.junk.sub 4) (parentPath x.path) entry behind := by
  rw [childPath, path, child, dropWhile_isEmpty_append]
  by_cases hnil : x.names.dropWhile List.isEmpty = []
  · have hparent : parentPath x.path = [] := by
      rw [path_of_empty hnil]
      rfl
    rw [if_pos hnil, hparent, List.nil_append]
    split
    · rename_i hname
      rw [hname]
      rfl
    · exact List.append_nil _
  · have hlen := two_le_length_path hnil
    have hparent : parentPath x.path = x.path := if_neg (by omega)
    rw [if_neg hnil, hparent, pathOf_append, path, pathOf, if_neg hnil]

/-- A path gets longer below a place, unless it stays `/`. -/
theorem Place.length_path_child (x : Place) (entry : Direntv6) (behind : List Direntv6) :
    x.path = [slash] ∧ (x.child entry behind).path = [slash] ∨
      x.path.length < (x.child entry behind).path.length := by
  by_cases hnil : x.names.dropWhile List.isEmpty = []
  · have hpath := path_of_empty hnil
    by_cases hchild : (x.child entry behind).names.dropWhile List.isEmpty = []
    · exact .inl ⟨hpath, path_of_empty hchild⟩
    · have hlen := two_le_length_path hchild
      rw [hpath]
      exact .inr hlen
  · have hlen := two_le_length_path hnil
    have hparent : parentPath x.path = x.path := if_neg (by omega)
    rw [path_child, hparent, childPath, List.length_append, List.length_cons]
    exact .inr (by omega)

/-! ## Chains -/

section chain

variable {Ctx : Type} (sha : Sha1 Ctx) (fs : UnixFilesystem)

/-- The inode at the place is a directory, and a file with the same checksum is at the path. -/
structure IsShown (x : Place) : Prop where
  directory : ∃ inode, inodeIget fs (x.junk.sub 0) x.inumber = .ok inode ∧
    inode.mode &&& ifmt = ifdir
  checksum : ∃ chksum, chksumfileByinumber sha fs (x.junk.sub 1) x.inumber = .ok chksum ∧
    chksumfileBypathname sha fs (x.junk.sub 2) x.path = .ok chksum

/-- The entries of the directory there. -/
def Lists (x : Place) (direntries : List Direntv6) : Prop :=
  IsShown sha fs x ∧ getDirEntries fs (x.junk.sub 3) x.inumber maxDirentries = .ok direntries

/-- The directory there is no array of entries. -/
def OddSize (x : Place) : Prop :=
  IsShown sha fs x ∧ ∃ inode, inodeIget fs ((x.junk.sub 3).sub 0) x.inumber = .ok inode ∧
    inode.mode &&& ifmt = ifdir ∧ inodeGetsize inode % sizeofDirentv6 ≠ 0

/-- A chain from one place to another, with the positions of its entries among those of their
directories that are neither `.` nor `..`. -/
inductive Chain : Place → List Nat → Place → Prop
  | nil (x : Place) : Chain x [] x
  | cons {x z : Place} {before behind : List Direntv6} {entry : Direntv6} {p : List Nat}
      (hlists : Lists sha fs x (before ++ entry :: behind)) (hdots : ¬ entry.isDots = true)
      (hrest : Chain (x.child entry behind) p z) :
      Chain x ((before.filter fun entry => !entry.isDots).length :: p) z

variable {sha fs}

/-- Every entry of a chain adds to a path that is not `/`. -/
theorem Chain.length_add_le {x z : Place} {p : List Nat} (h : Chain sha fs x p z)
    (hx : x.path ≠ [slash]) : x.path.length + p.length ≤ z.path.length := by
  induction h with
  | nil x => exact Nat.le_refl _
  | @cons x z before behind entry p hlists hdots hrest ih =>
    rcases x.length_path_child entry behind with ⟨hslash, -⟩ | hlonger
    · exact absurd hslash hx
    · have hpos := x.length_path_pos
      have hchild := ih fun h => by
        rw [h, List.length_singleton] at hlonger
        omega
      rw [List.length_cons]
      omega

/-- **A chain is no longer than its path** behind the entries that leave this `/`. -/
theorem Chain.split {x z : Place} {p : List Nat} (h : Chain sha fs x p z) (hx : x.path = [slash]) :
    ∃ p₁ p₂ y, p = p₁ ++ p₂ ∧ Chain sha fs x p₁ y ∧ y.path = [slash] ∧ p₂.length ≤ z.path.length := by
  induction h with
  | nil x => exact ⟨[], [], x, rfl, .nil x, hx, Nat.zero_le _⟩
  | @cons x z before behind entry p hlists hdots hrest ih =>
    rcases x.length_path_child entry behind with ⟨-, hchild⟩ | hlonger
    · obtain ⟨p₁, p₂, y, rfl, hy, hslash, hlen⟩ := ih hchild
      exact ⟨_ :: p₁, p₂, y, rfl, .cons hlists hdots hy, hslash, hlen⟩
    · have hpos := x.length_path_pos
      have hgrow := hrest.length_add_le fun h => by
        rw [h, List.length_singleton] at hlonger
        omega
      refine ⟨[], _, x, rfl, .nil x, hx, ?_⟩
      rw [List.length_cons]
      omega

end chain

end Acso.FileSystem
