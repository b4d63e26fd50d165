import Mathlib.Data.Fintype.EquivFin
import Acso.Lib.Preorder
import Acso.FileSystem.InodeDump
import Acso.FileSystem.Listing
import Acso.FileSystem.ChildPath

/-!
# Dumping a tree

`childrenOn` are the edges of the naming tree as the disk has them.  On a sound tree
(`TreeImage`) a path resolves to the inode its walk leads to (`pathnameLookup_walk`), so
the two checksums the dump compares are those of one inode, and the dump prints the paths
of the tree in preorder (`pathDump_preorder`).
-/

namespace Acso.FileSystem

open Acso.Lib

/-! ## Names -/

/-- `.` and `..`. -/
def IsDots (name : List Byte) : Prop := name = [dot] ∨ name = [dot, dot]

instance (name : List Byte) : Decidable (IsDots name) := inferInstanceAs (Decidable (_ ∨ _))

theorem Direntv6.isDots_iff (entry : Direntv6) : entry.isDots = true ↔ IsDots entry.name := by
  obtain ⟨a, b, c, rest, hlist⟩ : ∃ a b c rest, entry.dName.toList = a :: b :: c :: rest := by
    have hlen : entry.dName.toList.length = 14 := Vector.length_toList
    match entry.dName.toList, hlen with
    | a :: b :: c :: rest, _ => exact ⟨a, b, c, rest, rfl⟩
  have hchar : ∀ i (hi : i < 14) x, entry.dName.toList[i]? = some x → entry.dName[i] = x := by
    intro i hi x hx
    rw [Vector.getElem?_toList, Vector.getElem?_eq_getElem hi, Option.some.injEq] at hx
    exact hx
  have hdot : dot ≠ 0 := by decide
  rw [Direntv6.isDots, IsDots, Direntv6.name, hlist, cstring_cons_eq_cons_iff hdot,
    cstring_cons_eq_cons_iff hdot, cstring_cons_eq_nil_iff, cstring_cons_eq_cons_iff hdot,
    cstring_cons_eq_nil_iff, ← and_or_left, hchar 0 (by decide) a (by rw [hlist]; rfl),
    hchar 1 (by decide) b (by rw [hlist]; rfl), hchar 2 (by decide) c (by rw [hlist]; rfl)]
  simp only [Bool.and_eq_true, Bool.or_eq_true, decide_eq_true_eq]

/-! ## The tree -/

/-- The edges to the entries that are neither `.` nor `..`. -/
def edgesOf (entries : List Direntv6) : List (List Byte × Nat) :=
  (entries.filter fun e => decide (¬ IsDots e.name)).map fun e => (e.name, e.dInumber.toNat)

/-- Inode `i` is a directory. -/
def IsDirectory (disk : List Byte) (i : Nat) : Prop := (inodeOf disk i).mode &&& ifmt = ifdir

instance (disk : List Byte) (i : Nat) : Decidable (IsDirectory disk i) :=
  inferInstanceAs (Decidable (_ = _))

/-- The named children of an inode. -/
def childrenOn (disk : List Byte) (i : Nat) : List (List Byte × Nat) :=
  if IsDirectory disk i then edgesOf (dirEntries disk (inodeOf disk i)) else []

/-- The inode is in the tree. -/
def Reached (disk : List Byte) (i : Nat) : Prop := ∃ q, Walk (childrenOn disk) rootInumber q i

/-- The string of a path. -/
def pathOf (q : List (List Byte)) : List Byte := if q = [] then [slash] else joinTokens slash q

/-- A sound tree: its inodes are in use and readable, directories are whole arrays of
entries that fit the array of the dump, their entries have short names of their own, and
the tree is acyclic and has no long paths. -/
structure TreeImage (disk : List Byte) : Prop where
  allocated : ∀ i, Reached disk i → AllocatedAt disk i (inodeOf disk i)
  readable : ∀ i, Reached disk i → Readable disk (inodeOf disk i)
  sizes : ∀ i, Reached disk i → IsDirectory disk i →
    inodeGetsize (inodeOf disk i) % sizeofDirentv6 = 0 ∧
      inodeGetsize (inodeOf disk i) / sizeofDirentv6 ≤ maxDirentries
  entries : ∀ i, Reached disk i → IsDirectory disk i → ∀ e ∈ dirEntries disk (inodeOf disk i),
    e.dInumber ≠ 0 ∧ IsToken slash e.name ∧ e.name.length ≤ 13
  unique : ∀ i, Reached disk i → IsDirectory disk i →
    ((dirEntries disk (inodeOf disk i)).map Direntv6.name).Nodup
  acyclic : ∀ i, Reached disk i →
    ¬ Relation.TransGen (fun i j => ∃ name, (name, j) ∈ childrenOn disk i) i i
  short : ∀ q i, Walk (childrenOn disk) rootInumber q i → (pathOf q).length ≤ 1008

theorem reached_root (disk : List Byte) : Reached disk rootInumber := ⟨[], .nil _⟩

theorem Reached.step {disk : List Byte} {i j : Nat} {name : List Byte} (h : Reached disk i)
    (hedge : (name, j) ∈ childrenOn disk i) : Reached disk j := by
  obtain ⟨q, hq⟩ := h
  exact ⟨q ++ [name], hq.snoc hedge⟩

theorem mem_edgesOf {entries : List Direntv6} {name : List Byte} {j : Nat} :
    (name, j) ∈ edgesOf entries ↔
      ∃ e ∈ entries, ¬ IsDots e.name ∧ e.name = name ∧ e.dInumber.toNat = j := by
  simp only [edgesOf, List.mem_map, List.mem_filter, decide_eq_true_eq, Prod.mk.injEq, and_assoc]

theorem mem_childrenOn {disk : List Byte} {i j : Nat} {name : List Byte} :
    (name, j) ∈ childrenOn disk i ↔ IsDirectory disk i ∧
      ∃ e ∈ dirEntries disk (inodeOf disk i), ¬ IsDots e.name ∧ e.name = name ∧
        e.dInumber.toNat = j := by
  rw [childrenOn]
  split
  · rw [mem_edgesOf, and_iff_right ‹_›]
  · exact iff_of_false List.not_mem_nil fun h => absurd h.1 ‹_›

theorem pathOf_append (q : List (List Byte)) (name : List Byte) :
    pathOf (q ++ [name]) = joinTokens slash q ++ slash :: name := by
  rw [pathOf, if_neg (by simp), joinTokens_append_singleton]

section tree

variable {fs : UnixFilesystem} (htree : TreeImage fs.disk)
include htree

theorem isToken_of_walk {i l : Nat} {q : List (List Byte)} (hi : Reached fs.disk i)
    (hwalk : Walk (childrenOn fs.disk) i q l) : ∀ w ∈ q, IsToken slash w := by
  induction hwalk with
  | nil => exact fun w hw => absurd hw List.not_mem_nil
  | cons hedge hrest ih =>
    intro w hw
    rcases List.mem_cons.mp hw with rfl | hw
    · obtain ⟨hdir, e, he, -, rfl, -⟩ := mem_childrenOn.mp hedge
      exact (htree.entries _ hi hdir e he).2.1
    · exact ih (hi.step hedge) w hw

theorem tokens_pathOf {q : List (List Byte)} {i : Nat}
    (hwalk : Walk (childrenOn fs.disk) rootInumber q i) : tokens slash (pathOf q) = q := by
  rw [pathOf]
  split
  · rename_i hq
    rw [hq]
    rfl
  · exact tokens_joinTokens (isToken_of_walk htree (reached_root _) hwalk)

/-! ## Resolving a path of the tree -/

omit htree in
/-- The first entry with a name, where names are unique. -/
theorem find?_name {entries : List Direntv6} (h : (entries.map Direntv6.name).Nodup)
    {e : Direntv6} (he : e ∈ entries) :
    entries.find? (fun e' => decide (e'.name = e.name)) = some e := by
  induction entries with
  | nil => exact absurd he List.not_mem_nil
  | cons e' entries ih =>
    rw [List.map_cons, List.nodup_cons] at h
    rcases List.mem_cons.mp he with rfl | he
    · exact List.find?_cons_of_pos (decide_eq_true rfl)
    · have hne : ¬ e'.name = e.name := fun heq => h.1 (heq ▸ List.mem_map_of_mem he)
      rw [List.find?_cons_of_neg (by simpa using hne)]
      exact ih h.2 he

/-- **A step of the tree** is what the lookup finds. -/
theorem directoryFindname_edge {i j : Nat} {name : List Byte} (hi : Reached fs.disk i)
    (hedge : (name, j) ∈ childrenOn fs.disk i) (junk : Junk) :
    ∃ e, directoryFindname fs junk name i = .ok e ∧ e.dInumber.toNat = j := by
  obtain ⟨hdir, e, he, -, rfl, rfl⟩ := mem_childrenOn.mp hedge
  obtain ⟨-, htoken, hlen⟩ := htree.entries i hi hdir e he
  have hname : EntryName e.name :=
    ⟨List.length_pos_iff.mpr htoken.ne_nil, by omega, zero_not_mem_cstring _⟩
  refine ⟨e, ?_, rfl⟩
  rw [directoryFindname_eq (htree.allocated i hi) (htree.readable i hi) (ifdir_ne_zero hdir) hname,
    dirSlots_eq (htree.readable i hi), List.find?_append, find?_name (htree.unique i hi hdir) he]
  rfl

theorem pathnameLoop_walk {i l : Nat} {q : List (List Byte)} (hi : Reached fs.disk i)
    (hwalk : Walk (childrenOn fs.disk) i q l) (n : Nat) (junk : Junk) :
    pathnameLoop fs junk n q i = .ok l := by
  induction hwalk generalizing n with
  | nil => rfl
  | cons hedge hrest ih =>
    obtain ⟨e, hfind, rfl⟩ := directoryFindname_edge htree hi hedge (junk.sub n)
    rw [pathnameLoop, hfind, ok_bind]
    exact ih (hi.step hedge) (n + 1)

/-- **A path resolves** to the inode it leads to. -/
theorem pathnameLookup_walk {q : List (List Byte)} {l : Nat}
    (hwalk : Walk (childrenOn fs.disk) rootInumber q l) (junk : Junk) :
    pathnameLookup fs junk (pathOf q) = .ok l := by
  have habs : (pathOf q).head? = some slash := by
    cases q <;> rfl
  rw [pathnameLookup, if_neg (not_not_intro habs), tokens_pathOf htree hwalk]
  exact pathnameLoop_walk htree (reached_root _) hwalk 0 junk

/-! ## The dump -/

variable {Ctx : Type} {sha : Sha1 Ctx} (hsha : sha.Total)

/-- The line for a path and the inode it leads to. -/
def pathLine (sha : Sha1 Ctx) (disk : List Byte) (p : List (List Byte) × Nat) : Line :=
  .path (pathOf p.1) p.2 (inodeOf disk p.2).mode (inodeGetsize (inodeOf disk p.2))
    (((sha.digest (fileChunks disk (inodeOf disk p.2))).map chksumfileCvt2string).getD "")

include hsha

omit htree in
theorem digest_isSome (chunks : List (List Byte)) : ∃ chksum, sha.digest chunks = some chksum := by
  have hfold : ∀ ctx, ∃ ctx', chunks.foldlM sha.update ctx = some ctx' := by
    induction chunks with
    | nil => exact fun ctx => ⟨ctx, rfl⟩
    | cons chunk chunks ih =>
      intro ctx
      obtain ⟨ctx', hctx'⟩ := Option.isSome_iff_exists.mp (hsha.update ctx chunk)
      obtain ⟨ctx'', hrest⟩ := ih ctx'
      exact ⟨ctx'', by rw [List.foldlM_cons, hctx']; exact hrest⟩
  obtain ⟨ctx, hinit⟩ := Option.isSome_iff_exists.mp hsha.init
  obtain ⟨ctx', hctx'⟩ := hfold ctx
  obtain ⟨chksum, hfinal⟩ := Option.isSome_iff_exists.mp (hsha.final ctx')
  exact ⟨chksum, by rw [Sha1.digest, hinit, Option.bind_some, hctx', Option.bind_some, hfinal]⟩

omit htree in
/-- **The two checksums agree** where a path resolves to the inode. -/
theorem checksums_agree {inode : Inode} {l : Nat} {pathname : List Byte}
    (ha : AllocatedAt fs.disk l inode) (hr : Readable fs.disk inode)
    (hlookup : ∀ junk, pathnameLookup fs junk pathname = .ok l) :
    ∃ chksum, sha.digest (fileChunks fs.disk inode) = some chksum ∧
      (∀ junk, chksumfileByinumber sha fs junk l = .ok chksum) ∧
      ∀ junk, chksumfileBypathname sha fs junk pathname = .ok chksum := by
  obtain ⟨chksum, hdigest⟩ := digest_isSome hsha (fileChunks fs.disk inode)
  have hsum : ∀ junk, chksumfileByinumber sha fs junk l = .ok chksum := by
    intro junk
    rw [chksumfileByinumber_eq sha ha hr, hdigest]
    rfl
  refine ⟨chksum, hdigest, hsum, ?_⟩
  intro junk
  rw [chksumfileBypathname, hlookup, ok_bind, hsum]

/-- **One call of the dump** prints the line of its path and goes on to the children. -/
theorem dumpPathAndChildren_walk {q : List (List Byte)} {l : Nat}
    (hwalk : Walk (childrenOn fs.disk) rootInumber q l) (fuel : Nat) (junk : Junk) :
    dumpPathAndChildren sha fs (fuel + 1) junk (pathOf q) l =
      if IsDirectory fs.disk l then
        Output.andThen ⟨[pathLine sha fs.disk (q, l)], .returned⟩
          (dumpChildren (dumpPathAndChildren sha fs fuel) (junk.sub 4) (joinTokens slash q)
            (dirEntries fs.disk (inodeOf fs.disk l)))
      else some ⟨[pathLine sha fs.disk (q, l)], .returned⟩ := by
  have hl : Reached fs.disk l := ⟨q, hwalk⟩
  have ha := htree.allocated l hl
  have hr := htree.readable l hl
  obtain ⟨chksum, hdigest, hsum, hpath⟩ :=
    checksums_agree hsha ha hr (pathnameLookup_walk htree hwalk)
  have hcompare : chksumfileCompare chksum chksum = true := decide_eq_true rfl
  have hline : Line.path (pathOf q) l (inodeOf fs.disk l).mode (inodeGetsize (inodeOf fs.disk l))
      (chksumfileCvt2string chksum) = pathLine sha fs.disk (q, l) := by
    rw [pathLine, hdigest]
    rfl
  -- without the slash of the root, the path is what the children's names are put behind
  have hprefix : (if (pathOf q).length = 1 then (pathOf q).tail else pathOf q) =
      joinTokens slash q := by
    rcases q with _ | ⟨w, q⟩
    · rfl
    · have hw := isToken_of_walk htree (reached_root _) hwalk w (by simp)
      have hlen : 2 ≤ (pathOf (w :: q)).length := by
        have := List.length_pos_iff.mpr hw.ne_nil
        rw [pathOf, if_neg (List.cons_ne_nil w q), joinTokens, List.flatMap_cons,
          List.length_append, List.length_cons]
        omega
      rw [if_neg (by omega), pathOf, if_neg (List.cons_ne_nil w q)]
  have hshort : ¬ maxpath - 16 < (joinTokens slash q).length := by
    have hle := htree.short q l hwalk
    rw [pathOf] at hle
    rw [maxpath]
    split at hle
    · rename_i hq
      rw [hq, joinTokens, List.flatMap_nil, List.length_nil]
      omega
    · omega
  rw [dumpPathAndChildren]
  dsimp only
  rw [inodeIget_allocated ha]
  dsimp only
  rw [if_neg ha.alloc, hsum]
  dsimp only
  rw [hpath]
  dsimp only
  rw [hcompare, hprefix, hline, if_neg hshort]
  by_cases hdir : IsDirectory fs.disk l
  · obtain ⟨hsize, hmax⟩ := htree.sizes l hl hdir
    have hpos : 1 ≤ (maxDirentries : Int) := by decide
    have hlist := getDirEntries_eq ha hr hdir hsize (junk.sub 3) hpos (by exact_mod_cast hmax)
    rw [if_pos hdir, hlist]
    have hmode : (inodeOf fs.disk l).mode &&& ifmt = ifdir := hdir
    simp [hmode]
  · have hmode : ¬ (inodeOf fs.disk l).mode &&& ifmt = ifdir := hdir
    rw [if_neg hdir]
    simp [hmode]

omit htree hsha in
theorem edgesOf_cons (e : Direntv6) (entries : List Direntv6) :
    edgesOf (e :: entries) =
      if e.isDots then edgesOf entries else (e.name, e.dInumber.toNat) :: edgesOf entries := by
  by_cases hdots : e.isDots = true
  · rw [if_pos hdots, edgesOf, List.filter_cons_of_neg (by simpa using e.isDots_iff.mp hdots)]
    rfl
  · have hkeep : decide (¬ IsDots e.name) = true :=
      decide_eq_true fun h => hdots (e.isDots_iff.mpr h)
    rw [if_neg hdots, edgesOf,
      List.filter_cons_of_pos (p := fun e : Direntv6 => decide (¬ IsDots e.name)) hkeep,
      List.map_cons]
    rfl

/-- What the dump of inode `i` at the path `q` prints, given enough fuel: the lines of a
preorder from there. -/
def DumpsPreorder (sha : Sha1 Ctx) (fs : UnixFilesystem) (q : List (List Byte)) (i : Nat) : Prop :=
  ∃ out enough, Preorder (childrenOn fs.disk) [(q, i)] out ∧ ∀ fuel, enough ≤ fuel → ∀ junk,
    dumpPathAndChildren sha fs fuel junk (pathOf q) i =
      some ⟨out.map (pathLine sha fs.disk), .returned⟩

omit hsha in
/-- **The loop over the entries** prints the preorders of the children one after the other. -/
theorem dumpChildren_preorder {q : List (List Byte)} {i : Nat}
    (hwalk : Walk (childrenOn fs.disk) rootInumber q i) (hdir : IsDirectory fs.disk i)
    (hchild : ∀ name j, (name, j) ∈ childrenOn fs.disk i → DumpsPreorder sha fs (q ++ [name]) j)
    (entries : List Direntv6) (hsub : ∀ e ∈ entries, e ∈ dirEntries fs.disk (inodeOf fs.disk i)) :
    ∃ out enough, Preorder (childrenOn fs.disk) (under q (edgesOf entries)) out ∧
      ∀ fuel, enough ≤ fuel → ∀ junk,
        dumpChildren (dumpPathAndChildren sha fs fuel) junk (joinTokens slash q) entries =
          some ⟨out.map (pathLine sha fs.disk), .returned⟩ := by
  induction entries with
  | nil => exact ⟨[], 0, .nil, fun _ _ _ => rfl⟩
  | cons e entries ih =>
    obtain ⟨out, enough, hout, hdump⟩ := ih fun e' he' => hsub e' (by simp [he'])
    have he := hsub e (by simp)
    rw [edgesOf_cons]
    by_cases hdots : e.isDots = true
    · refine ⟨out, enough, by rwa [if_pos hdots], ?_⟩
      intro fuel hfuel junk
      rw [dumpChildren, if_pos hdots, hdump fuel hfuel]
    · have hname : ¬ IsDots e.name := fun h => hdots (e.isDots_iff.mpr h)
      have hedge : (e.name, e.dInumber.toNat) ∈ childrenOn fs.disk i :=
        mem_childrenOn.mpr ⟨hdir, e, he, hname, rfl, rfl⟩
      obtain ⟨out', enough', hout', hdump'⟩ := hchild _ _ hedge
      refine ⟨out' ++ out, max enough enough', ?_, ?_⟩
      · rw [if_neg hdots]
        exact hout'.append hout
      intro fuel hfuel junk
      obtain ⟨-, -, hlen⟩ := htree.entries i ⟨q, hwalk⟩ hdir e he
      -- the path of the child fits into `nextpath`
      have hfit : ¬ maxpath < (pathOf (q ++ [e.name])).length + 1 := by
        have hle := htree.short _ _ (hwalk.snoc hedge)
        rw [maxpath]
        omega
      rw [dumpChildren, if_neg hdots]
      dsimp only
      rw [childPath_eq hlen, ← pathOf_append, if_neg hfit,
        hdump' fuel ((Nat.le_max_right _ _).trans hfuel)]
      dsimp only
      rw [Output.andThen]
      dsimp only
      rw [hdump fuel ((Nat.le_max_left _ _).trans hfuel), List.map_append]
      rfl

/-- **From every inode of the tree** the dump prints a preorder. -/
theorem dumpsPreorder_of_acc {i : Nat}
    (hacc : Acc (fun j i => ∃ name, (name, j) ∈ childrenOn fs.disk i) i) {q : List (List Byte)}
    (hwalk : Walk (childrenOn fs.disk) rootInumber q i) : DumpsPreorder sha fs q i := by
  induction hacc generalizing q with
  | intro i _ ih =>
    by_cases hdir : IsDirectory fs.disk i
    · have hchild : ∀ name j, (name, j) ∈ childrenOn fs.disk i →
          DumpsPreorder sha fs (q ++ [name]) j :=
        fun name j hedge => ih j ⟨name, hedge⟩ (hwalk.snoc hedge)
      obtain ⟨out, enough, hout, hdump⟩ := dumpChildren_preorder htree hwalk hdir hchild
        (dirEntries fs.disk (inodeOf fs.disk i)) fun e he => he
      have hchildren : childrenOn fs.disk i = edgesOf (dirEntries fs.disk (inodeOf fs.disk i)) :=
        if_pos hdir
      rw [← hchildren] at hout
      refine ⟨(q, i) :: out, enough + 1, ?_, ?_⟩
      · have hpre := Preorder.cons hout .nil
        rwa [List.append_nil] at hpre
      intro fuel hfuel junk
      obtain ⟨fuel, rfl⟩ : ∃ n, fuel = n + 1 := ⟨fuel - 1, by omega⟩
      rw [dumpPathAndChildren_walk htree hsha hwalk, if_pos hdir, hdump fuel (by omega)]
      rfl
    · have hchildren : childrenOn fs.disk i = [] := if_neg hdir
      refine ⟨[(q, i)], 1, ?_, ?_⟩
      · have hinner : Preorder (childrenOn fs.disk) (under q (childrenOn fs.disk i)) [] := by
          rw [hchildren]
          exact .nil
        exact .cons hinner .nil
      intro fuel hfuel junk
      obtain ⟨fuel, rfl⟩ : ∃ n, fuel = n + 1 := ⟨fuel - 1, by omega⟩
      rw [dumpPathAndChildren_walk htree hsha hwalk, if_neg hdir]
      rfl

omit htree hsha in
/-- Entries have inode numbers of 16 bits. -/
theorem walk_lt {i l : Nat} {q : List (List Byte)} (hwalk : Walk (childrenOn fs.disk) i q l)
    (hi : i < 2 ^ 16) : l < 2 ^ 16 := by
  induction hwalk with
  | nil => exact hi
  | cons hedge _ ih =>
    obtain ⟨-, e, -, -, -, rfl⟩ := mem_childrenOn.mp hedge
    exact ih e.dInumber.isLt

omit hsha in
theorem acc_of_reached {i : Nat} (hi : Reached fs.disk i) :
    Acc (fun j i => ∃ name, (name, j) ∈ childrenOn fs.disk i) i := by
  have hlt : ∀ i, Reached fs.disk i → i < 2 ^ 16 := by
    rintro i ⟨q, hq⟩
    exact walk_lt hq (by decide)
  have hfin : Finite {i // Reached fs.disk i} :=
    Finite.of_injective (fun i => (⟨i.1, hlt i.1 i.2⟩ : Fin (2 ^ 16))) fun a b hab =>
      Subtype.ext (Fin.mk.inj hab)
  refine acc_of_acyclic hfin ?_ htree.acyclic i hi
  rintro i j hi ⟨name, hedge⟩
  exact hi.step hedge

end tree

section nodup

variable {fs : UnixFilesystem} (htree : TreeImage fs.disk)
include htree

theorem nodup_labels {i : Nat} (hi : Reached fs.disk i) :
    ((childrenOn fs.disk i).map Prod.fst).Nodup := by
  rw [childrenOn]
  split
  · rename_i hdir
    have hnames : (edgesOf (dirEntries fs.disk (inodeOf fs.disk i))).map Prod.fst =
        ((dirEntries fs.disk (inodeOf fs.disk i)).filter fun e => decide (¬ IsDots e.name)).map
          Direntv6.name := by
      rw [edgesOf, List.map_map]
      rfl
    rw [hnames]
    exact (htree.unique i hi hdir).sublist (List.filter_sublist.map _)
  · exact List.nodup_nil

/-- Different paths have different strings. -/
theorem nodup_pathOf {out : List (List (List Byte) × Nat)}
    (hout : Preorder (childrenOn fs.disk) [([], rootInumber)] out) :
    (out.map fun p => pathOf p.1).Nodup := by
  have htokens : ∀ p ∈ out, tokens slash (pathOf p.1) = p.1 := by
    intro p hp
    obtain ⟨r, hr, ks, heq, hwalk⟩ := hout.mem_iff.mp hp
    obtain rfl := List.mem_singleton.mp hr
    have hwalk' : Walk (childrenOn fs.disk) rootInumber p.1 p.2 := by
      rw [heq]
      exact hwalk
    exact tokens_pathOf htree hwalk'
  have hpaths : (out.map Prod.fst).Nodup := by
    refine hout.nodup (List.pairwise_singleton _ _) ?_
    intro r hr ks l hwalk
    rw [List.mem_singleton.mp hr] at hwalk
    exact nodup_labels htree ⟨ks, hwalk⟩
  refine (List.Nodup.of_map Prod.fst hpaths).map_on ?_
  intro p hp p' hp' heq
  have hfst : p.1 = p'.1 := by rw [← htokens p hp, heq, htokens p' hp']
  exact List.inj_on_of_nodup_map hpaths hp hp' hfst

end nodup

/-- **The path dump enumerates the tree.**  With enough fuel it returns, and what it prints
is a line for each path of the tree, in preorder and each path once, with the inode number
that the path resolves to, and nothing else. -/
theorem pathDump_preorder {Ctx : Type} (sha : Sha1 Ctx) (hsha : sha.Total) (fs : UnixFilesystem)
    (htree : TreeImage fs.disk) :
    ∃ out enough, Preorder (childrenOn fs.disk) [([], rootInumber)] out ∧
      (∀ fuel, enough ≤ fuel → ∀ junk, dumpPathnameChecksum sha fs fuel junk =
        some ⟨out.map (pathLine sha fs.disk), .returned⟩) ∧
      (out.map fun p => pathOf p.1).Nodup ∧
      (∀ q i, (q, i) ∈ out ↔ Walk (childrenOn fs.disk) rootInumber q i) ∧
      ∀ q i, (q, i) ∈ out → ∀ junk, pathnameLookup fs junk (pathOf q) = .ok i := by
  obtain ⟨out, enough, hout, hdump⟩ := dumpsPreorder_of_acc htree hsha
    (acc_of_reached htree (reached_root _)) (.nil rootInumber)
  have hmem : ∀ q i, (q, i) ∈ out ↔ Walk (childrenOn fs.disk) rootInumber q i := by
    intro q i
    simp [hout.mem_iff]
  refine ⟨out, enough, hout, hdump, ?_, hmem, ?_⟩
  · exact nodup_pathOf htree hout
  · intro q i hq junk
    exact pathnameLookup_walk htree ((hmem q i).mp hq) junk

/-! ## A tree of two inodes -/

/-- Inode 1 is a directory of two entries in sector 3, inode 2 an empty file. -/
def treeInodes : List Byte :=
  [0x00, 0xc0, 0, 0, 0, 0, 0x20, 0x00, 0x03, 0x00] ++ List.replicate 22 0 ++ [0x00, 0x80]

/-- The entries `.` of inode 1 and `a` of inode 2. -/
def treeData : List Byte :=
  [0x01, 0x00, 0x2e] ++ List.replicate 13 0 ++ [0x02, 0x00, 0x61]

theorem tree_inodes :
    inodeOf (imageOf treeInodes treeData) 1 = plainInode 0xc000 0x20 3 ∧
      inodeOf (imageOf treeInodes treeData) 2 = plainInode 0x8000 0 0 := by
  rw [inodeOf_imageOf _ _ (by decide) (by decide), inodeOf_imageOf _ _ (by decide) (by decide)]
  decide

theorem tree_readable : Readable (imageOf treeInodes treeData) (plainInode 0xc000 0x20 3) :=
  readable_imageOf (by decide) (by decide) (by decide)

theorem tree_entries : dirEntries (imageOf treeInodes treeData) (plainInode 0xc000 0x20 3) =
    (direntsOf (pad treeData)).take 2 := by
  rw [← take_dirSlots tree_readable, dirSlots_imageOf _ _ (by decide) (by decide) (by decide)]
  rfl

theorem tree_children : childrenOn (imageOf treeInodes treeData) 1 = [([0x61], 2)] ∧
    childrenOn (imageOf treeInodes treeData) 2 = [] := by
  have hdir : IsDirectory (imageOf treeInodes treeData) 1 := by
    rw [IsDirectory, tree_inodes.1]
    decide
  have hfile : ¬ IsDirectory (imageOf treeInodes treeData) 2 := by
    rw [IsDirectory, tree_inodes.2]
    decide
  rw [childrenOn, childrenOn, if_pos hdir, if_neg hfile, tree_inodes.1, tree_entries]
  decide

theorem tree_walks {q : List (List Byte)} {i : Nat}
    (h : Walk (childrenOn (imageOf treeInodes treeData)) rootInumber q i) :
    q = [] ∧ i = 1 ∨ q = [[0x61]] ∧ i = 2 := by
  rcases h with _ | ⟨hedge, hrest⟩
  · exact .inl ⟨rfl, rfl⟩
  · rw [rootInumber, tree_children.1, List.mem_singleton] at hedge
    cases hedge
    rcases hrest with _ | ⟨hedge, -⟩
    · exact .inr ⟨rfl, rfl⟩
    · rw [tree_children.2] at hedge
      cases hedge

theorem tree_reached {i : Nat} (h : Reached (imageOf treeInodes treeData) i) : i = 1 ∨ i = 2 := by
  obtain ⟨q, hq⟩ := h
  exact (tree_walks hq).imp And.right And.right

theorem tree_directory {i : Nat} (h : Reached (imageOf treeInodes treeData) i)
    (hdir : IsDirectory (imageOf treeInodes treeData) i) : i = 1 := by
  refine (tree_reached h).resolve_right ?_
  rintro rfl
  rw [IsDirectory, tree_inodes.2] at hdir
  revert hdir
  decide

/-- The only edge goes down. -/
theorem tree_down {i j : Nat} (h : Relation.TransGen
    (fun i j => ∃ name, (name, j) ∈ childrenOn (imageOf treeInodes treeData) i) i j)
    (hi : Reached (imageOf treeInodes treeData) i) : i = 1 ∧ j = 2 := by
  induction h with
  | single hedge =>
    obtain ⟨name, hedge⟩ := hedge
    rcases tree_reached hi with rfl | rfl
    · rw [tree_children.1, List.mem_singleton] at hedge
      cases hedge
      exact ⟨rfl, rfl⟩
    · rw [tree_children.2] at hedge
      cases hedge
  | tail _ hedge ih =>
    obtain ⟨name, hedge⟩ := hedge
    rw [ih.2, tree_children.2] at hedge
    cases hedge

theorem treeImage_tree : TreeImage (imageFs treeInodes treeData).disk where
  allocated := by
    intro i hi
    rcases tree_reached hi with rfl | rfl
    · have h := allocatedAt_imageOf (by decide) (by decide) tree_inodes.1 (by decide)
      rwa [← tree_inodes.1] at h
    · have h := allocatedAt_imageOf (by decide) (by decide) tree_inodes.2 (by decide)
      rwa [← tree_inodes.2] at h
  readable := by
    intro i hi
    show Readable (imageOf treeInodes treeData) (inodeOf (imageOf treeInodes treeData) i)
    rcases tree_reached hi with rfl | rfl
    · rw [tree_inodes.1]
      exact tree_readable
    · rw [tree_inodes.2]
      exact readable_plainInode _ _ _
  sizes := by
    intro i hi hdir
    show inodeGetsize (inodeOf (imageOf treeInodes treeData) i) % sizeofDirentv6 = 0 ∧
      inodeGetsize (inodeOf (imageOf treeInodes treeData) i) / sizeofDirentv6 ≤ maxDirentries
    rcases tree_reached hi with rfl | rfl
    · rw [tree_inodes.1]
      decide
    · rw [tree_inodes.2]
      decide
  entries := by
    intro i hi hdir e he
    obtain rfl := tree_directory hi hdir
    have he' : e ∈ (direntsOf (pad treeData)).take 2 := by
      rwa [← tree_entries, ← tree_inodes.1]
    have hall : ∀ e ∈ (direntsOf (pad treeData)).take 2,
        e.dInumber ≠ 0 ∧ (e.name ≠ [] ∧ slash ∉ e.name) ∧ e.name.length ≤ 13 := by decide
    obtain ⟨hlive, ⟨hne, hslash⟩, hlen⟩ := hall e he'
    exact ⟨hlive, ⟨hne, hslash⟩, hlen⟩
  unique := by
    intro i hi hdir
    obtain rfl := tree_directory hi hdir
    show ((dirEntries (imageOf treeInodes treeData)
      (inodeOf (imageOf treeInodes treeData) 1)).map Direntv6.name).Nodup
    rw [tree_inodes.1, tree_entries]
    decide
  acyclic := by
    intro i hi hcycle
    obtain ⟨h1, h2⟩ := tree_down hcycle hi
    omega
  short := by
    intro q i hq
    rcases tree_walks hq with ⟨rfl, -⟩ | ⟨rfl, -⟩ <;> decide

theorem treeImage_dump : ∃ (out : List (List (List Byte) × Nat)) (enough : Nat),
    ([[0x61]], 2) ∈ out ∧ ∀ fuel, enough ≤ fuel → ∀ junk,
      dumpPathnameChecksum abcSha1 (imageFs treeInodes treeData) fuel junk =
        some ⟨out.map (pathLine abcSha1 (imageFs treeInodes treeData).disk), .returned⟩ := by
  obtain ⟨out, enough, -, hdump, -, hmem, -⟩ :=
    pathDump_preorder abcSha1 abcSha1_total _ treeImage_tree
  refine ⟨out, enough, (hmem _ _).mpr ?_, hdump⟩
  refine .cons (j := 2) ?_ (.nil 2)
  show _ ∈ childrenOn (imageOf treeInodes treeData) 1
  rw [tree_children.1]
  exact List.mem_singleton.mpr rfl

end Acso.FileSystem
