import Acso.FileSystem.FileReading

/-!
# The inode dump

`DumpInodeChecksum` means to skip the inodes that are not in use, but `inodeIget`
refuses these, and the loop returns when it does.  So the dump reports an inode
in use exactly if all inodes before it are in use too (`mem_dumpLoop_iff`).
-/

namespace Acso.FileSystem

open Acso.Lib

/-- The hash never fails. -/
structure Sha1.Total {Ctx : Type} (sha : Sha1 Ctx) : Prop where
  init : sha.init.isSome
  update : ∀ ctx bytes, (sha.update ctx bytes).isSome
  final : ∀ ctx, (sha.final ctx).isSome

/-- Inode `n` is in use. -/
def InUse (disk : List Byte) (n : Nat) : Prop := (inodeOf disk n).mode &&& ialloc ≠ 0

instance (disk : List Byte) (n : Nat) : Decidable (InUse disk n) :=
  inferInstanceAs (Decidable (_ ≠ _))

/-- The inode sectors lie inside the image. -/
def InodeAreaInside (fs : UnixFilesystem) : Prop :=
  ∀ k < fs.sIsize.toNat, SectorInside fs.disk (inodeStartSector + k)

/-- All blocks of inode `n` can be read. -/
def BlocksReadable (fs : UnixFilesystem) (n : Nat) : Prop :=
  ∀ b < blockCount (inodeGetsize (inodeOf fs.disk n)), ∀ junk buf,
    ∃ r, fileGetblock fs junk n b buf = .ok r

section

variable {Ctx : Type} {sha : Sha1 Ctx} {fs : UnixFilesystem} {n : Nat}

theorem storedAt_of_area (harea : InodeAreaInside fs) (hpos : 0 < n)
    (hlt : n < 16 * fs.sIsize.toNat) : StoredAt fs.disk n (inodeOf fs.disk n) := by
  have hsize := fs.sIsize.isLt
  have hk : ((n : Int) - 1).toNat / sectorInodeCount < fs.sIsize.toNat := by
    rw [show sectorInodeCount = 16 from rfl]
    omega
  exact storedAt_inodeOf hpos (by omega) (harea _ hk)

/-- The checksum loop gets through any blocks that can be read. -/
theorem chksumLoop_ok (hsha : sha.Total) (hblocks : BlocksReadable fs n) (junk : Junk) :
    ∀ (bs : List Nat) (ctx : Ctx), (∀ b ∈ bs, b < blockCount (inodeGetsize (inodeOf fs.disk n))) →
      ∃ ctx', chksumLoop sha fs junk n (bs.map (diskimgSectorSize * ·)) ctx = .ok ctx' := by
  intro bs
  induction bs with
  | nil =>
    intro ctx _
    exact ⟨ctx, rfl⟩
  | cons b bs ih =>
    intro ctx hbs
    have hbno : diskimgSectorSize * b / diskimgSectorSize = b :=
      Nat.mul_div_cancel_left b (by decide)
    obtain ⟨⟨count, buf⟩, hget⟩ := hblocks b (hbs b (by simp)) (junk.sub b) ((junk.sub b).sub 2).here
    obtain ⟨ctx', hctx'⟩ := Option.isSome_iff_exists.mp
      (hsha.update ctx (buf.bytes.take count.toNat))
    obtain ⟨ctx'', hrest⟩ := ih ctx' fun b' hb' => hbs b' (by simp [hb'])
    refine ⟨ctx'', ?_⟩
    rw [List.map_cons, chksumLoop]
    simp only [hbno]
    rw [hget, ok_bind]
    dsimp only
    rw [hctx']
    exact hrest

theorem chksumfileByinumber_ok (hsha : sha.Total)
    (ha : AllocatedAt fs.disk n (inodeOf fs.disk n)) (hblocks : BlocksReadable fs n)
    (junk : Junk) : ∃ chksum, chksumfileByinumber sha fs junk n = .ok chksum := by
  obtain ⟨ctx, hinit⟩ := Option.isSome_iff_exists.mp hsha.init
  obtain ⟨ctx', hloop⟩ := chksumLoop_ok hsha hblocks (junk.sub 1)
    (List.range (blockCount (inodeGetsize (inodeOf fs.disk n)))) ctx fun b hb => List.mem_range.mp hb
  obtain ⟨chksum, hfinal⟩ := Option.isSome_iff_exists.mp (hsha.final ctx')
  refine ⟨chksum, ?_⟩
  rw [chksumfileByinumber, hinit]
  dsimp only
  rw [inodeIget_allocated ha, ok_bind, if_neg ha.alloc, offsets, hloop, ok_bind, hfinal]

/-- A line for inode `n` is among the lines. -/
def Reports (lines : List Line) (n : Nat) : Prop :=
  ∃ mode size chksumstring, Line.inode n mode size chksumstring ∈ lines

theorem not_reports_lines (e : Failure) (text : String) (n : Nat) :
    ¬ Reports (e.lines ++ [.stderr text]) n := by
  rintro ⟨mode, size, chksumstring, h⟩
  cases e <;> simp [Failure.lines] at h

/-- Where an inode is in use, the loop goes on, and reports it if it has a
checksum. -/
theorem dumpLoop_inUse (sha : Sha1 Ctx) (harea : InodeAreaInside fs) (hpos : 0 < n)
    (hlt : n < 16 * fs.sIsize.toNat) (huse : InUse fs.disk n) (junk : Junk) (rest : List Nat) :
    ∃ lines : List Line, (∀ m, Reports lines m → m = n) ∧
      ((∃ chksum, chksumfileByinumber sha fs ((junk.sub n).sub 1) n = .ok chksum) →
        Reports lines n) ∧
      dumpLoop sha fs junk (n :: rest) = lines ++ dumpLoop sha fs junk rest := by
  have hget := inodeIget_stored (storedAt_of_area harea hpos hlt) ((junk.sub n).sub 0)
  rw [if_neg huse] at hget
  rw [dumpLoop, hget]
  dsimp only
  rw [if_neg huse]
  cases hsum : chksumfileByinumber sha fs ((junk.sub n).sub 1) n with
  | error e =>
    refine ⟨e.lines ++ [.stderr ("Inode " ++ toString n ++ " can't compute chksum\n")], ?_, ?_, ?_⟩
    · intro m hm
      exact absurd hm (not_reports_lines e _ m)
    · rintro ⟨chksum, h⟩
      cases h
    · rw [List.append_assoc]
      rfl
  | ok chksum =>
    refine ⟨[.inode n (inodeOf fs.disk n).mode (inodeGetsize (inodeOf fs.disk n))
      (chksumfileCvt2string chksum)], ?_, ?_, rfl⟩
    · rintro m ⟨mode, size, chksumstring, h⟩
      cases List.mem_singleton.mp h
      rfl
    · exact fun _ => ⟨_, _, _, List.mem_singleton.mpr rfl⟩

/-- Where an inode is not in use, the loop returns. -/
theorem dumpLoop_free (sha : Sha1 Ctx) (harea : InodeAreaInside fs) (hpos : 0 < n)
    (hlt : n < 16 * fs.sIsize.toNat) (hfree : ¬ InUse fs.disk n) (junk : Junk) (rest : List Nat)
    (m : Nat) : ¬ Reports (dumpLoop sha fs junk (n :: rest)) m := by
  have hget := inodeIget_stored (storedAt_of_area harea hpos hlt) ((junk.sub n).sub 0)
  rw [if_pos (not_not.mp hfree)] at hget
  rw [dumpLoop, hget]
  exact not_reports_lines _ _ m

theorem reports_append {lines lines' : List Line} :
    Reports (lines ++ lines') n ↔ Reports lines n ∨ Reports lines' n := by
  simp only [Reports, List.mem_append, exists_or]

/-- **From inode `i` on**, the loop reaches inode `n` exactly if all inodes in
between are in use. -/
theorem mem_dumpLoop_iff (hsha : sha.Total) (harea : InodeAreaInside fs)
    (hlt : n < 16 * fs.sIsize.toNat) (huse : InUse fs.disk n) (hblocks : BlocksReadable fs n)
    (junk : Junk) (k i : Nat) (hi : 0 < i) (hin : i ≤ n) (hnk : n < i + k) :
    Reports (dumpLoop sha fs junk (List.range' i k)) n ↔
      ∀ m, i ≤ m → m < n → InUse fs.disk m := by
  induction k generalizing i with
  | zero => omega
  | succ k ih =>
    rw [List.range'_succ]
    by_cases hused : InUse fs.disk i
    · obtain ⟨lines, honly, hreport, hloop⟩ := dumpLoop_inUse sha harea hi (by omega) hused junk
        (List.range' (i + 1) k)
      rw [hloop, reports_append]
      rcases Nat.eq_or_lt_of_le hin with rfl | hlt'
      · have ha : AllocatedAt fs.disk i (inodeOf fs.disk i) :=
          ⟨storedAt_of_area harea hi hlt, huse⟩
        refine iff_of_true (.inl (hreport ?_)) ?_
        · exact chksumfileByinumber_ok hsha ha hblocks _
        · intro m hm hm'
          omega
      · rw [or_iff_right fun h => Nat.ne_of_lt hlt' (honly n h).symm,
          ih (i + 1) (by omega) hlt' (by omega)]
        constructor
        · intro h m hm hm'
          rcases Nat.eq_or_lt_of_le hm with rfl | hm
          · exact hused
          · exact h m hm hm'
        · intro h m hm hm'
          exact h m (by omega) hm'
    · refine iff_of_false (dumpLoop_free sha harea hi (by omega) hused junk _ n) ?_
      intro h
      have hne : i ≠ n := by
        rintro rfl
        exact hused huse
      exact hused (h i (Nat.le_refl i) (Nat.lt_of_le_of_ne hin hne))

end

/-- The dump reports an inode in use whose blocks can be read if and only if all
inodes before it are in use. -/
theorem dump_reports_iff {Ctx : Type} (sha : Sha1 Ctx) (hsha : sha.Total) (fs : UnixFilesystem)
    (harea : InodeAreaInside fs) (junk : Junk) (n : Nat) (hpos : 1 ≤ n)
    (hlt : n < 16 * fs.sIsize.toNat) (huse : InUse fs.disk n) (hblocks : BlocksReadable fs n) :
    Reports (dumpInodeChecksum sha fs junk) n ↔ ∀ m, 1 ≤ m → m < n → InUse fs.disk m :=
  mem_dumpLoop_iff hsha harea hlt huse hblocks junk _ 1 Nat.one_pos hpos (by omega)

/-! ## Two images -/

theorem abcSha1_total : abcSha1.Total := ⟨rfl, fun _ _ => rfl, fun _ => rfl⟩

theorem imageFs_areaInside (inodes data : List Byte) : InodeAreaInside (imageFs inodes data) := by
  intro k hk
  have hk0 : k = 0 := by
    have h1 : (imageFs inodes data).sIsize.toNat = 1 := rfl
    omega
  rw [hk0]
  exact sectorInside_imageOf _ _ (by decide)

/-- An empty file needs no block. -/
theorem blocksReadable_of_empty {fs : UnixFilesystem} {n : Nat}
    (h : inodeGetsize (inodeOf fs.disk n) = 0) : BlocksReadable fs n := by
  intro b hb
  rw [h] at hb
  cases hb

/-- Inodes 1 and 2 are empty files. -/
def twoFiles : List Byte := [0x00, 0x80] ++ List.replicate 30 0 ++ [0x00, 0x80]

/-- Inode 1 is free, inode 2 is an empty file. -/
def gapFiles : List Byte := List.replicate 32 0 ++ [0x00, 0x80]

theorem twoFiles_inodes : ∀ n, 1 ≤ n → n ≤ 2 →
    inodeOf (imageOf twoFiles []) n = plainInode 0x8000 0 0 := by
  intro n h1 h2
  rw [inodeOf_imageOf _ _ (by omega) h1]
  rcases (by omega : n = 1 ∨ n = 2) with rfl | rfl
  · decide
  · decide

theorem gapFiles_inodes :
    inodeOf (imageOf gapFiles []) 1 = plainInode 0 0 0 ∧
      inodeOf (imageOf gapFiles []) 2 = plainInode 0x8000 0 0 := by
  rw [inodeOf_imageOf _ _ (by decide) (by decide), inodeOf_imageOf _ _ (by decide) (by decide)]
  decide

theorem twoFiles_dump :
    Reports (dumpInodeChecksum abcSha1 (imageFs twoFiles []) zeroJunk) 2 := by
  have huse : ∀ n, 1 ≤ n → n ≤ 2 → InUse (imageFs twoFiles []).disk n := by
    intro n h1 h2
    show (inodeOf (imageOf twoFiles []) n).mode &&& ialloc ≠ 0
    rw [twoFiles_inodes n h1 h2]
    decide
  have hempty : inodeGetsize (inodeOf (imageFs twoFiles []).disk 2) = 0 := by
    show inodeGetsize (inodeOf (imageOf twoFiles []) 2) = 0
    rw [twoFiles_inodes 2 (by decide) (by decide)]
    rfl
  exact (dump_reports_iff abcSha1 abcSha1_total _ (imageFs_areaInside _ _) zeroJunk 2 (by decide)
    (by decide) (huse 2 (by decide) (by decide)) (blocksReadable_of_empty hempty)).mpr
    fun m h1 h2 => huse m h1 (by omega)

/-- Of the image with `gapFiles` the dump reports no inode at all. -/
theorem gapFiles_dump_misses :
    ¬ ∀ (Ctx : Type) (sha : Sha1 Ctx), sha.Total → ∀ (junk : Junk) (disk : List Byte)
      (fs : UnixFilesystem), unixfilesystemInit junk disk = .ok fs → InodeAreaInside fs →
      ∀ n, 1 ≤ n → n < 16 * fs.sIsize.toNat → InUse fs.disk n → BlocksReadable fs n →
        Reports (dumpInodeChecksum sha fs junk) n := by
  intro h
  have huse : InUse (imageFs gapFiles []).disk 2 := by
    show (inodeOf (imageOf gapFiles []) 2).mode &&& ialloc ≠ 0
    rw [gapFiles_inodes.2]
    decide
  have hfree : ¬ InUse (imageFs gapFiles []).disk 1 := by
    show ¬ (inodeOf (imageOf gapFiles []) 1).mode &&& ialloc ≠ 0
    rw [gapFiles_inodes.1]
    decide
  have hempty : inodeGetsize (inodeOf (imageFs gapFiles []).disk 2) = 0 := by
    show inodeGetsize (inodeOf (imageOf gapFiles []) 2) = 0
    rw [gapFiles_inodes.2]
    rfl
  exact dumpLoop_free abcSha1 (imageFs_areaInside gapFiles []) (by decide) (by decide) hfree zeroJunk
    _ 2 (h _ abcSha1 abcSha1_total zeroJunk _ _ (unixfilesystemInit_imageOf gapFiles [] zeroJunk)
      (imageFs_areaInside _ _) 2 (by decide) (by decide) huse (blocksReadable_of_empty hempty))

end Acso.FileSystem
