import Acso.FileSystem.PathDump
import Acso.FileSystem.Resolution

/-!
# Inodes outside the inode area

The superblock gives the number of blocks of the inode area, but `inodeIget` does not look
at it.  A number beyond the area leads into the sectors behind it, and whatever is there is
taken for an inode if it has the bit `IALLOC` set.  `bypathnameFetches` lists the inodes that
`chksumfileBypathname` fetches; they are all in the area exactly if the numbers it follows
are, or the bit is not set (`fetchesInArea_iff`).
-/

namespace Acso.FileSystem

open Acso.Lib

/-! ## The fetches of a call -/

/-- A call of `inodeIget`. -/
structure Fetch where
  junk : Junk
  inumber : Int

def Fetch.result (fs : UnixFilesystem) (f : Fetch) : Result Inode := inodeIget fs f.junk f.inumber

/-- The fetches of `pathnameLoop`. -/
def pathnameLoopFetches (fs : UnixFilesystem) (junk : Junk) :
    Nat → List (List Byte) → Nat → List Fetch
  | _, [], _ => []
  | i, token :: tokens, curr =>
    ⟨(junk.sub i).sub 0, curr⟩ ::
      match directoryFindname fs (junk.sub i) token curr with
      | .error _ => []
      | .ok dirEntry => pathnameLoopFetches fs junk (i + 1) tokens dirEntry.dInumber.toNat

/-- The fetches of `pathnameLookup`. -/
def pathnameLookupFetches (fs : UnixFilesystem) (junk : Junk) (pathname : List Byte) : List Fetch :=
  if pathname.head? ≠ some slash then []
  else pathnameLoopFetches fs junk 0 (tokens slash pathname) rootInumber

variable {Ctx : Type}

/-- The fetches of `chksumLoop`. -/
def chksumLoopFetches (sha : Sha1 Ctx) (fs : UnixFilesystem) (junk : Junk) (inumber : Int) :
    List Nat → Ctx → List Fetch
  | [], _ => []
  | offset :: offsets, shactx =>
    let bno := offset / diskimgSectorSize
    ⟨(junk.sub bno).sub 0, inumber⟩ ::
      match fileGetblock fs (junk.sub bno) inumber bno ((junk.sub bno).sub 2).here with
      | .error _ => []
      | .ok (bytesMoved, buf) =>
        match sha.update shactx (buf.bytes.take bytesMoved.toNat) with
        | none => []
        | some shactx => chksumLoopFetches sha fs junk inumber offsets shactx

/-- The fetches of `chksumfileByinumber`. -/
def byinumberFetches (sha : Sha1 Ctx) (fs : UnixFilesystem) (junk : Junk) (inumber : Int) :
    List Fetch :=
  match sha.init with
  | none => []
  | some shactx =>
    ⟨junk.sub 0, inumber⟩ ::
      match inodeIget fs (junk.sub 0) inumber with
      | .error _ => []
      | .ok inode =>
        if inode.mode &&& ialloc = 0 then []
        else chksumLoopFetches sha fs (junk.sub 1) inumber (offsets (inodeGetsize inode)) shactx

/-- The fetches of `chksumfileBypathname`. -/
def bypathnameFetches (sha : Sha1 Ctx) (fs : UnixFilesystem) (junk : Junk) (pathname : List Byte) :
    List Fetch :=
  pathnameLookupFetches fs (junk.sub 0) pathname ++
    match pathnameLookup fs (junk.sub 0) pathname with
    | .error _ => []
    | .ok inumber => byinumberFetches sha fs (junk.sub 1) inumber

/-! ## The inode area -/

/-- The number of an inode in the inode area. -/
def InArea (fs : UnixFilesystem) (inumber : Int) : Prop :=
  1 ≤ inumber ∧ inumber ≤ 16 * fs.sIsize.toNat

/-- If the fetch succeeds, its inode is in the area. -/
def Fetch.InArea (fs : UnixFilesystem) (f : Fetch) : Prop :=
  ∀ inode, f.result fs = .ok inode → FileSystem.InArea fs f.inumber

/-- The number is not beyond the area, or what is read in the place of its inode does not have
`IALLOC` set. -/
def NotBeyond (fs : UnixFilesystem) (junk : Junk) (inumber : Nat) : Prop :=
  inumber ≤ 16 * fs.sIsize.toNat ∨ (readInode fs.disk inumber junk.here).mode &&& ialloc = 0

/-- In each directory on the way, the first slot that carries the next component has such a
number, and the number at the end satisfies `last`. -/
def FirstSlotsInArea (fs : UnixFilesystem) (junk : Junk) (last : Nat → Prop) :
    Nat → List (List Byte) → Nat → Prop
  | _, [], curr => last curr
  | i, token :: tokens, curr => NotBeyond fs ((junk.sub i).sub 0) curr ∧ ∀ e,
      (slotsAt fs (junk.sub i) curr).find? (fun e => decide (e.Carries token)) = some e →
        FirstSlotsInArea fs junk last (i + 1) tokens e.dInumber.toNat

section fetches

variable {fs : UnixFilesystem} {junk : Junk}

theorem inodeIget_nonpos {inumber : Int} (h : inumber ≤ 0) :
    inodeIget fs junk inumber = .error (.minusOne []) := if_pos h

/-- Fetching by a number of 16 bits. -/
theorem inodeIget_eq_of_lt {n : Nat} (hpos : 0 < n) (hlt : n < 2 ^ 16) :
    inodeIget fs junk n =
      if (readInode fs.disk n junk.here).mode &&& ialloc = 0 then
        .error (.minusOne ["Error: Inode " ++ toString (n : Int) ++ " is not allocated.\n"])
      else .ok (readInode fs.disk n junk.here) := by
  have hsector : inodeSector n < 2 ^ 22 := by
    have hk : ((n : Int) - 1).toNat / 16 ≤ n := by omega
    have heq : inodeSector n = 2 + ((n : Int) - 1).toNat / 16 := rfl
    omega
  refine inodeIget_eq (Int.natCast_pos.mpr hpos) ?_ junk
  rw [sectorOffset_eq hsector]
  exact Int.natCast_nonneg _

/-- **A single fetch.** -/
theorem fetch_inArea_iff {n : Nat} (hlt : n < 2 ^ 16) :
    (Fetch.mk junk n).InArea fs ↔ NotBeyond fs junk n := by
  rw [Fetch.InArea, Fetch.result, NotBeyond]
  rcases Nat.eq_zero_or_pos n with rfl | hpos
  · refine iff_of_true ?_ (.inl (Nat.zero_le _))
    intro inode h
    have herr : inodeIget fs junk (0 : Nat) = .error (.minusOne []) :=
      inodeIget_nonpos (Int.le_refl 0)
    cases herr.symm.trans h
  · dsimp only
    rw [inodeIget_eq_of_lt hpos hlt]
    by_cases halloc : (readInode fs.disk n junk.here).mode &&& ialloc = 0
    · rw [if_pos halloc]
      exact iff_of_true (by rintro _ ⟨⟩) (.inr halloc)
    · rw [if_neg halloc, or_iff_left halloc, FileSystem.InArea]
      constructor
      · intro h
        have := (h _ rfl).2
        omega
      · intro h inode _
        omega

theorem pathnameLoop_lt {i : Nat} {tokens : List (List Byte)} {curr x : Nat} (hlt : curr < 2 ^ 16)
    (h : pathnameLoop fs junk i tokens curr = .ok x) : x < 2 ^ 16 := by
  induction tokens generalizing i curr with
  | nil => exact Except.ok.inj h ▸ hlt
  | cons token tokens ih =>
    rw [pathnameLoop] at h
    obtain ⟨e, -, h⟩ := of_bind_eq_ok h
    exact ih e.dInumber.isLt h

/-- The fetches of the loop over the tokens, and what follows from its result. -/
theorem pathnameLoop_inArea_iff (P : Nat → Prop) (i : Nat) (tokens : List (List Byte)) (curr : Nat)
    (hlt : curr < 2 ^ 16) :
    ((∀ f ∈ pathnameLoopFetches fs junk i tokens curr, f.InArea fs) ∧
        ∀ x, pathnameLoop fs junk i tokens curr = .ok x → P x) ↔
      FirstSlotsInArea fs junk P i tokens curr := by
  induction tokens generalizing i curr with
  | nil =>
    rw [pathnameLoopFetches, pathnameLoop, FirstSlotsInArea]
    simp
  | cons token tokens ih =>
    rw [pathnameLoopFetches, pathnameLoop, FirstSlotsInArea, List.forall_mem_cons,
      fetch_inArea_iff hlt, and_assoc]
    refine and_congr_right fun _ => ?_
    rcases directoryFindname_slots (junk.sub i) token curr with
      ⟨e, hok, hfind⟩ | ⟨⟨stderr, herr⟩, hfind⟩
    · rw [hok, hfind]
      simp only [Option.some.injEq, forall_eq']
      exact ih (i + 1) _ e.dInumber.isLt
    · rw [herr, hfind]
      exact iff_of_true ⟨List.forall_mem_nil _, by rintro _ ⟨⟩⟩ (by rintro _ ⟨⟩)

/-- The checksum loop only fetches the inode of the file. -/
theorem inumber_of_mem_chksumLoopFetches (sha : Sha1 Ctx) {inumber : Int} {offsets : List Nat}
    {shactx : Ctx} {f : Fetch} (h : f ∈ chksumLoopFetches sha fs junk inumber offsets shactx) :
    f.inumber = inumber := by
  induction offsets generalizing shactx with
  | nil => cases h
  | cons offset offsets ih =>
    rw [chksumLoopFetches] at h
    rcases List.mem_cons.mp h with rfl | h
    · rfl
    · split at h
      · cases h
      · split at h
        · cases h
        · exact ih h

/-- Within the area no fetch leaves it. -/
theorem inArea_of_le {n : Nat} (hle : n ≤ 16 * fs.sIsize.toNat) {f : Fetch} (hf : f.inumber = n) :
    f.InArea fs := by
  intro inode h
  rw [Fetch.result, hf] at h
  rw [FileSystem.InArea, hf]
  refine ⟨?_, by omega⟩
  by_contra hneg
  rw [inodeIget_nonpos (by omega)] at h
  cases h

/-- The fetches of the checksum: the first one decides. -/
theorem byinumber_inArea_iff (sha : Sha1 Ctx) {n : Nat} (hlt : n < 2 ^ 16) :
    (∀ f ∈ byinumberFetches sha fs junk n, f.InArea fs) ↔
      (sha.init ≠ none → NotBeyond fs (junk.sub 0) n) := by
  rw [byinumberFetches]
  cases sha.init with
  | none => exact iff_of_true (List.forall_mem_nil _) (fun h => absurd rfl h)
  | some shactx =>
    dsimp only
    rw [List.forall_mem_cons, fetch_inArea_iff hlt, imp_iff_right (Option.some_ne_none shactx)]
    refine and_iff_left_of_imp ?_
    rintro (hle | halloc)
    · intro f hf
      split at hf
      · cases hf
      · split at hf
        · cases hf
        · exact inArea_of_le hle (inumber_of_mem_chksumLoopFetches sha hf)
    · have herr : ∃ e, inodeIget fs (junk.sub 0) n = .error e := by
        rcases Nat.eq_zero_or_pos n with rfl | hpos
        · exact ⟨_, inodeIget_nonpos (Int.le_refl 0)⟩
        · exact ⟨_, by rw [inodeIget_eq_of_lt hpos hlt, if_pos halloc]⟩
      obtain ⟨e, herr⟩ := herr
      rw [herr]
      exact List.forall_mem_nil _

end fetches

/-- **Every inode that is fetched on the way to a checksum lies in the inode area** if and
only if no directory on the way leads, by the first slot that carries the next component, to
a number beyond the area whose place looks like an inode in use. -/
theorem fetchesInArea_iff (sha : Sha1 Ctx) (fs : UnixFilesystem) (junk : Junk)
    (pathname : List Byte) :
    (∀ f ∈ bypathnameFetches sha fs junk pathname, f.InArea fs) ↔
      (pathname.head? = some slash → FirstSlotsInArea fs (junk.sub 0)
        (fun x => sha.init ≠ none → NotBeyond fs ((junk.sub 1).sub 0) x) 0 (tokens slash pathname)
        rootInumber) := by
  rw [bypathnameFetches, List.forall_mem_append, pathnameLookupFetches, pathnameLookup]
  by_cases habs : pathname.head? = some slash
  · rw [if_neg (not_not_intro habs), if_neg (not_not_intro habs), imp_iff_right habs,
      ← pathnameLoop_inArea_iff _ 0 _ rootInumber (by decide)]
    refine and_congr_right fun _ => ?_
    cases hloop : pathnameLoop fs (junk.sub 0) 0 (tokens slash pathname) rootInumber with
    | error e => exact iff_of_true (List.forall_mem_nil _) (by rintro _ ⟨⟩)
    | ok n =>
      simp only [Except.ok.injEq, forall_eq']
      exact byinumber_inArea_iff sha (pathnameLoop_lt (by decide) hloop)
  · rw [if_pos habs, if_pos habs]
    exact iff_of_true ⟨List.forall_mem_nil _, List.forall_mem_nil _⟩ (fun h => absurd h habs)

/-- Inode 1 is a directory of two slots in sector 3. -/
def strayInodes : List Byte := [0x00, 0xc0, 0, 0, 0, 0, 0x20, 0x00, 0x03, 0x00]

/-- The entry `x` of inode 32768 and the entry `a` of inode 17.  Inode 17 would be the first
one behind the area, in this sector: an empty file in use. -/
def strayData : List Byte :=
  [0x00, 0x80, 0x78] ++ List.replicate 13 0 ++ [0x11, 0x00, 0x61]

theorem stray_lookup :
    pathnameLookup (imageFs strayInodes strayData) (zeroJunk.sub 0) [slash, 0x61] = .ok 17 := by
  have hinode : inodeOf (imageOf strayInodes strayData) 1 = plainInode 0xc000 0x20 3 := by
    rw [inodeOf_imageOf _ _ (by decide) (by decide)]
    decide
  have hname : EntryName [0x61] := ⟨by decide, by decide, by decide⟩
  have hfind := directoryFindname_imageOf (by decide) (by decide) hinode (by decide) (by decide)
    (by decide) (by decide) hname ((zeroJunk.sub 0).sub 0)
  have hslot : (direntsOf (pad strayData)).find? (fun e => decide (e.name = [0x61])) =
      some ⟨17, #v[0x61, 0, 0, 0, 0, 0, 0, 0, 0, 0, 0, 0, 0, 0]⟩ := by decide
  rw [hslot] at hfind
  rw [pathnameLookup_root _ _ ⟨by decide, by decide⟩]
  show directoryFindname _ _ _ (1 : Nat) >>= _ = _
  rw [hfind]
  rfl

/-- What the code takes for inode 17. -/
theorem strayInode_allocated :
    AllocatedAt (imageOf strayInodes strayData) (17 : Nat)
      (inodeOf (imageOf strayInodes strayData) 17) where
  toStoredAt := storedAt_inodeOf (by decide) (by decide) (sectorInside_imageOf _ _ (by decide))
  alloc := by
    have hplace : inodeOf (imageOf strayInodes strayData) 17 =
        Inode.ofBytes ((pad strayData).take sizeofInode) := by
      have hsector : sizeofInode * (17 - 1) = (pad strayInodes).length := by rw [length_pad]; rfl
      rw [inodeOf, inodeStartSector, drop_imageOf, hsector, List.drop_left]
    rw [hplace]
    decide

/-- The path `/a` leads to inode 17, although the area ends with inode 16. -/
theorem stray_fetched :
    ¬ ∀ (Ctx : Type) (sha : Sha1 Ctx) (junk : Junk) (disk : List Byte) (fs : UnixFilesystem),
      unixfilesystemInit junk disk = .ok fs →
        ∀ pathname, ∀ f ∈ bypathnameFetches sha fs junk pathname, f.InArea fs := by
  intro h
  have hfetch : Fetch.mk ((zeroJunk.sub 1).sub 0) (17 : Nat) ∈
      bypathnameFetches abcSha1 (imageFs strayInodes strayData) zeroJunk [slash, 0x61] := by
    rw [bypathnameFetches, stray_lookup]
    exact List.mem_append_right _ List.mem_cons_self
  have harea := h _ abcSha1 zeroJunk _ _ (unixfilesystemInit_imageOf strayInodes strayData zeroJunk)
    _ _ hfetch _ (inodeIget_allocated strayInode_allocated _)
  exact absurd harea.2 (by decide)

end Acso.FileSystem
