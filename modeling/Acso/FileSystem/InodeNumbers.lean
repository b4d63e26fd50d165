import Mathlib.Data.Set.Prod
import Mathlib.Order.Interval.Set.Defs
import Acso.FileSystem.InodeDump

/-!
# The numbers of the inodes

Inodes are numbered from 1 on, sectors and the places in them from 0 on.  The numbers
`1, …, 16 * s_isize` are those of the inode area (`inodePlace_bijOn`), but `DumpInodeChecksum`
stops in front of the last one, so it leaves out the last place of the area and no other
(`count_visited`).
-/

namespace Acso.FileSystem

open Acso.Lib

/-- The sector that `inodeIget` reads, and the place in it that it takes the inode from. -/
def inodePlace (inumber : Nat) : Nat × Nat := (inodeSector inumber, inodeSlot inumber)

/-- The places of the inode area. -/
def inodeArea (fs : UnixFilesystem) : Set (Nat × Nat) :=
  Set.Ico inodeStartSector (inodeStartSector + fs.sIsize.toNat) ×ˢ Set.Iio sectorInodeCount

/-- The last place of the inode area. -/
def lastPlace (fs : UnixFilesystem) : Nat × Nat :=
  (inodeStartSector + fs.sIsize.toNat - 1, sectorInodeCount - 1)

theorem inodePlace_eq (inumber : Nat) :
    inodePlace inumber = (2 + (inumber - 1) / 16, (inumber - 1) % 16) := by
  have hsub : ((inumber : Int) - 1).toNat = inumber - 1 := by omega
  rw [inodePlace, inodeSector, inodeSlot, hsub]
  rfl

theorem mem_inodeArea {fs : UnixFilesystem} {place : Nat × Nat} :
    place ∈ inodeArea fs ↔
      (2 ≤ place.1 ∧ place.1 < 2 + fs.sIsize.toNat) ∧ place.2 < 16 := Iff.rfl

theorem inodePlace_injOn (s : Set Nat) (hpos : ∀ n ∈ s, 1 ≤ n) : Set.InjOn inodePlace s := by
  intro n hn m hm heq
  have hn1 := hpos n hn
  have hm1 := hpos m hm
  rw [inodePlace_eq, inodePlace_eq, Prod.mk.injEq] at heq
  omega

/-- **The numbers and the places** of the inode area. -/
theorem inodePlace_bijOn (fs : UnixFilesystem) :
    Set.BijOn inodePlace (Set.Icc 1 (16 * fs.sIsize.toNat)) (inodeArea fs) := by
  refine ⟨?_, ?_, ?_⟩
  · rintro n ⟨hpos, hle⟩
    rw [mem_inodeArea, inodePlace_eq]
    dsimp only
    omega
  · apply inodePlace_injOn
    intro n hn
    exact hn.1
  · rintro ⟨sector, slot⟩ hplace
    obtain ⟨⟨hstart, hend⟩, hslot⟩ := mem_inodeArea.mp hplace
    dsimp only at hstart hend hslot
    refine ⟨16 * (sector - 2) + slot + 1, ⟨by omega, by omega⟩, ?_⟩
    rw [inodePlace_eq, Prod.mk.injEq]
    omega

/-! ## The numbers of the loop -/

theorem mem_inumbers {fs : UnixFilesystem} {n : Nat} :
    n ∈ inumbers fs ↔ 1 ≤ n ∧ n < 16 * fs.sIsize.toNat := by
  rw [inumbers, List.mem_range'_1]
  omega

theorem nodup_visited (fs : UnixFilesystem) : ((inumbers fs).map inodePlace).Nodup := by
  have hnodup : (inumbers fs).Nodup := List.nodup_range'
  refine hnodup.map_on ?_
  intro n hn m hm
  apply inodePlace_injOn {n | n ∈ inumbers fs}
  · intro k hk
    exact (mem_inumbers.mp hk).1
  · exact hn
  · exact hm

/-- **What the loop visits**: each place once, but the last one not at all. -/
theorem count_visited {fs : UnixFilesystem} {place : Nat × Nat} (hplace : place ∈ inodeArea fs) :
    ((inumbers fs).map inodePlace).count place = if place = lastPlace fs then 0 else 1 := by
  obtain ⟨n, ⟨hpos, hle⟩, rfl⟩ := (inodePlace_bijOn fs).surjOn hplace
  have hlast : inodePlace n = lastPlace fs ↔ n = 16 * fs.sIsize.toNat := by
    rw [inodePlace_eq, lastPlace, Prod.mk.injEq]
    show (2 + (n - 1) / 16 = 2 + fs.sIsize.toNat - 1 ∧ (n - 1) % 16 = 16 - 1) ↔ _
    omega
  have hmem : inodePlace n ∈ (inumbers fs).map inodePlace ↔ n ≠ 16 * fs.sIsize.toNat := by
    rw [List.mem_map]
    constructor
    · rintro ⟨m, hm, heq⟩
      obtain ⟨hm1, hlt⟩ := mem_inumbers.mp hm
      have hmn := (inodePlace_bijOn fs).injOn ⟨hm1, hlt.le⟩ ⟨hpos, hle⟩ heq
      omega
    · intro hne
      exact ⟨n, mem_inumbers.mpr ⟨hpos, by omega⟩, rfl⟩
  rw [(nodup_visited fs).count]
  by_cases h : n = 16 * fs.sIsize.toNat
  · rw [if_neg (mt hmem.mp (not_not_intro h)), if_pos (hlast.mpr h)]
  · rw [if_pos (hmem.mpr h), if_neg (mt hlast.mp h)]

/-- The numbers of the inode area are its places, and the loop goes through all of them. -/
structure AreaCovered (fs : UnixFilesystem) : Prop where
  bijection : Set.BijOn inodePlace (Set.Icc 1 (16 * fs.sIsize.toNat)) (inodeArea fs)
  visits : ∀ n, n ∈ inumbers fs ↔ 1 ≤ n ∧ n ≤ 16 * fs.sIsize.toNat
  once : ∀ place ∈ inodeArea fs, ((inumbers fs).map inodePlace).count place = 1

/-- The inode that `inodeIget` finds is in its place. -/
theorem inodeIget_place {fs : UnixFilesystem} {junk : Junk} {n : Nat} {inode : Inode}
    (h : inodeIget fs junk n = .ok inode) :
    ∃ count buffer, diskimgReadsector fs.disk (inodePlace n).1 junk.here = .ok (count, buffer) ∧
      inode = Inode.ofBytes
        ((buffer.bytes.drop (sizeofInode * (inodePlace n).2)).take sizeofInode) := by
  rw [inodeIget] at h
  split at h
  · cases h
  · obtain ⟨⟨count, buffer⟩, hread, h⟩ := of_bind_eq_ok h
    refine ⟨count, buffer, hread, ?_⟩
    dsimp only at h
    split at h
    · cases h
    · exact (Except.ok.inj h).symm

/-- **The loop covers the inode area** only if there is none.  The numbers of the area are its
places, from which `inodeIget` takes the inodes, and the loop visits each of them once but the
last, which it does not visit. -/
theorem areaCovered_iff (fs : UnixFilesystem) :
    (AreaCovered fs ↔ fs.sIsize = 0) ∧
      Set.BijOn inodePlace (Set.Icc 1 (16 * fs.sIsize.toNat)) (inodeArea fs) ∧
      (∀ place ∈ inodeArea fs,
        ((inumbers fs).map inodePlace).count place = if place = lastPlace fs then 0 else 1) ∧
      ∀ (junk : Junk) (n : Nat) (inode : Inode), inodeIget fs junk n = .ok inode →
        ∃ count buffer,
          diskimgReadsector fs.disk (inodePlace n).1 junk.here = .ok (count, buffer) ∧
          inode = Inode.ofBytes
            ((buffer.bytes.drop (sizeofInode * (inodePlace n).2)).take sizeofInode) := by
  refine ⟨?_, inodePlace_bijOn fs, fun place hplace => count_visited hplace,
    fun junk n inode h => inodeIget_place h⟩
  constructor
  · intro h
    have hlast := (h.visits (16 * fs.sIsize.toNat)).mpr
    rw [mem_inumbers] at hlast
    have hzero : fs.sIsize.toNat = 0 := by omega
    exact BitVec.eq_of_toNat_eq hzero
  · intro h
    have hzero : fs.sIsize.toNat = 0 := by
      rw [h]
      rfl
    refine ⟨inodePlace_bijOn fs, ?_, ?_⟩
    · intro n
      rw [mem_inumbers]
      omega
    · intro place hplace
      have harea := mem_inodeArea.mp hplace
      omega

/-- Inode 16 of an image with one sector of inodes is not visited. -/
theorem lastInode_unvisited : ¬ ∀ fs : UnixFilesystem, AreaCovered fs := by
  intro h
  have hmem := ((h (imageFs twoFiles [])).visits 16).mpr
  revert hmem
  decide

end Acso.FileSystem
