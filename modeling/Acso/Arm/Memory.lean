import Acso.Lib.LittleEndian

/-!
# The memory of the simulator

`shell.c` keeps three regions of memory, each a start address, a size and a
buffer of `size + 3` bytes.  `memRead32` and `memWrite32` look the address up
among the regions in order and access four bytes from there; the three extra
bytes take what an unaligned access at the end of a region spills.

* `regionAt_eq_some`: the regions do not overlap, so the search finds the one
  region that contains an address.
* `byteOf_memRead32`, `memWrite32_apply`: what one access reads and writes, byte
  by byte.
* `byteAt`: the mapped byte at an address, which is what a program can see.
-/

namespace Acso.Arm

open Acso.Lib

/-- The entries of `MEM_REGIONS`. -/
inductive Region
  | text
  | data
  | stack
  deriving DecidableEq, Repr

def memDataStart : Nat := 0x10000000
def memDataSize : Nat := 0x00100000
def memTextStart : Nat := 0x00400000
def memTextSize : Nat := 0x00100000
def memStackStart : Nat := 0xfffffffc
def memStackSize : Nat := 0x00100000

def Region.start : Region → Nat
  | .text => memTextStart
  | .data => memDataStart
  | .stack => memStackStart

def Region.size : Region → Nat
  | .text => memTextSize
  | .data => memDataSize
  | .stack => memStackSize

def memRegions : List Region := [.text, .data, .stack]

/-- The buffers behind the regions; only offsets below `size + 3` are allocated. -/
abbrev Memory := Region → Nat → Byte

/-- The bounds test of the region search. -/
def Region.Contains (r : Region) (address : Nat) : Prop :=
  r.start ≤ address ∧ address < r.start + r.size

instance (r : Region) (address : Nat) : Decidable (r.Contains address) :=
  inferInstanceAs (Decidable (_ ∧ _))

/-- The first region of `MEM_REGIONS` that contains the address. -/
def regionAt (address : Nat) : Option Region :=
  memRegions.find? (fun r => decide (r.Contains address))

/-- `MEM_REGIONS[i].mem[offset] = b`. -/
def Memory.set (mem : Memory) (r : Region) (offset : Nat) (b : Byte) : Memory :=
  fun r' o => if r' = r ∧ o = offset then b else mem r' o

def memRead32 (mem : Memory) (address : BitVec 64) : BitVec 32 :=
  match regionAt address.toNat with
  | some r =>
    let offset := address.toNat - r.start
    ((mem r (offset + 3)).setWidth 32 <<< 24) |||
      ((mem r (offset + 2)).setWidth 32 <<< 16) |||
      ((mem r (offset + 1)).setWidth 32 <<< 8) |||
      ((mem r (offset + 0)).setWidth 32 <<< 0)
  | none => 0

def memWrite32 (mem : Memory) (address : BitVec 64) (value : BitVec 32) : Memory :=
  match regionAt address.toNat with
  | some r =>
    let offset := address.toNat - r.start
    let mem := mem.set r (offset + 3) (((value >>> 24) &&& 0xFF).setWidth 8)
    let mem := mem.set r (offset + 2) (((value >>> 16) &&& 0xFF).setWidth 8)
    let mem := mem.set r (offset + 1) (((value >>> 8) &&& 0xFF).setWidth 8)
    mem.set r (offset + 0) (((value >>> 0) &&& 0xFF).setWidth 8)
  | none => mem

/-! ## The region search -/

theorem Region.Contains.unique {r r' : Region} {address : Nat} (h : r.Contains address)
    (h' : r'.Contains address) : r = r' := by
  obtain ⟨h₁, h₂⟩ := h
  obtain ⟨h₁', h₂'⟩ := h'
  cases r <;> cases r' <;> first
    | rfl
    | (simp only [Region.start, Region.size, memTextStart, memTextSize, memDataStart, memDataSize,
        memStackStart, memStackSize] at *; omega)

theorem mem_memRegions (r : Region) : r ∈ memRegions := by cases r <;> simp [memRegions]

theorem regionAt_eq_some {r : Region} {address : Nat} :
    regionAt address = some r ↔ r.Contains address := by
  constructor
  · intro h
    simpa using List.find?_some h
  · intro h
    obtain ⟨r', hr'⟩ : ∃ r', regionAt address = some r' := by
      rw [← Option.isSome_iff_exists, regionAt, List.find?_isSome]
      exact ⟨r, mem_memRegions r, by simpa using h⟩
    have hc : r'.Contains address := by simpa using List.find?_some hr'
    rw [hr', hc.unique h]

/-- No access leaves the buffer: four bytes from an address of the region stay
below `size + 3`. -/
theorem Region.Contains.offset_lt {r : Region} {address : Nat} (h : r.Contains address) {k : Nat}
    (hk : k < 4) : address - r.start + k < r.size + 3 := by
  obtain ⟨h₁, h₂⟩ := h
  omega

/-! ## One access, byte by byte -/

theorem Memory.set_apply (mem : Memory) (r r' : Region) (o o' : Nat) (b : Byte) :
    mem.set r o b r' o' = if r' = r ∧ o' = o then b else mem r' o' := rfl

theorem byteOf_memRead32 (mem : Memory) {address : BitVec 64} {r : Region}
    (hr : r.Contains address.toNat) {k : Nat} (hk : k < 4) :
    byteOf (memRead32 mem address) k = mem r (address.toNat - r.start + k) := by
  have placed := fun (b : Byte) (j : Nat) => byteOf_placed (w := 32) b (j := j) (k := k) (by omega)
  simp only [memRead32, regionAt_eq_some.mpr hr, byteOf_or]
  rw [placed _ 3, placed _ 2, placed _ 1, placed _ 0]
  rcases (by omega : k = 0 ∨ k = 1 ∨ k = 2 ∨ k = 3) with rfl | rfl | rfl | rfl
  all_goals simp

/-- `(value >> 8 * k) & 0xFF`, stored into a byte. -/
theorem setWidth_shift_mask (value : BitVec 32) (k : Nat) :
    ((value >>> (8 * k)) &&& 0xFF).setWidth 8 = byteOf value k := by
  rw [setWidth_eq_byteOf, byteOf_and, byteOf_ushiftRight,
    show byteOf (0xFF : BitVec 32) 0 = BitVec.allOnes 8 by decide, BitVec.and_allOnes, Nat.add_zero]

/-- A write changes the four bytes from its address, and nothing else. -/
theorem memWrite32_apply (mem : Memory) {address : BitVec 64} (value : BitVec 32) {r : Region}
    (hr : r.Contains address.toNat) (r' : Region) (o : Nat) :
    memWrite32 mem address value r' o =
      if r' = r ∧ address.toNat - r.start ≤ o ∧ o < address.toNat - r.start + 4 then
        byteOf value (o - (address.toNat - r.start))
      else mem r' o := by
  simp only [memWrite32, regionAt_eq_some.mpr hr, Memory.set_apply]
  rw [setWidth_shift_mask value 3, setWidth_shift_mask value 2, setWidth_shift_mask value 1,
    setWidth_shift_mask value 0]
  generalize address.toNat - r.start = offset
  by_cases hreg : r' = r
  · subst hreg
    simp only [true_and]
    by_cases hin : offset ≤ o ∧ o < offset + 4
    · obtain ⟨k, rfl⟩ := Nat.exists_eq_add_of_le hin.1
      rcases (by omega : k = 0 ∨ k = 1 ∨ k = 2 ∨ k = 3) with rfl | rfl | rfl | rfl
      all_goals simp
    · rw [if_neg (by omega), if_neg (by omega), if_neg (by omega), if_neg (by omega), if_neg hin]
  · simp [hreg]

theorem memWrite32_of_unmapped (mem : Memory) {address : BitVec 64} (value : BitVec 32)
    (h : regionAt address.toNat = none) : memWrite32 mem address value = mem := by
  simp [memWrite32, h]

/-! ## The mapped bytes -/

/-- The mapped byte at an address. -/
def byteAt (mem : Memory) (address : Nat) : Option Byte :=
  (regionAt address).map (fun r => mem r (address - r.start))

/-- The `w` bytes from `address` lie inside region `r`. -/
def Region.Holds (r : Region) (address w : Nat) : Prop :=
  r.start ≤ address ∧ address + w ≤ r.start + r.size

theorem Region.Holds.contains {r : Region} {address w k : Nat} (h : r.Holds address w)
    (hk : k < w) : r.Contains (address + k) :=
  ⟨by have := h.1; omega, by have := h.2; omega⟩

theorem byteAt_eq {mem : Memory} {r : Region} {address : Nat} (h : r.Contains address) :
    byteAt mem address = some (mem r (address - r.start)) := by
  rw [byteAt, regionAt_eq_some.mpr h, Option.map_some]

end Acso.Arm
