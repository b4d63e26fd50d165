import Acso.FileSystem.Listing
import Acso.FileSystem.PathDump

/-!
# The path of a child

`DumpPathAndChildren` puts the path of a child together with `%s`, but the name of an entry is
a string only if it is shorter than its 14 bytes.

* `cstring_append`, `cstring_append_full`: a string that ends inside its array, and one that
  fills it.
* `childPath_eq`: a name that ends inside its entry is copied.
* `childPath_exact_iff`: a name of 14 characters is copied exactly if the byte behind its entry
  is zero.
-/

namespace Acso.FileSystem

open Acso.Lib

/-! ## Strings in arrays -/

theorem cstring_cons (c : Byte) (l : List Byte) :
    cstring (c :: l) = if c = 0 then [] else c :: cstring l := by
  rw [cstring, List.takeWhile_cons]
  by_cases hc : c = 0
  · rw [if_pos hc, if_neg (by simp [hc])]
  · rw [if_neg hc, if_pos (decide_eq_true hc)]
    rfl

theorem cstring_cons_eq_nil_iff {c : Byte} {l : List Byte} : cstring (c :: l) = [] ↔ c = 0 := by
  rw [cstring_cons]
  split
  · exact iff_of_true rfl ‹_›
  · exact iff_of_false (List.cons_ne_nil _ _) ‹_›

theorem cstring_cons_eq_cons_iff {c d : Byte} {l r : List Byte} (hd : d ≠ 0) :
    cstring (c :: l) = d :: r ↔ c = d ∧ cstring l = r := by
  rw [cstring_cons]
  split
  · rename_i hc
    refine iff_of_false (List.cons_ne_nil _ _).symm ?_
    rintro ⟨rfl, -⟩
    exact hd hc
  · exact List.cons.injEq .. ▸ Iff.rfl

theorem zero_not_mem_cstring (l : List Byte) : (0 : Byte) ∉ cstring l := by
  intro h
  have h0 := List.mem_takeWhile_imp h
  simp at h0

theorem cstring_append_eq (l l' : List Byte) :
    cstring (l ++ l') = if (cstring l).length = l.length then l ++ cstring l' else cstring l :=
  List.takeWhile_append

/-- A string that ends inside its array does not depend on what is behind. -/
theorem cstring_append {l : List Byte} (h : (cstring l).length < l.length) (l' : List Byte) :
    cstring (l ++ l') = cstring l := by
  rw [cstring_append_eq, if_neg (Nat.ne_of_lt h)]

/-- A string that fills its array goes on behind it. -/
theorem cstring_append_full {l : List Byte} (h : (cstring l).length = l.length) (l' : List Byte) :
    cstring (l ++ l') = cstring l ++ cstring l' := by
  have hself : cstring l = l := (List.takeWhile_prefix _).eq_of_length h
  rw [cstring_append_eq, if_pos h, hself]

/-! ## The name of an entry -/

theorem Direntv6.length_name_le (entry : Direntv6) : entry.name.length ≤ 14 := by
  have hlen : entry.dName.toList.length = 14 := Vector.length_toList
  rw [← hlen]
  exact (List.takeWhile_prefix _).length_le

/-- The byte behind an entry: of the inode number of the next one, or uninitialised. -/
def byteBehind (junk : Junk) : List Direntv6 → Byte
  | [] => junk.here.bytes.headD 0
  | next :: _ => byteOf next.dInumber 0

theorem bytesBehind_eq_cons (junk : Junk) :
    ∃ rest, bytesBehind junk = junk.here.bytes.headD 0 :: rest := by
  have hlen := junk.here.length_bytes
  cases hbytes : junk.here.bytes with
  | nil =>
    rw [hbytes] at hlen
    cases hlen
  | cons b bytes =>
    refine ⟨bytes ++ (junk.sub maxDirentries).here.bytes, ?_⟩
    rw [bytesBehind, hbytes]
    rfl

theorem behind_eq_cons (junk : Junk) (behind : List Direntv6) :
    ∃ rest, behind.flatMap Direntv6.toBytes ++ bytesBehind junk = byteBehind junk behind :: rest := by
  cases behind with
  | nil => exact bytesBehind_eq_cons junk
  | cons next behind => exact ⟨_, rfl⟩

/-- The name that `sprintf` copies, if it ends inside its entry. -/
theorem dNameString_eq {e : Direntv6} (h : e.name.length ≤ 13) (junk : Junk)
    (behind : List Direntv6) : dNameString junk e behind = e.name := by
  rw [dNameString]
  refine cstring_append ?_ _
  rw [Vector.length_toList]
  exact Nat.lt_succ_of_le h

/-- A name of 14 characters is copied with what is behind it. -/
theorem dNameString_full {e : Direntv6} (h : e.name.length = 14) (junk : Junk)
    (behind : List Direntv6) : dNameString junk e behind =
      e.name ++ cstring (behind.flatMap Direntv6.toBytes ++ bytesBehind junk) := by
  rw [dNameString, cstring_append_full (h.trans Vector.length_toList.symm)]
  rfl

theorem childPath_eq {e : Direntv6} (h : e.name.length ≤ 13) (junk : Junk) (pathname : List Byte)
    (behind : List Direntv6) : childPath junk pathname e behind = pathname ++ slash :: e.name := by
  rw [childPath, dNameString_eq h]

/-- **The path of a child**, which the loop hands to the call for it, is exact unless the name
fills its 14 bytes and the byte behind them is not zero. -/
theorem childPath_exact_iff (junk : Junk) (pathname : List Byte) (entry : Direntv6)
    (behind : List Direntv6) :
    childPath junk pathname entry behind = pathname ++ slash :: entry.name ↔
      entry.name.length ≤ 13 ∨ byteBehind junk behind = 0 := by
  by_cases hlen : entry.name.length ≤ 13
  · exact iff_of_true (childPath_eq hlen junk pathname behind) (.inl hlen)
  · have hfull : entry.name.length = 14 := by
      have := entry.length_name_le
      omega
    obtain ⟨rest, hrest⟩ := behind_eq_cons junk behind
    rw [childPath, dNameString_full hfull, hrest, List.append_cancel_left_eq, List.cons.injEq,
      List.append_right_eq_self, cstring_cons_eq_nil_iff]
    simp [hlen]

/-- In front of an entry with the inode number 2, a name of 14 characters is given one more. -/
theorem childPath_of_fourteen :
    childPath zeroJunk [] ⟨1, Vector.replicate 14 0x61⟩ [⟨2, Vector.replicate 14 0⟩] ≠
      [] ++ slash :: Direntv6.name ⟨1, Vector.replicate 14 0x61⟩ := by
  have hfull : (Direntv6.name ⟨1, Vector.replicate 14 0x61⟩).length = 14 := by decide
  rw [childPath, dNameString_full hfull]
  intro h
  rw [List.append_cancel_left_eq, List.cons.injEq, List.append_right_eq_self] at h
  exact absurd (cstring_cons_eq_nil_iff.mp h.2) (by decide)

end Acso.FileSystem
