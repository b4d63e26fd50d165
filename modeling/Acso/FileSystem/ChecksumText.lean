import Acso.Lib.Scanf
import Acso.Lib.Splice
import Acso.FileSystem.PathDump

/-!
# Checksums as text

`chksumfile_cvt2string` and `chksumfile_compare` by the byte.  For each byte of the checksum
`sprintf` writes two digits and a NUL, over which the digits of the next byte are written.  So
exactly `CHKSUMFILE_STRINGSIZE` bytes of the string are written, each byte of the checksum can be
read back, and checksums compare equal if their texts are equal (`cvt2string_text`).
-/

namespace Acso.FileSystem

open Acso.Lib

def chksumfileStringsize : Nat := 2 * chksumfileSize + 1

/-! ## The code -/

/-- `%02x`. -/
def printByte (b : Byte) : List Byte := [digitChar (b.toNat / 16), digitChar (b.toNat % 16)]

/-- `sprintf(outstring + i, "%02x", b)`; `none` if it leaves the string. -/
def sprintfByte (outstring : List Byte) (i : Nat) (b : Byte) : Option (List Byte) :=
  if i + 3 ≤ outstring.length then some (splice 0 outstring i (printByte b ++ [0])) else none

/-- The loop from the byte `i` on. -/
def cvt2stringLoop (outstring : List Byte) : Nat → List Byte → Option (List Byte)
  | _, [] => some outstring
  | i, b :: c => do
    let outstring ← sprintfByte outstring (2 * i) b
    cvt2stringLoop outstring (i + 1) c

def cvt2string (chksum : Vector Byte chksumfileSize) (outstring : List Byte) : Option (List Byte) :=
  cvt2stringLoop outstring 0 chksum.toList

def compareLoop : List (Byte × Byte) → Nat
  | [] => 1
  | (c1, c2) :: c => if c1 ≠ c2 then 0 else compareLoop c

def compareChecksums (chksum1 chksum2 : Vector Byte chksumfileSize) : Nat :=
  compareLoop (chksum1.toList.zip chksum2.toList)

/-! ## The loops -/

theorem sprintfByte_eq {front tail : List Byte} {i : Nat} (hfront : front.length = i)
    (htail : 3 ≤ tail.length) (b : Byte) :
    sprintfByte (front ++ tail) i b = some (front ++ printByte b ++ 0 :: tail.drop 3) := by
  have hin : i + 3 ≤ (front ++ tail).length := by
    rw [List.length_append]
    omega
  have hlen : (printByte b ++ [0]).length = 3 := rfl
  have hdrop : (front ++ tail).drop (i + 3) = tail.drop 3 := by
    rw [← hfront, List.drop_length_add_append]
  rw [sprintfByte, if_pos hin, splice_inside (by omega), List.take_left' hfront, hlen, hdrop,
    List.append_assoc, List.append_assoc]
  rfl

/-- **The loop writes two digits for each byte**, and a NUL behind the last. -/
theorem cvt2stringLoop_eq {front : List Byte} {i : Nat} (hfront : front.length = 2 * i) (b : Byte)
    (c tail : List Byte) (htail : 2 * (b :: c).length + 1 ≤ tail.length) :
    cvt2stringLoop (front ++ tail) i (b :: c) =
      some (front ++ (b :: c).flatMap printByte ++ 0 :: tail.drop (2 * (b :: c).length + 1)) := by
  induction c generalizing front i b tail with
  | nil =>
    rw [cvt2stringLoop, sprintfByte_eq hfront htail]
    rfl
  | cons b' c ih =>
    rw [List.length_cons, List.length_cons] at htail
    have hnext : (front ++ printByte b).length = 2 * (i + 1) := by
      rw [List.length_append, hfront]
      rfl
    have hroom : 2 * (b' :: c).length + 1 ≤ (0 :: tail.drop 3).length := by
      rw [List.length_cons, List.length_cons, List.length_drop]
      omega
    have hdrop : (0 :: tail.drop 3).drop (2 * (b' :: c).length + 1) =
        tail.drop (2 * (b :: b' :: c).length + 1) := by
      rw [List.drop_succ_cons, List.drop_drop]
      congr 1
      simp only [List.length_cons]
      omega
    rw [cvt2stringLoop, sprintfByte_eq hfront (by omega), Option.bind_eq_bind, Option.bind_some, ih hnext b' _ hroom, hdrop]
    simp only [List.flatMap_cons, List.append_assoc]

/-- A string that is too short is left. -/
theorem cvt2stringLoop_short {c : List Byte} {outstring : List Byte} {i : Nat} (hne : c ≠ [])
    (hshort : outstring.length < 2 * (i + c.length) + 1) : cvt2stringLoop outstring i c = none := by
  induction c generalizing outstring i with
  | nil => exact absurd rfl hne
  | cons b c ih =>
    rw [List.length_cons] at hshort
    rw [cvt2stringLoop, sprintfByte]
    by_cases hin : 2 * i + 3 ≤ outstring.length
    · rw [if_pos hin, Option.bind_eq_bind, Option.bind_some]
      refine ih ?_ ?_
      · rintro rfl
        rw [List.length_nil] at hshort
        omega
      · rw [splice_inside (by omega)]
        simp only [List.length_append, List.length_take, List.length_drop, printByte,
          List.length_cons, List.length_nil]
        omega
    · rw [if_neg hin]
      rfl

theorem compareLoop_eq_one_iff (c : List (Byte × Byte)) :
    compareLoop c = 1 ↔ ∀ p ∈ c, p.1 = p.2 := by
  induction c with
  | nil => exact iff_of_true rfl (List.forall_mem_nil _)
  | cons p c ih =>
    obtain ⟨c1, c2⟩ := p
    rw [compareLoop, List.forall_mem_cons]
    by_cases heq : c1 = c2
    · rw [if_neg (not_not_intro heq), ih, and_iff_right heq]
    · rw [if_pos heq]
      exact iff_of_false (by decide) fun h => heq h.1

/-- **Comparing** is deciding whether the checksums are the same. -/
theorem compareChecksums_iff (chksum1 chksum2 : Vector Byte chksumfileSize) :
    compareChecksums chksum1 chksum2 = 1 ↔ chksumfileCompare chksum1 chksum2 = true := by
  rw [compareChecksums, compareLoop_eq_one_iff, chksumfileCompare, decide_eq_true_eq]
  constructor
  · intro h
    refine Vector.toList_inj.mp (List.ext_getElem (by simp) ?_)
    intro i hi hi'
    have hmem : (chksum1.toList[i], chksum2.toList[i]) ∈ chksum1.toList.zip chksum2.toList :=
      List.mem_iff_getElem.mpr ⟨i, by simpa using hi, List.getElem_zip⟩
    exact h _ hmem
  · rintro rfl p hp
    obtain ⟨i, hi, rfl⟩ := List.mem_iff_getElem.mp hp
    rw [List.getElem_zip]

/-! ## The text -/

theorem textOf_append (a b : List Byte) : textOf (a ++ b) = textOf a ++ textOf b := by
  rw [textOf, textOf, textOf, List.map_append, String.ofList_append]

theorem digitChar_text : ∀ d < 16, Char.ofNat (digitChar d).toNat = Nat.digitChar d := by decide

theorem textOf_printByte (b : Byte) :
    textOf (printByte b) = if b.toNat < 16 then "0" ++ hex b.toNat else hex b.toNat := by
  have hb := b.isLt
  have htext : textOf (printByte b) =
      String.ofList [Nat.digitChar (b.toNat / 16), Nat.digitChar (b.toNat % 16)] := by
    rw [textOf, printByte, List.map_cons, List.map_cons, List.map_nil,
      digitChar_text _ (by omega), digitChar_text _ (by omega)]
  rw [htext, hex]
  by_cases hsmall : b.toNat < 16
  · rw [if_pos hsmall, Nat.toDigits_of_lt_base hsmall, Nat.div_eq_of_lt hsmall,
      Nat.mod_eq_of_lt hsmall]
    have happend : String.ofList ([Nat.digitChar 0] ++ [Nat.digitChar b.toNat]) = _ :=
      String.ofList_append
    exact happend
  · rw [if_neg hsmall, Nat.toDigits_of_base_le (by decide) (by omega),
      Nat.toDigits_of_lt_base (by omega)]
    rfl

theorem textOf_flatMap_printByte (c : List Byte) : textOf (c.flatMap printByte) =
    String.join (c.map fun b => if b.toNat < 16 then "0" ++ hex b.toNat else hex b.toNat) := by
  induction c with
  | nil => rfl
  | cons b c ih =>
    rw [List.flatMap_cons, textOf_append, ih, textOf_printByte, List.map_cons, String.join_cons]

/-- A byte from its digits. -/
theorem digitsValue_printByte (b : Byte) : digitsValue 16 (printByte b) = b.toNat := by
  have hb := b.isLt
  have hlt : ∀ d ∈ [b.toNat / 16, b.toNat % 16], d < 16 := by
    intro d hd
    simp only [List.mem_cons, List.not_mem_nil, or_false] at hd
    omega
  refine (digitsValue_map_digitChar 16 hlt).trans ?_
  simp only [List.reverse_cons, List.reverse_nil, List.nil_append, List.cons_append,
    Nat.ofDigits_cons, Nat.ofDigits_nil]
  omega

theorem printByte_injective {b b' : Byte} (h : printByte b = printByte b') : b = b' := by
  have hvalue := congrArg (digitsValue 16) h
  rw [digitsValue_printByte, digitsValue_printByte] at hvalue
  exact BitVec.eq_of_toNat_eq hvalue

theorem flatMap_printByte_injective {c c' : List Byte}
    (h : c.flatMap printByte = c'.flatMap printByte) : c = c' := by
  induction c generalizing c' with
  | nil =>
    cases c' with
    | nil => rfl
    | cons => cases h
  | cons b c ih =>
    cases c' with
    | nil => cases h
    | cons b' c' =>
      rw [List.flatMap_cons, List.flatMap_cons] at h
      obtain ⟨hbyte, hrest⟩ := List.append_inj h rfl
      rw [printByte_injective hbyte, ih hrest]

theorem textOf_injective {s s' : List Byte} (h : textOf s = textOf s') : s = s' := by
  have hvalid : ∀ c : Byte, (Char.ofNat c.toNat).toNat = c.toNat := by
    intro c
    have hc := c.isLt
    rw [Char.ofNat, dif_pos (Or.inl (by omega))]
    rfl
  have hchar : Function.Injective fun c : Byte => Char.ofNat c.toNat := by
    intro c c' heq
    have htoNat := congrArg Char.toNat heq
    dsimp only at htoNat
    rw [hvalid, hvalid] at htoNat
    exact BitVec.eq_of_toNat_eq htoNat
  exact List.map_injective_iff.mpr hchar (String.ofList_injective h)

theorem chksumfileCvt2string_eq (chksum : Vector Byte chksumfileSize) :
    chksumfileCvt2string chksum = textOf (chksum.toList.flatMap printByte) :=
  (textOf_flatMap_printByte chksum.toList).symm

/-- **The text of a checksum.**  The loop stays in a string of `CHKSUMFILE_STRINGSIZE` bytes, but in
none that is shorter, and writes the digits of the checksum and a NUL; each byte can be read back
from its two digits; and two checksums have the same text if and only if they compare equal. -/
theorem cvt2string_text (chksum : Vector Byte chksumfileSize) (outstring : List Byte) :
    (outstring.length < chksumfileStringsize → cvt2string chksum outstring = none) ∧
    (chksumfileStringsize ≤ outstring.length → ∃ text, text.length = 2 * chksumfileSize ∧
      cvt2string chksum outstring = some (text ++ 0 :: outstring.drop chksumfileStringsize) ∧
      textOf text = chksumfileCvt2string chksum ∧
      ∀ i (hi : i < chksumfileSize),
        digitsValue 16 ((text.drop (2 * i)).take 2) = chksum[i].toNat) ∧
    ∀ chksum', compareChecksums chksum chksum' = 1 ↔
      chksumfileCvt2string chksum = chksumfileCvt2string chksum' := by
  have hlen : chksum.toList.length = chksumfileSize := Vector.length_toList
  have hne : chksum.toList ≠ [] := List.ne_nil_of_length_pos (by rw [hlen]; decide)
  have hblocks : ∀ x ∈ chksum.toList.map printByte, x.length = 2 := by
    intro x hx
    obtain ⟨b, -, rfl⟩ := List.mem_map.mp hx
    rfl
  refine ⟨?_, ?_, ?_⟩
  · intro hshort
    refine cvt2stringLoop_short hne ?_
    rw [hlen, Nat.zero_add]
    exact hshort
  · intro hroom
    refine ⟨chksum.toList.flatMap printByte, ?_, ?_, (chksumfileCvt2string_eq chksum).symm, ?_⟩
    · rw [List.flatMap_def, length_flatten_blocks hblocks, List.length_map, hlen]
    · obtain ⟨b, c, heq⟩ := List.exists_cons_of_ne_nil hne
      rw [cvt2string, heq]
      rw [heq] at hlen
      have hloop : cvt2stringLoop ([] ++ outstring) 0 (b :: c) = _ :=
        cvt2stringLoop_eq rfl b c outstring (by rw [hlen]; exact hroom)
      rw [hlen] at hloop
      exact hloop
    · intro i hi
      rw [List.flatMap_def, block_flatten hblocks, List.getElem?_map,
        List.getElem?_eq_getElem (by rw [hlen]; exact hi), Option.map_some, Option.getD_some,
        digitsValue_printByte, Vector.getElem_toList]
  · intro chksum'
    rw [compareChecksums_iff, chksumfileCompare, decide_eq_true_eq]
    constructor
    · exact congrArg chksumfileCvt2string
    · intro htext
      rw [chksumfileCvt2string_eq, chksumfileCvt2string_eq] at htext
      exact Vector.toList_inj.mp (flatMap_printByte_injective (textOf_injective htext))

end Acso.FileSystem
