import Acso.Arm.Shell

/-!
# The loader

`loadProgram` takes the words of a program file; `loadProgramFile` reads them, one `fscanf`
after the other, with the counter that it prints in the end.  `loadWords_apply` is the memory
after the loop, byte by byte, so what is fetched from the text region are the words of the
file, and all other words are zero (`initializeFiles_words`).
-/

namespace Acso.Arm

open Acso.Lib

/-! ## Reading the file -/

/-- What a call of `fscanf(prog, "%x\n", &word)` finds, unless the file is at its end. -/
inductive Scan
  | word (w : BitVec 32)
  /-- Something that is no number. -/
  | malformed

/-- The loop over the calls: `ii` and the memory at the end of the file, or `none` if the
program has ended with an error. -/
def readLoop : List Scan → BitVec 32 → Memory → Option (BitVec 32 × Memory)
  | [], ii, mem => some (ii, mem)
  | .malformed :: _, _, _ => none
  | .word w :: file, ii, mem =>
    let address := (BitVec.ofNat 32 memTextStart + ii).signExtend 64
    readLoop file (ii + 4) (memWrite32 mem address w)

/-- The machine after loading the file, and the number of words that is printed. -/
def loadProgramFile (file : List Scan) (m : Machine) : Option (Machine × Int) := do
  let (ii, mem) ← readLoop file 0 m.mem
  let m := { m with
    mem := mem
    currentState := { m.currentState with pc := BitVec.ofNat 64 memTextStart } }
  pure (m, ii.toInt.tdiv 4)

/-- The loop over the program files. -/
def loadProgramFiles : List (List Scan) → Machine → Option (Machine × List Int)
  | [], m => some (m, [])
  | file :: files, m => do
    let (m, count) ← loadProgramFile file m
    let (m, counts) ← loadProgramFiles files m
    pure (m, count :: counts)

/-- `initialize`, with what is printed. -/
def initializeFiles (garbage : Memory) (files : List (List Scan)) : Option (Machine × List Int) := do
  let m : Machine := ⟨zeroState, zeroState, false, false, 0, initMemory garbage⟩
  let (m, counts) ← loadProgramFiles files m
  pure ({ m with nextState := m.currentState, runBit := true }, counts)

/-! ## The loop -/

theorem toNat_textAddress {ii : Nat} (h : ii < 2 ^ 31 - memTextStart) :
    ((BitVec.ofNat 32 memTextStart + BitVec.ofNat 32 ii).signExtend 64).toNat = memTextStart + ii := by
  have hsum : (BitVec.ofNat 32 memTextStart + BitVec.ofNat 32 ii).toNat = memTextStart + ii := by
    rw [BitVec.toNat_add, BitVec.toNat_ofNat, BitVec.toNat_ofNat]
    rw [memTextStart] at h ⊢
    omega
  have hsign : (BitVec.ofNat 32 memTextStart + BitVec.ofNat 32 ii).msb = false := by
    rw [BitVec.msb_eq_decide, hsum]
    exact decide_eq_false (by omega)
  rw [BitVec.signExtend_eq_setWidth_of_msb_false hsign, BitVec.toNat_setWidth, hsum]
  omega

/-- **The loop stores the words** as `loadWords` does, and counts their bytes. -/
theorem readLoop_words (words : List (BitVec 32)) (ii : Nat)
    (h : ii + 4 * words.length < 2 ^ 31 - memTextStart) (mem : Memory) :
    readLoop (words.map .word) (BitVec.ofNat 32 ii) mem =
      some (BitVec.ofNat 32 (ii + 4 * words.length), loadWords ii words mem) := by
  induction words generalizing ii mem with
  | nil => rfl
  | cons word words ih =>
    rw [List.length_cons] at h
    have haddress : (BitVec.ofNat 32 memTextStart + BitVec.ofNat 32 ii).signExtend 64 =
        BitVec.ofNat 64 (memTextStart + ii) := by
      apply BitVec.eq_of_toNat_eq
      rw [toNat_textAddress (by omega), BitVec.toNat_ofNat]
      omega
    have hnext : BitVec.ofNat 32 ii + 4 = BitVec.ofNat 32 (ii + 4) := (BitVec.ofNat_add _ _).symm
    rw [List.map_cons, readLoop, haddress, hnext, ih (ii + 4) (by omega), loadWords, List.length_cons]
    congr 3
    omega

/-- The address of a word of the text region. -/
theorem textAddress_contains (ii : Nat) (h : ii < memTextSize) :
    (BitVec.ofNat 64 (memTextStart + ii)).toNat = memTextStart + ii ∧
      Region.text.Contains (BitVec.ofNat 64 (memTextStart + ii)).toNat := by
  have haddress : (BitVec.ofNat 64 (memTextStart + ii)).toNat = memTextStart + ii := by
    rw [BitVec.toNat_ofNat, memTextStart]
    rw [memTextSize] at h
    omega
  rw [haddress]
  exact ⟨rfl, Nat.le_add_right _ _, Nat.add_lt_add_left h _⟩

/-- **The memory after the loop**, byte by byte. -/
theorem loadWords_apply (words : List (BitVec 32)) (ii : Nat)
    (hfit : ii + 4 * words.length ≤ memTextSize) (mem : Memory) (r : Region) (o : Nat) :
    loadWords ii words mem r o =
      if r = .text ∧ ii ≤ o ∧ o < ii + 4 * words.length then
        byteOf (words.getD ((o - ii) / 4) 0) ((o - ii) % 4)
      else mem r o := by
  induction words generalizing ii mem with
  | nil =>
    rw [loadWords, if_neg]
    rintro ⟨-, hle, hlt⟩
    exact absurd hlt (Nat.not_lt.mpr hle)
  | cons word words ih =>
    rw [List.length_cons] at hfit
    obtain ⟨haddress, hc⟩ := textAddress_contains ii (by omega)
    have hstart : memTextStart + ii - Region.text.start = ii := Nat.add_sub_cancel_left _ _
    rw [loadWords, ih (ii + 4) (by omega), memWrite32_apply mem word hc, haddress, hstart,
      List.length_cons]
    by_cases hr : r = .text
    · simp only [hr, true_and]
      by_cases hfirst : ii ≤ o ∧ o < ii + 4
      · have hzero : (o - ii) / 4 = 0 := by omega
        rw [if_neg (by omega), if_pos hfirst, if_pos (by omega), hzero, List.getD_cons_zero,
          Nat.mod_eq_of_lt (by omega)]
      · rw [if_neg hfirst]
        by_cases hrest : ii + 4 ≤ o ∧ o < ii + 4 + 4 * words.length
        · have hdiv : (o - ii) / 4 = (o - (ii + 4)) / 4 + 1 := by omega
          have hmod : (o - ii) % 4 = (o - (ii + 4)) % 4 := by omega
          rw [if_pos hrest, if_pos (by omega), hdiv, hmod, List.getD_cons_succ]
        · rw [if_neg hrest, if_neg (by omega)]
    · simp only [hr, false_and, if_false]

/-! ## The loaded memory -/

/-- A word is read from its four bytes. -/
theorem memRead32_of_bytes {mem : Memory} {address : BitVec 64} {r : Region}
    (hc : r.Contains address.toNat) {w : BitVec 32}
    (hbytes : ∀ k < 4, mem r (address.toNat - r.start + k) = byteOf w k) :
    memRead32 mem address = w := by
  refine ext_byteOf (show 32 ≤ 8 * 4 by decide) ?_
  intro k hk
  rw [byteOf_memRead32 mem hc hk, hbytes k hk]

/-- The regions consist of whole words. -/
theorem Region.aligned (r : Region) : r.start % 4 = 0 ∧ r.size % 4 = 0 := by
  cases r <;> decide

section

variable (garbage : Memory) {words : List (BitVec 32)} (hfit : words.length ≤ 0x40000)
include hfit

theorem loaded_word {i : Nat} (hi : i < words.length) :
    memRead32 (loadWords 0 words (initMemory garbage)) (BitVec.ofNat 64 (memTextStart + 4 * i)) =
      words[i] := by
  have hsize : 0 + 4 * words.length ≤ memTextSize := by
    rw [memTextSize]
    omega
  obtain ⟨haddress, hc⟩ := textAddress_contains (4 * i) (by omega)
  have hstart : memTextStart + 4 * i - Region.text.start = 4 * i := Nat.add_sub_cancel_left _ _
  refine memRead32_of_bytes hc fun k hk => ?_
  have hdiv : (4 * i + k - 0) / 4 = i := by omega
  have hmod : (4 * i + k - 0) % 4 = k := by omega
  rw [haddress, hstart, loadWords_apply words 0 hsize, if_pos ⟨rfl, by omega, by omega⟩, hdiv, hmod,
    List.getD_eq_getElem?_getD, List.getElem?_eq_getElem hi, Option.getD_some]

theorem loaded_zero {address : BitVec 64} (halign : address.toNat % 4 = 0)
    (hmapped : (regionAt address.toNat).isSome)
    (hother : ∀ i < words.length, address ≠ BitVec.ofNat 64 (memTextStart + 4 * i)) :
    memRead32 (loadWords 0 words (initMemory garbage)) address = 0 := by
  have hsize : 0 + 4 * words.length ≤ memTextSize := by
    rw [memTextSize]
    omega
  obtain ⟨r, hr⟩ := Option.isSome_iff_exists.mp hmapped
  have hc := regionAt_eq_some.mp hr
  obtain ⟨hlo, hhi⟩ := hc
  obtain ⟨hstart, hend⟩ := r.aligned
  refine memRead32_of_bytes (regionAt_eq_some.mp hr) fun k hk => ?_
  have hinit : initMemory garbage r (address.toNat - r.start + k) = 0 := by
    rw [initMemory, if_pos (by omega)]
  rw [loadWords_apply words 0 hsize, if_neg, hinit, byteOf_zero]
  rintro ⟨rfl, -, hlt⟩
  -- otherwise the address is that of a word of the program
  have hi : (address.toNat - Region.text.start) / 4 < words.length := by omega
  obtain ⟨haddress, -⟩ :=
    textAddress_contains (4 * ((address.toNat - Region.text.start) / 4)) (by omega)
  refine hother _ hi (BitVec.eq_of_toNat_eq ?_)
  rw [haddress]
  change memTextStart ≤ address.toNat at hlo
  change memTextStart % 4 = 0 at hstart
  change address.toNat = memTextStart + 4 * ((address.toNat - memTextStart) / 4)
  omega

/-- A file of words is loaded as these words, and their number is printed. -/
theorem loadProgramFile_words (m : Machine) : loadProgramFile (words.map .word) m =
    some (loadProgram words m, (words.length : Int)) := by
  have hbound : 0 + 4 * words.length < 2 ^ 31 - memTextStart := by
    rw [memTextStart]
    omega
  have hloop : readLoop (words.map .word) 0 m.mem =
      some (BitVec.ofNat 32 (0 + 4 * words.length), loadWords 0 words m.mem) :=
    readLoop_words words 0 hbound m.mem
  have hcount : (BitVec.ofNat 32 (0 + 4 * words.length)).toInt.tdiv 4 = words.length := by
    rw [BitVec.toInt_eq_toNat_of_lt (by rw [BitVec.toNat_ofNat]; omega), BitVec.toNat_ofNat,
      Nat.mod_eq_of_lt (by omega), Nat.zero_add, Int.natCast_mul]
    exact Int.mul_tdiv_cancel_left _ (by decide)
  rw [loadProgramFile, hloop, ← hcount]
  rfl

theorem initializeFiles_eq : initializeFiles garbage [words.map .word] =
    some (initializeMachine garbage [words], [(words.length : Int)]) := by
  rw [initializeFiles, loadProgramFiles, loadProgramFile_words hfit]
  rfl

end

/-- **The loader puts the program where it is fetched.**  After `initialize` on a file of words
that fit, they are the words from `memTextStart` on, every other aligned word is zero, both
latches start there, and the number that is printed is that of the words. -/
theorem initializeFiles_words (garbage : Memory) (words : List (BitVec 32))
    (hfit : words.length ≤ 0x40000) :
    ∃ m, initializeFiles garbage [words.map .word] = some (m, [(words.length : Int)]) ∧
      (∀ i (hi : i < words.length),
        memRead32 m.mem (BitVec.ofNat 64 (memTextStart + 4 * i)) = words[i]) ∧
      (∀ address : BitVec 64, address.toNat % 4 = 0 → (regionAt address.toNat).isSome →
        (∀ i < words.length, address ≠ BitVec.ofNat 64 (memTextStart + 4 * i)) →
          memRead32 m.mem address = 0) ∧
      m.currentState.pc.toNat = memTextStart ∧ m.nextState.pc.toNat = memTextStart := by
  refine ⟨initializeMachine garbage [words], initializeFiles_eq garbage hfit, ?_, ?_, ?_, ?_⟩
  · intro i hi
    exact loaded_word garbage hfit hi
  · intro address halign hmapped hother
    exact loaded_zero garbage hfit halign hmapped hother
  · rfl
  · rfl

/-- A program of three words. -/
theorem initializeFiles_three :
    ∃ m, initializeFiles (fun _ _ => 0xff) [[.word 0xd2800801, .word 0xd370bc21, .word 0xf840003f]] =
        some (m, [3]) ∧
      memRead32 m.mem 0x400000 = 0xd2800801 ∧ memRead32 m.mem 0x400004 = 0xd370bc21 ∧
      memRead32 m.mem 0x400008 = 0xf840003f ∧ memRead32 m.mem 0x40000c = 0 ∧
      memRead32 m.mem 0x10000000 = 0 := by
  obtain ⟨m, hm, hwords, hzero, -⟩ :=
    initializeFiles_words (fun _ _ => 0xff) [0xd2800801, 0xd370bc21, 0xf840003f] (by decide)
  exact ⟨m, hm, hwords 0 (by decide), hwords 1 (by decide), hwords 2 (by decide),
    hzero _ (by decide) (by decide) (by decide), hzero _ (by decide) (by decide) (by decide)⟩

end Acso.Arm
