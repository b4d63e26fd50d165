import Acso.Lib.SignedRange
import Acso.Arm.Loader

/-!
# Dumping memory

`mdump` of `shell.c`, between two numbers that the user types.  They are stored as `int`s, so
the counter of its loops wraps around, and each address is widened with its sign.

* `mdumpLoop_eq`: the loop is that of `rangeLoop`, so it ends exactly if every address of the
  range is followed by one that is an `int` (`mdumpLoop_ends_iff`).
* `dumpLine_low`, `dumpLine_stack`: typed addresses of the text and the data region are read
  where they are, those of the stack region are not mapped and read as zero.
* `mdumpCommand_dumps_iff`: so a command prints what it says unless its range reaches the
  largest `int` or there is something to print in the stack region.
-/

namespace Acso.Arm

open Acso.Lib

/-! ## The command -/

/-- `"  0x%08x (%d) : 0x%x\n"`, the address twice. -/
structure DumpLine where
  address : BitVec 32
  word : BitVec 32

/-- `"\nMemory content [0x%08x..0x%08x] :\n"`, a line of dashes and the lines of the loop. -/
structure Dump where
  start : BitVec 32
  stop : BitVec 32
  lines : List DumpLine

/-- The loop of `mdump`; `none` if it is still running when the fuel is used up. -/
def mdumpLoop (mem : Memory) (stop : BitVec 32) : Nat → BitVec 32 → Option (List DumpLine)
  | 0, _ => none
  | fuel + 1, address =>
    if address.sle stop then do
      let line : DumpLine := ⟨address, memRead32 mem (address.signExtend 64)⟩
      let lines ← mdumpLoop mem stop fuel (address + 4)
      pure (line :: lines)
    else some []

/-- What is printed, and what is written to the dump file after it. -/
def mdump (mem : Memory) (fuel : Nat) (start stop : BitVec 32) : Option (Dump × Dump) := do
  let printed ← mdumpLoop mem stop fuel start
  let written ← mdumpLoop mem stop fuel start
  pure (⟨start, stop, printed⟩, ⟨start, stop, written⟩)

/-- What `scanf("%i")` stores of a number that is typed: `strtol` keeps it within a `long`, of
which the low 32 bits are stored. -/
def scanInt (n : Int) : BitVec 32 := BitVec.ofInt 32 (max (-2 ^ 63) (min n (2 ^ 63 - 1)))

/-- The command `mdump low high`. -/
def mdumpCommand (mem : Memory) (fuel : Nat) (low high : Int) : Option (Dump × Dump) :=
  mdump mem fuel (scanInt low) (scanInt high)

/-! ## What it is for -/

/-- The addresses are `start`, `start + 4`, … as far as they are at most `stop`, each once. -/
def Covers (start stop : BitVec 32) (lines : List DumpLine) : Prop :=
  (lines.map (fun line => line.address.toInt)).Pairwise (· < ·) ∧
    ∀ x, x ∈ lines.map (fun line => line.address.toInt) ↔
      ∃ k : Nat, x = start.toInt + 4 * k ∧ x ≤ stop.toInt

/-- If the numbers typed are addresses of one region, the words are what the region holds from
the first on. -/
def Contents (mem : Memory) (low high : Int) (lines : List DumpLine) : Prop :=
  ∀ (r : Region) (a b : Nat), low = a → high = b → r.Contains a → r.Contains b →
    ∀ (i : Nat) (line : DumpLine), lines[i]? = some line →
      ∀ k < 4, byteOf line.word k = mem r (a + 4 * i - r.start + k)

/-- The command ends, and both copies are as they should be. -/
def Dumps (mem : Memory) (low high : Int) : Prop :=
  ∃ fuel printed written, mdumpCommand mem fuel low high = some (printed, written) ∧
    Covers (scanInt low) (scanInt high) printed.lines ∧ Contents mem low high printed.lines ∧
    Covers (scanInt low) (scanInt high) written.lines ∧ Contents mem low high written.lines

/-- Where both numbers are addresses of the stack region, it holds nothing but zeros there. -/
def StackBlank (mem : Memory) (low high : Int) : Prop :=
  ∀ a b : Nat, low = a → high = b → Region.stack.Contains a → Region.stack.Contains b →
    ∀ i, a + 4 * i ≤ b → ∀ k < 4, mem .stack (a + 4 * i - memStackStart + k) = 0

/-! ## The loop -/

/-- The line of an address. -/
def dumpLine (mem : Memory) (address : BitVec 32) : DumpLine :=
  ⟨address, memRead32 mem (address.signExtend 64)⟩

theorem mdumpLoop_eq (mem : Memory) (stop : BitVec 32) (fuel : Nat) (address : BitVec 32) :
    mdumpLoop mem stop fuel address =
      (rangeLoop 4 stop fuel address).map (List.map (dumpLine mem)) := by
  induction fuel generalizing address with
  | zero => rfl
  | succ fuel ih =>
    have hfour : address + BitVec.ofInt 32 4 = address + 4 := rfl
    rw [mdumpLoop, rangeLoop, hfour, ih]
    by_cases hle : address.sle stop = true
    · rw [if_pos hle, if_pos hle]
      cases rangeLoop 4 stop fuel (address + 4) <;> rfl
    · rw [if_neg hle, if_neg hle]
      rfl

/-- **The loop ends exactly if its range fits.** -/
theorem mdumpLoop_ends_iff (mem : Memory) (start stop : BitVec 32) :
    (∃ fuel lines, mdumpLoop mem stop fuel start = some lines) ↔
      RangeFits 4 start.toInt stop.toInt 32 := by
  constructor
  · rintro ⟨fuel, lines, hlines⟩
    by_contra hfits
    rw [RangeFits] at hfits
    push Not at hfits
    obtain ⟨k, hk, hlast⟩ := hfits
    have hdvd : (4 : Int) ∣ start.toInt - (start.toInt + 4 * k) := ⟨-k, by ring⟩
    have hnone := rangeLoop_endless (by decide) (by decide) hk (by omega) fuel hdvd
    rw [mdumpLoop_eq, hnone] at hlines
    cases hlines
  · intro hfits
    obtain ⟨l, hl⟩ :=
      rangeLoop_ends (by decide) ((stop.toInt - start.toInt).toNat + 1) (by omega) hfits
    exact ⟨_, _, by rw [mdumpLoop_eq, hl, Option.map_some]⟩

theorem mdumpLoop_visits {mem : Memory} {start stop : BitVec 32} {fuel : Nat}
    {lines : List DumpLine} (h : mdumpLoop mem stop fuel start = some lines) :
    ∃ l, lines = l.map (dumpLine mem) ∧ Visits 4 start.toInt stop.toInt l := by
  have hfits := (mdumpLoop_ends_iff mem start stop).mp ⟨fuel, lines, h⟩
  rw [mdumpLoop_eq, Option.map_eq_some_iff] at h
  obtain ⟨l, hl, rfl⟩ := h
  exact ⟨l, rfl, rangeLoop_visits (by decide) hfits hl⟩

theorem covers_of_visits (mem : Memory) {start stop : BitVec 32} {l : List (BitVec 32)}
    (h : Visits 4 start.toInt stop.toInt l) : Covers start stop (l.map (dumpLine mem)) := by
  have hmap : (l.map (dumpLine mem)).map (fun line => line.address.toInt) = l.map BitVec.toInt := by
    rw [List.map_map]
    rfl
  rw [Covers, hmap]
  exact ⟨h.pairwise_lt (by decide), h.mem_iff (by decide)⟩

/-! ## The words -/

theorem scanInt_natCast {n : Nat} (h : n < 2 ^ 63) : scanInt n = BitVec.ofNat 32 n := by
  have hclamp : max (-2 ^ 63) (min (n : Int) (2 ^ 63 - 1)) = n := by omega
  rw [scanInt, hclamp, BitVec.ofInt_natCast]

/-- A number of the text or the data region is an `int`. -/
theorem toInt_scanInt_low {r : Region} (hr : r ≠ .stack) {a : Nat} (ha : r.Contains a) :
    (scanInt a).toInt = a := by
  have hlt : a < 2 ^ 31 := by
    obtain ⟨-, h⟩ := ha
    cases r
    · exact h.trans (by decide)
    · exact h.trans (by decide)
    · exact absurd rfl hr
  rw [scanInt_natCast (by omega), BitVec.toInt_ofNat', Int.bmod_eq_of_le (by omega) (by omega)]

/-- A number of the stack region is stored without its high bits, around zero. -/
theorem toInt_scanInt_stack {a : Nat} (ha : Region.stack.Contains a) :
    (scanInt a).toInt = a - 2 ^ 32 := by
  obtain ⟨hlo, hhi⟩ := ha
  change 0xfffffffc ≤ a at hlo
  change a < 0xfffffffc + 0x00100000 at hhi
  rw [scanInt_natCast (by omega), BitVec.toInt_ofNat', ← Int.sub_bmod_right,
    Int.bmod_eq_of_le (by omega) (by omega)]
  norm_num

/-- An address is widened with its sign. -/
theorem toNat_widened (x : BitVec 32) : ((x.signExtend 64).toNat : Int) =
    if 0 ≤ x.toInt then x.toInt else x.toInt + 2 ^ 64 := by
  have hsign : (x.signExtend 64).toInt = x.toInt := BitVec.toInt_signExtend_of_le (by decide)
  have hlow : -2 ^ 31 ≤ x.toInt := BitVec.le_toInt x
  rw [BitVec.toInt_eq_toNat_cond] at hsign
  split at hsign <;> split <;> omega

section

variable {mem : Memory} {a b : Nat} {x : BitVec 32} {i : Nat}

theorem dumpLine_low {r : Region} (ha : r.Contains a) (hb : r.Contains b) (hle : a + 4 * i ≤ b)
    (hx : x.toInt = a + 4 * i) {k : Nat} (hk : k < 4) :
    byteOf (dumpLine mem x).word k = mem r (a + 4 * i - r.start + k) := by
  have haddress : (x.signExtend 64).toNat = a + 4 * i := by
    have h := toNat_widened x
    rw [if_pos (by omega)] at h
    omega
  have hc : r.Contains (x.signExtend 64).toNat := by
    rw [haddress]
    exact ⟨ha.1.trans (Nat.le_add_right _ _), hle.trans_lt hb.2⟩
  rw [dumpLine, byteOf_memRead32 mem hc hk, haddress]

theorem dumpLine_unmapped (hnone : regionAt (x.signExtend 64).toNat = none) :
    (dumpLine mem x).word = 0 := by
  simp only [dumpLine, memRead32, hnone]

/-- Numbers from `2 ^ 31` on are widened to addresses that no region has. -/
theorem dumpLine_negative (hx : x.toInt < 0) : (dumpLine mem x).word = 0 := by
  refine dumpLine_unmapped (Option.eq_none_iff_forall_ne_some.mpr fun r hr => ?_)
  obtain ⟨-, hend⟩ := regionAt_eq_some.mp hr
  have haddress := toNat_widened x
  rw [if_neg (by omega)] at haddress
  have hlow : -2 ^ 31 ≤ x.toInt := BitVec.le_toInt x
  cases r
  · change _ < 0x00400000 + 0x00100000 at hend
    omega
  · change _ < 0x10000000 + 0x00100000 at hend
    omega
  · change _ < 0xfffffffc + 0x00100000 at hend
    omega

theorem dumpLine_stack (ha : Region.stack.Contains a) (hb : Region.stack.Contains b)
    (hle : a + 4 * i ≤ b) (hx : x.toInt = a - 2 ^ 32 + 4 * i) : (dumpLine mem x).word = 0 := by
  obtain ⟨hlo, -⟩ := ha
  obtain ⟨-, hhi⟩ := hb
  change 0xfffffffc ≤ a at hlo
  change b < 0xfffffffc + 0x00100000 at hhi
  by_cases hneg : x.toInt < 0
  · exact dumpLine_negative hneg
  · refine dumpLine_unmapped (Option.eq_none_iff_forall_ne_some.mpr fun r hr => ?_)
    obtain ⟨hstart, -⟩ := regionAt_eq_some.mp hr
    have haddress := toNat_widened x
    rw [if_pos (by omega)] at haddress
    cases r
    · change 0x00400000 ≤ _ at hstart
      omega
    · change 0x10000000 ≤ _ at hstart
      omega
    · change 0xfffffffc ≤ _ at hstart
      omega

end

/-- **What is printed** is what the regions hold, but for the stack region. -/
theorem contents_iff {mem : Memory} {low high : Int} {l : List (BitVec 32)}
    (h : Visits 4 (scanInt low).toInt (scanInt high).toInt l) :
    Contents mem low high (l.map (dumpLine mem)) ↔ StackBlank mem low high := by
  have hline : ∀ (i : Nat) (hi : i < l.length),
      (l.map (dumpLine mem))[i]? = some (dumpLine mem l[i]) := by
    intro i hi
    rw [List.getElem?_map, List.getElem?_eq_getElem hi, Option.map_some]
  constructor
  · rintro hcontents a b rfl rfl ha hb i hle k hk
    have hstart := toInt_scanInt_stack ha
    have hstop := toInt_scanInt_stack hb
    have hi := h.lt_length (by decide) (k := i) (by omega)
    have hbyte := hcontents .stack a b rfl rfl ha hb i _ (hline i hi) k hk
    rw [dumpLine_stack ha hb hle (by rw [h.getElem i hi, hstart]), byteOf_zero] at hbyte
    exact hbyte.symm
  · rintro hblank r a b rfl rfl ha hb i line hget k hk
    have hi : i < l.length := by
      have hlt := (List.getElem?_eq_some_iff.mp hget).1
      rwa [List.length_map] at hlt
    rw [hline i hi] at hget
    obtain rfl := Option.some.inj hget
    have hx := h.getElem i hi
    have hxle := h.le i hi
    by_cases hr : r = .stack
    · subst hr
      have hstart := toInt_scanInt_stack ha
      have hstop := toInt_scanInt_stack hb
      have hle : a + 4 * i ≤ b := by omega
      rw [dumpLine_stack ha hb hle (by rw [hx, hstart]), byteOf_zero]
      exact (hblank a b rfl rfl ha hb i hle k hk).symm
    · have hstart := toInt_scanInt_low hr ha
      have hstop := toInt_scanInt_low hr hb
      exact dumpLine_low ha hb (by omega) (by rw [hx, hstart]) hk

/-! ## The command -/

theorem mdumpCommand_eq_some {mem : Memory} {fuel : Nat} {low high : Int} {printed written : Dump}
    (h : mdumpCommand mem fuel low high = some (printed, written)) :
    mdumpLoop mem (scanInt high) fuel (scanInt low) = some printed.lines ∧
      written.lines = printed.lines := by
  rw [mdumpCommand, mdump] at h
  cases hloop : mdumpLoop mem (scanInt high) fuel (scanInt low) with
  | none =>
    rw [hloop] at h
    cases h
  | some lines =>
    rw [hloop] at h
    obtain ⟨rfl, rfl⟩ := Prod.mk.inj (Option.some.inj h)
    exact ⟨rfl, rfl⟩

/-- **When `mdump` dumps.**  The command ends with the addresses of its range, each once, and
with what the region of the numbers typed holds, exactly if no address of the range is followed
by one beyond the largest `int`, and the stack region holds zeros where it is asked for. -/
theorem mdumpCommand_dumps_iff (mem : Memory) (low high : Int) :
    Dumps mem low high ↔
      RangeFits 4 (scanInt low).toInt (scanInt high).toInt 32 ∧ StackBlank mem low high := by
  constructor
  · rintro ⟨fuel, printed, written, hcommand, -, hcontents, -, -⟩
    obtain ⟨hloop, -⟩ := mdumpCommand_eq_some hcommand
    obtain ⟨l, hl, hvisits⟩ := mdumpLoop_visits hloop
    rw [hl] at hcontents
    exact ⟨(mdumpLoop_ends_iff _ _ _).mp ⟨fuel, _, hloop⟩, (contents_iff hvisits).mp hcontents⟩
  · rintro ⟨hfits, hblank⟩
    obtain ⟨fuel, lines, hloop⟩ := (mdumpLoop_ends_iff mem _ _).mpr hfits
    obtain ⟨l, rfl, hvisits⟩ := mdumpLoop_visits hloop
    have hcovers := covers_of_visits mem hvisits
    have hcontents := (contents_iff hvisits).mpr hblank
    let dump : Dump := ⟨scanInt low, scanInt high, l.map (dumpLine mem)⟩
    refine ⟨fuel, dump, dump, ?_, hcovers, hcontents, hcovers, hcontents⟩
    rw [mdumpCommand, mdump, hloop]
    rfl

/-- `mdump 0x7ffffff0 0x7fffffff` does not end, and `mdump 0xfffffffc 0xfffffffc` prints a zero
for a word of the stack region that is none. -/
theorem mdump_endless_and_blank :
    ¬ Dumps (fun _ _ => 0) 0x7ffffff0 0x7fffffff ∧ ¬ Dumps (fun _ _ => 1) 0xfffffffc 0xfffffffc := by
  constructor
  · rintro ⟨fuel, printed, written, hcommand, -⟩
    obtain ⟨hloop, -⟩ := mdumpCommand_eq_some hcommand
    have hfits := (mdumpLoop_ends_iff _ _ _).mp ⟨fuel, _, hloop⟩
    exact absurd (hfits 3 (by decide)) (by decide)
  · rintro ⟨fuel, printed, written, hcommand, -, hcontents, -⟩
    obtain ⟨hloop, -⟩ := mdumpCommand_eq_some hcommand
    obtain ⟨l, hl, hvisits⟩ := mdumpLoop_visits hloop
    rw [hl] at hcontents
    have hblank := (contents_iff hvisits).mp hcontents 0xfffffffc 0xfffffffc rfl rfl
      (by decide) (by decide) 0 (by decide) 0 (by decide)
    exact absurd hblank (by decide)

end Acso.Arm
