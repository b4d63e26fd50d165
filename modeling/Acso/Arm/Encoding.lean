import Acso.Arm.Rows

/-!
# Encoding

`encode row d free` is the word with the opcode of a row in its top bits, the
operands of its format below, and `free` in the three bits that the R-format rows
with a short opcode have left.  Every word that starts with the opcode of a row is
such a word, and dispatching and decoding it gives the row and the operands back
(`encode_decode`).
-/

namespace Acso.Arm

open Acso.Lib

/-! ## Placing a field -/

/-- The word with `v` in the bits from `start` on and zeros elsewhere. -/
def place {k : Nat} (v : BitVec k) (start : Nat) : BitVec 32 := v.setWidth 32 <<< start

theorem field_or (w w' : BitVec 32) (start width : Nat) :
    field (w ||| w') start width = field w start width ||| field w' start width := by
  apply BitVec.eq_of_getLsbD_eq
  intro i hi
  simp [field, hi]

/-- A field below everything that has been shifted up. -/
theorem field_shiftLeft {n start width : Nat} (x : BitVec 32) (h : start + width ≤ n) :
    field (x <<< n) start width = 0 := by
  apply BitVec.eq_of_getLsbD_eq
  intro i hi
  have hlt : start + i < n := by omega
  simp [field, hlt]

theorem field_place_self {k start : Nat} (v : BitVec k) (h : start + k ≤ 32) :
    field (place v start) start k = v := by
  apply BitVec.eq_of_getLsbD_eq
  intro i hi
  have hlt : start + i < 32 := by omega
  simp [field, place, hi, hlt]

theorem field_place_above {k start s width : Nat} (v : BitVec k) (h : start + k ≤ s) :
    field (place v start) s width = 0 := by
  apply BitVec.eq_of_getLsbD_eq
  intro i hi
  have hge : k ≤ s + i - start := by omega
  simp [field, place, BitVec.getLsbD_of_ge v _ hge]

theorem field_place_below {k start s width : Nat} (v : BitVec k) (h : s + width ≤ start) :
    field (place v start) s width = 0 := field_shiftLeft _ h

theorem place_shiftRight {k start n : Nat} (v : BitVec k) (h : start + k ≤ n) :
    place v start >>> n = 0 := by
  apply BitVec.eq_of_getLsbD_eq
  intro i hi
  have hge : k ≤ n + i - start := by omega
  simp [place, BitVec.getLsbD_of_ge v _ hge]

/-! ## Words with the same fields -/

/-- Two words agree in their `n` lowest bits. -/
def SameBits (n : Nat) (w w' : BitVec 32) : Prop := ∀ i < n, w.getLsbD i = w'.getLsbD i

theorem sameBits_zero (w w' : BitVec 32) : SameBits 0 w w' := by
  intro i hi
  omega

theorem SameBits.field {n k : Nat} {w w' : BitVec 32} (h : SameBits n w w')
    (hf : field w n k = field w' n k) : SameBits (n + k) w w' := by
  intro i hi
  by_cases hlt : i < n
  · exact h i hlt
  · have hbit := congrArg (fun v => BitVec.getLsbD v (i - n)) hf
    have hk : i - n < k := by omega
    simpa [Arm.field, hk, Nat.add_sub_cancel' (Nat.not_lt.mp hlt)] using hbit

/-- Two words agree in consecutive fields of these widths, from bit `n` on. -/
def SameFields (w w' : BitVec 32) : Nat → List Nat → Prop
  | _, [] => True
  | n, k :: ks => field w n k = field w' n k ∧ SameFields w w' (n + k) ks

theorem SameBits.fields {w w' : BitVec 32} {n : Nat} {ks : List Nat} (h : SameBits n w w')
    (hf : SameFields w w' n ks) : SameBits (n + ks.sum) w w' := by
  induction ks generalizing n with
  | nil => exact h
  | cons k ks ih =>
    rw [List.sum_cons, ← Nat.add_assoc]
    exact ih (h.field hf.1) hf.2

theorem SameBits.ext {n : Nat} {w w' : BitVec 32} (h : SameBits n w w')
    (htop : w >>> n = w' >>> n) : w = w' := by
  apply BitVec.eq_of_getLsbD_eq
  intro i _
  by_cases hlt : i < n
  · exact h i hlt
  · have hbit := congrArg (fun v => BitVec.getLsbD v (i - n)) htop
    simpa [Nat.add_sub_cancel' (Nat.not_lt.mp hlt)] using hbit

/-! ## The formats -/

inductive Format
  | r
  | i
  | d
  | b
  | cb
  | iw
  deriving DecidableEq

def Format.decode : Format → DataT → BitVec 32 → DataT
  | .r => decodeR
  | .i => decodeI
  | .d => decodeD
  | .b => decodeB
  | .cb => decodeCb
  | .iw => decodeIw

/-- The format of the row with this opcode. -/
def formatOf (opcode : BitVec 32) : Format :=
  if opcode = 0x5 then .b
  else if opcode ∈ [0x54, 0xb4, 0xb5] then .cb
  else if opcode ∈ [0x91, 0xb1, 0xf1, 0x34d] then .i
  else if opcode ∈ [0x7c0, 0x1c0, 0x3c0, 0x7c2, 0x1c2, 0x3c2] then .d
  else if opcode ∈ [0x6a2, 0x694] then .iw
  else .r

/-- The operands of a word with an opcode of `opcodeLength` bits. -/
def Format.operands (opcodeLength : Nat) (d : DataT) (free : BitVec 3) : Format → BitVec 32
  | .r => place d.rm 16 ||| place d.shamt 10 ||| place d.rn 5 ||| place d.rd 0 |||
      if opcodeLength = 8 then place free 21 else 0
  | .i => place d.aluImmediate 10 ||| place d.rn 5 ||| place d.rd 0 |||
      if opcodeLength = 8 then place d.shift 22 else 0
  | .d => place d.dtAddress 12 ||| place d.op 10 ||| place d.rn 5 ||| place d.rt 0
  | .b => place d.brAddress 0
  | .cb => place d.condBrAddress 5 ||| place d.rt 0
  | .iw => place d.movImmediate 5 ||| place d.rd 0

/-- The widths of the operands, from the lowest bits up. -/
def Format.widths (opcodeLength : Nat) : Format → List Nat
  | .r => [5, 5, 6, 5] ++ if opcodeLength = 8 then [3] else []
  | .i => [5, 5, 12] ++ if opcodeLength = 8 then [2] else []
  | .d => [5, 5, 2, 9]
  | .b => [26]
  | .cb => [5, 19]
  | .iw => [5, 16]

/-- `x` and `d` agree in the operands of the format.  The I-format row with a long
opcode has no shift. -/
def Format.Agree (opcodeLength : Nat) (x d : DataT) : Format → Prop
  | .r => x.rm = d.rm ∧ x.shamt = d.shamt ∧ x.rn = d.rn ∧ x.rd = d.rd
  | .i => x.aluImmediate = d.aluImmediate ∧ x.rn = d.rn ∧ x.rd = d.rd ∧
      (opcodeLength = 8 → x.shift = d.shift)
  | .d => x.dtAddress = d.dtAddress ∧ x.op = d.op ∧ x.rn = d.rn ∧ x.rt = d.rt
  | .b => x.brAddress = d.brAddress
  | .cb => x.condBrAddress = d.condBrAddress ∧ x.rt = d.rt
  | .iw => x.movImmediate = d.movImmediate ∧ x.rd = d.rd

def encode (row : Instruction) (d : DataT) (free : BitVec 3) : BitVec 32 :=
  row.opcode <<< (32 - row.opcodeLength) |||
    (formatOf row.opcode).operands row.opcodeLength d free

/-! ## The layouts -/

/-- The formats of the table, with the lengths of their opcodes. -/
def layouts : List (Format × Nat) :=
  [(.r, 8), (.r, 11), (.i, 8), (.i, 10), (.d, 11), (.b, 6), (.cb, 8), (.iw, 11)]

theorem row_layout : ∀ row ∈ instructions, row.decode = (formatOf row.opcode).decode ∧
    (formatOf row.opcode, row.opcodeLength) ∈ layouts ∧
    row.opcode.toNat < 2 ^ row.opcodeLength := by
  simp only [instructions, List.forall_mem_cons, List.not_mem_nil, false_implies, implies_true,
    and_true]
  and_intros <;> first
    | rfl
    | decide

section layouts

variable {f : Format} {l : Nat} (opcode : BitVec 32) (d u : DataT) (free : BitVec 3)

/-- The operands lie below the opcode. -/
theorem operands_shiftRight (h : (f, l) ∈ layouts) : f.operands l d free >>> (32 - l) = 0 := by
  simp only [layouts, List.mem_cons, List.not_mem_nil, or_false, Prod.mk.injEq] at h
  rcases h with h | h | h | h | h | h | h | h
  all_goals
    obtain ⟨rfl, rfl⟩ := h
    simp (disch := omega) [Format.operands, BitVec.ushiftRight_or_distrib, place_shiftRight]

/-- The word of a layout. -/
abbrev wordOf (f : Format) (l : Nat) (opcode : BitVec 32) (d : DataT) (free : BitVec 3) :
    BitVec 32 := opcode <<< (32 - l) ||| f.operands l d free

theorem shiftLeft_shiftRight {opcode : BitVec 32} (hl : l ≤ 32) (hop : opcode.toNat < 2 ^ l) :
    opcode <<< (32 - l) >>> (32 - l) = opcode := by
  have hpow : 2 ^ l * 2 ^ (32 - l) = 2 ^ 32 := by rw [← Nat.pow_add, Nat.add_sub_cancel' hl]
  have hlt : opcode.toNat * 2 ^ (32 - l) < 2 ^ 32 :=
    hpow ▸ Nat.mul_lt_mul_of_pos_right hop (Nat.two_pow_pos _)
  apply BitVec.eq_of_toNat_eq
  rw [BitVec.toNat_ushiftRight, BitVec.toNat_shiftLeft, Nat.shiftLeft_eq, Nat.mod_eq_of_lt hlt,
    Nat.shiftRight_eq_div_pow, Nat.mul_div_cancel _ (Nat.two_pow_pos _)]

theorem wordOf_shiftRight (h : (f, l) ∈ layouts) (hop : opcode.toNat < 2 ^ l) :
    wordOf f l opcode d free >>> (32 - l) = opcode := by
  have hl : ∀ p ∈ layouts, p.2 ≤ 32 := by decide
  rw [BitVec.ushiftRight_or_distrib, operands_shiftRight d free h, shiftLeft_shiftRight (hl _ h) hop]
  exact BitVec.or_zero

/-- **Decoding gives the operands back.** -/
theorem agree_wordOf (h : (f, l) ∈ layouts) :
    f.Agree l (f.decode u (wordOf f l opcode d free)) d := by
  simp only [layouts, List.mem_cons, List.not_mem_nil, or_false, Prod.mk.injEq] at h
  rcases h with h | h | h | h | h | h | h | h
  all_goals
    obtain ⟨rfl, rfl⟩ := h
    simp (disch := omega) [Format.Agree, Format.decode, Format.operands, field_or, field_shiftLeft,
      field_place_self, field_place_above, field_place_below]

/-- **A word is made of its opcode and its operands.** -/
theorem wordOf_decode (h : (f, l) ∈ layouts) (w : BitVec 32) :
    w = wordOf f l (w >>> (32 - l)) (f.decode u w) (field w 21 3) := by
  have hl : ∀ p ∈ layouts, p.2 ≤ 32 ∧ 0 + (p.1.widths p.2).sum = 32 - p.2 := by decide
  have hop : (w >>> (32 - l)).toNat < 2 ^ l := by
    have hpow : 2 ^ l * 2 ^ (32 - l) = 2 ^ 32 := by
      rw [← Nat.pow_add, Nat.add_sub_cancel' (hl _ h).1]
    rw [BitVec.toNat_ushiftRight, Nat.shiftRight_eq_div_pow,
      Nat.div_lt_iff_lt_mul (Nat.two_pow_pos _), hpow]
    exact w.isLt
  have htop := (wordOf_shiftRight (w >>> (32 - l)) (f.decode u w) (field w 21 3) h hop).symm
  have hfields : SameFields w (wordOf f l (w >>> (32 - l)) (f.decode u w) (field w 21 3)) 0
      (f.widths l) := by
    simp only [layouts, List.mem_cons, List.not_mem_nil, or_false, Prod.mk.injEq] at h
    rcases h with h | h | h | h | h | h | h | h
    all_goals
      obtain ⟨rfl, rfl⟩ := h
      simp (disch := omega) [SameFields, Format.widths, Format.decode, Format.operands, field_or,
        field_shiftLeft, field_place_self, field_place_above, field_place_below]
  have hbits := (sameBits_zero w _).fields hfields
  rw [(hl _ h).2] at hbits
  exact hbits.ext htop

end layouts

/-! ## The table -/

/-- **Encoding, dispatching and decoding agree.**  A word encoded for a row is
dispatched to this row, matches no other one and decodes to its operands; and every
word that matches a row is encoded for it. -/
theorem encode_decode (row : Instruction) (hmem : row ∈ instructions) :
    (∀ d free, dispatch (encode row d free) = some row ∧
      (∀ row' ∈ instructions, row'.Matches (encode row d free) → row' = row) ∧
      ∀ u, (formatOf row.opcode).Agree row.opcodeLength
        (row.decode u (encode row d free)) d) ∧
    ∀ w, row.Matches w → ∃ d free, w = encode row d free := by
  obtain ⟨hdecode, hlayout, hop⟩ := row_layout row hmem
  refine ⟨?_, ?_⟩
  · intro d free
    have hmatch : row.Matches (encode row d free) :=
      (wordOf_shiftRight row.opcode d free hlayout hop).symm
    refine ⟨dispatch_eq_some.mpr ⟨hmem, hmatch⟩, ?_, ?_⟩
    · intro row' hmem' hmatch'
      exact hmatch'.unique hmem' hmem hmatch
    · intro u
      rw [hdecode]
      exact agree_wordOf row.opcode d u free hlayout
  · intro w hmatch
    refine ⟨(formatOf row.opcode).decode default w, field w 21 3, ?_⟩
    have hw := wordOf_decode default hlayout w
    rwa [← hmatch] at hw

theorem encode_decode_ldur :
    let row : Instruction := ⟨11, 0x7c2, decodeD, executeLdur⟩
    ∀ d free, dispatch (encode row d free) = some row ∧
      ∀ u, (row.decode u (encode row d free)).dtAddress = d.dtAddress := by
  intro row d free
  have h := (encode_decode row (by simp [row, instructions])).1 d free
  exact ⟨h.1, fun u => (h.2.2 u).1⟩

end Acso.Arm
