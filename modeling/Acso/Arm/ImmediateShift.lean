import Acso.Arm.Encoding
import Acso.Arm.ShiftedRegister

/-!
# Immediate shifts

LSL and LSR by an immediate are two encodings of the same A64 instruction, with the shift
amount in `immr` and, for LSL, once more in `imms`.  `cycle_lslLsrImm` is what their row does
with the two fields; on the encodings of the two shifts (`lslImm`, `lsrImm`) it multiplies
and divides by a power of two (`immediate_shifts`).
-/

namespace Acso.Arm

/-- The word of the row with these fields. -/
def shiftImm (immr imms : BitVec 6) (rn rd : BitVec 5) : BitVec 32 :=
  place (0x34d : BitVec 10) 22 ||| place immr 16 ||| place imms 10 ||| place rn 5 ||| place rd 0

/-- `lsl rd, rn, #s`. -/
def lslImm (s : Nat) (rn rd : BitVec 5) : BitVec 32 :=
  shiftImm (-BitVec.ofNat 6 s) (BitVec.ofNat 6 (63 - s)) rn rd

/-- `lsr rd, rn, #s`. -/
def lsrImm (s : Nat) (rn rd : BitVec 5) : BitVec 32 := shiftImm (BitVec.ofNat 6 s) 63 rn rd

/-! ## The fields -/

/-- The two halves of the immediate. -/
theorem field_high_low (w : BitVec 32) :
    (field w 10 12 >>> 6).setWidth 64 = (field w 16 6).setWidth 64 ∧
      (field w 10 12 &&& 0x3f).setWidth 64 = (field w 10 6).setWidth 64 := by
  have hmask : (0x3f : BitVec 12).toNat = 2 ^ 6 - 1 := rfl
  refine ⟨?_, ?_⟩ <;> apply BitVec.eq_of_toNat_eq
  · simp only [BitVec.toNat_setWidth, BitVec.toNat_ushiftRight, BitVec.extractLsb'_toNat,
      Nat.shiftRight_eq_div_pow]
    omega
  · simp only [BitVec.toNat_setWidth, BitVec.toNat_and, BitVec.extractLsb'_toNat, hmask,
      Nat.and_two_pow_sub_one_eq_mod, Nat.shiftRight_eq_div_pow]
    omega

theorem shiftImm_fields (immr imms : BitVec 6) (rn rd : BitVec 5) :
    shiftImm immr imms rn rd >>> 22 = 0x34d ∧ field (shiftImm immr imms rn rd) 16 6 = immr ∧
      field (shiftImm immr imms rn rd) 10 6 = imms ∧ field (shiftImm immr imms rn rd) 5 5 = rn ∧
      field (shiftImm immr imms rn rd) 0 5 = rd := by
  refine ⟨?_, ?_, ?_, ?_, ?_⟩
  · have htop : place (0x34d : BitVec 10) 22 >>> 22 = 0x34d := by decide
    simp (disch := omega) only [shiftImm, BitVec.ushiftRight_or_distrib, place_shiftRight, htop]
    decide
  all_goals
    simp (disch := omega) [shiftImm, field_or, field_place_self, field_place_above,
      field_place_below]

/-! ## The row -/

/-- **What the row does**, in the fields of its word. -/
theorem cycle_lslLsrImm (u : DataT) {m : Machine} (hop : m.fetched >>> 22 = 0x34d)
    (hrd : field m.fetched 0 5 ≠ xzr) :
    (cycle u m).currentState.reg (field m.fetched 0 5) =
      if field m.fetched 10 6 ≠ 63 then
        m.currentState.reg (field m.fetched 5 5) <<<
          shiftCount (64 - (field m.fetched 16 6).setWidth 64)
      else
        m.currentState.reg (field m.fetched 5 5) >>>
          shiftCount ((field m.fetched 16 6).setWidth 64) := by
  have hd : dispatch m.fetched = some ⟨10, 0x34d, decodeI, executeLslLsrImm⟩ :=
    dispatch_eq_some.mpr ⟨by simp [instructions], hop.symm⟩
  obtain ⟨hhigh, hlow⟩ := field_high_low m.fetched
  have himms : ∀ x : BitVec 6, x.setWidth 64 ≠ 0x3f ↔ x ≠ 63 := by decide
  rw [cycle_reg u hd]
  simp only [Instruction.result, executeLslLsrImm, decodeI_aluImmediate, decodeI_rn, decodeI_rd,
    hhigh, hlow, himms]
  exact (CpuState.reg_writeReg _ _ _ _).trans (if_pos ⟨hrd, rfl⟩)

/-- `64 - immr` is the amount again. -/
theorem shiftCount_lsl : ∀ s < 64, s ≠ 0 →
    shiftCount (64 - (-BitVec.ofNat 6 s).setWidth 64) = s := by decide

theorem shiftCount_lsr : ∀ s < 64, shiftCount ((BitVec.ofNat 6 s).setWidth 64) = s := by decide

theorem lslImm_zero (rn rd : BitVec 5) : lslImm 0 rn rd = lsrImm 0 rn rd := rfl

/-- **The immediate shifts** multiply by a power of two and divide by it; without an amount
their encodings are the same. -/
theorem immediate_shifts (u : DataT) (m : Machine) (s : Nat) (hs : s ≤ 63) (rn rd : BitVec 5)
    (hrd : rd ≠ xzr) :
    (m.fetched = lslImm s rn rd → ((cycle u m).currentState.reg rd).toNat =
      (m.currentState.reg rn).toNat * 2 ^ s % 2 ^ 64) ∧
    (m.fetched = lsrImm s rn rd → ((cycle u m).currentState.reg rd).toNat =
      (m.currentState.reg rn).toNat / 2 ^ s) ∧
    lslImm 0 rn rd = lsrImm 0 rn rd := by
  have hlsr : m.fetched = lsrImm s rn rd → ((cycle u m).currentState.reg rd).toNat =
      (m.currentState.reg rn).toNat / 2 ^ s := by
    intro hw
    obtain ⟨hop, himmr, himms, hrn, hrd'⟩ := shiftImm_fields (BitVec.ofNat 6 s) 63 rn rd
    rw [← lsrImm, ← hw] at hop himmr himms hrn hrd'
    have hcycle := cycle_lslLsrImm u hop (hrd'.symm ▸ hrd)
    rw [himmr, himms, hrn, hrd', if_neg (not_not_intro rfl), shiftCount_lsr s (by omega)] at hcycle
    rw [hcycle, BitVec.toNat_ushiftRight, Nat.shiftRight_eq_div_pow]
  refine ⟨?_, hlsr, lslImm_zero rn rd⟩
  intro hw
  by_cases hzero : s = 0
  · subst hzero
    rw [hlsr (hw.trans (lslImm_zero rn rd)), Nat.pow_zero, Nat.div_one, Nat.mul_one,
      Nat.mod_eq_of_lt (BitVec.isLt _)]
  · obtain ⟨hop, himmr, himms, hrn, hrd'⟩ :=
      shiftImm_fields (-BitVec.ofNat 6 s) (BitVec.ofNat 6 (63 - s)) rn rd
    rw [← lslImm, ← hw] at hop himmr himms hrn hrd'
    have hcycle := cycle_lslLsrImm u hop (hrd'.symm ▸ hrd)
    have hne : BitVec.ofNat 6 (63 - s) ≠ 63 := by
      intro heq
      have hnat := congrArg BitVec.toNat heq
      rw [BitVec.toNat_ofNat, show (63 : BitVec 6).toNat = 63 from rfl] at hnat
      omega
    rw [himmr, himms, hrn, hrd', if_pos hne, shiftCount_lsl s (by omega) hzero] at hcycle
    rw [hcycle, BitVec.toNat_shiftLeft, Nat.shiftLeft_eq]

/-- `lsl x3, x1, #4` with `x1 = 1`. -/
theorem registerMachine_lsl :
    ((cycle default (registerMachine (lslImm 4 1 3))).currentState.reg 3).toNat = 16 :=
  (immediate_shifts default (registerMachine (lslImm 4 1 3)) 4 (by decide) 1 3 (by decide)).1
    (by decide)

end Acso.Arm
