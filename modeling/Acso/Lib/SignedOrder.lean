import Mathlib.Tactic.Ring

/-!
# Signed order by subtraction

As long as the difference of two signed numbers fits into the width, the sign bit of
`x - y` says whether `x < y` (`msb_sub_iff_lt`), and `x - y` is zero exactly if they are
equal (`sub_eq_zero_iff_toInt`).
-/

namespace Acso.Lib

variable {w : Nat} {x y : BitVec w}

/-- The signed difference fits into the width. -/
def SubFits (x y : BitVec w) : Prop :=
  -2 ^ (w - 1) ≤ x.toInt - y.toInt ∧ x.toInt - y.toInt < 2 ^ (w - 1)

theorem SubFits.toInt_sub (h : SubFits x y) : (x - y).toInt = x.toInt - y.toInt := by
  refine BitVec.toInt_sub_of_not_ssubOverflow ?_
  rw [BitVec.ssubOverflow, Bool.or_eq_true, decide_eq_true_iff, decide_eq_true_iff]
  exact not_or.mpr ⟨Int.not_le.mpr h.2, Int.not_lt.mpr h.1⟩

theorem SubFits.msb_sub_iff_lt (h : SubFits x y) : (x - y).msb = true ↔ x.toInt < y.toInt := by
  rw [BitVec.msb_eq_toInt, decide_eq_true_iff, h.toInt_sub]
  omega

theorem sub_eq_zero_iff_toInt : x - y = 0 ↔ x.toInt = y.toInt := by
  rw [BitVec.toInt_inj, BitVec.sub_eq_iff_eq_add]
  exact Eq.congr_right (BitVec.zero_add y)

end Acso.Lib
