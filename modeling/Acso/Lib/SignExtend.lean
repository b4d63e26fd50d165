import Mathlib.Tactic.Ring

/-!
# Sign extension by xor and subtraction

`(n ^^^ m) - m` with `m` the sign bit of a `k + 1`-bit number `n` extends the
sign of `n` (`xor_sub_eq_signExtend`): xor with the top bit of `n` flips it,
which adds `2 ^ k` below the middle and takes it off above
(`xor_two_pow_of_lt`, `xor_two_pow_of_le`).  A clear sign bit extends with zeros, and only
a clear one (`signExtend_eq_setWidth_iff`).
-/

namespace Acso.Lib

theorem xor_two_pow_of_lt {n k : Nat} (h : n < 2 ^ k) : n ^^^ 2 ^ k = n + 2 ^ k := by
  have hdiv : (n ^^^ 2 ^ k) / 2 ^ k = 1 := by
    rw [Nat.xor_div_two_pow, Nat.div_eq_of_lt h, Nat.div_self (Nat.two_pow_pos k), Nat.zero_xor]
  have hmod : (n ^^^ 2 ^ k) % 2 ^ k = n := by
    rw [Nat.xor_mod_two_pow, Nat.mod_self, Nat.xor_zero, Nat.mod_eq_of_lt h]
  have := Nat.div_add_mod (n ^^^ 2 ^ k) (2 ^ k)
  rw [hdiv, hmod] at this
  omega

theorem xor_two_pow_of_le {n k : Nat} (hle : 2 ^ k ≤ n) (hlt : n < 2 ^ (k + 1)) :
    n ^^^ 2 ^ k = n - 2 ^ k := by
  have hlow : n - 2 ^ k < 2 ^ k := by rw [Nat.pow_succ] at hlt; omega
  have hn : (n - 2 ^ k) ^^^ 2 ^ k = n := by rw [xor_two_pow_of_lt hlow]; omega
  calc n ^^^ 2 ^ k = ((n - 2 ^ k) ^^^ 2 ^ k) ^^^ 2 ^ k := by rw [hn]
    _ = n - 2 ^ k := by rw [Nat.xor_assoc, Nat.xor_self, Nat.xor_zero]

/-- **Sign extension by xor and subtraction** of a `k + 1`-bit number. -/
theorem xor_sub_eq_signExtend {k w : Nat} (y : BitVec (k + 1)) (hk : k < w) {m : BitVec w}
    (hm : m.toNat = 2 ^ k) : (y.setWidth w ^^^ m) - m = y.signExtend w := by
  have hy := y.isLt
  have hle : 2 ^ (k + 1) ≤ 2 ^ w := Nat.pow_le_pow_right (by decide) hk
  have hset : (y.setWidth w).toNat = y.toNat := by
    rw [BitVec.toNat_setWidth, Nat.mod_eq_of_lt (by omega)]
  have hpow : 2 ^ (k + 1) = 2 * 2 ^ k := by rw [Nat.pow_succ, Nat.mul_comm]
  apply BitVec.eq_of_toNat_eq
  rw [BitVec.toNat_sub, BitVec.toNat_xor, hset, hm, BitVec.toNat_signExtend, hset,
    BitVec.msb_eq_decide, Nat.add_sub_cancel]
  by_cases h : y.toNat < 2 ^ k
  · rw [xor_two_pow_of_lt h, decide_eq_false (by omega), if_neg (by decide),
      show 2 ^ w - 2 ^ k + (y.toNat + 2 ^ k) = y.toNat + 2 ^ w by omega, Nat.add_mod_right,
      Nat.mod_eq_of_lt (by omega)]
    rfl
  · rw [xor_two_pow_of_le (by omega) hy, decide_eq_true (by omega), if_pos rfl,
      Nat.mod_eq_of_lt (by omega)]
    omega

/-- Extending with the sign is extending with zeros exactly if the sign bit is clear. -/
theorem signExtend_eq_setWidth_iff {v w : Nat} (h : v < w) (x : BitVec v) :
    x.signExtend w = x.setWidth w ↔ x.msb = false := by
  constructor
  · intro heq
    have hbit := congrArg (BitVec.getLsbD · v) heq
    rwa [BitVec.getLsbD_signExtend, decide_eq_true h, Bool.true_and, if_neg (Nat.lt_irrefl v),
      BitVec.getLsbD_setWidth, BitVec.getLsbD_of_ge x v (Nat.le_refl v), Bool.and_false] at hbit
  · exact BitVec.signExtend_eq_setWidth_of_msb_false

end Acso.Lib
