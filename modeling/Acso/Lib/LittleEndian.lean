import Mathlib.Tactic.Ring
import Mathlib.Tactic.Positivity

/-!
# Words as little-endian bytes

`byteOf x k` is byte `k` of a word, byte `0` being the lowest.  A word is
determined by its bytes (`ext_byteOf`), and the bytes of what the bitwise
operators build are the bytes of their arguments (`byteOf_or`,
`byteOf_ushiftRight`, …).  `leValue f n` is the number whose `n` lowest bytes are
`f 0, …, f (n - 1)`; its bytes are those of `f` (`byteOf_ofNat_leValue`).
-/

namespace Acso.Lib

abbrev Byte := BitVec 8

/-- Byte `k` of a word. -/
def byteOf {w : Nat} (x : BitVec w) (k : Nat) : Byte := x.extractLsb' (8 * k) 8

/-- The value of the `n` bytes `f 0, …, f (n - 1)`, lowest first. -/
def leValue (f : Nat → Byte) : Nat → Nat
  | 0 => 0
  | n + 1 => leValue f n + (f n).toNat * 256 ^ n

section byteOf

variable {w w' : Nat}

theorem getElem_byteOf (x : BitVec w) (k : Nat) {i : Nat} (hi : i < 8) :
    (byteOf x k)[i] = x.getLsbD (8 * k + i) := by
  simp [byteOf]

theorem toNat_byteOf (x : BitVec w) (k : Nat) : (byteOf x k).toNat = x.toNat / 256 ^ k % 256 := by
  rw [byteOf, BitVec.extractLsb'_toNat, Nat.shiftRight_eq_div_pow, Nat.pow_mul]

/-- A word of at most `n` bytes is determined by its `n` lowest bytes. -/
theorem ext_byteOf {n : Nat} (hw : w ≤ 8 * n) {x y : BitVec w}
    (h : ∀ k < n, byteOf x k = byteOf y k) : x = y := by
  apply BitVec.eq_of_getLsbD_eq
  intro i hi
  have hmod := Nat.mod_lt i (by decide : 0 < 8)
  have hbit := congrArg (fun b : Byte => b[i % 8]) (h (i / 8) (by omega))
  have hpos : 8 * (i / 8) + i % 8 = i := by omega
  simpa only [getElem_byteOf _ _ hmod, hpos] using hbit

theorem byteOf_zero (k : Nat) : byteOf (0 : BitVec w) k = 0 := BitVec.extractLsb'_zero

theorem byteOf_or (x y : BitVec w) (k : Nat) : byteOf (x ||| y) k = byteOf x k ||| byteOf y k := by
  apply BitVec.eq_of_getElem_eq
  intro i hi
  simp [getElem_byteOf]

theorem byteOf_and (x y : BitVec w) (k : Nat) : byteOf (x &&& y) k = byteOf x k &&& byteOf y k := by
  apply BitVec.eq_of_getElem_eq
  intro i hi
  simp [getElem_byteOf]

theorem byteOf_ushiftRight (x : BitVec w) (j k : Nat) :
    byteOf (x >>> (8 * j)) k = byteOf x (j + k) := by
  apply BitVec.eq_of_getElem_eq
  intro i hi
  have hpos : 8 * j + (8 * k + i) = 8 * (j + k) + i := by omega
  simp [getElem_byteOf, hpos]

theorem byteOf_shiftLeft_lt (x : BitVec w) {j k : Nat} (hk : k < j) :
    byteOf (x <<< (8 * j)) k = 0 := by
  apply BitVec.eq_of_getElem_eq
  intro i hi
  have hlow : 8 * k + i < 8 * j := by omega
  simp [getElem_byteOf, hlow]

theorem byteOf_shiftLeft_ge (x : BitVec w) {j k : Nat} (hj : j ≤ k) (hk : 8 * (k + 1) ≤ w) :
    byteOf (x <<< (8 * j)) k = byteOf x (k - j) := by
  apply BitVec.eq_of_getElem_eq
  intro i hi
  have hhigh : ¬ 8 * k + i < 8 * j := by omega
  have hw : 8 * k + i < w := by omega
  have hpos : 8 * k + i - 8 * j = 8 * (k - j) + i := by omega
  simp only [getElem_byteOf _ _ hi, BitVec.getLsbD_shiftLeft, hw, hhigh, hpos, decide_true,
    decide_false, Bool.not_false, Bool.true_and]

theorem byteOf_setWidth (x : BitVec w) {k : Nat} (hk : 8 * (k + 1) ≤ w') :
    byteOf (x.setWidth w') k = byteOf x k := by
  apply BitVec.eq_of_getElem_eq
  intro i hi
  have hw : 8 * k + i < w' := by omega
  simp [getElem_byteOf, hw]

theorem byteOf_of_width_le (x : BitVec w) {k : Nat} (hw : w ≤ 8 * k) : byteOf x k = 0 := by
  apply BitVec.eq_of_getElem_eq
  intro i hi
  simp [getElem_byteOf, BitVec.getLsbD_of_ge x (8 * k + i) (by omega)]

theorem byteOf_signExtend (x : BitVec w) {k : Nat} (hk : 8 * (k + 1) ≤ w) (hw : w ≤ w') :
    byteOf (x.signExtend w') k = byteOf x k := by
  apply BitVec.eq_of_getElem_eq
  intro i hi
  have hlow : 8 * k + i < w := by omega
  have hhigh : 8 * k + i < w' := by omega
  simp only [getElem_byteOf _ _ hi, BitVec.getLsbD_signExtend, hlow, hhigh, decide_true, if_true,
    Bool.true_and]

@[simp] theorem byteOf_byte_zero (b : Byte) : byteOf b 0 = b := by
  apply BitVec.eq_of_getElem_eq
  intro i hi
  simp [getElem_byteOf, BitVec.getLsbD_eq_getElem hi]

/-- `0xFF` at the bytes that satisfy `p`, and what it selects. -/
theorem select_byte (a b : Byte) (p : Prop) [Decidable p] :
    ((a &&& if p then BitVec.allOnes 8 else 0) ||| (b &&& if p then 0 else BitVec.allOnes 8)) =
      if p then a else b := by
  split <;> simp only [BitVec.ofNat_eq_ofNat, BitVec.and_allOnes, BitVec.and_zero, BitVec.or_zero,
    BitVec.zero_or]

/-- Truncating to a byte takes byte `0`. -/
theorem setWidth_eq_byteOf (x : BitVec w) : x.setWidth 8 = byteOf x 0 := by
  apply BitVec.eq_of_getElem_eq
  intro i hi
  simp [getElem_byteOf]

/-- A byte moved to position `j` of a word. -/
theorem byteOf_placed (b : Byte) {j k : Nat} (hk : 8 * (k + 1) ≤ w) :
    byteOf (b.setWidth w <<< (8 * j)) k = if k = j then b else 0 := by
  rcases Nat.lt_or_ge k j with hlt | hge
  · rw [byteOf_shiftLeft_lt _ hlt, if_neg (by omega)]
  · rw [byteOf_shiftLeft_ge _ hge hk, byteOf_setWidth b (by omega)]
    by_cases heq : k = j
    · rw [if_pos heq, heq, Nat.sub_self, byteOf_byte_zero]
    · rw [if_neg heq, byteOf_of_width_le b (by omega)]

end byteOf

/-! ## The number made of some bytes -/

theorem leValue_congr {f g : Nat → Byte} {n : Nat} (h : ∀ k < n, f k = g k) :
    leValue f n = leValue g n := by
  induction n with
  | zero => rfl
  | succ n ih =>
    rw [leValue, leValue, h n (Nat.lt_succ_self n), ih fun k hk => h k (Nat.lt_succ_of_lt hk)]

theorem leValue_lt (f : Nat → Byte) (n : Nat) : leValue f n < 256 ^ n := by
  induction n with
  | zero => simp [leValue]
  | succ n ih =>
    have hb : (f n).toNat ≤ 255 := by have := (f n).isLt; omega
    have hmul : (f n).toNat * 256 ^ n ≤ 255 * 256 ^ n := Nat.mul_le_mul_right _ hb
    rw [leValue, Nat.pow_succ]
    omega

theorem leValue_div_mod (f : Nat → Byte) {n k : Nat} (hk : k < n) :
    leValue f n / 256 ^ k % 256 = (f k).toNat := by
  induction n with
  | zero => omega
  | succ n ih =>
    rw [leValue]
    by_cases hkn : k = n
    · subst hkn
      rw [Nat.add_mul_div_right _ _ (by positivity), Nat.div_eq_of_lt (leValue_lt f k),
        Nat.zero_add, Nat.mod_eq_of_lt (f k).isLt]
    · have hsplit : 256 ^ n = 256 ^ k * (256 * 256 ^ (n - k - 1)) := by
        rw [← Nat.pow_succ', ← Nat.pow_add]
        congr 1
        omega
      have hmul : (f n).toNat * 256 ^ n = 256 ^ k * (256 * ((f n).toNat * 256 ^ (n - k - 1))) := by
        rw [hsplit]
        ring
      rw [hmul, Nat.add_mul_div_left _ _ (by positivity), Nat.add_mul_mod_self_left, ih (by omega)]

/-- **The bytes of `leValue f n` are those of `f`.** -/
theorem byteOf_ofNat_leValue {w n k : Nat} (f : Nat → Byte) (hk : k < n) (hw : 8 * n ≤ w) :
    byteOf (BitVec.ofNat w (leValue f n)) k = f k := by
  apply BitVec.eq_of_toNat_eq
  have hlt : leValue f n < 2 ^ w := by
    calc leValue f n < 256 ^ n := leValue_lt f n
      _ = 2 ^ (8 * n) := by rw [Nat.pow_mul]
      _ ≤ 2 ^ w := Nat.pow_le_pow_right (by decide) hw
  rw [toNat_byteOf, BitVec.toNat_ofNat, Nat.mod_eq_of_lt hlt, leValue_div_mod f hk]

end Acso.Lib
