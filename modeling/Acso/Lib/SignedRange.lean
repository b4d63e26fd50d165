import Mathlib.Tactic.Linarith
import Mathlib.Tactic.Ring

/-!
# A loop over signed numbers with an inclusive bound

`for (a = start; a <= stop; a += c)` with a counter that wraps around.  As long as no number
of the range is followed by one that does not fit, the loop visits exactly
`start, start + c, …` up to `stop` (`rangeLoop_visits`).  If `c` divides the modulus and one
number is followed by one that does not fit, the loop never ends (`rangeLoop_endless`): what
the counter wraps around to is a number of the same residue, so never beyond `stop`.
-/

namespace Acso.Lib

variable {w : Nat}

/-- The numbers the loop visits; `none` if it is still running when the fuel is used up. -/
def rangeLoop (c : Int) (stop : BitVec w) : Nat → BitVec w → Option (List (BitVec w))
  | 0, _ => none
  | fuel + 1, a =>
    if a.sle stop then (rangeLoop c stop fuel (a + BitVec.ofInt w c)).map (a :: ·) else some []

/-- Every number of the range is followed by one that fits. -/
def RangeFits (c start stop : Int) (w : Nat) : Prop :=
  ∀ k : Nat, start + c * k ≤ stop → start + c * (k + 1) < 2 ^ (w - 1)

/-- The numbers are `start, start + c, …`, up to `stop`. -/
structure Visits (c : Int) (start stop : Int) (l : List (BitVec w)) : Prop where
  getElem : ∀ i (h : i < l.length), l[i].toInt = start + c * i
  le : ∀ i, i < l.length → start + c * i ≤ stop
  last : stop < start + c * l.length

theorem toInt_add_ofInt (a : BitVec w) (c : Int) :
    (a + BitVec.ofInt w c).toInt = (a.toInt + c).bmod (2 ^ w) := by
  rw [BitVec.toInt_add, BitVec.toInt_ofInt, Int.add_bmod_bmod]

theorem toInt_add_ofInt_of_lt {a : BitVec w} {c : Int} (hc : 0 < c)
    (h : a.toInt + c < 2 ^ (w - 1)) : (a + BitVec.ofInt w c).toInt = a.toInt + c := by
  rcases Nat.eq_zero_or_pos w with rfl | hw
  · have hzero : a.toInt = 0 := by rw [BitVec.eq_nil a]; rfl
    rw [hzero, Nat.zero_sub, pow_zero] at h
    omega
  · have hlow := BitVec.le_toInt a
    have htwo : (2 : Int) ^ w = 2 * 2 ^ (w - 1) := by
      rw [← pow_succ', Nat.sub_add_cancel hw]
    rw [toInt_add_ofInt]
    apply Int.bmod_eq_of_le_mul_two
    · push_cast
      omega
    · push_cast
      omega

/-! ## A range that fits -/

theorem Visits.nil {c start stop : Int} (h : stop < start) :
    Visits c start stop ([] : List (BitVec w)) where
  getElem i hi := absurd hi (Nat.not_lt_zero i)
  le i hi := absurd hi (Nat.not_lt_zero i)
  last := by simpa using h

theorem Visits.cons {c stop : Int} {a : BitVec w} {l : List (BitVec w)} (ha : a.toInt ≤ stop)
    (h : Visits c (a.toInt + c) stop l) : Visits c a.toInt stop (a :: l) where
  getElem i hi := by
    cases i with
    | zero => simp
    | succ i =>
      rw [List.getElem_cons_succ, h.getElem i (Nat.lt_of_succ_lt_succ hi)]
      push_cast
      ring
  le i hi := by
    cases i with
    | zero => simpa using ha
    | succ i =>
      have hle := h.le i (Nat.lt_of_succ_lt_succ hi)
      push_cast
      linarith
  last := by
    have hlast := h.last
    rw [List.length_cons]
    push_cast
    linarith

theorem RangeFits.tail {c start stop : Int} (h : RangeFits c start stop w) :
    RangeFits c (start + c) stop w := by
  intro k hk
  have hnext := h (k + 1) (by push_cast; linarith)
  push_cast at hnext
  linarith

theorem RangeFits.next {c : Int} (hc : 0 < c) {stop : BitVec w} {a : BitVec w}
    (h : RangeFits c a.toInt stop.toInt w) (hle : a.toInt ≤ stop.toInt) :
    (a + BitVec.ofInt w c).toInt = a.toInt + c := by
  have hfit := h 0 (by simpa using hle)
  exact toInt_add_ofInt_of_lt hc (by simpa using hfit)

/-- A range that fits has an end. -/
theorem rangeLoop_ends {c : Int} (hc : 0 < c) {stop : BitVec w} (n : Nat) {a : BitVec w}
    (hn : stop.toInt < a.toInt + n) (hfits : RangeFits c a.toInt stop.toInt w) :
    ∃ l, rangeLoop c stop (n + 1) a = some l := by
  induction n generalizing a with
  | zero =>
    have hlt : stop.toInt < a.toInt := by simpa using hn
    refine ⟨[], ?_⟩
    rw [rangeLoop, if_neg]
    rw [BitVec.sle_iff_toInt_le]
    exact Int.not_le.mpr hlt
  | succ n ih =>
    rw [rangeLoop]
    by_cases hle : a.toInt ≤ stop.toInt
    · have hnext := hfits.next hc hle
      obtain ⟨l, hl⟩ := ih (a := a + BitVec.ofInt w c) (by rw [hnext]; push_cast at hn; omega)
        (by rw [hnext]; exact hfits.tail)
      exact ⟨a :: l, by rw [if_pos (BitVec.sle_iff_toInt_le.mpr hle), hl, Option.map_some]⟩
    · exact ⟨[], if_neg (by rwa [BitVec.sle_iff_toInt_le])⟩

/-- More fuel changes nothing. -/
theorem rangeLoop_mono {c : Int} {stop : BitVec w} {fuel fuel' : Nat} (hfuel : fuel ≤ fuel')
    {a : BitVec w} {l : List (BitVec w)} (h : rangeLoop c stop fuel a = some l) :
    rangeLoop c stop fuel' a = some l := by
  induction fuel generalizing fuel' a l with
  | zero => cases h
  | succ fuel ih =>
    obtain ⟨fuel', rfl⟩ := Nat.exists_eq_succ_of_ne_zero (Nat.ne_zero_of_lt hfuel)
    rw [rangeLoop] at h ⊢
    by_cases hle : a.sle stop = true
    · rw [if_pos hle, Option.map_eq_some_iff] at h
      obtain ⟨l, hl, rfl⟩ := h
      rw [if_pos hle, ih (Nat.le_of_succ_le_succ hfuel) hl, Option.map_some]
    · rw [if_neg hle] at h ⊢
      exact h

/-- **A range that fits is visited from its start to its end.** -/
theorem rangeLoop_visits {c : Int} (hc : 0 < c) {stop : BitVec w} {fuel : Nat} {a : BitVec w}
    (hfits : RangeFits c a.toInt stop.toInt w) {l : List (BitVec w)}
    (h : rangeLoop c stop fuel a = some l) : Visits c a.toInt stop.toInt l := by
  induction fuel generalizing a l with
  | zero => cases h
  | succ fuel ih =>
    rw [rangeLoop] at h
    by_cases hle : a.toInt ≤ stop.toInt
    · rw [if_pos (BitVec.sle_iff_toInt_le.mpr hle), Option.map_eq_some_iff] at h
      obtain ⟨l, hl, rfl⟩ := h
      have hnext := hfits.next hc hle
      have hvisits := ih (by rw [hnext]; exact hfits.tail) hl
      rw [hnext] at hvisits
      exact hvisits.cons hle
    · rw [if_neg (by rwa [BitVec.sle_iff_toInt_le])] at h
      obtain rfl := Option.some.inj h
      exact .nil (Int.not_le.mp hle)

/-! ## A range that does not fit -/

/-- The counter keeps its residue, also when it wraps around. -/
theorem dvd_toInt_add_ofInt {c : Int} (hc : c ∣ 2 ^ w) {a : BitVec w} {x : Int}
    (h : c ∣ a.toInt - x) : c ∣ (a + BitVec.ofInt w c).toInt - x := by
  have hwrap : c ∣ (a.toInt + c).bmod (2 ^ w) - (a.toInt + c) := by
    have hmod : ((2 ^ w : Nat) : Int) ∣ (a.toInt + c).bmod (2 ^ w) - (a.toInt + c) :=
      Int.dvd_bmod_sub_self
    push_cast at hmod
    exact hc.trans hmod
  rw [toInt_add_ofInt]
  have hsum : (a.toInt + c).bmod (2 ^ w) - x =
      ((a.toInt + c).bmod (2 ^ w) - (a.toInt + c)) + (a.toInt - x) + c := by ring
  rw [hsum]
  exact Int.dvd_add (Int.dvd_add hwrap h) (Int.dvd_refl c)

/-- **The loop never ends** if some number of the range is followed by one that does not
fit: of its residue it is the largest that there is. -/
theorem rangeLoop_endless {c : Int} (hc : 0 < c) (hdvd : c ∣ 2 ^ w) {stop : BitVec w} {x : Int}
    (hx : x ≤ stop.toInt) (hlast : 2 ^ (w - 1) ≤ x + c) (fuel : Nat) {a : BitVec w}
    (ha : c ∣ a.toInt - x) : rangeLoop c stop fuel a = none := by
  induction fuel generalizing a with
  | zero => rfl
  | succ fuel ih =>
    have hle : a.toInt ≤ x := by
      obtain ⟨q, hq⟩ := ha
      have hbound : a.toInt < 2 ^ (w - 1) := BitVec.toInt_lt
      have hq' : c * q < c * 1 := by rw [← hq]; linarith
      have hq'' : q < 1 := lt_of_mul_lt_mul_left hq' hc.le
      nlinarith
    rw [rangeLoop, if_pos (BitVec.sle_iff_toInt_le.mpr (hle.trans hx)),
      ih (dvd_toInt_add_ofInt hdvd ha), Option.map_none]

/-! ## What is visited -/

namespace Visits

variable {c start stop : Int} {l : List (BitVec w)} (h : Visits c start stop l) (hc : 0 < c)
include h hc

theorem lt_length {k : Nat} (hk : start + c * k ≤ stop) : k < l.length := by
  have hlt : c * k < c * l.length := by linarith [h.last]
  exact_mod_cast lt_of_mul_lt_mul_left hlt hc.le

/-- A number is visited exactly if it belongs to the range. -/
theorem mem_iff (x : Int) : x ∈ l.map BitVec.toInt ↔ ∃ k : Nat, x = start + c * k ∧ x ≤ stop := by
  rw [List.mem_map]
  constructor
  · rintro ⟨a, ha, rfl⟩
    obtain ⟨i, hi, rfl⟩ := List.mem_iff_getElem.mp ha
    refine ⟨i, h.getElem i hi, ?_⟩
    rw [h.getElem i hi]
    exact h.le i hi
  · rintro ⟨k, rfl, hk⟩
    have hlt := h.lt_length hc hk
    exact ⟨l[k], List.getElem_mem hlt, h.getElem k hlt⟩

/-- The numbers are visited in their order, so each once. -/
theorem pairwise_lt : (l.map BitVec.toInt).Pairwise (· < ·) := by
  rw [List.pairwise_iff_getElem]
  intro i j hi hj hij
  rw [List.length_map] at hi hj
  rw [List.getElem_map, List.getElem_map, h.getElem i hi, h.getElem j hj]
  have hlt : c * i < c * j := mul_lt_mul_of_pos_left (by exact_mod_cast hij) hc
  linarith

end Visits

end Acso.Lib
