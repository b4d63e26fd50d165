import Mathlib.Algebra.BigOperators.Group.Finset.Piecewise
import Mathlib.Algebra.Order.BigOperators.Group.Finset

/-!
# Tallies

A `tally` adds up what each of `n` places counts for.

* `tally_update`: what changing one place does to it.
* `tally_le_add`: how much it can grow when all places change.
* `tally_eq_zero`, `tally_eq_size`: when it is as small, or as large, as it can be.
-/

namespace Acso.Lib

variable {n : Nat} {α : Type}

/-- The sum of `p` over a family. -/
def tally (p : α → Nat) (f : Fin n → α) : Nat := ∑ i, p (f i)

theorem tally_update (p : α → Nat) (f : Fin n → α) (i : Fin n) (b : α) :
    tally p (Function.update f i b) + p (f i) = tally p f + p b := by
  have hsplit : ∀ g : Fin n → α, tally p g = p (g i) + ∑ j ∈ Finset.univ.erase i, p (g j) :=
    fun g => (Finset.add_sum_erase _ _ (Finset.mem_univ i)).symm
  have hrest : ∑ j ∈ Finset.univ.erase i, p (Function.update f i b j) =
      ∑ j ∈ Finset.univ.erase i, p (f j) := by
    refine Finset.sum_congr rfl ?_
    intro j hj
    rw [Function.update_of_ne (Finset.ne_of_mem_erase hj)]
  rw [hsplit, hsplit f, hrest, Function.update_self]
  omega

theorem tally_eq_zero {p : α → Nat} {f : Fin n → α} : tally p f = 0 ↔ ∀ i, p (f i) = 0 := by
  simp [tally]

/-- Where each place counts for at most `c` more, the tally is at most `n * c` larger. -/
theorem tally_le_add {p : α → Nat} {f g : Fin n → α} {c : Nat} (h : ∀ i, p (g i) ≤ p (f i) + c) :
    tally p g ≤ tally p f + n * c := by
  have hsum : ∑ i, p (g i) ≤ ∑ i, (p (f i) + c) := Finset.sum_le_sum fun i _ => h i
  simpa [Finset.sum_add_distrib, tally] using hsum

theorem tally_congr {p : α → Nat} {f g : Fin n → α} (h : ∀ i, p (g i) = p (f i)) :
    tally p g = tally p f := Finset.sum_congr rfl fun i _ => h i

/-- Where each place counts for one at most, the tally is full when all of them count. -/
theorem tally_eq_size {p : α → Nat} (hp : ∀ a, p a ≤ 1) {f : Fin n → α} :
    n ≤ tally p f ↔ ∀ i, p (f i) = 1 := by
  constructor
  · intro hfull i
    by_contra hi
    have hlt : tally p f < ∑ _i : Fin n, 1 :=
      Finset.sum_lt_sum (fun j _ => hp (f j))
        ⟨i, Finset.mem_univ i, lt_of_le_of_ne (hp (f i)) hi⟩
    have hones : ∑ _i : Fin n, 1 = n := by simp
    omega
  · intro hall
    simp [tally, hall]

end Acso.Lib
