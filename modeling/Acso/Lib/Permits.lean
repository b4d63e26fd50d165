import Mathlib.Algebra.BigOperators.Group.Finset.Piecewise
import Mathlib.Algebra.Order.BigOperators.Group.Finset
import Acso.Lib.System

/-!
# Permits

What a counting semaphore is for: some permits, which `n` holders take and give.  A permit is
taken only when there is one.

* `total_run`: permits are neither made nor lost; those that are free and those that are held
  add up to the same number all along.
* `free_nonneg_run`: no permit is taken that is not there.
* `holders_le_total`: where nobody has given more than taken, no more holders have one than
  there are permits.
-/

namespace Acso.Lib

/-- The free permits, and what each holder has taken less what it has given. -/
structure Permits (n : Nat) where
  free : Int
  held : Fin n → Int

namespace Permits

inductive Event (n : Nat)
  | take (i : Fin n)
  | give (i : Fin n)

variable {n : Nat}

/-- Adds `d` to what holder `i` has, and takes it from the free permits. -/
def move (p : Permits n) (i : Fin n) (d : Int) : Permits n :=
  ⟨p.free - d, Function.update p.held i (p.held i + d)⟩

def step (p : Permits n) : Event n → Option (Permits n)
  | .take i => if 0 < p.free then some (p.move i 1) else none
  | .give i => some (p.move i (-1))

def system (n : Nat) : System (Permits n) (Event n) := ⟨step⟩

/-- All permits, free or held. -/
def total (p : Permits n) : Int := p.free + ∑ i, p.held i

/-- Nothing has been taken yet. -/
def init (n : Nat) (count : Int) : Permits n := ⟨count, fun _ => 0⟩

@[simp] theorem total_init (n : Nat) (count : Int) : (init n count).total = count := by
  simp [total, init]

theorem total_move (p : Permits n) (i : Fin n) (d : Int) : (p.move i d).total = p.total := by
  have hsum : ∑ j, (p.move i d).held j = ∑ j, p.held j + d := by
    simp only [move]
    rw [Finset.sum_update_of_mem (Finset.mem_univ i), ← Finset.erase_eq,
      ← Finset.add_sum_erase _ _ (Finset.mem_univ i)]
    omega
  simp only [total, hsum]
  simp only [move]
  omega

/-- **What a step can do.** -/
theorem step_cases {p p' : Permits n} {e : Event n} (h : (system n).step p e = some p') :
    (∃ i, e = .take i ∧ 0 < p.free ∧ p' = p.move i 1) ∨
      ∃ i, e = .give i ∧ p' = p.move i (-1) := by
  change p.step e = some p' at h
  cases e with
  | take i =>
    obtain ⟨hfree, hp'⟩ := Option.ite_none_right_eq_some.mp h
    exact .inl ⟨i, rfl, hfree, (Option.some.inj hp').symm⟩
  | give i => exact .inr ⟨i, rfl, (Option.some.inj h).symm⟩

/-- **Permits are neither made nor lost.** -/
theorem total_run {p p' : Permits n} {es : List (Event n)} (h : (system n).run p es = some p') :
    p'.total = p.total := by
  have hstep : ∀ q e q', q.total = p.total → (system n).step q e = some q' →
      q'.total = p.total := by
    intro q e q' hq hstep
    rcases step_cases hstep with ⟨i, -, -, rfl⟩ | ⟨i, -, rfl⟩
    all_goals rw [total_move, hq]
  exact (system n).run_invariant hstep rfl h

/-- **No permit is taken that is not there.** -/
theorem free_nonneg_run {p p' : Permits n} {es : List (Event n)} (hp : 0 ≤ p.free)
    (h : (system n).run p es = some p') : 0 ≤ p'.free := by
  have hstep : ∀ q e q', 0 ≤ q.free → (system n).step q e = some q' → 0 ≤ q'.free := by
    intro q e q' hq hstep
    rcases step_cases hstep with ⟨i, -, hfree, rfl⟩ | ⟨i, -, rfl⟩
    all_goals
      simp only [move]
      omega
  exact (system n).run_invariant hstep hp h

/-- **Holders are at most as many as permits**, if nobody has given more than taken. -/
theorem holders_le_total {p : Permits n} (hfree : 0 ≤ p.free) (hheld : ∀ i, 0 ≤ p.held i)
    (holders : Finset (Fin n)) (hh : ∀ i ∈ holders, 0 < p.held i) :
    (holders.card : Int) ≤ p.total := by
  have hcard : (holders.card : Int) ≤ ∑ i ∈ holders, p.held i := by
    have hsmul := Finset.card_nsmul_le_sum holders p.held 1 fun i hi => hh i hi
    simpa using hsmul
  have hsub : ∑ i ∈ holders, p.held i ≤ ∑ i, p.held i :=
    Finset.sum_le_sum_of_subset_of_nonneg (Finset.subset_univ _) fun i _ _ => hheld i
  rw [total]
  omega

end Permits

end Acso.Lib
