import Mathlib.Logic.Function.Iterate
import Acso.Lib.Traces

/-!
# Simulation

`S.SimulatedBy P next R`: where a step of `S` satisfies `P`, one application of `next` keeps up
with it, as far as the relation `R` can tell.  Then the iterates of `next` keep up with the runs
of `S` along `P` (`SimulatedBy.run`); and if it keeps up with no other step, they do so all the
way exactly along these runs (`keepsUp_iff_along`).
-/

namespace Acso.Lib.System

variable {σ ℓ τ : Type} (S : System σ ℓ)

/-- One application of `next` for each step with `P`. -/
def SimulatedBy (P : σ → ℓ → Prop) (next : τ → τ) (R : σ → τ → Prop) : Prop :=
  ∀ s l s' t, R s t → P s l → S.step s l = some s' → R s' (next t)

namespace SimulatedBy

variable {S} {P : σ → ℓ → Prop} {next : τ → τ} {R : σ → τ → Prop}

/-- **Runs are kept up with.** -/
theorem run (h : S.SimulatedBy P next R) {s s' : σ} {t : τ} {ls : List ℓ} (hR : R s t)
    (hP : S.Along P s ls) (hs' : S.run s ls = some s') : R s' (next^[ls.length] t) := by
  induction ls generalizing s t with
  | nil =>
    obtain rfl := Option.some.inj hs'
    exact hR
  | cons l ls ih =>
    obtain ⟨r, hr, hrest⟩ := S.run_cons_eq_some.mp hs'
    rw [List.length_cons, Function.iterate_succ_apply]
    exact ih (h s l r t hR hP.1 hr) (hP.2 r hr) hrest

end SimulatedBy

/-- The iterates of `next` from `t` keep up with every part of the run. -/
def KeepsUp (next : τ → τ) (R : σ → τ → Prop) (s : σ) (t : τ) (ls : List ℓ) : Prop :=
  ∀ k ≤ ls.length, ∀ r, S.run s (ls.take k) = some r → R r (next^[k] t)

theorem keepsUp_cons {next : τ → τ} {R : σ → τ → Prop} {s s' : σ} {t : τ} {l : ℓ} {ls : List ℓ}
    (hs' : S.step s l = some s') :
    S.KeepsUp next R s t (l :: ls) ↔ R s t ∧ S.KeepsUp next R s' (next t) ls := by
  have hrun : ∀ k r, S.run s ((l :: ls).take (k + 1)) = some r ↔ S.run s' (ls.take k) = some r := by
    intro k r
    rw [List.take_succ_cons, S.run_cons_eq_some, hs']
    simp
  constructor
  · intro h
    refine ⟨h 0 (Nat.zero_le _) s rfl, ?_⟩
    intro k hk r hr
    exact h (k + 1) (Nat.succ_le_succ hk) r ((hrun k r).mpr hr)
  · rintro ⟨hR, h⟩ k hk r hr
    cases k with
    | zero => exact Option.some.inj hr ▸ hR
    | succ k => exact h k (Nat.le_of_succ_le_succ hk) r ((hrun k r).mp hr)

theorem KeepsUp.start {next : τ → τ} {R : σ → τ → Prop} {s : σ} {t : τ} {ls : List ℓ}
    (h : S.KeepsUp next R s t ls) : R s t := h 0 (Nat.zero_le _) s rfl

/-- **Exactly these runs are kept up with** all the way. -/
theorem keepsUp_iff_along {P : σ → ℓ → Prop} {next : τ → τ} {R : σ → τ → Prop}
    (hstep : ∀ s l s' t, R s t → S.step s l = some s' → (R s' (next t) ↔ P s l)) {s s' : σ} {t : τ}
    {ls : List ℓ} (hR : R s t) (hs' : S.run s ls = some s') :
    S.KeepsUp next R s t ls ↔ S.Along P s ls := by
  induction ls generalizing s t with
  | nil =>
    refine iff_of_true ?_ trivial
    intro k hk r hr
    obtain rfl := Nat.le_zero.mp hk
    exact Option.some.inj hr ▸ hR
  | cons l ls ih =>
    obtain ⟨r, hr, hrest⟩ := S.run_cons_eq_some.mp hs'
    rw [S.keepsUp_cons hr, S.along_cons_of_step hr, ← hstep s l r t hR hr]
    constructor
    · rintro ⟨-, h⟩
      exact ⟨h.start, (ih h.start hrest).mp h⟩
    · rintro ⟨hR', h⟩
      exact ⟨hR, (ih hR' hrest).mpr h⟩

end Acso.Lib.System
