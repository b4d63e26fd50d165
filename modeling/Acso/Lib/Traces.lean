import Acso.Lib.System

/-!
# Traces

`S.Traces Inv T f g`: seen through `f`, a step of `S` labelled `l` from a state `s` with `Inv`
is the run `g s l` of `T`.  Then a run of `S` is a run of `T`, the one that it reports when it
reports `g` (`Traces.run`), so what holds of the runs of `T` holds of what `S` reports.
-/

namespace Acso.Lib.System

variable {σ ℓ σ' ℓ' : Type} (S : System σ ℓ)

theorem run_append_eq_some {s t : σ} {ls ks : List ℓ} :
    S.run s (ls ++ ks) = some t ↔ ∃ r, S.run s ls = some r ∧ S.run r ks = some t := by
  induction ls generalizing s with
  | nil => simp
  | cons l ls ih =>
    simp only [List.cons_append, S.run_cons_eq_some, ih]
    constructor
    · rintro ⟨s', hs', r, hr, ht⟩
      exact ⟨r, ⟨s', hs', hr⟩, ht⟩
    · rintro ⟨r, ⟨s', hs', hr⟩, ht⟩
      exact ⟨s', hs', r, hr, ht⟩

/-- Each step of `S` is the run of `T` that `g` names. -/
def Traces (Inv : σ → Prop) (T : System σ' ℓ') (f : σ → σ') (g : σ → ℓ → List ℓ') : Prop :=
  ∀ s l s', Inv s → S.step s l = some s' → T.run (f s) (g s l) = some (f s')

/-- **A run of `S` reports a run of `T`.** -/
theorem Traces.run {S : System σ ℓ} {Inv : σ → Prop} {T : System σ' ℓ'} {f : σ → σ'}
    {g : σ → ℓ → List ℓ'} (h : S.Traces Inv T f g)
    (hstep : ∀ s l s', Inv s → S.step s l = some s' → Inv s') {s t : σ} {ls : List ℓ} (hs : Inv s)
    (ht : S.run s ls = some t) : T.run (f s) (S.log g s ls) = some (f t) := by
  induction ls generalizing s with
  | nil =>
    obtain rfl := Option.some.inj ht
    rfl
  | cons l ls ih =>
    obtain ⟨s', hs', ht'⟩ := S.run_cons_eq_some.mp ht
    rw [log, hs', T.run_append_eq_some]
    exact ⟨f s', h s l s' hs hs', ih (hstep s l s' hs hs') ht'⟩

/-- **Invariants that need the steps to satisfy `P`.** -/
theorem along_run {Inv : σ → Prop} {P : σ → ℓ → Prop}
    (hstep : ∀ s l s', Inv s → P s l → S.step s l = some s' → Inv s') :
    ∀ {s t : σ} {ls : List ℓ}, Inv s → S.Along P s ls → S.run s ls = some t → Inv t := by
  intro s t ls
  induction ls generalizing s with
  | nil =>
    intro hs _ ht
    exact Option.some.inj ht ▸ hs
  | cons l ls ih =>
    rintro hs ⟨hl, hrest⟩ ht
    obtain ⟨s', hs', ht'⟩ := S.run_cons_eq_some.mp ht
    exact ih (hstep s l s' hs hl hs') (hrest s' hs') ht'

theorem along_cons_of_step {P : σ → ℓ → Prop} {s s' : σ} {l : ℓ} {ls : List ℓ}
    (h : S.step s l = some s') : S.Along P s (l :: ls) ↔ P s l ∧ S.Along P s' ls := by
  simp [Along, h]

theorem along_cons_of_stuck {P : σ → ℓ → Prop} {s : σ} {l : ℓ} {ls : List ℓ}
    (h : S.step s l = none) : S.Along P s (l :: ls) ↔ P s l := by
  simp [Along, h]

instance decidableAlong {P : σ → ℓ → Prop} [∀ s l, Decidable (P s l)] :
    (s : σ) → (ls : List ℓ) → Decidable (S.Along P s ls)
  | _, [] => isTrue trivial
  | s, l :: ls =>
    match h : S.step s l with
    | none => decidable_of_iff _ (S.along_cons_of_stuck h).symm
    | some s' =>
      have := decidableAlong (P := P) s' ls
      decidable_of_iff _ (S.along_cons_of_step h).symm

end Acso.Lib.System
