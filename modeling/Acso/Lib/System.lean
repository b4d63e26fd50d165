import Mathlib.Logic.Basic

/-!
# Labelled systems and their runs

A `System` has a partial step: `step s l` is the state after the labelled step
`l`, and `none` when `s` does not allow it.  The label fixes every choice the
step leaves open, so a run is a list of labels.

* `run`: the state after a list of steps.
* `log f`: what a run reports, step by step.
* `Visits Q`: every state a run passes through satisfies `Q`.
* `Along P`: every step of a run satisfies `P`, in the state it starts from.
* `run_invariant`: what one step keeps, a run keeps; `visits_of_invariant` and
  `log_invariant` say so of all its states and of what it has reported.
* `exists_final_run`: where runs are bounded, one of them comes to a state without a step.
* `length_add_measure`: where every step counts down by one, a run is as long as what it
  has counted.
* `countP_add_potential`: steps of one kind are paid for by a potential that only steps of
  another kind raise.
* `visits_iff_along`: when a step leads from a good state to a bad one exactly
  if it is a culprit, a run avoids the bad states exactly if it avoids the
  culprits.
* `along_of_along`: where the steps of a kind keep an invariant, runs of such steps have what
  follows from it.
* `Refines`, `RefinesOn`: each step of one system is one step or none of another, seen through
  a map of the states; so are the runs, and invariants carry over.
-/

namespace Acso.Lib

/-- A labelled transition system with a partial, deterministic step. -/
structure System (σ ℓ : Type) where
  step : σ → ℓ → Option σ

namespace System

variable {σ ℓ : Type} (S : System σ ℓ)

/-- The state after the steps `ls`, if each is allowed. -/
def run : σ → List ℓ → Option σ
  | s, [] => some s
  | s, l :: ls => (S.step s l).bind (fun s' => run s' ls)

/-- Every state of the run, the first and the last included, satisfies `Q`. -/
def Visits (Q : σ → Prop) : σ → List ℓ → Prop
  | s, [] => Q s
  | s, l :: ls => Q s ∧ ∀ s', S.step s l = some s' → Visits Q s' ls

/-- Every step of the run satisfies `P` in the state it starts from. -/
def Along (P : σ → ℓ → Prop) : σ → List ℓ → Prop
  | _, [] => True
  | s, l :: ls => P s l ∧ ∀ s', S.step s l = some s' → Along P s' ls

/-- What a run reports: `f s l` for every step it takes, in order. -/
def log {ε : Type} (f : σ → ℓ → List ε) : σ → List ℓ → List ε
  | _, [] => []
  | s, l :: ls =>
    match S.step s l with
    | some s' => f s l ++ log f s' ls
    | none => []

@[simp] theorem run_nil (s : σ) : S.run s [] = some s := rfl

theorem run_cons_eq_some {s t : σ} {l : ℓ} {ls : List ℓ} :
    S.run s (l :: ls) = some t ↔ ∃ s', S.step s l = some s' ∧ S.run s' ls = some t := by
  simp [run, Option.bind_eq_some_iff]

theorem run_concat {s t : σ} {l : ℓ} {ls : List ℓ} (h : S.run s ls = some t) :
    S.run s (ls ++ [l]) = S.step t l := by
  induction ls generalizing s with
  | nil =>
    obtain rfl := Option.some.inj h
    rw [List.nil_append, run]
    cases S.step s l <;> rfl
  | cons l' ls ih =>
    obtain ⟨r, hr, hrest⟩ := S.run_cons_eq_some.mp h
    rw [List.cons_append, run, hr, Option.bind_some, ih hrest]

/-- **Where runs are bounded**, one of them comes to a state without a step. -/
theorem exists_final_run {s : σ} {bound : Nat}
    (h : ∀ ls t, S.run s ls = some t → ls.length ≤ bound) :
    ∃ ls t, S.run s ls = some t ∧ ∀ l, S.step t l = none := by
  refine Classical.byContradiction fun hnone => ?_
  -- so every run can be prolonged
  have hlong : ∀ n, ∃ ls t, S.run s ls = some t ∧ ls.length = n := by
    intro n
    induction n with
    | zero => exact ⟨[], s, rfl, rfl⟩
    | succ n ih =>
      obtain ⟨ls, t, hrun, hlen⟩ := ih
      by_cases hstuck : ∀ l, S.step t l = none
      · exact absurd ⟨ls, t, hrun, hstuck⟩ hnone
      · obtain ⟨l, hl⟩ := Classical.not_forall.mp hstuck
        obtain ⟨t', ht'⟩ := Option.ne_none_iff_exists'.mp hl
        exact ⟨ls ++ [l], t', (S.run_concat hrun).trans ht', by rw [List.length_append, hlen]; rfl⟩
  obtain ⟨ls, t, hrun, hlen⟩ := hlong (bound + 1)
  have hle := h ls t hrun
  omega

/-- **Invariants pass from steps to runs.** -/
theorem run_invariant {Inv : σ → Prop}
    (hstep : ∀ s l s', Inv s → S.step s l = some s' → Inv s') :
    ∀ {s t : σ} {ls : List ℓ}, Inv s → S.run s ls = some t → Inv t := by
  intro s t ls
  induction ls generalizing s with
  | nil =>
    intro hs ht
    rw [run_nil] at ht
    exact Option.some.inj ht ▸ hs
  | cons l ls ih =>
    intro hs ht
    obtain ⟨s', hs', ht'⟩ := (S.run_cons_eq_some).mp ht
    exact ih (hstep s l s' hs hs') ht'

/-- **Invariants that mention what has been reported so far.** -/
theorem log_invariant {ε : Type} {f : σ → ℓ → List ε} {Inv : List ε → σ → Prop}
    (hstep : ∀ es s l s', Inv es s → S.step s l = some s' → Inv (es ++ f s l) s') :
    ∀ {es : List ε} {s t : σ} {ls : List ℓ}, Inv es s → S.run s ls = some t →
      Inv (es ++ S.log f s ls) t := by
  intro es s t ls
  induction ls generalizing es s with
  | nil =>
    intro hs ht
    rw [run_nil] at ht
    rw [log, List.append_nil]
    exact Option.some.inj ht ▸ hs
  | cons l ls ih =>
    intro hs ht
    obtain ⟨s', hs', ht'⟩ := (S.run_cons_eq_some).mp ht
    have hrest := ih (hstep es s l s' hs hs') ht'
    rw [log, hs']
    rwa [List.append_assoc] at hrest

/-- **A countdown.**  If every step lowers `μ` by one, `μ` counts the steps. -/
theorem length_add_measure (Inv : σ → Prop) (μ : σ → Nat)
    (hstep : ∀ s l s', Inv s → S.step s l = some s' → Inv s')
    (hdown : ∀ s l s', Inv s → S.step s l = some s' → μ s' + 1 = μ s) :
    ∀ {s t : σ} {ls : List ℓ}, Inv s → S.run s ls = some t → ls.length + μ t = μ s := by
  intro s t ls
  induction ls generalizing s with
  | nil =>
    intro _ ht
    rw [run_nil] at ht
    rw [Option.some.inj ht, List.length_nil, Nat.zero_add]
  | cons l ls ih =>
    intro hs ht
    obtain ⟨s', hs', ht'⟩ := (S.run_cons_eq_some).mp ht
    have hrest := ih (hstep s l s' hs hs') ht'
    have hone := hdown s l s' hs hs'
    rw [List.length_cons]
    omega

/-- **A potential.**  If `μ` pays for every step with `p`, and only a step with `q` raises it, by
`c` at most, then `μ` and the steps with `q` pay for all steps with `p`. -/
theorem countP_add_potential (Inv : σ → Prop) (μ : σ → Nat) (p q : ℓ → Bool) (c : Nat)
    (hstep : ∀ s l s', Inv s → S.step s l = some s' → Inv s')
    (hpay : ∀ s l s', Inv s → S.step s l = some s' →
      (if p l then 1 else 0) + μ s' ≤ μ s + (if q l then c else 0)) :
    ∀ {s t : σ} {ls : List ℓ}, Inv s → S.run s ls = some t →
      ls.countP p + μ t ≤ μ s + c * ls.countP q := by
  intro s t ls
  induction ls generalizing s with
  | nil =>
    intro _ ht
    rw [run_nil] at ht
    rw [Option.some.inj ht]
    simp
  | cons l ls ih =>
    intro hs ht
    obtain ⟨s', hs', ht'⟩ := (S.run_cons_eq_some).mp ht
    have hrest := ih (hstep s l s' hs hs') ht'
    have hone := hpay s l s' hs hs'
    have hgain : c * (if q l then 1 else 0) = if q l then c else 0 := by split <;> simp
    rw [List.countP_cons, List.countP_cons, Nat.mul_add, hgain]
    omega

theorem Visits.imp {S : System σ ℓ} {P Q : σ → Prop} (hPQ : ∀ s, P s → Q s) :
    ∀ {s : σ} {ls : List ℓ}, S.Visits P s ls → S.Visits Q s ls := by
  intro s ls
  induction ls generalizing s with
  | nil => exact hPQ s
  | cons l ls ih =>
    rintro ⟨hs, hrest⟩
    exact ⟨hPQ s hs, fun s' hs' => ih (hrest s' hs')⟩

/-- **Invariants hold in every state a run visits.** -/
theorem visits_of_invariant {Inv : σ → Prop}
    (hstep : ∀ s l s', Inv s → S.step s l = some s' → Inv s') :
    ∀ {s : σ} (ls : List ℓ), Inv s → S.Visits Inv s ls := by
  intro s ls
  induction ls generalizing s with
  | nil => exact fun hs => hs
  | cons l ls ih =>
    intro hs
    exact ⟨hs, fun s' hs' => ih (hstep s l s' hs hs')⟩

/-- Two step properties that agree wherever the invariant holds agree along
every run from there. -/
theorem along_congr (Inv : σ → Prop) {P Q : σ → ℓ → Prop}
    (hstep : ∀ s l s', Inv s → S.step s l = some s' → Inv s')
    (hPQ : ∀ s l, Inv s → (P s l ↔ Q s l)) :
    ∀ {s : σ} (ls : List ℓ), Inv s → (S.Along P s ls ↔ S.Along Q s ls) := by
  intro s ls
  induction ls generalizing s with
  | nil => exact fun _ => Iff.rfl
  | cons l ls ih =>
    intro hs
    simp only [Along, hPQ s l hs]
    exact and_congr_right fun _ =>
      forall₂_congr fun s' hs' => ih (hstep s l s' hs hs')

theorem along_true (s : σ) (ls : List ℓ) : S.Along (fun _ _ => True) s ls := by
  induction ls generalizing s with
  | nil => trivial
  | cons l ls ih => exact ⟨trivial, fun s' _ => ih s'⟩

/-- **Along with an invariant.**  Where the steps with `C` keep `Inv`, and the states with `Inv`
have `P` at every step, a run with `C` along it has `P` along it. -/
theorem along_of_along (Inv : σ → Prop) {C P : σ → ℓ → Prop}
    (hstep : ∀ s l s', Inv s → C s l → S.step s l = some s' → Inv s')
    (hP : ∀ s l, Inv s → P s l) :
    ∀ {s : σ} (ls : List ℓ), Inv s → S.Along C s ls → S.Along P s ls := by
  intro s ls
  induction ls generalizing s with
  | nil => exact fun _ _ => trivial
  | cons l ls ih =>
    rintro hs ⟨hC, hrest⟩
    exact ⟨hP s l hs, fun s' hs' => ih (hstep s l s' hs hC hs') (hrest s' hs')⟩

/-- What holds along a run holds along its end. -/
theorem along_of_run {P : σ → ℓ → Prop} {s t : σ} {ls ls' : List ℓ} (hrun : S.run s ls = some t)
    (h : S.Along P s (ls ++ ls')) : S.Along P t ls' := by
  induction ls generalizing s with
  | nil =>
    obtain rfl := Option.some.inj hrun
    exact h
  | cons l ls ih =>
    obtain ⟨s', hs', ht⟩ := S.run_cons_eq_some.mp hrun
    exact ih ht (h.2 s' hs')

/-- **Blame.**  If a step from a good state is bad exactly when it is a
culprit, then a run from a good state stays good exactly when none of its
steps is a culprit. -/
theorem visits_iff_along (Inv Bad : σ → Prop) (Culprit : σ → ℓ → Prop)
    (hstep : ∀ s l s', Inv s → S.step s l = some s' → Inv s')
    (hblame : ∀ s l s', Inv s → ¬ Bad s → S.step s l = some s' → (Bad s' ↔ Culprit s l)) :
    ∀ {s t : σ} {ls : List ℓ}, Inv s → ¬ Bad s → S.run s ls = some t →
      (S.Visits (fun s => ¬ Bad s) s ls ↔ S.Along (fun s l => ¬ Culprit s l) s ls) := by
  intro s t ls
  induction ls generalizing s with
  | nil => exact fun _ hb _ => ⟨fun _ => trivial, fun _ => hb⟩
  | cons l ls ih =>
    intro hs hb ht
    obtain ⟨s', hs', ht'⟩ := (S.run_cons_eq_some).mp ht
    have hi' := hstep s l s' hs hs'
    have hcul := hblame s l s' hs hb hs'
    simp only [Visits, Along, hs', Option.some.injEq, forall_eq']
    by_cases hb' : Bad s'
    · have hv : ¬ S.Visits (fun s => ¬ Bad s) s' ls := by
        cases ls with
        | nil => exact not_not_intro hb'
        | cons _ _ => exact fun h => h.1 hb'
      exact iff_of_false (fun h => hv h.2) (fun h => h.1 (hcul.mp hb'))
    · rw [ih hi' hb' ht']
      exact ⟨fun h => ⟨fun hc => hb' (hcul.mpr hc), h.2⟩, fun h => ⟨hb, h.2⟩⟩

/-! ## Refinement -/

/-- Through `f`, every step of `S` is a step of `T` or leaves its state alone. -/
def Refines {σ' ℓ' : Type} (T : System σ' ℓ') (f : σ → σ') : Prop :=
  ∀ s l s', S.step s l = some s' → f s' = f s ∨ ∃ k, T.step (f s) k = some (f s')

/-- The same, for the steps from states with `Inv`. -/
def RefinesOn {σ' ℓ' : Type} (Inv : σ → Prop) (T : System σ' ℓ') (f : σ → σ') : Prop :=
  ∀ s l s', Inv s → S.step s l = some s' → f s' = f s ∨ ∃ k, T.step (f s) k = some (f s')

/-- What the steps of `T` keep, the steps of `S` keep through `f`. -/
theorem RefinesOn.invariant_step {σ' ℓ' : Type} {Inv : σ → Prop} {T : System σ' ℓ'} {f : σ → σ'}
    (h : S.RefinesOn Inv T f) {Keep : σ' → Prop}
    (hstep : ∀ s l s', Keep s → T.step s l = some s' → Keep s') {s s' : σ} {l : ℓ} (hs : Inv s)
    (hkeep : Keep (f s)) (hs' : S.step s l = some s') : Keep (f s') := by
  rcases h s l s' hs hs' with heq | ⟨k, hk⟩
  · rwa [heq]
  · exact hstep _ k _ hkeep hk

/-- **A run of `S` is a run of `T`.** -/
theorem RefinesOn.run {σ' ℓ' : Type} {Inv : σ → Prop} {T : System σ' ℓ'} {f : σ → σ'}
    (h : S.RefinesOn Inv T f) (hstep : ∀ s l s', Inv s → S.step s l = some s' → Inv s')
    {s t : σ} {ls : List ℓ} (hs : Inv s) (ht : S.run s ls = some t) :
    ∃ ks, T.run (f s) ks = some (f t) := by
  induction ls generalizing s with
  | nil =>
    obtain rfl := Option.some.inj ht
    exact ⟨[], rfl⟩
  | cons l ls ih =>
    obtain ⟨s', hs', ht'⟩ := S.run_cons_eq_some.mp ht
    obtain ⟨ks, hks⟩ := ih (hstep s l s' hs hs') ht'
    rcases h s l s' hs hs' with heq | ⟨k, hk⟩
    · exact ⟨ks, heq ▸ hks⟩
    · exact ⟨k :: ks, T.run_cons_eq_some.mpr ⟨_, hk, hks⟩⟩

namespace Refines

variable {S} {σ' ℓ' : Type} {T : System σ' ℓ'} {f : σ → σ'}

/-- What the steps of `T` keep, the steps of `S` keep through `f`. -/
theorem invariant_step (h : S.Refines T f) {Inv : σ' → Prop}
    (hstep : ∀ s l s', Inv s → T.step s l = some s' → Inv s') {s s' : σ} {l : ℓ} (hs : Inv (f s))
    (hs' : S.step s l = some s') : Inv (f s') :=
  RefinesOn.invariant_step S (fun s l s' (_ : True) => h s l s') hstep trivial hs hs'

/-- A run of `S` is a run of `T`. -/
theorem run (h : S.Refines T f) {s t : σ} {ls : List ℓ} (ht : S.run s ls = some t) :
    ∃ ks, T.run (f s) ks = some (f t) :=
  RefinesOn.run S (fun s l s' (_ : True) => h s l s') (fun _ _ _ _ _ => trivial) trivial ht

end Refines

end System

end Acso.Lib
