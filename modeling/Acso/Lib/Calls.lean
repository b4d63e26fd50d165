import Mathlib.Data.List.Basic

/-!
# Calls on a state

A component takes calls one after the other; each returns something and leaves a state.  If
one call on related states returns the same and leaves related states, then so does every
sequence of calls (`SameReturns.run`): one component can stand for the other.
-/

namespace Acso.Lib

variable {σ τ ℓ ρ : Type}

/-- What the calls return, in order, and the state after them. -/
def runCalls (call : ℓ → σ → ρ × σ) : List ℓ → σ → List ρ × σ
  | [], s => ([], s)
  | l :: ls, s =>
    let (r, s) := call l s
    let (rs, s) := runCalls call ls s
    (r :: rs, s)

@[simp] theorem runCalls_nil (call : ℓ → σ → ρ × σ) (s : σ) : runCalls call [] s = ([], s) := rfl

theorem runCalls_cons_snd (call : ℓ → σ → ρ × σ) (l : ℓ) (ls : List ℓ) (s : σ) :
    (runCalls call (l :: ls) s).2 = (runCalls call ls (call l s).2).2 := rfl

/-- A call on related states returns the same and leaves related states. -/
def SameReturns (call : ℓ → σ → ρ × σ) (call' : ℓ → τ → ρ × τ) (R : σ → τ → Prop) : Prop :=
  ∀ l s t, R s t → (call l s).1 = (call' l t).1 ∧ R (call l s).2 (call' l t).2

/-- **Sequences of calls** return the same. -/
theorem SameReturns.run {call : ℓ → σ → ρ × σ} {call' : ℓ → τ → ρ × τ} {R : σ → τ → Prop}
    (h : SameReturns call call' R) (ls : List ℓ) {s : σ} {t : τ} (hR : R s t) :
    (runCalls call ls s).1 = (runCalls call' ls t).1 ∧
      R (runCalls call ls s).2 (runCalls call' ls t).2 := by
  induction ls generalizing s t with
  | nil => exact ⟨rfl, hR⟩
  | cons l ls ih =>
    obtain ⟨hreturn, hnext⟩ := h l s t hR
    obtain ⟨hreturns, hend⟩ := ih hnext
    exact ⟨congrArg₂ List.cons hreturn hreturns, hend⟩

end Acso.Lib
