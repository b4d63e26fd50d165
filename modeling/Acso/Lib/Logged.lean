/-!
# Computations with a log

`Logged ε α` is a value of `α` together with what has been done on the way to it.  A
computation written in this monad has the same value as the one without the log
(`val_bind`), and a property of everything that is done is checked step by step
(`all_bind`).  If it can fail, nothing is done behind a failure (`val_run_bind`,
`log_run_bind`).
-/

namespace Acso.Lib

/-- A value and the events on the way to it. -/
structure Logged (ε α : Type) where
  val : α
  log : List ε

namespace Logged

variable {ε α β : Type}

instance : Monad (Logged ε) where
  pure a := ⟨a, []⟩
  bind x f := ⟨(f x.val).val, x.log ++ (f x.val).log⟩

@[simp] theorem val_pure (a : α) : (pure a : Logged ε α).val = a := rfl
@[simp] theorem log_pure (a : α) : (pure a : Logged ε α).log = [] := rfl

@[simp] theorem val_bind (x : Logged ε α) (f : α → Logged ε β) : (x >>= f).val = (f x.val).val := rfl

@[simp] theorem log_bind (x : Logged ε α) (f : α → Logged ε β) :
    (x >>= f).log = x.log ++ (f x.val).log := rfl

/-- Every event satisfies `p`. -/
def All (p : ε → Prop) (x : Logged ε α) : Prop := ∀ e ∈ x.log, p e

variable {p : ε → Prop}

@[simp] theorem all_pure (a : α) : All p (pure a : Logged ε α) := List.forall_mem_nil p

/-- **One step and then the others.** -/
@[simp] theorem all_bind (x : Logged ε α) (f : α → Logged ε β) :
    All p (x >>= f) ↔ All p x ∧ All p (f x.val) := List.forall_mem_append

@[simp] theorem all_singleton (a : α) (e : ε) : All p ⟨a, [e]⟩ ↔ p e := List.forall_mem_singleton

/-! ## Failures -/

variable {δ : Type}

/-- A call that is not logged. -/
def quiet (x : Except δ α) : ExceptT δ (Logged ε) α := ExceptT.mk ⟨x, []⟩

/-- A call that is one event. -/
def noted (x : Except δ α) (e : ε) : ExceptT δ (Logged ε) α := ExceptT.mk ⟨x, [e]⟩

@[simp] theorem val_run_quiet (x : Except δ α) :
    (quiet x : ExceptT δ (Logged ε) α).run.val = x := rfl
@[simp] theorem log_run_quiet (x : Except δ α) :
    (quiet x : ExceptT δ (Logged ε) α).run.log = [] := rfl
@[simp] theorem val_run_noted (x : Except δ α) (e : ε) : (noted x e).run.val = x := rfl
@[simp] theorem log_run_noted (x : Except δ α) (e : ε) : (noted x e).run.log = [e] := rfl

theorem val_run_bind (x : ExceptT δ (Logged ε) α) (f : α → ExceptT δ (Logged ε) β) :
    (x >>= f).run.val = x.run.val >>= fun a => (f a).run.val := by
  rw [ExceptT.run_bind, val_bind]
  cases x.run.val <;> rfl

theorem log_run_bind (x : ExceptT δ (Logged ε) α) (f : α → ExceptT δ (Logged ε) β) :
    (x >>= f).run.log = x.run.log ++
      match x.run.val with
      | .error _ => []
      | .ok a => (f a).run.log := by
  rw [ExceptT.run_bind, log_bind]
  cases x.run.val <;> rfl

end Logged

end Acso.Lib
