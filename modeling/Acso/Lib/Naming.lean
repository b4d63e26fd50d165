import Mathlib.Data.List.Basic

/-!
# Naming graphs

A node is a leaf with contents, or it has children under names.  A path is followed name by
name, and the first child with a name counts (`resolve`); so a name may lead back up, and a
node may have several names.  `LeadsTo` compares what another system makes of a path with
this, one name at a time (`leadsTo_foldlM`).
-/

namespace Acso.Lib

variable {ν α β : Type}

inductive Node (ν α β : Type)
  | leaf (contents : β)
  | inner (children : List (α × ν))

/-- The first child with a name. -/
def Node.child [DecidableEq α] (node : Node ν α β) (name : α) : Option ν :=
  match node with
  | .leaf _ => none
  | .inner children => (children.find? fun c => decide (c.1 = name)).map Prod.snd

/-- Where the names lead from a node, one after the other. -/
def resolve [DecidableEq α] (graph : ν → Node ν α β) (start : ν) (path : List α) : Option ν :=
  path.foldlM (fun x name => (graph x).child name) start

section

variable [DecidableEq α] (graph : ν → Node ν α β)

@[simp] theorem resolve_nil (start : ν) : resolve graph start [] = some start := rfl

theorem resolve_cons (start : ν) (name : α) (path : List α) :
    resolve graph start (name :: path) =
      ((graph start).child name).bind fun x => resolve graph x path := rfl

end

/-! ## Following a path in another system -/

section

variable {ε κ : Type}

/-- The result is the number of the node, or some failure if there is no node. -/
def LeadsTo (number : ν → κ) (failed : ε → Prop) (result : Except ε κ) : Option ν → Prop
  | some x => result = .ok (number x)
  | none => ∃ e, failed e ∧ result = .error e

variable {number : ν → κ} {failed : ε → Prop}

theorem LeadsTo.bind {γ δ : Type} {number' : δ → γ} {result : Except ε κ} {o : Option ν}
    (h : LeadsTo number failed result o) {f : κ → Except ε γ} {g : ν → Option δ}
    (hnext : ∀ x, o = some x → LeadsTo number' failed (f (number x)) (g x)) :
    LeadsTo number' failed (result >>= f) (o.bind g) := by
  cases o with
  | none =>
    obtain ⟨e, he, rfl⟩ := h
    exact ⟨e, he, rfl⟩
  | some x =>
    obtain rfl := h
    exact hnext x rfl

/-- **A path is followed** if each of its names is, from every node. -/
theorem leadsTo_foldlM [DecidableEq α] {graph : ν → Node ν α β} {ω : Type} {name : ω → α}
    {step : κ → ω → Except ε κ} {ws : List ω}
    (hstep : ∀ w ∈ ws, ∀ x, LeadsTo number failed (step (number x) w) ((graph x).child (name w)))
    (start : ν) :
    LeadsTo number failed (ws.foldlM step (number start)) (resolve graph start (ws.map name)) := by
  induction ws generalizing start with
  | nil => rfl
  | cons w ws ih =>
    rw [List.foldlM_cons, List.map_cons, resolve_cons]
    refine (hstep w List.mem_cons_self start).bind ?_
    intro x _
    exact ih (fun v hv => hstep v (List.mem_cons_of_mem w hv)) x

end

end Acso.Lib
