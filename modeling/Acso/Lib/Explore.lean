/-!
# Depth-first exploration

A visit of a node finds the nodes below it, in an order, or an error that ends the whole
exploration.  The tree need not be finite, so `explore` has fuel.  A branch is the list of the
positions that lead from the root to a node.

* `explore_outcome`: the exploration runs out of fuel at the first branch that is too long or
  ends with the first error, whichever comes first; otherwise it has been everywhere.
* `explore_ends`, `stops_of_explore_ends`: so it ends without a bad error exactly if, from some
  depth on, every branch that reaches it or ends with a bad error comes behind another error.
-/

namespace Acso.Lib

variable {α ε : Type}

def exploreAll (f : α → Option (Except ε Unit)) : List α → Option (Except ε Unit)
  | [] => some (.ok ())
  | y :: ys =>
    match f y with
    | none => none
    | some (.error e) => some (.error e)
    | some (.ok ()) => exploreAll f ys

def explore (visit : α → Except ε (List α)) : Nat → α → Option (Except ε Unit)
  | 0, _ => none
  | fuel + 1, x =>
    match visit x with
    | .error e => some (.error e)
    | .ok ys => exploreAll (explore visit fuel) ys

/-- The positions lead from the first node to the last. -/
inductive Branch (visit : α → Except ε (List α)) : α → List Nat → α → Prop
  | nil (x : α) : Branch visit x [] x
  | cons {x y z : α} {ys : List α} {i : Nat} {p : List Nat} (hvisit : visit x = .ok ys)
      (hget : ys[i]? = some y) (hrest : Branch visit y p z) : Branch visit x (i :: p) z

/-- The branches part, and the first goes on at an earlier position. -/
inductive Before : List Nat → List Nat → Prop
  | head {i j : Nat} {p q : List Nat} (h : i < j) : Before (i :: p) (j :: q)
  | tail {i : Nat} {p q : List Nat} (h : Before p q) : Before (i :: p) (i :: q)

theorem Before.append {q p : List Nat} (h : Before q p) (r : List Nat) : Before q (p ++ r) := by
  induction h with
  | head h => exact .head h
  | tail _ ih => exact .tail ih

/-- What is before a branch of a branch is before it, or on the way to it. -/
theorem Before.of_append {q r p : List Nat} (h : Before (q ++ r) p) :
    Before q p ∨ ∃ s ≠ [], p = q ++ s := by
  induction q generalizing p with
  | nil =>
    refine .inr ⟨p, ?_, rfl⟩
    rintro rfl
    cases h
  | cons i q ih =>
    cases h with
    | head h => exact .inl (.head h)
    | tail h =>
      rcases ih h with h | ⟨s, hs, rfl⟩
      · exact .inl (.tail h)
      · exact .inr ⟨s, hs, rfl⟩

section

variable {visit : α → Except ε (List α)}

/-- The branches that end with an error. -/
def Stops (visit : α → Except ε (List α)) (x : α) (p : List Nat) (e : ε) : Prop :=
  ∃ z, Branch visit x p z ∧ visit z = .error e

/-- No branch is as long as the fuel or ends with an error. -/
def Quiet (visit : α → Except ε (List α)) (fuel : Nat) (x : α) : Prop :=
  ∀ q z, Branch visit x q z → q.length < fuel ∧ ∀ e, visit z ≠ .error e

/-- No branch before `p` is. -/
def QuietBefore (visit : α → Except ε (List α)) (fuel : Nat) (x : α) (p : List Nat) : Prop :=
  ∀ q z, Branch visit x q z → Before q p → q.length < fuel ∧ ∀ e, visit z ≠ .error e

/-! ## One node -/

theorem exploreAll_cases (f : α → Option (Except ε Unit)) (ys : List α) :
    (exploreAll f ys = some (.ok ()) ∧ ∀ y ∈ ys, f y = some (.ok ())) ∨
      ∃ (i : Nat) (y : α), ys[i]? = some y ∧ f y ≠ some (.ok ()) ∧ exploreAll f ys = f y ∧
        ∀ j < i, ∀ y', ys[j]? = some y' → f y' = some (.ok ()) := by
  induction ys with
  | nil => exact .inl ⟨rfl, fun y hy => absurd hy List.not_mem_nil⟩
  | cons y ys ih =>
    have hfirst : f y ≠ some (.ok ()) → exploreAll f (y :: ys) = f y →
        ∃ (i : Nat) (y' : α), (y :: ys)[i]? = some y' ∧ f y' ≠ some (.ok ()) ∧
          exploreAll f (y :: ys) = f y' ∧
            ∀ j < i, ∀ y'', (y :: ys)[j]? = some y'' → f y'' = some (.ok ()) :=
      fun hne heq => ⟨0, y, rfl, hne, heq, fun j hj => absurd hj (Nat.not_lt_zero j)⟩
    cases hy : f y with
    | none => exact .inr (hfirst (by simp [hy]) (by rw [exploreAll, hy]))
    | some r =>
      cases r with
      | error e => exact .inr (hfirst (by simp [hy]) (by rw [exploreAll, hy]))
      | ok u =>
        have hrest : exploreAll f (y :: ys) = exploreAll f ys := by rw [exploreAll, hy]
        rcases ih with ⟨hok, hall⟩ | ⟨i, y', hget, hne, heq, hbefore⟩
        · refine .inl ⟨hrest.trans hok, fun z hz => ?_⟩
          rcases List.mem_cons.mp hz with rfl | hz
          · exact hy
          · exact hall z hz
        · refine .inr ⟨i + 1, y', by rwa [List.getElem?_cons_succ], hne, hrest.trans heq, ?_⟩
          intro j hj z hz
          cases j with
          | zero =>
            obtain rfl := Option.some.inj hz
            exact hy
          | succ j => exact hbefore j (by omega) z (by rwa [List.getElem?_cons_succ] at hz)

theorem Quiet.cons {fuel : Nat} {x : α} {ys : List α} (hvisit : visit x = .ok ys)
    (h : ∀ y ∈ ys, Quiet visit fuel y) : Quiet visit (fuel + 1) x := by
  intro q z hq
  cases hq with
  | nil => exact ⟨Nat.succ_pos fuel, by rw [hvisit]; exact fun e he => by cases he⟩
  | cons hvisit' hget hrest =>
    obtain rfl := Except.ok.inj (hvisit.symm.trans hvisit')
    obtain ⟨hlen, hend⟩ := h _ (List.mem_of_getElem? hget) _ _ hrest
    exact ⟨Nat.succ_lt_succ hlen, hend⟩

theorem QuietBefore.cons {fuel : Nat} {x y : α} {ys : List α} {i : Nat} {p : List Nat}
    (hvisit : visit x = .ok ys) (hget : ys[i]? = some y) (h : QuietBefore visit fuel y p)
    (hbefore : ∀ j < i, ∀ y', ys[j]? = some y' → Quiet visit fuel y') :
    QuietBefore visit (fuel + 1) x (i :: p) := by
  intro q z hq hqp
  cases hq with
  | nil => cases hqp
  | cons hvisit' hget' hrest =>
    obtain rfl := Except.ok.inj (hvisit.symm.trans hvisit')
    cases hqp with
    | head hlt =>
      obtain ⟨hlen, hend⟩ := hbefore _ hlt _ hget' _ _ hrest
      exact ⟨Nat.succ_lt_succ hlen, hend⟩
    | tail hqp =>
      obtain rfl := Option.some.inj (hget.symm.trans hget')
      obtain ⟨hlen, hend⟩ := h _ _ hrest hqp
      exact ⟨Nat.succ_lt_succ hlen, hend⟩

/-! ## The exploration -/

/-- What an exploration with some fuel says about the tree. -/
def Outcome (visit : α → Except ε (List α)) (fuel : Nat) (x : α) : Option (Except ε Unit) → Prop
  | none => ∃ p z, Branch visit x p z ∧ p.length = fuel ∧ QuietBefore visit fuel x p
  | some (.error e) => ∃ p, Stops visit x p e ∧ p.length < fuel ∧ QuietBefore visit fuel x p
  | some (.ok _) => Quiet visit fuel x

/-- The outcome at a node is that of the first node below it where something is found. -/
theorem Outcome.cons {fuel : Nat} {x y : α} {ys : List α} {i : Nat} {r : Option (Except ε Unit)}
    (hvisit : visit x = .ok ys) (hget : ys[i]? = some y) (hr : r ≠ some (.ok ()))
    (hy : Outcome visit fuel y r)
    (hbefore : ∀ j < i, ∀ y', ys[j]? = some y' → Quiet visit fuel y') :
    Outcome visit (fuel + 1) x r := by
  match r, hr, hy with
  | none, _, ⟨p, z, hp, hlen, hquiet⟩ =>
    exact ⟨i :: p, z, .cons hvisit hget hp, by rw [List.length_cons, hlen],
      hquiet.cons hvisit hget hbefore⟩
  | some (.error e), _, ⟨p, ⟨z, hp, hz⟩, hlen, hquiet⟩ =>
    exact ⟨i :: p, ⟨z, .cons hvisit hget hp, hz⟩, Nat.succ_lt_succ hlen,
      hquiet.cons hvisit hget hbefore⟩
  | some (.ok ()), hr, _ => exact absurd rfl hr

/-- **What the exploration finds** is the first branch, in its order, that is too long or ends
with an error. -/
theorem explore_outcome (visit : α → Except ε (List α)) (fuel : Nat) (x : α) :
    Outcome visit fuel x (explore visit fuel x) := by
  induction fuel generalizing x with
  | zero =>
    refine ⟨[], x, .nil x, rfl, ?_⟩
    rintro q z - hq
    cases hq
  | succ fuel ih =>
    cases hvisit : visit x with
    | error e =>
      have hexplore : explore visit (fuel + 1) x = some (.error e) := by rw [explore, hvisit]
      rw [hexplore]
      refine ⟨[], ⟨x, .nil x, hvisit⟩, Nat.succ_pos fuel, ?_⟩
      rintro q z - hq
      cases hq
    | ok ys =>
      have hexplore : explore visit (fuel + 1) x = exploreAll (explore visit fuel) ys := by
        rw [explore, hvisit]
      have hquiet : ∀ y, explore visit fuel y = some (.ok ()) → Quiet visit fuel y := by
        intro y hy
        have hout := ih y
        rwa [hy] at hout
      rw [hexplore]
      rcases exploreAll_cases (explore visit fuel) ys with ⟨hok, hall⟩ |
        ⟨i, y, hget, hne, heq, hbefore⟩
      · rw [hok]
        exact Quiet.cons hvisit fun y hy => hquiet y (hall y hy)
      · rw [heq]
        exact (ih y).cons hvisit hget hne fun j hj y' hy' => hquiet y' (hbefore j hj y' hy')

/-! ## When it ends well -/

/-- Two branches part, or one goes on from the end of the other. -/
theorem Branch.compare {x z : α} {p q : List Nat} {e : ε} (hp : Branch visit x p z)
    (hq : Stops visit x q e) :
    Before p q ∨ Before q p ∨ (p = q ∧ visit z = .error e) ∨
      (p.length < q.length ∧ ∃ ys, visit z = .ok ys) := by
  induction hp generalizing q with
  | nil x =>
    obtain ⟨z, hq, hz⟩ := hq
    cases hq with
    | nil => exact .inr (.inr (.inl ⟨rfl, hz⟩))
    | cons hvisit _ _ => exact .inr (.inr (.inr ⟨Nat.succ_pos _, _, hvisit⟩))
  | @cons x y z ys i p hvisit hget _ ih =>
    obtain ⟨z', hq, hz'⟩ := hq
    cases hq with
    | nil => cases hvisit.symm.trans hz'
    | @cons _ y' _ _ j q hvisit' hget' hrest' =>
      obtain rfl := Except.ok.inj (hvisit.symm.trans hvisit')
      rcases Nat.lt_trichotomy i j with hlt | rfl | hgt
      · exact .inl (.head hlt)
      · obtain rfl := Option.some.inj (hget.symm.trans hget')
        rcases ih ⟨z', hrest', hz'⟩ with h | h | ⟨rfl, hz⟩ | ⟨h, hend⟩
        · exact .inl (.tail h)
        · exact .inr (.inl (.tail h))
        · exact .inr (.inr (.inl ⟨rfl, hz⟩))
        · exact .inr (.inr (.inr ⟨Nat.succ_lt_succ h, hend⟩))
      · exact .inr (.inl (.head hgt))

/-- No branch goes on from the end of one that stops. -/
theorem Stops.not_branch_append {x z : α} {q s : List Nat} {e : ε} (hq : Stops visit x q e)
    (hs : s ≠ []) : ¬ Branch visit x (q ++ s) z := by
  intro h
  obtain ⟨y, hq, hy⟩ := hq
  induction hq with
  | nil x =>
    obtain ⟨i, s, rfl⟩ := List.exists_cons_of_ne_nil hs
    cases h with
    | cons hvisit _ _ => cases hvisit.symm.trans hy
  | cons hvisit hget _ ih =>
    cases h with
    | cons hvisit' hget' hrest =>
      obtain rfl := Except.ok.inj (hvisit.symm.trans hvisit')
      obtain rfl := Option.some.inj (hget.symm.trans hget')
      exact ih hrest hy

/-- **A branch that is too long or ends with a bad error** comes behind another error, if the
exploration ends without a bad one. -/
theorem stops_of_explore_ends {bad : ε → Prop} {x : α} {fuel : Nat} {r : Except ε Unit}
    (hr : explore visit fuel x = some r) (hgood : ∀ e, r = .error e → ¬ bad e) {p : List Nat} {z : α}
    (hp : Branch visit x p z) (hbad : fuel ≤ p.length ∨ ∃ e, visit z = .error e ∧ bad e) :
    ∃ q e, Stops visit x q e ∧ ¬ bad e ∧ Before q p := by
  have hout := explore_outcome visit fuel x
  rw [hr] at hout
  cases r with
  | ok u =>
    obtain ⟨hlen, hend⟩ := hout p z hp
    rcases hbad with hlong | ⟨e, he, -⟩
    · exact absurd hlen (Nat.not_lt.mpr hlong)
    · exact absurd he (hend e)
  | error e =>
    obtain ⟨q, hq, hqlen, hquiet⟩ := hout
    rcases hp.compare hq with h | h | ⟨rfl, hz⟩ | ⟨h, ys, hz⟩
    · obtain ⟨hlen, hend⟩ := hquiet p z hp h
      rcases hbad with hlong | ⟨e', he', -⟩
      · exact absurd hlen (Nat.not_lt.mpr hlong)
      · exact absurd he' (hend e')
    · exact ⟨q, e, hq, hgood e rfl, h⟩
    · rcases hbad with hlong | ⟨e', he', hbad⟩
      · exact absurd hqlen (Nat.not_lt.mpr hlong)
      · obtain rfl := Except.error.inj (hz.symm.trans he')
        exact absurd hbad (hgood e rfl)
    · rcases hbad with hlong | ⟨e', he', -⟩
      · omega
      · rw [hz] at he'
        cases he'

/-- **The exploration ends without a bad error** if, from some depth on, every branch that reaches
it or ends with a bad error comes behind an error. -/
theorem explore_ends (bad : ε → Prop) {x : α} (depth : Nat)
    (hdepth : ∀ p z, Branch visit x p z →
      (depth ≤ p.length ∨ ∃ e, visit z = .error e ∧ bad e) → ∃ q e, Stops visit x q e ∧ Before q p) :
    ∃ fuel r, explore visit fuel x = some r ∧ ∀ e, r = .error e → ¬ bad e := by
  have hout := explore_outcome visit depth x
  cases hr : explore visit depth x with
  | none =>
    rw [hr] at hout
    obtain ⟨p, z, hp, hlen, hquiet⟩ := hout
    obtain ⟨q, e, ⟨z', hq, hz'⟩, hqp⟩ := hdepth p z hp (.inl (Nat.le_of_eq hlen.symm))
    exact absurd hz' ((hquiet q z' hq hqp).2 e)
  | some r =>
    refine ⟨depth, r, hr, ?_⟩
    rintro e rfl hbad
    rw [hr] at hout
    obtain ⟨p, ⟨z, hp, hz⟩, -, hquiet⟩ := hout
    obtain ⟨q, e', ⟨z', hq, hz'⟩, hqp⟩ := hdepth p z hp (.inr ⟨e, hz, hbad⟩)
    exact absurd hz' ((hquiet q z' hq hqp).2 e')

end

end Acso.Lib
