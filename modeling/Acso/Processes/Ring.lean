import Acso.Lib.Circle
import Acso.Lib.System
import Acso.Lib.Tally

/-!
# The ring of processes

The parent of `anillo n c s` forks `n` children, puts `c` into the pipe of the child `s` and
waits for all of them.  Each child reads a number from its own pipe, adds one, writes it and
exits.  After the wait the parent reads from the pipe it has written to, which is also the
pipe the child `s` has read from.

A pipe is the list of the numbers in it; `read` is possible when there is one.  The calls of
`pipe` and `fork` succeed.

* `writesTo_eq`: both branches of a child write to the pipe of its successor.
* `RingMoves`: everything a step can do.
-/

namespace Acso.Processes

open Acso.Lib

/-! ## Processes and pipes -/

/-- Where a child stands. -/
inductive ChildPc
  | notForked
  /-- `read(pipes[i][0], buffer, sizeof(buffer))`. -/
  | reading
  /-- `buffer` has been increased and has to be written. -/
  | writing (buffer : BitVec 32)
  /-- `exit(0)`. -/
  | exiting
  | exited
  /-- `waitpid` has returned it. -/
  | reaped
  deriving DecidableEq

/-- Where the parent stands. -/
inductive ParentPc
  /-- The loop of `fork`; when it is over the parent writes `c`. -/
  | forking (i : Nat)
  /-- The loop of `waitpid`; when it is over the parent reads. -/
  | waiting (i : Nat)
  | returned (buffer : BitVec 32)

structure Ring (n : Nat) where
  pipes : Nat → List (BitVec 32)
  children : Fin n → ChildPc
  parent : ParentPc

inductive RingLabel (n : Nat)
  | child (i : Fin n)
  | parent
  /-- `waitpid` returns the child `i`. -/
  | reap (i : Fin n)

/-! ## Where a child writes -/

def next (n i : Nat) : Nat := (i + 1) % n

/-- `(start - 2 + n) % n`, an `int` that may be negative before `n` is added.  It does not
overflow, as the `n` pipes have taken `2 * n` descriptors. -/
def lastChild (n start : Nat) : Int := Int.tmod ((start : Int) - 2 + n) n

/-- The pipe the child `i` writes to. -/
def writesTo (n start i : Nat) : Nat :=
  if (i : Int) = lastChild n start then start - 1 else next n i

theorem lastChild_eq {n start : Nat} (hstart : 1 ≤ start) (hn : start ≤ n) :
    lastChild n start = ((start + n - 2) % n : Nat) := by
  have hsum : (start : Int) - 2 + n = (start + n - 2 : Nat) := by omega
  rw [lastChild, hsum]
  exact (Int.natCast_mod _ _).symm

/-- **Both branches write to the pipe of the successor.** -/
theorem writesTo_eq {n start : Nat} (hstart : 1 ≤ start) (hn : start ≤ n) (i : Nat) :
    writesTo n start i = next n i := by
  unfold writesTo
  split
  · next hlast =>
    rw [lastChild_eq hstart hn] at hlast
    rw [Int.natCast_inj.mp hlast, next, Nat.mod_add_mod,
      show start + n - 2 + 1 = start - 1 + n by omega, Nat.add_mod_right,
      Nat.mod_eq_of_lt (by omega)]
  · rfl

/-! ## Steps -/

namespace Ring

variable {n : Nat} (s : Ring n)

def init (n : Nat) : Ring n := ⟨fun _ => [], fun _ => .notForked, .forking 0⟩

def setChild (i : Fin n) (pc : ChildPc) : Ring n :=
  { s with children := Function.update s.children i pc }

def setPipe (p : Nat) (buffers : List (BitVec 32)) : Ring n :=
  { s with pipes := Function.update s.pipes p buffers }

def write (p : Nat) (buffer : BitVec 32) : Ring n := s.setPipe p (s.pipes p ++ [buffer])

def setParent (pc : ParentPc) : Ring n := { s with parent := pc }

section fields

variable (i : Fin n) (p : Nat) (cpc : ChildPc) (ppc : ParentPc) (bs : List (BitVec 32))
  (b : BitVec 32)

@[simp] theorem setChild_children :
    (s.setChild i cpc).children = Function.update s.children i cpc := rfl
@[simp] theorem setChild_pipes : (s.setChild i cpc).pipes = s.pipes := rfl
@[simp] theorem setChild_parent : (s.setChild i cpc).parent = s.parent := rfl
@[simp] theorem setPipe_children : (s.setPipe p bs).children = s.children := rfl
@[simp] theorem setPipe_pipes : (s.setPipe p bs).pipes = Function.update s.pipes p bs := rfl
@[simp] theorem setPipe_parent : (s.setPipe p bs).parent = s.parent := rfl
@[simp] theorem write_children : (s.write p b).children = s.children := rfl
@[simp] theorem write_pipes :
    (s.write p b).pipes = Function.update s.pipes p (s.pipes p ++ [b]) := rfl
@[simp] theorem write_parent : (s.write p b).parent = s.parent := rfl
@[simp] theorem setParent_children : (s.setParent ppc).children = s.children := rfl
@[simp] theorem setParent_pipes : (s.setParent ppc).pipes = s.pipes := rfl
@[simp] theorem setParent_parent : (s.setParent ppc).parent = ppc := rfl

end fields

/-- The parent has no child to wait for. -/
def NoChild : Prop := ∀ i, s.children i = .notForked ∨ s.children i = .reaped

instance : Decidable s.NoChild := inferInstanceAs (Decidable (∀ _, _))

def childStep (start : Nat) (i : Fin n) : Option (Ring n) :=
  match s.children i with
  | .reading =>
    match s.pipes i with
    | [] => none
    | buffer :: rest => some ((s.setPipe i rest).setChild i (.writing (buffer + 1)))
  | .writing buffer => some ((s.write (writesTo n start i) buffer).setChild i .exiting)
  | .exiting => some (s.setChild i .exited)
  | .notForked | .exited | .reaped => none

def parentStep (start : Nat) (c : BitVec 32) : Option (Ring n) :=
  match s.parent with
  | .forking i =>
    if h : i < n then some ((s.setChild ⟨i, h⟩ .reading).setParent (.forking (i + 1)))
    else some ((s.write (start - 1) c).setParent (.waiting 0))
  | .waiting i =>
    if i < n then
      -- `waitpid` returns at once when there is no child
      if s.NoChild then some (s.setParent (.waiting (i + 1))) else none
    else
      match s.pipes (start - 1) with
      | [] => none
      | buffer :: rest => some ((s.setPipe (start - 1) rest).setParent (.returned buffer))
  | .returned _ => none

def reapStep (i : Fin n) : Option (Ring n) :=
  match s.parent with
  | .waiting k =>
    if k < n ∧ s.children i = .exited then
      some ((s.setChild i .reaped).setParent (.waiting (k + 1)))
    else none
  | .forking _ | .returned _ => none

def step (start : Nat) (c : BitVec 32) : RingLabel n → Option (Ring n)
  | .child i => s.childStep start i
  | .parent => s.parentStep start c
  | .reap i => s.reapStep i

/-- What the child `i` receives in a step. -/
def received : RingLabel n → List (Nat × BitVec 32)
  | .child i =>
    match s.children i, s.pipes i with
    | .reading, buffer :: _ => [(i, buffer)]
    | _, _ => []
  | .parent | .reap _ => []

variable {s} in
/-- Only a child that reads receives something. -/
theorem received_of_ne {i : Fin n} (hne : s.children i ≠ .reading) :
    s.received (.child i) = [] := by
  cases hchild : s.children i with
  | reading => exact absurd hchild hne
  | notForked | writing | exiting | exited | reaped => simp [received, hchild]

end Ring

/-- The processes of `anillo n c start`, in any order. -/
def ringSystem (n start : Nat) (c : BitVec 32) : System (Ring n) (RingLabel n) :=
  ⟨fun s => s.step start c⟩

/-! ## What a step can do -/

/-- A step, with what it finds and what the child receives in it. -/
inductive RingMoves {n : Nat} (start : Nat) (c : BitVec 32) (s : Ring n) :
    List (Nat × BitVec 32) → Ring n → Prop
  | fork (i : Fin n) (hparent : s.parent = .forking i) :
      RingMoves start c s [] ((s.setChild i .reading).setParent (.forking (i + 1)))
  | send (i : Nat) (hparent : s.parent = .forking i) (hi : n ≤ i) :
      RingMoves start c s [] ((s.write (start - 1) c).setParent (.waiting 0))
  | read (i : Fin n) (buffer : BitVec 32) (rest : List (BitVec 32))
      (hchild : s.children i = .reading) (hpipe : s.pipes i = buffer :: rest) :
      RingMoves start c s [(i, buffer)]
        ((s.setPipe i rest).setChild i (.writing (buffer + 1)))
  | write (i : Fin n) (buffer : BitVec 32) (hchild : s.children i = .writing buffer) :
      RingMoves start c s [] ((s.write (writesTo n start i) buffer).setChild i .exiting)
  | exit (i : Fin n) (hchild : s.children i = .exiting) :
      RingMoves start c s [] (s.setChild i .exited)
  | reap (k : Nat) (i : Fin n) (hparent : s.parent = .waiting k) (hk : k < n)
      (hchild : s.children i = .exited) :
      RingMoves start c s [] ((s.setChild i .reaped).setParent (.waiting (k + 1)))
  | noChild (k : Nat) (hparent : s.parent = .waiting k) (hk : k < n) (hno : s.NoChild) :
      RingMoves start c s [] (s.setParent (.waiting (k + 1)))
  | finish (k : Nat) (buffer : BitVec 32) (rest : List (BitVec 32))
      (hparent : s.parent = .waiting k) (hk : n ≤ k)
      (hpipe : s.pipes (start - 1) = buffer :: rest) :
      RingMoves start c s [] ((s.setPipe (start - 1) rest).setParent (.returned buffer))

section moves

variable {n start : Nat} {c : BitVec 32} {s s' : Ring n}

theorem moves_of_childStep {i : Fin n} (hstep : s.childStep start i = some s') :
    RingMoves start c s (s.received (.child i)) s' := by
  unfold Ring.childStep at hstep
  cases hchild : s.children i with
  | reading =>
    cases hpipe : s.pipes i with
    | nil => simp [hchild, hpipe] at hstep
    | cons buffer rest =>
      simp only [hchild, hpipe, Option.some.injEq] at hstep
      subst hstep
      have hgot : s.received (.child i) = [(i.val, buffer)] := by
        simp [Ring.received, hchild, hpipe]
      rw [hgot]
      exact .read i buffer rest hchild hpipe
  | writing buffer =>
    simp only [hchild, Option.some.injEq] at hstep
    subst hstep
    rw [Ring.received_of_ne (by simp [hchild])]
    exact .write i buffer hchild
  | exiting =>
    simp only [hchild, Option.some.injEq] at hstep
    subst hstep
    rw [Ring.received_of_ne (by simp [hchild])]
    exact .exit i hchild
  | notForked | exited | reaped => simp [hchild] at hstep

theorem moves_of_parentStep (hstep : s.parentStep start c = some s') :
    RingMoves start c s [] s' := by
  unfold Ring.parentStep at hstep
  split at hstep
  · next i hparent =>
    split at hstep
    · next hi =>
      obtain rfl := Option.some.inj hstep
      exact .fork ⟨i, hi⟩ hparent
    · next hi =>
      obtain rfl := Option.some.inj hstep
      exact .send i hparent (by omega)
  · next k hparent =>
    split at hstep
    · next hk =>
      split at hstep
      · next hno =>
        obtain rfl := Option.some.inj hstep
        exact .noChild k hparent hk hno
      · cases hstep
    · next hk =>
      split at hstep
      · cases hstep
      · next buffer rest hpipe =>
        obtain rfl := Option.some.inj hstep
        exact .finish k buffer rest hparent (by omega) hpipe
  · cases hstep

theorem moves_of_reapStep {i : Fin n} (hstep : s.reapStep i = some s') :
    RingMoves start c s [] s' := by
  unfold Ring.reapStep at hstep
  split at hstep
  · next k hparent =>
    split at hstep
    · next hreap =>
      obtain rfl := Option.some.inj hstep
      exact .reap k i hparent hreap.1 hreap.2
    · cases hstep
  · cases hstep
  · cases hstep

theorem moves_of_step {l : RingLabel n} (hstep : (ringSystem n start c).step s l = some s') :
    RingMoves start c s (s.received l) s' := by
  cases l with
  | child i => exact moves_of_childStep hstep
  | parent => exact moves_of_parentStep hstep
  | reap i => exact moves_of_reapStep hstep

end moves

end Acso.Processes
