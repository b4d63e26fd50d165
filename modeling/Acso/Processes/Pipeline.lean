import Acso.Lib.Descriptors
import Acso.Lib.System

/-!
# The pipeline of the shell

For a line of `n` commands the shell makes `n - 1` pipes, forks a child for each command and
closes the pipes.  A child makes a read end its standard input and a write end its standard
output, closes all the descriptors of pipes it has inherited and runs its command.

The calls of `pipe` and `fork` succeed, and `pipe` returns any two descriptors from 3 on that
are not in use.  A command keeps the descriptors it has at `execvp`.

* `ShellAt`, `CommandAt`: what is open where the shell, or a child, stands.
* `sound_step`: every step keeps these.
* `pipeline_wired`: what is open when the shell waits and every command runs.
-/

namespace Acso.Processes

open Acso.Lib Acso.Lib.Descriptors

/-! ## The shell and its children -/

/-- What a descriptor refers to. -/
inductive File (α : Type)
  /-- Something the shell has open before it makes the pipes. -/
  | own (file : α)
  | readEnd (j : Nat)
  | writeEnd (j : Nat)

/-- Where the shell stands. -/
inductive ShellPc
  | piping (i : Nat)
  | forking (i : Nat)
  /-- The loop of `close`, before `close(pipes[j][0])`. -/
  | closeRead (j : Nat)
  /-- Before `close(pipes[j][1])`. -/
  | closeWrite (j : Nat)
  | waiting

/-- Where a child stands. -/
inductive CommandPc
  | notForked
  | dupStdin
  | dupStdout
  | closeRead (j : Nat)
  | closeWrite (j : Nat)
  | execvp
  /-- `exit(1)` after `dup2` has failed. -/
  | failed

structure Pipeline (α : Type) (n : Nat) where
  /-- The array `pipes`, as far as it is filled. -/
  pipes : List (Nat × Nat)
  shell : ShellPc
  shellTable : Descriptors (File α)
  commands : Fin n → CommandPc
  tables : Fin n → Descriptors (File α)

inductive PipelineLabel (n : Nat)
  /-- `pipe` returns the descriptors `r` and `w`. -/
  | pipe (r w : Nat)
  | shell
  | command (i : Fin n)

section programs

variable {α : Type} (n : Nat) (pipes : List (Nat × Nat)) (t : Descriptors (File α))

/-- `pipes[j]`. -/
def pipeAt (j : Nat) : Nat × Nat := pipes.getD j (0, 0)

/-- `dup2`, and `exit(1)` when it fails. -/
def dupTo (old new : Nat) (pc : CommandPc) : CommandPc × Descriptors (File α) :=
  match t.dup2 old new with
  | some t' => (pc, t')
  | none => (.failed, t)

/-- The child of the command `i`. -/
def commandStep (i : Nat) : CommandPc → Option (CommandPc × Descriptors (File α))
  | .dupStdin =>
    if 0 < i then some (dupTo t (pipeAt pipes (i - 1)).1 0 .dupStdout)
    else some (.dupStdout, t)
  | .dupStdout =>
    if i < n - 1 then some (dupTo t (pipeAt pipes i).2 1 (.closeRead 0))
    else some (.closeRead 0, t)
  | .closeRead j =>
    if j < n - 1 then some (.closeWrite j, t.close (pipeAt pipes j).1)
    else some (.execvp, t)
  | .closeWrite j => some (.closeRead (j + 1), t.close (pipeAt pipes j).2)
  | .notForked | .execvp | .failed => none

end programs

/-- A table without pipes. -/
def shellFiles {α : Type} (own : Descriptors α) : Descriptors (File α) :=
  fun fd => (own fd).map .own

namespace Pipeline

variable {α : Type} {n : Nat} (s : Pipeline α n)

/-- The shell before it makes the pipes, with what it has open. -/
def init (n : Nat) (own : Descriptors α) : Pipeline α n :=
  ⟨[], .piping 0, shellFiles own, fun _ => .notForked, fun _ _ => none⟩

def setCommand (i : Fin n) (pc : CommandPc) (t : Descriptors (File α)) : Pipeline α n :=
  { s with
    commands := Function.update s.commands i pc
    tables := Function.update s.tables i t }

def pipeStep (r w : Nat) : Option (Pipeline α n) :=
  match s.shell with
  | .piping i =>
    if i < n - 1 ∧ 3 ≤ r ∧ 3 ≤ w ∧ r ≠ w ∧
        (s.shellTable r).isNone ∧ (s.shellTable w).isNone then
      some { s with
        pipes := s.pipes ++ [(r, w)]
        shell := .piping (i + 1)
        shellTable := (s.shellTable.put r (.readEnd i)).put w (.writeEnd i) }
    else none
  | _ => none

def shellStep : Option (Pipeline α n) :=
  match s.shell with
  | .piping i => if i < n - 1 then none else some { s with shell := .forking 0 }
  | .forking i =>
    if h : i < n then
      some { s.setCommand ⟨i, h⟩ .dupStdin s.shellTable with shell := .forking (i + 1) }
    else some { s with shell := .closeRead 0 }
  | .closeRead j =>
    if j < n - 1 then
      some { s with
        shell := .closeWrite j
        shellTable := s.shellTable.close (pipeAt s.pipes j).1 }
    else some { s with shell := .waiting }
  | .closeWrite j =>
    some { s with
      shell := .closeRead (j + 1)
      shellTable := s.shellTable.close (pipeAt s.pipes j).2 }
  | .waiting => none

def step : PipelineLabel n → Option (Pipeline α n)
  | .pipe r w => s.pipeStep r w
  | .shell => s.shellStep
  | .command i =>
    (commandStep n s.pipes (s.tables i) i (s.commands i)).map fun p => s.setCommand i p.1 p.2

end Pipeline

/-- The shell and the children of a line of `n` commands, in any order. -/
def pipelineSystem (α : Type) (n : Nat) : System (Pipeline α n) (PipelineLabel n) :=
  ⟨Pipeline.step⟩

/-! ## The ends of the pipes -/

/-- The descriptors of the pipes from the `j`-th on, in the order they are made and closed. -/
def ends (α : Type) : Nat → List (Nat × Nat) → List (Nat × File α)
  | _, [] => []
  | j, (r, w) :: pipes => (r, .readEnd j) :: (w, .writeEnd j) :: ends α (j + 1) pipes

section ends

variable {α : Type}

@[simp] theorem ends_length (k : Nat) (pipes : List (Nat × Nat)) :
    (ends α k pipes).length = 2 * pipes.length := by
  induction pipes generalizing k with
  | nil => rfl
  | cons p pipes ih =>
    simp only [ends, List.length_cons, ih]
    omega

theorem ends_concat (k : Nat) (pipes : List (Nat × Nat)) (r w : Nat) :
    ends α k (pipes ++ [(r, w)]) =
      (ends α k pipes ++ [(r, .readEnd (k + pipes.length))]) ++
        [(w, .writeEnd (k + pipes.length))] := by
  induction pipes generalizing k with
  | nil => rfl
  | cons p pipes ih =>
    rw [List.cons_append, ends, ends, ih, List.length_cons, Nat.add_right_comm, Nat.add_assoc]
    rfl

theorem ends_readEnd (k : Nat) {pipes : List (Nat × Nat)} {j : Nat} (hj : j < pipes.length) :
    (ends α k pipes)[2 * j]? = some ((pipeAt pipes j).1, .readEnd (k + j)) := by
  induction pipes generalizing k j with
  | nil => simp at hj
  | cons p pipes ih =>
    cases j with
    | zero => rfl
    | succ j =>
      rw [ends, show 2 * (j + 1) = 2 * j + 1 + 1 by omega, List.getElem?_cons_succ,
        List.getElem?_cons_succ, ih (k + 1) (Nat.lt_of_succ_lt_succ hj), Nat.add_right_comm]
      rfl

theorem ends_writeEnd (k : Nat) {pipes : List (Nat × Nat)} {j : Nat} (hj : j < pipes.length) :
    (ends α k pipes)[2 * j + 1]? = some ((pipeAt pipes j).2, .writeEnd (k + j)) := by
  induction pipes generalizing k j with
  | nil => simp at hj
  | cons p pipes ih =>
    cases j with
    | zero => rfl
    | succ j =>
      rw [ends, show 2 * (j + 1) + 1 = 2 * j + 1 + 1 + 1 by omega, List.getElem?_cons_succ,
        List.getElem?_cons_succ, ih (k + 1) (Nat.lt_of_succ_lt_succ hj), Nat.add_right_comm]
      rfl

end ends

/-! ## What is open -/

section tables

variable {α : Type} (base : Descriptors (File α)) (pipes : List (Nat × Nat)) (n i : Nat)

/-- The standard input of the command `i`. -/
def withStdin : Descriptors (File α) := if 0 < i then base.put 0 (.readEnd (i - 1)) else base

/-- The standard output of the command `i` as well. -/
def wired : Descriptors (File α) :=
  if i < n - 1 then (withStdin base i).put 1 (.writeEnd i) else withStdin base i

/-- What the child of the command `i` has open. -/
def CommandAt : CommandPc → Descriptors (File α) → Prop
  | .notForked, _ => True
  | .dupStdin, t => t = layer base (ends α 0 pipes)
  | .dupStdout, t => t = layer (withStdin base i) (ends α 0 pipes)
  | .closeRead j, t => t = layer (wired base n i) ((ends α 0 pipes).drop (2 * j))
  | .closeWrite j, t =>
    j < n - 1 ∧ t = layer (wired base n i) ((ends α 0 pipes).drop (2 * j + 1))
  | .execvp, t => t = wired base n i
  | .failed, _ => False

/-- What the shell has open, and how many pipes there are. -/
def ShellAt : ShellPc → Descriptors (File α) → Prop
  | .piping i, t => pipes.length = i ∧ i ≤ n - 1 ∧ t = layer base (ends α 0 pipes)
  | .forking _, t => pipes.length = n - 1 ∧ t = layer base (ends α 0 pipes)
  | .closeRead j, t => pipes.length = n - 1 ∧ t = layer base ((ends α 0 pipes).drop (2 * j))
  | .closeWrite j, t =>
    pipes.length = n - 1 ∧ j < n - 1 ∧ t = layer base ((ends α 0 pipes).drop (2 * j + 1))
  | .waiting, t => pipes.length = n - 1 ∧ t = base

/-- `pipe` has returned descriptors that `base` does not use, and above the standard ones. -/
structure Opened : Prop where
  fresh : Fresh base (ends α 0 pipes)
  above : ∀ fd ∈ (ends α 0 pipes).map Prod.fst, 3 ≤ fd

/-- **What is open where the processes stand.** -/
structure Pipeline.Sound {n : Nat} (s : Pipeline α n) : Prop where
  opened : Opened base s.pipes
  shell : ShellAt base s.pipes n s.shell s.shellTable
  commands : ∀ i, s.commands i ≠ .notForked →
    s.pipes.length = n - 1 ∧ CommandAt base s.pipes n i (s.commands i) (s.tables i)

end tables

section steps

variable {α : Type} {base t t' : Descriptors (File α)} {pipes : List (Nat × Nat)} {n i : Nat}

/-! ### One child -/

namespace Opened

theorem notMem (h : Opened base pipes) {fd : Nat} (hfd : fd < 3) :
    fd ∉ (ends α 0 pipes).map Prod.fst := by
  intro hmem
  have habove := h.above fd hmem
  omega

/-- A standard descriptor may be put below the pipes. -/
theorem put (h : Opened base pipes) {fd : Nat} (hfd : fd < 3) (file : File α) :
    Opened (base.put fd file) pipes := ⟨h.fresh.put (h.notMem hfd) file, h.above⟩

theorem withStdin (h : Opened base pipes) (i : Nat) : Opened (withStdin base i) pipes := by
  unfold Processes.withStdin
  split
  · exact h.put (by decide) _
  · exact h

theorem wired (h : Opened base pipes) (n i : Nat) : Opened (wired base n i) pipes := by
  unfold Processes.wired
  split
  · exact (h.withStdin i).put (by decide) _
  · exact h.withStdin i

theorem dupTo (h : Opened base pipes) {old new : Nat} {file : File α} (hnew : new < 3)
    (hold : (old, file) ∈ ends α 0 pipes) (pc : CommandPc) :
    dupTo (layer base (ends α 0 pipes)) old new pc =
      (pc, layer (base.put new file) (ends α 0 pipes)) := by
  rw [Processes.dupTo, dup2_layer h.fresh hold (h.notMem hnew)]

/-- `close(pipes[j][0])`. -/
theorem closeRead (h : Opened base pipes) {j : Nat} (hj : j < pipes.length) :
    (layer base ((ends α 0 pipes).drop (2 * j))).close (pipeAt pipes j).1 =
      layer base ((ends α 0 pipes).drop (2 * j + 1)) := close_drop h.fresh (ends_readEnd 0 hj)

/-- `close(pipes[j][1])`. -/
theorem closeWrite (h : Opened base pipes) {j : Nat} (hj : j < pipes.length) :
    (layer base ((ends α 0 pipes).drop (2 * j + 1))).close (pipeAt pipes j).2 =
      layer base ((ends α 0 pipes).drop (2 * (j + 1))) := close_drop h.fresh (ends_writeEnd 0 hj)

end Opened

/-- After the loop of `close` nothing of the pipes is left. -/
theorem closed_all (base : Descriptors (File α)) {j : Nat} (hj : pipes.length ≤ j) :
    layer base ((ends α 0 pipes).drop (2 * j)) = base := by
  rw [List.drop_eq_nil_of_le (by rw [ends_length]; omega), layer_nil]

/-- **A step of a child.** -/
theorem commandAt_step (h : Opened base pipes) (hlength : pipes.length = n - 1) (hi : i < n)
    {pc pc' : CommandPc} (hat : CommandAt base pipes n i pc t)
    (hstep : commandStep n pipes t i pc = some (pc', t')) :
    CommandAt base pipes n i pc' t' ∧ pc' ≠ .notForked := by
  cases pc with
  | dupStdin =>
    rw [hat, commandStep] at hstep
    by_cases hfirst : 0 < i
    · have hend := List.mem_of_getElem? (ends_readEnd (α := α) 0
        (show i - 1 < pipes.length by omega))
      rw [Nat.zero_add] at hend
      rw [if_pos hfirst, h.dupTo (by decide) hend] at hstep
      cases hstep
      exact ⟨by rw [CommandAt, withStdin, if_pos hfirst], by simp⟩
    · rw [if_neg hfirst] at hstep
      cases hstep
      exact ⟨by rw [CommandAt, withStdin, if_neg hfirst], by simp⟩
  | dupStdout =>
    rw [hat, commandStep] at hstep
    by_cases hlast : i < n - 1
    · have hend := List.mem_of_getElem? (ends_writeEnd (α := α) 0
        (show i < pipes.length by omega))
      rw [Nat.zero_add] at hend
      rw [if_pos hlast, (h.withStdin i).dupTo (by decide) hend] at hstep
      cases hstep
      exact ⟨by rw [CommandAt, wired, if_pos hlast]; rfl, by simp⟩
    · rw [if_neg hlast] at hstep
      cases hstep
      exact ⟨by rw [CommandAt, wired, if_neg hlast]; rfl, by simp⟩
  | closeRead j =>
    rw [hat, commandStep] at hstep
    by_cases hj : j < n - 1
    · rw [if_pos hj, (h.wired n i).closeRead (hlength ▸ hj)] at hstep
      cases hstep
      exact ⟨⟨hj, rfl⟩, by simp⟩
    · rw [if_neg hj, closed_all _ (by omega)] at hstep
      cases hstep
      exact ⟨rfl, by simp⟩
  | closeWrite j =>
    obtain ⟨hj, ht⟩ := hat
    rw [ht, commandStep, (h.wired n i).closeWrite (hlength ▸ hj)] at hstep
    cases hstep
    exact ⟨rfl, by simp⟩
  | notForked | execvp | failed => cases hstep

/-! ### The shell -/

variable {s s' : Pipeline α n}

namespace Pipeline.Sound

/-- A child that has what it should have where it stands. -/
theorem setCommand (h : s.Sound base) (hlength : s.pipes.length = n - 1) {i : Fin n}
    {pc : CommandPc} (hat : CommandAt base s.pipes n i pc t) :
    (s.setCommand i pc t).Sound base := by
  refine ⟨h.opened, h.shell, fun k hk => ?_⟩
  simp only [Pipeline.setCommand] at hk ⊢
  by_cases hki : k = i
  · subst hki
    rw [Function.update_self, Function.update_self]
    exact ⟨hlength, hat⟩
  · rw [Function.update_of_ne hki] at hk
    rw [Function.update_of_ne hki, Function.update_of_ne hki]
    exact h.commands k hk

/-- The shell goes on to `pc`. -/
theorem setShell (h : s.Sound base) {pc : ShellPc} (hat : ShellAt base s.pipes n pc t) :
    { s with shell := pc, shellTable := t }.Sound base := ⟨h.opened, hat, h.commands⟩

theorem command (h : s.Sound base) {i : Fin n}
    (hstep : s.step (.command i) = some s') : s'.Sound base := by
  obtain ⟨⟨pc, t⟩, hchild, rfl⟩ := Option.map_eq_some_iff.mp hstep
  have hforked : s.commands i ≠ .notForked := by
    intro hnot
    rw [hnot] at hchild
    cases hchild
  obtain ⟨hlength, hat⟩ := h.commands i hforked
  exact h.setCommand hlength (commandAt_step h.opened hlength i.isLt hat hchild).1

/-- While a pipe is to be made no child has been forked. -/
theorem notForked (h : s.Sound base) (hlength : s.pipes.length ≠ n - 1) (i : Fin n) :
    s.commands i = .notForked := by
  by_contra hforked
  exact hlength (h.commands i hforked).1

theorem pipe (h : s.Sound base) {r w : Nat} (hstep : s.pipeStep r w = some s') :
    s'.Sound base := by
  unfold Pipeline.pipeStep at hstep
  split at hstep
  · next i hpiping =>
    split at hstep
    · next hfds =>
      obtain ⟨hi, hr3, hw3, hrw, hr, hw⟩ := hfds
      obtain rfl := Option.some.inj hstep
      have hshell := h.shell
      rw [hpiping] at hshell
      obtain ⟨hlength, -, htable⟩ := hshell
      rw [htable, Option.isNone_iff_eq_none] at hr hw
      have hends := ends_concat (α := α) 0 s.pipes r w
      rw [Nat.zero_add, hlength] at hends
      have hread := h.opened.fresh.snoc hr (.readEnd i)
      have hr' := (layer_eq_none.mp hr).1
      have hw' : w ∉ (ends α 0 s.pipes ++ [(r, File.readEnd i)]).map Prod.fst := by
        simp only [List.map_append, List.mem_append, not_or]
        exact ⟨(layer_eq_none.mp hw).1, by simpa using hrw.symm⟩
      refine ⟨⟨?_, ?_⟩, ⟨?_, hi, ?_⟩, ?_⟩
      · rw [hends]
        exact hread.snoc (layer_eq_none.mpr ⟨hw', (layer_eq_none.mp hw).2⟩) _
      · rw [hends]
        intro fd hfd
        simp only [List.map_append, List.mem_append, List.map_cons, List.map_nil,
          List.mem_singleton] at hfd
        rcases hfd with (hold | rfl) | rfl
        · exact h.opened.above fd hold
        · exact hr3
        · exact hw3
      · rw [List.length_append, hlength]
        rfl
      · rw [hends, htable, put_layer hr', put_layer hw']
      · intro k hk
        exact absurd (h.notForked (by omega) k) hk
    · cases hstep
  · cases hstep

theorem shellStep (h : s.Sound base) (hstep : s.shellStep = some s') : s'.Sound base := by
  have hshell := h.shell
  unfold Pipeline.shellStep at hstep
  split at hstep
  · next i hpc =>
    rw [hpc] at hshell
    obtain ⟨hlength, hi, htable⟩ := hshell
    split at hstep
    · cases hstep
    · next hmore =>
      obtain rfl := Option.some.inj hstep
      exact h.setShell ⟨by omega, htable⟩
  · next i hpc =>
    rw [hpc] at hshell
    obtain ⟨hlength, htable⟩ := hshell
    split at hstep
    · next hi =>
      obtain rfl := Option.some.inj hstep
      have hforked : (s.setCommand ⟨i, hi⟩ .dupStdin s.shellTable).Sound base :=
        h.setCommand hlength htable
      exact hforked.setShell ⟨hlength, htable⟩
    · obtain rfl := Option.some.inj hstep
      exact h.setShell ⟨hlength, htable⟩
  · next j hpc =>
    rw [hpc] at hshell
    obtain ⟨hlength, htable⟩ := hshell
    split at hstep
    · next hj =>
      obtain rfl := Option.some.inj hstep
      rw [htable, h.opened.closeRead (hlength ▸ hj)]
      exact h.setShell ⟨hlength, hj, rfl⟩
    · next hj =>
      obtain rfl := Option.some.inj hstep
      exact h.setShell ⟨hlength, htable.trans (closed_all base (by omega))⟩
  · next j hpc =>
    rw [hpc] at hshell
    obtain ⟨hlength, hj, htable⟩ := hshell
    obtain rfl := Option.some.inj hstep
    rw [htable, h.opened.closeWrite (hlength ▸ hj)]
    exact h.setShell ⟨hlength, rfl⟩
  · cases hstep

end Pipeline.Sound

/-- **Every step keeps what is open.** -/
theorem sound_step {l : PipelineLabel n} (h : s.Sound base) (hstep : s.step l = some s') :
    s'.Sound base := by
  cases l with
  | pipe r w => exact h.pipe hstep
  | shell => exact h.shellStep hstep
  | command i => exact h.command hstep

end steps

/-! ## Every run -/

section runs

variable {α : Type} {n : Nat} {own : Descriptors α} {s : Pipeline α n}

theorem sound_init (n : Nat) (own : Descriptors α) :
    (Pipeline.init n own).Sound (shellFiles own) :=
  ⟨⟨.nil _, by simp [ends, Pipeline.init]⟩, ⟨rfl, Nat.zero_le _, (layer_nil _).symm⟩,
    fun _ hforked => absurd rfl hforked⟩

theorem sound_run {ls : List (PipelineLabel n)}
    (hrun : (pipelineSystem α n).run (Pipeline.init n own) ls = some s) :
    s.Sound (shellFiles own) := by
  have hstep : ∀ s l s', Pipeline.Sound (shellFiles own) s →
      (pipelineSystem α n).step s l = some s' → Pipeline.Sound (shellFiles own) s' :=
    fun _ _ _ h hs' => sound_step h hs'
  exact (pipelineSystem α n).run_invariant hstep (sound_init n own) hrun

/-- No child fails. -/
theorem not_failed {ls : List (PipelineLabel n)}
    (hrun : (pipelineSystem α n).run (Pipeline.init n own) ls = some s) (i : Fin n) :
    s.commands i ≠ .failed := by
  intro hfailed
  have hat := ((sound_run hrun).commands i (by simp [hfailed])).2
  rwa [hfailed] at hat

theorem shellFiles_ne_readEnd (own : Descriptors α) (fd j : Nat) :
    shellFiles own fd ≠ some (.readEnd j) := by
  simp [shellFiles]

theorem shellFiles_ne_writeEnd (own : Descriptors α) (fd j : Nat) :
    shellFiles own fd ≠ some (.writeEnd j) := by
  simp [shellFiles]

/-- What a command runs with. -/
theorem wired_eq (base : Descriptors (File α)) (n i fd : Nat) :
    wired base n i fd =
      if fd = 1 ∧ i < n - 1 then some (.writeEnd i)
      else if fd = 0 ∧ 0 < i then some (.readEnd (i - 1))
      else base fd := by
  unfold wired withStdin put
  split <;> split <;> simp [Function.update_apply, *]

theorem wired_writeEnd (i j fd : Nat) :
    wired (shellFiles own) n i fd = some (.writeEnd j) ↔ j < n - 1 ∧ i = j ∧ fd = 1 := by
  rw [wired_eq]
  split
  · next hout =>
    rw [Option.some.injEq, File.writeEnd.injEq]
    exact ⟨fun h => ⟨h ▸ hout.2, h, hout.1⟩, fun h => h.2.1⟩
  · next hout =>
    refine iff_of_false ?_ fun h => hout ⟨h.2.2, h.2.1 ▸ h.1⟩
    split
    · simp
    · exact shellFiles_ne_writeEnd own fd j

theorem wired_readEnd {i : Nat} (hi : i < n) (j fd : Nat) :
    wired (shellFiles own) n i fd = some (.readEnd j) ↔ j < n - 1 ∧ i = j + 1 ∧ fd = 0 := by
  rw [wired_eq]
  split
  · next hout => exact iff_of_false (by simp) (by omega)
  · split
    · next hin =>
      rw [Option.some.injEq, File.readEnd.injEq]
      omega
    · next hin => exact iff_of_false (shellFiles_ne_readEnd own fd j) (by omega)

/-- A command has run with its input and its output. -/
theorem execvp_table {ls : List (PipelineLabel n)}
    (hrun : (pipelineSystem α n).run (Pipeline.init n own) ls = some s) {i : Fin n}
    (hexec : s.commands i = .execvp) : s.tables i = wired (shellFiles own) n i := by
  have hat := ((sound_run hrun).commands i (by simp [hexec])).2
  rwa [hexec] at hat

/-- The shell has again what it had before. -/
theorem shell_restored {ls : List (PipelineLabel n)}
    (hrun : (pipelineSystem α n).run (Pipeline.init n own) ls = some s)
    (hwaiting : s.shell = .waiting) : s.shellTable = shellFiles own := by
  have hat := (sound_run hrun).shell
  rw [hwaiting] at hat
  exact hat.2

/-- **The pipeline is wired.**  When the shell waits and every command runs, the write end of
the pipe `j` is open in the command `j` only, as its standard output, and the read end in the
command `j + 1` only, as its standard input; the shell has no end of a pipe; and the first
command keeps its standard input, the last one its standard output. -/
theorem pipeline_wired {ls : List (PipelineLabel n)}
    (hrun : (pipelineSystem α n).run (Pipeline.init n own) ls = some s)
    (hwaiting : s.shell = .waiting) (hexec : ∀ i, s.commands i = .execvp) :
    (∀ j (i : Fin n) fd,
      s.tables i fd = some (.writeEnd j) ↔ j < n - 1 ∧ i.val = j ∧ fd = 1) ∧
    (∀ j (i : Fin n) fd,
      s.tables i fd = some (.readEnd j) ↔ j < n - 1 ∧ i.val = j + 1 ∧ fd = 0) ∧
    (∀ j fd, s.shellTable fd ≠ some (.writeEnd j) ∧ s.shellTable fd ≠ some (.readEnd j)) ∧
    (∀ i : Fin n, i.val = 0 → s.tables i 0 = (own 0).map .own) ∧
    (∀ i : Fin n, i.val = n - 1 → s.tables i 1 = (own 1).map .own) := by
  have htable := fun i => execvp_table hrun (hexec i)
  refine ⟨?_, ?_, ?_, ?_, ?_⟩
  · intro j i fd
    rw [htable i]
    exact wired_writeEnd i j fd
  · intro j i fd
    rw [htable i]
    exact wired_readEnd i.isLt j fd
  · intro j fd
    rw [shell_restored hrun hwaiting]
    exact ⟨shellFiles_ne_writeEnd own fd j, shellFiles_ne_readEnd own fd j⟩
  · intro i hi
    rw [htable i, wired_eq, if_neg (by simp), if_neg (by omega)]
    rfl
  · intro i hi
    rw [htable i, wired_eq, if_neg (by omega), if_neg (by simp)]
    rfl

/-- Two commands; the second one is forked when the first has closed a descriptor. -/
def twoCommands : List (PipelineLabel 2) :=
  let first : Fin 2 := ⟨0, Nat.two_pos⟩
  let second : Fin 2 := ⟨1, Nat.one_lt_two⟩
  [.pipe 3 4, .shell, .shell, .command first, .command first, .command first, .shell,
    .command second, .command first, .command second, .shell, .shell, .command first,
    .command second, .shell, .command second, .shell, .command second]

theorem twoCommands_wired :
    ∃ s, (pipelineSystem Nat 2).run
        (Pipeline.init 2 fun fd => if fd < 3 then some fd else none) twoCommands = some s ∧
      (∀ i fd, s.tables i fd = some (.writeEnd 0) ↔ 0 < 2 - 1 ∧ i.val = 0 ∧ fd = 1) ∧
      s.tables 0 0 = some (.own 0) ∧ s.tables 1 1 = some (.own 1) := by
  refine ⟨_, rfl, ?_⟩
  have hrun : (pipelineSystem Nat 2).run
      (Pipeline.init 2 fun fd => if fd < 3 then some fd else none) twoCommands = some _ := rfl
  have hwired := pipeline_wired hrun rfl (Fin.forall_fin_two.mpr ⟨rfl, rfl⟩)
  exact ⟨hwired.1 0, hwired.2.2.2.1 0 rfl, hwired.2.2.2.2 1 rfl⟩

end runs

end Acso.Processes
