import Mathlib.Data.Fin.VecNotation
import Acso.Lib.Filters
import Acso.Lib.LittleEndian
import Acso.Processes.Pipeline

/-!
# What flows through a pipeline

The shell makes its pipes and forks its children while those that have come to `execvp` run
already.  A command is a process that reads its standard input, writes its standard output and
exits; what it gets is decided by the descriptors that are open: a read from an empty pipe waits
as long as a write end is open somewhere, also in the shell or in a child that has not closed it
yet, and a write to a pipe that no read end is open of kills the command.

* `step_line`: a command that runs takes a step of the line of commands.
* `jobSound_step`: every step of a job is one less to take.
* `job_composes`: in any order of steps the line of filters comes to its end, and what it has
  written is the composition of the filters.
-/

namespace Acso.Processes

open Acso.Lib Acso.Lib.Descriptors

/-- A pipeline with its commands; those that have exited are `none`. -/
structure Job (α σ : Type) (n : Nat) where
  pipeline : Pipeline α n
  line : Line Byte σ n

inductive JobLabel (n : Nat)
  /-- A step of the shell, or of a child before `execvp`. -/
  | setup (l : PipelineLabel n)
  /-- An action of a command. -/
  | act (i : Fin n)

namespace Job

variable {α σ : Type} {n : Nat} (s : Job α σ n)

/-- Some process has the file open. -/
def IsOpen (file : File α) : Prop :=
  (∃ fd, s.pipeline.shellTable fd = some file) ∨
    ∃ i, s.pipeline.commands i ≠ .notForked ∧ s.line.running i ≠ none ∧
      ∃ fd, s.pipeline.tables i fd = some file

open Classical in
/-- `read` from the standard input. -/
noncomputable def read (i : Fin n) (next : Option Byte → σ) : Option (Line Byte σ n) :=
  match s.pipeline.tables i 0 with
  | some (.own _) =>
    some { s.line.goTo i (some (next s.line.stdin.head?)) with stdin := s.line.stdin.tail }
  | some (.readEnd j) =>
    match s.line.buffers j with
    | [] => if s.IsOpen (.writeEnd j) then none else some (s.line.goTo i (some (next none)))
    | b :: rest =>
      some { s.line.goTo i (some (next (some b))) with
        buffers := Function.update s.line.buffers j rest }
  | _ => none

open Classical in
/-- `write` to the standard output; without a reader there is `SIGPIPE`. -/
noncomputable def write (capacity : Nat) (i : Fin n) (b : Byte) (next : σ) :
    Option (Line Byte σ n) :=
  match s.pipeline.tables i 1 with
  | some (.own _) => some { s.line.goTo i (some next) with stdout := s.line.stdout ++ [b] }
  | some (.writeEnd j) =>
    if s.IsOpen (.readEnd j) then
      if (s.line.buffers j).length < capacity then
        some { s.line.goTo i (some next) with
          buffers := Function.update s.line.buffers j (s.line.buffers j ++ [b]) }
      else none
    else some (s.line.goTo i none)
  | _ => none

noncomputable def command (act : σ → Action Byte σ) (capacity : Nat) (i : Fin n) :
    Option (Line Byte σ n) :=
  match s.pipeline.commands i, s.line.running i with
  | .execvp, some p =>
    match act p with
    | .read next => s.read i next
    | .write b next => s.write capacity i b next
    | .exit => some (s.line.goTo i none)
  | _, _ => none

noncomputable def step (act : σ → Action Byte σ) (capacity : Nat) : JobLabel n → Option (Job α σ n)
  | .setup l => (s.pipeline.step l).map fun pipeline => { s with pipeline := pipeline }
  | .act i => (s.command act capacity i).map fun line => { s with line := line }

end Job

/-- The shell, its children and their commands, in any order. -/
noncomputable def jobSystem (α : Type) {σ : Type} (n : Nat) (act : σ → Action Byte σ)
    (capacity : Nat) : System (Job α σ n) (JobLabel n) := ⟨fun s => s.step act capacity⟩

/-- Before the pipes are made. -/
def Job.init {α σ : Type} (n : Nat) (own : Descriptors α) (start : Fin n → σ) (stdin : List Byte) :
    Job α σ n :=
  ⟨Pipeline.init n own, ⟨fun i => some (start i), fun _ => [], stdin, []⟩⟩

/-! ## Who has been forked -/

/-- The children have been forked in their order, after the pipes have been made. -/
def ForkedBy {α : Type} {n : Nat} (s : Pipeline α n) : Prop :=
  match s.shell with
  | .piping _ => ∀ i, s.commands i = .notForked
  | .forking k => ∀ i : Fin n, s.commands i = .notForked ↔ k ≤ i
  | _ => ∀ i, s.commands i ≠ .notForked

section forked

variable {α : Type} {n : Nat} {base : Descriptors (File α)} {s s' : Pipeline α n}

theorem forkedBy_init (n : Nat) (own : Descriptors α) : ForkedBy (Pipeline.init n own) :=
  fun _ => rfl

theorem forkedBy_command (h : ForkedBy s) {i : Fin n} {pc : CommandPc} {t : Descriptors (File α)}
    (hi : s.commands i ≠ .notForked) (hpc : pc ≠ .notForked) : ForkedBy (s.setCommand i pc t) := by
  have hsame : ∀ j, (s.setCommand i pc t).commands j = .notForked ↔ s.commands j = .notForked := by
    intro j
    simp only [Pipeline.setCommand]
    by_cases hj : j = i
    · subst hj
      rw [Function.update_self]
      exact iff_of_false hpc hi
    · rw [Function.update_of_ne hj]
  unfold ForkedBy at h ⊢
  have hshell : (s.setCommand i pc t).shell = s.shell := rfl
  rw [hshell]
  cases hpc' : s.shell with
  | piping k =>
    rw [hpc'] at h
    exact fun j => (hsame j).mpr (h j)
  | forking k =>
    rw [hpc'] at h
    exact fun j => (hsame j).trans (h j)
  | closeRead k | closeWrite k | waiting =>
    rw [hpc'] at h
    exact fun j hj => h j ((hsame j).mp hj)

theorem forkedBy_shell (h : ForkedBy s) (hstep : s.shellStep = some s') : ForkedBy s' := by
  unfold Pipeline.shellStep at hstep
  split at hstep
  · rename_i i hpc
    rw [ForkedBy, hpc] at h
    split at hstep
    · cases hstep
    · obtain rfl := Option.some.inj hstep
      exact fun j => iff_of_true (h j) (Nat.zero_le _)
  · rename_i k hpc
    rw [ForkedBy, hpc] at h
    split at hstep
    · rename_i hk
      obtain rfl := Option.some.inj hstep
      intro j
      simp only [Pipeline.setCommand]
      by_cases hj : j = ⟨k, hk⟩
      · rw [hj, Function.update_self]
        exact iff_of_false (by simp) (by simp)
      · have hne : j.val ≠ k := fun heq => hj (Fin.ext heq)
        rw [Function.update_of_ne hj, h j]
        omega
    · rename_i hk
      obtain rfl := Option.some.inj hstep
      intro j hj
      have hle := (h j).mp hj
      have hlt := j.isLt
      omega
  · rename_i k hpc
    rw [ForkedBy, hpc] at h
    split at hstep
    · obtain rfl := Option.some.inj hstep
      exact h
    · obtain rfl := Option.some.inj hstep
      exact h
  · rename_i k hpc
    rw [ForkedBy, hpc] at h
    obtain rfl := Option.some.inj hstep
    exact h
  · cases hstep

theorem forkedBy_step {l : PipelineLabel n} (hsound : s.Sound base) (h : ForkedBy s)
    (hstep : s.step l = some s') : ForkedBy s' := by
  cases l with
  | pipe r w =>
    change s.pipeStep r w = some s' at hstep
    unfold Pipeline.pipeStep at hstep
    split at hstep
    · rename_i i hpiping
      rw [ForkedBy, hpiping] at h
      split at hstep
      · obtain rfl := Option.some.inj hstep
        exact h
      · cases hstep
    · cases hstep
  | shell => exact forkedBy_shell h hstep
  | command i =>
    obtain ⟨⟨pc, t⟩, hchild, rfl⟩ := Option.map_eq_some_iff.mp hstep
    have hforked : s.commands i ≠ .notForked := by
      intro hnot
      rw [hnot] at hchild
      cases hchild
    obtain ⟨hlength, hat⟩ := hsound.commands i hforked
    exact forkedBy_command h hforked (commandAt_step hsound.opened hlength i.isLt hat hchild).2

/-- Before a child the one before it has been forked. -/
theorem forked_before (h : ForkedBy s) {i j : Fin n} (hij : i ≤ j)
    (hj : s.commands j ≠ .notForked) : s.commands i ≠ .notForked := by
  unfold ForkedBy at h
  split at h
  · exact absurd (h j) hj
  · rw [Ne, h] at hj ⊢
    omega
  · exact h i

end forked

/-! ## The ends of a pipe -/

section ends

variable {α : Type} {base t : Descriptors (File α)} {pipes : List (Nat × Nat)} {n : Nat}

/-- A child has both ends of every pipe, or its standard input and output. -/
theorem commandAt_cases (hopened : Opened base pipes) {i : Nat} {pc : CommandPc}
    (hpc : pc ≠ .notForked) (h : CommandAt base pipes n i pc t) :
    (∀ e ∈ ends α 0 pipes, t e.1 = some e.2) ∨ ∀ fd < 3, t fd = wired base n i fd := by
  have hstandard : ∀ k : Nat, ∀ fd < 3,
      layer (wired base n i) ((ends α 0 pipes).drop k) fd = wired base n i fd := by
    intro k fd hfd
    refine layer_of_notMem fun hmem => hopened.notMem hfd ?_
    exact ((List.drop_sublist k _).map Prod.fst).subset hmem
  cases pc with
  | notForked => exact absurd rfl hpc
  | dupStdin =>
    refine .inl fun e he => ?_
    rw [show t = _ from h]
    exact layer_of_mem hopened.fresh.nodup he
  | dupStdout =>
    refine .inl fun e he => ?_
    rw [show t = _ from h]
    exact layer_of_mem hopened.fresh.nodup he
  | closeRead k =>
    rw [show t = _ from h]
    exact .inr (hstandard _)
  | closeWrite k =>
    rw [h.2]
    exact .inr (hstandard _)
  | execvp => exact .inr fun fd _ => congrFun h fd
  | failed => exact h.elim

variable {σ : Type} {s : Job α σ n} {i j : Fin n}

/-- **The write end** of a pipe is open as long as the command before the pipe has not ended. -/
theorem isOpen_writeEnd (hsound : s.pipeline.Sound base) (hforked : ForkedBy s.pipeline)
    (hij : j.val = i.val + 1) (hj : s.pipeline.commands j ≠ .notForked)
    (hi : s.line.running i ≠ none) : s.IsOpen (.writeEnd i) := by
  have hnot := forked_before hforked (show i ≤ j by rw [Fin.le_def]; omega) hj
  obtain ⟨hlength, hat⟩ := hsound.commands i hnot
  refine .inr ⟨i, hnot, hi, ?_⟩
  rcases commandAt_cases hsound.opened hnot hat with hends | hwired
  · have hend := List.mem_of_getElem? (ends_writeEnd (α := α) 0
      (show i.val < s.pipeline.pipes.length by omega))
    rw [Nat.zero_add] at hend
    exact ⟨_, hends _ hend⟩
  · refine ⟨1, (hwired 1 (by decide)).trans ?_⟩
    rw [wired_eq, if_pos ⟨rfl, by omega⟩]

/-- **The read end** is open as long as the command behind the pipe has not ended. -/
theorem isOpen_readEnd (hsound : s.pipeline.Sound base) (hforked : ForkedBy s.pipeline)
    (hij : j.val = i.val + 1) (hi : s.pipeline.commands i ≠ .notForked)
    (hj : s.line.running j ≠ none) : s.IsOpen (.readEnd i) := by
  obtain ⟨hlength, -⟩ := hsound.commands i hi
  have hend := List.mem_of_getElem? (ends_readEnd (α := α) 0
    (show i.val < s.pipeline.pipes.length by omega))
  rw [Nat.zero_add] at hend
  by_cases hnot : s.pipeline.commands j = .notForked
  · -- the shell is yet to fork it, and has the pipes
    refine .inl ⟨(pipeAt s.pipeline.pipes i).1, ?_⟩
    have hshell := hsound.shell
    unfold ForkedBy at hforked
    split at hforked
    · exact absurd (hforked i) hi
    · rename_i k hpc
      rw [hpc] at hshell
      rw [hshell.2]
      exact layer_of_mem hsound.opened.fresh.nodup hend
    · exact absurd hnot (hforked j)
  · obtain ⟨-, hat⟩ := hsound.commands j hnot
    refine .inr ⟨j, hnot, hj, ?_⟩
    rcases commandAt_cases hsound.opened hnot hat with hends | hwired
    · exact ⟨_, hends _ hend⟩
    · refine ⟨0, (hwired 0 (by decide)).trans ?_⟩
      rw [wired_eq, if_neg (fun h => absurd h.1 (by decide)), if_pos ⟨rfl, by omega⟩, hij,
        Nat.add_sub_cancel]

end ends

/-! ## The line of commands -/

section line

variable {α σ : Type} {n : Nat} {own : Descriptors α} {s s' : Job α σ n} {act : σ → Action Byte σ}
  {capacity : Nat} {output : List Byte} {outs : Nat → List Byte} {left : Fin n → Nat} {i : Fin n}

/-- The standard input and output of the shell are open. -/
structure Standard (own : Descriptors α) : Prop where
  stdin : (own 0).isSome
  stdout : (own 1).isSome

theorem table_stdin (hown : Standard own) (hsound : s.pipeline.Sound (shellFiles own))
    (hexec : s.pipeline.commands i = .execvp) :
    (i.val = 0 ∧ ∃ file, s.pipeline.tables i 0 = some (.own file)) ∨
      (i.val ≠ 0 ∧ s.pipeline.tables i 0 = some (.readEnd (i - 1))) := by
  have hat := (hsound.commands i (by simp [hexec])).2
  rw [hexec] at hat
  rw [show s.pipeline.tables i = _ from hat, wired_eq, if_neg (fun h => absurd h.1 (by decide))]
  by_cases hi : i.val = 0
  · obtain ⟨file, hfile⟩ := Option.isSome_iff_exists.mp hown.stdin
    refine .inl ⟨hi, file, ?_⟩
    rw [if_neg (by omega), shellFiles, hfile]
    rfl
  · exact .inr ⟨hi, if_pos ⟨rfl, by omega⟩⟩

theorem table_stdout (hown : Standard own) (hsound : s.pipeline.Sound (shellFiles own))
    (hexec : s.pipeline.commands i = .execvp) :
    (i.val + 1 = n ∧ ∃ file, s.pipeline.tables i 1 = some (.own file)) ∨
      (i.val + 1 ≠ n ∧ s.pipeline.tables i 1 = some (.writeEnd i)) := by
  have hat := (hsound.commands i (by simp [hexec])).2
  rw [hexec] at hat
  rw [show s.pipeline.tables i = _ from hat, wired_eq]
  by_cases hi : i.val + 1 = n
  · obtain ⟨file, hfile⟩ := Option.isSome_iff_exists.mp hown.stdout
    refine .inl ⟨hi, file, ?_⟩
    rw [if_neg (by omega), if_neg (fun h => absurd h.1 (by decide)), shellFiles, hfile]
    rfl
  · exact .inr ⟨hi, if_pos ⟨rfl, by omega⟩⟩

/-- **What a command does** is a step of the line. -/
theorem step_line (hown : Standard own) (hsound : s.pipeline.Sound (shellFiles own))
    (hforked : ForkedBy s.pipeline) (hflow : Flow act output s.line outs left)
    {line : Line Byte σ n} (hstep : s.command act capacity i = some line) :
    s.line.step act capacity i = some line := by
  unfold Job.command at hstep
  split at hstep
  · rename_i p hexec hp
    have hnot : s.pipeline.commands i ≠ .notForked := by simp [hexec]
    rw [Line.step, hp]
    dsimp only
    split at hstep
    · rename_i next hact
      rw [hact]
      dsimp only
      rw [Job.read] at hstep
      rw [Line.read]
      rcases table_stdin hown hsound hexec with ⟨hi, file, htable⟩ | ⟨hi, htable⟩
      · rw [htable] at hstep
        rwa [if_pos hi]
      · rw [htable] at hstep
        rw [if_neg hi]
        dsimp only at hstep
        split at hstep
        · rename_i hempty
          rw [hempty]
          split at hstep
          · cases hstep
          · rename_i hopen
            refine (if_pos ?_).trans hstep
            -- nobody has the write end, so the command before has ended
            intro j hj
            by_contra hrunning
            have hwrite := isOpen_writeEnd hsound hforked hj.symm hnot hrunning
            rw [show j.val = i.val - 1 by omega] at hwrite
            exact hopen hwrite
        · rename_i b rest hbuffer
          rw [hbuffer]
          exact hstep
    · rename_i b next hact
      rw [hact]
      dsimp only
      rw [Job.write] at hstep
      rw [Line.write]
      rcases table_stdout hown hsound hexec with ⟨hi, file, htable⟩ | ⟨hi, htable⟩
      · rw [htable] at hstep
        rwa [if_pos hi]
      · rw [htable] at hstep
        rw [if_neg hi]
        dsimp only at hstep
        by_cases hopen : s.IsOpen (.readEnd i)
        · rwa [if_pos hopen] at hstep
        · -- the command behind has read everything, but there is more to write
          have hended : s.line.running ⟨i + 1, by omega⟩ = none := by
            by_contra hrunning
            exact hopen (isOpen_readEnd hsound hforked rfl hnot hrunning)
          obtain ⟨-, hpending, -⟩ := hflow.ended hended
          rw [Line.pending, if_neg (Nat.succ_ne_zero _)] at hpending
          obtain ⟨k, out, -, hout, -⟩ := (hflow.filters hp).of_write hact
          have hnil : outs i = [] := (List.append_eq_nil_iff.mp hpending).2
          rw [hout] at hnil
          cases hnil
    · rename_i hact
      rw [hact]
      exact hstep
  · cases hstep

/-- When the shell waits, an end of a pipe is open in one command only. -/
theorem not_isOpen_writeEnd (hsound : s.pipeline.Sound (shellFiles own))
    (hwaiting : s.pipeline.shell = .waiting) (hexec : ∀ i, s.pipeline.commands i = .execvp)
    {j : Nat} (hended : ∀ k : Fin n, k.val = j → s.line.running k = none) :
    ¬ s.IsOpen (.writeEnd j) := by
  rintro (⟨fd, hfd⟩ | ⟨k, -, hrunning, fd, hfd⟩)
  · have hshell := hsound.shell
    rw [hwaiting] at hshell
    rw [hshell.2] at hfd
    exact shellFiles_ne_writeEnd own fd j hfd
  · have hat := (hsound.commands k (by simp [hexec k])).2
    rw [hexec k] at hat
    rw [show s.pipeline.tables k = _ from hat, wired_writeEnd] at hfd
    exact hrunning (hended k hfd.2.1)

/-- When all commands run, **a step of the line is taken**. -/
theorem command_isSome (hown : Standard own) (hsound : s.pipeline.Sound (shellFiles own))
    (hwaiting : s.pipeline.shell = .waiting) (hexec : ∀ i, s.pipeline.commands i = .execvp)
    (hstep : (s.line.step act capacity i).isSome) : (s.command act capacity i).isSome := by
  rw [Line.step] at hstep
  cases hp : s.line.running i with
  | none =>
    rw [hp] at hstep
    cases hstep
  | some p =>
    rw [hp] at hstep
    rw [Job.command, hexec i, hp]
    dsimp only at hstep ⊢
    cases hact : act p with
    | exit => rfl
    | read next =>
      rw [hact] at hstep
      dsimp only at hstep ⊢
      rw [Line.read] at hstep
      rw [Job.read]
      rcases table_stdin hown hsound (hexec i) with ⟨hi, file, htable⟩ | ⟨hi, htable⟩
      · rw [htable]
        rfl
      · rw [if_neg hi] at hstep
        rw [htable]
        dsimp only
        split
        · rename_i hempty
          rw [hempty] at hstep
          by_cases hbefore : s.line.EndedBefore i
          · rw [if_neg (not_isOpen_writeEnd hsound hwaiting hexec fun k hk => hbefore k (by omega))]
            rfl
          · dsimp only at hstep
            rw [if_neg hbefore] at hstep
            cases hstep
        · rfl
    | write b next =>
      rw [hact] at hstep
      dsimp only at hstep ⊢
      rw [Line.write] at hstep
      rw [Job.write]
      rcases table_stdout hown hsound (hexec i) with ⟨hi, file, htable⟩ | ⟨hi, htable⟩
      · rw [htable]
        rfl
      · rw [if_neg hi] at hstep
        rw [htable]
        dsimp only
        by_cases hopen : s.IsOpen (.readEnd i)
        · rwa [if_pos hopen]
        · rw [if_neg hopen]
          rfl

end line

/-! ## How many steps there are -/

/-- The steps of the shell until it waits. -/
def ShellPc.left (n : Nat) : ShellPc → Nat
  | .piping i => (n - 1 - i) + 1 + (n + 1 + (2 * (n - 1) + 1))
  | .forking k => (n - k) + 1 + (2 * (n - 1) + 1)
  | .closeRead j => 2 * (n - 1 - j) + 1
  | .closeWrite j => 2 * (n - 1 - j)
  | .waiting => 0

/-- The steps of a child until `execvp`. -/
def CommandPc.left (n : Nat) : CommandPc → Nat
  | .notForked | .dupStdin => 2 * (n - 1) + 3
  | .dupStdout => 2 * (n - 1) + 2
  | .closeRead j => 2 * (n - 1 - j) + 1
  | .closeWrite j => 2 * (n - 1 - j)
  | .execvp | .failed => 0

def Pipeline.left {α : Type} {n : Nat} (s : Pipeline α n) : Nat :=
  s.shell.left n + tally (CommandPc.left n) s.commands

section left

variable {α : Type} {n : Nat} {base t t' : Descriptors (File α)} {pipes : List (Nat × Nat)}
  {s s' : Pipeline α n}

theorem dupTo_fst {old new : Nat} {pc : CommandPc} :
    (dupTo t old new pc).1 = pc ∨ (dupTo t old new pc).1 = .failed := by
  unfold dupTo
  split
  · exact .inl rfl
  · exact .inr rfl

theorem left_commandStep (hopened : Opened base pipes) (hlength : pipes.length = n - 1) {i : Nat}
    (hi : i < n) {pc pc' : CommandPc} (hat : CommandAt base pipes n i pc t)
    (hstep : commandStep n pipes t i pc = some (pc', t')) : pc.left n = pc'.left n + 1 := by
  have hfailed : pc' ≠ .failed := by
    rintro rfl
    exact (commandAt_step hopened hlength hi hat hstep).1
  cases pc with
  | notForked | execvp | failed => cases hstep
  | dupStdin =>
    rw [commandStep] at hstep
    split at hstep
    · have hpc : (dupTo t (pipeAt pipes (i - 1)).1 0 .dupStdout).1 = pc' :=
        congrArg Prod.fst (Option.some.inj hstep)
      rw [← hpc] at hfailed ⊢
      rw [dupTo_fst.resolve_right hfailed]
      rfl
    · cases hstep
      rfl
  | dupStdout =>
    rw [commandStep] at hstep
    split at hstep
    · have hpc : (dupTo t (pipeAt pipes i).2 1 (.closeRead 0)).1 = pc' :=
        congrArg Prod.fst (Option.some.inj hstep)
      rw [← hpc] at hfailed ⊢
      rw [dupTo_fst.resolve_right hfailed]
      rfl
    · cases hstep
      rfl
  | closeRead j =>
    rw [commandStep] at hstep
    split at hstep
    · cases hstep
      rfl
    · rename_i hj
      cases hstep
      simp only [CommandPc.left]
      omega
  | closeWrite j =>
    have hj : j < n - 1 := hat.1
    cases hstep
    simp only [CommandPc.left]
    omega

/-- **A step before the commands run** is one less. -/
theorem setupLeft_step {l : PipelineLabel n} (hsound : s.Sound base) (hforked : ForkedBy s)
    (hstep : s.step l = some s') : s.left = s'.left + 1 := by
  cases l with
  | pipe r w =>
    change s.pipeStep r w = some s' at hstep
    unfold Pipeline.pipeStep at hstep
    split at hstep
    · rename_i i hpc
      split at hstep
      · rename_i hfds
        obtain rfl := Option.some.inj hstep
        simp only [Pipeline.left, hpc, ShellPc.left]
        omega
      · cases hstep
    · cases hstep
  | shell =>
    have hshell := hsound.shell
    change s.shellStep = some s' at hstep
    unfold Pipeline.shellStep at hstep
    split at hstep
    · rename_i i hpc
      split at hstep
      · cases hstep
      · obtain rfl := Option.some.inj hstep
        simp only [Pipeline.left, hpc, ShellPc.left]
        omega
    · rename_i k hpc
      rw [ForkedBy, hpc] at hforked
      split at hstep
      · rename_i hk
        obtain rfl := Option.some.inj hstep
        have htally := tally_update (CommandPc.left n) s.commands ⟨k, hk⟩ .dupStdin
        rw [(hforked ⟨k, hk⟩).mpr (Nat.le_refl k)] at htally
        simp only [Pipeline.left, Pipeline.setCommand, hpc, ShellPc.left, CommandPc.left] at htally ⊢
        omega
      · obtain rfl := Option.some.inj hstep
        simp only [Pipeline.left, hpc, ShellPc.left]
        omega
    · rename_i j hpc
      split at hstep
      · obtain rfl := Option.some.inj hstep
        simp only [Pipeline.left, hpc, ShellPc.left]
        omega
      · obtain rfl := Option.some.inj hstep
        simp only [Pipeline.left, hpc, ShellPc.left]
        omega
    · rename_i j hpc
      rw [hpc] at hshell
      have hj : j < n - 1 := hshell.2.1
      obtain rfl := Option.some.inj hstep
      simp only [Pipeline.left, hpc, ShellPc.left]
      omega
    · cases hstep
  | command i =>
    obtain ⟨⟨pc, t⟩, hchild, rfl⟩ := Option.map_eq_some_iff.mp hstep
    have hnot : s.commands i ≠ .notForked := by
      intro hnot
      rw [hnot] at hchild
      cases hchild
    obtain ⟨hlength, hat⟩ := hsound.commands i hnot
    have hleft := left_commandStep hsound.opened hlength i.isLt hat hchild
    have htally := tally_update (CommandPc.left n) s.commands i pc
    simp only [Pipeline.left, Pipeline.setCommand]
    omega

/-- There are descriptors that are not in use. -/
theorem exists_free (own : Descriptors α) (hfinite : ∃ bound, ∀ fd, bound ≤ fd → own fd = none)
    (pipes : List (Nat × Nat)) : ∃ r w, 3 ≤ r ∧ 3 ≤ w ∧ r ≠ w ∧
      (layer (shellFiles own) (ends α 0 pipes) r).isNone ∧
      (layer (shellFiles own) (ends α 0 pipes) w).isNone := by
  obtain ⟨bound, hbound⟩ := hfinite
  let top := ((ends α 0 pipes).map Prod.fst).sum
  have hfree : ∀ fd, bound + top < fd → (layer (shellFiles own) (ends α 0 pipes) fd).isNone := by
    intro fd hfd
    rw [Option.isNone_iff_eq_none, layer_eq_none]
    refine ⟨fun hmem => ?_, ?_⟩
    · have hle : fd ≤ top := List.single_le_sum (fun _ _ => Nat.zero_le _) fd hmem
      omega
    · rw [shellFiles, hbound fd (by omega), Option.map_none]
  exact ⟨bound + top + 3, bound + top + 4, by omega, by omega, by omega, hfree _ (by omega),
    hfree _ (by omega)⟩

/-- **The shell and its children do not get stuck** before all commands run. -/
theorem setup_progress {own : Descriptors α} (hfinite : ∃ bound, ∀ fd, bound ≤ fd → own fd = none)
    (hsound : s.Sound (shellFiles own)) (hforked : ForkedBy s) :
    (∃ l, (s.step l).isSome) ∨ s.shell = .waiting ∧ ∀ i, s.commands i = .execvp := by
  have hshell := hsound.shell
  cases hpc : s.shell with
  | piping i =>
    rw [hpc] at hshell
    by_cases hi : i < n - 1
    · obtain ⟨r, w, hr3, hw3, hrw, hr, hw⟩ := exists_free own hfinite s.pipes
      rw [← hshell.2.2] at hr hw
      refine .inl ⟨.pipe r w, ?_⟩
      show (s.pipeStep r w).isSome
      rw [Pipeline.pipeStep, hpc]
      dsimp only
      rw [if_pos ⟨hi, hr3, hw3, hrw, hr, hw⟩]
      rfl
    · refine .inl ⟨.shell, ?_⟩
      show s.shellStep.isSome
      rw [Pipeline.shellStep, hpc]
      dsimp only
      rw [if_neg hi]
      rfl
  | forking k =>
    refine .inl ⟨.shell, ?_⟩
    show s.shellStep.isSome
    rw [Pipeline.shellStep, hpc]
    dsimp only
    split <;> rfl
  | closeRead j =>
    refine .inl ⟨.shell, ?_⟩
    show s.shellStep.isSome
    rw [Pipeline.shellStep, hpc]
    dsimp only
    split <;> rfl
  | closeWrite j =>
    refine .inl ⟨.shell, ?_⟩
    show s.shellStep.isSome
    rw [Pipeline.shellStep, hpc]
    rfl
  | waiting =>
    rw [ForkedBy, hpc] at hforked
    by_cases hexec : ∀ i, s.commands i = .execvp
    · exact .inr ⟨rfl, hexec⟩
    · obtain ⟨i, hi⟩ := not_forall.mp hexec
      obtain ⟨-, hat⟩ := hsound.commands i (hforked i)
      refine .inl ⟨.command i, ?_⟩
      show ((commandStep n s.pipes (s.tables i) i (s.commands i)).map _).isSome
      rw [Option.isSome_map]
      cases hci : s.commands i with
      | notForked => exact absurd hci (hforked i)
      | execvp => exact absurd hci hi
      | failed =>
        rw [hci] at hat
        exact hat.elim
      | dupStdin | dupStdout | closeRead j =>
        rw [commandStep]
        split <;> rfl
      | closeWrite j => rfl

end left

/-! ## Jobs -/

section jobs

variable {α σ : Type} {n : Nat} {own : Descriptors α} {act : σ → Action Byte σ} {capacity : Nat}
  {output : List Byte} {s s' : Job α σ n}

/-- What every step keeps, with `left` steps to take. -/
structure Job.Sound (own : Descriptors α) (act : σ → Action Byte σ) (output : List Byte)
    (left : Nat) (s : Job α σ n) : Prop where
  pipeline : s.pipeline.Sound (shellFiles own)
  forked : ForkedBy s.pipeline
  flow : ∃ outs actions, Flow act output s.line outs actions ∧
    s.pipeline.left + tally id actions = left

/-- **Every step** is one less to take. -/
theorem jobSound_step (hown : Standard own) {left : Nat} (h : s.Sound own act output left)
    {l : JobLabel n} (hstep : (jobSystem α n act capacity).step s l = some s') :
    ∃ left', left = left' + 1 ∧ s'.Sound own act output left' := by
  obtain ⟨hsound, hforked, outs, actions, hflow, hleft⟩ := h
  cases l with
  | setup l =>
    obtain ⟨pipeline, hp, rfl⟩ := Option.map_eq_some_iff.mp hstep
    have hdecrease := setupLeft_step hsound hforked hp
    exact ⟨pipeline.left + tally id actions, by omega, sound_step hsound hp,
      forkedBy_step hsound hforked hp, outs, actions, hflow, rfl⟩
  | act i =>
    obtain ⟨line, hline, rfl⟩ := Option.map_eq_some_iff.mp hstep
    obtain ⟨outs', actions', hflow', htally⟩ :=
      hflow.step (step_line hown hsound hforked hflow hline)
    exact ⟨s.pipeline.left + tally id actions', by omega, hsound, hforked, outs', actions', hflow',
      rfl⟩

theorem jobSound_run (hown : Standard own) {left : Nat} (h : s.Sound own act output left)
    {ls : List (JobLabel n)} (hrun : (jobSystem α n act capacity).run s ls = some s') :
    ∃ left', left = left' + ls.length ∧ s'.Sound own act output left' := by
  induction ls generalizing s left with
  | nil =>
    obtain rfl := Option.some.inj hrun
    exact ⟨left, rfl, h⟩
  | cons l ls ih =>
    obtain ⟨r, hr, hrest⟩ := (jobSystem α n act capacity).run_cons_eq_some.mp hrun
    obtain ⟨left₁, rfl, h₁⟩ := jobSound_step hown h hr
    obtain ⟨left₂, rfl, h₂⟩ := ih h₁ hrest
    exact ⟨left₂, by rw [List.length_cons]; omega, h₂⟩

/-- **A job does not get stuck** before all its commands have exited. -/
theorem job_progress (hown : Standard own) (hfinite : ∃ bound, ∀ fd, bound ≤ fd → own fd = none)
    (hcapacity : 0 < capacity) {left : Nat} (h : s.Sound own act output left) :
    (∃ l, ((jobSystem α n act capacity).step s l).isSome) ∨
      s.pipeline.shell = .waiting ∧ ∀ i, s.line.running i = none := by
  obtain ⟨hsound, hforked, outs, actions, hflow, -⟩ := h
  rcases setup_progress hfinite hsound hforked with ⟨l, hl⟩ | ⟨hwaiting, hexec⟩
  · refine .inl ⟨.setup l, ?_⟩
    show ((s.pipeline.step l).map _).isSome
    rwa [Option.isSome_map]
  · by_cases hended : ∀ i, s.line.running i = none
    · exact .inr ⟨hwaiting, hended⟩
    · obtain ⟨i, hi⟩ := not_forall.mp hended
      obtain ⟨j, hj⟩ := hflow.progress hcapacity hi
      refine .inl ⟨.act j, ?_⟩
      show ((s.command act capacity j).map _).isSome
      rw [Option.isSome_map]
      exact command_isSome hown hsound hwaiting hexec hj

theorem sound_start (start : Fin n → σ) {data : Nat → List Byte} {actions : Fin n → Nat}
    (hn : 0 < n)
    (hfilters : ∀ i : Fin n, Filters act (actions i) (start i) (data i) (data (i + 1))) :
    (Job.init n own start (data 0)).Sound own act (data n)
      ((Pipeline.init n own).left + tally id actions) := by
  refine ⟨sound_init n own, forkedBy_init n own, fun j => data (j + 1), actions, ⟨?_, ?_⟩, rfl⟩
  · intro i
    have hpending : (Job.init n own start (data 0)).line.pending (fun j => data (j + 1)) i =
        data i := by
      rw [Line.pending]
      split
      · rename_i hi
        rw [hi]
        rfl
      · rename_i hi
        exact congrArg data (Nat.sub_add_cancel (Nat.one_le_iff_ne_zero.mpr hi))
    rw [hpending]
    exact .running (hfilters i)
  · exact congrArg data (Nat.sub_add_cancel hn)

/-- What a job has come to: a part of what the last command writes, and if there is no step, all of
it. -/
def Job.Outcome (act : σ → Action Byte σ) (capacity : Nat) (output : List Byte) (s : Job α σ n) :
    Prop :=
  s.line.stdout <+: output ∧
    ((∃ l, ((jobSystem α n act capacity).step s l).isSome) ∨
      s.pipeline.shell = .waiting ∧ (∀ i, s.line.running i = none) ∧
        s.line.stdout = output ∧ s.line.stdin = [] ∧ ∀ j, j + 1 < n → s.line.buffers j = [])

/-- Where there is no step, everything is done. -/
theorem Job.Outcome.of_final (h : s.Outcome act capacity output)
    (hfinal : ∀ l, (jobSystem α n act capacity).step s l = none) :
    s.pipeline.shell = .waiting ∧ (∀ i, s.line.running i = none) ∧
      s.line.stdout = output ∧ s.line.stdin = [] ∧ ∀ j, j + 1 < n → s.line.buffers j = [] := by
  refine h.2.resolve_left ?_
  rintro ⟨l, hl⟩
  rw [hfinal l] at hl
  cases hl

theorem job_outcome (hn : 0 < n) (hown : Standard own)
    (hfinite : ∃ bound, ∀ fd, bound ≤ fd → own fd = none) (hcapacity : 0 < capacity) {left : Nat}
    (h : s.Sound own act output left) : s.Outcome act capacity output := by
  have hprogress := job_progress hown hfinite hcapacity h
  obtain ⟨-, -, outs, actions, hflow, -⟩ := h
  refine ⟨⟨_, hflow.output⟩, hprogress.imp_right ?_⟩
  rintro ⟨hwaiting, hended⟩
  obtain ⟨hstdout, hstdin, hbuffers⟩ := hflow.done hended hn
  exact ⟨hwaiting, hended, hstdout, hstdin, hbuffers⟩

/-- **A pipeline composes its commands.**  Take commands of which each filters what the one
before it writes, and pipes that hold anything at all.  In every order of the steps of the shell,
its children and the commands there is an end to them, what has been written is a part of what
the last command writes, and there is a step until the shell waits for commands that have all
exited; then everything has been read and written. -/
theorem job_composes (hn : 0 < n) (own : Descriptors α) (hown : Standard own)
    (hfinite : ∃ bound, ∀ fd, bound ≤ fd → own fd = none) (act : σ → Action Byte σ)
    (capacity : Nat) (hcapacity : 0 < capacity) (start : Fin n → σ) (data : Nat → List Byte)
    (actions : Fin n → Nat)
    (hfilters : ∀ i : Fin n, Filters act (actions i) (start i) (data i) (data (i + 1)))
    (ls : List (JobLabel n)) (s : Job α σ n)
    (hrun : (jobSystem α n act capacity).run (Job.init n own start (data 0)) ls = some s) :
    ls.length ≤ (Pipeline.init n own).left + tally id actions ∧
      s.Outcome act capacity (data n) := by
  obtain ⟨left, hleft, hs⟩ := jobSound_run hown (sound_start start hn hfilters) hrun
  exact ⟨by omega, job_outcome hn hown hfinite hcapacity hs⟩

end jobs

/-- Where `echo`, with a text, and `cat` stand. -/
inductive EchoCat
  | echo (text : List Byte)
  | cat
  | holds (b : Byte)
  | ended

def EchoCat.act : EchoCat → Action Byte EchoCat
  | .echo [] | .ended => .exit
  | .echo (b :: text) => .write b (.echo text)
  | .cat => .read fun
    | none => .ended
    | some b => .holds b
  | .holds b => .write b .cat

theorem echo_filters (text : List Byte) :
    Filters EchoCat.act (text.length + 1) (.echo text) [] text := by
  induction text with
  | nil => exact .exit rfl
  | cons b text ih => exact .write rfl ih

theorem cat_filters (text : List Byte) :
    Filters EchoCat.act (2 * text.length + 2) .cat text text := by
  induction text with
  | nil => exact .eof rfl (.exit rfl)
  | cons b text ih => exact .read rfl (.write rfl ih)

/-- `echo hi | cat`, with a pipe that holds one byte, comes to its end with `hi`. -/
theorem echoCat_composes :
    ∃ ls s, (jobSystem Nat 2 EchoCat.act 1).run
        (Job.init 2 (fun fd => if fd < 3 then some fd else none)
          ![EchoCat.echo [104, 105], .cat] []) ls = some s ∧
      s.pipeline.shell = .waiting ∧ (∀ i, s.line.running i = none) ∧ s.line.stdout = [104, 105] := by
  have hcomposes := job_composes Nat.two_pos (fun fd => if fd < 3 then some fd else none) ⟨rfl, rfl⟩
    ⟨3, fun fd hfd => if_neg (Nat.not_lt.mpr hfd)⟩ EchoCat.act 1 Nat.one_pos
    ![EchoCat.echo [104, 105], .cat] (fun i => if i = 0 then [] else [104, 105]) ![3, 6]
    (Fin.forall_fin_two.mpr ⟨echo_filters [104, 105], cat_filters [104, 105]⟩)
  obtain ⟨ls, s, hrun, hfinal⟩ := (jobSystem Nat 2 EchoCat.act 1).exists_final_run
    fun ls s hrun => (hcomposes ls s hrun).1
  obtain ⟨hwaiting, hended, hstdout, -⟩ := (hcomposes ls s hrun).2.of_final hfinal
  exact ⟨ls, s, hrun, hwaiting, hended, hstdout⟩

end Acso.Processes
