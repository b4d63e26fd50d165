import Acso.Processes.Streams
import Acso.Shell.Typed

/-!
# What a typed line does

A turn of the main loop takes a line apart, its children give the arguments of the commands to
`execvp`, and the pipes lie between the programs.  So a line of filters does what their
composition does (`typedLine_composes`).
-/

namespace Acso.Shell

open Acso.Lib Acso.Lib.Descriptors Acso.Processes

/-- Each child of the turn gives `execvp` the arguments that were typed for its command, and so
starts the program. -/
def Starts {σ : Type} (program : List (List Byte) → σ) (commands : List (List (List Byte)))
    (turn : CommandLine) (start : Fin turn.commands.length → σ) : Prop :=
  ∀ i : Fin turn.commands.length, ∃ args given, commands[i.val]? = some args ∧
    childArgs (turn.command.drop turn.commands[i]) = .ok given ∧ given.argv = givenArgs args ∧
      start i = program given.argv

theorem Typed.ne_nil {commands : List (List (List Byte))} {line : List Byte}
    (h : Typed commands line) : commands ≠ [] := by
  induction h with
  | last | piped => exact List.cons_ne_nil _ _
  | front _ ih | behind _ ih => exact ih

/-- **A typed line composes its programs.**  The turn that reads the line has a child for each
command, which starts the program with the arguments that were typed.  If these programs are
filters, one of what the one before it writes, then in every order of the steps of the shell, its
children and the programs the line comes to an end, and has written what the last one writes. -/
theorem typedLine_composes {α σ : Type} (commands : List (List (List Byte))) (line : List Byte)
    (h : TypedCommands (commands, line)) (command rest : List Byte)
    (program : List (List Byte) → σ) (own : Descriptors α) (hown : Standard own)
    (hfinite : ∃ bound, ∀ fd, bound ≤ fd → own fd = none) (act : σ → Action Byte σ)
    (capacity : Nat) (hcapacity : 0 < capacity) (data : Nat → List Byte) (actions : Nat → Nat)
    (hfilters : ∀ i (hi : i < commands.length),
      Filters act (actions i) (program (givenArgs commands[i])) (data i) (data (i + 1))) :
    ∃ (turn : CommandLine) (command' : List Byte) (start : Fin turn.commands.length → σ),
      mainTurn ⟨command, line ++ newline :: rest⟩ = some (turn, ⟨command', rest⟩) ∧
      turn.commands.length = commands.length ∧ Starts program commands turn start ∧
      ∀ ls s, (jobSystem α turn.commands.length act capacity).run
          (Job.init turn.commands.length own start (data 0)) ls = some s →
        ls.length ≤ (Pipeline.init turn.commands.length own).left +
            tally id (fun i : Fin turn.commands.length => actions i) ∧
          s.Outcome act capacity (data commands.length) := by
  obtain ⟨tail, hturn⟩ := mainTurn_line h.newline h.length command rest
  rw [h.lineText] at hturn
  have hruns := runsCommands_split h tail
  rw [RunsCommands] at hruns
  generalize splitCommands (line ++ 0 :: tail) = turn at hturn hruns
  have hlength := hruns.length_eq
  have hpos : 0 < turn.commands.length := by
    rw [hlength]
    exact List.length_pos_iff.mpr h.typed.ne_nil
  refine ⟨turn, turn.command, fun i => program (givenArgs (commands.get (i.cast hlength))), hturn,
    hlength, ?_, ?_⟩
  · intro i
    have hi : i.val < commands.length := hlength ▸ i.isLt
    obtain ⟨given, hgiven, hargv⟩ := hruns.get i.isLt hi
    exact ⟨commands[i.val], given, List.getElem?_eq_getElem hi, hgiven, hargv,
      congrArg program hargv.symm⟩
  · intro ls s hrun
    have hstart : ∀ i : Fin turn.commands.length, Filters act (actions i)
        (program (givenArgs (commands.get (i.cast hlength)))) (data i) (data (i + 1)) := fun i =>
      hfilters i (hlength ▸ i.isLt)
    obtain ⟨left, hleft, hs⟩ := jobSound_run hown (sound_start _ hpos hstart) hrun
    have houtcome := job_outcome hpos hown hfinite hcapacity hs
    rw [congrArg data hlength] at houtcome
    exact ⟨by omega, houtcome⟩

/-- `echo` with one operand, which it ends with a newline, and `cat`. -/
def echoOrCat : List (List Byte) → EchoCat
  | [_, text] => .echo (text ++ [newline])
  | _ => .cat

/-- `echo -e 'a\\n' | cat` comes to its end with `a` and two newlines. -/
theorem echoCatLine_composes :
    ∃ (turn : CommandLine) (command' : List Byte) (start : Fin turn.commands.length → EchoCat),
      mainTurn ⟨List.replicate 256 0, echoCatLine ++ newline :: []⟩ = some (turn, ⟨command', []⟩) ∧
      Starts echoOrCat echoCatCommands turn start ∧
      ∃ ls s, (jobSystem Nat turn.commands.length EchoCat.act 1).run
          (Job.init turn.commands.length (fun fd => if fd < 3 then some fd else none) start []) ls =
            some s ∧
        s.pipeline.shell = .waiting ∧ (∀ i, s.line.running i = none) ∧
          s.line.stdout = [0x61, newline, newline] := by
  have htyped : TypedCommands (echoCatCommands, echoCatLine) :=
    ⟨echoCat_typed, echoCat_sound, by decide⟩
  have hfilters : ∀ i (hi : i < echoCatCommands.length), Filters EchoCat.act
      (if i = 0 then 4 else 8) (echoOrCat (givenArgs echoCatCommands[i]))
      (if i = 0 then [] else [0x61, newline, newline])
      (if i + 1 = 0 then [] else [0x61, newline, newline]) := by
    intro i hi
    match i, hi with
    | 0, _ => exact echo_filters [0x61, newline, newline]
    | 1, _ => exact cat_filters [0x61, newline, newline]
  obtain ⟨turn, command', start, hturn, -, hstart, hcomposes⟩ := typedLine_composes echoCatCommands
    echoCatLine htyped (List.replicate 256 0) [] echoOrCat
    (fun fd => if fd < 3 then some fd else none) ⟨rfl, rfl⟩
    ⟨3, fun fd hfd => if_neg (Nat.not_lt.mpr hfd)⟩ EchoCat.act 1 Nat.one_pos
    (fun i => if i = 0 then [] else [0x61, newline, newline]) (fun i => if i = 0 then 4 else 8)
    hfilters
  obtain ⟨ls, s, hrun, hfinal⟩ := (jobSystem Nat turn.commands.length EchoCat.act 1).exists_final_run
    fun ls s hrun => (hcomposes ls s hrun).1
  obtain ⟨hwaiting, hended, hstdout, -⟩ := (hcomposes ls s hrun).2.of_final hfinal
  exact ⟨turn, command', start, hturn, hstart, ls, s, hrun, hwaiting, hended, hstdout⟩

end Acso.Shell
