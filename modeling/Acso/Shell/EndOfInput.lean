import Acso.Shell.MainLoop

/-!
# The end of the input

When there is no more input, `command` still holds what the last turn has left in it: its first
word, with its NUL.  So every further turn runs this word as a command, and there is always a
further turn.

* `mainLoop_lines`: as long as there are lines, every turn runs the commands of its line.
* `mainLoop_repeats`: behind the last line, every turn runs the first command of it again.
* `not_eachLineOnce`: so there is no input of which every line is run once.
-/

namespace Acso.Shell

open Acso.Lib

/-! ## At the end of the input -/

/-- The buffer starts with separators, and a word with its NUL. -/
structure FirstWord (command w : List Byte) : Prop where
  word : segments pipeChar w = [w]
  nul : (0 : Byte) ∉ w
  newline : newline ∉ w
  starts : ∃ seps more, (∀ c ∈ seps, c = pipeChar) ∧ command = seps ++ (w ++ 0 :: more)

theorem splitCommands_first {text w : List Byte} {ws : List (List Byte)} (hnul : (0 : Byte) ∉ text)
    (hline : newline ∉ text) (hfirst : segments pipeChar text = w :: ws) (tail : List Byte) :
    FirstWord (splitCommands (text ++ 0 :: tail)).command w := by
  have hmem : w ∈ segments pipeChar text := by simp [hfirst]
  have hsub : w ⊆ text := subset_of_mem_segments hmem
  obtain ⟨seps, more, hseps, hcommand⟩ := strtokWords_first pipeChar_ne_zero hnul hfirst tail
  exact ⟨segments_of_isToken (isToken_of_mem_segments hmem), fun h => hnul (hsub h),
    fun h => hline (hsub h), seps, more, hseps, hcommand⟩

/-- **A turn without input** runs the word again. -/
theorem FirstWord.again {command w : List Byte} (h : FirstWord command w) :
    ∃ line, mainTurn ⟨command, []⟩ = some (line, ⟨line.command, []⟩) ∧ line.strings = [w] ∧
      FirstWord line.command w := by
  obtain ⟨seps, more, hseps, rfl⟩ := h.starts
  have hsegments : segments pipeChar (seps ++ w) = [w] := by
    rw [segments_skip hseps, h.word]
  have hnul : (0 : Byte) ∉ seps ++ w := by
    rw [List.mem_append, not_or]
    exact ⟨fun hmem => pipeChar_ne_zero (hseps 0 hmem).symm, h.nul⟩
  have hline : Shell.newline ∉ seps ++ w := by
    rw [List.mem_append, not_or]
    exact ⟨fun hmem => absurd (hseps _ hmem) (by decide), h.newline⟩
  have hturn : mainTurn ⟨seps ++ (w ++ 0 :: more), []⟩ = _ :=
    mainTurn_eq hnul hline (.inl rfl) (List.append_assoc seps w (0 :: more)).symm
  refine ⟨_, hturn, ?_, splitCommands_first hnul hline hsegments more⟩
  rw [splitCommands_strings hnul, hsegments]

theorem FirstWord.mainLoop {command w : List Byte} (h : FirstWord command w) (n : Nat) :
    ∃ turns s, mainLoop n ⟨command, []⟩ = some (turns, s) ∧
      turns.map CommandLine.strings = List.replicate n [w] := by
  induction n generalizing command with
  | zero => exact ⟨[], _, rfl, rfl⟩
  | succ n ih =>
    obtain ⟨line, hturn, hstrings, hnext⟩ := h.again
    obtain ⟨turns, s, hloop, hturns⟩ := ih hnext
    refine ⟨line :: turns, s, ?_, ?_⟩
    · rw [Shell.mainLoop, hturn, Option.bind_eq_bind, Option.bind_some]
      dsimp only
      rw [hloop]
      rfl
    · rw [List.map_cons, hstrings, hturns, List.replicate_succ]

/-! ## Lines of input -/

/-- A line of at most 254 characters with a stage that is not blank. -/
structure TypedLine (line : List Byte) : Prop where
  newline : newline ∉ line
  length : line.length ≤ 254
  stage : ∃ piece ∈ segments pipeChar (lineText line), ∃ c ∈ piece, c ≠ space

/-- The lines, each with its newline. -/
def inputOf (lines : List (List Byte)) : List Byte := lines.flatMap fun line => line ++ [newline]

/-- The commands of a line. -/
def commandsOf (line : List Byte) : List (List Byte) := segments pipeChar (lineText line)

theorem TypedLine.commandsOf_ne_nil {line : List Byte} (h : TypedLine line) :
    commandsOf line ≠ [] := by
  obtain ⟨piece, hpiece, -⟩ := h.stage
  exact List.ne_nil_of_mem hpiece

theorem inputOf_append (lines rest : List (List Byte)) :
    inputOf (lines ++ rest) = inputOf lines ++ inputOf rest := List.flatMap_append

/-- **Over the lines**, every turn runs the commands of its line. -/
theorem mainLoop_lines {lines : List (List Byte)} (hlines : ∀ line ∈ lines, TypedLine line)
    (command rest : List Byte) :
    ∃ turns command', mainLoop lines.length ⟨command, inputOf lines ++ rest⟩ =
        some (turns, ⟨command', rest⟩) ∧
      turns.map CommandLine.strings = lines.map commandsOf := by
  induction lines generalizing command with
  | nil => exact ⟨[], command, rfl, rfl⟩
  | cons line lines ih =>
    obtain ⟨hline, hrest⟩ := List.forall_mem_cons.mp hlines
    have hinput : inputOf (line :: lines) ++ rest = line ++ newline :: (inputOf lines ++ rest) := by
      simp [inputOf]
    obtain ⟨tail, hturn⟩ := mainTurn_line hline.newline hline.length command (inputOf lines ++ rest)
    obtain ⟨turns, command', hloop, hturns⟩ := ih hrest
      (splitCommands (lineText line ++ 0 :: tail)).command
    refine ⟨splitCommands (lineText line ++ 0 :: tail) :: turns, command', ?_, ?_⟩
    · rw [hinput, List.length_cons, mainLoop, hturn, Option.bind_eq_bind, Option.bind_some]
      dsimp only
      rw [hloop]
      rfl
    · rw [List.map_cons, List.map_cons, hturns, splitCommands_strings (zero_notMem_lineText line)]
      rfl

/-- **Behind the last line** every turn runs the first command of it again. -/
theorem mainLoop_repeats {lines : List (List Byte)} {last : List Byte}
    (hlines : ∀ line ∈ lines ++ [last], TypedLine line) {w : List Byte} {ws : List (List Byte)}
    (hlast : commandsOf last = w :: ws) (command : List Byte) (n : Nat) :
    ∃ turns s, mainLoop ((lines ++ [last]).length + n) ⟨command, inputOf (lines ++ [last])⟩ =
        some (turns, s) ∧
      turns.map CommandLine.strings = (lines ++ [last]).map commandsOf ++ List.replicate n [w] := by
  have htyped := hlines last (by simp)
  have hfront : ∀ line ∈ lines, TypedLine line := fun line hline => hlines line (by simp [hline])
  obtain ⟨turns, command', hloop, hturns⟩ := mainLoop_lines hfront command (last ++ newline :: [])
  obtain ⟨tail, hturn⟩ := mainTurn_line htyped.newline htyped.length command' []
  have hword := splitCommands_first (zero_notMem_lineText last)
    (newline_notMem_lineText htyped.newline) hlast tail
  obtain ⟨turns', s, hloop', hturns'⟩ := hword.mainLoop n
  have hinput : inputOf (lines ++ [last]) = inputOf lines ++ (last ++ newline :: []) := by
    rw [inputOf_append]
    simp [inputOf]
  refine ⟨turns ++ (splitCommands (lineText last ++ 0 :: tail) :: turns'), s, ?_, ?_⟩
  · rw [List.length_append, List.length_singleton, Nat.add_assoc, Nat.add_comm 1, mainLoop_add,
      hinput, hloop, Option.bind_some, mainLoop, hturn, Option.bind_eq_bind, Option.bind_some]
    dsimp only
    rw [hloop']
    rfl
  · rw [List.map_append, List.map_cons, hturns, hturns',
      splitCommands_strings (zero_notMem_lineText last), List.map_append, List.append_assoc]
    rfl

theorem pipelines_eq {turns : List CommandLine}
    (h : ∀ commands ∈ turns.map CommandLine.strings, commands ≠ []) :
    pipelines turns = turns.map CommandLine.strings :=
  List.filter_eq_self.mpr fun commands hmem => decide_eq_true (h commands hmem)

/-- One pipeline for every line, in order, and then `main` returns. -/
def EachLineOnce (command : List Byte) (lines : List (List Byte)) : Prop :=
  ∃ turns, Returns ⟨command, inputOf lines⟩ turns ∧ pipelines turns = lines.map commandsOf

/-- **No input is run line by line** and then left: `main` does not return, and every turn behind the
last line runs the first command of it again. -/
theorem not_eachLineOnce (garbage : Vector Byte commandSize) (lines : List (List Byte))
    (hlines : ∀ line ∈ lines, TypedLine line) :
    ¬ EachLineOnce garbage.toList lines ∧
      ∀ last ∈ lines.getLast?, ∃ w, (commandsOf last).head? = some w ∧ ∀ n, ∃ turns s,
        mainLoop (lines.length + n) ⟨garbage.toList, inputOf lines⟩ = some (turns, s) ∧
          pipelines turns = lines.map commandsOf ++ List.replicate n [w] := by
  refine ⟨fun ⟨turns, hreturns, _⟩ => not_returns _ _ hreturns, fun last hlast => ?_⟩
  obtain ⟨front, rfl⟩ := List.getLast?_eq_some_iff.mp hlast
  obtain ⟨w, ws, hw⟩ := List.exists_cons_of_ne_nil (hlines last (by simp)).commandsOf_ne_nil
  refine ⟨w, by rw [hw]; rfl, fun n => ?_⟩
  obtain ⟨turns, s, hloop, hturns⟩ := mainLoop_repeats hlines hw garbage.toList n
  refine ⟨turns, s, hloop, ?_⟩
  have hsome : ∀ commands ∈ turns.map CommandLine.strings, commands ≠ [] := by
    rw [hturns]
    intro commands hmem
    rcases List.mem_append.mp hmem with hmem | hmem
    · obtain ⟨line, hline, rfl⟩ := List.mem_map.mp hmem
      exact (hlines line hline).commandsOf_ne_nil
    · rw [List.eq_of_mem_replicate hmem]
      exact List.cons_ne_nil w []
  rw [pipelines_eq hsome, hturns]

/-! ## One line -/

/-- `ls` -/
def lsLine : List Byte := [0x6c, 0x73]

theorem commandsOf_lsLine : commandsOf lsLine = [lsLine] := by
  have htext : lineText lsLine = lsLine := by decide
  rw [commandsOf, htext]
  exact segments_of_isToken ⟨by decide, by decide⟩

theorem lsLine_typed : ∀ line ∈ [lsLine], TypedLine line := by
  intro line hline
  rw [List.mem_singleton.mp hline]
  refine ⟨by decide, by decide, lsLine, ?_, 0x6c, by decide, by decide⟩
  rw [← commandsOf, commandsOf_lsLine]
  exact List.mem_singleton_self _

/-- `ls` is run once for its line, and once more for every turn behind it. -/
theorem lsLine_not_once :
    ¬ EachLineOnce (Vector.replicate commandSize (0 : Byte)).toList [lsLine] ∧
      ∃ turns s, mainLoop 3 ⟨(Vector.replicate commandSize (0 : Byte)).toList, inputOf [lsLine]⟩ =
        some (turns, s) ∧ pipelines turns = [[lsLine], [lsLine], [lsLine]] := by
  obtain ⟨hnever, hagain⟩ :=
    not_eachLineOnce (Vector.replicate commandSize 0) [lsLine] lsLine_typed
  obtain ⟨w, hw, hturns⟩ := hagain lsLine rfl
  rw [commandsOf_lsLine] at hw
  obtain rfl := Option.some.inj hw
  obtain ⟨turns, s, hloop, hpipelines⟩ := hturns 2
  refine ⟨hnever, turns, s, hloop, ?_⟩
  rw [hpipelines, List.map_singleton, commandsOf_lsLine]
  rfl

/-- `ls` is run again, and for ever. -/
theorem lsLine_twice :
    ¬ ∀ (garbage : Vector Byte commandSize) (lines : List (List Byte)),
      (∀ line ∈ lines, TypedLine line) → EachLineOnce garbage.toList lines := by
  intro h
  obtain ⟨turns, hreturns, -⟩ := h (Vector.replicate commandSize 0) [lsLine] lsLine_typed
  exact not_returns _ _ hreturns

end Acso.Shell
