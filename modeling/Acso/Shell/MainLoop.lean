import Acso.Shell.Arguments

/-!
# The main loop

`main` of the shell reads a line into `command`, cuts off its newline and stores where the
words between the `|` start; a child runs each of them.  The loop has no end of its own: when
there is no more input `fgets` leaves `command` as it is.

The calls of `pipe` and `fork` succeed, and the children leave the standard input alone.

* `splitCommands_strings`: the commands of a turn are the segments of its line.
* `mainTurn_line`: what a turn makes of a line of the input.
* `mainTurn_inputLine`: whatever there is to read, a turn splits a line that fits its buffer.
-/

namespace Acso.Shell

open Acso.Lib

def maxCommands : Nat := 200

/-- `sizeof(command)`. -/
def commandSize : Nat := 256

def newline : Byte := 0x0a
def pipeChar : Byte := 0x7c

/-! ## The code -/

/-- The characters that `fgets` reads: at most `n`, and none behind a newline. -/
def readChars : Nat → List Byte → List Byte × List Byte
  | 0, stdin => ([], stdin)
  | _ + 1, [] => ([], [])
  | n + 1, c :: stdin =>
    if c = newline then ([c], stdin)
    else
      let (chars, rest) := readChars n stdin
      (c :: chars, rest)

/-- `fgets(buffer, size, stdin)`.  At the end of the input it returns `NULL`, which `main` does not
look at. -/
def fgets (size : Nat) (buffer stdin : List Byte) : List Byte × List Byte :=
  if stdin = [] then (buffer, stdin)
  else
    let (chars, rest) := readChars (size - 1) stdin
    (chars ++ 0 :: buffer.drop (chars.length + 1), rest)

/-- `strcspn(buffer, reject)`; `none` if it leaves the buffer. -/
def strcspn (reject : Byte) (buffer : List Byte) : Option Nat :=
  let i := skipWhile (fun c => decide (c ≠ reject ∧ c ≠ 0)) buffer 0
  if i < buffer.length then some i else none

/-- `command[strcspn(command, "\n")] = '\0'`. -/
def cutNewline (command : List Byte) : Option (List Byte) :=
  (strcspn newline command).map fun i => command.set i 0

/-- The variables of a turn of the loop; `command_count` is the length of `commands`. -/
structure CommandLine where
  command : List Byte
  commands : List Nat

/-- The loop over the calls of `strtok`. -/
def splitCommands (command : List Byte) : CommandLine :=
  let (commands, command) := strtokWords 0 pipeChar ⟨command, 0⟩
  ⟨command, commands⟩

namespace CommandLine

/-- The length that `pipes` is declared with. -/
def pipesLength (line : CommandLine) : Int := line.commands.length - 1

/-- The strings that the pointers point to. -/
def strings (line : CommandLine) : List (List Byte) := line.commands.map (stringAt 0 line.command)

end CommandLine

structure MainState where
  command : List Byte
  stdin : List Byte

/-- A turn of `while (1)`, up to the children. -/
def mainTurn (s : MainState) : Option (CommandLine × MainState) := do
  let (command, stdin) := fgets commandSize s.command s.stdin
  let command ← cutNewline command
  let line := splitCommands command
  pure (line, ⟨line.command, stdin⟩)

/-- The first turns. -/
def mainLoop : Nat → MainState → Option (List CommandLine × MainState)
  | 0, s => some ([], s)
  | n + 1, s => do
    let (line, s) ← mainTurn s
    let (lines, s) ← mainLoop n s
    pure (line :: lines, s)

/-- The condition of `while (1)`. -/
def loops : Bool := true

/-- `main` makes these turns and comes to its `return 0`. -/
inductive Returns : MainState → List CommandLine → Prop
  | done (s : MainState) (hloops : loops = false) : Returns s []
  | turn {s s' : MainState} {line : CommandLine} {lines : List CommandLine} (hloops : loops = true)
      (hturn : mainTurn s = some (line, s')) (hrest : Returns s' lines) : Returns s (line :: lines)

/-- The pipelines that some turns run; a turn without commands runs none. -/
def pipelines (lines : List CommandLine) : List (List (List Byte)) :=
  (lines.map CommandLine.strings).filter fun commands => decide (commands ≠ [])

/-! ## The commands of a line -/

theorem pipeChar_ne_zero : pipeChar ≠ 0 := by decide

/-- **The commands** are stored with their NULs. -/
theorem splitCommands_stored {s : List Byte} (hs : (0 : Byte) ∉ s) (tail : List Byte) :
    List.Forall₂ (StoredIn 0 (splitCommands (s ++ 0 :: tail)).command)
      (splitCommands (s ++ 0 :: tail)).commands (segments pipeChar s) := by
  obtain ⟨ps, s', hwords, -, hstored⟩ := strtokWords_eq pipeChar_ne_zero hs [] tail
  have hwords' : strtokWords 0 pipeChar ⟨s ++ 0 :: tail, 0⟩ = _ := hwords
  rw [splitCommands, hwords']
  exact hstored

theorem splitCommands_strings {s : List Byte} (hs : (0 : Byte) ∉ s) (tail : List Byte) :
    (splitCommands (s ++ 0 :: tail)).strings = segments pipeChar s := by
  have h := strings_eq (splitCommands_stored hs tail) []
  rwa [List.append_nil] at h

/-! ## Reading -/

/-- What the string functions see of a line. -/
def lineText (line : List Byte) : List Byte := line.takeWhile fun c => decide (c ≠ 0)

theorem zero_notMem_lineText (line : List Byte) : (0 : Byte) ∉ lineText line := by
  intro hmem
  simpa using List.mem_takeWhile_imp hmem

theorem readChars_line {line : List Byte} (hline : newline ∉ line) {n : Nat} (hn : line.length < n)
    (rest : List Byte) : readChars n (line ++ newline :: rest) = (line ++ [newline], rest) := by
  induction line generalizing n with
  | nil =>
    obtain ⟨n, rfl⟩ := Nat.exists_eq_add_one.mpr (Nat.zero_lt_of_lt hn)
    rw [List.nil_append, readChars, if_pos rfl]
    rfl
  | cons c line ih =>
    obtain ⟨hc, hrest⟩ := List.ne_and_not_mem_of_not_mem_cons hline
    obtain ⟨n, rfl⟩ := Nat.exists_eq_add_one.mpr (Nat.zero_lt_of_lt hn)
    rw [List.cons_append, readChars, if_neg hc.symm, ih hrest (Nat.lt_of_succ_lt_succ hn)]
    rfl

/-- What is read: a line, with its newline unless there is no room for it or the input ends. -/
theorem readChars_cases (n : Nat) (stdin : List Byte) :
    ∃ line, newline ∉ line ∧ line.length ≤ n ∧
      ((readChars n stdin).1 = line ∨ (readChars n stdin).1 = line ++ [newline]) := by
  induction n generalizing stdin with
  | zero => exact ⟨[], List.not_mem_nil, Nat.le_refl 0, .inl rfl⟩
  | succ n ih =>
    cases stdin with
    | nil => exact ⟨[], List.not_mem_nil, Nat.zero_le _, .inl rfl⟩
    | cons c stdin =>
      rw [readChars]
      by_cases hc : c = newline
      · rw [if_pos hc, hc]
        exact ⟨[], List.not_mem_nil, Nat.zero_le _, .inr rfl⟩
      · obtain ⟨line, hline, hlen, hread⟩ := ih stdin
        rw [if_neg hc]
        refine ⟨c :: line, List.not_mem_cons_of_ne_of_not_mem (Ne.symm hc) hline,
          Nat.succ_le_succ hlen, ?_⟩
        exact hread.imp (congrArg (c :: ·)) (congrArg (c :: ·))

/-- Cutting at the first NUL or newline. -/
theorem cutNewline_append {text : List Byte} (hnul : (0 : Byte) ∉ text) (hline : newline ∉ text)
    {c : Byte} (hc : c = 0 ∨ c = newline) (rest : List Byte) :
    cutNewline (text ++ c :: rest) = some (text ++ 0 :: rest) := by
  have hskip := skipWhile_append [] (p := fun c => decide (c ≠ newline ∧ c ≠ 0)) (w := text)
    (fun a ha => decide_eq_true ⟨fun heq => hline (heq ▸ ha), fun heq => hnul (heq ▸ ha)⟩)
    (decide_eq_false fun h => hc.elim h.2 h.1) rest
  rw [List.nil_append, List.length_nil, Nat.zero_add] at hskip
  rw [cutNewline, strcspn, hskip, if_pos (by simp), Option.map_some,
    List.set_append_right _ _ (Nat.le_refl _), Nat.sub_self, List.set_cons_zero]

theorem lineText_cases (line : List Byte) :
    lineText line = line ∨ ∃ more, line = lineText line ++ 0 :: more := by
  have hsplit := List.takeWhile_append_dropWhile (l := line) (p := fun c => decide (c ≠ 0))
  have hstop := List.head?_dropWhile_not (fun c => decide (c ≠ 0)) line
  rw [← lineText] at hsplit
  generalize line.dropWhile (fun c => decide (c ≠ 0)) = tail at hsplit hstop
  cases tail with
  | nil =>
    rw [List.append_nil] at hsplit
    exact .inl hsplit
  | cons c more =>
    obtain rfl : c = 0 := by simpa using hstop
    exact .inr ⟨more, hsplit.symm⟩

theorem newline_notMem_lineText {line : List Byte} (h : newline ∉ line) :
    newline ∉ lineText line := fun hmem => h ((List.takeWhile_sublist _).subset hmem)

/-! ## The turns -/

/-- A turn that has something to split. -/
theorem mainTurn_eq {s : MainState} {text rest : List Byte} (hnul : (0 : Byte) ∉ text)
    (hline : newline ∉ text) {c : Byte} (hc : c = 0 ∨ c = newline)
    (hcommand : (fgets commandSize s.command s.stdin).1 = text ++ c :: rest) :
    mainTurn s = some (splitCommands (text ++ 0 :: rest),
      ⟨(splitCommands (text ++ 0 :: rest)).command, (fgets commandSize s.command s.stdin).2⟩) := by
  rw [mainTurn]
  dsimp only
  rw [hcommand, cutNewline_append hnul hline hc]
  rfl

/-- **Reading a line.** -/
theorem mainTurn_read {stdin line : List Byte} (hsome : stdin ≠ []) (hline : newline ∉ line)
    (hread : (readChars (commandSize - 1) stdin).1 = line ∨
      (readChars (commandSize - 1) stdin).1 = line ++ [newline]) (command : List Byte) :
    ∃ tail, mainTurn ⟨command, stdin⟩ = some (splitCommands (lineText line ++ 0 :: tail),
      ⟨(splitCommands (lineText line ++ 0 :: tail)).command,
        (readChars (commandSize - 1) stdin).2⟩) := by
  have hfgets : fgets commandSize command stdin = ((readChars (commandSize - 1) stdin).1 ++
      0 :: command.drop ((readChars (commandSize - 1) stdin).1.length + 1),
        (readChars (commandSize - 1) stdin).2) := if_neg hsome
  generalize command.drop ((readChars (commandSize - 1) stdin).1.length + 1) = slack at hfgets
  obtain ⟨c, behind, hc, hcommand⟩ : ∃ c behind, (c = 0 ∨ c = newline) ∧
      (fgets commandSize command stdin).1 = line ++ c :: behind := by
    rw [hfgets]
    rcases hread with hread | hread
    · exact ⟨0, slack, .inl rfl, by rw [hread]⟩
    · exact ⟨newline, 0 :: slack, .inr rfl, by rw [hread, List.append_assoc]; rfl⟩
  have hrest : (fgets commandSize command stdin).2 = (readChars (commandSize - 1) stdin).2 := by
    rw [hfgets]
  have hnul := zero_notMem_lineText line
  have hnewline := newline_notMem_lineText hline
  rcases lineText_cases line with heq | ⟨more, heq⟩
  · refine ⟨behind, ?_⟩
    have hturn : mainTurn ⟨command, stdin⟩ = _ :=
      mainTurn_eq hnul hnewline hc (by rw [hcommand, heq])
    rw [hturn, hrest]
  · refine ⟨more ++ c :: behind, ?_⟩
    have hsplit : line ++ c :: behind = lineText line ++ 0 :: (more ++ c :: behind) := by
      rw [← List.cons_append, ← List.append_assoc, ← heq]
    have hturn : mainTurn ⟨command, stdin⟩ = _ :=
      mainTurn_eq hnul hnewline (.inl rfl) (by rw [hcommand, ← hsplit])
    rw [hturn, hrest]

theorem mainTurn_line {line : List Byte} (hline : newline ∉ line) (hlen : line.length ≤ 254)
    (command rest : List Byte) :
    ∃ tail, mainTurn ⟨command, line ++ newline :: rest⟩ =
      some (splitCommands (lineText line ++ 0 :: tail),
        ⟨(splitCommands (lineText line ++ 0 :: tail)).command, rest⟩) := by
  have hroom : line.length < commandSize - 1 := by
    rw [commandSize]
    omega
  have hread := readChars_line hline hroom rest
  obtain ⟨tail, hturn⟩ := mainTurn_read (List.append_ne_nil_of_right_ne_nil line
    (List.cons_ne_nil newline rest)) hline (.inr (congrArg Prod.fst hread)) command
  refine ⟨tail, ?_⟩
  rw [hturn, hread]

/-- What is in `command` after a line has been read, up to its NUL. -/
structure InputLine where
  chars : List Byte
  nul : (0 : Byte) ∉ chars
  newline : newline ∉ chars
  length_lt : chars.length < commandSize

/-- **Whatever there is to read**, a turn splits an input line. -/
theorem mainTurn_inputLine (command : List Byte) {stdin : List Byte} (hsome : stdin ≠ []) :
    ∃ (line : InputLine) (tail : List Byte) (s : MainState),
      mainTurn ⟨command, stdin⟩ = some (splitCommands (line.chars ++ 0 :: tail), s) := by
  obtain ⟨line, hline, hlen, hread⟩ := readChars_cases (commandSize - 1) stdin
  obtain ⟨tail, hturn⟩ := mainTurn_read hsome hline hread command
  have hshort : (lineText line).length < commandSize := by
    have hle : (lineText line).length ≤ line.length := (List.takeWhile_sublist _).length_le
    rw [commandSize] at hlen ⊢
    omega
  exact ⟨⟨lineText line, zero_notMem_lineText line, newline_notMem_lineText hline, hshort⟩, tail, _,
    hturn⟩

/-- **The loop has no end.** -/
theorem not_returns (s : MainState) (lines : List CommandLine) : ¬ Returns s lines := by
  intro h
  induction h with
  | done s hloops => cases hloops
  | turn _ _ _ ih => exact ih

theorem mainLoop_add (m n : Nat) (s : MainState) :
    mainLoop (m + n) s = (mainLoop m s).bind fun r =>
      (mainLoop n r.2).map fun r' => (r.1 ++ r'.1, r'.2) := by
  induction m generalizing s with
  | zero =>
    rw [Nat.zero_add]
    cases h : mainLoop n s <;> simp [mainLoop, h]
  | succ m ih =>
    rw [Nat.succ_add, mainLoop, mainLoop]
    cases hturn : mainTurn s with
    | none => rfl
    | some r =>
      obtain ⟨line, s'⟩ := r
      simp only [Option.bind_eq_bind, Option.bind_some]
      rw [ih]
      cases hm : mainLoop m s' with
      | none => rfl
      | some r =>
        obtain ⟨lines, s''⟩ := r
        cases hn : mainLoop n s'' <;> simp [hn]

end Acso.Shell
