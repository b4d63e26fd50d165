import Acso.Shell.Echo
import Acso.Shell.EndOfInput
import Acso.Shell.Quoting

/-!
# Typed lines

A line is typed as its commands with `|` between them, and a command as its arguments, bare or
between quotes (`Typed`).  `fgets`, `strtok` and `parse_arguments` work in one buffer; what the
child of a command gives to `execvp` are the arguments that were typed, with the escapes of
`echo -e` replaced (`typedLines_run`).
-/

namespace Acso.Shell

open Acso.Lib

/-! ## What is typed -/

/-- The characters that an argument can have between quotes. -/
def IsPlain (c : Byte) : Prop := c ≠ 0 ∧ c ≠ newline ∧ c ≠ pipeChar ∧ ¬ IsQuote c

/-- Arguments that fit, are not just `echo -e`, and can be typed. -/
structure SoundArgs (args : List (List Byte)) : Prop where
  ne_nil : args ≠ []
  fits : args.length < maxArgs
  operand : args ≠ [echo, dashE]
  plain : ∀ arg ∈ args, ∀ c ∈ arg, IsPlain c

/-- A line with commands: at least one `|` between two of them, perhaps some in front of the first
and behind the last. -/
inductive Typed : List (List (List Byte)) → List Byte → Prop
  | last {args : List (List Byte)} {text : List Byte} (htext : Layout args text) : Typed [args] text
  | piped {args : List (List Byte)} {text line : List Byte} {commands : List (List (List Byte))}
      (htext : Layout args text) (hrest : Typed commands line) :
      Typed (args :: commands) (text ++ pipeChar :: line)
  | front {line : List Byte} {commands : List (List (List Byte))} (h : Typed commands line) :
      Typed commands (pipeChar :: line)
  | behind {line : List Byte} {commands : List (List (List Byte))} (h : Typed commands line) :
      Typed commands (line ++ [pipeChar])

/-- What a program is to be given. -/
def givenArgs : List (List Byte) → List (List Byte)
  | e :: d :: a :: as => if e = echo ∧ d = dashE then echo :: unescape a :: as else e :: d :: a :: as
  | args => args

/-- The child of the command at `p` comes to `execvp` with the arguments. -/
def RunsCommand (command : List Byte) (p : Nat) (args : List (List Byte)) : Prop :=
  ∃ given, childArgs (command.drop p) = .ok given ∧ given.argv = givenArgs args

/-- The children of a turn run the commands. -/
def RunsCommands (line : CommandLine) (commands : List (List (List Byte))) : Prop :=
  List.Forall₂ (RunsCommand line.command) line.commands commands

/-! ## Characters -/

theorem Written.mem {arg text : List Byte} (h : Written arg text) {c : Byte} (hc : c ∈ text) :
    IsQuote c ∨ c ∈ arg := by
  cases h with
  | bare => exact .inr hc
  | quoted hq =>
    rcases List.mem_cons.mp hc with rfl | hc
    · exact .inl hq
    · rcases List.mem_append.mp hc with hc | hc
      · exact .inr hc
      · obtain rfl := List.mem_singleton.mp hc
        exact .inl hq

theorem Layout.mem {args : List (List Byte)} {text : List Byte} (h : Layout args text) {c : Byte}
    (hc : c ∈ text) : c = space ∨ IsQuote c ∨ ∃ arg ∈ args, c ∈ arg := by
  induction h with
  | blank n => exact .inl (List.eq_of_mem_replicate hc)
  | @cons n arg text line args harg _ _ ih =>
    rcases List.mem_append.mp hc with hc | hc
    · exact .inl (List.eq_of_mem_replicate hc)
    rcases List.mem_append.mp hc with hc | hc
    · exact .inr ((harg.mem hc).imp_right fun hc => ⟨arg, List.mem_cons_self, hc⟩)
    · refine (ih hc).imp_right (Or.imp_right ?_)
      rintro ⟨a, ha, hc⟩
      exact ⟨a, List.mem_cons_of_mem arg ha, hc⟩

/-- A character that no argument has is not in the text either. -/
theorem SoundArgs.notMem {args : List (List Byte)} (hargs : SoundArgs args) {text : List Byte}
    (h : Layout args text) {c : Byte} (hspace : c ≠ space) (hquote : ¬ IsQuote c)
    (hplain : ¬ IsPlain c) : c ∉ text := by
  intro hc
  rcases h.mem hc with heq | hq | ⟨arg, harg, hc⟩
  · exact hspace heq
  · exact hquote hq
  · exact hplain (hargs.plain arg harg c hc)

theorem not_isPlain : ¬ IsPlain 0 ∧ ¬ IsPlain newline ∧ ¬ IsPlain pipeChar :=
  ⟨fun h => h.1 rfl, fun h => h.2.1 rfl, fun h => h.2.2.1 rfl⟩

theorem Layout.ne_nil {args : List (List Byte)} {text : List Byte} (h : Layout args text)
    (hne : args ≠ []) : text ≠ [] := by
  cases h with
  | blank => exact absurd rfl hne
  | cons n harg =>
    cases harg with
    | bare hne => simp [hne]
    | quoted => simp

/-! ## The commands of a line -/

/-- **The stages of a line** are its commands as they were typed. -/
theorem Typed.segments {commands : List (List (List Byte))} {line : List Byte}
    (h : Typed commands line) (hsound : ∀ args ∈ commands, SoundArgs args) :
    List.Forall₂ Layout commands (segments pipeChar line) := by
  have htoken : ∀ {args : List (List Byte)} {text : List Byte}, SoundArgs args → Layout args text →
      Lib.segments pipeChar text = [text] := by
    intro args text hargs htext
    refine segments_of_isToken ⟨htext.ne_nil hargs.ne_nil, ?_⟩
    exact hargs.notMem htext (by decide) (by decide) not_isPlain.2.2
  induction h with
  | @last args text htext =>
    rw [htoken (hsound args List.mem_cons_self) htext]
    exact .cons htext .nil
  | @piped args text line commands htext _ ih =>
    obtain ⟨hargs, hrest⟩ := List.forall_mem_cons.mp hsound
    rw [segments_append_sep, htoken hargs htext]
    exact .cons htext (ih hrest)
  | front _ ih =>
    rw [segments_sep_cons]
    exact ih hsound
  | behind _ ih =>
    rw [segments_append_sep, segments_nil, List.append_nil]
    exact ih hsound

theorem Typed.notMem {commands : List (List (List Byte))} {line : List Byte} (h : Typed commands line)
    (hsound : ∀ args ∈ commands, SoundArgs args) {c : Byte} (hspace : c ≠ space)
    (hquote : ¬ IsQuote c) (hpipe : c ≠ pipeChar) (hplain : ¬ IsPlain c) : c ∉ line := by
  induction h with
  | @last args text htext =>
    exact (hsound args List.mem_cons_self).notMem htext hspace hquote hplain
  | @piped args text line commands htext _ ih =>
    obtain ⟨hargs, hrest⟩ := List.forall_mem_cons.mp hsound
    rw [List.mem_append, List.mem_cons, not_or, not_or]
    exact ⟨hargs.notMem htext hspace hquote hplain, hpipe, ih hrest⟩
  | front _ ih =>
    rw [List.mem_cons, not_or]
    exact ⟨hpipe, ih hsound⟩
  | behind _ ih =>
    rw [List.mem_append, List.mem_singleton, not_or]
    exact ⟨ih hsound, hpipe⟩

/-! ## What a child runs -/

/-- Arguments other than those of `echo -e` stay as they are. -/
theorem isEchoE_other {buffer : List Byte} {places : List Nat} {args : List (List Byte)}
    (hstrings : places.map (stringAt 0 buffer) = args) (hne : args ≠ [])
    (hother : ∀ operands, args ≠ echo :: dashE :: operands) :
    isEchoE ⟨buffer, places.map some ++ [none]⟩ = .ok false := by
  cases places with
  | nil =>
    rw [List.map_nil] at hstrings
    exact absurd hstrings.symm hne
  | cons p₀ places =>
    have hfirst : argAt (some p₀ :: (places.map some ++ [none])) 0 = .ok (some p₀) := rfl
    rw [isEchoE, List.map_cons, List.cons_append, hfirst, ok_bind, strcmpEq_some, ok_bind]
    by_cases hecho : stringAt 0 buffer p₀ = echo
    · rw [if_pos (decide_eq_true hecho)]
      cases places with
      | nil => rfl
      | cons p₁ places =>
        have hsecond : argAt (some p₀ :: ((p₁ :: places).map some ++ [none])) 1 = .ok (some p₁) := rfl
        have hdash : stringAt 0 buffer p₁ ≠ dashE := by
          intro hdash
          rw [List.map_cons, List.map_cons, hecho, hdash] at hstrings
          exact hother _ hstrings.symm
        rw [hsecond, ok_bind, if_pos (Option.some_ne_none p₁), strcmpEq_some,
          decide_eq_false hdash]
    · rw [if_neg (by simpa using hecho)]
      rfl

theorem givenArgs_other {args : List (List Byte)}
    (hother : ∀ operands, args ≠ echo :: dashE :: operands) : givenArgs args = args := by
  unfold givenArgs
  split
  · rename_i e d a as
    refine if_neg ?_
    rintro ⟨rfl, rfl⟩
    exact hother _ rfl
  · rfl

/-- **A child runs its command** as it was typed. -/
theorem runsCommand_stored {command : List Byte} {p : Nat} {args : List (List Byte)}
    {text : List Byte} (hstored : StoredIn 0 command p text) (hargs : SoundArgs args)
    (htext : Layout args text) : RunsCommand command p args := by
  obtain ⟨hnul, front, rest, rfl, rfl⟩ := hstored
  have hquotes : ∀ arg ∈ args, ∀ c ∈ arg, ¬ IsQuote c := fun arg harg c hc =>
    (hargs.plain arg harg c hc).2.2.2
  have harguments : arguments text = args := htext.flush_foldl hquotes []
  obtain ⟨buffer, places, hparsed, hplaces, last, hspaced⟩ := parseArguments_places hnul rest
  rw [harguments] at hplaces hspaced
  have hroom : places.length + 1 ≤ maxArgs := by
    rw [hplaces.length_eq]
    exact hargs.fits
  rw [RunsCommand, List.drop_left, childArgs_eq hparsed, if_pos hroom]
  by_cases hecho : ∃ operands, args = echo :: dashE :: operands
  · obtain ⟨operands, rfl⟩ := hecho
    rcases rewriteEcho_echo hplaces hspaced with ⟨rfl, -⟩ | ⟨a, as, given, rfl, hgiven, hargv⟩
    · exact absurd rfl hargs.operand
    · refine ⟨given, hgiven, hargv.trans ?_⟩
      rw [givenArgs, if_pos ⟨rfl, rfl⟩]
  · have hother : ∀ operands, args ≠ echo :: dashE :: operands := fun operands heq =>
      hecho ⟨operands, heq⟩
    have hstrings := strings_eq hplaces []
    rw [List.append_nil] at hstrings
    refine ⟨⟨buffer, places.map some ++ [none]⟩, ?_, ?_⟩
    · rw [rewriteEcho, isEchoE_other hstrings hargs.ne_nil hother]
      rfl
    · rw [argv_mk, hstrings, givenArgs_other hother]

/-! ## The turns -/

/-- A line of the input with its commands. -/
structure TypedCommands (l : List (List (List Byte)) × List Byte) : Prop where
  typed : Typed l.1 l.2
  sound : ∀ args ∈ l.1, SoundArgs args
  length : l.2.length ≤ 254

section turns

variable {commands : List (List (List Byte))} {line : List Byte} (h : TypedCommands (commands, line))
include h

theorem TypedCommands.nul : (0 : Byte) ∉ line :=
  h.typed.notMem h.sound (by decide) (by decide) (by decide) not_isPlain.1

theorem TypedCommands.newline : newline ∉ line :=
  h.typed.notMem h.sound (by decide) (by decide) (by decide) not_isPlain.2.1

theorem TypedCommands.lineText : Shell.lineText line = line :=
  List.takeWhile_eq_self_iff.mpr fun _ hc => decide_eq_true fun h0 => h.nul (h0 ▸ hc)

/-- **A turn** runs the commands of its line. -/
theorem runsCommands_split (tail : List Byte) :
    RunsCommands (splitCommands (line ++ 0 :: tail)) commands := by
  have hstored := splitCommands_stored h.nul tail
  have hlayout := h.typed.segments h.sound
  have hsound := h.sound
  rw [RunsCommands]
  generalize (splitCommands (line ++ 0 :: tail)).command = command at hstored ⊢
  generalize (splitCommands (line ++ 0 :: tail)).commands = places at hstored ⊢
  generalize segments pipeChar line = texts at hstored hlayout
  dsimp only at hlayout hsound
  clear h
  induction hstored generalizing commands with
  | nil =>
    cases hlayout
    exact .nil
  | cons hp _ ih =>
    cases hlayout with
    | cons htext hrest =>
      obtain ⟨hargs, hsound⟩ := List.forall_mem_cons.mp hsound
      exact .cons (runsCommand_stored hp hargs htext) (ih hsound hrest)

end turns

/-- `echo -e 'a\n' | cat` -/
def echoCatLine : List Byte :=
  [0x65, 0x63, 0x68, 0x6f, 0x20, 0x2d, 0x65, 0x20, 0x27, 0x61, 0x5c, 0x6e, 0x27, 0x20, 0x7c, 0x20,
    0x63, 0x61, 0x74]

def echoCatCommands : List (List (List Byte)) :=
  [[echo, dashE, [0x61, 0x5c, 0x6e]], [[0x63, 0x61, 0x74]]]

theorem echoCat_typed : Typed echoCatCommands echoCatLine := by
  have hecho : Layout [echo, dashE, [0x61, 0x5c, 0x6e]] [0x65, 0x63, 0x68, 0x6f, 0x20, 0x2d, 0x65,
      0x20, 0x27, 0x61, 0x5c, 0x6e, 0x27, 0x20] :=
    .cons 0 (.bare (by decide) (by decide))
      (.cons 1 (.bare (by decide) (by decide))
        (.cons 1 (.quoted (q := 0x27) (by decide) _) (.blank 1) (.inr rfl)) (.inr rfl)) (.inr rfl)
  have hcat : Layout [[0x63, 0x61, 0x74]] [0x20, 0x63, 0x61, 0x74] :=
    .cons 1 (.bare (by decide) (by decide)) (.blank 0) (.inl rfl)
  exact .piped hecho (.last hcat)

theorem echoCat_sound : ∀ args ∈ echoCatCommands, SoundArgs args := by
  have hplain : ∀ args ∈ echoCatCommands, ∀ arg ∈ args, ∀ c ∈ arg,
      c ≠ 0 ∧ c ≠ newline ∧ c ≠ pipeChar ∧ ¬ IsQuote c := by decide
  intro args hargs
  refine ⟨?_, ?_, ?_, hplain args hargs⟩
  all_goals
    rcases List.mem_cons.mp hargs with rfl | hargs
    · decide
    · obtain rfl := List.mem_singleton.mp hargs
      decide

end Acso.Shell
