import Acso.Shell.Echo
import Acso.Shell.Quoting

/-!
# The stages of a line

What a turn of the main loop needs of its line: `pipes` has a length that is not negative, every
stage has a program to run, and the arrays are long enough.

* `length_arguments`: how many arguments a command has, by the characters that end one.
* `arguments_eq_nil_iff`: which commands have none.
* `runsStages_iff`, `inBounds_iff`: the lines that have what is needed.
-/

namespace Acso.Shell

open Acso.Lib

/-! ## Counting arguments -/

/-- Behind the last character there is nothing, or a space outside quotes. -/
def WordStops (inQuotes : Bool) (rest : List Byte) : Prop :=
  rest = [] ∨ (inQuotes = false ∧ rest.head? = some space)

instance (inQuotes : Bool) (rest : List Byte) : Decidable (WordStops inQuotes rest) :=
  inferInstanceAs (Decidable (_ ∨ _))

/-- An argument ends with `c`: a quote that closes, or the last character of a word. -/
def EndsArgument (inQuotes : Bool) (c : Byte) (rest : List Byte) : Prop :=
  (IsQuote c ∧ inQuotes = true) ∨
    (¬ IsQuote c ∧ (c = space → inQuotes = true) ∧ WordStops inQuotes rest)

instance (inQuotes : Bool) (c : Byte) (rest : List Byte) :
    Decidable (EndsArgument inQuotes c rest) := inferInstanceAs (Decidable (_ ∨ _))

/-- How many characters of a command end an argument. -/
def argumentEnds : Bool → List Byte → Nat
  | _, [] => 0
  | inQuotes, c :: rest =>
    (if EndsArgument inQuotes c rest then 1 else 0) + argumentEnds (toggle inQuotes c) rest

theorem endsArgument_quote {c : Byte} (hc : IsQuote c) (inQuotes : Bool) (rest : List Byte) :
    EndsArgument inQuotes c rest ↔ inQuotes = true := by
  rw [EndsArgument, and_iff_right hc, or_iff_left fun h => h.1 hc]

theorem endsArgument_text {c : Byte} (hc : ¬ IsQuote c) {inQuotes : Bool}
    (hspace : c = space → inQuotes = true) (rest : List Byte) :
    EndsArgument inQuotes c rest ↔ WordStops inQuotes rest := by
  rw [EndsArgument, or_iff_right fun h => hc h.1, and_iff_right hc, and_iff_right hspace]

theorem not_endsArgument_space (rest : List Byte) : ¬ EndsArgument false space rest := by
  rintro (⟨hquote, -⟩ | ⟨-, hspace, -⟩)
  · exact not_isQuote_space hquote
  · cases hspace rfl

/-- The argument that has been read ends here. -/
def Scan.ends (s : Scan) (line : List Byte) : Nat :=
  if s.word ≠ [] ∧ WordStops s.inQuotes line then 1 else 0

theorem not_wordStops_cons {inQuotes : Bool} {c : Byte} (h : c = space → inQuotes = true)
    (line : List Byte) : ¬ WordStops inQuotes (c :: line) := by
  rintro (hnil | ⟨hout, hhead⟩)
  · cases hnil
  · exact not_space_outside h ⟨Option.some.inj hhead, hout⟩

theorem Scan.ends_nil (done : List (List Byte)) (inQuotes : Bool) (line : List Byte) :
    Scan.ends ⟨done, [], inQuotes⟩ line = 0 := if_neg fun h => h.1 rfl

theorem Scan.ends_word (done : List (List Byte)) (word : List Byte) (c : Byte) (inQuotes : Bool)
    (line : List Byte) :
    Scan.ends ⟨done, word ++ [c], inQuotes⟩ line = if WordStops inQuotes line then 1 else 0 := by
  have hne : word ++ [c] ≠ [] := List.append_ne_nil_of_right_ne_nil word (List.cons_ne_nil c [])
  simp only [Scan.ends, hne, ne_eq, not_false_eq_true, true_and]

/-- In front of anything but a space outside quotes the argument goes on, or it is dropped. -/
theorem Scan.ends_cons (s : Scan) {c : Byte} (h : c = space → s.inQuotes = true)
    (line : List Byte) : s.ends (c :: line) = 0 :=
  if_neg fun hends => not_wordStops_cons h line hends.2

theorem Scan.length_flush (s : Scan) {line : List Byte} (hstops : WordStops s.inQuotes line) :
    s.flush.length = s.done.length + s.ends line := by
  rw [Scan.flush, Scan.ends]
  by_cases hword : s.word = []
  · rw [if_pos hword, if_neg fun h => h.1 hword, Nat.add_zero]
  · rw [if_neg hword, if_pos ⟨hword, hstops⟩, List.length_append, List.length_singleton]

/-- **What the rest of a command adds.** -/
theorem length_foldl_scanStep (s : Scan) (line : List Byte) :
    (line.foldl scanStep s).flush.length =
      s.done.length + s.ends line + argumentEnds s.inQuotes line := by
  induction line generalizing s with
  | nil => exact s.length_flush (.inl rfl)
  | cons c line ih =>
    rw [List.foldl_cons, ih, argumentEnds, scanStep_inQuotes]
    rcases turn_cases c s.inQuotes with ⟨hc, hin⟩ | ⟨hc, hin⟩ | ⟨rfl, hin⟩ | ⟨hc, hin⟩
    · have hspace : c = space → s.inQuotes = true := fun heq => absurd (heq ▸ hc) not_isQuote_space
      have hends : ¬ EndsArgument s.inQuotes c line := by
        rw [endsArgument_quote hc, hin]
        exact Bool.false_ne_true
      rw [scanStep_open hc hin, Scan.ends_nil, s.ends_cons hspace, if_neg hends, Nat.zero_add]
    · have hends : EndsArgument s.inQuotes c line := (endsArgument_quote hc _ _).mpr hin
      rw [scanStep_close hc hin, Scan.ends_nil, s.ends_cons fun _ => hin, if_pos hends,
        List.length_append, List.length_singleton]
      omega
    · have hstops : WordStops s.inQuotes (space :: line) := .inr ⟨hin, rfl⟩
      have hends : ¬ EndsArgument s.inQuotes space line := by
        rw [hin]
        exact not_endsArgument_space line
      rw [scanStep_space hin, Scan.ends_nil, s.length_flush hstops, if_neg hends, Nat.zero_add,
        Nat.add_zero]
    · rw [scanStep_text hc hin, Scan.ends_word, s.ends_cons hin]
      simp only [endsArgument_text hc hin]
      omega

/-- **How many arguments there are.** -/
theorem length_arguments (line : List Byte) :
    (arguments line).length = argumentEnds false line := by
  rw [arguments, length_foldl_scanStep]
  exact Nat.zero_add _

/-! ## Commands without arguments -/

/-- Only spaces, or spaces and a word that is dropped, since an opening quote comes last. -/
inductive NoArgument : List Byte → Prop
  | blank (n : Nat) : NoArgument (List.replicate n space)
  | unclosed (n : Nat) {word : List Byte} {q : Byte} (hword : ∀ c ∈ word, ¬ IsQuote c ∧ c ≠ space)
      (hq : IsQuote q) : NoArgument (List.replicate n space ++ (word ++ [q]))

theorem NoArgument.space_cons {line : List Byte} (h : NoArgument line) :
    NoArgument (space :: line) := by
  cases h with
  | blank n => exact .blank (n + 1)
  | unclosed n hword hq => exact .unclosed (n + 1) hword hq

/-- A word in front of them does not end there. -/
theorem NoArgument.text_cons {line : List Byte} (h : NoArgument line) {c : Byte}
    (hc : ¬ IsQuote c ∧ c ≠ space) (hstops : ¬ WordStops false line) : NoArgument (c :: line) := by
  cases h with
  | blank n =>
    cases n with
    | zero => exact absurd (.inl rfl) hstops
    | succ n => exact absurd (.inr ⟨rfl, rfl⟩) hstops
  | unclosed n hword hq =>
    cases n with
    | zero => exact .unclosed 0 (List.forall_mem_cons.mpr ⟨hc, hword⟩) hq
    | succ n => exact absurd (.inr ⟨rfl, rfl⟩) hstops

/-- Between quotes the last argument ends with the command. -/
theorem argumentEnds_true {line : List Byte} (h : argumentEnds true line = 0) : line = [] := by
  induction line with
  | nil => rfl
  | cons c line ih =>
    exfalso
    rw [argumentEnds, Nat.add_eq_zero_iff] at h
    obtain ⟨hends, hrest⟩ := h
    by_cases hc : IsQuote c
    · rw [if_pos ((endsArgument_quote hc _ _).mpr rfl)] at hends
      cases hends
    · rw [toggle, if_neg hc] at hrest
      have hstops : WordStops true line := .inl (ih hrest)
      rw [if_pos ((endsArgument_text hc (fun _ => rfl) line).mpr hstops)] at hends
      cases hends

theorem noArgument_of_argumentEnds {line : List Byte} (h : argumentEnds false line = 0) :
    NoArgument line := by
  induction line with
  | nil => exact .blank 0
  | cons c line ih =>
    rw [argumentEnds, Nat.add_eq_zero_iff] at h
    obtain ⟨hends, hrest⟩ := h
    rcases turn_cases c false with ⟨hc, -⟩ | ⟨-, hin⟩ | ⟨rfl, -⟩ | ⟨hc, hin⟩
    · rw [toggle, if_pos hc] at hrest
      have hquote : NoArgument (List.replicate 0 space ++ ([] ++ [c])) :=
        .unclosed 0 (List.forall_mem_nil _) hc
      rwa [argumentEnds_true hrest]
    · cases hin
    · exact (ih hrest).space_cons
    · rw [toggle, if_neg hc] at hrest
      have hstops : ¬ WordStops false line := by
        intro hstops
        rw [if_pos ((endsArgument_text hc hin line).mpr hstops)] at hends
        cases hends
      exact (ih hrest).text_cons ⟨hc, fun heq => Bool.false_ne_true (hin heq)⟩ hstops

theorem NoArgument.arguments {line : List Byte} (h : NoArgument line) : arguments line = [] := by
  rw [Shell.arguments]
  cases h with
  | blank n => rw [foldl_spaces, flush_nil]
  | unclosed n hword hq =>
    rw [List.foldl_append, foldl_spaces, List.foldl_append, foldl_text [] [] false fun c hc =>
      ⟨(hword c hc).1, fun heq => absurd heq (hword c hc).2⟩, List.foldl_cons, scanStep_open hq rfl]
    rfl

/-- **The commands without arguments.** -/
theorem arguments_eq_nil_iff (line : List Byte) : arguments line = [] ↔ NoArgument line := by
  constructor
  · intro h
    have hends := length_arguments line
    rw [h] at hends
    exact noArgument_of_argumentEnds hends.symm
  · exact NoArgument.arguments

/-! ## The stages -/

/-- A command among others is taken apart like any other. -/
theorem parseArguments_stored {command : List Byte} {p : Nat} {piece : List Byte}
    (h : StoredIn 0 command p piece) :
    ∃ (buffer : List Byte) (places : List Nat),
      parseArguments (command.drop p) = some ⟨buffer, places.map some ++ [none]⟩ ∧
        places.length = (arguments piece).length := by
  obtain ⟨hnul, front, rest, rfl, rfl⟩ := h
  obtain ⟨buffer, places, hparsed, hstored, -⟩ := parseArguments_places hnul rest
  rw [List.drop_left]
  exact ⟨buffer, places, hparsed, hstored.length_eq⟩

/-- What holds of the commands, by what holds of the pieces of the line. -/
theorem forall_commands_iff {P : ParsedArgs → Prop} {Q : List Byte → Prop}
    (hPQ : ∀ (buffer : List Byte) (places : List Nat) (piece : List Byte),
      places.length = (arguments piece).length →
        (P ⟨buffer, places.map some ++ [none]⟩ ↔ Q piece)) (line : InputLine) (tail : List Byte) :
    (∀ p ∈ (splitCommands (line.chars ++ 0 :: tail)).commands, ∃ parsed,
      parseArguments ((splitCommands (line.chars ++ 0 :: tail)).command.drop p) = some parsed ∧
        P parsed) ↔ ∀ piece ∈ segments pipeChar line.chars, Q piece := by
  have hstored := splitCommands_stored line.nul tail
  generalize (splitCommands (line.chars ++ 0 :: tail)).command = command at hstored ⊢
  generalize (splitCommands (line.chars ++ 0 :: tail)).commands = places at hstored ⊢
  generalize segments pipeChar line.chars = pieces at hstored ⊢
  induction hstored with
  | nil => exact iff_of_true (List.forall_mem_nil _) (List.forall_mem_nil _)
  | @cons p piece ps pieces hp _ ih =>
    rw [List.forall_mem_cons, List.forall_mem_cons]
    refine and_congr ?_ ih
    obtain ⟨buffer, args, hparsed, hlen⟩ := parseArguments_stored hp
    rw [hparsed, ← hPQ buffer args piece hlen]
    constructor
    · rintro ⟨parsed, heq, h⟩
      cases heq
      exact h
    · exact fun h => ⟨_, rfl, h⟩

/-! ### Programs to run -/

/-- Moving the arguments leaves the first one. -/
theorem shiftArgs_first {fuel j : Nat} {args args' : List (Option Nat)}
    (h : shiftArgs fuel (j + 1) args = .ok args') : args'[0]? = args[0]? := by
  induction fuel generalizing j args with
  | zero => cases h
  | succ fuel ih =>
    rw [shiftArgs] at h
    obtain ⟨arg, -, h⟩ := of_bind_eq_ok h
    cases arg with
    | none =>
      cases h
      rfl
    | some p =>
      rw [if_pos (Option.some_ne_none p)] at h
      obtain ⟨next, -, h⟩ := of_bind_eq_ok h
      rw [ih h, List.getElem?_set_ne (Nat.succ_ne_zero j)]

/-- The program is the first argument, whatever becomes of the others. -/
theorem rewriteEcho_first {parsed given : ParsedArgs} (h : rewriteEcho parsed = .ok given) :
    given.args[0]? = parsed.args[0]? := by
  rw [rewriteEcho] at h
  obtain ⟨rewrites, -, h⟩ := of_bind_eq_ok h
  cases rewrites with
  | false =>
    cases h
    rfl
  | true =>
    rw [if_pos rfl] at h
    obtain ⟨third, -, h⟩ := of_bind_eq_ok h
    obtain ⟨buffer, -, h⟩ := of_bind_eq_ok h
    obtain ⟨args, hshift, h⟩ := of_bind_eq_ok h
    cases h
    exact shiftArgs_first hshift

/-- `args[0]` is not `NULL` where it is compared with `echo`, and where it is given to `execvp`. -/
structure Runnable (parsed : ParsedArgs) : Prop where
  compared : ∃ p, parsed.args[0]? = some (some p)
  given : ∀ given, rewriteEcho parsed = .ok given → ∃ p, given.args[0]? = some (some p)

theorem runnable_iff (buffer : List Byte) {places : List Nat} {args : List (List Byte)}
    (hlen : places.length = args.length) :
    Runnable ⟨buffer, places.map some ++ [none]⟩ ↔ args ≠ [] := by
  cases places with
  | nil =>
    refine iff_of_false ?_ (not_not_intro (List.eq_nil_of_length_eq_zero hlen.symm))
    rintro ⟨⟨p, hp⟩, -⟩
    cases hp
  | cons p places =>
    refine iff_of_true ⟨⟨p, rfl⟩, fun given hgiven => ⟨p, ?_⟩⟩ ?_
    · rw [rewriteEcho_first hgiven]
      rfl
    · rintro rfl
      cases hlen

theorem commands_runnable_iff (line : InputLine) (tail : List Byte) :
    (∀ p ∈ (splitCommands (line.chars ++ 0 :: tail)).commands, ∃ parsed,
      parseArguments ((splitCommands (line.chars ++ 0 :: tail)).command.drop p) = some parsed ∧
        Runnable parsed) ↔ ∀ piece ∈ segments pipeChar line.chars, arguments piece ≠ [] :=
  forall_commands_iff (fun buffer _ _ hlen => runnable_iff buffer hlen) line tail

/-- What a turn does with a line: nothing, or some stages. -/
structure RunsStages (line : CommandLine) : Prop where
  pipes : 0 ≤ line.pipesLength
  count : line.commands = [] ∨ 1 ≤ line.commands.length
  stages : ∀ p ∈ line.commands, ∃ parsed,
    parseArguments (line.command.drop p) = some parsed ∧ Runnable parsed

theorem pipesLength_nonneg_iff (line : InputLine) (tail : List Byte) :
    0 ≤ (splitCommands (line.chars ++ 0 :: tail)).pipesLength ↔ ∃ c ∈ line.chars, c ≠ pipeChar := by
  have hlen := (splitCommands_stored line.nul tail).length_eq
  rw [CommandLine.pipesLength, hlen]
  constructor
  · intro h
    by_contra hnone
    push Not at hnone
    have hsegments : segments pipeChar line.chars = [] := by
      rw [← List.append_nil line.chars, segments_skip hnone, segments_nil]
    rw [hsegments] at h
    exact absurd h (by decide)
  · rintro ⟨c, hmem, hc⟩
    have hne : segments pipeChar line.chars ≠ [] :=
      fun h => hc (eq_sep_of_segments_eq_nil h c hmem)
    have hpos := List.length_pos_iff.mpr hne
    omega

/-- **Which lines run.**  The length of `pipes` is negative exactly if the line has nothing but
`|`, and a stage has no program exactly if its piece has no argument. -/
theorem runsStages_iff (line : InputLine) (tail : List Byte) :
    RunsStages (splitCommands (line.chars ++ 0 :: tail)) ↔
      (∃ c ∈ line.chars, c ≠ pipeChar) ∧
        ∀ piece ∈ segments pipeChar line.chars, ¬ NoArgument piece := by
  have hstages := commands_runnable_iff line tail
  simp only [ne_eq, arguments_eq_nil_iff] at hstages
  rw [← hstages, ← pipesLength_nonneg_iff line tail]
  constructor
  · exact fun h => ⟨h.pipes, h.stages⟩
  · rintro ⟨hpipes, hstages⟩
    refine ⟨hpipes, .inr ?_, hstages⟩
    rw [CommandLine.pipesLength] at hpipes
    omega

/-- ` ` -/
def blankLine : InputLine where
  chars := [space]
  nul := by decide
  newline := by decide
  length_lt := by decide

/-- Of a line with a space there is a stage without a program. -/
theorem blankLine_not_runnable :
    ¬ ∀ (line : InputLine) (tail : List Byte),
      RunsStages (splitCommands (line.chars ++ 0 :: tail)) := by
  intro h
  have hsegments : segments pipeChar blankLine.chars = [[space]] :=
    segments_of_isToken ⟨by decide, by decide⟩
  have hstages := (commands_runnable_iff blankLine []).mp (h blankLine []).stages
  rw [hsegments, List.forall_mem_singleton] at hstages
  exact hstages rfl

/-! ### Arrays -/

/-- There is room for the commands, and for the arguments of each with their `NULL`. -/
structure InBounds (line : CommandLine) : Prop where
  commands : line.commands.length ≤ maxCommands
  args : ∀ p ∈ line.commands, ∃ parsed,
    parseArguments (line.command.drop p) = some parsed ∧ parsed.args.length ≤ maxArgs

theorem length_commands_le (line : InputLine) (tail : List Byte) :
    (splitCommands (line.chars ++ 0 :: tail)).commands.length ≤ maxCommands := by
  have hlen := (splitCommands_stored line.nul tail).length_eq
  have hsegments : 2 * (segments pipeChar line.chars).length ≤ line.chars.length + 1 :=
    length_segments_le line.chars
  have hline := line.length_lt
  rw [commandSize] at hline
  rw [maxCommands]
  omega

theorem commands_fit_iff (line : InputLine) (tail : List Byte) :
    (∀ p ∈ (splitCommands (line.chars ++ 0 :: tail)).commands, ∃ parsed,
      parseArguments ((splitCommands (line.chars ++ 0 :: tail)).command.drop p) = some parsed ∧
        parsed.args.length ≤ maxArgs) ↔
      ∀ piece ∈ segments pipeChar line.chars, argumentEnds false piece < maxArgs := by
  refine forall_commands_iff (P := fun parsed => parsed.args.length ≤ maxArgs) ?_ line tail
  intro buffer places piece hlen
  rw [List.length_append, List.length_map, hlen, length_arguments]
  exact Nat.succ_le_iff

/-- **Which lines fit.**  There is always room for the commands; for the arguments there is exactly
if fewer than `MAX_ARGS` end in each piece. -/
theorem inBounds_iff (line : InputLine) (tail : List Byte) :
    InBounds (splitCommands (line.chars ++ 0 :: tail)) ↔
      ∀ piece ∈ segments pipeChar line.chars, argumentEnds false piece < maxArgs := by
  rw [← commands_fit_iff line tail]
  exact ⟨fun h => h.args, fun h => ⟨length_commands_le line tail, h⟩⟩

/-- `a `, some times. -/
def shortWords (n : Nat) : List Byte := (List.replicate n [0x61, space]).flatten

theorem argumentEnds_shortWords (n : Nat) : argumentEnds false (shortWords n) = n := by
  induction n with
  | zero => rfl
  | succ n ih =>
    have hcons : shortWords (n + 1) = 0x61 :: space :: shortWords n := by
      rw [shortWords, List.replicate_succ, List.flatten_cons]
      rfl
    have hends : EndsArgument false 0x61 (space :: shortWords n) :=
      (endsArgument_text (by decide) (fun heq => by cases heq) _).mpr (.inr ⟨rfl, rfl⟩)
    have hletter : toggle false 0x61 = false := rfl
    have hspace : toggle false space = false := rfl
    rw [hcons, argumentEnds, argumentEnds, if_pos hends, hletter, hspace, ih,
      if_neg (not_endsArgument_space _), Nat.zero_add, Nat.add_comm]

theorem length_shortWords (n : Nat) : (shortWords n).length = n * 2 := by
  simp [shortWords]

theorem notMem_shortWords {c : Byte} (ha : c ≠ 0x61) (hspace : c ≠ space) (n : Nat) :
    c ∉ shortWords n := by
  rw [shortWords, List.mem_flatten]
  rintro ⟨w, hw, hc⟩
  rw [List.eq_of_mem_replicate hw, List.mem_pair] at hc
  exact hc.elim ha hspace

/-- 100 words of one letter. -/
def hundredWordsLine : InputLine where
  chars := shortWords 100
  nul := notMem_shortWords (by decide) (by decide) 100
  newline := notMem_shortWords (by decide) (by decide) 100
  length_lt := by
    rw [length_shortWords]
    decide

/-- There is no room for the `NULL` behind 100 arguments. -/
theorem hundredWords_overrun :
    ¬ ∀ (line : InputLine) (tail : List Byte),
      InBounds (splitCommands (line.chars ++ 0 :: tail)) := by
  intro h
  have htoken : IsToken pipeChar hundredWordsLine.chars :=
    ⟨List.cons_ne_nil 0x61 _, notMem_shortWords (by decide) (by decide) 100⟩
  have hargs := (commands_fit_iff hundredWordsLine []).mp (h hundredWordsLine []).args
  rw [segments_of_isToken htoken, List.forall_mem_singleton, hundredWordsLine,
    argumentEnds_shortWords] at hargs
  exact Nat.lt_irrefl 100 hargs

end Acso.Shell
