import Mathlib.Data.List.Forall2
import Acso.Lib.LittleEndian
import Acso.Lib.Strtok

/-!
# The arguments of a command

`parse_arguments` of the shell.  It goes over the command once, ends the arguments in place by
writing NULs over the quotes and the spaces behind them, and stores where they start.

* `arguments`: the same over a list of characters, with the arguments themselves.
* `Tracks`: the arguments that have been stored lie in front of `arg_start`, which the loop no
  longer changes; what is between `arg_start` and `command` is the argument that is being read.
* `parseArguments_places`: so what is stored are the places of `arguments`, one behind the other.
* `parseArguments_eq`: the strings are those of `arguments`, with a `NULL`.
-/

namespace Acso.Shell

open Acso.Lib

def maxArgs : Nat := 100

def doubleQuote : Byte := 0x22
def singleQuote : Byte := 0x27
def space : Byte := 0x20

def IsQuote (c : Byte) : Prop := c = doubleQuote ∨ c = singleQuote

instance (c : Byte) : Decidable (IsQuote c) := inferInstanceAs (Decidable (_ ∨ _))

/-! ## The code -/

/-- The local variables of `parse_arguments`.  Pointers are places in the buffer from the start of
the command, and `arg_count` is the length of `args`. -/
structure ParseState where
  buffer : List Byte
  command : Nat
  argStart : Nat
  inQuotes : Bool
  args : List Nat

/-- A turn of the loop on the character at `command`. -/
def parseStep (c : Byte) (s : ParseState) : ParseState :=
  let s :=
    if IsQuote c then
      let s := { s with inQuotes := !s.inQuotes }
      if !s.inQuotes then
        { s with
          buffer := s.buffer.set s.command 0
          args := s.args ++ [s.argStart]
          argStart := s.command + 1 }
      else { s with argStart := s.command + 1 }
    else if c = space && !s.inQuotes then
      { s with
        buffer := s.buffer.set s.command 0
        args := if s.argStart ≠ s.command then s.args ++ [s.argStart] else s.args
        argStart := s.command + 1 }
    else s
  { s with command := s.command + 1 }

/-- `while (*command)`; `none` if there is no NUL in the buffer. -/
def parseLoop : Nat → ParseState → Option ParseState
  | 0, _ => none
  | fuel + 1, s =>
    match s.buffer[s.command]? with
    | none => none
    | some c => if c = 0 then some s else parseLoop fuel (parseStep c s)

/-- The buffer, and the array of pointers up to its `NULL`. -/
structure ParsedArgs where
  buffer : List Byte
  args : List (Option Nat)

def parseArguments (buffer : List Byte) : Option ParsedArgs := do
  let s ← parseLoop buffer.length ⟨buffer, 0, 0, false, []⟩
  let c ← s.buffer[s.argStart]?
  let args := if c ≠ 0 then s.args ++ [s.argStart] else s.args
  pure ⟨s.buffer, args.map some ++ [none]⟩

/-- The strings that the pointers point to. -/
def ParsedArgs.strings (parsed : ParsedArgs) : List (Option (List Byte)) :=
  parsed.args.map (Option.map (stringAt 0 parsed.buffer))

/-! ## The characters -/

/-- The arguments so far, and the one that is being read. -/
structure Scan where
  done : List (List Byte)
  word : List Byte
  inQuotes : Bool

/-- The arguments if the one that is being read ends here. -/
def Scan.flush (s : Scan) : List (List Byte) :=
  if s.word = [] then s.done else s.done ++ [s.word]

def scanStep (s : Scan) (c : Byte) : Scan :=
  if IsQuote c then
    if s.inQuotes then ⟨s.done ++ [s.word], [], false⟩ else ⟨s.done, [], true⟩
  else if c = space ∧ s.inQuotes = false then ⟨s.flush, [], false⟩
  else ⟨s.done, s.word ++ [c], s.inQuotes⟩

/-- `in_quotes` behind a character. -/
def toggle (inQuotes : Bool) (c : Byte) : Bool := if IsQuote c then !inQuotes else inQuotes

/-- The arguments of a command. -/
def arguments (line : List Byte) : List (List Byte) := (line.foldl scanStep ⟨[], [], false⟩).flush

/-! ## A turn, by the character -/

section turns

variable {c : Byte}

theorem parseStep_open {s : ParseState} (hc : IsQuote c) (hin : s.inQuotes = false) :
    parseStep c s = ⟨s.buffer, s.command + 1, s.command + 1, true, s.args⟩ := by
  simp [parseStep, hc, hin]

theorem parseStep_close {s : ParseState} (hc : IsQuote c) (hin : s.inQuotes = true) :
    parseStep c s =
      ⟨s.buffer.set s.command 0, s.command + 1, s.command + 1, false, s.args ++ [s.argStart]⟩ := by
  simp [parseStep, hc, hin]

theorem not_isQuote_space : ¬ IsQuote space := by decide

theorem parseStep_space {s : ParseState} (hin : s.inQuotes = false) :
    parseStep space s = ⟨s.buffer.set s.command 0, s.command + 1, s.command + 1, false,
      if s.argStart ≠ s.command then s.args ++ [s.argStart] else s.args⟩ := by
  simp [parseStep, not_isQuote_space, hin]

theorem not_space_outside {inQuotes : Bool} (h : c = space → inQuotes = true) :
    ¬ (c = space ∧ inQuotes = false) := by
  rintro ⟨rfl, hout⟩
  rw [h rfl] at hout
  cases hout

theorem parseStep_text {s : ParseState} (hc : ¬ IsQuote c) (hin : c = space → s.inQuotes = true) :
    parseStep c s = { s with command := s.command + 1 } := by
  simp [parseStep, hc, not_space_outside hin]

theorem scanStep_open {t : Scan} (hc : IsQuote c) (hin : t.inQuotes = false) :
    scanStep t c = ⟨t.done, [], true⟩ := by
  simp [scanStep, hc, hin]

theorem scanStep_close {t : Scan} (hc : IsQuote c) (hin : t.inQuotes = true) :
    scanStep t c = ⟨t.done ++ [t.word], [], false⟩ := by
  simp [scanStep, hc, hin]

theorem scanStep_space {t : Scan} (hin : t.inQuotes = false) :
    scanStep t space = ⟨t.flush, [], false⟩ := by
  simp [scanStep, not_isQuote_space, hin]

theorem scanStep_text {t : Scan} (hc : ¬ IsQuote c) (hin : c = space → t.inQuotes = true) :
    scanStep t c = ⟨t.done, t.word ++ [c], t.inQuotes⟩ := by
  simp [scanStep, hc, not_space_outside hin]

theorem flush_nil (done : List (List Byte)) (inQuotes : Bool) :
    Scan.flush ⟨done, [], inQuotes⟩ = done := if_pos rfl

theorem flush_word (done : List (List Byte)) {word : List Byte} (hword : word ≠ [])
    (inQuotes : Bool) : Scan.flush ⟨done, word, inQuotes⟩ = done ++ [word] := if_neg hword

/-- What a character can be: a quote that opens or closes, a space between arguments, or text. -/
theorem turn_cases (c : Byte) (inQuotes : Bool) :
    (IsQuote c ∧ inQuotes = false) ∨ (IsQuote c ∧ inQuotes = true) ∨
      (c = space ∧ inQuotes = false) ∨ (¬ IsQuote c ∧ (c = space → inQuotes = true)) := by
  by_cases hc : IsQuote c
  · cases inQuotes <;> simp [hc]
  · by_cases hspace : c = space
    · cases inQuotes <;> simp [hspace, not_isQuote_space]
    · exact .inr (.inr (.inr ⟨hc, fun h => absurd h hspace⟩))

/-- This is how `parse_arguments` tracks quotes. -/
theorem scanStep_inQuotes (s : Scan) (c : Byte) :
    (scanStep s c).inQuotes = toggle s.inQuotes c := by
  rcases turn_cases c s.inQuotes with ⟨hc, hin⟩ | ⟨hc, hin⟩ | ⟨rfl, hin⟩ | ⟨hc, hin⟩
  · rw [scanStep_open hc hin, toggle, if_pos hc, hin]
    rfl
  · rw [scanStep_close hc hin, toggle, if_pos hc, hin]
    rfl
  · rw [scanStep_space hin, toggle, if_neg not_isQuote_space, hin]
  · rw [scanStep_text hc hin, toggle, if_neg hc]

/-- So a character is in quotes exactly if `toggle` over what is in front of it says so. -/
theorem foldl_inQuotes (s : Scan) (front : List Byte) :
    (front.foldl scanStep s).inQuotes = front.foldl toggle s.inQuotes := by
  induction front generalizing s with
  | nil => rfl
  | cons c front ih => rw [List.foldl_cons, List.foldl_cons, ih, scanStep_inQuotes]

end turns

/-! ## The loop -/

/-- The state of the loop in front of `rest`, where the buffer goes on with `tail` behind the
NUL. -/
structure Tracks (tail front rest : List Byte) (s : ParseState) (t : Scan) : Prop where
  buffer : s.buffer = front ++ (t.word ++ (rest ++ 0 :: tail))
  argStart : s.argStart = front.length
  command : s.command = front.length + t.word.length
  inQuotes : s.inQuotes = t.inQuotes
  args : List.Forall₂ (StoredIn 0 front) s.args t.done
  word : (0 : Byte) ∉ t.word

section loop

variable {tail front rest : List Byte} {s : ParseState} {t : Scan} {c : Byte}

theorem Tracks.getElem? (h : Tracks tail front rest s t) :
    s.buffer[s.command]? = (rest ++ 0 :: tail).head? := by
  rw [h.buffer, h.command, List.getElem?_append_right (Nat.le_add_right _ _),
    Nat.add_sub_cancel_left, List.getElem?_append_right (Nat.le_refl _), Nat.sub_self,
    List.head?_eq_getElem?]

/-- A NUL over the next character. -/
theorem Tracks.set (h : Tracks tail front (c :: rest) s t) :
    s.buffer.set s.command 0 = front ++ (t.word ++ 0 :: (rest ++ 0 :: tail)) := by
  rw [h.buffer, h.command, List.set_append_right _ _ (Nat.le_add_right _ _),
    Nat.add_sub_cancel_left, List.set_append_right _ _ (Nat.le_refl _), Nat.sub_self]
  rfl

theorem Tracks.args_append (h : Tracks tail front rest s t) (more : List Byte) :
    List.Forall₂ (StoredIn 0 (front ++ more)) s.args t.done :=
  h.args.imp fun _ _ hstored => hstored.append more

theorem Tracks.empty_iff (h : Tracks tail front rest s t) :
    s.argStart = s.command ↔ t.word = [] := by
  rw [h.argStart, h.command, ← List.length_eq_zero_iff]
  omega

/-- The argument that is being read, if it ends here. -/
theorem Tracks.args_word (h : Tracks tail front rest s t) :
    List.Forall₂ (StoredIn 0 (front ++ (t.word ++ [0]))) (s.args ++ [s.argStart])
      (t.done ++ [t.word]) := by
  refine List.rel_append (h.args_append _) (.cons ?_ .nil)
  rw [h.argStart]
  exact storedIn_last front h.word

/-- Behind a character that ends or drops what has been read, the next argument starts. -/
theorem Tracks.restart (h : Tracks tail front (c :: rest) s t) (d : Byte) {buffer : List Byte}
    (hbuffer : buffer = front ++ (t.word ++ d :: (rest ++ 0 :: tail))) (inQuotes : Bool)
    {args : List Nat} {done : List (List Byte)}
    (hargs : List.Forall₂ (StoredIn 0 (front ++ (t.word ++ [d]))) args done) :
    Tracks tail (front ++ (t.word ++ [d])) rest
      ⟨buffer, s.command + 1, s.command + 1, inQuotes, args⟩ ⟨done, [], inQuotes⟩ := by
  have hlen : s.command + 1 = (front ++ (t.word ++ [d])).length := by
    rw [h.command, List.length_append, List.length_append, List.length_singleton, Nat.add_assoc]
  refine ⟨?_, hlen, ?_, rfl, hargs, List.not_mem_nil⟩
  · rw [hbuffer]
    simp
  · rw [hlen]
    rfl

/-- What a turn does with the argument that is being read: it drops it, stores it, or goes on
with it. -/
inductive Turn (tail front rest : List Byte) (c : Byte) (s : ParseState) (t : Scan) :
    ParseState → Scan → Prop
  | drop {buffer : List Byte} (d : Byte) (inQuotes : Bool)
      (hbuffer : buffer = front ++ (t.word ++ d :: (rest ++ 0 :: tail))) :
      Turn tail front rest c s t ⟨buffer, s.command + 1, s.command + 1, inQuotes, s.args⟩
        ⟨t.done, [], inQuotes⟩
  | store {buffer : List Byte} (hbuffer : buffer = front ++ (t.word ++ 0 :: (rest ++ 0 :: tail))) :
      Turn tail front rest c s t
        ⟨buffer, s.command + 1, s.command + 1, false, s.args ++ [s.argStart]⟩
        ⟨t.done ++ [t.word], [], false⟩
  | text : Turn tail front rest c s t { s with command := s.command + 1 }
      ⟨t.done, t.word ++ [c], t.inQuotes⟩

theorem Tracks.turn (h : Tracks tail front (c :: rest) s t) :
    Turn tail front rest c s t (parseStep c s) (scanStep t c) := by
  rcases turn_cases c t.inQuotes with ⟨hq, hin⟩ | ⟨hq, hin⟩ | ⟨rfl, hin⟩ | ⟨hq, hin⟩
  · rw [parseStep_open hq (h.inQuotes.trans hin), scanStep_open hq hin]
    exact .drop c true h.buffer
  · rw [parseStep_close hq (h.inQuotes.trans hin), scanStep_close hq hin]
    exact .store h.set
  · rw [parseStep_space (h.inQuotes.trans hin), scanStep_space hin, Scan.flush]
    by_cases hword : t.word = []
    · rw [if_pos hword, if_neg (not_not_intro (h.empty_iff.mpr hword))]
      exact .drop 0 false h.set
    · rw [if_neg hword, if_pos fun heq => hword (h.empty_iff.mp heq)]
      exact .store h.set
  · rw [parseStep_text hq fun heq => h.inQuotes.trans (hin heq), scanStep_text hq hin]
    exact .text

/-- **A turn of the loop.** -/
theorem Tracks.step (h : Tracks tail front (c :: rest) s t) (hc : c ≠ 0) :
    ∃ front', Tracks tail front' rest (parseStep c s) (scanStep t c) := by
  have hturn := h.turn
  generalize parseStep c s = s' at hturn ⊢
  generalize scanStep t c = t' at hturn ⊢
  cases hturn with
  | drop d inQuotes hbuffer => exact ⟨_, h.restart d hbuffer inQuotes (h.args_append _)⟩
  | store hbuffer => exact ⟨_, h.restart 0 hbuffer false h.args_word⟩
  | text =>
    refine ⟨front, ?_, h.argStart, ?_, h.inQuotes, h.args, ?_⟩
    · rw [h.buffer]
      simp
    · rw [h.command, List.length_append, List.length_singleton, Nat.add_assoc]
    · rw [List.mem_append, List.mem_singleton, not_or]
      exact ⟨h.word, hc.symm⟩

/-- The arguments lie one behind the other, in front of `arg_start`. -/
def Apart (s : ParseState) (t : Scan) : Prop := Spaced 0 s.argStart s.args t.done

theorem Tracks.apart (h : Tracks tail front (c :: rest) s t) (hs : Apart s t) :
    Apart (parseStep c s) (scanStep t c) := by
  have hcommand : s.command = s.argStart + t.word.length := by rw [h.command, h.argStart]
  have hnext : s.argStart ≤ s.command + 1 := by omega
  have hturn := h.turn
  generalize parseStep c s = s' at hturn ⊢
  generalize scanStep t c = t' at hturn ⊢
  cases hturn with
  | drop => exact hs.mono hnext
  | store =>
    have hword : Spaced 0 (s.argStart + t.word.length + 1) (s.args ++ [s.argStart])
        (t.done ++ [t.word]) := hs.append (Nat.le_refl _) t.word
    rwa [← hcommand] at hword
  | text => exact hs

/-- **The loop goes to the NUL.** -/
theorem Tracks.loop (h : Tracks tail front rest s t) (hs : Apart s t) (hrest : (0 : Byte) ∉ rest)
    {fuel : Nat} (hfuel : rest.length < fuel) :
    ∃ s' front', parseLoop fuel s = some s' ∧ Tracks tail front' [] s' (rest.foldl scanStep t) ∧
      Apart s' (rest.foldl scanStep t) := by
  induction rest generalizing front s t fuel with
  | nil =>
    obtain ⟨fuel, rfl⟩ := Nat.exists_eq_add_one.mpr (Nat.zero_lt_of_lt hfuel)
    refine ⟨s, front, ?_, h, hs⟩
    rw [parseLoop, h.getElem?]
    rfl
  | cons c rest ih =>
    obtain ⟨hc, hrest⟩ := List.ne_and_not_mem_of_not_mem_cons hrest
    obtain ⟨fuel, rfl⟩ := Nat.exists_eq_add_one.mpr (Nat.zero_lt_of_lt hfuel)
    obtain ⟨front', h'⟩ := h.step hc.symm
    obtain ⟨s', front'', hloop, hend⟩ := ih h' (h.apart hs) hrest (Nat.lt_of_succ_lt_succ hfuel)
    refine ⟨s', front'', ?_, hend⟩
    rw [parseLoop, h.getElem?]
    exact (if_neg hc.symm).trans hloop

end loop

theorem strings_eq {front : List Byte} {args : List Nat} {done : List (List Byte)}
    (h : List.Forall₂ (StoredIn 0 front) args done) (rest : List Byte) :
    args.map (stringAt 0 (front ++ rest)) = done := by
  induction h with
  | nil => rfl
  | cons hstored _ ih => rw [List.map_cons, ih, hstored.stringAt_append]

theorem strings_mk (buffer : List Byte) (args : List Nat) :
    (⟨buffer, args.map some ++ [none]⟩ : ParsedArgs).strings =
      (args.map (stringAt 0 buffer)).map some ++ [none] := by
  rw [ParsedArgs.strings, List.map_append, List.map_map, List.map_map]
  rfl

/-- **Where the arguments are.**  They lie in the buffer with their NULs, one behind the other. -/
theorem parseArguments_places {line : List Byte} (hline : (0 : Byte) ∉ line) (tail : List Byte) :
    ∃ buffer places, parseArguments (line ++ 0 :: tail) =
        some ⟨buffer, places.map some ++ [none]⟩ ∧
      List.Forall₂ (StoredIn 0 buffer) places (arguments line) ∧
      ∃ last, Spaced 0 last places (arguments line) := by
  have hstart : Tracks tail [] line ⟨line ++ 0 :: tail, 0, 0, false, []⟩ ⟨[], [], false⟩ :=
    ⟨rfl, rfl, rfl, rfl, .nil, List.not_mem_nil⟩
  have hfuel : line.length < (line ++ 0 :: tail).length := by simp
  obtain ⟨s, front, hloop, h, hspaced⟩ := hstart.loop (.nil (Nat.le_refl 0)) hline hfuel
  rw [arguments]
  generalize line.foldl scanStep ⟨[], [], false⟩ = t at h hspaced
  -- the character at `arg_start` is the first of the last argument, or the NUL
  have hlast : s.buffer[s.argStart]? = (t.word ++ 0 :: tail).head? := by
    rw [h.buffer, h.argStart, List.getElem?_append_right (Nat.le_refl _), Nat.sub_self,
      List.head?_eq_getElem?, List.nil_append]
  rw [parseArguments, hloop, Option.bind_eq_bind, Option.bind_some, hlast, Scan.flush]
  cases hword : t.word with
  | nil =>
    have hargs := h.args_append (t.word ++ ([] ++ 0 :: tail))
    rw [← h.buffer] at hargs
    refine ⟨s.buffer, s.args, ?_, ?_, s.argStart, ?_⟩
    · exact congrArg some (by rw [if_neg (not_not_intro rfl)])
    · rwa [if_pos rfl]
    · rwa [if_pos rfl]
  | cons c w =>
    have hc : c ≠ 0 := by
      have hnul := h.word
      rw [hword, List.mem_cons, not_or] at hnul
      exact fun heq => hnul.1 heq.symm
    have hargs : List.Forall₂ (StoredIn 0 (front ++ (t.word ++ [0]) ++ tail))
        (s.args ++ [s.argStart]) (t.done ++ [t.word]) :=
      h.args_word.imp fun _ _ hstored => hstored.append tail
    have hbuffer : s.buffer = front ++ (t.word ++ [0]) ++ tail := by
      rw [h.buffer]
      simp
    rw [← hbuffer, hword] at hargs
    refine ⟨s.buffer, s.args ++ [s.argStart], ?_, ?_, s.argStart + (c :: w).length + 1, ?_⟩
    · exact congrArg some (by rw [if_pos hc])
    · rwa [if_neg (List.cons_ne_nil c w)]
    · rw [if_neg (List.cons_ne_nil c w)]
      exact hspaced.append (Nat.le_refl _) (c :: w)

/-- **`parse_arguments` yields the arguments**, and a `NULL` behind them. -/
theorem parseArguments_eq {line : List Byte} (hline : (0 : Byte) ∉ line) (tail : List Byte) :
    ∃ parsed, parseArguments (line ++ 0 :: tail) = some parsed ∧
      parsed.strings = (arguments line).map some ++ [none] := by
  obtain ⟨buffer, places, hparsed, hstored, -⟩ := parseArguments_places hline tail
  have hstrings := strings_eq hstored []
  rw [List.append_nil] at hstrings
  exact ⟨_, hparsed, by rw [strings_mk, hstrings]⟩

theorem arguments_of_strings {line tail : List Byte} (hline : (0 : Byte) ∉ line)
    {parsed : ParsedArgs} (hparsed : parseArguments (line ++ 0 :: tail) = some parsed)
    {args : List (List Byte)} (hargs : parsed.strings = args.map some ++ [none]) :
    arguments line = args := by
  obtain ⟨parsed', hparsed', hstrings⟩ := parseArguments_eq hline tail
  obtain rfl := Option.some.inj (hparsed.symm.trans hparsed')
  rw [hargs] at hstrings
  have hsome := List.append_cancel_right hstrings
  exact (List.map_injective_iff.mpr (Option.some_injective _) hsome).symm

end Acso.Shell
