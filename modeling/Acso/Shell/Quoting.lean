import Acso.Shell.Arguments

/-!
# Quoted arguments

What `parse_arguments` makes of quotes.

* `parseArguments_layout`: arguments without quotes, written bare or between quotes and with
  spaces between them, are what it yields.
* `parseArguments_mixed`: no argument that it yields has a quote in it, since every quote ends or
  starts an argument, whichever opened it.
* `parseArguments_keeps_iff`: on a command with one kind of quotes it keeps the text, unless an
  opening quote stands right behind unquoted text.  That text is dropped.
-/

namespace Acso.Shell

open Acso.Lib

/-! ## Pieces of a command -/

/-- Text without quotes is read as it is. -/
theorem foldl_text (done : List (List Byte)) (word : List Byte) (inQuotes : Bool) {w : List Byte}
    (hw : ∀ c ∈ w, ¬ IsQuote c ∧ (c = space → inQuotes = true)) :
    w.foldl scanStep ⟨done, word, inQuotes⟩ = ⟨done, word ++ w, inQuotes⟩ := by
  induction w generalizing word with
  | nil => rw [List.foldl_nil, List.append_nil]
  | cons c w ih =>
    obtain ⟨hquote, hspace⟩ := hw c List.mem_cons_self
    rw [List.foldl_cons, scanStep_text hquote hspace, ih (word ++ [c]) fun d hd =>
      hw d (List.mem_cons_of_mem c hd), List.append_assoc, List.singleton_append]

/-- Spaces between arguments are skipped. -/
theorem foldl_spaces (done : List (List Byte)) (n : Nat) :
    (List.replicate n space).foldl scanStep ⟨done, [], false⟩ = ⟨done, [], false⟩ := by
  induction n with
  | zero => rfl
  | succ n ih =>
    rw [List.replicate_succ, List.foldl_cons, scanStep_space rfl]
    exact ih

/-- A quoted argument. -/
theorem foldl_quoted (done : List (List Byte)) {q : Byte} (hq : IsQuote q) {arg : List Byte}
    (harg : ∀ c ∈ arg, ¬ IsQuote c) :
    (q :: (arg ++ [q])).foldl scanStep ⟨done, [], false⟩ = ⟨done ++ [arg], [], false⟩ := by
  rw [List.foldl_cons, scanStep_open hq rfl, List.foldl_append,
    foldl_text done [] true fun c hc => ⟨harg c hc, fun _ => rfl⟩, List.foldl_cons,
    scanStep_close hq rfl]
  rfl

/-- A bare argument ends at the next space, or with the command. -/
theorem foldl_bare (done : List (List Byte)) {word : List Byte} (hword : word ≠ [])
    {line : List Byte} (hgap : line = [] ∨ line.head? = some space) :
    (line.foldl scanStep ⟨done, word, false⟩).flush =
      (line.foldl scanStep ⟨done ++ [word], [], false⟩).flush := by
  cases line with
  | nil => exact (flush_word done hword false).trans (flush_nil _ false).symm
  | cons c line =>
    obtain rfl : c = space := by
      rcases hgap with h | h
      · cases h
      · exact Option.some.inj h
    rw [List.foldl_cons, List.foldl_cons, scanStep_space rfl, scanStep_space rfl,
      flush_word done hword, flush_nil]

/-! ## Writing arguments -/

/-- How an argument is written: bare, or between two quotes of one kind. -/
inductive Written : List Byte → List Byte → Prop
  | bare {arg : List Byte} (hne : arg ≠ []) (hspace : space ∉ arg) : Written arg arg
  | quoted {q : Byte} (hq : IsQuote q) (arg : List Byte) : Written arg (q :: (arg ++ [q]))

/-- The commands with some arguments: spaces, and each argument after some spaces, with nothing
or a space behind it. -/
inductive Layout : List (List Byte) → List Byte → Prop
  | blank (n : Nat) : Layout [] (List.replicate n space)
  | cons (n : Nat) {arg text line : List Byte} {args : List (List Byte)}
      (harg : Written arg text) (hrest : Layout args line)
      (hgap : line = [] ∨ line.head? = some space) :
      Layout (arg :: args) (List.replicate n space ++ (text ++ line))

theorem Layout.flush_foldl {args : List (List Byte)} {line : List Byte} (h : Layout args line)
    (hargs : ∀ arg ∈ args, ∀ c ∈ arg, ¬ IsQuote c) (done : List (List Byte)) :
    (line.foldl scanStep ⟨done, [], false⟩).flush = done ++ args := by
  induction h generalizing done with
  | blank n =>
    rw [foldl_spaces, flush_nil, List.append_nil]
  | @cons n arg text line args harg _ hgap ih =>
    have hquotes := hargs arg List.mem_cons_self
    have hdone := ih (fun a ha => hargs a (List.mem_cons_of_mem arg ha)) (done ++ [arg])
    rw [List.append_assoc, List.singleton_append] at hdone
    rw [List.foldl_append, foldl_spaces, List.foldl_append]
    cases harg with
    | bare hne hspace =>
      have hbare : ∀ c ∈ arg, ¬ IsQuote c ∧ (c = space → false = true) :=
        fun c hc => ⟨hquotes c hc, fun heq => absurd (heq ▸ hc) hspace⟩
      rw [foldl_text done [] false hbare, List.nil_append, foldl_bare done hne hgap]
      exact hdone
    | quoted hq =>
      rw [foldl_quoted done hq hquotes]
      exact hdone

theorem ParsedArgs.length_strings (parsed : ParsedArgs) :
    parsed.strings.length = parsed.args.length := List.length_map _

/-- **Quoting round-trips.**  A command with fewer than `MAX_ARGS` arguments, none with a quote in
it, is taken apart into them, with a `NULL` behind them that the array has room for. -/
theorem parseArguments_layout {args : List (List Byte)} {line : List Byte}
    (hargs : ∀ arg ∈ args, ∀ c ∈ arg, ¬ IsQuote c) (hcount : args.length < maxArgs)
    (hlayout : Layout args line) (hnul : (0 : Byte) ∉ line) (tail : List Byte) :
    ∃ parsed, parseArguments (line ++ 0 :: tail) = some parsed ∧
      parsed.strings = args.map some ++ [none] ∧ parsed.args.length ≤ maxArgs := by
  obtain ⟨parsed, hparsed, hstrings⟩ := parseArguments_eq hnul tail
  have harguments : arguments line = args := hlayout.flush_foldl hargs []
  rw [harguments] at hstrings
  refine ⟨parsed, hparsed, hstrings, ?_⟩
  rw [← parsed.length_strings, hstrings, List.length_append, List.length_map]
  exact hcount

/-- `ls "a b" ''`, with spaces around. -/
theorem parseArguments_ls : ∃ parsed,
    parseArguments ([0x20, 0x6c, 0x73, 0x20, 0x20, 0x22, 0x61, 0x20, 0x62, 0x22, 0x20, 0x27, 0x27,
      0x20] ++ [0]) = some parsed ∧
      parsed.strings = [some [0x6c, 0x73], some [0x61, 0x20, 0x62], some [], none] := by
  have hlayout : Layout [[0x6c, 0x73], [0x61, 0x20, 0x62], []]
      [0x20, 0x6c, 0x73, 0x20, 0x20, 0x22, 0x61, 0x20, 0x62, 0x22, 0x20, 0x27, 0x27, 0x20] :=
    .cons 1 (.bare (by decide) (by decide))
      (.cons 2 (.quoted (q := 0x22) (by decide) _)
        (.cons 1 (.quoted (q := 0x27) (by decide) _) (.blank 1) (.inr rfl)) (.inr rfl)) (.inr rfl)
  obtain ⟨parsed, hparsed, hstrings, -⟩ :=
    parseArguments_layout (by decide) (by decide) hlayout (by decide) []
  exact ⟨parsed, hparsed, hstrings⟩

/-! ## Both kinds of quotes -/

/-- There is no quote in what has been read. -/
structure QuoteFree (s : Scan) : Prop where
  done : ∀ w ∈ s.done, ∀ c ∈ w, ¬ IsQuote c
  word : ∀ c ∈ s.word, ¬ IsQuote c

theorem QuoteFree.append {s : Scan} (h : QuoteFree s) :
    ∀ w ∈ s.done ++ [s.word], ∀ c ∈ w, ¬ IsQuote c := by
  intro w hw
  rcases List.mem_append.mp hw with hw | hw
  · exact h.done w hw
  · rw [List.mem_singleton.mp hw]
    exact h.word

theorem QuoteFree.flush {s : Scan} (h : QuoteFree s) : ∀ w ∈ s.flush, ∀ c ∈ w, ¬ IsQuote c := by
  rw [Scan.flush]
  split
  · exact h.done
  · exact h.append

theorem QuoteFree.step {s : Scan} (h : QuoteFree s) (c : Byte) : QuoteFree (scanStep s c) := by
  have hnil : ∀ d ∈ ([] : List Byte), ¬ IsQuote d := fun d hd => absurd hd List.not_mem_nil
  rcases turn_cases c s.inQuotes with ⟨hq, hin⟩ | ⟨hq, hin⟩ | ⟨rfl, hin⟩ | ⟨hq, hin⟩
  · rw [scanStep_open hq hin]
    exact ⟨h.done, hnil⟩
  · rw [scanStep_close hq hin]
    exact ⟨h.append, hnil⟩
  · rw [scanStep_space hin]
    exact ⟨h.flush, hnil⟩
  · rw [scanStep_text hq hin]
    refine ⟨h.done, ?_⟩
    intro d hd
    rcases List.mem_append.mp hd with hd | hd
    · exact h.word d hd
    · rw [List.mem_singleton.mp hd]
      exact hq

theorem QuoteFree.foldl {s : Scan} (h : QuoteFree s) (line : List Byte) :
    QuoteFree (line.foldl scanStep s) := by
  induction line generalizing s with
  | nil => exact h
  | cons c line ih => exact ih (h.step c)

/-- **No argument has a quote in it.** -/
theorem arguments_quoteFree (line : List Byte) : ∀ w ∈ arguments line, ∀ c ∈ w, ¬ IsQuote c := by
  have hstart : QuoteFree ⟨[], [], false⟩ := by
    constructor
    · intro w hw
      exact absurd hw List.not_mem_nil
    · intro c hc
      exact absurd hc List.not_mem_nil
  exact (hstart.foldl line).flush

/-- **A quote of the other kind ends an argument.**  Of a command with `text` between two quotes,
where `text` has a quote of the other kind in it, `text` is never an argument. -/
theorem parseArguments_mixed (q : Byte) (front text rest : List Byte) {q' : Byte} (hq' : IsQuote q')
    (hmem : q' ∈ text) (hnul : (0 : Byte) ∉ front ++ q :: (text ++ q :: rest)) (tail : List Byte) :
    ∃ parsed, parseArguments (front ++ q :: (text ++ q :: rest) ++ 0 :: tail) = some parsed ∧
      some text ∉ parsed.strings := by
  obtain ⟨parsed, hparsed, hstrings⟩ := parseArguments_eq hnul tail
  refine ⟨parsed, hparsed, fun htext => ?_⟩
  rw [hstrings, List.mem_append, List.mem_singleton, List.mem_map] at htext
  rcases htext with ⟨w, hw, heq⟩ | heq
  · obtain rfl := Option.some.inj heq
    exact arguments_quoteFree _ w hw q' hmem hq'
  · cases heq

/-- `"it's"` -/
theorem parseArguments_its : ∃ parsed,
    parseArguments ([0x22, 0x69, 0x74, 0x27, 0x73, 0x22] ++ [0]) = some parsed ∧
      some [0x69, 0x74, 0x27, 0x73] ∉ parsed.strings :=
  have hmem : singleQuote ∈ [0x69, 0x74, 0x27, 0x73] := by decide
  parseArguments_mixed doubleQuote [] [0x69, 0x74, 0x27, 0x73] [] (.inr rfl) hmem (by decide) []

/-- Of `"it's"` there is `it` left. -/
theorem parseArguments_its_split :
    ¬ ∃ parsed, parseArguments [0x22, 0x69, 0x74, 0x27, 0x73, 0x22, 0] = some parsed ∧
      some [0x69, 0x74, 0x27, 0x73] ∈ parsed.strings := by
  rintro ⟨parsed, hparsed, hmem⟩
  have hstrings : (parseArguments [0x22, 0x69, 0x74, 0x27, 0x73, 0x22, 0]).map ParsedArgs.strings =
      some [some [0x69, 0x74], none] := by decide
  rw [hparsed, Option.map_some, Option.some.injEq] at hstrings
  rw [hstrings] at hmem
  revert hmem
  decide

/-! ## One kind of quotes -/

/-- The characters of a command without the quotes `q` and without the spaces outside them. -/
def stripped (q : Byte) : Bool → List Byte → List Byte
  | _, [] => []
  | inside, c :: line =>
    if c = q then stripped q (!inside) line
    else if c = space ∧ inside = false then stripped q inside line
    else c :: stripped q inside line

/-- The arguments one after the other. -/
def ParsedArgs.text (parsed : ParsedArgs) : List Byte := (parsed.strings.filterMap id).flatten

/-- An opening quote stands right behind a character outside quotes that is no space. -/
def Glued (q : Byte) (line : List Byte) : Prop :=
  ∃ front c rest, line = front ++ c :: q :: rest ∧ Even (front.count q) ∧ c ≠ space ∧ c ≠ q

/-- The text of the arguments so far, and of the one that is being read. -/
def Scan.text (s : Scan) : List Byte := s.done.flatten ++ s.word

theorem flatten_flush (s : Scan) : s.flush.flatten = s.text := by
  rw [Scan.flush, Scan.text]
  split
  · rename_i hword
    rw [hword, List.append_nil]
  · rw [List.flatten_append, List.flatten_singleton]

/-- The text that there should be with the rest of the command. -/
def Scan.expected (q : Byte) (s : Scan) (line : List Byte) : List Byte :=
  s.text ++ stripped q s.inQuotes line

/-- An opening quote drops what has been read. -/
def Drops (s : Scan) (c : Byte) : Prop := IsQuote c ∧ s.inQuotes = false ∧ s.word ≠ []

/-- Somewhere in the rest of the command, it does. -/
def DropsIn (s : Scan) (line : List Byte) : Prop :=
  ∃ front c rest, line = front ++ c :: rest ∧ Drops (front.foldl scanStep s) c

theorem dropsIn_cons {s : Scan} {c : Byte} {line : List Byte} :
    DropsIn s (c :: line) ↔ Drops s c ∨ DropsIn (scanStep s c) line := by
  constructor
  · rintro ⟨front, d, rest, heq, hdrops⟩
    cases front with
    | nil =>
      obtain ⟨rfl, rfl⟩ := List.cons.inj heq
      exact .inl hdrops
    | cons b front =>
      obtain ⟨rfl, rfl⟩ := List.cons.inj heq
      exact .inr ⟨front, d, rest, rfl, hdrops⟩
  · rintro (hdrops | ⟨front, d, rest, rfl, hdrops⟩)
    · exact ⟨[], c, line, rfl, hdrops⟩
    · exact ⟨c :: front, d, rest, rfl, hdrops⟩

section strip

variable {q : Byte} (hq : IsQuote q) {c : Byte} (hone : IsQuote c → c = q)
include hq hone

theorem eq_iff_isQuote : c = q ↔ IsQuote c := by
  constructor
  · rintro rfl
    exact hq
  · exact hone

/-- **A turn keeps the text**, unless it drops what has been read. -/
theorem expected_scanStep (s : Scan) (line : List Byte) :
    (¬ Drops s c → (scanStep s c).expected q line = s.expected q (c :: line)) ∧
      (Drops s c →
        ((scanStep s c).expected q line).length < (s.expected q (c :: line)).length) := by
  rcases turn_cases c s.inQuotes with ⟨hc, hin⟩ | ⟨hc, hin⟩ | ⟨rfl, hin⟩ | ⟨hc, hin⟩
  · obtain rfl := hone hc
    rw [scanStep_open hc hin, Scan.expected, Scan.expected, Scan.text, Scan.text, stripped,
      if_pos rfl, hin, Bool.not_false, List.append_nil]
    constructor
    · intro hkeeps
      have hword : s.word = [] := not_not.mp fun hne => hkeeps ⟨hc, hin, hne⟩
      rw [hword, List.append_nil]
    · rintro ⟨-, -, hne⟩
      have hpos := List.length_pos_iff.mpr hne
      simp only [List.length_append]
      omega
  · obtain rfl := hone hc
    refine ⟨fun _ => ?_, fun h => absurd h.2.1 (by rw [hin]; decide)⟩
    rw [scanStep_close hc hin, Scan.expected, Scan.expected, Scan.text, Scan.text, stripped,
      if_pos rfl, hin, Bool.not_true, List.flatten_append, List.flatten_singleton, List.append_nil]
  · refine ⟨fun _ => ?_, fun h => absurd h.1 not_isQuote_space⟩
    have hne : ¬ space = q := fun heq => not_isQuote_space (heq ▸ hq)
    rw [scanStep_space hin, Scan.expected, Scan.expected, stripped, if_neg hne,
      if_pos ⟨rfl, hin⟩, hin, Scan.text, flatten_flush, List.append_nil]
  · refine ⟨fun _ => ?_, fun h => absurd h.1 hc⟩
    have hne : ¬ c = q := fun heq => hc (heq ▸ hq)
    rw [scanStep_text hc hin, Scan.expected, Scan.expected, stripped, if_neg hne,
      if_neg (not_space_outside hin), Scan.text, Scan.text]
    simp

theorem inQuotes_scanStep (s : Scan) :
    (scanStep s c).inQuotes = if c = q then !s.inQuotes else s.inQuotes := by
  rw [scanStep_inQuotes, toggle]
  simp only [eq_iff_isQuote hq hone]

/-- Outside quotes something has been read exactly if the last character is text. -/
theorem word_scanStep {s : Scan} (hout : (scanStep s c).inQuotes = false) :
    (scanStep s c).word ≠ [] ↔ c ≠ space ∧ c ≠ q := by
  have hiff := eq_iff_isQuote hq hone
  rcases turn_cases c s.inQuotes with ⟨hc, hin⟩ | ⟨hc, hin⟩ | ⟨rfl, hin⟩ | ⟨hc, hin⟩
  · rw [scanStep_open hc hin] at hout
    cases hout
  · rw [scanStep_close hc hin]
    exact iff_of_false (not_not_intro rfl) fun h => h.2 (hiff.mpr hc)
  · rw [scanStep_space hin]
    exact iff_of_false (not_not_intro rfl) fun h => h.1 rfl
  · rw [scanStep_text hc hin] at hout ⊢
    refine iff_of_true (by simp) ⟨fun heq => ?_, fun heq => hc (hiff.mp heq)⟩
    rw [hin heq] at hout
    cases hout

end strip

section command

variable {q : Byte} (hq : IsQuote q)
include hq

/-- **Over a whole command** the text is kept, unless something is dropped. -/
theorem text_foldl (s : Scan) {line : List Byte} (hone : ∀ c ∈ line, IsQuote c → c = q) :
    (¬ DropsIn s line → (line.foldl scanStep s).text = s.expected q line) ∧
      (line.foldl scanStep s).text.length ≤ (s.expected q line).length ∧
      (DropsIn s line → (line.foldl scanStep s).text.length < (s.expected q line).length) := by
  induction line generalizing s with
  | nil =>
    have hnil : s.expected q [] = s.text := List.append_nil _
    rw [hnil]
    refine ⟨fun _ => rfl, Nat.le_refl _, ?_⟩
    rintro ⟨front, c, rest, heq, -⟩
    cases front <;> cases heq
  | cons c line ih =>
    obtain ⟨hkeeps, hdrops⟩ := expected_scanStep hq (hone c List.mem_cons_self) s line
    obtain ⟨heq, hle, hlt⟩ := ih (scanStep s c) fun d hd => hone d (List.mem_cons_of_mem c hd)
    rw [List.foldl_cons, dropsIn_cons]
    by_cases hdrop : Drops s c
    · have hless := hle.trans_lt (hdrops hdrop)
      exact ⟨fun h => absurd (.inl hdrop) h, hless.le, fun _ => hless⟩
    · rw [← hkeeps hdrop]
      exact ⟨fun h => heq fun hin => h (.inr hin), hle, fun h => hlt (h.resolve_left hdrop)⟩

theorem inQuotes_foldl {front : List Byte} (hone : ∀ c ∈ front, IsQuote c → c = q) :
    (front.foldl scanStep ⟨[], [], false⟩).inQuotes = false ↔ Even (front.count q) := by
  induction front using List.reverseRecOn with
  | nil => exact iff_of_true rfl ⟨0, rfl⟩
  | append_singleton front c ih =>
    have ih := ih fun d hd => hone d (List.mem_append_left [c] hd)
    rw [List.foldl_append, List.foldl_cons, List.foldl_nil,
      inQuotes_scanStep hq (hone c (by simp)), List.count_append, List.count_singleton]
    by_cases hc : c = q
    · rw [if_pos hc, if_pos (by simp [hc]), Nat.even_add_one, ← ih]
      simp
    · rw [if_neg hc, if_neg (by simp [hc]), Nat.add_zero]
      exact ih

/-- **What is dropped** is text that an opening quote stands right behind. -/
theorem dropsIn_iff_glued {line : List Byte} (hone : ∀ c ∈ line, IsQuote c → c = q) :
    DropsIn ⟨[], [], false⟩ line ↔ Glued q line := by
  constructor
  · rintro ⟨front, d, rest, rfl, hd, hout, hword⟩
    obtain rfl := hone d (by simp) hd
    rcases List.eq_nil_or_concat front with rfl | ⟨front, c, rfl⟩
    · exact absurd rfl hword
    have hc : IsQuote c → c = d := hone c (by simp)
    have hfront : ∀ b ∈ front, IsQuote b → b = d := fun b hb => hone b (by simp [hb])
    rw [List.concat_eq_append, List.foldl_concat] at hout hword
    obtain ⟨hspace, hne⟩ := (word_scanStep hq hc hout).mp hword
    rw [inQuotes_scanStep hq hc, if_neg hne, inQuotes_foldl hq hfront] at hout
    exact ⟨front, c, rest, by simp, hout, hspace, hne⟩
  · rintro ⟨front, c, rest, rfl, heven, hspace, hne⟩
    have hc : IsQuote c → c = q := hone c (by simp)
    have hfront : ∀ b ∈ front, IsQuote b → b = q := fun b hb => hone b (by simp [hb])
    have hout : (scanStep (front.foldl scanStep ⟨[], [], false⟩) c).inQuotes = false := by
      rw [inQuotes_scanStep hq hc, if_neg hne, inQuotes_foldl hq hfront]
      exact heven
    refine ⟨front ++ [c], q, rest, by simp, ?_⟩
    rw [List.foldl_append]
    exact ⟨hq, hout, (word_scanStep hq hc hout).mpr ⟨hspace, hne⟩⟩

end command

/-- **When text is kept.**  Of a command with one kind of quotes, the arguments together are its
text without the quotes and the spaces outside them, exactly if no opening quote stands right
behind unquoted text. -/
theorem parseArguments_keeps_iff {q : Byte} (hq : IsQuote q) {line : List Byte}
    (hone : ∀ c ∈ line, IsQuote c → c = q) (hnul : (0 : Byte) ∉ line) (tail : List Byte) :
    (∃ parsed, parseArguments (line ++ 0 :: tail) = some parsed ∧
      parsed.text = stripped q false line) ↔ ¬ Glued q line := by
  obtain ⟨parsed, hparsed, hstrings⟩ := parseArguments_eq hnul tail
  have htext : parsed.text = (line.foldl scanStep ⟨[], [], false⟩).text := by
    have hnull : ((arguments line).map some ++ [none]).filterMap id = arguments line := by
      rw [List.filterMap_append, List.filterMap_map]
      exact (List.append_nil _).trans List.filterMap_some
    rw [ParsedArgs.text, hstrings, hnull, arguments, flatten_flush]
  obtain ⟨hkeeps, -, hlost⟩ := text_foldl hq ⟨[], [], false⟩ hone
  rw [← dropsIn_iff_glued hq hone]
  constructor
  · rintro ⟨parsed', hparsed', hkept⟩ hdrops
    obtain rfl := Option.some.inj (hparsed.symm.trans hparsed')
    have hlt := hlost hdrops
    rw [← htext, hkept] at hlt
    exact absurd hlt (Nat.lt_irrefl _)
  · intro hdrops
    exact ⟨parsed, hparsed, htext.trans (hkeeps hdrops)⟩

theorem not_glued_apart : ¬ Glued 0x22 [0x6e, 0x20, 0x22, 0x61, 0x22] := by
  rintro ⟨front, c, rest, heq, heven, hspace, hne⟩
  rcases front with _ | ⟨_, _ | ⟨_, _ | ⟨_, front⟩⟩⟩
  · cases heq
  · cases heq
    exact hspace rfl
  · cases heq
  · simp only [List.cons_append, List.cons.injEq] at heq
    obtain ⟨rfl, rfl, rfl, heq⟩ := heq
    rcases front with _ | ⟨_, front⟩
    · revert heven
      decide
    · have hlen := congrArg List.length heq
      simp only [List.length_cons, List.length_append, List.length_nil] at hlen
      omega

/-- `n "a"` keeps its text. -/
theorem parseArguments_apart : ∃ parsed,
    parseArguments ([0x6e, 0x20, 0x22, 0x61, 0x22] ++ [0]) = some parsed ∧
      parsed.text = stripped 0x22 false [0x6e, 0x20, 0x22, 0x61, 0x22] :=
  (parseArguments_keeps_iff (by decide) (by decide) (by decide) []).mpr not_glued_apart

/-- `--n="a b"` is given without `--n=`. -/
theorem parseArguments_glued :
    ¬ ∃ parsed, parseArguments [0x2d, 0x2d, 0x6e, 0x3d, 0x22, 0x61, 0x20, 0x62, 0x22, 0] =
      some parsed ∧ parsed.text =
        stripped 0x22 false [0x2d, 0x2d, 0x6e, 0x3d, 0x22, 0x61, 0x20, 0x62, 0x22] := by
  rintro ⟨parsed, hparsed, htext⟩
  have hcut : (parseArguments [0x2d, 0x2d, 0x6e, 0x3d, 0x22, 0x61, 0x20, 0x62, 0x22, 0]).map
      ParsedArgs.text = some [0x61, 0x20, 0x62] := by decide
  rw [hparsed, Option.map_some, htext] at hcut
  revert hcut
  decide

end Acso.Shell
