import Acso.Shell.MainLoop

/-!
# Pipes between quotes

`strtok` splits a line at every `|`, whether or not it stands between quotes; only
`parse_arguments`, which comes later, knows about quotes.  `outsidePieces` are the pieces of a
line between the `|` outside quotes.  They are the commands exactly if no `|` stands between
quotes (`quotedPipes_kept_iff`).
-/

namespace Acso.Shell

open Acso.Lib

/-! ## Quotes -/

theorem toggle_pipeChar (inQuotes : Bool) : toggle inQuotes pipeChar = inQuotes := rfl

/-- A `|` stands between quotes. -/
def QuotedFrom (inQuotes : Bool) (line : List Byte) : Prop :=
  ∃ front rest, line = front ++ pipeChar :: rest ∧ front.foldl toggle inQuotes = true

def PipeInQuotes (line : List Byte) : Prop := QuotedFrom false line

theorem quotedFrom_cons {inQuotes : Bool} {c : Byte} {line : List Byte} :
    QuotedFrom inQuotes (c :: line) ↔
      (c = pipeChar ∧ inQuotes = true) ∨ QuotedFrom (toggle inQuotes c) line := by
  constructor
  · rintro ⟨front, rest, heq, hquotes⟩
    cases front with
    | nil =>
      obtain ⟨rfl, rfl⟩ := List.cons.inj heq
      exact .inl ⟨rfl, hquotes⟩
    | cons b front =>
      obtain ⟨rfl, rfl⟩ := List.cons.inj heq
      exact .inr ⟨front, rest, rfl, hquotes⟩
  · rintro (⟨rfl, hquotes⟩ | ⟨front, rest, rfl, hquotes⟩)
    · exact ⟨[], line, rfl, hquotes⟩
    · exact ⟨c :: front, rest, rfl, hquotes⟩

/-! ## The pieces -/

/-- The pieces between the `|` outside quotes that are not empty, after the beginning `piece` of
the first one. -/
def outsideFrom : Bool → List Byte → List Byte → List (List Byte)
  | _, piece, [] => if piece = [] then [] else [piece]
  | inQuotes, piece, c :: line =>
    if c = pipeChar ∧ inQuotes = false then
      if piece = [] then outsideFrom inQuotes [] line else piece :: outsideFrom inQuotes [] line
    else outsideFrom (toggle inQuotes c) (piece ++ [c]) line

def outsidePieces (line : List Byte) : List (List Byte) := outsideFrom false [] line

/-- Without a quoted `|`, all are separators. -/
theorem outsideFrom_eq {inQuotes : Bool} {line : List Byte} (h : ¬ QuotedFrom inQuotes line)
    (piece : List Byte) : outsideFrom inQuotes piece line = tokensFrom pipeChar piece line := by
  induction line generalizing inQuotes piece with
  | nil => rfl
  | cons c line ih =>
    rw [quotedFrom_cons, not_or] at h
    rw [outsideFrom, tokensFrom]
    by_cases hc : c = pipeChar
    · have hout : inQuotes = false := by
        cases inQuotes with
        | false => rfl
        | true => exact absurd ⟨hc, rfl⟩ h.1
      have hrest : ¬ QuotedFrom inQuotes line := by
        have hrest := h.2
        rwa [hc, toggle_pipeChar] at hrest
      rw [if_pos ⟨hc, hout⟩, if_pos hc, ih hrest]
    · rw [if_neg fun h => hc h.1, if_neg hc, ih h.2]

/-- What has been read of a piece stays in it. -/
theorem outsideFrom_keeps {piece : List Byte} (hpiece : pipeChar ∈ piece) (inQuotes : Bool)
    (line : List Byte) : ∃ w ∈ outsideFrom inQuotes piece line, pipeChar ∈ w := by
  have hne : piece ≠ [] := List.ne_nil_of_mem hpiece
  induction line generalizing inQuotes piece with
  | nil =>
    rw [outsideFrom, if_neg hne]
    exact ⟨piece, List.mem_singleton_self piece, hpiece⟩
  | cons c line ih =>
    rw [outsideFrom, if_neg hne]
    split
    · exact ⟨piece, List.mem_cons_self, hpiece⟩
    · have hmem : pipeChar ∈ piece ++ [c] := List.mem_append_left [c] hpiece
      exact ih hmem (toggle inQuotes c) (List.ne_nil_of_mem hmem)

/-- A quoted `|` is in a piece. -/
theorem mem_outsideFrom {inQuotes : Bool} {line : List Byte} (h : QuotedFrom inQuotes line)
    (piece : List Byte) : ∃ w ∈ outsideFrom inQuotes piece line, pipeChar ∈ w := by
  induction line generalizing inQuotes piece with
  | nil =>
    obtain ⟨front, rest, heq, -⟩ := h
    cases front <;> cases heq
  | cons c line ih =>
    rw [outsideFrom]
    rcases quotedFrom_cons.mp h with ⟨rfl, hin⟩ | h
    · rw [if_neg fun hout => by rw [hin] at hout; cases hout.2]
      exact outsideFrom_keeps (by simp) _ line
    · by_cases hsep : c = pipeChar ∧ inQuotes = false
      · rw [hsep.1, toggle_pipeChar] at h
        obtain ⟨w, hw, hmem⟩ := ih h []
        rw [if_pos hsep]
        split
        · exact ⟨w, hw, hmem⟩
        · exact ⟨w, List.mem_cons_of_mem piece hw, hmem⟩
      · rw [if_neg hsep]
        exact ih h (piece ++ [c])

/-! ## The commands -/

/-- The commands are the pieces between the `|` outside quotes, and one between quotes is in an
argument. -/
structure PipesKept (line : List Byte) (commands : List (List Byte)) : Prop where
  pieces : commands = outsidePieces line
  reaches : PipeInQuotes line → ∃ command ∈ commands, ∃ arg ∈ arguments command, pipeChar ∈ arg

/-- **Pipes between quotes split.**  The commands are the pieces between the `|` outside quotes
exactly if no `|` of the line stands between quotes. -/
theorem quotedPipes_kept_iff (line : InputLine) (tail : List Byte) :
    PipesKept line.chars (splitCommands (line.chars ++ 0 :: tail)).strings ↔
      ¬ PipeInQuotes line.chars := by
  rw [splitCommands_strings line.nul, ← tokens_eq_segments]
  constructor
  · rintro ⟨hpieces, -⟩ hquoted
    obtain ⟨w, hw, hmem⟩ := mem_outsideFrom hquoted []
    rw [← outsidePieces, ← hpieces] at hw
    exact (isToken_of_mem_tokensFrom List.not_mem_nil hw).not_mem hmem
  · intro hquoted
    exact ⟨(outsideFrom_eq hquoted []).symm, fun h => absurd h hquoted⟩

/-- `echo "a|b"` -/
def echoPipeLine : InputLine where
  chars := [0x65, 0x63, 0x68, 0x6f, 0x20, 0x22, 0x61, 0x7c, 0x62, 0x22]
  nul := by decide
  newline := by decide
  length_lt := by decide

/-- Of `echo "a|b"` there are the commands `echo "a` and `b"`. -/
theorem echoPipeLine_split :
    ¬ ∀ (line : InputLine) (tail : List Byte),
      PipesKept line.chars (splitCommands (line.chars ++ 0 :: tail)).strings := by
  intro h
  have hpieces := (h echoPipeLine []).pieces
  rw [splitCommands_strings echoPipeLine.nul, ← tokens_eq_segments] at hpieces
  revert hpieces
  decide

end Acso.Shell
