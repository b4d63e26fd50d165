import Mathlib.Data.List.DropRight
import Mathlib.Data.List.TakeWhile
import Mathlib.Data.Nat.Digits.Lemmas
import Acso.Lib.LittleEndian

/-!
# Numbers in text

The conversions of `scanf` on what is left of a stream of characters.  `scanNumber` takes an
integer in the largest piece that can be one, `scanWord` a word without spaces.  Either takes
some of the stream unless it is at its end (`scanNumber_length`, `scanWord_length`).  Every text
of a number is read as the number where it stops (`scanNumber_stopsAt`), and what `printf` prints
is such a text (`spells_printInt`, `spells_printNat`).  For `%x` these are the only numbers
(`scanNumber_cases`).
-/

namespace Acso.Lib

/-- `isspace`. -/
def isSpace (c : Byte) : Bool := decide (c = 0x20 ∨ 9 ≤ c.toNat ∧ c.toNat ≤ 13)

def digitValue (c : Byte) : Option Nat :=
  if 0x30 ≤ c.toNat ∧ c.toNat ≤ 0x39 then some (c.toNat - 0x30)
  else if 0x61 ≤ c.toNat ∧ c.toNat ≤ 0x66 then some (c.toNat - 0x61 + 10)
  else if 0x41 ≤ c.toNat ∧ c.toNat ≤ 0x46 then some (c.toNat - 0x41 + 10)
  else none

def isDigit (base : Nat) (c : Byte) : Bool := (digitValue c).any fun d => decide (d < base)

/-- The value of some digits. -/
def digitsValue (base : Nat) (digits : List Byte) : Nat :=
  digits.foldl (fun n c => n * base + (digitValue c).getD 0) 0

/-- `%d`, `%x`, and `%i`, which takes the base from a prefix. -/
inductive Conversion
  | d
  | x
  | i
  deriving DecidableEq

/-- `0x` or `0X`. -/
def hasHexPrefix (s : List Byte) : Bool :=
  decide (s.head? = some 0x30 ∧ (s[1]? = some 0x78 ∨ s[1]? = some 0x58))

/-- The base, and what is behind the prefix. -/
def Conversion.base (conversion : Conversion) (s : List Byte) : Nat × List Byte :=
  match conversion with
  | .d => (10, s)
  | .x => (16, if hasHexPrefix s then s.drop 2 else s)
  | .i =>
    if hasHexPrefix s then (16, s.drop 2)
    else if s.head? = some 0x30 then (8, s)
    else (10, s)

/-- What a conversion finds, and what it leaves of the stream. -/
inductive Scanned
  | eof
  | failed (rest : List Byte)
  | found (value : Int) (rest : List Byte)
  deriving DecidableEq

def minus : Byte := 0x2d
def plus : Byte := 0x2b

/-- A prefix without a digit behind it is no number, as the C standard has it: the longest piece
that can start one is taken, and `0x` is none.  (Some libraries read the `0`.) -/
def scanNumber (conversion : Conversion) (s : List Byte) : Scanned :=
  match s.dropWhile isSpace with
  | [] => .eof
  | c :: s =>
    let unsigned := if c = minus ∨ c = plus then s else c :: s
    let (base, s) := conversion.base unsigned
    let digits := s.takeWhile (isDigit base)
    if digits = [] then .failed s
    else
      .found (if c = minus then -(digitsValue base digits : Int) else digitsValue base digits)
        (s.dropWhile (isDigit base))

/-- `%s`; there is no word at the end of the stream. -/
def scanWord (s : List Byte) : Option (List Byte × List Byte) :=
  match s.dropWhile isSpace with
  | [] => none
  | c :: s => some ((c :: s).takeWhile fun c => !isSpace c, (c :: s).dropWhile fun c => !isSpace c)

/-! ## What is left -/

theorem Conversion.base_length (conversion : Conversion) (s : List Byte) :
    (conversion.base s).2.length ≤ s.length := by
  have hdrop : (s.drop 2).length ≤ s.length := by
    rw [List.length_drop]
    omega
  cases conversion with
  | d => exact Nat.le_refl _
  | x =>
    rw [base]
    dsimp only
    split
    · exact hdrop
    · exact Nat.le_refl _
  | i =>
    rw [base]
    split
    · exact hdrop
    · split <;> exact Nat.le_refl _

theorem length_dropWhile_le {α : Type} (p : α → Bool) (l : List α) : (l.dropWhile p).length ≤ l.length :=
  (List.dropWhile_sublist p).length_le

/-- **A number is taken from the stream**, and nothing is put back. -/
theorem scanNumber_length (conversion : Conversion) (s : List Byte) :
    match scanNumber conversion s with
    | .eof => True
    | .failed rest => rest.length ≤ s.length
    | .found _ rest => rest.length < s.length := by
  have hspace := length_dropWhile_le isSpace s
  rw [scanNumber]
  cases hs : s.dropWhile isSpace with
  | nil => trivial
  | cons c t =>
    rw [hs, List.length_cons] at hspace
    dsimp only
    generalize hunsigned : (if c = minus ∨ c = plus then t else c :: t) = unsigned
    have hle : unsigned.length ≤ t.length + 1 := by
      rw [← hunsigned]
      split
      · exact Nat.le_succ _
      · exact Nat.le_refl _
    have hbase := conversion.base_length unsigned
    generalize conversion.base unsigned = r at hbase ⊢
    by_cases hdigits : r.2.takeWhile (isDigit r.1) = []
    · rw [if_pos hdigits]
      dsimp only
      omega
    · have hsplit := congrArg List.length
        (List.takeWhile_append_dropWhile (p := isDigit r.1) (l := r.2))
      have hpos := List.length_pos_iff.mpr hdigits
      rw [List.length_append] at hsplit
      rw [if_neg hdigits]
      dsimp only
      omega

theorem scanWord_length {s word rest : List Byte} (h : scanWord s = some (word, rest)) :
    rest.length < s.length := by
  have hspace := length_dropWhile_le isSpace s
  have hstop := List.head?_dropWhile_not isSpace s
  rw [scanWord] at h
  cases hs : s.dropWhile isSpace with
  | nil =>
    rw [hs] at h
    cases h
  | cons c t =>
    rw [hs] at h hspace hstop
    have hc : isSpace c = false := hstop
    have hdrop := length_dropWhile_le (fun c => !isSpace c) t
    dsimp only at h
    rw [List.dropWhile_cons_of_pos (by simp [hc])] at h
    cases h
    rw [List.length_cons] at hspace
    omega

/-! ## Digits -/

theorem digitValue_range {c : Byte} {d : Nat} (h : digitValue c = some d) :
    0x30 ≤ c.toNat ∧ c.toNat ≤ 0x39 ∨ 0x61 ≤ c.toNat ∧ c.toNat ≤ 0x66 ∨
      0x41 ≤ c.toNat ∧ c.toNat ≤ 0x46 := by
  rw [digitValue] at h
  split at h
  · exact .inl ‹_›
  · split at h
    · exact .inr (.inl ‹_›)
    · split at h
      · exact .inr (.inr ‹_›)
      · cases h

theorem isDigit_eq_true {base : Nat} {c : Byte} :
    isDigit base c = true ↔ ∃ d < base, digitValue c = some d := by
  rw [isDigit, Option.any_eq_true]
  simp only [decide_eq_true_eq]
  exact ⟨fun ⟨d, hd, hlt⟩ => ⟨d, hlt, hd⟩, fun ⟨d, hlt, hd⟩ => ⟨d, hd, hlt⟩⟩

theorem isSpace_toNat {c : Byte} (h : isSpace c = true) :
    c.toNat = 0x20 ∨ 9 ≤ c.toNat ∧ c.toNat ≤ 13 := by
  rw [isSpace, decide_eq_true_eq] at h
  rcases h with rfl | h
  · exact .inl rfl
  · exact .inr h

theorem isDigit_of_isSpace {base : Nat} {c : Byte} (h : isSpace c = true) : isDigit base c = false := by
  rw [Bool.eq_false_iff]
  intro hdigit
  obtain ⟨d, -, hd⟩ := isDigit_eq_true.mp hdigit
  have hspace := isSpace_toNat h
  have hrange := digitValue_range hd
  omega

theorem isSpace_of_isDigit {base : Nat} {c : Byte} (h : isDigit base c = true) : isSpace c = false := by
  rw [Bool.eq_false_iff]
  intro hspace
  rw [isDigit_of_isSpace hspace] at h
  cases h

/-- No character from `0` to `9`, `a` to `f` or `A` to `F` is this one. -/
theorem ne_of_isDigit {base : Nat} {c c' : Byte} (h : isDigit base c = true)
    (hc' : digitValue c' = none) : c ≠ c' := by
  rintro rfl
  obtain ⟨d, -, hd⟩ := isDigit_eq_true.mp h
  rw [hc'] at hd
  cases hd

/-- The stream ends or goes on with a space. -/
def Ends (rest : List Byte) : Prop := ∀ c ∈ rest.head?, isSpace c = true

theorem ends_nil : Ends [] := fun _ hc => nomatch hc

theorem ends_cons {c : Byte} (hc : isSpace c = true) (s : List Byte) : Ends (c :: s) := by
  intro c' hc'
  obtain rfl := Option.some.inj hc'
  exact hc

/-- The stream goes on with no digit, nor with the `x` that would make a prefix of these digits. -/
def StopsAt (digits rest : List Byte) : Prop :=
  ∀ c ∈ rest.head?, isDigit 16 c = false ∧ (digits = [0x30] → c ≠ 0x78 ∧ c ≠ 0x58)

theorem Ends.stopsAt {rest : List Byte} (h : Ends rest) (digits : List Byte) : StopsAt digits rest := by
  intro c hc
  have hspace := h c hc
  refine ⟨isDigit_of_isSpace hspace, fun _ => ⟨?_, ?_⟩⟩
  · rintro rfl
    exact absurd hspace (by decide)
  · rintro rfl
    exact absurd hspace (by decide)

theorem isDigit_mono {base base' : Nat} (hle : base ≤ base') {c : Byte} (h : isDigit base c = true) :
    isDigit base' c = true := by
  obtain ⟨d, hd, hvalue⟩ := isDigit_eq_true.mp h
  exact isDigit_eq_true.mpr ⟨d, hd.trans_le hle, hvalue⟩

section

variable {base : Nat} (hbase : base ≤ 16) {digits rest : List Byte}
  (hdigits : ∀ c ∈ digits, isDigit base c = true)
include hdigits

include hbase in
/-- **Digits are taken** up to where they stop. -/
theorem span_digits (hrest : ∀ c ∈ rest.head?, isDigit 16 c = false) :
    (digits ++ rest).takeWhile (isDigit base) = digits ∧
      (digits ++ rest).dropWhile (isDigit base) = rest := by
  rw [List.takeWhile_append_of_pos hdigits, List.dropWhile_append_of_pos hdigits]
  cases rest with
  | nil => exact ⟨List.append_nil digits, rfl⟩
  | cons c rest =>
    have hc : ¬ isDigit base c = true := by
      intro hc
      have hdigit := isDigit_mono hbase hc
      rw [hrest c rfl] at hdigit
      exact Bool.false_ne_true hdigit
    rw [List.takeWhile_cons_of_neg hc, List.dropWhile_cons_of_neg hc]
    exact ⟨List.append_nil digits, rfl⟩

theorem hasHexPrefix_digits (hne : digits ≠ []) (hrest : StopsAt digits rest) :
    hasHexPrefix (digits ++ rest) = false := by
  rw [hasHexPrefix, decide_eq_false_iff_not]
  rintro ⟨hzero, hx⟩
  match digits, hdigits with
  | [_], _ =>
    -- the `x` would be the first character of the rest
    obtain rfl := Option.some.inj hzero
    have hstop : ∀ c, rest[0]? = some c → c ≠ 0x78 ∧ c ≠ 0x58 := fun c hc =>
      (hrest c (by rw [List.head?_eq_getElem?]; exact hc)).2 rfl
    rcases hx with hx | hx
    · exact (hstop _ hx).1 rfl
    · exact (hstop _ hx).2 rfl
  | _ :: c :: _, hdigits =>
    have hc : isDigit base c = true := hdigits c (List.mem_cons_of_mem _ List.mem_cons_self)
    rcases hx with hx | hx
    · exact ne_of_isDigit hc (by decide) (Option.some.inj hx)
    · exact ne_of_isDigit hc (by decide) (Option.some.inj hx)

end

/-! ## Reading digits -/

theorem dropWhile_spaces {spaces : List Byte} (hspaces : ∀ c ∈ spaces, isSpace c = true) {c : Byte}
    (hc : isSpace c = false) (s : List Byte) : (spaces ++ c :: s).dropWhile isSpace = c :: s := by
  rw [List.dropWhile_append_of_pos hspaces, List.dropWhile_cons_of_neg (by rw [hc]; decide)]

/-- The texts of a number without a sign, in the base that they show. -/
inductive Numeral : Conversion → Nat → List Byte → Prop
  | decimal {digits : List Byte} (hne : digits ≠ []) (hdigits : ∀ c ∈ digits, isDigit 10 c = true) :
      Numeral .d (digitsValue 10 digits) digits
  | hex {digits : List Byte} (hne : digits ≠ []) (hdigits : ∀ c ∈ digits, isDigit 16 c = true) :
      Numeral .x (digitsValue 16 digits) digits
  | hexPrefix {conversion : Conversion} (hconversion : conversion ≠ .d) {x : Byte}
      (hx : x = 0x78 ∨ x = 0x58) {digits : List Byte} (hne : digits ≠ [])
      (hdigits : ∀ c ∈ digits, isDigit 16 c = true) :
      Numeral conversion (digitsValue 16 digits) (0x30 :: x :: digits)
  | octal {digits : List Byte} (hdigits : ∀ c ∈ digits, isDigit 8 c = true) :
      Numeral .i (digitsValue 8 (0x30 :: digits)) (0x30 :: digits)
  | plain {digits : List Byte} (hne : digits ≠ []) (hdigits : ∀ c ∈ digits, isDigit 10 c = true)
      (hzero : digits.head? ≠ some 0x30) : Numeral .i (digitsValue 10 digits) digits

/-- The texts of a number. -/
inductive Spells (conversion : Conversion) : Int → List Byte → Prop
  | unsigned {n : Nat} {text : List Byte} (h : Numeral conversion n text) :
      Spells conversion n text
  | plus {n : Nat} {text : List Byte} (h : Numeral conversion n text) :
      Spells conversion n (plus :: text)
  | minus {n : Nat} {text : List Byte} (h : Numeral conversion n text) :
      Spells conversion (-(n : Int)) (minus :: text)

theorem hasHexPrefix_cons {x : Byte} (hx : x = 0x78 ∨ x = 0x58) (s : List Byte) :
    hasHexPrefix (0x30 :: x :: s) = true := by
  rw [hasHexPrefix, decide_eq_true_eq]
  rcases hx with rfl | rfl
  · exact ⟨rfl, .inl rfl⟩
  · exact ⟨rfl, .inr rfl⟩

/-- **The base of a numeral**, and its digits. -/
theorem Numeral.base {conversion : Conversion} {n : Nat} {text rest : List Byte}
    (h : Numeral conversion n text) (hrest : StopsAt text rest) :
    ∃ base ≤ 16, ∃ digits, conversion.base (text ++ rest) = (base, digits ++ rest) ∧ digits ≠ [] ∧
      (∀ c ∈ digits, isDigit base c = true) ∧ digitsValue base digits = n := by
  cases h with
  | decimal hne hdigits => exact ⟨10, by decide, text, rfl, hne, hdigits, rfl⟩
  | hex hne hdigits =>
    refine ⟨16, Nat.le_refl _, text, ?_, hne, hdigits, rfl⟩
    rw [Conversion.base, hasHexPrefix_digits hdigits hne hrest]
    rfl
  | @hexPrefix _ hconversion x hx digits hne hdigits =>
    refine ⟨16, Nat.le_refl _, digits, ?_, hne, hdigits, rfl⟩
    have hhex := hasHexPrefix_cons hx (digits ++ rest)
    cases conversion with
    | d => exact absurd rfl hconversion
    | x =>
      rw [List.cons_append, List.cons_append, Conversion.base, hhex]
      rfl
    | i =>
      rw [List.cons_append, List.cons_append, Conversion.base, hhex]
      rfl
  | @octal digits hdigits =>
    have hall : ∀ c ∈ 0x30 :: digits, isDigit 8 c = true := by
      intro c hc
      rcases List.mem_cons.mp hc with rfl | hc
      · decide
      · exact hdigits c hc
    refine ⟨8, by decide, 0x30 :: digits, ?_, List.cons_ne_nil _ _, hall, rfl⟩
    rw [Conversion.base, hasHexPrefix_digits hall (List.cons_ne_nil _ _) hrest]
    rfl
  | plain hne hdigits hzero =>
    refine ⟨10, by decide, text, ?_, hne, hdigits, rfl⟩
    rw [Conversion.base, hasHexPrefix_digits hdigits hne hrest, List.head?_append_of_ne_nil _ hne]
    exact if_neg hzero

/-- It starts with a digit. -/
theorem Numeral.cons {conversion : Conversion} {n : Nat} {text : List Byte}
    (h : Numeral conversion n text) : ∃ base c t, text = c :: t ∧ isDigit base c = true := by
  have hfirst : ∀ {base : Nat} {digits : List Byte}, digits ≠ [] →
      (∀ c ∈ digits, isDigit base c = true) → ∃ base c t, digits = c :: t ∧ isDigit base c = true := by
    intro base digits hne hdigits
    obtain ⟨c, t, rfl⟩ := List.exists_cons_of_ne_nil hne
    exact ⟨base, c, t, rfl, hdigits c List.mem_cons_self⟩
  cases h with
  | decimal hne hdigits => exact hfirst hne hdigits
  | hex hne hdigits => exact hfirst hne hdigits
  | hexPrefix _ _ _ _ => exact ⟨16, _, _, rfl, by decide⟩
  | octal _ => exact ⟨8, _, _, rfl, by decide⟩
  | plain hne hdigits _ => exact hfirst hne hdigits

/-- The text behind its sign. -/
def unsign (text : List Byte) : List Byte := text.dropWhile fun c => decide (c = minus ∨ c = plus)

theorem Numeral.unsign {conversion : Conversion} {n : Nat} {text : List Byte}
    (h : Numeral conversion n text) : unsign text = text := by
  obtain ⟨base, c, t, rfl, hc⟩ := h.cons
  have hsign : ¬ (c = Lib.minus ∨ c = Lib.plus) := fun h =>
    h.elim (ne_of_isDigit hc (by decide)) (ne_of_isDigit hc (by decide))
  exact List.dropWhile_cons_of_neg (by rw [decide_eq_false hsign]; exact Bool.false_ne_true)

theorem Numeral.unsign_cons {conversion : Conversion} {n : Nat} {text : List Byte}
    (h : Numeral conversion n text) {c : Byte} (hc : c = Lib.minus ∨ c = Lib.plus) :
    Lib.unsign (c :: text) = text := by
  have hdrop := h.unsign
  rw [Lib.unsign] at hdrop ⊢
  rw [List.dropWhile_cons, if_pos (decide_eq_true hc), hdrop]

/-- **Every text of a number is read**, from where the spaces before it start to where it stops. -/
theorem scanNumber_stopsAt {conversion : Conversion} {v : Int} {spaces text rest : List Byte}
    (hspaces : ∀ c ∈ spaces, isSpace c = true) (h : Spells conversion v text)
    (hrest : StopsAt (unsign text) rest) :
    scanNumber conversion (spaces ++ (text ++ rest)) = .found v rest := by
  cases h with
  | @unsigned n _ hn =>
    rw [hn.unsign] at hrest
    obtain ⟨base, hle, digits, hbase, hne, hdigits, rfl⟩ := hn.base hrest
    obtain ⟨base', c, t, rfl, hc⟩ := hn.cons
    obtain ⟨htake, hdrop⟩ := span_digits hle hdigits fun c hc => (hrest c hc).1
    have hminus : c ≠ Lib.minus := ne_of_isDigit hc (by decide)
    have hplus : c ≠ Lib.plus := ne_of_isDigit hc (by decide)
    have hsign : ¬ (c = Lib.minus ∨ c = Lib.plus) := fun h => h.elim hminus hplus
    rw [List.cons_append] at hbase ⊢
    rw [scanNumber, dropWhile_spaces hspaces (isSpace_of_isDigit hc)]
    dsimp only
    rw [if_neg hsign, hbase]
    dsimp only
    rw [htake, hdrop, if_neg hne, if_neg hminus]
  | @plus n t hn =>
    rw [hn.unsign_cons (.inr rfl)] at hrest
    obtain ⟨base, hle, digits, hbase, hne, hdigits, rfl⟩ := hn.base hrest
    obtain ⟨htake, hdrop⟩ := span_digits hle hdigits fun c hc => (hrest c hc).1
    rw [List.cons_append, scanNumber, dropWhile_spaces hspaces (by decide)]
    dsimp only
    rw [if_pos (Or.inr rfl), hbase]
    dsimp only
    rw [htake, hdrop, if_neg hne, if_neg (by decide)]
  | @minus n t hn =>
    rw [hn.unsign_cons (.inl rfl)] at hrest
    obtain ⟨base, hle, digits, hbase, hne, hdigits, rfl⟩ := hn.base hrest
    obtain ⟨htake, hdrop⟩ := span_digits hle hdigits fun c hc => (hrest c hc).1
    rw [List.cons_append, scanNumber, dropWhile_spaces hspaces (by decide)]
    dsimp only
    rw [if_pos (Or.inl rfl), hbase]
    dsimp only
    rw [htake, hdrop, if_neg hne, if_pos rfl]

theorem scanNumber_spelled {conversion : Conversion} {v : Int} {spaces text rest : List Byte}
    (hspaces : ∀ c ∈ spaces, isSpace c = true) (h : Spells conversion v text) (hrest : Ends rest) :
    scanNumber conversion (spaces ++ (text ++ rest)) = .found v rest :=
  scanNumber_stopsAt hspaces h (hrest.stopsAt _)

theorem scanNumber_dropWhile (conversion : Conversion) (s : List Byte) :
    scanNumber conversion (s.dropWhile isSpace) = scanNumber conversion s := by
  rw [scanNumber, scanNumber, List.dropWhile_idempotent isSpace s]

/-! ## Hexadecimal numbers -/

/-- No digit is in front, or a prefix without a digit behind it. -/
inductive NoDigits : List Byte → Prop
  | other {s : List Byte} (h : ∀ c ∈ s.head?, isDigit 16 c = false) : NoDigits s
  | hexPrefix {x : Byte} (hx : x = 0x78 ∨ x = 0x58) {s : List Byte}
      (h : ∀ c ∈ s.head?, isDigit 16 c = false) : NoDigits (0x30 :: x :: s)

/-- What `%x` cannot take for a number. -/
inductive NoNumber : List Byte → Prop
  | unsigned {c : Byte} {s : List Byte} (hspace : isSpace c = false)
      (hsign : ¬ (c = minus ∨ c = plus)) (h : NoDigits (c :: s)) : NoNumber (c :: s)
  | signed {c : Byte} {s : List Byte} (hsign : c = minus ∨ c = plus) (h : NoDigits s) :
      NoNumber (c :: s)

theorem takeWhile_eq_nil {p : Byte → Bool} {s : List Byte} :
    s.takeWhile p = [] ↔ ∀ c ∈ s.head?, p c = false := by
  cases s with
  | nil => exact ⟨fun _ _ hc => (nomatch hc), fun _ => rfl⟩
  | cons c s =>
    rw [List.head?_cons]
    cases hc : p c with
    | false =>
      refine ⟨fun _ c' hc' => ?_, fun _ => List.takeWhile_cons_of_neg (by rw [hc]; decide)⟩
      obtain rfl := Option.some.inj hc'
      exact hc
    | true =>
      rw [List.takeWhile_cons_of_pos hc]
      refine ⟨fun h => absurd h (List.cons_ne_nil _ _), fun h => ?_⟩
      rw [h c rfl] at hc
      cases hc

theorem hasHexPrefix_eq_true {s : List Byte} (h : hasHexPrefix s = true) :
    ∃ x t, (x = 0x78 ∨ x = 0x58) ∧ s = 0x30 :: x :: t := by
  rw [hasHexPrefix, decide_eq_true_eq] at h
  obtain ⟨hzero, hx⟩ := h
  match s with
  | [] => cases hzero
  | [_] => simp at hx
  | c :: x :: t =>
    obtain rfl := Option.some.inj hzero
    exact ⟨x, t, hx.imp Option.some.inj Option.some.inj, rfl⟩

/-- **Without digits** nothing is left behind the prefix for the number. -/
theorem noDigits_iff {s : List Byte} :
    (Conversion.x.base s).2.takeWhile (isDigit 16) = [] ↔ NoDigits s := by
  rw [takeWhile_eq_nil, Conversion.base]
  dsimp only
  constructor
  · intro h
    cases hhex : hasHexPrefix s with
    | false =>
      rw [hhex] at h
      exact .other h
    | true =>
      obtain ⟨x, t, hx, rfl⟩ := hasHexPrefix_eq_true hhex
      rw [hhex] at h
      exact .hexPrefix hx h
  · intro h
    cases h with
    | other h =>
      have hhex : hasHexPrefix s = false := by
        rw [Bool.eq_false_iff]
        intro hhex
        obtain ⟨x, t, -, rfl⟩ := hasHexPrefix_eq_true hhex
        -- a `0` is a digit
        exact absurd (h _ rfl) (by decide)
      rw [hhex]
      exact h
    | hexPrefix hx h =>
      rw [hasHexPrefix_cons hx]
      exact h

/-- **The digits that are taken** are those of a numeral. -/
theorem numeral_of_base {s : List Byte}
    (h : (Conversion.x.base s).2.takeWhile (isDigit 16) ≠ []) :
    ∃ text, s = text ++ (Conversion.x.base s).2.dropWhile (isDigit 16) ∧
      Numeral .x (digitsValue 16 ((Conversion.x.base s).2.takeWhile (isDigit 16))) text ∧
      StopsAt text ((Conversion.x.base s).2.dropWhile (isDigit 16)) := by
  have hdigits : ∀ {t : List Byte}, ∀ c ∈ t.takeWhile (isDigit 16), isDigit 16 c = true :=
    fun c hc => List.mem_takeWhile_imp hc
  have hstop : ∀ {t : List Byte}, ∀ c ∈ (t.dropWhile (isDigit 16)).head?, isDigit 16 c = false := by
    intro t c hc
    have hnot := List.head?_dropWhile_not (isDigit 16) t
    rw [hc] at hnot
    exact hnot
  rw [Conversion.base] at h ⊢
  dsimp only at h ⊢
  cases hhex : hasHexPrefix s with
  | true =>
    obtain ⟨x, t, hx, rfl⟩ := hasHexPrefix_eq_true hhex
    rw [hhex] at h
    refine ⟨0x30 :: x :: t.takeWhile (isDigit 16), ?_, .hexPrefix (by decide) hx h hdigits, ?_⟩
    · exact congrArg (0x30 :: x :: ·) List.takeWhile_append_dropWhile.symm
    · intro c hc
      refine ⟨hstop c hc, fun hlone => ?_⟩
      cases hlone
  | false =>
    rw [hhex] at h
    refine ⟨s.takeWhile (isDigit 16), List.takeWhile_append_dropWhile.symm, .hex h hdigits, ?_⟩
    intro c hc
    refine ⟨hstop c hc, fun hlone => ?_⟩
    -- behind a lone `0` an `x` would make a prefix
    have hs : s = 0x30 :: s.dropWhile (isDigit 16) := by
      have hsplit := @List.takeWhile_append_dropWhile _ (isDigit 16) s
      rw [hlone] at hsplit
      exact hsplit.symm
    obtain ⟨t, ht⟩ : ∃ t, s.dropWhile (isDigit 16) = c :: t := List.head?_eq_some_iff.mp hc
    rw [ht] at hs
    rw [hs] at hhex
    refine ⟨?_, ?_⟩
    · rintro rfl
      rw [hasHexPrefix_cons (.inl rfl)] at hhex
      cases hhex
    · rintro rfl
      rw [hasHexPrefix_cons (.inr rfl)] at hhex
      cases hhex

/-- **What is no number is refused.** -/
theorem scanNumber_noNumber {spaces : List Byte} (hspaces : ∀ c ∈ spaces, isSpace c = true)
    {s : List Byte} (h : NoNumber s) : ∃ rest, scanNumber .x (spaces ++ s) = .failed rest := by
  cases h with
  | unsigned hspace hsign h =>
    rw [scanNumber, dropWhile_spaces hspaces hspace]
    dsimp only
    rw [if_neg hsign]
    exact ⟨_, if_pos (noDigits_iff.mpr h)⟩
  | @signed c s hsign h =>
    have hspace : isSpace c = false := by
      rcases hsign with rfl | rfl <;> decide
    rw [scanNumber, dropWhile_spaces hspaces hspace]
    dsimp only
    rw [if_pos hsign]
    exact ⟨_, if_pos (noDigits_iff.mpr h)⟩

/-- **What is found is a number**, what is refused is none, and otherwise there are only spaces. -/
theorem scanNumber_cases (s : List Byte) :
    ∃ spaces t, s = spaces ++ t ∧ (∀ c ∈ spaces, isSpace c = true) ∧
      match scanNumber .x s with
      | .eof => t = []
      | .failed _ => NoNumber t
      | .found v rest =>
        ∃ text, t = text ++ rest ∧ Spells .x v text ∧ StopsAt (unsign text) rest := by
  refine ⟨s.takeWhile isSpace, s.dropWhile isSpace, List.takeWhile_append_dropWhile.symm,
    fun c hc => List.mem_takeWhile_imp hc, ?_⟩
  have hstop := List.head?_dropWhile_not isSpace s
  rw [scanNumber]
  cases hs : s.dropWhile isSpace with
  | nil => rfl
  | cons c t =>
    rw [hs] at hstop
    have hspace : isSpace c = false := hstop
    dsimp only
    by_cases hsign : c = minus ∨ c = plus
    · rw [if_pos hsign]
      by_cases hdigits : (Conversion.x.base t).2.takeWhile (isDigit 16) = []
      · rw [show (Conversion.x.base t).1 = 16 from rfl, if_pos hdigits]
        exact .signed hsign (noDigits_iff.mp hdigits)
      · obtain ⟨text, ht, hn, hrest⟩ := numeral_of_base hdigits
        rw [show (Conversion.x.base t).1 = 16 from rfl, if_neg hdigits]
        refine ⟨c :: text, congrArg (c :: ·) ht, ?_, ?_⟩
        · rcases hsign with rfl | rfl
          · exact .minus hn
          · exact .plus hn
        · rw [hn.unsign_cons hsign]
          exact hrest
    · rw [if_neg hsign]
      by_cases hdigits : (Conversion.x.base (c :: t)).2.takeWhile (isDigit 16) = []
      · rw [show (Conversion.x.base (c :: t)).1 = 16 from rfl, if_pos hdigits]
        exact .unsigned hspace hsign (noDigits_iff.mp hdigits)
      · obtain ⟨text, ht, hn, hrest⟩ := numeral_of_base hdigits
        rw [show (Conversion.x.base (c :: t)).1 = 16 from rfl, if_neg hdigits,
          if_neg fun h => hsign (.inl h)]
        refine ⟨text, ht, .unsigned hn, ?_⟩
        rw [hn.unsign]
        exact hrest

/-! ## Reading words -/

/-- **A word is read** up to a space. -/
theorem scanWord_append {spaces word rest : List Byte} (hspaces : ∀ c ∈ spaces, isSpace c = true)
    (hne : word ≠ []) (hword : ∀ c ∈ word, isSpace c = false) (hrest : Ends rest) :
    scanWord (spaces ++ (word ++ rest)) = some (word, rest) := by
  obtain ⟨c, t, rfl⟩ := List.exists_cons_of_ne_nil hne
  have hnot : ∀ c' ∈ c :: t, (!isSpace c') = true := fun c' hc' => by
    rw [hword c' hc', Bool.not_false]
  rw [List.cons_append, scanWord, dropWhile_spaces hspaces (hword c List.mem_cons_self)]
  dsimp only
  rw [← List.cons_append, List.takeWhile_append_of_pos hnot, List.dropWhile_append_of_pos hnot]
  cases rest with
  | nil => rw [List.takeWhile_nil, List.append_nil, List.dropWhile_nil]
  | cons c' rest =>
    have hstop : isSpace c' = true := hrest c' rfl
    simp [hstop]

/-- At spaces and nothing else there is no word. -/
theorem scanWord_spaces {spaces : List Byte} (hspaces : ∀ c ∈ spaces, isSpace c = true) :
    scanWord spaces = none := by
  rw [scanWord, List.dropWhile_eq_nil_iff.mpr hspaces]

theorem scanNumber_spaces (conversion : Conversion) {spaces : List Byte}
    (hspaces : ∀ c ∈ spaces, isSpace c = true) : scanNumber conversion spaces = .eof := by
  rw [scanNumber, List.dropWhile_eq_nil_iff.mpr hspaces]

/-! ## Printed numbers -/

def digitChar (d : Nat) : Byte := BitVec.ofNat 8 (if d < 10 then 0x30 + d else 0x61 + (d - 10))

/-- `%d` and `%x` of a number that is not negative. -/
def printNat (base n : Nat) : List Byte :=
  if n = 0 then [digitChar 0] else (base.digits n).reverse.map digitChar

def printInt (n : Int) : List Byte :=
  if n < 0 then minus :: printNat 10 n.natAbs else printNat 10 n.natAbs

theorem digitValue_digitChar {d : Nat} (hd : d < 16) : digitValue (digitChar d) = some d :=
  (by decide : ∀ d < 16, digitValue (digitChar d) = some d) d hd

theorem isDigit_digitChar {base d : Nat} (hbase : base ≤ 16) (hd : d < base) :
    isDigit base (digitChar d) = true :=
  isDigit_eq_true.mpr ⟨d, hd, digitValue_digitChar (hd.trans_le hbase)⟩

theorem digitsValue_map_digitChar (base : Nat) {ds : List Nat} (hds : ∀ d ∈ ds, d < 16) :
    digitsValue base (ds.map digitChar) = Nat.ofDigits base ds.reverse := by
  rw [Nat.ofDigits_eq_foldr, List.foldr_reverse, digitsValue, List.foldl_map]
  refine List.foldl_ext _ _ 0 ?_
  intro n d hd
  rw [digitValue_digitChar (hds d hd), Option.getD_some, Nat.cast_id, Nat.mul_comm, Nat.add_comm]

section

variable {base : Nat} (hbase : 1 < base) (hle : base ≤ 16) (n : Nat)
include hbase hle

theorem isDigit_of_mem_printNat {c : Byte} (hc : c ∈ printNat base n) : isDigit base c = true := by
  rw [printNat] at hc
  split at hc
  · rw [List.mem_singleton] at hc
    rw [hc]
    exact isDigit_digitChar hle (by omega)
  · obtain ⟨d, hd, rfl⟩ := List.mem_map.mp hc
    exact isDigit_digitChar hle (Nat.digits_lt_base hbase (List.mem_reverse.mp hd))

/-- **Printed digits have the value** of the number. -/
theorem digitsValue_printNat : digitsValue base (printNat base n) = n := by
  rw [printNat]
  split
  · rename_i hn
    rw [hn]
    simp [digitsValue, digitValue_digitChar]
  · have hds : ∀ d ∈ (base.digits n).reverse, d < 16 := by
      intro d hd
      exact (Nat.digits_lt_base hbase (List.mem_reverse.mp hd)).trans_le hle
    rw [digitsValue_map_digitChar base hds, List.reverse_reverse, Nat.ofDigits_digits]

omit hbase hle in
theorem printNat_ne_nil : printNat base n ≠ [] := by
  rw [printNat]
  split
  · exact List.cons_ne_nil _ _
  · rename_i hn
    simp [Nat.digits_ne_nil_iff_ne_zero.mpr hn]

/-- Only zero starts with a zero. -/
theorem head?_printNat {n : Nat} (hn : n ≠ 0) : (printNat base n).head? ≠ some (digitChar 0) := by
  have hlast := Nat.getLast_digit_ne_zero base hn
  have hne := Nat.digits_ne_nil_iff_ne_zero (b := base).mpr hn
  rw [printNat, if_neg hn, List.head?_map, List.head?_reverse, List.getLast?_eq_getLast_of_ne_nil hne]
  intro h
  have hchar := Option.some.inj h
  have hlt : (base.digits n).getLast hne < 16 :=
    (Nat.digits_lt_base hbase (List.getLast_mem hne)).trans_le hle
  have hvalue := congrArg digitValue hchar
  rw [digitValue_digitChar hlt, digitValue_digitChar (by decide), Option.some.injEq] at hvalue
  exact hlast hvalue

end

/-- **Printed numbers are texts** of the number, in base ten for `%d` and `%i`. -/
theorem spells_printInt {conversion : Conversion} (hconversion : conversion ≠ .x) (n : Int) :
    Spells conversion n (printInt n) := by
  have hnumeral : Numeral conversion n.natAbs (printNat 10 n.natAbs) := by
    have hdigits : ∀ c ∈ printNat 10 n.natAbs, isDigit 10 c = true := fun c hc =>
      isDigit_of_mem_printNat (by decide) (by decide) n.natAbs hc
    have hvalue : digitsValue 10 (printNat 10 n.natAbs) = n.natAbs :=
      digitsValue_printNat (by decide) (by decide) n.natAbs
    cases conversion with
    | d =>
      have h := Numeral.decimal (printNat_ne_nil _) hdigits
      rwa [hvalue] at h
    | x => exact absurd rfl hconversion
    | i =>
      by_cases hzero : n.natAbs = 0
      · -- `%i` takes a zero for the prefix of base eight
        rw [hzero]
        exact @Numeral.octal [] fun c hc => absurd hc List.not_mem_nil
      · have h := Numeral.plain (printNat_ne_nil _) hdigits
          (head?_printNat (by decide) (by decide) hzero)
        rwa [hvalue] at h
  rw [printInt]
  split
  · have habs : n = -(n.natAbs : Int) := by omega
    rw [habs, Int.natAbs_neg, Int.natAbs_natCast]
    exact .minus hnumeral
  · have habs : n = (n.natAbs : Int) := by omega
    rw [habs, Int.natAbs_natCast]
    exact .unsigned hnumeral

theorem spells_printNat (n : Nat) : Spells .x n (printNat 16 n) := by
  have h := Numeral.hex (printNat_ne_nil n) fun c hc =>
    isDigit_of_mem_printNat (by decide) (by decide) n hc
  rw [digitsValue_printNat (by decide) (by decide)] at h
  exact .unsigned h

end Acso.Lib
