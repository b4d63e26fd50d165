import Acso.Lib.Scanf
import Acso.Arm.Refinement

/-!
# The text of a program

`scanProgram` is the loop of `load_program` over the calls of `fscanf`, which read the words of
the loader from a text.  `ProgramText` says which words a text holds, in any spelling and spacing,
and whether there is something else behind them.  Every text is one or the other, and the loop
finds what it holds (`programText_iff`, `exists_programText`, `initializeFiles_texts`).
-/

namespace Acso.Arm

open Acso.Lib

/-- What `scanf("%lx")` stores of a number: `strtoul` takes one that is too large for the
largest `unsigned long`.  (`%x` stores its low half.) -/
def scanHex (n : Int) : BitVec 64 :=
  if n.natAbs < 2 ^ 64 then BitVec.ofInt 64 n else BitVec.allOnes 64

/-- `fscanf(prog, "%x\n", &word)` until it finds no number. -/
def scanProgram (file : List Byte) : List Scan :=
  match _h : scanNumber .x file with
  | .eof => []
  | .failed _ => [.malformed]
  | .found v rest => .word ((scanHex v).setWidth 32) :: scanProgram (rest.dropWhile isSpace)
termination_by file.length
decreasing_by
  have hlength := scanNumber_length .x file
  rw [_h] at hlength
  exact (length_dropWhile_le isSpace rest).trans_lt hlength

/-- The texts that hold these words, in hexadecimal with spaces before them, and whether there is
something behind them that is no number. -/
inductive ProgramText : List (BitVec 32) → Bool → List Byte → Prop
  | done {spaces : List Byte} (hspaces : ∀ c ∈ spaces, isSpace c = true) : ProgramText [] false spaces
  | junk {spaces : List Byte} (hspaces : ∀ c ∈ spaces, isSpace c = true) {s : List Byte}
      (h : NoNumber s) : ProgramText [] true (spaces ++ s)
  | word {spaces : List Byte} (hspaces : ∀ c ∈ spaces, isSpace c = true) {v : Int}
      {text rest : List Byte} (h : Spells .x v text) (hrest : StopsAt (unsign text) rest)
      {words : List (BitVec 32)} {junk : Bool} (hwords : ProgramText words junk rest) :
      ProgramText ((scanHex v).setWidth 32 :: words) junk (spaces ++ (text ++ rest))

/-! ## Scanning -/

theorem scanProgram_eq (file : List Byte) : scanProgram file =
    match scanNumber .x file with
    | .eof => []
    | .failed _ => [.malformed]
    | .found v rest => .word ((scanHex v).setWidth 32) :: scanProgram (rest.dropWhile isSpace) := by
  rw [scanProgram]
  split <;> rename_i h <;> rw [h]

/-- The spaces that the format drops would be dropped by the next call. -/
theorem scanProgram_dropWhile (file : List Byte) :
    scanProgram (file.dropWhile isSpace) = scanProgram file := by
  rw [scanProgram_eq, scanProgram_eq file, scanNumber_dropWhile]

theorem scanHex_toNat (v : BitVec 64) : scanHex (v.toNat : Int) = v := by
  rw [scanHex, Int.natAbs_natCast, if_pos v.isLt, BitVec.ofInt_natCast, BitVec.ofNat_toNat,
    BitVec.setWidth_eq]

theorem setWidth_scanHex (w : BitVec 32) : (scanHex (w.toNat : Int)).setWidth 32 = w := by
  have hwide : w.toNat = (w.setWidth 64).toNat := by
    rw [BitVec.toNat_setWidth]
    omega
  rw [hwide, scanHex_toNat, BitVec.setWidth_setWidth_of_le _ (by decide), BitVec.setWidth_eq]

/-- **The words of a text are read**, and what is no number behind them is found. -/
theorem scanProgram_text {words : List (BitVec 32)} {junk : Bool} {text : List Byte}
    (h : ProgramText words junk text) :
    scanProgram text = words.map .word ++ if junk then [.malformed] else [] := by
  induction h with
  | done hspaces => rw [scanProgram_eq, scanNumber_spaces .x hspaces]; rfl
  | junk hspaces h =>
    obtain ⟨rest, hscan⟩ := scanNumber_noNumber hspaces h
    rw [scanProgram_eq, hscan]
    rfl
  | word hspaces h hrest hwords ih =>
    rw [scanProgram_eq, scanNumber_stopsAt hspaces h hrest]
    dsimp only
    rw [scanProgram_dropWhile, ih]
    rfl

/-- **Every text holds some words**, and something else or nothing behind them. -/
theorem exists_programText (text : List Byte) :
    ∃ words junk, ProgramText words junk text := by
  -- by induction on the length: a number takes some of the text
  induction hlength : text.length using Nat.strong_induction_on generalizing text with
  | _ n ih =>
    have hshorter := scanNumber_length .x text
    obtain ⟨spaces, t, ht, hspaces, h⟩ := scanNumber_cases text
    cases hscan : scanNumber .x text with
    | eof =>
      rw [hscan] at h
      have hnil : t = [] := h
      rw [ht, hnil, List.append_nil]
      exact ⟨[], false, .done hspaces⟩
    | failed rest =>
      rw [hscan] at h
      rw [ht]
      exact ⟨[], true, .junk hspaces h⟩
    | found v rest =>
      rw [hscan] at h hshorter
      obtain ⟨digits, rfl, hspells, hrest⟩ := h
      obtain ⟨words, junk, hwords⟩ := ih _ (hlength ▸ hshorter) rest rfl
      rw [ht]
      exact ⟨_, junk, .word hspaces hspells hrest hwords⟩

theorem append_malformed_inj {words words' : List (BitVec 32)} {junk junk' : Bool}
    (h : (words.map Scan.word ++ if junk then [.malformed] else []) =
      words'.map Scan.word ++ if junk' then [.malformed] else []) : words = words' ∧ junk = junk' := by
  induction words generalizing words' with
  | nil => cases words' <;> cases junk <;> cases junk' <;> simp_all
  | cons w words ih =>
    cases words' with
    | nil => cases junk' <;> simp at h
    | cons w' words' =>
      rw [List.map_cons, List.map_cons, List.cons_append, List.cons_append, List.cons.injEq] at h
      obtain ⟨rfl, rfl⟩ := ih h.2
      exact ⟨by rw [Scan.word.inj h.1], rfl⟩

/-- **The loop finds what the text holds**, and this alone. -/
theorem programText_iff {words : List (BitVec 32)} {junk : Bool} {text : List Byte} :
    ProgramText words junk text ↔
      scanProgram text = words.map .word ++ if junk then [.malformed] else [] := by
  refine ⟨scanProgram_text, fun h => ?_⟩
  obtain ⟨words', junk', h'⟩ := exists_programText text
  obtain ⟨rfl, rfl⟩ := append_malformed_inj (h.symm.trans (scanProgram_text h'))
  exact h'

theorem ProgramText.cons {words : List (BitVec 32)} {junk : Bool} {text : List Byte}
    (h : ProgramText words junk text) {c : Byte} (hc : isSpace c = true) :
    ProgramText words junk (c :: text) := by
  have hcons : ∀ {spaces : List Byte}, (∀ c ∈ spaces, isSpace c = true) →
      ∀ c' ∈ c :: spaces, isSpace c' = true := fun hspaces =>
    List.forall_mem_cons.mpr ⟨hc, hspaces⟩
  cases h with
  | done hspaces => exact .done (hcons hspaces)
  | junk hspaces h => exact .junk (hcons hspaces) h
  | word hspaces h hrest hwords => exact .word (hcons hspaces) h hrest hwords

/-- A word in hexadecimal digits. -/
theorem programText_word {spaces : List Byte} (hspaces : ∀ c ∈ spaces, isSpace c = true)
    {w : BitVec 32} {text rest : List Byte} (h : Spells .x w.toNat text)
    (hrest : StopsAt (unsign text) rest) {words : List (BitVec 32)} {junk : Bool}
    (hwords : ProgramText words junk rest) :
    ProgramText (w :: words) junk (spaces ++ (text ++ rest)) := by
  have hword := ProgramText.word hspaces h hrest hwords
  rwa [setWidth_scanHex] at hword

/-- The words of a program, one a line. -/
def programText (words : List (BitVec 32)) : List Byte :=
  words.flatMap fun w => printNat 16 w.toNat ++ [0x0a]

theorem programText_printed (words : List (BitVec 32)) :
    ProgramText words false (programText words) := by
  induction words with
  | nil => exact .done fun c hc => absurd hc List.not_mem_nil
  | cons w words ih =>
    have hrest := ih.cons (c := 0x0a) (by decide)
    have hends : Ends (0x0a :: programText words) := ends_cons (by decide) _
    have htext := @programText_word [] (fun c hc => absurd hc List.not_mem_nil) w _ _
      (spells_printNat w.toNat) (hends.stopsAt _) _ _ hrest
    rw [programText, List.flatMap_cons, List.append_assoc]
    exact htext

/-! ## Loading -/

/-- The words that files leave, one over the other. -/
def overlay (files : List (List (BitVec 32))) : List (BitVec 32) :=
  files.foldl (fun under words => words ++ under.drop words.length) []

theorem loadProgramFiles_words {files : List (List (BitVec 32))}
    (hfit : ∀ words ∈ files, words.length ≤ 0x40000) (m : Machine) :
    loadProgramFiles (files.map fun words => words.map .word) m =
      some (files.foldl (fun m words => loadProgram words m) m,
        files.map fun words => (words.length : Int)) := by
  induction files generalizing m with
  | nil => rfl
  | cons words files ih =>
    rw [List.map_cons, loadProgramFiles, loadProgramFile_words (hfit _ List.mem_cons_self)]
    dsimp only [Option.bind_eq_bind, Option.bind_some]
    rw [ih fun words hwords => hfit words (List.mem_cons_of_mem _ hwords)]
    rfl

theorem holdsWords_overlay {files : List (List (BitVec 32))}
    (hfit : ∀ words ∈ files, words.length ≤ 0x40000) {under : List (BitVec 32)} {mem : Memory}
    (h : HoldsWords under mem) :
    HoldsWords (files.foldl (fun under words => words ++ under.drop words.length) under)
      (files.foldl (fun mem words => loadWords 0 words mem) mem) := by
  induction files generalizing under mem with
  | nil => exact h
  | cons words files ih =>
    exact ih (fun words hwords => hfit words (List.mem_cons_of_mem _ hwords))
      (h.loadWords (hfit _ List.mem_cons_self))

/-- The loop ends at what is no number. -/
theorem readLoop_malformed (words : List (BitVec 32)) (ii : BitVec 32) (mem : Memory) :
    readLoop (words.map .word ++ [.malformed]) ii mem = none := by
  induction words generalizing ii mem with
  | nil => rfl
  | cons word words ih => exact ih _ _

/-- So does the loop over the files, whatever is before and behind. -/
theorem loadProgramFiles_malformed {file : List Scan} (hfile : ∀ m, loadProgramFile file m = none)
    (files more : List (List Scan)) (m : Machine) :
    loadProgramFiles (files ++ file :: more) m = none := by
  induction files generalizing m with
  | nil => rw [List.nil_append, loadProgramFiles, hfile, Option.bind_eq_bind, Option.bind_none]
  | cons f files ih =>
    rw [List.cons_append, loadProgramFiles]
    cases hf : loadProgramFile f m with
    | none => rfl
    | some r =>
      obtain ⟨m', count⟩ := r
      rw [Option.bind_eq_bind, Option.bind_some]
      dsimp only
      rw [ih, Option.bind_eq_bind, Option.bind_none]

section

variable (garbage : Memory) {files : List (List (BitVec 32))}
  (hfit : ∀ words ∈ files, words.length ≤ 0x40000)
include hfit

theorem initializeFiles_programTexts {texts : List (List Byte)}
    (htexts : List.Forall₂ (fun words text => ProgramText words false text) files texts) :
    initializeFiles garbage (texts.map scanProgram) =
      some (initializeMachine garbage files, files.map fun words => (words.length : Int)) := by
  have hscans : texts.map scanProgram = files.map fun words => words.map .word := by
    clear hfit
    induction htexts with
    | nil => rfl
    | cons htext _ ih =>
      rw [List.map_cons, List.map_cons, ih, scanProgram_text htext]
      exact congrArg (· :: _) (List.append_nil _)
  rw [hscans, initializeFiles, loadProgramFiles_words hfit]
  rfl

theorem represents_files (hne : files ≠ []) :
    Represents (.start (overlay files)) (initializeMachine garbage files) := by
  obtain ⟨words, files, rfl⟩ := List.exists_cons_of_ne_nil hne
  rw [initializeMachine_eq_boot]
  exact represents_boot (holdsWords_overlay hfit (holdsWords_nil garbage))

end

/-- **Program files are loaded.**  Files of words are read as these words, whatever their
spelling and spacing; their numbers are printed, and the machine starts with the words of the
last file over those of the ones before.  Any other file has something behind its words, and with
one of these the simulator does not start. -/
theorem initializeFiles_texts (garbage : Memory) (files : List (List (BitVec 32)))
    (texts : List (List Byte)) (hne : files ≠ [])
    (htexts : List.Forall₂ (fun words text => ProgramText words false text) files texts)
    (hfit : ∀ words ∈ files, words.length ≤ 0x40000) :
    (∃ m, initializeFiles garbage (texts.map scanProgram) =
        some (m, files.map fun words => (words.length : Int)) ∧
      Represents (.start (overlay files)) m) ∧
    ∀ text, (∀ words, ¬ ProgramText words false text) → (∃ words, ProgramText words true text) ∧
      ∀ before more, initializeFiles garbage ((before ++ text :: more).map scanProgram) = none := by
  refine ⟨⟨_, initializeFiles_programTexts garbage hfit htexts, represents_files garbage hfit hne⟩, ?_⟩
  intro text hother
  obtain ⟨words, junk, htext⟩ := exists_programText text
  cases junk with
  | false => exact absurd htext (hother words)
  | true =>
    refine ⟨⟨words, htext⟩, fun before more => ?_⟩
    have hfile : ∀ m, loadProgramFile (scanProgram text) m = none := by
      intro m
      rw [scanProgram_text htext, if_pos rfl, loadProgramFile, readLoop_malformed,
        Option.bind_eq_bind, Option.bind_none]
    rw [List.map_append, List.map_cons, initializeFiles]
    dsimp only
    rw [loadProgramFiles_malformed hfile, Option.bind_eq_bind, Option.bind_none]

theorem programText_junk {words words' : List (BitVec 32)} {junk junk' : Bool} {text : List Byte}
    (h : ProgramText words junk text) (h' : ProgramText words' junk' text) : junk = junk' :=
  (append_malformed_inj ((scanProgram_text h).symm.trans (scanProgram_text h'))).2

theorem spells_digits (digits : List Byte) (w : BitVec 32) (hne : digits ≠ [])
    (hdigits : ∀ c ∈ digits, isDigit 16 c = true) (hw : digitsValue 16 digits = w.toNat) :
    Spells .x w.toNat digits := by
  rw [← hw]
  exact .unsigned (.hex hne hdigits)

/-- `d4400000`, which halts. -/
def haltDigits : List Byte := [0x64, 0x34, 0x34, 0x30, 0x30, 0x30, 0x30, 0x30]

theorem haltDigits_spells : Spells .x (0xd4400000#32).toNat haltDigits :=
  spells_digits _ _ (by decide) (by decide) (by decide)

/-- `d2800140` and `d4400000` in one file, `0XD2800141` in another; and `d4400000;`, `d4400000 0xg`
and `d4400000 -`. -/
theorem twoFiles_loaded :
    (∃ m, initializeFiles (fun _ _ => 0xff)
        ([[0x64, 0x32, 0x38, 0x30, 0x30, 0x31, 0x34, 0x30, 0x0a] ++ haltDigits ++ [0x20, 0x0a],
          [0x30, 0x58, 0x44, 0x32, 0x38, 0x30, 0x30, 0x31, 0x34, 0x31]].map scanProgram) =
        some (m, [2, 1]) ∧
      Represents (.start [0xd2800141, 0xd4400000]) m) ∧
    ∀ junk ∈ [[(0x3b : Byte)], [0x20, 0x30, 0x78, 0x67], [0x20, 0x2d]],
      initializeFiles (fun _ _ => 0xff) ([haltDigits ++ junk].map scanProgram) = none := by
  have hno : ∀ c ∈ ([] : List Byte), isSpace c = true := by decide
  have hstops : ∀ {c : Byte} {rest : List Byte} (digits : List Byte), isSpace c = true →
      StopsAt digits (c :: rest) := fun digits hc => (ends_cons hc _).stopsAt digits
  have hhalt := programText_word (by decide : ∀ c ∈ [(0x0a : Byte)], isSpace c = true)
    haltDigits_spells (hstops _ (by decide)) (.done (by decide : ∀ c ∈ [0x20, 0x0a], isSpace c = true))
  have hfirst := programText_word hno
    (spells_digits [0x64, 0x32, 0x38, 0x30, 0x30, 0x31, 0x34, 0x30] 0xd2800140 (by decide) (by decide)
      (by decide)) (hstops _ (by decide)) hhalt
  have hprefixed : Spells .x (0xd2800141#32).toNat _ :=
    .unsigned (.hexPrefix (by decide) (.inr rfl)
      (by decide : [(0x44 : Byte), 0x32, 0x38, 0x30, 0x30, 0x31, 0x34, 0x31] ≠ []) (by decide))
  have hsecond := programText_word hno hprefixed (ends_nil.stopsAt _) (.done hno)
  obtain ⟨hloaded, hrefused⟩ := initializeFiles_texts (fun _ _ => 0xff) _ _ (by decide)
    (.cons hfirst (.cons hsecond .nil)) (by decide)
  refine ⟨hloaded, fun junk hjunk => ?_⟩
  have htext : ProgramText [0xd4400000] true (haltDigits ++ junk) := by
    have hspace : ∀ c ∈ [(0x20 : Byte)], isSpace c = true := by decide
    simp only [List.mem_cons, List.not_mem_nil, or_false] at hjunk
    rcases hjunk with rfl | rfl | rfl
    · have hstop : StopsAt (unsign haltDigits) [0x3b] := by
        intro c hc
        obtain rfl := Option.some.inj hc
        exact ⟨by decide, fun _ => by decide⟩
      exact programText_word hno haltDigits_spells hstop
        (.junk hno (.unsigned (by decide) (by decide) (.other (by decide))))
    · exact programText_word hno haltDigits_spells (hstops _ (by decide))
        (.junk hspace (.unsigned (by decide) (by decide) (.hexPrefix (.inl rfl) (by decide))))
    · exact programText_word hno haltDigits_spells (hstops _ (by decide))
        (.junk hspace (.signed (by decide) (.other (by decide))))
  refine (hrefused _ fun words h => ?_).2 [] []
  cases programText_junk htext h

end Acso.Arm
