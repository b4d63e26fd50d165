import Acso.Arm.MemoryDump
import Acso.Arm.ProgramText
import Acso.Arm.Session

/-!
# The prompt

`get_command` reads a command from what is typed: a word, of which the first letter counts (of
those in `r` also the second), and its arguments.  Where an argument is no number the command is
given up, and what stands there is read as the next command.

* `reads_getCommand`: every command takes something of what is typed, so there is an end.
* `readCommands_scripts`: commands that are typed in any of their spellings are read, and
  whatever is typed is read as the commands of some script.
-/

namespace Acso.Arm

open Acso.Lib

/-- What a call of `get_command` reads. -/
inductive Prompt
  /-- `quit`, or the end of what is typed. -/
  | exit
  /-- A word that does not fit in `buffer`, or a register that there is not. -/
  | undefined
  | command (c : Command) (rest : List Byte)

/-- `scanf` of an argument; without it the command is given up. -/
def Prompt.argument (conversion : Conversion) (input : List Byte)
    (k : Int → List Byte → Prompt) : Prompt :=
  match scanNumber conversion input with
  | .eof => .command .other []
  | .failed rest => .command .other rest
  | .found v rest => k v rest

def bufferSize : Nat := 20

/-- The letter in lower case or in upper case. -/
def isLetter (lower : Char) (c : Byte) : Prop :=
  c = BitVec.ofNat 8 lower.toNat ∨ c = BitVec.ofNat 8 lower.toUpper.toNat

instance (lower : Char) (c : Byte) : Decidable (isLetter lower c) :=
  inferInstanceAs (Decidable (_ ∨ _))

/-- `switch (buffer[0])`. -/
def Prompt.switch (buffer rest : List Byte) : Prompt :=
  if isLetter 'g' (buffer.getD 0 0) then .command .go rest
  else if isLetter 'm' (buffer.getD 0 0) then
    .argument .i rest fun start rest => .argument .i rest fun stop rest =>
      .command (.mdump (scanInt start).toInt (scanInt stop).toInt) rest
  else if buffer.getD 0 0 = 0x3f then .command .other rest
  else if isLetter 'q' (buffer.getD 0 0) then .exit
  else if isLetter 'r' (buffer.getD 0 0) then
    if isLetter 'd' (buffer.getD 1 0) then .command .rdump rest
    else .argument .d rest fun cycles rest => .command (.run (scanInt cycles).toInt) rest
  else if isLetter 'i' (buffer.getD 0 0) then
    .argument .i rest fun registerNo rest => .argument .x rest fun registerValue rest =>
      let registerNo := (scanInt registerNo).toInt
      if 0 ≤ registerNo ∧ registerNo < 32 then
        .command (.input (BitVec.ofInt 5 registerNo) (scanHex registerValue)) rest
      else .undefined
  else .command .other rest

def getCommand (input : List Byte) : Prompt :=
  match scanWord input with
  | none => .exit
  | some (buffer, rest) =>
    -- the word and the zero behind it
    if bufferSize < buffer.length + 1 then .undefined
    else .switch buffer rest

/-! ## What is read -/

/-- The numbers of the command are values of an `int`. -/
def Command.Stored : Command → Prop
  | .mdump start stop => ∃ low high : BitVec 32, start = low.toInt ∧ stop = high.toInt
  | .run numCycles => ∃ cycles : BitVec 32, numCycles = cycles.toInt
  | _ => True

/-- Where a command is read, less than `n` characters are left. -/
def Prompt.Reads (n : Nat) : Prompt → Prop
  | .command c rest => c.Stored ∧ rest.length < n
  | _ => True

theorem reads_argument {n : Nat} (conversion : Conversion) {input : List Byte}
    (hinput : input.length < n) {k : Int → List Byte → Prompt}
    (hk : ∀ v rest, rest.length < n → (k v rest).Reads n) :
    (Prompt.argument conversion input k).Reads n := by
  have hlength := scanNumber_length conversion input
  rw [Prompt.argument]
  split <;> rename_i hscan <;> rw [hscan] at hlength
  · exact ⟨trivial, Nat.zero_lt_of_lt hinput⟩
  · exact ⟨trivial, hlength.trans_lt hinput⟩
  · exact hk _ _ (hlength.trans hinput)

theorem reads_switch {n : Nat} (buffer : List Byte) {rest : List Byte} (h : rest.length < n) :
    (Prompt.switch buffer rest).Reads n := by
  rw [Prompt.switch]
  split_ifs
  · exact ⟨trivial, h⟩
  · exact reads_argument _ h fun _ _ h => reads_argument _ h fun _ _ h => ⟨⟨_, _, rfl, rfl⟩, h⟩
  · exact ⟨trivial, h⟩
  · trivial
  · exact ⟨trivial, h⟩
  · exact reads_argument _ h fun _ _ h => ⟨⟨_, rfl⟩, h⟩
  · refine reads_argument _ h fun _ _ h => reads_argument _ h fun _ _ h => ?_
    dsimp only
    split
    · exact ⟨trivial, h⟩
    · trivial
  · exact ⟨trivial, h⟩

/-- **Every command takes something** of what is typed. -/
theorem reads_getCommand (input : List Byte) : (getCommand input).Reads input.length := by
  rw [getCommand]
  split
  · trivial
  · rename_i buffer rest hword
    split
    · trivial
    · exact reads_switch buffer (scanWord_length hword)

theorem stored_of_getCommand {input rest : List Byte} {c : Command}
    (h : getCommand input = .command c rest) : c.Stored ∧ rest.length < input.length := by
  have hreads := reads_getCommand input
  rwa [h] at hreads

/-- `while (1) get_command(dumpsim_file)`: the commands, and whether `exit` ends them. -/
def readCommands (input : List Byte) : List Command × Bool :=
  match _h : getCommand input with
  | .exit => ([], true)
  | .undefined => ([], false)
  | .command c rest => Prod.map (c :: ·) id (readCommands rest)
termination_by input.length
decreasing_by exact (stored_of_getCommand _h).2

theorem readCommands_eq (input : List Byte) : readCommands input =
    match getCommand input with
    | .exit => ([], true)
    | .undefined => ([], false)
    | .command c rest => Prod.map (c :: ·) id (readCommands rest) := by
  rw [readCommands]
  split <;> rename_i h <;> rw [h]

/-! ## Scripts -/

/-- A word that fits in `buffer`. -/
structure BufferWord (first : Byte → Prop) (word : List Byte) : Prop where
  ne_nil : word ≠ []
  noSpace : ∀ c ∈ word, isSpace c = false
  fits : word.length + 1 ≤ bufferSize
  first : first (word.getD 0 0)

/-- The letter of no command. -/
def NoCommand (c : Byte) : Prop :=
  ¬ isLetter 'g' c ∧ ¬ isLetter 'm' c ∧ ¬ isLetter 'q' c ∧ ¬ isLetter 'r' c ∧ ¬ isLetter 'i' c

structure Gap (spaces : List Byte) : Prop where
  ne_nil : spaces ≠ []
  space : ∀ c ∈ spaces, isSpace c = true

/-- The texts of a command, from the first letter of its word to the end of its arguments. -/
inductive Typed : Command → List Byte → Prop
  | go {word : List Byte} (hword : BufferWord (isLetter 'g') word) : Typed .go word
  | mdump {word gap₁ text₁ gap₂ text₂ : List Byte} {start stop : Int}
      (hword : BufferWord (isLetter 'm') word) (hgap₁ : Gap gap₁) (hstart : Spells .i start text₁)
      (hgap₂ : Gap gap₂) (hstop : Spells .i stop text₂) :
      Typed (.mdump (scanInt start).toInt (scanInt stop).toInt)
        (word ++ (gap₁ ++ (text₁ ++ (gap₂ ++ text₂))))
  | rdump {word : List Byte} (hword : BufferWord (isLetter 'r') word)
      (hd : isLetter 'd' (word.getD 1 0)) : Typed .rdump word
  | run {word gap text : List Byte} {cycles : Int} (hword : BufferWord (isLetter 'r') word)
      (hd : ¬ isLetter 'd' (word.getD 1 0)) (hgap : Gap gap) (hcycles : Spells .d cycles text) :
      Typed (.run (scanInt cycles).toInt) (word ++ (gap ++ text))
  | input {word gap₁ text₁ gap₂ text₂ : List Byte} {registerNo : BitVec 5} {registerValue : Int}
      (hword : BufferWord (isLetter 'i') word) (hgap₁ : Gap gap₁)
      (hregister : Spells .i registerNo.toNat text₁) (hgap₂ : Gap gap₂)
      (hvalue : Spells .x registerValue text₂) :
      Typed (.input registerNo (scanHex registerValue))
        (word ++ (gap₁ ++ (text₁ ++ (gap₂ ++ text₂))))
  | other {word : List Byte} (hword : BufferWord NoCommand word) : Typed .other word

/-- The texts of some commands, to the end or to `quit`. -/
inductive Script : List Command → List Byte → Prop
  | done {spaces : List Byte} (hspaces : ∀ c ∈ spaces, isSpace c = true) : Script [] spaces
  | quit {spaces word rest : List Byte} (hspaces : ∀ c ∈ spaces, isSpace c = true)
      (hword : BufferWord (isLetter 'q') word) (hrest : Ends rest) :
      Script [] (spaces ++ (word ++ rest))
  | command {spaces text rest : List Byte} (hspaces : ∀ c ∈ spaces, isSpace c = true)
      {c : Command} (h : Typed c text) (hrest : Ends rest) {cs : List Command}
      (hcs : Script cs rest) : Script (c :: cs) (spaces ++ (text ++ rest))

theorem Gap.ends {gap : List Byte} (h : Gap gap) (rest : List Byte) : Ends (gap ++ rest) := by
  obtain ⟨c, t, rfl⟩ := List.exists_cons_of_ne_nil h.ne_nil
  exact ends_cons (h.space c List.mem_cons_self) _

theorem argument_spelled {conversion : Conversion} {gap text rest : List Byte} {v : Int}
    (hgap : Gap gap) (h : Spells conversion v text) (hrest : Ends rest)
    (k : Int → List Byte → Prompt) :
    Prompt.argument conversion (gap ++ (text ++ rest)) k = k v rest := by
  rw [Prompt.argument, scanNumber_spelled hgap.space h hrest]

theorem getCommand_word {first : Byte → Prop} {spaces word rest : List Byte}
    (hspaces : ∀ c ∈ spaces, isSpace c = true) (hword : BufferWord first word) (hrest : Ends rest) :
    getCommand (spaces ++ (word ++ rest)) = .switch word rest := by
  rw [getCommand, scanWord_append hspaces hword.ne_nil hword.noSpace hrest]
  exact if_neg (Nat.not_lt.mpr hword.fits)

/-- The letters of the cases differ. -/
theorem not_isLetter {lower lower' : Char} {c : Byte} (h : isLetter lower c)
    (hne : ∀ c' ∈ [BitVec.ofNat 8 lower.toNat, BitVec.ofNat 8 lower.toUpper.toNat],
      ¬ isLetter lower' c') : ¬ isLetter lower' c := by
  rcases h with rfl | rfl
  · exact hne _ List.mem_cons_self
  · exact hne _ (List.mem_cons_of_mem _ List.mem_cons_self)

theorem isLetter_ne {lower : Char} {c c' : Byte} (h : isLetter lower c)
    (hne : ¬ isLetter lower c') : c ≠ c' := by
  rintro rfl
  exact hne h

section

variable {word : List Byte} (rest : List Byte)

theorem switch_g (h : isLetter 'g' (word.getD 0 0)) :
    Prompt.switch word rest = .command .go rest := if_pos h

theorem switch_m (h : isLetter 'm' (word.getD 0 0)) : Prompt.switch word rest =
    .argument .i rest fun start rest => .argument .i rest fun stop rest =>
      .command (.mdump (scanInt start).toInt (scanInt stop).toInt) rest := by
  rw [Prompt.switch, if_neg (not_isLetter h (by decide)), if_pos h]

theorem switch_q (h : isLetter 'q' (word.getD 0 0)) : Prompt.switch word rest = .exit := by
  rw [Prompt.switch, if_neg (not_isLetter h (by decide)), if_neg (not_isLetter h (by decide)),
    if_neg (isLetter_ne h (by decide)), if_pos h]

theorem switch_r (h : isLetter 'r' (word.getD 0 0)) : Prompt.switch word rest =
    if isLetter 'd' (word.getD 1 0) then .command .rdump rest
    else .argument .d rest fun cycles rest => .command (.run (scanInt cycles).toInt) rest := by
  rw [Prompt.switch, if_neg (not_isLetter h (by decide)), if_neg (not_isLetter h (by decide)),
    if_neg (isLetter_ne h (by decide)), if_neg (not_isLetter h (by decide)), if_pos h]

theorem switch_i (h : isLetter 'i' (word.getD 0 0)) : Prompt.switch word rest =
    .argument .i rest fun registerNo rest => .argument .x rest fun registerValue rest =>
      let registerNo := (scanInt registerNo).toInt
      if 0 ≤ registerNo ∧ registerNo < 32 then
        .command (.input (BitVec.ofInt 5 registerNo) (scanHex registerValue)) rest
      else .undefined := by
  rw [Prompt.switch, if_neg (not_isLetter h (by decide)), if_neg (not_isLetter h (by decide)),
    if_neg (isLetter_ne h (by decide)), if_neg (not_isLetter h (by decide)),
    if_neg (not_isLetter h (by decide)), if_pos h]

theorem switch_other (h : NoCommand (word.getD 0 0)) :
    Prompt.switch word rest = .command .other rest := by
  obtain ⟨hg, hm, hq, hr, hi⟩ := h
  rw [Prompt.switch, if_neg hg, if_neg hm, if_neg hq, if_neg hr, if_neg hi, ite_self]

end

theorem scanInt_toInt (x : BitVec 32) : scanInt x.toInt = x := by
  have hlo := x.toInt_lt
  have hhi := x.le_toInt
  have hmin : min x.toInt (2 ^ 63 - 1) = x.toInt := by omega
  have hmax : max (-2 ^ 63) x.toInt = x.toInt := by omega
  rw [scanInt, hmin, hmax, BitVec.ofInt_toInt]

/-- The number of a register is stored as it is typed. -/
theorem scanInt_register (r : BitVec 5) : (scanInt (r.toNat : Int)).toInt = (r.toNat : Int) := by
  have hwide : (r.toNat : Int) = (r.setWidth 32).toInt := by
    have hlt := r.isLt
    have hnat : (r.setWidth 32).toNat = r.toNat := by
      rw [BitVec.toNat_setWidth]
      omega
    rw [BitVec.toInt_eq_toNat_of_lt (by omega), hnat]
  rw [hwide, scanInt_toInt]

/-- **A command is read in each of its spellings.** -/
theorem getCommand_typed {c : Command} {spaces text rest : List Byte}
    (hspaces : ∀ c ∈ spaces, isSpace c = true) (h : Typed c text) (hrest : Ends rest) :
    getCommand (spaces ++ (text ++ rest)) = .command c rest := by
  cases h with
  | go hword => rw [getCommand_word hspaces hword hrest, switch_g rest hword.first]
  | @mdump word gap₁ text₁ gap₂ text₂ start stop hword hgap₁ hstart hgap₂ hstop =>
    simp only [List.append_assoc]
    rw [getCommand_word hspaces hword (hgap₁.ends _), switch_m _ hword.first,
      argument_spelled hgap₁ hstart (hgap₂.ends _), argument_spelled hgap₂ hstop hrest]
  | rdump hword hd =>
    rw [getCommand_word hspaces hword hrest, switch_r rest hword.first, if_pos hd]
  | run hword hd hgap hcycles =>
    simp only [List.append_assoc]
    rw [getCommand_word hspaces hword (hgap.ends _), switch_r _ hword.first, if_neg hd,
      argument_spelled hgap hcycles hrest]
  | @input word gap₁ text₁ gap₂ text₂ registerNo registerValue hword hgap₁ hregister hgap₂ hvalue =>
    simp only [List.append_assoc]
    rw [getCommand_word hspaces hword (hgap₁.ends _), switch_i _ hword.first,
      argument_spelled hgap₁ hregister (hgap₂.ends _), argument_spelled hgap₂ hvalue hrest]
    have hlt := registerNo.isLt
    dsimp only
    rw [scanInt_register, if_pos (by omega), BitVec.ofInt_natCast, BitVec.ofNat_toNat,
      BitVec.setWidth_eq]
  | other hword => rw [getCommand_word hspaces hword hrest, switch_other rest hword.first]

/-- **Commands that are typed are read**, in any of their spellings, to the end or to `quit`. -/
theorem readCommands_script {cs : List Command} {text : List Byte} (h : Script cs text) :
    readCommands text = (cs, true) := by
  induction h with
  | done hspaces => rw [readCommands_eq, getCommand, scanWord_spaces hspaces]
  | quit hspaces hword hrest =>
    rw [readCommands_eq, getCommand_word hspaces hword hrest, switch_q _ hword.first]
  | command hspaces h hrest hcs ih =>
    rw [readCommands_eq, getCommand_typed hspaces h hrest]
    dsimp only
    rw [ih]
    rfl

/-! ## Scripts that are printed -/

def chars (text : List Char) : List Byte := text.map fun c => BitVec.ofNat 8 c.toNat

/-- The command in the words of `help`. -/
def Command.text : Command → List Byte
  | .go => chars ['g', 'o']
  | .mdump start stop =>
    chars ['m', 'd', 'u', 'm', 'p'] ++
      (chars [' '] ++ (printInt start ++ (chars [' '] ++ printInt stop)))
  | .rdump => chars ['r', 'd', 'u', 'm', 'p']
  | .run numCycles => chars ['r', 'u', 'n'] ++ (chars [' '] ++ printInt numCycles)
  | .input registerNo registerValue =>
    chars ['i', 'n', 'p', 'u', 't'] ++
      (chars [' '] ++ (printInt registerNo.toNat ++ (chars [' '] ++ printNat 16 registerValue.toNat)))
  | .other => chars ['?']

def scriptText (cs : List Command) : List Byte := cs.flatMap fun c => c.text ++ chars ['\n']

theorem gap_space : Gap (chars [' ']) := ⟨by decide, by decide⟩

theorem Command.Stored.typed {c : Command} (h : c.Stored) : Typed c c.text := by
  cases c with
  | go => exact .go ⟨by decide, by decide, by decide, by decide⟩
  | mdump start stop =>
    obtain ⟨low, high, rfl, rfl⟩ := h
    have hword : BufferWord (isLetter 'm') (chars ['m', 'd', 'u', 'm', 'p']) :=
      ⟨by decide, by decide, by decide, by decide⟩
    have htyped := Typed.mdump hword gap_space (spells_printInt (by decide) low.toInt) gap_space
      (spells_printInt (by decide) high.toInt)
    rwa [scanInt_toInt, scanInt_toInt] at htyped
  | rdump => exact .rdump ⟨by decide, by decide, by decide, by decide⟩ (by decide)
  | run numCycles =>
    obtain ⟨cycles, rfl⟩ := h
    have hword : BufferWord (isLetter 'r') (chars ['r', 'u', 'n']) :=
      ⟨by decide, by decide, by decide, by decide⟩
    have htyped := Typed.run hword (by decide) gap_space (spells_printInt (by decide) cycles.toInt)
    rwa [scanInt_toInt] at htyped
  | input registerNo registerValue =>
    have hword : BufferWord (isLetter 'i') (chars ['i', 'n', 'p', 'u', 't']) :=
      ⟨by decide, by decide, by decide, by decide⟩
    have htyped := Typed.input hword gap_space (spells_printInt (by decide) registerNo.toNat)
      gap_space (spells_printNat registerValue.toNat)
    rwa [scanHex_toNat] at htyped
  | other =>
    exact .other ⟨by decide, by decide, by decide, by decide, by decide, by decide, by decide,
      by decide⟩

theorem Script.cons {cs : List Command} {text : List Byte} (h : Script cs text) {c : Byte}
    (hc : isSpace c = true) : Script cs (c :: text) := by
  have hcons : ∀ {spaces : List Byte}, (∀ c ∈ spaces, isSpace c = true) →
      ∀ c' ∈ c :: spaces, isSpace c' = true := fun hspaces =>
    List.forall_mem_cons.mpr ⟨hc, hspaces⟩
  cases h with
  | done hspaces => exact .done (hcons hspaces)
  | quit hspaces hword hrest => exact .quit (hcons hspaces) hword hrest
  | command hspaces h hrest hcs => exact .command (hcons hspaces) h hrest hcs

theorem script_scriptText {cs : List Command} (h : ∀ c ∈ cs, c.Stored) :
    Script cs (scriptText cs) := by
  induction cs with
  | nil => exact .done (fun c hc => absurd hc List.not_mem_nil)
  | cons c cs ih =>
    have hrest := (ih fun c hc => h c (List.mem_cons_of_mem _ hc)).cons (c := 0x0a) (by decide)
    have hscript := @Script.command [] _ _ (fun c hc => absurd hc List.not_mem_nil) _
      (h c List.mem_cons_self).typed (ends_cons (by decide) _) _ hrest
    rw [scriptText, List.flatMap_cons, List.append_assoc]
    exact hscript

theorem stored_of_mem_readCommands (input : List Byte) : ∀ c ∈ (readCommands input).1, c.Stored := by
  fun_induction readCommands input with
  | case1 input h => exact fun c hc => absurd hc List.not_mem_nil
  | case2 input h => exact fun c hc => absurd hc List.not_mem_nil
  | case3 input c rest h ih =>
    rw [Prod.map_fst]
    exact List.forall_mem_cons.mpr ⟨(stored_of_getCommand h).1, ih⟩

/-- **Commands are read as they are typed**, in any of their spellings, to the end or to `quit`;
and whatever is typed is read as some script, that of the commands printed one a line. -/
theorem readCommands_scripts (cs : List Command) (text : List Byte) (h : Script cs text)
    (input : List Byte) : readCommands text = (cs, true) ∧
      readCommands (scriptText (readCommands input).1) = ((readCommands input).1, true) :=
  ⟨readCommands_script h, readCommands_script (script_scriptText (stored_of_mem_readCommands input))⟩

/-- `R 16`, then `i 0x3 ff` and `quit` on a line. -/
theorem inputQuit_read : readCommands (chars ['R', ' ', '1', '6', '\n', 'i', ' ', '0', 'x', '3', ' ',
    'f', 'f', ' ', 'q', 'u', 'i', 't', '\n']) = ([.run 16, .input 3 0xff], true) := by
  have hspaces : ∀ c ∈ ([] : List Byte), isSpace c = true := by decide
  have hr : BufferWord (isLetter 'r') (chars ['R']) := ⟨by decide, by decide, by decide, by decide⟩
  have hi : BufferWord (isLetter 'i') (chars ['i']) := ⟨by decide, by decide, by decide, by decide⟩
  have hcycles : Spells .d (16 : Nat) (chars ['1', '6']) :=
    .unsigned (@Numeral.decimal (chars ['1', '6']) (by decide) (by decide))
  have hregister : Spells .i (3 : BitVec 5).toNat (chars ['0', 'x', '3']) :=
    .unsigned (@Numeral.hexPrefix _ (by decide) _ (.inl rfl) (chars ['3']) (by decide) (by decide))
  have hvalue : Spells .x (0xff : Nat) (chars ['f', 'f']) :=
    .unsigned (@Numeral.hex (chars ['f', 'f']) (by decide) (by decide))
  have hquit : Script [] (chars [' '] ++ (chars ['q', 'u', 'i', 't'] ++ chars ['\n'])) :=
    .quit (by decide) ⟨by decide, by decide, by decide, by decide⟩ (ends_cons (by decide) _)
  have hinput : Script [.input 3 (scanHex (0xff : Nat))] (chars ['\n'] ++ _) :=
    .command (by decide) (.input hi gap_space hregister gap_space hvalue)
      (ends_cons (by decide) _) hquit
  have hscript := Script.command hspaces (.run hr (by decide) gap_space hcycles)
    (ends_cons (by decide) _) hinput
  exact (readCommands_scripts _ _ hscript []).1

end Acso.Arm
