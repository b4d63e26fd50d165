import Acso.Arm.Prompt

/-!
# Dialogues

The whole simulator, from the texts of the program files and of what is typed to what is printed
(`simulate`).  `Dialogue` says what the commands are for, on the architecture: `run` and `go`
execute instructions, `input` writes a register, and the dumps show the state.  A dialogue in
which all instructions are `Modelled` is what the simulator does (`simulate_refines`).
-/

namespace Acso.Arm

open Acso.Lib

/-! ## The simulator -/

/-- The text of `rdump`, by the numbers in it. -/
structure RegisterDump where
  instructionCount : BitVec 32
  pc : BitVec 64
  regs : Vector (BitVec 64) 32
  flagN : Bool
  flagZ : Bool

/-- What a dump prints, and what it writes to the file `dumpsim`. -/
inductive Output
  | registers (printed written : RegisterDump)
  | memory (printed written : Dump)

def Machine.registerDump (m : Machine) : RegisterDump :=
  ⟨m.instructionCount, m.currentState.pc, m.currentState.regs, m.currentState.flagN,
    m.currentState.flagZ⟩

def rdump (m : Machine) : Output := .registers m.registerDump m.registerDump

/-- What a command does; `none` if it takes more turns than there is fuel. -/
def Machine.execute (instructionData : Nat → DataT) (fuel : Nat) (m : Machine) :
    Command → Option (List Output × Machine)
  | .go => (go instructionData fuel m).map fun m => ([], m)
  | .run numCycles => some ([], run instructionData numCycles m)
  | .mdump start stop =>
    (mdump m.mem fuel (BitVec.ofInt 32 start) (BitVec.ofInt 32 stop)).map fun dump =>
      ([.memory dump.1 dump.2], m)
  | .rdump => some ([rdump m], m)
  | .input registerNo registerValue => some ([], m.input registerNo registerValue)
  | .other => some ([], m)

def Machine.executeAll (instructionData : Nat → DataT) (fuel : Nat) :
    Machine → List Command → Option (List Output × Machine)
  | m, [] => some ([], m)
  | m, c :: cs => do
    let (outputs, m) ← m.execute instructionData fuel c
    let (rest, m) ← m.executeAll instructionData fuel cs
    pure (outputs ++ rest, m)

/-- `main`, where it comes to its end: no program file is malformed, nothing undefined is typed,
and the commands take no more turns than there is fuel. -/
def simulate (garbage : Memory) (programFiles : List (List Byte)) (input : List Byte)
    (instructionData : Nat → DataT) (fuel : Nat) : Option (List Output × Machine) := do
  let (m, _) ← initializeFiles garbage (programFiles.map scanProgram)
  if (readCommands input).2 then m.executeAll instructionData fuel (readCommands input).1 else none

/-! ## What it is for -/

/-- What a dump shows. -/
inductive Shown
  | registers (s : Arch) (count : BitVec 32)
  | memory (s : Arch) (start stop : BitVec 32)

/-- What a command does to the architecture, of which so many instructions have been executed. -/
inductive Does : Command → Arch → BitVec 32 → List Shown → Arch → BitVec 32 → Prop
  | go {s s' : Arch} {count : BitVec 32} {is : List Instr} (hrun : archSystem.run s is = some s')
      (hmodelled : archSystem.Along Modelled s is) (hhalted : s'.halted = true) :
      Does .go s count [] s' (count + BitVec.ofNat 32 is.length)
  | run {s s' : Arch} {count : BitVec 32} {is : List Instr} {numCycles : Int}
      (hrun : archSystem.run s is = some s') (hmodelled : archSystem.Along Modelled s is)
      (hlength : is.length ≤ numCycles.toNat) (hend : is.length < numCycles.toNat → s'.halted = true) :
      Does (.run numCycles) s count [] s' (count + BitVec.ofNat 32 is.length)
  | mdump {s : Arch} {count : BitVec 32} {start stop : BitVec 32}
      (hfits : RangeFits 4 start.toInt stop.toInt 32) :
      Does (.mdump start.toInt stop.toInt) s count [.memory s start stop] s count
  | rdump {s : Arch} {count : BitVec 32} : Does .rdump s count [.registers s count] s count
  | input {s : Arch} {count : BitVec 32} (r : Reg) (v : BitVec 64) :
      Does (.input r v) s count [] (s.write r v) count
  | other {s : Arch} {count : BitVec 32} : Does .other s count [] s count

inductive Dialogue : List Command → Arch → BitVec 32 → List Shown → Arch → BitVec 32 → Prop
  | done {s : Arch} {count : BitVec 32} : Dialogue [] s count [] s count
  | command {c : Command} {cs : List Command} {s₁ s₂ s₃ : Arch} {count₁ count₂ count₃ : BitVec 32}
      {shown rest : List Shown} (hc : Does c s₁ count₁ shown s₂ count₂)
      (hcs : Dialogue cs s₂ count₂ rest s₃ count₃) :
      Dialogue (c :: cs) s₁ count₁ (shown ++ rest) s₃ count₃

/-- What a line of `mdump` says of the state.  An address below `2 ^ 31` has the word there, if all
of it is mapped, and zero, if it is not mapped; from there on, where the stack region is, every line
says zero. -/
def Arch.Tells (s : Arch) (line : DumpLine) : Prop :=
  if 0 ≤ line.address.toInt then
    (∀ v, s.load line.address.toNat 4 = some v → line.word = v.setWidth 32) ∧
      (s.mem line.address.toNat = none → line.word = 0)
  else line.word = 0

/-- What is printed is what is to be shown, and the same is written to the file. -/
inductive Displays : Output → Shown → Prop
  | registers {dump : RegisterDump} {s : Arch} {count : BitVec 32}
      (hcount : dump.instructionCount = count) (hpc : dump.pc = s.pc)
      (hregs : ∀ r : BitVec 5, getElem dump.regs r.toNat r.isLt = s.read r)
      (hN : dump.flagN = s.flagN) (hZ : dump.flagZ = s.flagZ) :
      Displays (.registers dump dump) (.registers s count)
  | memory {dump : Dump} {s : Arch} (hcovers : Covers dump.start dump.stop dump.lines)
      (hwords : ∀ line ∈ dump.lines, s.Tells line) :
      Displays (.memory dump dump) (.memory s dump.start dump.stop)

/-! ## The commands -/

section

variable {s s' : Arch} {m : Machine}

theorem represents_input (h : Represents s m) (r : Reg) (v : BitVec 64) :
    Represents (s.write r v) (m.input r v) := by
  refine ⟨h.latched.input _ _, ?_, ?_, ?_, ?_, ?_, ?_⟩
  · rw [Arch.write_halted]
    exact h.runBit
  · rw [Arch.write_pc]
    exact h.pc
  · intro r'
    rw [Arch.read_write, ← h.reg]
    refine (CpuState.reg_setReg _ _ _ _).trans ?_
    simp only [r.property, ne_eq, not_false_eq_true, true_and]
  · rw [Arch.write_flagN]
    exact h.flagN
  · rw [Arch.write_flagZ]
    exact h.flagZ
  · rw [Arch.write_mem]
    exact h.mem

theorem cycle_instructionCount (u : DataT) (m : Machine) :
    (cycle u m).instructionCount = m.instructionCount + 1 := by
  cases hd : dispatch m.fetched with
  | none => rw [cycle_of_none u hd]
  | some row =>
    rw [cycle_of_some u hd]
    exact congrArg (· + 1) (result_effect u hd).instructionCount

/-- **Instructions are executed and counted.** -/
theorem represents_iterate (h : Represents s m) {is : List Instr}
    (hrun : archSystem.run s is = some s') (hmodelled : archSystem.Along Modelled s is) :
    Represents s' (turn^[is.length] m) ∧
      (turn^[is.length] m).instructionCount = m.instructionCount + BitVec.ofNat 32 is.length := by
  induction is generalizing s m with
  | nil =>
    obtain rfl := Option.some.inj hrun
    exact ⟨h, (BitVec.add_zero _).symm⟩
  | cons i is ih =>
    obtain ⟨r, hr, hrest⟩ := archSystem.run_cons_eq_some.mp hrun
    have hrunBit : m.runBit = true := by
      rw [h.runBit, (archSystem_step.mp hr).1, Bool.not_false]
    obtain ⟨hend, hcount⟩ := ih ((represents_turn_iff s i r m h hr).mpr hmodelled.1) hrest
      (hmodelled.2 r hr)
    rw [List.length_cons, Function.iterate_succ_apply]
    refine ⟨hend, ?_⟩
    rw [hcount, turn_of_running default hrunBit, cycle_instructionCount, BitVec.add_assoc,
      Nat.add_comm is.length, BitVec.ofNat_add]
    rfl

/-- A line of the memory that is dumped. -/
theorem tells_dumpLine (h : Represents s m) (x : BitVec 32) : s.Tells (dumpLine m.mem x) := by
  show if 0 ≤ x.toInt then _ else _
  split
  · rename_i hx
    have haddress : (x.signExtend 64).toNat = x.toNat := by
      have hwidened := toNat_widened x
      have hnat := BitVec.toInt_eq_toNat_cond x
      rw [if_pos hx] at hwidened
      split at hnat <;> omega
    refine ⟨fun v hv => ?_, fun hnone => dumpLine_unmapped ?_⟩
    · change s.load x.toNat 4 = some v at hv
      unfold Arch.load at hv
      split at hv
      · rename_i hmapped
        obtain rfl := Option.some.inj hv
        obtain ⟨r, hr⟩ := exists_holds h.mem (by decide) (by decide) hmapped
        rw [← haddress] at hr ⊢
        refine memRead32_of_bytes (hr.contains (show 0 < 4 by decide)) fun k hk => ?_
        rw [BitVec.setWidth_ofNat_of_le (by decide), byteOf_ofNat_leValue _ hk (Nat.le_refl 32),
          byte_of_holds h.mem hr hk]
      · cases hv
    · rw [haddress]
      exact Option.map_eq_none_iff.mp ((h.mem x.toNat).trans hnone)
  · rename_i hx
    exact dumpLine_negative (by omega)

/-- `mdump` between numbers of a range that fits. -/
theorem mdump_represents (h : Represents s m) {start stop : BitVec 32}
    (hfits : RangeFits 4 start.toInt stop.toInt 32) :
    ∃ enough dump, (∀ fuel, enough ≤ fuel → mdump m.mem fuel start stop = some (dump, dump)) ∧
      Displays (.memory dump dump) (.memory s start stop) := by
  obtain ⟨enough, lines, hlines⟩ := (mdumpLoop_ends_iff m.mem start stop).mpr hfits
  obtain ⟨l, rfl, hvisits⟩ := mdumpLoop_visits hlines
  let dump : Dump := ⟨start, stop, l.map (dumpLine m.mem)⟩
  have hwords : ∀ line ∈ dump.lines, s.Tells line := by
    intro line hline
    obtain ⟨x, -, rfl⟩ := List.mem_map.mp hline
    exact tells_dumpLine h x
  refine ⟨enough, dump, ?_, .memory (covers_of_visits m.mem hvisits) hwords⟩
  intro fuel hfuel
  have hloop : mdumpLoop m.mem stop fuel start = some (l.map (dumpLine m.mem)) := by
    rw [mdumpLoop_eq] at hlines ⊢
    obtain ⟨l', hl', heq⟩ := Option.map_eq_some_iff.mp hlines
    rw [rangeLoop_mono hfuel hl', Option.map_some, heq]
  rw [mdump, hloop]
  rfl

/-- **A command does what it is for.** -/
theorem execute_does (h : Represents s m) {c : Command} {count : BitVec 32} {shown : List Shown}
    (hc : Does c s m.instructionCount shown s' count) :
    ∃ enough outputs m', (∀ u fuel, enough ≤ fuel → m.execute u fuel c = some (outputs, m')) ∧
      List.Forall₂ Displays outputs shown ∧ Represents s' m' ∧ m'.instructionCount = count := by
  cases hc with
  | @go _ _ _ is hrun hmodelled hhalted =>
    obtain ⟨hend, hcount⟩ := represents_iterate h hrun hmodelled
    have hrunBit : (turn^[is.length] m).runBit = false := by rw [hend.runBit, hhalted, Bool.not_true]
    refine ⟨is.length + 1, [], _, ?_, .nil, hend, hcount⟩
    intro u fuel hfuel
    rw [Machine.execute, go_eq u hfuel hrunBit, Option.map_some]
  | @run _ _ _ is numCycles hrun hmodelled hlength hhalts =>
    obtain ⟨hend, hcount⟩ := represents_iterate h hrun hmodelled
    refine ⟨0, [], _, fun u fuel _ => ?_, .nil, hend, hcount⟩
    have hturns : turn^[numCycles.toNat] m = turn^[is.length] m := by
      by_cases hlt : is.length < numCycles.toNat
      · -- it halts before the cycles are used up
        have hrunBit : (turn^[is.length] m).runBit = false := by
          rw [hend.runBit, hhalts hlt, Bool.not_true]
        rw [← Nat.sub_add_cancel hlength, Function.iterate_add_apply, iterate_turn_of_halted hrunBit]
      · rw [Nat.le_antisymm hlength (Nat.not_lt.mp hlt)]
    rw [Machine.execute, run_eq_iterate, hturns]
  | @mdump _ _ start stop hfits =>
    obtain ⟨enough, dump, hdump, hdisplays⟩ := mdump_represents h hfits
    refine ⟨enough, [.memory dump dump], m, ?_, .cons hdisplays .nil, h, rfl⟩
    intro u fuel hfuel
    rw [Machine.execute, BitVec.ofInt_toInt, BitVec.ofInt_toInt, hdump fuel hfuel]
    rfl
  | rdump =>
    exact ⟨0, [rdump m], m, fun u fuel _ => rfl,
      .cons (.registers rfl h.pc h.reg h.flagN h.flagZ) .nil, h, rfl⟩
  | input r v => exact ⟨0, [], _, fun u fuel _ => rfl, .nil, represents_input h r v, rfl⟩
  | other => exact ⟨0, [], m, fun u fuel _ => rfl, .nil, h, rfl⟩

/-- **So does a dialogue.** -/
theorem executeAll_dialogue {cs : List Command} {count count' : BitVec 32} {shown : List Shown}
    (hcs : Dialogue cs s count shown s' count') (h : Represents s m)
    (hcount : m.instructionCount = count) :
    ∃ enough outputs m', (∀ u fuel, enough ≤ fuel → m.executeAll u fuel cs = some (outputs, m')) ∧
      List.Forall₂ Displays outputs shown ∧ Represents s' m' := by
  induction hcs generalizing m with
  | done => exact ⟨0, [], m, fun u fuel _ => rfl, .nil, h⟩
  | command hc _ ih =>
    subst hcount
    obtain ⟨enough₁, outputs, m₂, hexecute, hdisplays, hm₂, hcount₂⟩ := execute_does h hc
    obtain ⟨enough₂, rest, m₃, hall, hrest, hm₃⟩ := ih hm₂ hcount₂
    refine ⟨max enough₁ enough₂, outputs ++ rest, m₃, ?_, List.rel_append hdisplays hrest, hm₃⟩
    intro u fuel hfuel
    rw [Machine.executeAll, hexecute u fuel (by omega)]
    dsimp only [Option.bind_eq_bind, Option.bind_some]
    rw [hall u fuel (by omega)]
    rfl

end

/-- **The simulator refines the architecture**, from the texts to what it prints.  Take files of
words that fit and any input; where the commands that are read from it are a dialogue with the
architecture, from the state in which the program starts, the simulator comes to its end, it
prints what is to be shown, and its machine shows the last state. -/
theorem simulate_refines (garbage : Memory) (files : List (List (BitVec 32)))
    (texts : List (List Byte)) (hne : files ≠ [])
    (htexts : List.Forall₂ (fun words text => ProgramText words false text) files texts)
    (hfit : ∀ words ∈ files, words.length ≤ 0x40000) (input : List Byte) (cs : List Command)
    (hinput : readCommands input = (cs, true)) (shown : List Shown) (s : Arch) (count : BitVec 32)
    (hcs : Dialogue cs (.start (overlay files)) 0 shown s count) :
    ∃ enough outputs m,
      (∀ u fuel, enough ≤ fuel → simulate garbage texts input u fuel = some (outputs, m)) ∧
      List.Forall₂ Displays outputs shown ∧ Represents s m := by
  have hload := initializeFiles_programTexts garbage hfit htexts
  have hstart := represents_files garbage hfit hne
  have hcount : (initializeMachine garbage files).instructionCount = 0 := by
    obtain ⟨words, files, rfl⟩ := List.exists_cons_of_ne_nil hne
    rw [initializeMachine_eq_boot]
    rfl
  obtain ⟨enough, outputs, m, hall, hdisplays, hm⟩ := executeAll_dialogue hcs hstart hcount
  refine ⟨enough, outputs, m, ?_, hdisplays, hm⟩
  intro u fuel hfuel
  rw [simulate, hload, hinput]
  exact hall u fuel hfuel

/-- `movz x1, #2; loop: subs x1, x1, #1; cbnz x1, loop; hlt`. -/
def countdown : List Instr :=
  [.movz 1 2, .subsImm 1 ⟨1, by decide⟩ 1 false, .cbnz 1 (-1), .hlt 0]

/-- What is executed of it. -/
def countdownRun : List Instr :=
  [.movz 1 2, .subsImm 1 ⟨1, by decide⟩ 1 false, .cbnz 1 (-1), .subsImm 1 ⟨1, by decide⟩ 1 false,
    .cbnz 1 (-1), .hlt 0]

/-- `countdown` with `go` and `rdump`. -/
theorem countdown_dumped :
    ∃ enough dump m, (∀ u fuel, enough ≤ fuel →
      simulate (fun _ _ => 0xff) [programText (countdown.map Instr.encode)]
        (scriptText [.go, .rdump]) u fuel = some ([.registers dump dump], m)) ∧
      dump.instructionCount = 6 ∧ getElem dump.regs 1 (by decide) = 0 ∧ dump.flagZ = true := by
  have hend : (archSystem.run (.start (countdown.map Instr.encode)) countdownRun).map
      (fun s => (s.halted, s.read 1, s.flagZ)) = some (true, 0, true) := by decide
  obtain ⟨s, hs, hs'⟩ := Option.map_eq_some_iff.mp hend
  obtain ⟨hhalted, hread⟩ := Prod.mk.inj hs'
  obtain ⟨hread, hflag⟩ := Prod.mk.inj hread
  have hdialogue : Dialogue [.go, .rdump] (.start (overlay [countdown.map Instr.encode])) 0
      [.registers s 6] s 6 :=
    .command (.go hs (by decide) hhalted) (.command .rdump .done)
  have hstored : ∀ c ∈ [Command.go, Command.rdump], c.Stored :=
    List.forall_mem_cons.mpr ⟨trivial, List.forall_mem_cons.mpr ⟨trivial, fun c hc => nomatch hc⟩⟩
  obtain ⟨enough, outputs, m, hall, hdisplays, -⟩ := simulate_refines (fun _ _ => 0xff)
    [countdown.map Instr.encode] _ (by decide) (.cons (programText_printed _) .nil) (by decide)
    _ _ (readCommands_script (script_scriptText hstored)) _ _ _ hdialogue
  cases hdisplays with
  | cons hfirst hrest =>
    cases hrest
    cases hfirst with
    | @registers dump _ _ hcount hpc hregs hN hZ =>
      exact ⟨enough, dump, m, hall, hcount, (hregs 1).trans hread, hZ.trans hflag⟩

end Acso.Arm
