import Acso.Arm.Rows

/-!
# What an instruction changes

`flagResult` is the result by which a word sets the flags, read off the word and
the old state alone, and `registerOpcodes` are those of the rows with a
destination register.  A cycle changes no other register than the destination,
no flag unless there is such a result, memory only for a store and the run bit
only for HLT (`cycle_framed`).
-/

namespace Acso.Arm

open Acso.Lib

/-! ## What may change -/

/-- The rows with a destination `Rd`. -/
def rdOpcodes : List (BitVec 32) := flagOpcodes ++ plainOpcodes ++ [addErOpcode]

/-- The rows with a destination `Rt`. -/
def loadOpcodes : List (BitVec 32) := [0x7c2, 0x1c2, 0x3c2]

def registerOpcodes : List (BitVec 32) := rdOpcodes ++ loadOpcodes

/-- The word matches a row with one of these opcodes. -/
def MatchesOneOf (opcodes : List (BitVec 32)) (w : BitVec 32) : Prop :=
  ∃ row ∈ instructions, row.Matches w ∧ row.opcode ∈ opcodes

/-- The immediate operand of an I-format word. -/
def immOperand (w : BitVec 32) : BitVec 64 :=
  if field w 22 2 = 1 then (field w 10 12).setWidth 64 <<< 12 else (field w 10 12).setWidth 64

/-- The result of an ANDS, ADDS or SUBS word. -/
def flagResult (s : CpuState) (w : BitVec 32) : Option (BitVec 64) :=
  let operand1 := s.reg (field w 5 5)
  let operand2 := s.reg (field w 16 5)
  if w >>> 24 = 0xea then some (operand1 &&& operand2)
  else if w >>> 24 = 0xb1 then some (operand1 + immOperand w)
  else if w >>> 24 = 0xf1 then some (operand1 - immOperand w)
  else if w >>> 21 = 0x558 then some (operand1 + operand2)
  else if w >>> 21 = 0x758 then some (operand1 - operand2)
  else none

/-- From `m` to `m'` only what the word at the program counter of `m` may change
has changed. -/
structure Framed (m m' : Machine) : Prop where
  registers : ∀ r, MatchesOneOf registerOpcodes m.fetched ∧ r = field m.fetched 0 5 ∨
    m'.currentState.reg r = m.currentState.reg r
  flagsSet : ∀ result, flagResult m.currentState m.fetched = some result →
    (m'.currentState.flagZ = true ↔ result = 0) ∧ m'.currentState.flagN = result.msb
  flagsKept : flagResult m.currentState m.fetched = none →
    m'.currentState.flagZ = m.currentState.flagZ ∧ m'.currentState.flagN = m.currentState.flagN
  memory : MatchesOneOf storeOpcodes m.fetched ∨ m'.mem = m.mem
  runBit : MatchesOneOf [hltOpcode] m.fetched ∨ m'.runBit = m.runBit
  unmatched : (∀ row ∈ instructions, ¬ row.Matches m.fetched) →
    m'.currentState = m.currentState ∧ m'.mem = m.mem ∧ m'.runBit = m.runBit

/-! ## The flags -/

theorem flagN_setFlags (s : CpuState) (v : BitVec 64) : (s.setFlags v).flagN = v.msb := by
  have hshift : (v >>> 63).toNat = v.toNat / 2 ^ 63 := by
    rw [BitVec.toNat_ushiftRight, Nat.shiftRight_eq_div_pow]
  have hmsb : v >>> 63 ≠ 0 ↔ 2 ^ 63 ≤ v.toNat := by
    rw [ne_eq, ← BitVec.toNat_inj, hshift, show (0 : BitVec 64).toNat = 0 from rfl]
    omega
  rw [BitVec.msb_eq_decide]
  exact decide_eq_decide.mpr hmsb

theorem flagZ_setFlags (s : CpuState) (v : BitVec 64) :
    (s.setFlags v).flagZ = true ↔ v = 0 := decide_eq_true_iff

/-- The subtraction of the executors. -/
theorem add_not_add_one (x y : BitVec 64) : x + ~~~y + 1 = x - y := by
  rw [BitVec.sub_eq_add_neg, BitVec.neg_eq_not_add, BitVec.add_assoc]
  rfl

theorem executeSubsCmpImm_eq : executeSubsCmpImm = aluImm (fun a b => a - b) true := by
  simp only [executeSubsCmpImm, add_not_add_one]

theorem executeSubsCmpEr_eq : executeSubsCmpEr = aluReg (fun a b => a - b) true := by
  simp only [executeSubsCmpEr, add_not_add_one]

section rows

variable {m : Machine} {row : Instruction} (u : DataT)

/-- `flagResult`, read off the opcode of the row a word is dispatched to. -/
theorem flagResult_eq {w : BitVec 32} (s : CpuState) (h : dispatch w = some row) :
    flagResult s w =
      if row.opcode = 0xea then some (s.reg (field w 5 5) &&& s.reg (field w 16 5))
      else if row.opcode = 0xb1 then some (s.reg (field w 5 5) + immOperand w)
      else if row.opcode = 0xf1 then some (s.reg (field w 5 5) - immOperand w)
      else if row.opcode = 0x558 then some (s.reg (field w 5 5) + s.reg (field w 16 5))
      else if row.opcode = 0x758 then some (s.reg (field w 5 5) - s.reg (field w 16 5))
      else none := by
  have hea : w >>> 24 = 0xea ↔ row.opcode = 0xea := prefix_iff h 8 0xea (by decide)
  have hb1 : w >>> 24 = 0xb1 ↔ row.opcode = 0xb1 := prefix_iff h 8 0xb1 (by decide)
  have hf1 : w >>> 24 = 0xf1 ↔ row.opcode = 0xf1 := prefix_iff h 8 0xf1 (by decide)
  have h558 : w >>> 21 = 0x558 ↔ row.opcode = 0x558 := prefix_iff h 11 0x558 (by decide)
  have h758 : w >>> 21 = 0x758 ↔ row.opcode = 0x758 := prefix_iff h 11 0x758 (by decide)
  simp only [flagResult, hea, hb1, hf1, h558, h758]

theorem flagResult_eq_none {w : BitVec 32} (s : CpuState) (h : dispatch w = some row)
    (hf : row.opcode ∉ flagOpcodes) : flagResult s w = none := by
  simp only [flagOpcodes, List.mem_cons, List.not_mem_nil, or_false, not_or] at hf
  rw [flagResult_eq s h, if_neg hf.1, if_neg hf.2.1, if_neg hf.2.2.1, if_neg hf.2.2.2.1,
    if_neg hf.2.2.2.2]

theorem aluReg_flags (op : BitVec 64 → BitVec 64 → BitVec 64) (w : BitVec 32) :
    (aluReg op true (decodeR u w) m).nextState =
      (m.nextState.setFlags (op (m.currentState.reg (field w 5 5))
        (m.currentState.reg (field w 16 5)))).writeReg (field w 0 5)
        (op (m.currentState.reg (field w 5 5)) (m.currentState.reg (field w 16 5))) := by
  simp only [aluReg, decodeR_rn, decodeR_rm, decodeR_rd, if_true]

theorem aluImm_flags (op : BitVec 64 → BitVec 64 → BitVec 64) (w : BitVec 32) :
    (aluImm op true (decodeI u w) m).nextState =
      (m.nextState.setFlags (op (m.currentState.reg (field w 5 5)) (immOperand w))).writeReg
        (field w 0 5) (op (m.currentState.reg (field w 5 5)) (immOperand w)) := by
  simp only [aluImm, decodeI_rn, decodeI_aluImmediate, decodeI_shift, decodeI_rd, if_true,
    immOperand]

/-- **A flag row sets the flags by its result.** -/
theorem flag_result (h : dispatch m.fetched = some row) (hf : row.opcode ∈ flagOpcodes) :
    ∃ result, flagResult m.currentState m.fetched = some result ∧
      (row.result u m).nextState =
        (m.nextState.setFlags result).writeReg (field m.fetched 0 5) result := by
  have hmem := (dispatch_eq_some.mp h).1
  have hrow : ∀ row' ∈ instructions, row.opcode = row'.opcode → row = row' :=
    fun row' hmem' => eq_of_opcode hmem hmem'
  rw [flagResult_eq _ h]
  simp only [flagOpcodes, List.mem_cons, List.not_mem_nil, or_false] at hf
  rcases hf with hf | hf | hf | hf | hf
  · obtain rfl := hrow ⟨8, 0xea, decodeR, executeAndsSr⟩ (by simp [instructions]) hf
    exact ⟨_, if_pos rfl, aluReg_flags u _ _⟩
  · obtain rfl := hrow ⟨8, 0xb1, decodeI, executeAddsImm⟩ (by simp [instructions]) hf
    exact ⟨_, (if_neg (by decide)).trans (if_pos rfl), aluImm_flags u _ _⟩
  · obtain rfl := hrow ⟨8, 0xf1, decodeI, executeSubsCmpImm⟩ (by simp [instructions]) hf
    refine ⟨_, ?_, executeSubsCmpImm_eq ▸ aluImm_flags u _ _⟩
    exact (if_neg (by decide)).trans ((if_neg (by decide)).trans (if_pos rfl))
  · obtain rfl := hrow ⟨11, 0x558, decodeR, executeAddsEr⟩ (by simp [instructions]) hf
    refine ⟨_, ?_, aluReg_flags u _ _⟩
    exact (if_neg (by decide)).trans ((if_neg (by decide)).trans ((if_neg (by decide)).trans
      (if_pos rfl)))
  · obtain rfl := hrow ⟨11, 0x758, decodeR, executeSubsCmpEr⟩ (by simp [instructions]) hf
    refine ⟨_, ?_, executeSubsCmpEr_eq ▸ aluReg_flags u _ _⟩
    exact (if_neg (by decide)).trans ((if_neg (by decide)).trans ((if_neg (by decide)).trans
      ((if_neg (by decide)).trans (if_pos rfl))))

/-! ## The other parts -/

theorem mem_loadOpcodes {opcode : BitVec 32} {read : Memory → BitVec 64 → BitVec 64}
    (h : readOf opcode = some read) : opcode ∈ loadOpcodes := by
  unfold readOf at h
  split_ifs at h with h1 h2 h3
  · simp [loadOpcodes, h1]
  · simp [loadOpcodes, h2]
  · simp [loadOpcodes, h3]

namespace Effect

variable {opcode : BitVec 32} {d : DataT} {m m' : Machine}

theorem reg (h : Effect opcode d m m') (r : BitVec 5) :
    opcode ∈ rdOpcodes ∧ r = d.rd ∨ opcode ∈ loadOpcodes ∧ r = d.rt ∨
      m'.nextState.reg r = m.nextState.reg r := by
  cases h with
  | write v h =>
    by_cases hr : r = d.rd
    · exact .inl ⟨by simp [rdOpcodes, h], hr⟩
    · exact .inr (.inr (by simp [CpuState.reg_writeReg, hr]))
  | writeFlags v h =>
    by_cases hr : r = d.rd
    · exact .inl ⟨by simp [rdOpcodes, h], hr⟩
    · exact .inr (.inr (by simp [CpuState.reg_writeReg, hr]))
  | addEr h hrd =>
    by_cases hr : r = d.rd
    · exact .inl ⟨by simp [rdOpcodes, h], hr⟩
    · exact .inr (.inr (by simp [CpuState.reg_setReg, hr]))
  | load read h hop =>
    by_cases hr : r = d.rt
    · exact .inr (.inl ⟨mem_loadOpcodes h, hr⟩)
    · exact .inr (.inr (by simp [CpuState.reg_setReg, hr]))
  | _ => exact .inr (.inr rfl)

theorem flags (h : Effect opcode d m m') (hf : opcode ∉ flagOpcodes) :
    m'.nextState.flagZ = m.nextState.flagZ ∧ m'.nextState.flagN = m.nextState.flagN := by
  cases h with
  | write v h => exact ⟨CpuState.writeReg_flagZ _ _ _, CpuState.writeReg_flagN _ _ _⟩
  | writeFlags v h => exact absurd h hf
  | _ => exact ⟨rfl, rfl⟩

theorem mem (h : Effect opcode d m m') : opcode ∈ storeOpcodes ∨ m'.mem = m.mem := by
  cases h with
  | store mem h => exact .inl h
  | _ => exact .inr rfl

theorem runBit (h : Effect opcode d m m') : opcode = hltOpcode ∨ m'.runBit = m.runBit := by
  cases h with
  | halt h hrd => exact .inl h
  | _ => exact .inr rfl

end Effect

/-- The destination is the lowest field of the word. -/
theorem decode_rd : ∀ row ∈ instructions, row.opcode ∈ rdOpcodes → ∀ u w,
    (row.decode u w).rd = field w 0 5 := by
  simp only [instructions, List.forall_mem_cons, List.not_mem_nil, false_implies, implies_true,
    and_true]
  and_intros <;> intro hmem u w
  all_goals first
    | exact absurd hmem (by decide)
    | exact setWidth_and_mask w 5 (by decide)

theorem decode_rt : ∀ row ∈ instructions, row.opcode ∈ loadOpcodes → ∀ u w,
    (row.decode u w).rt = field w 0 5 := by
  simp only [instructions, List.forall_mem_cons, List.not_mem_nil, false_implies, implies_true,
    and_true]
  and_intros <;> intro hmem u w
  all_goals first
    | exact absurd hmem (by decide)
    | exact decodeD_rt u w

/-! ## One cycle -/

theorem cycle_flags (h : dispatch m.fetched = some row) :
    (cycle u m).currentState.flagZ = (row.result u m).nextState.flagZ ∧
      (cycle u m).currentState.flagN = (row.result u m).nextState.flagN := by
  rw [cycle_of_some u h]
  dsimp only
  split <;> exact ⟨rfl, rfl⟩

theorem cycle_runBit (h : dispatch m.fetched = some row) :
    (cycle u m).runBit = (row.result u m).runBit := by
  rw [cycle_of_some u h]

/-- A cycle on a word of the table. -/
theorem framed_of_some (hm : m.nextState = m.currentState) (h : dispatch m.fetched = some row) :
    Framed m (cycle u m) := by
  obtain ⟨hmem, hmatch⟩ := dispatch_eq_some.mp h
  have heffect := result_effect u h
  have hone : ∀ opcodes : List (BitVec 32), row.opcode ∈ opcodes →
      MatchesOneOf opcodes m.fetched := fun _ hop => ⟨row, hmem, hmatch, hop⟩
  refine ⟨?_, ?_, ?_, ?_, ?_, ?_⟩
  · intro r
    rw [cycle_reg u h, ← hm]
    rcases heffect.reg r with ⟨hop, hr⟩ | ⟨hop, hr⟩ | hkeep
    · rw [decode_rd row hmem hop] at hr
      exact .inl ⟨hone _ (List.mem_append_left _ hop), hr⟩
    · rw [decode_rt row hmem hop] at hr
      exact .inl ⟨hone _ (List.mem_append_right _ hop), hr⟩
    · exact .inr hkeep
  · intro result hresult
    have hf : row.opcode ∈ flagOpcodes := by
      by_contra hf
      rw [flagResult_eq_none _ h hf] at hresult
      cases hresult
    obtain ⟨result', hresult', hnext⟩ := flag_result u h hf
    obtain rfl := Option.some.inj (hresult.symm.trans hresult')
    rw [(cycle_flags u h).1, (cycle_flags u h).2, hnext, CpuState.writeReg_flagZ,
      CpuState.writeReg_flagN]
    exact ⟨flagZ_setFlags _ _, flagN_setFlags _ _⟩
  · intro hnone
    have hf : row.opcode ∉ flagOpcodes := by
      intro hf
      obtain ⟨result, hresult, -⟩ := flag_result u h hf
      rw [hnone] at hresult
      cases hresult
    rw [(cycle_flags u h).1, (cycle_flags u h).2, ← hm]
    exact heffect.flags hf
  · rw [cycle_mem u h]
    exact heffect.mem.imp_left (hone _)
  · rw [cycle_runBit u h]
    exact heffect.runBit.imp_left fun hop => hone _ (List.mem_singleton.mpr hop)
  · intro hno
    exact absurd hmatch (hno row hmem)

end rows

theorem flagResult_of_dispatch_none {w : BitVec 32} (s : CpuState) (h : dispatch w = none) :
    flagResult s w = none := by
  have hno := dispatch_eq_none.mp h
  have hea : w >>> 24 ≠ 0xea := fun e =>
    hno ⟨8, 0xea, decodeR, executeAndsSr⟩ (by simp [instructions]) e.symm
  have hb1 : w >>> 24 ≠ 0xb1 := fun e =>
    hno ⟨8, 0xb1, decodeI, executeAddsImm⟩ (by simp [instructions]) e.symm
  have hf1 : w >>> 24 ≠ 0xf1 := fun e =>
    hno ⟨8, 0xf1, decodeI, executeSubsCmpImm⟩ (by simp [instructions]) e.symm
  have h558 : w >>> 21 ≠ 0x558 := fun e =>
    hno ⟨11, 0x558, decodeR, executeAddsEr⟩ (by simp [instructions]) e.symm
  have h758 : w >>> 21 ≠ 0x758 := fun e =>
    hno ⟨11, 0x758, decodeR, executeSubsCmpEr⟩ (by simp [instructions]) e.symm
  simp only [flagResult, if_neg hea, if_neg hb1, if_neg hf1, if_neg h558, if_neg h758]

/-- A cycle on any other word changes nothing. -/
theorem framed_of_none (u : DataT) {m : Machine} (hm : m.nextState = m.currentState)
    (h : dispatch m.fetched = none) : Framed m (cycle u m) := by
  have hnone := flagResult_of_dispatch_none m.currentState h
  rw [cycle_of_none u h, hm]
  refine ⟨fun _ => .inr rfl, ?_, fun _ => ⟨rfl, rfl⟩, .inr rfl, .inr rfl, fun _ => ⟨rfl, rfl, rfl⟩⟩
  intro result hresult
  rw [hnone] at hresult
  cases hresult

/-- **One cycle changes only what its instruction may change.** -/
theorem cycle_framed (u : DataT) (m : Machine) (hm : m.nextState = m.currentState) :
    Framed m (cycle u m) := by
  cases hd : dispatch m.fetched with
  | none => exact framed_of_none u hm hd
  | some row => exact framed_of_some u hm hd

/-- `cmp x0, x0` sets `FLAG_Z` although its destination is `XZR`. -/
theorem cmpMachine_framed :
    let m := boot (loadWords 0 [0xeb00001f] fun _ _ => 0)
    Framed m (cycle default m) ∧ (cycle default m).currentState.flagZ = true :=
  ⟨cycle_framed default _ rfl, by decide⟩

end Acso.Arm
