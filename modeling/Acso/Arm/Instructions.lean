import Acso.Arm.Represents

/-!
# Instruction by instruction

A machine that shows a state and is about to execute an instruction shows the next state
afterwards: always for most of the instructions, and for those of the five defects under the
condition that the theorem about them says.
-/

namespace Acso.Arm

open Acso.Lib

/-! ## Branches -/

/-- The operands of a branch with a condition. -/
theorem Encoding.ExecutedBy.cb_fields {opcode : BitVec 32} {rt : BitVec 5} {imm : BitVec 19}
    {execute : DataT → Machine → Machine} (h : (cbEncoding opcode rt imm).ExecutedBy execute) :
    field (cbEncoding opcode rt imm).word 5 19 = imm ∧
      field (cbEncoding opcode rt imm).word 0 5 = rt := by
  obtain ⟨himm, hrt⟩ := h.agree default
  exact ⟨(decodeCb_condBrAddress default _).symm.trans himm,
    (decodeCb_rt default _).symm.trans hrt⟩

theorem jump_eq_next_of_pc {s : Arch} {k : Nat} {imm : BitVec k}
    (h : (s.jump imm).pc = s.next.pc) : s.jump imm = s.next :=
  congrArg (fun pc => { s with pc := pc }) h

/-- Only a branch to the next word goes there. -/
theorem jump_eq_next_iff (s : Arch) (imm : BitVec 19) : s.jump imm = s.next ↔ imm = 1 :=
  ⟨fun h => (pc_add_eq_next_iff s.pc imm).mp (congrArg Arch.pc h),
    fun h => jump_eq_next_of_pc ((pc_add_eq_next_iff s.pc imm).mpr h)⟩

/-- What the switch of `execute_b_cond` makes of the condition. -/
def Arch.switched (s : Arch) (cond : BitVec 4) : Bool :=
  inSwitch (cond.setWidth 5) && ({ s with flagC := false, flagV := false } : Arch).holds cond

section branches

variable {s : Arch} {m : Machine} (h : Represents s m) (u : DataT)
include h

theorem represents_b (imm : BitVec 26) (hw : m.fetched = (Instr.b imm).encode) :
    Represents (s.jump imm) (cycle u m) := by
  have hexec : (Instr.b imm).encoding.ExecutedBy executeB :=
    ⟨by simp [instructions, Instr.encoding, Format.decode], rfl, readsOnly_executeB⟩
  have himm : field (Instr.b imm).encoding.word 0 26 = imm :=
    (decodeB_brAddress u _).symm.trans (hexec.agree u)
  have htarget := (branchTarget_eq (condTaken m.currentState) m.currentState hexec.dispatch).trans (if_pos rfl)
  have hcycle := h.of_branch hexec hw u List.mem_cons_self
  rw [takenTarget, htarget, himm, pcRelative, h.pc] at hcycle
  exact hcycle

/-- A branch that depends on a condition. -/
theorem represents_cond {enc : Encoding} {execute : DataT → Machine → Machine}
    (hexec : enc.ExecutedBy execute) (hw : m.fetched = enc.word)
    (hb : enc.opcode ∈ branchOpcodes) {c : Prop} [Decidable c] {k : Nat} {imm : BitVec k}
    (htarget : takenTarget m.currentState enc.word =
      if c then some (pcRelative m.currentState imm) else none) :
    Represents (if c then s.jump imm else s.next) (cycle u m) := by
  have hcycle := h.of_branch hexec hw u hb
  rw [htarget, pcRelative, h.pc] at hcycle
  by_cases hc : c
  · rw [if_pos hc] at hcycle ⊢
    exact hcycle
  · rw [if_neg hc] at hcycle ⊢
    exact hcycle

theorem represents_bCond_iff (cond : BitVec 4) (imm : BitVec 19)
    (hw : m.fetched = (Instr.bCond cond imm).encode) :
    Represents (if s.holds cond then s.jump imm else s.next) (cycle u m) ↔
      s.holds cond = s.switched cond ∨ imm = 1 := by
  have hexec : (cbEncoding 0x54 (cond.setWidth 5) imm).ExecutedBy executeBCond :=
    ⟨by simp [instructions, cbEncoding, Format.decode], rfl, readsOnly_executeBCond⟩
  obtain ⟨himm, hrt⟩ := hexec.cb_fields
  have hcond : ∀ c : BitVec 4, (c.setWidth 5).msb = false ∧ (c.setWidth 5).setWidth 4 = c := by
    decide
  have hholds : condTaken m.currentState (cond.setWidth 5) = s.switched cond := by
    rw [condTaken, condHolds, (hcond cond).1, (hcond cond).2, h.flagN, h.flagZ]
    rfl
  have htarget := branchTarget_bCond (condTaken m.currentState) m.currentState hexec.dispatch rfl
  rw [himm, hrt, hholds] at htarget
  -- the simulator goes where its switch says
  have hcycle := represents_cond h u hexec hw (by decide : (0x54 : BitVec 32) ∈ branchOpcodes)
    htarget
  have hjump : s.jump imm = s.next ↔ imm = 1 := jump_eq_next_iff s imm
  constructor
  · intro hboth
    by_contra hne
    rw [not_or, ← hjump] at hne
    have hpc := hboth.pc.symm.trans hcycle.pc
    refine hne.2 (jump_eq_next_of_pc ?_)
    cases hc : s.holds cond <;> cases hc' : s.switched cond <;>
      rw [hc, hc'] at hpc hne
    · exact absurd rfl hne.1
    · exact hpc.symm
    · exact hpc
    · exact absurd rfl hne.1
  · rintro (heq | hone)
    · rw [heq]
      exact hcycle
    · rw [hjump.mpr hone, ite_self] at hcycle ⊢
      exact hcycle

theorem represents_cbz (rt : BitVec 5) (imm : BitVec 19)
    (hw : m.fetched = (Instr.cbz rt imm).encode) :
    Represents (if s.read rt = 0 then s.jump imm else s.next) (cycle u m) := by
  have hexec : (cbEncoding 0xb4 rt imm).ExecutedBy executeCbz :=
    ⟨by simp [instructions, cbEncoding, Format.decode], rfl, readsOnly_compareBranch _⟩
  obtain ⟨himm, hrt⟩ := hexec.cb_fields
  refine represents_cond h u hexec hw (by decide : (0xb4 : BitVec 32) ∈ branchOpcodes) ?_
  have htarget := branchTarget_eq (condTaken m.currentState) m.currentState hexec.dispatch
  rw [himm, hrt, h.reg] at htarget
  exact htarget.trans ((if_neg (show ¬ (0xb4 : BitVec 32) = 0x5 by decide)).trans
    ((if_neg (show ¬ (0xb4 : BitVec 32) = 0x54 by decide)).trans (if_pos rfl)))

theorem represents_cbnz (rt : BitVec 5) (imm : BitVec 19)
    (hw : m.fetched = (Instr.cbnz rt imm).encode) :
    Represents (if s.read rt ≠ 0 then s.jump imm else s.next) (cycle u m) := by
  have hexec : (cbEncoding 0xb5 rt imm).ExecutedBy executeCbnz :=
    ⟨by simp [instructions, cbEncoding, Format.decode], rfl, readsOnly_compareBranch _⟩
  obtain ⟨himm, hrt⟩ := hexec.cb_fields
  refine represents_cond h u hexec hw (by decide : (0xb5 : BitVec 32) ∈ branchOpcodes) ?_
  have htarget := branchTarget_eq (condTaken m.currentState) m.currentState hexec.dispatch
  rw [himm, hrt, h.reg] at htarget
  exact htarget.trans ((if_neg (show ¬ (0xb5 : BitVec 32) = 0x5 by decide)).trans
    ((if_neg (show ¬ (0xb5 : BitVec 32) = 0x54 by decide)).trans
      ((if_neg (show ¬ (0xb5 : BitVec 32) = 0xb4 by decide)).trans (if_pos rfl))))

theorem represents_br (rn : BitVec 5) (hw : m.fetched = (Instr.br rn).encode) :
    Represents { s with pc := s.read rn } (cycle u m) := by
  have hexec : (Instr.br rn).encoding.ExecutedBy executeBr :=
    ⟨by simp [instructions, Instr.encoding, Format.decode], rfl, readsOnly_executeBr⟩
  obtain ⟨hrm, hshamt, hrn, hrd⟩ := hexec.agree u
  have hrn' : field (Instr.br rn).encoding.word 5 5 = rn := (decodeR_rn u _).symm.trans hrn
  have hopcode : (0x6b0 : BitVec 32) ≠ 0x5 ∧ (0x6b0 : BitVec 32) ≠ 0x54 ∧
      (0x6b0 : BitVec 32) ≠ 0xb4 ∧ (0x6b0 : BitVec 32) ≠ 0xb5 := by decide
  have htarget := (branchTarget_eq (condTaken m.currentState) m.currentState hexec.dispatch).trans
    ((if_neg hopcode.1).trans ((if_neg hopcode.2.1).trans ((if_neg hopcode.2.2.1).trans
      ((if_neg hopcode.2.2.2).trans ((if_pos rfl).trans (if_pos
        ⟨(decodeR_rm u _).symm.trans hrm, (decodeR_shamt u _).symm.trans hshamt,
          (decodeR_rd u _).symm.trans hrd⟩))))))
  have hcycle := h.of_branch hexec hw u (by decide : (0x6b0 : BitVec 32) ∈ branchOpcodes)
  rw [takenTarget, htarget, hrn', h.reg] at hcycle
  exact hcycle

end branches

/-! ## Arithmetic, logic and shifts -/

def RegOp.execute : RegOp → DataT → Machine → Machine
  | .ands => executeAndsSr
  | .eor => executeEorSr
  | .orr => executeOrrSr
  | .adds => executeAddsEr
  | .subs => executeSubsCmpEr
  | .add => executeAddEr
  | .mul => executeMul

/-- What an executor on two registers may read. -/
theorem RegOp.readsOnly (op : RegOp) : ReadsOnly op.execute [.rm, .shamt, .rn, .rd] := by
  have hsub : [DataField.rm, .rn, .rd] ⊆ [.rm, .shamt, .rn, .rd] := by decide
  cases op with
  | ands => exact (readsOnly_aluReg (fun a b => a &&& b) true).mono hsub
  | eor => exact (readsOnly_aluReg (fun a b => a ^^^ b) false).mono hsub
  | orr => exact (readsOnly_aluReg (fun a b => a ||| b) false).mono hsub
  | adds => exact (readsOnly_aluReg (fun a b => a + b) true).mono hsub
  | subs => exact (readsOnly_aluReg (fun a b => a + ~~~b + 1) true).mono hsub
  | add => exact readsOnly_executeAddEr.mono hsub
  | mul => exact readsOnly_executeMul

theorem RegOp.executedBy (op : RegOp) (rd rn rm : BitVec 5) :
    (op.encoding rd rn rm).ExecutedBy op.execute := by
  have hreads := op.readsOnly
  cases op <;>
    exact ⟨by simp [instructions, RegOp.encoding, RegOp.execute, Format.decode], rfl, hreads⟩

theorem aluImm_immEncoding (m : Machine) (op : BitVec 64 → BitVec 64 → BitVec 64) (flags : Bool)
    (opcode : BitVec 32) (rd : BitVec 5) (rn : Reg) (imm : BitVec 12) (shifted : Bool) :
    aluImm op flags (immEncoding opcode rd rn imm shifted).operands m =
      let v := op (m.currentState.reg rn) (shiftedImm imm shifted)
      { m with
        nextState := (if flags then m.nextState.setFlags v else m.nextState).writeReg rd v } := by
  cases shifted <;> rfl

/-- The two halves of the immediate of a shift. -/
theorem append_high_low (immr imms : BitVec 6) :
    ((immr ++ imms : BitVec 12) >>> 6).setWidth 64 = immr.setWidth 64 ∧
      ((immr ++ imms : BitVec 12) &&& 0x3f).setWidth 64 = imms.setWidth 64 := by
  have hmask : (0x3f : BitVec 12).toNat = 2 ^ 6 - 1 := rfl
  have hnat : (immr ++ imms : BitVec 12).toNat = immr.toNat * 64 + imms.toNat := by
    rw [BitVec.toNat_append, Nat.shiftLeft_eq, Nat.mul_comm, ← Nat.two_pow_add_eq_or_of_lt imms.isLt]
  have hlow := imms.isLt
  refine ⟨?_, ?_⟩ <;> apply BitVec.eq_of_toNat_eq
  · rw [BitVec.toNat_setWidth, BitVec.toNat_ushiftRight, hnat, Nat.shiftRight_eq_div_pow,
      BitVec.toNat_setWidth]
    omega
  · rw [BitVec.toNat_setWidth, BitVec.toNat_and, hnat, hmask, Nat.and_two_pow_sub_one_eq_mod,
      BitVec.toNat_setWidth]
    omega

section data

variable {s : Arch} {m : Machine} (h : Represents s m) (u : DataT)
include h

theorem represents_reg_iff (op : RegOp) (rd rn rm : BitVec 5)
    (hw : m.fetched = (Instr.reg op rd rn rm).encode) :
    Represents (s.finish rd (op.result (s.read rn) (s.read rm))
      (op.carry (s.read rn) (s.read rm))) (cycle u m) ↔ (op = .add → rd = xzr) := by
  have hexec := op.executedBy rd rn rm
  constructor
  · rintro hcycle rfl
    by_contra hrd
    -- the program counter has stayed where it was
    have hfield : field m.fetched 0 5 = rd := by
      rw [hw]
      exact (decodeR_rd u _).symm.trans (hexec.agree u).2.2.2
    have hdispatch : dispatch m.fetched = some ⟨11, 0x458, decodeR, executeAddEr⟩ := by
      rw [hw]
      exact hexec.dispatch
    have hpc := cycle_pc_of_addEr u h.latched hdispatch rfl
    rw [hfield, if_pos hrd, hcycle.pc, h.pc] at hpc
    have hstay : s.pc + 4 = s.pc := (congrArg (· + 4) (Arch.write_pc s rd _)).symm.trans hpc
    exact absurd (BitVec.add_right_eq_self.mp hstay) (by decide)
  · intro hadd
    refine h.of_finish hexec hw u ?_
    rw [← h.reg, ← h.reg]
    cases op with
    | subs =>
      rw [RegOp.execute, executeSubsCmpEr_eq]
      rfl
    | add =>
      obtain rfl := hadd rfl
      rfl
    | _ => rfl

theorem represents_addImm (rd rn : Reg) (imm : BitVec 12) (shifted : Bool)
    (hw : m.fetched = (Instr.addImm rd rn imm shifted).encode) :
    Represents (s.finish rd (s.read rn + shiftedImm imm shifted) none) (cycle u m) := by
  have hexec : (immEncoding 0x91 rd rn imm shifted).ExecutedBy executeAddImm :=
    ⟨by simp [instructions, immEncoding, Format.decode], rfl,
      (readsOnly_aluImm (fun a b => a + b) false).mono (by simp [immEncoding, Format.fields])⟩
  refine h.of_finish hexec hw u ?_
  rw [← h.reg]
  exact aluImm_immEncoding m _ false _ _ _ _ _

theorem represents_addsImm (rd : BitVec 5) (rn : Reg) (imm : BitVec 12) (shifted : Bool)
    (hw : m.fetched = (Instr.addsImm rd rn imm shifted).encode) :
    Represents (s.finish rd (s.read rn + shiftedImm imm shifted)
      (some (addCarry (s.read rn) (shiftedImm imm shifted)))) (cycle u m) := by
  have hexec : (immEncoding 0xb1 rd rn imm shifted).ExecutedBy executeAddsImm :=
    ⟨by simp [instructions, immEncoding, Format.decode], rfl,
      (readsOnly_aluImm (fun a b => a + b) true).mono (by simp [immEncoding, Format.fields])⟩
  refine h.of_finish hexec hw u ?_
  rw [← h.reg]
  exact aluImm_immEncoding m _ true _ _ _ _ _

theorem represents_subsImm (rd : BitVec 5) (rn : Reg) (imm : BitVec 12) (shifted : Bool)
    (hw : m.fetched = (Instr.subsImm rd rn imm shifted).encode) :
    Represents (s.finish rd (s.read rn - shiftedImm imm shifted)
      (some (subCarry (s.read rn) (shiftedImm imm shifted)))) (cycle u m) := by
  have hexec : (immEncoding 0xf1 rd rn imm shifted).ExecutedBy executeSubsCmpImm :=
    ⟨by simp [instructions, immEncoding, Format.decode], rfl,
      (readsOnly_aluImm (fun a b => a + ~~~b + 1) true).mono
        (by simp [immEncoding, Format.fields])⟩
  refine h.of_finish hexec hw u ?_
  rw [← h.reg, executeSubsCmpImm_eq]
  exact aluImm_immEncoding m _ true _ _ _ _ _

theorem represents_shift {immr imms : BitVec 6} {rd rn : BitVec 5} {v : BitVec 64}
    (hw : m.fetched = (shiftEncoding immr imms rd rn).word)
    (hv : v = if imms ≠ 63 then s.read rn <<< shiftCount (64 - immr.setWidth 64)
      else s.read rn >>> shiftCount (immr.setWidth 64)) :
    Represents (s.finish rd v none) (cycle u m) := by
  have hexec : (shiftEncoding immr imms rd rn).ExecutedBy executeLslLsrImm :=
    ⟨by simp [instructions, shiftEncoding, Format.decode], rfl, readsOnly_executeLslLsrImm⟩
  have himms : ∀ x : BitVec 6, x.setWidth 64 ≠ 0x3f ↔ x ≠ 63 := by decide
  obtain ⟨hhigh, hlow⟩ := append_high_low immr imms
  refine h.of_finish hexec hw u ?_
  rw [hv, ← h.reg]
  simp only [executeLslLsrImm, shiftEncoding, hhigh, hlow, himms]
  rfl

theorem represents_lsl (rd rn : BitVec 5) (amount : BitVec 6)
    (hw : m.fetched = (Instr.lsl rd rn amount).encode) :
    Represents (s.finish rd (s.read rn <<< amount.toNat) none) (cycle u m) := by
  refine represents_shift h u hw ?_
  by_cases hzero : amount = 0
  · subst hzero
    rw [if_neg (by decide)]
    exact (BitVec.shiftLeft_zero _).trans (BitVec.ushiftRight_zero _).symm
  · have hne : ∀ a : BitVec 6, a ≠ 0 → 63 - a ≠ 63 ∧
        shiftCount (64 - (-a).setWidth 64) = a.toNat := by decide
    rw [if_pos (hne amount hzero).1, (hne amount hzero).2]

theorem represents_lsr (rd rn : BitVec 5) (amount : BitVec 6)
    (hw : m.fetched = (Instr.lsr rd rn amount).encode) :
    Represents (s.finish rd (s.read rn >>> amount.toNat) none) (cycle u m) := by
  refine represents_shift h u hw ?_
  have hcount : ∀ a : BitVec 6, shiftCount (a.setWidth 64) = a.toNat := by decide
  rw [if_neg (not_not_intro rfl), hcount]

theorem represents_movz (rd : BitVec 5) (imm : BitVec 16)
    (hw : m.fetched = (Instr.movz rd imm).encode) :
    Represents (s.finish rd (imm.setWidth 64) none) (cycle u m) := by
  have hexec : (Instr.movz rd imm).encoding.ExecutedBy executeMovz :=
    ⟨by simp [instructions, Instr.encoding, Format.decode], rfl, readsOnly_executeMovz⟩
  exact h.of_finish hexec hw u rfl

theorem represents_hlt (imm : BitVec 16) (hw : m.fetched = (Instr.hlt imm).encode) :
    Represents { s.next with halted := true } (cycle u m) := by
  have hexec : (Instr.hlt imm).encoding.ExecutedBy executeHlt :=
    ⟨by simp [instructions, Instr.encoding, Format.decode], rfl,
      readsOnly_executeHlt.mono (by simp [Instr.encoding, Format.fields])⟩
  exact h.of_halt hexec hw u rfl

end data

/-! ## Memory -/

namespace Width

def store : Width → DataT → Machine → Machine
  | .byte => executeSturb
  | .half => executeSturh
  | .doubleword => executeStur

def read : Width → Memory → BitVec 64 → BitVec 64
  | .byte => readLdurb
  | .half => readLdurh
  | .doubleword => readLdur

def load (w : Width) : DataT → Machine → Machine := Arm.load w.read

/-- What the simulator makes of the number that is loaded. -/
def extended : Width → BitVec 64 → BitVec 64
  | .byte, v => v
  | .half, v => (v.setWidth 16).signExtend 64
  | .doubleword, v => v

theorem bytes_pos (w : Width) : 0 < w.bytes ∧ w.bytes ≤ 8 := by cases w <;> decide

theorem store_executedBy (w : Width) (rt : BitVec 5) (rn : Reg) (imm : BitVec 9) :
    (memEncoding w.storeOpcode rt rn imm).ExecutedBy w.store := by
  refine ⟨?_, ?_, ?_⟩
  · cases w <;> simp [instructions, memEncoding, storeOpcode, store, Format.decode]
  · cases w <;> rfl
  · cases w <;> simp only [store, executeSturb, executeSturh, executeStur] <;>
      exact readsOnly_store _

theorem load_executedBy (w : Width) (rt : BitVec 5) (rn : Reg) (imm : BitVec 9) :
    (memEncoding w.loadOpcode rt rn imm).ExecutedBy w.load := by
  refine ⟨?_, ?_, readsOnly_load _⟩
  · cases w <;>
      simp [instructions, memEncoding, loadOpcode, load, read, Format.decode, executeLdur,
        executeLdurb, executeLdurh]
  · cases w <;> rfl

/-- What a store does to the memory. -/
theorem exists_store (w : Width) {d : DataT} (hop : d.op = 0) (m : Machine) :
    ∃ mem, w.store d m = { m with mem := mem } ∧
      ∀ r : Region, r.Holds (address d m).toNat w.bytes →
        m.mem.WritesBytes mem r ((address d m).toNat - r.start) w.bytes
          (m.currentState.reg d.rt) := by
  cases w with
  | byte => exact ⟨_, if_pos hop, fun r hr => sturb_writes m.mem _ hr⟩
  | half => exact ⟨_, if_pos hop, fun r hr => sturh_writes m.mem _ hr⟩
  | doubleword => exact ⟨_, if_pos hop, fun r hr => stur_writes m.mem _ hr⟩

theorem load_eq (w : Width) {d : DataT} (hop : d.op = 0) (m : Machine) :
    w.load d m =
      { m with nextState := m.nextState.setReg d.rt (w.read m.mem (address d m)) } := if_pos hop

/-- **What a load reads**, as a number. -/
theorem read_eq (w : Width) (mem : Memory) {a : BitVec 64} {r : Region}
    (hr : r.Holds a.toNat w.bytes) :
    w.read mem a =
      w.extended (BitVec.ofNat 64 (leValue (fun k => mem r (a.toNat - r.start + k)) w.bytes)) := by
  cases w with
  | byte =>
    refine (readLdurb_eq mem hr).trans (BitVec.eq_of_toNat_eq ?_)
    rw [BitVec.toNat_setWidth, extended, BitVec.toNat_ofNat, Width.bytes, leValue, leValue,
      Nat.add_zero, Nat.pow_zero, Nat.mul_one, Nat.zero_add]
  | half =>
    refine congrArg (BitVec.signExtend 64) (ext_byteOf (show 16 ≤ 8 * 2 by decide) fun k hk => ?_)
    have hbyte := byteOf_readLdurh mem hr hk
    rw [readLdurh, byteOf_signExtend _ (by omega) (by decide)] at hbyte
    rw [hbyte, byteOf_setWidth _ (by omega), Width.bytes, byteOf_ofNat_leValue _ hk (by decide)]
  | doubleword =>
    refine ext_byteOf (show 64 ≤ 8 * 8 by decide) fun k hk => ?_
    rw [read, byteOf_readLdur mem hr hk, extended, Width.bytes,
      byteOf_ofNat_leValue _ hk (Nat.le_refl 64)]

theorem extended_eq_zero {w : Width} {v : BitVec 64} (hv : v.toNat < 256 ^ w.bytes)
    (h : w.extended v = 0) : v = 0 := by
  cases w with
  | half =>
    have hlt : v.toNat < 2 ^ 16 := hv
    have hzero : v.setWidth 16 = 0 := by
      refine ext_byteOf (show 16 ≤ 8 * 2 by decide) fun k hk => ?_
      have hbyte : byteOf ((v.setWidth 16).signExtend 64) k = byteOf (v.setWidth 16) k :=
        byteOf_signExtend _ (by omega) (by decide)
      rw [← hbyte, byteOf_zero]
      exact (congrArg (byteOf · k) h).trans (byteOf_zero k)
    have hnat := congrArg BitVec.toNat hzero
    rw [BitVec.toNat_setWidth, Nat.mod_eq_of_lt hlt] at hnat
    exact BitVec.eq_of_toNat_eq hnat
  | _ => exact h

/-- A half word survives if it has no sign. -/
theorem extended_eq_self_iff {w : Width} {v : BitVec 64} (hv : v.toNat < 256 ^ w.bytes) :
    w.extended v = v ↔ (w = .half → v.toNat < 2 ^ 15) := by
  cases w with
  | half =>
    have hlt : v.toNat < 2 ^ 16 := hv
    have hback : (v.setWidth 16).setWidth 64 = v := by
      refine BitVec.eq_of_toNat_eq ?_
      rw [BitVec.toNat_setWidth, BitVec.toNat_setWidth, Nat.mod_eq_of_lt hlt,
        Nat.mod_eq_of_lt v.isLt]
    have hiff := signExtend_eq_setWidth_iff (show 16 < 64 by decide) (v.setWidth 16)
    rw [hback, BitVec.msb_eq_decide, decide_eq_false_iff_not, BitVec.toNat_setWidth,
      Nat.mod_eq_of_lt hlt, Nat.not_le] at hiff
    rw [extended, hiff]
    exact ⟨fun h _ => h, fun h => h rfl⟩
  | _ => exact iff_of_true rfl nofun

end Width

section memory

variable {s : Arch} {m : Machine} (h : Represents s m) (u : DataT)
include h

theorem address_memEncoding (opcode : BitVec 32) (rt : BitVec 5) (rn : Reg) (imm : BitVec 9) :
    (address (memEncoding opcode rt rn imm).operands m).toNat = s.effective rn imm := by
  rw [address, Arch.effective, ← h.reg]
  exact congrArg _ (congrArg _ (signExtend_setWidth imm (by decide)))

theorem represents_stur {s' : Arch} (w : Width) (rt : BitVec 5) (rn : Reg) (imm : BitVec 9)
    (hs' : s.store (s.effective rn imm) w.bytes (s.read rt) = some s')
    (hw : m.fetched = (Instr.stur w rt rn imm).encode) : Represents s'.next (cycle u m) := by
  obtain ⟨mem, hstore, hbytes⟩ := w.exists_store
    (d := (memEncoding w.storeOpcode rt rn imm).operands) rfl m
  rw [address_memEncoding h] at hbytes
  refine h.of_store (w.store_executedBy rt rn imm) hw u w.bytes_pos.1 w.bytes_pos.2 hstore hs' ?_
  rw [← h.reg]
  exact hbytes

/-- What the architecture loads is in the bytes of a region. -/
theorem load_eq_some {a n : Nat} {v : BitVec 64} (hn : 0 < n) (h8 : n ≤ 8)
    (hv : s.load a n = some v) : ∃ r : Region, r.Holds a n ∧
      v = BitVec.ofNat 64 (leValue (fun k => m.mem r (a - r.start + k)) n) := by
  unfold Arch.load at hv
  split at hv
  · rename_i hmapped
    obtain ⟨r, hr⟩ := exists_holds h.mem hn h8 hmapped
    refine ⟨r, hr, (Option.some.inj hv).symm.trans (congrArg _ ?_)⟩
    exact leValue_congr fun k hk => byte_of_holds h.mem hr hk
  · cases hv

theorem represents_ldur_iff {v : BitVec 64} (w : Width) (rt : BitVec 5) (rn : Reg)
    (imm : BitVec 9) (hv : s.load (s.effective rn imm) w.bytes = some v)
    (hw : m.fetched = (memEncoding w.loadOpcode rt rn imm).word) :
    Represents (s.write rt v).next (cycle u m) ↔
      (rt = xzr → v = 0) ∧ (w = .half → v.toNat < 2 ^ 15) := by
  have hexec := w.load_executedBy rt rn imm
  obtain ⟨r, hr, hvalue⟩ := load_eq_some h w.bytes_pos.1 w.bytes_pos.2 hv
  have hlt : v.toNat < 256 ^ w.bytes := by
    rw [hvalue, BitVec.toNat_ofNat]
    exact Nat.lt_of_le_of_lt (Nat.mod_le _ _) (leValue_lt _ _)
  have hload : w.load (memEncoding w.loadOpcode rt rn imm).operands m =
      { m with nextState := m.nextState.setReg rt (w.extended v) } := by
    have haddress := address_memEncoding h w.loadOpcode rt rn imm
    rw [← haddress] at hr hvalue
    rw [w.load_eq rfl, w.read_eq m.mem hr, ← hvalue]
    rfl
  rw [← Width.extended_eq_self_iff hlt]
  constructor
  · intro hcycle
    have hreg := hcycle.reg rt
    rw [cycle_reg u (hw ▸ hexec.dispatch), hexec.result u hw, hload, CpuState.reg_setReg, if_pos rfl,
      Arch.read_next, Arch.read_write] at hreg
    by_cases hrt : rt = xzr
    · rw [if_neg (fun hne => hne.1 hrt), hrt] at hreg
      have hzero := Width.extended_eq_zero hlt (hreg.trans (dif_neg (not_not_intro rfl)))
      refine ⟨fun _ => hzero, ?_⟩
      rw [hzero]
      cases w <;> rfl
    · rw [if_pos ⟨hrt, rfl⟩] at hreg
      exact ⟨fun heq => absurd heq hrt, hreg⟩
  · rintro ⟨hzero, hself⟩
    rw [hself] at hload
    exact h.of_load hexec hw u hzero hload

end memory

end Acso.Arm
