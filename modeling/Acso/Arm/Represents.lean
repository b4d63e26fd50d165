import Acso.Arm.Architecture
import Acso.Arm.Frame
import Acso.Arm.Loader
import Acso.Arm.StoreLoad

/-!
# What the simulator shows

`Represents s m`: the machine `m` of the simulator shows the architectural state `s`, all of it
but the flags `C` and `V`, which the simulator does not have.  The words of the architecture are fetched
(`Represents.fetched`), and the executor of their row gets their operands
(`Encoding.ExecutedBy.result`); the lemmas after this say for each kind of effect which state the
machine shows after the cycle.
-/

namespace Acso.Arm

open Acso.Lib

/-! ## The words -/

/-- The fields of a format with an opcode of `opcodeLength` bits. -/
def Format.fields (opcodeLength : Nat) : Format → List DataField
  | .r => [.rm, .shamt, .rn, .rd]
  | .i => [.aluImmediate, .rn, .rd] ++ if opcodeLength = 8 then [.shift] else []
  | .d => [.dtAddress, .op, .rn, .rt]
  | .b => [.brAddress]
  | .cb => [.condBrAddress, .rt]
  | .iw => [.movImmediate, .rd]

theorem Format.Agree.agreeOn {f : Format} {l : Nat} {x d : DataT} (h : f.Agree l x d) :
    x.AgreeOn (f.fields l) d := by
  intro g hg
  cases f with
  | i =>
    obtain ⟨himm, hrn, hrd, hshift⟩ := h
    simp only [Format.fields, List.mem_append, List.mem_cons, List.not_mem_nil, or_false] at hg
    rcases hg with (rfl | rfl | rfl) | hg
    · exact himm
    · exact hrn
    · exact hrd
    · split at hg
      · rw [List.mem_singleton.mp hg]
        exact hshift ‹_›
      · cases hg
  | r | d =>
    obtain ⟨h₁, h₂, h₃, h₄⟩ := h
    simp only [Format.fields, List.mem_cons, List.not_mem_nil, or_false] at hg
    rcases hg with rfl | rfl | rfl | rfl <;> assumption
  | cb | iw =>
    obtain ⟨h₁, h₂⟩ := h
    simp only [Format.fields, List.mem_cons, List.not_mem_nil, or_false] at hg
    rcases hg with rfl | rfl <;> assumption
  | b =>
    rw [List.mem_singleton.mp hg]
    exact h

/-- The row of the table for the words of an encoding, with its executor. -/
structure Encoding.ExecutedBy (e : Encoding) (execute : DataT → Machine → Machine) : Prop where
  mem : ⟨e.opcodeLength, e.opcode, e.format.decode, execute⟩ ∈ instructions
  format : formatOf e.opcode = e.format
  reads : ReadsOnly execute (e.format.fields e.opcodeLength)

namespace Encoding.ExecutedBy

variable {e : Encoding} {execute : DataT → Machine → Machine} (h : e.ExecutedBy execute)
include h

theorem layout : (e.format, e.opcodeLength) ∈ layouts ∧ e.opcode.toNat < 2 ^ e.opcodeLength := by
  obtain ⟨-, hlayout, hop⟩ := row_layout _ h.mem
  rw [← h.format]
  exact ⟨hlayout, hop⟩

theorem dispatch :
    Arm.dispatch e.word = some ⟨e.opcodeLength, e.opcode, e.format.decode, execute⟩ :=
  dispatch_eq_some.mpr
    ⟨h.mem, (wordOf_shiftRight e.opcode e.operands 0 h.layout.1 h.layout.2).symm⟩

theorem agree (u : DataT) :
    e.format.Agree e.opcodeLength (e.format.decode u e.word) e.operands :=
  agree_wordOf e.opcode e.operands u 0 h.layout.1

/-- **The executor gets the operands.** -/
theorem result (u : DataT) {m : Machine} (hw : m.fetched = e.word) :
    Instruction.result ⟨e.opcodeLength, e.opcode, e.format.decode, execute⟩ u m =
      execute e.operands m := by
  rw [Instruction.result, hw]
  exact h.reads _ _ m (h.agree u).agreeOn

end Encoding.ExecutedBy

/-! ## The relation -/

/-- The machine shows the state. -/
structure Represents (s : Arch) (m : Machine) : Prop where
  latched : m.Latched
  runBit : m.runBit = !s.halted
  pc : m.currentState.pc = s.pc
  reg : ∀ r, m.currentState.reg r = s.read r
  flagN : m.currentState.flagN = s.flagN
  flagZ : m.currentState.flagZ = s.flagZ
  mem : ∀ a, byteAt m.mem a = s.mem a

section memory

variable {s : Arch} {m : Machine}

/-- Mapped bytes that are close to each other are in one region. -/
theorem exists_holds (hmem : ∀ a, byteAt m.mem a = s.mem a) {a n : Nat} (hn : 0 < n) (h8 : n ≤ 8)
    (h : s.Mapped a n) : ∃ r : Region, r.Holds a n := by
  have hregion : ∀ k < n, ∃ r : Region, r.Contains (a + k) := by
    intro k hk
    have hsome := h k hk
    rw [← hmem, byteAt, Option.isSome_map] at hsome
    obtain ⟨r, hr⟩ := Option.isSome_iff_exists.mp hsome
    exact ⟨r, regionAt_eq_some.mp hr⟩
  obtain ⟨r, hfirst⟩ := hregion 0 hn
  obtain ⟨r', hlast⟩ := hregion (n - 1) (by omega)
  obtain ⟨hlo, hhi⟩ := hfirst
  obtain ⟨hlo', hhi'⟩ := hlast
  -- the regions are too far apart for the first and the last byte to be in two of them
  have heq : r = r' := by
    cases r <;> cases r' <;> first
      | rfl
      | (simp only [Region.start, Region.size, memTextStart, memTextSize, memDataStart, memDataSize,
          memStackStart, memStackSize] at *; omega)
  subst heq
  exact ⟨r, hlo, by omega⟩

/-- The bytes of the state are those of the region. -/
theorem byte_of_holds (hmem : ∀ a, byteAt m.mem a = s.mem a) {r : Region} {a n k : Nat}
    (h : r.Holds a n) (hk : k < n) : s.byte (a + k) = m.mem r (a - r.start + k) := by
  rw [Arch.byte, ← hmem, h.byteAt_add hk m.mem, Option.getD_some]

end memory

namespace Represents

variable {s : Arch} {m : Machine}

/-- **The simulator fetches what the architecture does.** -/
theorem fetched (h : Represents s m) {w : BitVec 32} (hw : s.fetch = some w) : m.fetched = w := by
  unfold Arch.fetch at hw
  split at hw
  · rename_i hmapped
    obtain ⟨r, hr⟩ := exists_holds h.mem (by decide) (by decide) hmapped
    rw [Machine.fetched, h.pc]
    refine memRead32_of_bytes (hr.contains (show 0 < 4 by decide)) fun k hk => ?_
    rw [← Option.some.inj hw, byteOf_ofNat_leValue _ hk (Nat.le_refl 32),
      byte_of_holds h.mem hr hk]
  · cases hw

/-- A cycle, by what the executor has made of the machine. -/
theorem of_result {s' : Arch} {row : Instruction} {u : DataT} {e : Machine} (h : m.Latched)
    (hd : dispatch m.fetched = some row) (he : row.result u m = e)
    (hrunBit : e.runBit = !s'.halted)
    (hpc : (if e.branchFlag then e.nextState.pc else m.currentState.pc + 4) = s'.pc)
    (hreg : ∀ r, e.nextState.reg r = s'.read r) (hN : e.nextState.flagN = s'.flagN)
    (hZ : e.nextState.flagZ = s'.flagZ) (hmem : ∀ a, byteAt e.mem a = s'.mem a) :
    Represents s' (cycle u m) := by
  subst he
  refine ⟨h.cycle u, ?_, ?_, ?_, ?_, ?_, ?_⟩
  · rw [cycle_runBit u hd, hrunBit]
  · rw [cycle_pc u hd, hpc]
  · intro r
    rw [cycle_reg u hd, hreg]
  · rw [(cycle_flags u hd).2, hN]
  · rw [(cycle_flags u hd).1, hZ]
  · intro a
    rw [cycle_mem u hd, hmem]

/-- A cycle after which only the program counter, the memory and the run bit differ. -/
theorem of_kept {row : Instruction} {u : DataT} {e : Machine} {mem : Nat → Option Byte}
    {halted : Bool} (h : Represents s m) (hd : dispatch m.fetched = some row)
    (he : row.result u m = e) (hnext : e.nextState = m.nextState)
    (hbranch : e.branchFlag = m.branchFlag) (hrunBit : e.runBit = !halted)
    (hmem : ∀ a, byteAt e.mem a = mem a) :
    Represents { s.next with mem := mem, halted := halted } (cycle u m) := by
  rw [h.latched.nextState] at hnext
  rw [h.latched.branchFlag] at hbranch
  refine of_result h.latched hd he hrunBit ?_ ?_ ?_ ?_ hmem
  · rw [hbranch, h.pc]
    rfl
  · intro r
    rw [hnext, h.reg]
    rfl
  · rw [hnext, h.flagN]
    rfl
  · rw [hnext, h.flagZ]
    rfl

section kinds

variable {enc : Encoding} {execute : DataT → Machine → Machine} (h : Represents s m)
  (hexec : enc.ExecutedBy execute) (hw : m.fetched = enc.word) (u : DataT)
include h hexec hw

/-- A branch. -/
theorem of_branch (hb : enc.opcode ∈ branchOpcodes) :
    Represents { s with pc := (takenTarget m.currentState enc.word).getD (s.pc + 4) }
      (cycle u m) := by
  have hd := hw ▸ hexec.dispatch
  have hresult := branch_result u hd hb
  have hnext := h.latched.nextState
  rw [hw] at hresult
  cases htarget : takenTarget m.currentState enc.word with
  | none =>
    rw [htarget, Machine.branchTo] at hresult
    exact h.of_kept hd hresult rfl rfl h.runBit h.mem
  | some target =>
    rw [htarget] at hresult
    refine of_result h.latched hd hresult h.runBit rfl ?_ ?_ ?_ h.mem
    · intro r
      refine Eq.trans ?_ (h.reg r)
      rw [← hnext]
      rfl
    · exact (congrArg CpuState.flagN hnext).trans h.flagN
    · exact (congrArg CpuState.flagZ hnext).trans h.flagZ

/-- An instruction that writes a register, and the flags if there are `C` and `V`. -/
theorem of_finish {rd : BitVec 5} {v : BitVec 64} {carry : Option (Bool × Bool)}
    (he : execute enc.operands m = { m with
      nextState := (if carry.isSome then m.nextState.setFlags v else m.nextState).writeReg rd v }) :
    Represents (s.finish rd v carry) (cycle u m) := by
  have hd := hw ▸ hexec.dispatch
  have hresult := hexec.result u hw
  have hnext := h.latched.nextState
  have hclear := h.latched.branchFlag
  cases carry with
  | none =>
    refine of_result h.latched hd (hresult.trans he) ?_ ?_ ?_ ?_ ?_ ?_
    · simpa [Arch.finish, Arch.next] using h.runBit
    · simp [Arch.finish, Arch.next, hclear, h.pc]
    · intro r
      simp only [Option.isSome_none, Bool.false_eq_true, if_false, Arch.finish, Arch.read_next]
      rw [CpuState.reg_writeReg, Arch.read_write, hnext, h.reg]
    · simp [Arch.finish, Arch.next, hnext, h.flagN]
    · simp [Arch.finish, Arch.next, hnext, h.flagZ]
    · simpa [Arch.finish, Arch.next] using h.mem
  | some o =>
    refine of_result h.latched hd (hresult.trans he) ?_ ?_ ?_ ?_ ?_ ?_
    · simpa [Arch.finish, Arch.next, Arch.setFlags] using h.runBit
    · simp [Arch.finish, Arch.next, Arch.setFlags, hclear, h.pc]
    · intro r
      simp only [Option.isSome_some, if_true, Arch.finish, Arch.read_next]
      rw [CpuState.reg_writeReg, Arch.read_write, CpuState.setFlags_reg, Arch.read_setFlags, hnext,
        h.reg]
    · simp [Arch.finish, Arch.next, Arch.setFlags, flagN_setFlags]
    · simp [Arch.finish, Arch.next, Arch.setFlags, CpuState.setFlags]
    · simpa [Arch.finish, Arch.next, Arch.setFlags] using h.mem

/-- A store, by the bytes that it writes. -/
theorem of_store {mem : Memory} {a n : Nat} {v : BitVec 64} {s' : Arch} (hn : 0 < n) (h8 : n ≤ 8)
    (he : execute enc.operands m = { m with mem := mem }) (hs' : s.store a n v = some s')
    (hbytes : ∀ r : Region, r.Holds a n → m.mem.WritesBytes mem r (a - r.start) n v) :
    Represents s'.next (cycle u m) := by
  have hd := hw ▸ hexec.dispatch
  have hresult := (hexec.result u hw).trans he
  unfold Arch.store at hs'
  split at hs'
  · rename_i hmapped
    obtain rfl := Option.some.inj hs'
    obtain ⟨r, hr⟩ := exists_holds h.mem hn h8 hmapped
    refine h.of_kept hd hresult rfl rfl h.runBit fun b => ?_
    rw [(hbytes r hr).byteAt hr, h.mem]
  · cases hs'

/-- A load, by the value that it reads. -/
theorem of_load {rt : BitVec 5} {v : BitVec 64} (hzero : rt = xzr → v = 0)
    (he : execute enc.operands m = { m with nextState := m.nextState.setReg rt v }) :
    Represents (s.write rt v).next (cycle u m) := by
  have hwrite : m.nextState.setReg rt v = m.nextState.writeReg rt v := by
    by_cases hrt : rt = xzr
    · -- zero is what number 31 holds anyway
      have hreg : m.nextState.reg xzr = 0 := by
        rw [h.latched.nextState, h.reg]
        exact dif_neg (not_not_intro rfl)
      rw [hzero hrt, hrt, CpuState.writeReg, if_neg (not_not_intro rfl), ← hreg,
        CpuState.setReg_reg_self]
    · rw [CpuState.writeReg, if_pos hrt]
  rw [hwrite] at he
  show Represents (s.finish rt v none) (cycle u m)
  exact of_finish h hexec hw u he

/-- HLT. -/
theorem of_halt (he : execute enc.operands m = { m with runBit := false }) :
    Represents { s.next with halted := true } (cycle u m) :=
  h.of_kept (hw ▸ hexec.dispatch) ((hexec.result u hw).trans he) rfl rfl rfl h.mem

end kinds

end Represents

end Acso.Arm
