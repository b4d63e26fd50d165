import Acso.Arm.StoreLoad

/-!
# Half words

STURH stores the two low bytes of a register and LDURH reads them back, but through
an `int16_t`: bit 15 fills the register above them.  So a half word comes back
extended with zeros exactly if its bit 15 is clear (`sturh_ldurh_iff`).
-/

namespace Acso.Arm

open Acso.Lib

/-- **LDURH extends the sign** of the half word at its address. -/
theorem Machine.Loads.reg_of_two (u : DataT) {m : Machine} {r : Region} (h : m.Loads 2 r)
    {x : BitVec 64} (hx : ∀ k < 2, m.mem r (m.target.toNat - r.start + k) = byteOf x k) :
    (cycle u m).currentState.reg m.rt = (x.setWidth 16).signExtend 64 := by
  have hread : readOf (m.fetched >>> 21) = some readLdurh := by
    have hw := h.width
    unfold loadWidth at hw
    split_ifs at hw with h8 h1 h2 <;> cases hw
    rw [h2]
    rfl
  have hlow : ∀ k < 2, byteOf (readLdurh m.mem m.target) k = byteOf x k := by
    intro k hk
    rw [byteOf_readLdurh m.mem h.holds hk, hx k hk]
  rw [Machine.rt, cycle_load u hread h.op]
  refine congrArg (BitVec.signExtend 64) (ext_byteOf (Nat.le_refl (8 * 2)) ?_)
  intro k hk
  have hbyte := hlow k hk
  rw [readLdurh, byteOf_signExtend _ (by omega) (by decide)] at hbyte
  rw [byteOf_setWidth x (by omega), ← hbyte]
  rfl

/-- **A half word survives the round trip** through memory if and only if its bit 15 is
clear. -/
theorem sturh_ldurh_iff (u u' : DataT) (m t : Machine) (r : Region) (hstore : m.Stores 2 r)
    (hmem : t.mem = (cycle u m).mem) (hload : t.Loads 2 r) (htarget : t.target = m.target) :
    (cycle u' t).currentState.reg t.rt = ((m.currentState.reg m.rt).setWidth 16).setWidth 64 ↔
      (m.currentState.reg m.rt).getLsbD 15 = false := by
  have hbytes : ∀ k < 2, t.mem r (t.target.toNat - r.start + k) =
      byteOf (m.currentState.reg m.rt) k := by
    intro k hk
    rw [hmem, htarget, hstore.writes u, if_pos ⟨rfl, by omega, by omega⟩, Nat.add_sub_cancel_left]
  rw [hload.reg_of_two u' hbytes, signExtend_eq_setWidth_iff (by decide)]
  simp [BitVec.msb_eq_getLsbD_last]

/-- About to execute `sturh w2, [x1]; ldurh w3, [x1]` with `x1` the third byte of the data
region. -/
def halfWordMachine (v : BitVec 64) : Machine :=
  let start : CpuState :=
    { (zeroState.setReg 1 0x10000002).setReg 2 v with pc := BitVec.ofNat 64 memTextStart }
  { boot (loadWords 0 [0x78000022, 0x78400023] fun _ _ => 0) with
    currentState := start, nextState := start }

theorem halfWordMachine_survives :
    (cycle default (cycle default (halfWordMachine 0x1234))).currentState.reg 3 =
        (((halfWordMachine 0x1234).currentState.reg 2).setWidth 16).setWidth 64 ↔
      ((halfWordMachine 0x1234).currentState.reg 2).getLsbD 15 = false :=
  sturh_ldurh_iff default default (halfWordMachine 0x1234) (cycle default (halfWordMachine 0x1234))
    .data ⟨by decide, by decide, by decide, by decide⟩ rfl
    ⟨by decide, by decide, by decide, by decide⟩ (by decide)

/-- The half word `0xabcd` comes back as `0xffffffffffffabcd`. -/
theorem halfWordMachine_breaks :
    ¬ ∀ (u u' : DataT) (m t : Machine) (r : Region), m.Stores 2 r → t.mem = (cycle u m).mem →
      t.Loads 2 r → t.target = m.target → t.rt ≠ xzr →
        (cycle u' t).currentState.reg t.rt = ((m.currentState.reg m.rt).setWidth 16).setWidth 64 := by
  intro h
  have hreg := h default default (halfWordMachine 0xabcd) (cycle default (halfWordMachine 0xabcd))
    .data ⟨by decide, by decide, by decide, by decide⟩ rfl
    ⟨by decide, by decide, by decide, by decide⟩ (by decide) (by decide)
  revert hreg
  decide

end Acso.Arm
