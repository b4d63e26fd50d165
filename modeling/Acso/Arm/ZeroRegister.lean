import Acso.Arm.Rows

/-!
# The zero register

Register 31 is an ordinary cell of `REGS`, and every reader trusts it to hold
zero.  The ALU rows do not write it (`CpuState.writeReg`); the load rows do.
`cycle_xzr_iff` says that one cycle makes it nonzero exactly when the word is a
load into register 31 that finds something nonzero, and `xzr_zero_iff` that a
run keeps it zero exactly when it executes no such load.
-/

namespace Acso.Arm

open Acso.Lib

/-- The word at the program counter is an LDUR, LDURB or LDURH into register 31,
and what it reads is not zero. -/
def LoadsIntoXzr (m : Machine) : Prop :=
  match readOf (m.fetched >>> 21) with
  | some read =>
    field m.fetched 10 2 = 0 ∧ field m.fetched 0 5 = xzr ∧
      read m.mem (dataAddress m.currentState m.fetched) ≠ 0
  | none => False

theorem loadsIntoXzr_iff {m : Machine} : LoadsIntoXzr m ↔
    ∃ read, readOf (m.fetched >>> 21) = some read ∧ field m.fetched 10 2 = 0 ∧
      field m.fetched 0 5 = xzr ∧ read m.mem (dataAddress m.currentState m.fetched) ≠ 0 := by
  unfold LoadsIntoXzr
  cases readOf (m.fetched >>> 21) <;> simp

/-- **One cycle** takes register 31 away from zero exactly by a load into it. -/
theorem cycle_xzr_iff (u : DataT) {m : Machine} (hm : m.Latched)
    (hz : m.currentState.reg xzr = 0) :
    (cycle u m).currentState.reg xzr ≠ 0 ↔ LoadsIntoXzr m := by
  rw [loadsIntoXzr_iff]
  constructor
  · intro hne
    cases hd : dispatch m.fetched with
    | none =>
      rw [cycle_of_none u hd] at hne
      exact absurd (by rw [hm.nextState, hz]) hne
    | some row =>
      rw [cycle_reg u hd] at hne
      rcases (result_effect u hd).reg_xzr with heq | ⟨read, hread, hop, hrt, heq⟩
      · exact absurd (by rw [heq, hm.nextState, hz]) hne
      · have hload := dispatch_of_readOf (readOf_of_dispatch hd hread)
        obtain rfl := Option.some.inj (hd.symm.trans hload)
        rw [decodeD_op] at hop
        rw [decodeD_rt] at hrt
        rw [heq, address_decodeD] at hne
        exact ⟨read, hread, hop, hrt, hne⟩
  · rintro ⟨read, hread, hop, hrt, hne⟩
    have hload := cycle_load u hread hop
    rw [hrt] at hload
    rw [hload]
    exact hne

/-- **Along a run** from the initial state register 31 holds zero exactly as long
as no load puts something else there. -/
theorem xzr_zero_iff (mem : Memory) (us : List DataT) (m : Machine)
    (hrun : shellSystem.run (boot mem) us = some m) :
    shellSystem.Visits (fun m => m.currentState.reg xzr = 0) (boot mem) us ↔
      shellSystem.Along (fun m _ => ¬ LoadsIntoXzr m) (boot mem) us := by
  have hblame : ∀ m u m', m.Latched → ¬ m.currentState.reg xzr ≠ 0 →
      shellSystem.step m u = some m' → (m'.currentState.reg xzr ≠ 0 ↔ LoadsIntoXzr m) := by
    intro m u m' hm hb hs
    obtain ⟨-, rfl⟩ := shellSystem_step.mp hs
    exact cycle_xzr_iff u hm (not_not.mp hb)
  have h := shellSystem.visits_iff_along Machine.Latched (fun m => m.currentState.reg xzr ≠ 0)
    (fun m _ => LoadsIntoXzr m) latched_step hblame (boot_latched mem) (not_not_intro rfl) hrun
  simpa only [not_not] using h

/-- `movz x1, #0x40; lsl x1, x1, #16; ldur x31, [x1]`. -/
def ldurXzrProgram : List (BitVec 32) := [0xd2800801, 0xd370bc21, 0xf840003f]

/-- The third cycle is the load. -/
theorem ldurXzrProgram_xzr_iff :
    (shellSystem.Visits (fun m => m.currentState.reg xzr = 0)
        (boot (loadWords 0 ldurXzrProgram fun _ _ => 0)) [default, default, default] ↔
      shellSystem.Along (fun m _ => ¬ LoadsIntoXzr m)
        (boot (loadWords 0 ldurXzrProgram fun _ _ => 0)) [default, default, default]) ∧
    ¬ shellSystem.Along (fun m _ => ¬ LoadsIntoXzr m)
      (boot (loadWords 0 ldurXzrProgram fun _ _ => 0)) [default, default, default] := by
  have hiff := xzr_zero_iff (loadWords 0 ldurXzrProgram fun _ _ => 0) [default, default, default] _ rfl
  refine ⟨hiff, fun h => ?_⟩
  obtain ⟨-, h⟩ := hiff.mpr h
  obtain ⟨-, h⟩ := h _ rfl
  obtain ⟨-, h⟩ := h _ rfl
  have hz : (cycle _ _).currentState.reg xzr = 0 := h _ rfl
  revert hz
  decide

/-- Three cycles of `ldurXzrProgram` leave the first word of the program in
register 31. -/
theorem ldurXzrProgram_breaks_xzr :
    ¬ ∀ (mem : Memory) (us : List DataT) (m : Machine),
      shellSystem.run (boot mem) us = some m → m.currentState.reg xzr = 0 := by
  intro h
  have hz := h (loadWords 0 ldurXzrProgram fun _ _ => 0) [default, default, default] _ rfl
  revert hz
  decide

end Acso.Arm
