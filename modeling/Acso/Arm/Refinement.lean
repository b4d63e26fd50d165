import Mathlib.Data.List.GetD
import Acso.Lib.Simulation
import Acso.Arm.Instructions
import Acso.Arm.Running

/-!
# The simulator refines the architecture

`Modelled` are the instructions that the simulator executes as the architecture means them, in a
state; the others are those of five defects: ADD with a destination, a condition that holds and is
not in the switch of `execute_b_cond`, one that is there and depends on `V`, a load into `XZR` and a
load of a half word with its sign bit.

* `represents_cycle_iff`: one cycle keeps up with an instruction exactly if it is `Modelled`.
* `simulator_refines_iff`: `run` keeps up with a run of the architecture, instruction by
  instruction, exactly if all of them are.
* `represents_start`: a program that is loaded starts as it does in the architecture.
-/

namespace Acso.Arm

open Acso.Lib

/-- What the simulator executes as the architecture does. -/
def Modelled (s : Arch) : Instr → Prop
  | .reg .add rd _ _ => rd = xzr
  | .bCond cond imm => s.holds cond = s.switched cond ∨ imm = 1
  | .ldur w rt rn imm => ∀ v ∈ s.load (s.effective rn imm) w.bytes,
    (rt = xzr → v = 0) ∧ (w = .half → v.toNat < 2 ^ 15)
  | _ => True

instance (s : Arch) : (i : Instr) → Decidable (Modelled s i)
  | .reg .add _ _ _ => inferInstanceAs (Decidable (_ = _))
  | .reg .ands _ _ _ | .reg .eor _ _ _ | .reg .orr _ _ _ | .reg .adds _ _ _ | .reg .subs _ _ _
  | .reg .mul _ _ _ => inferInstanceAs (Decidable True)
  | .bCond _ _ => inferInstanceAs (Decidable (_ ∨ _))
  | .ldur _ _ _ _ => inferInstanceAs (Decidable (∀ v ∈ Arch.load _ _ _, _))
  | .b _ | .cbz _ _ | .cbnz _ _ | .br _ | .addImm _ _ _ _ | .addsImm _ _ _ _ | .subsImm _ _ _ _
  | .lsl _ _ _ | .lsr _ _ _ | .movz _ _ | .stur _ _ _ _ | .hlt _ => inferInstanceAs (Decidable True)

/-! ## Runs -/

/-- **A cycle keeps up with an instruction** exactly if it is `Modelled`. -/
theorem represents_cycle_iff {s s' : Arch} {m : Machine} {i : Instr} (h : Represents s m)
    (u : DataT) (hw : m.fetched = i.encode) (hs' : i.exec s = some s') :
    Represents s' (cycle u m) ↔ Modelled s i := by
  cases i with
  | b imm =>
    obtain rfl := Option.some.inj hs'
    exact iff_of_true (represents_b h u imm hw) trivial
  | bCond cond imm =>
    obtain rfl := Option.some.inj hs'
    exact represents_bCond_iff h u cond imm hw
  | cbz rt imm =>
    obtain rfl := Option.some.inj hs'
    exact iff_of_true (represents_cbz h u rt imm hw) trivial
  | cbnz rt imm =>
    obtain rfl := Option.some.inj hs'
    exact iff_of_true (represents_cbnz h u rt imm hw) trivial
  | br rn =>
    obtain rfl := Option.some.inj hs'
    exact iff_of_true (represents_br h u rn hw) trivial
  | reg op rd rn rm =>
    obtain rfl := Option.some.inj hs'
    rw [represents_reg_iff h u op rd rn rm hw]
    cases op <;> simp [Modelled]
  | addImm rd rn imm shifted =>
    obtain rfl := Option.some.inj hs'
    exact iff_of_true (represents_addImm h u rd rn imm shifted hw) trivial
  | addsImm rd rn imm shifted =>
    obtain rfl := Option.some.inj hs'
    exact iff_of_true (represents_addsImm h u rd rn imm shifted hw) trivial
  | subsImm rd rn imm shifted =>
    obtain rfl := Option.some.inj hs'
    exact iff_of_true (represents_subsImm h u rd rn imm shifted hw) trivial
  | lsl rd rn amount =>
    obtain rfl := Option.some.inj hs'
    exact iff_of_true (represents_lsl h u rd rn amount hw) trivial
  | lsr rd rn amount =>
    obtain rfl := Option.some.inj hs'
    exact iff_of_true (represents_lsr h u rd rn amount hw) trivial
  | movz rd imm =>
    obtain rfl := Option.some.inj hs'
    exact iff_of_true (represents_movz h u rd imm hw) trivial
  | stur w rt rn imm =>
    obtain ⟨s₁, hs₁, rfl⟩ := Option.map_eq_some_iff.mp hs'
    exact iff_of_true (represents_stur h u w rt rn imm hs₁ hw) trivial
  | ldur w rt rn imm =>
    obtain ⟨v, hv, rfl⟩ := Option.map_eq_some_iff.mp hs'
    rw [represents_ldur_iff h u w rt rn imm hv hw, Modelled, hv]
    simp only [Option.mem_def, Option.some.injEq, forall_eq']
  | hlt imm =>
    obtain rfl := Option.some.inj hs'
    exact iff_of_true (represents_hlt h u imm hw) trivial

/-- So does a turn of the loop. -/
theorem represents_turn_iff (s : Arch) (i : Instr) (s' : Arch) (m : Machine) (h : Represents s m)
    (hs' : archSystem.step s i = some s') : Represents s' (turn m) ↔ Modelled s i := by
  obtain ⟨hhalted, hfetch, hexec⟩ := archSystem_step.mp hs'
  have hrun : m.runBit = true := by rw [h.runBit, hhalted, Bool.not_false]
  rw [turn_of_running default hrun]
  exact represents_cycle_iff h default (h.fetched hfetch) hexec

/-- **The simulator refines the architecture**, as far as it does.  Where the machine shows a
state from which the architecture takes a run of instructions, `run` over the same number of
cycles shows the state after each of them exactly if the simulator executes all of them as it
should. -/
theorem simulator_refines_iff (s s' : Arch) (m : Machine) (is : List Instr) (h : Represents s m)
    (hs' : archSystem.run s is = some s') :
    (∀ k ≤ is.length, ∀ r, archSystem.run s (is.take k) = some r →
      ∀ u, Represents r (run u k m)) ↔ archSystem.Along Modelled s is := by
  rw [← archSystem.keepsUp_iff_along represents_turn_iff h hs']
  simp only [System.KeepsUp, run_eq_iterate, Int.toNat_natCast]
  exact forall_congr' fun k => forall_congr' fun _ => forall_congr' fun r => forall_congr' fun _ =>
    ⟨fun hall => hall default, fun hk _ => hk⟩

/-! ## Programs -/

/-- The state in which a program starts: its words are in the text region, and all other mapped
bytes are zero. -/
def Arch.start (words : List (BitVec 32)) : Arch where
  pc := BitVec.ofNat 64 memTextStart
  x := fun _ => 0
  flagN := false
  flagZ := false
  flagC := false
  flagV := false
  mem := fun a => (regionAt a).map fun r =>
    let offset := a - r.start
    if r = .text ∧ offset < 4 * words.length then
      byteOf (words.getD (offset / 4) 0) (offset % 4)
    else 0
  halted := false

/-- The words lie at the start of the text region, and everything else is zero. -/
def HoldsWords (words : List (BitVec 32)) (mem : Memory) : Prop :=
  ∀ (r : Region), ∀ offset < r.size, mem r offset =
    if r = .text ∧ offset < 4 * words.length then
      byteOf (words.getD (offset / 4) 0) (offset % 4)
    else 0

theorem holdsWords_nil (garbage : Memory) : HoldsWords [] (initMemory garbage) := by
  intro r offset hoffset
  rw [initMemory, if_pos hoffset, if_neg (fun h => absurd h.2 (Nat.not_lt_zero _))]

/-- Words that are loaded lie over those from before. -/
theorem HoldsWords.loadWords {under words : List (BitVec 32)} {mem : Memory}
    (h : HoldsWords under mem) (hfit : words.length ≤ 0x40000) :
    HoldsWords (words ++ under.drop words.length) (loadWords 0 words mem) := by
  intro r offset hoffset
  have hsize : 0 + 4 * words.length ≤ memTextSize := by
    rw [memTextSize]
    omega
  rw [loadWords_apply words 0 hsize, h r offset hoffset, List.length_append, List.length_drop]
  simp only [Nat.zero_le, true_and, Nat.zero_add, Nat.sub_zero]
  by_cases hr : r = .text
  · simp only [hr, true_and]
    by_cases hover : offset < 4 * words.length
    · rw [if_pos hover, if_pos (by omega), List.getD_append _ _ _ _ (by omega)]
    · have hdrop : words.length + (offset / 4 - words.length) = offset / 4 := by omega
      rw [if_neg hover, List.getD_append_right _ _ _ _ (by omega), List.getD_eq_getElem?_getD,
        List.getD_eq_getElem?_getD, List.getElem?_drop, hdrop]
      exact if_congr (by omega) rfl rfl
  · simp only [hr, false_and, if_false]

/-- **The machine just started** shows the state in which the program starts. -/
theorem represents_boot {words : List (BitVec 32)} {mem : Memory} (h : HoldsWords words mem) :
    Represents (.start words) (boot mem) := by
  refine ⟨boot_latched _, rfl, rfl, ?_, rfl, rfl, ?_⟩
  · intro r
    have hzero : zeroState.reg r = 0 := Vector.getElem_replicate _
    refine hzero.trans ?_
    unfold Arch.read
    split <;> rfl
  · intro a
    refine Option.map_congr fun r hr => ?_
    obtain ⟨hlo, hhi⟩ := regionAt_eq_some.mp hr
    exact h r _ (by omega)

/-- **The loader puts the program where it starts.** -/
theorem represents_start (garbage : Memory) {words : List (BitVec 32)}
    (hfit : words.length ≤ 0x40000) :
    Represents (.start words) (initializeMachine garbage [words]) := by
  have hwords := (holdsWords_nil garbage).loadWords hfit
  rw [List.drop_nil, List.append_nil] at hwords
  rw [initializeMachine_eq_boot]
  exact represents_boot hwords

/-- After `movz x1, #2; add x2, x1, x1` the simulator is elsewhere. -/
theorem doubling_departs :
    ¬ ∀ k ≤ 2, ∀ r, archSystem.run (.start ([.movz 1 2, .reg .add 2 1 1].map Instr.encode))
        ([.movz 1 2, .reg .add 2 1 1].take k) = some r →
      ∀ u, Represents r (run u k (initializeMachine (fun _ _ => 0)
        [[.movz 1 2, .reg .add 2 1 1].map Instr.encode])) := by
  have hsome : (archSystem.run (.start ([.movz 1 2, .reg .add 2 1 1].map Instr.encode))
      [.movz 1 2, .reg .add 2 1 1]).isSome = true := by decide
  obtain ⟨s', hs'⟩ := Option.isSome_iff_exists.mp hsome
  have hiff := simulator_refines_iff _ s' _ [.movz 1 2, .reg .add 2 1 1]
    (represents_start (fun _ _ => 0) (by decide)) hs'
  exact fun hall => absurd (hiff.mp hall) (by decide)

end Acso.Arm
