import Mathlib.Logic.Function.Iterate
import Acso.Arm.Rows

/-!
# Running

`run` counts its turns and looks at the run bit in each, `go` looks at the run
bit alone.  Both repeat one `turn`, which does nothing once the run bit is clear
(`run_eq_iterate`, `goLoop_eq`), so runs compose, and `go` ends where any run ends
that is long enough to halt (`run_go_agree`).
-/

namespace Acso.Arm

/-- One turn of either loop. -/
def turn (m : Machine) : Machine := if m.runBit then cycle default m else m

theorem turn_of_running (u : DataT) {m : Machine} (h : m.runBit = true) : turn m = cycle u m := by
  rw [turn, if_pos h]
  exact cycle_eq_cycle _ _ m

theorem turn_of_halted {m : Machine} (h : m.runBit = false) : turn m = m := by
  rw [turn, h]
  rfl

theorem iterate_turn_of_halted {m : Machine} (h : m.runBit = false) (n : Nat) :
    turn^[n] m = m := Function.iterate_fixed (turn_of_halted h) n

theorem runLoop_eq_iterate (u : Nat → DataT) (n : Nat) (m : Machine) :
    runLoop u n m = turn^[n] m := by
  induction n generalizing u m with
  | zero => rfl
  | succ n ih =>
    rw [runLoop]
    by_cases hhalt : m.runBit = false
    · rw [if_pos hhalt, iterate_turn_of_halted hhalt]
    · rw [if_neg hhalt, ih, Function.iterate_succ_apply,
        turn_of_running (u 0) (Bool.eq_true_of_not_eq_false hhalt)]

/-- **`run` repeats the turn.** -/
theorem run_eq_iterate (u : Nat → DataT) (numCycles : Int) (m : Machine) :
    run u numCycles m = turn^[numCycles.toNat] m := by
  rw [run]
  by_cases hhalt : m.runBit = false
  · rw [if_pos hhalt, iterate_turn_of_halted hhalt]
  · rw [if_neg hhalt, runLoop_eq_iterate]

/-- **`go` repeats it until the run bit is clear.** -/
theorem goLoop_eq (v : Nat → DataT) {n fuel : Nat} (hfuel : n < fuel) {m : Machine}
    (hhalt : (turn^[n] m).runBit = false) : goLoop v fuel m = some (turn^[n] m) := by
  induction n generalizing v fuel m with
  | zero =>
    obtain ⟨fuel, rfl⟩ := Nat.exists_eq_succ_of_ne_zero (Nat.ne_of_gt hfuel)
    have hm : m.runBit = false := hhalt
    rw [goLoop, hm]
    rfl
  | succ n ih =>
    obtain ⟨fuel, rfl⟩ := Nat.exists_eq_succ_of_ne_zero (Nat.ne_zero_of_lt hfuel)
    rw [goLoop]
    by_cases hrun : m.runBit = true
    · rw [if_pos hrun, ← turn_of_running (v 0) hrun]
      exact ih _ (Nat.lt_of_succ_lt_succ hfuel) hhalt
    · rw [if_neg hrun, iterate_turn_of_halted (Bool.eq_false_of_not_eq_true hrun)]

theorem go_of_halted (v : Nat → DataT) (fuel : Nat) {m : Machine} (h : m.runBit = false) :
    go v fuel m = some m := by rw [go, if_pos h]

/-- `go` ends where the turns end. -/
theorem go_eq (v : Nat → DataT) {n fuel : Nat} (hfuel : n < fuel) {m : Machine}
    (hhalt : (turn^[n] m).runBit = false) : go v fuel m = some (turn^[n] m) := by
  by_cases hm : m.runBit = false
  · rw [go_of_halted v fuel hm, iterate_turn_of_halted hm]
  · rw [go, if_neg hm, goLoop_eq v hfuel hhalt]

/-- **Runs compose, and `go` agrees with them.**  Two runs in a row are one run of
the sum of their lengths; and where some run halts, `go` halts in the same
machine, and neither `run` nor `go` changes it any more. -/
theorem run_go_agree (m : Machine) :
    (∀ (u v w : Nat → DataT) (n k : Nat), run v k (run u n m) = run w (n + k : Nat) m) ∧
    ∀ (u : Nat → DataT) (k : Int), (run u k m).runBit = false →
      (∃ enough, ∀ v fuel, enough ≤ fuel → go v fuel m = some (run u k m)) ∧
      (∀ v j, run v j (run u k m) = run u k m) ∧
      ∀ v fuel, go v fuel (run u k m) = some (run u k m) := by
  refine ⟨?_, ?_⟩
  · intro u v w n k
    rw [run_eq_iterate, run_eq_iterate, run_eq_iterate, Int.toNat_natCast, Int.toNat_natCast,
      Int.toNat_natCast, Nat.add_comm n k, Function.iterate_add_apply]
  · intro u k hhalt
    refine ⟨⟨k.toNat + 1, ?_⟩, ?_, ?_⟩
    · intro v fuel hfuel
      rw [run_eq_iterate] at hhalt ⊢
      exact go_eq v hfuel hhalt
    · intro v j
      rw [run_eq_iterate v, iterate_turn_of_halted hhalt]
    · intro v fuel
      exact go_of_halted v fuel hhalt

/-- `movz x1, #10; hlt`. -/
def haltingProgram : Machine := boot (loadWords 0 [0xd2800141, 0xd4400000] fun _ _ => 0)

theorem haltingProgram_agrees :
    (∃ enough, ∀ v fuel, enough ≤ fuel →
      go v fuel haltingProgram = some (run (fun _ => default) 2 haltingProgram)) ∧
    (run (fun _ => default) 2 haltingProgram).currentState.reg 1 = 10 := by
  have hhalt : (run (fun _ => default) 2 haltingProgram).runBit = false := by decide
  exact ⟨((run_go_agree haltingProgram).2 (fun _ => default) 2 hhalt).1, by decide⟩

end Acso.Arm
