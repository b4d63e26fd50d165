import Acso.Arm.Loader
import Acso.Arm.Running

/-!
# The bytes behind the regions

Each region has three bytes more than its size, for accesses that start at its last
bytes.  `initMemory` does not clear them, so such an access reads what `malloc` has
returned.  Two machines whose memories agree up to these bytes, the three included,
stay that way (`Twins.cycle`), and two initialisations give the same runs exactly if
`malloc` has returned the same bytes there (`run_sameView_iff`).
-/

namespace Acso.Arm

open Acso.Lib

/-! ## Memories that agree -/

/-- The two memories agree in all bytes that are allocated. -/
def Memory.Agrees (mem mem' : Memory) : Prop := ∀ r o, o < r.size + 3 → mem r o = mem' r o

theorem memRead32_congr {mem mem' : Memory} (h : mem.Agrees mem') (address : BitVec 64) :
    memRead32 mem address = memRead32 mem' address := by
  unfold memRead32
  cases hr : regionAt address.toNat with
  | none => rfl
  | some r =>
    have hbyte : ∀ k < 4, mem r (address.toNat - r.start + k) = mem' r (address.toNat - r.start + k) :=
      fun k hk => h r _ ((regionAt_eq_some.mp hr).offset_lt hk)
    dsimp only
    rw [hbyte 3 (by decide), hbyte 2 (by decide), hbyte 1 (by decide), hbyte 0 (by decide)]

theorem Memory.Agrees.write {mem mem' : Memory} (h : mem.Agrees mem') (address : BitVec 64)
    (value : BitVec 32) : (memWrite32 mem address value).Agrees (memWrite32 mem' address value) := by
  cases hr : regionAt address.toNat with
  | none => rwa [memWrite32_of_unmapped _ _ hr, memWrite32_of_unmapped _ _ hr]
  | some r =>
    have hc := regionAt_eq_some.mp hr
    intro r' o ho
    rw [memWrite32_apply mem value hc, memWrite32_apply mem' value hc]
    split
    · rfl
    · exact h r' o ho

theorem Memory.Agrees.loadWords {mem mem' : Memory} (h : mem.Agrees mem') (ii : Nat)
    (words : List (BitVec 32)) :
    (Arm.loadWords ii words mem).Agrees (Arm.loadWords ii words mem') := by
  induction words generalizing ii mem mem' with
  | nil => exact h
  | cons word words ih => exact ih (h.write _ _) (ii + 4)

/-! ## Machines that agree -/

/-- Two machines that differ in bytes that are not allocated at most. -/
structure Twins (m m' : Machine) : Prop where
  same : m' = { m with mem := m'.mem }
  mem : m.mem.Agrees m'.mem

/-- The memory plays no part in what `f` does. -/
def Memoryless (f : Machine → Machine) : Prop :=
  ∀ m mem, f { m with mem := mem } = { f m with mem := mem }

theorem Memoryless.twins {f : Machine → Machine} (hf : Memoryless f) {m m' : Machine}
    (h : Twins m m') : Twins (f m) (f m') := by
  have hmem : ∀ m, (f m).mem = m.mem := by
    intro m
    have h := congrArg Machine.mem (hf m m.mem)
    exact h
  refine ⟨?_, ?_⟩
  · rw [hmem m', ← hf m m'.mem, ← h.same]
  · rw [hmem m, hmem m']
    exact h.mem

/-- A store that writes alike in memories that agree. -/
theorem Twins.store {write : Memory → BitVec 64 → BitVec 64 → Memory}
    (hwrite : ∀ {mem mem' : Memory}, mem.Agrees mem' → ∀ a v, (write mem a v).Agrees (write mem' a v))
    {m m' : Machine} (h : Twins m m') (d : DataT) : Twins (store write d m) (store write d m') := by
  have hm := h.same
  unfold Arm.store
  split
  · rw [hm]
    exact ⟨rfl, hwrite h.mem _ _⟩
  · exact h

/-- A load that reads alike in memories that agree. -/
theorem Twins.load {read : Memory → BitVec 64 → BitVec 64}
    (hread : ∀ {mem mem' : Memory}, mem.Agrees mem' → ∀ a, read mem a = read mem' a)
    {m m' : Machine} (h : Twins m m') (d : DataT) : Twins (load read d m) (load read d m') := by
  have hm := h.same
  unfold Arm.load
  split
  · rw [hm]
    refine ⟨?_, h.mem⟩
    rw [hread h.mem]
    rfl
  · exact h

theorem memoryless_aluReg (op : BitVec 64 → BitVec 64 → BitVec 64) (flags : Bool) (d : DataT) :
    Memoryless (aluReg op flags d) := fun _ _ => rfl

theorem memoryless_aluImm (op : BitVec 64 → BitVec 64 → BitVec 64) (flags : Bool) (d : DataT) :
    Memoryless (aluImm op flags d) := fun _ _ => rfl

theorem memoryless_executeBCond (d : DataT) : Memoryless (executeBCond d) := by
  intro m mem
  unfold executeBCond
  dsimp only
  split_ifs <;> rfl

theorem memoryless_compareBranch (test : BitVec 64 → Bool) (d : DataT) :
    Memoryless (compareBranch test d) := by
  intro m mem
  unfold compareBranch
  dsimp only
  split <;> rfl

theorem memoryless_executeBr (d : DataT) : Memoryless (executeBr d) := by
  intro m mem
  unfold executeBr
  split <;> rfl

theorem memoryless_executeAddEr (d : DataT) : Memoryless (executeAddEr d) := by
  intro m mem
  unfold executeAddEr
  dsimp only
  split <;> rfl

theorem memoryless_executeMul (d : DataT) : Memoryless (executeMul d) := by
  intro m mem
  unfold executeMul
  split <;> rfl

theorem memoryless_executeHlt (d : DataT) : Memoryless (executeHlt d) := by
  intro m mem
  unfold executeHlt
  split <;> rfl

/-- **Every row** takes machines that agree to machines that agree. -/
theorem Twins.execute : ∀ row ∈ instructions, ∀ (d : DataT) (m m' : Machine), Twins m m' →
    Twins (row.execute d m) (row.execute d m') := by
  simp only [instructions, List.forall_mem_cons, List.not_mem_nil, false_implies, implies_true,
    and_true]
  refine ⟨fun d m m' => Memoryless.twins fun _ _ => rfl,
    fun d m m' => (memoryless_aluReg _ _ d).twins, fun d m m' => (memoryless_aluReg _ _ d).twins,
    fun d m m' => (memoryless_aluReg _ _ d).twins, fun d m m' => (memoryless_aluImm _ _ d).twins,
    fun d m m' => (memoryless_aluImm _ _ d).twins, fun d m m' => (memoryless_aluImm _ _ d).twins,
    fun d m m' => (memoryless_executeBCond d).twins,
    fun d m m' => (memoryless_compareBranch _ d).twins,
    fun d m m' => (memoryless_compareBranch _ d).twins,
    fun d m m' => Memoryless.twins fun _ _ => rfl, fun d m m' => (memoryless_aluReg _ _ d).twins,
    fun d m m' => (memoryless_aluReg _ _ d).twins, fun d m m' => (memoryless_executeBr d).twins,
    fun d m m' => (memoryless_executeAddEr d).twins, fun d m m' => (memoryless_executeMul d).twins,
    ?_, ?_, ?_, ?_, ?_, ?_, fun d m m' => (memoryless_executeHlt d).twins,
    fun d m m' => Memoryless.twins fun _ _ => rfl⟩
  · intro d m m' h
    refine h.store (fun hmem a v => ?_) d
    exact (hmem.write _ _).write _ _
  · intro d m m' h
    refine h.store (fun hmem a v => ?_) d
    rw [memRead32_congr hmem]
    exact hmem.write _ _
  · intro d m m' h
    refine h.store (fun hmem a v => ?_) d
    rw [memRead32_congr hmem]
    exact hmem.write _ _
  · intro d m m' h
    refine h.load (fun hmem a => ?_) d
    rw [readLdur, readLdur, memRead32_congr hmem, memRead32_congr hmem]
  · intro d m m' h
    refine h.load (fun hmem a => ?_) d
    rw [readLdurb, readLdurb, memRead32_congr hmem]
  · intro d m m' h
    refine h.load (fun hmem a => ?_) d
    rw [readLdurh, readLdurh, memRead32_congr hmem]

theorem Twins.fetched {m m' : Machine} (h : Twins m m') : m'.fetched = m.fetched := by
  have hm := h.same
  rw [Machine.fetched, Machine.fetched, memRead32_congr h.mem, hm]

/-- **One cycle** takes machines that agree to machines that agree. -/
theorem Twins.cycle {m m' : Machine} (h : Twins m m') (u : DataT) :
    Twins (Arm.cycle u m) (Arm.cycle u m') := by
  have hfetched := h.fetched
  have hlatch : Memoryless fun m : Machine =>
      { m with currentState := m.nextState, instructionCount := m.instructionCount + 1 } :=
    fun _ _ => rfl
  refine hlatch.twins ?_
  unfold processInstruction
  rw [← Machine.fetched, ← Machine.fetched, hfetched]
  dsimp only
  cases hd : dispatch m.fetched with
  | none => exact h
  | some row =>
    have hupdate : Memoryless Machine.updatePc := by
      intro m mem
      rw [updatePc_eq, updatePc_eq]
    exact hupdate.twins (Twins.execute row (dispatch_eq_some.mp hd).1 _ m m' h)

theorem Twins.turn {m m' : Machine} (h : Twins m m') : Twins (Arm.turn m) (Arm.turn m') := by
  have hrun : m'.runBit = m.runBit := by rw [h.same]
  rw [Arm.turn, Arm.turn, hrun]
  split
  · exact h.cycle default
  · exact h

theorem Twins.run {m m' : Machine} (h : Twins m m') (u : Nat → DataT) (numCycles : Int) :
    Twins (Arm.run u numCycles m) (Arm.run u numCycles m') := by
  rw [run_eq_iterate, run_eq_iterate]
  generalize numCycles.toNat = n
  induction n generalizing m m' with
  | zero => exact h
  | succ n ih =>
    rw [Function.iterate_succ_apply, Function.iterate_succ_apply]
    exact ih h.turn

/-! ## Two initialisations -/

/-- What can be seen of the two machines is the same. -/
structure SameView (m m' : Machine) : Prop where
  state : m'.currentState = m.currentState
  runBit : m'.runBit = m.runBit
  read : ∀ address, memRead32 m'.mem address = memRead32 m.mem address

theorem Twins.sameView {m m' : Machine} (h : Twins m m') : SameView m m' where
  state := by rw [h.same]
  runBit := by rw [h.same]
  read := fun address => (memRead32_congr h.mem address).symm

/-- `malloc` has returned the same bytes behind the regions. -/
def SameSlack (garbage garbage' : Memory) : Prop :=
  ∀ r : Region, ∀ k < 3, garbage r (r.size + k) = garbage' r (r.size + k)

/-- The memory after loading the programs. -/
def loadAll (programs : List (List (BitVec 32))) (mem : Memory) : Memory :=
  programs.foldl (fun mem words => loadWords 0 words mem) mem

theorem initializeMachine_mem (garbage : Memory) (programs : List (List (BitVec 32))) :
    (initializeMachine garbage programs).mem = loadAll programs (initMemory garbage) := by
  cases programs with
  | nil => rfl
  | cons words programs =>
    rw [initializeMachine_eq_boot]
    rfl

theorem initializeMachine_same (garbage garbage' : Memory) (programs : List (List (BitVec 32))) :
    initializeMachine garbage' programs =
      { initializeMachine garbage programs with
        mem := (initializeMachine garbage' programs).mem } := by
  cases programs with
  | nil => rfl
  | cons words programs =>
    rw [initializeMachine_eq_boot, initializeMachine_eq_boot]
    rfl

theorem Memory.Agrees.loadAll {mem mem' : Memory} (h : mem.Agrees mem')
    (programs : List (List (BitVec 32))) :
    (Arm.loadAll programs mem).Agrees (Arm.loadAll programs mem') := by
  induction programs generalizing mem mem' with
  | nil => exact h
  | cons words programs ih => exact ih (h.loadWords 0 words)

/-- A program that fits into the text region leaves the bytes behind the regions alone. -/
theorem loadWords_slack (r : Region) {o : Nat} (ho : r.size ≤ o) (words : List (BitVec 32)) (ii : Nat)
    (hfit : ii + 4 * words.length ≤ memTextSize) (mem : Memory) :
    loadWords ii words mem r o = mem r o := by
  rw [loadWords_apply words ii hfit mem, if_neg]
  rintro ⟨rfl, -, hlt⟩
  have hsize : memTextSize ≤ o := ho
  omega

theorem loadAll_slack (r : Region) {o : Nat} (ho : r.size ≤ o) (programs : List (List (BitVec 32)))
    (hfit : ∀ words ∈ programs, words.length ≤ 0x40000) (mem : Memory) :
    loadAll programs mem r o = mem r o := by
  induction programs generalizing mem with
  | nil => rfl
  | cons words programs ih =>
    have hwords := hfit words (by simp)
    show loadAll programs (loadWords 0 words mem) r o = mem r o
    rw [ih (fun words' h => hfit words' (by simp [h])),
      loadWords_slack r ho words 0 (by rw [memTextSize]; omega)]

/-- A read at the last byte of a region sees the bytes behind it. -/
theorem sameSlack_of_read {garbage garbage' : Memory} {programs : List (List (BitVec 32))}
    (hfit : ∀ words ∈ programs, words.length ≤ 0x40000)
    (h : ∀ address, memRead32 (initializeMachine garbage' programs).mem address =
      memRead32 (initializeMachine garbage programs).mem address) : SameSlack garbage garbage' := by
  intro r k hk
  have hpos : 0 < r.size := by cases r <;> decide
  have haddress : (BitVec.ofNat 64 (r.start + r.size - 1)).toNat = r.start + r.size - 1 := by
    cases r <;> rfl
  have hc : r.Contains (BitVec.ofNat 64 (r.start + r.size - 1)).toNat := by
    rw [haddress]
    exact ⟨by omega, by omega⟩
  have hoffset : (BitVec.ofNat 64 (r.start + r.size - 1)).toNat - r.start + (k + 1) = r.size + k := by
    rw [haddress]
    omega
  have hslack : ∀ g : Memory, byteOf (memRead32 (initializeMachine g programs).mem
      (BitVec.ofNat 64 (r.start + r.size - 1))) (k + 1) = g r (r.size + k) := by
    intro g
    rw [byteOf_memRead32 _ hc (by omega), hoffset, initializeMachine_mem,
      loadAll_slack r (Nat.le_add_right _ _) programs hfit, initMemory, if_neg (by omega)]
  rw [← hslack garbage, ← hslack garbage', h]

/-- **Two initialisations** look the same after every number of cycles if and only if
`malloc` has returned the same bytes behind the regions. -/
theorem run_sameView_iff (garbage garbage' : Memory) (programs : List (List (BitVec 32)))
    (hfit : ∀ words ∈ programs, words.length ≤ 0x40000) :
    (∀ (u : Nat → DataT) (n : Nat), SameView (run u n (initializeMachine garbage programs))
      (run u n (initializeMachine garbage' programs))) ↔ SameSlack garbage garbage' := by
  constructor
  · intro h r k hk
    exact sameSlack_of_read hfit (fun address => (h (fun _ => default) 0).read address) r k hk
  · intro h u n
    have hmem : (initMemory garbage).Agrees (initMemory garbage') := by
      intro r o ho
      rw [initMemory, initMemory]
      by_cases hlt : o < r.size
      · rw [if_pos hlt, if_pos hlt]
      · have hk := h r (o - r.size) (by omega)
        rw [if_neg hlt, if_neg hlt]
        rwa [Nat.add_sub_cancel' (Nat.not_lt.mp hlt)] at hk
    have htwins : Twins (initializeMachine garbage programs)
        (initializeMachine garbage' programs) := by
      refine ⟨initializeMachine_same _ _ _, ?_⟩
      rw [initializeMachine_mem, initializeMachine_mem]
      exact hmem.loadAll programs
    exact (htwins.run u n).sameView

/-- `movz x1, #0x1010; lsl x1, x1, #16; ldur x2, [x1, #-3]`: the last three bytes of
the data region and the first one behind it. -/
def ldurSlackProgram : List (BitVec 32) := [0xd2820201, 0xd370bc21, 0xf85fd022]

theorem ldurSlackProgram_sameView :
    SameView (run (fun _ => default) 3 (initializeMachine (fun _ _ => 0) [ldurSlackProgram]))
      (run (fun _ => default) 3
        (initializeMachine (fun r o => if o < r.size then 0xff else 0) [ldurSlackProgram])) := by
  refine (run_sameView_iff _ _ [ldurSlackProgram] ?_).mpr ?_ _ 3
  · intro words hwords
    rw [List.mem_singleton.mp hwords]
    decide
  · intro r k hk
    show (0 : Byte) = if r.size + k < r.size then 0xff else 0
    rw [if_neg (by omega)]

/-- What `malloc` returns behind the data region ends up in `x2`. -/
theorem ldurSlackProgram_differs :
    ¬ ∀ (garbage garbage' : Memory) (programs : List (List (BitVec 32))),
      (∀ words ∈ programs, words.length ≤ 0x40000) → ∀ (u : Nat → DataT) (n : Nat),
        SameView (run u n (initializeMachine garbage programs))
          (run u n (initializeMachine garbage' programs)) := by
  intro h
  have hfit : ∀ words ∈ [ldurSlackProgram], words.length ≤ 0x40000 := by
    intro words hwords
    rw [List.mem_singleton.mp hwords]
    decide
  have hview := h (fun _ _ => 0) (fun _ _ => 0xff) [ldurSlackProgram] hfit (fun _ => default) 3
  have hreg := congrArg (fun s => CpuState.reg s 2) hview.state
  revert hreg
  decide

end Acso.Arm
