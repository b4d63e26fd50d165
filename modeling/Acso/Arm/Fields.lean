import Acso.Arm.Sim

/-!
# The fields of `instruction_data`

`process_instruction` does not initialise its `instruction_data`, and every decoder fills some
of the fields only.  The table pairs decoders and executors so that it makes no difference.

* `Writes`: what a decoder leaves in a field comes from the word alone.
* `ReadsOnly`: an executor does the same on any two contents that agree on some fields.
* `rows_paired`: in every row, the executor reads only fields that the decoder writes.
* `processInstruction_eq`: so what `instruction_data` holds before does not matter.
-/

namespace Acso.Arm

/-- The members of `data_t`. -/
inductive DataField
  | op
  | shift
  | rm
  | rn
  | rd
  | rt
  | shamt
  | dtAddress
  | aluImmediate
  | movImmediate
  | condBrAddress
  | brAddress
  deriving DecidableEq

namespace DataField

def width : DataField → Nat
  | op | shift => 2
  | rm | rn | rd | rt => 5
  | shamt => 6
  | dtAddress => 9
  | aluImmediate => 12
  | movImmediate => 16
  | condBrAddress => 19
  | brAddress => 26

def get : (f : DataField) → DataT → BitVec f.width
  | op, d => d.op
  | shift, d => d.shift
  | rm, d => d.rm
  | rn, d => d.rn
  | rd, d => d.rd
  | rt, d => d.rt
  | shamt, d => d.shamt
  | dtAddress, d => d.dtAddress
  | aluImmediate, d => d.aluImmediate
  | movImmediate, d => d.movImmediate
  | condBrAddress, d => d.condBrAddress
  | brAddress, d => d.brAddress

end DataField

/-- What the decoder leaves in the field does not depend on what was there. -/
def Writes (decode : DataT → BitVec 32 → DataT) (f : DataField) : Prop :=
  ∀ d d' w, f.get (decode d w) = f.get (decode d' w)

/-- The two contents agree on these fields. -/
def DataT.AgreeOn (fields : List DataField) (d d' : DataT) : Prop := ∀ f ∈ fields, f.get d = f.get d'

/-- The executor reads no other fields than these. -/
def ReadsOnly (execute : DataT → Machine → Machine) (fields : List DataField) : Prop :=
  ∀ d d' m, d.AgreeOn fields d' → execute d m = execute d' m

/-- Every field that the executor reads is one that the decoder writes. -/
def Instruction.Paired (row : Instruction) : Prop :=
  ∃ fields, ReadsOnly row.execute fields ∧ ∀ f ∈ fields, Writes row.decode f

/-! ## What the decoders write -/

theorem writes_decodeR : ∀ f ∈ [DataField.rm, .shamt, .rn, .rd], Writes decodeR f := by
  simp only [List.forall_mem_cons, List.not_mem_nil, false_implies, implies_true, and_true]
  and_intros <;> exact fun _ _ _ => rfl

theorem writes_decodeI : ∀ f ∈ [DataField.shift, .aluImmediate, .rn, .rd], Writes decodeI f := by
  simp only [List.forall_mem_cons, List.not_mem_nil, false_implies, implies_true, and_true]
  and_intros <;> exact fun _ _ _ => rfl

theorem writes_decodeD : ∀ f ∈ [DataField.dtAddress, .op, .rn, .rt], Writes decodeD f := by
  simp only [List.forall_mem_cons, List.not_mem_nil, false_implies, implies_true, and_true]
  and_intros <;> exact fun _ _ _ => rfl

theorem writes_decodeB : ∀ f ∈ [DataField.brAddress], Writes decodeB f := by
  intro f hf d d' w
  rw [List.mem_singleton.mp hf]
  rfl

theorem writes_decodeCb : ∀ f ∈ [DataField.condBrAddress, .rt], Writes decodeCb f := by
  simp only [List.forall_mem_cons, List.not_mem_nil, false_implies, implies_true, and_true]
  and_intros <;> exact fun _ _ _ => rfl

theorem writes_decodeIw : ∀ f ∈ [DataField.movImmediate, .rd], Writes decodeIw f := by
  simp only [List.forall_mem_cons, List.not_mem_nil, false_implies, implies_true, and_true]
  and_intros <;> exact fun _ _ _ => rfl

/-! ## What the executors read -/

/-- Less may be read than is named. -/
theorem ReadsOnly.mono {execute : DataT → Machine → Machine} {fields fields' : List DataField}
    (h : ReadsOnly execute fields) (hsub : fields ⊆ fields') : ReadsOnly execute fields' := by
  intro d d' m hagree
  apply h
  intro f hf
  exact hagree f (hsub hf)

theorem readsOnly_executeB : ReadsOnly executeB [.brAddress] := by
  intro d d' m h
  have hbr : d.brAddress = d'.brAddress := h .brAddress (by decide)
  rw [executeB, executeB, hbr]

theorem readsOnly_executeBCond : ReadsOnly executeBCond [.condBrAddress, .rt] := by
  intro d d' m h
  have hbr : d.condBrAddress = d'.condBrAddress := h .condBrAddress (by decide)
  have hrt : d.rt = d'.rt := h .rt (by decide)
  rw [executeBCond, executeBCond, condOffset, condOffset, hbr, hrt]

theorem readsOnly_compareBranch (test : BitVec 64 → Bool) :
    ReadsOnly (compareBranch test) [.condBrAddress, .rt] := by
  intro d d' m h
  have hbr : d.condBrAddress = d'.condBrAddress := h .condBrAddress (by decide)
  have hrt : d.rt = d'.rt := h .rt (by decide)
  rw [compareBranch, compareBranch, condOffset, condOffset, hbr, hrt]

theorem readsOnly_executeBr : ReadsOnly executeBr [.rm, .shamt, .rn, .rd] := by
  intro d d' m h
  have hrm : d.rm = d'.rm := h .rm (by decide)
  have hshamt : d.shamt = d'.shamt := h .shamt (by decide)
  have hrn : d.rn = d'.rn := h .rn (by decide)
  have hrd : d.rd = d'.rd := h .rd (by decide)
  rw [executeBr, executeBr, hrm, hshamt, hrn, hrd]

theorem readsOnly_aluReg (op : BitVec 64 → BitVec 64 → BitVec 64) (flags : Bool) :
    ReadsOnly (aluReg op flags) [.rm, .rn, .rd] := by
  intro d d' m h
  have hrm : d.rm = d'.rm := h .rm (by decide)
  have hrn : d.rn = d'.rn := h .rn (by decide)
  have hrd : d.rd = d'.rd := h .rd (by decide)
  rw [aluReg, aluReg, hrm, hrn, hrd]

theorem readsOnly_aluImm (op : BitVec 64 → BitVec 64 → BitVec 64) (flags : Bool) :
    ReadsOnly (aluImm op flags) [.shift, .aluImmediate, .rn, .rd] := by
  intro d d' m h
  have hshift : d.shift = d'.shift := h .shift (by decide)
  have himm : d.aluImmediate = d'.aluImmediate := h .aluImmediate (by decide)
  have hrn : d.rn = d'.rn := h .rn (by decide)
  have hrd : d.rd = d'.rd := h .rd (by decide)
  rw [aluImm, aluImm, hshift, himm, hrn, hrd]

theorem readsOnly_executeLslLsrImm :
    ReadsOnly executeLslLsrImm [.aluImmediate, .rn, .rd] := by
  intro d d' m h
  have himm : d.aluImmediate = d'.aluImmediate := h .aluImmediate (by decide)
  have hrn : d.rn = d'.rn := h .rn (by decide)
  have hrd : d.rd = d'.rd := h .rd (by decide)
  rw [executeLslLsrImm, executeLslLsrImm, himm, hrn, hrd]

theorem readsOnly_executeAddEr : ReadsOnly executeAddEr [.rm, .rn, .rd] := by
  intro d d' m h
  have hrm : d.rm = d'.rm := h .rm (by decide)
  have hrn : d.rn = d'.rn := h .rn (by decide)
  have hrd : d.rd = d'.rd := h .rd (by decide)
  rw [executeAddEr, executeAddEr, hrm, hrn, hrd]

theorem readsOnly_executeMul : ReadsOnly executeMul [.rm, .shamt, .rn, .rd] := by
  intro d d' m h
  have hshamt : d.shamt = d'.shamt := h .shamt (by decide)
  have halu : aluReg (fun a b => a * b) false d m = aluReg (fun a b => a * b) false d' m :=
    (readsOnly_aluReg _ false).mono (by decide) d d' m h
  rw [executeMul, executeMul, hshamt, halu]

theorem readsOnly_executeMovz : ReadsOnly executeMovz [.movImmediate, .rd] := by
  intro d d' m h
  have himm : d.movImmediate = d'.movImmediate := h .movImmediate (by decide)
  have hrd : d.rd = d'.rd := h .rd (by decide)
  rw [executeMovz, executeMovz, himm, hrd]

theorem address_of_agree {d d' : DataT} (h : d.AgreeOn [.dtAddress, .op, .rn, .rt] d')
    (m : Machine) : address d m = address d' m := by
  have haddress : d.dtAddress = d'.dtAddress := h .dtAddress (by decide)
  have hrn : d.rn = d'.rn := h .rn (by decide)
  rw [address, address, haddress, hrn]

theorem readsOnly_store (write : Memory → BitVec 64 → BitVec 64 → Memory) :
    ReadsOnly (store write) [.dtAddress, .op, .rn, .rt] := by
  intro d d' m h
  have hop : d.op = d'.op := h .op (by decide)
  have hrt : d.rt = d'.rt := h .rt (by decide)
  rw [store, store, address_of_agree h, hop, hrt]

theorem readsOnly_load (read : Memory → BitVec 64 → BitVec 64) :
    ReadsOnly (load read) [.dtAddress, .op, .rn, .rt] := by
  intro d d' m h
  have hop : d.op = d'.op := h .op (by decide)
  have hrt : d.rt = d'.rt := h .rt (by decide)
  rw [load, load, address_of_agree h, hop, hrt]

theorem readsOnly_executeHlt : ReadsOnly executeHlt [.rd] := by
  intro d d' m h
  have hrd : d.rd = d'.rd := h .rd (by decide)
  rw [executeHlt, executeHlt, hrd]

/-! ## The rows -/

/-- A row of the table, from what its two functions do. -/
theorem paired_of {decode : DataT → BitVec 32 → DataT} {execute : DataT → Machine → Machine}
    {written read : List DataField} (hwrites : ∀ f ∈ written, Writes decode f)
    (hreads : ReadsOnly execute read) (hsub : read ⊆ written) (l : Nat) (opcode : BitVec 32) :
    Instruction.Paired ⟨l, opcode, decode, execute⟩ :=
  ⟨written, hreads.mono hsub, hwrites⟩

theorem paired_aluReg (op : BitVec 64 → BitVec 64 → BitVec 64) (flags : Bool) :
    ∀ l opcode, Instruction.Paired ⟨l, opcode, decodeR, aluReg op flags⟩ :=
  paired_of writes_decodeR (readsOnly_aluReg op flags) (by decide)

theorem paired_aluImm (op : BitVec 64 → BitVec 64 → BitVec 64) (flags : Bool) :
    ∀ l opcode, Instruction.Paired ⟨l, opcode, decodeI, aluImm op flags⟩ :=
  paired_of writes_decodeI (readsOnly_aluImm op flags) (by decide)

theorem paired_compareBranch (test : BitVec 64 → Bool) :
    ∀ l opcode, Instruction.Paired ⟨l, opcode, decodeCb, compareBranch test⟩ :=
  paired_of writes_decodeCb (readsOnly_compareBranch test) (by decide)

theorem paired_store (write : Memory → BitVec 64 → BitVec 64 → Memory) :
    ∀ l opcode, Instruction.Paired ⟨l, opcode, decodeD, store write⟩ :=
  paired_of writes_decodeD (readsOnly_store write) (by decide)

theorem paired_load (read : Memory → BitVec 64 → BitVec 64) :
    ∀ l opcode, Instruction.Paired ⟨l, opcode, decodeD, load read⟩ :=
  paired_of writes_decodeD (readsOnly_load read) (by decide)

/-- **Decoders and executors fit together**, over the whole table. -/
theorem rows_paired : ∀ row ∈ instructions, row.Paired := by
  simp only [instructions, List.forall_mem_cons, List.not_mem_nil, false_implies, implies_true,
    and_true]
  refine ⟨paired_of writes_decodeB readsOnly_executeB (by decide) _ _, paired_aluReg _ _ _ _,
    paired_aluReg _ _ _ _, paired_aluReg _ _ _ _, paired_aluImm _ _ _ _, paired_aluImm _ _ _ _,
    paired_aluImm _ _ _ _, paired_of writes_decodeCb readsOnly_executeBCond (by decide) _ _,
    paired_compareBranch _ _ _, paired_compareBranch _ _ _,
    paired_of writes_decodeI readsOnly_executeLslLsrImm (by decide) _ _, paired_aluReg _ _ _ _,
    paired_aluReg _ _ _ _, paired_of writes_decodeR readsOnly_executeBr (by decide) _ _,
    paired_of writes_decodeR readsOnly_executeAddEr (by decide) _ _,
    paired_of writes_decodeR readsOnly_executeMul (by decide) _ _, paired_store _ _ _,
    paired_store _ _ _, paired_store _ _ _, paired_load _ _ _, paired_load _ _ _,
    paired_load _ _ _, paired_of writes_decodeIw readsOnly_executeHlt (by decide) _ _,
    paired_of writes_decodeIw readsOnly_executeMovz (by decide) _ _⟩

/-- A paired row does not depend on what the locals hold before. -/
theorem Instruction.Paired.execute_decode {row : Instruction} (h : row.Paired) (u u' : DataT)
    (w : BitVec 32) (m : Machine) :
    row.execute (row.decode u w) m = row.execute (row.decode u' w) m := by
  obtain ⟨fields, hreads, hwrites⟩ := h
  apply hreads
  intro f hf
  exact hwrites f hf u u' w

theorem processInstruction_eq (u u' : DataT) (m : Machine) :
    processInstruction u m = processInstruction u' m := by
  unfold processInstruction
  dsimp only
  cases hd : dispatch (memRead32 m.mem m.currentState.pc) with
  | none => rfl
  | some row =>
    have hpaired := rows_paired row (List.mem_of_find?_eq_some hd)
    exact congrArg Machine.updatePc (hpaired.execute_decode u u' _ m)

/-- **Uninitialised fields do not matter.**  From one machine, `process_instruction` makes the same
machine of any two contents of `instruction_data`, since every executor of the table reads only
what its decoder writes. -/
theorem instructionData_irrelevant :
    (∀ (instructionData instructionData' : DataT) (m : Machine),
      processInstruction instructionData m = processInstruction instructionData' m) ∧
    ∀ row ∈ instructions, ∃ fields : List DataField,
      ReadsOnly row.execute fields ∧ ∀ f ∈ fields, Writes row.decode f :=
  ⟨processInstruction_eq, rows_paired⟩

end Acso.Arm
