import Acso.Arm.Rows

/-!
# Stores and loads

A store of `w` bytes is one or two 32-bit writes, for STURB and STURH of a word
that was read there before.  `stur_writes` and its two companions say
that each comes to the same thing, the `w` low bytes of the register at the
address and every other byte as it was, whatever the alignment and also at the
end of a region.  `byteOf_readLdur` and its companions say what the loads find.
-/

namespace Acso.Arm

open Acso.Lib

/-! ## The bytes a store writes -/

/-- `mem'` is `mem` with the `w` low bytes of `x` at `offset` of the region. -/
def Memory.WritesBytes (mem mem' : Memory) (r : Region) (offset w : Nat) (x : BitVec 64) : Prop :=
  ∀ r' o, mem' r' o =
    if r' = r ∧ offset ≤ o ∧ o < offset + w then byteOf x (o - offset) else mem r' o

/-- A 32-bit write of `w` new bytes below what the memory already holds. -/
theorem memWrite32_writes (mem : Memory) {address : BitVec 64} (value : BitVec 32)
    (x : BitVec 64) {r : Region} (hr : r.Contains address.toNat) {w : Nat} (hw : w ≤ 4)
    (hbytes : ∀ k < 4, byteOf value k =
      if k < w then byteOf x k else mem r (address.toNat - r.start + k)) :
    mem.WritesBytes (memWrite32 mem address value) r (address.toNat - r.start) w x := by
  intro r' o
  rw [memWrite32_apply mem value hr]
  generalize address.toNat - r.start = offset at *
  by_cases hin : r' = r ∧ offset ≤ o ∧ o < offset + 4
  · obtain ⟨rfl, hlo, hhi⟩ := hin
    rw [if_pos ⟨rfl, hlo, hhi⟩, hbytes (o - offset) (by omega), Nat.add_sub_cancel' hlo]
    by_cases hk : o - offset < w
    · rw [if_pos hk, if_pos ⟨rfl, hlo, by omega⟩]
    · rw [if_neg hk, if_neg (by omega)]
  · rw [if_neg hin, if_neg]
    rintro ⟨rfl, hlo, hhi⟩
    exact hin ⟨rfl, hlo, by omega⟩

/-- Two writes side by side. -/
theorem Memory.WritesBytes.append {mem mem₁ mem₂ : Memory} {r : Region} {offset w₁ w₂ : Nat}
    {x x₂ : BitVec 64} (h₁ : mem.WritesBytes mem₁ r offset w₁ x)
    (h₂ : mem₁.WritesBytes mem₂ r (offset + w₁) w₂ x₂)
    (hx : ∀ k < w₂, byteOf x₂ k = byteOf x (w₁ + k)) :
    mem.WritesBytes mem₂ r offset (w₁ + w₂) x := by
  intro r' o
  rw [h₂ r' o, h₁ r' o]
  by_cases hreg : r' = r
  · subst hreg
    simp only [true_and]
    by_cases hhigh : offset + w₁ ≤ o ∧ o < offset + w₁ + w₂
    · rw [if_pos hhigh, if_pos (by omega), hx _ (by omega)]
      congr 1
      omega
    · rw [if_neg hhigh]
      by_cases hlow : offset ≤ o ∧ o < offset + w₁
      · rw [if_pos hlow, if_pos (by omega)]
      · rw [if_neg hlow, if_neg (by omega)]
  · simp [hreg]

/-- What a program sees of the bytes written. -/
theorem Memory.WritesBytes.byteAt {mem mem' : Memory} {r : Region} {address w : Nat}
    {x : BitVec 64} (h : mem.WritesBytes mem' r (address - r.start) w x)
    (hr : r.Holds address w) (b : Nat) :
    Arm.byteAt mem' b =
      if address ≤ b ∧ b < address + w then some (byteOf x (b - address))
      else Arm.byteAt mem b := by
  by_cases hin : address ≤ b ∧ b < address + w
  · have hc : r.Contains b := by
      have := hr.contains (show b - address < w by omega)
      rwa [Nat.add_sub_cancel' hin.1] at this
    have hstart := hr.1
    rw [if_pos hin, byteAt_eq hc, h, if_pos ⟨rfl, by omega, by omega⟩]
    congr 2
    omega
  · rw [if_neg hin]
    cases hb : regionAt b with
    | none => simp only [Arm.byteAt, hb, Option.map_none]
    | some r' =>
      have hc := regionAt_eq_some.mp hb
      rw [byteAt_eq hc, byteAt_eq hc, h, if_neg]
      rintro ⟨rfl, hlo, hhi⟩
      have := hc.1
      have := hr.1
      exact hin ⟨by omega, by omega⟩

/-- An access inside a region does not wrap around. -/
theorem Region.Holds.toNat_add {r : Region} {address : BitVec 64} {w k : Nat}
    (h : r.Holds address.toNat w) (hk : k ≤ w) :
    (address + BitVec.ofNat 64 k).toNat = address.toNat + k := by
  have hlt : r.start + r.size < 2 ^ 64 := by cases r <;> decide
  have := h.2
  rw [BitVec.toNat_add, BitVec.toNat_ofNat, Nat.mod_eq_of_lt (a := k) (by omega),
    Nat.mod_eq_of_lt (by omega)]

section stores

variable (mem : Memory) {address : BitVec 64} {r : Region} (x : BitVec 64)

theorem byteOf_low_mask : ∀ k < 4, byteOf (0xffffffff : BitVec 64) k = BitVec.allOnes 8 := by decide

theorem byteOf_byte_masks : ∀ k < 4,
    byteOf (0xff : BitVec 64) k = (if k < 1 then BitVec.allOnes 8 else 0) ∧
      byteOf (0xffffff00 : BitVec 32) k = if k < 1 then 0 else BitVec.allOnes 8 := by decide

theorem byteOf_half_masks : ∀ k < 4,
    byteOf (0xffff : BitVec 64) k = (if k < 2 then BitVec.allOnes 8 else 0) ∧
      byteOf (0xffff0000 : BitVec 32) k = if k < 2 then 0 else BitVec.allOnes 8 := by decide

/-- STUR, as the two words it writes. -/
theorem stur_writes (hr : r.Holds address.toNat 8) :
    mem.WritesBytes
      (memWrite32 (memWrite32 mem address ((x &&& 0xffffffff).setWidth 32)) (address + 4)
        ((x >>> 32).setWidth 32))
      r (address.toNat - r.start) 8 x := by
  have hc : r.Contains address.toNat := hr.contains (show 0 < 8 by decide)
  have hnext : (address + 4).toNat = address.toNat + 4 := hr.toNat_add (show 4 ≤ 8 by decide)
  have hc' : r.Contains (address + 4).toNat := hnext ▸ hr.contains (show 4 < 8 by decide)
  have hsplit : (address + 4).toNat - r.start = address.toNat - r.start + 4 := by
    have := hc.1
    omega
  have hlow := memWrite32_writes mem ((x &&& 0xffffffff).setWidth 32) x hc (Nat.le_refl 4)
    fun k hk => by
      rw [byteOf_setWidth _ (by omega), byteOf_and, byteOf_low_mask k hk, BitVec.and_allOnes,
        if_pos hk]
  have hhigh := memWrite32_writes (memWrite32 mem address ((x &&& 0xffffffff).setWidth 32))
    ((x >>> 32).setWidth 32) (x >>> 32) hc' (Nat.le_refl 4) fun k hk => by
      rw [byteOf_setWidth _ (by omega), if_pos hk]
  rw [hsplit] at hhigh
  exact hlow.append hhigh fun k _ => byteOf_ushiftRight x 4 k

/-- STURB: the byte, in front of the three bytes read behind it. -/
theorem sturb_writes (hr : r.Holds address.toNat 1) :
    mem.WritesBytes
      (memWrite32 mem address
        ((x &&& 0xff).setWidth 32 ||| (memRead32 mem address &&& 0xffffff00)))
      r (address.toNat - r.start) 1 x := by
  have hc : r.Contains address.toNat := hr.contains (show 0 < 1 by decide)
  refine memWrite32_writes mem _ x hc (by decide) ?_
  intro k hk
  rw [byteOf_or, byteOf_setWidth _ (by omega), byteOf_and, byteOf_and, (byteOf_byte_masks k hk).1,
    (byteOf_byte_masks k hk).2, byteOf_memRead32 mem hc hk, select_byte]

/-- STURH: the two bytes, in front of the two bytes read behind them. -/
theorem sturh_writes (hr : r.Holds address.toNat 2) :
    mem.WritesBytes
      (memWrite32 mem address
        (((x &&& 0xffff) ||| (memRead32 mem address &&& 0xffff0000).setWidth 64).setWidth 32))
      r (address.toNat - r.start) 2 x := by
  have hc : r.Contains address.toNat := hr.contains (show 0 < 2 by decide)
  refine memWrite32_writes mem _ x hc (by decide) ?_
  intro k hk
  rw [byteOf_setWidth _ (by omega), byteOf_or, byteOf_setWidth _ (by omega), byteOf_and,
    byteOf_and, (byteOf_half_masks k hk).1, (byteOf_half_masks k hk).2,
    byteOf_memRead32 mem hc hk, select_byte]

end stores

/-! ## The bytes a load reads -/

section loads

variable (mem : Memory) {address : BitVec 64} {r : Region}

/-- LDUR, as the two words it reads. -/
theorem byteOf_readLdur (hr : r.Holds address.toNat 8) {k : Nat} (hk : k < 8) :
    byteOf (readLdur mem address) k = mem r (address.toNat - r.start + k) := by
  have hc : r.Contains address.toNat := hr.contains (show 0 < 8 by decide)
  have hnext : (address + 4).toNat = address.toNat + 4 := hr.toNat_add (show 4 ≤ 8 by decide)
  have hc' : r.Contains (address + 4).toNat := hnext ▸ hr.contains (show 4 < 8 by decide)
  rw [readLdur, byteOf_or, byteOf_setWidth _ (by omega)]
  by_cases hlow : k < 4
  · rw [byteOf_memRead32 mem hc hlow, byteOf_shiftLeft_lt _ (j := 4) hlow]
    exact BitVec.or_zero
  · have hstart := hc.1
    rw [byteOf_of_width_le _ (by omega), byteOf_shiftLeft_ge _ (j := 4) (by omega) (by omega),
      byteOf_setWidth _ (by omega), byteOf_memRead32 mem hc' (by omega), hnext]
    have hpos : address.toNat + 4 - r.start + (k - 4) = address.toNat - r.start + k := by omega
    rw [hpos]
    exact BitVec.zero_or

/-- LDURB keeps the low byte of the word it reads. -/
theorem readLdurb_eq (hr : r.Holds address.toNat 1) :
    readLdurb mem address = (mem r (address.toNat - r.start)).setWidth 64 := by
  have hc : r.Contains address.toNat := hr.contains (show 0 < 1 by decide)
  rw [readLdurb, setWidth_eq_byteOf, byteOf_and, byteOf_memRead32 mem hc (by decide)]
  exact congrArg _ (BitVec.and_allOnes)

/-- LDURH keeps the two low bytes of the word it reads, and extends their sign. -/
theorem byteOf_readLdurh (hr : r.Holds address.toNat 2) {k : Nat} (hk : k < 2) :
    byteOf (readLdurh mem address) k = mem r (address.toNat - r.start + k) := by
  have hc : r.Contains address.toNat := hr.contains (show 0 < 2 by decide)
  have hmask : ∀ k < 2, byteOf (0xFFFF : BitVec 32) k = BitVec.allOnes 8 := by decide
  rw [readLdurh, byteOf_signExtend _ (by omega) (by decide), byteOf_setWidth _ (by omega),
    byteOf_and, hmask k hk, BitVec.and_allOnes, byteOf_memRead32 mem hc (by omega)]

end loads

/-! ## The instructions -/

/-- The number of bytes STUR, STURB and STURH write. -/
def storeWidth (opcode : BitVec 32) : Option Nat :=
  if opcode = 0x7c0 then some 8
  else if opcode = 0x1c0 then some 1
  else if opcode = 0x3c0 then some 2
  else none

/-- The number of bytes LDUR, LDURB and LDURH read. -/
def loadWidth (opcode : BitVec 32) : Option Nat :=
  if opcode = 0x7c2 then some 8
  else if opcode = 0x1c2 then some 1
  else if opcode = 0x3c2 then some 2
  else none

/-- The address the word at the program counter names, if it is a store or a load. -/
def Machine.target (m : Machine) : BitVec 64 := dataAddress m.currentState m.fetched

/-- Its register `Rt`. -/
def Machine.rt (m : Machine) : BitVec 5 := field m.fetched 0 5

/-- The word at the program counter is a store with `op = 0` of `w` bytes inside
the region. -/
structure Machine.Stores (m : Machine) (w : Nat) (r : Region) : Prop where
  width : storeWidth (m.fetched >>> 21) = some w
  op : field m.fetched 10 2 = 0
  holds : r.Holds m.target.toNat w

/-- The word at the program counter is a load with `op = 0` of `w` bytes inside
the region. -/
structure Machine.Loads (m : Machine) (w : Nat) (r : Region) : Prop where
  width : loadWidth (m.fetched >>> 21) = some w
  op : field m.fetched 10 2 = 0
  holds : r.Holds m.target.toNat w

theorem cycle_store (u : DataT) {m : Machine}
    {write : Memory → BitVec 64 → BitVec 64 → Memory}
    (h : dispatch m.fetched = some ⟨11, m.fetched >>> 21, decodeD, store write⟩)
    (hop : field m.fetched 10 2 = 0) :
    (cycle u m).mem = write m.mem m.target (m.currentState.reg m.rt) := by
  rw [cycle_mem u h]
  simp only [Instruction.result, store, decodeD_op, hop, if_true, address_decodeD, decodeD_rt,
    Machine.target, Machine.rt]

/-- **A store writes the low bytes of `Rt`**, and no others. -/
theorem Machine.Stores.writes (u : DataT) {m : Machine} {w : Nat} {r : Region}
    (h : m.Stores w r) :
    m.mem.WritesBytes (cycle u m).mem r (m.target.toNat - r.start) w (m.currentState.reg m.rt) := by
  obtain ⟨hw, hop, hr⟩ := h
  have hrow : ∀ execute : DataT → Machine → Machine,
      ⟨11, m.fetched >>> 21, decodeD, execute⟩ ∈ instructions →
        dispatch m.fetched = some ⟨11, m.fetched >>> 21, decodeD, execute⟩ :=
    fun _ hmem => dispatch_eq_some.mpr ⟨hmem, rfl⟩
  unfold storeWidth at hw
  split_ifs at hw with h8 h1 h2
  · obtain rfl := Option.some.inj hw
    rw [cycle_store u (hrow executeStur (by simp [h8, instructions])) hop]
    exact stur_writes m.mem _ hr
  · obtain rfl := Option.some.inj hw
    rw [cycle_store u (hrow executeSturb (by simp [h1, instructions])) hop]
    exact sturb_writes m.mem _ hr
  · obtain rfl := Option.some.inj hw
    rw [cycle_store u (hrow executeSturh (by simp [h2, instructions])) hop]
    exact sturh_writes m.mem _ hr

/-- **A load reads the bytes at its address**, whichever load it is. -/
theorem Machine.Loads.byteOf_reg (u : DataT) {m : Machine} {w : Nat} {r : Region}
    (h : m.Loads w r) {k : Nat} (hk : k < w) :
    byteOf ((cycle u m).currentState.reg m.rt) k = m.mem r (m.target.toNat - r.start + k) := by
  obtain ⟨hw, hop, hr⟩ := h
  unfold loadWidth at hw
  split_ifs at hw with h8 h1 h2
  · obtain rfl := Option.some.inj hw
    have hread : readOf (m.fetched >>> 21) = some readLdur := by rw [h8]; rfl
    rw [Machine.rt, cycle_load u hread hop]
    exact byteOf_readLdur m.mem hr hk
  · obtain rfl := Option.some.inj hw
    have hread : readOf (m.fetched >>> 21) = some readLdurb := by rw [h1]; rfl
    obtain rfl : k = 0 := by omega
    rw [Machine.rt, cycle_load u hread hop]
    exact (congrArg (byteOf · 0) (readLdurb_eq m.mem hr)).trans
      ((byteOf_setWidth _ (by decide)).trans (byteOf_byte_zero _))
  · obtain rfl := Option.some.inj hw
    have hread : readOf (m.fetched >>> 21) = some readLdurh := by rw [h2]; rfl
    rw [Machine.rt, cycle_load u hread hop]
    exact byteOf_readLdurh m.mem hr hk

/-- LDUR fills the register. -/
theorem Machine.Loads.reg_of_eight (u : DataT) {m : Machine} {r : Region} (h : m.Loads 8 r) :
    (cycle u m).currentState.reg m.rt =
      BitVec.ofNat 64 (leValue (fun k => m.mem r (m.target.toNat - r.start + k)) 8) := by
  refine ext_byteOf (show 64 ≤ 8 * 8 by decide) ?_
  intro k hk
  rw [h.byteOf_reg u hk, byteOf_ofNat_leValue _ hk (Nat.le_refl 64)]

/-- LDURB fills the register with zeroes above the byte. -/
theorem Machine.Loads.reg_of_one (u : DataT) {m : Machine} {r : Region} (h : m.Loads 1 r) :
    (cycle u m).currentState.reg m.rt = (m.mem r (m.target.toNat - r.start)).setWidth 64 := by
  have hread : readOf (m.fetched >>> 21) = some readLdurb := by
    have hw := h.width
    unfold loadWidth at hw
    split_ifs at hw with h8 h1 h2 <;> cases hw
    rw [h1]
    rfl
  rw [Machine.rt, cycle_load u hread h.op]
  exact readLdurb_eq m.mem h.holds

/-- The mapped bytes of an access inside a region. -/
theorem Region.Holds.byteAt_add {r : Region} {address w k : Nat} (h : r.Holds address w)
    (hk : k < w) (mem : Memory) :
    byteAt mem (address + k) = some (mem r (address - r.start + k)) := by
  have hstart := h.1
  rw [byteAt_eq (h.contains hk)]
  congr 2
  omega

/-- **Stores and loads, byte by byte.**  A store of `w` bytes sets the mapped
bytes at its address to the low bytes of `Rt` and no others; LDUR reads the
eight bytes at its address as a little-endian number, LDURB its one byte; and a
load of the bytes a store has left gives back the low bytes of the register
stored. -/
theorem store_load_bytes (u : DataT) (m : Machine) :
    (∀ w r, m.Stores w r → ∀ b, byteAt (cycle u m).mem b =
      if m.target.toNat ≤ b ∧ b < m.target.toNat + w then
        some (byteOf (m.currentState.reg m.rt) (b - m.target.toNat))
      else byteAt m.mem b) ∧
    (∀ r, m.Loads 8 r → ∃ bytes : Nat → Byte,
      (∀ k < 8, byteAt m.mem (m.target.toNat + k) = some (bytes k)) ∧
      (cycle u m).currentState.reg m.rt = BitVec.ofNat 64 (leValue bytes 8)) ∧
    (∀ r, m.Loads 1 r → ∃ b : Byte, byteAt m.mem m.target.toNat = some b ∧
      (cycle u m).currentState.reg m.rt = b.setWidth 64) ∧
    (∀ w r, m.Stores w r → ∀ (u' : DataT) (t : Machine), t.mem = (cycle u m).mem →
      t.Loads w r → t.target = m.target →
      (∀ k < w, byteOf ((cycle u' t).currentState.reg t.rt) k =
        byteOf (m.currentState.reg m.rt) k) ∧
      (w = 8 → (cycle u' t).currentState.reg t.rt = m.currentState.reg m.rt) ∧
      (w = 1 → (cycle u' t).currentState.reg t.rt =
        ((m.currentState.reg m.rt).setWidth 8).setWidth 64)) := by
  refine ⟨?_, ?_, ?_, ?_⟩
  · intro w r h b
    exact (h.writes u).byteAt h.holds b
  · intro r h
    exact ⟨_, fun k hk => h.holds.byteAt_add hk m.mem, h.reg_of_eight u⟩
  · intro r h
    exact ⟨_, h.holds.byteAt_add Nat.zero_lt_one m.mem, h.reg_of_one u⟩
  · intro w r h u' t hmem ht haddr
    have hread : ∀ k < w, t.mem r (t.target.toNat - r.start + k) =
        byteOf (m.currentState.reg m.rt) k := by
      intro k hk
      rw [hmem, haddr, h.writes u, if_pos ⟨rfl, by omega, by omega⟩, Nat.add_sub_cancel_left]
    have hbytes : ∀ k < w, byteOf ((cycle u' t).currentState.reg t.rt) k =
        byteOf (m.currentState.reg m.rt) k := by
      intro k hk
      rw [ht.byteOf_reg u' hk, hread k hk]
    refine ⟨hbytes, ?_, ?_⟩
    · rintro rfl
      exact ext_byteOf (show 64 ≤ 8 * 8 by decide) hbytes
    · rintro rfl
      rw [ht.reg_of_one u', setWidth_eq_byteOf]
      exact congrArg _ (hread 0 Nat.zero_lt_one)

/-- About to execute `sturb w2, [x1]; ldurb w3, [x1]; ldur x4, [x1]` with `x1` the
last byte but seven of the data region. -/
def storeLoadMachine : Machine :=
  let start : CpuState :=
    { zeroState with
      pc := BitVec.ofNat 64 memTextStart
      regs := (zeroState.regs.set 1 0x100ffff8).set 2 0xabcd }
  { boot (loadWords 0 [0x38000022, 0x38400023, 0xf8400024] fun _ _ => 0xee) with
    currentState := start, nextState := start }

theorem storeLoadMachine_bytes :
    let m := storeLoadMachine
    let t := cycle default m
    let t' := cycle default t
    (∀ b, byteAt t.mem b =
      if m.target.toNat ≤ b ∧ b < m.target.toNat + 1 then
        some (byteOf (m.currentState.reg m.rt) (b - m.target.toNat))
      else byteAt m.mem b) ∧
    t'.currentState.reg t.rt = ((m.currentState.reg m.rt).setWidth 8).setWidth 64 ∧
    (∃ b : Byte, byteAt t.mem t.target.toNat = some b ∧ t'.currentState.reg t.rt = b.setWidth 64) ∧
    ∃ bytes : Nat → Byte, (∀ k < 8, byteAt t'.mem (t'.target.toNat + k) = some (bytes k)) ∧
      (cycle default t').currentState.reg t'.rt = BitVec.ofNat 64 (leValue bytes 8) := by
  have hstore : storeLoadMachine.Stores 1 .data := ⟨by decide, by decide, by decide, by decide⟩
  have hload : (cycle default storeLoadMachine).Loads 1 .data :=
    ⟨by decide, by decide, by decide, by decide⟩
  have hload' : (cycle default (cycle default storeLoadMachine)).Loads 8 .data :=
    ⟨by decide, by decide, by decide, by decide⟩
  exact ⟨(store_load_bytes default storeLoadMachine).1 1 .data hstore,
    ((store_load_bytes default storeLoadMachine).2.2.2 1 .data hstore default _ rfl hload
      (by decide)).2.2 rfl,
    (store_load_bytes default _).2.2.1 .data hload,
    (store_load_bytes default _).2.1 .data hload'⟩

end Acso.Arm
