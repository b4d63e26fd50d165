import Mathlib.Data.List.Basic

/-!
# Writing into a list

`splice blank l k new` is `l` with `new` written from position `k` on; behind the end of `l`
it is filled up with `blank` first.  A list of blocks of one length is spliced as the list of
its elements is (`flatten_splice`).
-/

namespace Acso.Lib

variable {α : Type}

/-! ## Blocks of one length -/

section

variable {c : Nat} {L : List (List α)} (hL : ∀ x ∈ L, x.length = c)
include hL

theorem length_flatten_blocks : L.flatten.length = c * L.length := by
  rw [List.length_flatten, List.map_congr_left hL, List.map_const', List.sum_replicate_nat,
    Nat.mul_comm]

theorem take_flatten_blocks (k : Nat) : L.flatten.take (c * k) = (L.take k).flatten := by
  induction L generalizing k with
  | nil => simp
  | cons x L ih =>
    rw [List.forall_mem_cons] at hL
    cases k with
    | zero => simp
    | succ k =>
      have hle : x.length ≤ c * (k + 1) := by
        rw [hL.1, Nat.mul_succ]
        exact Nat.le_add_left _ _
      have hrest : c * (k + 1) - x.length = c * k := by
        rw [hL.1, Nat.mul_succ, Nat.add_sub_cancel]
      rw [List.flatten_cons, List.take_append, List.take_of_length_le hle, hrest, ih hL.2,
        List.take_succ_cons, List.flatten_cons]

theorem drop_flatten_blocks (k : Nat) : L.flatten.drop (c * k) = (L.drop k).flatten := by
  induction L generalizing k with
  | nil => simp
  | cons x L ih =>
    rw [List.forall_mem_cons] at hL
    cases k with
    | zero => simp
    | succ k =>
      have hle : x.length ≤ c * (k + 1) := by
        rw [hL.1, Nat.mul_succ]
        exact Nat.le_add_left _ _
      have hrest : c * (k + 1) - x.length = c * k := by
        rw [hL.1, Nat.mul_succ, Nat.add_sub_cancel]
      rw [List.flatten_cons, List.drop_append, List.drop_eq_nil_of_le hle, hrest, ih hL.2,
        List.nil_append, List.drop_succ_cons]

/-- A block of the elements. -/
theorem block_flatten (k : Nat) : (L.flatten.drop (c * k)).take c = (L[k]?).getD [] := by
  have htake := take_flatten_blocks (L := L.drop k) (fun x hx => hL x (List.mem_of_mem_drop hx)) 1
  rw [Nat.mul_one] at htake
  rw [drop_flatten_blocks hL, htake, List.take_one, List.head?_drop]
  cases L[k]? <;> simp

end

section

variable {β : Type} {f : β → List α} {c : Nat} (hf : ∀ x, (f x).length = c)
include hf

theorem length_flatMap_blocks (l : List β) : (l.flatMap f).length = c * l.length := by
  rw [List.length_flatMap, List.map_congr_left fun x _ => hf x, List.map_const',
    List.sum_replicate_nat, Nat.mul_comm]

/-- The block of an element. -/
theorem block_flatMap {l : List β} {i : Nat} (hi : i < l.length) :
    ((l.flatMap f).drop (c * i)).take c = f l[i] := by
  have hblocks : ∀ x ∈ l.map f, x.length = c := by
    intro x hx
    obtain ⟨y, -, rfl⟩ := List.mem_map.mp hx
    exact hf y
  rw [List.flatMap_def, block_flatten hblocks, List.getElem?_map, List.getElem?_eq_getElem hi]
  rfl

end

/-! ## Splicing -/

def splice (blank : α) (l : List α) (k : Nat) (new : List α) : List α :=
  (l ++ List.replicate (k - l.length) blank).take k ++ (new ++ l.drop (k + new.length))

variable {blank : α}

/-- Inside the list nothing is filled up. -/
theorem splice_inside {l : List α} {k : Nat} (hk : k ≤ l.length) (new : List α) :
    splice blank l k new = l.take k ++ (new ++ l.drop (k + new.length)) := by
  rw [splice, List.take_append_of_le_length hk]

theorem length_splice (l : List α) (k : Nat) (new : List α) :
    (splice blank l k new).length = max l.length (k + new.length) := by
  simp only [splice, List.length_append, List.length_take, List.length_replicate, List.length_drop]
  omega

/-- One element is written; those between the end and it are blank. -/
theorem getElem?_splice_singleton (l : List α) (k : Nat) (x : α) (i : Nat) :
    (splice blank l k [x])[i]? =
      if i = k then some x else if i < l.length then l[i]? else if i < k then some blank else none := by
  have hlen : ((l ++ List.replicate (k - l.length) blank).take k).length = k := by
    simp only [List.length_take, List.length_append, List.length_replicate]
    omega
  rw [splice, List.getElem?_append, hlen]
  rcases Nat.lt_trichotomy i k with hi | rfl | hi
  · rw [if_pos hi, if_neg (Nat.ne_of_lt hi), List.getElem?_take_of_lt hi, List.getElem?_append]
    split
    · rfl
    · rw [List.getElem?_replicate_of_lt (by omega)]
  · rw [if_neg (Nat.lt_irrefl i), if_pos rfl, Nat.sub_self]
    rfl
  · have hpast : ¬ i < k := Nat.lt_asymm hi
    obtain ⟨j, rfl⟩ := Nat.exists_eq_add_of_lt hi
    have hj : k + j + 1 - k = j + 1 := by omega
    rw [if_neg hpast, if_neg (Nat.ne_of_gt hi), hj, List.singleton_append, List.getElem?_cons_succ,
      List.getElem?_drop, List.length_singleton, if_neg hpast, Nat.add_right_comm]
    split
    · rfl
    · exact List.getElem?_eq_none (by omega)

/-- **Writing a block** into the elements of a list of blocks. -/
theorem flatten_splice {c : Nat} {L : List (List α)} (hL : ∀ x ∈ L, x.length = c) (k : Nat)
    {x : List α} (hx : x.length = c) :
    (splice (List.replicate c blank) L k [x]).flatten = splice blank L.flatten (c * k) x := by
  have hfill : ∀ y ∈ L ++ List.replicate (k - L.length) (List.replicate c blank), y.length = c := by
    intro y hy
    rcases List.mem_append.mp hy with hy | hy
    · exact hL y hy
    · rw [List.eq_of_mem_replicate hy, List.length_replicate]
  rw [splice, splice, List.flatten_append, List.flatten_append, ← take_flatten_blocks hfill,
    List.flatten_append, List.flatten_replicate_replicate, ← drop_flatten_blocks hL,
    length_flatten_blocks hL, ← Nat.mul_sub, Nat.mul_comm c (k - L.length), hx,
    List.length_singleton, Nat.mul_succ, List.flatten_singleton]

end Acso.Lib
