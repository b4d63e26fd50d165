import Mathlib.Data.List.Basic

/-!
# Blocks and records

A list cut into pieces of one length, from both sides: `getElem?_flatMap` finds
an element of a concatenation of blocks of length `c`, and `flatten_mapIdx_take`
cuts the concatenation at a length by cutting each block.  `records c n l` are
the first `n` pieces of length `c` of `l`; blocks whose length is a multiple of
`c` can be cut into records one by one (`records_flatten`).
-/

namespace Acso.Lib

variable {α β : Type}

/-- Position `i` of a concatenation of blocks of length `c` is position `i % c`
of block `i / c`. -/
theorem getElem?_flatMap {f : α → List β} {c : Nat} (hc : 0 < c) :
    ∀ {l : List α}, (∀ x ∈ l, (f x).length = c) → ∀ i,
      (l.flatMap f)[i]? = l[i / c]?.bind fun x => (f x)[i % c]? := by
  intro l
  induction l with
  | nil =>
    intro _ i
    simp
  | cons x l ih =>
    intro h i
    have hx : (f x).length = c := h x (by simp)
    rw [List.flatMap_cons]
    rcases Nat.lt_or_ge i c with hi | hi
    · rw [List.getElem?_append_left (by omega), Nat.div_eq_of_lt hi, Nat.mod_eq_of_lt hi]
      rfl
    · obtain ⟨j, rfl⟩ := Nat.exists_eq_add_of_le hi
      rw [List.getElem?_append_right (by omega), hx, Nat.add_sub_cancel_left,
        ih (fun y hy => h y (by simp [hy])), Nat.add_div_left j hc, Nat.add_mod_left,
        List.getElem?_cons_succ]

/-- Cutting a concatenation of blocks of length `c` at `s` cuts block `i` at
`s - c * i`. -/
theorem flatten_mapIdx_take {c : Nat} :
    ∀ {L : List (List α)}, (∀ x ∈ L, x.length = c) → ∀ s,
      (L.mapIdx fun i x => x.take (s - c * i)).flatten = L.flatten.take s := by
  intro L
  induction L with
  | nil =>
    intro _ s
    simp
  | cons x L ih =>
    intro h s
    have hx : x.length = c := h x (by simp)
    have hsub : ∀ i, s - c * (i + 1) = s - c - c * i := by
      intro i
      rw [Nat.mul_succ]
      omega
    rw [List.mapIdx_cons, List.flatten_cons, List.flatten_cons, List.take_append, hx,
      ← ih (fun y hy => h y (by simp [hy]))]
    simp [hsub]

/-- The first `n` pieces of length `c`. -/
def records (c : Nat) : Nat → List α → List (List α)
  | 0, _ => []
  | n + 1, l => l.take c :: records c n (l.drop c)

@[simp] theorem length_records (c n : Nat) (l : List α) : (records c n l).length = n := by
  induction n generalizing l with
  | zero => rfl
  | succ n ih => simp [records, ih]

/-- Record `i`. -/
theorem getElem_records (c : Nat) {n i : Nat} (l : List α) (hi : i < (records c n l).length) :
    (records c n l)[i] = (l.drop (c * i)).take c := by
  induction n generalizing l i with
  | zero => cases hi
  | succ n ih =>
    cases i with
    | zero => rfl
    | succ i =>
      have hi' : i < (records c n (l.drop c)).length := by simpa [records] using hi
      have hnext := ih (l.drop c) hi'
      rw [List.drop_drop, Nat.add_comm, ← Nat.mul_succ] at hnext
      exact hnext

theorem take_records (c : Nat) {n m : Nat} (h : m ≤ n) (l : List α) :
    (records c n l).take m = records c m l := by
  induction m generalizing n l with
  | zero => simp [records]
  | succ m ih =>
    obtain ⟨k, rfl⟩ : ∃ k, n = k + 1 := ⟨n - 1, by omega⟩
    rw [records, List.take_succ_cons, ih (by omega), records]

/-- Records that end before `s` are not changed by a cut at `s`. -/
theorem records_take {c n s : Nat} (h : c * n ≤ s) (l : List α) :
    records c n (l.take s) = records c n l := by
  induction n generalizing l s with
  | zero => rfl
  | succ n ih =>
    rw [Nat.mul_succ] at h
    have htake : (l.take s).take c = l.take c := by rw [List.take_take, Nat.min_eq_left (by omega)]
    have hdrop : (l.take s).drop c = (l.drop c).take (s - c) := by rw [List.drop_take]
    rw [records, records, htake, hdrop, ih (by omega)]

theorem records_append {c m n : Nat} {l : List α} (hl : l.length = c * m) (l' : List α) :
    records c (m + n) (l ++ l') = records c m l ++ records c n l' := by
  induction m generalizing l with
  | zero =>
    obtain rfl : l = [] := List.eq_nil_of_length_eq_zero (by simpa using hl)
    simp [records]
  | succ m ih =>
    rw [Nat.mul_succ] at hl
    have hlen : (l.drop c).length = c * m := by rw [List.length_drop]; omega
    rw [Nat.succ_add, records, records, List.take_append_of_le_length (by omega),
      List.drop_append_of_le_length (by omega), ih hlen, List.cons_append]

/-- **Blocks of `m` records** can be cut one by one. -/
theorem records_flatten {c m : Nat} :
    ∀ {L : List (List α)}, (∀ x ∈ L, x.length = c * m) →
      records c (m * L.length) L.flatten = L.flatMap (records c m) := by
  intro L
  induction L with
  | nil =>
    intro _
    rfl
  | cons x L ih =>
    intro h
    rw [List.length_cons, Nat.mul_succ, Nat.add_comm, List.flatten_cons,
      records_append (h x (by simp)), ih (fun y hy => h y (by simp [hy])), List.flatMap_cons]

end Acso.Lib
