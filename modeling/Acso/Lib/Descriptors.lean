import Mathlib.Data.List.Nodup
import Mathlib.Logic.Function.Basic

/-!
# Descriptor tables

A table says which file each descriptor of a process refers to.  `put` opens a descriptor,
`close` closes one, and `dup2` makes one refer to the file of another.

`layer base ends` is the table `base` with the descriptors `ends` opened above it.  Where
they are `Fresh`, opening one more adds it at the end, and closing them one after the other
takes them off again until `base` is left.
-/

namespace Acso.Lib

/-- The open descriptors of a process. -/
abbrev Descriptors (φ : Type) := Nat → Option φ

namespace Descriptors

variable {φ : Type}

def put (t : Descriptors φ) (fd : Nat) (file : φ) : Descriptors φ :=
  Function.update t fd (some file)

def close (t : Descriptors φ) (fd : Nat) : Descriptors φ := Function.update t fd none

/-- It fails when the old descriptor is not open. -/
def dup2 (t : Descriptors φ) (old new : Nat) : Option (Descriptors φ) :=
  (t old).map (t.put new)

/-- The table `base` with the descriptors `ends` opened above it. -/
def layer (base : Descriptors φ) (ends : List (Nat × φ)) : Descriptors φ :=
  fun fd => (ends.lookup fd).or (base fd)

/-- The descriptors `ends` are different, and `base` does not have them. -/
structure Fresh (base : Descriptors φ) (ends : List (Nat × φ)) : Prop where
  nodup : (ends.map Prod.fst).Nodup
  closed : ∀ fd ∈ ends.map Prod.fst, base fd = none

@[simp] theorem layer_nil (base : Descriptors φ) : layer base [] = base := by
  funext fd
  simp [layer]

theorem lookup_eq_none {ends : List (Nat × φ)} {fd : Nat} :
    ends.lookup fd = none ↔ fd ∉ ends.map Prod.fst := by
  simp only [List.lookup_eq_none_iff, bne_iff_ne, List.mem_map, not_exists, not_and]
  exact forall₂_congr fun _ _ => ne_comm

theorem layer_eq_none {base : Descriptors φ} {ends : List (Nat × φ)} {fd : Nat} :
    layer base ends fd = none ↔ fd ∉ ends.map Prod.fst ∧ base fd = none := by
  rw [layer, Option.or_eq_none_iff, lookup_eq_none]

theorem layer_of_notMem {base : Descriptors φ} {ends : List (Nat × φ)} {fd : Nat}
    (h : fd ∉ ends.map Prod.fst) : layer base ends fd = base fd := by
  rw [layer, lookup_eq_none.mpr h, Option.none_or]

/-- The first of the descriptors, and the rest. -/
theorem layer_cons (base : Descriptors φ) (fd : Nat) (file : φ) (ends : List (Nat × φ)) :
    layer base ((fd, file) :: ends) = (layer base ends).put fd file := by
  funext fd'
  rw [layer, put, Function.update_apply, List.lookup_cons]
  by_cases hfd : fd' = fd
  · simp [hfd]
  · rw [if_neg hfd, beq_eq_false_iff_ne.mpr hfd]
    rfl

theorem layer_of_mem {base : Descriptors φ} {ends : List (Nat × φ)}
    (hnodup : (ends.map Prod.fst).Nodup) {fd : Nat} {file : φ} (h : (fd, file) ∈ ends) :
    layer base ends fd = some file := by
  induction ends with
  | nil => cases h
  | cons e ends ih =>
    obtain ⟨hne, hrest⟩ := List.nodup_cons.mp hnodup
    rw [layer_cons, put]
    rcases List.mem_cons.mp h with rfl | hmem
    · rw [Function.update_self]
    · rw [Function.update_of_ne, ih hrest hmem]
      rintro rfl
      exact hne (List.mem_map.mpr ⟨_, hmem, rfl⟩)

/-- **Opening adds a descriptor.** -/
theorem put_layer {base : Descriptors φ} {ends : List (Nat × φ)} {fd : Nat}
    (h : fd ∉ ends.map Prod.fst) (file : φ) :
    (layer base ends).put fd file = layer base (ends ++ [(fd, file)]) := by
  funext fd'
  rw [put, Function.update_apply, layer, layer, List.lookup_append]
  by_cases hfd : fd' = fd
  · subst hfd
    simp [lookup_eq_none.mpr h]
  · rw [if_neg hfd]
    simp [List.lookup_cons, beq_eq_false_iff_ne.mpr hfd]

/-- Closing takes it off. -/
theorem close_layer {base : Descriptors φ} {ends : List (Nat × φ)} {fd : Nat} {file : φ}
    (h : Fresh base ((fd, file) :: ends)) :
    (layer base ((fd, file) :: ends)).close fd = layer base ends := by
  have hnone : layer base ends fd = none :=
    layer_eq_none.mpr ⟨(List.nodup_cons.mp h.nodup).1, h.closed fd (List.mem_cons_self ..)⟩
  rw [layer_cons, close, put, Function.update_idem, ← hnone, Function.update_eq_self]

/-- `dup2` to a descriptor below works on the table below. -/
theorem dup2_layer {base : Descriptors φ} {ends : List (Nat × φ)} (h : Fresh base ends)
    {old new : Nat} {file : φ} (hold : (old, file) ∈ ends) (hnew : new ∉ ends.map Prod.fst) :
    (layer base ends).dup2 old new = some (layer (base.put new file) ends) := by
  rw [dup2, layer_of_mem h.nodup hold, Option.map_some]
  refine congrArg some (funext fun fd => ?_)
  rw [put, Function.update_apply]
  split
  · next hfd =>
    rw [hfd, layer_of_notMem hnew, put, Function.update_self]
  · next hfd => rw [layer, layer, put, Function.update_of_ne hfd]

namespace Fresh

variable {base : Descriptors φ} {ends : List (Nat × φ)}

theorem nil (base : Descriptors φ) : Fresh base [] := ⟨List.nodup_nil, by simp⟩

theorem drop (h : Fresh base ends) (k : Nat) : Fresh base (ends.drop k) :=
  ⟨h.nodup.sublist ((List.drop_sublist k ends).map Prod.fst),
    fun fd hfd => h.closed fd (((List.drop_sublist k ends).map Prod.fst).subset hfd)⟩

/-- A descriptor that is not in use is fresh. -/
theorem snoc (h : Fresh base ends) {fd : Nat} (hfd : layer base ends fd = none) (file : φ) :
    Fresh base (ends ++ [(fd, file)]) := by
  obtain ⟨hnot, hbase⟩ := layer_eq_none.mp hfd
  constructor
  · rw [List.map_append]
    exact h.nodup.append (List.nodup_singleton fd) (by simpa using hnot)
  · intro fd' hfd'
    rw [List.map_append, List.mem_append] at hfd'
    rcases hfd' with hin | hlast
    · exact h.closed fd' hin
    · rw [List.mem_singleton.mp hlast]
      exact hbase

theorem put (h : Fresh base ends) {new : Nat} (hnew : new ∉ ends.map Prod.fst) (file : φ) :
    Fresh (base.put new file) ends := by
  refine ⟨h.nodup, fun fd hfd => ?_⟩
  have hne : fd ≠ new := by
    rintro rfl
    exact hnew hfd
  rw [Descriptors.put, Function.update_of_ne hne]
  exact h.closed fd hfd

end Fresh

/-- **Closing takes off one after the other.** -/
theorem close_drop {base : Descriptors φ} {ends : List (Nat × φ)} (h : Fresh base ends)
    {k fd : Nat} {file : φ} (hk : ends[k]? = some (fd, file)) :
    (layer base (ends.drop k)).close fd = layer base (ends.drop (k + 1)) := by
  obtain ⟨hlt, hget⟩ := List.getElem?_eq_some_iff.mp hk
  have hfresh := h.drop k
  rw [List.drop_eq_getElem_cons hlt, hget] at hfresh ⊢
  exact close_layer hfresh

end Descriptors

end Acso.Lib
