import Mathlib.Data.List.Basic

/-!
# Rewriting in place

A loop that reads a buffer at `src` and writes what it makes of it to the same buffer at `dst`.
What has been written, `out`, and what is still to be read, `rest`, do not meet as long as every
turn takes at least one character for the one it writes (`Rewrites.put`).
-/

namespace Acso.Lib

/-- The buffer and the two places. -/
structure InPlace (α : Type) where
  buffer : List α
  src : Nat
  dst : Nat

namespace InPlace

variable {α : Type}

/-- Write `c` and go on behind `n` characters. -/
def put (s : InPlace α) (c : α) (n : Nat) : InPlace α :=
  ⟨s.buffer.set s.dst c, s.src + n, s.dst + 1⟩

/-- Between `front` and `tail` there are `out`, what is left over, and `rest`. -/
structure Rewrites (front tail out rest : List α) (s : InPlace α) : Prop where
  buffer : ∃ gap, s.buffer = front ++ (out ++ (gap ++ (rest ++ tail))) ∧
    s.src = front.length + (out.length + gap.length)
  dst : s.dst = front.length + out.length

variable {front tail out rest : List α} {s : InPlace α}

theorem rewrites_start (front tail rest : List α) :
    Rewrites front tail [] rest ⟨front ++ (rest ++ tail), front.length, front.length⟩ :=
  ⟨⟨[], rfl, rfl⟩, rfl⟩

/-- Writing moves the end of what has been written. -/
theorem set_dst {c : α} {gap : List α} (hbuffer : s.buffer = front ++ (out ++ gap))
    (hdst : s.dst = front.length + out.length) (hgap : gap ≠ []) :
    s.buffer.set s.dst c = front ++ (out ++ c :: gap.tail) := by
  obtain ⟨d, gap, rfl⟩ := List.exists_cons_of_ne_nil hgap
  rw [hbuffer, hdst, List.set_append_right _ _ (Nat.le_add_right _ _), Nat.add_sub_cancel_left,
    List.set_append_right _ _ (Nat.le_refl _), Nat.sub_self]
  rfl

namespace Rewrites

/-- What is read has not been written over. -/
theorem getElem? (h : Rewrites front tail out rest s) (i : Nat) :
    s.buffer[s.src + i]? = (rest ++ tail)[i]? := by
  obtain ⟨gap, hbuffer, hsrc⟩ := h.buffer
  have hplace : s.src + i = (front ++ (out ++ gap)).length + i := by
    rw [hsrc, List.length_append, List.length_append]
  have hsplit : s.buffer = front ++ (out ++ gap) ++ (rest ++ tail) := by
    rw [hbuffer, List.append_assoc, List.append_assoc]
  rw [hsplit, hplace, List.getElem?_append_right (Nat.le_add_right _ _), Nat.add_sub_cancel_left]

/-- **A turn** that takes some characters and writes one. -/
theorem put (taken : List α) (h : Rewrites front tail out (taken ++ rest) s) (htaken : taken ≠ [])
    (c : α) : Rewrites front tail (out ++ [c]) rest (s.put c taken.length) := by
  obtain ⟨gap, hbuffer, hsrc⟩ := h.buffer
  have hne : gap ++ taken ≠ [] := List.append_ne_nil_of_right_ne_nil gap htaken
  have hset : s.buffer.set s.dst c =
      front ++ (out ++ c :: (gap ++ taken).tail ++ (rest ++ tail)) := by
    have hbuffer' : s.buffer = front ++ (out ++ (gap ++ taken ++ (rest ++ tail))) := by
      rw [hbuffer, List.append_assoc, List.append_assoc]
    rw [set_dst hbuffer' h.dst (List.append_ne_nil_of_left_ne_nil hne _),
      List.tail_append_of_ne_nil hne, List.append_assoc, List.cons_append]
  have hlen : (gap ++ taken).tail.length + 1 = gap.length + taken.length := by
    rw [List.length_tail, Nat.sub_add_cancel (List.length_pos_iff.mpr hne), List.length_append]
  refine ⟨⟨(gap ++ taken).tail, ?_, ?_⟩, ?_⟩
  · rw [InPlace.put, hset]
    simp
  · rw [InPlace.put, hsrc, List.length_append, List.length_singleton]
    dsimp only
    omega
  · rw [InPlace.put, h.dst, List.length_append, List.length_singleton, Nat.add_assoc]

/-- **At the end** a last character is written behind `out`; the buffer keeps its length. -/
theorem finish (h : Rewrites front (c :: tail) out [] s) :
    ∃ more, s.buffer.set s.dst c = front ++ (out ++ c :: (more ++ tail)) ∧
      front.length + (out.length + more.length) = s.src := by
  obtain ⟨gap, hbuffer, hsrc⟩ := h.buffer
  rw [List.nil_append] at hbuffer
  have hne : gap ++ c :: tail ≠ [] :=
    List.append_ne_nil_of_right_ne_nil gap (List.cons_ne_nil c tail)
  rw [set_dst hbuffer h.dst hne, hsrc]
  cases gap with
  | nil => exact ⟨[], rfl, rfl⟩
  | cons d gap => exact ⟨gap ++ [c], by simp, by simp⟩

end Rewrites

end InPlace

end Acso.Lib
