import Acso.Lib.Strtok
import Acso.FileSystem.Resolution

/-!
# Paths as walks

`pathname_lookup` copies the path and cuts the copy up with `strtok`.
`pathnameLookupInPlace` does this on the copy; it is `pathnameLookup`, which has the tokens
as a list (`pathnameLookupInPlace_eq`).  Either walks along the components of the path, the
segments between its slashes, so the number of the slashes does not matter (`pathname_walk`).
-/

namespace Acso.FileSystem

open Acso.Lib

/-- The body of the loop: looks component number `i` up in inode `curr`. -/
def lookupStep (fs : UnixFilesystem) (junk : Junk) (i : Nat) (token : List Byte) (curr : Nat) :
    Result Nat := do
  let dirEntry ← directoryFindname fs (junk.sub i) token curr
  .ok dirEntry.dInumber.toNat

/-- The lookup on a copy of the path in memory. -/
def pathnameLookupInPlace (fs : UnixFilesystem) (junk : Junk) (pathname : List Byte) : Result Nat :=
  if pathname.head? ≠ some slash then .error (.minusOne [])
  else
    let pathCopy := pathname ++ [0]
    strtokLoop 0 slash (lookupStep fs junk) 0 ⟨pathCopy, 0⟩ rootInumber

/-- The walk along some components, from the root. -/
def walk (fs : UnixFilesystem) (junk : Junk) (components : List (List Byte)) : Result Nat :=
  components.zipIdx.foldlM (fun curr c => lookupStep fs junk c.2 c.1 curr) rootInumber

/-- A string that starts with a slash. -/
structure AbsolutePath (pathname : List Byte) : Prop where
  head : pathname.head? = some slash
  nul : 0 ∉ pathname

section

variable (fs : UnixFilesystem) (junk : Junk)

theorem pathnameLoop_eq_foldlM (i : Nat) (tokens : List (List Byte)) (curr : Nat) :
    pathnameLoop fs junk i tokens curr =
      (tokens.zipIdx i).foldlM (fun curr c => lookupStep fs junk c.2 c.1 curr) curr := by
  induction tokens generalizing i curr with
  | nil => rfl
  | cons token tokens ih =>
    rw [pathnameLoop, List.zipIdx_cons, List.foldlM_cons, lookupStep]
    cases directoryFindname fs (junk.sub i) token curr with
    | error e => rfl
    | ok e =>
      rw [ok_bind, ok_bind, ok_bind]
      exact ih (i + 1) e.dInumber.toNat

theorem pathnameLookup_eq_walk {pathname : List Byte} (h : pathname.head? = some slash) :
    pathnameLookup fs junk pathname = walk fs junk (segments slash pathname) := by
  rw [pathnameLookup, if_neg (not_not_intro h), tokens_eq_segments, pathnameLoop_eq_foldlM, walk]

/-- **Cutting the copy up** finds the tokens of the path. -/
theorem pathnameLookupInPlace_eq {pathname : List Byte} (hnul : 0 ∉ pathname) :
    pathnameLookupInPlace fs junk pathname = pathnameLookup fs junk pathname := by
  by_cases habs : pathname.head? = some slash
  · have hsep : slash ≠ 0 := by decide
    have hloop := strtokLoop_eq (lookupStep fs junk) hsep hnul 0 [] [] rootInumber
    rw [pathnameLookup_eq_walk fs junk habs, pathnameLookupInPlace, if_neg (not_not_intro habs), walk]
    exact hloop
  · rw [pathnameLookupInPlace, pathnameLookup, if_pos habs, if_pos habs]

theorem lookup_eq_walk {pathname : List Byte} (h : AbsolutePath pathname) :
    pathnameLookupInPlace fs junk pathname = walk fs junk (segments slash pathname) := by
  rw [pathnameLookupInPlace_eq fs junk h.nul, pathnameLookup_eq_walk fs junk h.head]

end

/-- What is put behind a slash of an absolute path leaves it absolute. -/
theorem AbsolutePath.append {pathname : List Byte} (h : AbsolutePath pathname) {s : List Byte}
    (hs : 0 ∉ s) : AbsolutePath (pathname ++ s) where
  head := by rw [List.head?_append, h.head, Option.some_or]
  nul := by
    rw [List.mem_append, not_or]
    exact ⟨h.nul, hs⟩

theorem AbsolutePath.double {a b : List Byte} (h : AbsolutePath (a ++ slash :: b)) :
    AbsolutePath (a ++ slash :: slash :: b) := by
  obtain ⟨hhead, hnul⟩ := h
  simp only [List.mem_append, List.mem_cons, not_or] at hnul
  refine ⟨?_, ?_⟩
  · rw [List.head?_append] at hhead ⊢
    exact hhead
  · simp only [List.mem_append, List.mem_cons, not_or]
    exact ⟨hnul.1, hnul.2.1, hnul.2⟩

/-- **The lookup of an absolute path walks along its segments.**  So it is the same for every
path with these segments: another slash beside one, or at the end, makes no difference.  One
more component is one more step. -/
theorem pathname_walk (fs : UnixFilesystem) (junk : Junk) {pathname : List Byte}
    (h : AbsolutePath pathname) :
    pathnameLookupInPlace fs junk pathname = walk fs junk (segments slash pathname) ∧
    (∀ other, AbsolutePath other → segments slash other = segments slash pathname →
      pathnameLookupInPlace fs junk other = pathnameLookupInPlace fs junk pathname) ∧
    (∀ a b, pathname = a ++ slash :: b → pathnameLookupInPlace fs junk (a ++ slash :: slash :: b) =
      pathnameLookupInPlace fs junk pathname) ∧
    pathnameLookupInPlace fs junk (pathname ++ [slash]) = pathnameLookupInPlace fs junk pathname ∧
    ∀ x component, pathnameLookupInPlace fs junk pathname = .ok x → IsToken slash component →
      0 ∉ component → pathnameLookupInPlace fs junk (pathname ++ slash :: component) =
        lookupStep fs junk (segments slash pathname).length component x := by
  have hsame : ∀ other, AbsolutePath other → segments slash other = segments slash pathname →
      pathnameLookupInPlace fs junk other = pathnameLookupInPlace fs junk pathname := by
    intro other hother heq
    rw [lookup_eq_walk fs junk hother, lookup_eq_walk fs junk h, heq]
  refine ⟨lookup_eq_walk fs junk h, hsame, ?_, ?_, ?_⟩
  · rintro a b rfl
    refine hsame _ h.double ?_
    rw [segments_append_sep, segments_append_sep, segments_sep_cons]
  · refine hsame _ (h.append (by decide)) ?_
    rw [segments_append_sep, segments_nil, List.append_nil]
  · intro x component hx hcomponent hnul
    have hslash : 0 ∉ slash :: component := List.not_mem_cons_of_ne_of_not_mem (by decide) hnul
    rw [pathnameLookupInPlace_eq fs junk h.nul] at hx
    rw [pathnameLookupInPlace_eq fs junk (h.append hslash).nul,
      pathnameLookup_append fs junk hx hcomponent, tokens_eq_segments]
    rfl

/-- The paths `/a` and `//a`. -/
theorem double_slash_same :
    pathnameLookupInPlace (imageFs freeInodes freeData) zeroJunk [slash, slash, 0x61] =
      pathnameLookupInPlace (imageFs freeInodes freeData) zeroJunk [slash, 0x61] := by
  have habs : AbsolutePath [slash, 0x61] := ⟨by decide, by decide⟩
  exact (pathname_walk (imageFs freeInodes freeData) zeroJunk habs).2.2.1 [] [0x61] rfl

end Acso.FileSystem
