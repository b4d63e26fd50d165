import Mathlib.Data.List.Induction

/-!
# Words between separators

`tokens sep s` are the non-empty pieces of `s` between the separators, as `strtok` yields
them; they are what is left of the pieces of `List.splitOn` (`tokens_eq_segments`).  A word
at the end of a string is its last token (`tokens_append_sep`), and words that are put
together with separators are taken apart again (`tokens_joinTokens`).
-/

namespace Acso.Lib

variable {α : Type} [DecidableEq α] (sep : α)

/-- The tokens of a string, after the beginning `token` of the first one. -/
def tokensFrom : List α → List α → List (List α)
  | token, [] => if token = [] then [] else [token]
  | token, c :: s =>
    if c = sep then
      if token = [] then tokensFrom [] s else token :: tokensFrom [] s
    else tokensFrom (token ++ [c]) s

def tokens (s : List α) : List (List α) := tokensFrom sep [] s

/-- The pieces between the separators that are not empty. -/
def segments (s : List α) : List (List α) := (s.splitOn sep).filter fun w => decide (w ≠ [])

/-- Each word after a separator. -/
def joinTokens (ws : List (List α)) : List α := ws.flatMap fun w => sep :: w

/-- A piece that can be a token. -/
structure IsToken (w : List α) : Prop where
  ne_nil : w ≠ []
  not_mem : sep ∉ w

variable {sep}

/-! ## Segments -/

@[simp] theorem segments_nil : segments sep ([] : List α) = [] := rfl

/-- **The segments on both sides of a separator.** -/
theorem segments_append_sep (s u : List α) :
    segments sep (s ++ sep :: u) = segments sep s ++ segments sep u := by
  rw [segments, List.splitOn_append_cons_self, List.filter_append]
  rfl

theorem segments_sep_cons (s : List α) : segments sep (sep :: s) = segments sep s :=
  segments_append_sep [] s

theorem segments_of_not_mem {w : List α} (hw : sep ∉ w) :
    segments sep w = if w = [] then [] else [w] := by
  rw [segments, List.splitOn_eq_singleton hw]
  by_cases hnil : w = []
  · rw [if_pos hnil, hnil]
    rfl
  · rw [if_neg hnil]
    exact List.filter_eq_self.mpr fun v hv => decide_eq_true (List.mem_singleton.mp hv ▸ hnil)

theorem segments_of_isToken {w : List α} (hw : IsToken sep w) : segments sep w = [w] := by
  rw [segments_of_not_mem hw.not_mem, if_neg hw.ne_nil]

/-- Separators in front do not matter. -/
theorem segments_skip {seps : List α} (hseps : ∀ c ∈ seps, c = sep) (s : List α) :
    segments sep (seps ++ s) = segments sep s := by
  induction seps with
  | nil => rfl
  | cons c seps ih =>
    rw [List.forall_mem_cons] at hseps
    obtain ⟨rfl, hrest⟩ := hseps
    rw [List.cons_append, segments_sep_cons, ih hrest]

theorem tokensFrom_eq_segments {token : List α} (htoken : sep ∉ token) (s : List α) :
    tokensFrom sep token s = segments sep (token ++ s) := by
  induction s generalizing token with
  | nil => rw [tokensFrom, List.append_nil, segments_of_not_mem htoken]
  | cons c s ih =>
    rw [tokensFrom]
    by_cases hc : c = sep
    · rw [if_pos hc, hc, segments_append_sep, segments_of_not_mem htoken, ih (List.not_mem_nil)]
      split <;> rfl
    · have hnext : sep ∉ token ++ [c] := by
        rw [List.mem_append, List.mem_singleton, not_or]
        exact ⟨htoken, Ne.symm hc⟩
      rw [if_neg hc, ih hnext, List.append_assoc]
      rfl

theorem tokensFrom_ne_nil {token : List α} (htoken : token ≠ []) (s : List α) :
    tokensFrom sep token s ≠ [] := by
  induction s generalizing token with
  | nil =>
    rw [tokensFrom, if_neg htoken]
    exact List.cons_ne_nil _ _
  | cons c s ih =>
    rw [tokensFrom, if_neg htoken]
    split
    · exact List.cons_ne_nil _ _
    · exact ih (List.append_ne_nil_of_left_ne_nil htoken [c])

/-- **The tokens are the segments.** -/
theorem tokens_eq_segments (s : List α) : tokens sep s = segments sep s :=
  tokensFrom_eq_segments List.not_mem_nil s

/-- Without a segment there are only separators. -/
theorem eq_sep_of_segments_eq_nil {s : List α} (h : segments sep s = []) : ∀ c ∈ s, c = sep := by
  induction s with
  | nil => exact List.forall_mem_nil _
  | cons c s ih =>
    by_cases hc : c = sep
    · rw [hc, segments_sep_cons] at h
      exact List.forall_mem_cons.mpr ⟨hc, ih h⟩
    · exfalso
      have hne : tokensFrom sep [c] s ≠ [] := tokensFrom_ne_nil (List.cons_ne_nil c []) s
      rw [← tokens_eq_segments, tokens, tokensFrom, if_neg hc] at h
      exact hne h

theorem isToken_of_mem_tokensFrom {token : List α} (htoken : sep ∉ token) {s w : List α}
    (hw : w ∈ tokensFrom sep token s) : IsToken sep w := by
  induction s generalizing token with
  | nil =>
    rw [tokensFrom] at hw
    split at hw
    · cases hw
    · next hne => exact List.mem_singleton.mp hw ▸ ⟨hne, htoken⟩
  | cons c s ih =>
    rw [tokensFrom] at hw
    by_cases hc : c = sep
    · rw [if_pos hc] at hw
      split at hw
      · exact ih List.not_mem_nil hw
      · next hne =>
        rcases List.mem_cons.mp hw with rfl | hw
        · exact ⟨hne, htoken⟩
        · exact ih List.not_mem_nil hw
    · rw [if_neg hc] at hw
      refine ih ?_ hw
      rw [List.mem_append, List.mem_singleton, not_or]
      exact ⟨htoken, Ne.symm hc⟩

theorem isToken_of_mem_segments {s w : List α} (hw : w ∈ segments sep s) : IsToken sep w := by
  rw [← tokens_eq_segments] at hw
  exact isToken_of_mem_tokensFrom List.not_mem_nil hw

theorem subset_of_mem_tokensFrom {token s w : List α} (hw : w ∈ tokensFrom sep token s) :
    w ⊆ token ++ s := by
  induction s generalizing token with
  | nil =>
    rw [tokensFrom] at hw
    split at hw
    · cases hw
    · rw [List.mem_singleton.mp hw]
      exact List.subset_append_left token []
  | cons c s ih =>
    rw [tokensFrom] at hw
    by_cases hc : c = sep
    · have hskip : s ⊆ token ++ c :: s := fun a ha => by simp [ha]
      rw [if_pos hc] at hw
      split at hw
      · exact List.Subset.trans (ih hw) hskip
      · rcases List.mem_cons.mp hw with rfl | hw
        · exact List.subset_append_left _ _
        · exact List.Subset.trans (ih hw) hskip
    · rw [if_neg hc] at hw
      have hsub := ih hw
      rwa [List.append_assoc] at hsub

/-- The characters of a segment are those of the string. -/
theorem subset_of_mem_segments {s w : List α} (hw : w ∈ segments sep s) : w ⊆ s := by
  rw [← tokens_eq_segments] at hw
  exact subset_of_mem_tokensFrom hw

theorem length_tokensFrom_le (token s : List α) :
    2 * (tokensFrom sep token s).length ≤ s.length + if token = [] then 1 else 2 := by
  induction s generalizing token with
  | nil =>
    rw [tokensFrom]
    split <;> simp
  | cons c s ih =>
    have hempty := ih []
    have hlonger := ih (token ++ [c])
    rw [if_pos rfl] at hempty
    rw [if_neg (List.append_ne_nil_of_right_ne_nil token (List.cons_ne_nil c []))] at hlonger
    rw [tokensFrom, List.length_cons]
    by_cases hc : c = sep
    · by_cases htoken : token = []
      · rw [if_pos hc, if_pos htoken, if_pos htoken]
        omega
      · rw [if_pos hc, if_neg htoken, if_neg htoken, List.length_cons]
        omega
    · rw [if_neg hc]
      split <;> omega

/-- **How many segments** there can be: there is a separator between any two. -/
theorem length_segments_le (s : List α) : 2 * (segments sep s).length ≤ s.length + 1 := by
  have h : 2 * (tokens sep s).length ≤ s.length + if ([] : List α) = [] then 1 else 2 :=
    length_tokensFrom_le [] s
  rwa [if_pos rfl, tokens_eq_segments] at h

/-! ## Tokens -/

/-- **One more word.** -/
theorem tokens_append_sep {w : List α} (hw : IsToken sep w) (s : List α) :
    tokens sep (s ++ sep :: w) = tokens sep s ++ [w] := by
  rw [tokens_eq_segments, tokens_eq_segments, segments_append_sep, segments_of_isToken hw]

omit [DecidableEq α] in
theorem joinTokens_append_singleton (ws : List (List α)) (w : List α) :
    joinTokens sep (ws ++ [w]) = joinTokens sep ws ++ sep :: w := by
  rw [joinTokens, List.flatMap_append, List.flatMap_singleton]
  rfl

/-- **Taking apart what has been put together.** -/
theorem tokens_joinTokens {ws : List (List α)} (hws : ∀ w ∈ ws, IsToken sep w) :
    tokens sep (joinTokens sep ws) = ws := by
  induction ws using List.reverseRecOn with
  | nil => rfl
  | append_singleton ws w ih =>
    rw [joinTokens_append_singleton, tokens_append_sep (hws w (by simp)),
      ih fun v hv => hws v (by simp [hv])]

end Acso.Lib
