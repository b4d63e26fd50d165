import Mathlib.Data.List.TakeWhile
import Acso.Lib.Tokens

/-!
# `strtok`

The calls of `strtok` on one buffer: each skips separators, ends the word behind them by
writing a NUL over the separator after it, and keeps the place behind that for the next
call.  On a terminated string they yield its segments (`strtokWords_eq`), so a loop over the
calls is a loop over the segments (`strtokLoop_eq`).

`StoredIn` says where a string lies in a buffer.  Strings that are `Spaced` do not meet, so writing
over one of them leaves the others (`Spaced.strings_eq`).
-/

namespace Acso.Lib

variable {α : Type} [DecidableEq α]

/-- The buffer, and the place where the next call goes on. -/
structure Strtok (α : Type) where
  buffer : List α
  saved : Nat

/-- The string at a place of a buffer, without its NUL. -/
def stringAt (nul : α) (buffer : List α) (p : Nat) : List α :=
  (buffer.drop p).takeWhile fun c => decide (c ≠ nul)

/-- The first place from `i` on whose character does not satisfy `p`. -/
def skipWhile (p : α → Bool) (buffer : List α) (i : Nat) : Nat :=
  i + ((buffer.drop i).takeWhile p).length

/-- The place of the next word, if there is one. -/
def strtok (nul sep : α) (st : Strtok α) : Option Nat × Strtok α :=
  -- `strspn`
  let s := skipWhile (fun c => decide (c = sep)) st.buffer st.saved
  if st.buffer.getD s nul = nul then (none, ⟨st.buffer, s⟩)
  else
    -- `strcspn`
    let last := skipWhile (fun c => decide (c ≠ sep ∧ c ≠ nul)) st.buffer s
    if st.buffer.getD last nul = nul then (some s, ⟨st.buffer, last⟩)
    else (some s, ⟨st.buffer.set last nul, last + 1⟩)

omit [DecidableEq α] in
theorem lt_of_getD_ne {nul : α} {l : List α} {i : Nat} (h : l.getD i nul ≠ nul) : i < l.length := by
  by_contra hge
  rw [List.getD_eq_getElem?_getD, List.getElem?_eq_none (Nat.le_of_not_lt hge)] at h
  exact h rfl

/-- A call that finds a word leaves less of the buffer. -/
theorem strtok_advances {nul sep : α} {st st' : Strtok α} {p : Nat}
    (h : strtok nul sep st = (some p, st')) :
    st'.buffer.length - st'.saved < st.buffer.length - st.saved := by
  have hs : st.saved ≤ skipWhile (fun c => decide (c = sep)) st.buffer st.saved :=
    Nat.le_add_right _ _
  rw [strtok] at h
  generalize skipWhile (fun c => decide (c = sep)) st.buffer st.saved = s at hs h
  have hlast : s ≤ skipWhile (fun c => decide (c ≠ sep ∧ c ≠ nul)) st.buffer s :=
    Nat.le_add_right _ _
  dsimp only at h
  generalize skipWhile (fun c => decide (c ≠ sep ∧ c ≠ nul)) st.buffer s = last at hlast h
  split at h
  · cases h
  · rename_i hword
    have hlt := lt_of_getD_ne hword
    split at h
    · rename_i hend
      have hne : last ≠ s := fun heq => hword (heq ▸ hend)
      cases h
      dsimp only
      omega
    · rename_i hend
      have hlt' := lt_of_getD_ne hend
      cases h
      dsimp only
      rw [List.length_set]
      omega

/-- `for (token = strtok(s, sep); token != NULL; token = strtok(NULL, sep)) body`, the first
token of which is number `i`. -/
def strtokLoop {m : Type → Type} [Monad m] {σ : Type} (nul sep : α)
    (body : Nat → List α → σ → m σ) (i : Nat) (st : Strtok α) (x : σ) : m σ :=
  match h : strtok nul sep st with
  | (none, _) => pure x
  | (some p, st') => do
    let x ← body i (stringAt nul st'.buffer p) x
    strtokLoop nul sep body (i + 1) st' x
termination_by st.buffer.length - st.saved
decreasing_by exact strtok_advances h

/-- The words that the calls find, by their places, and the buffer afterwards. -/
def strtokWords (nul sep : α) (st : Strtok α) : List Nat × List α :=
  match _h : strtok nul sep st with
  | (none, st') => ([], st'.buffer)
  | (some p, st') =>
    let next := strtokWords nul sep st'
    (p :: next.1, next.2)
termination_by st.buffer.length - st.saved
decreasing_by
  apply strtok_advances
  assumption

/-! ## On a terminated string -/

section spec

variable {nul sep : α} (front : List α)

theorem stringAt_append {w : List α} (hw : nul ∉ w) (rest : List α) :
    stringAt nul (front ++ (w ++ nul :: rest)) front.length = w := by
  have hall : ∀ c ∈ w, decide (c ≠ nul) = true :=
    fun c hc => decide_eq_true fun heq => hw (heq ▸ hc)
  rw [stringAt, List.drop_left, List.takeWhile_append_of_pos hall, List.takeWhile_cons_of_neg
    (by simp), List.append_nil]

/-- A string lies in a buffer, with its NUL, from a place on. -/
def StoredIn (nul : α) (front : List α) (p : Nat) (w : List α) : Prop :=
  nul ∉ w ∧ ∃ a b, front = a ++ (w ++ nul :: b) ∧ p = a.length

/-- It does not matter what is behind. -/
theorem StoredIn.stringAt_append {front : List α} {p : Nat} {w : List α} (h : StoredIn nul front p w)
    (rest : List α) : stringAt nul (front ++ rest) p = w := by
  obtain ⟨hw, a, b, rfl, rfl⟩ := h
  rw [List.append_assoc, List.append_assoc, List.cons_append]
  exact Acso.Lib.stringAt_append a hw (b ++ rest)

omit [DecidableEq α] in
theorem StoredIn.append {front : List α} {p : Nat} {w : List α} (h : StoredIn nul front p w)
    (rest : List α) : StoredIn nul (front ++ rest) p w := by
  obtain ⟨hw, a, b, rfl, rfl⟩ := h
  refine ⟨hw, a, b ++ rest, ?_, rfl⟩
  rw [List.append_assoc, List.append_assoc, List.cons_append]

omit [DecidableEq α] in
/-- The string that ends with the buffer. -/
theorem storedIn_last {w : List α} (hw : nul ∉ w) :
    StoredIn nul (front ++ (w ++ [nul])) front.length w :=
  ⟨hw, front, [], rfl, rfl⟩

omit [DecidableEq α] in
/-- The string with a NUL between it and what is left, or the one at the end. -/
theorem storedIn_word (seps : List α) {w more t : List α} (hw : nul ∉ w)
    (hmore : more = [nul] ∨ more = [] ∧ t = []) (rest : List α) :
    StoredIn nul (front ++ (seps ++ (w ++ more)) ++ (t ++ nul :: rest)) (front ++ seps).length w := by
  rcases hmore with rfl | ⟨rfl, rfl⟩
  · exact ⟨hw, front ++ seps, t ++ nul :: rest, by simp, rfl⟩
  · exact ⟨hw, front ++ seps, rest, by simp, rfl⟩

/-! ### Several strings -/

omit [DecidableEq α] in
/-- A string that ends in front of a place lies in front of it. -/
theorem StoredIn.of_append {front rest : List α} {p : Nat} {w : List α}
    (h : StoredIn nul (front ++ rest) p w) (hp : p + w.length < front.length) :
    StoredIn nul front p w := by
  obtain ⟨hw, a, b, heq, rfl⟩ := h
  have hprefix : a ++ (w ++ [nul]) <+: front ++ rest := ⟨b, by simp [heq]⟩
  have hlen : (a ++ (w ++ [nul])).length ≤ front.length := by
    simp only [List.length_append, List.length_singleton]
    omega
  obtain ⟨b', rfl⟩ := List.prefix_of_prefix_length_le hprefix (List.prefix_append front rest) hlen
  exact ⟨hw, a, b', by simp, rfl⟩

/-- What is in front of a string does not matter. -/
theorem stringAt_append_right {p : Nat} (hp : front.length ≤ p) (rest : List α) :
    stringAt nul (front ++ rest) p = stringAt nul rest (p - front.length) := by
  rw [stringAt, stringAt, List.drop_append, List.drop_eq_nil_of_le hp, List.nil_append]

/-- Strings between two places, each behind the NUL of the one before it. -/
inductive Spaced : Nat → Nat → List Nat → List (List α) → Prop
  | nil {m n : Nat} (h : m ≤ n) : Spaced m n [] []
  | cons {m n p : Nat} {w : List α} {ps : List Nat} {ws : List (List α)} (hp : m ≤ p)
      (h : Spaced (p + w.length + 1) n ps ws) : Spaced m n (p :: ps) (w :: ws)

section spaced

variable {m n : Nat} {ps : List Nat} {ws : List (List α)}

omit [DecidableEq α] in
theorem Spaced.mono (h : Spaced m n ps ws) {n' : Nat} (hn : n ≤ n') : Spaced m n' ps ws := by
  induction h with
  | nil h => exact .nil (h.trans hn)
  | cons hp _ ih => exact .cons hp (ih hn)

omit [DecidableEq α] in
/-- One more string behind them. -/
theorem Spaced.append (h : Spaced m n ps ws) {p : Nat} (hp : n ≤ p) (w : List α) :
    Spaced m (p + w.length + 1) (ps ++ [p]) (ws ++ [w]) := by
  induction h with
  | nil h => exact .cons (h.trans hp) (.nil (Nat.le_refl _))
  | cons hp' _ ih => exact .cons hp' (ih hp)

/-- **Writing in front of some strings** leaves them as they are. -/
theorem Spaced.strings_eq (h : Spaced m n ps ws) {front front' rest : List α}
    (hstored : List.Forall₂ (StoredIn nul (front ++ rest)) ps ws)
    (hlen : front'.length = front.length) (hfront : front.length ≤ m) :
    ps.map (stringAt nul (front' ++ rest)) = ws := by
  induction h with
  | nil => rfl
  | @cons m n p w ps ws hp _ ih =>
    obtain ⟨hfirst, hrest⟩ := List.forall₂_cons.mp hstored
    have hple : front.length ≤ p := hfront.trans hp
    have hword := hfirst.stringAt_append []
    rw [List.append_nil, stringAt_append_right _ hple] at hword
    rw [List.map_cons, ih hrest (hple.trans (by omega)),
      stringAt_append_right _ (hlen.trans_le hple), hlen, hword]

end spaced

omit [DecidableEq α] in
/-- Past characters that satisfy `p`, up to one that does not. -/
theorem skipWhile_append {p : α → Bool} {w : List α} (hw : ∀ c ∈ w, p c = true) {d : α}
    (hd : p d = false) (rest : List α) :
    skipWhile p (front ++ (w ++ d :: rest)) front.length = front.length + w.length := by
  rw [skipWhile, List.drop_left, List.takeWhile_append_of_pos hw, List.takeWhile_cons_of_neg
    (by simp [hd]), List.append_nil]

omit [DecidableEq α] in
theorem getD_append_cons (w : List α) (d : α) (rest : List α) :
    (w ++ d :: rest).getD w.length nul = d := by
  rw [List.getD_eq_getElem?_getD, List.getElem?_append_right (Nat.le_refl _), Nat.sub_self]
  rfl

/-- Between the words there are only separators. -/
theorem strtok_end (hne : sep ≠ nul) {seps : List α} (hseps : ∀ c ∈ seps, c = sep) (rest : List α) :
    strtok nul sep ⟨front ++ (seps ++ nul :: rest), front.length⟩ =
      (none, ⟨front ++ (seps ++ nul :: rest), (front ++ seps).length⟩) := by
  have hskip := skipWhile_append front (p := fun c => decide (c = sep))
    (fun c hc => decide_eq_true (hseps c hc)) (decide_eq_false hne.symm) rest
  rw [strtok]
  dsimp only
  rw [hskip, ← List.length_append, ← List.append_assoc, getD_append_cons, if_pos rfl]

/-- A word, up to the separator or the NUL behind it. -/
theorem strtok_word {seps w : List α} (hseps : ∀ c ∈ seps, c = sep) (hw : IsToken sep w)
    (hnul : nul ∉ w) {d : α} (hd : d = nul ∨ d = sep) (rest : List α) :
    strtok nul sep ⟨front ++ (seps ++ (w ++ d :: rest)), front.length⟩ =
      (some (front ++ seps).length,
        if d = nul then ⟨front ++ seps ++ (w ++ nul :: rest), (front ++ seps ++ w).length⟩
        else ⟨front ++ seps ++ (w ++ nul :: rest), (front ++ seps ++ w).length + 1⟩) := by
  obtain ⟨c, v, rfl⟩ := List.exists_cons_of_ne_nil hw.ne_nil
  obtain ⟨hcsep, -⟩ := List.ne_and_not_mem_of_not_mem_cons hw.not_mem
  obtain ⟨hcnul, -⟩ := List.ne_and_not_mem_of_not_mem_cons hnul
  have hskip := skipWhile_append front (p := fun c => decide (c = sep))
    (fun c hc => decide_eq_true (hseps c hc)) (decide_eq_false hcsep.symm) (v ++ d :: rest)
  have hword := skipWhile_append (front ++ seps) (p := fun c => decide (c ≠ sep ∧ c ≠ nul))
    (w := c :: v) (d := d) (fun a ha => decide_eq_true
      ⟨fun heq => hw.not_mem (heq ▸ ha), fun heq => hnul (heq ▸ ha)⟩)
    (decide_eq_false fun h => hd.elim h.2 h.1) rest
  have hfirst : (front ++ seps ++ (c :: (v ++ d :: rest))).getD (front ++ seps).length nul = c :=
    getD_append_cons _ _ _
  have hlast : (front ++ seps ++ (c :: v ++ d :: rest)).getD (front ++ seps ++ c :: v).length nul =
      d := by
    rw [← List.append_assoc, getD_append_cons]
  rw [strtok]
  dsimp only
  rw [List.cons_append, hskip, ← List.length_append, ← List.append_assoc, hfirst,
    if_neg hcnul.symm, ← List.cons_append, hword, ← List.length_append, hlast]
  by_cases hend : d = nul
  · rw [if_pos hend, if_pos hend, hend]
  · rw [if_neg hend, if_neg hend, ← List.append_assoc, List.set_append_right _ _ (Nat.le_refl _),
      Nat.sub_self, List.set_cons_zero, List.append_assoc (front ++ seps)]

/-- Separators, and then a word and the rest, if anything. -/
theorem word_cases (sep : α) (s : List α) : ∃ seps, (∀ c ∈ seps, c = sep) ∧
    (s = seps ∨ ∃ w, IsToken sep w ∧
      (s = seps ++ w ∨ ∃ rest, s = seps ++ (w ++ sep :: rest))) := by
  have hsplit := List.takeWhile_append_dropWhile (p := fun c => decide (c = sep)) (l := s)
  have hstop := List.head?_dropWhile_not (fun c => decide (c = sep)) s
  refine ⟨s.takeWhile fun c => decide (c = sep), ?_, ?_⟩
  · intro c hc
    simpa using List.mem_takeWhile_imp hc
  generalize s.takeWhile (fun c => decide (c = sep)) = seps at hsplit
  generalize s.dropWhile (fun c => decide (c = sep)) = tail at hsplit hstop
  subst hsplit
  cases tail with
  | nil => exact .inl (List.append_nil seps)
  | cons c tail =>
    have hc : c ≠ sep := by simpa using hstop
    have hsplit' := List.takeWhile_append_dropWhile (p := fun c => decide (c ≠ sep)) (l := tail)
    have hstop' := List.head?_dropWhile_not (fun c => decide (c ≠ sep)) tail
    refine .inr ⟨c :: tail.takeWhile fun c => decide (c ≠ sep), ⟨List.cons_ne_nil _ _, ?_⟩, ?_⟩
    · intro hmem
      rcases List.mem_cons.mp hmem with heq | hmem
      · exact hc heq.symm
      · simpa using List.mem_takeWhile_imp hmem
    generalize tail.takeWhile (fun c => decide (c ≠ sep)) = w at hsplit'
    generalize tail.dropWhile (fun c => decide (c ≠ sep)) = rest at hsplit' hstop'
    subst hsplit'
    cases rest with
    | nil => exact .inl (by rw [List.append_nil])
    | cons d rest =>
      obtain rfl : d = sep := by simpa using hstop'
      exact .inr ⟨rest, rfl⟩

/-- **A call** finds no word, or the first one.  What is left of the string lies behind it, with
a NUL in between if there is a separator. -/
theorem strtok_next (hne : sep ≠ nul) {s : List α} (hs : nul ∉ s) (rest : List α) :
    (segments sep s = [] ∧ strtok nul sep ⟨front ++ (s ++ nul :: rest), front.length⟩ =
      (none, ⟨front ++ (s ++ nul :: rest), (front ++ s).length⟩)) ∨
    ∃ seps w more t, (∀ c ∈ seps, c = sep) ∧ (more = [nul] ∨ more = [] ∧ t = []) ∧ w ≠ [] ∧
      nul ∉ w ∧ nul ∉ t ∧ (seps ++ (w ++ (more ++ t))).length = s.length ∧
      segments sep s = w :: segments sep t ∧
      strtok nul sep ⟨front ++ (s ++ nul :: rest), front.length⟩ =
        (some (front ++ seps).length, ⟨front ++ (seps ++ (w ++ more)) ++ (t ++ nul :: rest),
          (front ++ (seps ++ (w ++ more))).length⟩) := by
  obtain ⟨seps, hseps, rfl | ⟨w, hw, rfl | ⟨t, rfl⟩⟩⟩ := word_cases sep s
  · refine .inl ⟨?_, strtok_end front hne hseps rest⟩
    rw [← List.append_nil s, segments_skip hseps, segments_nil]
  · rw [List.mem_append, not_or] at hs
    have hlast := strtok_word front hseps hw hs.2 (.inl rfl) rest
    rw [if_pos rfl] at hlast
    refine .inr ⟨seps, w, [], [], hseps, .inr ⟨rfl, rfl⟩, hw.ne_nil, hs.2, List.not_mem_nil, ?_,
      ?_, ?_⟩
    · simp
    · rw [segments_skip hseps, segments_of_isToken hw, segments_nil]
    · rw [List.append_assoc seps, hlast]
      simp
  · simp only [List.mem_append, List.mem_cons, not_or] at hs
    obtain ⟨-, hsw, -, hst⟩ := hs
    have hword := strtok_word front hseps hw hsw (.inr rfl) (t ++ nul :: rest)
    rw [if_neg hne] at hword
    have hbuffer : front ++ (seps ++ (w ++ sep :: t) ++ nul :: rest) =
        front ++ (seps ++ (w ++ sep :: (t ++ nul :: rest))) := by
      simp only [List.append_assoc, List.cons_append]
    refine .inr ⟨seps, w, [nul], t, hseps, .inl rfl, hw.ne_nil, hsw, hst, ?_, ?_, ?_⟩
    · simp
    · rw [segments_skip hseps, segments_append_sep, segments_of_isToken hw, List.singleton_append]
    · rw [hbuffer, hword]
      simp [Nat.add_assoc]

section loop

variable {m : Type → Type} [Monad m] {σ : Type} (body : Nat → List α → σ → m σ)

theorem strtokLoop_none {st st' : Strtok α} (h : strtok nul sep st = (none, st')) (i : Nat) (x : σ) :
    strtokLoop nul sep body i st x = pure x := by
  rw [strtokLoop, h]

theorem strtokLoop_some {st st' : Strtok α} {p : Nat} (h : strtok nul sep st = (some p, st'))
    (i : Nat) (x : σ) :
    strtokLoop nul sep body i st x =
      body i (stringAt nul st'.buffer p) x >>= strtokLoop nul sep body (i + 1) st' := by
  rw [strtokLoop, h]

/-- **A loop over the calls of `strtok`** is a loop over the segments of the string. -/
theorem strtokLoop_eq (hne : sep ≠ nul) {s : List α} (hs : nul ∉ s) (i : Nat)
    (front rest : List α) (x : σ) :
    strtokLoop nul sep body i ⟨front ++ (s ++ nul :: rest), front.length⟩ x =
      ((segments sep s).zipIdx i).foldlM (fun x c => body c.2 c.1 x) x := by
  -- by induction on the length: what is behind the first word is shorter
  induction hn : s.length using Nat.strongRecOn generalizing s i front x with
  | ind n ih =>
    rcases strtok_next front hne hs rest with
      ⟨hnone, hcall⟩ | ⟨seps, w, more, t, -, hmore, hwne, hw, ht, hlen, hsegments, hcall⟩
    · rw [strtokLoop_none body hcall, hnone]
      rfl
    · have hlt : t.length < n := by
        have hpos := List.length_pos_iff.mpr hwne
        simp only [List.length_append] at hlen
        omega
      have hstored := storedIn_word front seps hw hmore rest
      rw [← List.append_nil (_ ++ (t ++ nul :: rest))] at hcall
      have hword := hstored.stringAt_append []
      rw [strtokLoop_some body hcall, hword, hsegments, List.zipIdx_cons, List.foldlM_cons,
        List.append_nil]
      exact bind_congr fun y => ih t.length hlt ht (i + 1) _ y rfl

end loop

theorem strtokWords_none {st st' : Strtok α} (h : strtok nul sep st = (none, st')) :
    strtokWords nul sep st = ([], st'.buffer) := by
  rw [strtokWords, h]

theorem strtokWords_some {st st' : Strtok α} {p : Nat} (h : strtok nul sep st = (some p, st')) :
    strtokWords nul sep st =
      (p :: (strtokWords nul sep st').1, (strtokWords nul sep st').2) := by
  rw [strtokWords, h]

/-- **All calls together.**  The buffer keeps its length and what is in front of the string and
behind it, and the segments of the string lie in it. -/
theorem strtokWords_eq (hne : sep ≠ nul) {s : List α} (hs : nul ∉ s) (front rest : List α) :
    ∃ ps s', strtokWords nul sep ⟨front ++ (s ++ nul :: rest), front.length⟩ =
        (ps, front ++ (s' ++ nul :: rest)) ∧ s'.length = s.length ∧
      List.Forall₂ (StoredIn nul (front ++ (s' ++ nul :: rest))) ps (segments sep s) := by
  induction hn : s.length using Nat.strongRecOn generalizing s front with
  | ind n ih =>
    rcases strtok_next front hne hs rest with
      ⟨hnone, hcall⟩ | ⟨seps, w, more, t, -, hmore, hwne, hw, ht, hlen, hsegments, hcall⟩
    · refine ⟨[], s, strtokWords_none hcall, hn, ?_⟩
      rw [hnone]
      exact .nil
    · have hlt : t.length < n := by
        have hpos := List.length_pos_iff.mpr hwne
        simp only [List.length_append] at hlen
        omega
      obtain ⟨ps, t', hwords, ht', hstored⟩ := ih t.length hlt ht (front ++ (seps ++ (w ++ more))) rfl
      have hmore' : more = [nul] ∨ more = [] ∧ t' = [] := by
        refine hmore.imp_right fun h => ⟨h.1, List.eq_nil_of_length_eq_zero ?_⟩
        rw [ht', h.2, List.length_nil]
      have hassoc : front ++ (seps ++ (w ++ more)) ++ (t' ++ nul :: rest) =
          front ++ (seps ++ (w ++ (more ++ t')) ++ nul :: rest) := by simp
      have hfirst := storedIn_word front seps hw hmore' rest
      refine ⟨(front ++ seps).length :: ps, seps ++ (w ++ (more ++ t')), ?_, ?_, ?_⟩
      · rw [strtokWords_some hcall, hwords, hassoc]
      · rw [← hn, ← hlen]
        simp only [List.length_append, ht']
      · rw [hsegments, ← hassoc]
        exact .cons hfirst hstored

/-- What the calls leave in front: the separators before the first word, and the word with its
NUL. -/
theorem strtokWords_first (hne : sep ≠ nul) {s w : List α} {ws : List (List α)} (hs : nul ∉ s)
    (hfirst : segments sep s = w :: ws) (rest : List α) :
    ∃ seps more, (∀ c ∈ seps, c = sep) ∧
      (strtokWords nul sep ⟨s ++ nul :: rest, 0⟩).2 = seps ++ (w ++ nul :: more) := by
  rcases strtok_next [] hne hs rest with
    ⟨hnone, -⟩ | ⟨seps, w', more, t, hseps, hmore, -, -, ht, -, hsegments, hcall⟩
  · rw [hnone] at hfirst
    cases hfirst
  · obtain ⟨rfl, -⟩ := List.cons.inj (hsegments.symm.trans hfirst)
    obtain ⟨ps, t', hwords, ht', -⟩ := strtokWords_eq hne ht ([] ++ (seps ++ (w' ++ more))) rest
    have hcall' : strtok nul sep ⟨s ++ nul :: rest, 0⟩ = _ := hcall
    rw [strtokWords_some hcall', hwords]
    rcases hmore with rfl | ⟨rfl, rfl⟩
    · exact ⟨seps, t' ++ nul :: rest, hseps, by simp⟩
    · obtain rfl := List.eq_nil_of_length_eq_zero ht'
      exact ⟨seps, rest, hseps, by simp⟩

end spec

end Acso.Lib
