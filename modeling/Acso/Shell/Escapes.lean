import Acso.Lib.InPlace
import Acso.Lib.System
import Acso.Shell.MainLoop

/-!
# Escape sequences

`interpret_escape_sequences` of the shell replaces each `\n` and `\t` of a string in place.

* `unescape`: the same over a list of characters.
* `interpretEscapeSequences_eq`: the buffer afterwards.
* `not_hasEscape_unescape`: no escape is left.  A backslash that is kept has no `n` or `t` behind
  it, and what an escape becomes is none of the three.
* `interpretEscapeSequences_replaces`: the loop over its turns, and a second call.
-/

namespace Acso.Shell

open Acso.Lib

def backslash : Byte := 0x5c
def charN : Byte := 0x6e
def charT : Byte := 0x74
def tab : Byte := 0x09

/-! ## The code -/

/-- A turn of `while (*src)` on the character at `src`; `none` if it leaves the buffer. -/
def escapeStep (c : Byte) (s : InPlace Byte) : Option (InPlace Byte) :=
  if c = backslash then do
    let d ← s.buffer[s.src + 1]?
    if d ≠ 0 then
      if d = charN then pure (s.put newline 2)
      else if d = charT then pure (s.put tab 2)
      else pure (s.put c 1)
    else pure (s.put c 1)
  else pure (s.put c 1)

/-- `none` if there is no NUL in the buffer. -/
def escapeLoop : Nat → InPlace Byte → Option (InPlace Byte)
  | 0, _ => none
  | fuel + 1, s =>
    match s.buffer[s.src]? with
    | none => none
    | some c => if c = 0 then some s else (escapeStep c s).bind (escapeLoop fuel)

/-- The buffer afterwards.  The string starts at the place `str`. -/
def interpretEscapeSequences (buffer : List Byte) (str : Nat) : Option (List Byte) :=
  (escapeLoop buffer.length ⟨buffer, str, str⟩).map fun s => s.buffer.set s.dst 0

/-- The loop, turn by turn. -/
def escapeTurns : System (InPlace Byte) Unit where
  step s _ := do
    let c ← s.buffer[s.src]?
    if c = 0 then none else escapeStep c s

/-! ## The characters -/

def IsEscape (c d : Byte) : Prop := c = backslash ∧ (d = charN ∨ d = charT)

instance (c d : Byte) : Decidable (IsEscape c d) := inferInstanceAs (Decidable (_ ∧ _))

/-- There is a backslash with `n` or `t` behind it. -/
def HasEscape (s : List Byte) : Prop := ∃ front c d rest, s = front ++ c :: d :: rest ∧ IsEscape c d

/-- What an escape stands for. -/
def escaped (d : Byte) : Byte := if d = charN then newline else tab

/-- From left to right, each escape replaced. -/
def unescape : List Byte → List Byte
  | [] => []
  | [c] => [c]
  | c :: d :: s => if IsEscape c d then escaped d :: unescape s else c :: unescape (d :: s)

theorem unescape_escape {c d : Byte} (h : IsEscape c d) (s : List Byte) :
    unescape (c :: d :: s) = escaped d :: unescape s := if_pos h

theorem unescape_keep {c d : Byte} (h : ¬ IsEscape c d) (s : List Byte) :
    unescape (c :: d :: s) = c :: unescape (d :: s) := if_neg h

/-- What an escape becomes is no part of one. -/
theorem escaped_plain (d : Byte) :
    escaped d ≠ 0 ∧ escaped d ≠ backslash ∧ escaped d ≠ charN ∧ escaped d ≠ charT := by
  rw [escaped]
  split <;> decide

theorem hasEscape_cons {c : Byte} {s : List Byte} :
    HasEscape (c :: s) ↔ (∃ d rest, s = d :: rest ∧ IsEscape c d) ∨ HasEscape s := by
  constructor
  · rintro ⟨front, a, d, rest, heq, h⟩
    cases front with
    | nil =>
      obtain ⟨rfl, rfl⟩ := List.cons.inj heq
      exact .inl ⟨d, rest, rfl, h⟩
    | cons b front => exact .inr ⟨front, a, d, rest, (List.cons.inj heq).2, h⟩
  · rintro (⟨d, rest, rfl, h⟩ | ⟨front, a, d, rest, rfl, h⟩)
    · exact ⟨[], c, d, rest, rfl, h⟩
    · exact ⟨c :: front, a, d, rest, rfl, h⟩

theorem not_hasEscape_nil : ¬ HasEscape [] := by
  rintro ⟨front, c, d, rest, heq, -⟩
  cases front <;> cases heq

/-- The first character is kept, or it is what an escape becomes. -/
theorem head_unescape {d e : Byte} {s rest : List Byte} (h : unescape (d :: s) = e :: rest) :
    e = d ∨ ∃ d', e = escaped d' := by
  cases s with
  | nil => exact .inl (List.cons.inj h).1.symm
  | cons d' s =>
    by_cases hesc : IsEscape d d'
    · rw [unescape_escape hesc] at h
      exact .inr ⟨d', (List.cons.inj h).1.symm⟩
    · rw [unescape_keep hesc] at h
      exact .inl (List.cons.inj h).1.symm

/-- **No escape is left.** -/
theorem not_hasEscape_unescape (s : List Byte) : ¬ HasEscape (unescape s) := by
  induction s using unescape.induct with
  | case1 => exact not_hasEscape_nil
  | case2 c =>
    rw [unescape, hasEscape_cons, not_or]
    refine ⟨?_, not_hasEscape_nil⟩
    rintro ⟨d, rest, heq, -⟩
    cases heq
  | case3 c d s h ih =>
    rw [unescape_escape h, hasEscape_cons, not_or]
    refine ⟨?_, ih⟩
    rintro ⟨e, rest, -, hesc⟩
    exact (escaped_plain d).2.1 hesc.1
  | case4 c d s h ih =>
    rw [unescape_keep h, hasEscape_cons, not_or]
    refine ⟨?_, ih⟩
    rintro ⟨e, rest, heq, hc, he⟩
    rcases head_unescape heq with rfl | ⟨d', rfl⟩
    · exact h ⟨hc, he⟩
    · exact he.elim (escaped_plain d').2.2.1 (escaped_plain d').2.2.2

theorem unescape_eq_self {s : List Byte} (h : ¬ HasEscape s) : unescape s = s := by
  induction s using unescape.induct with
  | case1 => rfl
  | case2 c => rfl
  | case3 c d s hesc _ => exact absurd ⟨[], c, d, s, rfl, hesc⟩ h
  | case4 c d s hesc ih =>
    rw [hasEscape_cons, not_or] at h
    rw [unescape_keep hesc, ih h.2]

/-- What stays as it is has no escapes. -/
theorem unescape_eq_self_iff (s : List Byte) : unescape s = s ↔ ¬ HasEscape s := by
  constructor
  · intro h
    have hnone := not_hasEscape_unescape s
    rwa [h] at hnone
  · exact unescape_eq_self

theorem zero_notMem_unescape {s : List Byte} (h : (0 : Byte) ∉ s) : (0 : Byte) ∉ unescape s := by
  induction s using unescape.induct with
  | case1 => exact h
  | case2 c => exact h
  | case3 c d s hesc ih =>
    simp only [List.mem_cons, not_or] at h
    rw [unescape_escape hesc, List.mem_cons, not_or]
    exact ⟨(escaped_plain d).1.symm, ih h.2.2⟩
  | case4 c d s hesc ih =>
    rw [List.mem_cons, not_or] at h
    rw [unescape_keep hesc, List.mem_cons, not_or]
    exact ⟨h.1, ih h.2⟩

/-! ## The loop -/

section loop

variable {front tail out rest : List Byte} {s : InPlace Byte} {c : Byte}

/-- A turn on a character that is kept. -/
theorem escapeStep_keep {d : Byte} (hd : s.buffer[s.src + 1]? = some d) (h : ¬ IsEscape c d) :
    escapeStep c s = some (s.put c 1) := by
  rw [escapeStep]
  by_cases hc : c = backslash
  · have hn : d ≠ charN := fun heq => h ⟨hc, .inl heq⟩
    have ht : d ≠ charT := fun heq => h ⟨hc, .inr heq⟩
    rw [if_pos hc, hd, Option.bind_eq_bind, Option.bind_some, if_neg hn, if_neg ht, ite_self]
    rfl
  · rw [if_neg hc]
    rfl

/-- A turn on an escape. -/
theorem escapeStep_escape {d : Byte} (hd : s.buffer[s.src + 1]? = some d) (h : IsEscape c d) :
    escapeStep c s = some (s.put (escaped d) 2) := by
  obtain ⟨hc, hd'⟩ := h
  rw [escapeStep, if_pos hc, hd, Option.bind_eq_bind, Option.bind_some]
  rcases hd' with rfl | rfl <;> rfl

theorem escapeLoop_nul (hc : s.buffer[s.src]? = some 0) (fuel : Nat) :
    escapeLoop (fuel + 1) s = some s := by
  rw [escapeLoop, hc]
  rfl

theorem escapeLoop_succ (hc : s.buffer[s.src]? = some c) (hne : c ≠ 0) (fuel : Nat) :
    escapeLoop (fuel + 1) s = (escapeStep c s).bind (escapeLoop fuel) := by
  rw [escapeLoop, hc]
  exact if_neg hne

/-- **The loop goes to the NUL.** -/
theorem escapeLoop_eq (h : InPlace.Rewrites front (0 :: tail) out rest s)
    (hrest : (0 : Byte) ∉ rest) {fuel : Nat} (hfuel : rest.length < fuel) :
    ∃ t, escapeLoop fuel s = some t ∧ t.src = s.src + rest.length ∧
      InPlace.Rewrites front (0 :: tail) (out ++ unescape rest) [] t := by
  induction rest using unescape.induct generalizing out s fuel with
  | case1 =>
    obtain ⟨fuel, rfl⟩ := Nat.exists_eq_add_one.mpr (Nat.zero_lt_of_lt hfuel)
    refine ⟨s, escapeLoop_nul (h.getElem? 0) fuel, rfl, ?_⟩
    rwa [unescape, List.append_nil]
  | case2 c =>
    obtain ⟨fuel, rfl⟩ : ∃ n, fuel = n + 2 := ⟨fuel - 2, by simp at hfuel; omega⟩
    have hc : c ≠ 0 := fun heq => hrest (heq ▸ List.mem_cons_self)
    have hplain : ¬ IsEscape c 0 := fun hesc => hesc.2.elim (by decide) (by decide)
    have hput := h.put [c] (List.cons_ne_nil c []) c
    refine ⟨_, ?_, rfl, hput⟩
    rw [escapeLoop_succ (h.getElem? 0) hc, escapeStep_keep (h.getElem? 1) hplain, Option.bind_some]
    exact escapeLoop_nul (hput.getElem? 0) fuel
  | case3 c d rest hesc ih =>
    obtain ⟨fuel, rfl⟩ := Nat.exists_eq_add_one.mpr (Nat.zero_lt_of_lt hfuel)
    simp only [List.mem_cons, not_or] at hrest
    have hput := h.put [c, d] (List.cons_ne_nil c [d]) (escaped d)
    have hshort : rest.length < fuel := by
      simp only [List.length_cons] at hfuel
      omega
    obtain ⟨t, hloop, hsrc, hend⟩ := ih hput hrest.2.2 hshort
    refine ⟨t, ?_, hsrc.trans (Nat.add_right_comm s.src 2 rest.length), ?_⟩
    · rw [escapeLoop_succ (h.getElem? 0) (Ne.symm hrest.1), escapeStep_escape (h.getElem? 1) hesc]
      exact hloop
    · rw [unescape_escape hesc]
      rwa [List.append_assoc] at hend
  | case4 c d rest hesc ih =>
    obtain ⟨fuel, rfl⟩ := Nat.exists_eq_add_one.mpr (Nat.zero_lt_of_lt hfuel)
    rw [List.mem_cons, not_or] at hrest
    have hput := h.put [c] (List.cons_ne_nil c []) c
    obtain ⟨t, hloop, hsrc, hend⟩ := ih hput hrest.2 (Nat.lt_of_succ_lt_succ hfuel)
    refine ⟨t, ?_, hsrc.trans (Nat.add_right_comm s.src 1 (d :: rest).length), ?_⟩
    · rw [escapeLoop_succ (h.getElem? 0) (Ne.symm hrest.1), escapeStep_keep (h.getElem? 1) hesc]
      exact hloop
    · rw [unescape_keep hesc]
      rwa [List.append_assoc] at hend

end loop

/-- **The buffer afterwards.**  What the string has lost lies behind its NUL. -/
theorem interpretEscapeSequences_eq (front : List Byte) {str : List Byte} (hstr : (0 : Byte) ∉ str)
    (tail : List Byte) :
    ∃ more, interpretEscapeSequences (front ++ (str ++ 0 :: tail)) front.length =
        some (front ++ (unescape str ++ 0 :: (more ++ tail))) ∧
      (unescape str).length + more.length = str.length := by
  have hstart := InPlace.rewrites_start front (0 :: tail) str
  have hfuel : str.length < (front ++ (str ++ 0 :: tail)).length := by
    simp only [List.length_append, List.length_cons]
    omega
  obtain ⟨t, hloop, hsrc, hend⟩ := escapeLoop_eq hstart hstr hfuel
  obtain ⟨more, hset, hlen⟩ := hend.finish
  rw [List.nil_append] at hset hlen
  refine ⟨more, ?_, Nat.add_left_cancel (hlen.trans hsrc)⟩
  rw [interpretEscapeSequences, hloop, Option.map_some, hset]

/-- Where there are no escapes, nothing changes. -/
theorem interpretEscapeSequences_plain (front : List Byte) {str : List Byte}
    (hstr : (0 : Byte) ∉ str) (hplain : ¬ HasEscape str) (tail : List Byte) :
    interpretEscapeSequences (front ++ (str ++ 0 :: tail)) front.length =
      some (front ++ (str ++ 0 :: tail)) := by
  obtain ⟨more, heq, hlen⟩ := interpretEscapeSequences_eq front hstr tail
  rw [unescape_eq_self hplain] at heq hlen
  have hmore : more = [] := List.eq_nil_of_length_eq_zero (Nat.add_eq_left.mp hlen)
  rwa [hmore] at heq

/-! ## The turns -/

/-- The letter of the escape that a turn replaces, if it replaces one. -/
def replacedAt (s : InPlace Byte) : List Byte :=
  match s.buffer[s.src]?, s.buffer[s.src + 1]? with
  | some c, some d => if IsEscape c d then [d] else []
  | _, _ => []

/-- What a turn does to the two places. -/
theorem escapeTurns_step {s t : InPlace Byte} (h : escapeTurns.step s () = some t) :
    t.dst = s.dst + 1 ∧ t.src = s.src + (replacedAt s).length + 1 := by
  rw [escapeTurns, Option.bind_eq_bind, Option.bind_eq_some_iff] at h
  obtain ⟨c, hc, h⟩ := h
  split at h
  · cases h
  rw [replacedAt, hc]
  cases hd : s.buffer[s.src + 1]? with
  | none =>
    rw [escapeStep, hd] at h
    split at h
    · cases h
    · cases h
      exact ⟨rfl, rfl⟩
  | some d =>
    dsimp only
    by_cases hesc : IsEscape c d
    · rw [escapeStep_escape hd hesc] at h
      rw [if_pos hesc]
      cases h
      exact ⟨rfl, rfl⟩
    · rw [escapeStep_keep hd hesc] at h
      rw [if_neg hesc]
      cases h
      exact ⟨rfl, rfl⟩

/-- The loop is a run of its turns, to the NUL. -/
theorem run_of_escapeLoop {fuel : Nat} {s t : InPlace Byte} (h : escapeLoop fuel s = some t) :
    ∃ ls, escapeTurns.run s ls = some t ∧ t.buffer[t.src]? = some 0 := by
  induction fuel generalizing s with
  | zero => cases h
  | succ fuel ih =>
    rw [escapeLoop] at h
    cases hc : s.buffer[s.src]? with
    | none =>
      rw [hc] at h
      cases h
    | some c =>
      rw [hc] at h
      dsimp only at h
      by_cases hnul : c = 0
      · rw [if_pos hnul, Option.some.injEq] at h
        subst h
        exact ⟨[], rfl, hnul ▸ hc⟩
      · rw [if_neg hnul, Option.bind_eq_some_iff] at h
        obtain ⟨s', hstep, hloop⟩ := h
        obtain ⟨ls, hrun, hend⟩ := ih hloop
        have hturn : escapeTurns.step s () = (s.buffer[s.src]?).bind _ := rfl
        rw [hc, Option.bind_some, if_neg hnul, hstep] at hturn
        exact ⟨() :: ls, (escapeTurns.run_cons_eq_some).mpr ⟨s', hturn, hrun⟩, hend⟩

/-- The place that is read is ahead of the other by what has been replaced. -/
theorem dst_add_replaced {s t : InPlace Byte} {ls : List Unit} (hs : s.dst = s.src)
    (ht : escapeTurns.run s ls = some t) :
    t.dst + (escapeTurns.log (fun s _ => replacedAt s) s ls).length = t.src := by
  have hstep : ∀ (es : List Byte) (s : InPlace Byte) (l : Unit) (s' : InPlace Byte),
      s.dst + es.length = s.src → escapeTurns.step s l = some s' →
        s'.dst + (es ++ replacedAt s).length = s'.src := by
    intro es s l s' hplaces hturn
    obtain ⟨hdst, hsrc⟩ := escapeTurns_step hturn
    rw [hdst, hsrc, List.length_append]
    omega
  have hinit : s.dst + ([] : List Byte).length = s.src := hs
  have hrun := escapeTurns.log_invariant hstep hinit ht
  rwa [List.nil_append] at hrun

/-- In front of a string. -/
def escapeStart (front str tail : List Byte) : InPlace Byte :=
  ⟨front ++ (str ++ 0 :: tail), front.length, front.length⟩

/-- What the function makes of a string: `out`, with its NUL, and `more` behind it.  A turn writes
once, at the `dst` that it finds; so does the NUL. -/
structure Interprets (front str tail out more : List Byte) : Prop where
  buffer : interpretEscapeSequences (front ++ (str ++ 0 :: tail)) front.length =
    some (front ++ (out ++ 0 :: (more ++ tail)))
  nul : (0 : Byte) ∉ out
  behind : ∀ ls, escapeTurns.Visits (fun s => s.dst ≤ s.src) (escapeStart front str tail) ls
  plain : ¬ HasEscape out
  length : ∃ ls s, escapeTurns.run (escapeStart front str tail) ls = some s ∧
    s.buffer[s.src]? = some 0 ∧
    out.length + (escapeTurns.log (fun s _ => replacedAt s) (escapeStart front str tail) ls).length =
      str.length
  again : interpretEscapeSequences (front ++ (out ++ 0 :: (more ++ tail))) front.length =
    some (front ++ (out ++ 0 :: (more ++ tail)))

/-- **Escapes are replaced completely.**  `dst` never passes `src`, no escape is left, the string
is shorter by the number of replaced escapes, and a second call changes nothing. -/
theorem interpretEscapeSequences_replaces (front : List Byte) {str : List Byte}
    (hstr : (0 : Byte) ∉ str) (tail : List Byte) :
    ∃ more, Interprets front str tail (unescape str) more := by
  obtain ⟨more, hbuffer, -⟩ := interpretEscapeSequences_eq front hstr tail
  have hnul := zero_notMem_unescape hstr
  have hplain := not_hasEscape_unescape str
  have hbehind : ∀ ls,
      escapeTurns.Visits (fun s => s.dst ≤ s.src) (escapeStart front str tail) ls := by
    refine fun ls => escapeTurns.visits_of_invariant ?_ ls (Nat.le_refl front.length)
    intro s l s' hle hstep
    obtain ⟨hdst, hsrc⟩ := escapeTurns_step hstep
    omega
  have hstart := InPlace.rewrites_start front (0 :: tail) str
  obtain ⟨t, hloop, hsrc, hend⟩ := escapeLoop_eq hstart hstr (Nat.lt_succ_self _)
  obtain ⟨ls, hrun, hzero⟩ := run_of_escapeLoop hloop
  have hplaces := dst_add_replaced rfl hrun
  have hlength : (unescape str).length + (escapeTurns.log (fun s _ => replacedAt s)
      (escapeStart front str tail) ls).length = str.length := by
    rw [hend.dst, hsrc, List.nil_append, Nat.add_assoc] at hplaces
    exact Nat.add_left_cancel hplaces
  exact ⟨more, hbuffer, hnul, hbehind, hplain, ⟨ls, t, hrun, hzero, hlength⟩,
    interpretEscapeSequences_plain front hnul hplain (more ++ tail)⟩

/-- `a\\\n\t`, with three backslashes in a row. -/
theorem interpretEscapeSequences_backslashes :
    ∃ more, Interprets [] [0x61, 0x5c, 0x5c, 0x5c, 0x6e, 0x5c, 0x74] []
      [0x61, 0x5c, 0x5c, 0x0a, 0x09] more :=
  interpretEscapeSequences_replaces [] (by decide) []

end Acso.Shell
