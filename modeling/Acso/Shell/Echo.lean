import Acso.Lib.Except
import Acso.Shell.Escapes

/-!
# The arguments of a child

A child takes its command apart.  If the arguments start with `echo -e`, it replaces the escapes
of the argument behind them and removes the `-e`, by moving what follows by one place.

* `shiftArgs_eq`: the loop that moves the arguments moves all of them.
* `rewriteEcho_cons`: the arguments of `execvp`.  Only the first operand loses its escapes.
* `echo_escapes_iff`: so they are the right ones only if there is one, and no other has escapes.
-/

namespace Acso.Shell

open Acso.Lib

def echo : List Byte := [0x65, 0x63, 0x68, 0x6f]
def dashE : List Byte := [0x2d, 0x65]

/-! ## The code -/

/-- Why a child does not come to `execvp`: it follows a `NULL`, or it leaves an array. -/
inductive Crash
  | null
  | outside
  deriving DecidableEq

/-- `args[i]`. -/
def argAt (args : List (Option Nat)) (i : Nat) : Except Crash (Option Nat) :=
  match args[i]? with
  | some p => .ok p
  | none => .error .outside

/-- `strcmp(p, s) == 0`. -/
def strcmpEq (buffer : List Byte) (p : Option Nat) (s : List Byte) : Except Crash Bool :=
  match p with
  | some p => .ok (decide (stringAt 0 buffer p = s))
  | none => .error .null

/-- The test in front of the rewriting. -/
def isEchoE (parsed : ParsedArgs) : Except Crash Bool := do
  let first ← argAt parsed.args 0
  let isEcho ← strcmpEq parsed.buffer first echo
  if isEcho then
    let second ← argAt parsed.args 1
    if second ≠ none then strcmpEq parsed.buffer second dashE else pure false
  else pure false

/-- The call of `interpret_escape_sequences`. -/
def interpretArg (buffer : List Byte) (p : Option Nat) : Except Crash (List Byte) :=
  match p with
  | some p =>
    match interpretEscapeSequences buffer p with
    | some buffer => .ok buffer
    | none => .error .outside
  | none => .error .null

/-- `for (; args[j] != NULL; j++) args[j] = args[j + 1]`. -/
def shiftArgs : Nat → Nat → List (Option Nat) → Except Crash (List (Option Nat))
  | 0, _, _ => .error .outside
  | fuel + 1, j, args => do
    let arg ← argAt args j
    if arg ≠ none then
      let next ← argAt args (j + 1)
      shiftArgs fuel (j + 1) (args.set j next)
    else pure args

/-- What becomes of the arguments in front of `execvp`. -/
def rewriteEcho (parsed : ParsedArgs) : Except Crash ParsedArgs := do
  let rewrites ← isEchoE parsed
  if rewrites then
    let third ← argAt parsed.args 2
    let buffer ← interpretArg parsed.buffer third
    let args ← shiftArgs parsed.args.length 1 parsed.args
    pure ⟨buffer, args⟩
  else pure parsed

/-- What `execvp` is called with; `args` has `MAX_ARGS` places. -/
def childArgs (command : List Byte) : Except Crash ParsedArgs :=
  match parseArguments command with
  | some parsed =>
    if parsed.args.length ≤ maxArgs then rewriteEcho parsed else .error .outside
  | none => .error .outside

/-- What is in front of the first `NULL`. -/
def beforeNull {α : Type} : List (Option α) → List α
  | some a :: args => a :: beforeNull args
  | _ => []

/-- The arguments that the program is given. -/
def ParsedArgs.argv (parsed : ParsedArgs) : List (List Byte) := beforeNull parsed.strings

/-! ## The loop -/

theorem beforeNull_append {α : Type} (l : List α) (rest : List (Option α)) :
    beforeNull (l.map some ++ none :: rest) = l := by
  induction l with
  | nil => rfl
  | cons a l ih => exact congrArg (a :: ·) ih

theorem argv_mk (buffer : List Byte) (places : List Nat) (rest : List (Option Nat)) :
    (⟨buffer, places.map some ++ none :: rest⟩ : ParsedArgs).argv =
      places.map (stringAt 0 buffer) := by
  have hnull := beforeNull_append (places.map (stringAt 0 buffer))
    (rest.map (Option.map (stringAt 0 buffer)))
  rw [List.map_map] at hnull
  rw [ParsedArgs.argv, ParsedArgs.strings, List.map_append, List.map_cons, List.map_map]
  exact hnull

theorem argAt_length (front : List (Option Nat)) (p : Option Nat) (rest : List (Option Nat)) :
    argAt (front ++ p :: rest) front.length = .ok p := by
  rw [argAt, List.getElem?_append_right (Nat.le_refl _), Nat.sub_self]
  rfl

/-- A turn takes over the argument behind. -/
theorem shiftArgs_some (front : List (Option Nat)) (p : Nat) (q : Option Nat)
    (rest : List (Option Nat)) (fuel : Nat) :
    shiftArgs (fuel + 1) front.length (front ++ some p :: q :: rest) =
      shiftArgs fuel (front ++ [q]).length (front ++ [q] ++ q :: rest) := by
  have hnext : argAt (front ++ some p :: q :: rest) (front.length + 1) = .ok q := by
    have h := argAt_length (front ++ [some p]) q rest
    rwa [List.length_append, List.length_singleton, List.append_assoc, List.singleton_append] at h
  have hset : (front ++ some p :: q :: rest).set front.length q = front ++ [q] ++ q :: rest := by
    rw [List.set_append_right _ _ (Nat.le_refl _), Nat.sub_self, List.append_assoc]
    rfl
  rw [shiftArgs, argAt_length, ok_bind, if_pos (Option.some_ne_none p), hnext, ok_bind, hset,
    List.length_append]
  rfl

theorem shiftArgs_none (front rest : List (Option Nat)) (fuel : Nat) :
    shiftArgs (fuel + 1) front.length (front ++ none :: rest) = .ok (front ++ none :: rest) := by
  rw [shiftArgs, argAt_length, ok_bind, if_neg (not_not_intro rfl)]
  rfl

/-- **Every argument is moved**, and the `NULL` behind them too. -/
theorem shiftArgs_eq (front : List (Option Nat)) (p : Nat) (ps : List Nat) {fuel : Nat}
    (hfuel : ps.length + 2 ≤ fuel) :
    shiftArgs fuel front.length (front ++ some p :: (ps.map some ++ [none])) =
      .ok (front ++ (ps.map some ++ [none, none])) := by
  induction ps generalizing front p fuel with
  | nil =>
    obtain ⟨fuel, rfl⟩ : ∃ n, fuel = n + 2 := ⟨fuel - 2, by simp at hfuel; omega⟩
    rw [List.map_nil, List.nil_append, shiftArgs_some, shiftArgs_none, List.append_assoc]
    rfl
  | cons q ps ih =>
    obtain ⟨fuel, rfl⟩ := Nat.exists_eq_add_one.mpr (Nat.zero_lt_of_lt hfuel)
    rw [List.map_cons, List.cons_append, shiftArgs_some, ih _ _ (Nat.le_of_succ_le_succ hfuel),
      List.append_assoc]
    rfl

/-! ## `echo -e` -/

theorem strcmpEq_some (buffer : List Byte) (p : Nat) (s : List Byte) :
    strcmpEq buffer (some p) s = .ok (decide (stringAt 0 buffer p = s)) := rfl

/-- The arguments start with `echo -e`. -/
theorem isEchoE_eq {buffer : List Byte} {p₀ p₁ : Nat} (rest : List (Option Nat))
    (hecho : stringAt 0 buffer p₀ = echo) (hdash : stringAt 0 buffer p₁ = dashE) :
    isEchoE ⟨buffer, some p₀ :: some p₁ :: rest⟩ = .ok true := by
  have hfirst : argAt (some p₀ :: some p₁ :: rest) 0 = .ok (some p₀) := rfl
  have hsecond : argAt (some p₀ :: some p₁ :: rest) 1 = .ok (some p₁) := rfl
  rw [isEchoE, hfirst, ok_bind, strcmpEq_some, decide_eq_true hecho, ok_bind, if_pos rfl, hsecond,
    ok_bind, if_pos (Option.some_ne_none p₁), strcmpEq_some, decide_eq_true hdash]

/-- Without an operand `NULL` is followed. -/
theorem rewriteEcho_nil {buffer : List Byte} {p₀ p₁ : Nat}
    (hecho : stringAt 0 buffer p₀ = echo) (hdash : stringAt 0 buffer p₁ = dashE) :
    rewriteEcho ⟨buffer, [some p₀, some p₁, none]⟩ = .error .null := by
  rw [rewriteEcho, isEchoE_eq [none] hecho hdash]
  rfl

/-- **The strings, once the third one has been interpreted.** -/
theorem interpretArg_third {buffer : List Byte} {p₀ p₁ p₂ last : Nat} {ps : List Nat}
    {a : List Byte} {as : List (List Byte)}
    (hstored : List.Forall₂ (StoredIn 0 buffer) (p₀ :: p₁ :: p₂ :: ps) (echo :: dashE :: a :: as))
    (hspaced : Spaced 0 last (p₀ :: p₁ :: p₂ :: ps) (echo :: dashE :: a :: as)) :
    ∃ buffer', interpretArg buffer (some p₂) = .ok buffer' ∧
      (p₀ :: p₂ :: ps).map (stringAt 0 buffer') = echo :: unescape a :: as := by
  simp only [List.forall₂_cons] at hstored
  obtain ⟨hfirst, -, ⟨hnul, front, rest, rfl, rfl⟩, hbehind⟩ := hstored
  cases hspaced with | cons _ hspaced =>
  cases hspaced with | cons h₁ hspaced =>
  cases hspaced with | cons h₂ hspaced =>
  obtain ⟨more, hinterpret, hlen⟩ := interpretEscapeSequences_eq front hnul rest
  refine ⟨front ++ (unescape a ++ 0 :: (more ++ rest)), ?_, ?_⟩
  · rw [interpretArg, hinterpret]
  have hecho : stringAt 0 (front ++ (unescape a ++ 0 :: (more ++ rest))) p₀ = echo :=
    (hfirst.of_append (by omega)).stringAt_append _
  have hthird : stringAt 0 (front ++ (unescape a ++ 0 :: (more ++ rest))) front.length =
      unescape a := stringAt_append front (zero_notMem_unescape hnul) _
  have hothers : ps.map (stringAt 0 (front ++ (unescape a ++ 0 :: (more ++ rest)))) = as := by
    have hsplit : front ++ (a ++ 0 :: rest) = front ++ (a ++ [0]) ++ rest := by simp
    have hsplit' : front ++ (unescape a ++ 0 :: (more ++ rest)) =
        front ++ (unescape a ++ 0 :: more) ++ rest := by simp
    rw [hsplit] at hbehind
    rw [hsplit']
    refine hspaced.strings_eq hbehind ?_ ?_
    · simp only [List.length_append, List.length_cons, List.length_nil]
      omega
    · simp only [List.length_append, List.length_cons, List.length_nil]
      omega
  rw [List.map_cons, List.map_cons, hecho, hthird, hothers]

/-- **The arguments of `execvp`**: the first operand without escapes, the others as they are. -/
theorem rewriteEcho_cons {buffer : List Byte} {p₀ p₁ p₂ last : Nat} {ps : List Nat}
    {a : List Byte} {as : List (List Byte)}
    (hstored : List.Forall₂ (StoredIn 0 buffer) (p₀ :: p₁ :: p₂ :: ps) (echo :: dashE :: a :: as))
    (hspaced : Spaced 0 last (p₀ :: p₁ :: p₂ :: ps) (echo :: dashE :: a :: as)) :
    ∃ parsed, rewriteEcho ⟨buffer, (p₀ :: p₁ :: p₂ :: ps).map some ++ [none]⟩ = .ok parsed ∧
      parsed.argv = echo :: unescape a :: as := by
  have hstrings := strings_eq hstored []
  simp only [List.append_nil, List.map_cons, List.cons.injEq] at hstrings
  obtain ⟨buffer', hinterpret, hargv⟩ := interpretArg_third hstored hspaced
  have htest : isEchoE ⟨buffer, (p₀ :: p₁ :: p₂ :: ps).map some ++ [none]⟩ = .ok true :=
    isEchoE_eq _ hstrings.1 hstrings.2.1
  have hthird : argAt ((p₀ :: p₁ :: p₂ :: ps).map some ++ [none]) 2 = .ok (some p₂) := rfl
  have hshift : shiftArgs ((p₀ :: p₁ :: p₂ :: ps).map some ++ [none]).length 1
      ((p₀ :: p₁ :: p₂ :: ps).map some ++ [none]) =
        .ok ((p₀ :: p₂ :: ps).map some ++ [none, none]) :=
    shiftArgs_eq [some p₀] p₁ (p₂ :: ps) (by simp)
  refine ⟨⟨buffer', (p₀ :: p₂ :: ps).map some ++ [none, none]⟩, ?_, ?_⟩
  · rw [rewriteEcho, htest, ok_bind, if_pos rfl]
    dsimp only
    rw [hthird, ok_bind, hinterpret, ok_bind, hshift, ok_bind]
    rfl
  · rw [argv_mk, hargv]

theorem rewriteEcho_echo {buffer : List Byte} {places : List Nat} {last : Nat}
    {operands : List (List Byte)}
    (hstored : List.Forall₂ (StoredIn 0 buffer) places (echo :: dashE :: operands))
    (hspaced : Spaced 0 last places (echo :: dashE :: operands)) :
    (operands = [] ∧ rewriteEcho ⟨buffer, places.map some ++ [none]⟩ = .error .null) ∨
      ∃ a as given, operands = a :: as ∧
        rewriteEcho ⟨buffer, places.map some ++ [none]⟩ = .ok given ∧
        given.argv = echo :: unescape a :: as := by
  have hstrings := strings_eq hstored []
  rw [List.append_nil] at hstrings
  obtain ⟨p₀, places, rfl⟩ := List.exists_cons_of_length_eq_add_one hstored.length_eq
  obtain ⟨p₁, places, rfl⟩ := List.exists_cons_of_length_eq_add_one
    (List.forall₂_cons.mp hstored).2.length_eq
  simp only [List.map_cons, List.cons.injEq] at hstrings
  obtain ⟨hecho, hdash, hoperands⟩ := hstrings
  cases operands with
  | nil =>
    rw [List.map_eq_nil_iff] at hoperands
    rw [hoperands]
    exact .inl ⟨rfl, rewriteEcho_nil hecho hdash⟩
  | cons a as =>
    obtain ⟨p₂, ps, rfl, -, -⟩ := List.map_eq_cons_iff.mp hoperands
    obtain ⟨given, hgiven, hargv⟩ := rewriteEcho_cons hstored hspaced
    exact .inr ⟨a, as, given, rfl, hgiven, hargv⟩

/-! ## What the program is given -/

theorem map_unescape_eq_self (as : List (List Byte)) :
    as = as.map unescape ↔ ∀ a ∈ as, ¬ HasEscape a := by
  conv_lhs => lhs; rw [← List.map_id as]
  rw [List.map_inj_left]
  refine forall₂_congr fun a _ => ?_
  rw [id_eq, eq_comm, unescape_eq_self_iff]

theorem childArgs_eq {command buffer : List Byte} {places : List Nat}
    (hparsed : parseArguments command = some ⟨buffer, places.map some ++ [none]⟩) :
    childArgs command = if places.length + 1 ≤ maxArgs then
      rewriteEcho ⟨buffer, places.map some ++ [none]⟩ else .error .outside := by
  have hlen : (places.map some ++ [none]).length = places.length + 1 := by
    rw [List.length_append, List.length_map, List.length_singleton]
  rw [childArgs, hparsed]
  dsimp only
  rw [hlen]

/-- **When all escapes are replaced.**  The arguments are right exactly if there is an operand, no
escape in any but the first one, and room for the arguments and their `NULL`. -/
theorem echo_escapes_iff {line : List Byte} (hnul : (0 : Byte) ∉ line) {tail : List Byte}
    {parsed : ParsedArgs} (hparsed : parseArguments (line ++ 0 :: tail) = some parsed)
    {operands : List (List Byte)}
    (hargs : parsed.strings = (echo :: dashE :: operands).map some ++ [none]) :
    (∃ given, childArgs (line ++ 0 :: tail) = .ok given ∧
      given.argv = echo :: operands.map unescape) ↔
        operands ≠ [] ∧ (∀ a ∈ operands.tail, ¬ HasEscape a) ∧ operands.length + 3 ≤ maxArgs := by
  obtain ⟨buffer, places, hplaces, hstored, last, hspaced⟩ := parseArguments_places hnul tail
  rw [arguments_of_strings hnul hparsed hargs] at hstored hspaced
  have hlen : places.length + 1 = operands.length + 3 := congrArg (· + 1) hstored.length_eq
  rw [childArgs_eq hplaces, hlen]
  by_cases hroom : operands.length + 3 ≤ maxArgs
  · rw [if_pos hroom]
    rcases rewriteEcho_echo hstored hspaced with
      ⟨rfl, hcrash⟩ | ⟨a, as, given, rfl, hgiven, hargv⟩
    · rw [hcrash]
      refine iff_of_false ?_ fun h => h.1 rfl
      rintro ⟨given, hgiven, -⟩
      cases hgiven
    · rw [hgiven, List.tail_cons, ← map_unescape_eq_self]
      constructor
      · rintro ⟨given', hgiven', hargv'⟩
        cases hgiven'
        rw [hargv, List.map_cons, List.cons.injEq, List.cons.injEq] at hargv'
        exact ⟨List.cons_ne_nil a as, hargv'.2.2, hroom⟩
      · rintro ⟨-, has, -⟩
        refine ⟨given, rfl, ?_⟩
        rw [hargv, List.map_cons, ← has]
  · rw [if_neg hroom]
    refine iff_of_false ?_ fun h => hroom h.2.2
    rintro ⟨given, hgiven, -⟩
    cases hgiven

/-- `echo -e` -/
def bareEcho : List Byte := [0x65, 0x63, 0x68, 0x6f, 0x20, 0x2d, 0x65]

/-- `echo -e a\n` -/
def newlineEcho : List Byte := bareEcho ++ [0x20, 0x61, 0x5c, 0x6e]

/-- Of `echo -e a\n` the escape is replaced. -/
theorem newlineEcho_replaced :
    ∃ given, childArgs (newlineEcho ++ [0]) = .ok given ∧ given.argv = [echo, [0x61, 0x0a]] := by
  have hnul : (0 : Byte) ∉ newlineEcho := by decide
  obtain ⟨parsed, hparsed, hstrings⟩ := parseArguments_eq hnul []
  have hargs : parsed.strings = [echo, dashE, [0x61, 0x5c, 0x6e]].map some ++ [none] := hstrings
  exact (echo_escapes_iff hnul hparsed hargs).mpr
    ⟨List.cons_ne_nil _ _, List.forall_mem_nil _, by decide⟩

/-- `echo -e` follows a `NULL`. -/
theorem bareEcho_crashes :
    ¬ ∀ (line tail : List Byte) (parsed : ParsedArgs) (operands : List (List Byte)),
      (0 : Byte) ∉ line → parseArguments (line ++ 0 :: tail) = some parsed →
        parsed.strings = (echo :: dashE :: operands).map some ++ [none] →
          ∃ given, childArgs (line ++ 0 :: tail) = .ok given ∧
            given.argv = echo :: operands.map unescape := by
  intro h
  have hnul : (0 : Byte) ∉ bareEcho := by decide
  obtain ⟨parsed, hparsed, hstrings⟩ := parseArguments_eq hnul []
  obtain ⟨given, hgiven, -⟩ := h bareEcho [] parsed [] hnul hparsed hstrings
  have hcrash : childArgs (bareEcho ++ [0]) = .error .null := rfl
  rw [hgiven] at hcrash
  cases hcrash

-- `echo -e a b\n`
example : (childArgs (bareEcho ++ [0x20, 0x61, 0x20, 0x62, 0x5c, 0x6e, 0])).map ParsedArgs.argv =
    .ok [echo, [0x61], [0x62, 0x5c, 0x6e]] := rfl

end Acso.Shell
