import Acso.Lib.Tokens
import Acso.FileSystem.Directory

/-!
# Path names

`pathname.c`.  A path is given by its characters, without the NUL behind them.  Its
components are looked up one after the other, each in the directory that the ones before
lead to.
-/

namespace Acso.FileSystem

open Acso.Lib

def slash : Byte := 0x2f

def rootInumber : Nat := 1

/-- The loop over the tokens, the first of which is number `i`. -/
def pathnameLoop (fs : UnixFilesystem) (junk : Junk) : Nat → List (List Byte) → Nat → Result Nat
  | _, [], curr => .ok curr
  | i, token :: tokens, curr => do
    let dirEntry ← directoryFindname fs (junk.sub i) token curr
    pathnameLoop fs junk (i + 1) tokens dirEntry.dInumber.toNat

def pathnameLookup (fs : UnixFilesystem) (junk : Junk) (pathname : List Byte) : Result Nat :=
  if pathname.head? ≠ some slash then .error (.minusOne [])
  else pathnameLoop fs junk 0 (tokens slash pathname) rootInumber

section loop

variable (fs : UnixFilesystem) (junk : Junk)

theorem pathnameLoop_append (ts us : List (List Byte)) (i curr : Nat) :
    pathnameLoop fs junk i (ts ++ us) curr =
      pathnameLoop fs junk i ts curr >>= pathnameLoop fs junk (i + ts.length) us := by
  induction ts generalizing i curr with
  | nil => rfl
  | cons t ts ih =>
    rw [List.cons_append, pathnameLoop, pathnameLoop, List.length_cons]
    cases directoryFindname fs (junk.sub i) t curr with
    | error e => rfl
    | ok e =>
      rw [ok_bind, ok_bind, ih, Nat.add_assoc, Nat.add_comm 1]

/-- **One more component** is looked up where the path before it leads. -/
theorem pathnameLookup_append {pathname : List Byte} {x : Nat} {token : List Byte}
    (h : pathnameLookup fs junk pathname = .ok x) (ht : IsToken slash token) :
    pathnameLookup fs junk (pathname ++ slash :: token) =
      directoryFindname fs (junk.sub (tokens slash pathname).length) token x >>=
        fun dirEntry => .ok dirEntry.dInumber.toNat := by
  rw [pathnameLookup] at h
  split at h
  · cases h
  · rename_i habs
    have hhead : (pathname ++ slash :: token).head? = some slash := by
      rw [List.head?_append, not_not.mp habs]
      rfl
    rw [pathnameLookup, if_neg (not_not_intro hhead), tokens_append_sep ht, pathnameLoop_append, h,
      ok_bind, Nat.zero_add]
    rfl

/-- A single component is looked up in the root. -/
theorem pathnameLookup_root {token : List Byte} (ht : IsToken slash token) :
    pathnameLookup fs junk (slash :: token) =
      directoryFindname fs (junk.sub 0) token rootInumber >>=
        fun dirEntry => .ok dirEntry.dInumber.toNat := by
  have htokens : tokens slash (slash :: token) = [token] := tokens_append_sep ht []
  have habs : (slash :: token).head? = some slash := rfl
  rw [pathnameLookup, if_neg (not_not_intro habs), htokens]
  rfl

end loop

end Acso.FileSystem
