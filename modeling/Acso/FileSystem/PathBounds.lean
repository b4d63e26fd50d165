import Acso.FileSystem.EntryChains

/-!
# Where the path dump ends

Nothing but a failed assertion stops `DumpPathAndChildren` from going on: the test of the
length of the path only prints.  The calls that it makes are a tree, in which a call has those
for the entries of its directory below it.

* `dumpPathAndChildren_succ`: a call is the loop over the entries that `entriesBelow` finds.
* `dump_of_explore`, `explore_of_dump`: the dump is the depth-first exploration of the tree of
  its calls.
* `chain_of_branch`, `branch_of_chain`: the branches of this tree are the chains of entries on the
  image, as far as their paths fit.
* `pathDump_bounded_iff`: so the dump ends without writing behind `nextpath` exactly if the paths
  of these chains fit and no chain goes on for ever at `/`, up to the first directory of odd size.
-/

namespace Acso.FileSystem

open Acso.Lib

/-! ## The calls -/

/-- The arguments of a call, with what it leaves uninitialised. -/
structure PathCall where
  junk : Junk
  pathname : List Byte
  inumber : Nat

/-- What ends the dump as a whole. -/
inductive Halt
  | assertFailed
  | overflowed
  deriving DecidableEq

def Halt.ending : Halt → Ending
  | .assertFailed => .assertFailed
  | .overflowed => .overflowed

/-- What a failed call within the call does: a line is printed, and there is no loop. -/
def Failure.entries (e : Failure) : Option (List Direntv6) :=
  match e with
  | .minusOne _ => some []
  | .assertFailed => none

/-- The entries a call loops over, unless an assertion fails in it. -/
def entriesBelow {Ctx : Type} (sha : Sha1 Ctx) (fs : UnixFilesystem) (c : PathCall) :
    Option (List Direntv6) :=
  match inodeIget fs (c.junk.sub 0) c.inumber with
  | .error e => e.entries
  | .ok inode =>
    if inode.mode &&& ialloc = 0 then none
    else
      match chksumfileByinumber sha fs (c.junk.sub 1) c.inumber with
      | .error e => e.entries
      | .ok chksum1 =>
        match chksumfileBypathname sha fs (c.junk.sub 2) c.pathname with
        | .error e => e.entries
        | .ok chksum2 =>
          if !chksumfileCompare chksum1 chksum2 then some []
          else if inode.mode &&& ifmt = ifdir then
            match getDirEntries fs (c.junk.sub 3) c.inumber maxDirentries with
            | .error e => e.entries
            | .ok direntries => some direntries
          else some []

/-- The calls of the loop over the entries. -/
def childCalls (junk : Junk) (pathname : List Byte) : List Direntv6 → List PathCall
  | [] => []
  | entry :: direntries =>
    if entry.isDots then childCalls junk pathname direntries
    else
      ⟨junk.sub direntries.length, childPath junk pathname entry direntries, entry.dInumber.toNat⟩ ::
        childCalls junk pathname direntries

/-- The calls below a call, unless `sprintf` has not put its path into `nextpath` or an assertion
fails in it. -/
def visitCall {Ctx : Type} (sha : Sha1 Ctx) (fs : UnixFilesystem) (c : PathCall) :
    Except Halt (List PathCall) :=
  if maxpath < c.pathname.length + 1 then .error .overflowed
  else
    match entriesBelow sha fs c with
    | none => .error .assertFailed
    | some direntries => .ok (childCalls (c.junk.sub 4) (parentPath c.pathname) direntries)

/-- The call for a place. -/
def Place.call (x : Place) : PathCall := ⟨x.junk, x.path, x.inumber⟩

/-! ## One call -/

/-- Some lines and, unless the call ends with them, the loop. -/
def goOn (lines : List Line) (loop : List Direntv6 → Option Output) :
    Option (List Direntv6) → Option Output
  | none => some ⟨lines, .assertFailed⟩
  | some direntries => Output.andThen ⟨lines, .returned⟩ (loop direntries)

section

variable {Ctx : Type} {sha : Sha1 Ctx} {fs : UnixFilesystem}

/-- A call without entries only prints. -/
theorem goOn_nil (lines : List Line) (dump : Junk → List Byte → Nat → Option Output) (junk : Junk)
    (pathname : List Byte) :
    goOn lines (dumpChildren dump junk pathname) (some []) = some ⟨lines, .returned⟩ := by
  rw [goOn, dumpChildren, Output.andThen, Option.map_some, List.append_nil]

theorem goOn_failure (e : Failure) (line : String) : ∃ lines, ∀ dump junk pathname,
    some (e.output line) = goOn lines (dumpChildren dump junk pathname) e.entries := by
  cases e with
  | minusOne stderr => exact ⟨_, fun dump junk pathname => (goOn_nil _ dump junk pathname).symm⟩
  | assertFailed => exact ⟨[], fun dump junk pathname => rfl⟩

/-- **One call of the dump** prints some lines and goes on to the loop over its entries. -/
theorem dumpPathAndChildren_succ (sha : Sha1 Ctx) (fs : UnixFilesystem) (c : PathCall) :
    ∃ lines, ∀ fuel, dumpPathAndChildren sha fs (fuel + 1) c.junk c.pathname c.inumber =
      goOn lines (dumpChildren (dumpPathAndChildren sha fs fuel) (c.junk.sub 4)
        (parentPath c.pathname)) (entriesBelow sha fs c) := by
  have hfailure : ∀ (e : Failure) (line : String), ∃ lines, ∀ fuel, some (e.output line) =
      goOn lines (dumpChildren (dumpPathAndChildren sha fs fuel) (c.junk.sub 4)
        (parentPath c.pathname)) e.entries := by
    intro e line
    obtain ⟨lines, hlines⟩ := goOn_failure e line
    exact ⟨lines, fun fuel => hlines _ _ _⟩
  have hnothing : ∀ lines, ∀ fuel, some ⟨lines, .returned⟩ =
      goOn lines (dumpChildren (dumpPathAndChildren sha fs fuel) (c.junk.sub 4)
        (parentPath c.pathname)) (some []) := fun lines fuel => (goOn_nil lines _ _ _).symm
  simp only [dumpPathAndChildren, entriesBelow]
  cases inodeIget fs (c.junk.sub 0) c.inumber with
  | error e => exact hfailure e _
  | ok inode =>
    dsimp only
    split
    · exact ⟨[], fun fuel => rfl⟩
    cases chksumfileByinumber sha fs (c.junk.sub 1) c.inumber with
    | error e => exact hfailure e _
    | ok chksum1 =>
      dsimp only
      cases chksumfileBypathname sha fs (c.junk.sub 2) c.pathname with
      | error e => exact hfailure e _
      | ok chksum2 =>
        dsimp only
        split
        · exact ⟨_, hnothing _⟩
        split
        · cases getDirEntries fs (c.junk.sub 3) c.inumber maxDirentries with
          | error e =>
            cases e with
            | minusOne stderr => exact ⟨_, hnothing _⟩
            | assertFailed => exact ⟨_, fun fuel => rfl⟩
          | ok direntries => exact ⟨_, fun fuel => rfl⟩
        · exact ⟨_, hnothing _⟩

/-! ## The loop over the calls -/

/-- A call with the test of `sprintf` before it. -/
def dumpCall (sha : Sha1 Ctx) (fs : UnixFilesystem) (fuel : Nat) (c : PathCall) : Option Output :=
  if maxpath < c.pathname.length + 1 then some ⟨[], .overflowed⟩
  else dumpPathAndChildren sha fs fuel c.junk c.pathname c.inumber

/-- The calls one after the other, as long as they return. -/
def dumpAll (dump : PathCall → Option Output) : List PathCall → Option Output
  | [] => some ⟨[], .returned⟩
  | c :: calls =>
    match dump c with
    | none => none
    | some output => output.andThen (dumpAll dump calls)

theorem dumpChildren_eq_dumpAll (fuel : Nat) (junk : Junk) (pathname : List Byte)
    (direntries : List Direntv6) :
    dumpChildren (dumpPathAndChildren sha fs fuel) junk pathname direntries =
      dumpAll (dumpCall sha fs fuel) (childCalls junk pathname direntries) := by
  induction direntries with
  | nil => rfl
  | cons entry direntries ih =>
    rw [dumpChildren, childCalls]
    split
    · exact ih
    · rw [dumpAll, dumpCall, ← ih]
      dsimp only
      split
      · rfl
      · rfl

/-- How the dump ends when the exploration of its calls does. -/
def endingOf : Except Halt Unit → Ending
  | .error halt => halt.ending
  | .ok () => .returned

theorem Halt.ending_ne_returned (halt : Halt) : halt.ending ≠ .returned := by
  cases halt <;> decide

theorem Output.andThen_of_ne {output : Output} (h : output.ending ≠ .returned)
    (next : Option Output) : output.andThen next = some output := by
  obtain ⟨lines, ending⟩ := output
  cases ending with
  | returned => exact absurd rfl h
  | assertFailed => rfl
  | overflowed => rfl

theorem Output.andThen_of_returned {output : Output} (h : output.ending = .returned)
    (next : Option Output) :
    output.andThen next = next.map fun rest => ⟨output.lines ++ rest.lines, rest.ending⟩ := by
  rw [Output.andThen, h]

theorem dumpAll_of_exploreAll {dump : PathCall → Option Output}
    {f : PathCall → Option (Except Halt Unit)}
    (h : ∀ c r, f c = some r → ∃ out, dump c = some out ∧ out.ending = endingOf r)
    {calls : List PathCall} {r : Except Halt Unit} (hr : exploreAll f calls = some r) :
    ∃ out, dumpAll dump calls = some out ∧ out.ending = endingOf r := by
  induction calls with
  | nil =>
    obtain rfl := Option.some.inj hr
    exact ⟨_, rfl, rfl⟩
  | cons c calls ih =>
    rw [exploreAll] at hr
    cases hc : f c with
    | none =>
      rw [hc] at hr
      cases hr
    | some rc =>
      obtain ⟨out, hout, hending⟩ := h c rc hc
      rw [hc] at hr
      cases rc with
      | error halt =>
        obtain rfl := Option.some.inj hr
        have hne : out.ending ≠ .returned := hending ▸ halt.ending_ne_returned
        exact ⟨out, by rw [dumpAll, hout]; exact Output.andThen_of_ne hne _, hending⟩
      | ok u =>
        obtain ⟨rest, hrest, hlast⟩ := ih hr
        refine ⟨⟨out.lines ++ rest.lines, rest.ending⟩, ?_, hlast⟩
        rw [dumpAll, hout]
        exact (Output.andThen_of_returned hending _).trans (by rw [hrest, Option.map_some])

theorem exploreAll_of_dumpAll {dump : PathCall → Option Output}
    {f : PathCall → Option (Except Halt Unit)}
    (h : ∀ c out, dump c = some out → ∃ r, f c = some r ∧ out.ending = endingOf r)
    {calls : List PathCall} {out : Output} (hout : dumpAll dump calls = some out) :
    ∃ r, exploreAll f calls = some r ∧ out.ending = endingOf r := by
  induction calls generalizing out with
  | nil =>
    obtain rfl := Option.some.inj hout
    exact ⟨_, rfl, rfl⟩
  | cons c calls ih =>
    rw [dumpAll] at hout
    cases hc : dump c with
    | none =>
      rw [hc] at hout
      cases hout
    | some first =>
      obtain ⟨r, hr, hending⟩ := h c first hc
      rw [hc] at hout
      dsimp only at hout
      cases r with
      | error halt =>
        have hne : first.ending ≠ .returned := hending ▸ halt.ending_ne_returned
        rw [Output.andThen_of_ne hne] at hout
        obtain rfl := Option.some.inj hout
        exact ⟨.error halt, by rw [exploreAll, hr], hending⟩
      | ok u =>
        rw [Output.andThen_of_returned hending, Option.map_eq_some_iff] at hout
        obtain ⟨rest, hrest, rfl⟩ := hout
        obtain ⟨r, hlast, hend⟩ := ih hrest
        exact ⟨r, by rw [exploreAll, hr]; exact hlast, hend⟩

/-! ## The dump as an exploration -/

theorem dumpCall_of_overflow {c : PathCall} (h : maxpath < c.pathname.length + 1) (fuel : Nat) :
    dumpCall sha fs fuel c = some ⟨[], .overflowed⟩ := if_pos h

theorem explore_of_overflow {c : PathCall} (h : maxpath < c.pathname.length + 1) (fuel : Nat) :
    explore (visitCall sha fs) (fuel + 1) c = some (.error .overflowed) := by
  rw [explore, visitCall, if_pos h]

/-- **The dump explores the tree of its calls.** -/
theorem dump_of_explore {fuel : Nat} {c : PathCall} {r : Except Halt Unit}
    (h : explore (visitCall sha fs) fuel c = some r) :
    ∃ out, dumpCall sha fs fuel c = some out ∧ out.ending = endingOf r := by
  induction fuel generalizing c r with
  | zero => cases h
  | succ fuel ih =>
    by_cases hlong : maxpath < c.pathname.length + 1
    · rw [explore_of_overflow hlong] at h
      obtain rfl := Option.some.inj h
      exact ⟨_, dumpCall_of_overflow hlong _, rfl⟩
    · obtain ⟨lines, hdump⟩ := dumpPathAndChildren_succ sha fs c
      rw [explore, visitCall, if_neg hlong] at h
      rw [dumpCall, if_neg hlong, hdump]
      cases hentries : entriesBelow sha fs c with
      | none =>
        rw [hentries] at h
        obtain rfl := Option.some.inj h
        exact ⟨_, rfl, rfl⟩
      | some direntries =>
        rw [hentries] at h
        obtain ⟨out, hout, hending⟩ := dumpAll_of_exploreAll (fun c r => ih) h
        refine ⟨⟨lines ++ out.lines, out.ending⟩, ?_, hending⟩
        rw [goOn, dumpChildren_eq_dumpAll, hout]
        rfl

/-- The exploration needs one more turn, to look at the length of a path. -/
theorem explore_of_dump {fuel : Nat} {c : PathCall} {out : Output}
    (h : dumpCall sha fs fuel c = some out) :
    ∃ r, explore (visitCall sha fs) (fuel + 1) c = some r ∧ out.ending = endingOf r := by
  have hoverflow : ∀ {fuel c out}, maxpath < c.pathname.length + 1 →
      dumpCall sha fs fuel c = some out →
        ∃ r, explore (visitCall sha fs) (fuel + 1) c = some r ∧ out.ending = endingOf r := by
    intro fuel c out hlong h
    rw [dumpCall_of_overflow hlong] at h
    obtain rfl := Option.some.inj h
    exact ⟨_, explore_of_overflow hlong fuel, rfl⟩
  induction fuel generalizing c out with
  | zero =>
    by_cases hlong : maxpath < c.pathname.length + 1
    · exact hoverflow hlong h
    · rw [dumpCall, if_neg hlong] at h
      cases h
  | succ fuel ih =>
    by_cases hlong : maxpath < c.pathname.length + 1
    · exact hoverflow hlong h
    · obtain ⟨lines, hdump⟩ := dumpPathAndChildren_succ sha fs c
      rw [dumpCall, if_neg hlong, hdump] at h
      rw [explore, visitCall, if_neg hlong]
      cases hentries : entriesBelow sha fs c with
      | none =>
        rw [hentries] at h
        obtain rfl := Option.some.inj h
        exact ⟨.error .assertFailed, rfl, rfl⟩
      | some direntries =>
        rw [hentries, goOn, dumpChildren_eq_dumpAll, Output.andThen_of_returned rfl,
          Option.map_eq_some_iff] at h
        obtain ⟨rest, hrest, rfl⟩ := h
        obtain ⟨r, hr, hending⟩ := exploreAll_of_dumpAll (fun c out => ih) hrest
        exact ⟨r, hr, hending⟩

end

/-! ## The entries of a call -/

section entries

variable {Ctx : Type} {sha : Sha1 Ctx} {fs : UnixFilesystem}

theorem NoAssert.entries {α : Type} {result : Result α} {e : Failure} (h : NoAssert result)
    (he : result = .error e) : e.entries = some [] := by
  cases e with
  | minusOne stderr => rfl
  | assertFailed => exact absurd he h

/-- **What a call goes on to** where the place is shown, and elsewhere. -/
theorem entriesBelow_call (sha : Sha1 Ctx) (fs : UnixFilesystem) (x : Place) :
    (IsShown sha fs x ∧ entriesBelow sha fs x.call =
      match getDirEntries fs (x.junk.sub 3) x.inumber maxDirentries with
      | .error e => e.entries
      | .ok direntries => some direntries) ∨
    ¬ IsShown sha fs x ∧ entriesBelow sha fs x.call = some [] := by
  rw [entriesBelow]
  dsimp only [Place.call]
  cases higet : inodeIget fs (x.junk.sub 0) x.inumber with
  | error e =>
    refine .inr ⟨fun h => ?_, (inodeIget_noAssert fs _ _).entries higet⟩
    obtain ⟨inode, hinode, -⟩ := h.directory
    cases higet.symm.trans hinode
  | ok inode =>
    dsimp only
    rw [if_neg (alloc_of_inodeIget fs _ higet)]
    cases hsum : chksumfileByinumber sha fs (x.junk.sub 1) x.inumber with
    | error e =>
      refine .inr ⟨fun h => ?_, (chksumfileByinumber_noAssert sha fs _ _).entries hsum⟩
      obtain ⟨chksum, hchksum, -⟩ := h.checksum
      cases hsum.symm.trans hchksum
    | ok chksum1 =>
      dsimp only
      cases hpath : chksumfileBypathname sha fs (x.junk.sub 2) x.path with
      | error e =>
        refine .inr ⟨fun h => ?_, (chksumfileBypathname_noAssert sha fs _ _).entries hpath⟩
        obtain ⟨chksum, -, hchksum⟩ := h.checksum
        cases hpath.symm.trans hchksum
      | ok chksum2 =>
        dsimp only
        by_cases hsame : chksum1 = chksum2
        · have hcompare : chksumfileCompare chksum1 chksum2 = true := decide_eq_true hsame
          rw [hcompare, if_neg (by decide)]
          by_cases hdir : inode.mode &&& ifmt = ifdir
          · rw [if_pos hdir]
            exact .inl ⟨⟨⟨inode, higet, hdir⟩, chksum1, hsum, hsame ▸ hpath⟩, rfl⟩
          · rw [if_neg hdir]
            refine .inr ⟨fun h => hdir ?_, rfl⟩
            obtain ⟨inode', hinode, hdir'⟩ := h.directory
            obtain rfl := Except.ok.inj (higet.symm.trans hinode)
            exact hdir'
        · have hcompare : chksumfileCompare chksum1 chksum2 = false := decide_eq_false hsame
          rw [hcompare, if_pos (by decide)]
          refine .inr ⟨fun h => hsame ?_, rfl⟩
          obtain ⟨chksum, hchksum, hchksum'⟩ := h.checksum
          rw [Except.ok.inj (hsum.symm.trans hchksum), Except.ok.inj (hpath.symm.trans hchksum')]

theorem entriesBelow_eq_none_iff {x : Place} :
    entriesBelow sha fs x.call = none ↔ OddSize sha fs x := by
  rw [OddSize, ← getDirEntries_assertFailed_iff]
  rcases entriesBelow_call sha fs x with ⟨hshown, heq⟩ | ⟨hshown, heq⟩
  · rw [heq, and_iff_right hshown]
    cases getDirEntries fs (x.junk.sub 3) x.inumber maxDirentries with
    | error e => cases e <;> simp [Failure.entries]
    | ok direntries => simp
  · rw [heq]
    exact iff_of_false (fun h => nomatch h) fun h => hshown h.1

theorem Lists.entriesBelow {x : Place} {direntries : List Direntv6}
    (h : Lists sha fs x direntries) : entriesBelow sha fs x.call = some direntries := by
  rcases entriesBelow_call sha fs x with ⟨-, heq⟩ | ⟨hshown, -⟩
  · rw [heq, h.2]
  · exact absurd h.1 hshown

theorem lists_of_entriesBelow {x : Place} {direntries : List Direntv6}
    (h : Acso.FileSystem.entriesBelow sha fs x.call = some direntries) (hne : direntries ≠ []) :
    Lists sha fs x direntries := by
  rcases entriesBelow_call sha fs x with ⟨hshown, heq⟩ | ⟨-, heq⟩
  · refine ⟨hshown, ?_⟩
    rw [heq] at h
    cases hget : getDirEntries fs (x.junk.sub 3) x.inumber maxDirentries with
    | ok direntries' =>
      rw [hget] at h
      rw [Option.some.inj h]
    | error e =>
      rw [hget] at h
      cases e with
      | minusOne stderr => exact absurd (Option.some.inj h).symm hne
      | assertFailed => cases h
  · rw [heq] at h
    exact absurd (Option.some.inj h).symm hne

/-- **The calls of the loop** are those for the entries that are neither `.` nor `..`. -/
theorem getElem?_childCalls {junk : Junk} {pathname : List Byte} {direntries : List Direntv6}
    {i : Nat} {c : PathCall} :
    (childCalls junk pathname direntries)[i]? = some c ↔
      ∃ before entry behind, direntries = before ++ entry :: behind ∧ ¬ entry.isDots = true ∧
        (before.filter fun entry => !entry.isDots).length = i ∧
        c = ⟨junk.sub behind.length, childPath junk pathname entry behind,
          entry.dInumber.toNat⟩ := by
  induction direntries generalizing i with
  | nil => simp [childCalls]
  | cons first direntries ih =>
    rw [childCalls]
    by_cases hdots : first.isDots = true
    · rw [if_pos hdots, ih]
      constructor
      · rintro ⟨before, entry, behind, rfl, hentry, hi, hc⟩
        refine ⟨first :: before, entry, behind, rfl, hentry, ?_, hc⟩
        rw [List.filter_cons_of_neg (by simpa using hdots), hi]
      · rintro ⟨before, entry, behind, heq, hentry, hi, hc⟩
        cases before with
        | nil =>
          obtain ⟨rfl, -⟩ := List.cons.inj heq
          exact absurd hdots hentry
        | cons first' before =>
          obtain ⟨rfl, rfl⟩ := List.cons.inj heq
          rw [List.filter_cons_of_neg (by simpa using hdots)] at hi
          exact ⟨before, entry, behind, rfl, hentry, hi, hc⟩
    · rw [if_neg hdots]
      cases i with
      | zero =>
        rw [List.getElem?_cons_zero, Option.some.injEq]
        constructor
        · rintro rfl
          exact ⟨[], first, direntries, rfl, hdots, rfl, rfl⟩
        · rintro ⟨before, entry, behind, heq, hentry, hi, hc⟩
          cases before with
          | nil =>
            obtain ⟨rfl, rfl⟩ := List.cons.inj heq
            exact hc.symm
          | cons first' before =>
            obtain ⟨rfl, rfl⟩ := List.cons.inj heq
            rw [List.filter_cons_of_pos (by simpa using hdots)] at hi
            cases hi
      | succ i =>
        rw [List.getElem?_cons_succ, ih]
        constructor
        · rintro ⟨before, entry, behind, rfl, hentry, hi, hc⟩
          refine ⟨first :: before, entry, behind, rfl, hentry, ?_, hc⟩
          rw [List.filter_cons_of_pos (by simpa using hdots), List.length_cons, hi]
        · rintro ⟨before, entry, behind, heq, hentry, hi, hc⟩
          cases before with
          | nil => cases hi
          | cons first' before =>
            obtain ⟨rfl, rfl⟩ := List.cons.inj heq
            rw [List.filter_cons_of_pos (by simpa using hdots), List.length_cons] at hi
            exact ⟨before, entry, behind, rfl, hentry, Nat.succ.inj hi, hc⟩

end entries

/-! ## Branches and chains -/

section chains

variable {Ctx : Type} {sha : Sha1 Ctx} {fs : UnixFilesystem}

theorem visitCall_of_long {x : Place} (h : maxpath ≤ x.path.length) :
    visitCall sha fs x.call = .error .overflowed :=
  if_pos (Nat.lt_succ_of_le h)

theorem visitCall_of_fits {x : Place} (h : ¬ maxpath ≤ x.path.length) :
    visitCall sha fs x.call = match entriesBelow sha fs x.call with
      | none => .error .assertFailed
      | some direntries => .ok (childCalls (x.junk.sub 4) (parentPath x.path) direntries) :=
  if_neg fun hlong => h (Nat.le_of_lt_succ hlong)

/-- The calls below the call for a place are those for its children. -/
theorem children_of_visitCall {x : Place} {calls : List PathCall}
    (h : visitCall sha fs x.call = .ok calls) {i : Nat} {c : PathCall} (hc : calls[i]? = some c) :
    ∃ before entry behind, Lists sha fs x (before ++ entry :: behind) ∧ ¬ entry.isDots = true ∧
      (before.filter fun entry => !entry.isDots).length = i ∧ c = (x.child entry behind).call := by
  have hfits : ¬ maxpath ≤ x.path.length := by
    intro hlong
    rw [visitCall_of_long hlong] at h
    cases h
  rw [visitCall_of_fits hfits] at h
  cases hentries : entriesBelow sha fs x.call with
  | none =>
    rw [hentries] at h
    cases h
  | some direntries =>
    rw [hentries] at h
    obtain rfl := Except.ok.inj h
    obtain ⟨before, entry, behind, rfl, hdots, hi, rfl⟩ := getElem?_childCalls.mp hc
    refine ⟨before, entry, behind, lists_of_entriesBelow hentries (by simp), hdots, hi, ?_⟩
    rw [Place.call, Place.path_child]
    rfl

theorem visitCall_of_lists {x : Place} (hfits : ¬ maxpath ≤ x.path.length)
    {before behind : List Direntv6} {entry : Direntv6}
    (h : Lists sha fs x (before ++ entry :: behind)) (hdots : ¬ entry.isDots = true) :
    ∃ calls, visitCall sha fs x.call = .ok calls ∧
      calls[(before.filter fun entry => !entry.isDots).length]? =
        some (x.child entry behind).call := by
  refine ⟨_, by rw [visitCall_of_fits hfits, h.entriesBelow], ?_⟩
  refine getElem?_childCalls.mpr ⟨before, entry, behind, rfl, hdots, rfl, ?_⟩
  rw [Place.call, Place.path_child]
  rfl

/-- **A branch of the calls** is a chain of entries. -/
theorem chain_of_branch {x : Place} {p : List Nat} {c : PathCall}
    (h : Branch (visitCall sha fs) x.call p c) : ∃ z, Chain sha fs x p z ∧ c = z.call := by
  generalize hcall : x.call = c₀ at h
  induction h generalizing x with
  | nil => exact ⟨x, .nil x, hcall.symm⟩
  | cons hvisit hget hrest ih =>
    subst hcall
    obtain ⟨before, entry, behind, hlists, hdots, rfl, rfl⟩ := children_of_visitCall hvisit hget
    obtain ⟨z, hz, hc⟩ := ih rfl
    exact ⟨z, .cons hlists hdots hz, hc⟩

/-- **A chain of entries** is a branch of the calls, unless a path on the way is too long. -/
theorem branch_of_chain {x z : Place} {p : List Nat} (h : Chain sha fs x p z) :
    Branch (visitCall sha fs) x.call p z.call ∨
      ∃ q r, p = q ++ r ∧ Stops (visitCall sha fs) x.call q .overflowed := by
  induction h with
  | nil x => exact .inl (.nil _)
  | @cons x z before behind entry p hlists hdots hrest ih =>
    by_cases hlong : maxpath ≤ x.path.length
    · exact .inr ⟨[], _, rfl, _, .nil _, visitCall_of_long hlong⟩
    · obtain ⟨calls, hvisit, hget⟩ := visitCall_of_lists hlong hlists hdots
      rcases ih with hbranch | ⟨q, r, rfl, c, hc, hstop⟩
      · exact .inl (.cons hvisit hget hbranch)
      · exact .inr ⟨_ :: q, r, rfl, c, .cons hvisit hget hc, hstop⟩

theorem visitCall_overflowed_iff {x : Place} :
    visitCall sha fs x.call = .error .overflowed ↔ maxpath ≤ x.path.length := by
  by_cases hlong : maxpath ≤ x.path.length
  · exact iff_of_true (visitCall_of_long hlong) hlong
  · rw [visitCall_of_fits hlong]
    cases entriesBelow sha fs x.call <;> simp [hlong]

theorem visitCall_assertFailed_iff {x : Place} :
    visitCall sha fs x.call = .error .assertFailed ↔
      ¬ maxpath ≤ x.path.length ∧ OddSize sha fs x := by
  by_cases hlong : maxpath ≤ x.path.length
  · rw [visitCall_of_long hlong]
    simp [hlong]
  · rw [visitCall_of_fits hlong, ← entriesBelow_eq_none_iff]
    cases entriesBelow sha fs x.call <;> simp [hlong]

end chains

/-! ## Bounds -/

/-- The chains of entries from the root spell paths that fit into `nextpath`, and do not go on for
ever through entries that leave the path `/`; chains behind a directory of odd size may. -/
def ChainsFit {Ctx : Type} (sha : Sha1 Ctx) (fs : UnixFilesystem) (junk : Junk) : Prop :=
  ∃ bound, ∀ p x, Chain sha fs (.root junk) p x →
    (maxpath ≤ x.path.length ∨ x.path = [slash] ∧ bound ≤ p.length) →
      ∃ q y, Chain sha fs (.root junk) q y ∧ OddSize sha fs y ∧ Before q p

section bounds

variable {Ctx : Type} {sha : Sha1 Ctx} {fs : UnixFilesystem} {junk : Junk}

/-- The dump from the root explores the calls below it. -/
theorem pathDump_ends_iff :
    (∃ fuel out, dumpPathnameChecksum sha fs fuel junk = some out ∧ out.ending ≠ .overflowed) ↔
      ∃ fuel r, explore (visitCall sha fs) fuel (Place.root junk).call = some r ∧
        ∀ e, r = .error e → ¬ e = .overflowed := by
  have hroot : ∀ fuel, dumpCall sha fs fuel (Place.root junk).call =
      dumpPathnameChecksum sha fs fuel junk := by
    have hlen : (Place.root junk).call.pathname.length = 1 := rfl
    exact fun fuel => if_neg (by rw [hlen]; decide)
  have hgood : ∀ r : Except Halt Unit, endingOf r ≠ .overflowed ↔
      ∀ e, r = .error e → ¬ e = .overflowed := by
    rintro (e | u)
    · cases e <;> simp [endingOf, Halt.ending]
    · simp [endingOf]
  constructor
  · rintro ⟨fuel, out, hout, hne⟩
    rw [← hroot] at hout
    obtain ⟨r, hr, hending⟩ := explore_of_dump hout
    exact ⟨fuel + 1, r, hr, (hgood r).mp (hending ▸ hne)⟩
  · rintro ⟨fuel, r, hr, hne⟩
    obtain ⟨out, hout, hending⟩ := dump_of_explore hr
    rw [hroot] at hout
    exact ⟨fuel, out, hout, hending ▸ (hgood r).mpr hne⟩

theorem chainsFit_of_explore {fuel : Nat} {r : Except Halt Unit}
    (hr : explore (visitCall sha fs) fuel (Place.root junk).call = some r)
    (hgood : ∀ e, r = .error e → ¬ e = .overflowed) : ChainsFit sha fs junk := by
  have hodd : ∀ p c, Branch (visitCall sha fs) (Place.root junk).call p c →
      (fuel ≤ p.length ∨ ∃ e, visitCall sha fs c = .error e ∧ e = .overflowed) →
        ∃ q y, Chain sha fs (.root junk) q y ∧ OddSize sha fs y ∧ Before q p := by
    intro p c hp hbad
    obtain ⟨q, e, ⟨d, hq, hstop⟩, hne, hbefore⟩ := stops_of_explore_ends hr hgood hp hbad
    obtain ⟨y, hy, rfl⟩ := chain_of_branch hq
    cases e with
    | overflowed => exact absurd rfl hne
    | assertFailed => exact ⟨q, y, hy, (visitCall_assertFailed_iff.mp hstop).2, hbefore⟩
  refine ⟨fuel, fun p x hx hbad => ?_⟩
  rcases branch_of_chain hx with hbranch | ⟨p₁, p₂, rfl, c, hc, hstop⟩
  · refine hodd p _ hbranch ?_
    rcases hbad with hlong | ⟨-, hdeep⟩
    · exact .inr ⟨_, visitCall_of_long hlong, rfl⟩
    · exact .inl hdeep
  · obtain ⟨q, y, hy, hsize, hbefore⟩ := hodd p₁ c hc (.inr ⟨_, hstop, rfl⟩)
    exact ⟨q, y, hy, hsize, hbefore.append p₂⟩

/-- Before a branch that does not fit, the calls stop. -/
theorem stops_of_oddSize {p q : List Nat} {c : PathCall} {y : Place}
    (hp : Branch (visitCall sha fs) (Place.root junk).call p c) (hy : Chain sha fs (.root junk) q y)
    (hodd : OddSize sha fs y) (hbefore : Before q p) :
    ∃ q e, Stops (visitCall sha fs) (Place.root junk).call q e ∧ Before q p := by
  rcases branch_of_chain hy with hbranch | ⟨q₁, q₂, rfl, hstop⟩
  · by_cases hlong : maxpath ≤ y.path.length
    · exact ⟨q, _, ⟨_, hbranch, visitCall_of_long hlong⟩, hbefore⟩
    · exact ⟨q, _, ⟨_, hbranch, visitCall_assertFailed_iff.mpr ⟨hlong, hodd⟩⟩, hbefore⟩
  · rcases hbefore.of_append with h | ⟨s, hs, rfl⟩
    · exact ⟨q₁, _, hstop, h⟩
    · exact absurd hp (hstop.not_branch_append hs)

theorem explore_of_chainsFit (h : ChainsFit sha fs junk) :
    ∃ fuel r, explore (visitCall sha fs) fuel (Place.root junk).call = some r ∧
      ∀ e, r = .error e → ¬ e = .overflowed := by
  obtain ⟨bound, hbound⟩ := h
  refine explore_ends (· = Halt.overflowed) (bound + maxpath) fun p c hp hbad => ?_
  obtain ⟨x, hx, rfl⟩ := chain_of_branch hp
  obtain ⟨p₁, p₂, z, rfl, hz, hslash, hlen⟩ := hx.split rfl
  have hodd : ∃ q y, Chain sha fs (.root junk) q y ∧ OddSize sha fs y ∧ Before q (p₁ ++ p₂) := by
    by_cases hlong : maxpath ≤ x.path.length
    · exact hbound _ x hx (.inl hlong)
    · -- the chain is long, so it goes on at `/` for long
      have hdeep : bound + maxpath ≤ (p₁ ++ p₂).length := by
        rcases hbad with hdeep | ⟨e, he, rfl⟩
        · exact hdeep
        · exact absurd (visitCall_overflowed_iff.mp he) hlong
      rw [List.length_append] at hdeep
      obtain ⟨q, y, hy, hsize, hbefore⟩ := hbound p₁ z hz (.inr ⟨hslash, by omega⟩)
      exact ⟨q, y, hy, hsize, hbefore.append p₂⟩
  obtain ⟨q, y, hy, hsize, hbefore⟩ := hodd
  exact stops_of_oddSize hp hy hsize hbefore

end bounds

/-- **When the path dump stays within bounds.**  It ends, and `sprintf` writes nothing behind the
end of `nextpath`, exactly if on the image the chains of entries spell paths that fit, and none
goes on for ever at `/`, up to the first directory of odd size. -/
theorem pathDump_bounded_iff {Ctx : Type} (sha : Sha1 Ctx) (fs : UnixFilesystem) (junk : Junk) :
    (∃ fuel out, dumpPathnameChecksum sha fs fuel junk = some out ∧ out.ending ≠ .overflowed) ↔
      ChainsFit sha fs junk := by
  rw [pathDump_ends_iff]
  exact ⟨fun ⟨_, _, hr, hgood⟩ => chainsFit_of_explore hr hgood, explore_of_chainsFit⟩

/-! ## A directory in itself -/

/-- Inode 1 is a directory of one entry in sector 3. -/
def cycleInodes : List Byte := [0x00, 0xc0, 0, 0, 0, 0, 0x10, 0x00, 0x03, 0x00]

/-- The entry `a` of inode 1. -/
def cycleData : List Byte := [0x01, 0x00, 0x61]

def cycleEntry : Direntv6 := ⟨1, #v[0x61, 0, 0, 0, 0, 0, 0, 0, 0, 0, 0, 0, 0, 0]⟩

/-- `/a/a/…`, or `/`. -/
def cyclePath (k : Nat) : List Byte := pathOf (List.replicate k [0x61])

theorem cycle_inode : inodeOf (imageOf cycleInodes cycleData) 1 = plainInode 0xc000 0x10 3 := by
  rw [inodeOf_imageOf _ _ (by decide) (by decide)]
  decide

theorem cycle_allocated :
    AllocatedAt (imageFs cycleInodes cycleData).disk 1 (plainInode 0xc000 0x10 3) :=
  allocatedAt_imageOf (by decide) (by decide) cycle_inode (by decide)

theorem cycle_readable : Readable (imageFs cycleInodes cycleData).disk (plainInode 0xc000 0x10 3) :=
  readable_imageOf (by decide) (by decide) (by decide)

theorem cycle_slots : dirSlots (imageFs cycleInodes cycleData).disk (plainInode 0xc000 0x10 3) =
    direntsOf (pad cycleData) := dirSlots_imageOf _ _ (by decide) (by decide) (by decide)

theorem cycle_entries :
    dirEntries (imageFs cycleInodes cycleData).disk (plainInode 0xc000 0x10 3) = [cycleEntry] := by
  rw [← take_dirSlots cycle_readable, cycle_slots]
  decide

theorem cycle_loop (k i : Nat) (junk : Junk) :
    pathnameLoop (imageFs cycleInodes cycleData) junk i (List.replicate k [0x61]) 1 = .ok 1 := by
  induction k generalizing i with
  | zero => rfl
  | succ k ih =>
    have hname : EntryName [0x61] := ⟨by decide, by decide, by decide⟩
    have hslot : (direntsOf (pad cycleData)).find? (fun e => decide (e.name = [0x61])) =
        some cycleEntry := by decide
    have hfind := directoryFindname_eq cycle_allocated cycle_readable (by decide) hname (junk.sub i)
    rw [cycle_slots, hslot] at hfind
    rw [List.replicate_succ, pathnameLoop]
    show directoryFindname _ _ _ (1 : Int) >>= _ = _
    rw [hfind]
    exact ih (i + 1)

/-- Each of these paths resolves to the root. -/
theorem cycle_lookup (k : Nat) (junk : Junk) :
    pathnameLookup (imageFs cycleInodes cycleData) junk (cyclePath k) = .ok 1 := by
  have htokens : tokens slash (cyclePath k) = List.replicate k [0x61] := by
    rw [cyclePath, pathOf]
    split
    · rename_i hk
      rw [hk]
      rfl
    · refine tokens_joinTokens fun w hw => ?_
      rw [List.eq_of_mem_replicate hw]
      exact ⟨by decide, by decide⟩
  have habs : (cyclePath k).head? = some slash := by
    cases k <;> rfl
  rw [pathnameLookup, if_neg (not_not_intro habs), htokens]
  exact cycle_loop k 0 junk

/-- The call for each of them goes on to the next. -/
theorem cycle_calls (k : Nat) (junk : Junk) :
    entriesBelow abcSha1 (imageFs cycleInodes cycleData) ⟨junk, cyclePath k, 1⟩ =
      some [cycleEntry] := by
  obtain ⟨chksum, -, hsum, hpath⟩ :=
    checksums_agree (l := 1) abcSha1_total cycle_allocated cycle_readable (cycle_lookup k)
  have hinode : inodeIget (imageFs cycleInodes cycleData) (junk.sub 0) (1 : Nat) =
      .ok (plainInode 0xc000 0x10 3) := inodeIget_allocated cycle_allocated (junk.sub 0)
  have hlist : getDirEntries (imageFs cycleInodes cycleData) (junk.sub 3) (1 : Nat) maxDirentries =
      .ok [cycleEntry] := by
    rw [← cycle_entries]
    exact getDirEntries_eq cycle_allocated cycle_readable (by decide) (by decide) (junk.sub 3)
      (by decide) (by decide)
  have hcompare : chksumfileCompare chksum chksum = true := decide_eq_true rfl
  rw [entriesBelow]
  dsimp only
  rw [hinode]
  dsimp only
  rw [if_neg (by decide), hsum]
  dsimp only
  rw [hpath]
  dsimp only
  rw [hcompare, if_neg (by decide), if_pos (by decide), hlist]

theorem parentPath_cyclePath (k : Nat) :
    parentPath (cyclePath k) = joinTokens slash (List.replicate k [0x61]) := by
  cases k with
  | zero => rfl
  | succ k => exact if_neg (by simp [cyclePath, pathOf, joinTokens])

theorem childCalls_cyclePath (k : Nat) (junk : Junk) :
    childCalls junk (parentPath (cyclePath k)) [cycleEntry] =
      [⟨junk.sub 0, cyclePath (k + 1), 1⟩] := by
  have hdots : ¬ cycleEntry.isDots = true := by decide
  have hname : cycleEntry.name = [0x61] := by decide
  have hpath : childPath junk (parentPath (cyclePath k)) cycleEntry [] = cyclePath (k + 1) := by
    rw [childPath_eq (by decide), hname, parentPath_cyclePath, cyclePath, List.replicate_succ',
      pathOf_append]
  rw [childCalls, if_neg hdots, hpath]
  rfl

/-- **From each of them** the dump writes behind `nextpath`, unless it has no end. -/
theorem cycle_overflows (fuel k : Nat) (junk : Junk) {out : Output}
    (h : dumpCall abcSha1 (imageFs cycleInodes cycleData) fuel ⟨junk, cyclePath k, 1⟩ = some out) :
    out.ending = .overflowed := by
  induction fuel generalizing k junk out with
  | zero =>
    by_cases hlong : maxpath < (cyclePath k).length + 1
    · rw [dumpCall_of_overflow hlong] at h
      obtain rfl := Option.some.inj h
      rfl
    · rw [dumpCall, if_neg hlong] at h
      cases h
  | succ fuel ih =>
    by_cases hlong : maxpath < (cyclePath k).length + 1
    · rw [dumpCall_of_overflow hlong] at h
      obtain rfl := Option.some.inj h
      rfl
    · obtain ⟨lines, hdump⟩ :=
        dumpPathAndChildren_succ abcSha1 (imageFs cycleInodes cycleData) ⟨junk, cyclePath k, 1⟩
      rw [dumpCall, if_neg hlong, hdump, cycle_calls, goOn, dumpChildren_eq_dumpAll,
        childCalls_cyclePath, dumpAll, Output.andThen_of_returned rfl, Option.map_eq_some_iff] at h
      obtain ⟨rest, hrest, rfl⟩ := h
      cases hnext : dumpCall abcSha1 (imageFs cycleInodes cycleData) fuel
          ⟨(junk.sub 4).sub 0, cyclePath (k + 1), 1⟩ with
      | none =>
        rw [hnext] at hrest
        cases hrest
      | some output =>
        have hending := ih (k + 1) _ hnext
        rw [hnext] at hrest
        dsimp only at hrest
        rw [Output.andThen_of_ne (by rw [hending]; decide)] at hrest
        obtain rfl := Option.some.inj hrest
        exact hending

/-- The dump of this image does not stay within bounds. -/
theorem cycle_unbounded : ¬ ∃ fuel out,
    dumpPathnameChecksum abcSha1 (imageFs cycleInodes cycleData) fuel zeroJunk = some out ∧
      out.ending ≠ .overflowed := by
  rintro ⟨fuel, out, hout, hne⟩
  apply hne
  apply cycle_overflows fuel 0 zeroJunk
  rw [dumpCall, if_neg]
  · exact hout
  · decide

end Acso.FileSystem
