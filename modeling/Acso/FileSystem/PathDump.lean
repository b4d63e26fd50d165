import Acso.FileSystem.Dump
import Acso.FileSystem.Pathname

/-!
# The path dump

`DumpPathAndChildren` and `DumpPathnameChecksum` of `diskimageaccess.c`.  The dump goes
down a directory by the inode numbers of its entries, and for each path it has put
together it also resolves the path from the root.  The recursion is bounded by fuel, and
`none` stands for a dump that has not come to an end with it.
-/

namespace Acso.FileSystem

open Acso.Lib

variable {Ctx : Type}

def chksumfileBypathname (sha : Sha1 Ctx) (fs : UnixFilesystem) (junk : Junk)
    (pathname : List Byte) : Result (Vector Byte chksumfileSize) := do
  let inumber ← pathnameLookup fs (junk.sub 0) pathname
  chksumfileByinumber sha fs (junk.sub 1) inumber

/-- All bytes of the two checksums are the same. -/
def chksumfileCompare (chksum1 chksum2 : Vector Byte chksumfileSize) : Bool :=
  decide (chksum1 = chksum2)

/-- How a call of the dump ends. -/
inductive Ending
  | returned
  | assertFailed
  /-- `sprintf` has written behind the end of `nextpath`. -/
  | overflowed
  deriving DecidableEq

/-- What a call prints, and how it ends. -/
structure Output where
  lines : List Line
  ending : Ending
  deriving DecidableEq

/-- The output of one call and, if that returns, of what follows. -/
def Output.andThen (output : Output) (next : Option Output) : Option Output :=
  match output.ending with
  | .returned => next.map fun rest => ⟨output.lines ++ rest.lines, rest.ending⟩
  | _ => some output

/-- After a failed call a line is printed, and the dump of this path returns. -/
def Failure.output (e : Failure) (line : String) : Output :=
  match e with
  | .minusOne stderr => ⟨stderr.map .stderr ++ [.stderr line], .returned⟩
  | .assertFailed => ⟨[], .assertFailed⟩

def maxpath : Nat := 1024

/-- The array that `GetDirEntries` fills has this many entries. -/
def maxDirentries : Nat := 10000

def dot : Byte := 0x2e

/-- The test for `.` and `..`. -/
def Direntv6.isDots (entry : Direntv6) : Bool :=
  let n := entry.dName
  n[0] = dot && (n[1] = 0 || (n[1] = dot && n[2] = 0))

/-- An entry in memory. -/
def Direntv6.toBytes (entry : Direntv6) : List Byte :=
  byteOf entry.dInumber 0 :: byteOf entry.dInumber 1 :: entry.dName.toList

/-- What is behind the last entry that was read: the rest of the array, and of the stack, as far
as it could fit into `nextpath`.  It is uninitialised. -/
def bytesBehind (junk : Junk) : List Byte := junk.here.bytes ++ (junk.sub maxDirentries).here.bytes

/-- `%s` of the name of an entry goes on into the entries behind it, as long as there is no
NUL. -/
def dNameString (junk : Junk) (entry : Direntv6) (behind : List Direntv6) : List Byte :=
  cstring (entry.dName.toList ++ (behind.flatMap Direntv6.toBytes ++ bytesBehind junk))

/-- What `sprintf` puts together for an entry. -/
def childPath (junk : Junk) (pathname : List Byte) (entry : Direntv6) (behind : List Direntv6) :
    List Byte :=
  pathname ++ slash :: dNameString junk entry behind

/-- The loop over the entries of a directory; `dump` is the call for each of them. -/
def dumpChildren (dump : Junk → List Byte → Nat → Option Output) (junk : Junk)
    (pathname : List Byte) : List Direntv6 → Option Output
  | [] => some ⟨[], .returned⟩
  | entry :: direntries =>
    if entry.isDots then dumpChildren dump junk pathname direntries
    else
      let nextpath := childPath junk pathname entry direntries
      if maxpath < nextpath.length + 1 then some ⟨[], .overflowed⟩
      else
        match dump (junk.sub direntries.length) nextpath entry.dInumber.toNat with
        | none => none
        | some output => output.andThen (dumpChildren dump junk pathname direntries)

/-- Every call keeps `direntries`, an array of 10000 entries, on the stack, about 160 kB with the
rest; the stack is taken to suffice for the depth of the recursion. -/
def dumpPathAndChildren (sha : Sha1 Ctx) (fs : UnixFilesystem) :
    Nat → Junk → List Byte → Nat → Option Output
  | 0, _, _, _ => none
  | fuel + 1, junk, pathname, inumber =>
    let cantChecksum := "Can't checksum inode " ++ toString inumber ++ " path " ++
      textOf pathname ++ "\n"
    match inodeIget fs (junk.sub 0) inumber with
    | .error e => some (e.output ("Can't read inode " ++ toString inumber ++ " \n"))
    | .ok inode =>
      if inode.mode &&& ialloc = 0 then some ⟨[], .assertFailed⟩
      else
        match chksumfileByinumber sha fs (junk.sub 1) inumber with
        | .error e => some (e.output cantChecksum)
        | .ok chksum1 =>
          match chksumfileBypathname sha fs (junk.sub 2) pathname with
          | .error e => some (e.output cantChecksum)
          | .ok chksum2 =>
            if !chksumfileCompare chksum1 chksum2 then
              some ⟨[.stderr ("Pathname checksum of " ++ textOf pathname ++
                " differs from inode " ++ toString inumber ++ "\n")], .returned⟩
            else
              let line := Line.path pathname inumber inode.mode (inodeGetsize inode)
                (chksumfileCvt2string chksum2)
              -- the extra slash of the root goes
              let pathname := if pathname.length = 1 then pathname.tail else pathname
              if inode.mode &&& ifmt = ifdir then
                let deep := if maxpath - 16 < pathname.length then
                  [Line.stderr ("Too deep of directories " ++ textOf pathname ++ "\n")] else []
                match getDirEntries fs (junk.sub 3) inumber maxDirentries with
                | .error (.minusOne stderr) =>
                  -- the number of entries is negative, and the loop does nothing
                  some ⟨line :: deep ++ stderr.map .stderr, .returned⟩
                | .error .assertFailed => some ⟨line :: deep, .assertFailed⟩
                | .ok direntries =>
                  Output.andThen ⟨line :: deep, .returned⟩
                    (dumpChildren (dumpPathAndChildren sha fs fuel) (junk.sub 4) pathname direntries)
              else some ⟨[line], .returned⟩

def dumpPathnameChecksum (sha : Sha1 Ctx) (fs : UnixFilesystem) (fuel : Nat) (junk : Junk) :
    Option Output :=
  dumpPathAndChildren sha fs fuel junk [slash] rootInumber

end Acso.FileSystem
