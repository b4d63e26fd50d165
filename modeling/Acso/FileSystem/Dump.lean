import Acso.FileSystem.Inode

/-!
# Checksums and the inode dump

`chksumfile.c` and `DumpInodeChecksum` of `diskimageaccess.c`.  The hash of
OpenSSL is a parameter: a context type with the three calls the code makes, each
of which may fail.
-/

namespace Acso.FileSystem

open Acso.Lib

def chksumfileSize : Nat := 20

/-- `SHA1_Init`, `SHA1_Update` and `SHA1_Final`. -/
structure Sha1 (Ctx : Type) where
  init : Option Ctx
  update : Ctx → List Byte → Option Ctx
  final : Ctx → Option (Vector Byte chksumfileSize)

variable {Ctx : Type}

/-- The loop over the offsets. -/
def chksumLoop (sha : Sha1 Ctx) (fs : UnixFilesystem) (junk : Junk) (inumber : Int) :
    List Nat → Ctx → Result Ctx
  | [], shactx => .ok shactx
  | offset :: offsets, shactx => do
    let bno := offset / diskimgSectorSize
    let (bytesMoved, buf) ← fileGetblock fs (junk.sub bno) inumber bno ((junk.sub bno).sub 2).here
    match sha.update shactx (buf.bytes.take bytesMoved.toNat) with
    | none => .error (.minusOne [])
    | some shactx => chksumLoop sha fs junk inumber offsets shactx

/-- `for (offset = 0; offset < size; offset += DISKIMG_SECTOR_SIZE)`. -/
def offsets (size : Nat) : List Nat := (List.range (blockCount size)).map (diskimgSectorSize * ·)

def chksumfileByinumber (sha : Sha1 Ctx) (fs : UnixFilesystem) (junk : Junk) (inumber : Int) :
    Result (Vector Byte chksumfileSize) :=
  match sha.init with
  | none => .error (.minusOne [])
  | some shactx => do
    let inode ← inodeIget fs (junk.sub 0) inumber
    if inode.mode &&& ialloc = 0 then .error (.minusOne [])
    else
      let size := inodeGetsize inode
      let shactx ← chksumLoop sha fs (junk.sub 1) inumber (offsets size) shactx
      match sha.final shactx with
      | none => .error (.minusOne [])
      | some chksum => .ok chksum

/-- `%02x` of every byte. -/
def chksumfileCvt2string (chksum : Vector Byte chksumfileSize) : String :=
  String.join (chksum.toList.map fun b =>
    if b.toNat < 16 then "0" ++ hex b.toNat else hex b.toNat)

/-! ## The dump -/

/-- A line of output. -/
inductive Line
  | stderr (text : String)
  | inode (inumber : Nat) (mode : BitVec 16) (size : Nat) (chksumstring : String)
  | path (pathname : List Byte) (inumber : Nat) (mode : BitVec 16) (size : Nat)
      (chksumstring : String)
  deriving DecidableEq

/-- `%s` of some characters. -/
def textOf (chars : List Byte) : String := String.ofList (chars.map fun c => Char.ofNat c.toNat)

/-- What the line looks like. -/
def Line.text : Line → String
  | .stderr text => text
  | .inode inumber mode size chksumstring =>
    "Inode " ++ toString inumber ++ " mode 0x" ++ hex mode.toNat ++ " size " ++ toString size ++
      " checksum " ++ chksumstring ++ "\n"
  | .path pathname inumber mode size chksumstring =>
    "Path " ++ textOf pathname ++ " " ++ toString inumber ++ " mode 0x" ++ hex mode.toNat ++
      " size " ++ toString size ++ " checksum " ++ chksumstring ++ "\n"

/-- The lines a failed call has printed. -/
def Failure.lines : Failure → List Line
  | .minusOne stderr => stderr.map .stderr
  | .assertFailed => []

/-- The loop over the inode numbers. -/
def dumpLoop (sha : Sha1 Ctx) (fs : UnixFilesystem) (junk : Junk) : List Nat → List Line
  | [] => []
  | inumber :: inumbers =>
    match inodeIget fs ((junk.sub inumber).sub 0) inumber with
    | .error e => e.lines ++ [.stderr ("Can't read inode " ++ toString inumber ++ " \n")]
    | .ok inode =>
      if inode.mode &&& ialloc = 0 then
        dumpLoop sha fs junk inumbers
      else
        match chksumfileByinumber sha fs ((junk.sub inumber).sub 1) inumber with
        | .error e =>
          e.lines ++ .stderr ("Inode " ++ toString inumber ++ " can't compute chksum\n") ::
            dumpLoop sha fs junk inumbers
        | .ok chksum =>
          let chksumstring := chksumfileCvt2string chksum
          let size := inodeGetsize inode
          .inode inumber inode.mode size chksumstring :: dumpLoop sha fs junk inumbers

/-- The inode numbers of the loop: `1, …, s_isize * 16 - 1`. -/
def inumbers (fs : UnixFilesystem) : List Nat := List.range' 1 (fs.sIsize.toNat * 16 - 1)

def dumpInodeChecksum (sha : Sha1 Ctx) (fs : UnixFilesystem) (junk : Junk) : List Line :=
  dumpLoop sha fs junk (inumbers fs)

end Acso.FileSystem
