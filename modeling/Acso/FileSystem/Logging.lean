import Acso.Lib.Logged
import Acso.FileSystem.Bounds
import Acso.FileSystem.InodeArea

/-!
# What the calls do on the way

The functions behind `chksumfileBypathname` and the block lookups once more, with a log of the
inodes they fetch and of the arrays that `inodeIndexlookup` indexes.  Each has the value of the
function it stands for (`val_chksumfileBypathname`, `val_directoryFindname`), the fetches are
those of `bypathnameFetches` (`fetches_chksumfileBypathname`), and the accesses are those of the
lookups of a `BlockCall` (`accesses_fileGetblock`, `accesses_directoryFindname`).
-/

namespace Acso.FileSystem

open Acso.Lib
open Acso.Lib.Logged (quiet noted val_run_quiet log_run_quiet val_run_bind log_run_bind)

/-- A call of `inodeIget`, or an access to an array. -/
inductive Event
  | fetch (f : Fetch)
  | access (a : Access)

def Event.fetch? : Event → Option Fetch
  | .fetch f => some f
  | .access _ => none

def Event.access? : Event → Option Access
  | .fetch _ => none
  | .access a => some a

/-- Results with a log. -/
abbrev Logging := ExceptT Failure (Logged Event)

namespace Logging

variable {Ctx : Type}

/-- `a[i]`, of an array that has `length` elements. -/
def index {n : Nat} (a : Vector (BitVec 16) n) (length i : Nat) (junk : Sector) :
    Logging (BitVec 16) :=
  noted (.ok (readArray a i junk)) (.access ⟨i, length⟩)

/-! ## Blocks -/

def inodeIget (fs : UnixFilesystem) (junk : Junk) (inumber : Int) : Logging Inode :=
  noted (FileSystem.inodeIget fs junk inumber) (.fetch ⟨junk, inumber⟩)

def readAddress (fs : UnixFilesystem) (junk : Junk) (sector position : Nat) : Logging Nat := do
  let (_, bufferAdd) ← quiet (diskimgReadsector fs.disk sector (junk.sub 0).here)
  let address ← index (wordsOf bufferAdd.bytes) sectorAddCount position junk.here
  pure address.toNat

def inodeIndexlookup (fs : UnixFilesystem) (junk : Junk) (inode : Inode) (blockNum : Int) :
    Logging Nat :=
  if blockNum < 0 then quiet (.error (.minusOne []))
  else
    let blockNum := blockNum.toNat
    if inode.mode &&& ilarg = 0 then do
      let address ← index inode.words addrCount blockNum junk.here
      pure address.toNat
    else if blockNum < indirectAddCount then do
      let sector := blockNum / sectorAddCount
      let positionWithinTheSector := blockNum % sectorAddCount
      let address ← index inode.addr addrCount sector junk.here
      readAddress fs junk address.toNat positionWithinTheSector
    else do
      let blockNumRestarted := blockNum - indirectAddCount
      let firstLevelIndex := blockNumRestarted / sectorAddCount
      let secondLevelIndex := blockNumRestarted % sectorAddCount
      let address ← index inode.addr addrCount singleIndirectSectors junk.here
      let secondLevelSector ← readAddress fs junk address.toNat firstLevelIndex
      readAddress fs (junk.sub 1) secondLevelSector secondLevelIndex

def fileGetblock (fs : UnixFilesystem) (junk : Junk) (inumber blockNum : Int) (buf : Sector) :
    Logging (Int × Sector) := do
  let fileInode ← inodeIget fs (junk.sub 0) inumber
  let fileSize := inodeGetsize fileInode
  let maxBlocks := blockCount fileSize
  if blockNum ≥ maxBlocks then quiet (.error (.minusOne []))
  else
    let dataBlock ← inodeIndexlookup fs (junk.sub 1) fileInode blockNum
    let (_, buf) ← quiet (diskimgReadsector fs.disk dataBlock buf)
    let remainingBytes : Int := fileSize - blockNum * diskimgSectorSize
    let validBytes := if remainingBytes < diskimgSectorSize then remainingBytes else diskimgSectorSize
    pure (validBytes, buf)

/-! ## Names -/

def findnameLoop (fs : UnixFilesystem) (junk : Junk) (name : List Byte) (dirInode : Inode) :
    List Nat → Sector → Logging Direntv6
  | [], _ => quiet (.error (.minusOne []))
  | block :: blocks, dirEntries => do
    let dataBlock ← inodeIndexlookup fs (junk.sub block) dirInode block
    let (bytesRead, dirEntries) ← quiet (diskimgReadsector fs.disk dataBlock dirEntries)
    let entriesCount := bytesRead / sizeofDirentv6
    match ((direntsOf dirEntries.bytes).take entriesCount).find? (fun e => decide (e.Carries name)) with
    | some entry => pure entry
    | none => findnameLoop fs junk name dirInode blocks dirEntries

def directoryFindname (fs : UnixFilesystem) (junk : Junk) (name : List Byte) (dirinumber : Int) :
    Logging Direntv6 := do
  let dirInode ← inodeIget fs (junk.sub 0) dirinumber
  if dirInode.mode &&& ifdir = 0 then quiet (.error (.minusOne []))
  else
    let dirSize := inodeGetsize dirInode
    findnameLoop fs (junk.sub 1) name dirInode (List.range (blockCount dirSize)) (junk.sub 2).here

def pathnameLoop (fs : UnixFilesystem) (junk : Junk) : Nat → List (List Byte) → Nat → Logging Nat
  | _, [], curr => pure curr
  | i, token :: tokens, curr => do
    let dirEntry ← directoryFindname fs (junk.sub i) token curr
    pathnameLoop fs junk (i + 1) tokens dirEntry.dInumber.toNat

def pathnameLookup (fs : UnixFilesystem) (junk : Junk) (pathname : List Byte) : Logging Nat :=
  if pathname.head? ≠ some slash then quiet (.error (.minusOne []))
  else pathnameLoop fs junk 0 (tokens slash pathname) rootInumber

/-! ## Checksums -/

def chksumLoop (sha : Sha1 Ctx) (fs : UnixFilesystem) (junk : Junk) (inumber : Int) :
    List Nat → Ctx → Logging Ctx
  | [], shactx => pure shactx
  | offset :: offsets, shactx => do
    let bno := offset / diskimgSectorSize
    let (bytesMoved, buf) ← fileGetblock fs (junk.sub bno) inumber bno ((junk.sub bno).sub 2).here
    match sha.update shactx (buf.bytes.take bytesMoved.toNat) with
    | none => quiet (.error (.minusOne []))
    | some shactx => chksumLoop sha fs junk inumber offsets shactx

def chksumfileByinumber (sha : Sha1 Ctx) (fs : UnixFilesystem) (junk : Junk) (inumber : Int) :
    Logging (Vector Byte chksumfileSize) :=
  match sha.init with
  | none => quiet (.error (.minusOne []))
  | some shactx => do
    let inode ← inodeIget fs (junk.sub 0) inumber
    if inode.mode &&& ialloc = 0 then quiet (.error (.minusOne []))
    else
      let size := inodeGetsize inode
      let shactx ← chksumLoop sha fs (junk.sub 1) inumber (offsets size) shactx
      match sha.final shactx with
      | none => quiet (.error (.minusOne []))
      | some chksum => pure chksum

def chksumfileBypathname (sha : Sha1 Ctx) (fs : UnixFilesystem) (junk : Junk)
    (pathname : List Byte) : Logging (Vector Byte chksumfileSize) := do
  let inumber ← pathnameLookup fs (junk.sub 0) pathname
  chksumfileByinumber sha fs (junk.sub 1) inumber

/-! ## The values -/

section values

variable (fs : UnixFilesystem) (junk : Junk)

/-- Both parts of a call have the values of what they stand for. -/
theorem val_bind_congr {α β : Type} {x : Logging α} {y : Result α} {f : α → Logging β}
    {g : α → Result β} (hx : x.run.val = y) (hf : ∀ a, (f a).run.val = g a) :
    (x >>= f).run.val = y >>= g := by
  rw [val_run_bind, hx]
  exact congrArg _ (funext hf)

theorem val_pure {α : Type} (a : α) : (pure a : Logging α).run.val = .ok a := rfl

theorem val_index {n : Nat} (a : Vector (BitVec 16) n) (length i : Nat) (junk : Sector) :
    (index a length i junk).run.val = .ok (readArray a i junk) := rfl

theorem val_inodeIget (inumber : Int) :
    (inodeIget fs junk inumber).run.val = FileSystem.inodeIget fs junk inumber := rfl

theorem val_readAddress (sector position : Nat) :
    (readAddress fs junk sector position).run.val =
      FileSystem.readAddress fs junk sector position :=
  val_bind_congr (val_run_quiet _) fun _ => val_bind_congr (val_index ..) fun _ => val_pure _

theorem val_inodeIndexlookup (inode : Inode) (blockNum : Int) :
    (inodeIndexlookup fs junk inode blockNum).run.val =
      FileSystem.inodeIndexlookup fs junk inode blockNum := by
  rw [inodeIndexlookup, FileSystem.inodeIndexlookup]
  by_cases hneg : blockNum < 0
  · rw [if_pos hneg, if_pos hneg]
    rfl
  rw [if_neg hneg, if_neg hneg]
  dsimp only
  by_cases hmode : inode.mode &&& ilarg = 0
  · rw [if_pos hmode, if_pos hmode]
    rw [val_run_bind, val_index, ok_bind, val_pure]
  rw [if_neg hmode, if_neg hmode]
  by_cases hb : blockNum.toNat < indirectAddCount
  · rw [if_pos hb, if_pos hb, val_run_bind, val_index, ok_bind]
    exact val_readAddress ..
  · rw [if_neg hb, if_neg hb, val_run_bind, val_index, ok_bind]
    exact val_bind_congr (val_readAddress ..) fun _ => val_readAddress ..

theorem val_fileGetblock (inumber blockNum : Int) (buf : Sector) :
    (fileGetblock fs junk inumber blockNum buf).run.val =
      FileSystem.fileGetblock fs junk inumber blockNum buf := by
  refine val_bind_congr (val_inodeIget ..) fun fileInode => ?_
  dsimp only
  split
  · rfl
  · exact val_bind_congr (val_inodeIndexlookup ..) fun _ =>
      val_bind_congr (val_run_quiet _) fun _ => val_pure _

theorem val_findnameLoop (name : List Byte) (dirInode : Inode) (blocks : List Nat)
    (dirEntries : Sector) :
    (findnameLoop fs junk name dirInode blocks dirEntries).run.val =
      FileSystem.findnameLoop fs junk name dirInode blocks dirEntries := by
  induction blocks generalizing dirEntries with
  | nil => rfl
  | cons block blocks ih =>
    refine val_bind_congr (val_inodeIndexlookup ..) fun _ => val_bind_congr (val_run_quiet _) ?_
    rintro ⟨bytesRead, dirEntries⟩
    dsimp only
    cases List.find? _ _ with
    | some entry => rfl
    | none => exact ih dirEntries

theorem val_directoryFindname (name : List Byte) (dirinumber : Int) :
    (directoryFindname fs junk name dirinumber).run.val =
      FileSystem.directoryFindname fs junk name dirinumber := by
  refine val_bind_congr (val_inodeIget ..) fun dirInode => ?_
  dsimp only
  split
  · rfl
  · exact val_findnameLoop ..

theorem val_pathnameLoop (i : Nat) (tokens : List (List Byte)) (curr : Nat) :
    (pathnameLoop fs junk i tokens curr).run.val = FileSystem.pathnameLoop fs junk i tokens curr := by
  induction tokens generalizing i curr with
  | nil => rfl
  | cons token tokens ih =>
    exact val_bind_congr (val_directoryFindname ..) fun e => ih (i + 1) e.dInumber.toNat

theorem val_pathnameLookup (pathname : List Byte) :
    (pathnameLookup fs junk pathname).run.val = FileSystem.pathnameLookup fs junk pathname := by
  rw [pathnameLookup, FileSystem.pathnameLookup]
  split
  · rfl
  · exact val_pathnameLoop ..

variable (sha : Sha1 Ctx)

theorem val_chksumLoop (inumber : Int) (offsets : List Nat) (shactx : Ctx) :
    (chksumLoop sha fs junk inumber offsets shactx).run.val =
      FileSystem.chksumLoop sha fs junk inumber offsets shactx := by
  induction offsets generalizing shactx with
  | nil => rfl
  | cons offset offsets ih =>
    refine val_bind_congr (val_fileGetblock ..) ?_
    rintro ⟨bytesMoved, buf⟩
    dsimp only
    cases sha.update shactx (buf.bytes.take bytesMoved.toNat) with
    | none => rfl
    | some shactx => exact ih shactx

theorem val_chksumfileByinumber (inumber : Int) :
    (chksumfileByinumber sha fs junk inumber).run.val =
      FileSystem.chksumfileByinumber sha fs junk inumber := by
  rw [chksumfileByinumber, FileSystem.chksumfileByinumber]
  cases sha.init with
  | none => rfl
  | some shactx =>
    refine val_bind_congr (val_inodeIget ..) fun inode => ?_
    dsimp only
    split
    · rfl
    · refine val_bind_congr (val_chksumLoop ..) fun shactx => ?_
      cases sha.final shactx <;> rfl

/-- **The log is only added.** -/
theorem val_chksumfileBypathname (pathname : List Byte) :
    (chksumfileBypathname sha fs junk pathname).run.val =
      FileSystem.chksumfileBypathname sha fs junk pathname :=
  val_bind_congr (val_pathnameLookup ..) fun _ => val_chksumfileByinumber ..

end values

/-! ## The events -/

section events

variable {γ : Type} (g : Event → Option γ)

/-- The events of one kind. -/
def events {α : Type} (x : Logging α) : List γ := x.run.log.filterMap g

theorem events_quiet {α : Type} (x : Result α) : events g (quiet x) = [] := rfl

theorem events_pure {α : Type} (a : α) : events g (pure a : Logging α) = [] := rfl

section bind

variable {α β : Type} {x : Logging α}

theorem events_bind_ok {a : α} (hx : x.run.val = .ok a) (f : α → Logging β) :
    events g (x >>= f) = events g x ++ events g (f a) := by
  rw [events, log_run_bind, List.filterMap_append, hx]
  rfl

theorem events_bind_error {e : Failure} (hx : x.run.val = .error e) (f : α → Logging β) :
    events g (x >>= f) = events g x := by
  rw [events, log_run_bind, List.filterMap_append, hx]
  exact List.append_nil _

/-- If nothing of the kind is done behind `x`. -/
theorem events_bind_nil {f : α → Logging β} (hf : ∀ a, events g (f a) = []) :
    events g (x >>= f) = events g x := by
  cases hx : x.run.val with
  | error e => exact events_bind_error g hx f
  | ok a => rw [events_bind_ok g hx, hf, List.append_nil]

end bind

end events

variable (fs : UnixFilesystem) (junk : Junk)

/-! ## Fetches -/

section fetches

theorem fetches_inodeIget (inumber : Int) :
    events Event.fetch? (inodeIget fs junk inumber) = [⟨junk, inumber⟩] := rfl

theorem fetches_index {n : Nat} (a : Vector (BitVec 16) n) (length i : Nat) (junk : Sector) :
    events Event.fetch? (index a length i junk) = [] := rfl

theorem fetches_readAddress (sector position : Nat) :
    events Event.fetch? (readAddress fs junk sector position) = [] := by
  refine events_bind_nil _ fun _ => ?_
  dsimp only
  rw [events_bind_nil _ fun _ => events_pure _ _, fetches_index]

theorem fetches_inodeIndexlookup (inode : Inode) (blockNum : Int) :
    events Event.fetch? (inodeIndexlookup fs junk inode blockNum) = [] := by
  have hsecond : ∀ first sector, events Event.fetch?
      (readAddress fs junk first sector >>= fun k => readAddress fs (junk.sub 1) k sector) = [] := by
    intro first sector
    rw [events_bind_nil _ fun _ => fetches_readAddress .., fetches_readAddress]
  rw [inodeIndexlookup]
  split
  · rfl
  dsimp only
  split
  · rw [events_bind_nil _ fun _ => events_pure _ _, fetches_index]
  split
  · rw [events_bind_nil _ fun _ => fetches_readAddress .., fetches_index]
  · refine events_bind_nil _ fun _ => ?_
    rw [events_bind_nil _ fun _ => fetches_readAddress .., fetches_readAddress]

/-- A block of a file takes one fetch. -/
theorem fetches_fileGetblock (inumber blockNum : Int) (buf : Sector) :
    events Event.fetch? (fileGetblock fs junk inumber blockNum buf) = [⟨junk.sub 0, inumber⟩] := by
  rw [fileGetblock, events_bind_nil _ fun fileInode => ?_, fetches_inodeIget]
  dsimp only
  split
  · rfl
  · rw [events_bind_nil _ fun _ => ?_, fetches_inodeIndexlookup]
    exact events_bind_nil _ fun _ => events_pure _ _

theorem fetches_findnameLoop (name : List Byte) (dirInode : Inode) (blocks : List Nat)
    (dirEntries : Sector) :
    events Event.fetch? (findnameLoop fs junk name dirInode blocks dirEntries) = [] := by
  induction blocks generalizing dirEntries with
  | nil => rfl
  | cons block blocks ih =>
    rw [findnameLoop, events_bind_nil _ fun _ => ?_, fetches_inodeIndexlookup]
    refine events_bind_nil _ ?_
    rintro ⟨bytesRead, dirEntries⟩
    dsimp only
    cases List.find? _ _ with
    | some entry => rfl
    | none => exact ih dirEntries

theorem fetches_directoryFindname (name : List Byte) (dirinumber : Int) :
    events Event.fetch? (directoryFindname fs junk name dirinumber) = [⟨junk.sub 0, dirinumber⟩] := by
  rw [directoryFindname, events_bind_nil _ fun dirInode => ?_, fetches_inodeIget]
  dsimp only
  split
  · rfl
  · exact fetches_findnameLoop ..

theorem fetches_pathnameLoop (i : Nat) (tokens : List (List Byte)) (curr : Nat) :
    events Event.fetch? (pathnameLoop fs junk i tokens curr) =
      pathnameLoopFetches fs junk i tokens curr := by
  induction tokens generalizing i curr with
  | nil => rfl
  | cons token tokens ih =>
    have hval := val_directoryFindname fs (junk.sub i) token curr
    rw [pathnameLoop, pathnameLoopFetches]
    cases hfind : FileSystem.directoryFindname fs (junk.sub i) token curr with
    | error e =>
      rw [events_bind_error _ (hval.trans hfind), fetches_directoryFindname]
    | ok e =>
      rw [events_bind_ok _ (hval.trans hfind), fetches_directoryFindname, ih]
      rfl

theorem fetches_pathnameLookup (pathname : List Byte) :
    events Event.fetch? (pathnameLookup fs junk pathname) =
      pathnameLookupFetches fs junk pathname := by
  rw [pathnameLookup, pathnameLookupFetches]
  split
  · rfl
  · exact fetches_pathnameLoop ..

variable (sha : Sha1 Ctx)

theorem fetches_chksumLoop (inumber : Int) (offsets : List Nat) (shactx : Ctx) :
    events Event.fetch? (chksumLoop sha fs junk inumber offsets shactx) =
      chksumLoopFetches sha fs junk inumber offsets shactx := by
  induction offsets generalizing shactx with
  | nil => rfl
  | cons offset offsets ih =>
    rw [chksumLoop, chksumLoopFetches]
    dsimp only
    generalize offset / diskimgSectorSize = bno
    have hval := val_fileGetblock fs (junk.sub bno) inumber bno ((junk.sub bno).sub 2).here
    cases hget : FileSystem.fileGetblock fs (junk.sub bno) inumber bno
      ((junk.sub bno).sub 2).here with
    | error e =>
      rw [events_bind_error _ (hval.trans hget), fetches_fileGetblock]
    | ok r =>
      rw [events_bind_ok _ (hval.trans hget), fetches_fileGetblock, List.singleton_append]
      dsimp only
      cases sha.update shactx (r.2.bytes.take r.1.toNat) with
      | none => rfl
      | some shactx => exact congrArg _ (ih shactx)

theorem fetches_chksumfileByinumber (inumber : Int) :
    events Event.fetch? (chksumfileByinumber sha fs junk inumber) =
      byinumberFetches sha fs junk inumber := by
  rw [chksumfileByinumber, byinumberFetches]
  cases sha.init with
  | none => rfl
  | some shactx =>
    dsimp only
    cases hget : FileSystem.inodeIget fs (junk.sub 0) inumber with
    | error e =>
      rw [events_bind_error _ ((val_inodeIget ..).trans hget), fetches_inodeIget]
    | ok inode =>
      rw [events_bind_ok _ ((val_inodeIget ..).trans hget), fetches_inodeIget,
        List.singleton_append]
      dsimp only
      split
      · rfl
      · rw [events_bind_nil _ fun shactx => ?_, fetches_chksumLoop]
        cases sha.final shactx <;> rfl

/-- **The fetches of a checksum** are those that are listed. -/
theorem fetches_chksumfileBypathname (pathname : List Byte) :
    events Event.fetch? (chksumfileBypathname sha fs junk pathname) =
      bypathnameFetches sha fs junk pathname := by
  have hval := val_pathnameLookup fs (junk.sub 0) pathname
  rw [chksumfileBypathname, bypathnameFetches]
  cases hlookup : FileSystem.pathnameLookup fs (junk.sub 0) pathname with
  | error e =>
    rw [events_bind_error _ (hval.trans hlookup), fetches_pathnameLookup, List.append_nil]
  | ok inumber =>
    rw [events_bind_ok _ (hval.trans hlookup), fetches_pathnameLookup, fetches_chksumfileByinumber]

end fetches

/-! ## Accesses -/

section accesses

theorem accesses_index {n : Nat} (a : Vector (BitVec 16) n) (length i : Nat) (junk : Sector) :
    events Event.access? (index a length i junk) = [⟨i, length⟩] := rfl

theorem accesses_inodeIget (inumber : Int) :
    events Event.access? (inodeIget fs junk inumber) = [] := rfl

theorem val_readsector {k : Nat} (hk : k < 2 ^ 22) (buf : Sector) :
    (quiet (diskimgReadsector fs.disk k buf) : Logging (Nat × Sector)).run.val =
      .ok ((sectorBytes fs.disk k).length, buf.overwrite fs.disk (diskimgSectorSize * k)) := by
  rw [val_run_quiet, diskimgReadsector_eq hk]

theorem accesses_readAddress {sector : Nat} (hsector : sector < 2 ^ 22) (position : Nat) :
    events Event.access? (readAddress fs junk sector position) = [⟨position, sectorAddCount⟩] := by
  rw [readAddress, events_bind_ok _ (val_readsector _ hsector _), events_quiet, List.nil_append]
  dsimp only
  rw [events_bind_nil _ fun _ => events_pure _ _, accesses_index]

/-- **A lookup indexes what is listed.** -/
theorem accesses_inodeIndexlookup (inode : Inode) (blockNum : Int) :
    events Event.access? (inodeIndexlookup fs junk inode blockNum) =
      indexlookupAccesses inode blockNum := by
  have hword : ∀ w : BitVec 16, w.toNat < 2 ^ 22 := fun w => w.isLt.trans (by decide)
  rw [inodeIndexlookup, indexlookupAccesses]
  split
  · rfl
  dsimp only
  split
  · rw [events_bind_nil _ fun _ => events_pure _ _, accesses_index]
  split
  · rw [events_bind_ok _ (val_index ..), accesses_index, accesses_readAddress _ _ (hword _)]
    rfl
  · obtain ⟨k, hk, hfirst⟩ : ∃ k < 2 ^ 16, FileSystem.readAddress fs junk
        (readArray inode.addr singleIndirectSectors junk.here).toNat
        ((blockNum.toNat - indirectAddCount) / sectorAddCount) = .ok k :=
      readAddress_ok (hword _)
    rw [events_bind_ok _ (val_index ..), accesses_index,
      events_bind_ok _ ((val_readAddress ..).trans hfirst), accesses_readAddress _ _ (hword _),
      accesses_readAddress _ _ (hk.trans (by decide))]
    rfl

/-- **So does a block of a file.** -/
theorem accesses_fileGetblock (inumber blockNum : Int) (buf : Sector) :
    events Event.access? (fileGetblock fs junk inumber blockNum buf) =
      ((BlockCall.getblock inumber blockNum).lookups fs junk).flatMap
        fun lookup => indexlookupAccesses lookup.1 lookup.2 := by
  rw [fileGetblock, BlockCall.lookups, getblockLookups]
  cases hget : FileSystem.inodeIget fs (junk.sub 0) inumber with
  | error e => rw [events_bind_error _ ((val_inodeIget ..).trans hget), accesses_inodeIget]; rfl
  | ok fileInode =>
    rw [events_bind_ok _ ((val_inodeIget ..).trans hget), accesses_inodeIget, List.nil_append]
    dsimp only
    split
    · rfl
    · rw [events_bind_nil _ fun _ => ?_, accesses_inodeIndexlookup, List.flatMap_singleton]
      exact events_bind_nil _ fun _ => events_pure _ _

theorem accesses_findnameLoop (name : List Byte) (dirInode : Inode) (blocks : List Nat)
    (dirEntries : Sector) :
    events Event.access? (findnameLoop fs junk name dirInode blocks dirEntries) =
      (findnameLoopLookups fs junk name dirInode blocks dirEntries).flatMap
        fun lookup => indexlookupAccesses lookup.1 lookup.2 := by
  induction blocks generalizing dirEntries with
  | nil => rfl
  | cons block blocks ih =>
    obtain ⟨k, hk, hlookup⟩ : ∃ k < 2 ^ 16,
        FileSystem.inodeIndexlookup fs (junk.sub block) dirInode block = .ok k :=
      inodeIndexlookup_ok _ dirInode block
    have hsector : k < 2 ^ 22 := hk.trans (by decide)
    rw [findnameLoop, findnameLoopLookups,
      events_bind_ok _ ((val_inodeIndexlookup ..).trans hlookup), accesses_inodeIndexlookup,
      events_bind_ok _ (val_readsector _ hsector _), events_quiet, List.nil_append,
      List.flatMap_cons, hlookup, ok_bind, diskimgReadsector_eq hsector]
    dsimp only
    cases List.find? _ _ with
    | some entry => rfl
    | none => exact congrArg _ (ih _)

/-- **And so does the search for a name.** -/
theorem accesses_directoryFindname (name : List Byte) (dirinumber : Int) :
    events Event.access? (directoryFindname fs junk name dirinumber) =
      ((BlockCall.findname name dirinumber).lookups fs junk).flatMap
        fun lookup => indexlookupAccesses lookup.1 lookup.2 := by
  rw [directoryFindname, BlockCall.lookups, findnameLookups]
  cases hget : FileSystem.inodeIget fs (junk.sub 0) dirinumber with
  | error e => rw [events_bind_error _ ((val_inodeIget ..).trans hget), accesses_inodeIget]; rfl
  | ok dirInode =>
    rw [events_bind_ok _ ((val_inodeIget ..).trans hget), accesses_inodeIget, List.nil_append]
    dsimp only
    split
    · rfl
    · exact accesses_findnameLoop ..

end accesses

end Logging

end Acso.FileSystem
