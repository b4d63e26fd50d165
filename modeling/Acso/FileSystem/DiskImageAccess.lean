import Acso.FileSystem.Layout
import Acso.FileSystem.StoredTree

/-!
# The program `diskimageaccess`

`main` of `diskimageaccess.c`: the options, the image, what is printed about it, and the dumps.

`getopt` moves the operands behind the options, and `main` calls the disk `argv[1]`; that is the
path of the image only if there is no option.  What the program prints for an image with a tree
of files is `diskimageaccess_shows`.
-/

namespace Acso.FileSystem

open Acso.Lib

/-! ## The command line -/

def hyphen : Byte := 0x2d

/-- What is behind `argv[0]`, as `getopt` leaves it. -/
structure CommandLine where
  /-- The arguments with options, and perhaps `--`. -/
  options : List (List Byte)
  operands : List (List Byte)

/-- The calls of `getopt` until it returns `-1`. -/
def CommandLine.scan : List (List Byte) → CommandLine
  | [] => ⟨[], []⟩
  | arg :: args =>
    if arg = [hyphen, hyphen] then ⟨[arg], args⟩
    else
      let rest := scan args
      if arg.head? = some hyphen ∧ arg ≠ [hyphen] then { rest with options := arg :: rest.options }
      else { rest with operands := arg :: rest.operands }

/-- The characters that `getopt` comes to. -/
def CommandLine.letters (argv : CommandLine) : List Byte :=
  argv.options.flatMap fun arg => if arg = [hyphen, hyphen] then [] else arg.tail

/-- `i`, `q` and `p`. -/
def optstring : List Byte := [0x69, 0x71, 0x70]

def CommandLine.idumpFlag (argv : CommandLine) : Bool := decide (0x69 ∈ argv.letters)
def CommandLine.quietFlag (argv : CommandLine) : Bool := decide (0x71 ∈ argv.letters)
def CommandLine.pdumpFlag (argv : CommandLine) : Bool := decide (0x70 ∈ argv.letters)

/-! ## The program -/

inductive Printed
  | stdout (text : String)
  /-- A line of the dumps, or one on `stderr`. -/
  | line (line : Line)
  deriving DecidableEq

def stderrText (text : String) : Printed := .line (.stderr text)

inductive ExitStatus
  | success
  | failure
  /-- A dump has not returned. -/
  | stopped (ending : Ending)
  deriving DecidableEq

structure Exit where
  printed : List Printed
  status : ExitStatus
  deriving DecidableEq

def printUsage (progname : List Byte) : List Printed :=
  [stderrText ("Usage: " ++ textOf progname ++ " <options> diskimagePath\n"),
    stderrText "where <options> can be:\n",
    stderrText "-q     don't print extra info\n",
    stderrText "-i     print all inode checksums\n",
    stderrText "-p     print all pathname checksums\n"]

/-- A word of `fs->superblock`. -/
def superblockWord (fs : UnixFilesystem) (offset : Nat) : Nat :=
  (wordAt (sectorBytes fs.disk superblockSector) offset).toNat

/-- Without the option `-q`. -/
def printAbout (name : List Byte) (disksize : Int) (fs : UnixFilesystem) : List Printed :=
  [.stdout ("Disk " ++ textOf name ++ " is " ++ toString disksize ++ " bytes (" ++
      toString (disksize / 1024) ++ " KB)\n"),
    .stdout ("Superblock s_isize " ++ toString fs.sIsize.toNat ++ "\n"),
    .stdout ("Superblock s_fsize " ++ toString (superblockWord fs 2) ++ "\n"),
    .stdout ("Superblock s_nfree " ++ toString (superblockWord fs 4) ++ "\n"),
    .stdout ("Superblock s_ninode " ++ toString (superblockWord fs 206) ++ "\n")]

variable {Ctx : Type}

/-- The dumps that are asked for. -/
def printDumps (sha : Sha1 Ctx) (fs : UnixFilesystem) (junk : Junk) (fuel : Nat)
    (argv : CommandLine) : Option Output :=
  let inodes := if argv.idumpFlag then dumpInodeChecksum sha fs (junk.sub 0) else []
  Output.andThen ⟨inodes, .returned⟩
    (if argv.pdumpFlag then dumpPathnameChecksum sha fs fuel (junk.sub 1) else some ⟨[], .returned⟩)

def Ending.status : Ending → ExitStatus
  | .returned => .success
  | ending => .stopped ending

/-- `main`, where `files` are the files that can be opened. -/
def diskimageaccessMain (sha : Sha1 Ctx) (files : List Byte → Option (List Byte)) (junk : Junk)
    (fuel : Nat) (progname : List Byte) (args : List (List Byte)) : Option Exit :=
  let argv := CommandLine.scan args
  match argv.letters.find? fun opt => decide (opt ∉ optstring) with
  | some opt =>
    let invalid := textOf progname ++ ": invalid option -- '" ++ textOf [opt] ++ "'\n"
    some ⟨stderrText invalid :: printUsage progname, .failure⟩
  | none =>
    match argv.operands with
    | [diskpath] =>
      match diskimgOpen (files diskpath) 1 with
      | .error _ =>
        some ⟨[stderrText ("Can't open diskimagePath " ++ textOf diskpath ++ "\n")], .failure⟩
      | .ok fd =>
        match unixfilesystemInit (junk.sub 0) fd.bytes with
        | .error text =>
          some ⟨[stderrText text, stderrText "Failed to initialize unix filesystem\n"], .failure⟩
        | .ok fs =>
          let name := argv.options.headD diskpath
          let disksize := (diskimgGetsize fd).1
          if argv.quietFlag = false ∧ disksize < 0 then
            some ⟨[stderrText ("Error getting the size of " ++ textOf name ++ "\n")], .failure⟩
          else
            let about := if argv.quietFlag then [] else printAbout name disksize fs
            (printDumps sha fs (junk.sub 1) fuel argv).map fun dumps =>
              ⟨about ++ dumps.lines.map .line, dumps.ending.status⟩
    | _ => some ⟨printUsage progname, .failure⟩

/-! ## What it prints -/

/-- The file system on an image with a boot block. -/
def volumeOf (disk : List Byte) : UnixFilesystem := ⟨disk, wordAt disk diskimgSectorSize⟩

theorem unixfilesystemInit_volume {disk : List Byte} (hlen : 2 * diskimgSectorSize ≤ disk.length)
    (hmagic : wordAt disk 0 = bootblockMagicNum) (junk : Junk) :
    unixfilesystemInit junk disk = .ok (volumeOf disk) := by
  have hin : ∀ k < 2, SectorInside disk k := by
    intro k hk
    rw [SectorInside]
    rw [diskimgSectorSize] at hlen ⊢
    omega
  have hword : ∀ k < 2, wordAt (sectorBytes disk k) 0 = wordAt disk (diskimgSectorSize * k) := by
    intro k hk
    rw [sectorBytes, wordAt_take_drop (by decide), Nat.add_zero]
  obtain ⟨b, hb, hread⟩ := diskimgReadsector_inside (by decide) (hin 0 (by decide)) (junk.sub 0).here
  obtain ⟨s, hs, hread'⟩ := diskimgReadsector_inside (by decide) (hin 1 (by decide)) (junk.sub 1).here
  have hboot : wordAt b.bytes 0 = bootblockMagicNum := by
    rw [hb, hword 0 (by decide)]
    exact hmagic
  have hsuper : wordAt s.bytes 0 = wordAt disk diskimgSectorSize := by
    rw [hs, hword 1 (by decide), Nat.mul_one]
  simp only [unixfilesystemInit, bootblockSector, superblockSector, hread, hread', hboot, hsuper,
    ne_eq, not_true, if_false, volumeOf]

/-- What is printed about the image, and of the two dumps. -/
def CommandLine.prints (argv : CommandLine) (diskpath disk : List Byte) (inodes paths : List Line) :
    List Printed :=
  (if argv.quietFlag then []
    else printAbout (argv.options.headD diskpath) disk.length (volumeOf disk)) ++
    ((if argv.idumpFlag then inodes else []) ++ if argv.pdumpFlag then paths else []).map .line

/-- `main` with an image and dumps that return. -/
theorem diskimageaccessMain_eq {sha : Sha1 Ctx} {disk : List Byte}
    (hlen : 2 * diskimgSectorSize ≤ disk.length) (hmagic : wordAt disk 0 = bootblockMagicNum)
    {files : List Byte → Option (List Byte)} {diskpath : List Byte} (hfile : files diskpath = some disk)
    {args : List (List Byte)} (hletters : ∀ opt ∈ (CommandLine.scan args).letters, opt ∈ optstring)
    (hoperands : (CommandLine.scan args).operands = [diskpath])
    (hsize : (CommandLine.scan args).quietFlag = true ∨ disk.length < 2 ^ 31)
    {inodes paths : List Line} {fuel : Nat}
    (hinodes : ∀ junk, dumpInodeChecksum sha (volumeOf disk) junk = inodes)
    (hpaths : ∀ junk, dumpPathnameChecksum sha (volumeOf disk) fuel junk = some ⟨paths, .returned⟩)
    (junk : Junk) (progname : List Byte) :
    diskimageaccessMain sha files junk fuel progname args =
      some ⟨(CommandLine.scan args).prints diskpath disk inodes paths, .success⟩ := by
  rw [diskimageaccessMain]
  generalize CommandLine.scan args = argv at *
  have hfind : argv.letters.find? (fun opt => decide (opt ∉ optstring)) = none := by
    rw [List.find?_eq_none]
    intro opt hopt
    rw [decide_eq_true_eq, not_not]
    exact hletters opt hopt
  have hopen : diskimgOpen (files diskpath) 1 = .ok ⟨disk, true, 0⟩ := by
    rw [hfile]
    rfl
  have hprint : printDumps sha (volumeOf disk) (junk.sub 1) fuel argv =
      some ⟨(if argv.idumpFlag then inodes else []) ++ if argv.pdumpFlag then paths else [],
        .returned⟩ := by
    rw [printDumps, hinodes, hpaths]
    cases argv.pdumpFlag <;> rfl
  have hbytes : disk.length < 2 ^ 31 →
      (diskimgGetsize ⟨disk, true, 0⟩).1 = (disk.length : Int) := by
    intro hlt
    unfold diskimgGetsize
    dsimp only
    refine Int.bmod_eq_of_le ?_ ?_ <;> omega
  dsimp only
  rw [hfind]
  dsimp only
  rw [hoperands]
  dsimp only
  rw [hopen]
  dsimp only
  rw [unixfilesystemInit_volume hlen hmagic]
  dsimp only
  rw [hprint, CommandLine.prints]
  rcases hsize with hquiet | hlt
  · rw [hquiet, if_neg (fun hwrong => absurd hwrong.1 (by decide)), if_pos rfl, if_pos rfl,
      Option.map_some, Ending.status]
  · rw [hbytes hlt, if_neg (fun hwrong => absurd hwrong.2 (by omega)), Option.map_some, Ending.status]

/-- **`diskimageaccess` shows the tree of files.**  Take an image with a tree of files whose inodes
in use are those of the tree.  With the options `i`, `q` and `p`, wherever they stand, and the path
of the image, the program ends.  It prints the lines about the image, unless it is to be quiet, for
`i` a line for each node up to the first inode that is not in use, and for `p` a line for each path
of the tree in preorder. -/
theorem diskimageaccess_shows {ν : Type} (sha : Sha1 Ctx) (hsha : sha.Total)
    (hstream : sha.Streaming) (disk : List Byte) (hlen : 2 * diskimgSectorSize ≤ disk.length)
    (hmagic : wordAt disk 0 = bootblockMagicNum) (graph : ν → FileNode ν) (number : ν → Nat)
    (root : ν) (h : StoresTree disk graph number root) (harea : InodeAreaInside (volumeOf disk))
    (hall : ∀ n ∈ inumbers (volumeOf disk), InUse disk n → ∃ x, number x = n)
    (files : List Byte → Option (List Byte)) (diskpath : List Byte) (hfile : files diskpath = some disk)
    (args : List (List Byte)) (hletters : ∀ opt ∈ (CommandLine.scan args).letters, opt ∈ optstring)
    (hoperands : (CommandLine.scan args).operands = [diskpath])
    (hsize : (CommandLine.scan args).quietFlag = true ∨ disk.length < 2 ^ 31) :
    ∃ (xs : List ν) (out : List (List (List Byte) × ν)) (enough : Nat),
      xs.map number = (inumbers (volumeOf disk)).takeWhile (fun n => decide (InUse disk n)) ∧
      Preorder (subnodes graph) [([], root)] out ∧
      ∀ fuel, enough ≤ fuel → ∀ junk progname,
        diskimageaccessMain sha files junk fuel progname args =
          some ⟨(CommandLine.scan args).prints diskpath disk
            (xs.map (nodeInodeLine sha disk graph number) ++
              stopLines ((inumbers (volumeOf disk)).find? fun n => !decide (InUse disk n)))
            (out.map (nodePathLine sha disk graph number)), .success⟩ := by
  have hfs : StoresTree (volumeOf disk).disk graph number root := h
  obtain ⟨out, enough, hout, hpaths⟩ := hfs.pathDump_shows hsha hstream
  obtain ⟨xs, hxs, hinodes⟩ := hfs.inodeDump_shows hsha hstream harea hall
  exact ⟨xs, out, enough, hxs, hout, fun fuel hfuel junk progname => diskimageaccessMain_eq hlen hmagic
    hfile hletters hoperands hsize hinodes (hpaths fuel hfuel) junk progname⟩

theorem drop_pad {bytes : List Byte} {k : Nat} (h : bytes.length ≤ k) :
    (pad bytes).drop k = List.replicate (diskimgSectorSize - k) 0 := by
  rw [pad, List.drop_take, List.drop_append, List.drop_eq_nil_of_le h, List.nil_append,
    List.drop_replicate, List.take_replicate]
  congr 1
  omega

theorem wordAt_replicate (n i : Nat) : wordAt (List.replicate n 0) i = 0 := by
  have hbyte : ∀ k, (List.replicate n (0 : Byte)).getD k 0 = 0 := by
    intro k
    rw [List.getD_eq_getElem?_getD, List.getElem?_replicate]
    split <;> rfl
  simp only [wordAt, hbyte]
  rfl

theorem home_inUse {n : Nat} (hn : n < 16) (hpos : 1 ≤ n) (huse : InUse homeImage n) :
    n = 1 ∨ n = 2 := by
  by_contra hne
  have hlen : homeInodes.length ≤ sizeofInode * (n - 1) := by
    rw [show homeInodes.length = 42 from rfl, sizeofInode]
    omega
  refine huse ?_
  rw [inodeOf_homeImage hpos (by omega), drop_pad hlen, List.take_replicate]
  show wordAt (List.replicate _ 0) 0 &&& ialloc = 0
  rw [wordAt_replicate]
  rfl

theorem home_words :
    wordAt homeImage 0 = bootblockMagicNum ∧ wordAt homeImage diskimgSectorSize = 1 := by
  have hsplit : homeImage = pad [0x07, 0x01] ++
      (pad [0x01, 0x00] ++ ((pad homeInodes ++ pad homeData) ++ pad abcData)) := by
    rw [homeImage, imageOf, List.append_assoc, List.append_assoc]
  have hlen : ∀ bytes : List Byte, 0 + 2 ≤ (pad bytes).length := by
    intro bytes
    rw [length_pad]
    decide
  have hsecond := wordAt_append_right (pad [0x07, 0x01])
    (pad [0x01, 0x00] ++ ((pad homeInodes ++ pad homeData) ++ pad abcData)) 0
  rw [length_pad, Nat.add_zero, wordAt_append_left (hlen _)] at hsecond
  rw [hsplit, wordAt_append_left (hlen _), hsecond]
  exact ⟨by decide, by decide⟩

theorem home_nodeBytes :
    nodeBytes homeImage homeGraph homeNumber .root = (pad homeData).take 32 ∧
      nodeBytes homeImage homeGraph homeNumber .a = abcData := by
  refine ⟨?_, rfl⟩
  show fileBytes homeImage (inodeOf homeImage (homeNumber .root)) = _
  rw [home_inodes, homeInode, fileBytes, fileSectors,
    fileBlocks_plainInode _ _ (by decide) (by decide) (by decide), inodeGetsize_plainInode,
    List.map_singleton, List.flatten_singleton]
  exact congrArg _ home_bytes.1

/-- The numbers of the inodes in use, in order. -/
theorem home_numbers {xs : List HomeNode}
    (hxs : xs.map homeNumber = (inumbers homeFs).takeWhile fun n => decide (InUse homeImage n)) :
    xs = [.root, .a] ∧ (inumbers homeFs).find? (fun n => !decide (InUse homeImage n)) = some 3 := by
  have huse : ∀ x, InUse homeImage (homeNumber x) := fun x => (home_allocated x).alloc
  have hfree : ¬ InUse homeImage 3 := by
    intro h
    have hlt := home_inUse (by decide) (by decide) h
    omega
  have hinumbers : inumbers homeFs = 1 :: 2 :: 3 :: List.range' 4 12 := by decide
  have h1 : decide (InUse homeImage 1) = true := decide_eq_true (huse .root)
  have h2 : decide (InUse homeImage 2) = true := decide_eq_true (huse .a)
  have h3 : decide (InUse homeImage 3) = false := decide_eq_false hfree
  have hinj : Function.Injective homeNumber := by
    intro x y hxy
    cases x <;> cases y <;> first | rfl | cases hxy
  rw [hinumbers] at hxs ⊢
  simp only [List.takeWhile_cons, h1, h2, h3] at hxs
  refine ⟨List.map_injective_iff.mpr hinj hxs, ?_⟩
  simp only [List.find?_cons, h1, h2, h3, Bool.not_true, Bool.not_false]

theorem home_preorder :
    Preorder (subnodes homeGraph) [([], .root)] [([], .root), ([[0x61]], .a)] := by
  have hfile : Preorder (subnodes homeGraph) (under [[0x61]] (subnodes homeGraph .a)) [] := by
    rw [home_subnodes.2]
    exact .nil
  have hroot : Preorder (subnodes homeGraph) (under [] (subnodes homeGraph .root))
      [([[0x61]], .a)] := by
    rw [home_subnodes.1]
    exact hfile.cons .nil
  exact hroot.cons .nil

/-- `diskimageaccess d -pi` on the image of the directory with a file. -/
theorem home_shown : ∃ fuel,
    diskimageaccessMain abcSha1 (fun path => if path = [0x64] then some homeImage else none) zeroJunk
        fuel [0x2e] [[0x64], [hyphen, 0x70, 0x69]] =
      some ⟨printAbout [hyphen, 0x70, 0x69] 2560 homeFs ++
        [.line (.inode 1 0xc000 32 (checksumText abcSha1 ((pad homeData).take 32))),
          .line (.inode 2 0x8000 3 (checksumText abcSha1 abcData)),
          .line (.stderr "Error: Inode 3 is not allocated.\n"),
          .line (.stderr "Can't read inode 3 \n"),
          .line (.path [slash] 1 0xc000 32 (checksumText abcSha1 ((pad homeData).take 32))),
          .line (.path [slash, 0x61] 2 0x8000 3 (checksumText abcSha1 abcData))], .success⟩ := by
  have hlen : homeImage.length = 2560 := by
    rw [homeImage, List.length_append, length_imageOf, length_pad]
    rfl
  have hvolume : volumeOf homeImage = homeFs := by
    rw [volumeOf, home_words.2]
    rfl
  have harea : InodeAreaInside (volumeOf homeImage) := by
    rw [hvolume]
    intro k hk
    have hk0 : k = 0 := Nat.lt_one_iff.mp hk
    exact home_sector (by rw [hk0]; decide)
  have hall : ∀ n ∈ inumbers (volumeOf homeImage), InUse homeImage n → ∃ x, homeNumber x = n := by
    intro n hn huse
    rw [hvolume, inumbers, List.mem_range'_1] at hn
    rcases home_inUse hn.2 hn.1 huse with rfl | rfl
    · exact ⟨.root, rfl⟩
    · exact ⟨.a, rfl⟩
  obtain ⟨xs, out, enough, hxs, hout, hmain⟩ := diskimageaccess_shows abcSha1 abcSha1_total
    abcSha1_streaming homeImage (by rw [hlen]; decide) home_words.1 homeGraph homeNumber .root home_tree
    harea hall (fun path => if path = [0x64] then some homeImage else none) [0x64] rfl
    [[0x64], [hyphen, 0x70, 0x69]] (by decide) (by decide) (.inr (by rw [hlen]; decide))
  rw [hvolume] at hxs hmain
  obtain ⟨rfl, hstop⟩ := home_numbers hxs
  obtain rfl := hout.unique home_preorder
  have hlength : ((pad homeData).take 32).length = 32 := by decide
  refine ⟨enough, (hmain enough (Nat.le_refl enough) zeroJunk [0x2e]).trans ?_⟩
  simp only [hstop, List.map_cons, List.map_nil, nodeInodeLine, nodePathLine, home_inodes,
    home_nodeBytes.1, home_nodeBytes.2, hlength, CommandLine.prints, hvolume, hlen]
  rfl

end Acso.FileSystem
