import Acso.Lib.Splice
import Acso.FileSystem.Dump
import Acso.FileSystem.Image

/-!
# Reading files

The blocks of a readable file, read one after the other, are its contents
(`fileGetblock_chunk`, `fileChunks_flatten`), and they are what the checksum loop
hashes (`chksumfileByinumber_eq`).  `reading_eq_contents` puts the two together.
-/

namespace Acso.FileSystem

open Acso.Lib

/-! ## Blocks -/

/-- The valid bytes of the blocks of a file. -/
def fileChunks (disk : List Byte) (inode : Inode) : List (List Byte) :=
  (fileSectors disk inode).mapIdx fun i bytes =>
    bytes.take (inodeGetsize inode - diskimgSectorSize * i)

theorem length_of_mem_fileSectors {disk : List Byte} {inode : Inode} (hr : Readable disk inode) :
    ∀ bytes ∈ fileSectors disk inode, bytes.length = diskimgSectorSize := by
  intro bytes hbytes
  obtain ⟨p, hp, rfl⟩ := List.mem_map.mp hbytes
  exact length_sectorBytes (hr.inside p hp _ (by simp [BlockPath.sectors]))

theorem length_fileSectors {disk : List Byte} {inode : Inode} (hr : Readable disk inode) :
    (fileSectors disk inode).length = blockCount (inodeGetsize inode) := by
  rw [fileSectors, List.length_map, length_fileBlocks hr]

/-- **The blocks make up the contents.** -/
theorem fileChunks_flatten {disk : List Byte} {inode : Inode} (hr : Readable disk inode) :
    (fileChunks disk inode).flatten = fileBytes disk inode :=
  flatten_mapIdx_take (length_of_mem_fileSectors hr) _

/-- There are as many bytes as the size says. -/
theorem length_fileBytes {disk : List Byte} {inode : Inode} (hr : Readable disk inode) :
    (fileBytes disk inode).length = inodeGetsize inode := by
  have hlen := length_flatten_blocks (length_of_mem_fileSectors hr)
  rw [length_fileSectors hr, blockCount, diskimgSectorSize] at hlen
  rw [fileBytes, List.length_take, hlen]
  omega

theorem length_fileChunks {disk : List Byte} {inode : Inode} (hr : Readable disk inode) :
    (fileChunks disk inode).length = blockCount (inodeGetsize inode) := by
  rw [fileChunks, List.length_mapIdx, length_fileSectors hr]

section reading

variable {fs : UnixFilesystem} {inumber : Int} {inode : Inode}

/-- Every block number below the number of blocks gives its chunk. -/
theorem fileGetblock_chunk (ha : AllocatedAt fs.disk inumber inode) (hr : Readable fs.disk inode)
    {b : Nat} {chunk : List Byte} (hb : (fileChunks fs.disk inode)[b]? = some chunk) (junk : Junk)
    (buf : Sector) :
    ∃ buf' : Sector, fileGetblock fs junk inumber b buf = .ok ((chunk.length : Int), buf') ∧
      buf'.bytes.take chunk.length = chunk := by
  rw [fileChunks, List.getElem?_mapIdx, fileSectors, List.getElem?_map, Option.map_map,
    Option.map_eq_some_iff] at hb
  obtain ⟨p, hp, rfl⟩ := hb
  obtain ⟨buf', hbytes, hget⟩ := fileGetblock_block ha hr hp junk buf
  have hlen : (sectorBytes fs.disk p.sector).length = diskimgSectorSize := by
    rw [← hbytes, buf'.length_bytes]
  have hcount : ((sectorBytes fs.disk p.sector).take (inodeGetsize inode - diskimgSectorSize * b)).length =
      validCount inode b := by
    rw [List.length_take, hlen, validCount, Nat.min_comm]
  rw [Function.comp_apply, hcount]
  refine ⟨buf', hget, ?_⟩
  rw [hbytes, List.take_eq_take_iff, hlen, validCount]
  omega

/-! ## The checksum -/

variable {Ctx : Type} (sha : Sha1 Ctx)

/-- The digest of some chunks: `init`, an `update` for each, `final`. -/
def Sha1.digest (chunks : List (List Byte)) : Option (Vector Byte chksumfileSize) :=
  sha.init.bind fun ctx => (chunks.foldlM sha.update ctx).bind sha.final

/-- Updates only depend on the concatenation of what they are given. -/
structure Sha1.Streaming : Prop where
  update_nil : ∀ ctx, sha.update ctx [] = some ctx
  update_append : ∀ ctx a b, (sha.update ctx a).bind (fun ctx => sha.update ctx b) =
    sha.update ctx (a ++ b)

theorem Sha1.Streaming.foldlM_update {sha : Sha1 Ctx} (h : sha.Streaming)
    (chunks : List (List Byte)) (ctx : Ctx) :
    chunks.foldlM sha.update ctx = sha.update ctx chunks.flatten := by
  induction chunks generalizing ctx with
  | nil => exact (h.update_nil ctx).symm
  | cons chunk chunks ih =>
    rw [List.foldlM_cons, List.flatten_cons, ← h.update_append]
    exact congrArg _ (funext ih)

/-- A missing value, as the `-1` of the code. -/
def orMinusOne {α : Type} : Option α → Result α
  | some a => .ok a
  | none => .error (.minusOne [])

/-- The loop from block `i` on updates the context with the chunks from `i` on. -/
theorem chksumLoop_eq (ha : AllocatedAt fs.disk inumber inode) (hr : Readable fs.disk inode)
    (junk : Junk) (k i : Nat) (hk : i + k = (fileChunks fs.disk inode).length) (ctx : Ctx) :
    chksumLoop sha fs junk inumber ((List.range' i k).map (diskimgSectorSize * ·)) ctx =
      orMinusOne (((fileChunks fs.disk inode).drop i).foldlM sha.update ctx) := by
  induction k generalizing i ctx with
  | zero =>
    rw [List.drop_eq_nil_of_le (by omega)]
    rfl
  | succ k ih =>
    have hi : i < (fileChunks fs.disk inode).length := by omega
    have hbno : diskimgSectorSize * i / diskimgSectorSize = i :=
      Nat.mul_div_cancel_left i (by decide)
    obtain ⟨buf, hget, htake⟩ := fileGetblock_chunk ha hr (List.getElem?_eq_getElem hi)
      (junk.sub i) ((junk.sub i).sub 2).here
    rw [List.range'_succ, List.map_cons, List.drop_eq_getElem_cons hi, List.foldlM_cons, chksumLoop]
    simp only [hbno]
    rw [hget, ok_bind]
    dsimp only
    rw [Int.toNat_natCast, htake]
    cases hu : sha.update ctx ((fileChunks fs.disk inode)[i]) with
    | none => rfl
    | some ctx' => exact ih (i + 1) (by omega) ctx'

/-- **The checksum is the digest of the blocks.** -/
theorem chksumfileByinumber_eq (ha : AllocatedAt fs.disk inumber inode)
    (hr : Readable fs.disk inode) (junk : Junk) :
    chksumfileByinumber sha fs junk inumber =
      orMinusOne (sha.digest (fileChunks fs.disk inode)) := by
  have hloop := chksumLoop_eq sha ha hr (junk.sub 1) (blockCount (inodeGetsize inode)) 0
    (by rw [length_fileChunks hr, Nat.zero_add])
  rw [← List.range_eq_range', List.drop_zero] at hloop
  rw [chksumfileByinumber, Sha1.digest]
  cases sha.init with
  | none => rfl
  | some ctx =>
    dsimp only
    rw [inodeIget_allocated ha, ok_bind, if_neg ha.alloc, offsets, hloop, Option.bind_some]
    cases (fileChunks fs.disk inode).foldlM sha.update ctx with
    | none => rfl
    | some ctx' =>
      rw [orMinusOne, ok_bind, Option.bind_some]
      cases sha.final ctx' <;> rfl

end reading

/-- **Reading a file yields its contents.**  The block numbers from `0` to the
number of blocks are accepted and all others refused; the valid bytes of the
blocks, in order, are the contents, as many as the size says; and the checksum is
the digest of these blocks, for a streaming hash the digest of the contents. -/
theorem reading_eq_contents {Ctx : Type} (sha : Sha1 Ctx) (fs : UnixFilesystem) (inumber : Int)
    (inode : Inode) (ha : AllocatedAt fs.disk inumber inode) (hr : Readable fs.disk inode) :
    ∃ chunks : List (List Byte),
      chunks.length = blockCount (inodeGetsize inode) ∧
      chunks.flatten = fileBytes fs.disk inode ∧
      (fileBytes fs.disk inode).length = inodeGetsize inode ∧
      (∀ b : Nat, ∀ chunk, chunks[b]? = some chunk → ∀ junk buf, ∃ buf' : Sector,
        fileGetblock fs junk inumber b buf = .ok ((chunk.length : Int), buf') ∧
          buf'.bytes.take chunk.length = chunk) ∧
      (∀ b : Int, ¬ (0 ≤ b ∧ b < blockCount (inodeGetsize inode)) → ∀ junk buf,
        fileGetblock fs junk inumber b buf = .error (.minusOne [])) ∧
      (∀ junk, chksumfileByinumber sha fs junk inumber = orMinusOne (sha.digest chunks)) ∧
      (sha.Streaming → sha.digest chunks = sha.digest [fileBytes fs.disk inode]) := by
  refine ⟨fileChunks fs.disk inode, length_fileChunks hr, fileChunks_flatten hr,
    length_fileBytes hr, ?_, ?_, ?_, ?_⟩
  · intro b chunk hb junk buf
    exact fileGetblock_chunk ha hr hb junk buf
  · intro b hb junk buf
    exact fileGetblock_outside ha hb junk buf
  · intro junk
    exact chksumfileByinumber_eq sha ha hr junk
  · intro hs
    have hflat := fileChunks_flatten hr
    simp only [Sha1.digest, hs.foldlM_update, hflat, List.flatten_singleton]

/-! ## A file of three bytes -/

/-- Inode 1: a regular file of three bytes in sector 3. -/
def abcInodes : List Byte := [0x00, 0x80, 0, 0, 0, 0, 0x03, 0x00, 0x03, 0x00]

def abcData : List Byte := [0x61, 0x62, 0x63]

def abcInode : Inode := inodeOf (imageOf abcInodes abcData) 1

/-- Collects the bytes, and knows the digests of `abc` and of nothing. -/
def abcSha1 : Sha1 (List Byte) where
  init := some []
  update ctx bytes := some (ctx ++ bytes)
  final ctx := some <|
    if ctx = abcData then
      #v[0xa9, 0x99, 0x3e, 0x36, 0x47, 0x06, 0x81, 0x6a, 0xba, 0x3e, 0x25, 0x71, 0x78, 0x50, 0xc2,
        0x6c, 0x9c, 0xd0, 0xd8, 0x9d]
    else
      #v[0xda, 0x39, 0xa3, 0xee, 0x5e, 0x6b, 0x4b, 0x0d, 0x32, 0x55, 0xbf, 0xef, 0x95, 0x60, 0x18,
        0x90, 0xaf, 0xd8, 0x07, 0x09]

theorem abcInode_eq : abcInode = plainInode 0x8000 3 3 := by
  rw [abcInode, inodeOf_imageOf _ _ (by decide) (by decide)]
  decide

theorem abcInode_allocated : AllocatedAt (imageOf abcInodes abcData) 1 abcInode := by
  have h := allocatedAt_imageOf (by decide) (by decide) abcInode_eq (by decide)
  rwa [← abcInode_eq] at h

/-! ## A file of two blocks -/

/-- Inode 1: a regular file of 515 bytes, with sector 3 as both of its blocks. -/
def twiceInodes : List Byte :=
  [0x00, 0x80, 0, 0, 0, 0, 0x03, 0x02, 0x03, 0x00, 0x03, 0x00]

def twiceInode : Inode :=
  { plainInode 0x8000 0x203 3 with addr := #v[3, 3, 0, 0, 0, 0, 0, 0] }

theorem twiceInode_allocated : AllocatedAt (imageOf twiceInodes abcData) 1 twiceInode where
  toStoredAt := by
    have hinode : inodeOf (imageOf twiceInodes abcData) 1 = twiceInode := by
      rw [inodeOf_imageOf _ _ (by decide) (by decide)]
      decide
    rw [← hinode]
    exact storedAt_imageOf _ _ (by decide) (by decide)
  alloc := by decide

theorem twiceInode_readable : Readable (imageOf twiceInodes abcData) twiceInode where
  small := fun _ => by decide
  inside := by
    have hblocks : fileBlocks (imageOf twiceInodes abcData) twiceInode = [⟨[], 3⟩, ⟨[], 3⟩] := by
      have hmode : twiceInode.mode &&& ilarg = 0 := by decide
      rw [fileBlocks, blockMap, if_pos hmode]
      rfl
    intro p hp k hk
    have hp' : p = ⟨[], 3⟩ := by simpa [hblocks] using hp
    have hk' : k = 3 := by simpa [hp', BlockPath.sectors] using hk
    rw [hk']
    exact sectorInside_imageOf _ _ (by decide)

theorem twice_reading : ∃ chunks : List (List Byte), chunks.length = 2 ∧
    chunks.flatten = fileBytes (imageOf twiceInodes abcData) twiceInode ∧
    chunks.flatten.length = 515 ∧
    (∀ junk, chksumfileByinumber abcSha1 (imageFs twiceInodes abcData) junk 1 =
      orMinusOne (abcSha1.digest [fileBytes (imageOf twiceInodes abcData) twiceInode])) := by
  have hstream : abcSha1.Streaming :=
    ⟨fun ctx => by simp [abcSha1], fun ctx a b => by simp [abcSha1]⟩
  obtain ⟨chunks, hlen, hflat, hsize, -, -, hsum, hdigest⟩ :=
    reading_eq_contents abcSha1 (imageFs twiceInodes abcData) 1 twiceInode twiceInode_allocated
      twiceInode_readable
  refine ⟨chunks, hlen, hflat, hflat ▸ hsize, ?_⟩
  intro junk
  rw [hsum junk, hdigest hstream]
  rfl

end Acso.FileSystem
