import Mathlib.Data.Nat.Basic
import Mathlib.Tactic.Common
import Mathlib.Algebra.Group.Nat.Defs

/-!
# Files of the Minix and ext2 file systems

The inode of a file holds the numbers of its first blocks, and of index blocks in
which the numbers of the others are found, over one or more levels. A block with the
number zero is a hole and reads as zeros.
-/

open Function

namespace MachVirtuTerm

/-- The file systems: Minix, and ext2 with its `s_log_block_size`. -/
inductive FileSystem where
  | minix
  | ext2 (logBlockSize : Fin 3)
  deriving DecidableEq

/-- A device with its record size. -/
structure FsDevice where
  bytes : ℕ → UInt8
  recSize : ℕ

/-- What is used of an inode: `i_size`, and `i_zone` or `i_block`. -/
structure FsInode where
  size : ℕ
  zone : ℕ → ℕ

namespace FileSystem

/-- MINIX_BLOCK_SIZE, EXT2_BLOCK_SIZE. -/
def blockSize : FileSystem → ℕ
  | .minix => 1024
  | .ext2 logBlockSize => 1024 <<< logBlockSize.val

/-- MINIX_NDADDR, NDADDR. -/
def ndaddr : FileSystem → ℕ
  | .minix => 7
  | .ext2 _ => 12

/-- MINIX_NIADDR, NIADDR. -/
def niaddr : FileSystem → ℕ
  | .minix => 2
  | .ext2 _ => 3

/-- MINIX_NINDIR, NINDIR. -/
def nindir : FileSystem → ℕ
  | .minix => 512
  | .ext2 logBlockSize => (1024 <<< logBlockSize.val) / 4

variable (fs : FileSystem)

/-- `f_nindir`, as the mount computes it. -/
def fNindir (level : ℕ) : ℕ := fs.nindir ^ (level + 1)

/-- A block number in an index block. -/
def entry (data : ℕ → UInt8) (idx : ℕ) : ℕ :=
  match fs with
  | .minix => (data (2 * idx)).toNat + 256 * (data (2 * idx + 1)).toNat
  | .ext2 _ =>
    (data (4 * idx)).toNat + 256 * (data (4 * idx + 1)).toNat +
      65536 * (data (4 * idx + 2)).toNat + 16777216 * (data (4 * idx + 3)).toNat

/-- `minix_blkoff`, `ext2_blkoff`. -/
def blkoff (offset : ℕ) : ℕ := offset % fs.blockSize

/-- `minix_lblkno`, `ext2_lblkno`: the variables for the block numbers of a Minix file
are as short as those for its zones. -/
def lblkno : FileSystem → ℕ → ℕ
  | .minix, offset => offset / 1024 % 2 ^ 16
  | .ext2 logBlockSize, offset => offset / (1024 <<< logBlockSize.val)

theorem blockSize_pos : 0 < fs.blockSize := by
  cases fs with
  | minix => exact Nat.succ_pos _
  | ext2 logBlockSize =>
    rw [blockSize, Nat.shiftLeft_eq]
    exact Nat.mul_pos (by decide) (Nat.two_pow_pos _)

/-! ## The blocks of a file -/

section Blocks

variable (fs : FileSystem) (dev : FsDevice) (ino : FsInode)

/-- The bytes of a block on the device. -/
def blockBytes (block : ℕ) : ℕ → UInt8 := fun i => dev.bytes (block * fs.blockSize + i)

/-- The level of the index blocks for a block behind the direct ones, and which one it is
of those with as many levels. -/
def findLevel : ℕ → ℕ → ℕ → Option (ℕ × ℕ)
  | 0, _, _ => none
  | count + 1, level, fileBlock =>
    if fileBlock < fs.fNindir level then some (level, fileBlock)
    else findLevel count (level + 1) (fileBlock - fs.fNindir level)

/-- Look a block up in index blocks of some levels, beginning with this one. -/
def walk : ℕ → ℕ → ℕ → ℕ
  | 0, fileBlock, block =>
    if block = 0 then 0 else fs.entry (fs.blockBytes dev block) fileBlock
  | level + 1, fileBlock, block =>
    if block = 0 then 0
    else
      walk level (fileBlock % fs.fNindir level)
        (fs.entry (fs.blockBytes dev block) (fileBlock / fs.fNindir level))

/-- The index blocks for that, each with its level. -/
def indexPath : ℕ → ℕ → ℕ → List (ℕ × ℕ)
  | 0, _, block => if block = 0 then [] else [(0, block)]
  | level + 1, fileBlock, block =>
    if block = 0 then []
    else
      (level + 1, block) :: indexPath level (fileBlock % fs.fNindir level)
        (fs.entry (fs.blockBytes dev block) (fileBlock / fs.fNindir level))

/-- The number of a block of the file on the device, zero for a hole. -/
def diskBlock (n : ℕ) : ℕ :=
  if n < fs.ndaddr then ino.zone n
  else
    match fs.findLevel fs.niaddr 0 (n - fs.ndaddr) with
    | none => 0
    | some (level, fileBlock) => fs.walk dev level fileBlock (ino.zone (level + fs.ndaddr))

/-- The index blocks in which it is found. -/
def indexBlocks (n : ℕ) : List (ℕ × ℕ) :=
  if n < fs.ndaddr then []
  else
    match fs.findLevel fs.niaddr 0 (n - fs.ndaddr) with
    | none => []
    | some (level, fileBlock) => fs.indexPath dev level fileBlock (ino.zone (level + fs.ndaddr))

/-- A byte of the file. -/
def fileByte (offset : ℕ) : UInt8 :=
  if fs.diskBlock dev ino (offset / fs.blockSize) = 0 then 0
  else fs.blockBytes dev (fs.diskBlock dev ino (offset / fs.blockSize)) (offset % fs.blockSize)

end Blocks

/-! ## Device addresses -/

/-- The record at which a block begins: `dbtorec` and `minix_fsbtodb` or `ext2_fsbtodb`. -/
def recnum (dev : FsDevice) (block : ℕ) : ℕ :=
  block * fs.blockSize % 2 ^ 32 / dev.recSize

/-- What a read of the device gives for a block. -/
def deviceRead (dev : FsDevice) (block : ℕ) : ℕ → UInt8 :=
  fun i => dev.bytes (fs.recnum dev block * dev.recSize + i)

/-- Blocks are made of records, and what lies in the first four gigabytes can be
addressed. -/
theorem deviceRead_eq {fs : FileSystem} {dev : FsDevice} {block : ℕ}
    (hrec : dev.recSize ∣ fs.blockSize) (hsmall : block * fs.blockSize < 2 ^ 32) :
    fs.deviceRead dev block = fs.blockBytes dev block := by
  unfold deviceRead blockBytes recnum
  rw [Nat.mod_eq_of_lt hsmall, Nat.div_mul_cancel (Nat.dvd_mul_left_of_dvd hrec block)]

end FileSystem

end MachVirtuTerm

/-!
# Reading a file of the Minix or ext2 file system

`block_map`, `buf_read_file` and the loops of `minixfs_read_file` and
`ext2fs_read_file`, with the index blocks and the block of data that an open file
keeps. What the device gives, and what `vm_allocate` gives, are regions of memory of
their own.
-/

namespace MachVirtuTerm

namespace FsRead

/-- Memory from the device or from `vm_allocate`. -/
structure Region where
  bytes : ℕ → UInt8
  size : ℕ

/-- The regions that were allocated and not yet released. -/
structure Regions where
  get : ℕ → Option Region
  next : ℕ

/-- What an open file keeps. -/
structure OpenFile where
  /-- `f_blk`, `f_blksize` and `f_blkno`, by level. -/
  blk : ℕ → Option ℕ
  blksize : ℕ → ℕ
  blkno : ℕ → ℤ
  buf : Option ℕ
  bufSize : ℕ
  bufBlkno : ℤ

/-- A read that is under way: what was asked for, and how much of it is done. The loop
moves its offset, start and size along together. -/
structure ReadReq where
  offset : ℕ
  start : ℕ
  size : ℕ
  filled : ℕ
  deriving DecidableEq

/-- An open file and the memory around it. -/
structure State where
  file : OpenFile
  regions : Regions
  /-- The memory of the caller. -/
  mem : ℕ → UInt8
  reading : Option ReadReq
  /-- Memory was used or released that was not allocated. -/
  fault : Bool

/-- The return codes. -/
inductive Rc where
  | success
  | notInFile
  | deviceError
  deriving DecidableEq

/-- The reads from the device in a turn of the loop. -/
inductive DevRead where
  | index (level : ℕ)
  | data
  deriving DecidableEq

namespace State

/-! ## Regions -/

/-- A new region. -/
def allocate (st : State) (bytes : ℕ → UInt8) (size : ℕ) : ℕ × State :=
  (st.regions.next,
    { st with regions :=
      { get := update st.regions.get st.regions.next (some ⟨bytes, size⟩)
        next := st.regions.next + 1 } })

/-- `vm_deallocate`. -/
def deallocate (st : State) (id size : ℕ) : State :=
  match st.regions.get id with
  | none => { st with fault := true }
  | some region =>
    { st with
      regions := { st.regions with get := update st.regions.get id none }
      fault := st.fault || region.size ≠ size }

/-- The bytes at a pointer. -/
def load (st : State) (id : Option ℕ) : Option (ℕ → UInt8) :=
  id.bind fun id => (st.regions.get id).map Region.bytes

/-- Release the old index blocks. -/
def deallocateAll (st : State) : List (Option ℕ × ℕ) → State
  | [] => st
  | (none, _) :: old => deallocateAll { st with fault := true } old
  | (some id, size) :: old => deallocateAll (st.deallocate id size) old

/-- The memory of the caller from an address on is written. -/
def store (st : State) (start size : ℕ) (bytes : ℕ → UInt8) : State :=
  { st with mem := fun a => if start ≤ a ∧ a < start + size then bytes (a - start) else st.mem a }

section FileSystem

variable (fs : FileSystem) (dev : FsDevice) (ino : FsInode) (fail : Option DevRead)

/-! ## Index blocks -/

/-- Get the data of an index block from its cache, or read it and put it there. -/
def indexData (st : State) (level block : ℕ) (old : List (Option ℕ × ℕ)) :
    Option ((ℕ → UInt8) × State × List (Option ℕ × ℕ)) :=
  if st.file.blkno level = block then
    match st.load (st.file.blk level) with
    | none => some (fun _ => 0, { st with fault := true }, old)
    | some data => some (data, st, old)
  else if fail = some (.index level) then none
  else
    let old :=
      if st.file.blksize level ≠ 0 then (st.file.blk level, st.file.blksize level) :: old else old
    let data := fs.deviceRead dev block
    let (id, st) := st.allocate data fs.blockSize
    let file :=
      { st.file with
        blkno := update st.file.blkno level block
        blk := update st.file.blk level (some id)
        blksize := update st.file.blksize level fs.blockSize }
    some (data, { st with file := file }, old)

/-- The loop of `block_map`, over this level and those below. The old index blocks that
are to be released are put aside. -/
def mapLoop : ℕ → State → ℕ → ℕ → List (Option ℕ × ℕ) →
    Except Rc ℕ × State × List (Option ℕ × ℕ)
  | level, st, fileBlock, block, old =>
    if block = 0 then (.ok 0, st, old)
    else
      match st.indexData fs dev fail level block old with
      | none => (.error .deviceError, st, old)
      | some (data, st, old) =>
        match level with
        | 0 => (.ok (fs.entry data fileBlock), st, old)
        | level + 1 =>
          mapLoop level st (fileBlock % fs.fNindir level)
            (fs.entry data (fileBlock / fs.fNindir level)) old

/-- `block_map`: the disk block of a block of the file. -/
def blockMap (st : State) (fileBlock : ℕ) : Except Rc ℕ × State :=
  if fileBlock < fs.ndaddr then (.ok (ino.zone fileBlock), st)
  else
    match fs.findLevel fs.niaddr 0 (fileBlock - fs.ndaddr) with
    | none => (.error .notInFile, st)
    | some (level, fileBlock) =>
      match mapLoop fs dev fail level st fileBlock (ino.zone (level + fs.ndaddr)) [] with
      | (.error rc, st, _) => (.error rc, st)
      | (.ok block, st, old) => (.ok block, st.deallocateAll old)

/-! ## The buffer -/

/-- The block is read as a whole to where it is wanted, not through the buffer. -/
def Direct (offset start size : ℕ) : Prop :=
  ¬ (fs.blkoff offset ≠ 0 ∨ start = 0 ∨ size < fs.blockSize ∨ start &&& (dev.recSize - 1) ≠ 0)

instance (offset start size : ℕ) : Decidable (Direct fs dev offset start size) := by
  unfold Direct
  infer_instance

/-- Release the buffer. The number of its block stays. -/
def releaseBuffer (st : State) : State :=
  match st.file.buf with
  | none => st
  | some id => { st.deallocate id st.file.bufSize with file := { st.file with buf := none } }

/-- Get a block of the file into the buffer. -/
def fillBuffer (st : State) (fileBlock : ℕ) : Rc × State :=
  if (fileBlock : ℤ) ≠ st.file.bufBlkno then
    match st.blockMap fs dev ino fail fileBlock with
    | (.error rc, st) => (rc, st)
    | (.ok block, st) =>
      let st := st.releaseBuffer
      if block = 0 then
        let (id, st) := st.allocate (fun _ => 0) fs.blockSize
        (.success, { st with file :=
          { st.file with buf := some id, bufSize := fs.blockSize, bufBlkno := fileBlock } })
      else if fail = some .data then (.deviceError, st)
      else
        let (id, st) := st.allocate (fs.deviceRead dev block) fs.blockSize
        (.success, { st with file :=
          { st.file with buf := some id, bufSize := fs.blockSize, bufBlkno := fileBlock } })
  else (.success, st)

/-- Read a block of the file to where it is wanted. A hole of an ext2 file is filled with
zeros there. -/
def readDirect (st : State) (offset start : ℕ) : Rc × ℕ × State :=
  match st.blockMap fs dev ino fail (fs.lblkno offset) with
  | (.error rc, st) => (rc, 0, st)
  | (.ok block, st) =>
    if fs ≠ .minix ∧ block = 0 then
      (.success, fs.blockSize, st.store start fs.blockSize fun _ => 0)
    else if fail = some .data then (.deviceError, 0, st)
    else
      (.success, min fs.blockSize (ino.size - offset),
        st.store start fs.blockSize (fs.deviceRead dev block))

/-- Where `buf_read_file` has put the bytes: in the buffer, from this place on, or where
they are wanted. -/
inductive Place where
  | buffer (off : ℕ)
  | caller

/-- `buf_read_file`: read a portion of a file, with its place and size. -/
def bufReadFile (st : State) (offset start size : ℕ) : Rc × Place × ℕ × State :=
  if ino.size ≤ offset then (.notInFile, .caller, size, st)
  else
    if Direct fs dev offset start size then
      let (rc, size, st) := st.readDirect fs dev ino fail offset start
      (rc, .caller, size, st)
    else
      let (rc, st) := st.fillBuffer fs dev ino fail (fs.lblkno offset)
      (rc, .buffer (fs.blkoff offset),
        min (fs.blockSize - fs.blkoff offset) (ino.size - offset), st)

/-! ## Reads -/

/-- A turn of the loop of `minixfs_read_file` and `ext2fs_read_file`. -/
def turn (st : State) (req : ReadReq) : State × Option Rc :=
  let size := req.size - req.filled
  if size = 0 then ({ st with reading := none }, some .success)
  else
    match st.bufReadFile fs dev ino fail (req.offset + req.filled) (req.start + req.filled) size with
    | (.success, place, bufSize, st) =>
      let csize := if bufSize < size then bufSize else size
      if csize = 0 then ({ st with reading := none }, some .success)
      else
        let st :=
          match place with
          | .caller => st
          | .buffer off =>
            match st.load st.file.buf with
            | none => { st with fault := true }
            | some data => st.store (req.start + req.filled) csize fun i => data (off + i)
        ({ st with reading := some { req with filled := req.filled + csize } }, none)
    | (rc, _, _, st) => ({ st with reading := none }, some rc)

/-- Release what lies in a place. -/
def freeLevel (st : State) (level : ℕ) : State :=
  match st.file.blk level with
  | none => { st with file := { st.file with blkno := update st.file.blkno level (-1) } }
  | some id =>
    { st.deallocate id (st.file.blksize level) with file :=
      { st.file with
        blksize := update st.file.blksize level 0
        blk := update st.file.blk level none
        blkno := update st.file.blkno level (-1) } }

def freeFileBuffers (st : State) : State :=
  let st := (List.range fs.niaddr).foldl freeLevel st
  match st.file.buf with
  | none => { st with file := { st.file with bufBlkno := -1 } }
  | some id =>
    { st.deallocate id st.file.bufSize with file := { st.file with buf := none, bufBlkno := -1 } }

end FileSystem

end State

/-- A step: a read begins, its loop takes a turn in which a read of the device may fail,
or the file is closed. -/
inductive Action where
  | read (offset start size : ℕ)
  | turn (fail : Option DevRead)
  | close
  deriving DecidableEq

/-- What a step does; a read that ends gives its return code. -/
def State.step (fs : FileSystem) (dev : FsDevice) (ino : FsInode) (st : State) :
    Action → Option (State × Option Rc)
  | .read offset start size =>
    match st.reading with
    | none => some ({ st with reading := some ⟨offset, start, size, 0⟩ }, none)
    | some _ => none
  | .turn fail => st.reading.map fun req => st.turn fs dev ino fail req
  | .close =>
    match st.reading with
    | none => some (st.freeFileBuffers fs, none)
    | some _ => none

end FsRead

end MachVirtuTerm
