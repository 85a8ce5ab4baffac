import Munux.Fs.BufferCache
import Munux.Lib.Slice

/-!
# The ext2 reader

`munux-rs/src/ext2.rs`: read-only access to an ext2 image. The superblock gives the parameters,
an inode is found through its group descriptor, its data through 12 direct pointers and a single-
and a double-indirect table.

The build checks every sum, product, shift, index and range, so each of these is a possible
`panic` here. Sectors come from the buffer cache; it returns the sector on the disk
(`readSector_spec`), so the reader is a function of the disk. Neither the cache's own counters nor
running out of memory are part of it.
-/

namespace Munux.Fs

/-- The sectors of a disk. -/
abbrev Disk := UInt32 → Block

/-- `EXT2_MAGIC` -/
def ext2Magic : Nat := 0xEF53

/-- `ROOT_INO` -/
def rootIno : Nat := 2

/-- `read_range` -/
def readRange (disk : Disk) (byteOff len : Nat) : Outcome (List UInt8) := do
  let start := byteOff / 512
  let stop ← checkedDivCeil (← checkedAdd byteOff len) 512
  let sectors ← checkedSub stop start
  let _capacity ← checkedMul sectors 512
  let raw := (List.range' start sectors).flatMap fun sec => (disk (UInt32.ofNat sec)).toList
  let skip := byteOff % 512
  subrange raw skip (← checkedAdd skip len)

/-- `Inode` -/
structure Inode where
  size : Nat
  blocks : Fin 12 → Nat
  indirect : Nat
  doubleIndirect : Nat

/-- `Fs` -/
structure Params where
  blockSize : Nat
  inodesPerGroup : Nat
  inodeSize : Nat
  bgdtOff : Nat
  deriving DecidableEq

/-- `read_super` -/
def readSuper (disk : Disk) : Outcome (Option Params) := do
  let sb ← readRange disk 1024 1024
  if (← rdU16 sb 56) ≠ ext2Magic then return none
  let blockSize ← checkedShl 1024 (← rdU32 sb 24)
  let inodesPerGroup ← rdU32 sb 40
  let rev ← rdU32 sb 76
  let inodeSize ← (if 1 ≤ rev then rdU16 sb 88 else pure 128 : Outcome Nat)
  let bgdtBlock := if blockSize = 1024 then 2 else 1
  let bgdtOff ← checkedMul bgdtBlock blockSize
  return some { blockSize, inodesPerGroup, inodeSize, bgdtOff }

/-- `read_inode` -/
def readInode (disk : Disk) (fs : Params) (ino : Nat) : Outcome Inode := do
  let group ← checkedDiv (← checkedSub ino 1) fs.inodesPerGroup
  let index ← checkedMod (← checkedSub ino 1) fs.inodesPerGroup
  let desc ← readRange disk (← checkedAdd fs.bgdtOff (← checkedMul group 32)) 32
  let inodeTable ← rdU32 desc 8
  let off ← checkedAdd (← checkedMul inodeTable fs.blockSize) (← checkedMul index fs.inodeSize)
  let raw ← readRange disk off fs.inodeSize
  let blocks ← Outcome.collect 12 fun k => rdU32 raw (40 + 4 * k)
  let size ← rdU32 raw 4
  let indirect ← rdU32 raw 88
  let doubleIndirect ← rdU32 raw 92
  return { size, blocks, indirect, doubleIndirect }

/-- Pointers per block. -/
def Params.ppb (fs : Params) : Nat := fs.blockSize / 4

/-- `block_at` -/
def blockAt (disk : Disk) (fs : Params) (inode : Inode) (n : Nat) : Outcome Nat := do
  let ppb := fs.ppb
  if h : n < 12 then return inode.blocks ⟨n, h⟩
  let n ← checkedSub n 12
  if n < ppb then
    if inode.indirect = 0 then return 0
    let tbl ← readRange disk (← checkedMul inode.indirect fs.blockSize) fs.blockSize
    rdU32 tbl (← checkedMul n 4)
  else
    let n ← checkedSub n ppb
    if inode.doubleIndirect = 0 then return 0
    let dbl ← readRange disk (← checkedMul inode.doubleIndirect fs.blockSize) fs.blockSize
    let outer ← rdU32 dbl (← checkedMul (← checkedDiv n ppb) 4)
    if outer = 0 then return 0
    let inner ← readRange disk (← checkedMul outer fs.blockSize) fs.blockSize
    rdU32 inner (← checkedMul (← checkedMod n ppb) 4)

/-- `core::str::from_utf8` -/
def fromUtf8 (b : List UInt8) : Option String := String.fromUTF8? b.toByteArray

/-- What one directory record adds to the listing. -/
def pushEntry (data : List UInt8) (pos inodeNum nameLen : Nat) (out : List (String × Nat)) :
    Outcome (List (String × Nat)) := do
  if inodeNum ≠ 0 ∧ 0 < nameLen then
    let start ← checkedAdd pos 8
    let stop ← checkedAdd start nameLen
    if stop ≤ data.length then
      match fromUtf8 (← subrange data start stop) with
      | some name => return out ++ [(name, inodeNum)]
      | none => return out
    else return out
  else return out

/-- The loop of `read_dir` over the records of one block. -/
def readRecords (data : List UInt8) (fuel pos : Nat) (out : List (String × Nat)) :
    Outcome (List (String × Nat)) :=
  match fuel with
  | 0 => .diverge
  | fuel + 1 => do
      if (← checkedAdd pos 8) ≤ data.length then
        let inodeNum ← rdU32 data pos
        let recLen ← rdU16 data (← checkedAdd pos 4)
        let nameLen ← index data (← checkedAdd pos 6)
        if recLen = 0 then return out
        let out ← pushEntry data pos inodeNum nameLen.toNat out
        readRecords data fuel (← checkedAdd pos recLen) out
      else return out

/-- What `read_dir` does with one of the direct pointers. -/
def readDirBlock (disk : Disk) (fs : Params) (out : List (String × Nat)) (blk : Nat) :
    Outcome (List (String × Nat)) := do
  if blk = 0 then return out
  let data ← readRange disk (← checkedMul blk fs.blockSize) fs.blockSize
  readRecords data (data.length + 1) 0 out

/-- `read_dir` -/
def readDir (disk : Disk) (fs : Params) (inode : Inode) : Outcome (List (String × Nat)) :=
  (List.ofFn inode.blocks).foldlM (readDirBlock disk fs) []

/-- The loop of `read_file` over the next `count` blocks, from block `n` on. -/
def readBlocks (disk : Disk) (fs : Params) (inode : Inode) (count n remaining : Nat)
    (out : List UInt8) : Outcome (List UInt8) :=
  match count with
  | 0 => .ok out
  | count + 1 => do
      if remaining = 0 then return out
      let blk ← blockAt disk fs inode n
      if blk = 0 then return out
      let take := min remaining fs.blockSize
      let data ← readRange disk (← checkedMul blk fs.blockSize) take
      readBlocks disk fs inode count (n + 1) (← checkedSub remaining take) (out ++ data)

/-- `read_file` -/
def readFile (disk : Disk) (fs : Params) (inode : Inode) : Outcome (List UInt8) := do
  let nblocks ← checkedDivCeil inode.size fs.blockSize
  readBlocks disk fs inode nblocks 0 inode.size []

end Munux.Fs
