import Xv6.Fs.Bio
import Xv6.Library.Action
import Xv6.Library.Loop

/-!
# Blocks of the file system

The block allocator of `fs.c`. A block is what `bread` returns for it: the
buffer cache shows every change that has been made, and the log decides only
when it reaches the disk.
-/

namespace Xv6.Fs

open Xv6.Library

/-! ## The disk layout -/

/-- NDIRECT -/
def ndirect : Nat := 12
/-- NINDIRECT: block numbers in an indirect block -/
def nindirect : Nat := bsize / 4
/-- MAXFILE: blocks of the largest file -/
def maxFile : Nat := ndirect + nindirect
/-- IPB: inodes per block -/
def ipb : Nat := bsize / 64
/-- BPB: bitmap bits per block -/
def bpb : Nat := bsize * 8
/-- NINODE: maximum number of active i-nodes -/
def ninode : Nat := 50
/-- NDEV: maximum major device number -/
def ndev : Nat := 10
/-- CONSOLE: the major number of the console -/
def console : Nat := 1
/-- T_DIR -/
def tDir : Nat := 1
/-- T_FILE -/
def tFile : Nat := 2
/-- T_DEV -/
def tDev : Nat := 3

/-- `struct superblock`. -/
structure Superblock where
  size : Nat
  nblocks : Nat
  ninodes : Nat
  nlog : Nat
  logstart : Nat
  inodestart : Nat
  bmapstart : Nat
  deriving DecidableEq

/-- The superblock as block 1 holds it. -/
def superblockOf (data : Block) : Superblock where
  size := data.load 0 4
  nblocks := data.load 4 4
  ninodes := data.load 8 4
  nlog := data.load 12 4
  logstart := data.load 16 4
  inodestart := data.load 20 4
  bmapstart := data.load 24 4

/-- IBLOCK: block containing inode `i` -/
def Superblock.iblock (sb : Superblock) (i : Nat) : Nat := i / ipb + sb.inodestart

/-- BBLOCK: block of free map containing bit for block `b` -/
def Superblock.bblock (sb : Superblock) (b : Nat) : Nat := b / bpb + sb.bmapstart

/-- The first block after the free map. -/
def Superblock.dataStart (sb : Superblock) : Nat := sb.bmapstart + (sb.size / bpb + 1)

/-- `struct dinode`, also the part of `struct inode` that copies it. The shorts
are kept as 16-bit patterns; `addrs` has the entries up to `ndirect`. -/
structure Dinode where
  type : Nat
  major : Nat
  minor : Nat
  nlink : Nat
  size : Nat
  addrs : Nat → Nat

/-- `struct inode`. -/
structure Inode extends Dinode where
  inum : Nat
  ref : Int
  valid : Bool

/-- An entry of `icache.inode`. -/
abbrev InodePtr := Fin ninode

/-- The blocks, the superblock in memory, and the inode cache. -/
structure FileSystem where
  block : Nat → Block
  sb : Superblock
  inode : InodePtr → Inode

/-- A call of `balloc`, with the state before and after it. -/
structure Allocation where
  before : FileSystem
  result : Nat
  after : FileSystem

/-- The file system together with the calls of `balloc` so far, which no
function reads. -/
structure FsState extends FileSystem where
  calls : List Allocation

def FileSystem.setBlock (fs : FileSystem) (bno : Nat) (data : Block) : FileSystem :=
  { fs with block := Function.update fs.block bno data }

def FileSystem.setInode (fs : FileSystem) (ip : InodePtr) (inode : Inode) : FileSystem :=
  { fs with inode := Function.update fs.inode ip inode }

/-- A step of the file system alone. -/
def onFs (change : FileSystem → FileSystem) : Action FsState Unit :=
  Action.modify fun state => { state with toFileSystem := change state.toFileSystem }

/-! ## Blocks -/

/-- Read the super block. -/
def readsb : Action FsState Unit :=
  onFs fun fs => { fs with sb := superblockOf (fs.block 1) }

def memset0 (data : Block) : Block := data.write 0 (List.replicate bsize 0)

/-- Zero a block. -/
def bzero (bno : Nat) : Action FsState Unit :=
  onFs fun fs => fs.setBlock bno (memset0 (fs.block bno))

/-- `1 << (bi % 8)` -/
def mask (bi : Nat) : UInt8 := 1 <<< UInt8.ofNat (bi % 8)

/-- Is block free? -/
def bitClear (data : Block) (bi : Nat) : Bool := data (bi / 8) &&& mask bi == 0

/-- Mark block in use. -/
def setBit (data : Block) (bi : Nat) : Block :=
  Function.update data (bi / 8) (data (bi / 8) ||| mask bi)

def clearBit (data : Block) (bi : Nat) : Block :=
  Function.update data (bi / 8) (data (bi / 8) &&& ~~~mask bi)

/-- The inner loop of `balloc`, over the bits of one bitmap block. -/
def FileSystem.freeBit (fs : FileSystem) (b : Nat) : Option Nat :=
  (List.range (min bpb (fs.sb.size - b))).find? fun bi => bitClear (fs.block (fs.sb.bblock b)) bi

/-- Both loops: the first bitmap block with a free bit, and that bit. -/
def FileSystem.freeBlock (fs : FileSystem) : Option (Nat × Nat) :=
  ((List.range ((fs.sb.size + bpb - 1) / bpb)).map (· * bpb)).findSome? fun b =>
    (fs.freeBit b).map fun bi => (b, bi)

/-- Allocate a zeroed disk block. -/
def balloc : Action FsState Nat := do
  let before ← Action.get FsState.toFileSystem
  match before.freeBlock with
  | some (b, bi) =>
      onFs fun fs => fs.setBlock (fs.sb.bblock b) (setBit (fs.block (fs.sb.bblock b)) bi)
      bzero (b + bi)
      Action.modify fun state =>
        { state with calls := ⟨before, b + bi, state.toFileSystem⟩ :: state.calls }
      return b + bi
  | none => Action.panic "balloc: out of blocks"

/-- Free a disk block. -/
def bfree (b : Nat) : Action FsState Unit := do
  readsb
  let fs ← Action.get FsState.toFileSystem
  let bi := b % bpb
  if bitClear (fs.block (fs.sb.bblock b)) bi then
    Action.panic "freeing free block"
  else
    onFs fun fs => fs.setBlock (fs.sb.bblock b) (clearBit (fs.block (fs.sb.bblock b)) bi)

end Xv6.Fs
