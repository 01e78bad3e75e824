import Xv6.Fs.Blocks

/-!
# Inodes

The inode layer of `fs.c`: the inode cache, the on-disk inodes, and the blocks
that hold the content. A function that `fs.c` calls with the inode locked runs
from start to end without any other function on that inode in between.
-/

namespace Xv6.Fs

open Xv6.Library

/-! ## On-disk inodes -/

/-- Where inode `i` starts in its block. -/
def dinodeOffset (i : Nat) : Nat := i % ipb * 64

def dinodeOf (data : Block) (i : Nat) : Dinode where
  type := data.load (dinodeOffset i) 2
  major := data.load (dinodeOffset i + 2) 2
  minor := data.load (dinodeOffset i + 4) 2
  nlink := data.load (dinodeOffset i + 6) 2
  size := data.load (dinodeOffset i + 8) 4
  addrs k := data.load (dinodeOffset i + 12 + 4 * k) 4

/-- The assignments of `iupdate`. -/
def putDinode (data : Block) (i : Nat) (dinode : Dinode) : Block :=
  forLoop (ndirect + 1)
    (fun k data => data.store (dinodeOffset i + 12 + 4 * k) 4 (dinode.addrs k))
    (((((data.store (dinodeOffset i) 2 dinode.type).store
      (dinodeOffset i + 2) 2 dinode.major).store
      (dinodeOffset i + 4) 2 dinode.minor).store
      (dinodeOffset i + 6) 2 dinode.nlink).store
      (dinodeOffset i + 8) 4 dinode.size)

/-- Inode `i` on the disk. -/
def FileSystem.dinode (fs : FileSystem) (i : Nat) : Dinode :=
  dinodeOf (fs.block (fs.sb.iblock i)) i

/-! ## The inode cache -/

/-- Copy a modified in-memory inode to disk. -/
def iupdate (ip : InodePtr) : Action FsState Unit :=
  onFs fun fs =>
    let inode := fs.inode ip
    let bno := fs.sb.iblock inode.inum
    fs.setBlock bno (putDinode (fs.block bno) inode.inum inode.toDinode)

/-- Find the inode with number `inum` and return the in-memory copy. -/
def iget (inum : Nat) : Action FsState InodePtr := do
  let fs ← Action.get FsState.toFileSystem
  match (List.finRange ninode).find? fun ip =>
      decide (0 < (fs.inode ip).ref) && (fs.inode ip).inum == inum with
  | some ip =>
      onFs fun fs => fs.setInode ip { fs.inode ip with ref := (fs.inode ip).ref + 1 }
      return ip
  | none =>
      match (List.finRange ninode).find? fun ip => (fs.inode ip).ref == 0 with
      | some empty =>
          onFs fun fs =>
            fs.setInode empty { fs.inode empty with inum := inum, ref := 1, valid := false }
          return empty
      | none => Action.panic "iget: no inodes"

/-- Increment reference count for `ip`. -/
def idup (ip : InodePtr) : Action FsState InodePtr := do
  onFs fun fs => fs.setInode ip { fs.inode ip with ref := (fs.inode ip).ref + 1 }
  return ip

/-- Allocate an inode. Mark it as allocated by giving it type `type`. -/
def ialloc (type : Nat) : Action FsState InodePtr := do
  let fs ← Action.get FsState.toFileSystem
  match (List.range' 1 (fs.sb.ninodes - 1)).find? fun inum => (fs.dinode inum).type == 0 with
  | some inum =>
      onFs fun fs =>
        let data := fs.block (fs.sb.iblock inum)
        fs.setBlock (fs.sb.iblock inum)
          ((data.write (dinodeOffset inum) (List.replicate 64 0)).store (dinodeOffset inum) 2 type)
      iget inum
  | none => Action.panic "ialloc: no inodes"

/-- Lock the given inode. Reads the inode from disk if necessary. -/
def ilock (ip : InodePtr) : Action FsState Unit := do
  let inode ← Action.get fun state : FsState => state.inode ip
  if inode.ref < 1 then
    Action.panic "ilock"
  else if inode.valid = false then
    onFs fun fs =>
      fs.setInode ip { fs.inode ip with toDinode := fs.dinode (fs.inode ip).inum, valid := true }
    let inode ← Action.get fun state : FsState => state.inode ip
    if inode.type = 0 then
      Action.panic "ilock: no type"
    else return ()
  else return ()

/-! ## Inode content -/

/-- The part of `bmap` that runs once the indirect block is there. -/
def bmapEntry (ip : InodePtr) (bn : Nat) : Action FsState Nat := do
  let bp ← Action.get fun state : FsState => (state.inode ip).addrs ndirect
  let addr ← Action.get fun state : FsState => (state.block bp).load (4 * bn) 4
  if addr = 0 then
    let addr ← balloc
    onFs fun fs => fs.setBlock bp ((fs.block bp).store (4 * bn) 4 addr)
    return addr
  else return addr

/-- Return the disk block address of the nth block in inode `ip`. If there is no
such block, `bmap` allocates one. -/
def bmap (ip : InodePtr) (bn : Nat) : Action FsState Nat := do
  let inode ← Action.get fun state : FsState => state.inode ip
  if bn < ndirect then
    if inode.addrs bn = 0 then
      let addr ← balloc
      onFs fun fs =>
        fs.setInode ip { fs.inode ip with addrs := Function.update (fs.inode ip).addrs bn addr }
      return addr
    else return inode.addrs bn
  else if bn - ndirect < nindirect then
    -- Load indirect block, allocating if necessary.
    if inode.addrs ndirect = 0 then
      let addr ← balloc
      onFs fun fs =>
        fs.setInode ip
          { fs.inode ip with addrs := Function.update (fs.inode ip).addrs ndirect addr }
      bmapEntry ip (bn - ndirect)
    else bmapEntry ip (bn - ndirect)
  else Action.panic "bmap: out of range"

/-- Truncate inode (discard contents). -/
def itrunc (ip : InodePtr) : Action FsState Unit := do
  Action.forRange ndirect fun i => do
    let addr ← Action.get fun state : FsState => (state.inode ip).addrs i
    if addr ≠ 0 then
      bfree addr
      onFs fun fs =>
        fs.setInode ip { fs.inode ip with addrs := Function.update (fs.inode ip).addrs i 0 }
  let bp ← Action.get fun state : FsState => (state.inode ip).addrs ndirect
  if bp ≠ 0 then
    Action.forRange nindirect fun j => do
      let addr ← Action.get fun state : FsState => (state.block bp).load (4 * j) 4
      if addr ≠ 0 then
        bfree addr
    bfree bp
    onFs fun fs =>
      fs.setInode ip { fs.inode ip with addrs := Function.update (fs.inode ip).addrs ndirect 0 }
  onFs fun fs => fs.setInode ip { fs.inode ip with size := 0 }
  iupdate ip

/-- Drop a reference to an in-memory inode. -/
def iput (ip : InodePtr) : Action FsState Unit := do
  let inode ← Action.get fun state : FsState => state.inode ip
  if inode.valid = true ∧ inode.nlink = 0 ∧ inode.ref = 1 then
    -- inode has no links and no other references: truncate and free.
    itrunc ip
    onFs fun fs => fs.setInode ip { fs.inode ip with type := 0 }
    iupdate ip
    onFs fun fs => fs.setInode ip { fs.inode ip with valid := false }
  onFs fun fs => fs.setInode ip { fs.inode ip with ref := (fs.inode ip).ref - 1 }

/-- The signed value of a short. -/
def short (bits : Nat) : Int := if bits < 2 ^ 15 then bits else bits - 2 ^ 16

/-- `devsw[major].write`: only the console has one, and it returns `n`. -/
def devswWrite (major : Int) : Option (Int → Int) :=
  if major = console then some fun n => n else none

/-- `devsw[major].read`: only the console has one. -/
def devswRead (consoleread : Int → Int × List UInt8) (major : Int) :
    Option (Int → Int × List UInt8) :=
  if major = console then some consoleread else none

/-- The loop of `readi`, which takes at most `n` steps. It collects what is
copied to `dst`. -/
def readiFrom (ip : InodePtr) (n : Nat) : Nat → Nat → Nat → List UInt8 → Action FsState (List UInt8)
  | 0, _, _, dst => return dst
  | fuel + 1, tot, off, dst =>
      if tot < n then do
        let bp ← bmap ip (off / bsize)
        let m := min (n - tot) (bsize - off % bsize)
        let bytes ← Action.get fun state : FsState => (state.block bp).read (off % bsize) m
        readiFrom ip n fuel (tot + m) (off + m) (dst ++ bytes)
      else return dst

/-- Read data from inode: the result and the bytes stored at `dst`. What the
console has to offer is `consoleread`. -/
def readi (consoleread : Int → Int × List UInt8) (ip : InodePtr) (off n : UInt32) :
    Action FsState (Int × List UInt8) := do
  let inode ← Action.get fun state : FsState => state.inode ip
  if inode.type = tDev then
    if short inode.major < 0 ∨ ndev ≤ short inode.major then return (-1, [])
    else
      match devswRead consoleread (short inode.major) with
      | none => return (-1, [])
      | some read => return read n.toInt32.toInt
  else if inode.size < off.toNat ∨ off + n < off then return (-1, [])
  else
    let n := if inode.size < (off + n).toNat then inode.size - off.toNat else n.toNat
    let bytes ← readiFrom ip n n 0 off.toNat []
    return ((UInt32.ofNat n).toInt32.toInt, bytes)

/-- The loop of `writei`, which takes at most `n` steps. -/
def writeiFrom (ip : InodePtr) (src : Memory) (n : Nat) : Nat → Nat → Nat → Action FsState Nat
  | 0, _, off => return off
  | fuel + 1, tot, off =>
      if tot < n then do
        let bp ← bmap ip (off / bsize)
        let m := min (n - tot) (bsize - off % bsize)
        onFs fun fs => fs.setBlock bp ((fs.block bp).write (off % bsize) (src.read tot m))
        writeiFrom ip src n fuel (tot + m) (off + m)
      else return off

/-- Write data to inode. -/
def writei (ip : InodePtr) (src : Memory) (off n : UInt32) : Action FsState Int := do
  let inode ← Action.get fun state : FsState => state.inode ip
  if inode.type = tDev then
    if short inode.major < 0 ∨ ndev ≤ short inode.major then return -1
    else
      match devswWrite (short inode.major) with
      | none => return -1
      | some write => return write n.toInt32.toInt
  else if inode.size < off.toNat ∨ off + n < off then return -1
  else if maxFile * bsize < (off + n).toNat then return -1
  else
    let off ← writeiFrom ip src n.toNat n.toNat 0 off.toNat
    if 0 < n ∧ inode.size < off then
      onFs fun fs => fs.setInode ip { fs.inode ip with size := off }
      iupdate ip
    return n.toInt32.toInt

end Xv6.Fs
