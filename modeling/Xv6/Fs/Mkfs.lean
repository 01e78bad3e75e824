import Xv6.Fs.Inode

/-!
# The image builder

`mkfs.c`: a zeroed image, one inode after the other, and the blocks of each in
the order in which they are appended. An `assert` that fails and a call of
`exit(1)` are panics.
-/

namespace Xv6.Fs

open Xv6.Library

/-! ## The layout -/

/-- NINODES -/
def ninodes : Nat := 200

namespace Mkfs

def nbitmap : Nat := fsSize / (bsize * 8) + 1
def ninodeblocks : Nat := ninodes / ipb + 1
def nlog : Nat := logSize
/-- Number of meta blocks (boot, sb, nlog, inode, bitmap). -/
def nmeta : Nat := 2 + nlog + ninodeblocks + nbitmap
/-- Number of data blocks. -/
def nblocks : Nat := fsSize - nmeta

def sb : Superblock where
  size := fsSize
  nblocks := nblocks
  ninodes := ninodes
  nlog := nlog
  logstart := 2
  inodestart := 2 + nlog
  bmapstart := 2 + nlog + ninodeblocks

end Mkfs

/-- The sectors of the image and the two counters. -/
structure Mkfs where
  image : Nat → Block
  freeinode : Nat
  freeblock : Nat

/-- An argument of the command, and what `read` gives of the file. -/
structure InputFile where
  path : List UInt8
  contents : List UInt8

namespace Mkfs

/-! ## Sectors and inodes -/

/-- Reading past the end of the image fails. -/
def rsect (sec : Nat) : Action Mkfs Block := do
  if sec < fsSize then Action.get fun m : Mkfs => m.image sec
  else Action.panic "read"

def wsect (sec : Nat) (buf : Block) : Action Mkfs Unit :=
  Action.modify fun m => { m with image := Function.update m.image sec buf }

def winode (inum : Nat) (ip : Dinode) : Action Mkfs Unit := do
  let buf ← rsect (sb.iblock inum)
  wsect (sb.iblock inum) (putDinode buf inum ip)

def rinode (inum : Nat) : Action Mkfs Dinode := do
  let buf ← rsect (sb.iblock inum)
  return dinodeOf buf inum

def ialloc (type : Nat) : Action Mkfs Nat := do
  let inum ← Action.get Mkfs.freeinode
  Action.modify fun m => { m with freeinode := m.freeinode + 1 }
  winode inum { type := type, major := 0, minor := 0, nlink := 1, size := 0, addrs := fun _ => 0 }
  return inum

/-- The bits below `used` are set. -/
def balloc (used : Nat) : Action Mkfs Unit := do
  if bsize * 8 ≤ used then Action.panic "used < BSIZE*8"
  else wsect sb.bmapstart (forLoop used (fun i buf => setBit buf i) fun _ => 0)

/-! ## Appending -/

/-- `freeblock++` -/
def takeBlock : Action Mkfs Nat := do
  let b ← Action.get Mkfs.freeblock
  Action.modify fun m => { m with freeblock := m.freeblock + 1 }
  return b

/-- `din.addrs[k] = b` -/
def setSlot (din : Dinode) (k b : Nat) : Dinode :=
  { din with addrs := Function.update din.addrs k b }

/-- The inode with a block number in slot `k` of `addrs`. -/
def fillSlot (din : Dinode) (k : Nat) : Action Mkfs Dinode := do
  if din.addrs k = 0 then
    let b ← takeBlock
    return setSlot din k b
  else return din

/-- The block `x` that `iappend` writes to, and the inode with it. -/
def appendBlock (din : Dinode) (fbn : Nat) : Action Mkfs (Dinode × Nat) := do
  if fbn < ndirect then
    let din ← fillSlot din fbn
    return (din, din.addrs fbn)
  else
    let din ← fillSlot din ndirect
    let indirect ← rsect (din.addrs ndirect)
    let entry := 4 * (fbn - ndirect)
    if indirect.load entry 4 = 0 then
      let b ← takeBlock
      let indirect := indirect.store entry 4 b
      wsect (din.addrs ndirect) indirect
      return (din, indirect.load entry 4)
    else return (din, indirect.load entry 4)

/-- The loop of `iappend`: the inode and the offset it ends with. -/
def iappendFrom : Nat → Dinode → Nat → List UInt8 → Action Mkfs (Dinode × Nat)
  | 0, din, off, _ => return (din, off)
  | fuel + 1, din, off, p =>
      if 0 < p.length then do
        let fbn := off / bsize
        if maxFile ≤ fbn then Action.panic "fbn < MAXFILE"
        else
          let (din, x) ← appendBlock din fbn
          let n1 := min p.length ((fbn + 1) * bsize - off)
          let buf ← rsect x
          wsect x (buf.write (off - fbn * bsize) (p.take n1))
          iappendFrom fuel din (off + n1) (p.drop n1)
      else return (din, off)

/-- Every turn of the loop takes at least one byte. -/
def iappend (inum : Nat) (xp : List UInt8) : Action Mkfs Unit := do
  let din ← rinode inum
  let (din, off) ← iappendFrom xp.length din din.size xp
  winode inum { din with size := off }

/-! ## The command -/

/-- A `struct dirent` whose name was copied with `strncpy`. -/
def dirent (inum : Nat) (name : List UInt8) : List UInt8 :=
  leBytes inum 2 ++ (name.take dirsiz ++ List.replicate (dirsiz - name.length) 0)

/-- Skip leading _ in name when writing to file system. -/
def InputFile.name (file : InputFile) : List UInt8 :=
  if file.path.head? = some (UInt8.ofNat 95) then file.path.tail else file.path

/-- The loop around `read`, which fills the buffer as long as it can. -/
def appendContents (inum : Nat) : Nat → List UInt8 → Action Mkfs Unit
  | 0, _ => return ()
  | fuel + 1, contents =>
      let buf := contents.take bsize
      if 0 < buf.length then do
        iappend inum buf
        appendContents inum fuel (contents.drop bsize)
      else return ()

def addFile (file : InputFile) : Action Mkfs Unit := do
  if UInt8.ofNat 47 ∈ file.path then Action.panic "index(argv[i], '/') == 0"
  else
    let inum ← ialloc tFile
    iappend rootino (dirent inum (InputFile.name file))
    appendContents inum (file.contents.length + 1) file.contents

def addFiles : List InputFile → Action Mkfs Unit
  | [] => return ()
  | file :: rest => do
      addFile file
      addFiles rest

/-- Fix size of root inode dir. -/
def fixRoot : Action Mkfs Unit := do
  let din ← rinode rootino
  winode rootino { din with size := (din.size / bsize + 1) * bsize }

/-- The superblock as it is copied to sector 1. -/
def superblockBytes : List UInt8 :=
  [sb.size, sb.nblocks, sb.ninodes, sb.nlog, sb.logstart, sb.inodestart, sb.bmapstart].flatMap
    fun field => leBytes field 4

/-- The image before `main` appends anything. -/
def blank : Mkfs where
  image := fun _ _ => 0
  freeinode := 1
  freeblock := nmeta

/-- `main`, from the zeroed image on. -/
def main (files : List InputFile) : Action Mkfs Unit := do
  wsect 1 (Memory.write (fun _ => 0) 0 superblockBytes)
  let inum ← ialloc tDir
  if inum ≠ rootino then Action.panic "rootino == ROOTINO"
  else
    iappend rootino (dirent rootino [UInt8.ofNat 46])
    iappend rootino (dirent rootino [UInt8.ofNat 46, UInt8.ofNat 46])
    addFiles files
    fixRoot
    let used ← Action.get Mkfs.freeblock
    balloc used

end Mkfs

end Xv6.Fs
