import Xv6.Fs.Namei
import Xv6.Vm.PageTable

/-!
# exec, up to the user stack

`exec.c` and `loaduvm`: the program is read from its file into a new address
space. The caller's own address space is replaced only after that.
-/

namespace Xv6.Exec

open Xv6.Library Xv6.Fs Xv6.Vm

/-! ## The kernel as exec sees it -/

/-- What `exec` sets in the trap frame. -/
structure Trapframe where
  eip : UInt32
  esp : UInt32

/-- What `exec` sets in the process. -/
structure Proc where
  pgdir : UInt32
  sz : UInt32
  tf : Trapframe
  name : List UInt8

/-- The memory, the file system, the sleep locks of inodes that the process
holds, the file system calls in progress, the process, and its `cwd`. -/
structure Kernel where
  machine : Machine
  fs : FsState
  held : InodePtr → Bool
  outstanding : Nat
  proc : Proc
  cwd : InodePtr

def onMachine (action : Action Machine Value) : Action Kernel Value :=
  Action.focus Kernel.machine (fun k machine => { k with machine := machine }) action

def onInodes (action : Action FsState Value) : Action Kernel Value :=
  Action.focus Kernel.fs (fun k fs => { k with fs := fs }) action

/-- What the lookup of a path works on. -/
def Kernel.paths (k : Kernel) : Path.Kernel := ⟨k.fs, k.held, k.cwd⟩

def onPaths (action : Action Path.Kernel Value) : Action Kernel Value :=
  Action.focus Kernel.paths
    (fun k paths => { k with fs := paths.fs, held := paths.held, cwd := paths.cwd }) action

def beginOp : Action Kernel Unit :=
  Action.modify fun k => { k with outstanding := k.outstanding + 1 }

def endOp : Action Kernel Unit :=
  Action.modify fun k => { k with outstanding := k.outstanding - 1 }

/-- Lock the inode. A process that holds the lock already waits for itself. -/
def ilock (ip : InodePtr) : Action Kernel Unit := do
  let k ← Action.get fun k : Kernel => k
  if (k.fs.inode ip).ref < 1 then Action.panic "ilock"
  else if k.held ip = true then Action.never
  else
    Action.modify fun k => { k with held := Function.update k.held ip true }
    onInodes (Fs.ilock ip)

def iunlock (ip : InodePtr) : Action Kernel Unit := do
  let k ← Action.get fun k : Kernel => k
  if k.held ip = false ∨ (k.fs.inode ip).ref < 1 then Action.panic "iunlock"
  else Action.modify fun k => { k with held := Function.update k.held ip false }

/-- Unlock, then drop the reference. -/
def iunlockput (ip : InodePtr) : Action Kernel Unit := do
  iunlock ip
  onInodes (Fs.iput ip)

/-! ## ELF files -/

/-- A field of a structure that was read from a file. -/
def field (bytes : List UInt8) (offset width : Nat) : UInt32 :=
  UInt32.ofNat (ofLeBytes ((bytes.drop offset).take width))

/-- The fields of `struct elfhdr` that `exec` uses. -/
structure Elfhdr where
  magic : UInt32
  entry : UInt32
  phoff : UInt32
  phnum : UInt32

/-- The fields of `struct proghdr` that `exec` uses. -/
structure Proghdr where
  type : UInt32
  off : UInt32
  vaddr : UInt32
  filesz : UInt32
  memsz : UInt32
  deriving DecidableEq

def elfhdr (bytes : List UInt8) : Elfhdr where
  magic := field bytes 0 4
  entry := field bytes 24 4
  phoff := field bytes 28 4
  phnum := field bytes 44 2

def proghdr (bytes : List UInt8) : Proghdr where
  type := field bytes 0 4
  off := field bytes 4 4
  vaddr := field bytes 8 4
  filesz := field bytes 16 4
  memsz := field bytes 20 4

/-- `sizeof(struct elfhdr)` -/
def elfhdrSize : UInt32 := 52

/-- `sizeof(struct proghdr)` -/
def proghdrSize : UInt32 := 32

def elfMagic : UInt32 := 0x464C457F

def elfProgLoad : UInt32 := 1

/-! ## Loading -/

variable (symbols : Symbols) (consoleread : Int → Int × List UInt8)

/-- `readi` into the kernel's memory. -/
def readiTo (ip : InodePtr) (dst off n : UInt32) : Action Kernel Int := do
  let read ← onInodes (Fs.readi consoleread ip off n)
  onMachine (Action.modify fun m => { m with memory := m.memory.write dst.toNat read.2 })
  return read.1

/-- The loop of `loaduvm`. -/
def loadFrom (pgdir addr : UInt32) (ip : InodePtr) (offset sz : UInt32) :
    Nat → UInt32 → Action Kernel Int
  | 0, _ => Action.never
  | fuel + 1, i =>
      if i < sz then do
        let pte ← onMachine (walkpgdir pgdir (addr + i) false)
        if pte = 0 then Action.panic "loaduvm: address should exist"
        else
          let entry ← onMachine (loadWord pte)
          let pa := pteAddr entry
          let n := if sz - i < pgsize then sz - i else pgsize
          let count ← readiTo consoleread ip (p2v pa) (offset + i) n
          if count ≠ n.toNat then return -1
          else loadFrom pgdir addr ip offset sz fuel (i + pgsize)
      else return 0

/-- Load a program segment. The pages must already be mapped. -/
def loaduvm (pgdir addr : UInt32) (ip : InodePtr) (offset sz : UInt32) : Action Kernel Int :=
  if addr % pgsize ≠ 0 then Action.panic "loaduvm: addr must be page aligned"
  else loadFrom consoleread pgdir addr ip offset sz turns 0

/-- The loop over the program headers, of which `count` are left. It returns the
size, or nothing for `goto bad`. -/
def loadSegments (pgdir : UInt32) (ip : InodePtr) :
    Nat → UInt32 → UInt32 → Action Kernel (Option UInt32)
  | 0, _, sz => return some sz
  | count + 1, off, sz => do
      let read ← onInodes (Fs.readi consoleread ip off proghdrSize)
      if read.1 ≠ proghdrSize.toNat then return none
      else
        let ph := proghdr read.2
        if ph.type ≠ elfProgLoad then loadSegments pgdir ip count (off + proghdrSize) sz
        else if ph.memsz < ph.filesz then return none
        else if ph.vaddr + ph.memsz < ph.vaddr then return none
        else
          let sz ← onMachine (allocuvm symbols pgdir sz (ph.vaddr + ph.memsz))
          if sz = 0 then return none
          else if ph.vaddr % pgsize ≠ 0 then return none
          else
            let loaded ← loaduvm consoleread pgdir ph.vaddr ip ph.off ph.filesz
            if loaded < 0 then return none
            else loadSegments pgdir ip count (off + proghdrSize) sz

/-- What the rest of `exec` goes on with. -/
structure Image where
  pgdir : UInt32
  sz : UInt32
  entry : UInt32

/-- `bad:`; `exec` returns -1. -/
def bad (pgdir : UInt32) (ip : Option InodePtr) : Action Kernel (Option Image) := do
  if pgdir ≠ 0 then onMachine (freevm symbols pgdir)
  match ip with
  | some ip =>
      iunlockput ip
      endOp
      return none
  | none => return none

/-- Allocate the guard page and the stack page at the next page boundary. -/
def allocStack (pgdir sz entry : UInt32) : Action Kernel (Option Image) := do
  let sz := pgRoundUp sz
  let sz ← onMachine (allocuvm symbols pgdir sz (sz + 2 * pgsize))
  if sz = 0 then bad symbols pgdir none
  else
    onMachine (clearpteu pgdir (sz - 2 * pgsize))
    return some ⟨pgdir, sz, entry⟩

/-- What follows the loop over the program headers. -/
def endLoad (pgdir entry : UInt32) (ip : InodePtr) : Option UInt32 → Action Kernel (Option Image)
  | none => bad symbols pgdir (some ip)
  | some sz => do
      iunlockput ip
      endOp
      allocStack symbols pgdir sz entry

/-- `exec` with the inode of the program, which is locked. -/
def execLocked (ip : InodePtr) : Action Kernel (Option Image) := do
  let read ← onInodes (Fs.readi consoleread ip 0 elfhdrSize)
  if read.1 ≠ elfhdrSize.toNat then bad symbols 0 (some ip)
  else
    let elf := elfhdr read.2
    if elf.magic ≠ elfMagic then bad symbols 0 (some ip)
    else
      let pgdir ← onMachine (setupkvm symbols)
      if pgdir = 0 then bad symbols 0 (some ip)
      else
        let loaded ← loadSegments symbols consoleread pgdir ip elf.phnum.toNat elf.phoff 0
        endLoad symbols pgdir elf.entry ip loaded

/-- `exec` up to the allocation of the user stack; nothing if it returns -1. -/
def execPrefix (path : List UInt8) : Action Kernel (Option Image) := do
  beginOp
  let found ← onPaths (Path.namei consoleread path)
  match found with
  | none =>
      endOp
      return none
  | some ip =>
      ilock ip
      execLocked symbols consoleread ip

end Xv6.Exec
