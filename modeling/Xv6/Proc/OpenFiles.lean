import Xv6.Library.Parallel
import Xv6.Library.Shares
import Xv6.Proc.Ftable

/-!
# The open files of all processes

`open`, `close`, `dup`, `pipe`, `fork`, `exit`, `chdir` and `wait`, made by any
number of processes at a time, with the references that they take, pass on and
drop. What a function does under a lock, and what it does to memory that no other
process can reach, is one action.
-/

namespace Xv6.OpenFiles

open Xv6.Library
open Xv6.Fs (InodePtr)
open Xv6.Fork (nofile nfile FilePtr)
open Xv6.Sched (ProcPtr nproc)
open Xv6.Files (File FileType)

inductive Status where
  | unused
  | embryo (parent : ProcPtr)
  | live
  | zombie
deriving DecidableEq

/-- `ofile` and `cwd` of `struct proc`. The rest is history, of the call that the
process is in. -/
structure Proc where
  status : Status
  ofile : Fin nofile → Option FilePtr
  cwd : Option InodePtr
  /-- the descriptor whose reference is already gone, or not there yet -/
  unpaid : Option (Fin nofile)
  /-- the reference of `cwd` is already gone -/
  cwdGone : Bool
  /-- references in the variables of `sys_open` and `fork`, or `rf` and `wf` -/
  file : Bool → Option FilePtr
  /-- files that are allocated and not filled in -/
  made : Bool → Option FilePtr
  ip : Option InodePtr
  /-- the copy that `fileclose` makes of a file with its last reference -/
  ff : Option File
  /-- a page that is not in use, or not any more -/
  page : Option UInt32
  child : Option ProcPtr

structure PipeEnds where
  readopen : Bool
  writeopen : Bool
deriving DecidableEq

/-- `inodeRef` counts the references that this layer has on each inode. A page
has a pipe from `pipealloc` to `pipeclose`. -/
structure State where
  file : FilePtr → File
  proc : ProcPtr → Proc
  pipe : UInt32 → Option PipeEnds
  free : List UInt32
  inodeRef : InodePtr → Int

def State.setFile (s : State) (f : FilePtr) (file : File) : State :=
  { s with file := Function.update s.file f file }

def State.setProc (s : State) (p : ProcPtr) (proc : Proc) : State :=
  { s with proc := Function.update s.proc p proc }

def State.addInode (s : State) (ip : InodePtr) (change : Int) : State :=
  { s with inodeRef := Function.update s.inodeRef ip (s.inodeRef ip + change) }

/-- A process without files. -/
def blank (status : Status) : Proc where
  status := status
  ofile := fun _ => none
  cwd := none
  unpaid := none
  cwdGone := false
  file := fun _ => none
  made := fun _ => none
  ip := none
  ff := none
  page := none
  child := none

/-! ## Actions -/

section Actions

variable (p : ProcPtr)

/-- Allocate a file structure. -/
def filealloc (k : Bool) (s : State) : Outcome State (Option FilePtr) :=
  match (List.finRange nfile).find? fun f => decide ((s.file f).ref = 0) with
  | none => .done none s
  | some f =>
      let proc := s.proc p
      .done (some f) ((s.setFile f { s.file f with ref := 1 }).setProc p
        { proc with
          file := Function.update proc.file k (some f)
          made := Function.update proc.made k (some f) })

/-- Increment ref count for file `f`; `proc` is what the caller does with it. -/
def filedup (f : FilePtr) (proc : Proc → Proc) (s : State) : Outcome State Unit :=
  if (s.file f).ref < 1 then .panic "filedup"
  else
    .done () ((s.setFile f { s.file f with ref := (s.file f).ref + 1 }).setProc p (proc (s.proc p)))

/-- Give up the reference of a descriptor, or of a variable. -/
def Proc.release (proc : Proc) : Fin nofile ⊕ Bool → Proc
  | .inl fd => { proc with unpaid := some fd }
  | .inr k =>
      { proc with
        file := Function.update proc.file k none
        made := Function.update proc.made k none }

/-- The part of `fileclose` under the lock, with a copy of the file when that was
its last reference. -/
def fileput (x : Fin nofile ⊕ Bool) (f : FilePtr) (s : State) : Outcome State (Option File) :=
  let ff := s.file f
  let proc := (s.proc p).release x
  if ff.ref < 1 then .panic "fileclose"
  else if 0 < ff.ref - 1 then
    .done none ((s.setFile f { ff with ref := ff.ref - 1 }).setProc p proc)
  else
    .done (some ff) ((s.setFile f { ff with ref := 0, type := .none }).setProc p
      { proc with ff := if ff.type = .none then none else some ff })

/-- Allocate a file descriptor for the given file; `proc` says whose reference
it takes over. -/
def fdalloc (f : FilePtr) (proc : Proc → Fin nofile → Proc) (s : State) :
    Outcome State (Option (Fin nofile)) :=
  let old := s.proc p
  match (List.finRange nofile).find? fun fd => decide (old.ofile fd = none) with
  | none => .done none s
  | some fd =>
      .done (some fd) (s.setProc p
        (proc { old with ofile := Function.update old.ofile fd (some f) } fd))

/-- An assignment to `struct proc`, or to a variable of the process. -/
def assign (change : Proc → Proc) (s : State) : Outcome State Unit :=
  .done () (s.setProc p (change (s.proc p)))

/-- `namei` or `create` returns `ip`, with a reference to it. -/
def lookup (ip : InodePtr) (s : State) : Outcome State Unit :=
  .done () ((s.addInode ip 1).setProc p { s.proc p with ip := some ip })

/-- `iput(ip)`; `proc` says which variable had the reference. -/
def iput (ip : InodePtr) (proc : Proc → Proc) (s : State) : Outcome State Unit :=
  .done () ((s.addInode ip (-1)).setProc p (proc (s.proc p)))

/-- The assignments of `sys_open` to its file. -/
def openFile (f : FilePtr) (ip : InodePtr) (readable writable : Bool) (s : State) : Outcome State Unit :=
  .done () ((s.setFile f
      { s.file f with
        type := .inode, ip := some ip, off := 0, readable := readable, writable := writable }).setProc p
    { s.proc p with made := Function.update (s.proc p).made false none, ip := none })

def kalloc (s : State) : Outcome State (Option UInt32) :=
  match s.free with
  | [] => .done none s
  | page :: rest =>
      .done (some page) ({ s with free := rest }.setProc p { s.proc p with page := some page })

def kfree (page : UInt32) (s : State) : Outcome State Unit :=
  .done () ({ s with free := page :: s.free }.setProc p { s.proc p with page := none })

/-- The assignments of `pipealloc` to the pipe and its files. -/
def pipeInit (page : UInt32) (f0 f1 : FilePtr) (s : State) : Outcome State Unit :=
  let s := { s with pipe := Function.update s.pipe page (some ⟨true, true⟩) }
  let s := s.setFile f0
    { s.file f0 with type := .pipe, readable := true, writable := false, pipe := page }
  let s := s.setFile f1
    { s.file f1 with type := .pipe, readable := false, writable := true, pipe := page }
  .done () (s.setProc p { s.proc p with made := fun _ => none, page := none })

/-- The part of `pipeclose` under the lock, and whether to free the page. -/
def closeEnd (page : UInt32) (writable : Bool) (s : State) : Outcome State Bool :=
  match s.pipe page with
  | none => .panic "pipe freed"
  | some ends =>
      let ends := if writable = true then { ends with writeopen := false }
        else { ends with readopen := false }
      let proc := { s.proc p with ff := none }
      if ends.readopen = false ∧ ends.writeopen = false then
        .done true ({ s with pipe := Function.update s.pipe page none }.setProc p
          { proc with page := some page })
      else .done false ({ s with pipe := Function.update s.pipe page (some ends) }.setProc p proc)

/-- Look in the process table for an UNUSED proc. -/
def allocproc (s : State) : Outcome State (Option ProcPtr) :=
  match (List.finRange nproc).find? fun q => decide ((s.proc q).status = .unused) with
  | none => .done none s
  | some np =>
      .done (some np) ((s.setProc np { s.proc np with status := .embryo p }).setProc p
        { s.proc p with child := some np })

/-- The child is given up again. -/
def discard (np : ProcPtr) (s : State) : Outcome State Unit :=
  .done () ((s.setProc np { s.proc np with status := .unused }).setProc p
    { s.proc p with child := none })

/-- `np->ofile[i] = f` -/
def giveFile (np : ProcPtr) (i : Fin nofile) (f : FilePtr) (s : State) : Outcome State Unit :=
  .done () ((s.setProc np
      { s.proc np with ofile := Function.update (s.proc np).ofile i (some f) }).setProc p
    { s.proc p with file := Function.update (s.proc p).file false none })

/-- `np->cwd = idup(curproc->cwd)` -/
def giveCwd (np : ProcPtr) (ip : InodePtr) (s : State) : Outcome State Unit :=
  .done () ((s.addInode ip 1).setProc np { s.proc np with cwd := some ip })

/-- `np->state = RUNNABLE` -/
def start (np : ProcPtr) (s : State) : Outcome State Unit :=
  .done () ((s.setProc np { s.proc np with status := .live }).setProc p
    { s.proc p with child := none })

/-- One zombie of the loop of `wait`. -/
def reap (q : ProcPtr) (s : State) : Outcome State Unit :=
  if (s.proc q).status = .zombie then
    .done () (s.setProc q { s.proc q with status := .unused })
  else .done () s

/-- `fileread` and `filewrite`, up to what they do to the pipe or the inode. -/
def access (f : FilePtr) (writes : Bool) (s : State) : Outcome State Unit :=
  let file := s.file f
  if (if writes = true then file.writable else file.readable) = false then .done () s
  else
    match file.type with
    | .none => .panic (if writes = true then "filewrite" else "fileread")
    | .pipe => .done () s
    | .inode => .done () s

end Actions

/-! ## System calls -/

section Calls

variable (p : ProcPtr)

/-- `curproc->ofile[fd]` -/
def argfd (fd : Fin nofile) : Program State (Option FilePtr) :=
  Program.get fun s => (s.proc p).ofile fd

def pipeclose (page : UInt32) (writable : Bool) : Program State Unit := do
  if ← Program.atom (closeEnd p page writable) then
    Program.atom (kfree p page)

/-- Close file `f`. -/
def fileclose (x : Fin nofile ⊕ Bool) (f : FilePtr) : Program State Unit := do
  match ← Program.atom (fileput p x f) with
  | none => return ()
  | some ff =>
      match ff.type, ff.ip with
      | .pipe, _ => pipeclose p ff.pipe ff.writable
      | .inode, some ip => Program.atom (iput p ip fun proc => { proc with ff := none })
      | .inode, none => Program.atom fun _ => .panic "iput"
      | .none, _ => return ()

def sysClose (fd : Fin nofile) : Program State Unit := do
  match ← argfd p fd with
  | none => return ()
  | some f =>
      Program.atom (assign p fun proc =>
        { proc with
          ofile := Function.update proc.ofile fd none
          file := Function.update proc.file false (some f) })
      fileclose p (.inr false) f

/-- The descriptor is there before the reference. -/
def sysDup (fd : Fin nofile) : Program State Unit := do
  match ← argfd p fd with
  | none => return ()
  | some f =>
      match ← Program.atom (fdalloc p f fun proc fd => { proc with unpaid := some fd }) with
      | none => return ()
      | some _ => Program.atom (filedup p f fun proc => { proc with unpaid := none })

def iputIp (ip : InodePtr) : Program State Unit :=
  Program.atom (iput p ip fun proc => { proc with ip := none })

/-- The new descriptor takes the reference in a variable over. -/
def install (k : Bool) (proc : Proc) : Proc :=
  { proc with file := Function.update proc.file k none }

/-- `found` is the inode that `create` or `namei` returns, and whether it is a
directory that is to be written. -/
def sysOpen (found : Option (InodePtr × Bool)) (readable writable : Bool) : Program State Unit := do
  match found with
  | none => return ()
  | some (ip, refused) =>
      Program.atom (lookup p ip)
      if refused then iputIp p ip
      else
        match ← Program.atom (filealloc p false) with
        | none => iputIp p ip
        | some f =>
            match ← Program.atom (fdalloc p f fun proc _ => install false proc) with
            | none =>
                fileclose p (.inr false) f
                iputIp p ip
            | some _ => Program.atom (openFile p f ip readable writable)

def closeBoth (rf wf : FilePtr) : Program State Unit := do
  fileclose p (.inr false) rf
  fileclose p (.inr true) wf

def pipealloc : Program State (Option (FilePtr × FilePtr)) := do
  match ← Program.atom (filealloc p false) with
  | none => return none
  | some f0 =>
      match ← Program.atom (filealloc p true) with
      | none =>
          fileclose p (.inr false) f0
          return none
      | some f1 =>
          match ← Program.atom (kalloc p) with
          | none =>
              closeBoth p f0 f1
              return none
          | some page =>
              Program.atom (pipeInit p page f0 f1)
              return some (f0, f1)

def sysPipe : Program State Unit := do
  match ← pipealloc p with
  | none => return ()
  | some (rf, wf) =>
      match ← Program.atom (fdalloc p rf fun proc _ => install false proc) with
      | none => closeBoth p rf wf
      | some fd0 =>
          match ← Program.atom (fdalloc p wf fun proc _ => install true proc) with
          | none =>
              Program.atom (assign p fun proc =>
                { proc with
                  ofile := Function.update proc.ofile fd0 none
                  file := Function.update proc.file false (some rf) })
              closeBoth p rf wf
          | some _ => return ()

/-- The loop of `fork` over the open files. -/
def dupFiles (np : ProcPtr) : List (Fin nofile) → Program State Unit
  | [] => return ()
  | i :: rest => do
      match ← argfd p i with
      | none => dupFiles np rest
      | some f =>
          Program.atom (filedup p f fun proc =>
            { proc with file := Function.update proc.file false (some f) })
          Program.atom (giveFile p np i f)
          dupFiles np rest

/-- `copied` says whether there are pages for the child. -/
def fork (copied : Bool) : Program State Unit := do
  match ← Program.atom (allocproc p) with
  | none => return ()
  | some np =>
      if copied then
        dupFiles p np (List.finRange nofile)
        match ← Program.get fun s : State => (s.proc p).cwd with
        | none => Program.atom fun _ => .panic "idup"
        | some ip =>
            Program.atom (giveCwd np ip)
            Program.atom (start p np)
      else Program.atom (discard p np)

/-- The loop of `exit` over the open files. -/
def closeFiles : List (Fin nofile) → Program State Unit
  | [] => return ()
  | fd :: rest => do
      match ← argfd p fd with
      | none => closeFiles rest
      | some f =>
          fileclose p (.inl fd) f
          Program.atom (assign p fun proc =>
            { proc with ofile := Function.update proc.ofile fd none, unpaid := none })
          closeFiles rest

/-- `iput(curproc->cwd)` -/
def iputCwd : Program State Unit := do
  match ← Program.get fun s : State => (s.proc p).cwd with
  | none => Program.atom fun _ => .panic "iput"
  | some ip => Program.atom (iput p ip fun proc => { proc with cwdGone := true })

def exit (initproc : ProcPtr) : Program State Unit := do
  if p = initproc then Program.atom fun _ => .panic "init exiting"
  else
    closeFiles p (List.finRange nofile)
    iputCwd p
    Program.atom (assign p fun proc => { proc with cwd := none, cwdGone := false })
    Program.atom (assign p fun proc => { proc with status := .zombie })

/-- `found` is the inode that `namei` returns, and whether it is a directory. -/
def sysChdir (found : Option (InodePtr × Bool)) : Program State Unit := do
  match found with
  | none => return ()
  | some (ip, isDir) =>
      Program.atom (lookup p ip)
      if isDir then
        iputCwd p
        Program.atom (assign p fun proc =>
          { proc with cwd := some ip, cwdGone := false, ip := none })
      else iputIp p ip

/-- `sys_read` and `sys_write` -/
def sysAccess (fd : Fin nofile) (writes : Bool) : Program State Unit := do
  match ← argfd p fd with
  | none => return ()
  | some f => Program.atom (access f writes)

end Calls

inductive Call where
  | open (found : Option (InodePtr × Bool)) (readable writable : Bool)
  | close (fd : Fin nofile)
  | dup (fd : Fin nofile)
  | pipe
  | fork (copied : Bool)
  | exit
  | wait (q : ProcPtr)
  | chdir (found : Option (InodePtr × Bool))
  | access (fd : Fin nofile) (writes : Bool)

def body (initproc p : ProcPtr) : Call → Program State Unit
  | .open found readable writable => sysOpen p found readable writable
  | .close fd => sysClose p fd
  | .dup fd => sysDup p fd
  | .pipe => sysPipe p
  | .fork copied => fork p copied
  | .exit => exit p initproc
  | .wait q => Program.atom (reap q)
  | .chdir found => sysChdir p found
  | .access fd writes => sysAccess p fd writes

end Xv6.OpenFiles
