import Xv6.Fs.Bio
import Xv6.Library.Chain
import Xv6.Library.Runs

/-!
# The interrupt-driven disk driver

`ide.c` with its queue of buffers, over the disk that the buffer cache is used
with. The section of a function under `idelock` is one step; the disk moves
between the sections.
-/

namespace Xv6.Fs

open Xv6.Library

/-- What `idestart` writes to the registers of the disk. -/
structure Command where
  write : Bool
  dev : Nat
  sector : Nat
  data : Block

/-- The disk executes a command and then raises an interrupt, with what it read. -/
inductive Device where
  | idle
  | busy (command : Command)
  | raised (command : Command) (data : Block)

/-- A call of `iderw`. -/
structure Request where
  pid : Pid
  buf : BufPtr
deriving DecidableEq

/-- What happens to the buffers and the disk, with `iderw` as one step. -/
inductive DiskOp where
  | acquire (p : Pid) (b : BufPtr)
  | release (b : BufPtr)
  | fill (b : BufPtr) (buffer : Buf)
  | iderw (b : BufPtr)

structure Ide where
  store : Store
  havedisk1 : Bool
  idequeue : Option BufPtr
  qnext : BufPtr → Option BufPtr
  device : Device
  /-- The buffer that a process waits for in `iderw`. -/
  inside : Pid → Option BufPtr
  sleeping : Pid → Bool
  /-- The calls of `iderw` so far, and the buffers served. -/
  arrived : List Request
  served : List BufPtr
  /-- The place of the last call of a process among those that arrived. -/
  request : Pid → Nat
  history : List DiskOp

namespace Ide

def buf (ide : Ide) (b : BufPtr) : Buf := ide.store.buf b

/-- `(b->flags & (B_VALID|B_DIRTY)) == B_VALID` -/
def Clean (ide : Ide) (b : BufPtr) : Prop := (ide.buf b).valid = true ∧ (ide.buf b).dirty = false

instance (ide : Ide) (b : BufPtr) : Decidable (ide.Clean b) := inferInstanceAs (Decidable (_ ∧ _))

/-- The sector in the registers 0x1f3 to 0x1f6. -/
def sectorRegisters (sector : Nat) : Nat :=
  sector % 256 + 256 * (sector / 256 % 256) + 65536 * (sector / 65536 % 256) +
    16777216 * (sector / 16777216 % 16)

/-- The command that `idestart` gives the disk. A block is one sector. -/
def command (buffer : Buf) : Command where
  write := buffer.dirty
  dev := buffer.dev % 2
  sector := sectorRegisters buffer.blockno
  data := buffer.data

/-- Start the request for `b`. -/
def idestart (b : BufPtr) (ide : Ide) : Outcome Ide Unit :=
  if fsSize ≤ (ide.buf b).blockno then .panic "incorrect blockno"
  else .done () { ide with device := .busy (command (ide.buf b)) }

/-- The queue and the pointers when `b` is appended. -/
def enqueue (b : BufPtr) (idequeue : Option BufPtr) (qnext : BufPtr → Option BufPtr) :
    Option BufPtr × (BufPtr → Option BufPtr) :=
  let qnext := Function.update qnext b none
  match idequeue with
  | none => (some b, qnext)
  | some first => (some first, Function.update qnext (lastCell qnext nbuf first) (some b))

/-- Append `b` to `idequeue`. -/
def append (b : BufPtr) (ide : Ide) : Ide :=
  { ide with
    idequeue := (enqueue b ide.idequeue ide.qnext).1
    qnext := (enqueue b ide.idequeue ide.qnext).2 }

/-- Start disk if necessary. -/
def startDisk (b : BufPtr) (ide : Ide) : Outcome Ide Unit :=
  if ide.idequeue = some b then idestart b ide else .done () ide

/-- The test of the loop of `iderw`: return or sleep. -/
def wait (p : Pid) (b : BufPtr) (ide : Ide) : Ide :=
  if ide.Clean b then
    { ide with
      inside := Function.update ide.inside p none
      sleeping := Function.update ide.sleeping p false }
  else
    { ide with
      inside := Function.update ide.inside p (some b)
      sleeping := Function.update ide.sleeping p true }

/-- Sync a buffer with disk. -/
def iderw (p : Pid) (b : BufPtr) (ide : Ide) : Outcome Ide Unit :=
  if (ide.buf b).lock = none then .panic "iderw: buf not locked"
  else if ide.Clean b then .panic "iderw: nothing to do"
  else if (ide.buf b).dev ≠ 0 ∧ ide.havedisk1 = false then .panic "iderw: ide disk 1 not present"
  else
    let queued := append b
      { ide with
        arrived := ide.arrived ++ [⟨p, b⟩]
        request := Function.update ide.request p ide.arrived.length }
    (startDisk b queued).mapState (wait p b)

/-- Interrupt handler, when the disk has raised an interrupt with what it read. -/
def ideintr (read : Block) (ide : Ide) : Outcome Ide Unit :=
  match ide.idequeue with
  | none => .done () { ide with device := .idle }
  | some b =>
      let buffer := ide.buf b
      let data := if buffer.dirty = true then buffer.data else read
      let served :=
        { ide with
          store := ide.store.setBuf b { buffer with data := data, valid := true, dirty := false }
          idequeue := ide.qnext b
          device := .idle
          -- Wake process waiting for this buf.
          sleeping := fun p => if ide.inside p = some b then false else ide.sleeping p
          served := ide.served ++ [b]
          history := ide.history ++ [DiskOp.iderw b] }
      -- Start disk on next buf in queue.
      match served.idequeue with
      | none => .done () served
      | some next => idestart next served

/-- The disk does what it was told. -/
def execute (command : Command) (store : Store) : Store :=
  if command.write = true ∧ command.dev = 1 then
    { store with
      disk := Function.update store.disk command.sector command.data
      written := command.sector :: store.written }
  else store

end Ide

inductive IdeEvent where
  | acquire (p : Pid) (b : BufPtr)
  | release (p : Pid) (b : BufPtr)
  /-- The holder of the lock changes the block, the flags or the data. -/
  | fill (p : Pid) (b : BufPtr) (valid dirty : Bool) (dev blockno : Nat) (data : Block)
  | iderw (p : Pid) (b : BufPtr)
  /-- A process that was woken tests the flags again. -/
  | retest (p : Pid)
  | kill (p : Pid)
  | device
  | ideintr

namespace Ide

def step (ide : Ide) : IdeEvent → Outcome Ide Unit
  | .acquire p b =>
      if ide.inside p = none then
        (acquiresleep p b ide.store).mapState fun store =>
          { ide with store := store, history := ide.history ++ [DiskOp.acquire p b] }
      else .blocked
  | .release p b =>
      if ide.inside p = none ∧ (ide.buf b).lock = some p then
        (releasesleep b ide.store).mapState fun store =>
          { ide with store := store, history := ide.history ++ [DiskOp.release b] }
      else .blocked
  | .fill p b valid dirty dev blockno data =>
      if ide.inside p = none ∧ (ide.buf b).lock = some p then
        let buffer :=
          { ide.buf b with
            valid := valid, dirty := dirty, dev := dev, blockno := blockno, data := data }
        .done ()
          { ide with
            store := ide.store.setBuf b buffer
            history := ide.history ++ [DiskOp.fill b buffer] }
      else .blocked
  | .iderw p b =>
      -- The caller has locked a buffer of disk 1 that is not in sync with it.
      if ide.inside p = none ∧ (ide.buf b).lock = some p ∧ ¬ide.Clean b ∧
          (ide.buf b).dev = 1 ∧ (ide.buf b).blockno < fsSize then
        iderw p b ide
      else .blocked
  | .retest p =>
      match ide.inside p with
      | some b => if ide.sleeping p = false then .done () (wait p b ide) else .blocked
      | none => .blocked
  | .kill p => .done () { ide with sleeping := Function.update ide.sleeping p false }
  | .device =>
      match ide.device with
      | .busy command =>
          .done ()
            { ide with
              store := execute command ide.store
              device := .raised command (ide.store.disk command.sector) }
      | _ => .blocked
  | .ideintr =>
      match ide.device with
      | .raised _ read => ideintr read ide
      | _ => .blocked

def next (ide : Ide) (event : IdeEvent) : Option Ide := (ide.step event).state?

end Ide

/-- The steps of the in-memory driver and of its callers. -/
def Store.diskStep (store : Store) : DiskOp → Option Store
  | .acquire p b => (acquiresleep p b store).state?
  | .release b => (releasesleep b store).state?
  | .fill b buffer => some (store.setBuf b buffer)
  | .iderw b => (iderw b store).state?

end Xv6.Fs
