import Mathlib.Data.Fintype.Card
import Mathlib.Data.List.Nodup
import Xv6.Library.LittleEndian
import Xv6.Library.Program

/-!
# The buffer cache

`bio.c` over the in-memory disk of `memide.c`, together with the state of the
log, which shares the cache. The sleep lock of a buffer carries the process
that holds it.
-/

namespace Xv6.Fs

open Xv6.Library

/-! ## Constants of `param.h` and `fs.h` -/

/-- BSIZE -/
def bsize : Nat := 512
/-- MAXOPBLOCKS: max # of blocks any FS op writes -/
def maxOpBlocks : Nat := 10
/-- LOGSIZE: max data blocks in on-disk log -/
def logSize : Nat := maxOpBlocks * 3
/-- NBUF: size of disk block cache -/
def nbuf : Nat := maxOpBlocks * 3

theorem zero_lt_nbuf : 0 < nbuf := by decide

theorem one_lt_nbuf : 1 < nbuf := by decide

/-- FSSIZE: size of file system in blocks -/
def fsSize : Nat := 1000
/-- ROOTDEV -/
def rootDev : Nat := 1
/-- ROOTINO: root i-number -/
def rootino : Nat := 1
/-- DIRSIZ -/
def dirsiz : Nat := 14

/-! ## Buffers -/

/-- The bytes of a block are those at the offsets below `bsize`. -/
abbrev Block := Memory

abbrev Pid := Nat

/-- `struct buf`. The reference count is the length of `refs`, which also says
whose references they are. -/
structure Buf where
  valid : Bool
  dirty : Bool
  dev : Nat
  blockno : Nat
  lock : Option Pid
  refs : List Pid
  data : Block

def Buf.refcnt (buffer : Buf) : Nat := buffer.refs.length

abbrev BufPtr := Fin nbuf

/-- The linked list of all buffers, most recently used first. -/
structure Mru where
  order : List BufPtr
  nodup : order.Nodup
  complete : ∀ b, b ∈ order

/-- Move a buffer to the head of the list. -/
def Mru.front (mru : Mru) (b : BufPtr) : Mru where
  order := b :: mru.order.erase b
  nodup := List.nodup_cons.mpr ⟨mru.nodup.not_mem_erase, mru.nodup.erase b⟩
  complete := by
    intro other
    by_cases same : other = b
    · simp [same]
    · exact List.mem_cons_of_mem _ ((List.mem_erase_of_ne same).mpr (mru.complete other))

/-- `struct logheader`. -/
structure LogHeader where
  n : Nat
  block : Nat → Nat

/-- `struct log`; its spin lock is the atomicity of the actions that use it. -/
structure Log where
  start : Nat
  size : Nat
  outstanding : Int
  committing : Bool
  dev : Nat
  lh : LogHeader

/-- Disk 1, the buffer cache and the log. `written` lists the blocks written to
the disk, last first. -/
structure Store where
  disk : Nat → Block
  written : List Nat
  buf : BufPtr → Buf
  mru : Mru
  log : Log

def Store.setBuf (store : Store) (b : BufPtr) (buffer : Buf) : Store :=
  { store with buf := Function.update store.buf b buffer }

/-! ## The functions of `bio.c` -/

/-- The part of `bget` under `bcache.lock`. -/
def bgetScan (p : Pid) (dev blockno : Nat) (store : Store) : Outcome Store BufPtr :=
  match store.mru.order.find? fun b =>
      (store.buf b).dev == dev && (store.buf b).blockno == blockno with
  | some b => .done b (store.setBuf b { store.buf b with refs := p :: (store.buf b).refs })
  | none =>
      match store.mru.order.reverse.find? fun b =>
          (store.buf b).refcnt == 0 && !(store.buf b).dirty with
      | some b =>
          .done b (store.setBuf b
            { store.buf b with
              dev := dev, blockno := blockno, valid := false, dirty := false, refs := [p] })
      | none => .panic "bget: no buffers"

def acquiresleep (p : Pid) (b : BufPtr) (store : Store) : Outcome Store Unit :=
  match (store.buf b).lock with
  | some _ => .blocked
  | none => .done () (store.setBuf b { store.buf b with lock := some p })

def releasesleep (b : BufPtr) (store : Store) : Outcome Store Unit :=
  .done () (store.setBuf b { store.buf b with lock := none })

/-- Sync a buffer with disk: write it if it is dirty, else read it. -/
def iderw (b : BufPtr) (store : Store) : Outcome Store Unit :=
  let buffer := store.buf b
  if buffer.lock = none then .panic "iderw: buf not locked"
  else if buffer.valid && !buffer.dirty then .panic "iderw: nothing to do"
  else if buffer.dev ≠ 1 then .panic "iderw: request not for disk 1"
  else if fsSize ≤ buffer.blockno then .panic "iderw: block out of range"
  else if buffer.dirty then
    .done ()
      { store.setBuf b { buffer with dirty := false, valid := true } with
        disk := Function.update store.disk buffer.blockno buffer.data
        written := buffer.blockno :: store.written }
  else .done () (store.setBuf b { buffer with data := store.disk buffer.blockno, valid := true })

def bget (p : Pid) (dev blockno : Nat) : Program Store BufPtr := do
  let b ← Program.atom (bgetScan p dev blockno)
  Program.atom (acquiresleep p b)
  return b

def bread (p : Pid) (dev blockno : Nat) : Program Store BufPtr := do
  let b ← bget p dev blockno
  if ← Program.get fun store => !(store.buf b).valid then
    Program.atom (iderw b)
  return b

/-- The flag is set under the buffer's lock, so nobody sees it before the write. -/
def bwrite (b : BufPtr) (store : Store) : Outcome Store Unit :=
  if (store.buf b).lock = none then .panic "bwrite"
  else iderw b (store.setBuf b { store.buf b with dirty := true })

/-- The part of `brelse` under `bcache.lock`. -/
def bput (p : Pid) (b : BufPtr) (store : Store) : Outcome Store Unit :=
  let buffer := { store.buf b with refs := (store.buf b).refs.erase p }
  .done ()
    { store.setBuf b buffer with
      mru := if buffer.refcnt = 0 then store.mru.front b else store.mru }

def brelse (p : Pid) (b : BufPtr) : Program Store Unit := do
  Program.atom fun store =>
    if (store.buf b).lock = none then .panic "brelse" else releasesleep b store
  Program.atom (bput p b)

/-! ## What the cache keeps -/

/-- The header block of the log and the data blocks after it. -/
def Log.Owns (log : Log) (blockno : Nat) : Prop :=
  blockno = log.start ∨ log.start < blockno ∧ blockno < log.start + log.size

instance (log : Log) (blockno : Nat) : Decidable (log.Owns blockno) :=
  inferInstanceAs (Decidable (_ ∨ _ ∧ _))

/-- The cache invariant. A valid copy of a log block is what is on disk, except
in the one buffer a committing process is filling. -/
structure CacheOk (filling : Option BufPtr) (store : Store) : Prop where
  unique : ∀ a b, (store.buf a).dev = rootDev → (store.buf b).dev = rootDev →
    (store.buf a).blockno = (store.buf b).blockno → a = b
  holder : ∀ b p, (store.buf b).lock = some p → p ∈ (store.buf b).refs
  dirty : ∀ b, (store.buf b).dirty = true →
    (store.buf b).valid = true ∧ (store.buf b).dev = rootDev
  range : ∀ b, (store.buf b).valid = true → (store.buf b).blockno < fsSize
  coherent : ∀ b, filling ≠ some b → (store.buf b).valid = true → (store.buf b).dev = rootDev →
    store.log.Owns (store.buf b).blockno → (store.buf b).data = store.disk (store.buf b).blockno

end Xv6.Fs
