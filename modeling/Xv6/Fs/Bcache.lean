import Xv6.Fs.Operations
import Xv6.Library.Circular

/-!
# The buffer cache with its linked list

`bio.c` with the pointers of the list of all buffers, used by any number of
processes. What a function does under `bcache.lock` is one step.
-/

namespace Xv6.Fs

open Xv6.Library

/-- `bcache`; a pointer to a buffer that is `none` points to `bcache.head`. -/
structure Bcache where
  buf : BufPtr → Buf
  links : Links BufPtr

namespace Bcache

def setBuf (cache : Bcache) (b : BufPtr) (buffer : Buf) : Bcache :=
  { cache with buf := Function.update cache.buf b buffer }

/-- Create linked list of buffers. -/
def binit (cache : Bcache) : Bcache :=
  let head : Links BufPtr :=
    { next := Function.update cache.links.next none none
      prev := Function.update cache.links.prev none none }
  (List.finRange nbuf).foldl
    (fun cache b =>
      { cache.setBuf b { cache.buf b with lock := none } with links := cache.links.pushFront b })
    { cache with links := head }

/-- The part of `bget` under `bcache.lock`. A list of more than NBUF buffers
would have one twice. -/
def bget (p : Pid) (dev blockno : Nat) (cache : Bcache) : Outcome Bcache BufPtr :=
  -- Is the block already cached?
  match search (fun b => cache.links.next (some b))
      (fun b => (cache.buf b).dev == dev && (cache.buf b).blockno == blockno)
      (nbuf + 1) (cache.links.next none) with
  | some b => .done b (cache.setBuf b { cache.buf b with refs := p :: (cache.buf b).refs })
  | none =>
      -- Not cached; recycle an unused buffer.
      match search (fun b => cache.links.prev (some b))
          (fun b => (cache.buf b).refcnt == 0 && !(cache.buf b).dirty)
          (nbuf + 1) (cache.links.prev none) with
      | some b =>
          .done b (cache.setBuf b
            { cache.buf b with
              dev := dev, blockno := blockno, valid := false, dirty := false, refs := [p] })
      | none => .panic "bget: no buffers"

/-- The part of `brelse` under `bcache.lock`. -/
def bput (p : Pid) (b : BufPtr) (cache : Bcache) : Bcache :=
  let buffer := { cache.buf b with refs := (cache.buf b).refs.erase p }
  { cache.setBuf b buffer with
    links := if buffer.refcnt = 0 then (cache.links.unlink b).pushFront b else cache.links }

end Bcache

/-- Where a process is in a function of `bio.c` or in `log_write`. -/
inductive BioStage where
  | idle
  /-- It waits for the lock of the buffer in `bget`. -/
  | waiting (b : BufPtr)
  /-- It waits for the disk. -/
  | syncing (b : BufPtr)
  /-- It has released the lock of the buffer in `brelse`. -/
  | putting (b : BufPtr)
  /-- It has passed the first test of `log_write`, or both. -/
  | sized (b : BufPtr)
  | checked (b : BufPtr)
deriving DecidableEq

/-- The clock counts the calls of `brelse`, and `released` has the last one for
each buffer. -/
structure Caching where
  cache : Bcache
  log : Log
  stage : Pid → BioStage
  clock : Nat
  released : BufPtr → Nat

inductive CachingEvent where
  /-- `bread` until the block is found or a buffer is recycled. -/
  | bget (p : Pid) (dev blockno : Nat)
  | acquiresleep (p : Pid)
  /-- The disk has served the request, with what it read. -/
  | iderw (p : Pid) (read : Block)
  /-- The holder of a buffer changes the data. -/
  | fill (p : Pid) (b : BufPtr) (data : Block)
  | bwrite (p : Pid) (b : BufPtr)
  | logWrite (p : Pid) (b : BufPtr)
  | logWriteCheck (p : Pid)
  | logWriteAppend (p : Pid)
  /-- The other functions of `log.c` change the log. -/
  | relog (log : Log)
  | brelse (p : Pid) (b : BufPtr)
  | bput (p : Pid)

namespace Caching

def buf (state : Caching) (b : BufPtr) : Buf := state.cache.buf b

def setStage (state : Caching) (p : Pid) (stage : BioStage) : Caching :=
  { state with stage := Function.update state.stage p stage }

def setBuf (state : Caching) (b : BufPtr) (buffer : Buf) : Caching :=
  { state with cache := state.cache.setBuf b buffer }

/-- The caller holds the lock of the buffer, and is in no other call. -/
def Holds (state : Caching) (p : Pid) (b : BufPtr) : Prop :=
  state.stage p = .idle ∧ (state.buf b).lock = some p

instance (state : Caching) (p : Pid) (b : BufPtr) : Decidable (state.Holds p b) :=
  inferInstanceAs (Decidable (_ ∧ _))

def bget (p : Pid) (dev blockno : Nat) (state : Caching) : Outcome Caching Unit :=
  match state.cache.bget p dev blockno with
  | .done b cache => .done () ({ state with cache := cache }.setStage p (.waiting b))
  | .panic message => .panic message
  | .blocked => .blocked

def acquiresleep (p : Pid) (b : BufPtr) (state : Caching) : Outcome Caching Unit :=
  match (state.buf b).lock with
  | some _ => .blocked
  | none =>
      let locked := state.setBuf b { state.buf b with lock := some p }
      -- The rest of `bread`.
      if (state.buf b).valid = false then .done () (locked.setStage p (.syncing b))
      else .done () (locked.setStage p .idle)

/-- The end of `iderw`. -/
def iderw (p : Pid) (b : BufPtr) (read : Block) (state : Caching) : Caching :=
  let buffer := state.buf b
  let data := if buffer.dirty = true then buffer.data else read
  (state.setBuf b { buffer with data := data, valid := true, dirty := false }).setStage p .idle

def bwrite (p : Pid) (b : BufPtr) (state : Caching) : Outcome Caching Unit :=
  if (state.buf b).lock = none then .panic "bwrite"
  else .done () ((state.setBuf b { state.buf b with dirty := true }).setStage p (.syncing b))

def logWrite (p : Pid) (b : BufPtr) (state : Caching) : Outcome Caching Unit :=
  if logSize ≤ state.log.lh.n ∨ (state.log.size : Int) - 1 ≤ state.log.lh.n then
    .panic "too big a transaction"
  else .done () (state.setStage p (.sized b))

def logWriteCheck (p : Pid) (b : BufPtr) (state : Caching) : Outcome Caching Unit :=
  if state.log.outstanding < 1 then .panic "log_write outside of trans"
  else .done () (state.setStage p (.checked b))

/-- The part of `log_write` under `log.lock`. -/
def logWriteAppend (p : Pid) (b : BufPtr) (state : Caching) : Outcome Caching Unit :=
  let buffer := state.buf b
  if logSize ≤ state.log.lh.place buffer.blockno then .panic "log.lh.block out of range"
  else
    let logged :=
      { state with log := { state.log with lh := state.log.lh.append buffer.blockno } }
    .done () ((logged.setBuf b { buffer with dirty := true }).setStage p .idle)

def brelse (p : Pid) (b : BufPtr) (state : Caching) : Outcome Caching Unit :=
  if (state.buf b).lock = none then .panic "brelse"
  else .done () ((state.setBuf b { state.buf b with lock := none }).setStage p (.putting b))

def bput (p : Pid) (b : BufPtr) (state : Caching) : Caching :=
  { state.setStage p .idle with
    cache := state.cache.bput p b
    clock := state.clock + 1
    released := Function.update state.released b (state.clock + 1) }

def step (state : Caching) : CachingEvent → Outcome Caching Unit
  | .bget p dev blockno =>
      match state.stage p with
      | .idle => state.bget p dev blockno
      | _ => .blocked
  | .acquiresleep p =>
      match state.stage p with
      | .waiting b => state.acquiresleep p b
      | _ => .blocked
  | .iderw p read =>
      match state.stage p with
      | .syncing b => .done () (state.iderw p b read)
      | _ => .blocked
  | .fill p b data =>
      if state.Holds p b then .done () (state.setBuf b { state.buf b with data := data })
      else .blocked
  | .bwrite p b => if state.Holds p b then state.bwrite p b else .blocked
  | .logWrite p b => if state.Holds p b then state.logWrite p b else .blocked
  | .logWriteCheck p =>
      match state.stage p with
      | .sized b => state.logWriteCheck p b
      | _ => .blocked
  | .logWriteAppend p =>
      match state.stage p with
      | .checked b => state.logWriteAppend p b
      | _ => .blocked
  | .relog log => .done () { state with log := log }
  | .brelse p b => if state.Holds p b then state.brelse p b else .blocked
  | .bput p =>
      match state.stage p with
      | .putting b => .done () (state.bput p b)
      | _ => .blocked

def next (state : Caching) (event : CachingEvent) : Option Caching := (state.step event).state?

end Caching

end Xv6.Fs
