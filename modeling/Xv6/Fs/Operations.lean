import Xv6.Fs.CrashAtomic
import Xv6.Library.Runs

/-!
# Concurrent operations on the log

Any number of processes run file-system operations. A section under `log.lock`
or `bcache.lock` is one step, a commit is a program whose actions interleave
with everything else, and the two tests of `log_write`, which are made without
the lock, are steps of their own.
-/

namespace Xv6.Fs

open Xv6.Library

/-- Where a process is. -/
inductive Pc where
  /-- in no operation -/
  | outside
  /-- in `begin_op`, about to look at the log again -/
  | waiting
  /-- in `begin_op`, asleep on the log -/
  | sleeping
  /-- between `begin_op` and `end_op` -/
  | inside
  /-- in `log_write(b)`, past the test of the size -/
  | sized (b : BufPtr)
  /-- in `log_write(b)`, past both tests -/
  | checked (b : BufPtr)
  /-- in `end_op`, between its two critical sections -/
  | committing (rest : Program Store Unit)

def Pc.InOp : Pc → Prop
  | inside | sized _ | checked _ => True
  | outside | waiting | sleeping | committing _ => False

def Pc.Commits : Pc → Prop
  | committing _ => True
  | _ => False

/-- `record` and `group` are history: the blocks the current operation of a
process has logged, and those all operations since the last commit have. -/
structure System where
  store : Store
  pc : Pid → Pc
  record : Pid → List Nat
  group : List Nat

def System.setPc (system : System) (p : Pid) (pc : Pc) : System :=
  { system with pc := Function.update system.pc p pc }

def System.setLog (system : System) (log : Log) : System :=
  { system with store := { system.store with log := log } }

def wake : Pc → Pc
  | .sleeping => .waiting
  | pc => pc

/-- `wakeup(&log)` -/
def System.wakeup (system : System) : System :=
  { system with pc := fun p => wake (system.pc p) }

/-- One pass of the loop in `begin_op`. -/
def beginOp (p : Pid) (system : System) : Outcome System Unit :=
  let log := system.store.log
  match system.pc p with
  | .outside | .waiting =>
      if log.committing then .done () (system.setPc p .sleeping)
      else if (log.lh.n : Int) + (log.outstanding + 1) * maxOpBlocks > logSize then
        .done () (system.setPc p .sleeping)
      else
        .done ()
          { (system.setLog { log with outstanding := log.outstanding + 1 }).setPc p .inside with
            record := Function.update system.record p [] }
  | _ => .blocked

/-- The first critical section of `end_op`. -/
def endOp (p : Pid) (system : System) : Outcome System Unit :=
  let log := system.store.log
  match system.pc p with
  | .inside =>
      let outstanding := log.outstanding - 1
      if log.committing then .panic "log.committing"
      else if outstanding = 0 then
        .done () ((system.setLog { log with outstanding := outstanding, committing := true }).setPc p
          (.committing (commit p)))
      else .done () ((system.setLog { log with outstanding := outstanding }).wakeup.setPc p .outside)
  | _ => .blocked

/-- The second critical section, once `commit` has returned. -/
def endOpReturn (p : Pid) (system : System) : Outcome System Unit :=
  match system.pc p with
  | .committing (.ret _) =>
      .done ()
        { (system.setLog { system.store.log with committing := false }).wakeup.setPc p .outside with
          group := [] }
  | _ => .blocked

def commitStep (p : Pid) (system : System) : Outcome System Unit :=
  match system.pc p with
  | .committing rest =>
      match rest.step system.store with
      | .blocked => .blocked
      | .panic message => .panic message
      | .done later store => .done () ({ system with store := store }.setPc p (.committing later))
  | _ => .blocked

/-- `log_write(b)`, up to the test of the size. The caller is in an operation
and has the buffer from `bread`; only the log writes log blocks. -/
def logWrite (p : Pid) (b : BufPtr) (system : System) : Outcome System Unit :=
  let log := system.store.log
  let buffer := system.store.buf b
  match system.pc p with
  | .inside =>
      if buffer.lock = some p ∧ buffer.valid = true ∧ buffer.dev = rootDev ∧
          ¬log.Owns buffer.blockno then
        if logSize ≤ log.lh.n ∨ (log.size : Int) - 1 ≤ log.lh.n then
          .panic "too big a transaction"
        else .done () (system.setPc p (.sized b))
      else .blocked
  | _ => .blocked

/-- The second test of `log_write`. -/
def logWriteCheck (p : Pid) (system : System) : Outcome System Unit :=
  match system.pc p with
  | .sized b =>
      if system.store.log.outstanding < 1 then .panic "log_write outside of trans"
      else .done () (system.setPc p (.checked b))
  | _ => .blocked

/-- The index `log_write` stores the block number at. -/
def LogHeader.place (lh : LogHeader) (blockno : Nat) : Nat :=
  ((List.range lh.n).find? fun i => lh.block i == blockno).getD lh.n

def LogHeader.append (lh : LogHeader) (blockno : Nat) : LogHeader where
  n := if lh.place blockno = lh.n then lh.n + 1 else lh.n
  block := Function.update lh.block (lh.place blockno) blockno

/-- The part of `log_write` under `log.lock`. -/
def logWriteAppend (p : Pid) (system : System) : Outcome System Unit :=
  let log := system.store.log
  match system.pc p with
  | .checked b =>
      let buffer := system.store.buf b
      if logSize ≤ log.lh.place buffer.blockno then .panic "log.lh.block out of range"
      else
        .done ()
          { system.setPc p .inside with
            store :=
              { system.store.setBuf b { buffer with dirty := true } with
                log := { log with lh := log.lh.append buffer.blockno } }
            record := Function.update system.record p (buffer.blockno :: system.record p)
            group := buffer.blockno :: system.group }
  | _ => .blocked

/-- What the code between these calls does with buffers: the steps of `bread`
and `brelse`, and, in an operation, changing a home block it holds. -/
inductive Use where
  | scan (blockno : Nat)
  | acquire (b : BufPtr)
  | fetch (b : BufPtr)
  | modify (b : BufPtr) (data : Block)
  | release (b : BufPtr)
  | put (b : BufPtr)

def useBuffer (p : Pid) (inOp : Bool) (store : Store) : Use → Outcome Store Unit
  | .scan blockno =>
      match bgetScan p rootDev blockno store with
      | .blocked => .blocked
      | .panic message => .panic message
      | .done _ next => .done () next
  | .acquire b => if p ∈ (store.buf b).refs then acquiresleep p b store else .blocked
  | .fetch b =>
      if (store.buf b).lock = some p ∧ (store.buf b).valid = false then iderw b store else .blocked
  | .modify b data =>
      if inOp = true ∧ (store.buf b).lock = some p ∧ ¬store.log.Owns (store.buf b).blockno then
        .done () (store.setBuf b { store.buf b with data := data })
      else .blocked
  | .release b => if (store.buf b).lock = some p then releasesleep b store else .blocked
  | .put b =>
      if p ∈ (store.buf b).refs ∧ (store.buf b).lock ≠ some p then bput p b store else .blocked

def bufferStep (p : Pid) (use : Use) (system : System) : Outcome System Unit :=
  let run := fun inOp =>
    (useBuffer p inOp system.store use).mapState fun store => { system with store := store }
  match system.pc p with
  | .outside => run false
  | .inside => run true
  | _ => .blocked

inductive Event where
  | beginOp (p : Pid)
  | logWrite (p : Pid) (b : BufPtr)
  | logWriteCheck (p : Pid)
  | logWriteAppend (p : Pid)
  | endOp (p : Pid)
  | commitStep (p : Pid)
  | endOpReturn (p : Pid)
  | buffer (p : Pid) (use : Use)

def System.step (system : System) : Event → Outcome System Unit
  | .beginOp p => Fs.beginOp p system
  | .logWrite p b => Fs.logWrite p b system
  | .logWriteCheck p => Fs.logWriteCheck p system
  | .logWriteAppend p => Fs.logWriteAppend p system
  | .endOp p => Fs.endOp p system
  | .commitStep p => Fs.commitStep p system
  | .endOpReturn p => Fs.endOpReturn p system
  | .buffer p use => bufferStep p use system

def System.next (system : System) (event : Event) : Option System := (system.step event).state?

/-- Recovery has completed and no process is in an operation. -/
structure Started (system : System) : Prop where
  device : system.store.log.dev = rootDev
  size : logSize ≤ system.store.log.size
  cache : CacheOk none system.store
  count : system.store.log.lh.n = 0
  outstanding : system.store.log.outstanding = 0
  committing : system.store.log.committing = false
  empty : (headerOf (system.store.disk system.store.log.start)).n = 0
  outside : ∀ p, system.pc p = .outside
  group : system.group = []

end Xv6.Fs
