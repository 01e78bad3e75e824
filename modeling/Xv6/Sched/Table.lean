import Mathlib.Data.Fintype.Basic
import Xv6.Library.Program
import Xv6.Library.Runs

/-!
# The process table and the schedulers

`proc.c` on any number of processors. What runs under `ptable.lock` is one step
up to the release of the lock or to `swtch`, where the lock passes to another
thread; that thread goes on with a step of its own.
-/

namespace Xv6.Sched

open Xv6.Library

/-- NPROC: maximum number of processes -/
def nproc : Nat := 64

theorem one_lt_nproc : 1 < nproc := by decide

abbrev ProcPtr := Fin nproc

/-- `enum procstate` -/
inductive ProcState where
  | unused
  | embryo
  | sleeping
  | runnable
  | running
  | zombie
  deriving DecidableEq

/-- An address that is slept on: a process, or something else. -/
inductive Chan where
  | proc (p : ProcPtr)
  | other (address : Nat)
  deriving DecidableEq

/-- `struct proc`. Of the kernel stack and the page table, whether the process
has one. -/
structure Proc where
  kstack : Bool
  pgdir : Bool
  state : ProcState
  pid : BitVec 32
  parent : Option ProcPtr
  chan : Option Chan
  killed : Bool
  deriving DecidableEq

/-- Where a process is in `fork` and `exit`, outside `ptable.lock`. -/
inductive Place where
  /-- In neither. -/
  | elsewhere
  /-- In `fork`: `np` has an entry; then a stack, a page table, and a parent. -/
  | allocated (np : ProcPtr)
  | stacked (np : ProcPtr)
  | copied (np : ProcPtr)
  | parented (np : ProcPtr)
  /-- In `exit`, closing the files. -/
  | exiting
  deriving DecidableEq

/-- Where the kernel thread of a process is, or goes on when it is switched to. -/
inductive Thread where
  | runs (place : Place)
  | forkret
  | yielded (place : Place)
  /-- In `sleep(chan, lk)` with another lock than `ptable.lock`. -/
  | slept (place : Place)
  /-- In the `sleep` of `wait`. -/
  | waiting
  /-- In the `sched` of `exit`. -/
  | exited
  deriving DecidableEq

/-- What a processor does. -/
inductive Core where
  /-- The scheduler is about to acquire the lock. -/
  | idle
  /-- The scheduler goes on after its `swtch` to `p`, with the lock. -/
  | looping (p : ProcPtr)
  /-- The thread of `p` goes on after a `swtch`, with the lock. -/
  | entering (p : ProcPtr)
  | running (p : ProcPtr)
  deriving DecidableEq

/-- What happened to an entry of the table. -/
inductive EntryEvent where
  | allocated (pid : BitVec 32)
  /-- A `fork` without memory gives the entry back. -/
  | discarded
  | exited (pid : BitVec 32)
  /-- `wait` returned the pid to `parent`. -/
  | reported (parent : ProcPtr) (pid : BitVec 32)
  deriving DecidableEq

structure Ptable (Cpu : Type) where
  /-- The processor that holds `ptable.lock`. -/
  lock : Option Cpu
  proc : ProcPtr → Proc
  nextpid : BitVec 32
  initproc : ProcPtr
  core : Cpu → Core
  /-- `c->proc` -/
  current : Cpu → Option ProcPtr
  thread : ProcPtr → Thread
  /-- What happened to the entries, last first. -/
  log : ProcPtr → List EntryEvent

namespace Ptable

variable {Cpu : Type}

def state (table : Ptable Cpu) (p : ProcPtr) : ProcState := (table.proc p).state

def setProc (table : Ptable Cpu) (p : ProcPtr) (proc : Proc) : Ptable Cpu :=
  { table with proc := Function.update table.proc p proc }

def setState (table : Ptable Cpu) (p : ProcPtr) (state : ProcState) : Ptable Cpu :=
  table.setProc p { table.proc p with state := state }

def setThread (table : Ptable Cpu) (p : ProcPtr) (thread : Thread) : Ptable Cpu :=
  { table with thread := Function.update table.thread p thread }

def record (table : Ptable Cpu) (p : ProcPtr) (event : EntryEvent) : Ptable Cpu :=
  { table with log := Function.update table.log p (event :: table.log p) }

/-- Wake up all processes sleeping on chan. -/
def wakeup1 (chan : Option Chan) (table : Ptable Cpu) : Ptable Cpu :=
  { table with
    proc p := if table.state p = .sleeping ∧ (table.proc p).chan = chan then
        { table.proc p with state := .runnable }
      else table.proc p }

/-- Mark the process with the given pid. -/
def kill (pid : BitVec 32) (table : Ptable Cpu) : Ptable Cpu × Int :=
  match (List.finRange nproc).find? fun p => (table.proc p).pid == pid with
  | some p =>
      (table.setProc p
        { table.proc p with
          killed := true
          -- Wake process from sleep if necessary.
          state := if table.state p = .sleeping then .runnable else table.state p }, 0)
  | none => (table, -1)

section Switches

variable [DecidableEq Cpu]

/-- The lock is released and the process goes on. -/
def release (c : Cpu) (p : ProcPtr) (place : Place) (table : Ptable Cpu) : Ptable Cpu :=
  { table.setThread p (.runs place) with
    lock := none
    core := Function.update table.core c (.running p) }

/-- Switch to the scheduler, which goes on with the lock. -/
def sched (c : Cpu) (p : ProcPtr) (thread : Thread) (table : Ptable Cpu) : Ptable Cpu :=
  { table.setThread p thread with
    lock := some c
    core := Function.update table.core c (.looping p) }

/-- Loop over process table looking for process to run, from `first` on. -/
def dispatch (c : Cpu) (first : Nat) (table : Ptable Cpu) : Ptable Cpu :=
  match (List.finRange nproc).find? fun p => first ≤ p.val && table.state p = .runnable with
  | some p =>
      -- Switch to chosen process.
      { table.setState p .running with
        lock := some c
        core := Function.update table.core c (.entering p)
        current := Function.update table.current c (some p) }
  | none =>
      { table with
        lock := none
        core := Function.update table.core c .idle }

/-- Scan through table looking for exited children. -/
def waitLoop (c : Cpu) (p : ProcPtr) (table : Ptable Cpu) : Ptable Cpu :=
  match (List.finRange nproc).find? fun z =>
      (table.proc z).parent = some p && table.state z = .zombie with
  | some z =>
      let freed := table.setProc z
        { table.proc z with
          kstack := false, pgdir := false, pid := 0, parent := none, killed := false
          state := .unused }
      (freed.record z (.reported p (table.proc z).pid)).release c p .elsewhere
  | none =>
      let havekids := (List.finRange nproc).any fun z => (table.proc z).parent = some p
      if havekids = false ∨ (table.proc p).killed = true then table.release c p .elsewhere
      else
        -- Wait for children to exit.
        (table.setProc p
          { table.proc p with chan := some (.proc p), state := .sleeping }).sched c p .waiting

/-- Pass an abandoned child to init. -/
def abandon (p child : ProcPtr) (table : Ptable Cpu) : Ptable Cpu :=
  if (table.proc child).parent = some p then
    let passed := table.setProc child { table.proc child with parent := some table.initproc }
    if passed.state child = .zombie then passed.wakeup1 (some (.proc table.initproc)) else passed
  else table

/-- The part of `exit` under the lock. -/
def exit (c : Cpu) (p : ProcPtr) (table : Ptable Cpu) : Ptable Cpu :=
  -- Parent might be sleeping in wait().
  let woken := table.wakeup1 ((table.proc p).parent.map Chan.proc)
  let passed := (List.finRange nproc).foldl (fun table child => table.abandon p child) woken
  -- Jump into the scheduler, never to return.
  ((passed.setState p .zombie).record p (.exited (table.proc p).pid)).sched c p .exited

/-- The part of `allocproc` under the lock. -/
def allocproc (p : ProcPtr) (table : Ptable Cpu) : Ptable Cpu :=
  match (List.finRange nproc).find? fun np => table.state np = .unused with
  | some np =>
      let found := table.setProc np
        { table.proc np with state := .embryo, pid := table.nextpid }
      { (found.record np (.allocated table.nextpid)).setThread p (.runs (.allocated np)) with
        nextpid := table.nextpid + 1 }
  | none => table

/-- The process that runs on a processor outside the lock, and where. -/
def runner (table : Ptable Cpu) (c : Cpu) : Option (ProcPtr × Place) :=
  match table.core c with
  | .running p =>
      match table.thread p with
      | .runs place => some (p, place)
      | _ => none
  | _ => none

end Switches

end Ptable

/-- The steps. In `fork` the memory may not suffice. -/
inductive TableEvent (Cpu : Type) where
  | schedule (c : Cpu)
  | loop (c : Cpu)
  | enter (c : Cpu)
  | yield (c : Cpu)
  | sleep (c : Cpu) (address : Nat)
  | wakeup (address : Nat)
  | kill (pid : BitVec 32)
  | wait (c : Cpu)
  | allocproc (c : Cpu)
  | kalloc (c : Cpu) (enough : Bool)
  | copyuvm (c : Cpu) (enough : Bool)
  | parent (c : Cpu)
  | fork (c : Cpu)
  | exiting (c : Cpu)
  | exit (c : Cpu)

namespace Ptable

variable {Cpu : Type} [DecidableEq Cpu]

/-- The entry is given back, without the lock. -/
def discard (p np : ProcPtr) (table : Ptable Cpu) : Ptable Cpu :=
  ((table.setProc np { table.proc np with kstack := false, state := .unused }).record np
    .discarded).setThread p (.runs .elsewhere)

/-- The steps of a process outside the lock and of those that acquire it, which
must be free. -/
def act (table : Ptable Cpu) (c : Cpu) (p : ProcPtr) (place : Place) :
    TableEvent Cpu → Outcome (Ptable Cpu) Unit
  | .yield _ =>
      if table.lock = none then
        .done () ((table.setState p .runnable).sched c p (.yielded place))
      else .blocked
  | .sleep _ address =>
      if table.lock = none then
        .done ()
          ((table.setProc p
            { table.proc p with chan := some (.other address), state := .sleeping }).sched c p
              (.slept place))
      else .blocked
  | .wait _ =>
      if place = .elsewhere ∧ table.lock = none then .done () (table.waitLoop c p) else .blocked
  | .allocproc _ =>
      if place = .elsewhere ∧ table.lock = none then .done () (table.allocproc p) else .blocked
  | .kalloc _ enough =>
      match place with
      | .allocated np =>
          if enough = true then
            -- Set up new context to start executing at forkret.
            .done () (((table.setProc np { table.proc np with kstack := true }).setThread np
              .forkret).setThread p (.runs (.stacked np)))
          else .done () (table.discard p np)
      | _ => .blocked
  | .copyuvm _ enough =>
      match place with
      | .stacked np =>
          if enough = true then
            .done () ((table.setProc np { table.proc np with pgdir := true }).setThread p
              (.runs (.copied np)))
          else .done () (table.discard p np)
      | _ => .blocked
  | .parent _ =>
      match place with
      | .copied np =>
          .done () ((table.setProc np { table.proc np with parent := some p }).setThread p
            (.runs (.parented np)))
      | _ => .blocked
  | .fork _ =>
      match place with
      | .parented np =>
          if table.lock = none then
            .done () ((table.setState np .runnable).setThread p (.runs .elsewhere))
          else .blocked
      | _ => .blocked
  | .exiting _ =>
      if place = .elsewhere then
        if p = table.initproc then .panic "init exiting"
        else .done () (table.setThread p (.runs .exiting))
      else .blocked
  | .exit _ =>
      if place = .exiting ∧ table.lock = none then .done () (table.exit c p) else .blocked
  | _ => .blocked

/-- The thread of `p` goes on after the `swtch` to it. -/
def enter (c : Cpu) (p : ProcPtr) (table : Ptable Cpu) : Outcome (Ptable Cpu) Unit :=
  -- Tidy up.
  let tidy := table.setProc p { table.proc p with chan := none }
  match table.thread p with
  | .forkret => .done () (table.release c p .elsewhere)
  | .yielded place => .done () (table.release c p place)
  | .slept place => .done () (tidy.release c p place)
  | .waiting => .done () (tidy.waitLoop c p)
  | .exited => .panic "zombie exit"
  | .runs _ => .blocked

/-- The processor of a step of a process. -/
def TableEvent.cpu? : TableEvent Cpu → Option Cpu
  | .yield c | .sleep c _ | .wait c | .allocproc c | .kalloc c _ | .copyuvm c _ | .parent c
  | .fork c | .exiting c | .exit c => some c
  | _ => none

def step (table : Ptable Cpu) : TableEvent Cpu → Outcome (Ptable Cpu) Unit
  | .schedule c =>
      if table.core c = .idle ∧ table.lock = none then .done () (table.dispatch c 0) else .blocked
  | .loop c =>
      match table.core c with
      | .looping p =>
          -- Process is done running for now.
          .done () ({ table with current := Function.update table.current c none }.dispatch c (p.val + 1))
      | _ => .blocked
  | .enter c =>
      match table.core c with
      | .entering p => table.enter c p
      | _ => .blocked
  | .wakeup address =>
      if table.lock = none then .done () (table.wakeup1 (some (.other address))) else .blocked
  | .kill pid => if table.lock = none then .done () (table.kill pid).1 else .blocked
  | event =>
      match TableEvent.cpu? event with
      | some c =>
          match table.runner c with
          | some (p, place) => table.act c p place event
          | none => .blocked
      | none => .blocked

def next (table : Ptable Cpu) (event : TableEvent Cpu) : Option (Ptable Cpu) :=
  (table.step event).state?

/-- The table after `userinit`. -/
def boot (initproc : ProcPtr) : Ptable Cpu where
  lock := none
  proc p :=
    if p = initproc then
      { kstack := true, pgdir := true, state := .runnable, pid := 1, parent := none, chan := none
        killed := false }
    else
      { kstack := false, pgdir := false, state := .unused, pid := 0, parent := none, chan := none
        killed := false }
  nextpid := 2
  initproc := initproc
  core _ := .idle
  current _ := none
  thread _ := .forkret
  log p := if p = initproc then [.allocated 1] else []

end Ptable

end Xv6.Sched
