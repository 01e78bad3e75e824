import Xv6.Library.Phases

/-!
# Spin locks

`spinlock.c` as a thread runs it on one processor. Between two statements that
other processors can tell apart the thread is at a `Pc`, so an interrupt or
another processor may come in there.
-/

namespace Xv6.Spin

open Xv6.Library

variable {Proc Cpu Lock : Type}

/-! ## The model -/

/-- `struct spinlock` -/
structure Spinlock (Cpu : Type) where
  locked : Bool
  /-- The cpu holding the lock. -/
  cpu : Option Cpu
  deriving DecidableEq

def initlock : Spinlock Cpu where
  locked := false
  cpu := none

/-- The fields of `struct cpu` that `pushcli` and `popcli` use, and FL_IF in the flags of the
processor. -/
structure Core where
  /-- Depth of pushcli nesting. -/
  ncli : Int
  /-- Were interrupts enabled before pushcli? -/
  intena : Bool
  interrupts : Bool
  deriving DecidableEq

/-- The functions that start with `pushcli`. `switchuvm` is like `myproc` here. -/
inductive Call (Lock : Type) where
  | acquire (lk : Lock)
  | myproc
  deriving DecidableEq

/-- Where a thread is in the functions of `spinlock.c` and in `sched`. -/
inductive Pc (Lock : Type) where
  | outside
  /-- In `pushcli`, with the flags from `readeflags`. -/
  | pushcli (eflags : Bool) (call : Call Lock)
  /-- In `acquire`, at the `xchg`. -/
  | spin (lk : Lock)
  /-- In `acquire`, with the lock. -/
  | record (lk : Lock)
  /-- In `release`, with `lk->cpu` cleared. -/
  | unlock (lk : Lock)
  | popcli
  /-- In `sched`, off the processor, with its `intena`. -/
  | swtch (intena : Bool)
  /-- In `sched`, switched to again. -/
  | restore (intena : Bool)
  /-- Switched to for the first time. -/
  | forkret
  /-- After this many calls of `pushcli` that have no `popcli` yet. -/
  | panicked (message : String) (calls : Nat)
  deriving DecidableEq

/-- Where the scheduler of a processor is in its loop, or goes on after a call. -/
inductive Place (Proc : Type) where
  /-- In the code of a process or of an interrupt. -/
  | elsewhere
  | sti
  | acquire
  | loop
  /-- It has chosen the process. -/
  | chosen (p : Proc)
  deriving DecidableEq

/-- What a thread does, on one level of interrupts. -/
structure Frame (Proc Lock : Type) where
  place : Place Proc
  pc : Pc Lock
  /-- The locks that it has acquired and not released. -/
  held : List Lock
  deriving DecidableEq

/-- In none of these functions, and without a lock. -/
def Frame.idle : Frame Proc Lock where
  place := .elsewhere
  pc := .outside
  held := []

/-- It may call any of these functions. -/
def Frame.Callable (frame : Frame Proc Lock) : Prop :=
  frame.place = .elsewhere ∧ frame.pc = .outside

instance [DecidableEq Proc] [DecidableEq Lock] (frame : Frame Proc Lock) :
    Decidable frame.Callable :=
  inferInstanceAs (Decidable (_ ∧ _))

/-- What the running thread of a processor sees. -/
structure View (Proc Cpu Lock : Type) where
  frame : Frame Proc Lock
  core : Core
  lock : Lock → Spinlock Cpu

/-- A step of the running thread. -/
inductive Act (Lock : Type) where
  | acquire (lk : Lock)
  | release (lk : Lock)
  | myproc
  /-- The next statement of the function that it is in. -/
  | advance
  /-- The loop of the scheduler over the processes ends. -/
  | finish
  deriving DecidableEq

/-- The `pushcli` calls that have no `popcli` yet, without those of the locks that are held. -/
def Pc.calls : Pc Lock → Nat
  | .spin _ => 1
  | .record _ => 1
  | .unlock _ => 1
  | .popcli => 1
  | .panicked _ calls => calls
  | _ => 0

def Core.pushcli (core : Core) (eflags : Bool) : Core where
  ncli := core.ncli + 1
  intena := if core.ncli = 0 then eflags else core.intena
  interrupts := false

namespace View

def goto (v : View Proc Cpu Lock) (pc : Pc Lock) : View Proc Cpu Lock :=
  { v with frame := { v.frame with pc := pc } }

/-- The scheduler goes on at another place. -/
def toPlace (v : View Proc Cpu Lock) (place : Place Proc) : View Proc Cpu Lock :=
  { v with frame := { v.frame with place := place } }

def setInterrupts (v : View Proc Cpu Lock) (interrupts : Bool) : View Proc Cpu Lock :=
  { v with core := { v.core with interrupts := interrupts } }

/-- `panic` disables interrupts and never returns. -/
def panic (v : View Proc Cpu Lock) (message : String) : View Proc Cpu Lock :=
  (v.goto (.panicked message v.frame.pc.calls)).setInterrupts false

/-- `readeflags` in `pushcli`. -/
def call (v : View Proc Cpu Lock) (call : Call Lock) : View Proc Cpu Lock :=
  v.goto (.pushcli v.core.interrupts call)

/-- The rest of `pushcli`. -/
def pushcli (v : View Proc Cpu Lock) (eflags : Bool) (pc : Pc Lock) : View Proc Cpu Lock :=
  { v.goto pc with core := v.core.pushcli eflags }

def popcli (v : View Proc Cpu Lock) : View Proc Cpu Lock :=
  if v.core.interrupts = true then v.panic "popcli - interruptible"
  else
    let core := { v.core with ncli := v.core.ncli - 1 }
    if core.ncli < 0 then { v with core := core }.panic "popcli"
    else
      { v.goto .outside with
        core := if core.ncli = 0 ∧ core.intena = true then { core with interrupts := true }
          else core }

def mycpuMessage : String := "mycpu called with interrupts enabled\n"

variable [DecidableEq Lock]

def setLock (v : View Proc Cpu Lock) (lk : Lock) (spinlock : Spinlock Cpu) :
    View Proc Cpu Lock :=
  { v with lock := Function.update v.lock lk spinlock }

variable [DecidableEq Cpu]

/-- Check whether this cpu is holding the lock; `mycpu` may panic. -/
def holding (c : Cpu) (v : View Proc Cpu Lock) (lk : Lock) : Except String Bool :=
  if (v.lock lk).locked = true then
    if v.core.interrupts = true then .error mycpuMessage
    else .ok (decide ((v.lock lk).cpu = some c))
  else .ok false

/-- `release` up to the barrier. -/
def release (c : Cpu) (v : View Proc Cpu Lock) (lk : Lock) : View Proc Cpu Lock :=
  match v.holding c lk with
  | .error message => v.panic message
  | .ok false => v.panic "release"
  | .ok true =>
      { v.setLock lk { v.lock lk with cpu := none } with
        frame := { v.frame with pc := .unlock lk, held := v.frame.held.erase lk } }

/-- `acquire` from `cli` to the loop. -/
def pushAcquire (c : Cpu) (v : View Proc Cpu Lock) (eflags : Bool) (lk : Lock) :
    View Proc Cpu Lock :=
  let pushed := v.pushcli eflags (.spin lk)
  match pushed.holding c lk with
  | .error message => pushed.panic message
  | .ok true => pushed.panic "acquire"
  | .ok false => pushed

/-- The scheduler's statements outside the functions. -/
def schedule (ptable : Lock) (v : View Proc Cpu Lock) : Option (View Proc Cpu Lock) :=
  match v.frame.place with
  | .sti => some ((v.setInterrupts true).toPlace .acquire)
  | .acquire => some ((v.call (.acquire ptable)).toPlace .loop)
  | _ => none

def advance (ptable : Lock) (c : Cpu) (v : View Proc Cpu Lock) : Option (View Proc Cpu Lock) :=
  match v.frame.pc with
  | .outside => v.schedule ptable
  | .pushcli eflags (.acquire lk) => some (v.pushAcquire c eflags lk)
  | .pushcli eflags .myproc => some (v.pushcli eflags .popcli)
  | .spin lk =>
      -- A lock that is locked is tried again.
      if (v.lock lk).locked = true then none
      else some ((v.setLock lk { v.lock lk with locked := true }).goto (.record lk))
  | .record lk =>
      if v.core.interrupts = true then some (v.panic mycpuMessage)
      else
        some { v.setLock lk { v.lock lk with cpu := some c } with
          frame := { v.frame with pc := .outside, held := lk :: v.frame.held } }
  | .unlock lk => some ((v.setLock lk { v.lock lk with locked := false }).goto .popcli)
  | .popcli => some v.popcli
  | .restore intena =>
      if v.core.interrupts = true then some (v.panic mycpuMessage)
      else some { v.goto .outside with core := { v.core with intena := intena } }
  -- Still holding ptable.lock from scheduler.
  | .forkret => some (v.release c ptable)
  | .swtch _ => none
  | .panicked _ _ => none

end View

variable [DecidableEq Lock] [DecidableEq Cpu] [DecidableEq Proc]

def Act.run (ptable : Lock) (c : Cpu) (v : View Proc Cpu Lock) :
    Act Lock → Option (View Proc Cpu Lock)
  | .acquire lk => if v.frame.Callable then some (v.call (.acquire lk)) else none
  | .release lk => if v.frame.Callable then some (v.release c lk) else none
  | .myproc => if v.frame.Callable then some (v.call .myproc) else none
  | .advance => v.advance ptable c
  | .finish =>
      if v.frame.place = .loop ∧ v.frame.pc = .outside then
        some ((v.toPlace .sti).release c ptable)
      else none

end Xv6.Spin
