import Xv6.Library.Runs
import Xv6.Sched.Table
import Xv6.Spin.Nesting

/-!
# Threads that share processors

`sched` and `scheduler` of `proc.c` with any number of processes and processors,
and the interrupts that come in between. A kernel thread is never used again, so
a process of the model is one life of an entry of the process table.
-/

namespace Xv6.Spin

open Xv6.Library

variable {Proc Cpu Lock : Type}

/-! ## The model -/

/-- The kernel thread of a process, or the scheduler of a processor. -/
inductive Thread (Proc Cpu : Type) where
  | proc (p : Proc)
  | scheduler (c : Cpu)
  deriving DecidableEq

structure State (Proc Cpu Lock : Type) where
  lock : Lock → Spinlock Cpu
  core : Cpu → Core
  /-- The thread that runs. -/
  current : Cpu → Thread Proc Cpu
  /-- What a thread does, with the last interrupt first; nothing before it is made. -/
  frames : Thread Proc Cpu → List (Frame Proc Lock)
  /-- `p->state` -/
  state : Proc → Sched.ProcState

inductive Event (Proc Cpu Lock : Type) where
  | act (c : Cpu) (act : Act Lock)
  /-- `trapret` to user space, and back with a system call. -/
  | user (c : Cpu)
  | interrupt (c : Cpu)
  /-- The end of an interrupt. -/
  | iret (c : Cpu)
  /-- The scheduler finds a process. -/
  | choose (c : Cpu) (p : Proc)
  /-- The scheduler switches to the process that it has chosen. -/
  | swtch (c : Cpu)
  /-- The process sets its state and calls `sched`. -/
  | sched (c : Cpu) (state : Sched.ProcState)
  /-- `wakeup1` or `kill`, of one process. -/
  | wakeup (c : Cpu) (p : Proc)
  /-- The end of `fork`. -/
  | fork (c : Cpu) (p : Proc)

/-- Where a thread goes on when it is switched to. -/
def Pc.resume : Pc Lock → Option (Pc Lock)
  | .swtch intena => some (.restore intena)
  | .forkret => some .forkret
  | _ => none

/-- The checks of `sched`, for a process in the given state: the message of the one that fails. -/
def View.schedCheck [DecidableEq Cpu] (ptable : Lock) (c : Cpu) (state : Sched.ProcState)
    (v : View Proc Cpu Lock) : Option String :=
  match v.holding c ptable with
  | .error message => some message
  | .ok false => some "sched ptable.lock"
  | .ok true =>
      if v.core.ncli ≠ 1 then some "sched locks"
      else if state = .running then some "sched running"
      else if v.core.interrupts = true then some "sched interruptible"
      else none

/-- The first thing that a new thread does is `forkret`, when the scheduler has `ptable.lock`. -/
def Frame.newborn (ptable : Lock) : Frame Proc Lock where
  place := .elsewhere
  pc := .forkret
  held := [ptable]

/-- The scheduler while a process runs. -/
def Frame.looping (ptable : Lock) : Frame Proc Lock where
  place := .loop
  pc := .outside
  held := [ptable]

namespace State

def view (s : State Proc Cpu Lock) (c : Cpu) (frame : Frame Proc Lock) : View Proc Cpu Lock where
  frame := frame
  core := s.core c
  lock := s.lock

variable [DecidableEq Proc] [DecidableEq Cpu]

/-- The running thread has moved. -/
def put (s : State Proc Cpu Lock) (c : Cpu) (v : View Proc Cpu Lock)
    (below : List (Frame Proc Lock)) : State Proc Cpu Lock :=
  { s with
    lock := v.lock
    core := Function.update s.core c v.core
    frames := Function.update s.frames (s.current c) (v.frame :: below) }

def setState (s : State Proc Cpu Lock) (p : Proc) (state : Sched.ProcState) :
    State Proc Cpu Lock :=
  { s with state := Function.update s.state p state }

def setFrames (s : State Proc Cpu Lock) (t : Thread Proc Cpu) (frames : List (Frame Proc Lock)) :
    State Proc Cpu Lock :=
  { s with frames := Function.update s.frames t frames }

/-- `swtch`: another thread goes on. -/
def goOn (s : State Proc Cpu Lock) (c : Cpu) (t : Thread Proc Cpu) : State Proc Cpu Lock :=
  { s with current := Function.update s.current c t }

/-- The running code holds `ptable.lock`, outside the functions of `spinlock.c`. -/
def HasTable (s : State Proc Cpu Lock) (ptable : Lock) (c : Cpu) : Prop :=
  ∃ top ∈ (s.frames (s.current c)).head?,
    top.Callable ∧ (s.view c top).holding c ptable = .ok true

variable [DecidableEq Lock]

instance (s : State Proc Cpu Lock) (ptable : Lock) (c : Cpu) : Decidable (s.HasTable ptable c) :=
  match found : (s.frames (s.current c)).head? with
  | none => isFalse (by simp [HasTable, found])
  | some top =>
      decidable_of_iff (top.Callable ∧ (s.view c top).holding c ptable = .ok true)
        (by simp [HasTable, found])

end State

variable [DecidableEq Proc] [DecidableEq Cpu] [DecidableEq Lock]

def step (ptable : Lock) (s : State Proc Cpu Lock) :
    Event Proc Cpu Lock → Option (State Proc Cpu Lock)
  | .act c act =>
      match s.frames (s.current c) with
      | top :: below => (act.run ptable c (s.view c top)).map fun v => s.put c v below
      | [] => none
  | .user c =>
      match s.current c with
      | .proc _ =>
          if s.frames (s.current c) = [.idle] then
            some (s.put c ((s.view c .idle).setInterrupts true) [])
          else none
      | .scheduler _ => none
  | .interrupt c =>
      match s.frames (s.current c) with
      | top :: below =>
          if (s.core c).interrupts = true then
            some (s.put c ((s.view c .idle).setInterrupts false) (top :: below))
          else none
      | [] => none
  | .iret c =>
      match s.frames (s.current c) with
      | top :: next :: below =>
          -- A handler gives back the locks that it took.
          if top = .idle then some (s.put c ((s.view c next).setInterrupts true) below) else none
      | _ => none
  | .choose c p =>
      match s.frames (s.current c) with
      | top :: below =>
          if top.place = .loop ∧ top.pc = .outside ∧ s.state p = .runnable then
            -- It goes on in `switchuvm`.
            some (s.put c (((s.view c top).call .myproc).toPlace (.chosen p)) below)
          else none
      | [] => none
  | .swtch c =>
      match s.frames (s.current c) with
      | ⟨.chosen p, .outside, held⟩ :: below =>
          match s.frames (.proc p) with
          | first :: rest =>
              first.pc.resume.map fun pc =>
                (((s.setFrames (s.current c) (⟨.loop, .outside, held⟩ :: below)).setFrames
                  (.proc p) ({ first with pc := pc } :: rest)).setState p .running).goOn c (.proc p)
          | [] => none
      | _ => none
  | .sched c state =>
      match s.current c, s.frames (s.current c) with
      | .proc p, top :: below =>
          if top.Callable then
            match (s.view c top).schedCheck ptable c state with
            | some message => some ((s.put c ((s.view c top).panic message) below).setState p state)
            | none =>
                some (((s.setFrames (.proc p)
                  ({ top with pc := .swtch (s.core c).intena } :: below)).setState p state).goOn c
                    (.scheduler c))
          else none
      | _, _ => none
  | .wakeup c p =>
      if s.HasTable ptable c ∧ s.state p = .sleeping then some (s.setState p .runnable) else none
  | .fork c p =>
      if s.HasTable ptable c ∧ s.frames (.proc p) = [] then
        some ((s.setFrames (.proc p) [.newborn ptable]).setState p .runnable)
      else none

/-- `userinit` has made the first process, and the schedulers are about to start. -/
def boot (ptable : Lock) (initproc : Proc) : State Proc Cpu Lock where
  lock _ := initlock
  core _ := { ncli := 0, intena := false, interrupts := false }
  current c := .scheduler c
  frames
    | .proc p => if p = initproc then [.newborn ptable] else []
    | .scheduler _ => [{ place := .sti, pc := .outside, held := [] }]
  state p := if p = initproc then .runnable else .unused

/-! ## What a step can do -/

inductive Steps (ptable : Lock) (s : State Proc Cpu Lock) :
    Event Proc Cpu Lock → State Proc Cpu Lock → Prop where
  | act {c act top below v} (frames : s.frames (s.current c) = top :: below)
      (ran : act.run ptable c (s.view c top) = some v) : Steps ptable s (.act c act) (s.put c v below)
  | user {c p} (current : s.current c = .proc p) (frames : s.frames (s.current c) = [.idle]) :
      Steps ptable s (.user c) (s.put c ((s.view c .idle).setInterrupts true) [])
  | interrupt {c top below} (frames : s.frames (s.current c) = top :: below)
      (on : (s.core c).interrupts = true) :
      Steps ptable s (.interrupt c)
        (s.put c ((s.view c .idle).setInterrupts false) (top :: below))
  | iret {c next below} (frames : s.frames (s.current c) = .idle :: next :: below) :
      Steps ptable s (.iret c) (s.put c ((s.view c next).setInterrupts true) below)
  | choose {c p top below} (frames : s.frames (s.current c) = top :: below)
      (place : top.place = .loop) (here : top.pc = .outside) (runnable : s.state p = .runnable) :
      Steps ptable s (.choose c p)
        (s.put c (((s.view c top).call .myproc).toPlace (.chosen p)) below)
  | swtch {c p held below first rest pc}
      (frames : s.frames (s.current c) = ⟨.chosen p, .outside, held⟩ :: below)
      (waits : s.frames (.proc p) = first :: rest) (resumes : first.pc.resume = some pc) :
      Steps ptable s (.swtch c)
        ((((s.setFrames (s.current c) (⟨.loop, .outside, held⟩ :: below)).setFrames
          (.proc p) ({ first with pc := pc } :: rest)).setState p .running).goOn c (.proc p))
  | sched {c p state top below} (current : s.current c = .proc p)
      (frames : s.frames (s.current c) = top :: below) (free : top.Callable)
      (passes : (s.view c top).schedCheck ptable c state = none) :
      Steps ptable s (.sched c state)
        (((s.setFrames (.proc p)
          ({ top with pc := .swtch (s.core c).intena } :: below)).setState p state).goOn c
            (.scheduler c))
  | panics {c p state top below message} (current : s.current c = .proc p)
      (frames : s.frames (s.current c) = top :: below) (free : top.Callable) :
      Steps ptable s (.sched c state)
        ((s.put c ((s.view c top).panic message) below).setState p state)
  | wakeup {c p} (sleeps : s.state p = .sleeping) :
      Steps ptable s (.wakeup c p) (s.setState p .runnable)
  | fork {c p} (unborn : s.frames (.proc p) = []) :
      Steps ptable s (.fork c p)
        ((s.setFrames (.proc p) [.newborn ptable]).setState p .runnable)

theorem step_steps {ptable : Lock} {s next : State Proc Cpu Lock} {event : Event Proc Cpu Lock}
    (stepped : step ptable s event = some next) : Steps ptable s event next := by
  cases event with
  | act c act =>
      simp only [step] at stepped
      split at stepped
      · obtain ⟨v, ran, rfl⟩ := Option.map_eq_some_iff.mp stepped
        exact .act ‹_› ran
      · cases stepped
  | user c =>
      simp only [step] at stepped
      split at stepped
      · simp only [Option.ite_none_right_eq_some, Option.some.injEq] at stepped
        obtain ⟨frames, rfl⟩ := stepped
        exact .user ‹_› frames
      · cases stepped
  | interrupt c =>
      simp only [step] at stepped
      split at stepped
      · simp only [Option.ite_none_right_eq_some, Option.some.injEq] at stepped
        obtain ⟨on, rfl⟩ := stepped
        exact .interrupt ‹_› on
      · cases stepped
  | iret c =>
      simp only [step] at stepped
      split at stepped
      · simp only [Option.ite_none_right_eq_some, Option.some.injEq] at stepped
        obtain ⟨rfl, rfl⟩ := stepped
        exact .iret ‹_›
      · cases stepped
  | choose c p =>
      simp only [step] at stepped
      split at stepped
      · simp only [Option.ite_none_right_eq_some, Option.some.injEq] at stepped
        obtain ⟨⟨place, here, runnable⟩, rfl⟩ := stepped
        exact .choose ‹_› place here runnable
      · cases stepped
  | swtch c =>
      simp only [step] at stepped
      split at stepped
      · split at stepped
        · obtain ⟨pc, resumes, rfl⟩ := Option.map_eq_some_iff.mp stepped
          exact .swtch ‹_› ‹_› resumes
        · cases stepped
      · cases stepped
  | sched c state =>
      simp only [step] at stepped
      split at stepped
      · split at stepped
        · split at stepped
          · cases stepped
            exact .panics ‹_› ‹_› ‹_›
          · cases stepped
            exact .sched ‹_› ‹_› ‹_› ‹_›
        · cases stepped
      · cases stepped
  | wakeup c p =>
      simp only [step, Option.ite_none_right_eq_some, Option.some.injEq] at stepped
      obtain ⟨⟨-, sleeps⟩, rfl⟩ := stepped
      exact .wakeup sleeps
  | fork c p =>
      simp only [step, Option.ite_none_right_eq_some, Option.some.injEq] at stepped
      obtain ⟨⟨-, unborn⟩, rfl⟩ := stepped
      exact .fork unborn

end Xv6.Spin
