import Mathlib.Logic.Function.Basic
import Xv6.Library.Runs

/-!
# Spin locks with sleep and wakeup

Sections of code that run under spin locks, in which a process may sleep on a
channel and wake the sleepers of another. Sleeping takes the lock of the
process table before it gives up the section's lock, and hands it to the
scheduler of its processor; a wakeup takes the lock of the process table too.
A process moves only while a processor runs it, and every acquire, every
release and every switch is a step of its own.
-/

namespace Xv6.Library

/-- What a section does at its next operation on a lock. -/
inductive Monitor.Move (Chan Local : Type) where
  | wakeup (chan : Chan) (next : Local)
  | sleep (chan : Chan) (next : Local)
  | release (next : Local)

def Monitor.Move.next {Chan Local : Type} : Monitor.Move Chan Local → Local
  | .wakeup _ next => next
  | .sleep _ next => next
  | .release next => next

/-- The sections of a program. `Local` is what a process has for itself. -/
structure Monitor (Proc Lock Chan Call Data Local : Type) where
  /-- A call acquires a lock first, if the process may make it. -/
  start : Proc → Local → Call → Option (Lock × Local)
  /-- The code up to the next operation on a lock. It may read whether the
  process was killed. -/
  body : Proc → Bool → Lock → Local → Data → Data × Monitor.Move Chan Local

namespace Monitor

/-- A process outside all sections, or in a section of `lock`. -/
inductive Place (Lock Local : Type) where
  | outside (here : Local)
  | within (lock : Lock) (here : Local)

def Place.here {Lock Local : Type} : Place Lock Local → Local
  | .outside here => here
  | .within _ here => here

/-- Where a process is. -/
inductive Pc (Proc Lock Chan Local : Type) where
  /-- Outside all sections, or at `acquire(lock)`. -/
  | free (place : Place Lock Local)
  | inside (lock : Lock) (here : Local)
  /-- In `wakeup`, at the acquire of the table's lock. -/
  | waking (lock : Lock) (chan : Chan) (here : Local)
  /-- In `wakeup`, with the table's lock. -/
  | rousing (lock : Lock) (chan : Chan) (here : Local)
  /-- In `sleep`, at the acquire of the table's lock. -/
  | falling (lock : Lock) (chan : Chan) (here : Local)
  /-- In `sleep`, with both locks. -/
  | fallen (lock : Lock) (chan : Chan) (here : Local)
  /-- In `sleep`, with the table's lock only. -/
  | dozing (lock : Lock) (chan : Chan) (here : Local)
  /-- In `sleep`, off the processor. -/
  | asleep (lock : Lock) (chan : Chan) (here : Local)
  /-- In `sleep`, switched to again, with the table's lock. -/
  | risen (lock : Lock) (here : Local)
  /-- In `yield`, at the acquire of the table's lock. -/
  | yielding (place : Place Lock Local)
  /-- In `yield`, with the table's lock. -/
  | leaving (place : Place Lock Local)
  /-- In `yield`, off the processor, or never run yet. -/
  | away (place : Place Lock Local)
  /-- Switched to again, with the table's lock. -/
  | returned (place : Place Lock Local)
  /-- In `kill`, at the acquire of the table's lock. -/
  | killing (victim : Proc) (here : Local)
  /-- In `kill`, with the table's lock. -/
  | kills (victim : Proc) (here : Local)

inductive Status where
  | sleeping
  | runnable
  | running
  deriving DecidableEq

/-- What a processor does: its scheduler waits for the table's lock, or has it
and looks for a process, or a process runs. -/
inductive Processor (Proc : Type) where
  | idle
  | picking
  | running (proc : Proc)
  deriving DecidableEq

/-- The owner of the table's lock. -/
inductive Owner (Proc Cpu : Type) where
  | proc (proc : Proc)
  | cpu (cpu : Cpu)
  deriving DecidableEq

/-- The steps of the processors. -/
inductive Event (Proc Cpu Call : Type) where
  | call (cpu : Cpu) (call : Call)
  | kill (cpu : Cpu) (victim : Proc)
  | timer (cpu : Cpu)
  | advance (cpu : Cpu)
  | schedule (cpu : Cpu)
  | switch (cpu : Cpu) (proc : Proc)
  | unschedule (cpu : Cpu)

variable {Proc Cpu Lock Chan Call Data Local : Type}

structure State (Proc Cpu Lock Chan Data Local : Type) where
  owner : Lock → Option Proc
  table : Option (Owner Proc Cpu)
  data : Lock → Data
  pc : Proc → Pc Proc Lock Chan Local
  status : Proc → Status
  chan : Proc → Option Chan
  killed : Proc → Bool
  cpu : Cpu → Processor Proc

namespace State

variable [DecidableEq Proc]

def setPc (state : State Proc Cpu Lock Chan Data Local) (p : Proc) (pc : Pc Proc Lock Chan Local) :
    State Proc Cpu Lock Chan Data Local :=
  { state with pc := Function.update state.pc p pc }

/-- `acquire` of the table's lock. -/
def takeTable (state : State Proc Cpu Lock Chan Data Local) (p : Proc)
    (pc : Pc Proc Lock Chan Local) : Option (State Proc Cpu Lock Chan Data Local) :=
  match state.table with
  | none => some { state.setPc p pc with table := some (.proc p) }
  | some _ => none

/-- The lock of the table was free. -/
theorem takeTable_eq {s next : State Proc Cpu Lock Chan Data Local} {p : Proc}
    {pc : Pc Proc Lock Chan Local} (took : s.takeTable p pc = some next) :
    s.table = none ∧ next = { s.setPc p pc with table := some (.proc p) } := by
  unfold takeTable at took
  split at took
  · rename_i free
    cases took
    exact ⟨free, rfl⟩
  · cases took

/-- `release` of the table's lock. -/
def giveTable (state : State Proc Cpu Lock Chan Data Local) (p : Proc)
    (pc : Pc Proc Lock Chan Local) : State Proc Cpu Lock Chan Data Local :=
  { state.setPc p pc with table := none }

/-- `sched()`: the scheduler of the processor goes on, with the table's lock. -/
def sched [DecidableEq Cpu] (state : State Proc Cpu Lock Chan Data Local) (c : Cpu) (p : Proc)
    (pc : Pc Proc Lock Chan Local) : State Proc Cpu Lock Chan Data Local :=
  { state.setPc p pc with
    table := some (.cpu c)
    cpu := Function.update state.cpu c .picking }

def setStatus (state : State Proc Cpu Lock Chan Data Local) (p : Proc) (status : Status) :
    State Proc Cpu Lock Chan Data Local :=
  { state with status := Function.update state.status p status }

def setChan (state : State Proc Cpu Lock Chan Data Local) (p : Proc) (chan : Option Chan) :
    State Proc Cpu Lock Chan Data Local :=
  { state with chan := Function.update state.chan p chan }

/-- All sleepers on the channel become runnable. -/
def wakeup1 [DecidableEq Chan] (state : State Proc Cpu Lock Chan Data Local) (chan : Chan) :
    State Proc Cpu Lock Chan Data Local :=
  { state with
    status p := if state.status p = .sleeping ∧ state.chan p = some chan then .runnable
      else state.status p }

/-- The victim is marked, and wakes if it sleeps. -/
def kill (state : State Proc Cpu Lock Chan Data Local) (victim : Proc) :
    State Proc Cpu Lock Chan Data Local :=
  { state with
    killed := Function.update state.killed victim true
    status := Function.update state.status victim
      (if state.status victim = .sleeping then .runnable else state.status victim) }

end State

section Steps

variable [DecidableEq Proc] [DecidableEq Cpu] [DecidableEq Lock] [DecidableEq Chan]
  (monitor : Monitor Proc Lock Chan Call Data Local)

/-- One piece of a section. -/
def piece (state : State Proc Cpu Lock Chan Data Local) (p : Proc) (lock : Lock) (here : Local) :
    State Proc Cpu Lock Chan Data Local :=
  let (data, move) := monitor.body p (state.killed p) lock here (state.data lock)
  let stored := { state with data := Function.update state.data lock data }
  match move with
  | .wakeup chan next => stored.setPc p (.waking lock chan next)
  | .sleep chan next => stored.setPc p (.falling lock chan next)
  | .release next =>
      { stored.setPc p (.free (.outside next)) with
        owner := Function.update state.owner lock none }

/-- The next step of process `p`, which runs on processor `c`. -/
def advance (state : State Proc Cpu Lock Chan Data Local) (c : Cpu) (p : Proc) :
    Option (State Proc Cpu Lock Chan Data Local) :=
  match state.pc p with
  | .free (.outside _) => none
  | .free (.within lock here) =>
      match state.owner lock with
      | none =>
          some { state.setPc p (.inside lock here) with
            owner := Function.update state.owner lock (some p) }
      | some _ => none
  | .inside lock here => some (monitor.piece state p lock here)
  | .waking lock chan here => state.takeTable p (.rousing lock chan here)
  | .rousing lock chan here => some ((state.wakeup1 chan).giveTable p (.inside lock here))
  | .falling lock chan here => state.takeTable p (.fallen lock chan here)
  | .fallen lock chan here =>
      some { state.setPc p (.dozing lock chan here) with
        owner := Function.update state.owner lock none }
  | .dozing lock chan here =>
      some (((state.setChan p (some chan)).setStatus p .sleeping).sched c p
        (.asleep lock chan here))
  | .asleep _ _ _ => none
  | .risen lock here => some ((state.setChan p none).giveTable p (.free (.within lock here)))
  | .yielding place => state.takeTable p (.leaving place)
  | .leaving place => some ((state.setStatus p .runnable).sched c p (.away place))
  | .away _ => none
  | .returned place => some (state.giveTable p (.free place))
  | .killing victim here => state.takeTable p (.kills victim here)
  | .kills victim here => some ((state.kill victim).giveTable p (.free (.outside here)))

/-- Where a process goes on when it is switched to. -/
def Pc.resume : Pc Proc Lock Chan Local → Option (Pc Proc Lock Chan Local)
  | .asleep lock _ here => some (.risen lock here)
  | .away place => some (.returned place)
  | _ => none

def step (state : State Proc Cpu Lock Chan Data Local) :
    Event Proc Cpu Call → Option (State Proc Cpu Lock Chan Data Local)
  | .call c call =>
      match state.cpu c with
      | .running p =>
          match state.pc p with
          | .free (.outside here) =>
              (monitor.start p here call).map fun (lock, next) =>
                state.setPc p (.free (.within lock next))
          | _ => none
      | _ => none
  | .kill c victim =>
      match state.cpu c with
      | .running p =>
          match state.pc p with
          | .free (.outside here) => some (state.setPc p (.killing victim here))
          | _ => none
      | _ => none
  | .timer c =>
      match state.cpu c with
      | .running p =>
          match state.pc p with
          | .free place => some (state.setPc p (.yielding place))
          | _ => none
      | _ => none
  | .advance c =>
      match state.cpu c with
      | .running p => monitor.advance state c p
      | _ => none
  | .schedule c =>
      if state.cpu c = .idle ∧ state.table = none then
        some { state with
          table := some (.cpu c)
          cpu := Function.update state.cpu c .picking }
      else none
  | .switch c p =>
      if state.cpu c = .picking ∧ state.status p = .runnable then
        (Pc.resume (state.pc p)).map fun pc =>
          { (state.setStatus p .running).setPc p pc with
            table := some (.proc p)
            cpu := Function.update state.cpu c (.running p) }
      else none
  | .unschedule c =>
      if state.cpu c = .picking then
        some { state with
          table := none
          cpu := Function.update state.cpu c .idle }
      else none


/-- Where a process goes on when it gets the lock of the table. -/
def Pc.taken : Pc Proc Lock Chan Local → Option (Pc Proc Lock Chan Local)
  | .waking lock chan here => some (.rousing lock chan here)
  | .falling lock chan here => some (.fallen lock chan here)
  | .yielding place => some (.leaving place)
  | .killing victim here => some (.kills victim here)
  | _ => none

/-- What a step can do. -/
inductive Steps (s : State Proc Cpu Lock Chan Data Local) :
    Event Proc Cpu Call → State Proc Cpu Lock Chan Data Local → Prop where
  | call {c p here call lock next} (runs : s.cpu c = .running p)
      (was : s.pc p = .free (.outside here)) (starts : monitor.start p here call = some (lock, next)) :
      Steps s (.call c call) (s.setPc p (.free (.within lock next)))
  | kill {c p here victim} (runs : s.cpu c = .running p) (was : s.pc p = .free (.outside here)) :
      Steps s (.kill c victim) (s.setPc p (.killing victim here))
  | timer {c p place} (runs : s.cpu c = .running p) (was : s.pc p = .free place) :
      Steps s (.timer c) (s.setPc p (.yielding place))
  | enter {c p lock here} (runs : s.cpu c = .running p)
      (was : s.pc p = .free (.within lock here)) (free : s.owner lock = none) :
      Steps s (.advance c) { s.setPc p (.inside lock here) with
        owner := Function.update s.owner lock (some p) }
  | piece {c p lock here} (runs : s.cpu c = .running p) (was : s.pc p = .inside lock here) :
      Steps s (.advance c) (monitor.piece s p lock here)
  | take {c p pc} (runs : s.cpu c = .running p) (was : (s.pc p).taken = some pc)
      (free : s.table = none) :
      Steps s (.advance c) { s.setPc p pc with table := some (.proc p) }
  | rouse {c p lock chan here} (runs : s.cpu c = .running p)
      (was : s.pc p = .rousing lock chan here) :
      Steps s (.advance c) ((s.wakeup1 chan).giveTable p (.inside lock here))
  | fall {c p lock chan here} (runs : s.cpu c = .running p)
      (was : s.pc p = .fallen lock chan here) :
      Steps s (.advance c) { s.setPc p (.dozing lock chan here) with
        owner := Function.update s.owner lock none }
  | doze {c p lock chan here} (runs : s.cpu c = .running p)
      (was : s.pc p = .dozing lock chan here) :
      Steps s (.advance c) (((s.setChan p (some chan)).setStatus p .sleeping).sched c p
        (.asleep lock chan here))
  | rise {c p lock here} (runs : s.cpu c = .running p) (was : s.pc p = .risen lock here) :
      Steps s (.advance c) ((s.setChan p none).giveTable p (.free (.within lock here)))
  | leave {c p place} (runs : s.cpu c = .running p) (was : s.pc p = .leaving place) :
      Steps s (.advance c) ((s.setStatus p .runnable).sched c p (.away place))
  | goOn {c p place} (runs : s.cpu c = .running p) (was : s.pc p = .returned place) :
      Steps s (.advance c) (s.giveTable p (.free place))
  | kills {c p victim here} (runs : s.cpu c = .running p) (was : s.pc p = .kills victim here) :
      Steps s (.advance c) ((s.kill victim).giveTable p (.free (.outside here)))
  | schedule {c} (was : s.cpu c = .idle) (free : s.table = none) :
      Steps s (.schedule c) { s with
        table := some (.cpu c)
        cpu := Function.update s.cpu c .picking }
  | switch {c p pc} (was : s.cpu c = .picking) (runnable : s.status p = .runnable)
      (resumes : (s.pc p).resume = some pc) :
      Steps s (.switch c p) { (s.setStatus p .running).setPc p pc with
        table := some (.proc p)
        cpu := Function.update s.cpu c (.running p) }
  | unschedule {c} (was : s.cpu c = .picking) :
      Steps s (.unschedule c) { s with
        table := none
        cpu := Function.update s.cpu c .idle }

variable {monitor} {s next : State Proc Cpu Lock Chan Data Local} {event : Event Proc Cpu Call}

theorem advance_steps {c : Cpu} {p : Proc} (runs : s.cpu c = .running p)
    (stepped : monitor.advance s c p = some next) : monitor.Steps s (.advance c) next := by
  unfold advance at stepped
  have take : ∀ {pc}, (s.pc p).taken = some pc → s.takeTable p pc = some next →
      monitor.Steps s (.advance c) next := by
    intro pc was took
    rcases State.takeTable_eq took with ⟨free, rfl⟩
    exact .take runs was free
  split at stepped
  · cases stepped
  · split at stepped
    · cases stepped
      exact .enter runs ‹_› ‹_›
    · cases stepped
  · cases stepped
    exact .piece runs ‹_›
  · rename_i was
    exact take (by rw [was]; rfl) stepped
  · cases stepped
    exact .rouse runs ‹_›
  · rename_i was
    exact take (by rw [was]; rfl) stepped
  · cases stepped
    exact .fall runs ‹_›
  · cases stepped
    exact .doze runs ‹_›
  · cases stepped
  · cases stepped
    exact .rise runs ‹_›
  · rename_i was
    exact take (by rw [was]; rfl) stepped
  · cases stepped
    exact .leave runs ‹_›
  · cases stepped
  · cases stepped
    exact .goOn runs ‹_›
  · rename_i was
    exact take (by rw [was]; rfl) stepped
  · cases stepped
    exact .kills runs ‹_›

theorem step_steps (stepped : monitor.step s event = some next) : monitor.Steps s event next := by
  unfold step at stepped
  split at stepped
  · split at stepped
    · split at stepped
      · rcases Option.map_eq_some_iff.mp stepped with ⟨⟨lock, here⟩, starts, rfl⟩
        exact .call ‹_› ‹_› starts
      · cases stepped
    · cases stepped
  · split at stepped
    · split at stepped
      · cases stepped
        exact .kill ‹_› ‹_›
      · cases stepped
    · cases stepped
  · split at stepped
    · split at stepped
      · cases stepped
        exact .timer ‹_› ‹_›
      · cases stepped
    · cases stepped
  · split at stepped
    · exact advance_steps ‹_› stepped
    · cases stepped
  · split at stepped
    · rename_i both
      cases stepped
      exact .schedule both.1 both.2
    · cases stepped
  · split at stepped
    · rename_i both
      rcases Option.map_eq_some_iff.mp stepped with ⟨pc, resumes, rfl⟩
      exact .switch both.1 both.2 resumes
    · cases stepped
  · split at stepped
    · cases stepped
      exact .unschedule ‹_›
    · cases stepped

end Steps

/-- Every process is runnable and outside all sections. -/
def boot (data : Lock → Data) (here : Proc → Local) : State Proc Cpu Lock Chan Data Local where
  owner _ := none
  table := none
  data := data
  pc p := .away (.outside (here p))
  status _ := .runnable
  chan _ := none
  killed _ := false
  cpu _ := .idle

end Monitor

end Xv6.Library
