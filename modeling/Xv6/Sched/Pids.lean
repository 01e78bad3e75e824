import Mathlib.Algebra.Order.Ring.Nat
import Xv6.Sched.Parents

/-!
# Process identifiers

A pid is taken from `nextpid`, a signed counter that only ever grows. As long as
it has not wrapped around, the pids in use are the positive numbers below it,
each used once.
-/

namespace Xv6.Sched

open Xv6.Library

/-- The pid of an entry in use. -/
def Phase.pid : Phase → Option (BitVec 32)
  | .free => none
  | .used pid | .dead pid => some pid

theorem Proc.phase_pid {proc : Proc} {pid : BitVec 32} :
    proc.phase.pid = some pid ↔ proc.state ≠ .unused ∧ proc.pid = pid := by
  unfold Proc.phase
  cases proc.state <;> simp [Phase.pid]

/-- An entry that is in use after an event was allocated by it, or had its pid before. -/
theorem phase_kept {log : List EntryEvent} {event : EntryEvent} {after : Phase}
    {pid : BitVec 32} (leads : phase (event :: log) = some after) (used : after.pid = some pid) :
    event = .allocated pid ∨ ∃ before, phase log = some before ∧ before.pid = some pid := by
  cases event with
  | allocated taken =>
      rw [phase] at leads
      split at leads
      · cases leads
        cases used
        exact Or.inl rfl
      · cases leads
  | discarded =>
      rw [phase] at leads
      split at leads
      · cases leads
        cases used
      · cases leads
  | exited exitedPid =>
      rw [phase] at leads
      split at leads
      · rename_i before
        cases leads
        cases used
        exact Or.inr ⟨_, before, rfl⟩
      · cases leads
  | reported q reportedPid =>
      rw [phase] at leads
      split at leads
      · cases leads
        cases used
      · cases leads

namespace Ptable

variable {Cpu : Type} {table after : Ptable Cpu} {c : Cpu} {p : ProcPtr}

/-! ## The counter -/

/-- A step takes a pid for an entry, or none. -/
inductive Takes (table after : Ptable Cpu) : Prop where
  | none (counter : after.nextpid = table.nextpid)
      (logs : ∀ q pid, after.log q ≠ .allocated pid :: table.log q)
  | one (np : ProcPtr) (free : table.state np = .unused)
      (counter : after.nextpid = table.nextpid + 1)
      (logs : after.log =
        Function.update table.log np (.allocated table.nextpid :: table.log np))

theorem Takes.quiet (counter : after.nextpid = table.nextpid) (log : after.log = table.log) :
    table.Takes after := by
  apply Takes.none counter
  intro q pid logged
  rw [log] at logged
  exact List.cons_ne_self _ _ logged.symm

/-- Another event of one entry. -/
theorem Takes.record {event : EntryEvent} (counter : after.nextpid = table.nextpid)
    (log : after.log = Function.update table.log p (event :: table.log p))
    (other : ∀ pid, event ≠ .allocated pid) : table.Takes after := by
  apply Takes.none counter
  intro q pid logged
  rw [log] at logged
  by_cases same : q = p
  · subst same
    rw [Function.update_self] at logged
    injection logged with equal
    exact other pid equal
  · rw [Function.update_of_ne same] at logged
    exact List.cons_ne_self _ _ logged.symm

variable [DecidableEq Cpu]

theorem waitLoop_takes (c : Cpu) (p : ProcPtr) (table : Ptable Cpu) :
    table.Takes (table.waitLoop c p) := by
  obtain ⟨z, -, -, same⟩ | ⟨-, same | same⟩ := waitLoop_cases c p table
  · rw [same]
    exact Takes.record rfl rfl nofun
  · rw [same]
    exact Takes.quiet rfl rfl
  · rw [same]
    exact Takes.quiet rfl rfl

theorem Moves.takes (moves : table.Moves after) : table.Takes after := by
  cases moves with
  | schedule idle free =>
      obtain ⟨p, -, same⟩ | same := dispatch_cases _ 0 table
      · rw [same]
        exact Takes.quiet rfl rfl
      · rw [same]
        exact Takes.quiet rfl rfl
  | @loop c p loops =>
      obtain ⟨q, -, same⟩ | same := dispatch_cases c (p.val + 1)
        { table with current := Function.update table.current c none }
      · rw [same]
        exact Takes.quiet rfl rfl
      · rw [same]
        exact Takes.quiet rfl rfl
  | @enterWait c p enters waits =>
      obtain ⟨counter, logs⟩ | ⟨np, free, counter, logs⟩ := waitLoop_takes c p
        (table.setProc p { table.proc p with chan := none })
      · exact Takes.none counter logs
      · refine Takes.one np ?_ counter logs
        rw [state_setProc] at free
        by_cases same : np = p
        · subst same
          rw [Function.update_self] at free
          exact free
        · rw [Function.update_of_ne same] at free
          exact free
  | kill pid free =>
      unfold Ptable.kill
      split
      · exact Takes.quiet rfl rfl
      · exact Takes.quiet rfl rfl
  | wait runs free => exact waitLoop_takes _ _ table
  | allocproc runs free =>
      unfold Ptable.allocproc
      split
      · rename_i np found
        have unused := List.find?_some found
        exact Takes.one np (of_decide_eq_true unused) rfl rfl
      · exact Takes.quiet rfl rfl
  | discard runs child => exact Takes.record rfl rfl nofun
  | @exit c p runs free =>
      obtain ⟨passed, left, same⟩ := exit_left c p table
      have counter : passed.nextpid = table.nextpid := by rw [left.frame]
      have logs : passed.log = table.log := by rw [left.frame]
      have logged : (((passed.setState p .zombie).record p (.exited (table.proc p).pid)).sched c p
          .exited).log =
          Function.update table.log p (.exited (table.proc p).pid :: table.log p) := by
        rw [← logs]
        rfl
      rw [same]
      exact Takes.record counter logged nofun
  | _ => exact Takes.quiet rfl rfl

theorem waitLoop_nextpid (c : Cpu) (p : ProcPtr) (table : Ptable Cpu) :
    (table.waitLoop c p).nextpid = table.nextpid := by
  obtain ⟨z, -, -, same⟩ | ⟨-, same | same⟩ := waitLoop_cases c p table
  · rw [same]
    rfl
  · rw [same]
    rfl
  · rw [same]
    rfl

theorem enter_nextpid {c : Cpu} {p : ProcPtr} (ends : (table.enter c p).state? = some after) :
    after.nextpid = table.nextpid := by
  unfold enter at ends
  cases thread : table.thread p with
  | waiting =>
      simp only [thread] at ends
      cases ends
      exact waitLoop_nextpid c p (table.setProc p { table.proc p with chan := none })
  | _ =>
      simp only [thread] at ends
      cases ends <;> rfl

theorem act_nextpid {c : Cpu} {place : Place} {event : TableEvent Cpu}
    (other : ∀ c, event ≠ .allocproc c) (ends : (table.act c p place event).state? = some after) :
    after.nextpid = table.nextpid := by
  rw [act.eq_def] at ends
  cases event with
  | allocproc c => exact absurd rfl (other c)
  | wait other =>
      dsimp only at ends
      split at ends
      · cases ends
        exact waitLoop_nextpid c p table
      · cases ends
  | exit other =>
      dsimp only at ends
      split at ends
      · cases ends
        obtain ⟨passed, left, same⟩ := exit_left c p table
        rw [same]
        change passed.nextpid = table.nextpid
        rw [left.frame]
      · cases ends
  | yield other | sleep other address | parent other =>
      dsimp only at ends
      split at ends
      · cases ends
        rfl
      · cases ends
  | kalloc other enough | copyuvm other enough | fork other =>
      dsimp only at ends
      split at ends
      · split at ends
        · cases ends
          rfl
        · cases ends <;> rfl
      · cases ends
  | exiting other =>
      dsimp only at ends
      split at ends
      · split at ends
        · cases ends
        · cases ends
          rfl
      · cases ends
  | _ => cases ends

/-- Only `allocproc` takes a pid. -/
theorem next_nextpid {event : TableEvent Cpu} (other : ∀ c, event ≠ .allocproc c)
    (stepped : table.next event = some after) : after.nextpid = table.nextpid := by
  have acts : ∀ c, TableEvent.cpu? event = some c → after.nextpid = table.nextpid := by
    intro c mine
    obtain ⟨p, place, -, ends⟩ := step_acts mine stepped
    exact act_nextpid other ends
  rw [next, step.eq_def] at stepped
  cases event with
  | schedule c =>
      dsimp only at stepped
      split at stepped
      · cases stepped
        obtain ⟨q, -, same⟩ | same := dispatch_cases c 0 table
        · rw [same]
          rfl
        · rw [same]
      · cases stepped
  | loop c =>
      dsimp only at stepped
      split at stepped
      · rename_i p loops
        cases stepped
        obtain ⟨q, -, same⟩ | same := dispatch_cases c (p.val + 1)
          { table with current := Function.update table.current c none }
        · rw [same]
          rfl
        · rw [same]
      · cases stepped
  | enter c =>
      dsimp only at stepped
      split at stepped
      · exact enter_nextpid stepped
      · cases stepped
  | wakeup address =>
      dsimp only at stepped
      split at stepped
      · cases stepped
        rfl
      · cases stepped
  | kill pid =>
      dsimp only at stepped
      split at stepped
      · cases stepped
        unfold Ptable.kill
        split
        · rfl
        · rfl
      · cases stepped
  | _ => exact acts _ rfl

/-! ## The pids in use -/

/-- An entry is not UNUSED. -/
def Used (table : Ptable Cpu) (p : ProcPtr) : Prop := table.state p ≠ .unused

/-- The pids in use are the positive numbers below the counter, each used once. -/
structure Numbered (table : Ptable Cpu) : Prop where
  counter : 0 < table.nextpid.toNat
  below : ∀ p, table.Used p →
    0 < (table.proc p).pid.toNat ∧ (table.proc p).pid.toNat < table.nextpid.toNat
  distinct : ∀ p q, table.Used p → table.Used q →
    (table.proc p).pid = (table.proc q).pid → p = q
  limit : table.nextpid.toNat ≤ 2 ^ 31

omit [DecidableEq Cpu] in
theorem boot_numbered (initproc : ProcPtr) : (boot initproc : Ptable Cpu).Numbered := by
  have only : ∀ p, (boot initproc : Ptable Cpu).Used p →
      p = initproc ∧ ((boot initproc : Ptable Cpu).proc p).pid = 1 := by
    intro p used
    by_cases same : p = initproc
    · refine ⟨same, ?_⟩
      simp only [boot, if_pos same]
    · refine absurd ?_ used
      simp only [boot, state, if_neg same]
  refine ⟨show 0 < (2 : BitVec 32).toNat by decide, ?_, ?_,
    show (2 : BitVec 32).toNat ≤ 2 ^ 31 by decide⟩
  · intro p used
    rw [(only p used).2]
    exact ⟨by decide, show (1 : BitVec 32).toNat < (2 : BitVec 32).toNat by decide⟩
  · intro p q first second _
    rw [(only p first).1, (only q second).1]

/-- An entry in use after a step had its pid before, or has just been allocated. -/
theorem used_kept (moves : table.Moves after) (before : Tracks table.log table.proc)
    (tracks : Tracks after.log after.proc) {q : ProcPtr} (used : after.Used q) :
    after.log q = .allocated (after.proc q).pid :: table.log q ∨
      table.Used q ∧ (after.proc q).pid = (table.proc q).pid := by
  have named : (after.proc q).phase.pid = some (after.proc q).pid :=
    Proc.phase_pid.mpr ⟨used, rfl⟩
  have leads := tracks q
  obtain same | ⟨event, logged, -⟩ := moves.logged q
  · rw [same, before q] at leads
    injection leads with equal
    rw [← equal] at named
    obtain ⟨was, pid⟩ := Proc.phase_pid.mp named
    exact Or.inr ⟨was, pid.symm⟩
  · rw [logged] at leads
    obtain rfl | ⟨phase, led, kept⟩ := phase_kept leads named
    · exact Or.inl logged
    · rw [before q] at led
      injection led with equal
      rw [← equal] at kept
      obtain ⟨was, pid⟩ := Proc.phase_pid.mp kept
      exact Or.inr ⟨was, pid.symm⟩

/-- The counter has not wrapped around when `allocproc` takes a pid, which it does if it finds
a free entry. -/
def Counts (table : Ptable Cpu) : TableEvent Cpu → Prop
  | .allocproc _ => (∃ np, table.state np = .unused) → 0 < table.nextpid.toInt
  | _ => True

instance (table : Ptable Cpu) : (event : TableEvent Cpu) → Decidable (table.Counts event)
  | .allocproc _ =>
      inferInstanceAs (Decidable ((∃ np, table.state np = .unused) → 0 < table.nextpid.toInt))
  | .schedule _ | .loop _ | .enter _ | .yield _ | .sleep _ _ | .wakeup _ | .kill _ | .wait _
  | .kalloc _ _ | .copyuvm _ _ | .parent _ | .fork _ | .exiting _ | .exit _ => isTrue trivial

theorem Numbered.step {event : TableEvent Cpu} (numbered : table.Numbered)
    (counts : table.Counts event) (before : Tracks table.log table.proc)
    (tracks : Tracks after.log after.proc) (stepped : table.next event = some after) :
    after.Numbered := by
  have moves := next_moves stepped
  obtain ⟨counter, logs⟩ | ⟨np, free, counter, logs⟩ := moves.takes
  · have kept : ∀ q, after.Used q → table.Used q ∧ (after.proc q).pid = (table.proc q).pid :=
      fun q used => (used_kept moves before tracks used).resolve_left (logs q _)
    refine ⟨counter ▸ numbered.counter, ?_, ?_, counter ▸ numbered.limit⟩
    · intro q used
      obtain ⟨was, pid⟩ := kept q used
      rw [pid, counter]
      exact numbered.below q was
    · intro p q first second same
      obtain ⟨wasFirst, firstPid⟩ := kept p first
      obtain ⟨wasSecond, secondPid⟩ := kept q second
      rw [firstPid, secondPid] at same
      exact numbered.distinct p q wasFirst wasSecond same
  · have positive : 0 < table.nextpid.toInt := by
      by_cases allocates : ∃ c, event = .allocproc c
      · obtain ⟨c, rfl⟩ := allocates
        exact counts ⟨np, free⟩
      · have same := next_nextpid (fun c equal => allocates ⟨c, equal⟩) stepped
        rw [counter] at same
        simp at same
    have small : table.nextpid.toNat < 2 ^ 31 := by
      rw [BitVec.toInt_eq_toNat_cond] at positive
      have bound := table.nextpid.isLt
      split at positive
      · omega
      · omega
    have next : after.nextpid.toNat = table.nextpid.toNat + 1 := by
      rw [counter, BitVec.toNat_add, show (1 : BitVec 32).toNat = 1 by rfl]
      omega
    have kept : ∀ q, after.Used q → q = np ∧ (after.proc q).pid = table.nextpid ∨
        q ≠ np ∧ table.Used q ∧ (after.proc q).pid = (table.proc q).pid := by
      intro q used
      obtain logged | old := used_kept moves before tracks used
      · rw [logs] at logged
        by_cases same : q = np
        · subst same
          rw [Function.update_self] at logged
          injection logged with equal
          injection equal with pid
          exact Or.inl ⟨rfl, pid.symm⟩
        · rw [Function.update_of_ne same] at logged
          exact absurd logged.symm (List.cons_ne_self _ _)
      · refine Or.inr ⟨?_, old⟩
        rintro rfl
        exact old.1 free
    refine ⟨by omega, ?_, ?_, by omega⟩
    · intro q used
      rw [next]
      obtain ⟨-, pid⟩ | ⟨-, was, pid⟩ := kept q used
      · rw [pid]
        exact ⟨numbered.counter, Nat.lt_succ_self _⟩
      · rw [pid]
        have old := numbered.below q was
        omega
    · intro p q first second same
      obtain ⟨rfl, firstPid⟩ | ⟨different, wasFirst, firstPid⟩ := kept p first
      · obtain ⟨rfl, -⟩ | ⟨-, wasSecond, secondPid⟩ := kept q second
        · rfl
        · have old := (numbered.below q wasSecond).2
          rw [firstPid, secondPid] at same
          rw [same] at old
          exact absurd old (Nat.lt_irrefl _)
      · obtain ⟨rfl, secondPid⟩ | ⟨-, wasSecond, secondPid⟩ := kept q second
        · have old := (numbered.below p wasFirst).2
          rw [firstPid, secondPid] at same
          rw [same] at old
          exact absurd old (Nat.lt_irrefl _)
        · rw [firstPid, secondPid] at same
          exact numbered.distinct p q wasFirst wasSecond same

/-! ## fork -/

/-- The pid that `fork` is about to return on the processor. -/
def forkPid (table : Ptable Cpu) (c : Cpu) : Option (BitVec 32) :=
  match table.runner c with
  | some (_, .parented np) => some (table.proc np).pid
  | _ => none

/-- The pids in use are positive and distinct, and so is the one that `fork` returns. -/
def PidsNameProcesses (table : Ptable Cpu) : Prop :=
  (∀ p, table.Used p → 0 < (table.proc p).pid.toInt) ∧
  (∀ p q, table.Used p → table.Used q → (table.proc p).pid = (table.proc q).pid → p = q) ∧
  ∀ c pid, table.forkPid c = some pid → 0 < pid.toInt ∧
    ∃ np, table.Used np ∧ (table.proc np).pid = pid ∧
      ∀ q, table.Used q → (table.proc q).pid = pid → q = np

omit [DecidableEq Cpu] in
theorem Numbered.names (numbered : table.Numbered) (ok : table.Ok) : table.PidsNameProcesses := by
  have positive : ∀ p, table.Used p → 0 < (table.proc p).pid.toInt := by
    intro p used
    obtain ⟨low, high⟩ := numbered.below p used
    have limit := numbered.limit
    rw [BitVec.toInt_eq_toNat_cond, if_pos (by omega)]
    omega
  refine ⟨positive, numbered.distinct, ?_⟩
  intro c pid returned
  rw [forkPid] at returned
  split at returned
  · rename_i p np found
    cases returned
    have runs := runner_runs found
    have embryo : table.state np = .embryo := ok.forking.embryo p np (by
      rw [runs.2]
      rfl)
    have used : table.Used np := by
      rw [Used, embryo]
      exact nofun
    exact ⟨positive np used, np, used, rfl, fun q also same =>
      numbered.distinct q np also used same⟩
  · cases returned

/-- In every run in which `nextpid` has not wrapped around when a pid is taken, the pids
in use are positive and distinct, and `fork` returns the one of its child. -/
theorem pids_name_processes (initproc : ProcPtr) (events : List (TableEvent Cpu))
    (table : Ptable Cpu) (ran : runs next (boot initproc) events = some table)
    (counts : Throughout next Counts (boot initproc) events) : table.PidsNameProcesses := by
  have invariant : table.Kin ∧ Tracks table.log table.proc ∧ table.Numbered :=
    runs_invariant_throughout
      (fun table => table.Kin ∧ Tracks table.log table.proc ∧ table.Numbered)
      ⟨boot_kin initproc, boot_tracks initproc, boot_numbered initproc⟩
      (by
        rintro state event after ⟨kin, tracks, numbered⟩ counts stepped
        have moves := next_moves stepped
        have later := kin.ok.tracks moves tracks
        exact ⟨kin.moves moves, later, numbered.step counts tracks later stepped⟩)
      counts ran
  exact invariant.2.2.names invariant.1.ok

theorem pids_name_processes_once : ∃ table : Ptable Bool,
    runs next (boot firstProc) forkAndExit = some table ∧ table.PidsNameProcesses := by
  have facts : (runs next (boot firstProc) forkAndExit).isSome = true := by decide +kernel
  have counts : Throughout next Counts (boot firstProc) forkAndExit := by decide +kernel
  obtain ⟨table, ran⟩ := Option.isSome_iff_exists.mp facts
  exact ⟨table, ran, pids_name_processes firstProc forkAndExit table ran counts⟩

/-! ## The counter wraps around -/

/-- Init runs on the first processor, and has called nothing. -/
structure Calm (table : Ptable Bool) : Prop where
  lock : table.lock = none
  core : table.core false = .running firstProc
  thread : table.thread firstProc = .runs .elsewhere
  free : ∃ np, table.state np = .unused

/-- A `fork` for which there is no memory. -/
def forkFails : List (TableEvent Bool) := [.allocproc false, .kalloc false false]

theorem Calm.runner {table : Ptable Bool} (calm : table.Calm) :
    table.runner false = some (firstProc, .elsewhere) := by
  simp only [Ptable.runner, calm.core, calm.thread]

/-- The first step of a `fork`. -/
theorem Calm.allocproc {table : Ptable Bool} (calm : table.Calm) :
    ∃ np after, table.next (.allocproc false) = some after ∧ after.lock = none ∧
      after.core false = .running firstProc ∧
      after.thread firstProc = .runs (.allocated np) ∧ after.Used np ∧
      (after.proc np).pid = table.nextpid ∧ after.nextpid = table.nextpid + 1 := by
  obtain ⟨free, unused⟩ := calm.free
  have taken : table.next (.allocproc false) = some (table.allocproc firstProc) := by
    rw [next, step.eq_def]
    simp only [TableEvent.cpu?, calm.runner, act, calm.lock, and_self, if_true]
    rfl
  cases found : (List.finRange nproc).find? fun np => table.state np = .unused with
  | none =>
      have none := List.find?_eq_none.mp found free (List.mem_finRange free)
      exact absurd (decide_eq_true unused) none
  | some np =>
      rw [Ptable.allocproc, found] at taken
      refine ⟨np, _, taken, calm.lock, calm.core, ?_, ?_, ?_, rfl⟩
      · exact Function.update_self firstProc (Thread.runs (.allocated np)) table.thread
      · intro same
        change ((table.setProc np _).proc np).state = _ at same
        rw [setProc_proc_same] at same
        cases same
      · change ((table.setProc np _).proc np).pid = _
        rw [setProc_proc_same]

theorem Calm.forkFails {table : Ptable Bool} (calm : table.Calm) :
    ∃ after, runs next table Ptable.forkFails = some after ∧ after.Calm ∧
      after.nextpid = table.nextpid + 1 := by
  obtain ⟨np, middle, taken, lock, core, thread, -, -, counter⟩ := calm.allocproc
  have given : middle.next (.kalloc false false) = some (middle.discard firstProc np) := by
    have runner : middle.runner false = some (firstProc, .allocated np) := by
      simp only [Ptable.runner, core, thread]
    rw [next, step.eq_def]
    simp only [TableEvent.cpu?, runner, act]
    rfl
  have moved : (middle.discard firstProc np).thread firstProc = .runs .elsewhere := by
    simp only [discard, setThread, Function.update_self]
  refine ⟨middle.discard firstProc np, ?_, ⟨lock, core, moved, np, ?_⟩, counter⟩
  · rw [Ptable.forkFails, runs_cons, taken, Option.bind_some, runs_cons, given, Option.bind_some,
      runs_nil]
  · exact congrArg Proc.state (setProc_proc_same middle np _)

theorem Calm.manyForks {table : Ptable Bool} (calm : table.Calm) (count : Nat) :
    ∃ after, runs next table (List.replicate count Ptable.forkFails).flatten = some after ∧
      after.Calm ∧ after.nextpid = table.nextpid + BitVec.ofNat 32 count := by
  induction count generalizing table with
  | zero => exact ⟨table, rfl, calm, (BitVec.add_zero _).symm⟩
  | succ count inductionHypothesis =>
      obtain ⟨middle, first, still, counter⟩ := calm.forkFails
      obtain ⟨after, rest, last, counted⟩ := inductionHypothesis still
      refine ⟨after, ?_, last, ?_⟩
      · rw [List.replicate_succ, List.flatten_cons, runs_append, first, Option.bind_some, rest]
      · rw [counted, counter, BitVec.add_assoc, BitVec.ofNat_add, BitVec.add_comm _ 1#32]
        rfl

/-- The pid of an entry in use is negative after 2³¹ - 1 calls of `fork`. -/
theorem pids_wrap : ∃ events, ∃ table : Ptable Bool,
    runs next (boot firstProc) events = some table ∧ ¬table.PidsNameProcesses := by
  have facts : (runs next (boot firstProc) [TableEvent.schedule false, .enter false]).map
      (fun table => decide (table.lock = none ∧ table.core false = .running firstProc ∧
        table.thread firstProc = .runs .elsewhere ∧ table.state secondProc = .unused ∧
        table.nextpid = 2)) = some true := by decide +kernel
  obtain ⟨table, ran, holds⟩ := Option.map_eq_some_iff.mp facts
  obtain ⟨lock, core, thread, unused, counter⟩ := of_decide_eq_true holds
  have calm : table.Calm := ⟨lock, core, thread, secondProc, unused⟩
  obtain ⟨middle, many, still, counted⟩ := calm.manyForks 2147483646
  obtain ⟨np, after, taken, -, -, -, used, pid, -⟩ := still.allocproc
  refine ⟨[.schedule false, .enter false] ++
    ((List.replicate 2147483646 forkFails).flatten ++ [.allocproc false]), after, ?_, ?_⟩
  · rw [runs_append, ran, Option.bind_some, runs_append, many, Option.bind_some, runs_cons, taken]
    rfl
  · intro names
    have positive := names.1 np used
    rw [pid, counted, counter] at positive
    exact absurd positive (by decide)

end Ptable

end Xv6.Sched
