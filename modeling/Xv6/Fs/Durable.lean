import Xv6.Fs.Admission

/-!
# What survives a crash

A run of concurrent operations starts one commit after the other, each with the
group of blocks logged since the last. Whenever the machine stops, recovery
leaves on disk the groups whose commit has returned, and of the one under way
everything or nothing.
-/

namespace Xv6.Fs

open Xv6.Library

variable {p q : Pid} {store : Store} {system next start : System} {event : Event}
  {events : List Event} {disk : Nat → Block}

/-- What a commit is to put on disk: the blocks logged since the last one, with
their contents in the cache. -/
structure Group where
  lh : LogHeader
  new : Nat → Block

/-- The group whose commit a step starts. -/
def System.starts (system : System) (event : Event) : List Group :=
  match system.next event with
  | some next =>
      if !system.store.log.committing && next.store.log.committing then
        [{ lh := system.store.log.lh, new := system.store.cached }]
      else []
  | none => []

/-- The groups of a run, oldest first. -/
def groups (system : System) : List Event → List Group
  | [] => []
  | event :: rest =>
      system.starts event ++
        match system.next event with
        | some next => groups next rest
        | none => []

def Event.returns : Event → Bool
  | .endOpReturn _ => true
  | _ => false

/-- How many commits have returned. -/
def returned (events : List Event) : Nat := events.countP Event.returns

/-- The home blocks once the groups are installed one after the other. -/
def applied (disk : Nat → Block) (groups : List Group) : Nat → Block :=
  groups.foldl (fun content group => group.lh.apply group.new content) disk

@[simp]
theorem applied_concat (disk : Nat → Block) (past : List Group) (group : Group) :
    applied disk (past ++ [group]) = group.lh.apply group.new (applied disk past) := by
  simp [applied]

theorem groups_append (ran : runs System.next start events = some system)
    (more : List Event) : groups start (events ++ more) = groups start events ++ groups system more := by
  induction events generalizing start with
  | nil =>
      cases ran
      rfl
  | cons first rest inductionHypothesis =>
      rw [runs_cons] at ran
      rcases Option.bind_eq_some_iff.mp ran with ⟨middle, stepped, after⟩
      simp only [List.cons_append, groups, stepped, inductionHypothesis after, List.append_assoc]

theorem groups_concat (ran : runs System.next start events = some system) (event : Event) :
    groups start (events ++ [event]) = groups start events ++ system.starts event := by
  rw [groups_append ran]
  simp only [groups]
  split <;> simp

theorem returned_concat (events : List Event) (event : Event) :
    returned (events ++ [event]) = returned events + if event.returns then 1 else 0 := by
  simp [returned, List.countP_append, List.countP_singleton]

/-! ## The place of the log -/

/-- The fields of the log that `readsb` sets once. -/
structure SamePlace (first second : Log) : Prop where
  start : second.start = first.start
  size : second.size = first.size
  dev : second.dev = first.dev

theorem SamePlace.refl (log : Log) : SamePlace log log := ⟨rfl, rfl, rfl⟩

theorem SamePlace.trans {first second third : Log} (one : SamePlace first second)
    (two : SamePlace second third) : SamePlace first third :=
  ⟨two.start.trans one.start, two.size.trans one.size, two.dev.trans one.dev⟩

theorem SamePlace.owns {first second : Log} (same : SamePlace first second) :
    second.Owns = first.Owns := by
  funext b
  simp only [Log.Owns, same.start, same.size]

/-- Only the home blocks of the content count. -/
theorem Represents.congr {log other : Log} {content last : Nat → Block}
    (represents : Represents log disk content) (same : SamePlace other log)
    (agree : ∀ b, ¬log.Owns b → last b = content b) : Represents other disk last := by
  have start : other.start = log.start := same.start.symm
  have owns : other.Owns = log.Owns := same.owns.symm
  constructor
  · rw [start]
    exact represents.small
  · rw [start, ← same.size]
    exact represents.fits
  · rw [start, owns]
    exact represents.home
  · rw [start]
    intro i below
    rw [agree _ (represents.home i below)]
    exact represents.logged i below
  · rw [start, owns]
    intro b free apart
    rw [agree b free]
    exact represents.elsewhere b free apart

/-! ## One step -/

theorem LogInvariant.place_step (invariant : LogInvariant system)
    (done : system.step event = .done () next) : SamePlace system.store.log next.store.log := by
  cases event with
  | beginOp p =>
      rcases beginOp_cases done with ⟨-, rfl | ⟨-, -, rfl⟩⟩
      · exact SamePlace.refl _
      · exact ⟨rfl, rfl, rfl⟩
  | logWrite p b =>
      rcases logWrite_cases done with ⟨-, -, rfl⟩
      exact SamePlace.refl _
  | logWriteCheck p =>
      rcases logWriteCheck_cases done with ⟨b, -, rfl⟩
      exact SamePlace.refl _
  | logWriteAppend p =>
      rcases logWriteAppend_cases done with ⟨b, -, rfl⟩
      exact ⟨rfl, rfl, rfl⟩
  | endOp p =>
      rcases endOp_cases done with ⟨-, -, ⟨-, rfl⟩ | ⟨-, rfl⟩⟩ <;> exact ⟨rfl, rfl, rfl⟩
  | endOpReturn p =>
      rcases endOpReturn_cases done with ⟨value, -, rfl⟩
      exact ⟨rfl, rfl, rfl⟩
  | commitStep p =>
      rcases commitStep_cases done with ⟨rest, later, store, place, stepped, rfl⟩
      rcases invariant.underway p rest place with ⟨log, new, disk, written, underway⟩
      have before := underway.log_eq
      have after := Underway.log_eq (underway.step stepped)
      constructor <;> simp only [System.setPc] <;> rw [after, before]
  | buffer p use =>
      rcases bufferStep_cases done with ⟨-, inOp, store, -, ran, rfl⟩
      simp only [useBuffer_log ran]
      exact SamePlace.refl _

/-- Between commits nothing is written. -/
theorem LogInvariant.disk_step (invariant : LogInvariant system)
    (free : system.store.log.committing = false) (done : system.step event = .done () next) :
    next.store.disk = system.store.disk := by
  cases event with
  | beginOp p => rcases beginOp_cases done with ⟨-, rfl | ⟨-, -, rfl⟩⟩ <;> rfl
  | logWrite p b =>
      rcases logWrite_cases done with ⟨-, -, rfl⟩
      rfl
  | logWriteCheck p =>
      rcases logWriteCheck_cases done with ⟨b, -, rfl⟩
      rfl
  | logWriteAppend p =>
      rcases logWriteAppend_cases done with ⟨b, -, rfl⟩
      rfl
  | endOp p => rcases endOp_cases done with ⟨-, -, ⟨-, rfl⟩ | ⟨-, rfl⟩⟩ <;> rfl
  | endOpReturn p =>
      rcases endOpReturn_cases done with ⟨value, -, rfl⟩
      rfl
  | commitStep p =>
      rcases commitStep_cases done with ⟨rest, later, store, place, -, -⟩
      exact absurd (Pc.commits_iff.mpr ⟨rest, place⟩) (invariant.idle free p)
  | buffer p use =>
      rcases bufferStep_cases done with ⟨-, inOp, store, -, ran, rfl⟩
      exact (Used.of_useBuffer (invariant.quiet free).cache ran).disk

/-- A commit starts in the `end_op` of the last operation. -/
theorem LogInvariant.starts_commit (invariant : LogInvariant system)
    (free : system.store.log.committing = false) (done : system.step event = .done () next)
    (busy : next.store.log.committing = true) :
    ∃ p, event = .endOp p ∧
      next = (system.setLog { system.store.log with
        outstanding := 0, committing := true }).setPc p (.committing (commit p)) := by
  rcases (invariant.step done).flag busy with ⟨p, commits⟩
  cases event with
  | beginOp q =>
      rcases beginOp_cases done with ⟨-, rfl | ⟨-, -, rfl⟩⟩ <;>
        simp [System.setPc, System.setLog, free] at busy
  | logWrite q b =>
      rcases logWrite_cases done with ⟨-, -, rfl⟩
      simp [System.setPc, free] at busy
  | logWriteCheck q =>
      rcases logWriteCheck_cases done with ⟨b, -, rfl⟩
      simp [System.setPc, free] at busy
  | logWriteAppend q =>
      rcases logWriteAppend_cases done with ⟨b, -, rfl⟩
      simp [free] at busy
  | endOp q =>
      rcases endOp_cases done with ⟨-, -, ⟨-, rfl⟩ | ⟨-, rfl⟩⟩
      · exact ⟨q, rfl, rfl⟩
      · simp [System.setPc, System.setLog, System.wakeup, free] at busy
  | endOpReturn q =>
      rcases endOpReturn_cases done with ⟨value, place, -⟩
      exact absurd (Pc.commits_iff.mpr ⟨_, place⟩) (invariant.idle free q)
  | commitStep q =>
      rcases commitStep_cases done with ⟨rest, later, store, place, -, -⟩
      exact absurd (Pc.commits_iff.mpr ⟨rest, place⟩) (invariant.idle free q)
  | buffer q use =>
      rcases bufferStep_cases done with ⟨-, inOp, store, -, ran, rfl⟩
      simp [useBuffer_log ran, free] at busy

theorem System.returns_cases (done : system.step event = .done () next)
    (returns : event.returns = true) :
    ∃ p value, event = .endOpReturn p ∧ system.pc p = .committing (.ret value) ∧
      next.store.log.committing = false ∧ next.store.disk = system.store.disk := by
  cases event with
  | endOpReturn p =>
      rcases endOpReturn_cases done with ⟨value, place, rfl⟩
      exact ⟨p, value, rfl, place, rfl, rfl⟩
  | beginOp p => cases returns
  | logWrite p b => cases returns
  | logWriteCheck p => cases returns
  | logWriteAppend p => cases returns
  | endOp p => cases returns
  | commitStep p => cases returns
  | buffer p use => cases returns

theorem LogInvariant.not_returns (invariant : LogInvariant system)
    (free : system.store.log.committing = false) (done : system.step event = .done () next) :
    event.returns = false := by
  by_contra returns
  rcases System.returns_cases done (Bool.eq_true_of_not_eq_false returns) with
    ⟨p, value, -, place, -, -⟩
  exact invariant.idle free p (Pc.commits_iff.mpr ⟨_, place⟩)

/-! ## Every run -/

/-- The commit of a group is under way, and all before it are installed. -/
def Installing (start : System) (before : List Group) (group : Group) (p : Pid)
    (rest : Program Store Unit) (system : System) : Prop :=
  ∃ log disk written, log.lh = group.lh ∧ SamePlace start.store.log log ∧
    (∀ b, ¬log.Owns b → disk b = applied start.store.disk before b) ∧
    Underway p log group.new disk written rest system.store

/-- What the disk stands for after a run. -/
structure Durable (start : System) (past : List Event) (system : System) : Prop where
  ran : runs System.next start past = some system
  invariant : LogInvariant system
  place : SamePlace start.store.log system.store.log
  idle : system.store.log.committing = false →
    (groups start past).length = returned past ∧ ∀ b, ¬start.store.log.Owns b →
      system.store.disk b = applied start.store.disk (groups start past) b
  busy : ∀ p rest, system.pc p = .committing rest → ∃ before group,
    groups start past = before ++ [group] ∧ before.length = returned past ∧
      Installing start before group p rest system

variable {past : List Event}

theorem Durable.ran_next (durable : Durable start past system)
    (stepped : system.next event = some next) :
    runs System.next start (past ++ [event]) = some next := by
  rw [runs_concat, durable.ran]
  exact stepped

/-- Between commits. -/
theorem Durable.step_idle (durable : Durable start past system)
    (stepped : system.next event = some next) (free : system.store.log.committing = false)
    (idle : next.store.log.committing = false) : Durable start (past ++ [event]) next := by
  have done := System.next_eq stepped
  have after := durable.invariant.step done
  rcases durable.idle free with ⟨length, home⟩
  have grown : groups start (past ++ [event]) = groups start past := by
    rw [groups_concat durable.ran]
    simp [System.starts, stepped, idle]
  have count : returned (past ++ [event]) = returned past := by
    rw [returned_concat, durable.invariant.not_returns free done]
    simp
  refine ⟨durable.ran_next stepped, after,
    durable.place.trans (durable.invariant.place_step done), fun _ => ?_, fun p rest place => ?_⟩
  · rw [grown, count, durable.invariant.disk_step free done]
    exact ⟨length, home⟩
  · exact absurd (Pc.commits_iff.mpr ⟨rest, place⟩) (after.idle idle p)

/-- A commit starts. -/
theorem Durable.step_start (durable : Durable start past system)
    (stepped : system.next event = some next) (free : system.store.log.committing = false)
    (busy : next.store.log.committing = true) : Durable start (past ++ [event]) next := by
  have done := System.next_eq stepped
  have invariant := durable.invariant
  rcases durable.idle free with ⟨length, home⟩
  have grown : groups start (past ++ [event]) =
      groups start past ++ [{ lh := system.store.log.lh, new := system.store.cached }] := by
    rw [groups_concat durable.ran]
    simp [System.starts, stepped, free, busy]
  have count : returned (past ++ [event]) = returned past := by
    rw [returned_concat, invariant.not_returns free done]
    simp
  refine ⟨durable.ran_next stepped, invariant.step done,
    durable.place.trans (invariant.place_step done), fun free => by simp [busy] at free,
    fun q rest place => ⟨_, _, grown, length.trans count.symm, ?_⟩⟩
  rcases invariant.starts_commit free done busy with ⟨p, rfl, same⟩
  rw [same, System.setPc_pc] at place
  split at place
  · rename_i here
    simp only [Pc.committing.injEq] at place
    subst place here
    rw [same]
    exact ⟨{ system.store.log with outstanding := 0, committing := true },
      system.store.disk, system.store.written, rfl, durable.place.trans ⟨rfl, rfl, rfl⟩,
      fun b free => home b (durable.place.owns ▸ free),
      (invariant.quiet free).underway invariant.device invariant.size 0 true⟩
  · exact absurd (Pc.commits_iff.mpr ⟨rest, place⟩) (invariant.idle free q)

/-- A commit returns. -/
theorem Durable.step_return (durable : Durable start past system)
    (stepped : system.next event = some next) (returns : event.returns = true) :
    Durable start (past ++ [event]) next := by
  have done := System.next_eq stepped
  have after := durable.invariant.step done
  rcases System.returns_cases done returns with ⟨p, value, -, place, released, kept⟩
  have busy := (durable.invariant.exclusive p (Pc.commits_iff.mpr ⟨_, place⟩)).1
  rcases durable.busy p _ place with
    ⟨before, group, split, length, log, disk, written, header, same, home, underway⟩
  rcases underway.ret with ⟨⟨lh, last, more, -, here, -, settled⟩, -⟩
  have grown : groups start (past ++ [event]) = before ++ [group] := by
    rw [groups_concat durable.ran, split]
    simp [System.starts, stepped, busy]
  refine ⟨durable.ran_next stepped, after,
    durable.place.trans (durable.invariant.place_step done), fun _ => ?_, fun q rest inside => ?_⟩
  · rw [grown, returned_concat, returns, kept, here.disk, applied_concat]
    refine ⟨by simp [length], fun b free => ?_⟩
    rw [settled b (same.owns ▸ free), header]
    simp only [LogHeader.apply, home b (same.owns ▸ free)]
  · exact absurd (Pc.commits_iff.mpr ⟨rest, inside⟩) (after.idle released q)

/-- A commit goes on. -/
theorem Durable.step_busy (durable : Durable start past system)
    (stepped : system.next event = some next) (busy : system.store.log.committing = true)
    (returns : event.returns = false) : Durable start (past ++ [event]) next := by
  have done := System.next_eq stepped
  have after := durable.invariant.step done
  rcases durable.invariant.flag busy with ⟨p, commits⟩
  rcases Pc.commits_iff.mp commits with ⟨rest, place⟩
  rcases durable.busy p rest place with
    ⟨before, group, split, length, log, disk, written, header, same, home, underway⟩
  have grown : groups start (past ++ [event]) = before ++ [group] := by
    rw [groups_concat durable.ran, split]
    simp [System.starts, stepped, busy]
  have count : returned (past ++ [event]) = returned past := by
    rw [returned_concat, returns]
    simp
  have stays : event ≠ .endOpReturn p := by
    rintro rfl
    cases returns
  rcases durable.invariant.commit_step place underway done stays with ⟨later, inside, going⟩
  rcases after.exclusive p (Pc.commits_iff.mpr ⟨later, inside⟩) with ⟨still, -, only⟩
  refine ⟨durable.ran_next stepped, after,
    durable.place.trans (durable.invariant.place_step done), fun free => by simp [still] at free,
    fun q other also => ?_⟩
  obtain rfl := only q (Pc.commits_iff.mpr ⟨other, also⟩)
  rw [inside, Pc.committing.injEq] at also
  subst also
  exact ⟨before, group, grown, length.trans count.symm, log, disk, written, header, same, home, going⟩

theorem Durable.step (durable : Durable start past system)
    (stepped : system.next event = some next) : Durable start (past ++ [event]) next := by
  cases free : system.store.log.committing with
  | false =>
      cases idle : next.store.log.committing with
      | false => exact durable.step_idle stepped free idle
      | true => exact durable.step_start stepped free idle
  | true =>
      cases returns : event.returns with
      | true => exact durable.step_return stepped returns
      | false => exact durable.step_busy stepped free returns

theorem Started.durable (started : Started start) (ran : runs System.next start events = some system) :
    Durable start events system := by
  refine runs_invariant (fun past current => Durable start past current) ?_
    (fun _ _ _ _ durable stepped => durable.step stepped) ran
  refine ⟨rfl, started.invariant, SamePlace.refl _, fun _ => ⟨rfl, fun _ _ => rfl⟩, ?_⟩
  intro p rest at'
  simp [started.outside p] at at'

/-- The disk stands for the groups whose commit has returned, and possibly for
the one under way. -/
theorem Durable.represents (durable : Durable start past system) :
    ∃ k, returned past ≤ k ∧ k ≤ (groups start past).length ∧
      (groups start past).length ≤ returned past + 1 ∧
      Represents system.store.log system.store.disk
        (applied start.store.disk ((groups start past).take k)) := by
  have owns := durable.place.owns
  cases free : system.store.log.committing with
  | false =>
      rcases durable.idle free with ⟨length, home⟩
      refine ⟨_, length.ge, Nat.le_refl _, by omega, ?_⟩
      rw [List.take_length]
      exact Represents.of_empty (durable.invariant.quiet free).empty
        fun b free => home b (owns ▸ free)
  | true =>
      rcases durable.invariant.flag free with ⟨p, commits⟩
      rcases Pc.commits_iff.mp commits with ⟨rest, at'⟩
      rcases durable.busy p rest at' with
        ⟨before, group, split, length, log, disk, written, header, same, home, underway⟩
      rcases underway.now with ⟨-, current, recent, -, represents⟩
      have back : SamePlace system.store.log log := by
        rw [current]
        exact ⟨rfl, rfl, rfl⟩
      by_cases committed : log.start ∈ recent
      · rw [if_pos committed] at represents
        refine ⟨before.length + 1, by omega, by simp [split], by simp [split, length], ?_⟩
        refine represents.congr back fun b free => ?_
        rw [split, List.take_of_length_le (by simp), applied_concat, header]
        simp only [LogHeader.apply, home b free]
      · rw [if_neg committed] at represents
        refine ⟨before.length, by omega, by simp [split], by simp [split, length], ?_⟩
        refine represents.congr back fun b free => ?_
        rw [split, List.take_left, home b free]

/-- A machine that stops in `system` and starts again, however often recovery is
cut short, ends with what the groups in `kept` wrote on disk. -/
def Recovers (start : System) (kept : List Group) (system : System) : Prop :=
  ∀ q last final, Recrash system.store.log q system.store.disk last →
    (recoverFromLog q).run (boot system.store.log last) = .done () final →
    (headerOf (final.disk start.store.log.start)).n = 0 ∧
      ∀ b, ¬start.store.log.Owns b → final.disk b = applied start.store.disk kept b

theorem Durable.recovers (durable : Durable start past system) :
    ∃ k, returned past ≤ k ∧ k ≤ (groups start past).length ∧
      (groups start past).length ≤ returned past + 1 ∧
      Recovers start ((groups start past).take k) system := by
  rcases durable.represents with ⟨k, atLeast, atMost, one, represents⟩
  refine ⟨k, atLeast, atMost, one, ?_⟩
  intro q last final crashes recovered
  have device := durable.invariant.device
  rcases (recovery_safe q device (crashes.represents device represents)).run recovered with
    ⟨lh, disk, more, -, ended, erased, home⟩
  rw [ended.disk, ← durable.place.start]
  exact ⟨erased, fun b free => home b (durable.place.owns ▸ free)⟩

/-- Stop the machine anywhere in any run, start it again, and let recovery be cut
short by further crashes: some `k` is settled at the first crash, and every
recovery that completes leaves the first `k` groups of the run on disk. All
groups whose commit has returned are among them; at most one more is. -/
theorem crash_consistent (start : System) (started : Started start) (events : List Event)
    (system : System) (ran : runs System.next start events = some system) :
    ∃ k, returned events ≤ k ∧ k ≤ (groups start events).length ∧
      (groups start events).length ≤ returned events + 1 ∧
      ∀ q last final, Recrash system.store.log q system.store.disk last →
        (recoverFromLog q).run (boot system.store.log last) = .done () final →
        (headerOf (final.disk start.store.log.start)).n = 0 ∧
          ∀ b, ¬start.store.log.Owns b →
            final.disk b = applied start.store.disk ((groups start events).take k) b :=
  (started.durable ran).recovers

/-- One operation logs block 100, its commit returns, and the machine stops. -/
def stoppedEvents : List Event :=
  oneOperation ++ [.endOp 1] ++ List.replicate 50 (.commitStep 1) ++ [.endOpReturn 1]

def stoppedOnce : System := (runs System.next idleSystem stoppedEvents).getD idleSystem

theorem crash_consistent_once :
    ∃ final, (recoverFromLog 2).run (boot stoppedOnce.store.log stoppedOnce.store.disk) =
        .done () final ∧ final.disk 100 0 = 7 := by
  have ran : runs System.next idleSystem stoppedEvents = some stoppedOnce :=
    runs_getD (by decide +kernel) idleSystem
  have ends : ((recoverFromLog 2).run
      (boot stoppedOnce.store.log stoppedOnce.store.disk)).state?.isSome = true := by
    decide +kernel
  rcases Outcome.exists_done ends with ⟨final, recovered⟩
  have one : returned stoppedEvents = 1 := by decide
  have count : (groups idleSystem stoppedEvents).length = 1 := by decide +kernel
  rcases crash_consistent idleSystem idleSystem_started stoppedEvents stoppedOnce ran with
    ⟨k, atLeast, atMost, -, home⟩
  have all : k = 1 := by omega
  subst all
  refine ⟨final, recovered, ?_⟩
  rw [(home 2 _ final .none recovered).2 100 (by decide)]
  decide +kernel

/-! ## An operation is in one group -/

/-- An operation goes on until its `end_op`. -/
theorem System.stays_inOp (inside : (system.pc p).InOp) (stays : event ≠ .endOp p)
    (done : system.step event = .done () next) : (next.pc p).InOp := by
  have elsewhere : ∀ {q : Pid} {pc : Pc}, (q = p → pc.InOp) →
      ((system.setPc q pc).pc p).InOp := by
    intro q pc here
    rw [System.setPc_pc]
    split
    · rename_i same
      exact here same.symm
    · exact inside
  have outside : ∀ {q : Pid} {pc : Pc}, system.pc q = pc → ¬pc.InOp → q ≠ p := by
    rintro q pc place out rfl
    exact out (place ▸ inside)
  cases event with
  | beginOp q =>
      rcases beginOp_cases done with ⟨place, rfl | ⟨-, -, rfl⟩⟩
      · refine elsewhere fun same => ?_
        rcases place with place | place <;> exact absurd same (outside place id)
      · exact elsewhere fun _ => trivial
  | logWrite q b =>
      rcases logWrite_cases done with ⟨-, -, rfl⟩
      exact elsewhere fun _ => trivial
  | logWriteCheck q =>
      rcases logWriteCheck_cases done with ⟨b, -, rfl⟩
      exact elsewhere fun _ => trivial
  | logWriteAppend q =>
      rcases logWriteAppend_cases done with ⟨b, -, rfl⟩
      exact elsewhere fun _ => trivial
  | endOp q =>
      have different : q ≠ p := fun same => stays (same ▸ rfl)
      rcases endOp_cases done with ⟨-, -, ⟨-, rfl⟩ | ⟨-, rfl⟩⟩
      · exact elsewhere fun same => absurd same different
      · rw [System.setPc_pc, if_neg different.symm]
        exact (wake_inOp _).mpr inside
  | commitStep q =>
      rcases commitStep_cases done with ⟨rest, later, store, place, -, rfl⟩
      exact elsewhere fun same => absurd same (outside place id)
  | endOpReturn q =>
      rcases endOpReturn_cases done with ⟨value, place, rfl⟩
      have different := outside place id
      simp only [System.setPc, System.wakeup, System.setLog, Function.update_of_ne different.symm]
      exact (wake_inOp _).mpr inside
  | buffer q use =>
      rcases bufferStep_cases done with ⟨-, inOp, store, -, -, rfl⟩
      exact inside

/-- No commit starts while an operation is under way. -/
theorem LogInvariant.starts_none (after : LogInvariant next) (inside : (next.pc p).InOp)
    (stepped : system.next event = some next) : system.starts event = [] := by
  simp [System.starts, stepped, after.not_committing inside]

/-- Between commits the log only grows. -/
theorem LogInvariant.logged_step (invariant : LogInvariant system)
    (free : system.store.log.committing = false) (done : system.step event = .done () next) (b : Nat)
    (member : b ∈ system.store.log.lh.logged) : b ∈ next.store.log.lh.logged := by
  cases event with
  | beginOp p => rcases beginOp_cases done with ⟨-, rfl | ⟨-, -, rfl⟩⟩ <;> exact member
  | logWrite p b =>
      rcases logWrite_cases done with ⟨-, -, rfl⟩
      exact member
  | logWriteCheck p =>
      rcases logWriteCheck_cases done with ⟨b, -, rfl⟩
      exact member
  | logWriteAppend p =>
      rcases logWriteAppend_cases done with ⟨a, -, rfl⟩
      simp only [LogHeader.logged_append]
      split
      · exact member
      · exact List.mem_append_left _ member
  | endOp p => rcases endOp_cases done with ⟨-, -, ⟨-, rfl⟩ | ⟨-, rfl⟩⟩ <;> exact member
  | endOpReturn p =>
      rcases endOpReturn_cases done with ⟨value, -, rfl⟩
      exact member
  | commitStep p =>
      rcases commitStep_cases done with ⟨rest, later, store, place, -, -⟩
      exact absurd (Pc.commits_iff.mpr ⟨rest, place⟩) (invariant.idle free p)
  | buffer p use =>
      rcases bufferStep_cases done with ⟨-, inOp, store, -, ran, rfl⟩
      simpa only [useBuffer_log ran] using member

/-- After the events `past` a process is in an operation, and the next commit
to start is the one with the given number. -/
structure Open (start : System) (p : Pid) (number : Nat) (past : List Event) (system : System) :
    Prop where
  ran : runs System.next start past = some system
  invariant : LogInvariant system
  recorded : Recorded system
  inside : (system.pc p).InOp
  length : (groups start past).length = number

theorem Started.opens (started : Started start)
    (first : runs System.next start (past ++ [.beginOp p]) = some system)
    (inside : system.pc p = .inside) :
    Open start p (groups start past).length (past ++ [.beginOp p]) system := by
  have under : (system.pc p).InOp := by simp [inside, Pc.InOp]
  have kept := runs_invariant (fun _ current => LogInvariant current ∧ Recorded current)
    ⟨started.invariant, started.recorded⟩ (fun _ _ _ _ kept stepped =>
      ⟨kept.1.step (System.next_eq stepped), kept.2.step kept.1 _ (System.next_eq stepped)⟩) first
  rcases runs_prefix first with ⟨middle, ran, last⟩
  rw [runs_cons] at last
  rcases Option.bind_eq_some_iff.mp last with ⟨next, stepped, same⟩
  cases same
  refine ⟨first, kept.1, kept.2, under, ?_⟩
  rw [groups_concat ran, kept.1.starts_none under stepped, List.append_nil]

theorem Open.step {number : Nat} (opened : Open start p number past system)
    (stays : event ≠ .endOp p) (stepped : system.next event = some next) :
    Open start p number (past ++ [event]) next := by
  have done := System.next_eq stepped
  have after := opened.invariant.step done
  have still := System.stays_inOp opened.inside stays done
  refine ⟨?_, after, opened.recorded.step opened.invariant _ done, still, ?_⟩
  · rw [runs_concat, opened.ran]
    exact stepped
  · rw [groups_concat opened.ran, after.starts_none still stepped, List.append_nil]
    exact opened.length

theorem Open.run {number : Nat} (opened : Open start p number past system)
    (ran : runs System.next system events = some next) (stays : Event.endOp p ∉ events) :
    Open start p number (past ++ events) next := by
  refine runs_invariant (fun more current => Event.endOp p ∉ more →
    Open start p number (past ++ more) current) (fun _ => by simpa using opened) ?_ ran stays
  intro more current event later going stepped absent
  simp only [List.mem_append, List.mem_singleton, not_or] at absent
  rw [← List.append_assoc]
  exact (going absent.1).step (Ne.symm absent.2) stepped

/-- The blocks wait in the log for the commit with the given number, or are in
its group. -/
def Joins (blocks : List Nat) (number : Nat) (past : List Group) (system : System) : Prop :=
  (past.length = number ∧ system.store.log.committing = false ∧
      ∀ b ∈ blocks, b ∈ system.store.log.lh.logged) ∨
    ∃ group, past[number]? = some group ∧ ∀ b ∈ blocks, b ∈ group.lh.logged

theorem Open.joins {number : Nat} (opened : Open start p number past system) :
    Joins (system.record p) number (groups start past) system := by
  have free := opened.invariant.not_committing opened.inside
  refine Or.inl ⟨opened.length, free, fun b member => ?_⟩
  exact ((opened.invariant.quiet free).group b).mp (opened.recorded p opened.inside b member)

theorem Joins.step {blocks : List Nat} {number : Nat} {before : List Group}
    (joins : Joins blocks number before system) (invariant : LogInvariant system)
    (stepped : system.next event = some next) :
    Joins blocks number (before ++ system.starts event) next := by
  have done := System.next_eq stepped
  rcases joins with ⟨length, free, logged⟩ | ⟨group, found, logged⟩
  · cases busy : next.store.log.committing with
    | false =>
        refine Or.inl ⟨?_, busy, fun b member => ?_⟩
        · simpa [System.starts, stepped, busy] using length
        · exact invariant.logged_step free done b (logged b member)
    | true =>
        refine Or.inr ⟨{ lh := system.store.log.lh, new := system.store.cached }, ?_, logged⟩
        simp [System.starts, stepped, free, busy, ← length]
  · have inside := (List.getElem?_eq_some_iff.mp found).1
    exact Or.inr ⟨group, by rw [List.getElem?_append_left inside, found], logged⟩

theorem Joins.run {blocks : List Nat} {number : Nat}
    (joins : Joins blocks number (groups start past) system) (started : Started start)
    (first : runs System.next start past = some system)
    (ran : runs System.next system events = some next) :
    Joins blocks number (groups start (past ++ events)) next := by
  refine (runs_invariant (fun more current =>
    runs System.next start (past ++ more) = some current ∧
    Joins blocks number (groups start (past ++ more)) current)
    ⟨by simpa using first, by simpa using joins⟩ ?_ ran).2
  rintro more current event later ⟨reached, kept⟩ stepped
  rw [← List.append_assoc, groups_concat reached, runs_concat, reached]
  exact ⟨stepped, kept.step (started.invariant.run reached) stepped⟩

/-- Whatever the other processes do, everything an operation logs is in one
group: that of the first commit to start after its `begin_op`. So when the
machine stops, either that group is among the ones kept, or the ones kept are
those of commits that started before the operation. -/
theorem operation_atomic (start : System) (started : Started start)
    (before during after : List Event) (p : Pid) (begun ended final : System)
    (first : runs System.next start (before ++ [.beginOp p]) = some begun)
    (inside : begun.pc p = .inside) (second : runs System.next begun during = some ended)
    (stays : Event.endOp p ∉ during) (third : runs System.next ended after = some final) :
    (∀ group, (groups start (before ++ [.beginOp p] ++ during ++ after))[(groups start
        before).length]? = some group → ∀ b ∈ ended.record p, b ∈ group.lh.logged) ∧
      ∃ kept, Recovers start kept final ∧
        kept <+: groups start (before ++ [.beginOp p] ++ during ++ after) ∧
        returned (before ++ [.beginOp p] ++ during ++ after) ≤ kept.length ∧
        ((∃ group, kept[(groups start before).length]? = some group ∧
            ∀ b ∈ ended.record p, b ∈ group.lh.logged) ∨
          kept <+: groups start before) := by
  have opened := (started.opens first inside).run second stays
  have whole : runs System.next start (before ++ [.beginOp p] ++ during ++ after) =
      some final := by
    rw [runs_append, opened.ran]
    exact third
  have joins : ∀ group, (groups start (before ++ [.beginOp p] ++ during ++ after))[(groups start
      before).length]? = some group → ∀ b ∈ ended.record p, b ∈ group.lh.logged := by
    intro group commits
    rcases opened.joins.run started opened.ran third with ⟨short, -, -⟩ | ⟨other, found, logged⟩
    · rw [List.getElem?_eq_none (by omega)] at commits
      cases commits
    · rw [found, Option.some.injEq] at commits
      exact commits ▸ logged
  refine ⟨joins, ?_⟩
  rcases (started.durable whole).recovers with ⟨k, atLeast, atMost, -, recovers⟩
  refine ⟨_, recovers, List.take_prefix _ _, by rw [List.length_take]; omega, ?_⟩
  rcases Nat.lt_or_ge (groups start before).length k with late | early
  · have commits := List.getElem?_eq_getElem (Nat.lt_of_lt_of_le late atMost)
    exact Or.inl ⟨_, (List.getElem?_take_of_lt late).trans commits, joins _ commits⟩
  · obtain ⟨middle, ran, -⟩ := runs_prefix first
    refine Or.inr ?_
    rw [List.append_assoc, List.append_assoc, groups_append ran, List.take_append_of_le_length early]
    exact List.take_prefix _ _

/-- The commit of the one operation has returned, so every recovery keeps it. -/
theorem operation_atomic_once : ∃ kept, Recovers idleSystem kept stoppedOnce ∧
    ∃ group ∈ kept, 100 ∈ group.lh.logged := by
  have first : runs System.next idleSystem [.beginOp 1] =
      some ((runs System.next idleSystem [.beginOp 1]).getD idleSystem) :=
    runs_getD (by decide +kernel) idleSystem
  have second : runs System.next ((runs System.next idleSystem [.beginOp 1]).getD idleSystem)
      oneOperation.tail = some loggedOnce := by
    have whole : runs System.next idleSystem oneOperation = some loggedOnce :=
      runs_getD (by decide +kernel) idleSystem
    have split : oneOperation = [.beginOp 1] ++ oneOperation.tail := rfl
    rw [split, runs_append, first] at whole
    exact whole
  have third : runs System.next loggedOnce (stoppedEvents.drop oneOperation.length) =
      some stoppedOnce := by
    have whole : runs System.next idleSystem stoppedEvents = some stoppedOnce :=
      runs_getD (by decide +kernel) idleSystem
    have split : stoppedEvents = [.beginOp 1] ++ (oneOperation.tail ++
        stoppedEvents.drop oneOperation.length) := rfl
    rw [split, runs_append, first, Option.bind_some, runs_append, second, Option.bind_some] at whole
    exact whole
  have inside : ((runs System.next idleSystem [.beginOp 1]).getD idleSystem).pc 1 = .inside := by
    simp [runs, System.next, System.step, beginOp, idleSystem, boot, threeBlockLog, System.setPc,
      System.setLog, Outcome.state?, maxOpBlocks, logSize]
  have atomic := operation_atomic idleSystem idleSystem_started [] oneOperation.tail
    (stoppedEvents.drop oneOperation.length) 1 _ loggedOnce stoppedOnce first inside second
    (by simp [oneOperation, logBlock]) third
  generalize groups idleSystem ([] ++ [.beginOp 1] ++ oneOperation.tail ++
    stoppedEvents.drop oneOperation.length) = all at atomic
  have one : returned ([] ++ [.beginOp 1] ++ oneOperation.tail ++
    stoppedEvents.drop oneOperation.length) = 1 := by decide
  have logged : 100 ∈ loggedOnce.record 1 := by decide +kernel
  rw [one] at atomic
  obtain ⟨-, kept, recovers, -, done, joins⟩ := atomic
  refine ⟨kept, recovers, ?_⟩
  rcases joins with ⟨group, found, all⟩ | early
  · exact ⟨group, List.mem_of_getElem? found, all 100 logged⟩
  · -- nothing was committed before, but one commit has returned
    rw [List.prefix_nil.mp early] at done
    exact absurd done (by decide)

end Xv6.Fs
