import Xv6.Sched.Current

/-!
# Who is killed

A process is killed by a `kill` of its own pid, as long as no `kill` finds a free
entry of the table and no failing `fork` gives back an entry that was killed in
the making.
-/

namespace Xv6.Sched

open Xv6.Library

/-- A step does not kill the process, and frees its entry only with the mark
cleared. -/
def Calm (before after : Proc) : Prop :=
  after.killed = false ∨
    after.killed = before.killed ∧ (after.state = .unused → before.state = .unused)

theorem Calm.refl (proc : Proc) : Calm proc proc := Or.inr ⟨rfl, id⟩

theorem Calm.trans {first second third : Proc} (former : Calm first second)
    (latter : Calm second third) : Calm first third := by
  rcases latter with clear | ⟨same, stays⟩
  · exact Or.inl clear
  · rcases former with clear | ⟨kept, stayed⟩
    · exact Or.inl (same.trans clear)
    · exact Or.inr ⟨same.trans kept, fun free => stayed (stays free)⟩

/-- The step is calm for every process. -/
def Calms (before after : ProcPtr → Proc) : Prop := ∀ q, Calm (before q) (after q)

theorem Calms.refl (procs : ProcPtr → Proc) : Calms procs procs := fun q => Calm.refl (procs q)

theorem Calms.trans {first second third : ProcPtr → Proc} (former : Calms first second)
    (latter : Calms second third) : Calms first third :=
  fun q => (former q).trans (latter q)

theorem Calms.update {procs : ProcPtr → Proc} {p : ProcPtr} {proc : Proc}
    (calm : Calm (procs p) proc) : Calms procs (Function.update procs p proc) := by
  intro q
  by_cases same : q = p
  · rw [same, Function.update_self]
    exact calm
  · rw [Function.update_of_ne same]
    exact Calm.refl _

namespace Ptable

variable {Cpu : Type} {table after : Ptable Cpu} {p : ProcPtr}

/-- The entry that `kill` marks. -/
def named (pid : BitVec 32) (table : Ptable Cpu) : Option ProcPtr :=
  (List.finRange nproc).find? fun p => (table.proc p).pid == pid

theorem kill_cases (pid : BitVec 32) (table : Ptable Cpu) :
    (∃ p, table.named pid = some p ∧ (table.proc p).pid = pid ∧ table.kill pid =
      (table.setProc p
        { table.proc p with
          killed := true
          state := if table.state p = .sleeping then .runnable else table.state p }, 0)) ∨
    table.kill pid = (table, -1) := by
  cases found : table.named pid with
  | none =>
      right
      rw [named] at found
      rw [kill, found]
  | some p =>
      left
      have same := List.find?_some found
      rw [named] at found
      refine ⟨p, rfl, eq_of_beq same, ?_⟩
      rw [kill, found]

theorem wakeup1_calm (chan : Option Chan) (table : Ptable Cpu) :
    Calms table.proc (table.wakeup1 chan).proc := by
  intro q
  rw [wakeup1_proc]
  refine Or.inr ⟨rfl, fun free => ?_⟩
  rcases wakeup1_state chan table q with same | ⟨-, wakes⟩
  · exact same.symm.trans free
  · rw [show (table.wakeup1 chan).state q = .unused from free] at wakes
    cases wakes

/-- No free entry is marked. -/
def Clean (table : Ptable Cpu) : Prop :=
  ∀ p, table.state p = .unused → (table.proc p).killed = false

theorem boot_clean (initproc : ProcPtr) : (boot initproc : Ptable Cpu).Clean := by
  intro p _
  simp only [boot]
  split <;> rfl

theorem allocproc_calm (p : ProcPtr) (table : Ptable Cpu) :
    Calms table.proc (table.allocproc p).proc := by
  unfold allocproc
  split
  · exact Calms.update (Or.inr ⟨rfl, fun free => by cases free⟩)
  · exact Calms.refl _

variable [DecidableEq Cpu]

theorem dispatch_calm (c : Cpu) (first : Nat) (table : Ptable Cpu) :
    Calms table.proc (table.dispatch c first).proc := by
  rcases dispatch_cases c first table with ⟨p, -, same⟩ | same
  · rw [same]
    exact Calms.update (Or.inr ⟨rfl, fun free => by cases free⟩)
  · rw [same]
    exact Calms.refl _

theorem waitLoop_calm (c : Cpu) (p : ProcPtr) (table : Ptable Cpu) :
    Calms table.proc (table.waitLoop c p).proc := by
  rcases waitLoop_cases c p table with ⟨z, -, -, same⟩ | ⟨-, same | same⟩
  · rw [same]
    exact Calms.update (Or.inl rfl)
  · rw [same]
    exact Calms.refl _
  · rw [same]
    exact Calms.update (Or.inr ⟨rfl, fun free => by cases free⟩)

theorem exit_calm (c : Cpu) (p : ProcPtr) (table : Ptable Cpu) :
    Calms table.proc (table.exit c p).proc := by
  rcases exit_left c p table with ⟨passed, left, same⟩
  have leaves : Calms table.proc passed.proc := by
    intro q
    refine Or.inr ⟨by rw [left.fields], fun free => ?_⟩
    rcases left.state q with equal | ⟨-, wakes⟩
    · exact equal.symm.trans free
    · rw [show passed.state q = .unused from free] at wakes
      cases wakes
  have dies : Calms passed.proc (passed.setState p .zombie).proc :=
    Calms.update (Or.inr ⟨rfl, fun free => by cases free⟩)
  rw [same]
  exact leaves.trans dies

theorem enter_calm {c : Cpu} {p : ProcPtr} (ends : (table.enter c p).state? = some after) :
    Calms table.proc after.proc := by
  let tidy := table.setProc p { table.proc p with chan := none }
  have tidied : Calms table.proc tidy.proc := Calms.update (Or.inr ⟨rfl, id⟩)
  unfold enter at ends
  cases thread : table.thread p with
  | runs place =>
      simp only [thread] at ends
      cases ends
  | forkret =>
      simp only [thread] at ends
      cases ends
      exact Calms.refl _
  | yielded place =>
      simp only [thread] at ends
      cases ends
      exact Calms.refl _
  | slept place =>
      simp only [thread] at ends
      cases ends
      exact tidied
  | waiting =>
      simp only [thread] at ends
      cases ends
      exact tidied.trans (waitLoop_calm c p tidy)
  | exited =>
      simp only [thread] at ends
      cases ends

/-- The entry that a `fork` is filling in on the processor. -/
def making (c : Cpu) (table : Ptable Cpu) : Option ProcPtr :=
  (table.runner c).bind fun here => here.2.child

/-- A `kill` finds no free entry, and a `fork` without memory gives back an entry
that is not marked. -/
def Sound (table : Ptable Cpu) : TableEvent Cpu → Prop
  | .kill pid => ∀ p ∈ table.named pid, table.state p ≠ .unused
  | .kalloc c enough | .copyuvm c enough =>
      enough = false → ∀ np ∈ table.making c, (table.proc np).killed = false
  | _ => True

instance (table : Ptable Cpu) : (event : TableEvent Cpu) → Decidable (table.Sound event)
  | .kill pid => inferInstanceAs (Decidable (∀ p ∈ table.named pid, table.state p ≠ .unused))
  | .kalloc c enough | .copyuvm c enough =>
      inferInstanceAs (Decidable (enough = false →
        ∀ np ∈ table.making c, (table.proc np).killed = false))
  | .schedule _ | .loop _ | .enter _ | .yield _ | .sleep _ _ | .wakeup _ | .wait _ | .allocproc _
  | .parent _ | .fork _ | .exiting _ | .exit _ => isTrue trivial

theorem act_calm {c : Cpu} {place : Place} {event : TableEvent Cpu} (sound : table.Sound event)
    (runs : table.runner c = some (p, place)) (mine : TableEvent.cpu? event = some c)
    (ends : (table.act c p place event).state? = some after) :
    Calms table.proc after.proc := by
  rw [act.eq_def] at ends
  cases event with
  | yield other =>
      dsimp only at ends
      split at ends
      · cases ends
        exact Calms.update (Or.inr ⟨rfl, fun free => by cases free⟩)
      · cases ends
  | sleep other address =>
      dsimp only at ends
      split at ends
      · cases ends
        exact Calms.update (Or.inr ⟨rfl, fun free => by cases free⟩)
      · cases ends
  | wait other =>
      dsimp only at ends
      split at ends
      · cases ends
        exact waitLoop_calm c p table
      · cases ends
  | allocproc other =>
      dsimp only at ends
      split at ends
      · cases ends
        exact allocproc_calm p table
      · cases ends
  | kalloc other enough =>
      cases mine
      dsimp only at ends
      split at ends
      · split at ends
        · cases ends
          exact Calms.update (Or.inr ⟨rfl, id⟩)
        · rename_i np short
          cases ends
          have mine : table.making c = some np := by
            rw [making, runs]
            rfl
          exact Calms.update (Or.inl (sound (Bool.eq_false_iff.mpr short) np mine))
      · cases ends
  | copyuvm other enough =>
      cases mine
      dsimp only at ends
      split at ends
      · split at ends
        · cases ends
          exact Calms.update (Or.inr ⟨rfl, id⟩)
        · rename_i np short
          cases ends
          have mine : table.making c = some np := by
            rw [making, runs]
            rfl
          exact Calms.update (Or.inl (sound (Bool.eq_false_iff.mpr short) np mine))
      · cases ends
  | parent other =>
      dsimp only at ends
      split at ends
      · cases ends
        exact Calms.update (Or.inr ⟨rfl, id⟩)
      · cases ends
  | fork other =>
      dsimp only at ends
      split at ends
      · split at ends
        · cases ends
          exact Calms.update (Or.inr ⟨rfl, fun free => by cases free⟩)
        · cases ends
      · cases ends
  | exiting other =>
      dsimp only at ends
      split at ends
      · split at ends
        · cases ends
        · cases ends
          exact Calms.refl _
      · cases ends
  | exit other =>
      dsimp only at ends
      split at ends
      · cases ends
        exact exit_calm c p table
      · cases ends
  | _ => cases ends

/-- Only a `kill` marks a process. -/
theorem next_calm {event : TableEvent Cpu} (sound : table.Sound event)
    (other : ∀ pid, event ≠ .kill pid) (stepped : table.next event = some after) :
    Calms table.proc after.proc := by
  have acts : ∀ c, TableEvent.cpu? event = some c → Calms table.proc after.proc := by
    intro c mine
    rcases step_acts mine stepped with ⟨p, place, found, ends⟩
    exact act_calm sound found mine ends
  rw [next, step.eq_def] at stepped
  cases event with
  | schedule c =>
      dsimp only at stepped
      split at stepped
      · cases stepped
        exact dispatch_calm c 0 table
      · cases stepped
  | loop c =>
      dsimp only at stepped
      split at stepped
      · cases stepped
        exact dispatch_calm c _ { table with current := Function.update table.current c none }
      · cases stepped
  | enter c =>
      dsimp only at stepped
      split at stepped
      · exact enter_calm stepped
      · cases stepped
  | wakeup address =>
      dsimp only at stepped
      split at stepped
      · cases stepped
        exact wakeup1_calm _ table
      · cases stepped
  | kill pid => exact absurd rfl (other pid)
  | _ => exact acts _ rfl

/-- What a step does to the mark of a process. -/
theorem next_killed {event : TableEvent Cpu} (sound : table.Sound event)
    (stepped : table.next event = some after) (q : ProcPtr) :
    Calm (table.proc q) (after.proc q) ∨
      ∃ pid, event = .kill pid ∧ (table.proc q).pid = pid ∧ table.state q ≠ .unused ∧
        after.state q ≠ .unused := by
  by_cases kills : ∃ pid, event = .kill pid
  · rcases kills with ⟨pid, rfl⟩
    have ends : after = (table.kill pid).1 := by
      rw [next, step.eq_def] at stepped
      dsimp only at stepped
      split at stepped
      · cases stepped
        rfl
      · cases stepped
    rcases kill_cases pid table with ⟨p, found, same, marks⟩ | nobody
    · rw [ends, marks]
      have used := sound p found
      by_cases here : q = p
      · subst here
        refine Or.inr ⟨pid, rfl, same, used, ?_⟩
        rw [Ptable.state, setProc_proc_same]
        dsimp only
        split
        · intro free
          cases free
        · exact used
      · left
        rw [setProc_proc_of_ne table here]
        exact Calm.refl _
    · rw [ends, nobody]
      exact Or.inl (Calm.refl _)
  · exact Or.inl (next_calm sound (fun pid same => kills ⟨pid, same⟩) stepped q)

theorem Clean.step {event : TableEvent Cpu} (clean : table.Clean) (sound : table.Sound event)
    (stepped : table.next event = some after) : after.Clean := by
  intro q free
  rcases next_killed sound stepped q with (clear | ⟨kept, stays⟩) | ⟨pid, -, -, -, used⟩
  · exact clear
  · exact kept.trans (clean q (stays free))
  · exact absurd free used

/-- A process that is marked in a run was found by a `kill` of its own pid. -/
theorem runs_killed {events : List (TableEvent Cpu)} (sound : Throughout next Sound table events)
    (ran : runs next table events = some after) (clear : (table.proc p).killed = false)
    (marked : (after.proc p).killed = true) :
    ∃ front pid rest middle, events = front ++ .kill pid :: rest ∧
      runs next table front = some middle ∧ (middle.proc p).pid = pid ∧
      middle.state p ≠ .unused := by
  induction events generalizing table with
  | nil =>
      cases ran
      rw [clear] at marked
      cases marked
  | cons event rest inductionHypothesis =>
      rw [runs_cons] at ran
      rcases Option.bind_eq_some_iff.mp ran with ⟨middle, stepped, later⟩
      cases still : (middle.proc p).killed with
      | false =>
          rcases inductionHypothesis (sound.2 middle stepped) later still with
            ⟨front, pid, back, reached, split, run, same, used⟩
          refine ⟨event :: front, pid, back, reached, by rw [split]; rfl, ?_, same, used⟩
          rw [runs_cons, stepped]
          exact run
      | true =>
          rcases next_killed sound.1 stepped p with (clean | ⟨kept, -⟩) | ⟨pid, rfl, same, used, -⟩
          · rw [still] at clean
            cases clean
          · rw [still, clear] at kept
            cases kept
          · exact ⟨[], pid, rest, table, rfl, rfl, same, used⟩

/-- As long as every `kill` finds an entry in use and no failing `fork` gives back
a marked one, a `kill` that succeeds marks one process, with its pid, an entry is
taken without a mark, and whoever gets a mark is named by a `kill`. -/
theorem kill_marks_its_process (initproc : ProcPtr) (events : List (TableEvent Cpu))
    (table : Ptable Cpu) (ran : runs next (boot initproc) events = some table)
    (sound : Throughout next Sound (boot initproc) events) :
    (∀ pid, table.Sound (.kill pid) → (table.kill pid).2 = 0 →
      ∃ p, table.state p ≠ .unused ∧ (table.proc p).pid = pid ∧
        ∀ q, ((table.kill pid).1.proc q).killed = if q = p then true else (table.proc q).killed) ∧
    (∀ event after, table.Sound event → table.next event = some after →
      ∀ np, table.state np = .unused → (after.proc np).killed = false) ∧
    ∀ more after, Throughout next Sound table more → runs next table more = some after →
      ∀ p, (table.proc p).killed = false → (after.proc p).killed = true →
        ∃ front pid rest middle, more = front ++ .kill pid :: rest ∧
          runs next table front = some middle ∧ (middle.proc p).pid = pid ∧
          middle.state p ≠ .unused := by
  have clean : table.Clean := runs_invariant_throughout Clean (boot_clean initproc)
    (fun _ _ _ clean sound stepped => clean.step sound stepped) sound ran
  refine ⟨?_, ?_, ?_⟩
  · intro pid finds succeeds
    rcases kill_cases pid table with ⟨p, found, same, marks⟩ | nobody
    · refine ⟨p, finds p found, same, fun q => ?_⟩
      rw [marks]
      by_cases here : q = p
      · rw [if_pos here, here, setProc_proc_same]
      · rw [if_neg here, setProc_proc_of_ne table here]
    · rw [nobody] at succeeds
      cases succeeds
  · intro event after right stepped np free
    rcases next_killed right stepped np with (clear | ⟨kept, -⟩) | ⟨pid, -, -, used, -⟩
    · exact clear
    · exact kept.trans (clean np free)
    · exact absurd free used
  · intro more after right later p clear marked
    exact runs_killed right later clear marked

/-- Init forks a child, which is killed. -/
def forkAndKill : List (TableEvent Bool) :=
  [.schedule false, .enter false, .allocproc false, .kalloc false true, .copyuvm false true,
    .parent false, .fork false]

theorem kill_marks_its_process_once : ∃ table : Ptable Bool,
    runs next (boot firstProc) forkAndKill = some table ∧
    (table.kill 2).2 = 0 ∧ ∃ p, table.state p ≠ .unused ∧ (table.proc p).pid = 2 := by
  have facts : (runs next (boot firstProc) forkAndKill).map (fun table =>
      decide ((table.kill 2).2 = 0 ∧ table.Sound (.kill 2))) = some true := by
    decide +kernel
  have sound : Throughout next Sound (boot firstProc) forkAndKill := by decide +kernel
  rcases Option.map_eq_some_iff.mp facts with ⟨table, ran, holds⟩
  rcases of_decide_eq_true holds with ⟨succeeds, finds⟩
  rcases (kill_marks_its_process firstProc forkAndKill table ran sound).1 2 finds succeeds with
    ⟨p, used, same, -⟩
  exact ⟨table, ran, succeeds, p, used, same⟩

/-- `kill(0)` succeeds although no process has the pid 0, and the next child of
init starts with the mark. -/
theorem kill_marks_free_entry : ∃ table : Ptable Bool,
    ((boot firstProc : Ptable Bool).kill 0).2 = 0 ∧
    (∀ p, (boot firstProc : Ptable Bool).state p ≠ .unused →
      ((boot firstProc : Ptable Bool).proc p).pid ≠ 0) ∧
    runs next (boot firstProc) (.kill 0 :: forkAndKill) = some table ∧
    table.state secondProc = .runnable ∧ (table.proc secondProc).pid = 2 ∧
    (table.proc secondProc).killed = true := by
  have facts : (runs next (boot firstProc) (.kill 0 :: forkAndKill)).map (fun table =>
      decide (table.state secondProc = .runnable ∧ (table.proc secondProc).pid = 2 ∧
        (table.proc secondProc).killed = true)) = some true := by
    decide +kernel
  rcases Option.map_eq_some_iff.mp facts with ⟨table, ran, holds⟩
  exact ⟨table, by decide +kernel, by decide +kernel, ran, of_decide_eq_true holds⟩

end Ptable

end Xv6.Sched
