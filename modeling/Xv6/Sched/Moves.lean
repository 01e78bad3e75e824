import Xv6.Sched.Table

/-!
# What a step of the process table can do

One inversion of the step function, and what the loops over the table end with.
-/

namespace Xv6.Sched

open Xv6.Library

/-- The child that `fork` is making. -/
def Place.child : Place → Option ProcPtr
  | .allocated np | .stacked np | .copied np | .parented np => some np
  | .elsewhere | .exiting => none

/-- Where a thread is, or goes on, outside the lock. -/
def Thread.place : Thread → Place
  | .runs place | .yielded place | .slept place => place
  | .forkret | .waiting | .exited => .elsewhere

/-- Where a thread goes on after the lock is released. -/
def Thread.resume : Thread → Option Place
  | .yielded place | .slept place => some place
  | .forkret => some .elsewhere
  | .runs _ | .waiting | .exited => none

namespace Ptable

variable {Cpu : Type} {table after : Ptable Cpu}

@[simp]
theorem setProc_proc_same (table : Ptable Cpu) (p : ProcPtr) (proc : Proc) :
    (table.setProc p proc).proc p = proc := Function.update_self _ _ _

theorem setProc_proc_of_ne (table : Ptable Cpu) {p q : ProcPtr} (different : q ≠ p) (proc : Proc) :
    (table.setProc p proc).proc q = table.proc q := Function.update_of_ne different _ _

theorem state_setProc (table : Ptable Cpu) (p : ProcPtr) (proc : Proc) :
    (table.setProc p proc).state = Function.update table.state p proc.state := by
  funext q
  by_cases same : q = p
  · subst same
    rw [Function.update_self]
    exact congrArg Proc.state (table.setProc_proc_same q proc)
  · rw [Function.update_of_ne same]
    exact congrArg Proc.state (table.setProc_proc_of_ne same proc)

theorem setProc_self (table : Ptable Cpu) (p : ProcPtr) :
    table.setProc p (table.proc p) = table := by
  unfold setProc
  rw [Function.update_eq_self]

variable [DecidableEq Cpu]

theorem dispatch_cases (c : Cpu) (first : Nat) (table : Ptable Cpu) :
    (∃ p, table.state p = .runnable ∧ table.dispatch c first =
      { table.setState p .running with
        lock := some c
        core := Function.update table.core c (.entering p)
        current := Function.update table.current c (some p) }) ∨
    table.dispatch c first =
      { table with
        lock := none
        core := Function.update table.core c .idle } := by
  unfold dispatch
  split
  · rename_i p found
    have suitable := List.find?_some found
    simp only [Bool.and_eq_true, decide_eq_true_eq] at suitable
    exact Or.inl ⟨p, suitable.2, rfl⟩
  · exact Or.inr rfl

/-- `wait` reports a dead child, or it has none. -/
theorem waitLoop_cases (c : Cpu) (p : ProcPtr) (table : Ptable Cpu) :
    (∃ z, (table.proc z).parent = some p ∧ table.state z = .zombie ∧ table.waitLoop c p =
      (((table.setProc z
        { table.proc z with
          kstack := false, pgdir := false, pid := 0, parent := none, killed := false
          state := .unused }).record z (.reported p (table.proc z).pid)).release c p .elsewhere)) ∨
    ((∀ z, (table.proc z).parent = some p → table.state z ≠ .zombie) ∧
      (table.waitLoop c p = table.release c p .elsewhere ∨
        table.waitLoop c p =
          (table.setProc p
            { table.proc p with chan := some (.proc p), state := .sleeping }).sched c p
              .waiting)) := by
  unfold waitLoop
  split
  · rename_i z found
    have suitable := List.find?_some found
    simp only [Bool.and_eq_true, decide_eq_true_eq] at suitable
    exact Or.inl ⟨z, suitable.1, suitable.2, rfl⟩
  · rename_i missing
    refine Or.inr ⟨?_, ?_⟩
    · intro z child dead
      have other := List.find?_eq_none.mp missing z (List.mem_finRange z)
      simp [child, dead] at other
    · dsimp only
      split
      · exact Or.inl rfl
      · exact Or.inr rfl

end Ptable

namespace Ptable

variable {Cpu : Type} {table middle after : Ptable Cpu} {p : ProcPtr}

theorem wakeup1_proc (chan : Option Chan) (table : Ptable Cpu) (q : ProcPtr) :
    (table.wakeup1 chan).proc q =
      { table.proc q with state := (table.wakeup1 chan).state q } := by
  have woken : (table.wakeup1 chan).proc q =
      if table.state q = .sleeping ∧ (table.proc q).chan = chan then
        { table.proc q with state := .runnable }
      else table.proc q := rfl
  by_cases sleeps : table.state q = .sleeping ∧ (table.proc q).chan = chan
  · rw [if_pos sleeps] at woken
    rw [Ptable.state, woken]
  · rw [if_neg sleeps] at woken
    rw [Ptable.state, woken]

theorem wakeup1_state (chan : Option Chan) (table : Ptable Cpu) (q : ProcPtr) :
    (table.wakeup1 chan).state q = table.state q ∨
      (table.state q = .sleeping ∧ (table.wakeup1 chan).state q = .runnable) := by
  unfold wakeup1 state
  dsimp only
  split
  · rename_i sleeps
    exact Or.inr ⟨sleeps.1, rfl⟩
  · exact Or.inl rfl

/-- Nobody sleeps on the channel any more. -/
theorem wakeup1_woken (chan : Option Chan) (table : Ptable Cpu) (q : ProcPtr)
    (sleeps : (table.wakeup1 chan).state q = .sleeping) : (table.proc q).chan ≠ chan := by
  intro same
  unfold wakeup1 state at sleeps
  dsimp only at sleeps
  split at sleeps
  · cases sleeps
  · rename_i awake
    exact awake ⟨sleeps, same⟩

/-- What passing some of the children of `p` to init does. -/
structure Passed (p : ProcPtr) (children : List ProcPtr) (table after : Ptable Cpu) : Prop where
  frame : after = { table with proc := after.proc }
  fields : ∀ q, after.proc q =
    { table.proc q with
      state := after.state q
      parent := if (table.proc q).parent = some p ∧ q ∈ children then some table.initproc
        else (table.proc q).parent }
  state : ∀ q, after.state q = table.state q ∨
    (table.state q = .sleeping ∧ after.state q = .runnable)
  woken : ∀ z ∈ children, (table.proc z).parent = some p → table.state z = .zombie →
    after.state table.initproc = .sleeping →
      (table.proc table.initproc).chan ≠ some (.proc table.initproc)

theorem Passed.none (p : ProcPtr) (table : Ptable Cpu) : Passed p [] table table := by
  refine ⟨rfl, fun q => ?_, fun q => Or.inl rfl, nofun⟩
  simp [Ptable.state]

theorem abandon_passed (p child : ProcPtr) (table : Ptable Cpu) :
    Passed p [child] table (table.abandon p child) := by
  unfold abandon
  by_cases mine : (table.proc child).parent = some p
  · rw [if_pos mine]
    let passed := table.setProc child { table.proc child with parent := some table.initproc }
    have fields : ∀ q, passed.proc q =
        { table.proc q with
          parent := if (table.proc q).parent = some p ∧ q ∈ [child] then some table.initproc
            else (table.proc q).parent } := by
      intro q
      by_cases same : q = child
      · subst same
        simp [passed, mine]
      · simp only [passed, setProc_proc_of_ne table same, List.mem_singleton, same, and_false,
          if_false]
    have states : ∀ q, passed.state q = table.state q := by
      intro q
      rw [Ptable.state, fields q]
      rfl
    dsimp only
    split
    · refine ⟨rfl, ?_, ?_, ?_⟩
      · intro q
        rw [wakeup1_proc, fields q]
      · intro q
        rw [← states]
        exact wakeup1_state _ passed q
      · intro z _ _ _ sleeps
        have away := wakeup1_woken _ passed table.initproc sleeps
        rw [fields] at away
        exact away
    · rename_i alive
      refine ⟨rfl, ?_, fun q => Or.inl (states q), ?_⟩
      · intro q
        rw [show (table.setProc child _).state q = table.state q from states q]
        exact fields q
      · intro z member _ dead
        rw [List.mem_singleton.mp member, ← states] at dead
        exact absurd dead alive
  · rw [if_neg mine]
    refine ⟨rfl, ?_, fun q => Or.inl rfl, ?_⟩
    · intro q
      have other : ¬((table.proc q).parent = some p ∧ q ∈ [child]) := by
        rintro ⟨parent, member⟩
        rw [List.mem_singleton.mp member] at parent
        exact mine parent
      rw [if_neg other]
      rfl
    · intro z member parent
      rw [List.mem_singleton.mp member] at parent
      exact absurd parent mine

theorem Passed.trans {first second : List ProcPtr} (former : Passed p first table middle)
    (latter : Passed p second middle after) : Passed p (first ++ second) table after := by
  have init : middle.initproc = table.initproc := by rw [former.frame]
  refine ⟨?_, ?_, ?_, ?_⟩
  · rw [latter.frame, former.frame]
  · intro q
    have before := former.fields q
    rw [latter.fields q, before, init]
    by_cases mine : (table.proc q).parent = some p
    · by_cases here : q ∈ first
      · simp [mine, here]
      · by_cases there : q ∈ second <;> simp [mine, here, there]
    · simp [mine]
  · intro q
    rcases former.state q with same | ⟨sleeps, wakes⟩
    · rw [← same]
      exact latter.state q
    · rcases latter.state q with same | ⟨again, -⟩
      · exact Or.inr ⟨sleeps, same.trans wakes⟩
      · rw [wakes] at again
        cases again
  · intro z member parent dead sleeps
    have chan : (middle.proc table.initproc).chan = (table.proc table.initproc).chan := by
      rw [former.fields]
    rcases List.mem_append.mp member with here | there
    · have before : middle.state table.initproc = .sleeping := by
        rcases latter.state table.initproc with same | ⟨slept, -⟩
        · rw [← same]
          exact sleeps
        · exact slept
      exact former.woken z here parent dead before
    · by_cases here : z ∈ first
      · have before : middle.state table.initproc = .sleeping := by
          rcases latter.state table.initproc with same | ⟨slept, -⟩
          · rw [← same]
            exact sleeps
          · exact slept
        exact former.woken z here parent dead before
      · have still : (middle.proc z).parent = some p := by
          rw [former.fields z]
          simp [here, parent]
        have also : middle.state z = .zombie := by
          rcases former.state z with same | ⟨slept, -⟩
          · rw [same]
            exact dead
          · rw [dead] at slept
            cases slept
        rw [← init] at sleeps chan ⊢
        rw [← chan]
        exact latter.woken z there still also sleeps

theorem abandon_all (p : ProcPtr) (children : List ProcPtr) (table : Ptable Cpu) :
    Passed p children table (children.foldl (fun table child => table.abandon p child) table) := by
  induction children generalizing table with
  | nil => exact Passed.none p table
  | cons child rest inductionHypothesis =>
      exact (abandon_passed p child table).trans (inductionHypothesis (table.abandon p child))

/-- What `exit` does before the process becomes a zombie: whoever waits for it is
woken, and its children are passed to init. -/
structure Left (p : ProcPtr) (table after : Ptable Cpu) : Prop where
  frame : after = { table with proc := after.proc }
  fields : ∀ q, after.proc q =
    { table.proc q with
      state := after.state q
      parent := if (table.proc q).parent = some p then some table.initproc
        else (table.proc q).parent }
  state : ∀ q, after.state q = table.state q ∨
    (table.state q = .sleeping ∧ after.state q = .runnable)
  parent : ∀ q, (table.proc p).parent = some q → after.state q = .sleeping →
    (table.proc q).chan ≠ some (.proc q)
  init : ∀ z, (table.proc z).parent = some p → table.state z = .zombie →
    after.state table.initproc = .sleeping →
      (table.proc table.initproc).chan ≠ some (.proc table.initproc)

theorem exit_left [DecidableEq Cpu] (c : Cpu) (p : ProcPtr) (table : Ptable Cpu) :
    ∃ passed, Left p table passed ∧ table.exit c p =
      ((passed.setState p .zombie).record p (.exited (table.proc p).pid)).sched c p .exited := by
  let woken := table.wakeup1 ((table.proc p).parent.map Chan.proc)
  have passed := abandon_all p (List.finRange nproc) woken
  refine ⟨_, ⟨?_, ?_, ?_, ?_, ?_⟩, rfl⟩
  · exact passed.frame
  · intro q
    rw [passed.fields q, wakeup1_proc]
    simp only [List.mem_finRange, and_true]
    rfl
  · intro q
    rcases passed.state q with same | ⟨sleeps, wakes⟩
    · rw [same]
      exact wakeup1_state _ table q
    · rcases wakeup1_state ((table.proc p).parent.map Chan.proc) table q with same | ⟨-, woke⟩
      · exact Or.inr ⟨same.symm.trans sleeps, wakes⟩
      · rw [show woken.state q = _ from woke] at sleeps
        cases sleeps
  · intro q parent sleeps
    have before : woken.state q = .sleeping := by
      rcases passed.state q with same | ⟨slept, -⟩
      · rw [← same]
        exact sleeps
      · exact slept
    have away := wakeup1_woken _ table q before
    rw [parent] at away
    exact away
  · intro z parent dead sleeps
    have fields := wakeup1_proc ((table.proc p).parent.map Chan.proc) table
    have chan : (woken.proc table.initproc).chan = (table.proc table.initproc).chan := by
      rw [fields]
    have still : (woken.proc z).parent = some p := by
      rw [fields]
      exact parent
    have also : woken.state z = .zombie := by
      rcases wakeup1_state ((table.proc p).parent.map Chan.proc) table z with same | ⟨slept, -⟩
      · exact same.trans dead
      · rw [dead] at slept
        cases slept
    rw [← chan]
    exact passed.woken z (List.mem_finRange z) still also sleeps

/-- `p` runs on `c` outside the lock. -/
def Runs (table : Ptable Cpu) (c : Cpu) (p : ProcPtr) (place : Place) : Prop :=
  table.core c = .running p ∧ table.thread p = .runs place

theorem runner_runs {c : Cpu} {p : ProcPtr} {place : Place}
    (found : table.runner c = some (p, place)) : table.Runs c p place := by
  unfold runner at found
  cases core : table.core c with
  | running q =>
      simp only [core] at found
      cases thread : table.thread q with
      | runs here =>
          simp only [thread] at found
          cases found
          exact ⟨core, thread⟩
      | _ =>
          simp only [thread] at found
          cases found
  | _ =>
      simp only [core] at found
      cases found

variable [DecidableEq Cpu]

/-- What a step can do. -/
inductive Moves (table : Ptable Cpu) : Ptable Cpu → Prop where
  | schedule {c : Cpu} (idle : table.core c = .idle) (free : table.lock = none) :
      Moves table (table.dispatch c 0)
  | loop {c : Cpu} {p : ProcPtr} (loops : table.core c = .looping p) :
      Moves table
        ({ table with current := Function.update table.current c none }.dispatch c (p.val + 1))
  | enter {c : Cpu} {p : ProcPtr} {place : Place} (enters : table.core c = .entering p)
      (resumes : (table.thread p).resume = some place) (chan : Option Chan) :
      Moves table ((table.setProc p { table.proc p with chan := chan }).release c p place)
  | enterWait {c : Cpu} {p : ProcPtr} (enters : table.core c = .entering p)
      (waits : table.thread p = .waiting) :
      Moves table ((table.setProc p { table.proc p with chan := none }).waitLoop c p)
  | wakeup (address : Nat) (free : table.lock = none) :
      Moves table (table.wakeup1 (some (.other address)))
  | kill (pid : BitVec 32) (free : table.lock = none) : Moves table (table.kill pid).1
  | yield {c : Cpu} {p : ProcPtr} {place : Place} (runs : table.Runs c p place)
      (free : table.lock = none) :
      Moves table ((table.setState p .runnable).sched c p (.yielded place))
  | sleep {c : Cpu} {p : ProcPtr} {place : Place} (address : Nat) (runs : table.Runs c p place)
      (free : table.lock = none) :
      Moves table
        ((table.setProc p
          { table.proc p with chan := some (.other address), state := .sleeping }).sched c p
            (.slept place))
  | wait {c : Cpu} {p : ProcPtr} (runs : table.Runs c p .elsewhere) (free : table.lock = none) :
      Moves table (table.waitLoop c p)
  | allocproc {c : Cpu} {p : ProcPtr} (runs : table.Runs c p .elsewhere)
      (free : table.lock = none) : Moves table (table.allocproc p)
  | kalloc {c : Cpu} {p np : ProcPtr} (runs : table.Runs c p (.allocated np)) :
      Moves table (((table.setProc np { table.proc np with kstack := true }).setThread np
        .forkret).setThread p (.runs (.stacked np)))
  | copyuvm {c : Cpu} {p np : ProcPtr} (runs : table.Runs c p (.stacked np)) :
      Moves table ((table.setProc np { table.proc np with pgdir := true }).setThread p
        (.runs (.copied np)))
  | parent {c : Cpu} {p np : ProcPtr} (runs : table.Runs c p (.copied np)) :
      Moves table ((table.setProc np { table.proc np with parent := some p }).setThread p
        (.runs (.parented np)))
  | fork {c : Cpu} {p np : ProcPtr} (runs : table.Runs c p (.parented np))
      (free : table.lock = none) :
      Moves table ((table.setState np .runnable).setThread p (.runs .elsewhere))
  | discard {c : Cpu} {p np : ProcPtr} {place : Place} (runs : table.Runs c p place)
      (child : place = .allocated np ∨ place = .stacked np) : Moves table (table.discard p np)
  | exiting {c : Cpu} {p : ProcPtr} (runs : table.Runs c p .elsewhere)
      (other : p ≠ table.initproc) : Moves table (table.setThread p (.runs .exiting))
  | exit {c : Cpu} {p : ProcPtr} (runs : table.Runs c p .exiting) (free : table.lock = none) :
      Moves table (table.exit c p)

theorem act_moves {c : Cpu} {p : ProcPtr} {place : Place} {event : TableEvent Cpu}
    (runs : table.Runs c p place) (ends : (table.act c p place event).state? = some after) :
    table.Moves after := by
  rw [act.eq_def] at ends
  cases event with
  | yield other =>
      dsimp only at ends
      split at ends
      · cases ends
        exact .yield runs ‹_›
      · cases ends
  | sleep other address =>
      dsimp only at ends
      split at ends
      · cases ends
        exact .sleep address runs ‹_›
      · cases ends
  | wait other =>
      dsimp only at ends
      split at ends
      · rename_i guard
        rcases guard with ⟨rfl, free⟩
        cases ends
        exact .wait runs free
      · cases ends
  | allocproc other =>
      dsimp only at ends
      split at ends
      · rename_i guard
        rcases guard with ⟨rfl, free⟩
        cases ends
        exact .allocproc runs free
      · cases ends
  | kalloc other enough =>
      dsimp only at ends
      split at ends
      · split at ends
        · cases ends
          exact .kalloc runs
        · cases ends
          exact .discard runs (Or.inl rfl)
      · cases ends
  | copyuvm other enough =>
      dsimp only at ends
      split at ends
      · split at ends
        · cases ends
          exact .copyuvm runs
        · cases ends
          exact .discard runs (Or.inr rfl)
      · cases ends
  | parent other =>
      dsimp only at ends
      split at ends
      · cases ends
        exact .parent runs
      · cases ends
  | fork other =>
      dsimp only at ends
      split at ends
      · split at ends
        · cases ends
          exact .fork runs ‹_›
        · cases ends
      · cases ends
  | exiting other =>
      dsimp only at ends
      split at ends
      · rename_i same
        subst same
        split at ends
        · cases ends
        · cases ends
          exact .exiting runs ‹_›
      · cases ends
  | exit other =>
      dsimp only at ends
      split at ends
      · rename_i guard
        rcases guard with ⟨rfl, free⟩
        cases ends
        exact .exit runs free
      · cases ends
  | _ => cases ends

theorem enter_moves {c : Cpu} {p : ProcPtr} (enters : table.core c = .entering p)
    (ends : (table.enter c p).state? = some after) : table.Moves after := by
  have same : table.setProc p { table.proc p with chan := (table.proc p).chan } = table :=
    table.setProc_self p
  have moves : ∀ place, (table.thread p).resume = some place →
      table.Moves (table.release c p place) := by
    intro place resumes
    have move := Moves.enter enters resumes (table.proc p).chan
    rwa [same] at move
  unfold enter at ends
  cases thread : table.thread p with
  | runs place =>
      simp only [thread] at ends
      cases ends
  | forkret =>
      simp only [thread] at ends
      cases ends
      exact moves .elsewhere (by rw [thread]; rfl)
  | yielded place =>
      simp only [thread] at ends
      cases ends
      exact moves place (by rw [thread]; rfl)
  | slept place =>
      simp only [thread] at ends
      cases ends
      exact .enter enters (by rw [thread]; rfl) none
  | waiting =>
      simp only [thread] at ends
      cases ends
      exact .enterWait enters thread
  | exited =>
      simp only [thread] at ends
      cases ends

/-- A step of a process is taken by the one that runs on the processor. -/
theorem step_acts {event : TableEvent Cpu} {c : Cpu} (mine : TableEvent.cpu? event = some c)
    (ends : (table.step event).state? = some after) :
    ∃ p place, table.runner c = some (p, place) ∧
      (table.act c p place event).state? = some after := by
  rw [step.eq_def] at ends
  cases event with
  | schedule other => cases mine
  | loop other => cases mine
  | enter other => cases mine
  | wakeup address => cases mine
  | kill pid => cases mine
  | _ =>
      cases mine
      dsimp only [TableEvent.cpu?] at ends
      split at ends
      · exact ⟨_, _, ‹_›, ends⟩
      · cases ends

theorem next_moves {event : TableEvent Cpu} (stepped : table.next event = some after) :
    table.Moves after := by
  have acts : ∀ c, TableEvent.cpu? event = some c → table.Moves after := by
    intro c mine
    rcases step_acts mine stepped with ⟨p, place, found, ends⟩
    exact act_moves (runner_runs found) ends
  rw [next, step.eq_def] at stepped
  cases event with
  | schedule c =>
      dsimp only at stepped
      split at stepped
      · rename_i guard
        cases stepped
        exact .schedule guard.1 guard.2
      · cases stepped
  | loop c =>
      dsimp only at stepped
      split at stepped
      · cases stepped
        exact .loop ‹_›
      · cases stepped
  | enter c =>
      dsimp only at stepped
      split at stepped
      · exact enter_moves ‹_› stepped
      · cases stepped
  | wakeup address =>
      dsimp only at stepped
      split at stepped
      · cases stepped
        exact .wakeup address ‹_›
      · cases stepped
  | kill pid =>
      dsimp only at stepped
      split at stepped
      · cases stepped
        exact .kill pid ‹_›
      · cases stepped
  | _ => exact acts _ rfl

end Ptable

end Xv6.Sched
