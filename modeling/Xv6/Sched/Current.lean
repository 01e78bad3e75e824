import Xv6.Sched.Moves

/-!
# Who runs where

A process is current on at most one processor, and while the lock is free it is
running exactly when it is current on one. The table is seen through four of its
fields; the entry that `fork` fills belongs to one process until it is runnable.
-/

namespace Xv6.Sched

open Xv6.Library

variable {Cpu : Type}

/-- The process a processor is busy with. -/
def Core.proc? : Core → Option ProcPtr
  | .idle => none
  | .looping p | .entering p | .running p => some p

theorem Core.proc?_active {core : Core} {p : ProcPtr}
    (active : core = .entering p ∨ core = .running p) : core.proc? = some p := by
  rcases active with here | here <;> rw [here] <;> rfl

/-- A thread of the processor has the lock. -/
def Core.Locks : Core → Prop
  | .looping _ | .entering _ => True
  | .idle | .running _ => False

structure Scheduled (lock : Option Cpu) (core : Cpu → Core) (current : Cpu → Option ProcPtr)
    (state : ProcPtr → ProcState) : Prop where
  current : ∀ c, current c = (core c).proc?
  once : ∀ c d p, (core c).proc? = some p → (core d).proc? = some p → c = d
  locks : ∀ c, (core c).Locks ↔ lock = some c
  running : ∀ c p, core c = .entering p ∨ core c = .running p → state p = .running
  active : ∀ p, state p = .running → ∃ c, core c = .entering p ∨ core c = .running p

namespace Scheduled

variable {lock : Option Cpu} {core : Cpu → Core} {current : Cpu → Option ProcPtr}
  {state after : ProcPtr → ProcState} {c : Cpu} {p : ProcPtr}

/-- No process starts or stops running. -/
theorem quiet (scheduled : Scheduled lock core current state)
    (same : ∀ q, after q = .running ↔ state q = .running) : Scheduled lock core current after := by
  refine ⟨scheduled.current, scheduled.once, scheduled.locks, ?_, ?_⟩
  · intro c p active
    exact (same p).mpr (scheduled.running c p active)
  · intro p runs
    exact scheduled.active p ((same p).mp runs)

/-- Nobody else has the lock when it is free or this processor has it. -/
theorem alone (scheduled : Scheduled lock core current state) (mine : lock = none ∨ lock = some c)
    {d : Cpu} (other : d ≠ c) : ¬(core d).Locks := by
  intro locks
  have holds := (scheduled.locks d).mp locks
  rcases mine with free | mine
  · rw [free] at holds
    cases holds
  · rw [mine] at holds
    cases holds
    exact other rfl

/-- A scheduler that is back from a process has the lock. -/
theorem loops (scheduled : Scheduled lock core current state) (loops : core c = .looping p) :
    lock = some c := by
  apply (scheduled.locks c).mp
  rw [loops]
  trivial

/-- A process that was switched to has the lock. -/
theorem enters (scheduled : Scheduled lock core current state) (enters : core c = .entering p) :
    lock = some c := by
  apply (scheduled.locks c).mp
  rw [enters]
  trivial

variable [DecidableEq Cpu]

theorem release (scheduled : Scheduled lock core current state) (mine : lock = none ∨ lock = some c)
    (active : core c = .entering p ∨ core c = .running p) :
    Scheduled none (Function.update core c (.running p)) current state := by
  have proc : ∀ d, (Function.update core c (.running p) d).proc? = (core d).proc? := by
    intro d
    by_cases same : d = c
    · subst same
      rw [Function.update_self]
      exact (Core.proc?_active active).symm
    · rw [Function.update_of_ne same]
  refine ⟨?_, ?_, ?_, ?_, ?_⟩
  · intro d
    rw [proc]
    exact scheduled.current d
  · intro d e q
    rw [proc, proc]
    exact scheduled.once d e q
  · intro d
    refine ⟨fun locks => ?_, nofun⟩
    by_cases same : d = c
    · subst same
      rw [Function.update_self] at locks
      exact locks.elim
    · rw [Function.update_of_ne same] at locks
      exact absurd locks (scheduled.alone mine same)
  · intro d q runs
    by_cases same : d = c
    · subst same
      rw [Function.update_self] at runs
      rcases runs with enters | runs
      · cases enters
      · cases runs
        exact scheduled.running d p active
    · rw [Function.update_of_ne same] at runs
      exact scheduled.running d q runs
  · intro q runs
    rcases scheduled.active q runs with ⟨d, here⟩
    by_cases same : d = c
    · subst same
      have equal := (Core.proc?_active active).symm.trans (Core.proc?_active here)
      cases equal
      exact ⟨d, Or.inr (Function.update_self _ _ _)⟩
    · exact ⟨d, by rwa [Function.update_of_ne same]⟩

theorem sched (scheduled : Scheduled lock core current state) (mine : lock = none ∨ lock = some c)
    (active : core c = .entering p ∨ core c = .running p) (stops : after p ≠ .running)
    (same : ∀ q, q ≠ p → (after q = .running ↔ state q = .running)) :
    Scheduled (some c) (Function.update core c (.looping p)) current after := by
  have proc : ∀ d, (Function.update core c (.looping p) d).proc? = (core d).proc? := by
    intro d
    by_cases here : d = c
    · subst here
      rw [Function.update_self]
      exact (Core.proc?_active active).symm
    · rw [Function.update_of_ne here]
  have mineOnly : ∀ d, core d = .entering p ∨ core d = .running p → d = c := by
    intro d here
    exact scheduled.once d c p (Core.proc?_active here) (Core.proc?_active active)
  refine ⟨?_, ?_, ?_, ?_, ?_⟩
  · intro d
    rw [proc]
    exact scheduled.current d
  · intro d e q
    rw [proc, proc]
    exact scheduled.once d e q
  · intro d
    by_cases here : d = c
    · subst here
      rw [Function.update_self]
      exact ⟨fun _ => rfl, fun _ => trivial⟩
    · rw [Function.update_of_ne here]
      refine ⟨fun locks => absurd locks (scheduled.alone mine here), ?_⟩
      intro holds
      cases holds
      exact absurd rfl here
  · intro d q runs
    by_cases here : d = c
    · subst here
      rw [Function.update_self] at runs
      rcases runs with runs | runs <;> cases runs
    · rw [Function.update_of_ne here] at runs
      have different : q ≠ p := by
        rintro rfl
        exact here (mineOnly d runs)
      exact (same q different).mpr (scheduled.running d q runs)
  · intro q runs
    have different : q ≠ p := by
      rintro rfl
      exact stops runs
    rcases scheduled.active q ((same q different).mp runs) with ⟨d, here⟩
    have apart : d ≠ c := by
      rintro rfl
      have equal := (Core.proc?_active active).symm.trans (Core.proc?_active here)
      cases equal
      exact different rfl
    exact ⟨d, by rwa [Function.update_of_ne apart]⟩

/-- The scheduler finds nobody. -/
theorem rest (scheduled : Scheduled lock core current state) (mine : lock = none ∨ lock = some c)
    (picks : core c = .idle ∨ ∃ p, core c = .looping p) :
    Scheduled none (Function.update core c .idle) (Function.update current c none) state := by
  have apart : ∀ d q, core d = .entering q ∨ core d = .running q → d ≠ c := by
    rintro d q runs rfl
    rcases picks with here | ⟨p, here⟩ <;> rcases runs with there | there <;>
    · rw [here] at there
      cases there
  have proc : ∀ d, (Function.update core c .idle d).proc? =
      if d = c then none else (core d).proc? := by
    intro d
    by_cases same : d = c
    · rw [if_pos same, same, Function.update_self]
      rfl
    · rw [if_neg same, Function.update_of_ne same]
  refine ⟨?_, ?_, ?_, ?_, ?_⟩
  · intro d
    rw [proc]
    by_cases same : d = c
    · rw [if_pos same, same, Function.update_self]
    · rw [if_neg same, Function.update_of_ne same]
      exact scheduled.current d
  · intro d e q
    rw [proc, proc]
    split
    · exact nofun
    · split
      · exact fun _ => nofun
      · exact scheduled.once d e q
  · intro d
    refine ⟨fun locks => ?_, nofun⟩
    by_cases same : d = c
    · subst same
      rw [Function.update_self] at locks
      exact locks.elim
    · rw [Function.update_of_ne same] at locks
      exact absurd locks (scheduled.alone mine same)
  · intro d q runs
    by_cases same : d = c
    · subst same
      rw [Function.update_self] at runs
      rcases runs with runs | runs <;> cases runs
    · rw [Function.update_of_ne same] at runs
      exact scheduled.running d q runs
  · intro q runs
    rcases scheduled.active q runs with ⟨d, here⟩
    exact ⟨d, by rwa [Function.update_of_ne (apart d q here)]⟩

/-- The scheduler switches to a runnable process. -/
theorem pick (scheduled : Scheduled lock core current state) (mine : lock = none ∨ lock = some c)
    (picks : core c = .idle ∨ ∃ p, core c = .looping p) (runnable : state p = .runnable) :
    Scheduled (some c) (Function.update core c (.entering p)) (Function.update current c (some p))
      (Function.update state p .running) := by
  have apart : ∀ d q, core d = .entering q ∨ core d = .running q → d ≠ c := by
    rintro d q runs rfl
    rcases picks with here | ⟨p, here⟩ <;> rcases runs with there | there <;>
    · rw [here] at there
      cases there
  -- Nobody else is busy with a runnable process.
  have nobody : ∀ d, d ≠ c → (core d).proc? ≠ some p := by
    intro d other busy
    have free := scheduled.alone mine other
    cases here : core d with
    | idle =>
        rw [here] at busy
        cases busy
    | looping q =>
        rw [here] at free
        exact free trivial
    | entering q =>
        rw [here] at free
        exact free trivial
    | running q =>
        rw [here] at busy
        cases busy
        have runs := scheduled.running d p (Or.inr here)
        rw [runnable] at runs
        cases runs
  refine ⟨?_, ?_, ?_, ?_, ?_⟩
  · intro d
    by_cases same : d = c
    · rw [same, Function.update_self, Function.update_self]
      rfl
    · rw [Function.update_of_ne same, Function.update_of_ne same]
      exact scheduled.current d
  · intro d e q first second
    by_cases former : d = c <;> by_cases latter : e = c
    · rw [former, latter]
    · subst former
      rw [Function.update_self] at first
      rw [Function.update_of_ne latter] at second
      cases first
      exact absurd second (nobody e latter)
    · subst latter
      rw [Function.update_self] at second
      rw [Function.update_of_ne former] at first
      cases second
      exact absurd first (nobody d former)
    · rw [Function.update_of_ne former] at first
      rw [Function.update_of_ne latter] at second
      exact scheduled.once d e q first second
  · intro d
    by_cases same : d = c
    · subst same
      rw [Function.update_self]
      exact ⟨fun _ => rfl, fun _ => trivial⟩
    · rw [Function.update_of_ne same]
      refine ⟨fun locks => absurd locks (scheduled.alone mine same), ?_⟩
      intro holds
      cases holds
      exact absurd rfl same
  · intro d q runs
    by_cases same : d = c
    · subst same
      rw [Function.update_self] at runs
      rcases runs with enters | runs
      · cases enters
        exact Function.update_self _ _ _
      · cases runs
    · rw [Function.update_of_ne same] at runs
      by_cases equal : q = p
      · rw [equal, Function.update_self]
      · rw [Function.update_of_ne equal]
        exact scheduled.running d q runs
  · intro q runs
    by_cases equal : q = p
    · subst equal
      exact ⟨c, Or.inl (Function.update_self _ _ _)⟩
    · rw [Function.update_of_ne equal] at runs
      rcases scheduled.active q runs with ⟨d, here⟩
      exact ⟨d, by rwa [Function.update_of_ne (apart d q here)]⟩

end Scheduled

/-- The entry that `fork` fills is an embryo, and nobody else fills it. -/
structure Forking (state : ProcPtr → ProcState) (thread : ProcPtr → Thread) : Prop where
  embryo : ∀ p np, (thread p).place.child = some np → state np = .embryo
  alone : ∀ p q np, (thread p).place.child = some np → (thread q).place.child = some np → p = q

namespace Forking

variable {state after : ProcPtr → ProcState} {thread later : ProcPtr → Thread} {p np : ProcPtr}

/-- Embryos stay, and nobody gets a new one. -/
theorem quiet (forking : Forking state thread) (stays : ∀ q, state q = .embryo → after q = .embryo)
    (same : ∀ q, (later q).place.child = (thread q).place.child ∨ (later q).place.child = none) :
    Forking after later := by
  have before : ∀ q np, (later q).place.child = some np → (thread q).place.child = some np := by
    intro q np child
    rcases same q with equal | none
    · rw [← equal]
      exact child
    · rw [none] at child
      cases child
  refine ⟨?_, ?_⟩
  · intro q np child
    exact stays np (forking.embryo q np (before q np child))
  · intro q r np first second
    exact forking.alone q r np (before q np first) (before r np second)

/-- One thread moves on, with the same child or none. -/
theorem move (forking : Forking state thread) (stays : ∀ q, state q = .embryo → after q = .embryo)
    {moved : Thread} (same : moved.place.child = (thread p).place.child ∨
      moved.place.child = none) : Forking after (Function.update thread p moved) := by
  apply forking.quiet stays
  intro q
  by_cases equal : q = p
  · subst equal
    rw [Function.update_self]
    exact same
  · rw [Function.update_of_ne equal]
    exact Or.inl rfl

/-- `p` takes a free entry. -/
theorem start (forking : Forking state thread) (free : state np = .unused) {moved : Thread}
    (child : moved.place.child = some np) :
    Forking (Function.update state np .embryo) (Function.update thread p moved) := by
  have others : ∀ q, (thread q).place.child ≠ some np := by
    intro q takes
    have embryo := forking.embryo q np takes
    rw [free] at embryo
    cases embryo
  refine ⟨?_, ?_⟩
  · intro q other takes
    by_cases same : other = np
    · rw [same, Function.update_self]
    · rw [Function.update_of_ne same]
      by_cases equal : q = p
      · rw [equal, Function.update_self, child] at takes
        cases takes
        exact absurd rfl same
      · rw [Function.update_of_ne equal] at takes
        exact forking.embryo q other takes
  · intro q r other first second
    by_cases former : q = p <;> by_cases latter : r = p
    · rw [former, latter]
    · subst former
      rw [Function.update_self, child] at first
      rw [Function.update_of_ne latter] at second
      cases first
      exact absurd second (others r)
    · subst latter
      rw [Function.update_self, child] at second
      rw [Function.update_of_ne former] at first
      cases second
      exact absurd first (others q)
    · rw [Function.update_of_ne former] at first
      rw [Function.update_of_ne latter] at second
      exact forking.alone q r other first second

/-- `p` is done with the entry. -/
theorem finish (forking : Forking state thread) (child : (thread p).place.child = some np)
    (stays : ∀ q, q ≠ np → state q = .embryo → after q = .embryo) {moved : Thread}
    (done : moved.place.child = none) : Forking after (Function.update thread p moved) := by
  have others : ∀ q other, (Function.update thread p moved q).place.child = some other →
      q ≠ p ∧ (thread q).place.child = some other := by
    intro q other takes
    by_cases equal : q = p
    · rw [equal, Function.update_self, done] at takes
      cases takes
    · rw [Function.update_of_ne equal] at takes
      exact ⟨equal, takes⟩
  refine ⟨?_, ?_⟩
  · intro q other takes
    rcases others q other takes with ⟨different, before⟩
    apply stays other ?_ (forking.embryo q other before)
    rintro rfl
    exact different (forking.alone q p other before child)
  · intro q r other first second
    exact forking.alone q r other (others q other first).2 (others r other second).2

end Forking

theorem Thread.resume_place {thread : Thread} {place : Place} (resumes : thread.resume = some place) :
    thread.place = place := by
  cases thread with
  | runs place => cases resumes
  | waiting => cases resumes
  | exited => cases resumes
  | forkret =>
      cases resumes
      rfl
  | yielded place =>
      cases resumes
      rfl
  | slept place =>
      cases resumes
      rfl

namespace Ptable

variable {table after : Ptable Cpu} {c : Cpu} {p : ProcPtr}

/-- What every step keeps. -/
structure Ok (table : Ptable Cpu) : Prop where
  scheduled : Scheduled table.lock table.core table.current table.state
  forking : Forking table.state table.thread
  stopped : ∀ c p, table.core c = .looping p → table.state p ≠ .embryo

theorem wakeup1_quiet (chan : Option Chan) (table : Ptable Cpu) (q : ProcPtr) (state : ProcState)
    (other : state ≠ .sleeping) (woken : state ≠ .runnable) :
    (table.wakeup1 chan).state q = state ↔ table.state q = state := by
  rcases wakeup1_state chan table q with same | ⟨sleeps, wakes⟩
  · rw [same]
  · rw [sleeps, wakes]
    exact ⟨fun equal => absurd equal.symm woken, fun equal => absurd equal.symm other⟩

/-- The state of the process that `kill` marks. -/
theorem kill_quiet (pid : BitVec 32) (table : Ptable Cpu) (q : ProcPtr) (state : ProcState)
    (other : state ≠ .sleeping) (woken : state ≠ .runnable) :
    (table.kill pid).1.state q = state ↔ table.state q = state := by
  unfold kill
  split
  · rename_i p found
    rw [state_setProc]
    by_cases same : q = p
    · subst same
      rw [Function.update_self]
      dsimp only
      split
      · rename_i sleeps
        rw [sleeps]
        exact ⟨fun equal => absurd equal.symm woken, fun equal => absurd equal.symm other⟩
      · rfl
    · rw [Function.update_of_ne same]
  · rfl

/-- Without a change of who runs, while the lock is free. -/
theorem Ok.free (ok : table.Ok) (free : table.lock = none) {proc : ProcPtr → Proc}
    {thread : ProcPtr → Thread} {log : ProcPtr → List EntryEvent} {nextpid : BitVec 32}
    (running : ∀ q, (proc q).state = .running ↔ table.state q = .running)
    (forking : Forking (fun q => (proc q).state) thread) :
    Ok { table with proc := proc, thread := thread, log := log, nextpid := nextpid } := by
  refine ⟨ok.scheduled.quiet running, forking, ?_⟩
  intro d q loops
  have locked := ok.scheduled.loops loops
  rw [free] at locked
  cases locked

/-- A process is running on its processor, and moves on in `fork` or `exit`. -/
theorem Ok.act (ok : table.Ok) {proc : ProcPtr → Proc} {thread : ProcPtr → Thread}
    {log : ProcPtr → List EntryEvent}
    (running : ∀ q, (proc q).state = .running ↔ table.state q = .running)
    (embryo : ∀ q, (proc q).state = .embryo → table.state q = .embryo)
    (forking : Forking (fun q => (proc q).state) thread) :
    Ok { table with proc := proc, thread := thread, log := log } :=
  ⟨ok.scheduled.quiet running, forking,
    fun d q loops young => ok.stopped d q loops (embryo q young)⟩

theorem state_setProc_same {proc : Proc} (same : proc.state = table.state p) :
    (table.setProc p proc).state = table.state := by
  rw [state_setProc, same, Function.update_eq_self]

theorem running_iff {first second : ProcPtr → ProcState} (same : first = second) (q : ProcPtr) :
    first q = .running ↔ second q = .running := by
  rw [same]

/-- An entry that does not run before or after a change does not matter for those that run. -/
theorem running_setProc {proc : Proc} (before : table.state p ≠ .running)
    (later : proc.state ≠ .running) (q : ProcPtr) :
    (table.setProc p proc).state q = .running ↔ table.state q = .running := by
  rw [state_setProc]
  by_cases same : q = p
  · rw [same, Function.update_self]
    exact iff_of_false later before
  · rw [Function.update_of_ne same]

theorem kill_frame (pid : BitVec 32) (table : Ptable Cpu) :
    (table.kill pid).1 = { table with proc := (table.kill pid).1.proc } := by
  unfold kill
  split <;> rfl

/-- A process that makes another one is not that one. -/
theorem Ok.parent_ne (ok : table.Ok) {np : ProcPtr} {place : Place} (runs : table.Runs c p place)
    (child : place.child = some np) : p ≠ np := by
  rintro rfl
  have embryo := ok.forking.embryo p p (by rw [runs.2]; exact child)
  rw [ok.scheduled.running c p (Or.inr runs.1)] at embryo
  cases embryo

/-- The channel is no matter. -/
theorem Ok.tidy (ok : table.Ok) (p : ProcPtr) (chan : Option Chan) :
    Ok (table.setProc p { table.proc p with chan := chan }) := by
  have same : (table.setProc p { table.proc p with chan := chan }).state = table.state :=
    state_setProc_same rfl
  apply ok.act
  · exact fun q => running_iff same q
  · exact fun q embryo => (congrFun same q).symm.trans embryo
  · exact ok.forking.quiet (fun q embryo => (congrFun same q).trans embryo) fun _ => Or.inl rfl

/-- The memory of a process that is current on no processor may be freed. -/
def Idle (table : Ptable Cpu) (z : ProcPtr) : Prop := ∀ c, table.current c ≠ some z

/-- A process that does not run is current only where the scheduler is back from it. -/
theorem Ok.idle (ok : table.Ok) {z : ProcPtr} (stopped : table.state z ≠ .running)
    (back : ∀ d, table.core d ≠ .looping z) : table.Idle z := by
  intro d current
  rw [ok.scheduled.current d] at current
  cases core : table.core d with
  | idle =>
      rw [core] at current
      cases current
  | looping q =>
      rw [core] at current
      cases current
      exact back d core
  | entering q =>
      rw [core] at current
      cases current
      exact stopped (ok.scheduled.running d z (Or.inl core))
  | running q =>
      rw [core] at current
      cases current
      exact stopped (ok.scheduled.running d z (Or.inr core))

theorem boot_ok (initproc : ProcPtr) : (boot initproc : Ptable Cpu).Ok where
  scheduled :=
    { current _ := rfl
      once _ _ _ busy := nomatch busy
      locks _ := ⟨nofun, nofun⟩
      running _ _ active := by rcases active with busy | busy <;> cases busy
      active p runs := by
        simp only [boot, Ptable.state] at runs
        split at runs <;> cases runs }
  forking :=
    { embryo _ _ child := nomatch child
      alone _ _ _ child := nomatch child }
  stopped _ _ loops := nomatch loops

theorem Ok.allocproc (ok : table.Ok) (p : ProcPtr) (free : table.lock = none) :
    (table.allocproc p).Ok := by
  unfold Ptable.allocproc
  split
  · rename_i np found
    have unused : table.state np = .unused := by simpa using List.find?_some found
    have states := state_setProc table np
      { table.proc np with state := .embryo, pid := table.nextpid }
    apply ok.free free
    · exact running_setProc (by rw [unused]; exact nofun) nofun
    · have started : Forking _ (Function.update table.thread p (.runs (.allocated np))) :=
        ok.forking.start unused rfl
      rw [← states] at started
      exact started
  · exact ok

theorem Ok.fork (ok : table.Ok) {np : ProcPtr} (runs : table.Runs c p (.parented np))
    (free : table.lock = none) :
    ((table.setState np .runnable).setThread p (.runs .elsewhere)).Ok := by
  have child : (table.thread p).place.child = some np := by rw [runs.2]; rfl
  have embryo := ok.forking.embryo p np child
  have states : (table.setState np .runnable).state = Function.update table.state np .runnable :=
    state_setProc _ _ _
  apply ok.free free
  · exact running_setProc (by rw [embryo]; exact nofun) nofun
  · apply ok.forking.finish child ?_ rfl
    intro q different young
    change (table.setState np .runnable).state q = .embryo
    rw [states, Function.update_of_ne different]
    exact young

theorem Ok.discard (ok : table.Ok) {np : ProcPtr} {place : Place} (runs : table.Runs c p place)
    (made : place = .allocated np ∨ place = .stacked np) : (table.discard p np).Ok := by
  have child : (table.thread p).place.child = some np := by
    rw [runs.2]
    rcases made with rfl | rfl <;> rfl
  have embryo := ok.forking.embryo p np child
  have states := state_setProc table np { table.proc np with kstack := false, state := .unused }
  apply ok.act
  · exact running_setProc (by rw [embryo]; exact nofun) nofun
  · intro q young
    change (table.setProc np _).state q = .embryo at young
    rw [states] at young
    by_cases same : q = np
    · rw [same, Function.update_self] at young
      cases young
    · rwa [Function.update_of_ne same] at young
  · apply ok.forking.finish child ?_ rfl
    intro q different young
    change (table.setProc np _).state q = .embryo
    rw [states, Function.update_of_ne different]
    exact young

variable [DecidableEq Cpu]

theorem Ok.dispatch (ok : table.Ok) (mine : table.lock = none ∨ table.lock = some c)
    (picks : table.core c = .idle ∨ ∃ p, table.core c = .looping p) (first : Nat) :
    Ok ({ table with current := Function.update table.current c none }.dispatch c first) := by
  have others : ∀ core, (∀ q, core ≠ Core.looping q) →
      ∀ d q, Function.update table.core c core d ≠ .looping q := by
    intro core away d q loops
    by_cases same : d = c
    · rw [same, Function.update_self] at loops
      exact away q loops
    · rw [Function.update_of_ne same] at loops
      apply ok.scheduled.alone mine same
      rw [loops]
      trivial
  rcases dispatch_cases c first { table with current := Function.update table.current c none } with
    ⟨p, runnable, same⟩ | same
  · rw [same]
    have picked := ok.scheduled.pick mine picks runnable
    have states : (table.setState p .running).state = Function.update table.state p .running :=
      state_setProc _ _ _
    refine ⟨?_, ?_, fun d q loops => absurd loops (others (.entering p) (fun _ => nofun) d q)⟩
    · change Scheduled _ _ (Function.update (Function.update table.current c none) c (some p))
        (table.setState p .running).state
      rw [Function.update_idem, states]
      exact picked
    · apply ok.forking.quiet ?_ fun _ => Or.inl rfl
      intro q embryo
      change (table.setState p .running).state q = .embryo
      rw [states, Function.update_of_ne]
      · exact embryo
      · rintro rfl
        rw [show table.state q = .runnable from runnable] at embryo
        cases embryo
  · rw [same]
    exact ⟨ok.scheduled.rest mine picks, ok.forking,
      fun d q loops => absurd loops (others .idle (fun _ => nofun) d q)⟩

/-- The lock is released, and the state of the process is as before. -/
theorem Ok.release (ok : table.Ok) (mine : table.lock = none ∨ table.lock = some c)
    (active : table.core c = .entering p ∨ table.core c = .running p) {place : Place}
    (same : place.child = (table.thread p).place.child ∨ place.child = none) {proc : ProcPtr → Proc}
    (running : ∀ q, (proc q).state = .running ↔ table.state q = .running)
    (embryo : ∀ q, table.state q = .embryo → (proc q).state = .embryo)
    {log : ProcPtr → List EntryEvent} :
    Ok (Ptable.release c p place { table with proc := proc, log := log }) := by
  have scheduled := (ok.scheduled.release mine active).quiet running
  refine ⟨scheduled, ok.forking.move embryo same, ?_⟩
  intro d q loops
  cases scheduled.loops loops

theorem Ok.sched (ok : table.Ok) (mine : table.lock = none ∨ table.lock = some c)
    (active : table.core c = .entering p ∨ table.core c = .running p) {thread : Thread}
    (same : thread.place.child = (table.thread p).place.child ∨ thread.place.child = none)
    {proc : ProcPtr → Proc} (stops : (proc p).state ≠ .running) (old : (proc p).state ≠ .embryo)
    (running : ∀ q, q ≠ p → ((proc q).state = .running ↔ table.state q = .running))
    (embryo : ∀ q, q ≠ p → table.state q = .embryo → (proc q).state = .embryo)
    {log : ProcPtr → List EntryEvent} :
    Ok (Ptable.sched c p thread { table with proc := proc, log := log }) := by
  have scheduled := ok.scheduled.sched mine active stops running
  refine ⟨scheduled, ok.forking.move ?_ same, ?_⟩
  · intro q young
    apply embryo q ?_ young
    rintro rfl
    rw [ok.scheduled.running c q active] at young
    cases young
  · intro d q loops
    cases scheduled.loops loops
    have equal : Core.looping p = .looping q := (Function.update_self _ _ _).symm.trans loops
    cases equal
    exact old

/-- Another state for the process that runs. -/
theorem Ok.schedSelf (ok : table.Ok) (mine : table.lock = none ∨ table.lock = some c)
    (active : table.core c = .entering p ∨ table.core c = .running p) {thread : Thread}
    (same : thread.place.child = (table.thread p).place.child ∨ thread.place.child = none)
    {proc : Proc} (stops : proc.state ≠ .running) (old : proc.state ≠ .embryo) :
    Ok ((table.setProc p proc).sched c p thread) := by
  have others : ∀ q, q ≠ p → (table.setProc p proc).proc q = table.proc q :=
    fun q different => setProc_proc_of_ne table different proc
  have mineNow : Function.update table.proc p proc p = proc := Function.update_self _ _ _
  apply ok.sched mine active same
  · rw [mineNow]
    exact stops
  · rw [mineNow]
    exact old
  · intro q different
    rw [Ptable.state, ← others q different]
    rfl
  · intro q different young
    rw [Ptable.state, ← others q different] at young
    exact young

theorem Ok.waitLoop (ok : table.Ok) (mine : table.lock = none ∨ table.lock = some c)
    (active : table.core c = .entering p ∨ table.core c = .running p) :
    (table.waitLoop c p).Ok := by
  rcases waitLoop_cases c p table with ⟨z, -, dead, same⟩ | ⟨-, same | same⟩
  · rw [same]
    have others : ∀ q state, state ≠ .zombie → state ≠ .unused →
        ((table.setProc z
          { table.proc z with
            kstack := false, pgdir := false, pid := 0, parent := none, killed := false
            state := .unused }).state q = state ↔ table.state q = state) := by
      intro q state alive used
      rw [state_setProc]
      by_cases equal : q = z
      · subst equal
        rw [Function.update_self, dead]
        exact ⟨fun unused => absurd unused.symm used, fun zombie => absurd zombie.symm alive⟩
      · rw [Function.update_of_ne equal]
    exact ok.release mine active (Or.inr rfl) (fun q => others q .running nofun nofun)
      fun q => (others q .embryo nofun nofun).mpr
  · rw [same]
    exact ok.release mine active (Or.inr rfl) (fun _ => Iff.rfl) fun _ => id
  · rw [same]
    exact ok.schedSelf mine active (Or.inr rfl) nofun nofun

theorem Ok.exit (ok : table.Ok) (runs : table.Runs c p .exiting) (free : table.lock = none) :
    (table.exit c p).Ok := by
  rcases exit_left c p table with ⟨passed, left, same⟩
  have others : ∀ q state, state ≠ .sleeping → state ≠ .runnable → q ≠ p →
      ((passed.setState p .zombie).state q = state ↔ table.state q = state) := by
    intro q state other woken different
    rw [setState, state_setProc, Function.update_of_ne different]
    rcases left.state q with equal | ⟨sleeps, wakes⟩
    · rw [equal]
    · rw [sleeps, wakes]
      exact ⟨fun equal => absurd equal.symm woken, fun equal => absurd equal.symm other⟩
  have mine : (passed.setState p .zombie).state p = .zombie := by
    rw [setState, state_setProc, Function.update_self]
  rw [same]
  rw [left.frame] at others mine ⊢
  apply ok.sched (Or.inl free) (Or.inr runs.1) (Or.inr rfl)
  · exact fun runs => by cases mine.symm.trans runs
  · exact fun young => by cases mine.symm.trans young
  · exact fun q different => others q .running nofun nofun different
  · exact fun q different => (others q .embryo nofun nofun different).mpr

theorem Ok.moves (ok : table.Ok) (moves : table.Moves after) : after.Ok := by
  cases moves with
  | @schedule c idle free =>
      have none : table.current c = none := by rw [ok.scheduled.current c, idle]; rfl
      have same : { table with current := Function.update table.current c Option.none } = table := by
        rw [← none, Function.update_eq_self]
      have dispatched := ok.dispatch (Or.inl free) (Or.inl idle) 0
      rwa [same] at dispatched
  | @loop c p loops =>
      exact ok.dispatch (Or.inr (ok.scheduled.loops loops)) (Or.inr ⟨p, loops⟩) _
  | @enter c p place enters resumes chan =>
      have same : (table.setProc p { table.proc p with chan := chan }).state = table.state :=
        state_setProc_same rfl
      apply ok.release (Or.inr (ok.scheduled.enters enters)) (Or.inl enters)
      · exact Or.inl (congrArg Place.child (Thread.resume_place resumes).symm)
      · exact fun q => running_iff same q
      · exact fun q embryo => (congrFun same q).trans embryo
  | @enterWait c p enters waits =>
      exact (ok.tidy p none).waitLoop (Or.inr (ok.scheduled.enters enters)) (Or.inl enters)
  | wakeup address free =>
      apply ok.free free
      · exact fun q => wakeup1_quiet _ table q .running nofun nofun
      · exact ok.forking.quiet (fun q => (wakeup1_quiet _ table q .embryo nofun nofun).mpr)
          fun _ => Or.inl rfl
  | kill pid free =>
      rw [kill_frame]
      apply ok.free free
      · exact fun q => kill_quiet pid table q .running nofun nofun
      · exact ok.forking.quiet (fun q => (kill_quiet pid table q .embryo nofun nofun).mpr)
          fun _ => Or.inl rfl
  | @yield c p place runs free =>
      exact ok.schedSelf (Or.inl free) (Or.inr runs.1) (Or.inl (by rw [runs.2]; rfl)) nofun nofun
  | @sleep c p place address runs free =>
      exact ok.schedSelf (Or.inl free) (Or.inr runs.1) (Or.inl (by rw [runs.2]; rfl)) nofun nofun
  | @wait c p runs free => exact ok.waitLoop (Or.inl free) (Or.inr runs.1)
  | @allocproc c p runs free => exact ok.allocproc p free
  | @kalloc c p np runs =>
      have different := ok.parent_ne runs rfl
      have same : (table.setProc np { table.proc np with kstack := true }).state = table.state :=
        state_setProc_same rfl
      apply ok.act
      · exact fun q => running_iff same q
      · exact fun q embryo => (congrFun same q).symm.trans embryo
      · have first : Forking (table.setProc np { table.proc np with kstack := true }).state
            (Function.update table.thread np .forkret) :=
          ok.forking.move (fun q embryo => (congrFun same q).trans embryo) (Or.inr rfl)
        apply first.move (fun _ => id)
        left
        rw [Function.update_of_ne different, runs.2]
        rfl
  | @copyuvm c p np runs =>
      have same : (table.setProc np { table.proc np with pgdir := true }).state = table.state :=
        state_setProc_same rfl
      apply ok.act
      · exact fun q => running_iff same q
      · exact fun q embryo => (congrFun same q).symm.trans embryo
      · apply ok.forking.move fun q embryo => (congrFun same q).trans embryo
        left
        rw [runs.2]
        rfl
  | @parent c p np runs =>
      have same : (table.setProc np { table.proc np with parent := some p }).state = table.state :=
        state_setProc_same rfl
      apply ok.act
      · exact fun q => running_iff same q
      · exact fun q embryo => (congrFun same q).symm.trans embryo
      · apply ok.forking.move fun q embryo => (congrFun same q).trans embryo
        left
        rw [runs.2]
        rfl
  | fork runs free => exact ok.fork runs free
  | discard runs made => exact ok.discard runs made
  | @exiting c p runs other =>
      apply ok.act
      · exact fun _ => Iff.rfl
      · exact fun _ => id
      · exact ok.forking.move (fun _ => id) (Or.inr rfl)
  | exit runs free => exact ok.exit runs free

/-- The process keeps its kernel stack and its page table. -/
def Keeps (z : ProcPtr) (before after : ProcPtr → Proc) : Prop :=
  ((before z).kstack = true → (after z).kstack = true) ∧
    ((before z).pgdir = true → (after z).pgdir = true)

theorem Keeps.update {z : ProcPtr} {before : ProcPtr → Proc} {proc : Proc}
    (keeps : z = p → ((before p).kstack = true → proc.kstack = true) ∧
      ((before p).pgdir = true → proc.pgdir = true)) :
    Keeps z before (Function.update before p proc) := by
  by_cases same : z = p
  · subst same
    rw [Keeps, Function.update_self]
    exact keeps rfl
  · rw [Keeps, Function.update_of_ne same]
    exact ⟨id, id⟩

theorem Ok.waitLoop_keeps (ok : table.Ok) (mine : table.lock = none ∨ table.lock = some c)
    (active : table.core c = .entering p ∨ table.core c = .running p) (z : ProcPtr) :
    Keeps z table.proc (table.waitLoop c p).proc ∨ table.Idle z := by
  rcases waitLoop_cases c p table with ⟨child, -, dead, same⟩ | ⟨-, same | same⟩
  · by_cases equal : z = child
    · subst equal
      right
      apply ok.idle
      · rw [dead]
        exact nofun
      · intro d loops
        by_cases here : d = c
        · subst here
          rcases active with there | there <;>
          · rw [there] at loops
            cases loops
        · apply ok.scheduled.alone mine here
          rw [loops]
          trivial
    · left
      rw [same]
      exact Keeps.update fun here => absurd here equal
  · rw [same]
    exact Or.inl ⟨id, id⟩
  · rw [same]
    exact Or.inl (Keeps.update fun _ => ⟨id, id⟩)

theorem dispatch_keeps (c : Cpu) (first : Nat) (table : Ptable Cpu) (z : ProcPtr) :
    Keeps z table.proc (table.dispatch c first).proc := by
  rcases dispatch_cases c first table with ⟨p, -, same⟩ | same
  · rw [same]
    exact Keeps.update fun _ => ⟨id, id⟩
  · rw [same]
    exact ⟨id, id⟩

/-- A step frees no stack and no page table of a process that is current. -/
theorem Ok.keeps (ok : table.Ok) (moves : table.Moves after) (z : ProcPtr) :
    Keeps z table.proc after.proc ∨ table.Idle z := by
  cases moves with
  | schedule idle free => exact Or.inl (dispatch_keeps _ _ table z)
  | @loop c p loops =>
      exact Or.inl (dispatch_keeps c _
        { table with current := Function.update table.current c none } z)
  | enter enters resumes chan => exact Or.inl (Keeps.update fun _ => ⟨id, id⟩)
  | @enterWait c p enters waits =>
      have before : Keeps z table.proc (table.setProc p { table.proc p with chan := none }).proc :=
        Keeps.update fun _ => ⟨id, id⟩
      rcases (ok.tidy p none).waitLoop_keeps (Or.inr (ok.scheduled.enters enters)) (Or.inl enters) z
        with after | idle
      · exact Or.inl ⟨fun stack => after.1 (before.1 stack), fun pages => after.2 (before.2 pages)⟩
      · exact Or.inr idle
  | wakeup address free =>
      left
      rw [Keeps, wakeup1_proc]
      exact ⟨id, id⟩
  | kill pid free =>
      left
      unfold kill
      split
      · exact Keeps.update fun _ => ⟨id, id⟩
      · exact ⟨id, id⟩
  | yield runs free => exact Or.inl (Keeps.update fun _ => ⟨id, id⟩)
  | sleep address runs free => exact Or.inl (Keeps.update fun _ => ⟨id, id⟩)
  | wait runs free => exact ok.waitLoop_keeps (Or.inl free) (Or.inr runs.1) z
  | allocproc runs free =>
      left
      unfold Ptable.allocproc
      split
      · exact Keeps.update fun _ => ⟨id, id⟩
      · exact ⟨id, id⟩
  | kalloc runs => exact Or.inl (Keeps.update fun _ => ⟨fun _ => rfl, id⟩)
  | copyuvm runs => exact Or.inl (Keeps.update fun _ => ⟨id, fun _ => rfl⟩)
  | parent runs => exact Or.inl (Keeps.update fun _ => ⟨id, id⟩)
  | fork runs free => exact Or.inl (Keeps.update fun _ => ⟨id, id⟩)
  | @discard c p np place runs made =>
      by_cases equal : z = np
      · subst equal
        right
        have embryo : table.state z = .embryo := by
          apply ok.forking.embryo p z
          rw [runs.2]
          rcases made with rfl | rfl <;> rfl
        apply ok.idle
        · rw [embryo]
          exact nofun
        · exact fun d loops => ok.stopped d z loops embryo
      · exact Or.inl (Keeps.update fun here => absurd here equal)
  | exiting runs other => exact Or.inl ⟨id, id⟩
  | @exit c p runs free =>
      left
      rcases exit_left c p table with ⟨passed, left, same⟩
      rw [same]
      have before : Keeps z table.proc passed.proc := by
        rw [Keeps, left.fields]
        exact ⟨id, id⟩
      have after : Keeps z passed.proc (passed.setState p .zombie).proc :=
        Keeps.update fun _ => ⟨id, id⟩
      exact ⟨fun stack => after.1 (before.1 stack), fun pages => after.2 (before.2 pages)⟩

theorem ok_run {initproc : ProcPtr} {events : List (TableEvent Cpu)}
    (ran : runs next (boot initproc) events = some table) : table.Ok :=
  runs_invariant (fun _ => Ok) (boot_ok initproc)
    (fun _ _ _ _ ok stepped => ok.moves (next_moves stepped)) ran

/-- In every run a process is current on at most one processor, it is running
exactly when it is current on one while the lock is free, and what is freed is
of a process that is not current. -/
theorem running_iff_current (initproc : ProcPtr) (events : List (TableEvent Cpu))
    (table : Ptable Cpu) (ran : runs next (boot initproc) events = some table) :
    (∀ c d p, table.current c = some p → table.current d = some p → c = d) ∧
    (table.lock = none → ∀ p, table.state p = .running ↔ ∃ c, table.current c = some p) ∧
    ∀ event after, table.next event = some after → ∀ z,
      ((table.proc z).kstack = true ∧ (after.proc z).kstack = false ∨
        (table.proc z).pgdir = true ∧ (after.proc z).pgdir = false) →
      ∀ c, table.current c ≠ some z := by
  have ok := ok_run ran
  refine ⟨?_, ?_, ?_⟩
  · intro c d p first second
    rw [ok.scheduled.current] at first second
    exact ok.scheduled.once c d p first second
  · intro free p
    constructor
    · intro runs
      rcases ok.scheduled.active p runs with ⟨c, active⟩
      exact ⟨c, (ok.scheduled.current c).trans (Core.proc?_active active)⟩
    · rintro ⟨c, current⟩
      by_contra stopped
      refine ok.idle stopped (fun d loops => ?_) c current
      have locked := ok.scheduled.loops loops
      rw [free] at locked
      cases locked
  · intro event after stepped z freed
    rcases ok.keeps (next_moves stepped) z with keeps | idle
    · rcases freed with ⟨stack, gone⟩ | ⟨pages, gone⟩
      · rw [keeps.1 stack] at gone
        cases gone
      · rw [keeps.2 pages] at gone
        cases gone
    · exact idle

def firstProc : ProcPtr := ⟨0, Nat.lt_of_succ_lt one_lt_nproc⟩

def secondProc : ProcPtr := ⟨1, one_lt_nproc⟩

/-- Init forks and waits, the child runs on the other processor and exits, and
init is switched to. -/
def forkAndExit : List (TableEvent Bool) :=
  [.schedule false, .enter false, .allocproc false, .kalloc false true, .copyuvm false true,
    .parent false, .fork false, .schedule true, .enter true, .wait false, .loop false,
    .exiting true, .exit true, .loop true, .schedule false]

theorem running_iff_current_once : ∃ table after : Ptable Bool,
    runs next (boot firstProc) forkAndExit = some table ∧
    table.next (.enter false) = some after ∧
    (table.proc secondProc).kstack = true ∧ (after.proc secondProc).kstack = false ∧
    ∀ c, table.current c ≠ some secondProc := by
  have facts : (runs next (boot firstProc) forkAndExit).map (fun table =>
      decide ((table.proc secondProc).kstack = true ∧
        (table.next (.enter false)).map (fun after => (after.proc secondProc).kstack) =
          some false)) = some true := by
    decide +kernel
  rcases Option.map_eq_some_iff.mp facts with ⟨table, ran, holds⟩
  rcases of_decide_eq_true holds with ⟨stack, freed⟩
  rcases Option.map_eq_some_iff.mp freed with ⟨after, stepped, gone⟩
  rcases running_iff_current firstProc forkAndExit table ran with ⟨-, -, idle⟩
  exact ⟨table, after, ran, stepped, stack, gone,
    idle _ after stepped secondProc (Or.inl ⟨stack, gone⟩)⟩

end Ptable

end Xv6.Sched
