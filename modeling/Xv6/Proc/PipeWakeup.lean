import Xv6.Proc.PipeFifo

/-!
# Wakeups on pipes

A reader sleeps only while the pipe is empty and a writer only while it is
full, except after a `pipewrite` that stored bytes and then returned -1 because
it found the pipe full.
-/

namespace Xv6.Proc

open Xv6.Library Monitor

variable {Proc Cpu Lock : Type}

/-- Readers wait for bytes or the end of the writers, and writers for room or
the end of the readers. -/
def pipeContract (Proc Lock : Type) : Contract Lock (PipeChan Lock) (Pipe Proc) PipeLocal where
  home
    | .nread p => p
    | .nwrite p => p
  waits
    | .nread _, pipe => pipe.IsEmpty ∧ pipe.writeopen = true
    | .nwrite _, pipe => pipe.IsFull ∧ pipe.readopen = true
  owes _ _ := False

/-- Before a writer sleeps it knows that the pipe is full. -/
def KnowsFull (_ : Lock) (here : PipeLocal) (pipe : Pipe Proc) : Prop :=
  ∀ addr n i, here.stage = .full addr n i → pipe.IsFull ∧ pipe.readopen = true

theorem knowsFull_start (p : Proc) (here : PipeLocal) (call : Lock × PipeCall) (lk : Lock)
    (after : PipeLocal)
    (starts : (pipes : Monitor Proc Lock _ _ _ _).start p here call = some (lk, after))
    (pipe : Pipe Proc) : KnowsFull lk after pipe := by
  rcases call with ⟨pipe, call⟩
  cases call <;> cases starts <;> exact nofun

theorem knowsFull_body (p : Proc) (killed : Bool) (lk : Lock) (here : PipeLocal) (pipe : Pipe Proc) :
    (pipes.body p killed lk here pipe).2.Known KnowsFull lk (pipes.body p killed lk here pipe).1 := by
  simp only [pipes]
  cases stage : here.stage with
  | write addr n i =>
      have result := pipe.fill_filled p here.calls addr (n.toNat - i) i
      dsimp only at result ⊢
      generalize pipe.fill p here.calls addr (n.toNat - i) i = filled at result ⊢
      rcases filled with ⟨last, after⟩
      rcases result with ⟨filled, bound, stops⟩
      by_cases more : (last : Int) < n
      · simp only [if_pos more]
        by_cases leaves : after.readopen = false ∨ killed = true
        · simp only [if_pos leaves]
          trivial
        · simp only [if_neg leaves]
          intro _ _ _ same
          have low : i ≤ last := filled.le
          refine ⟨stops ?_, ?_⟩
          · change last < _
            omega
          · rw [← Bool.not_eq_false]
            exact fun closed => leaves (Or.inl closed)
      · simp only [if_neg more]
        intro _ _ _ same
        cases same
  | full addr n i =>
      intro _ _ _ _ same
      cases same
  | stored addr n => trivial
  | read n =>
      dsimp only
      split
      · split
        · trivial
        · intro _ _ _ _ same
          rw [stage] at same
          cases same
      · intro _ _ _ same
        cases same
  | copied i => trivial
  | close writable =>
      cases writable <;>
      · intro _ _ _ same
        cases same
  | closed => trivial
  | idle => trivial

/-- How many more bytes fit. -/
def Pipe.room (pipe : Pipe Proc) : Nat := pipesize - (pipe.nwrite - pipe.nread).toNat

/-- A reader sleeps on the pipe, or is about to, when a `pipewrite` goes on that
has more bytes left than fit and will not wait: the read end is closed or the
writer was killed. -/
def LeavesReader (state : State Proc Cpu Lock (PipeChan Lock) (Pipe Proc) PipeLocal)
    (event : Event Proc Cpu (Lock × PipeCall)) : Prop :=
  ∃ c p lk here addr n i, event = .advance c ∧ state.cpu c = .running p ∧
    state.pc p = .inside lk here ∧ here.stage = .write addr n i ∧
    (state.data lk).room < n.toNat - i ∧
    ((state.data lk).readopen = false ∨ state.killed p = true) ∧
    ∃ q, state.Waits q (.nread lk)

/-- Whoever sleeps on the pipe while its lock is free has reason to. -/
def NoLostWakeup (state : State Proc Cpu Lock (PipeChan Lock) (Pipe Proc) PipeLocal) : Prop :=
  ∀ lk, state.owner lk = none → ∀ p, state.status p = .sleeping →
    (state.chan p = some (.nread lk) →
      (state.data lk).nread = (state.data lk).nwrite ∧ (state.data lk).writeopen = true) ∧
    (state.chan p = some (.nwrite lk) →
      (state.data lk).nwrite = (state.data lk).nread + 512 ∧ (state.data lk).readopen = true)

/-- A `pipewrite` that finds the pipe full has stored as many bytes as fit. -/
theorem Pipe.Filled.room {pipe after : Pipe Proc} {p : Proc} {call i last : Nat} {addr : Memory}
    {copied : List UInt8} (filled : pipe.Filled p call addr i last after) (ring : pipe.Ring copied)
    (ringed : after.Ring copied) (full : after.IsFull) : pipe.room = last - i := by
  have behind := ring.behind
  have total := ringed.isFull_iff.mp full
  rw [filled.stored, List.length_append, List.length_map, List.length_range] at total
  rw [Pipe.room, ring.used]
  omega

/-- A piece of `pipewrite` owes the readers a wakeup if they have something to
read, unless it leaves them. -/
theorem write_owes {p : Proc} {killed : Bool} {lk : Lock} {here : PipeLocal} {pipe : Pipe Proc}
    {addr : Memory} {n : Int} {i : Nat} {copied : List UInt8} (stage : here.stage = .write addr n i)
    (ring : pipe.Ring copied) {c : PipeChan Lock} (home : (pipeContract Proc Lock).home c = lk)
    (reason : (pipeContract Proc Lock).waits c pipe)
    (waits : c = .nread lk →
      ¬(pipe.room < n.toNat - i ∧ (pipe.readopen = false ∨ killed = true))) :
    (pipeContract Proc Lock).waits c (pipes.body p killed lk here pipe).1 ∨
      (pipes.body p killed lk here pipe).2.Owes (pipeContract Proc Lock) c := by
  have result := pipe.fill_filled p here.calls addr (n.toNat - i) i
  have ringed := ring.fill p here.calls addr (n.toNat - i) i
  have none := @Pipe.fill_none _ pipe p here.calls addr (n.toNat - i) i
  simp only [pipes, stage]
  generalize pipe.fill p here.calls addr (n.toNat - i) i = filled at result ringed none ⊢
  rcases filled with ⟨last, after⟩
  rcases result with ⟨filled, bound, stops⟩
  dsimp only at filled bound stops ringed none ⊢
  have low := filled.le
  have same : last = i → (pipeContract Proc Lock).waits c after := by
    intro equal
    rw [none equal]
    exact reason
  by_cases more : (last : Int) < n
  · have full := stops (by omega)
    simp only [if_pos more]
    by_cases leaves : after.readopen = false ∨ killed = true
    · simp only [if_pos leaves]
      have stays : (pipeContract Proc Lock).waits c after := by
        cases c with
        | nread q =>
            cases home
            have room := filled.room ring ringed full
            by_cases stored : last = i
            · exact same stored
            · rw [filled.readopen] at leaves
              exact absurd ⟨by omega, leaves⟩ (waits rfl)
        | nwrite q =>
            -- The pipe was full before, so nothing was stored.
            have total := ring.isFull_iff.mp reason.1
            have now := ringed.isFull_iff.mp full
            rw [filled.stored, List.length_append, List.length_map, List.length_range] at now
            exact same (by omega)
      cases c with
      | nread q => exact Or.inl stays
      | nwrite q => exact Or.inl stays
    · simp only [if_neg leaves]
      cases c with
      | nread q =>
          cases home
          exact Or.inr (Or.inl rfl)
      | nwrite q => exact Or.inl ⟨full, by rw [filled.readopen]; exact reason.2⟩
  · simp only [if_neg more]
    cases c with
    | nread q =>
        cases home
        exact Or.inr (Or.inl rfl)
    | nwrite q =>
        -- The pipe was full before, so nothing was left to store.
        have total := ring.isFull_iff.mp reason.1
        have space := ringed.room
        rw [filled.stored, List.length_append, List.length_map, List.length_range] at space
        exact Or.inl (same (by omega))

/-- Every other piece owes a wakeup to those whose reason it takes away. -/
theorem other_owes {p : Proc} {killed : Bool} {lk : Lock} {here : PipeLocal} {pipe : Pipe Proc}
    (stage : ∀ addr n i, here.stage ≠ .write addr n i) {c : PipeChan Lock}
    (home : (pipeContract Proc Lock).home c = lk) (reason : (pipeContract Proc Lock).waits c pipe) :
    (pipeContract Proc Lock).waits c (pipes.body p killed lk here pipe).1 ∨
      (pipes.body p killed lk here pipe).2.Owes (pipeContract Proc Lock) c := by
  simp only [pipes]
  cases place : here.stage with
  | write addr n i => exact absurd place (stage addr n i)
  | read n =>
      dsimp only
      by_cases waits : pipe.IsEmpty ∧ pipe.writeopen = true
      · rw [if_pos waits]
        split <;> exact Or.inl reason
      · rw [if_neg waits]
        cases c with
        | nread q => exact absurd reason waits
        | nwrite q =>
            cases home
            exact Or.inr (Or.inl rfl)
  | close writable =>
      cases writable with
      | true =>
          cases c with
          | nread q =>
              cases home
              exact Or.inr (Or.inl rfl)
          | nwrite q => exact Or.inl reason
      | false =>
          cases c with
          | nread q => exact Or.inl reason
          | nwrite q =>
              cases home
              exact Or.inr (Or.inl rfl)
  | closed =>
      dsimp only
      split
      · cases c with
        | nread q => exact Or.inl reason
        | nwrite q => exact Or.inl reason
      · exact Or.inl reason
  | stored addr n =>
      cases c with
      | nread q => exact Or.inl reason
      | nwrite q => exact Or.inl reason
  | full addr n i => exact Or.inl reason
  | copied i => exact Or.inl reason
  | idle => exact Or.inl reason

/-- A process sleeps on a pipe only with reason. -/
theorem pipe_sleeps {p : Proc} {killed : Bool} {lk : Lock} {here : PipeLocal} {pipe : Pipe Proc}
    (knows : KnowsFull lk here pipe) {chan : PipeChan Lock} {next : PipeLocal}
    (sleeps : (pipes.body p killed lk here pipe).2 = .sleep chan next) :
    (pipeContract Proc Lock).home chan = lk ∧
      (pipeContract Proc Lock).waits chan (pipes.body p killed lk here pipe).1 := by
  simp only [pipes] at sleeps ⊢
  cases stage : here.stage with
  | full addr n i =>
      simp only [stage] at sleeps ⊢
      cases sleeps
      exact ⟨rfl, knows addr n i stage⟩
  | read n =>
      simp only [stage] at sleeps ⊢
      by_cases waits : pipe.IsEmpty ∧ pipe.writeopen = true
      · simp only [if_pos waits] at sleeps ⊢
        by_cases dead : killed = true
        · simp only [if_pos dead] at sleeps
          cases sleeps
        · simp only [if_neg dead] at sleeps ⊢
          cases sleeps
          exact ⟨rfl, waits⟩
      · simp only [if_neg waits] at sleeps
        cases sleeps
  | write addr n i =>
      simp only [stage] at sleeps
      split at sleeps
      · split at sleeps <;> cases sleeps
      · cases sleeps
  | close writable => cases writable <;> (simp only [stage] at sleeps; cases sleeps)
  | stored addr n =>
      simp only [stage] at sleeps
      cases sleeps
  | copied i =>
      simp only [stage] at sleeps
      cases sleeps
  | closed =>
      simp only [stage] at sleeps
      cases sleeps
  | idle =>
      simp only [stage] at sleeps
      cases sleeps

variable [DecidableEq Proc] [DecidableEq Cpu] [DecidableEq Lock]

/-- In every run in which no `pipewrite` leaves a reader, no wakeup is lost. -/
theorem pipe_wakeups (memory : Lock → Memory) (events : List (Event Proc Cpu (Lock × PipeCall)))
    (throughout : Throughout pipes.step (fun state event => ¬LeavesReader state event)
      (bootPipes memory) events)
    (state : State Proc Cpu Lock (PipeChan Lock) (Pipe Proc) PipeLocal)
    (ran : runs pipes.step (bootPipes memory) events = some state) : NoLostWakeup state := by
  have awake : ∀ c, state.owner ((pipeContract Proc Lock).home c) = none → ∀ p,
      state.status p = .sleeping → state.chan p = some c →
      (pipeContract Proc Lock).waits c (state.data ((pipeContract Proc Lock).home c)) := by
    intro c free p sleeps chan
    refine awake_run ?_ throughout ran free sleeps chan
    intro past middle event reached locked awake stays cpu q lk here advance running was
    have fifo := fifo_run reached
    have knows := knows_run KnowsFull knowsFull_start
      (fun p killed lk here pipe _ => knowsFull_body p killed lk here pipe) reached
    constructor
    · intro chan next sleeps
      exact pipe_sleeps (knows.works q lk here (by rw [was]; rfl) (by rw [was]; rfl)) sleeps
    · intro r chan home waits
      have reason := (awake.reason locked was home waits).resolve_right id
      by_cases writes : ∃ addr n i, here.stage = .write addr n i
      · rcases writes with ⟨addr, n, i, stage⟩
        refine write_owes stage (fifo.ring lk) home reason ?_
        rintro rfl ⟨room, leaves⟩
        exact stays ⟨cpu, q, lk, here, addr, n, i, advance, running, was, stage, room, leaves, r, waits⟩
      · exact other_owes (fun addr n i stage => writes ⟨addr, n, i, stage⟩) home reason
  intro lk free p sleeps
  exact ⟨fun chan => awake (.nread lk) free p sleeps chan,
    fun chan => awake (.nwrite lk) free p sleeps chan⟩

/-- Process `true` sleeps in `piperead` when `false`, which it killed, fills the
pipe and returns -1. -/
def fillAndLeave : List (Event Bool Bool (Unit × PipeCall)) :=
  [.schedule false, .switch false false, .advance false,
    .schedule true, .switch true true, .advance true,
    .call false ((), .pipewrite (fun _ => 7) 513),
    .kill true false, .advance true, .advance true,
    .call true ((), .piperead 1), .advance true, .advance true, .advance true, .advance true,
    .advance true, .unschedule true,
    .advance false, .advance false]

theorem pipe_wakeups_fail :
    ¬∀ (memory : Unit → Memory) (events : List (Event Bool Bool (Unit × PipeCall)))
      (state : State Bool Bool Unit (PipeChan Unit) (Pipe Bool) PipeLocal),
      runs pipes.step (bootPipes memory) events = some state → NoLostWakeup state := by
  intro always
  have facts : (runs pipes.step (bootPipes fun _ _ => 0) fillAndLeave).map (fun state =>
      decide (state.owner () = none ∧ state.status true = .sleeping ∧
        state.chan true = some (.nread ()) ∧ (state.data ()).nread ≠ (state.data ()).nwrite)) =
      some true := by
    decide +kernel
  rcases Option.map_eq_some_iff.mp facts with ⟨state, ran, holds⟩
  rcases of_decide_eq_true holds with ⟨free, sleeps, chan, different⟩
  exact different ((always _ _ state ran () free true sleeps).1 chan).1

/-- Process `true` sleeps in `piperead`, and is woken by a `pipewrite` of `false`. -/
def writeAndWake : List (Event Bool Bool (Unit × PipeCall)) :=
  [.schedule false, .switch false false, .advance false,
    .schedule true, .switch true true, .advance true,
    .call true ((), .piperead 1), .advance true, .advance true, .advance true, .advance true,
    .advance true, .unschedule true,
    .call false ((), .pipewrite (fun _ => 7) 3), .advance false, .advance false, .advance false,
    .advance false, .advance false]

theorem pipe_wakeups_once :
    ∃ state, runs pipes.step (bootPipes fun _ _ => 0) writeAndWake = some state ∧
      state.status true = .runnable ∧ NoLostWakeup state := by
  have open_end : Throughout pipes.step
      (fun state _ => (∀ p, state.killed p = false) ∧ (state.data ()).readopen = true)
      (bootPipes fun _ _ => 0 : State Bool Bool Unit (PipeChan Unit) (Pipe Bool) PipeLocal)
      writeAndWake := by
    decide +kernel
  have throughout : Throughout pipes.step (fun state event => ¬LeavesReader state event)
      (bootPipes fun _ _ => 0) writeAndWake := by
    refine open_end.mono ?_
    rintro state event ⟨alive, reads⟩ ⟨c, p, lk, here, addr, n, i, -, -, -, -, -, leaves, -⟩
    rw [reads, alive p] at leaves
    rcases leaves with none | none <;> cases none
  have woken : (runs pipes.step (bootPipes fun _ _ => 0) writeAndWake).map
      (fun state => state.status true) = some .runnable := by
    decide +kernel
  rcases Option.map_eq_some_iff.mp woken with ⟨state, ran, status⟩
  exact ⟨state, ran, status, pipe_wakeups _ writeAndWake throughout state ran⟩

end Xv6.Proc
