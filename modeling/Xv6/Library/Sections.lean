import Xv6.Library.Holders

/-!
# Sections are atomic pieces

What is preserved when a call starts and by each piece of a section holds in
every run: of the data and the places of the processes, and of the data and
what a section knows while it has its lock.
-/

namespace Xv6.Library.Monitor

variable {Proc Cpu Lock Chan Call Data Local : Type}

def Move.place (lock : Lock) : Move Chan Local → Place Lock Local
  | .wakeup _ next => .within lock next
  | .sleep _ next => .within lock next
  | .release next => .outside next

/-- Where the process is among the sections. -/
def Pc.place : Pc Proc Lock Chan Local → Place Lock Local
  | .free place => place
  | .inside lock here => .within lock here
  | .waking lock _ here => .within lock here
  | .rousing lock _ here => .within lock here
  | .falling lock _ here => .within lock here
  | .fallen lock _ here => .within lock here
  | .dozing lock _ here => .within lock here
  | .asleep lock _ here => .within lock here
  | .risen lock here => .within lock here
  | .yielding place => place
  | .leaving place => place
  | .away place => place
  | .returned place => place
  | .killing _ here => .outside here
  | .kills _ here => .outside here

def State.places (s : State Proc Cpu Lock Chan Data Local) (p : Proc) : Place Lock Local :=
  (s.pc p).place

section Places

variable {monitor : Monitor Proc Lock Chan Call Data Local}
  {s next : State Proc Cpu Lock Chan Data Local} {event : Event Proc Cpu Call}

theorem Pc.taken_place {pc taken : Pc Proc Lock Chan Local} (takes : pc.taken = some taken) :
    taken.place = pc.place := by
  cases pc <;> cases takes <;> rfl

theorem Pc.resume_place {pc resumed : Pc Proc Lock Chan Local} (resumes : pc.resume = some resumed) :
    resumed.place = pc.place := by
  cases pc <;> cases resumes <;> rfl

variable [DecidableEq Proc]

theorem places_update {p : Proc} {after : Pc Proc Lock Chan Local}
    (pcs : next.pc = Function.update s.pc p after) :
    next.places = Function.update s.places p after.place := by
  funext q
  unfold State.places
  rw [pcs]
  by_cases same : q = p
  · subst same
    rw [Function.update_self, Function.update_self]
  · rw [Function.update_of_ne same, Function.update_of_ne same]

theorem places_same {p : Proc} {after : Pc Proc Lock Chan Local}
    (pcs : next.pc = Function.update s.pc p after) (same : after.place = (s.pc p).place) :
    next.places = s.places := by
  rw [places_update pcs, same]
  exact Function.update_eq_self p s.places

variable [DecidableEq Cpu] [DecidableEq Lock] [DecidableEq Chan]

/-- For the data and the places of the processes a section is a few atomic pieces. -/
theorem atomic_step {Invariant : (Lock → Data) → (Proc → Place Lock Local) → Prop}
    (start : ∀ data places p here call lock after, places p = .outside here →
      monitor.start p here call = some (lock, after) → Invariant data places →
      Invariant data (Function.update places p (.within lock after)))
    (body : ∀ data places p killed lock here, places p = .within lock here → Invariant data places →
      Invariant (Function.update data lock (monitor.body p killed lock here (data lock)).1)
        (Function.update places p ((monitor.body p killed lock here (data lock)).2.place lock)))
    (stepped : monitor.Steps s event next) (holds : Invariant s.data s.places) :
    Invariant next.data next.places := by
  have still : ∀ {p} {after : Pc Proc Lock Chan Local}, next.data = s.data →
      next.pc = Function.update s.pc p after → after.place = (s.pc p).place →
      Invariant next.data next.places := by
    intro p after data pcs same
    rw [data, places_same pcs same]
    exact holds
  cases stepped with
  | @call c p here call lock after runs was starts =>
      have place : s.places p = .outside here := by rw [State.places, was]; rfl
      rw [places_update (s := s) (p := p) rfl]
      exact start s.data s.places p here call lock after place starts holds
  | kill _ was => exact still rfl rfl (by rw [was]; rfl)
  | timer _ was => exact still rfl rfl (by rw [was]; rfl)
  | enter _ was _ => exact still rfl rfl (by rw [was]; rfl)
  | @piece c p lock here runs was =>
      have place : s.places p = .within lock here := by rw [State.places, was]; rfl
      have after := body s.data s.places p (s.killed p) lock here place holds
      unfold Monitor.piece
      generalize monitor.body p (s.killed p) lock here (s.data lock) = result at after ⊢
      rcases result with ⟨data, move⟩
      cases move with
      | wakeup chan there =>
          rw [places_update (s := s) (p := p) rfl]
          exact after
      | sleep chan there =>
          rw [places_update (s := s) (p := p) rfl]
          exact after
      | release there =>
          rw [places_update (s := s) (p := p) rfl]
          exact after
  | take _ was _ => exact still rfl rfl (Pc.taken_place was)
  | rouse _ was => exact still rfl rfl (by rw [was]; rfl)
  | fall _ was => exact still rfl rfl (by rw [was]; rfl)
  | doze _ was => exact still rfl rfl (by rw [was]; rfl)
  | rise _ was => exact still rfl rfl (by rw [was]; rfl)
  | leave _ was => exact still rfl rfl (by rw [was]; rfl)
  | goOn _ was => exact still rfl rfl (by rw [was]; rfl)
  | kills _ was => exact still rfl rfl (by rw [was]; rfl)
  | schedule _ _ => exact holds
  | switch _ _ resumes => exact still rfl rfl (Pc.resume_place resumes)
  | unschedule _ => exact holds

end Places

/-! ## What a section knows while it has its lock -/

/-- The process is in a section, has its lock and has not begun to sleep. -/
def Pc.works : Pc Proc Lock Chan Local → Bool
  | .inside _ _ => true
  | .waking _ _ _ => true
  | .rousing _ _ _ => true
  | _ => false

/-- A section that has the lock knows something of its data, and one that waits
for the lock knows it of all data. -/
structure State.Knows (Known : Lock → Local → Data → Prop)
    (s : State Proc Cpu Lock Chan Data Local) : Prop where
  works : ∀ p lock here, (s.pc p).place = .within lock here → (s.pc p).works = true →
    Known lock here (s.data lock)
  waits : ∀ p lock here, (s.pc p).place = .within lock here → (s.pc p).works = false →
    ∀ data, Known lock here data

/-- What a section knows after a piece of it. -/
def Move.Known (Known : Lock → Local → Data → Prop) (lock : Lock) (data : Data) :
    Move Chan Local → Prop
  | .wakeup _ next => Known lock next data
  | .sleep _ next => ∀ data, Known lock next data
  | .release _ => True

section Knowledge

variable {monitor : Monitor Proc Lock Chan Call Data Local}
  {s next : State Proc Cpu Lock Chan Data Local} {event : Event Proc Cpu Call}

theorem Pc.taken_works {pc taken : Pc Proc Lock Chan Local} (takes : pc.taken = some taken) :
    taken.works = pc.works := by
  cases pc <;> cases takes <;> rfl

theorem Pc.resume_works {pc resumed : Pc Proc Lock Chan Local} (resumes : pc.resume = some resumed) :
    resumed.works = pc.works := by
  cases pc <;> cases resumes <;> rfl

theorem Pc.holds_of_works {pc : Pc Proc Lock Chan Local} {lock : Lock} {here : Local}
    (place : pc.place = .within lock here) (works : pc.works = true) : pc.holds = some lock := by
  cases pc with
  | inside lock here =>
      cases place
      rfl
  | waking lock chan here =>
      cases place
      rfl
  | rousing lock chan here =>
      cases place
      rfl
  | _ => cases works

variable [DecidableEq Proc]

/-- Only `p` moves, to a place where it knows what it has to. -/
theorem State.Knows.moved {Known : Lock → Local → Data → Prop} (knows : s.Knows Known) {p : Proc}
    {after : Pc Proc Lock Chan Local} (pcs : next.pc = Function.update s.pc p after)
    (data : next.data = s.data) (works : ∀ lock here, after.place = .within lock here →
      after.works = true → Known lock here (s.data lock))
    (waits : ∀ lock here, after.place = .within lock here → after.works = false →
      ∀ data, Known lock here data) : next.Knows Known := by
  constructor
  · intro q lock here
    rw [pcs, data]
    by_cases same : q = p
    · subst same
      rw [Function.update_self]
      exact works lock here
    · rw [Function.update_of_ne same]
      exact knows.works q lock here
  · intro q lock here
    rw [pcs]
    by_cases same : q = p
    · subst same
      rw [Function.update_self]
      exact waits lock here
    · rw [Function.update_of_ne same]
      exact knows.waits q lock here

/-- Only `p` moves, and it stays where it is in its section. -/
theorem State.Knows.stayed {Known : Lock → Local → Data → Prop} (knows : s.Knows Known) {p : Proc}
    {after : Pc Proc Lock Chan Local} (pcs : next.pc = Function.update s.pc p after)
    (data : next.data = s.data) (place : after.place = (s.pc p).place)
    (works : after.works = (s.pc p).works) : next.Knows Known := by
  apply knows.moved pcs data
  · rw [place, works]
    exact knows.works p
  · rw [place, works]
    exact knows.waits p

variable [DecidableEq Lock]

theorem State.Knows.piece {Known : Lock → Local → Data → Prop} (knows : s.Knows Known)
    (locked : s.Locked) {p : Proc} {lock : Lock} {here : Local} (was : s.pc p = .inside lock here)
    (body : (monitor.body p (s.killed p) lock here (s.data lock)).2.Known Known lock
      (monitor.body p (s.killed p) lock here (s.data lock)).1) :
    (monitor.piece s p lock here).Knows Known := by
  have holds : s.owner lock = some p := (locked.owner lock p).mpr (by rw [was]; rfl)
  unfold Monitor.piece
  generalize monitor.body p (s.killed p) lock here (s.data lock) = result at body ⊢
  rcases result with ⟨data, move⟩
  -- Another section that has a lock has another one.
  have others : ∀ q other there, q ≠ p → (s.pc q).place = .within other there →
      (s.pc q).works = true → Known other there (Function.update s.data lock data other) := by
    intro q other there different place works
    have owner := (locked.owner other q).mpr (Pc.holds_of_works place works)
    have apart : other ≠ lock := by
      rintro rfl
      rw [holds] at owner
      exact different (Option.some.inj owner).symm
    rw [Function.update_of_ne apart]
    exact knows.works q other there place works
  have moved : ∀ {after : Pc Proc Lock Chan Local},
      (∀ other there, after.place = .within other there → after.works = true →
        Known other there (Function.update s.data lock data other)) →
      (∀ other there, after.place = .within other there → after.works = false →
        ∀ data, Known other there data) →
      (∀ q other there, (Function.update s.pc p after q).place = .within other there →
        (Function.update s.pc p after q).works = true →
        Known other there (Function.update s.data lock data other)) ∧
      ∀ q other there, (Function.update s.pc p after q).place = .within other there →
        (Function.update s.pc p after q).works = false → ∀ data, Known other there data := by
    intro after works waits
    constructor
    · intro q other there
      by_cases same : q = p
      · subst same
        rw [Function.update_self]
        exact works other there
      · rw [Function.update_of_ne same]
        exact others q other there same
    · intro q other there
      by_cases same : q = p
      · subst same
        rw [Function.update_self]
        exact waits other there
      · rw [Function.update_of_ne same]
        exact knows.waits q other there
  cases move with
  | wakeup chan after =>
      have both := @moved (.waking lock chan after)
        (fun other there place _ => by
          cases place
          rw [Function.update_self]
          exact body)
        fun _ _ _ none => by cases none
      exact ⟨both.1, both.2⟩
  | sleep chan after =>
      have both := @moved (.falling lock chan after) (fun _ _ _ none => by cases none)
        fun other there place _ => by
          cases place
          exact body
      exact ⟨both.1, both.2⟩
  | release after =>
      have both := @moved (.free (.outside after)) (fun _ _ none => by cases none)
        fun _ _ none => by cases none
      exact ⟨both.1, both.2⟩

variable [DecidableEq Cpu] [DecidableEq Chan]

theorem knows_step {Known : Lock → Local → Data → Prop}
    (start : ∀ p here call lock after, monitor.start p here call = some (lock, after) →
      ∀ data, Known lock after data)
    (body : ∀ p killed lock here data, Known lock here data →
      (monitor.body p killed lock here data).2.Known Known lock
        (monitor.body p killed lock here data).1)
    (locked : s.Locked) (stepped : monitor.Steps s event next) (knows : s.Knows Known) :
    next.Knows Known := by
  cases stepped with
  | @call c p here call lock after _ was starts =>
      refine knows.moved (p := p) rfl rfl ?_ ?_
      · intro _ _ _ none
        cases none
      · intro other there place _
        cases place
        exact start p here call lock after starts
  | kill _ was => exact knows.stayed rfl rfl (by rw [was]; rfl) (by rw [was]; rfl)
  | timer _ was => exact knows.stayed rfl rfl (by rw [was]; rfl) (by rw [was]; rfl)
  | @enter c p lock here _ was _ =>
      refine knows.moved (p := p) rfl rfl ?_ ?_
      · intro other there place _
        cases place
        exact knows.waits p lock here (by rw [was]; rfl) (by rw [was]; rfl) _
      · intro _ _ _ none
        cases none
  | @piece c p lock here _ was =>
      have known := knows.works p lock here (by rw [was]; rfl) (by rw [was]; rfl)
      exact knows.piece locked was (body p (s.killed p) lock here (s.data lock) known)
  | take _ was _ => exact knows.stayed rfl rfl (Pc.taken_place was) (Pc.taken_works was)
  | rouse _ was => exact knows.stayed rfl rfl (by rw [was]; rfl) (by rw [was]; rfl)
  | fall _ was => exact knows.stayed rfl rfl (by rw [was]; rfl) (by rw [was]; rfl)
  | doze _ was => exact knows.stayed rfl rfl (by rw [was]; rfl) (by rw [was]; rfl)
  | rise _ was => exact knows.stayed rfl rfl (by rw [was]; rfl) (by rw [was]; rfl)
  | leave _ was => exact knows.stayed rfl rfl (by rw [was]; rfl) (by rw [was]; rfl)
  | goOn _ was => exact knows.stayed rfl rfl (by rw [was]; rfl) (by rw [was]; rfl)
  | kills _ was => exact knows.stayed rfl rfl (by rw [was]; rfl) (by rw [was]; rfl)
  | schedule _ _ => exact ⟨knows.works, knows.waits⟩
  | switch _ _ resumes =>
      exact knows.stayed rfl rfl (Pc.resume_place resumes) (Pc.resume_works resumes)
  | unschedule _ => exact ⟨knows.works, knows.waits⟩

end Knowledge

/-! ## Runs -/

section Runs

variable {monitor : Monitor Proc Lock Chan Call Data Local} {data : Lock → Data}
  {here : Proc → Local} {s : State Proc Cpu Lock Chan Data Local}
  {events : List (Event Proc Cpu Call)}

variable [DecidableEq Proc] [DecidableEq Cpu] [DecidableEq Lock] [DecidableEq Chan]

/-- What starting a call and each piece of a section preserve holds in every run. -/
theorem atomic_run (Invariant : (Lock → Data) → (Proc → Place Lock Local) → Prop)
    (initially : Invariant data fun p => .outside (here p))
    (start : ∀ data places p here call lock after, places p = .outside here →
      monitor.start p here call = some (lock, after) → Invariant data places →
      Invariant data (Function.update places p (.within lock after)))
    (body : ∀ data places p killed lock here, places p = .within lock here → Invariant data places →
      Invariant (Function.update data lock (monitor.body p killed lock here (data lock)).1)
        (Function.update places p ((monitor.body p killed lock here (data lock)).2.place lock)))
    (ran : runs monitor.step (boot data here) events = some s) : Invariant s.data s.places :=
  runs_invariant (fun _ state => Invariant state.data state.places) initially
    (fun _ _ _ _ holds stepped => atomic_step start body (step_steps stepped) holds) ran

/-- What starting a call establishes and each piece of a section preserves, a
section knows whenever it has its lock. -/
theorem knows_run (Known : Lock → Local → Data → Prop)
    (start : ∀ p here call lock after, monitor.start p here call = some (lock, after) →
      ∀ data, Known lock after data)
    (body : ∀ p killed lock here data, Known lock here data →
      (monitor.body p killed lock here data).2.Known Known lock
        (monitor.body p killed lock here data).1)
    (ran : runs monitor.step (boot data here) events = some s) : s.Knows Known := by
  have both : s.Locked ∧ s.Knows Known := by
    refine runs_invariant (fun _ state => state.Locked ∧ state.Knows Known)
      ⟨boot_locked, nofun, nofun⟩ ?_ ran
    rintro _ state event next ⟨locked, knows⟩ stepped
    exact ⟨locked.step (step_steps stepped), knows_step start body locked (step_steps stepped) knows⟩
  exact both.2

end Runs

end Xv6.Library.Monitor
