import Xv6.Spin.Threads

/-!
# Handing over a processor

Whoever is switched to finds the processor as the thread before it has left it,
with `ptable.lock` held and one `pushcli` outstanding. So what the running
thread knows of its processor outlasts every step, also one to another thread.
-/

namespace Xv6.Spin

open Xv6.Library

variable {Proc Cpu Lock : Type}

/-! ## Where the scheduler is -/

/-- The scheduler at one of the statements of its loop, or in a function that it calls there. -/
inductive Frame.InLoop (ptable : Lock) : Frame Proc Lock → Prop where
  | sti {pc} (here : pc ∈ [.outside, .unlock ptable, .popcli]) : InLoop ptable ⟨.sti, pc, []⟩
  | acquire : InLoop ptable ⟨.acquire, .outside, []⟩
  | acquiring {pc} (here : ∃ eflags, pc ∈ [.pushcli eflags (.acquire ptable), .spin ptable,
      .record ptable]) : InLoop ptable ⟨.loop, pc, []⟩
  | loop : InLoop ptable ⟨.loop, .outside, [ptable]⟩
  | chosen {p pc} (here : ∃ eflags, pc ∈ [.pushcli eflags .myproc, .popcli, .outside]) :
      InLoop ptable ⟨.chosen p, pc, [ptable]⟩
  | panicked {place message calls held} (inside : place ≠ .elsewhere)
      (chosen : ∀ p, place = .chosen p → held = [ptable]) :
      InLoop ptable ⟨place, .panicked message calls, held⟩

/-- What is at the bottom of a thread: the code of a process, or the loop of a scheduler. -/
def Thread.Base (ptable : Lock) : Thread Proc Cpu → Frame Proc Lock → Prop
  | .proc _, frame => frame.place = .elsewhere
  | .scheduler _, frame => frame.InLoop ptable

/-- Above the bottom of a thread are interrupts. -/
def Placed (ptable : Lock) (t : Thread Proc Cpu) : List (Frame Proc Lock) → Prop
  | [] => ∃ p, t = .proc p
  | [base] => t.Base ptable base
  | top :: next :: below => top.place = .elsewhere ∧ Placed ptable t (next :: below)

/-- An interrupt comes in only where no lock is held. -/
def Interrupted (frames : List (Frame Proc Lock)) : Prop :=
  ∀ f ∈ frames.tail, f.held = [] ∧ f.pc.Interruptible

variable {ptable : Lock} {t : Thread Proc Cpu} {top next : Frame Proc Lock}
  {below : List (Frame Proc Lock)} {c : Cpu}

theorem Frame.InLoop.ne_elsewhere (inLoop : top.InLoop ptable) : top.place ≠ .elsewhere := by
  cases inLoop <;> simp_all

/-- A scheduler keeps `ptable.lock` from its choice on. -/
theorem Frame.InLoop.held (inLoop : top.InLoop ptable) {p : Proc} (place : top.place = .chosen p) :
    top.held = [ptable] := by
  cases inLoop with
  | chosen => rfl
  | panicked inside chosen => exact chosen p place
  | _ => cases place

/-- Before the scheduler enables interrupts it has no lock. -/
theorem Frame.InLoop.held_eq_nil (inLoop : top.InLoop ptable) (place : top.place = .sti)
    (here : top.pc = .outside) : top.held = [] := by
  cases inLoop with
  | sti => rfl
  | panicked => cases here
  | _ => cases place

theorem Placed.push (placed : Placed ptable t below) :
    Placed ptable t (Frame.idle :: below) := by
  cases below with
  | nil =>
      obtain ⟨p, rfl⟩ := placed
      rfl
  | cons next below => exact ⟨rfl, placed⟩

/-- A frame that is not in a loop may be replaced by another one of that kind. -/
theorem Placed.replace (placed : Placed ptable t (top :: below))
    (elsewhere : top.place = .elsewhere) (still : next.place = .elsewhere) :
    Placed ptable t (next :: below) := by
  cases below with
  | nil =>
      cases t with
      | proc p => exact still
      | scheduler c => exact absurd elsewhere (Frame.InLoop.ne_elsewhere placed)
  | cons other below => exact ⟨still, placed.2⟩

/-- In the thread of a process every frame may be replaced by one of the same place. -/
theorem Placed.of_proc {p : Proc} (placed : Placed ptable (.proc p : Thread Proc Cpu) (top :: below))
    (same : next.place = top.place) : Placed ptable (.proc p : Thread Proc Cpu) (next :: below) := by
  cases below with
  | nil => exact same.trans placed
  | cons other below => exact ⟨same.trans placed.1, placed.2⟩

/-- A frame in the loop of a scheduler is the only one of its thread. -/
theorem Placed.inLoop (placed : Placed ptable t (top :: below))
    (place : top.place ≠ .elsewhere) :
    ∃ c, t = .scheduler c ∧ below = [] ∧ top.InLoop ptable := by
  cases below with
  | nil =>
      cases t with
      | proc p => exact absurd placed place
      | scheduler c => exact ⟨c, rfl, rfl, placed⟩
  | cons next below => exact absurd placed.1 place

theorem Placed.of_mem (placed : Placed ptable t below) {f : Frame Proc Lock} (member : f ∈ below)
    (place : f.place ≠ .elsewhere) : ∃ c, t = .scheduler c ∧ f.InLoop ptable := by
  induction below with
  | nil => cases member
  | cons top below inductionHypothesis =>
      obtain rfl | member := List.mem_cons.mp member
      · obtain ⟨c, scheduler, -, inLoop⟩ := placed.inLoop place
        exact ⟨c, scheduler, inLoop⟩
      · cases below with
        | nil => cases member
        | cons next below => exact inductionHypothesis placed.2 member

theorem Placed.elsewhere_of_proc {p : Proc}
    (placed : Placed ptable (.proc p : Thread Proc Cpu) below) {f : Frame Proc Lock}
    (member : f ∈ below) : f.place = .elsewhere := by
  by_contra inside
  obtain ⟨c, impossible, -⟩ := placed.of_mem member inside
  cases impossible

section Acts

variable [DecidableEq Lock] {v after : View Proc Cpu Lock} {act : Act Lock}

/-- The steps of code that is not a scheduler's loop stay out of it. -/
theorem View.Acts.elsewhere (acts : View.Acts ptable c v act after)
    (elsewhere : v.frame.place = .elsewhere) : after.frame.place = .elsewhere := by
  cases acts with
  | enables place => simp [elsewhere] at place
  | acquires place => simp [elsewhere] at place
  | finishes place => simp [elsewhere] at place
  | fails place => simp [elsewhere] at place
  | _ => exact elsewhere

theorem View.Acts.not_chosen (acts : View.Acts ptable c v act after) {p : Proc}
    (chosen : after.frame.place = .chosen p) : v.frame.place = .chosen p := by
  cases acts with
  | enables => cases chosen
  | acquires => cases chosen
  | finishes => cases chosen
  | fails => cases chosen
  | _ => exact chosen

/-- A processor that has stopped stays stopped. -/
theorem View.Acts.stopped (acts : View.Acts ptable c v act after) {message : String} {calls : Nat}
    (stopped : v.frame.pc = .panicked message calls) :
    ∃ message calls, after.frame.pc = .panicked message calls := by
  cases acts with
  | panics => exact ⟨_, _, rfl⟩
  | call free => simp [free.2] at stopped
  | release free => simp [free.2] at stopped
  | deadlocks here => simp [here] at stopped
  | spins here => simp [here] at stopped
  | looks here => simp [here] at stopped
  | takes here => simp [here] at stopped
  | notes here => simp [here] at stopped
  | unlocks here => simp [here] at stopped
  | pops here => simp [here] at stopped
  | restores here => simp [here] at stopped
  | enters here => simp [here] at stopped
  | enables place here => simp [here] at stopped
  | acquires place here => simp [here] at stopped
  | finishes place here => simp [here] at stopped
  | fails place here => simp [here] at stopped

/-- The steps of a scheduler follow its loop. -/
theorem View.Acts.inLoop (acts : View.Acts ptable c v act after)
    (inLoop : v.frame.InLoop ptable) : after.frame.InLoop ptable := by
  obtain ⟨⟨place, pc, held⟩, core, lock⟩ := v
  cases acts with
  | panics => exact .panicked inLoop.ne_elsewhere fun _ => inLoop.held
  | deadlocks => exact .panicked inLoop.ne_elsewhere fun _ => inLoop.held
  | fails => exact .panicked (by simp [View.toPlace]) (by simp [View.toPlace])
  | call free => exact absurd free.1 inLoop.ne_elsewhere
  | release free => exact absurd free.1 inLoop.ne_elsewhere
  | enables place here =>
      cases place
      cases here
      cases inLoop with
      | sti => exact .acquire
  | acquires place here =>
      cases place
      cases here
      cases inLoop with
      | acquire => exact .acquiring ⟨core.interrupts, by simp [View.call]⟩
  | finishes place here holds =>
      cases place
      cases here
      cases inLoop with
      | acquiring => cases holds
      | loop => simpa [View.clear, View.toPlace] using Frame.InLoop.sti (by simp)
  | spins here =>
      cases here
      cases inLoop with
      | acquiring here => exact .acquiring ⟨false, by simp_all⟩
      | _ => simp_all
  | looks here =>
      cases here
      cases inLoop with
      | chosen here => exact .chosen ⟨false, by simp⟩
      | _ => simp_all
  | takes here free =>
      cases here
      cases inLoop with
      | acquiring here => exact .acquiring ⟨false, by simp_all⟩
      | _ => simp_all
  | notes here =>
      cases here
      cases inLoop with
      | acquiring here =>
          obtain ⟨eflags, here⟩ := here
          simp only [List.mem_cons, Pc.record.injEq, reduceCtorEq, List.not_mem_nil, or_false,
            false_or] at here
          subst here
          exact .loop
      | _ => simp_all
  | unlocks here =>
      cases here
      cases inLoop with
      | sti here => exact .sti (by simp)
      | _ => simp_all
  | pops here =>
      cases here
      cases inLoop with
      | sti => exact .sti (by simp)
      | chosen => exact .chosen ⟨false, by simp⟩
      | _ => simp_all
  | restores here =>
      cases here
      cases inLoop <;> simp_all
  | enters here =>
      cases here
      cases inLoop <;> simp_all

end Acts

/-- `sched` is called with `ptable.lock` and with no other lock. -/
theorem View.Sound.held_of_schedCheck [DecidableEq Cpu] {phase : Lock → Phase Cpu}
    {v : View Proc Cpu Lock} {state : Sched.ProcState} (sound : v.Sound c phase)
    (free : v.frame.Callable) (passes : v.schedCheck ptable c state = none) :
    v.frame.held = [ptable] := by
  unfold schedCheck at passes
  split at passes
  · cases passes
  · cases passes
  · rename_i holds
    have holds := sound.mem_of_holding holds
    have one : v.core.ncli = 1 := by
      by_contra more
      simp [more] at passes
    have count := sound.count
    simp only [one, free.2, Pc.calls] at count
    have length : v.frame.held.length = 1 := by omega
    obtain ⟨lk, only⟩ := List.length_eq_one_iff.mp length
    rw [only, List.mem_singleton] at holds
    rw [only, holds]

theorem Pc.settled_of_resume {pc next : Pc Lock} (resumes : pc.resume = some next) :
    next.taking = none ∧ next.calls = 0 := by
  unfold resume at resumes
  split at resumes
  · cases resumes
    exact ⟨rfl, rfl⟩
  · cases resumes
    exact ⟨rfl, rfl⟩
  · cases resumes

/-! ## Good states -/

namespace State

/-- The threads that run know what they should of their processors. -/
def Cores (s : State Proc Cpu Lock) (phase : Lock → Phase Cpu) : Prop :=
  ∀ c, ∃ top below, s.frames (s.current c) = top :: below ∧ (s.view c top).Sound c phase

section

variable [DecidableEq Proc] [DecidableEq Cpu] (s : State Proc Cpu Lock) (c : Cpu)
  (v : View Proc Cpu Lock) (below : List (Frame Proc Lock))

@[simp]
theorem put_current : (s.put c v below).current = s.current := rfl

@[simp]
theorem put_state : (s.put c v below).state = s.state := rfl

@[simp]
theorem put_lock : (s.put c v below).lock = v.lock := rfl

@[simp]
theorem put_frames :
    (s.put c v below).frames = Function.update s.frames (s.current c) (v.frame :: below) := rfl

@[simp]
theorem put_core : (s.put c v below).core = Function.update s.core c v.core := rfl

@[simp]
theorem setFrames_frames (t : Thread Proc Cpu) :
    (s.setFrames t below).frames = Function.update s.frames t below := rfl

/-- What holds of the frames of every thread holds after those of one have changed. -/
theorem forall_setFrames {s : State Proc Cpu Lock} {t : Thread Proc Cpu}
    (P : Thread Proc Cpu → List (Frame Proc Lock) → Prop) (holds : ∀ u, P u (s.frames u))
    {frames : List (Frame Proc Lock)} (new : P t frames) (u : Thread Proc Cpu) :
    P u ((s.setFrames t frames).frames u) :=
  (Function.forall_update_iff s.frames P).mpr ⟨new, fun u _ => holds u⟩ u

@[simp]
theorem setFrames_current (t : Thread Proc Cpu) :
    (s.setFrames t below).current = s.current := rfl

@[simp]
theorem setFrames_state (t : Thread Proc Cpu) : (s.setFrames t below).state = s.state := rfl

end

section

variable [DecidableEq Proc] (s : State Proc Cpu Lock) (p : Proc) (state : Sched.ProcState)

@[simp]
theorem setState_frames : (s.setState p state).frames = s.frames := rfl

@[simp]
theorem setState_current : (s.setState p state).current = s.current := rfl

@[simp]
theorem setState_state :
    (s.setState p state).state = Function.update s.state p state := rfl

end

section

variable [DecidableEq Cpu] (s : State Proc Cpu Lock) (c : Cpu) (t : Thread Proc Cpu)

@[simp]
theorem goOn_current :
    (s.goOn c t).current = Function.update s.current c t := rfl

@[simp]
theorem goOn_frames : (s.goOn c t).frames = s.frames := rfl

@[simp]
theorem goOn_state : (s.goOn c t).state = s.state := rfl

end

end State

/-- What holds in every state that can be reached. -/
structure Good (ptable : Lock) (s : State Proc Cpu Lock) : Prop where
  cores : ∃ phase, s.Cores phase
  alone : ∀ c d, s.current c = s.current d → c = d
  home : ∀ c d, s.current c = .scheduler d → d = c
  /-- A scheduler that does not run waits for its process, with the lock in its account. -/
  resting : ∀ c, s.current c ≠ .scheduler c → s.frames (.scheduler c) = [.looping ptable]
  /-- So does a process that is off the processors. -/
  away : ∀ p, (∀ c, s.current c ≠ .proc p) → s.frames (.proc p) = [] ∨
    ∃ top below, s.frames (.proc p) = top :: below ∧ top.held = [ptable] ∧ top.pc.resume ≠ none
  running : ∀ c p top below, s.current c = .proc p → s.frames (.proc p) = top :: below →
    s.state p = .running ∨ ∃ message calls, top.pc = .panicked message calls
  chosen : ∀ t p, ∀ f ∈ s.frames t, f.place = .chosen p → s.state p = .runnable
  placed : ∀ t, Placed ptable t (s.frames t)
  interrupted : ∀ t, Interrupted (s.frames t)

namespace Good

variable {s : State Proc Cpu Lock} {v : View Proc Cpu Lock} {rest : List (Frame Proc Lock)}
  {d : Cpu} {p : Proc}

theorem sound (good : Good ptable s) : ∃ phase, s.Cores phase ∧
    ∀ {c top below}, s.frames (s.current c) = top :: below → (s.view c top).Sound c phase := by
  obtain ⟨phase, cores⟩ := good.cores
  refine ⟨phase, cores, fun {c top below} frames => ?_⟩
  obtain ⟨top, below, known, sound⟩ := cores c
  rw [frames] at known
  cases known
  exact sound

/-- What is known of the frames of a thread. -/
theorem stack (good : Good ptable s) (frames : s.frames t = top :: below) :
    Placed ptable t (top :: below) ∧ (∀ f ∈ below, f.held = [] ∧ f.pc.Interruptible) ∧
      ∀ p, ∀ f ∈ top :: below, f.place = .chosen p → s.state p = .runnable := by
  have placed := good.placed t
  have interrupted := good.interrupted t
  have chosen := good.chosen t
  rw [frames] at placed interrupted chosen
  exact ⟨placed, interrupted, chosen⟩

/-- A thread that has chosen a process runs, and holds `ptable.lock`. -/
theorem chooses (good : Good ptable s) {f : Frame Proc Lock} (member : f ∈ s.frames t)
    (place : f.place = .chosen p) :
    ∃ d, t = .scheduler d ∧ s.current d = t ∧ s.frames t = [f] ∧ f.held = [ptable] := by
  obtain ⟨d, rfl, inLoop⟩ := (good.placed t).of_mem member (by simp [place])
  have held := inLoop.held place
  have runs : s.current d = .scheduler d := by
    by_contra elsewhere
    rw [good.resting d elsewhere, List.mem_singleton] at member
    simp [member, Frame.looping] at place
  obtain ⟨phase, cores, -⟩ := good.sound
  obtain ⟨top, below, frames, -⟩ := cores d
  rw [runs] at frames
  obtain ⟨placed, under, -⟩ := good.stack frames
  rw [frames] at member
  obtain rfl | deep := List.mem_cons.mp member
  · obtain ⟨-, -, rfl, -⟩ := placed.inLoop (by simp [place])
    exact ⟨d, rfl, runs, frames, held⟩
  · simp [(under f deep).1] at held

/-- Two processors do not hold the same lock. -/
theorem holder (good : Good ptable s) (lk : Lock) {other : Frame Proc Lock}
    (frames : s.frames (s.current c) = top :: below) (holds : lk ∈ top.held)
    (others : s.frames (s.current d) = other :: rest) (also : lk ∈ other.held) : c = d := by
  obtain ⟨phase, -, known⟩ := good.sound
  have here := ((known frames).tracks.held lk).mp holds
  have there := ((known others).tracks.held lk).mp also
  simpa [here] using there

/-- A process that is chosen does not run. -/
theorem off_of_runnable (good : Good ptable s) (runnable : s.state p = .runnable)
    {first : Frame Proc Lock} (waits : s.frames (.proc p) = first :: rest)
    (resumes : first.pc.resume ≠ none) : s.current c ≠ .proc p := by
  intro runs
  obtain running | ⟨message, calls, stopped⟩ := good.running c p first rest runs waits
  · simp [runnable] at running
  · simp [stopped, Pc.resume] at resumes

section

variable [DecidableEq Cpu]

/-- The threads that run are different after another one goes on, too. -/
theorem alone_goOn (good : Good ptable s) (off : ∀ d, s.current d ≠ t) (d e : Cpu)
    (equal : Function.update s.current c t d = Function.update s.current c t e) : d = e := by
  by_cases here : d = c
  · by_cases there : e = c
    · rw [here, there]
    · simp only [here, Function.update_self, Function.update_of_ne there] at equal
      exact absurd equal.symm (off e)
  · by_cases there : e = c
    · simp only [there, Function.update_self, Function.update_of_ne here] at equal
      exact absurd equal (off d)
    · simp only [Function.update_of_ne there, Function.update_of_ne here] at equal
      exact good.alone d e equal

/-- Another thread goes on with `ptable.lock`. -/
theorem cores_goOn (good : Good ptable s) {after : State Proc Cpu Lock} (first : Frame Proc Lock)
    (frames : s.frames (s.current c) = top :: below) (lock : after.lock = s.lock)
    (core : after.core = s.core) (current : after.current = Function.update s.current c t)
    (off : ∀ d, s.current d ≠ t)
    (others : ∀ u, u ≠ s.current c → u ≠ t → after.frames u = s.frames u)
    (turn : ∃ rest, after.frames t = first :: rest) (held : first.held = [ptable])
    (inside : top.held = [ptable] ∧ top.pc = .outside)
    (settled : first.pc.taking = none ∧ first.pc.calls = 0) : ∃ phase, after.Cores phase := by
  obtain ⟨phase, cores, known⟩ := good.sound
  refine ⟨phase, fun d => ?_⟩
  by_cases same : d = c
  · subst same
    obtain ⟨rest, turn⟩ := turn
    refine ⟨first, rest, by simpa [current] using turn, ?_⟩
    have sound := known frames
    have count := sound.count
    simp only [State.view, inside, Pc.calls] at count
    have masked : (s.core d).interrupts = false := sound.off (by simp [State.view, count])
    have view : after.view d first = { s.view d top with frame := first } := by
      simp [State.view, lock, core]
    rw [view]
    exact sound.exchange rfl (held.trans inside.1.symm)
      (settled.1.trans (by simp [State.view, inside, Pc.taking]))
      (settled.2.trans (by simp [State.view, inside, Pc.calls])) rfl sound.off fun _ => masked
  · obtain ⟨other, framed, stays, knows⟩ := cores d
    have different : s.current d ≠ s.current c := fun equal => same (good.alone d c equal)
    refine ⟨other, framed, ?_, ?_⟩
    · simp [current, same, others _ different (off d), stays]
    · simpa [State.view, lock, core] using knows

end

variable [DecidableEq Proc]

/-- The state of a process changes. -/
theorem setState (good : Good ptable s) {state : Sched.ProcState}
    (stays : ∀ c top below, s.current c = .proc p → s.frames (.proc p) = top :: below →
      state = .running ∨ ∃ message calls, top.pc = .panicked message calls)
    (free : s.state p = .runnable → state = .runnable) :
    Good ptable (s.setState p state) where
  cores := good.cores
  alone := good.alone
  home := good.home
  resting := good.resting
  away := good.away
  running := by
    intro c q top below current frames
    by_cases same : q = p
    · subst same
      simpa using stays c top below current frames
    · simpa [same] using good.running c q top below current frames
  chosen := by
    intro t q f member place
    have runnable := good.chosen t q f member place
    by_cases same : q = p
    · subst same
      simpa using free runnable
    · simpa [same] using runnable
  placed := good.placed
  interrupted := good.interrupted

theorem wakeup (good : Good ptable s) (sleeps : s.state p = .sleeping) :
    Good ptable (s.setState p .runnable) := by
  refine good.setState ?_ fun _ => rfl
  intro c top below current frames
  obtain running | stopped := good.running c p top below current frames
  · simp [sleeps] at running
  · exact Or.inr stopped

variable [DecidableEq Cpu]

/-- The running thread of a processor moves. -/
theorem put (good : Good ptable s) (frames : s.frames (s.current c) = top :: below)
    (moved : ∀ phase, (s.view c top).Sound c phase →
      ∃ later, Moves c phase later ∧ v.Sound c later)
    (placed : Placed ptable (s.current c) (v.frame :: rest))
    (interrupted : ∀ f ∈ rest, f.held = [] ∧ f.pc.Interruptible)
    (stopped : ∀ message calls, top.pc = .panicked message calls →
      ∃ message calls, v.frame.pc = .panicked message calls)
    (chosen : ∀ p, ∀ f ∈ v.frame :: rest, f.place = .chosen p → s.state p = .runnable) :
    Good ptable (s.put c v rest) where
  cores := by
    obtain ⟨phase, cores, known⟩ := good.sound
    obtain ⟨later, moves, sound⟩ := moved phase (known frames)
    refine ⟨later, fun d => ?_⟩
    by_cases same : d = c
    · subst same
      exact ⟨v.frame, rest, by simp, by simpa [State.view] using sound⟩
    · obtain ⟨other, others, framed, knows⟩ := cores d
      have different : s.current d ≠ s.current c := fun equal => same (good.alone d c equal)
      refine ⟨other, others, by simpa [different] using framed, ?_⟩
      simpa [State.view, same] using knows.others same moves sound.lock
  alone := good.alone
  home := good.home
  resting := by
    intro d elsewhere
    have different : Thread.scheduler d ≠ s.current c := by
      intro same
      have equal := good.home c d same.symm
      subst equal
      exact elsewhere same.symm
    simpa [different] using good.resting d elsewhere
  away := by
    intro p off
    have different : Thread.proc p ≠ s.current c := fun same => off c same.symm
    simpa [different] using good.away p off
  running := by
    intro d p top' below' current framed
    by_cases same : s.current d = s.current c
    · have equal := good.alone d c same
      subst equal
      rw [State.put_current] at current
      rw [State.put_frames, current, Function.update_self] at framed
      cases framed
      rw [current] at frames
      exact (good.running d p top below current frames).imp_right fun ⟨_, _, here⟩ => stopped _ _ here
    · rw [State.put_current] at current
      rw [State.put_frames, Function.update_of_ne (current ▸ same)] at framed
      exact good.running d p top' below' current framed
  chosen := State.forall_setFrames (fun _ frames => ∀ p, ∀ f ∈ frames,
    f.place = .chosen p → s.state p = .runnable) good.chosen chosen
  placed := State.forall_setFrames (Placed ptable) good.placed placed
  interrupted := State.forall_setFrames (fun _ => Interrupted) good.interrupted interrupted

/-- The scheduler switches to a process. -/
theorem swtch (good : Good ptable s) {held : List Lock} {first : Frame Proc Lock} {pc : Pc Lock}
    (frames : s.frames (s.current c) = ⟨.chosen p, .outside, held⟩ :: below)
    (waits : s.frames (.proc p) = first :: rest) (resumes : first.pc.resume = some pc) :
    Good ptable ((((s.setFrames (s.current c) (⟨.loop, .outside, held⟩ :: below)).setFrames
      (.proc p) ({ first with pc := pc } :: rest)).setState p .running).goOn c (.proc p)) := by
  have top : (⟨.chosen p, .outside, held⟩ : Frame Proc Lock) ∈ s.frames (s.current c) := by
    simp [frames]
  have runnable := good.chosen _ p _ top rfl
  obtain ⟨d, scheduler, current, framed, rfl⟩ := good.chooses top rfl
  obtain rfl := good.home c d scheduler
  obtain ⟨-, rfl⟩ := List.cons.inj (frames.symm.trans framed)
  have off : ∀ d, s.current d ≠ .proc p := fun d =>
    good.off_of_runnable runnable waits (by simp [resumes])
  obtain ⟨other, others, known, held, -⟩ := (good.away p off).resolve_left (by simp [waits])
  rw [waits] at known
  cases known
  obtain ⟨stacked, under, -⟩ := good.stack waits
  have placed : Placed ptable (.proc p : Thread Proc Cpu) ({ first with pc := pc } :: rest) :=
    stacked.of_proc rfl
  exact {
    cores := good.cores_goOn { first with pc := pc } frames rfl rfl rfl off
      (fun u here there => by simp [here, there]) ⟨rest, by simp⟩ held ⟨rfl, rfl⟩
      (Pc.settled_of_resume resumes)
    alone := good.alone_goOn off
    home := by
      intro e f equal
      by_cases same : e = d
      · simp [same] at equal
      · exact good.home e f (by simpa [same] using equal)
    resting := by
      intro e elsewhere
      by_cases same : e = d
      · simp [same, scheduler, Frame.looping]
      · simpa [same, scheduler] using good.resting e (by simpa [same] using elsewhere)
    away := by
      intro q leaves
      have different : q ≠ p := by
        rintro rfl
        simpa using leaves d
      have before : ∀ e, s.current e ≠ .proc q := by
        intro e
        by_cases same : e = d
        · simp [same, scheduler]
        · simpa [same] using leaves e
      simpa [different, scheduler] using good.away q before
    running := by
      intro e q top below runs known
      by_cases same : q = p
      · simp [same]
      · have elsewhere : e ≠ d := by
          rintro rfl
          simp [Ne.symm same] at runs
        simpa [same] using good.running e q top below (by simpa [elsewhere] using runs)
          (by simpa [same, scheduler] using known)
    chosen := by
      intro t q f member chosen
      by_cases process : t = .proc p
      · subst process
        rw [State.goOn_frames, State.setState_frames, State.setFrames_frames,
          Function.update_self] at member
        simp [placed.elsewhere_of_proc member] at chosen
      · by_cases same : t = .scheduler d
        · simp only [State.goOn_frames, State.setState_frames, State.setFrames_frames, scheduler,
            same, Function.update_self, Function.update_of_ne, List.mem_singleton, ne_eq,
            reduceCtorEq, not_false_eq_true] at member
          simp [member] at chosen
        · have before : f ∈ s.frames t := by simpa [process, same, scheduler] using member
          obtain ⟨e, rfl, runs, alone, holds⟩ := good.chooses before chosen
          rw [← runs] at alone
          have both := good.holder ptable frames (by simp) alone (by simp [holds])
          simp [both] at same
    placed := State.forall_setFrames (Placed ptable)
      (State.forall_setFrames (Placed ptable) good.placed (by rw [scheduler]; exact .loop)) placed
    interrupted := State.forall_setFrames (fun _ => Interrupted)
      (State.forall_setFrames (fun _ => Interrupted) good.interrupted (by simp [Interrupted])) under
  }

/-- A process switches back to the scheduler. -/
theorem sched (good : Good ptable s) {state : Sched.ProcState} (current : s.current c = .proc p)
    (frames : s.frames (s.current c) = top :: below) (free : top.Callable)
    (held : top.held = [ptable]) :
    Good ptable (((s.setFrames (.proc p)
      ({ top with pc := .swtch (s.core c).intena } :: below)).setState p state).goOn c
        (.scheduler c)) := by
  have off : ∀ d, s.current d ≠ .scheduler c := by
    intro d runs
    have equal := good.home d c runs
    subst equal
    simp [current] at runs
  have looping := good.resting c (off c)
  have framed : s.frames (.proc p) = top :: below := by rw [← current, frames]
  have here : ∀ d, s.current d = .proc p → d = c := fun d runs =>
    good.alone d c (runs.trans current.symm)
  obtain ⟨stacked, under, -⟩ := good.stack framed
  have placed : Placed ptable (.proc p : Thread Proc Cpu)
      ({ top with pc := .swtch (s.core c).intena } :: below) := stacked.of_proc rfl
  exact {
    cores := good.cores_goOn (.looping ptable) frames rfl rfl rfl off
      (fun u here there => by simp [current ▸ here]) ⟨[], by simp [looping]⟩ rfl ⟨held, free.2⟩
      ⟨rfl, rfl⟩
    alone := good.alone_goOn off
    home := by
      intro e f equal
      by_cases same : e = c
      · subst same
        simpa using equal.symm
      · exact good.home e f (by simpa [same] using equal)
    resting := by
      intro e elsewhere
      have different : e ≠ c := by
        rintro rfl
        simp at elsewhere
      simpa using good.resting e (by simpa [different] using elsewhere)
    away := by
      intro q leaves
      by_cases same : q = p
      · subst same
        exact Or.inr ⟨{ top with pc := .swtch (s.core c).intena }, below, by simp, held,
          by simp [Pc.resume]⟩
      · have before : ∀ e, s.current e ≠ .proc q := by
          intro e
          by_cases equal : e = c
          · simp [equal, current, Ne.symm same]
          · simpa [equal] using leaves e
        simpa [same] using good.away q before
    running := by
      intro e q first rest runs known
      have different : e ≠ c := by
        rintro rfl
        simp at runs
      rw [State.goOn_current, Function.update_of_ne different] at runs
      have other : q ≠ p := by
        rintro rfl
        exact different (here e runs)
      simpa [other] using good.running e q first rest runs (by simpa [other] using known)
    chosen := by
      intro t q f member chosen
      by_cases process : t = .proc p
      · subst process
        rw [State.goOn_frames, State.setState_frames, State.setFrames_frames,
          Function.update_self] at member
        simp [placed.elsewhere_of_proc member] at chosen
      · have before : f ∈ s.frames t := by simpa [process] using member
        obtain ⟨e, rfl, runs, alone, holds⟩ := good.chooses before chosen
        rw [← runs] at alone
        have both := good.holder ptable frames (by simp [held]) alone (by simp [holds])
        subst both
        simp [current] at runs
    placed := State.forall_setFrames (Placed ptable) good.placed placed
    interrupted := State.forall_setFrames (fun _ => Interrupted) good.interrupted under
  }

/-! ## Every step -/

theorem user (good : Good ptable s) (current : s.current c = .proc p)
    (frames : s.frames (s.current c) = [.idle]) :
    Good ptable (s.put c ((s.view c .idle).setInterrupts true) []) := by
  refine good.put frames (fun phase sound => ?_) ?_ (by simp) ?_ ?_
  · exact (sound.unmasked rfl Frame.idle_interruptible rfl Frame.idle_interruptible true).quiet
  · rw [current]
    rfl
  · simp [Frame.idle]
  · simp [State.view, View.setInterrupts, Frame.idle]

theorem interrupt (good : Good ptable s) (frames : s.frames (s.current c) = top :: below)
    (on : (s.core c).interrupts = true) :
    Good ptable (s.put c ((s.view c .idle).setInterrupts false) (top :: below)) := by
  obtain ⟨phase, -, known⟩ := good.sound
  have inside := (known frames).interruptible on
  obtain ⟨placed, interrupted, chosen⟩ := good.stack frames
  refine good.put frames (fun phase sound => ?_) placed.push ?_ ?_ ?_
  · exact (sound.unmasked inside.1 inside.2 rfl Frame.idle_interruptible false).quiet
  · intro f member
    obtain rfl | member := List.mem_cons.mp member
    · exact inside
    · exact interrupted f member
  · intro message calls stopped
    have unmasked := inside.2
    simp only [State.view, stopped] at unmasked
    cases unmasked
  · intro p f member place
    obtain rfl | member := List.mem_cons.mp member
    · cases place
    · exact chosen p f member place

theorem iret (good : Good ptable s) (frames : s.frames (s.current c) = .idle :: next :: below) :
    Good ptable (s.put c ((s.view c next).setInterrupts true) below) := by
  obtain ⟨placed, interrupted, chosen⟩ := good.stack frames
  obtain ⟨nothing, inside⟩ := interrupted next (by simp)
  refine good.put frames (fun phase sound => ?_) placed.2 ?_ ?_ ?_
  · exact (sound.unmasked rfl Frame.idle_interruptible nothing inside true).quiet
  · intro f member
    exact interrupted f (by simp [member])
  · intro message calls stopped
    cases stopped
  · intro p f member place
    exact chosen p f (List.mem_cons_of_mem _ member) place

theorem choose (good : Good ptable s) (frames : s.frames (s.current c) = top :: below)
    (place : top.place = .loop) (here : top.pc = .outside) (runnable : s.state p = .runnable) :
    Good ptable (s.put c (((s.view c top).call .myproc).toPlace (.chosen p)) below) := by
  obtain ⟨placed, -, -⟩ := good.stack frames
  obtain ⟨d, scheduler, rfl, inLoop⟩ := placed.inLoop (by simp [place])
  refine good.put frames (fun phase sound => ?_) ?_ (by simp) ?_ ?_
  · exact ((sound.call here _).toPlace _).quiet
  · obtain ⟨place, pc, held⟩ := top
    cases place
    cases here
    rw [scheduler]
    cases inLoop with
    | acquiring here => simp at here
    | loop => exact .chosen ⟨(s.core c).interrupts, by simp [View.call, State.view]⟩
  · simp [here]
  · intro q f member chosen
    rw [List.mem_singleton] at member
    subst member
    cases chosen
    exact runnable

/-- `sched` fails one of its checks. -/
theorem panics (good : Good ptable s) {state : Sched.ProcState} {message : String}
    (current : s.current c = .proc p) (frames : s.frames (s.current c) = top :: below)
    (free : top.Callable) :
    Good ptable ((s.put c ((s.view c top).panic message) below).setState p state) := by
  obtain ⟨placed, interrupted, chosen⟩ := good.stack frames
  have stops : Good ptable (s.put c ((s.view c top).panic message) below) := by
    refine good.put frames (fun phase sound => ?_) ?_ interrupted ?_ ?_
    · exact (sound.panic (by simp [State.view, free.2, Pc.taking]) message).quiet
    · exact placed.replace free.1 free.1
    · intro message calls stopped
      simp [free.2] at stopped
    · intro q f member place
      obtain rfl | member := List.mem_cons.mp member
      · exact chosen q top (by simp) place
      · exact chosen q f (by simp [member]) place
  refine stops.setState ?_ ?_
  · intro d first rest runs framed
    rw [State.put_frames, current, Function.update_self] at framed
    cases framed
    exact Or.inr ⟨message, _, rfl⟩
  · intro runnable
    rw [current] at frames
    obtain running | ⟨message, calls, stopped⟩ := good.running c p top below current frames
    · simp [running] at runnable
    · simp [free.2] at stopped

theorem fork (good : Good ptable s) (unborn : s.frames (.proc p) = []) :
    Good ptable ((s.setFrames (.proc p) [.newborn ptable]).setState p .runnable) := by
  obtain ⟨phase, cores, -⟩ := good.sound
  have off : ∀ c, s.current c ≠ .proc p := by
    intro c runs
    obtain ⟨top, below, frames, -⟩ := cores c
    simp [runs, unborn] at frames
  have born : Good ptable (s.setFrames (.proc p) [.newborn ptable]) := {
    cores := ⟨phase, fun c => by simpa [off c, State.view, State.setFrames] using cores c⟩
    alone := good.alone
    home := good.home
    resting := by simpa using good.resting
    away := by
      intro q leaves
      by_cases same : q = p
      · subst same
        exact Or.inr ⟨.newborn ptable, [], by simp, rfl, by simp [Frame.newborn, Pc.resume]⟩
      · simpa [same] using good.away q leaves
    running := by
      intro c q top below runs frames
      have same : q ≠ p := by
        rintro rfl
        exact off c runs
      exact good.running c q top below runs (by simpa [same] using frames)
    chosen := by
      intro t q f member place
      by_cases same : t = .proc p
      · subst same
        simp only [State.setFrames_frames, Function.update_self, List.mem_singleton] at member
        simp [member, Frame.newborn] at place
      · exact good.chosen t q f (by simpa [same] using member) place
    placed := State.forall_setFrames (Placed ptable) good.placed rfl
    interrupted := State.forall_setFrames (fun _ => Interrupted) good.interrupted
      (by simp [Interrupted])
  }
  exact born.setState (fun c _ _ runs => (off c runs).elim) fun _ => rfl

variable [DecidableEq Lock]

/-- The running thread does a step of its own. -/
theorem act (good : Good ptable s) {act : Act Lock}
    (frames : s.frames (s.current c) = top :: below)
    (ran : act.run ptable c (s.view c top) = some v) : Good ptable (s.put c v below) := by
  obtain ⟨phase, -, known⟩ := good.sound
  have acts := (known frames).acts ran
  obtain ⟨placed, interrupted, chosen⟩ := good.stack frames
  refine good.put frames (fun phase sound => sound.step acts ?_) ?_ interrupted
    (fun message calls => acts.stopped) ?_
  · intro place here
    have sti : top.place = .sti := place
    obtain ⟨-, -, -, inLoop⟩ := placed.inLoop (by simp [sti])
    exact inLoop.held_eq_nil sti here
  · by_cases elsewhere : top.place = .elsewhere
    · exact placed.replace elsewhere (acts.elsewhere elsewhere)
    · obtain ⟨d, scheduler, rfl, inLoop⟩ := placed.inLoop elsewhere
      rw [scheduler]
      exact acts.inLoop inLoop
  · intro p f member place
    obtain rfl | member := List.mem_cons.mp member
    · exact chosen p top (by simp) (acts.not_chosen place)
    · exact chosen p f (by simp [member]) place

theorem step {event : Event Proc Cpu Lock} {next : State Proc Cpu Lock} (good : Good ptable s)
    (steps : Steps ptable s event next) : Good ptable next := by
  cases steps with
  | act frames ran => exact good.act frames ran
  | user current frames => exact good.user current frames
  | interrupt frames on => exact good.interrupt frames on
  | iret frames => exact good.iret frames
  | choose frames place here runnable => exact good.choose frames place here runnable
  | swtch frames waits resumes => exact good.swtch frames waits resumes
  | sched current frames free passes =>
      obtain ⟨phase, -, known⟩ := good.sound
      exact good.sched current frames free ((known frames).held_of_schedCheck free passes)
  | panics current frames free => exact good.panics current frames free
  | wakeup sleeps => exact good.wakeup sleeps
  | fork unborn => exact good.fork unborn

end Good

/-! ## Runs -/

theorem boot_good [DecidableEq Proc] (ptable : Lock) (initproc : Proc) :
    Good ptable (boot ptable initproc : State Proc Cpu Lock) where
  cores := by
    refine ⟨fun _ => .free, fun c => ⟨⟨.sti, .outside, []⟩, [], rfl, ?_⟩⟩
    exact {
      lock := fun _ => rfl
      tracks := ⟨by simp [State.view], by simp [State.view, Pc.taking], List.nodup_nil⟩
      count := rfl
      off := fun _ => rfl
      masked := fun _ => rfl
    }
  alone := by simp [boot]
  home := by simp [boot, eq_comm]
  resting := by simp [boot]
  away := by
    intro p _
    by_cases first : p = initproc
    · exact Or.inr ⟨.newborn ptable, [], by simp [boot, first], rfl, by simp [Frame.newborn, Pc.resume]⟩
    · exact Or.inl (by simp [boot, first])
  running := by simp [boot]
  chosen := by
    intro t p f member place
    cases t with
    | proc q =>
        by_cases first : q = initproc
        · obtain rfl : f = .newborn ptable := by simpa [boot, first] using member
          cases place
        · simp [boot, first] at member
    | scheduler c =>
        obtain rfl : f = ⟨.sti, .outside, []⟩ := by simpa [boot] using member
        cases place
  placed := by
    intro t
    cases t with
    | proc q =>
        by_cases first : q = initproc
        · simp only [boot, first, if_true]
          rfl
        · simp only [boot, first, if_false]
          exact ⟨q, rfl⟩
    | scheduler c => exact Frame.InLoop.sti (by simp)
  interrupted := by
    intro t
    cases t with
    | proc q => by_cases first : q = initproc <;> simp [boot, first, Interrupted]
    | scheduler c => simp [boot, Interrupted]

theorem Good.runs [DecidableEq Proc] [DecidableEq Cpu] [DecidableEq Lock] {ptable : Lock}
    {s final : State Proc Cpu Lock} {events : List (Event Proc Cpu Lock)} (good : Good ptable s)
    (run : Library.runs (Spin.step ptable) s events = some final) :
    Good ptable final :=
  runs_invariant (fun _ => Good ptable) good
    (fun _ _ _ _ before stepped => before.step (step_steps stepped)) run

end Xv6.Spin
