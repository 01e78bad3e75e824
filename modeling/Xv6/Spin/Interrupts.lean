import Mathlib.Data.Finset.Card
import Xv6.Spin.Handover

/-!
# Interrupts across locks and switches

`ncli` and `intena` belong to a processor, and a process may go on at another
one. Where a process keeps the flag that its first `acquire` has found is known
at each step, so the release of its last lock restores it on any processor.
-/

namespace Xv6.Spin

open Xv6.Library

variable {Proc Cpu Lock : Type}

/-! ## Definitions -/

namespace State

/-- The `pushcli` calls outstanding on a processor that are not those of its locks. -/
def calls (s : State Proc Cpu Lock) (c : Cpu) : Nat :=
  match s.frames (s.current c) with
  | top :: _ => top.pc.calls
  | [] => 0

/-- What a thread does on one of its levels: the first is its own code, the others are
interrupts. -/
def level (s : State Proc Cpu Lock) (t : Thread Proc Cpu) (depth : Nat) :
    Option (Frame Proc Lock) :=
  (s.frames t).reverse[depth]?

end State

/-- The flag that will be restored is `b`, where the processor has it if it is `saved` there. -/
def Frame.Keeps (saved : Prop) (b : Bool) (frame : Frame Proc Lock) : Prop :=
  match frame.pc with
  | .pushcli eflags _ => (frame.held = [] → eflags = b) ∧ (frame.held ≠ [] → saved)
  | .swtch intena => intena = b ∧ frame.held ≠ []
  | .restore intena => intena = b ∧ frame.held ≠ []
  | .forkret => False
  | .panicked _ _ => True
  | _ => saved

/-- A process that has found `b` keeps it until it is idle, and then has it restored. -/
structure State.Preserves (s : State Proc Cpu Lock) (p : Proc) (depth : Nat) (b : Bool)
    (frame : Frame Proc Lock) : Prop where
  here : s.level (.proc p) depth = some frame
  keeps : frame ≠ .idle → frame.Keeps (∀ c, s.current c = .proc p → (s.core c).intena = b) b
  restored : frame = .idle → ∃ c, s.current c = .proc p ∧ (s.core c).interrupts = b

/-! ## What a frame keeps -/

theorem Frame.Keeps.mono {frame : Frame Proc Lock} {saved later : Prop} {b : Bool}
    (keeps : frame.Keeps saved b) (implies : saved → later) : frame.Keeps later b := by
  obtain ⟨place, pc, held⟩ := frame
  cases pc with
  | pushcli eflags call => exact ⟨keeps.1, fun some => implies (keeps.2 some)⟩
  | swtch intena => exact keeps
  | restore intena => exact keeps
  | forkret => exact keeps
  | panicked message calls => trivial
  | _ => exact implies keeps

/-- An interrupted frame has the flag itself. -/
theorem Frame.Keeps.interrupted {frame : Frame Proc Lock} {saved later : Prop} {b : Bool}
    (keeps : frame.Keeps saved b) (nothing : frame.held = []) (inside : frame.pc.Interruptible)
    (elsewhere : frame.place = .elsewhere) (busy : frame ≠ .idle) : frame.Keeps later b := by
  obtain ⟨place, pc, held⟩ := frame
  cases elsewhere
  cases nothing
  cases pc with
  | outside => exact absurd rfl busy
  | pushcli eflags call => exact ⟨keeps.1, fun some => absurd rfl some⟩
  | _ => cases inside

theorem Frame.held_ne_nil {frame : Frame Proc Lock} (free : frame.Callable)
    (busy : frame ≠ .idle) : frame.held ≠ [] := by
  obtain ⟨place, pc, held⟩ := frame
  obtain ⟨rfl, rfl⟩ := free
  rintro rfl
  exact busy rfl

/-- A frame that is switched to again has the flag, unless the thread is new. -/
theorem Frame.Keeps.resumed {frame : Frame Proc Lock} {saved later : Prop} {b : Bool} {pc : Pc Lock}
    (keeps : frame.Keeps saved b) (resumes : frame.pc.resume = some pc) :
    ({ frame with pc := pc } : Frame Proc Lock).Keeps later b := by
  obtain ⟨place, old, held⟩ := frame
  cases old with
  | swtch intena =>
      cases resumes
      exact keeps
  | forkret => exact keeps.elim
  | _ => cases resumes

theorem Pc.ne_outside_of_resume {pc next : Pc Lock} (resumes : pc.resume = some next) :
    next ≠ .outside := by
  rintro rfl
  cases pc <;> cases resumes

section Acts

variable {c : Cpu} {phase : Lock → Phase Cpu} {v after : View Proc Cpu Lock} {b : Bool}

/-- The outermost `pushcli` saves the flag. -/
theorem View.Sound.intena_pushcli (sound : v.Sound c phase) {eflags : Bool} {called : Call Lock}
    (here : v.frame.pc = .pushcli eflags called) (keeps : v.frame.Keeps (v.core.intena = b) b)
    (pc : Pc Lock) : (v.pushcli eflags pc).core.intena = b := by
  simp only [Frame.Keeps, here] at keeps
  by_cases nothing : v.frame.held = []
  · have outermost := sound.ncli_eq_zero (by simp [here, Pc.Interruptible]) nothing
    simpa [View.pushcli, Core.pushcli, outermost] using keeps.1 nothing
  · have count := sound.count
    have some := List.length_pos_iff.mpr nothing
    have nested : v.core.ncli ≠ 0 := by omega
    simpa [View.pushcli, Core.pushcli, nested] using keeps.2 nothing

/-- The last `popcli` restores the flag. -/
theorem View.Sound.interrupts_popped (sound : v.Sound c phase) (here : v.frame.pc = .popcli)
    (nothing : v.frame.held = []) : v.popped.core.interrupts = v.core.intena := by
  have last : v.core.ncli = 1 := by simpa [here, nothing, Pc.calls] using sound.count
  simp [popped, last]

/-- A step of the running thread keeps the flag, or restores it. -/
theorem View.Acts.keeps [DecidableEq Lock] {ptable : Lock} {act : Act Lock}
    (acts : View.Acts ptable c v act after) (sound : v.Sound c phase)
    (elsewhere : v.frame.place = .elsewhere) (busy : v.frame ≠ .idle)
    (keeps : v.frame.Keeps (v.core.intena = b) b) :
    (after.frame ≠ .idle → after.frame.Keeps (after.core.intena = b) b) ∧
      (after.frame = .idle → after.core.interrupts = b) := by
  have saved : after.frame.pc ≠ .outside → after.frame.Keeps (after.core.intena = b) b →
      (after.frame ≠ .idle → after.frame.Keeps (after.core.intena = b) b) ∧
        (after.frame = .idle → after.core.interrupts = b) :=
    fun inside keeps => ⟨fun _ => keeps, fun idle => absurd (congrArg Frame.pc idle) inside⟩
  cases acts with
  | call free =>
      have some := Frame.held_ne_nil free busy
      simp only [Frame.Keeps, free.2] at keeps
      exact saved nofun ⟨fun nothing => absurd nothing some, fun _ => keeps⟩
  | release free holds =>
      simp only [Frame.Keeps, free.2] at keeps
      exact saved nofun keeps
  | panics => exact saved nofun trivial
  | deadlocks => exact saved nofun trivial
  | spins here => exact saved nofun (sound.intena_pushcli here keeps _)
  | looks here => exact saved nofun (sound.intena_pushcli here keeps _)
  | takes here =>
      simp only [Frame.Keeps, here] at keeps
      exact saved nofun keeps
  | notes here =>
      simp only [Frame.Keeps, here] at keeps
      exact ⟨fun _ => keeps, fun idle => absurd (congrArg Frame.held idle) nofun⟩
  | unlocks here =>
      simp only [Frame.Keeps, here] at keeps
      exact saved nofun keeps
  | pops here =>
      simp only [Frame.Keeps, here] at keeps
      refine ⟨fun _ => keeps, fun idle => ?_⟩
      exact (sound.interrupts_popped here (congrArg Frame.held idle)).trans keeps
  | restores here =>
      simp only [Frame.Keeps, here] at keeps
      exact ⟨fun _ => keeps.1, fun idle => absurd (congrArg Frame.held idle) keeps.2⟩
  | enters here =>
      simp only [Frame.Keeps, here] at keeps
  | enables place => simp [elsewhere] at place
  | acquires place => simp [elsewhere] at place
  | finishes place => simp [elsewhere] at place
  | fails place => simp [elsewhere] at place

end Acts

/-! ## Levels -/

section Levels

variable {ptable : Lock} {s next : State Proc Cpu Lock} {t : Thread Proc Cpu} {p : Proc} {c : Cpu}
  {depth : Nat} {b : Bool} {top frame : Frame Proc Lock} {below : List (Frame Proc Lock)}

namespace State

theorem level_congr (same : next.frames t = s.frames t) : next.level t depth = s.level t depth := by
  rw [level, level, same]

theorem level_eq (frames : s.frames t = top :: below) :
    s.level t depth = if depth = below.length then some top else below.reverse[depth]? := by
  rw [level, frames, List.reverse_cons]
  by_cases same : depth = below.length
  · simp [same]
  · by_cases under : depth < below.length
    · rw [if_neg same, List.getElem?_append_left (by simpa using under)]
    · have above : below.length < depth := by omega
      have outside : (below.reverse ++ [top]).length ≤ depth := by
        rw [List.length_append, List.length_reverse]
        exact above
      rw [if_neg same, List.getElem?_eq_none outside,
        List.getElem?_eq_none (List.length_reverse.trans_le above.le)]

theorem mem_of_level (here : s.level t depth = some frame) : frame ∈ s.frames t :=
  List.mem_reverse.mp (List.mem_of_getElem? here)

end State

theorem Good.elsewhere (good : Good ptable s) (member : frame ∈ s.frames (.proc p)) :
    frame.place = .elsewhere :=
  (good.placed (.proc p)).elsewhere_of_proc member

/-! ## A process on its level -/

namespace State.Preserves

/-- Nothing happens to the process and its processor that it would notice. -/
theorem same (preserves : s.Preserves p depth b frame) (busy : frame ≠ .idle)
    (level : next.level (.proc p) depth = s.level (.proc p) depth)
    (kept : ∀ c, next.current c = .proc p →
      s.current c = .proc p ∧ (next.core c).intena = (s.core c).intena) :
    ∃ frame, next.Preserves p depth b frame := by
  refine ⟨frame, level.trans preserves.here, fun _ => ?_, fun idle => absurd idle busy⟩
  refine (preserves.keeps busy).mono fun saved c runs => ?_
  obtain ⟨before, intena⟩ := kept c runs
  exact intena.trans (saved c before)

/-- Only the frame on top of the process changes. -/
theorem replace (preserves : s.Preserves p depth b frame) (good : Good ptable s)
    (new : Frame Proc Lock) (busy : frame ≠ .idle) (frames : s.frames (.proc p) = top :: below)
    (turn : next.frames (.proc p) = new :: below)
    (keeps : frame = top → new ≠ .idle →
      new.Keeps (∀ c, next.current c = .proc p → (next.core c).intena = b) b)
    (restored : frame = top → new = .idle →
      ∃ c, next.current c = .proc p ∧ (next.core c).interrupts = b) :
    ∃ frame, next.Preserves p depth b frame := by
  have here := preserves.here
  rw [level_eq frames] at here
  by_cases last : depth = below.length
  · rw [if_pos last, Option.some.injEq] at here
    exact ⟨new, by rw [level_eq turn, if_pos last], keeps here.symm, restored here.symm⟩
  · rw [if_neg last] at here
    have member : frame ∈ below := List.mem_reverse.mp (List.mem_of_getElem? here)
    have under := good.interrupted (.proc p) frame (by simp [frames, member])
    have elsewhere := good.elsewhere (State.mem_of_level preserves.here)
    refine ⟨frame, by rw [level_eq turn, if_neg last, here], fun _ => ?_, fun idle => absurd idle busy⟩
    exact (preserves.keeps busy).interrupted under.1 under.2 elsewhere busy

section

variable [DecidableEq Proc] [DecidableEq Cpu] {v : View Proc Cpu Lock}
  {rest : List (Frame Proc Lock)}

/-- Another thread moves. -/
theorem others (preserves : s.Preserves p depth b frame) (busy : frame ≠ .idle)
    (different : s.current c ≠ .proc p) :
    ∃ frame, (s.put c v rest).Preserves p depth b frame := by
  refine preserves.same busy (level_congr (by simp [Ne.symm different])) fun d runs => ⟨runs, ?_⟩
  have apart : d ≠ c := by
    rintro rfl
    exact different runs
  simp [apart]

/-- An interrupt comes or goes above the level of the process. -/
theorem masks (preserves : s.Preserves p depth b frame) (busy : frame ≠ .idle)
    (intena : v.core.intena = (s.core c).intena)
    (level : (s.put c v rest).level (.proc p) depth = s.level (.proc p) depth) :
    ∃ frame, (s.put c v rest).Preserves p depth b frame := by
  refine preserves.same busy level fun d here => ⟨here, ?_⟩
  by_cases equal : d = c
  · simp [equal, intena]
  · simp [equal]

theorem interrupt (preserves : s.Preserves p depth b frame) (busy : frame ≠ .idle)
    (frames : s.frames (s.current c) = top :: below) :
    ∃ frame, (s.put c ((s.view c .idle).setInterrupts false) (top :: below)).Preserves p depth b
      frame := by
  by_cases runs : s.current c = .proc p
  · rw [runs] at frames
    refine preserves.masks busy rfl ?_
    have turn : (s.put c ((s.view c .idle).setInterrupts false) (top :: below)).frames (.proc p) =
        .idle :: s.frames (.proc p) := by
      simp [runs, frames, State.view, View.setInterrupts]
    rw [level_eq turn, if_neg]
    · rfl
    · intro outside
      have here := preserves.here
      simp [level, outside] at here
  · exact preserves.others busy runs

theorem iret (preserves : s.Preserves p depth b frame) (busy : frame ≠ .idle)
    (frames : s.frames (s.current c) = .idle :: top :: below) :
    ∃ frame, (s.put c ((s.view c top).setInterrupts true) below).Preserves p depth b frame := by
  by_cases runs : s.current c = .proc p
  · rw [runs] at frames
    refine preserves.masks busy rfl ?_
    have turn : s.frames (.proc p) =
        .idle :: (s.put c ((s.view c top).setInterrupts true) below).frames (.proc p) := by
      simp [runs, frames, State.view, View.setInterrupts]
    rw [level_eq turn, if_neg]
    · rfl
    · intro last
      have here := preserves.here
      rw [level_eq turn, if_pos last] at here
      exact busy (Option.some.inj here).symm
  · exact preserves.others busy runs

theorem swtch (preserves : s.Preserves p depth b frame) (good : Good ptable s)
    (busy : frame ≠ .idle) {q : Proc} {held : List Lock} {first : Frame Proc Lock} {pc : Pc Lock}
    (frames : s.frames (s.current c) = ⟨.chosen q, .outside, held⟩ :: below)
    (waits : s.frames (.proc q) = first :: rest) (resumes : first.pc.resume = some pc) :
    ∃ frame, ((((s.setFrames (s.current c) (⟨.loop, .outside, held⟩ :: below)).setFrames
      (.proc q) ({ first with pc := pc } :: rest)).setState q .running).goOn c (.proc q)).Preserves
        p depth b frame := by
  by_cases same : q = p
  · subst same
    refine preserves.replace good { first with pc := pc } busy waits (by simp) ?_ ?_
    · rintro rfl -
      exact (preserves.keeps busy).resumed resumes
    · intro _ idle
      exact absurd (congrArg Frame.pc idle) (Pc.ne_outside_of_resume resumes)
  · have scheduler : s.current c ≠ .proc p := by
      intro runs
      have elsewhere := good.elsewhere (p := p) (runs ▸ frames ▸ List.mem_cons_self)
      cases elsewhere
    refine preserves.same busy (level_congr ?_) fun d runs => ?_
    · simp [Ne.symm same, Ne.symm scheduler]
    · have apart : d ≠ c := by
        rintro rfl
        simp [same] at runs
      exact ⟨by simpa [apart] using runs, rfl⟩

theorem sched (preserves : s.Preserves p depth b frame) (good : Good ptable s)
    (busy : frame ≠ .idle) {q : Proc} {state : Sched.ProcState} (current : s.current c = .proc q)
    (frames : s.frames (s.current c) = top :: below) (free : top.Callable) :
    ∃ frame, (((s.setFrames (.proc q) ({ top with pc := .swtch (s.core c).intena } ::
      below)).setState q state).goOn c (.scheduler c)).Preserves p depth b frame := by
  by_cases same : q = p
  · subst same
    rw [current] at frames
    refine preserves.replace good { top with pc := .swtch (s.core c).intena } busy frames
      (by simp) ?_ ?_
    · intro last _
      subst last
      have some : frame.held ≠ [] := Frame.held_ne_nil free busy
      have keeps := preserves.keeps busy
      simp only [Frame.Keeps, free.2] at keeps
      exact ⟨keeps c current, some⟩
    · intro _ idle
      exact absurd (congrArg Frame.pc idle) nofun
  · refine preserves.same busy (level_congr (by simp [Ne.symm same])) fun d runs => ?_
    have apart : d ≠ c := by
      rintro rfl
      simp at runs
    exact ⟨by simpa [apart] using runs, rfl⟩

theorem panics (preserves : s.Preserves p depth b frame) (good : Good ptable s)
    (busy : frame ≠ .idle) {q : Proc} {state : Sched.ProcState} {message : String}
    (current : s.current c = .proc q) (frames : s.frames (s.current c) = top :: below) :
    ∃ frame, ((s.put c ((s.view c top).panic message) below).setState q state).Preserves p depth b
      frame := by
  by_cases same : q = p
  · subst same
    rw [current] at frames
    refine preserves.replace good ((s.view c top).panic message).frame busy frames
      (by simp [current]) ?_ ?_
    · exact fun _ _ => trivial
    · intro _ idle
      exact absurd (congrArg Frame.pc idle) nofun
  · have different : s.current c ≠ .proc p := by simpa [current] using same
    obtain ⟨frame, stays⟩ : ∃ frame, (s.put c ((s.view c top).panic message) below).Preserves p
        depth b frame := preserves.others busy different
    exact ⟨frame, stays.here, stays.keeps, stays.restored⟩

variable [DecidableEq Lock]

/-- The process does a step of its own. -/
theorem act (preserves : s.Preserves p depth b frame) (good : Good ptable s)
    (busy : frame ≠ .idle) (runs : s.current c = .proc p)
    (frames : s.frames (.proc p) = top :: below) {act : Act Lock}
    (ran : act.run ptable c (s.view c top) = some v) :
    ∃ frame, (s.put c v below).Preserves p depth b frame := by
  obtain ⟨phase, -, known⟩ := good.sound
  have sound := known (runs ▸ frames)
  have elsewhere : top.place = .elsewhere := good.elsewhere (by rw [frames]; exact List.mem_cons_self)
  have one : ∀ d, s.current d = .proc p → d = c := fun d here =>
    good.alone d c (here.trans runs.symm)
  have turn : (s.put c v below).frames (.proc p) = v.frame :: below := by simp [runs]
  have steps : frame = top → (v.frame ≠ .idle → v.frame.Keeps (v.core.intena = b) b) ∧
      (v.frame = .idle → v.core.interrupts = b) := by
    rintro rfl
    have keeps : (s.view c frame).frame.Keeps ((s.view c frame).core.intena = b) b :=
      (preserves.keeps busy).mono fun saved => saved c runs
    exact (sound.acts ran).keeps sound elsewhere busy keeps
  refine preserves.replace good v.frame busy frames turn ?_ ?_
  · intro last more
    refine ((steps last).1 more).mono fun intena d here => ?_
    obtain rfl := one d here
    simpa using intena
  · intro last idle
    exact ⟨c, runs, by simpa using (steps last).2 idle⟩

end

end State.Preserves

/-! ## Steps -/

variable [DecidableEq Proc] [DecidableEq Cpu] [DecidableEq Lock]

/-- Every step keeps the flag, or restores it. -/
theorem Good.preserves {event : Event Proc Cpu Lock} (good : Good ptable s)
    (preserves : s.Preserves p depth b frame) (busy : frame ≠ .idle)
    (steps : Steps ptable s event next) : ∃ frame, next.Preserves p depth b frame := by
  have member := State.mem_of_level preserves.here
  cases steps with
  | @act c act top below v frames ran =>
      by_cases runs : s.current c = .proc p
      · exact preserves.act good busy runs (runs ▸ frames) ran
      · exact preserves.others busy runs
  | @user c q current frames =>
      by_cases runs : s.current c = .proc p
      · rw [← runs, frames, List.mem_singleton] at member
        exact absurd member busy
      · exact preserves.others busy runs
  | interrupt frames on => exact preserves.interrupt busy frames
  | iret frames => exact preserves.iret busy frames
  | @choose c q top below frames place here runnable =>
      refine preserves.others busy fun runs => ?_
      have elsewhere : top.place = .elsewhere := good.elsewhere (p := p) (by simp [← runs, frames])
      simp [place] at elsewhere
  | swtch frames waits resumes => exact preserves.swtch good busy frames waits resumes
  | sched current frames free passes => exact preserves.sched good busy current frames free
  | panics current frames free => exact preserves.panics good busy current frames
  | @wakeup c q sleeps => exact ⟨frame, preserves.here, preserves.keeps, preserves.restored⟩
  | @fork c q unborn =>
      by_cases same : q = p
      · subst same
        simp [unborn] at member
      · exact preserves.same busy (State.level_congr (by simp [Ne.symm same])) fun d runs => ⟨runs, rfl⟩

/-- The outermost `acquire` finds the flag that is preserved. -/
theorem State.Preserves.acquire {lk : Lock} (runs : s.current c = .proc p)
    (frames : s.frames (.proc p) = .idle :: below)
    (begins : Spin.step ptable s (.act c (.acquire lk)) = some next) :
    ∃ frame, next.Preserves p below.length (s.core c).interrupts frame := by
  cases step_steps begins with
  | act known ran =>
      rw [runs, frames] at known
      cases known
      simp only [Act.run, Option.ite_none_right_eq_some, Option.some.injEq] at ran
      obtain ⟨-, rfl⟩ := ran
      have turn : (s.put c ((s.view c .idle).call (.acquire lk)) below).frames (.proc p) =
          ⟨.elsewhere, .pushcli (s.core c).interrupts (.acquire lk), []⟩ :: below := by
        rw [State.put_frames, runs, Function.update_self]
        rfl
      refine ⟨_, by rw [State.level_eq turn, if_pos rfl], fun _ => ?_, fun idle => ?_⟩
      · exact ⟨fun _ => rfl, fun some => absurd rfl some⟩
      · simp [Frame.idle] at idle

end Levels

/-! ## Runs -/

section Runs

variable [DecidableEq Proc] [DecidableEq Cpu] [DecidableEq Lock]

/-- In every run: interrupts are off where `ncli` is positive; `ncli` counts the locks that are
held and the `pushcli` calls outstanding; and when a process has released all of its locks,
interrupts are enabled on its processor if and only if they were before its first `acquire`. -/
theorem interrupts_preserved (ptable : Lock) (initproc : Proc)
    (events : List (Event Proc Cpu Lock)) (s : State Proc Cpu Lock)
    (run : runs (step ptable) (boot ptable initproc) events = some s) :
    (∀ c, 0 < (s.core c).ncli → (s.core c).interrupts = false) ∧
      (∀ c, ∃ locks : Finset Lock, (∀ lk, lk ∈ locks ↔ (s.lock lk).cpu = some c) ∧
        (s.core c).ncli = locks.card + s.calls c) ∧
      ∀ c p below lk begun rest last, s.current c = .proc p →
        s.frames (.proc p) = .idle :: below →
        step ptable s (.act c (.acquire lk)) = some begun →
        Throughout (step ptable) (fun t _ => t.level (.proc p) below.length ≠ some .idle) begun rest →
        runs (step ptable) begun rest = some last →
        last.level (.proc p) below.length = some .idle →
        (∃ d, last.current d = .proc p) ∧
          ∀ d, last.current d = .proc p → (last.core d).interrupts = (s.core c).interrupts := by
  have good := (boot_good ptable initproc).runs run
  obtain ⟨phase, cores, -⟩ := good.sound
  refine ⟨fun c => ?_, fun c => ?_, ?_⟩
  · obtain ⟨top, below, -, sound⟩ := cores c
    exact sound.off
  · obtain ⟨top, below, frames, sound⟩ := cores c
    refine ⟨top.held.toFinset, fun lk => ?_, ?_⟩
    · have lock : s.lock lk = Spinlock.inPhase (phase lk) := sound.lock lk
      rw [List.mem_toFinset, lock, Spinlock.inPhase_cpu]
      exact sound.tracks.held lk
    · have nodup : top.held.Nodup := sound.tracks.nodup
      rw [List.toFinset_card_of_nodup nodup, State.calls, frames]
      exact sound.count
  · intro c p below lk begun rest last current frames begins throughout ran idle
    obtain ⟨goodLast, frame, preserves⟩ := runs_invariant_throughout
      (fun t => Good ptable t ∧ ∃ frame, t.Preserves p below.length (s.core c).interrupts frame)
      ⟨good.step (step_steps begins), State.Preserves.acquire current frames begins⟩ (by
        rintro t event next ⟨good, frame, preserves⟩ busy stepped
        have steps := step_steps stepped
        refine ⟨good.step steps, good.preserves preserves ?_ steps⟩
        rintro rfl
        exact busy preserves.here) throughout ran
    obtain rfl := Option.some.inj (preserves.here.symm.trans idle)
    obtain ⟨d, runs, restored⟩ := preserves.restored rfl
    refine ⟨⟨d, runs⟩, fun e also => ?_⟩
    obtain rfl := goodLast.alone d e (runs.trans also.symm)
    exact restored

end Runs

/-! ## A process that changes its processor -/

def advances (c : Bool) (count : Nat) : List (Event Unit Bool Bool) :=
  List.replicate count (.act c .advance)

/-- The scheduler takes `ptable.lock` and switches to the process. -/
def dispatches (c : Bool) : List (Event Unit Bool Bool) :=
  advances c 5 ++ [.choose c ()] ++ advances c 2 ++ [.swtch c]

/-- The first process is through with `forkret`. -/
def entered : State Unit Bool Bool :=
  (runs (step false) (boot false ()) (dispatches false ++ advances false 3)).getD (boot false ())

def acquiring : State Unit Bool Bool :=
  (step false entered (.act false (.acquire true))).getD entered

/-- It acquires `ptable.lock` too, releases its first lock, and after a switch to the other
processor `ptable.lock`. -/
def migrates : List (Event Unit Bool Bool) :=
  advances false 3 ++ [.act false (.acquire false)] ++ advances false 3 ++
    [.act false (.release true)] ++ advances false 2 ++
    [.sched false .runnable, .act false .finish] ++ advances false 2 ++ dispatches true ++
    advances true 1 ++ [.act true (.release false)] ++ advances true 2

def migrated : State Unit Bool Bool := (runs (step false) acquiring migrates).getD entered

theorem interrupts_preserved_migrated :
    migrated.current true = .proc () ∧
      (migrated.core true).interrupts = (entered.core false).interrupts := by
  have enters : runs (step false) (boot false ()) (dispatches false ++ advances false 3) =
      some entered := runs_getD (by decide +kernel) _
  have begins : step false entered (.act false (.acquire true)) = some acquiring := by
    have possible : (step false entered (.act false (.acquire true))).isSome = true := by
      decide +kernel
    obtain ⟨begun, stepped⟩ := Option.isSome_iff_exists.mp possible
    simp [acquiring, stepped]
  have ran : runs (step false) acquiring migrates = some migrated :=
    runs_getD (by decide +kernel) _
  have runs : migrated.current true = .proc () := by decide +kernel
  have preserved := (interrupts_preserved false () _ entered enters).2.2 false () [] true acquiring
    migrates migrated (by decide +kernel) (by decide +kernel) begins (by decide +kernel) ran
    (by decide +kernel)
  exact ⟨runs, preserved.2 true runs⟩

end Xv6.Spin
