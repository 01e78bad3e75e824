import Xv6.Spin.Spinlock

/-!
# The nesting of pushcli

What the running thread knows of its processor: the counter is the number of
the locks that it holds and of the `pushcli` calls that it is in, and while it
is positive interrupts are off.
-/

namespace Xv6.Spin

open Xv6.Library

variable {Proc Cpu Lock : Type}

/-- The lock that is between `xchg` and `lk->cpu = mycpu()`, or between clearing the two. -/
def Pc.taking : Pc Lock → Option Lock
  | .record lk => some lk
  | .unlock lk => some lk
  | _ => none

/-- Interrupts may be on there. -/
def Pc.Interruptible : Pc Lock → Prop
  | .outside => True
  | .pushcli _ _ => True
  | _ => False

theorem Pc.Interruptible.taking {pc : Pc Lock} (inside : pc.Interruptible) : pc.taking = none := by
  cases pc <;> first | rfl | cases inside

theorem Pc.Interruptible.calls {pc : Pc Lock} (inside : pc.Interruptible) : pc.calls = 0 := by
  cases pc <;> first | rfl | cases inside

theorem Frame.idle_interruptible : (Frame.idle : Frame Proc Lock).pc.Interruptible := trivial

/-- The fields of a lock in a phase. -/
def Spinlock.inPhase : Phase Cpu → Spinlock Cpu
  | .free => { locked := false, cpu := none }
  | .taken _ => { locked := true, cpu := none }
  | .held c => { locked := true, cpu := some c }

@[simp]
theorem Spinlock.inPhase_locked {phase : Phase Cpu} :
    (Spinlock.inPhase phase).locked = false ↔ phase = .free := by
  cases phase <;> simp [inPhase]

@[simp]
theorem Spinlock.inPhase_cpu {phase : Phase Cpu} {c : Cpu} :
    (Spinlock.inPhase phase).cpu = some c ↔ phase = .held c := by
  cases phase <;> simp [inPhase]

/-- What holds of the thread that runs on a processor. -/
structure View.Sound (c : Cpu) (phase : Lock → Phase Cpu) (v : View Proc Cpu Lock) : Prop where
  lock : ∀ lk, v.lock lk = Spinlock.inPhase (phase lk)
  tracks : Tracks phase c v.frame.held v.frame.pc.taking
  count : v.core.ncli = v.frame.held.length + v.frame.pc.calls
  off : 0 < v.core.ncli → v.core.interrupts = false
  masked : ¬v.frame.pc.Interruptible → v.core.interrupts = false

namespace View

@[simp]
theorem goto_pc (v : View Proc Cpu Lock) (pc : Pc Lock) : (v.goto pc).frame.pc = pc := rfl

@[simp]
theorem goto_held (v : View Proc Cpu Lock) (pc : Pc Lock) :
    (v.goto pc).frame.held = v.frame.held := rfl

@[simp]
theorem goto_place (v : View Proc Cpu Lock) (pc : Pc Lock) :
    (v.goto pc).frame.place = v.frame.place := rfl

@[simp]
theorem goto_core (v : View Proc Cpu Lock) (pc : Pc Lock) : (v.goto pc).core = v.core := rfl

@[simp]
theorem goto_lock (v : View Proc Cpu Lock) (pc : Pc Lock) : (v.goto pc).lock = v.lock := rfl

section

variable [DecidableEq Lock]

/-- `release` strikes out the owner. -/
def clear (v : View Proc Cpu Lock) (lk : Lock) : View Proc Cpu Lock :=
  { v.setLock lk { v.lock lk with cpu := none } with
    frame := { v.frame with pc := .unlock lk, held := v.frame.held.erase lk } }

/-- `acquire` notes the owner. -/
def noted (c : Cpu) (v : View Proc Cpu Lock) (lk : Lock) : View Proc Cpu Lock :=
  { v.setLock lk { v.lock lk with cpu := some c } with
    frame := { v.frame with pc := .outside, held := lk :: v.frame.held } }

/-- The last `popcli` enables the interrupts if they were enabled. -/
def popped (v : View Proc Cpu Lock) : View Proc Cpu Lock :=
  { v.goto .outside with
    core := { v.core with
      ncli := v.core.ncli - 1
      interrupts := decide (v.core.ncli = 1) && v.core.intena } }

/-- What a step of the running thread does. -/
inductive Acts (ptable : Lock) (c : Cpu) (v : View Proc Cpu Lock) :
    Act Lock → View Proc Cpu Lock → Prop where
  | call {act call} (free : v.frame.Callable) : Acts ptable c v act (v.call call)
  | release {lk} (free : v.frame.Callable) (holds : lk ∈ v.frame.held) :
      Acts ptable c v (.release lk) (v.clear lk)
  | panics {act message} (settled : v.frame.pc.taking = none) :
      Acts ptable c v act (v.panic message)
  | deadlocks {eflags lk message} (here : v.frame.pc = .pushcli eflags (.acquire lk)) :
      Acts ptable c v .advance ((v.pushcli eflags (.spin lk)).panic message)
  | spins {eflags lk} (here : v.frame.pc = .pushcli eflags (.acquire lk)) :
      Acts ptable c v .advance (v.pushcli eflags (.spin lk))
  | looks {eflags} (here : v.frame.pc = .pushcli eflags .myproc) :
      Acts ptable c v .advance (v.pushcli eflags .popcli)
  | takes {lk} (here : v.frame.pc = .spin lk) (free : (v.lock lk).locked = false) :
      Acts ptable c v .advance
        ((v.setLock lk { v.lock lk with locked := true }).goto (.record lk))
  | notes {lk} (here : v.frame.pc = .record lk) : Acts ptable c v .advance (v.noted c lk)
  | unlocks {lk} (here : v.frame.pc = .unlock lk) :
      Acts ptable c v .advance
        ((v.setLock lk { v.lock lk with locked := false }).goto .popcli)
  | pops (here : v.frame.pc = .popcli) : Acts ptable c v .advance v.popped
  | restores {intena} (here : v.frame.pc = .restore intena) :
      Acts ptable c v .advance
        { v.goto .outside with core := { v.core with intena := intena } }
  | enters (here : v.frame.pc = .forkret) (holds : ptable ∈ v.frame.held) :
      Acts ptable c v .advance (v.clear ptable)
  | enables (place : v.frame.place = .sti) (here : v.frame.pc = .outside) :
      Acts ptable c v .advance
        ((v.setInterrupts true).toPlace .acquire)
  | acquires (place : v.frame.place = .acquire) (here : v.frame.pc = .outside) :
      Acts ptable c v .advance
        ((v.call (.acquire ptable)).toPlace .loop)
  | finishes (place : v.frame.place = .loop) (here : v.frame.pc = .outside)
      (holds : ptable ∈ v.frame.held) :
      Acts ptable c v .finish ((v.toPlace .sti).clear ptable)
  | fails {message} (place : v.frame.place = .loop) (here : v.frame.pc = .outside) :
      Acts ptable c v .finish ((v.toPlace .sti).panic message)

end

namespace Sound

variable {c d : Cpu} {phase later : Lock → Phase Cpu} {v after : View Proc Cpu Lock}
  {ptable lk : Lock}

/-! ## Steps without locks -/

/-- Another frame with the same locks and as many calls, on a processor with the same counter. -/
theorem exchange (sound : v.Sound c phase) (lock : after.lock = v.lock)
    (held : after.frame.held = v.frame.held) (taking : after.frame.pc.taking = v.frame.pc.taking)
    (calls : after.frame.pc.calls = v.frame.pc.calls) (ncli : after.core.ncli = v.core.ncli)
    (off : 0 < v.core.ncli → after.core.interrupts = false)
    (masked : ¬after.frame.pc.Interruptible → after.core.interrupts = false) :
    after.Sound c phase where
  lock := by simpa [lock] using sound.lock
  tracks := by
    rw [held, taking]
    exact sound.tracks
  count := by simpa [held, calls, ncli] using sound.count
  off := by simpa [ncli] using off
  masked := masked

theorem toPlace (sound : v.Sound c phase) (place : Place Proc) :
    (v.toPlace place).Sound c phase :=
  sound.exchange rfl rfl rfl rfl rfl sound.off sound.masked

theorem call (sound : v.Sound c phase) (here : v.frame.pc = .outside) (call : Call Lock) :
    (v.call call).Sound c phase :=
  sound.exchange rfl rfl (by simp [View.call, here, Pc.taking]) (by simp [View.call, here, Pc.calls])
    rfl sound.off (by simp [View.call, Pc.Interruptible])

theorem panic (sound : v.Sound c phase) (settled : v.frame.pc.taking = none) (message : String) :
    (v.panic message).Sound c phase :=
  sound.exchange rfl rfl (by rw [settled]; rfl) rfl rfl (fun _ => rfl) (fun _ => rfl)

/-- `pushcli` has been called once more. -/
theorem pushcli (sound : v.Sound c phase) {eflags : Bool} {called : Call Lock} {pc : Pc Lock}
    (here : v.frame.pc = .pushcli eflags called) (settled : pc.taking = none)
    (once : pc.calls = 1) : (v.pushcli eflags pc).Sound c phase where
  lock := sound.lock
  tracks := by
    have tracks := sound.tracks
    rw [here] at tracks
    rw [View.pushcli, goto_pc, settled]
    exact tracks
  count := by
    have count := sound.count
    simp only [here, Pc.calls] at count
    simp [View.pushcli, Core.pushcli, once, count]
  off _ := rfl
  masked _ := rfl

theorem popcli_eq (sound : v.Sound c phase) (here : v.frame.pc = .popcli) :
    v.popcli = v.popped := by
  have off : v.core.interrupts = false := sound.masked (by simp [here, Pc.Interruptible])
  have count := sound.count
  have deep : ¬v.core.ncli - 1 < 0 := by
    simp only [here, Pc.calls] at count
    omega
  have last : v.core.ncli - 1 = 0 ↔ v.core.ncli = 1 := by omega
  simp only [popcli, off, deep, last, popped, if_false, Bool.false_eq_true]
  congr 1
  split <;> simp_all

theorem pops (sound : v.Sound c phase) (here : v.frame.pc = .popcli) :
    v.popped.Sound c phase where
  lock := sound.lock
  tracks := by
    have tracks := sound.tracks
    rw [here] at tracks
    exact tracks
  count := by
    have count := sound.count
    simp only [here, Pc.calls] at count
    simp [popped, Pc.calls, count]
  off deep := by
    simp only [popped] at deep ⊢
    have more : v.core.ncli ≠ 1 := by omega
    simp [more]
  masked inside := (inside trivial).elim

theorem restores (sound : v.Sound c phase) {intena : Bool} (here : v.frame.pc = .restore intena) :
    View.Sound c phase { v.goto .outside with core := { v.core with intena := intena } } :=
  sound.exchange rfl rfl (by simp [here, Pc.taking]) (by simp [here, Pc.calls]) rfl sound.off
    fun inside => (inside trivial).elim

theorem ncli_eq_zero (sound : v.Sound c phase) (inside : v.frame.pc.Interruptible)
    (nothing : v.frame.held = []) : v.core.ncli = 0 := by
  simpa [nothing, inside.calls] using sound.count

/-- Interrupts are on only where no lock is held. -/
theorem interruptible (sound : v.Sound c phase) (on : v.core.interrupts = true) :
    v.frame.held = [] ∧ v.frame.pc.Interruptible := by
  have count := sound.count
  have shallow : ¬0 < v.core.ncli := fun deep => by simp [sound.off deep] at on
  constructor
  · apply List.eq_nil_of_length_eq_zero
    omega
  · by_contra inside
    simp [sound.masked inside] at on

/-- Where no lock is held and interrupts may be on, the processor may go on anywhere else of that
kind. -/
theorem unmasked (sound : v.Sound c phase) (nothing : v.frame.held = [])
    (inside : v.frame.pc.Interruptible) {frame : Frame Proc Lock} (empty : frame.held = [])
    (unmasks : frame.pc.Interruptible) (interrupts : Bool) :
    (({ v with frame := frame } : View Proc Cpu Lock).setInterrupts interrupts).Sound c phase :=
  sound.exchange rfl (empty.trans nothing.symm) (unmasks.taking.trans inside.taking.symm)
    (unmasks.calls.trans inside.calls.symm) rfl (by simp [sound.ncli_eq_zero inside nothing])
    fun outside => (outside unmasks).elim

/-- What is known stays known while another processor moves. -/
theorem others {lock : Lock → Spinlock Cpu} (sound : v.Sound d phase) (different : d ≠ c)
    (moves : Moves c phase later) (fields : ∀ lk, lock lk = Spinlock.inPhase (later lk)) :
    View.Sound d later { v with lock := lock } where
  lock := fields
  tracks := sound.tracks.others different moves
  count := sound.count
  off := sound.off
  masked := sound.masked

theorem quiet (sound : v.Sound c phase) : ∃ later, Moves c phase later ∧ v.Sound c later :=
  ⟨phase, Moves.refl c phase, sound⟩

section Locks

/-! ## Steps that write a lock -/

variable [DecidableEq Lock]

/-- Writing the fields of another phase. -/
theorem update_lock (sound : v.Sound c phase) {spinlock : Spinlock Cpu} {next : Phase Cpu}
    (fields : spinlock = Spinlock.inPhase next) (other : Lock) :
    Function.update v.lock lk spinlock other =
      Spinlock.inPhase (Function.update phase lk next other) := by
  by_cases same : other = lk
  · subst same
    simp [fields]
  · simp [same, sound.lock]

theorem takes (sound : v.Sound c phase) (here : v.frame.pc = .spin lk)
    (free : phase lk = .free) :
    ((v.setLock lk { v.lock lk with locked := true }).goto (.record lk)).Sound c
      (Function.update phase lk (.taken c)) where
  lock := sound.update_lock (by simp [sound.lock, free, Spinlock.inPhase])
  tracks := by
    have tracks := sound.tracks
    rw [here] at tracks
    exact tracks.take free
  count := by simpa [setLock, here, Pc.calls] using sound.count
  off := sound.off
  masked _ := sound.masked (by simp [here, Pc.Interruptible])

theorem notes (sound : v.Sound c phase) (here : v.frame.pc = .record lk)
    (taken : phase lk = .taken c) :
    (v.noted c lk).Sound c (Function.update phase lk (.held c)) where
  lock := sound.update_lock (by simp [sound.lock, taken, Spinlock.inPhase])
  tracks := by
    have tracks := sound.tracks
    rw [here] at tracks
    exact tracks.record
  count := by
    have count := sound.count
    simp only [here, Pc.calls] at count
    simp [noted, setLock, Pc.calls, count]
  off := sound.off
  masked inside := (inside trivial).elim

theorem clears (sound : v.Sound c phase) (settled : v.frame.pc.taking = none)
    (quiet : v.frame.pc.calls = 0) (holds : lk ∈ v.frame.held) :
    (v.clear lk).Sound c (Function.update phase lk (.taken c)) where
  lock := sound.update_lock (by simp [sound.lock, (sound.tracks.held lk).mp holds, Spinlock.inPhase])
  tracks := by
    have tracks := sound.tracks
    rw [settled] at tracks
    exact tracks.clear
  count := by
    have count := sound.count
    have some := List.length_pos_of_mem holds
    have fewer : (v.clear lk).frame.held.length = v.frame.held.length - 1 :=
      List.length_erase_of_mem holds
    have once : (v.clear lk).frame.pc.calls = 1 := rfl
    have same : (v.clear lk).core = v.core := rfl
    rw [fewer, once, same]
    omega
  off := sound.off
  masked _ := by
    have count := sound.count
    have some := List.length_pos_of_mem holds
    exact sound.off (by omega)

theorem unlocks (sound : v.Sound c phase) (here : v.frame.pc = .unlock lk)
    (taken : phase lk = .taken c) :
    ((v.setLock lk { v.lock lk with locked := false }).goto .popcli).Sound c
      (Function.update phase lk .free) where
  lock := sound.update_lock (by simp [sound.lock, taken, Spinlock.inPhase])
  tracks := by
    have tracks := sound.tracks
    rw [here] at tracks
    exact tracks.give
  count := by simpa [setLock, here, Pc.calls] using sound.count
  off := sound.off
  masked _ := sound.masked (by simp [here, Pc.Interruptible])

/-- A step keeps what is known, and changes only locks that no other processor has. -/
theorem step {act : Act Lock} (sound : v.Sound c phase) (acts : Acts ptable c v act after)
    (resting : v.frame.place = .sti → v.frame.pc = .outside → v.frame.held = []) :
    ∃ later, Moves c phase later ∧ after.Sound c later := by
  have taken : ∀ {lk}, v.frame.pc.taking = some lk → phase lk = .taken c :=
    fun here => (sound.tracks.taking _).mp here
  have held : ∀ {lk}, lk ∈ v.frame.held → phase lk = .held c :=
    fun holds => (sound.tracks.held _).mp holds
  cases acts with
  | call free => exact (sound.call free.2 _).quiet
  | release free holds =>
      exact ⟨_, Moves.update (by simp [held holds]) (by simp), sound.clears
        (by simp [free.2, Pc.taking]) (by simp [free.2, Pc.calls]) holds⟩
  | panics settled => exact (sound.panic settled _).quiet
  | deadlocks here => exact ((sound.pushcli here rfl rfl).panic rfl _).quiet
  | spins here => exact (sound.pushcli here rfl rfl).quiet
  | looks here => exact (sound.pushcli here rfl rfl).quiet
  | takes here free =>
      rw [sound.lock, Spinlock.inPhase_locked] at free
      exact ⟨_, Moves.update (by simp [free]) (by simp), sound.takes here free⟩
  | notes here =>
      have mine := taken (by rw [here]; rfl)
      exact ⟨_, Moves.update (by simp [mine]) (by simp), sound.notes here mine⟩
  | unlocks here =>
      have mine := taken (by rw [here]; rfl)
      exact ⟨_, Moves.update (by simp [mine]) (by simp), sound.unlocks here mine⟩
  | pops here => exact (sound.pops here).quiet
  | restores here => exact (sound.restores here).quiet
  | enters here holds =>
      exact ⟨_, Moves.update (by simp [held holds]) (by simp), sound.clears
        (by simp [here, Pc.taking]) (by simp [here, Pc.calls]) holds⟩
  | enables place here =>
      have inside : v.frame.pc.Interruptible := by simp [here, Pc.Interruptible]
      have nothing := resting place here
      exact ((sound.unmasked nothing inside nothing inside true).toPlace .acquire).quiet
  | acquires place here => exact ((sound.call here _).toPlace .loop).quiet
  | finishes place here holds =>
      exact ⟨_, Moves.update (by simp [held holds]) (by simp), (sound.toPlace .sti).clears
        (by simp [View.toPlace, here, Pc.taking]) (by simp [View.toPlace, here, Pc.calls]) holds⟩
  | fails place here =>
      exact ((sound.toPlace .sti).panic (by simp [View.toPlace, here, Pc.taking]) _).quiet

end Locks

/-! ## What a step can do -/

variable [DecidableEq Cpu]

/-- `holding` tells whether this thread holds the lock. -/
theorem mem_of_holding (sound : v.Sound c phase) (holds : v.holding c lk = .ok true) :
    lk ∈ v.frame.held := by
  rw [sound.tracks.held]
  simp only [holding, sound.lock] at holds
  split at holds
  · split at holds
    · cases holds
    · simpa using holds
  · cases holds

variable [DecidableEq Lock]

theorem release_cases (sound : v.Sound c phase) (lk : Lock) :
    (∃ message, v.release c lk = v.panic message) ∨
      lk ∈ v.frame.held ∧ v.release c lk = v.clear lk := by
  unfold release
  split
  · exact Or.inl ⟨_, rfl⟩
  · exact Or.inl ⟨_, rfl⟩
  · exact Or.inr ⟨sound.mem_of_holding ‹_›, rfl⟩

variable [DecidableEq Proc]

theorem acts (sound : v.Sound c phase) {act : Act Lock} (ran : act.run ptable c v = some after) :
    Acts ptable c v act after := by
  cases act with
  | acquire lk =>
      simp only [Act.run, Option.ite_none_right_eq_some, Option.some.injEq] at ran
      obtain ⟨free, rfl⟩ := ran
      exact .call free
  | release lk =>
      simp only [Act.run, Option.ite_none_right_eq_some, Option.some.injEq] at ran
      obtain ⟨free, rfl⟩ := ran
      obtain ⟨message, panics⟩ | ⟨holds, clears⟩ := sound.release_cases lk
      · rw [panics]
        exact .panics (by simp [free.2, Pc.taking])
      · rw [clears]
        exact .release free holds
  | myproc =>
      simp only [Act.run, Option.ite_none_right_eq_some, Option.some.injEq] at ran
      obtain ⟨free, rfl⟩ := ran
      exact .call free
  | finish =>
      simp only [Act.run, Option.ite_none_right_eq_some, Option.some.injEq] at ran
      obtain ⟨⟨place, here⟩, rfl⟩ := ran
      obtain ⟨message, panics⟩ | ⟨holds, clears⟩ := (sound.toPlace .sti).release_cases ptable
      · rw [panics]
        exact .fails place here
      · rw [clears]
        exact .finishes place here holds
  | advance =>
      simp only [Act.run, advance] at ran
      split at ran
      · unfold schedule at ran
        split at ran
        · cases ran
          exact .enables ‹_› ‹_›
        · cases ran
          exact .acquires ‹_› ‹_›
        · cases ran
      · cases ran
        unfold pushAcquire
        simp only
        split
        · exact .deadlocks ‹_›
        · exact .deadlocks ‹_›
        · exact .spins ‹_›
      · cases ran
        exact .looks ‹_›
      · split at ran
        · cases ran
        · rename_i free
          cases ran
          exact .takes ‹_› (Bool.eq_false_iff.mpr free)
      · rename_i here
        have off : v.core.interrupts = false := sound.masked (by simp [here, Pc.Interruptible])
        rw [if_neg (by simp [off])] at ran
        cases ran
        exact .notes here
      · cases ran
        exact .unlocks ‹_›
      · rename_i here
        cases ran
        rw [sound.popcli_eq here]
        exact .pops here
      · rename_i here
        have off : v.core.interrupts = false := sound.masked (by simp [here, Pc.Interruptible])
        rw [if_neg (by simp [off])] at ran
        cases ran
        exact .restores here
      · rename_i here
        cases ran
        obtain ⟨message, panics⟩ | ⟨holds, clears⟩ := sound.release_cases ptable
        · rw [panics]
          exact .panics (by simp [here, Pc.taking])
        · rw [clears]
          exact .enters here holds
      · cases ran
      · cases ran

end Sound

end View

end Xv6.Spin
