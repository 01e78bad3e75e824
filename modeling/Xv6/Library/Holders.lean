import Xv6.Library.Monitor

/-!
# Who holds which lock

The locks of a monitor are held by the processes and schedulers that are where
they hold them, and only processes in `sleep` sleep.
-/

namespace Xv6.Library.Monitor

variable {Proc Cpu Lock Chan Call Data Local : Type}

/-- The lock of the section that a process is in, while it holds it. -/
def Pc.holds : Pc Proc Lock Chan Local → Option Lock
  | .inside lock _ => some lock
  | .waking lock _ _ => some lock
  | .rousing lock _ _ => some lock
  | .falling lock _ _ => some lock
  | .fallen lock _ _ => some lock
  | _ => none

/-- The process holds the lock of the table. -/
def Pc.hasTable : Pc Proc Lock Chan Local → Bool
  | .rousing _ _ _ => true
  | .fallen _ _ _ => true
  | .dozing _ _ _ => true
  | .risen _ _ => true
  | .leaving _ => true
  | .returned _ => true
  | .kills _ _ => true
  | _ => false

def Pc.isAsleep : Pc Proc Lock Chan Local → Bool
  | .asleep _ _ _ => true
  | _ => false

/-- `who` is where it holds the lock of the table. -/
def State.HasTable (state : State Proc Cpu Lock Chan Data Local) : Owner Proc Cpu → Prop
  | .proc p => (state.pc p).hasTable = true
  | .cpu c => state.cpu c = .picking

/-- The locks are held by those who are where they hold them. -/
structure State.Locked (state : State Proc Cpu Lock Chan Data Local) : Prop where
  owner : ∀ lock p, state.owner lock = some p ↔ (state.pc p).holds = some lock
  table : ∀ who, state.table = some who ↔ state.HasTable who
  asleep : ∀ p, state.status p = .sleeping →
    ∃ lock chan here, state.pc p = .asleep lock chan here ∧ state.chan p = some chan

variable {monitor : Monitor Proc Lock Chan Call Data Local} {data : Lock → Data}
  {here : Proc → Local} {events : List (Event Proc Cpu Call)}
  {s next : State Proc Cpu Lock Chan Data Local} {event : Event Proc Cpu Call}

theorem Pc.resume_eq {pc resumed : Pc Proc Lock Chan Local} (resumes : pc.resume = some resumed) :
    (∃ lock chan here, pc = .asleep lock chan here ∧ resumed = .risen lock here) ∨
      ∃ place, pc = .away place ∧ resumed = .returned place := by
  cases pc with
  | asleep lock chan here =>
      cases resumes
      exact Or.inl ⟨lock, chan, here, rfl, rfl⟩
  | away place =>
      cases resumes
      exact Or.inr ⟨place, rfl, rfl⟩
  | _ => cases resumes

theorem Pc.taken_holds {pc taken : Pc Proc Lock Chan Local} (takes : pc.taken = some taken) :
    taken.holds = pc.holds ∧ taken.hasTable = true ∧ pc.isAsleep = false := by
  cases pc <;> cases takes <;> exact ⟨rfl, rfl, rfl⟩

/-- Nobody else has the lock of the table. -/
theorem State.Locked.alone (locked : s.Locked) {w other : Owner Proc Cpu} (has : s.HasTable w)
    (different : other ≠ w) : ¬s.HasTable other := by
  intro both
  have first := (locked.table w).mpr has
  rw [(locked.table other).mpr both] at first
  exact different (Option.some.inj first)

theorem State.Locked.nobody (locked : s.Locked) (free : s.table = none) (who : Owner Proc Cpu) :
    ¬s.HasTable who := by
  rw [← locked.table, free]
  simp

/-- A process that is not in `asleep` does not sleep. -/
theorem State.Locked.awake (locked : s.Locked) {p : Proc} {pc : Pc Proc Lock Chan Local}
    (was : s.pc p = pc) (elsewhere : pc.isAsleep = false) : s.status p ≠ .sleeping := by
  intro sleeps
  rcases locked.asleep p sleeps with ⟨lock, chan, here, place, -⟩
  rw [place] at was
  rw [← was] at elsewhere
  cases elsewhere

theorem sleeping_update [DecidableEq Proc] {p q : Proc} {status : Status}
    (awake : status = .sleeping → s.status p = .sleeping)
    (sleeps : Function.update s.status p status q = .sleeping) : s.status q = .sleeping := by
  by_cases same : q = p
  · subst same
    rw [Function.update_self] at sleeps
    exact awake sleeps
  · rw [Function.update_of_ne same] at sleeps
    exact sleeps

theorem sleeping_of_kill {status : Status}
    (sleeps : (if status = .sleeping then Status.runnable else status) = .sleeping) :
    status = .sleeping := by
  split at sleeps
  · cases sleeps
  · exact sleeps

/-- A sleeper `q` stays where it is when `p`, which does not sleep, moves. -/
theorem State.Locked.asleep_of (locked : s.Locked) {p q : Proc} {pc moved : Pc Proc Lock Chan Local}
    {chan : Option Chan} (was : s.pc p = pc) (elsewhere : pc.isAsleep = false)
    (sleeps : s.status q = .sleeping) (others : q ≠ p → moved = s.pc q ∧ chan = s.chan q) :
    ∃ lock channel here, moved = .asleep lock channel here ∧ chan = some channel := by
  have other : q ≠ p := by
    rintro rfl
    exact locked.awake was elsewhere sleeps
  rw [(others other).1, (others other).2]
  exact locked.asleep q sleeps

section Owner

variable [DecidableEq Proc]

/-- `p` moves, and keeps the lock it holds if any. -/
theorem owner_setPc (locked : ∀ lock p, s.owner lock = some p ↔ (s.pc p).holds = some lock)
    {p : Proc} {pc : Pc Proc Lock Chan Local} (same : pc.holds = (s.pc p).holds) (lock : Lock)
    (q : Proc) : s.owner lock = some q ↔ ((s.setPc p pc).pc q).holds = some lock := by
  rw [locked]
  by_cases here : q = p
  · subst here
    simp only [State.setPc, Function.update_self, same]
  · simp only [State.setPc, Function.update_of_ne here]

variable [DecidableEq Lock]

theorem owner_take (locked : ∀ lock p, s.owner lock = some p ↔ (s.pc p).holds = some lock)
    {p : Proc} {lock : Lock} {pc : Pc Proc Lock Chan Local} (free : s.owner lock = none)
    (before : (s.pc p).holds = none) (after : pc.holds = some lock) (other : Lock) (q : Proc) :
    Function.update s.owner lock (some p) other = some q ↔
      ((s.setPc p pc).pc q).holds = some other := by
  have nobody : (s.pc q).holds ≠ some lock := by
    rw [Ne, ← locked, free]
    simp
  by_cases here : q = p
  · subst here
    simp only [State.setPc, Function.update_self, after]
    by_cases same : other = lock
    · subst same
      simp
    · simp only [Function.update_of_ne same, locked, before]
      simp [Ne.symm same]
  · simp only [State.setPc, Function.update_of_ne here]
    by_cases same : other = lock
    · subst same
      simp only [Function.update_self, nobody, iff_false, Option.some.injEq]
      exact fun equal => here equal.symm
    · rw [Function.update_of_ne same, locked]

theorem owner_give (locked : ∀ lock p, s.owner lock = some p ↔ (s.pc p).holds = some lock)
    {p : Proc} {lock : Lock} {pc : Pc Proc Lock Chan Local} (before : (s.pc p).holds = some lock)
    (after : pc.holds = none) (other : Lock) (q : Proc) :
    Function.update s.owner lock none other = some q ↔
      ((s.setPc p pc).pc q).holds = some other := by
  by_cases here : q = p
  · subst here
    simp only [State.setPc, Function.update_self, after]
    by_cases same : other = lock
    · subst same
      simp
    · simp only [Function.update_of_ne same, locked, before]
      simp [Ne.symm same]
  · simp only [State.setPc, Function.update_of_ne here]
    by_cases same : other = lock
    · subst same
      rw [Function.update_self, ← locked]
      have owned := (locked other p).mpr before
      rw [owned]
      simp [Ne.symm here]
    · rw [Function.update_of_ne same, locked]

end Owner

section Table

variable [DecidableEq Proc]

/-- `p` moves, and nothing else changes about the lock of the table. -/
theorem table_setPc (table : ∀ who, s.table = some who ↔ s.HasTable who) {p : Proc}
    {pc : Pc Proc Lock Chan Local} (same : pc.hasTable = (s.pc p).hasTable)
    (who : Owner Proc Cpu) : s.table = some who ↔ (s.setPc p pc).HasTable who := by
  rw [table]
  cases who with
  | cpu c => exact Iff.rfl
  | proc q =>
      by_cases here : q = p
      · subst here
        simp only [State.HasTable, State.setPc, Function.update_self, same]
      · simp only [State.HasTable, State.setPc, Function.update_of_ne here]

/-- Only `p` is where it has the lock of the table. -/
theorem table_proc {p : Proc} {pc : Pc Proc Lock Chan Local} {cpu : Cpu → Processor Proc}
    (has : pc.hasTable = true) (procs : ∀ q, q ≠ p → (s.pc q).hasTable ≠ true)
    (cpus : ∀ c, cpu c ≠ .picking) (who : Owner Proc Cpu) :
    some (Owner.proc p) = some who ↔
      State.HasTable { s.setPc p pc with table := some (.proc p), cpu := cpu } who := by
  cases who with
  | cpu c => simp [State.HasTable, cpus c]
  | proc q =>
      by_cases here : q = p
      · subst here
        simp [State.HasTable, State.setPc, has]
      · simp [State.HasTable, State.setPc, here, Ne.symm here, procs q here]

theorem table_give {p : Proc} {pc : Pc Proc Lock Chan Local}
    (alone : ∀ other, other ≠ .proc p → ¬s.HasTable other) (gone : pc.hasTable = false) (who : Owner Proc Cpu) :
    none = some who ↔ (s.giveTable p pc).HasTable who := by
  cases who with
  | cpu c => simpa [State.HasTable, State.giveTable, State.setPc] using alone (.cpu c) (by simp)
  | proc q =>
      by_cases here : q = p
      · subst here
        simp [State.HasTable, State.giveTable, State.setPc, gone]
      · have other := alone (.proc q) (by simpa using here)
        simpa [State.HasTable, State.giveTable, State.setPc, here] using other

variable [DecidableEq Cpu]

theorem table_sched {c : Cpu} {p : Proc} {pc : Pc Proc Lock Chan Local}
    (alone : ∀ other, other ≠ .proc p → ¬s.HasTable other) (gone : pc.hasTable = false) (who : Owner Proc Cpu) :
    some (Owner.cpu c) = some who ↔ (s.sched c p pc).HasTable who := by
  cases who with
  | cpu d =>
      by_cases here : d = c
      · subst here
        simp [State.HasTable, State.sched]
      · have other := alone (.cpu d) (by simp)
        simp only [State.HasTable] at other
        simp [State.HasTable, State.sched, here, Ne.symm here, other]
  | proc q =>
      by_cases here : q = p
      · subst here
        simp [State.HasTable, State.sched, State.setPc, gone]
      · have other := alone (.proc q) (by simpa using here)
        simp only [State.HasTable] at other
        simp [State.HasTable, State.sched, State.setPc, here, other]

end Table

theorem boot_locked : (boot data here : State Proc Cpu Lock Chan Data Local).Locked where
  owner _ _ := by simp [boot, Pc.holds]
  table who := by cases who <;> simp [boot, State.HasTable, Pc.hasTable]
  asleep _ sleeps := by cases sleeps

variable [DecidableEq Proc] [DecidableEq Cpu] [DecidableEq Lock] [DecidableEq Chan]

theorem State.Locked.owner_step (locked : s.Locked) (stepped : monitor.Steps s event next) (lock : Lock)
    (p : Proc) : next.owner lock = some p ↔ (next.pc p).holds = some lock := by
  have owner := locked.owner
  cases stepped with
  | call _ was _ => exact owner_setPc owner (by rw [was]; rfl) lock p
  | kill _ was => exact owner_setPc owner (by rw [was]; rfl) lock p
  | timer _ was => exact owner_setPc owner (by rw [was]; rfl) lock p
  | enter _ was free => exact owner_take owner free (by rw [was]; rfl) rfl lock p
  | piece _ was =>
      unfold piece
      split
      split
      · exact owner_setPc owner (by rw [was]; rfl) lock p
      · exact owner_setPc owner (by rw [was]; rfl) lock p
      · exact owner_give owner (by rw [was]; rfl) rfl lock p
  | take _ was _ => exact owner_setPc owner (Pc.taken_holds was).1 lock p
  | rouse _ was => exact owner_setPc owner (by rw [was]; rfl) lock p
  | fall _ was => exact owner_give owner (by rw [was]; rfl) rfl lock p
  | doze _ was => exact owner_setPc owner (by rw [was]; rfl) lock p
  | rise _ was => exact owner_setPc owner (by rw [was]; rfl) lock p
  | leave _ was => exact owner_setPc owner (by rw [was]; rfl) lock p
  | goOn _ was => exact owner_setPc owner (by rw [was]; rfl) lock p
  | kills _ was => exact owner_setPc owner (by rw [was]; rfl) lock p
  | schedule _ _ => exact owner lock p
  | switch _ _ resumes =>
      rcases Pc.resume_eq resumes with ⟨_, _, _, was, rfl⟩ | ⟨_, was, rfl⟩
      · exact owner_setPc owner (by rw [was]; rfl) lock p
      · exact owner_setPc owner (by rw [was]; rfl) lock p
  | unschedule _ => exact owner lock p

theorem State.Locked.table_step (locked : s.Locked) (stepped : monitor.Steps s event next)
    (who : Owner Proc Cpu) : next.table = some who ↔ next.HasTable who := by
  have table := locked.table
  have alone : ∀ {p}, (s.pc p).hasTable = true → ∀ other, other ≠ .proc p → ¬s.HasTable other :=
    fun had _ => locked.alone had
  cases stepped with
  | call _ was _ => exact table_setPc table (by rw [was]; rfl) who
  | kill _ was => exact table_setPc table (by rw [was]; rfl) who
  | timer _ was => exact table_setPc table (by rw [was]; rfl) who
  | enter _ was free => exact table_setPc table (by rw [was]; rfl) who
  | piece _ was =>
      unfold piece
      split
      split
      · exact table_setPc table (by rw [was]; rfl) who
      · exact table_setPc table (by rw [was]; rfl) who
      · exact table_setPc table (by rw [was]; rfl) who
  | take _ was free =>
      refine table_proc (Pc.taken_holds was).2.1 ?_ ?_ who
      · exact fun q _ => locked.nobody free (.proc q)
      · exact fun c => locked.nobody free (.cpu c)
  | rouse _ was => exact table_give (alone (by rw [was]; rfl)) rfl who
  | fall _ was => exact table_setPc table (by rw [was]; rfl) who
  | doze _ was => exact table_sched (alone (by rw [was]; rfl)) rfl who
  | rise _ was => exact table_give (alone (by rw [was]; rfl)) rfl who
  | leave _ was => exact table_sched (alone (by rw [was]; rfl)) rfl who
  | goOn _ was => exact table_give (alone (by rw [was]; rfl)) rfl who
  | kills _ was => exact table_give (alone (by rw [was]; rfl)) rfl who
  | @schedule c was free =>
      have nobody := locked.nobody free
      cases who with
      | proc q => simpa [State.HasTable] using nobody (.proc q)
      | cpu d =>
          by_cases here : d = c
          · subst here
            simp [State.HasTable]
          · have other := nobody (.cpu d)
            simp only [State.HasTable] at other
            simp [State.HasTable, here, Ne.symm here, other]
  | @switch c p pc was _ resumes =>
      have has : pc.hasTable = true := by
        rcases Pc.resume_eq resumes with ⟨_, _, _, -, rfl⟩ | ⟨_, -, rfl⟩ <;> rfl
      have others : ∀ other, other ≠ .cpu c → ¬s.HasTable other :=
        fun _ => locked.alone was
      refine table_proc has ?_ ?_ who
      · exact fun q _ => others (.proc q) (by simp)
      · intro d
        by_cases here : d = c
        · subst here
          simp
        · rw [Function.update_of_ne here]
          exact others (.cpu d) (by simpa using here)
  | @unschedule c was =>
      have others : ∀ other, other ≠ .cpu c → ¬s.HasTable other :=
        fun _ => locked.alone was
      cases who with
      | proc q => simpa [State.HasTable] using others (.proc q) (by simp)
      | cpu d =>
          by_cases here : d = c
          · subst here
            simp [State.HasTable]
          · have other := others (.cpu d) (by simpa using here)
            simp only [State.HasTable] at other
            simp [State.HasTable, here, other]

theorem State.Locked.asleep_step (locked : s.Locked) (stepped : monitor.Steps s event next)
    (q : Proc) (sleeps : next.status q = .sleeping) :
    ∃ lock chan here, next.pc q = .asleep lock chan here ∧ next.chan q = some chan := by
  -- In most steps one process moves that does not sleep.
  have moved : ∀ {p} {pc moved : Pc Proc Lock Chan Local}, s.pc p = pc → pc.isAsleep = false →
      s.status q = .sleeping → ∃ lock chan here, (s.setPc p moved).pc q = .asleep lock chan here ∧
        s.chan q = some chan :=
    fun was elsewhere before => locked.asleep_of was elsewhere before fun other =>
      ⟨Function.update_of_ne other _ _, rfl⟩
  cases stepped with
  | call _ was _ => exact moved was rfl sleeps
  | kill _ was => exact moved was rfl sleeps
  | timer _ was => exact moved was rfl sleeps
  | enter _ was _ => exact moved was rfl sleeps
  | piece _ was =>
      unfold piece at sleeps ⊢
      split at sleeps
      split at sleeps
      · exact moved was rfl sleeps
      · exact moved was rfl sleeps
      · exact moved was rfl sleeps
  | take _ was _ => exact moved rfl (Pc.taken_holds was).2.2 sleeps
  | rouse _ was =>
      refine moved was rfl ?_
      simp only [State.giveTable, State.setPc, State.wakeup1] at sleeps
      split at sleeps
      · cases sleeps
      · exact sleeps
  | fall _ was => exact moved was rfl sleeps
  | @doze c p lock chan here _ was =>
      by_cases same : q = p
      · subst same
        exact ⟨lock, chan, here, Function.update_self .., Function.update_self ..⟩
      · simp only [State.sched, State.setStatus, State.setChan, State.setPc,
          Function.update_of_ne same] at sleeps ⊢
        exact locked.asleep q sleeps
  | rise _ was =>
      exact locked.asleep_of was rfl sleeps fun other =>
        ⟨Function.update_of_ne other _ _, Function.update_of_ne other _ _⟩
  | leave _ was => exact moved was rfl (sleeping_update (fun none => by cases none) sleeps)
  | goOn _ was => exact moved was rfl sleeps
  | kills _ was => exact moved was rfl (sleeping_update sleeping_of_kill sleeps)
  | schedule _ _ => exact locked.asleep q sleeps
  | @switch c p pc _ runnable _ =>
      by_cases same : q = p
      · subst same
        simp [State.setStatus, State.setPc] at sleeps
      · simp only [State.setStatus, State.setPc, Function.update_of_ne same] at sleeps ⊢
        exact locked.asleep q sleeps
  | unschedule _ => exact locked.asleep q sleeps

theorem State.Locked.step (locked : s.Locked) (stepped : monitor.Steps s event next) :
    next.Locked where
  owner := locked.owner_step stepped
  table := locked.table_step stepped
  asleep := locked.asleep_step stepped

/-- In every run the locks are held by those who are where they hold them. -/
theorem locked_run (ran : runs monitor.step (boot data here) events = some s) : s.Locked :=
  runs_invariant (fun _ state => state.Locked) boot_locked
    (fun _ _ _ _ locked stepped => locked.step (step_steps stepped)) ran

end Xv6.Library.Monitor
