import Xv6.Library.Sections

/-!
# No lost wakeup

A contract says when it is right to sleep on a channel, and which channels a
section still has to wake. If every piece of a section sleeps only with reason,
and owes a wakeup where it takes a reason away, then nobody sleeps without
reason while the lock is free.
-/

namespace Xv6.Library.Monitor

variable {Proc Cpu Lock Chan Call Data Local : Type}

/-- When it is right to sleep on a channel, by the data of its lock, and which
channels a section still has to wake. -/
structure Contract (Lock Chan Data Local : Type) where
  home : Chan → Lock
  waits : Chan → Data → Prop
  owes : Local → Chan → Prop

/-- The channel that a process sleeps on, or will before it gives up the lock
of the table. -/
def Pc.bed : Pc Proc Lock Chan Local → Option Chan
  | .fallen _ chan _ => some chan
  | .dozing _ chan _ => some chan
  | .asleep _ chan _ => some chan
  | _ => none

/-- The channel on which a process is about to sleep while it holds the lock. -/
def Pc.falls : Pc Proc Lock Chan Local → Option (Lock × Chan)
  | .falling lock chan _ => some (lock, chan)
  | .fallen lock chan _ => some (lock, chan)
  | _ => none

variable (contract : Contract Lock Chan Data Local)

def Move.Owes : Move Chan Local → Chan → Prop
  | .wakeup chan next, c => c = chan ∨ contract.owes next c
  | .sleep _ _, _ => False
  | .release _, _ => False

def Pc.Owes : Pc Proc Lock Chan Local → Chan → Prop
  | .inside _ here, c => contract.owes here c
  | .waking _ chan here, c => c = chan ∨ contract.owes here c
  | .rousing _ chan here, c => c = chan ∨ contract.owes here c
  | _, _ => False

/-- `q` sleeps on `c`, or is bound to. -/
def State.Waits (s : State Proc Cpu Lock Chan Data Local) (q : Proc) (c : Chan) : Prop :=
  (s.pc q).bed = some c ∧ ((s.pc q).isAsleep = true → s.status q = .sleeping)

/-- Whoever sleeps has reason to, or the process that holds the lock will wake it. -/
structure State.Awake (s : State Proc Cpu Lock Chan Data Local) : Prop where
  falling : ∀ p lock chan, (s.pc p).falls = some (lock, chan) →
    contract.home chan = lock ∧ contract.waits chan (s.data lock)
  waits : ∀ q c, s.Waits q c → contract.waits c (s.data (contract.home c)) ∨
    ∃ p, (s.pc p).holds = some (contract.home c) ∧ (s.pc p).Owes contract c

/-- A piece of a section sleeps only with reason, and owes a wakeup to all whose
reason it takes away. -/
structure Careful (monitor : Monitor Proc Lock Chan Call Data Local)
    (s : State Proc Cpu Lock Chan Data Local) (p : Proc) (lock : Lock) (here : Local) : Prop where
  sleeps : ∀ chan next, (monitor.body p (s.killed p) lock here (s.data lock)).2 =
    .sleep chan next → contract.home chan = lock ∧
      contract.waits chan (monitor.body p (s.killed p) lock here (s.data lock)).1
  owes : ∀ q c, contract.home c = lock → s.Waits q c →
    contract.waits c (monitor.body p (s.killed p) lock here (s.data lock)).1 ∨
      (monitor.body p (s.killed p) lock here (s.data lock)).2.Owes contract c

variable {contract} {monitor : Monitor Proc Lock Chan Call Data Local}
  {s next : State Proc Cpu Lock Chan Data Local} {event : Event Proc Cpu Call}

theorem Pc.holds_of_falls {pc : Pc Proc Lock Chan Local} {lock : Lock} {chan : Chan}
    (falls : pc.falls = some (lock, chan)) : pc.holds = some lock := by
  cases pc <;> cases falls <;> rfl

/-- No section's data changes, nobody goes to bed and no debt is forgotten. -/
theorem State.Awake.of (awake : s.Awake contract) (data : next.data = s.data)
    (falls : ∀ q both, (next.pc q).falls = some both → (s.pc q).falls = some both)
    (waits : ∀ q c, next.Waits q c → s.Waits q c)
    (debts : ∀ q c, (s.pc q).Owes contract c →
      (next.pc q).holds = (s.pc q).holds ∧ (next.pc q).Owes contract c) : next.Awake contract := by
  constructor
  · intro q lock chan falling
    rw [data]
    exact awake.falling q lock chan (falls q _ falling)
  · intro q c sleeping
    rw [data]
    rcases awake.waits q c (waits q c sleeping) with reason | ⟨p, holds, owes⟩
    · exact Or.inl reason
    · have kept := debts p c owes
      exact Or.inr ⟨p, kept.1.trans holds, kept.2⟩

/-- A sleeper has reason to sleep, or the section that runs will wake it. -/
theorem State.Awake.reason (awake : s.Awake contract) (locked : s.Locked) {p q : Proc} {lock : Lock}
    {here : Local} {c : Chan} (was : s.pc p = .inside lock here) (home : contract.home c = lock)
    (waits : s.Waits q c) : contract.waits c (s.data lock) ∨ contract.owes here c := by
  rcases awake.waits q c waits with reason | ⟨r, holds, owes⟩
  · rw [home] at reason
    exact Or.inl reason
  · rw [home] at holds
    have first := (locked.owner lock p).mpr (by rw [was]; rfl)
    rw [(locked.owner lock r).mpr holds] at first
    cases first
    rw [was] at owes
    exact Or.inr owes

section Steps

variable [DecidableEq Proc]

/-- Only `p` moves, not out of its debts, and to bed only if it was bound to. -/
theorem State.Awake.moved (awake : s.Awake contract) {p : Proc} {pc after : Pc Proc Lock Chan Local}
    (was : s.pc p = pc) (pcs : next.pc = Function.update s.pc p after) (data : next.data = s.data)
    (bed : ∀ c, after.bed = some c → pc.bed = some c ∧ pc.isAsleep = false)
    (falls : after.falls = none)
    (debts : ∀ c, pc.Owes contract c → after.holds = pc.holds ∧ after.Owes contract c)
    (status : ∀ q, q ≠ p → next.status q = .sleeping → s.status q = .sleeping) :
    next.Awake contract := by
  subst was
  apply awake.of data
  · intro q both
    rw [pcs]
    by_cases same : q = p
    · subst same
      rw [Function.update_self, falls]
      intro none
      cases none
    · rw [Function.update_of_ne same]
      exact id
  · intro q c
    unfold State.Waits
    rw [pcs]
    by_cases same : q = p
    · subst same
      rw [Function.update_self]
      rintro ⟨inBed, -⟩
      rcases bed c inBed with ⟨before, up⟩
      refine ⟨before, fun asleep => ?_⟩
      rw [up] at asleep
      cases asleep
    · rw [Function.update_of_ne same]
      exact fun ⟨inBed, sleeps⟩ => ⟨inBed, fun asleep => status q same (sleeps asleep)⟩
  · intro q c owes
    rw [pcs]
    by_cases same : q = p
    · subst same
      rw [Function.update_self]
      exact debts c owes
    · rw [Function.update_of_ne same]
      exact ⟨rfl, owes⟩

/-- Only `p` moves, and it has neither a bed nor a debt. -/
theorem State.Awake.walked (awake : s.Awake contract) {p : Proc} {pc after : Pc Proc Lock Chan Local}
    (was : s.pc p = pc) (pcs : next.pc = Function.update s.pc p after) (data : next.data = s.data)
    (bed : after.bed = none) (falls : after.falls = none) (debts : ∀ c, ¬pc.Owes contract c)
    (status : ∀ q, next.status q = .sleeping → s.status q = .sleeping) : next.Awake contract := by
  refine awake.moved was pcs data ?_ falls (fun c owes => absurd owes (debts c)) fun q _ => status q
  intro c inBed
  rw [bed] at inBed
  cases inBed

section Rouse

variable [DecidableEq Chan]

/-- After `wakeup1(chan)` nobody sleeps on the channel or is about to. -/
theorem rouse_waits (locked : s.Locked) {p q : Proc} {lock : Lock} {chan c : Chan} {here : Local}
    (was : s.pc p = .rousing lock chan here)
    (waits : ((s.wakeup1 chan).giveTable p (.inside lock here)).Waits q c) :
    s.Waits q c ∧ c ≠ chan := by
  rcases waits with ⟨inBed, sleeps⟩
  have other : q ≠ p := by
    rintro rfl
    simp [State.giveTable, State.setPc, Pc.bed] at inBed
  simp only [State.giveTable, State.setPc, State.wakeup1, Function.update_of_ne other]
    at inBed sleeps
  refine ⟨⟨inBed, fun asleep => ?_⟩, ?_⟩
  · have still := sleeps asleep
    split at still
    · cases still
    · exact still
  · rintro rfl
    -- Whoever is on the way to bed has the lock of the table.
    have alone : ¬s.HasTable (.proc q) :=
      locked.alone (w := .proc p) (by rw [State.HasTable, was]; rfl) (by simpa using other)
    cases place : s.pc q with
    | asleep lock' chan' here' =>
        rw [place] at inBed sleeps
        cases inBed
        have still := sleeps rfl
        split at still
        · cases still
        · rename_i awake
          rcases locked.asleep q still with ⟨_, channel, _, bed, on⟩
          rw [place] at bed
          cases bed
          exact awake ⟨still, on⟩
    | fallen _ _ _ => exact alone (by rw [State.HasTable, place]; rfl)
    | dozing _ _ _ => exact alone (by rw [State.HasTable, place]; rfl)
    | _ =>
        rw [place] at inBed
        cases inBed

end Rouse

variable [DecidableEq Lock]

/-- A careful piece of a section leaves a debt where it takes a reason away. -/
theorem State.Awake.piece (awake : s.Awake contract) (locked : s.Locked) {p : Proc} {lock : Lock}
    {here : Local} (was : s.pc p = .inside lock here)
    (careful : Careful contract monitor s p lock here) :
    (monitor.piece s p lock here).Awake contract := by
  have holds : (s.pc p).holds = some lock := by rw [was]; rfl
  -- Whoever else holds a lock holds another one.
  have apart : ∀ q other, q ≠ p → (s.pc q).holds = some other → other ≠ lock := by
    rintro q other different both rfl
    have first := (locked.owner other p).mpr holds
    rw [(locked.owner other q).mpr both] at first
    exact different (Option.some.inj first)
  rcases careful with ⟨sleeps, owes⟩
  unfold Monitor.piece
  generalize monitor.body p (s.killed p) lock here (s.data lock) = result at sleeps owes ⊢
  rcases result with ⟨data, move⟩
  have others : ∀ {after : Pc Proc Lock Chan Local} {q : Proc}, q ≠ p →
      Function.update s.pc p after q = s.pc q := fun different => Function.update_of_ne different _ _
  have falling : ∀ {after : Pc Proc Lock Chan Local},
      (∀ chan, after.falls = some (lock, chan) → contract.home chan = lock ∧ contract.waits chan data) →
      (∀ both, after.falls = some both → both.1 = lock) →
      ∀ q other chan, (Function.update s.pc p after q).falls = some (other, chan) →
        contract.home chan = other ∧
          contract.waits chan (Function.update s.data lock data other) := by
    intro after reason here q other chan falls
    by_cases same : q = p
    · subst same
      rw [Function.update_self] at falls
      have equal : other = lock := here _ falls
      subst equal
      rw [Function.update_self]
      exact reason chan falls
    · rw [others same] at falls
      have different := apart q other same (Pc.holds_of_falls falls)
      rw [Function.update_of_ne different]
      exact awake.falling q other chan falls
  have waits : ∀ {after : Pc Proc Lock Chan Local}, after.bed = none →
      (∀ c, move.Owes contract c → after.holds = some lock ∧ after.Owes contract c) →
      ∀ q c, ((Function.update s.pc p after q).bed = some c ∧
        ((Function.update s.pc p after q).isAsleep = true → s.status q = .sleeping)) →
        contract.waits c (Function.update s.data lock data (contract.home c)) ∨
          ∃ r, (Function.update s.pc p after r).holds = some (contract.home c) ∧
            (Function.update s.pc p after r).Owes contract c := by
    intro after bed debts q c sleeping
    have different : q ≠ p := by
      rintro rfl
      rw [Function.update_self, bed] at sleeping
      cases sleeping.1
    rw [others different] at sleeping
    by_cases home : contract.home c = lock
    · rw [home, Function.update_self]
      rcases owes q c home sleeping with reason | debt
      · exact Or.inl reason
      · have kept := debts c debt
        exact Or.inr ⟨p, by rw [Function.update_self]; exact kept.1,
          by rw [Function.update_self]; exact kept.2⟩
    · rw [Function.update_of_ne home]
      rcases awake.waits q c sleeping with reason | ⟨r, held, debt⟩
      · exact Or.inl reason
      · have other : r ≠ p := by
          rintro rfl
          rw [holds] at held
          exact home (Option.some.inj held).symm
        exact Or.inr ⟨r, by rw [others other]; exact held, by rw [others other]; exact debt⟩
  cases move with
  | wakeup chan after =>
      refine ⟨falling (fun _ none => ?_) (fun _ none => ?_), waits rfl fun c debt => ⟨rfl, debt⟩⟩
      · cases none
      · cases none
  | sleep chan after =>
      refine ⟨falling (fun channel here => ?_) (fun both here => ?_), waits rfl fun c debt => debt.elim⟩
      · cases here
        exact sleeps chan after rfl
      · cases here
        rfl
  | release after =>
      refine ⟨falling (fun _ none => ?_) (fun _ none => ?_), waits rfl fun c debt => debt.elim⟩
      · cases none
      · cases none

variable [DecidableEq Cpu] [DecidableEq Chan]

/-- No step loses a wakeup, if a piece of a section is careful. -/
theorem State.Awake.step (awake : s.Awake contract) (locked : s.Locked)
    (stepped : monitor.Steps s event next)
    (careful : ∀ p lock here, s.pc p = .inside lock here →
      (∃ c, event = .advance c ∧ s.cpu c = .running p) → Careful contract monitor s p lock here) :
    next.Awake contract := by
  cases stepped with
  | call _ was _ => exact awake.walked was rfl rfl rfl rfl (fun _ => id) fun _ => id
  | kill _ was => exact awake.walked was rfl rfl rfl rfl (fun _ => id) fun _ => id
  | timer _ was => exact awake.walked was rfl rfl rfl rfl (fun _ => id) fun _ => id
  | enter _ was _ => exact awake.walked was rfl rfl rfl rfl (fun _ => id) fun _ => id
  | @piece c p lock here runs was =>
      exact awake.piece locked was (careful p lock here was ⟨c, rfl, runs⟩)
  | @take c p pc _ was _ =>
      cases place : s.pc p with
      | falling lock chan here =>
          rw [place] at was
          cases was
          have reason := awake.falling p lock chan (by rw [place]; rfl)
          constructor
          · intro q other channel falls
            by_cases same : q = p
            · subst same
              simp only [State.setPc, Function.update_self, Pc.falls, Option.some.injEq] at falls
              cases falls
              exact reason
            · simp only [State.setPc, Function.update_of_ne same] at falls
              exact awake.falling q other channel falls
          · intro q channel waits
            by_cases same : q = p
            · subst same
              have bed := waits.1
              simp only [State.setPc, Function.update_self] at bed
              cases bed
              exact Or.inl (by rw [reason.1]; exact reason.2)
            · have before : s.Waits q channel := by
                simpa [State.Waits, State.setPc, same] using waits
              rcases awake.waits q channel before with reasonable | ⟨r, holds, owes⟩
              · exact Or.inl reasonable
              · have other : r ≠ p := by
                  rintro rfl
                  rw [place] at owes
                  exact owes
                refine Or.inr ⟨r, ?_, ?_⟩
                · simpa [State.setPc, other] using holds
                · simpa [State.setPc, other] using owes
      | waking lock chan here =>
          rw [place] at was
          cases was
          refine awake.moved place rfl rfl ?_ rfl (fun _ owes => ⟨rfl, owes⟩) fun _ _ => id
          intro _ beds
          cases beds
      | yielding place' =>
          rw [place] at was
          cases was
          exact awake.walked place rfl rfl rfl rfl (fun _ => id) fun _ => id
      | killing victim here =>
          rw [place] at was
          cases was
          exact awake.walked place rfl rfl rfl rfl (fun _ => id) fun _ => id
      | _ =>
          rw [place] at was
          cases was
  | @rouse c p lock chan here _ was =>
      constructor
      · intro q other channel falls
        by_cases same : q = p
        · subst same
          simp only [State.giveTable, State.setPc, Function.update_self] at falls
          cases falls
        · simp only [State.giveTable, State.setPc, Function.update_of_ne same] at falls
          exact awake.falling q other channel falls
      · intro q channel waits
        rcases rouse_waits locked was waits with ⟨before, different⟩
        rcases awake.waits q channel before with reason | ⟨r, holds, owes⟩
        · exact Or.inl reason
        · refine Or.inr ⟨r, ?_⟩
          by_cases same : r = p
          · subst same
            rw [was] at holds owes
            simp only [State.giveTable, State.setPc, Function.update_self]
            exact ⟨holds, owes.resolve_left different⟩
          · simp only [State.giveTable, State.setPc, Function.update_of_ne same]
            exact ⟨holds, owes⟩
  | fall _ was =>
      exact awake.moved was rfl rfl (fun _ inBed => ⟨inBed, rfl⟩) rfl (fun _ => False.elim)
        fun _ _ => id
  | doze _ was =>
      refine awake.moved was rfl rfl (fun _ inBed => ⟨inBed, rfl⟩) rfl (fun _ => False.elim) ?_
      intro q other sleeps
      simpa [State.sched, State.setStatus, State.setPc, State.setChan, other] using sleeps
  | rise _ was => exact awake.walked was rfl rfl rfl rfl (fun _ => id) fun _ => id
  | leave _ was =>
      exact awake.walked was rfl rfl rfl rfl (fun _ => id) fun _ sleeps =>
        sleeping_update (fun none => by cases none) sleeps
  | goOn _ was => exact awake.walked was rfl rfl rfl rfl (fun _ => id) fun _ => id
  | kills _ was =>
      exact awake.walked was rfl rfl rfl rfl (fun _ => id) fun _ sleeps =>
        sleeping_update sleeping_of_kill sleeps
  | schedule _ _ => exact awake.of rfl (fun _ _ => id) (fun _ _ => id) fun _ _ owes => ⟨rfl, owes⟩
  | switch _ _ resumes =>
      rcases Pc.resume_eq resumes with ⟨_, _, _, was, rfl⟩ | ⟨_, was, rfl⟩
      · exact awake.walked was rfl rfl rfl rfl (fun _ => id) fun _ sleeps =>
          sleeping_update (fun none => by cases none) sleeps
      · exact awake.walked was rfl rfl rfl rfl (fun _ => id) fun _ sleeps =>
          sleeping_update (fun none => by cases none) sleeps
  | unschedule _ => exact awake.of rfl (fun _ _ => id) (fun _ _ => id) fun _ _ owes => ⟨rfl, owes⟩

end Steps

/-! ## Runs -/

section Runs

variable {data : Lock → Data} {here : Proc → Local} {events : List (Event Proc Cpu Call)}

theorem boot_awake : (boot data here : State Proc Cpu Lock Chan Data Local).Awake contract where
  falling _ _ _ falls := by cases falls
  waits _ _ sleeping := by cases sleeping.1

/-- The next piece of a section that the event runs is careful. -/
def CarefulStep (monitor : Monitor Proc Lock Chan Call Data Local)
    (contract : Contract Lock Chan Data Local) (s : State Proc Cpu Lock Chan Data Local)
    (event : Event Proc Cpu Call) : Prop :=
  ∀ c p lock here, event = .advance c → s.cpu c = .running p → s.pc p = .inside lock here →
    Careful contract monitor s p lock here

/-- Every piece of a section sleeps only with reason, and pays its debts. -/
structure Dutiful (monitor : Monitor Proc Lock Chan Call Data Local)
    (contract : Contract Lock Chan Data Local) : Prop where
  sleeps : ∀ p killed lock here data chan next,
    (monitor.body p killed lock here data).2 = .sleep chan next →
      contract.home chan = lock ∧ contract.waits chan (monitor.body p killed lock here data).1
  owes : ∀ p killed lock here data c, contract.home c = lock →
    contract.waits c data ∨ contract.owes here c →
      contract.waits c (monitor.body p killed lock here data).1 ∨
        (monitor.body p killed lock here data).2.Owes contract c

theorem Dutiful.careful (dutiful : Dutiful monitor contract) (locked : s.Locked)
    (awake : s.Awake contract) (event : Event Proc Cpu Call) :
    CarefulStep monitor contract s event := by
  intro c p lock here _ _ was
  constructor
  · exact dutiful.sleeps p (s.killed p) lock here (s.data lock)
  · intro q chan home waits
    exact dutiful.owes p (s.killed p) lock here (s.data lock) chan home
      (awake.reason locked was home waits)

variable [DecidableEq Proc] [DecidableEq Cpu] [DecidableEq Lock] [DecidableEq Chan]

/-- While the lock is free, whoever sleeps has reason to. -/
theorem awake_run {Condition : State Proc Cpu Lock Chan Data Local → Event Proc Cpu Call → Prop}
    (careful : ∀ past state event, runs monitor.step (boot data here) past = some state →
      state.Locked → state.Awake contract → Condition state event →
      CarefulStep monitor contract state event)
    (throughout : Throughout monitor.step Condition (boot data here) events)
    (ran : runs monitor.step (boot data here) events = some s) {c : Chan}
    (free : s.owner (contract.home c) = none) {p : Proc} (sleeps : s.status p = .sleeping)
    (chan : s.chan p = some c) : contract.waits c (s.data (contract.home c)) := by
  have awake : s.Awake contract := by
    have both := runs_invariant_throughout (fun state => state.Awake contract ∧
      ∃ past, runs monitor.step (boot data here) past = some state)
      ⟨boot_awake, [], rfl⟩ ?_ throughout ran
    · exact both.1
    · rintro state event next ⟨awake, past, reached⟩ meets stepped
      have locked := locked_run reached
      refine ⟨awake.step locked (step_steps stepped) ?_, past ++ [event], ?_⟩
      · rintro p lock here was ⟨c, rfl, runs⟩
        exact careful past state _ reached locked awake meets c p lock here rfl runs was
      · rw [runs_concat, reached]
        exact stepped
  have locked := locked_run ran
  rcases locked.asleep p sleeps with ⟨lock, channel, here, was, bed⟩
  rw [chan] at bed
  cases bed
  rcases awake.waits p c ⟨by rw [was]; rfl, fun _ => sleeps⟩ with reason | ⟨q, holds, -⟩
  · exact reason
  · rw [← locked.owner, free] at holds
    cases holds

end Runs

end Xv6.Library.Monitor
