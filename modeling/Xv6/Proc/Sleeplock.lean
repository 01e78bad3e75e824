import Xv6.Library.Wakeup

/-!
# Sleep locks

Any number of sleep locks, with the processes and processors that use them.
The channel of a sleep lock is the lock itself.
-/

namespace Xv6.Proc

open Xv6.Library Monitor

structure Sleeplock where
  locked : Bool
  pid : Nat

inductive SleepCall (Lock : Type) where
  | acquiresleep (lk : Lock)
  | releasesleep (lk : Lock)
  | holdingsleep (lk : Lock)

/-- How far a process is in a call. -/
inductive SleepStage where
  | idle
  | acquire
  | release
  | wokeup
  | holding

structure SleepLocal (Lock : Type) where
  /-- Past `acquiresleep` of these locks, and before `releasesleep`. -/
  held : Lock → Bool
  stage : SleepStage
  /-- What `holdingsleep` returned last. -/
  r : Bool

variable {Proc Cpu Lock : Type}

def initsleeplock : Sleeplock where
  locked := false
  pid := 0

/-- `acquiresleep`, `releasesleep`, which the holder calls, and `holdingsleep`. -/
def sleeplocks [DecidableEq Lock] (pid : Proc → Nat) :
    Monitor Proc Lock Lock (SleepCall Lock) Sleeplock (SleepLocal Lock) where
  start _ here call :=
    match call with
    | .acquiresleep lk => some (lk, { here with stage := .acquire })
    | .releasesleep lk =>
        if here.held lk = true then some (lk, { here with stage := .release }) else none
    | .holdingsleep lk => some (lk, { here with stage := .holding })
  body p _ lk here data :=
    match here.stage with
    | .acquire =>
        if data.locked = true then (data, .sleep lk here)
        else
          ({ data with locked := true, pid := pid p },
            .release { here with held := Function.update here.held lk true, stage := .idle })
    | .release =>
        ({ data with locked := false, pid := 0 },
          .wakeup lk { here with held := Function.update here.held lk false, stage := .wokeup })
    | .wokeup => (data, .release { here with stage := .idle })
    | .holding => (data, .release { here with r := data.locked, stage := .idle })
    | .idle => (data, .release here)

/-- `p` is past `acquiresleep(lk)` and before `releasesleep(lk)`. -/
def Holds (places : Proc → Place Lock (SleepLocal Lock)) (p : Proc) (lk : Lock) : Prop :=
  (places p).here.held lk = true

/-- A lock has at most one holder, and is locked while it has one. -/
structure Exclusive (data : Lock → Sleeplock) (places : Proc → Place Lock (SleepLocal Lock)) :
    Prop where
  once : ∀ lk p q, Holds places p lk → Holds places q lk → p = q
  locked : ∀ lk p, Holds places p lk → (data lk).locked = true
  releases : ∀ lk p here, places p = .within lk here → here.stage = .release → here.held lk = true

variable {data : Lock → Sleeplock} {places : Proc → Place Lock (SleepLocal Lock)}
  {p : Proc} {pid : Proc → Nat}

section Invariant

variable [DecidableEq Proc]

/-- `p` moves, and holds what it held. -/
theorem Exclusive.moved (exclusive : Exclusive data places) {place : Place Lock (SleepLocal Lock)}
    (held : place.here.held = (places p).here.held)
    (releases : ∀ lk here, place = .within lk here → here.stage = .release → here.held lk = true) :
    Exclusive data (Function.update places p place) := by
  have same : ∀ q lk, Holds (Function.update places p place) q lk ↔ Holds places q lk := by
    intro q lk
    unfold Holds
    by_cases here : q = p
    · subst here
      rw [Function.update_self, held]
    · rw [Function.update_of_ne here]
  constructor
  · intro lk q r first second
    exact exclusive.once lk q r ((same q lk).mp first) ((same r lk).mp second)
  · intro lk q holds
    exact exclusive.locked lk q ((same q lk).mp holds)
  · intro lk q here within
    by_cases equal : q = p
    · subst equal
      rw [Function.update_self] at within
      exact releases lk here within
    · rw [Function.update_of_ne equal] at within
      exact exclusive.releases lk q here within

variable [DecidableEq Lock]

theorem exclusive_start {here after : SleepLocal Lock} {call : SleepCall Lock} {lk : Lock}
    (outside : places p = .outside here)
    (starts : (sleeplocks pid).start p here call = some (lk, after))
    (exclusive : Exclusive data places) :
    Exclusive data (Function.update places p (.within lk after)) := by
  apply exclusive.moved
  · rw [outside]
    cases call with
    | acquiresleep other =>
        cases starts
        rfl
    | releasesleep other =>
        simp only [sleeplocks] at starts
        split at starts
        · cases starts
          rfl
        · cases starts
    | holdingsleep other =>
        cases starts
        rfl
  · rintro other there same stage
    cases same
    cases call with
    | acquiresleep other =>
        cases starts
        cases stage
    | releasesleep other =>
        simp only [sleeplocks] at starts
        split at starts
        · cases starts
          assumption
        · cases starts
    | holdingsleep other =>
        cases starts
        cases stage

/-- Nobody holds a lock that is not locked, so `p` may. -/
theorem Exclusive.acquire (exclusive : Exclusive data places) {here : SleepLocal Lock} {lk : Lock}
    (held : (places p).here.held = here.held) (free : ¬(data lk).locked = true) {n : Nat} :
    Exclusive (Function.update data lk { data lk with locked := true, pid := n })
      (Function.update places p
        (.outside { here with held := Function.update here.held lk true, stage := .idle })) := by
  have nobody : ∀ q, ¬Holds places q lk := fun q holds => free (exclusive.locked lk q holds)
  have holds : ∀ q other, Holds (Function.update places p (.outside { here with
      held := Function.update here.held lk true, stage := .idle })) q other →
      (q = p ∧ other = lk) ∨ (other ≠ lk ∧ Holds places q other) := by
    intro q other holds
    unfold Holds at holds ⊢
    by_cases self : q = p
    · subst self
      rw [Function.update_self] at holds
      by_cases same : other = lk
      · exact Or.inl ⟨rfl, same⟩
      · simp only [Place.here, Function.update_of_ne same] at holds
        exact Or.inr ⟨same, by rw [held]; exact holds⟩
    · rw [Function.update_of_ne self] at holds
      refine Or.inr ⟨?_, holds⟩
      rintro rfl
      exact nobody q holds
  constructor
  · intro other q r first second
    rcases holds q other first with ⟨rfl, same⟩ | ⟨different, before⟩
    · rcases holds r other second with ⟨rfl, -⟩ | ⟨different, -⟩
      · rfl
      · exact absurd same different
    · rcases holds r other second with ⟨-, same⟩ | ⟨-, too⟩
      · exact absurd same different
      · exact exclusive.once other q r before too
  · intro other q both
    rcases holds q other both with ⟨-, rfl⟩ | ⟨different, before⟩
    · rw [Function.update_self]
    · rw [Function.update_of_ne different]
      exact exclusive.locked other q before
  · intro other q there within stage
    by_cases self : q = p
    · subst self
      rw [Function.update_self] at within
      cases within
    · rw [Function.update_of_ne self] at within
      exact exclusive.releases other q there within stage

/-- The holder `p` gives up the lock. -/
theorem Exclusive.release (exclusive : Exclusive data places) {here : SleepLocal Lock} {lk : Lock}
    (held : (places p).here.held = here.held) (mine : Holds places p lk) {n : Nat} :
    Exclusive (Function.update data lk { data lk with locked := false, pid := n })
      (Function.update places p
        (.within lk { here with held := Function.update here.held lk false, stage := .wokeup })) := by
  have holds : ∀ q other, Holds (Function.update places p (.within lk { here with
      held := Function.update here.held lk false, stage := .wokeup })) q other →
      other ≠ lk ∧ Holds places q other := by
    intro q other holds
    unfold Holds at holds
    by_cases self : q = p
    · subst self
      rw [Function.update_self] at holds
      by_cases same : other = lk
      · subst same
        simp [Place.here] at holds
      · simp only [Place.here, Function.update_of_ne same] at holds
        exact ⟨same, by rw [Holds, held]; exact holds⟩
    · rw [Function.update_of_ne self] at holds
      refine ⟨?_, holds⟩
      rintro rfl
      exact self (exclusive.once other q p holds mine)
  constructor
  · intro other q r first second
    exact exclusive.once other q r (holds q other first).2 (holds r other second).2
  · intro other q both
    rcases holds q other both with ⟨different, before⟩
    rw [Function.update_of_ne different]
    exact exclusive.locked other q before
  · intro other q there within stage
    by_cases self : q = p
    · subst self
      rw [Function.update_self] at within
      cases within
      cases stage
    · rw [Function.update_of_ne self] at within
      exact exclusive.releases other q there within stage

theorem exclusive_body {killed : Bool} {here : SleepLocal Lock} {lk : Lock}
    (within : places p = .within lk here) (exclusive : Exclusive data places) :
    Exclusive (Function.update data lk ((sleeplocks pid).body p killed lk here (data lk)).1)
      (Function.update places p
        (((sleeplocks pid).body p killed lk here (data lk)).2.place lk)) := by
  have held : (places p).here.held = here.held := by rw [within]; rfl
  have reads : ∀ after : SleepLocal Lock, after.held = here.held → after.stage ≠ .release →
      ∀ place : Place Lock (SleepLocal Lock), place.here = after →
      Exclusive (Function.update data lk (data lk)) (Function.update places p place) := by
    rintro after same stage place rfl
    rw [Function.update_eq_self]
    apply exclusive.moved (same.trans held.symm)
    rintro lk' here' rfl release
    exact absurd release stage
  simp only [sleeplocks]
  cases stage : here.stage with
  | acquire =>
      by_cases taken : (data lk).locked = true
      · simp only [if_pos taken]
        exact reads here rfl (by simp [stage]) _ rfl
      · simp only [if_neg taken]
        exact exclusive.acquire held taken
  | release =>
      have mine : Holds places p lk := by
        rw [Holds, held]
        exact exclusive.releases lk p here within stage
      exact exclusive.release held mine
  | wokeup => exact reads { here with stage := .idle } rfl nofun _ rfl
  | holding => exact reads { here with r := (data lk).locked, stage := .idle } rfl nofun _ rfl
  | idle => exact reads here rfl (by simp [stage]) _ rfl

end Invariant

/-- It is right to sleep on a lock that is locked. -/
def sleeplockContract : Contract Lock Lock Sleeplock (SleepLocal Lock) where
  home lk := lk
  waits _ data := data.locked = true
  owes _ _ := False

variable [DecidableEq Lock]

theorem sleeplocks_dutiful (pid : Proc → Nat) : Dutiful (sleeplocks pid)
    (sleeplockContract : Contract Lock Lock Sleeplock (SleepLocal Lock)) where
  sleeps p killed lk here data chan next sleep := by
    simp only [sleeplocks] at sleep ⊢
    cases stage : here.stage with
    | acquire =>
        simp only [stage] at sleep ⊢
        split at sleep
        · rename_i locked
          cases sleep
          rw [if_pos locked]
          exact ⟨rfl, locked⟩
        · cases sleep
    | _ =>
        simp only [stage] at sleep
        cases sleep
  owes p killed lk here data c home reason := by
    have locked : data.locked = true := reason.resolve_right id
    simp only [sleeplocks]
    cases here.stage with
    | acquire =>
        simp only [if_pos locked]
        exact Or.inl locked
    | release => exact Or.inr (Or.inl home)
    | _ => exact Or.inl locked

variable [DecidableEq Proc] [DecidableEq Cpu]

/-- No process has a sleep lock, and none is in a call. -/
def bootSleeplocks : State Proc Cpu Lock Lock Sleeplock (SleepLocal Lock) :=
  boot (fun _ => initsleeplock) fun _ => { held := fun _ => false, stage := .idle, r := false }

/-- In every run a sleep lock has at most one holder, and while its spin lock is
free and it is not locked nobody sleeps on it. -/
theorem sleeplock_excludes_and_wakes (pid : Proc → Nat)
    (events : List (Event Proc Cpu (SleepCall Lock)))
    (state : State Proc Cpu Lock Lock Sleeplock (SleepLocal Lock))
    (ran : runs (sleeplocks pid).step bootSleeplocks events = some state) :
    (∀ lk p q, Holds state.places p lk → Holds state.places q lk → p = q) ∧
      ∀ lk, state.owner lk = none → (state.data lk).locked = false →
        ∀ p, ¬(state.status p = .sleeping ∧ state.chan p = some lk) := by
  constructor
  · have exclusive : Exclusive state.data state.places := by
      refine atomic_run Exclusive ?_ ?_ ?_ ran
      · exact ⟨nofun, nofun, nofun⟩
      · intro data places p here call lk after outside starts exclusive
        exact exclusive_start outside starts exclusive
      · intro data places p killed lk here within exclusive
        exact exclusive_body within exclusive
    exact exclusive.once
  · rintro lk free unlocked p ⟨sleeps, chan⟩
    have locked : (state.data lk).locked = true :=
      awake_run (fun _ _ event _ isLocked awake _ =>
          (sleeplocks_dutiful pid).careful isLocked awake event)
        (throughout_of (fun _ _ => trivial) _ _) ran free sleeps chan
    rw [unlocked] at locked
    cases locked

/-- Process `false` has the lock, `true` falls asleep on it, is woken and gets it. -/
def handOver : List (Event Bool Bool (SleepCall Unit)) :=
  [.schedule false, .switch false false, .advance false,
    .schedule true, .switch true true, .advance true,
    .call false (.acquiresleep ()), .advance false, .advance false,
    .call true (.acquiresleep ()), .advance true, .advance true, .advance true, .advance true,
    .advance true, .unschedule true,
    .call false (.releasesleep ()), .advance false, .advance false, .advance false, .advance false,
    .advance false,
    .schedule true, .switch true true, .advance true, .advance true, .advance true]

theorem sleeplock_excludes_and_wakes_once :
    ∃ state, runs (sleeplocks fun p => if p = true then 2 else 1).step bootSleeplocks handOver =
        some state ∧
      Holds state.places true () ∧ ¬Holds state.places false () := by
  have holder : (runs (sleeplocks fun p => if p = true then 2 else 1).step bootSleeplocks
      handOver).map (fun state => (state.places true).here.held ()) = some true := by
    decide +kernel
  rcases Option.map_eq_some_iff.mp holder with ⟨state, ran, holds⟩
  have both := sleeplock_excludes_and_wakes _ handOver state ran
  refine ⟨state, ran, holds, fun other => ?_⟩
  have same := both.1 () true false holds other
  cases same

end Xv6.Proc
