import Xv6.Library.Sections
import Xv6.Proc.Sleeplock

/-!
# Who may release a sleep lock

`brelse`, `bwrite`, `iderw` and `iunlock` ask `holdingsleep` whether the sleep lock of
their buffer or inode is held. It looks at `locked` only, so it cannot tell the holder
from another process.
-/

namespace Xv6.Proc

open Xv6.Library Monitor

/-- A sleep lock, with the process whose `acquiresleep` has locked it. -/
structure Owned (Proc : Type) where
  lock : Sleeplock
  holder : Option Proc

/-- The calls that test the sleep lock of a buffer or of an inode; `ref` is what `ip->ref` is. -/
inductive CheckedCall (Buffer Inode : Type) where
  | brelse (b : Buffer)
  | bwrite (b : Buffer)
  | iderw (b : Buffer)
  | iunlock (ip : Inode) (ref : Int)

/-- How far a process is in a call. -/
inductive OwnStage (Buffer Inode : Type) where
  | idle
  | acquire
  | check (call : CheckedCall Buffer Inode)
  /-- Past the test, with the lock to release. -/
  | passed (lk : Buffer ⊕ Inode)
  | release
  | wokeup
  | panicked (message : String)

inductive OwnCall (Buffer Inode : Type) where
  | acquiresleep (lk : Buffer ⊕ Inode)
  | releasesleep (lk : Buffer ⊕ Inode)
  | checked (call : CheckedCall Buffer Inode)

namespace CheckedCall

variable {Buffer Inode : Type}

/-- The lock that is tested. -/
def lock : CheckedCall Buffer Inode → Buffer ⊕ Inode
  | brelse b => .inl b
  | bwrite b => .inl b
  | iderw b => .inl b
  | iunlock ip _ => .inr ip

def message : CheckedCall Buffer Inode → String
  | brelse _ => "brelse"
  | bwrite _ => "bwrite"
  | iderw _ => "iderw: buf not locked"
  | iunlock _ _ => "iunlock"

/-- The caller has a reference, if it is an inode. -/
def Referenced : CheckedCall Buffer Inode → Prop
  | iunlock _ ref => 1 ≤ ref
  | _ => True

instance (call : CheckedCall Buffer Inode) : Decidable call.Referenced :=
  match call with
  | brelse _ => inferInstanceAs (Decidable True)
  | bwrite _ => inferInstanceAs (Decidable True)
  | iderw _ => inferInstanceAs (Decidable True)
  | iunlock _ ref => inferInstanceAs (Decidable (1 ≤ ref))

/-- Where the call goes on behind the test. `brelse` and `iunlock` call `releasesleep`. -/
def behind : CheckedCall Buffer Inode → OwnStage Buffer Inode
  | brelse b => .passed (.inl b)
  | bwrite _ => .idle
  | iderw _ => .idle
  | iunlock ip _ => .passed (.inr ip)

/-- `if(!holdingsleep(…)) panic(…)`, which is also the test of `ref` in `iunlock`. -/
def tested (call : CheckedCall Buffer Inode) (r : Bool) : OwnStage Buffer Inode :=
  if r = false ∨ ¬call.Referenced then .panicked call.message else call.behind

end CheckedCall

variable {Proc Cpu Buffer Inode : Type} [DecidableEq Buffer] [DecidableEq Inode]

/-- `acquiresleep`, `releasesleep` and the four calls, which any process may make. -/
def owned (pid : Proc → Nat) :
    Monitor Proc (Buffer ⊕ Inode) (Buffer ⊕ Inode) (OwnCall Buffer Inode) (Owned Proc)
      (OwnStage Buffer Inode) where
  start _ here call :=
    match here, call with
    | .idle, .acquiresleep lk => some (lk, .acquire)
    | .idle, .releasesleep lk => some (lk, .release)
    | .idle, .checked call => some (call.lock, .check call)
    -- `brelse` and `iunlock` go on.
    | .passed lk, .releasesleep other => if other = lk then some (lk, .release) else none
    | _, _ => none
  body p _ lk here data :=
    match here with
    | .acquire =>
        if data.lock.locked = true then (data, .sleep lk here)
        else ({ lock := { locked := true, pid := pid p }, holder := some p }, .release .idle)
    | .release => ({ lock := { locked := false, pid := 0 }, holder := none }, .wakeup lk .wokeup)
    | .wokeup => (data, .release .idle)
    | .check call => (data, .release (call.tested data.lock.locked))
    | _ => (data, .release here)

/-- A lock is locked while it has a holder, and has its pid. -/
structure Owned.Consistent (pid : Proc → Nat) (data : Owned Proc) : Prop where
  locked : data.lock.locked = data.holder.isSome
  pid : ∀ p, data.holder = some p → data.lock.pid = pid p

theorem owned_body_consistent {pid : Proc → Nat} {p : Proc} {killed : Bool} {lk : Buffer ⊕ Inode}
    {here : OwnStage Buffer Inode} {data : Owned Proc} (consistent : data.Consistent pid) :
    ((owned pid).body p killed lk here data).1.Consistent pid := by
  cases here with
  | acquire =>
      simp only [owned]
      split
      · exact consistent
      · exact ⟨rfl, fun q same => by cases same; rfl⟩
  | release => exact ⟨rfl, nofun⟩
  | _ => exact consistent

/-- The test panics for a process that does not hold the lock, which stays as it is, and lets the
holder go on. -/
structure Guarded (pid : Proc → Nat) (data : Buffer ⊕ Inode → Owned Proc) (p : Proc)
    (call : CheckedCall Buffer Inode) : Prop where
  panics : (data call.lock).holder ≠ some p → ∀ killed,
    (owned pid).body p killed call.lock (.check call) (data call.lock) =
      (data call.lock, .release (.panicked call.message))
  passes : (data call.lock).holder = some p → ∀ killed,
    (owned pid).body p killed call.lock (.check call) (data call.lock) =
      (data call.lock, .release call.behind)

omit [DecidableEq Buffer] [DecidableEq Inode] in
theorem CheckedCall.behind_ne (call : CheckedCall Buffer Inode) :
    call.behind ≠ .panicked call.message := by
  cases call <;> exact nofun

theorem guarded_iff {pid : Proc → Nat} {data : Buffer ⊕ Inode → Owned Proc} {p : Proc}
    {call : CheckedCall Buffer Inode} (consistent : (data call.lock).Consistent pid)
    (referenced : call.Referenced) :
    Guarded pid data p call ↔
      (data call.lock).holder = none ∨ (data call.lock).holder = some p := by
  have reads (killed : Bool) : (owned pid).body p killed call.lock (.check call) (data call.lock) =
      (data call.lock, .release (call.tested (data call.lock).holder.isSome)) := by
    rw [← consistent.locked]
    rfl
  constructor
  · rintro ⟨panics, -⟩
    by_contra other
    obtain ⟨notFree, notMine⟩ := not_or.mp other
    have held : (data call.lock).holder.isSome = true := Option.isSome_iff_ne_none.mpr notFree
    have stops := (reads false).symm.trans (panics notMine false)
    rw [held, CheckedCall.tested, if_neg (by simp [referenced])] at stops
    exact call.behind_ne (Move.release.inj (Prod.mk.inj stops).2)
  · rintro (free | mine)
    · refine ⟨fun _ killed => ?_, fun mine => absurd (free.symm.trans mine) nofun⟩
      rw [reads, free, CheckedCall.tested, if_pos (.inl rfl)]
    · refine ⟨fun other => absurd mine other, fun _ killed => ?_⟩
      rw [reads, mine, CheckedCall.tested, if_neg (by simp [referenced])]

variable [DecidableEq Proc] [DecidableEq Cpu]

/-- No lock is held, and no process is in a call. -/
def bootOwned : State Proc Cpu (Buffer ⊕ Inode) (Buffer ⊕ Inode) (Owned Proc)
    (OwnStage Buffer Inode) :=
  boot (fun _ => { lock := initsleeplock, holder := none }) fun _ => .idle

theorem consistent_run {pid : Proc → Nat} {events : List (Event Proc Cpu (OwnCall Buffer Inode))}
    {state : State Proc Cpu (Buffer ⊕ Inode) (Buffer ⊕ Inode) (Owned Proc) (OwnStage Buffer Inode)}
    (ran : runs (owned pid).step bootOwned events = some state) :
    ∀ lk, (state.data lk).Consistent pid := by
  refine atomic_run (fun data _ => ∀ lk, (data lk).Consistent pid) ?_ ?_ ?_ ran
  · exact fun lk => ⟨rfl, nofun⟩
  · intro data places p here call lock after outside starts consistent
    exact consistent
  · intro data places p killed lock here within consistent lk
    by_cases same : lk = lock
    · subst same
      rw [Function.update_self]
      exact owned_body_consistent (consistent lk)
    · rw [Function.update_of_ne same]
      exact consistent lk

/-- In every state that a run reaches, the test of a call works exactly for a process that has no
other as the holder of the lock. -/
theorem guarded_run_iff (pid : Proc → Nat) (events : List (Event Proc Cpu (OwnCall Buffer Inode)))
    (state : State Proc Cpu (Buffer ⊕ Inode) (Buffer ⊕ Inode) (Owned Proc) (OwnStage Buffer Inode))
    (ran : runs (owned pid).step bootOwned events = some state) (p : Proc)
    (call : CheckedCall Buffer Inode) (referenced : call.Referenced) :
    Guarded pid state.data p call ↔
      (state.data call.lock).holder = none ∨ (state.data call.lock).holder = some p :=
  guarded_iff (consistent_run ran call.lock) referenced

/-- Process `false` locks the buffer. -/
def locksBuffer : List (Event Bool Bool (OwnCall Unit Unit)) :=
  [.schedule false, .switch false false, .advance false,
    .schedule true, .switch true true, .advance true,
    .call false (.acquiresleep (.inl ())), .advance false, .advance false]

/-- Process `true` releases it. -/
def releasesOther : List (Event Bool Bool (OwnCall Unit Unit)) :=
  [.call true (.checked (.brelse ())), .advance true, .advance true,
    .call true (.releasesleep (.inl ())), .advance true, .advance true]

abbrev TwoProcesses := State Bool Bool (Unit ⊕ Unit) (Unit ⊕ Unit) (Owned Bool) (OwnStage Unit Unit)

def twoPids (p : Bool) : Nat := if p = true then 2 else 1

/-- `brelse` of a process that does not hold the buffer goes on, and the lock is free. -/
theorem brelse_of_other :
    ∃ state later : TwoProcesses,
      runs (owned twoPids).step bootOwned locksBuffer = some state ∧
      (state.data (.inl ())).holder = some false ∧
      ¬Guarded twoPids state.data true (.brelse ()) ∧
      runs (owned twoPids).step state releasesOther = some later ∧
      (later.data (.inl ())).holder = none := by
  have facts : (runs (owned twoPids).step (bootOwned : TwoProcesses) locksBuffer).bind (fun state =>
      (runs (owned twoPids).step state releasesOther).map fun later =>
        ((state.data (.inl ())).holder, (later.data (.inl ())).holder)) =
      some (some false, none) := by
    decide +kernel
  obtain ⟨state, ran, rest⟩ := Option.bind_eq_some_iff.mp facts
  obtain ⟨later, went, holders⟩ := Option.map_eq_some_iff.mp rest
  obtain ⟨held, free⟩ := Prod.mk.inj holders
  refine ⟨state, later, ran, held, fun guarded => ?_, went, free⟩
  have referenced : (CheckedCall.brelse () : CheckedCall Unit Unit).Referenced := trivial
  have works := (guarded_iff (consistent_run ran _) referenced).mp guarded
  rw [CheckedCall.lock, held] at works
  exact absurd works (by simp)

/-- The holder may release it. -/
theorem guarded_run_iff_holder :
    ∃ state : TwoProcesses, runs (owned twoPids).step bootOwned locksBuffer = some state ∧
      (Guarded twoPids state.data false (.brelse ()) ↔
        (state.data (.inl ())).holder = none ∨ (state.data (.inl ())).holder = some false) := by
  have facts : (runs (owned twoPids).step (bootOwned : TwoProcesses) locksBuffer).isSome =
      true := by
    decide +kernel
  obtain ⟨state, ran⟩ := Option.isSome_iff_exists.mp facts
  exact ⟨state, ran, guarded_run_iff twoPids locksBuffer state ran false (.brelse ()) trivial⟩

end Xv6.Proc
