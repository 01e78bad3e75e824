import Xv6.Fs.LinkNode
import Xv6.Proc.SysOpen

/-!
# Open files and current directories

What `sys_open` and `sys_chdir` do with inodes. A file or a process keeps the
reference that the path has led to.
-/

namespace Xv6.Path

open Xv6.Library Xv6.Fs
open Xv6.Opening (oCreate oRdonly)

section Functions

variable (consoleread : Int → Int × List UInt8)

/-- The inode that `sys_open` opens, locked. -/
def openPath (path : List UInt8) (omode : UInt32) : Action Kernel (Option InodePtr) :=
  if omode &&& oCreate ≠ 0 then create consoleread path tFile 0 0
  else do
    match ← namei consoleread path with
    | none => return none
    | some ip =>
        ilock ip
        let inode ← Action.get fun k : Kernel => k.fs.inode ip
        if inode.type = tDir ∧ omode ≠ oRdonly then
          iunlockput ip
          return none
        else return some ip

/-- The inodes of `sys_open`; `room` says that there are a file and a descriptor. -/
def openNode (path : List UInt8) (omode : UInt32) (room : Bool) :
    Action Kernel (Option InodePtr) := do
  match ← openPath consoleread path omode with
  | none => return none
  | some ip =>
      if room = true then
        iunlock ip
        return some ip
      else
        iunlockput ip
        return none

def sysChdir (path : List UInt8) : Action Kernel Int := do
  match ← namei consoleread path with
  | none => return -1
  | some ip =>
      ilock ip
      let inode ← Action.get fun k : Kernel => k.fs.inode ip
      if inode.type ≠ tDir then
        iunlockput ip
        return -1
      else
        iunlock ip
        let k ← Action.get fun k : Kernel => k
        iput k.cwd
        Action.modify fun k => { k with cwd := ip }
        return 0

end Functions

/-- The node that open finds, or makes. -/
inductive Opens (volume : Volume) (i : Nat) (names : List (List UInt8)) (omode : UInt32) :
    Option Nat → Volume → Prop where
  | create {target : Option Nat} {after : Volume} (flag : omode &&& oCreate ≠ 0)
      (creates : Creates volume i names tFile target after) : Opens volume i names omode target after
  | missing (flag : ¬omode &&& oCreate ≠ 0) (nothing : scheme.walk volume.naming i names = none) :
      Opens volume i names omode none volume
  | directory {target : Nat} (flag : ¬omode &&& oCreate ≠ 0)
      (leads : scheme.walk volume.naming i names = some target)
      (refused : volume.naming.kind target = tDir ∧ omode ≠ oRdonly) :
      Opens volume i names omode none volume
  | found {target : Nat} (flag : ¬omode &&& oCreate ≠ 0)
      (leads : scheme.walk volume.naming i names = some target)
      (allowed : ¬(volume.naming.kind target = tDir ∧ omode ≠ oRdonly)) :
      Opens volume i names omode (some target) volume

theorem Creates.live {volume after : Volume} {i j type : Nat} {names : List (List UInt8)}
    (creates : Creates volume i names type (some j) after)
    (closed : scheme.Closed volume.naming) (live : scheme.Live volume.naming i) :
    after.naming.links j ≠ 0 := by
  cases creates with
  | file parent bound =>
      exact (closed.closed (Scheme.walkParent_directory closed live parent) bound).2
  | @made d _ name parent unbound free =>
      have different : d ≠ j := by
        rintro rfl
        exact (Scheme.walkParent_directory closed live parent).live.1 free
      rw [Volume.create_links different]
      exact Nat.one_ne_zero

namespace Opens

variable {volume after : Volume} {i : Nat} {names : List (List UInt8)} {omode : UInt32}
  {target : Option Nat} (opens : Opens volume i names omode target after)
include opens

theorem consistent (consistent : scheme.Consistent volume.naming)
    (live : scheme.Live volume.naming i) : scheme.Consistent after.naming := by
  cases opens with
  | create _ creates => exact creates.consistent consistent live (by decide)
  | missing => exact consistent
  | directory => exact consistent
  | found => exact consistent

theorem live {j : Nat} (found : target = some j) (closed : scheme.Closed volume.naming)
    (live : scheme.Live volume.naming i) : after.naming.links j ≠ 0 := by
  cases opens with
  | create _ creates =>
      subst found
      exact creates.live closed live
  | missing => cases found
  | directory => cases found
  | found _ leads =>
      cases found
      exact (Scheme.walk_live closed live leads).2

end Opens

/-- What was at the entry `ip` is counted once less outside. -/
def Others.without (others : Others) (ip : InodePtr) : Others :=
  { others with refs := fun other => others.refs other - if ip = other then 1 else 0 }

namespace Holding

variable {others : Others} {volume : Volume} {k : Kernel} {consoleread : Int → Int × List UInt8}

section Calls

variable (holding : Holding others volume [] k) (consistent : scheme.Consistent volume.naming)
  {path : List UInt8} (string : 0 ∉ path) (begins : others.Begins volume path)
include holding consistent string begins

theorem openPath (omode : UInt32) :
    (Path.openPath consoleread path omode k).Ends OutOfSpace fun result next =>
      ∃ target after, Opens volume (others.start path) (elements path) omode target after ∧
        Locks others after next target result := by
  have closed := consistent.toClosed
  rw [Path.openPath]
  by_cases flag : omode &&& oCreate ≠ 0
  · rw [if_pos flag]
    refine (holding.create consistent string begins (by decide) (by decide) (by decide)
      (by decide)).mono ?_
    rintro result next ⟨target, after, creates, locks⟩
    exact ⟨target, after, .create flag creates, locks⟩
  · rw [if_neg flag, Action.ends_bind]
    refine (holding.namei closed unlocked_nil string begins).mono ?_
    rintro result found target
    cases result with
    | none => exact ⟨none, volume, .missing flag target.1, target.2⟩
    | some ip =>
        obtain ⟨i, leads, holds⟩ := target
        have live := Scheme.walk_live closed begins.live leads
        obtain ⟨locking, locked, holds, -⟩ := holds.ilock (nobody i)
        dsimp only
        rw [Action.bind_done locked, Action.get_bind, holds.head_type]
        by_cases refused : volume.naming.kind i = tDir ∧ omode ≠ oRdonly
        · obtain ⟨next, dropped, given⟩ := holds.iunlockput_named (nobody i) live.2
          rw [if_pos refused, Action.bind_done dropped]
          exact ⟨none, volume, .directory flag leads refused, given⟩
        · rw [if_neg refused]
          exact ⟨some i, volume, .found flag leads refused, holds⟩

/-- Open keeps a reference if there is a place for it. -/
theorem openNode (omode : UInt32) (room : Bool) :
    (Path.openNode consoleread path omode room k).Ends OutOfSpace fun result next =>
      ∃ target after, Opens volume (others.start path) (elements path) omode target after ∧
        ((result = none ∧ (target = none ∨ room = false) ∧ Holding others after [] next) ∨
          ∃ ip i, result = some ip ∧ target = some i ∧ room = true ∧
            Holding others after [⟨ip, i, false⟩] next) := by
  rw [Path.openNode, Action.ends_bind]
  refine (holding.openPath consistent string begins omode).mono ?_
  rintro result next ⟨target, after, opens, locks⟩
  refine Outcome.Ends.mono (?_ : Outcome.Ends _ (fun result next =>
    (result = none ∧ (target = none ∨ room = false) ∧ Holding others after [] next) ∨
      ∃ ip i, result = some ip ∧ target = some i ∧ room = true ∧
        Holding others after [⟨ip, i, false⟩] next) _) fun result next ends =>
    ⟨target, after, opens, ends⟩
  cases result with
  | none =>
      cases target with
      | none => exact Or.inl ⟨rfl, Or.inl rfl, locks⟩
      | some i => exact locks.elim
  | some ip =>
      cases target with
      | none => exact locks.elim
      | some i =>
          have held : Holding others after [⟨ip, i, true⟩] next := locks
          have named := opens.live rfl consistent.toClosed begins.live
          cases room with
          | true =>
              obtain ⟨unlocked, free⟩ := held.iunlock (nobody i)
              dsimp only
              rw [if_pos rfl, Action.bind_done unlocked]
              exact Or.inr ⟨ip, i, rfl, rfl, rfl, free⟩
          | false =>
              obtain ⟨last, dropped, given⟩ := held.iunlockput_named (nobody i) named
              dsimp only
              rw [if_neg (by decide), Action.bind_done dropped]
              exact Or.inl ⟨rfl, Or.inr rfl, given⟩

/-- The process leaves its directory and enters another one. -/
theorem sysChdir (home : 0 < others.refs others.cwd) :
    (Path.sysChdir consoleread path k).Ends OutOfSpace fun result next =>
      (result = -1 ∧ next.cwd = k.cwd ∧ Holding others volume [] next ∧
        ∀ i, scheme.walk volume.naming (others.start path) (elements path) = some i →
          volume.naming.kind i ≠ tDir) ∨
      result = 0 ∧ ∃ i after,
        scheme.walk volume.naming (others.start path) (elements path) = some i ∧
        volume.naming.kind i = tDir ∧ volume.Puts (others.number others.cwd) after ∧
        Holding { others.without others.cwd with cwd := next.cwd } after [⟨next.cwd, i, false⟩]
          next := by
  have closed := consistent.toClosed
  rw [Path.sysChdir, Action.ends_bind]
  refine (holding.namei closed unlocked_nil string begins).mono ?_
  rintro result found target
  cases result with
  | none =>
      obtain ⟨missing, holds⟩ := target
      refine Or.inl ⟨rfl, holds.cwd.trans holding.cwd.symm, holds, fun i leads => ?_⟩
      cases missing.symm.trans leads
  | some ip =>
      obtain ⟨i, leads, holds⟩ := target
      have live := Scheme.walk_live closed begins.live leads
      obtain ⟨locking, locked, holds, -⟩ := holds.ilock (nobody i)
      dsimp only
      rw [Action.bind_done locked, Action.get_bind, holds.head_type]
      by_cases directory : volume.naming.kind i = tDir
      · obtain ⟨unlocked, free⟩ := holds.iunlock (nobody i)
        have claimed : Holding (others.without others.cwd) volume
            [⟨others.cwd, others.number others.cwd, false⟩, ⟨ip, i, false⟩]
            { locking with held := Function.update locking.held ip false } := by
          refine free.claim (fun other => ?_) rfl rfl
          rw [Others.without]
          by_cases same : others.cwd = other
          · subst same
            simp only [if_true]
            omega
          · simp [same]
        obtain ⟨next, after, put, puts, given⟩ := claimed.iput (apart_of_unlocked unlocked_one _)
        have leaving : Path.iput locking.cwd
            { locking with held := Function.update locking.held ip false } = .done () next := by
          have same : locking.cwd = others.cwd := free.cwd
          rw [congrFun (congrArg Path.iput same) _]
          exact put
        rw [if_neg (not_not.mpr directory), Action.bind_done unlocked, Action.get_bind,
          Action.bind_done leaving, Action.modify_bind]
        refine Or.inr ⟨rfl, i, after, leads, directory, puts, ?_⟩
        exact ⟨given.shows, given.refs, given.outside, given.number, given.locked, given.held, rfl⟩
      · obtain ⟨next, dropped, given⟩ := holds.iunlockput_named (nobody i) live.2
        rw [if_pos directory, Action.bind_done dropped]
        refine Or.inl ⟨rfl, given.cwd.trans holding.cwd.symm, given, fun j other => ?_⟩
        cases leads.symm.trans other
        exact directory

end Calls

end Holding

end Xv6.Path
