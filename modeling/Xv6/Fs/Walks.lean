import Xv6.Fs.Holding

/-!
# Paths in the volume

A call looks a name up in a directory that it has locked, and walks along a path.
It ends with a reference to the node where the path leads in the volume, and with
nothing else that it did not have before.
-/

namespace Xv6.Path

open Xv6.Library Xv6.Fs

/-- Entry `j` of directory `d` is the name `name` for node `i`. -/
def EntryAt (fs : FileSystem) (d j : Nat) (name : List UInt8) (i : Nat) : Prop :=
  ∃ array, Directory fs d array ∧ entries array j = some (name, i)

/-- The inode where the walk along a path begins. -/
def Others.start (others : Others) (path : List UInt8) : Nat :=
  if path.head? = some slash then rootino else others.number others.cwd

/-- The walk begins at a node with names. -/
structure Others.Begins (others : Others) (volume : Volume) (path : List UInt8) : Prop where
  live : scheme.Live volume.naming (others.start path)
  home : path.head? ≠ some slash → 0 < others.refs others.cwd

/-- The call has found node `target`, if there is one, and refers to it beside `mine`. -/
def Found (others : Others) (volume : Volume) (mine : List Hold) (next : Kernel)
    (target : Option Nat) : Option InodePtr → Prop
  | none => target = none ∧ Holding others volume mine next
  | some ip => ∃ i, target = some i ∧ Holding others volume (⟨ip, i, false⟩ :: mine) next

namespace Holding

variable {others : Others} {volume : Volume} {mine rest : List Hold} {k next : Kernel}
  {ip dp : InodePtr} {i d : Nat} {consoleread : Int → Int × List UInt8}

/-- A reference to a node with names is taken. -/
theorem iget (holding : Holding others volume mine k) (live : scheme.Live volume.naming i) :
    (onInodes (Fs.iget i) k).Ends OutOfSpace fun ip next =>
      Holding others volume (⟨ip, i, false⟩ :: mine) next := by
  rw [onInodes, Action.ends_focus]
  refine (holding.shows.iget live).mono ?_
  rintro ip fs ⟨shows, took⟩
  exact holding.took shows took

theorem dirlookup (holding : Holding others volume (⟨dp, d, true⟩ :: rest) k)
    (closed : scheme.Closed volume.naming) (directory : scheme.IsDirectory volume.naming d)
    (name : Memory) :
    (onInodes (Fs.dirlookup consoleread dp name) k).Ends OutOfSpace fun found next =>
      (found = none ∧ volume.naming.entry d (nameOf name) = none ∧ next = k) ∨
      ∃ ip i j, found = some (ip, offsetOf j) ∧ volume.naming.entry d (nameOf name) = some i ∧
        EntryAt next.fs.toFileSystem d j (nameOf name) i ∧
        Holding others volume (⟨ip, i, false⟩ :: ⟨dp, d, true⟩ :: rest) next := by
  obtain ⟨array, shelf⟩ :=
    holding.shows.shelf (holding.live List.mem_cons_self rfl) directory.1
  have opened := shelf.opened
  rw [onInodes, Action.ends_focus, opened.dirlookup, ← shelf.bound]
  obtain ⟨j, i, found, bound⟩ | ⟨missing, -, none⟩ :=
    opened.directory.find_cases (nameOf name)
  · have entry := (SlotTable.find_some found).2
    have inside := opened.directory.numbers j _ i entry
    rw [shelf.bound] at bound
    have live := closed.closed directory bound
    rw [found, Fs.found, Action.ends_bind]
    refine ((iget_ends i k.fs).and (holding.shows.iget live)).imp
      (fun message full => Or.inl full.1) ?_
    rintro ip fs ⟨got, shows, took⟩
    refine Or.inr ⟨ip, i, j, rfl, shelf.bound ▸ bound, ⟨array, ?_, entry⟩, holding.took shows took⟩
    exact (opened.iget inside got).1.directory
  · rw [missing]
    exact Or.inl ⟨rfl, none, rfl⟩

/-! ## The walk -/

theorem namexFrom (holding : Holding others volume (⟨ip, i, false⟩ :: rest) k)
    (closed : scheme.Closed volume.naming) (live : scheme.Live volume.naming i)
    (unlocked : ∀ hold ∈ rest, hold.locked = false) {path : List UInt8} {fuel : Nat}
    (string : 0 ∉ path) (fueled : path.length < fuel) (name : Memory) (parent : Bool) :
    (Path.namexFrom consoleread parent fuel path name ip k).Ends OutOfSpace fun result next =>
      Found others volume rest next (scheme.leads volume.naming parent i (elements path))
        result.1 ∧
      (parent = true → result.1 ≠ none → (elements path).getLast? = some (nameOf result.2)) := by
  have apart := apart_of_unlocked unlocked
  induction fuel generalizing path name ip i k with
  | zero => exact absurd fueled (Nat.not_lt_zero _)
  | succ fuel inductionHypothesis =>
      rw [Path.namexFrom]
      cases element : skipelem path name with
      | none =>
          have ended : elements path = [] := by
            rw [elements, (skipelem_none_iff path name).mp element, List.map_nil]
          dsimp only
          rw [ended, Scheme.leads_nil]
          by_cases stop : parent = true
          · obtain ⟨next, dropped, given⟩ := holding.iput_named (apart i) live.2
            rw [if_pos stop, if_pos stop, Action.bind_done dropped]
            exact ⟨⟨rfl, given⟩, fun _ some => absurd rfl some⟩
          · rw [if_neg stop, if_neg stop]
            exact ⟨⟨i, rfl, holding⟩, fun parent => absurd parent stop⟩
      | some next =>
          obtain ⟨more, copied⟩ := next
          obtain ⟨split, ended, shorter, strings⟩ := skipelem_some string element
          obtain ⟨locking, done, holds, -⟩ := holding.ilock (apart i)
          dsimp only
          rw [split, Scheme.leads_cons, Action.bind_done done, Action.get_bind,
            holds.head_type, scheme_directory]
          by_cases isDirectory : volume.naming.kind i = tDir
          · have directory : scheme.IsDirectory volume.naming i := ⟨isDirectory, live.2⟩
            rw [if_neg (not_not.mpr isDirectory), if_neg (not_not.mpr isDirectory)]
            by_cases stop : parent = true ∧ more = []
            · have last : elements more = [] := ended.mp stop.2
              obtain ⟨unlocked, holds⟩ := holds.iunlock (apart i)
              rw [if_pos stop, if_pos ⟨stop.1, last⟩, Action.bind_done unlocked, last]
              exact ⟨⟨i, rfl, holds⟩, fun _ _ => rfl⟩
            · have further : ¬(parent = true ∧ elements more = []) := fun both =>
                stop ⟨both.1, ended.mpr both.2⟩
              have child : scheme.child volume.naming i (nameOf copied) =
                  volume.naming.entry i (nameOf copied) := if_pos isDirectory
              rw [if_neg stop, if_neg further, Action.ends_bind, child]
              refine (holds.dirlookup closed directory copied).mono ?_
              rintro found next (⟨rfl, missing, rfl⟩ | ⟨entry, j, slot, rfl, bound, -, both⟩)
              · obtain ⟨later, dropped, given⟩ := holds.iunlockput_named (apart i) live.2
                rw [missing]
                dsimp only
                rw [Action.bind_done dropped]
                exact ⟨⟨rfl, given⟩, fun _ some => absurd rfl some⟩
              · obtain ⟨later, dropped, given⟩ :=
                  both.swap.iunlockput_named (apart_cons (apart i)) live.2
                have walked := inductionHypothesis given (closed.closed directory bound) strings
                  (Nat.lt_of_lt_of_le shorter (Nat.le_of_lt_succ fueled)) copied
                rw [bound]
                dsimp only
                rw [Action.bind_done dropped]
                refine walked.mono ?_
                rintro result finish ⟨returned, last⟩
                refine ⟨returned, fun parent some => ?_⟩
                rw [List.getLast?_cons, last parent some]
                rfl
          · obtain ⟨later, dropped, given⟩ := holds.iunlockput_named (apart i) live.2
            rw [if_pos isDirectory, if_pos isDirectory, Action.bind_done dropped]
            exact ⟨⟨rfl, given⟩, fun _ some => absurd rfl some⟩

theorem origin (holding : Holding others volume rest k) {path : List UInt8}
    (begins : others.Begins volume path) :
    (Path.origin path k).Ends OutOfSpace fun ip next =>
      Holding others volume (⟨ip, others.start path, false⟩ :: rest) next := by
  have live := begins.live
  rw [Path.origin]
  rw [Others.start] at live ⊢
  by_cases absolute : path.head? = some slash
  · rw [if_pos absolute] at live ⊢
    rw [if_pos absolute]
    exact holding.iget live
  · rw [if_neg absolute, if_neg absolute, Action.get_bind, holding.cwd]
    have referenced : 0 < (k.fs.inode others.cwd).ref := by
      rw [holding.refs]
      have home := begins.home absolute
      omega
    obtain ⟨fs, done, shows, took⟩ := holding.shows.idup referenced
    rw [holding.outside _ (begins.home absolute)] at took
    rw [onInodes_done done]
    exact holding.took shows took

section Namex

variable (holding : Holding others volume rest k) (closed : scheme.Closed volume.naming)
  (unlocked : ∀ hold ∈ rest, hold.locked = false) {path : List UInt8} (string : 0 ∉ path)
  (begins : others.Begins volume path)
include holding closed unlocked string begins

theorem namex (parent : Bool) (name : Memory) :
    (Path.namex consoleread path parent name k).Ends OutOfSpace fun result next =>
      Found others volume rest next
        (scheme.leads volume.naming parent (others.start path) (elements path)) result.1 ∧
      (parent = true → result.1 ≠ none → (elements path).getLast? = some (nameOf result.2)) := by
  rw [Path.namex, Action.ends_bind]
  refine (holding.origin begins).mono fun ip next holds => ?_
  exact holds.namexFrom closed begins.live unlocked string (Nat.lt_succ_self _) name parent

/-- `namei` takes a reference to the node where the path leads. -/
theorem namei : (Path.namei consoleread path k).Ends OutOfSpace fun result next =>
    Found others volume rest next
      (scheme.walk volume.naming (others.start path) (elements path)) result := by
  rw [Path.namei, Action.ends_bind]
  refine (holding.namex closed unlocked string begins false _).mono fun result next found => ?_
  exact found.1

/-- `nameiparent` takes one to the directory before the last name. -/
theorem nameiparent (name : Memory) :
    (Path.nameiparent consoleread path name k).Ends OutOfSpace fun result next =>
      (result.1 = none ∧
        scheme.walkParent volume.naming (others.start path) (elements path) = none ∧
        Holding others volume rest next) ∨
      ∃ dp d, result.1 = some dp ∧ scheme.IsDirectory volume.naming d ∧
        scheme.walkParent volume.naming (others.start path) (elements path) =
          some (d, nameOf result.2) ∧
        Holding others volume (⟨dp, d, false⟩ :: rest) next := by
  rw [Path.nameiparent]
  refine (holding.namex closed unlocked string begins true name).mono ?_
  rintro ⟨result, name⟩ next ⟨found, last⟩
  rw [Scheme.leads, if_pos rfl] at found
  cases result with
  | none =>
      obtain ⟨missing, holds⟩ := found
      exact Or.inl ⟨rfl, Option.map_eq_none_iff.mp missing, holds⟩
  | some dp =>
      obtain ⟨d, leads, holds⟩ := found
      obtain ⟨⟨d', label⟩, walked, rfl⟩ := Option.map_eq_some_iff.mp leads
      have listed := Scheme.walkParent_last walked
      rw [last rfl (Option.some_ne_none dp)] at listed
      cases listed
      exact Or.inr ⟨dp, d', rfl, Scheme.walkParent_directory closed begins.live walked, walked, holds⟩

end Namex

end Holding

end Xv6.Path
