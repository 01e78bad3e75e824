import Xv6.Fs.Unlink

/-!
# Making a node

`create` in `sysfile.c` makes a file, a device or a directory, and `sys_mkdir` and
`sys_mknod` give the new node back at once.
-/

namespace Xv6.Path

open Xv6.Library Xv6.Fs

section Functions

variable (consoleread : Int → Int × List UInt8)

/-- The statements of `sys_mkdir` and `sys_mknod`, with the arguments fetched. -/
def makeNode (path : List UInt8) (type major minor : Nat) : Action Kernel Int := do
  match ← create consoleread path type major minor with
  | none => return -1
  | some ip =>
      iunlockput ip
      return 0

def sysMkdir (path : List UInt8) : Action Kernel Int := makeNode consoleread path tDir 0 0

/-- `create` takes two shorts. -/
def sysMknod (path : List UInt8) (major minor : UInt32) : Action Kernel Int :=
  makeNode consoleread path tDev (major.toNat % 2 ^ 16) (minor.toNat % 2 ^ 16)

end Functions

/-! ## The volume with the node -/

/-- Node `i` is new, with one name to come; a directory has its first two entries. -/
def Volume.prepare (volume : Volume) (d i type : Nat) : Volume :=
  let fresh := (volume.allocate i type).setLinks i 1
  if type = tDir then
    ((fresh.setLinks d (volume.naming.links d + 1)).setEntry i (nameOf dot) (some i)).setEntry i
      (nameOf dotdot) (some d)
  else fresh

/-- Directory `d` gets the name `name` for the new node `i`. -/
def Volume.create (volume : Volume) (d : Nat) (name : List UInt8) (i type : Nat) : Volume :=
  (volume.prepare d i type).setEntry d name (some i)

theorem Volume.create_consistent {volume : Volume} {d i type : Nat} {name : List UInt8}
    (consistent : scheme.Consistent volume.naming) (inside : scheme.IsDirectory volume.naming d)
    (unbound : volume.naming.entry d name = none) (free : volume.naming.kind i = 0)
    (nonzero : type ≠ 0) : scheme.Consistent (volume.create d name i type).naming := by
  by_cases isDirectory : type = tDir
  · subst isDirectory
    exact (Scheme.AddsDirectory.new inside unbound free).keeps consistent
  · have naming : (volume.create d name i type).naming =
        ((volume.naming.allocate i type).setLinks i 1).setEntry d name (some i) := by
      rw [Volume.create, Volume.prepare, if_neg isDirectory]
      rfl
    rw [naming]
    exact (Scheme.Adds.leaf_new inside unbound free isDirectory nonzero).keeps consistent

section Prepare

variable {volume : Volume} {d i type : Nat} (different : d ≠ i)
include different

theorem Volume.prepare_kind : (volume.prepare d i type).naming.kind d = volume.naming.kind d := by
  rw [Volume.prepare]
  split <;> simp [Volume.allocate, Volume.setLinks, Volume.setEntry, different]

theorem Volume.prepare_links (named : volume.naming.links d ≠ 0) :
    (volume.prepare d i type).naming.links d ≠ 0 := by
  rw [Volume.prepare]
  split
  · simp [Volume.setLinks, Volume.setEntry]
  · simpa [Volume.allocate, Volume.setLinks, different] using named

theorem Volume.prepare_entry : (volume.prepare d i type).naming.entry d = volume.naming.entry d := by
  rw [Volume.prepare]
  split <;> funext label <;>
    simp [Volume.allocate, Volume.setLinks, Volume.setEntry, Naming.setEntry, Naming.allocate,
      different]

end Prepare

theorem Volume.create_links {volume : Volume} {d i type : Nat} {name : List UInt8}
    (different : d ≠ i) : (volume.create d name i type).naming.links i = 1 := by
  rw [Volume.create, Volume.prepare]
  split <;> simp [Volume.allocate, Volume.setLinks, Volume.setEntry, different.symm]

/-- What `create` does: nothing, or it finds a file, or it makes the node. -/
inductive Creates (volume : Volume) (i : Nat) (names : List (List UInt8)) (type : Nat) :
    Option Nat → Volume → Prop where
  | noParent (missing : scheme.walkParent volume.naming i names = none) :
      Creates volume i names type none volume
  | taken {d target : Nat} {name : List UInt8}
      (parent : scheme.walkParent volume.naming i names = some (d, name))
      (bound : volume.naming.entry d name = some target)
      (other : ¬(type = tFile ∧ volume.naming.kind target = tFile)) :
      Creates volume i names type none volume
  | file {d target : Nat} {name : List UInt8}
      (parent : scheme.walkParent volume.naming i names = some (d, name))
      (bound : volume.naming.entry d name = some target)
      (plain : type = tFile ∧ volume.naming.kind target = tFile) :
      Creates volume i names type (some target) volume
  | made {d target : Nat} {name : List UInt8}
      (parent : scheme.walkParent volume.naming i names = some (d, name))
      (unbound : volume.naming.entry d name = none) (free : volume.naming.kind target = 0) :
      Creates volume i names type (some target) (volume.create d name target type)

/-- The call has the lock of the node that it has found. -/
def Locks (others : Others) (volume : Volume) (next : Kernel) : Option Nat → Option InodePtr → Prop
  | none, none => Holding others volume [] next
  | some i, some ip => Holding others volume [⟨ip, i, true⟩] next
  | _, _ => False

/-- What the call gives back was free, or nothing. -/
theorem Creates.consistent {volume after : Volume} {i type : Nat} {names : List (List UInt8)}
    {target : Option Nat} (creates : Creates volume i names type target after)
    (consistent : scheme.Consistent volume.naming) (live : scheme.Live volume.naming i)
    (nonzero : type ≠ 0) : scheme.Consistent after.naming := by
  cases creates with
  | noParent => exact consistent
  | taken => exact consistent
  | file => exact consistent
  | made parent unbound free =>
      have inside := Scheme.walkParent_directory consistent.toClosed live parent
      exact Volume.create_consistent consistent inside unbound free nonzero

namespace Holding

variable {others : Others} {volume after : Volume} {rest : List Hold} {k : Kernel}
  {ip dp : InodePtr} {i d type major minor : Nat} {name : Memory}
  {consoleread : Int → Int × List UInt8}

/-- The first two entries of a new directory. -/
theorem createDots (holding : Holding others volume [⟨dp, d, true⟩, ⟨ip, i, true⟩] k)
    (fits : volume.naming.links d + 1 < 256 ^ 2) (directory : volume.naming.kind i = tDir)
    (empty : ∀ label, volume.naming.entry i label = none) :
    (Path.createDots consoleread dp ip k).Ends OutOfSpace fun _ next =>
      Holding others (((volume.setLinks d (volume.naming.links d + 1)).setEntry i (nameOf dot)
        (some i)).setEntry i (nameOf dotdot) (some d)) [⟨dp, d, true⟩, ⟨ip, i, true⟩] next := by
  obtain ⟨counted, done, holds, -⟩ := holding.addLink fits
  rw [Path.createDots, Action.bind_done done, Action.get_bind, Action.ends_bind]
  have opened := holds.swap
  have inside := opened.inside List.mem_cons_self
  have above := holds.inside List.mem_cons_self
  rw [opened.head, holds.head]
  refine (opened.dirlink directory (empty _) inside.1 inside.2
    (Or.inr (Or.inl ⟨rfl, empty⟩))).mono ?_
  rintro first middle ⟨rfl, single⟩
  have bound : ∀ label, (volume.setEntry i (nameOf dot) (some i)).naming.entry i label =
      Function.update (fun _ => none) (nameOf dot) (some i) label := by
    intro label
    rw [← funext empty]
    exact congrFun (Function.update_self ..) label
  rw [if_neg (by decide), Action.ends_bind]
  refine (single.dirlink directory ?_ above.1 ?_ (Or.inr (Or.inr ⟨rfl, i, funext bound⟩))).mono ?_
  · exact (bound _).trans (Function.update_of_ne dot_other.symm ..)
  · exact (single.swap.inside List.mem_cons_self).2
  · rintro second next ⟨rfl, both⟩
    rw [if_neg (by decide)]
    exact both.swap

/-- The new node has its entries if it is a directory. -/
theorem prepares (different : d ≠ i) (fits : volume.naming.links d + 1 < 256 ^ 2)
    (fresh : Holding others ((volume.allocate i type).setLinks i 1)
      [⟨ip, i, true⟩, ⟨dp, d, true⟩] k) :
    (Action.ifThen (type = tDir) (Path.createDots consoleread dp ip) k).Ends OutOfSpace
      fun _ next =>
        Holding others (volume.prepare d i type) [⟨dp, d, true⟩, ⟨ip, i, true⟩] next := by
  by_cases isDirectory : type = tDir
  · have links : ((volume.allocate i type).setLinks i 1).naming.links d =
        volume.naming.links d := by
      simp [Volume.allocate, Volume.setLinks, different]
    rw [Action.ifThen, if_pos isDirectory]
    refine (fresh.swap.createDots (links ▸ fits) ?_ ?_).mono ?_
    · simp [Volume.allocate, Volume.setLinks, isDirectory]
    · exact congrFun (volume.naming.allocate_entry_self i type)
    · intro _ next dots
      rw [links] at dots
      rw [Volume.prepare, if_pos isDirectory]
      exact dots
  · rw [Action.ifThen, if_neg isDirectory, Volume.prepare, if_neg isDirectory]
    exact fresh.swap

/-- `create` makes a node that was free. -/
theorem createNew (holding : Holding others volume [⟨dp, d, true⟩] k)
    (consistent : scheme.Consistent volume.naming) (directory : scheme.IsDirectory volume.naming d)
    (unbound : volume.naming.entry d (nameOf name) = none) (typeFits : type < 256 ^ 2)
    (nonzero : type ≠ 0) (majorFits : major < 256 ^ 2) (minorFits : minor < 256 ^ 2) :
    (Path.createNew consoleread dp name type major minor k).Ends OutOfSpace fun result next =>
      ∃ ip i, result = some ip ∧ volume.naming.kind i = 0 ∧
        Holding others (volume.create d (nameOf name) i type) [⟨ip, i, true⟩] next := by
  have links := holding.shows.links_lt consistent directory.live
  rw [Path.createNew, Action.ends_bind]
  refine (holding.ialloc typeFits nonzero).mono ?_
  rintro ip middle ⟨i, locking, locked, free, holds⟩
  have different : d ≠ i := by
    rintro rfl
    exact directory.live.1 free
  obtain ⟨counted, written, fresh, -⟩ := @Holding.setFields _ _ _ _ _ _ holds
    (fun inode => { inode with major := major, minor := minor, nlink := 1 }) rfl majorFits
    minorFits 1 rfl (by decide)
  rw [Action.bind_done locked, Action.bind_done written, Action.ends_bind]
  refine (prepares different (by omega) fresh).mono fun _ ready holds => ?_
  have inside := holds.swap.inside List.mem_cons_self
  have plain := consistent.plain directory unbound
  have kind := (@Volume.prepare_kind volume d i type different).trans directory.1
  have entry := @Volume.prepare_entry volume d i type different
  rw [Action.get_bind, Action.ends_bind, holds.swap.head]
  refine (holds.dirlink kind (entry ▸ unbound) inside.1 inside.2 (Or.inl plain)).mono ?_
  rintro linked last ⟨rfl, named⟩
  obtain ⟨next, dropped, given⟩ :=
    named.iunlockput_named (apart_one different.symm) (Volume.prepare_links different directory.2)
  rw [if_neg (by decide), Action.bind_done dropped]
  exact ⟨ip, i, rfl, free, given⟩

theorem create (holding : Holding others volume [] k)
    (consistent : scheme.Consistent volume.naming) {path : List UInt8} (string : 0 ∉ path)
    (begins : others.Begins volume path) (typeFits : type < 256 ^ 2) (nonzero : type ≠ 0)
    (majorFits : major < 256 ^ 2) (minorFits : minor < 256 ^ 2) :
    (Path.create consoleread path type major minor k).Ends OutOfSpace fun result next =>
      ∃ target after, Creates volume (others.start path) (elements path) type target after ∧
        Locks others after next target result := by
  have closed := consistent.toClosed
  rw [Path.create, Action.ends_bind]
  refine (holding.nameiparent closed unlocked_nil string begins _).mono ?_
  rintro ⟨parent, name⟩ found (⟨rfl, missing, holds⟩ | ⟨dp, d, rfl, inside, walked, holds⟩)
  · exact ⟨Option.none, volume, .noParent missing, holds⟩
  obtain ⟨locking, locked, holds, -⟩ := holds.ilock (nobody d)
  dsimp only
  rw [Action.bind_done locked, Action.ends_bind]
  refine (holds.dirlookup closed inside name).mono ?_
  rintro entry looked (⟨rfl, unbound, rfl⟩ | ⟨ip, i, j, rfl, bound, -, both⟩)
  · refine (holds.createNew consistent inside unbound typeFits nonzero majorFits minorFits).mono ?_
    rintro result next ⟨ip, i, rfl, free, made⟩
    exact ⟨some i, _, .made walked unbound free, made⟩
  · have live := closed.closed inside bound
    obtain ⟨later, dropped, left⟩ :=
      both.swap.iunlockput_named (apart_of_unlocked unlocked_one d) inside.2
    obtain ⟨opening, locked, opened, -⟩ := left.ilock (nobody i)
    dsimp only
    rw [Action.bind_done dropped, Action.bind_done locked, Action.get_bind, opened.head_type]
    by_cases plain : type = tFile ∧ volume.naming.kind i = tFile
    · rw [if_pos plain]
      exact ⟨some i, volume, .file walked bound plain, opened⟩
    · obtain ⟨next, dropped, given⟩ := opened.iunlockput_named (nobody i) live.2
      rw [if_neg plain, Action.bind_done dropped]
      exact ⟨Option.none, volume, .taken walked bound plain, given⟩

/-- The new node is given back, with its name. -/
theorem givesNew {next : Kernel} {target : Option Nat} {result : Option InodePtr}
    {names : List (List UInt8)} (creates : Creates volume i names type target after)
    (locks : Locks others after next target result)
    (live : scheme.Live volume.naming i) (closed : scheme.Closed volume.naming)
    (special : type ≠ tFile) :
    (result = none ∧ target = none ∧ Holding others after [] next) ∨
      ∃ ip target' last, result = some ip ∧ target = some target' ∧
        Path.iunlockput ip next = .done () last ∧ Holding others after [] last := by
  cases creates with
  | noParent =>
      cases result with
      | none => exact Or.inl ⟨rfl, rfl, locks⟩
      | some ip => exact locks.elim
  | taken =>
      cases result with
      | none => exact Or.inl ⟨rfl, rfl, locks⟩
      | some ip => exact locks.elim
  | file _ _ plain => exact absurd plain.1 special
  | @made d target name parent unbound free =>
      cases result with
      | none => exact locks.elim
      | some ip =>
          have different : d ≠ target := by
            rintro rfl
            exact (Scheme.walkParent_directory closed live parent).live.1 free
          have named : (volume.create d name target type).naming.links target ≠ 0 := by
            rw [Volume.create_links different]
            exact Nat.one_ne_zero
          have held : Holding others _ [⟨ip, target, true⟩] next := locks
          obtain ⟨last, dropped, given⟩ := held.iunlockput_named (nobody target) named
          exact Or.inr ⟨ip, target, last, rfl, rfl, dropped, given⟩

theorem makeNode (holding : Holding others volume [] k)
    (consistent : scheme.Consistent volume.naming) {path : List UInt8} (string : 0 ∉ path)
    (begins : others.Begins volume path) (typeFits : type < 256 ^ 2) (nonzero : type ≠ 0)
    (special : type ≠ tFile) (majorFits : major < 256 ^ 2) (minorFits : minor < 256 ^ 2) :
    (Path.makeNode consoleread path type major minor k).Ends OutOfSpace fun result next =>
      ∃ target after, Creates volume (others.start path) (elements path) type target after ∧
        result = (if target = none then -1 else 0) ∧ Holding others after [] next := by
  rw [Path.makeNode, Action.ends_bind]
  refine (holding.create consistent string begins typeFits nonzero majorFits minorFits).mono ?_
  rintro result next ⟨target, after, creates, locks⟩
  obtain ⟨rfl, rfl, given⟩ | ⟨ip, i, last, rfl, rfl, dropped, given⟩ :=
    givesNew creates locks begins.live consistent.toClosed special
  · exact ⟨none, after, creates, rfl, given⟩
  · dsimp only
    rw [Action.bind_done dropped]
    exact ⟨some i, after, creates, rfl, given⟩

end Holding

end Xv6.Path
