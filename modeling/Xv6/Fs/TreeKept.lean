import Xv6.Fs.TreeRuns

/-!
# What holds between system calls

The tree, the link counts and the references, said of inodes and directories on
the disk and in the inode cache. A run that starts with a root directory keeps
them, and no call panics but for space.
-/

namespace Xv6.Tree

open Xv6.Library Xv6.Fs Xv6.Path
open Xv6.Fork (FilePtr)
open Xv6.Sched (ProcPtr nproc)

/-- The names of inode `i` but ".", in directories that have names. -/
def namesOf (fs : FileSystem) (i : Nat) : Set (Nat × List UInt8) :=
  {place | place.2 ≠ nameOf dot ∧ (fs.stat place.1).nlink ≠ 0 ∧
    ∃ array, Directory fs place.1 array ∧ bindings array place.2 = some i}

/-- Directory `d`, which has names, has a name for inode `i` that is not "." or "..". -/
def Under (fs : FileSystem) (d i : Nat) : Prop :=
  (fs.stat d).nlink ≠ 0 ∧ ∃ array name, Directory fs d array ∧ scheme.Plain name ∧
    bindings array name = some i

/-- Inode `i` is in use and has names. -/
def Linked (fs : FileSystem) (i : Nat) : Prop :=
  i < fs.sb.ninodes ∧ (fs.stat i).type ≠ 0 ∧ (fs.stat i).nlink ≠ 0

/-- Every link count is the number of names, every name leads to an inode with names, and an inode
without names is open or somebody's current directory. -/
structure Accounted (s : System) : Prop where
  links : ∀ i, Linked s.fs.toFileSystem i →
    (namesOf s.fs.toFileSystem i).encard = (s.fs.stat i).nlink
  unnamed : ∀ i < s.fs.sb.ninodes, (s.fs.stat i).type ≠ 0 → (s.fs.stat i).nlink = 0 →
    ∃ holder ip, s.handle holder = some ip ∧ (s.fs.inode ip).inum = i
  dangling : ∀ d array name i, Directory s.fs.toFileSystem d array → (s.fs.stat d).nlink ≠ 0 →
    bindings array name = some i → Linked s.fs.toFileSystem i
  dots : ∀ d array, Directory s.fs.toFileSystem d array → (s.fs.stat d).nlink ≠ 0 →
    bindings array (nameOf dot) = some d ∧ ∃ above, bindings array (nameOf dotdot) = some above ∧
      (if d = rootino then above = rootino else Under s.fs.toFileSystem above d)
  reached : ∀ i, Linked s.fs.toFileSystem i →
    Relation.ReflTransGen (Under s.fs.toFileSystem) rootino i
  held : ∀ holder ip, s.handle holder = some ip → (s.fs.stat (s.fs.inode ip).inum).type ≠ 0
  refs : ∀ ip, (s.fs.inode ip).ref = shares s.handle ip
  written : ∀ i < s.fs.sb.ninodes, (s.fs.stat i).Alike (s.fs.dinode i)

section Shown

variable {volume : Volume} {fs : FsState} {d i : Nat} {array : List UInt8} (shows : Shows volume fs)
include shows

theorem live_iff_linked : scheme.Live volume.naming i ↔ Linked fs.toFileSystem i := by
  constructor
  · intro live
    have inside := (shows.inside live.1).2
    have here := shows.inodes inside
    exact ⟨inside, here.type ▸ live.1, (here.nlink live.1).symm ▸ live.2⟩
  · rintro ⟨inside, type, nlink⟩
    have here := shows.inodes inside
    have used : volume.naming.kind i ≠ 0 := here.type ▸ type
    exact ⟨used, here.nlink used ▸ nlink⟩

/-- A directory that has names is one of the tree. -/
theorem directory_shown (directory : Directory fs.toFileSystem d array)
    (named : (fs.stat d).nlink ≠ 0) :
    scheme.IsDirectory volume.naming d ∧ volume.naming.entry d = bindings array := by
  have here := shows.inodes directory.file.inside
  have kind : volume.naming.kind d = tDir := here.type.symm.trans directory.type
  have used : volume.naming.kind d ≠ 0 := by
    rw [kind]
    exact tDir_used
  obtain ⟨other, listed, -, bound⟩ := here.directory kind
  cases file_unique directory.file listed.file
  exact ⟨⟨kind, here.nlink used ▸ named⟩, bound.symm⟩

theorem shown_directory (directory : scheme.IsDirectory volume.naming d) :
    ∃ array, Directory fs.toFileSystem d array ∧ (fs.stat d).nlink ≠ 0 ∧
      volume.naming.entry d = bindings array := by
  have used := directory.live.1
  have here := shows.inodes (shows.inside used).2
  obtain ⟨array, listed, -, bound⟩ := here.directory directory.1
  exact ⟨array, listed, (here.nlink used).symm ▸ directory.2, bound.symm⟩

theorem places_shown : scheme.places volume.naming i = namesOf fs.toFileSystem i := by
  ext ⟨d, name⟩
  constructor
  · rintro ⟨directory, unlike, entry⟩
    obtain ⟨array, listed, named, bound⟩ := shown_directory shows directory
    exact ⟨unlike, named, array, listed, bound ▸ entry⟩
  · rintro ⟨unlike, named, array, listed, entry⟩
    obtain ⟨directory, bound⟩ := directory_shown shows listed named
    exact ⟨directory, unlike, bound.symm ▸ entry⟩

theorem below_shown (below : scheme.Below volume.naming d i) : Under fs.toFileSystem d i := by
  obtain ⟨directory, name, plain, entry⟩ := below
  obtain ⟨array, listed, named, bound⟩ := shown_directory shows directory
  exact ⟨named, array, name, listed, plain, bound ▸ entry⟩

end Shown

theorem Good.accounted {model : Model} {s : System} (good : Good model s) : Accounted s where
  links i linked := by
    have live := (live_iff_linked good.shows).mpr linked
    rw [← places_shown good.shows, good.tree.counted live,
      (good.shows.inodes linked.1).nlink live.1]
  unnamed i inside type nlink := by
    have here := good.shows.inodes inside
    have used : model.volume.naming.kind i ≠ 0 := here.type ▸ type
    obtain linked | ⟨ip, referenced, number⟩ := good.shows.kept i used
    · exact absurd (here.nlink used ▸ nlink) linked
    · rw [good.refs] at referenced
      obtain ⟨holder, handle⟩ := exists_owner (Int.natCast_pos.mp referenced)
      exact ⟨holder, ip, handle, number⟩
  dangling d array name i listed named entry := by
    obtain ⟨directory, bound⟩ := directory_shown good.shows listed named
    exact (live_iff_linked good.shows).mp (good.tree.closed directory (bound ▸ entry))
  dots d array listed named := by
    obtain ⟨directory, bound⟩ := directory_shown good.shows listed named
    obtain ⟨above, up, isDirectory⟩ := good.tree.up directory
    refine ⟨bound ▸ good.tree.self directory, above, bound ▸ up, ?_⟩
    by_cases top : d = rootino
    · subst top
      rw [if_pos rfl]
      exact Option.some.inj (up.symm.trans good.tree.top)
    · obtain ⟨other, name, inside, plain, entry, same⟩ := good.tree.named directory top
      cases up.symm.trans same
      rw [if_neg top]
      exact below_shown good.shows ⟨inside, name, plain, entry⟩
  reached i linked := by
    have live := (live_iff_linked good.shows).mpr linked
    exact Relation.ReflTransGen.mono (fun _ _ => below_shown good.shows) _ _
      (good.tree.reached live)
  held holder ip handle := by
    have referenced : 0 < (s.fs.inode ip).ref := by
      rw [good.refs]
      exact_mod_cast shares_pos handle
    exact good.shows.allocated referenced
  refs := good.refs
  written i inside := (good.shows.inodes inside).written

/-! ## Runs -/

/-- Link counts, names and references are right in every state that calls leave. -/
theorem tree_accounted (consoleread : Int → Int × List UInt8) (model : Model)
    (start finish : System) (good : Good model start) (history : List (Call × Int))
    (named : Throughout (System.next consoleread) (fun s event => event.1.Named s) start history)
    (ran : runs (System.next consoleread) start history = some finish) : Accounted finish := by
  obtain ⟨after, -, last⟩ := good.history named ran
  exact last.accounted

theorem tree_accounted_first : ∃ start finish, Good firstModel start ∧
    runs (System.next fun n => (n, [])) start firstCalls = some finish ∧ Accounted finish := by
  obtain ⟨start, finish, good, ran⟩ := firstCalls_run
  exact ⟨start, finish, good, ran, tree_accounted _ firstModel start finish good firstCalls
    (firstCalls_named _ start) ran⟩

end Xv6.Tree
