import Xv6.Fs.TreeCalls

/-!
# An empty root directory

The first tree: a root with its own two names only, and one process in it.
-/

namespace Xv6.Tree

open Xv6.Library Xv6.Fs Xv6.Path
open Xv6.Fork (FilePtr)
open Xv6.Sched (ProcPtr)

def firstInode : InodePtr := ⟨0, ninode_pos⟩

theorem nproc_pos : 0 < Sched.nproc := by decide

def firstProc : ProcPtr := ⟨0, nproc_pos⟩

/-- The root is made, and stays open. -/
def rootEmpty : List FsOp :=
  [.ialloc tDir, .ilock firstInode, .relink firstInode 0 0 1,
    .writei firstInode (Fs.linked (fun _ => 0) dot 1) 0 16,
    .writei firstInode (Fs.linked (fun _ => 0) dotdot 1) 16 16]

/-- The content of the root. -/
def rootEntries : List UInt8 :=
  putBytes (putBytes [] (direntSize * 0) ((Fs.linked (fun _ => 0) dot 1).read 0 direntSize))
    (direntSize * 1) ((Fs.linked (fun _ => 0) dotdot 1).read 0 direntSize)

theorem entries_rootEntries : entries rootEntries =
    Function.update (Function.update (fun _ : Nat => (none : Option (List UInt8 × Nat))) 0
      (some (nameOf dot, 1))) 1 (some (nameOf dotdot, 1)) := by
  have empty : entries [] = fun _ => none :=
    funext fun i => @entries_within [] 0 rfl i (Nat.zero_le i)
  rw [rootEntries, entries_putBytes (by decide), entries_putBytes (by decide), empty,
    entryOf_linked _ _ (by decide) (by decide), entryOf_linked _ _ (by decide) (by decide)]

theorem rootEntries_some {i target : Nat} {name : List UInt8}
    (here : entries rootEntries i = some (name, target)) :
    i = 0 ∧ name = nameOf dot ∧ target = 1 ∨ i = 1 ∧ name = nameOf dotdot ∧ target = 1 := by
  rw [entries_rootEntries] at here
  by_cases second : i = 1
  · subst second
    cases here
    exact Or.inr ⟨rfl, rfl, rfl⟩
  · rw [Function.update_of_ne second] at here
    by_cases first : i = 0
    · subst first
      cases here
      exact Or.inl ⟨rfl, rfl, rfl⟩
    · rw [Function.update_of_ne first] at here
      cases here

theorem length_rootEntries : rootEntries.length = 32 := by decide

theorem rootEntries_headed : Headed rootEntries where
  first i target here := by
    obtain ⟨rfl, -, -⟩ | ⟨-, same, -⟩ := rootEntries_some here
    · rfl
    · exact absurd same dot_other
  second i target here := by
    obtain ⟨-, same, -⟩ | ⟨rfl, -, -⟩ := rootEntries_some here
    · exact absurd same.symm dot_other
    · rfl

theorem rootEntries_distinct : (entries rootEntries).Distinct := by
  intro i j name first second here also
  obtain ⟨rfl, rfl, -⟩ | ⟨rfl, rfl, -⟩ := rootEntries_some here
  · exact (rootEntries_headed.first j second also).symm
  · exact (rootEntries_headed.second j second also).symm

/-- What the root binds. -/
def rootNames : List UInt8 → Option Nat :=
  Function.update (Function.update (fun _ => none) (nameOf dot) (some 1)) (nameOf dotdot) (some 1)

theorem bindings_rootEntries : bindings rootEntries = rootNames := by
  have lookup : ∀ name target, bindings rootEntries name = some target ↔
      ∃ i, entries rootEntries i = some (name, target) := fun _ _ =>
    rootEntries_distinct.lookup_iff (entries_within length_rootEntries)
  funext name
  by_cases second : name = nameOf dotdot
  · subst second
    rw [rootNames, Function.update_self, lookup]
    exact ⟨1, by rw [entries_rootEntries, Function.update_self]⟩
  · rw [rootNames, Function.update_of_ne second]
    by_cases first : name = nameOf dot
    · subst first
      rw [Function.update_self, lookup]
      exact ⟨0, by rw [entries_rootEntries]; rfl⟩
    · rw [Function.update_of_ne first]
      cases found : bindings rootEntries name with
      | none => rfl
      | some target =>
          obtain ⟨i, here⟩ := (lookup name target).mp found
          obtain ⟨-, same, -⟩ | ⟨-, same, -⟩ := rootEntries_some here
          · exact absurd same first
          · exact absurd same second

def firstVolume : Volume where
  naming :=
    { kind := fun i => if i = rootino then tDir else 0
      links := fun i => if i = rootino then 1 else 0
      entry := fun _ => rootNames }
  content _ := []

/-- The first process is in the root. -/
def firstHandle : Holder → Option InodePtr :=
  Function.update (fun _ => none) (.inl firstProc) (some firstInode)

def firstModel : Model where
  volume := firstVolume
  node := Function.update (fun _ => none) (.inl firstProc) (some rootino)

/-- The root is made, and nothing else is. -/
def RootMade (start : FsState) : Prop :=
  let root := start.inode firstInode
  (start.sb.ninodes = 200 ∧ start.sb.size = 1000) ∧
    (root.ref = 1 ∧ root.valid = true ∧ root.inum = 1) ∧
    (∀ ip, ip ≠ firstInode → (start.inode ip).ref = 0) ∧
    (root.type = tDir ∧ root.size = 32 ∧ root.nlink = 1) ∧
    (∀ i < 200, i ≠ 1 → (start.dinode i).type = 0) ∧
    (root.type = (start.dinode 1).type ∧ root.major = (start.dinode 1).major ∧
      root.minor = (start.dinode 1).minor ∧ root.nlink = (start.dinode 1).nlink ∧
      root.size = (start.dinode 1).size ∧ ∀ k < 13, root.addrs k = (start.dinode 1).addrs k) ∧
    (start.number (slotOf 1 0) ≠ 0 ∧ ∀ o < 32, start.byte 1 o = rootEntries.getD o 0)

instance (start : FsState) : Decidable (RootMade start) := by
  unfold RootMade
  infer_instance

theorem first_consistent : scheme.Consistent firstVolume.naming := by
  refine Scheme.Consistent.alone ⟨rfl, by decide⟩ (fun {i} live => ?_) ?_ ?_ (fun name plain => ?_)
    rfl
  · by_contra other
    exact live.2 (if_neg other)
  · change rootNames (nameOf dot) = some 1
    rw [rootNames, Function.update_of_ne dot_other, Function.update_self]
  · change rootNames (nameOf dotdot) = some 1
    rw [rootNames, Function.update_self]
  · have first : name ≠ nameOf dot := plain.1
    have second : name ≠ nameOf dotdot := plain.2
    change rootNames name = none
    rw [rootNames, Function.update_of_ne second, Function.update_of_ne first]

theorem rootMade_live {start : FsState} (made : RootMade start) :
    start.live 1 firstInode = true := by
  obtain ⟨-, ⟨ref, valid, number⟩, -⟩ := made
  exact live_iff.mpr ⟨ref ▸ Int.one_pos, valid, number⟩

section Made

variable {start : FsState} (sound : Sound start) (made : RootMade start)
include sound made

theorem rootMade_directory : Lists start.toFileSystem 1 rootNames := by
  have stat := stat_of_live sound.consistent.once (rootMade_live made)
  obtain ⟨⟨ninodes, -⟩, -, -, ⟨type, size, -⟩, -, -, there, bytes⟩ := made
  have inside : 1 < start.sb.ninodes := by
    rw [ninodes]
    decide
  refine ⟨rootEntries, ⟨⟨inside, ?_, ?_, ?_, ?_⟩, ?_, ⟨2, length_rootEntries⟩,
    rootEntries_distinct, ?_⟩, rootEntries_headed, bindings_rootEntries⟩
  · rw [stat]
    exact type ▸ (by decide)
  · rw [stat, length_rootEntries]
    exact size
  · intro o below
    rw [length_rootEntries] at below
    rw [Nat.div_eq_of_lt (Nat.lt_trans below (by decide))]
    exact there
  · rw [length_rootEntries]
    exact bytes
  · rw [stat]
    exact type
  · intro i name target here
    obtain ⟨-, -, rfl⟩ | ⟨-, -, rfl⟩ := rootEntries_some here
    · exact inside
    · exact inside

/-- The root is the node that is in use, and the others are free. -/
theorem rootMade_shows {i : Nat} (inside : i < 200) :
    ShowsAt firstVolume start.toFileSystem i := by
  have live := rootMade_live made
  have lists := rootMade_directory sound made
  obtain ⟨-, ⟨-, -, number⟩, others, ⟨type, -, nlink⟩, free, written, -⟩ := made
  by_cases root : i = 1
  · subst root
    have stat := stat_of_live sound.consistent.once live
    obtain ⟨one, major, minor, links, bytes, addrs⟩ := written
    refine ⟨?_, fun _ => ?_, ?_, fun _ => lists, fun plain => ?_⟩
    · rw [stat]
      exact type
    · rw [stat]
      exact nlink
    · rw [stat]
      exact ⟨⟨one, major, minor, links⟩, bytes, fun k slot => addrs k (Nat.lt_succ_of_le slot)⟩
    · cases plain
  · have kind : firstVolume.naming.kind i = 0 := if_neg root
    have disk : start.stat i = start.dinode i := by
      refine stat_of_disk fun ip => Bool.eq_false_iff.mpr fun cached => ?_
      obtain ⟨used, -, same⟩ := live_iff.mp cached
      by_cases here : ip = firstInode
      · rw [here, number] at same
        exact root same.symm
      · rw [others ip here] at used
        exact Int.lt_irrefl 0 used
    refine ⟨?_, fun used => absurd kind used, ?_, fun isDirectory => ?_, fun plain => ?_⟩
    · rw [kind, disk]
      exact free i inside root
    · rw [disk]
      exact Dinode.Alike.refl _
    · cases kind.symm.trans isDirectory
    · cases kind.symm.trans plain

theorem shows_first : Shows firstVolume start := by
  have shown := fun {i} => @rootMade_shows start sound made i
  obtain ⟨⟨ninodes, size⟩, ⟨ref, valid, number⟩, others, -⟩ := made
  have referenced : ∀ ip, 0 < (start.inode ip).ref → ip = firstInode := by
    intro ip used
    by_contra other
    rw [others ip other] at used
    exact Int.lt_irrefl 0 used
  have root : ∀ i, firstVolume.naming.kind i ≠ 0 → i = rootino := by
    intro i used
    by_contra other
    exact used (if_neg other)
  refine ⟨sound, ?_, ?_, ?_, ?_, ?_, ?_, ?_, ?_⟩
  · rw [size]
    decide
  · rw [ninodes]
    decide
  · intro i used
    rw [root i used, ninodes]
    decide
  · intro i inside
    exact shown (ninodes ▸ inside)
  · intro ip
    by_cases here : ip = firstInode
    · rw [here, ref]
      exact Int.one_nonneg
    · rw [others ip here]
  · intro ip used
    cases referenced ip used
    rw [number]
    decide
  · intro ip used
    cases referenced ip used
    exact fun _ => valid
  · intro i used
    refine Or.inl ?_
    rw [root i used]
    decide

theorem good_first : Good firstModel ⟨start, firstHandle⟩ := by
  have shows := shows_first sound made
  obtain ⟨-, ⟨ref, -, number⟩, others, -⟩ := made
  refine ⟨shows, first_consistent, ?_, ?_⟩
  · intro ip
    have count := @shares_take Holder InodePtr _ _ (fun _ => none) (Sum.inl firstProc) _ rfl
      firstInode ip
    have none : shares (fun _ : Holder => (none : Option InodePtr)) ip = 0 :=
      shares_eq_zero fun _ same => by cases same
    rw [none] at count
    rw [firstHandle, count]
    by_cases root : ip = firstInode
    · rw [root, ref]
      rfl
    · rw [others ip root]
      simp [Ne.symm root]
  · funext holder
    by_cases same : holder = .inl firstProc
    · subst same
      simp [firstModel, System.node, firstHandle, number, rootino]
    · simp [firstModel, System.node, firstHandle, same]

end Made

end Xv6.Tree
