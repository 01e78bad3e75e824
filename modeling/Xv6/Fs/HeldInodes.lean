import Xv6.Fs.Link
import Xv6.Fs.LinkCount

/-!
# Changing the volume

The statements that change an inode or a directory which the call has locked, and
`ialloc`.
-/

namespace Xv6.Path

open Xv6.Library Xv6.Fs

def Volume.setLinks (volume : Volume) (i links : Nat) : Volume :=
  { volume with naming := volume.naming.setLinks i links }

def Volume.setEntry (volume : Volume) (d : Nat) (name : List UInt8) (target : Option Nat) :
    Volume :=
  { volume with naming := volume.naming.setEntry d name target }

/-- The statements keep the directories. -/
def KeepsDirectories (before after : Kernel) : Prop :=
  ∀ d array, Directory before.fs.toFileSystem d array → Directory after.fs.toFileSystem d array

theorem EntryAt.keeps {before after : Kernel} {d j i : Nat} {name : List UInt8}
    (entry : EntryAt before.fs.toFileSystem d j name i) (keeps : KeepsDirectories before after) :
    EntryAt after.fs.toFileSystem d j name i := by
  obtain ⟨array, directory, here⟩ := entry
  exact ⟨array, keeps d array directory, here⟩

namespace Holding

variable {others : Others} {volume : Volume} {rest : List Hold} {k : Kernel} {ip dp : InodePtr}
  {i j d : Nat} {consoleread : Int → Int × List UInt8}

/-! ## Fields -/

section Head

variable (holding : Holding others volume (⟨ip, i, true⟩ :: rest) k)
include holding

/-- The fields of an inode that is locked are set. -/
theorem setFields {change : Inode → Inode}
    (same : change (k.fs.inode ip) = { k.fs.inode ip with
      major := (change (k.fs.inode ip)).major, minor := (change (k.fs.inode ip)).minor,
      nlink := (change (k.fs.inode ip)).nlink })
    (major : (change (k.fs.inode ip)).major < 256 ^ 2)
    (minor : (change (k.fs.inode ip)).minor < 256 ^ 2)
    {links : Nat} (counts : (change (k.fs.inode ip)).nlink = links) (short : links < 256 ^ 2) :
    ∃ next, onInodes (Path.setFields ip change) k = .done () next ∧
      Holding others (volume.setLinks i links) (⟨ip, i, true⟩ :: rest) next ∧
      KeepsDirectories k next := by
  obtain ⟨fs, done, shows, entries, directories⟩ :=
    holding.shows.setFields holding.head_live same major minor (counts ▸ short)
  rw [counts] at shows
  exact ⟨_, onInodes_done done, holding.keeps shows entries, directories⟩

/-- One name more. -/
theorem addLink (fits : volume.naming.links i + 1 < 256 ^ 2) :
    ∃ next, onInodes (Path.setFields ip Path.addLink) k = .done () next ∧
      Holding others (volume.setLinks i (volume.naming.links i + 1)) (⟨ip, i, true⟩ :: rest) next ∧
      KeepsDirectories k next := by
  have typed := (holding.shows.flushed holding.head_live).typed
  refine holding.setFields rfl typed.major typed.minor ?_ fits
  rw [Path.addLink, holding.head_nlink]
  exact Nat.mod_eq_of_lt fits

/-- One name less. -/
theorem dropLink (named : volume.naming.links i ≠ 0) :
    ∃ next, onInodes (Path.setFields ip Path.dropLink) k = .done () next ∧
      Holding others (volume.setLinks i (volume.naming.links i - 1)) (⟨ip, i, true⟩ :: rest) next ∧
      KeepsDirectories k next := by
  have typed := (holding.shows.flushed holding.head_live).typed
  have nlink := holding.head_nlink
  refine holding.setFields rfl typed.major typed.minor ?_ ?_
  · rw [Path.dropLink, nlink]
    exact if_neg named
  · have bound := typed.nlink
    rw [nlink] at bound
    omega

/-! ## Entries -/

/-- A name that is not bound is added. -/
theorem dirlink (directory : volume.naming.kind i = tDir) {name : Memory}
    (unbound : volume.naming.entry i (nameOf name) = none) (nonzero : j ≠ 0)
    (inside : j < k.fs.sb.ninodes) (follows : Follows (volume.naming.entry i) (nameOf name)) :
    (onInodes (Fs.dirlink consoleread ip name j) k).Ends OutOfSpace fun result next =>
      result = 0 ∧
        Holding others (volume.setEntry i (nameOf name) (some j)) (⟨ip, i, true⟩ :: rest) next := by
  rw [onInodes, Action.ends_focus]
  refine (holding.shows.dirlink holding.head_live directory unbound nonzero inside follows).mono ?_
  rintro result fs ⟨zero, shows, entries⟩
  exact ⟨zero, holding.keeps shows entries⟩

/-- A name that is bound to another node is refused. -/
theorem dirlink_bound (closed : scheme.Closed volume.naming)
    (directory : scheme.IsDirectory volume.naming i) {name : Memory} {target : Nat}
    (bound : volume.naming.entry i (nameOf name) = some target) (different : target ≠ i) :
    (onInodes (Fs.dirlink consoleread ip name j) k).Ends OutOfSpace fun result next =>
      result = -1 ∧ Holding others volume (⟨ip, i, true⟩ :: rest) next := by
  have looked := @Holding.dirlookup _ _ _ _ _ _ consoleread holding closed directory name
  rw [onInodes, Action.ends_focus] at looked ⊢
  rw [Fs.dirlink, Action.ends_bind]
  refine looked.mono ?_
  rintro found fs (⟨-, missing, -⟩ | ⟨entry, node, slot, rfl, here, -, both⟩)
  · rw [bound] at missing
    cases missing
  · cases bound.symm.trans here
    have away : entry ≠ ip := by
      rintro rfl
      exact different (both.head.symm.trans both.swap.head)
    obtain ⟨next, done, shows, gave⟩ := both.shows.iput both.head_referenced
      (Or.inl (both.head.symm ▸ (closed.closed directory bound).2))
    dsimp only at done ⊢
    rw [if_neg away, Action.bind_done done]
    exact ⟨rfl, both.gave shows gave rfl⟩

/-- An entry is cleared. -/
theorem clearEntry (directory : volume.naming.kind i = tDir) {label : List UInt8} {slot : Nat}
    (entry : EntryAt k.fs.toFileSystem i slot label j) :
    ∃ next, onInodes (Fs.clearEntry ip (offsetOf slot)) k = .done () next ∧
      Holding others (volume.setEntry i label none) (⟨ip, i, true⟩ :: rest) next := by
  obtain ⟨array, listed, here⟩ := entry
  obtain ⟨fs, done, shows, entries⟩ :=
    holding.shows.clearEntry holding.head_live directory listed here
  exact ⟨_, onInodes_done done, holding.keeps shows entries⟩

end Head

/-! ## A new inode -/

theorem took_of_entered {fs next : FsState} {type : Nat} (entered : Entered fs ip i type next) :
    Shows.Took fs ip i next where
  others := entered.others
  number := by
    rw [entered.self]
  ref := by
    rw [entered.self, entered.free]
    rfl
  kept referenced := by
    rw [entered.free] at referenced
    exact absurd referenced (Int.lt_irrefl 0)

/-- `ialloc` and `ilock` make a node that nobody had. -/
theorem ialloc (holding : Holding others volume rest k) {type : Nat} (short : type < 256 ^ 2)
    (nonzero : type ≠ 0) :
    (onInodes (Fs.ialloc type) k).Ends OutOfSpace fun ip middle => ∃ i next,
      Path.ilock ip middle = .done () next ∧ volume.naming.kind i = 0 ∧
        Holding others (volume.allocate i type) (⟨ip, i, true⟩ :: rest) next := by
  rw [onInodes, Action.ends_focus]
  refine (ialloc_finds holding.shows.sound type).mono ?_
  rintro ip fs ⟨i, positive, inside, unused, cleared, got⟩
  have free : volume.naming.kind i = 0 := by
    have here := holding.shows.inodes inside
    rw [← here.type, here.written.kind.type]
    exact unused
  have nobody : ∀ other, ¬(0 < (k.fs.inode other).ref ∧ (k.fs.inode other).inum = i) := by
    rintro other ⟨referenced, rfl⟩
    exact holding.shows.used other referenced free
  obtain ⟨after, done, referenced, entered⟩ :=
    ilock_enters inside short nonzero nobody cleared got
  have shows := holding.shows.entered entered positive inside short nonzero free
  have unlocked : k.held ip = false := by
    rw [holding.held, List.any_eq_false]
    intro hold member both
    rw [Bool.and_eq_true, beq_iff_eq] at both
    have positive := holding.referenced member
    rw [both.1, entered.free] at positive
    exact Int.lt_irrefl 0 positive
  refine ⟨i, _, ilock_done referenced unlocked done, free,
    (holding.took shows (took_of_entered entered)).lock ?_⟩
  dsimp only
  rw [entered.self]

end Holding

end Xv6.Path
