import Xv6.Fs.Create
import Xv6.Fs.Freed
import Xv6.Library.NamingUpdates

/-!
# What a file system holds

Users see a tree of names, and files with bytes. `Shows` says that the blocks and
the inode cache show such a volume, and what else is true of them between the
statements of the system calls.
-/

namespace Xv6.Path

open Xv6.Library Xv6.Fs

theorem tDir_used : tDir ≠ 0 := by decide

theorem dot_other : nameOf dot ≠ nameOf dotdot := by decide

/-- The type of a free inode is 0. -/
def scheme : Scheme Nat Nat (List UInt8) where
  free := 0
  directory := tDir
  self := nameOf dot
  up := nameOf dotdot
  root := rootino
  kinds := tDir_used
  names := dot_other

theorem scheme_directory : scheme.directory = tDir := rfl

structure Volume where
  naming : Naming Nat Nat (List UInt8)
  content : Nat → List UInt8

/-- The inode cache, the inodes or the blocks run out, or a directory is as long as a file can
be. -/
def OutOfSpace (message : String) : Prop :=
  message = "iget: no inodes" ∨ message = "ialloc: no inodes" ∨
    message = "balloc: out of blocks" ∨ message = "dirlink"

/-! ## One inode -/

/-- `isdirempty` skips the first two entries. -/
structure Headed (array : List UInt8) : Prop where
  first : ∀ i target, entries array i = some (nameOf dot, target) → i = 0
  second : ∀ i target, entries array i = some (nameOf dotdot, target) → i = 1

/-- Directory `d` binds `names`. -/
def Lists (fs : FileSystem) (d : Nat) (names : List UInt8 → Option Nat) : Prop :=
  ∃ array, Directory fs d array ∧ Headed array ∧ bindings array = names

/-- Inode `i` is the one of the volume. -/
structure ShowsAt (volume : Volume) (fs : FileSystem) (i : Nat) : Prop where
  type : (fs.stat i).type = volume.naming.kind i
  nlink : volume.naming.kind i ≠ 0 → (fs.stat i).nlink = volume.naming.links i
  written : (fs.stat i).Alike (fs.dinode i)
  directory : volume.naming.kind i = tDir → Lists fs i (volume.naming.entry i)
  file : volume.naming.kind i = tFile → File fs i (volume.content i)

/-- The volumes have the same node `i`. -/
structure Volume.Agrees (after before : Volume) (i : Nat) : Prop where
  kind : after.naming.kind i = before.naming.kind i
  links : after.naming.links i = before.naming.links i
  entry : after.naming.entry i = before.naming.entry i
  content : after.content i = before.content i

theorem Volume.Agrees.refl (volume : Volume) (i : Nat) : volume.Agrees volume i :=
  ⟨rfl, rfl, rfl, rfl⟩

section Inode

variable {volume after : Volume} {fs later : FileSystem} {i d : Nat}
  {names : List UInt8 → Option Nat}

theorem Lists.of_files (lists : Lists fs d names) (sb : later.sb = fs.sb)
    (type : (later.stat d).type = (fs.stat d).type)
    (files : ∀ array, File fs d array → File later d array) : Lists later d names := by
  obtain ⟨array, directory, headed, bound⟩ := lists
  exact ⟨array, directory.of_file (files array directory.file) sb type, headed, bound⟩

/-- An inode whose kind and content stay. -/
theorem ShowsAt.congr (shows : ShowsAt volume fs i) (agrees : after.Agrees volume i)
    (sb : later.sb = fs.sb) (kind : (later.stat i).SameKind (fs.stat i))
    (written : (later.stat i).Alike (later.dinode i))
    (files : ∀ array, File fs i array → File later i array) : ShowsAt after later i where
  type := by
    rw [kind.type, agrees.kind]
    exact shows.type
  nlink used := by
    rw [agrees.kind] at used
    rw [kind.nlink, agrees.links]
    exact shows.nlink used
  written := written
  directory isDirectory := by
    rw [agrees.kind] at isDirectory
    rw [agrees.entry]
    exact (shows.directory isDirectory).of_files sb kind.type files
  file plain := by
    rw [agrees.kind] at plain
    rw [agrees.content]
    exact files _ (shows.file plain)

/-- An inode that is in the cache is as on the disk, if what is cached is. -/
theorem written_of_flushed (once : fs.CachedOnce)
    (flushed : ∀ ip, fs.live i ip = true → fs.Flushed ip) : (fs.stat i).Alike (fs.dinode i) := by
  by_cases cached : ∃ ip, fs.live i ip = true
  · obtain ⟨ip, live⟩ := cached
    have written := flushed ip live
    rw [FileSystem.Flushed, (live_iff.mp live).2.2, ← stat_of_live once live] at written
    exact written
  · rw [stat_of_disk fun ip => Bool.eq_false_iff.mpr fun live => cached ⟨ip, live⟩]
    exact Dinode.Alike.refl _

theorem flushed_of_written (once : fs.CachedOnce) {ip : InodePtr} (live : fs.live i ip = true)
    (written : (fs.stat i).Alike (fs.dinode i)) : fs.Flushed ip := by
  rw [FileSystem.Flushed, (live_iff.mp live).2.2, ← stat_of_live once live]
  exact written

/-- Entry `ip` of the cache does not have inode `i`, and the other entries are as they were. -/
theorem stat_of_others {ip : InodePtr} (once : fs.CachedOnce) (still : later.CachedOnce)
    (others : ∀ other, other ≠ ip → later.inode other = fs.inode other)
    (before : fs.live i ip = false) (now : later.live i ip = false)
    (disk : (later.dinode i).Alike (fs.dinode i)) : (later.stat i).Alike (fs.stat i) := by
  have same : ∀ other, later.live i other = fs.live i other := by
    intro other
    by_cases here : other = ip
    · rw [here, before, now]
    · rw [FileSystem.live, others other here, FileSystem.live]
  by_cases cached : ∃ other, fs.live i other = true
  · obtain ⟨other, live⟩ := cached
    have different : other ≠ ip := by
      rintro rfl
      cases before.symm.trans live
    rw [stat_of_live still ((same other).trans live), stat_of_live once live,
      others other different]
    exact Dinode.Alike.refl _
  · have nobody : ∀ other, fs.live i other = false := fun other =>
      Bool.eq_false_iff.mpr fun live => cached ⟨other, live⟩
    rw [stat_of_disk nobody, stat_of_disk fun other => (same other).trans (nobody other)]
    exact disk

end Inode

/-! ## The whole file system -/

/-- The file system shows the volume. What is referenced is in use, and what is in use has names
or is referenced; an inode without names is in the cache. -/
structure Shows (volume : Volume) (fs : FsState) : Prop where
  sound : Sound fs
  small : 32 * fs.sb.size < 2 ^ 15
  short : fs.sb.ninodes ≤ 256 ^ 2
  inside : ∀ {i}, volume.naming.kind i ≠ 0 → i ≠ 0 ∧ i < fs.sb.ninodes
  inodes : ∀ {i}, i < fs.sb.ninodes → ShowsAt volume fs.toFileSystem i
  counted : ∀ ip, 0 ≤ (fs.inode ip).ref
  used : ∀ ip, 0 < (fs.inode ip).ref → volume.naming.kind (fs.inode ip).inum ≠ 0
  read : ∀ ip, 0 < (fs.inode ip).ref → volume.naming.links (fs.inode ip).inum = 0 →
    (fs.inode ip).valid = true
  kept : ∀ i, volume.naming.kind i ≠ 0 → volume.naming.links i ≠ 0 ∨
    ∃ ip, 0 < (fs.inode ip).ref ∧ (fs.inode ip).inum = i

/-- Every entry of the inode cache has its references and its number, and is read if it was. -/
def KeepsEntries (before after : FileSystem) : Prop :=
  ∀ ip, (after.inode ip).ref = (before.inode ip).ref ∧
    (after.inode ip).inum = (before.inode ip).inum ∧
    ((before.inode ip).valid = true → (after.inode ip).valid = true)

namespace Shows

variable {volume after : Volume} {fs next : FsState} {ip dp : InodePtr} {i d : Nat}
  (shows : Shows volume fs)
include shows

theorem allocated (referenced : 0 < (fs.inode ip).ref) :
    (fs.stat (fs.inode ip).inum).type ≠ 0 := by
  have used := shows.used ip referenced
  rw [(shows.inodes (shows.inside used).2).type]
  exact used

theorem flushed (live : fs.live i ip = true) : fs.Flushed ip :=
  flushed_of_written shows.sound.consistent.once live
    (shows.inodes (live_inside shows.sound.consistent live)).written

/-- The cache keeps its entries. -/
theorem keeps (sound : Sound next) (sb : next.sb = fs.sb)
    (entries : KeepsEntries fs.toFileSystem next.toFileSystem)
    (kinds : after.naming.kind = volume.naming.kind)
    (inodes : ∀ {i}, i < fs.sb.ninodes → ShowsAt after next.toFileSystem i)
    (unnamed : ∀ i, after.naming.links i = 0 → volume.naming.links i = 0 ∨
      ∃ ip, fs.live i ip = true) : Shows after next where
  sound := sound
  small := by
    rw [sb]
    exact shows.small
  short := by
    rw [sb]
    exact shows.short
  inside used := by
    rw [kinds] at used
    rw [sb]
    exact shows.inside used
  inodes within := inodes (sb ▸ within)
  counted ip := by
    rw [(entries ip).1]
    exact shows.counted ip
  used ip referenced := by
    rw [(entries ip).1] at referenced
    rw [(entries ip).2.1, kinds]
    exact shows.used ip referenced
  read ip referenced none := by
    rw [(entries ip).1] at referenced
    rw [(entries ip).2.1] at none
    apply (entries ip).2.2
    obtain before | ⟨other, live⟩ := unnamed _ none
    · exact shows.read ip referenced before
    · obtain ⟨used, valid, same⟩ := live_iff.mp live
      rw [← shows.sound.consistent.once other ip used referenced same]
      exact valid
  kept i used := by
    rw [kinds] at used
    by_cases none : after.naming.links i = 0
    · refine Or.inr ?_
      obtain before | ⟨other, live⟩ := unnamed _ none
      · obtain ⟨ip, referenced, same⟩ := (shows.kept i used).resolve_left (not_not.mpr before)
        exact ⟨ip, (entries ip).1 ▸ referenced, (entries ip).2.1.trans same⟩
      · obtain ⟨referenced, -, same⟩ := live_iff.mp live
        exact ⟨other, (entries other).1 ▸ referenced, (entries other).2.1.trans same⟩
    · exact Or.inl none

/-- One entry of the inode cache changes, and nothing on the disk. -/
theorem recache {inode : Inode}
    (changed : next = { fs with toFileSystem := fs.toFileSystem.setInode ip inode })
    (sound : Sound next) (stat : ∀ i, (next.stat i).Alike (fs.stat i)) (counted : 0 ≤ inode.ref)
    (used : 0 < inode.ref → volume.naming.kind inode.inum ≠ 0)
    (read : 0 < inode.ref → volume.naming.links inode.inum = 0 → inode.valid = true)
    (kept : 0 < (fs.inode ip).ref → volume.naming.links (fs.inode ip).inum = 0 →
      0 < inode.ref ∧ inode.inum = (fs.inode ip).inum) : Shows volume next := by
  have here : next.inode ip = inode := by
    rw [changed]
    exact setInode_self ..
  have away : ∀ other, other ≠ ip → next.inode other = fs.inode other := by
    intro other different
    rw [changed]
    exact setInode_of_ne _ different _
  have block : next.block = fs.block := by rw [changed]; rfl
  have sb : next.sb = fs.sb := by rw [changed]; rfl
  have disk : ∀ i, next.dinode i = fs.dinode i := by
    intro i
    rw [FileSystem.dinode, block, sb, FileSystem.dinode]
  have cases : ∀ Condition : Inode → Prop, (∀ other, Condition (fs.inode other)) →
      Condition inode → ∀ other, Condition (next.inode other) := by
    intro Condition before self other
    by_cases same : other = ip
    · rw [same, here]
      exact self
    · rw [away other same]
      exact before other
  refine ⟨sound, sb ▸ shows.small, sb ▸ shows.short, sb ▸ shows.inside, ?_, ?_, ?_, ?_, ?_⟩
  · intro i within
    rw [sb] at within
    have before := shows.inodes within
    refine before.congr (Volume.Agrees.refl volume i) sb (stat i).kind ?_ fun array file => ?_
    · rw [disk]
      exact (stat i).trans before.written
    · exact file.of_alike shows.sound.consistent sb (stat i) fun b _ => congrFun block b
  · exact cases (fun inode => 0 ≤ inode.ref) shows.counted counted
  · exact cases (fun inode => 0 < inode.ref → volume.naming.kind inode.inum ≠ 0)
      shows.used used
  · exact cases (fun inode => 0 < inode.ref → volume.naming.links inode.inum = 0 →
      inode.valid = true) shows.read read
  · intro i inUse
    obtain linked | ⟨other, referenced, same⟩ := shows.kept i inUse
    · exact Or.inl linked
    · by_cases unlinked : volume.naming.links i = 0
      · refine Or.inr ?_
        by_cases equal : other = ip
        · subst equal
          have still := kept referenced (same ▸ unlinked)
          rw [← here] at still
          exact ⟨other, still.1, still.2.trans same⟩
        · rw [← away other equal] at referenced same
          exact ⟨other, referenced, same⟩
      · exact Or.inl unlinked

/-- Inode `i` changes, and entry `ip` of the inode cache, which is free or has this inode. -/
theorem replace (sound : Sound next) (sb : next.sb = fs.sb)
    (agrees : ∀ j, j ≠ i → after.Agrees volume j)
    (stat : ∀ j < fs.sb.ninodes, j ≠ i → (next.stat j).Alike (fs.stat j))
    (disk : ∀ j < fs.sb.ninodes, j ≠ i → (next.dinode j).Alike (fs.dinode j))
    (data : ∀ b, fs.sb.dataStart ≤ b → next.block b = fs.block b)
    (others : ∀ other, other ≠ ip → next.inode other = fs.inode other)
    (alone : ∀ other, other ≠ ip → 0 < (fs.inode other).ref → (fs.inode other).inum ≠ i)
    (before : 0 < (fs.inode ip).ref → (fs.inode ip).inum = i)
    (inside : i ≠ 0 ∧ i < fs.sb.ninodes) (node : ShowsAt after next.toFileSystem i)
    (counted : 0 ≤ (next.inode ip).ref)
    (used : 0 < (next.inode ip).ref ↔ after.naming.kind i ≠ 0)
    (cached : 0 < (next.inode ip).ref → (next.inode ip).inum = i ∧ (next.inode ip).valid = true) :
    Shows after next := by
  refine ⟨sound, sb ▸ shows.small, sb ▸ shows.short, ?_, ?_, ?_, ?_, ?_, ?_⟩
  · intro j inUse
    rw [sb]
    by_cases same : j = i
    · exact same ▸ inside
    · rw [(agrees j same).kind] at inUse
      exact shows.inside inUse
  · intro j within
    rw [sb] at within
    by_cases same : j = i
    · exact same ▸ node
    · have shown := shows.inodes within
      refine shown.congr (agrees j same) sb (stat j within same).kind ?_ fun array file => ?_
      · exact ((stat j within same).trans shown.written).trans (disk j within same).symm
      · exact file.of_alike shows.sound.consistent sb (stat j within same) data
  · intro other
    by_cases same : other = ip
    · exact same ▸ counted
    · rw [others other same]
      exact shows.counted other
  · intro other referenced
    by_cases same : other = ip
    · subst same
      rw [(cached referenced).1]
      exact used.mp referenced
    · rw [others other same] at referenced ⊢
      rw [(agrees _ (alone other same referenced)).kind]
      exact shows.used other referenced
  · intro other referenced none
    by_cases same : other = ip
    · subst same
      exact (cached referenced).2
    · rw [others other same] at referenced none ⊢
      rw [(agrees _ (alone other same referenced)).links] at none
      exact shows.read other referenced none
  · intro j inUse
    by_cases same : j = i
    · subst same
      have referenced := used.mpr inUse
      exact Or.inr ⟨ip, referenced, (cached referenced).1⟩
    · rw [(agrees j same).kind] at inUse
      rw [(agrees j same).links]
      refine (shows.kept j inUse).imp_right ?_
      rintro ⟨other, referenced, number⟩
      have different : other ≠ ip := by
        rintro rfl
        exact same (number.symm.trans (before referenced))
      rw [← others other different] at referenced number
      exact ⟨other, referenced, number⟩

/-! ## References and locks -/

/-- A reference to inode `i` was taken at entry `ip`. -/
structure Took (fs : FsState) (ip : InodePtr) (i : Nat) (next : FsState) : Prop where
  others : ∀ other, other ≠ ip → next.inode other = fs.inode other
  number : (next.inode ip).inum = i
  ref : (next.inode ip).ref = (fs.inode ip).ref + 1
  kept : 0 < (fs.inode ip).ref →
    (fs.inode ip).inum = i ∧ (next.inode ip).valid = (fs.inode ip).valid

theorem iget (live : scheme.Live volume.naming i) :
    (Fs.iget i fs).Ends OutOfSpace fun ip next => Shows volume next ∧ Took fs ip i next := by
  have within := (shows.inside live.1).2
  refine (iget_ends i fs).imp (fun _ full => Or.inl full.1) fun ip next got => ?_
  have taken := iget_gets shows.sound within got
  have stat : ∀ i, (next.stat i).Alike (fs.stat i) := fun i => by
    rw [taken.stat]
    exact Dinode.Alike.refl _
  obtain ⟨other, referenced, number, cached⟩ | ⟨other, free, -, recycled⟩ | ⟨-, full⟩ :=
    iget_cases i fs
  · cases cached.symm.trans got
    refine ⟨shows.recache rfl taken.sound stat ?_ ?_ ?_ ?_, fun other different =>
      setInode_of_ne _ different _, taken.number, ?_, ?_⟩
    · exact Int.le_add_one (shows.counted ip)
    · exact fun _ => shows.used ip referenced
    · exact fun _ => shows.read ip referenced
    · exact fun _ _ => ⟨Int.lt_add_one_of_le (shows.counted ip), rfl⟩
    · exact congrArg Inode.ref (setInode_self ..)
    · exact fun _ => ⟨number, (congrArg Inode.valid (setInode_self fs.toFileSystem ip _)).trans rfl⟩
  · cases recycled.symm.trans got
    refine ⟨shows.recache rfl taken.sound stat ?_ ?_ ?_ ?_, fun other different =>
      setInode_of_ne _ different _, taken.number, ?_, ?_⟩
    · exact Int.one_nonneg
    · exact fun _ => live.1
    · exact fun _ unlinked => absurd unlinked live.2
    · exact fun used => absurd free (Int.ne_of_gt used)
    · rw [free]
      exact congrArg Inode.ref (setInode_self ..)
    · exact fun used => absurd free (Int.ne_of_gt used)
  · cases full.symm.trans got

theorem idup (referenced : 0 < (fs.inode ip).ref) :
    ∃ next, Fs.idup ip fs = .done ip next ∧ Shows volume next ∧
      Took fs ip (fs.inode ip).inum next := by
  obtain ⟨next, done, borrowed, number⟩ :=
    (Borrowed.refl shows.sound shows.counted).idup referenced
  have changed : Fs.idup ip fs = .done ip { fs with
      toFileSystem := fs.toFileSystem.setInode ip { fs.inode ip with
        ref := (fs.inode ip).ref + 1 } } := rfl
  cases changed.symm.trans done
  refine ⟨_, rfl, shows.recache rfl borrowed.sound ?_ ?_ ?_ ?_ ?_,
    fun other different => setInode_of_ne _ different _, number, ?_, ?_⟩
  · intro i
    rw [borrowed.stat]
    exact Dinode.Alike.refl _
  · exact Int.le_add_one (shows.counted ip)
  · exact fun _ => shows.used ip referenced
  · exact fun _ => shows.read ip referenced
  · exact fun _ _ => ⟨Int.lt_add_one_of_le (shows.counted ip), rfl⟩
  · exact congrArg Inode.ref (setInode_self ..)
  · exact fun _ => ⟨rfl, (congrArg Inode.valid (setInode_self fs.toFileSystem ip _)).trans rfl⟩

/-- The inode is locked and read, and what shows stays. -/
theorem ilock (referenced : 0 < (fs.inode ip).ref) :
    ∃ next, Fs.ilock ip fs = .done () next ∧ Shows volume next ∧
      KeepsEntries fs.toFileSystem next.toFileSystem ∧ (next.inode ip).valid = true ∧
      ∀ d array, Directory fs.toFileSystem d array → Directory next.toFileSystem d array := by
  obtain ⟨valid, done⟩ | ⟨stale, done⟩ :=
    ilock_cases shows.sound referenced (shows.allocated referenced)
  · exact ⟨fs, done, shows, fun _ => ⟨rfl, rfl, fun read => read⟩, valid, fun _ _ same => same⟩
  · have stat := stat_load shows.sound.consistent.once referenced stale
    refine ⟨_, done, shows.recache rfl ((ilock_sound shows.sound).of_done done) ?_ ?_ ?_ ?_ ?_,
      fun other => ?_, ?_, fun d array directory => directory.congr stat rfl rfl⟩
    · intro i
      change ((fs.toFileSystem.setInode ip _).stat i).Alike _
      rw [stat]
      exact Dinode.Alike.refl _
    · exact shows.counted ip
    · exact fun _ => shows.used ip referenced
    · exact fun _ _ => rfl
    · exact fun _ _ => ⟨referenced, rfl⟩
    · by_cases same : other = ip
      · rw [same, loaded_self]
        exact ⟨rfl, rfl, fun _ => rfl⟩
      · rw [loaded_of_ne fs same]
        exact ⟨rfl, rfl, fun read => read⟩
    · rw [loaded_self]

/-- A reference at entry `ip` was given back. -/
structure Gave (fs : FsState) (ip : InodePtr) (next : FsState) : Prop where
  others : ∀ other, other ≠ ip → next.inode other = fs.inode other
  ref : (next.inode ip).ref = (fs.inode ip).ref - 1
  kept : 1 < (fs.inode ip).ref → (next.inode ip).inum = (fs.inode ip).inum ∧
    (next.inode ip).valid = (fs.inode ip).valid

/-- A reference is dropped, and the inode stays. -/
theorem iput (referenced : 0 < (fs.inode ip).ref)
    (stays : volume.naming.links (fs.inode ip).inum ≠ 0 ∨ 1 < (fs.inode ip).ref) :
    ∃ next, Fs.iput ip fs = .done () next ∧ Shows volume next ∧ Gave fs ip next := by
  have once := shows.sound.consistent.once
  have used := shows.used ip referenced
  have here := shows.inodes (shows.inside used).2
  have kept : (fs.inode ip).valid = true →
      (fs.inode ip).nlink ≠ 0 ∨ 1 < (fs.inode ip).ref := by
    intro valid
    have live : fs.live (fs.inode ip).inum ip = true := live_iff.mpr ⟨referenced, valid, rfl⟩
    have nlink := here.nlink used
    rw [stat_of_live once live] at nlink
    rw [nlink]
    exact stays
  obtain ⟨next, done, released⟩ := iput_released shows.sound referenced kept fun valid =>
    shows.flushed (live_iff.mpr ⟨referenced, valid, rfl⟩)
  have dropped := @iput_drops fs ip (by
    rintro ⟨valid, unlinked, last⟩
    obtain linked | more := kept valid
    · exact linked unlinked
    · omega)
  cases dropped.symm.trans done
  refine ⟨_, dropped, shows.recache rfl released.sound released.stat ?_ ?_ ?_ ?_,
    fun other different => released.others different, ?_, fun _ => ?_⟩
  · dsimp only
    omega
  · exact fun _ => used
  · exact fun _ => shows.read ip referenced
  · intro _ unlinked
    have more := stays.resolve_left (not_not.mpr unlinked)
    refine ⟨?_, rfl⟩
    dsimp only
    omega
  · rw [released.self]
  · rw [released.self]
    exact ⟨rfl, rfl⟩

/-- With the last reference an inode without names is freed. -/
theorem iput_last (last : (fs.inode ip).ref = 1)
    (unlinked : volume.naming.links (fs.inode ip).inum = 0) :
    ∃ next, Fs.iput ip fs = .done () next ∧
      Shows { volume with naming := volume.naming.setKind (fs.inode ip).inum 0 } next ∧
      Gave fs ip next := by
  have once := shows.sound.consistent.once
  have referenced : 0 < (fs.inode ip).ref := last ▸ Int.one_pos
  have used := shows.used ip referenced
  have within := (shows.inside used).2
  have live : fs.live (fs.inode ip).inum ip = true :=
    live_iff.mpr ⟨referenced, shows.read ip referenced unlinked, rfl⟩
  have nlink := (shows.inodes within).nlink used
  rw [stat_of_live once live, unlinked] at nlink
  obtain ⟨next, done, freed⟩ := iput_frees shows.sound live nlink last
  obtain ⟨sound, changes, refs, type⟩ := freed
  have gone : (next.inode ip).ref = 0 := by
    rw [refs, last, if_pos rfl]
    rfl
  have unread : ∀ i, next.live i ip = false := fun i => Bool.eq_false_iff.mpr fun live =>
    absurd (live_iff.mp live).1 (by omega)
  -- The other entries of the cache belong to other inodes.
  have alone : ∀ other, other ≠ ip → 0 < (fs.inode other).ref →
      (fs.inode other).inum ≠ (fs.inode ip).inum := fun other different still equal =>
    different (once other ip still referenced equal)
  have stat : ∀ i < fs.sb.ninodes, i ≠ (fs.inode ip).inum →
      (next.stat i).Alike (fs.stat i) := by
    intro i inside different
    refine stat_of_others once sound.consistent.once changes.others ?_ (unread i)
      (changes.disk i inside different)
    exact Bool.eq_false_iff.mpr fun live => different (live_iff.mp live).2.2.symm
  have uncached : next.stat (fs.inode ip).inum = next.dinode (fs.inode ip).inum := by
    refine stat_of_disk fun other => Bool.eq_false_iff.mpr fun live => ?_
    obtain ⟨positive, -, number⟩ := live_iff.mp live
    have different : other ≠ ip := by
      rintro rfl
      omega
    rw [changes.others other different] at positive number
    exact alone other different positive number
  refine ⟨next, done, shows.replace sound changes.sb ?_ stat changes.disk changes.data
    changes.others alone (fun _ => rfl) (shows.inside used) ?_ (Int.le_of_eq gone.symm) ?_ ?_,
    changes.others, ?_, fun more => ?_⟩
  · exact fun i different => ⟨by simp [different], rfl, rfl, rfl⟩
  · refine ⟨?_, ?_, ?_, ?_, ?_⟩
    · simp [uncached, type]
    · simp
    · rw [uncached]
      exact Dinode.Alike.refl _
    · simp [tDir]
    · simp [tFile]
  · simp [gone]
  · exact fun positive => absurd positive (by omega)
  · rw [refs, if_pos rfl]
  · omega

/-! ## Changing an inode -/

/-- The fields of a read inode are set, and it is written back. -/
theorem setFields (live : fs.live i ip = true) {change : Inode → Inode}
    (same : change (fs.inode ip) = { fs.inode ip with
      major := (change (fs.inode ip)).major, minor := (change (fs.inode ip)).minor,
      nlink := (change (fs.inode ip)).nlink })
    (major : (change (fs.inode ip)).major < 256 ^ 2)
    (minor : (change (fs.inode ip)).minor < 256 ^ 2)
    (nlink : (change (fs.inode ip)).nlink < 256 ^ 2) :
    ∃ next, Path.setFields ip change fs = .done () next ∧
      Shows { volume with
        naming := volume.naming.setLinks i (change (fs.inode ip)).nlink } next ∧
      KeepsEntries fs.toFileSystem next.toFileSystem ∧
      ∀ d array, Directory fs.toFileSystem d array → Directory next.toFileSystem d array := by
  have once := shows.sound.consistent.once
  have inside := live_inside shows.sound.consistent live
  obtain ⟨next, done, relinked⟩ := setFields_relinks shows.sound live same
  have typed := (shows.flushed live).typed
  generalize change (fs.inode ip) = inode at *
  have sb := relinked.content.sb
  have number : inode.inum = i := by
    rw [same]
    exact (live_iff.mp live).2.2
  have here : next.inode ip = inode := by rw [relinked.inodes, Function.update_self]
  have type : inode.type = (fs.stat i).type := by
    rw [same, stat_of_live once live]
  have self : next.stat i = inode.toDinode := by rw [← number, relinked.self]
  have entries : KeepsEntries fs.toFileSystem next.toFileSystem := by
    intro other
    by_cases equal : other = ip
    · rw [equal, here, same]
      exact ⟨rfl, rfl, fun read => read⟩
    · rw [relinked.inodes, Function.update_of_ne equal]
      exact ⟨rfl, rfl, fun read => read⟩
  have types : ∀ d, d < fs.sb.ninodes → (next.stat d).type = (fs.stat d).type :=
    relinked.content.types
  refine ⟨next, done, shows.keeps relinked.sound sb entries rfl ?_ ?_, entries,
    fun d array directory => directory.of_file
      (relinked.content.keepsFiles d array directory.file) sb (types d directory.file.inside)⟩
  · intro j within
    have before := shows.inodes within
    by_cases equal : j = i
    · subst equal
      refine ⟨?_, fun _ => ?_, ?_, fun isDirectory => ?_, fun plain => ?_⟩
      · rw [types j within]
        exact before.type
      · simp [self]
      · have size : inode.size = (fs.inode ip).size := by rw [same]
        have kind : inode.type = (fs.inode ip).type := by rw [same]
        have written := relinked.flushed
          ⟨kind ▸ typed.type, major, minor, nlink, size ▸ typed.size⟩
        rw [FileSystem.Flushed, here, number, ← self] at written
        exact written
      · exact (before.directory isDirectory).of_files sb (types j within)
          (relinked.content.keepsFiles j)
      · exact relinked.content.keepsFiles j _ (before.file plain)
    · have alike := relinked.others j (number ▸ equal)
      refine before.congr ⟨rfl, by simp [equal], rfl, rfl⟩ sb alike.kind ?_
        (relinked.content.keepsFiles j)
      exact (alike.trans before.written).trans (relinked.disk j (number ▸ equal)).symm
  · intro j none
    by_cases equal : j = i
    · subst equal
      exact Or.inr ⟨ip, live⟩
    · exact Or.inl (by simpa [equal] using none)

end Shows

end Xv6.Path
