import Xv6.Fs.Create
import Xv6.Fs.FullDirectory

/-!
# Linking a file

`sys_link` in `sysfile.c`. It counts the new link first and takes it back when
the entry cannot be made. `dirlink` does not return in a directory without room,
nor when the name is bound to the directory itself.
-/

namespace Xv6.Path

open Xv6.Library Xv6.Fs

/-! ## The function -/

/-- `nlink` is a short. -/
def dropLink (inode : Inode) : Inode :=
  { inode with nlink := if inode.nlink = 0 then 2 ^ 16 - 1 else inode.nlink - 1 }

/-- The statements after `bad`. -/
def linkBad (ip : InodePtr) : Action Kernel Int := do
  ilock ip
  onInodes (setFields ip dropLink)
  iunlockput ip
  return -1

variable (consoleread : Int → Int × List UInt8)

/-- The statements from `dirlink` on, with both inodes found and `dp` locked. There is one
device. -/
def linkEntry (ip dp : InodePtr) (name : Memory) : Action Kernel Int := do
  let inum ← Action.get fun k : Kernel => (k.fs.inode ip).inum
  let linked ← onInodes (dirlink consoleread dp name inum)
  if linked < 0 then
    iunlockput dp
    linkBad ip
  else
    iunlockput dp
    iput ip
    return 0

/-- Create the path `new` as a link to the same inode as `old`. -/
def sysLink (old new : List UInt8) : Action Kernel Int := do
  match ← namei consoleread old with
  | none => return -1
  | some ip =>
      ilock ip
      let inode ← Action.get fun k : Kernel => k.fs.inode ip
      if inode.type = tDir then
        iunlockput ip
        return -1
      else
        onInodes (setFields ip addLink)
        iunlock ip
        let parent ← nameiparent consoleread new fun _ => 0
        match parent.1 with
        | none => linkBad ip
        | some dp =>
            ilock dp
            linkEntry consoleread ip dp parent.2

/-! ## What link leaves -/

/-- No lock is held, every inode has its references and its links, and every file and directory
has its content. -/
structure Restored (before after : Kernel) : Prop where
  unlocked : ∀ ip, after.held ip = false
  refs : ∀ ip, (after.fs.inode ip).ref = (before.fs.inode ip).ref
  stat : ∀ i, (after.fs.stat i).Alike (before.fs.stat i)
  files : KeepsFiles before.fs.toFileSystem after.fs.toFileSystem

/-- Directory `d`, which had the content `array`, has the entry `name` for inode `i`, which has
one more link. -/
structure Linked (before : Kernel) (d : Nat) (array name : List UInt8) (i : Nat)
    (after : Kernel) : Prop where
  unlocked : ∀ ip, after.held ip = false
  refs : ∀ ip, (after.fs.inode ip).ref = (before.fs.inode ip).ref
  entry : ∃ later, Directory after.fs.toFileSystem d later ∧
    bindings later = Function.update (bindings array) name (some i)
  nlink : (after.fs.stat i).nlink = (before.fs.stat i).nlink + 1
  others : ∀ j, j ≠ d → ∀ content, File before.fs.toFileSystem j content →
    File after.fs.toFileSystem j content

/-- Link made the new entry, or it failed and everything is as before. -/
def LinkedOrRestored (before : Kernel) (content : Nat → List UInt8) (old new : List UInt8)
    (result : Int) (after : Kernel) : Prop :=
  (result = 0 ∧ ∃ i d name,
    walk before.fs.toFileSystem content (before.start old) (elements old) = some i ∧
    walkParent before.fs.toFileSystem content (before.start new) (elements new) = some (d, name) ∧
    Linked before d (content d) name i after) ∨
  result = -1 ∧ Restored before after

/-- In directory `d` there is no room for the new name, or it is the name of `d` itself. -/
def Closed (fs : FileSystem) (d : Nat) (array name : List UInt8) : Prop :=
  bindings array name = none ∧ ¬Room fs d array ∨ bindings array name = some d

/-- The file `old` is there, and the directory for the new name is closed to it. -/
def Stuck (k : Kernel) (content : Nat → List UInt8) (old new : List UInt8) : Prop :=
  ∃ i d name, walk k.fs.toFileSystem content (k.start old) (elements old) = some i ∧
    (k.fs.stat i).type ≠ tDir ∧
    walkParent k.fs.toFileSystem content (k.start new) (elements new) = some (d, name) ∧
    Closed k.fs.toFileSystem d (content d) name

/-- Three entries of the inode cache are free. -/
def SpareThree (fs : FileSystem) : Prop :=
  ∃ a b c, (a ≠ b ∧ a ≠ c ∧ b ≠ c) ∧
    (fs.inode a).ref = 0 ∧ (fs.inode b).ref = 0 ∧ (fs.inode c).ref = 0

/-- The tree of a running system: its inodes have been written back, no count of links is
negative, and the process is in a directory. -/
structure Running (k : Kernel) (nodes : Nat → Prop) (content : Nat → List UInt8) : Prop where
  ready : Ready k nodes content
  atRest : AtRest k.fs.toFileSystem
  links : ∀ i, nodes i → (k.fs.stat i).nlink < 2 ^ 15
  home : (k.fs.stat (k.fs.inode k.cwd).inum).type = tDir

/-! ## One more link -/

section Link

variable {start k : Kernel} {nodes : Nat → Prop} {content : Nat → List UInt8} {ip dp : InodePtr}
  {i d : Nat} {consoleread : Int → Int × List UInt8}

/-- The names lead where they led when no inode changes its type. -/
theorem walkParent_congr {fs later : FileSystem}
    (types : ∀ i, (later.stat i).type = (fs.stat i).type) (i : Nat) (names : List (List UInt8)) :
    walkParent later content i names = walkParent fs content i names := by
  have same : child later content = child fs content := by
    funext i name
    rw [child, child, types]
  simp only [walkParent, walk, same, types]

/-- An entry has the number of an inode. -/
theorem child_number {fs : FileSystem} {j : Nat} {name : List UInt8}
    (found : child fs content i name = some j) : j ≠ 0 ∧ j < 256 ^ 2 := by
  rw [child] at found
  split at found
  · obtain ⟨⟨index, target⟩, entry, rfl⟩ := Option.map_eq_some_iff.mp found
    obtain ⟨nonzero, -, number⟩ := entryOf_some (SlotTable.find_some entry).2
    subst number
    exact ⟨nonzero, Memory.load_lt ..⟩
  · cases found

theorem walk_number {fs : FileSystem} {names : List (List UInt8)} {j : Nat}
    (leads : walk fs content i names = some j) (begins : names = [] → i ≠ 0 ∧ i < 256 ^ 2) :
    j ≠ 0 ∧ j < 256 ^ 2 := by
  induction names generalizing i with
  | nil =>
      cases leads
      exact begins rfl
  | cons name rest inductionHypothesis =>
      rw [walk, List.foldlM_cons] at leads
      obtain ⟨next, found, further⟩ := Option.bind_eq_some_iff.mp leads
      exact inductionHypothesis further fun _ => child_number found

/-- The number of a file fits into an entry. -/
theorem Running.number (running : Running k nodes content) {path : List UInt8}
    (leads : walk k.fs.toFileSystem content (k.start path) (elements path) = some i)
    (file : (k.fs.stat i).type ≠ tDir) : i ≠ 0 ∧ i < 256 ^ 2 := by
  refine walk_number leads fun ended => ?_
  rw [ended] at leads
  cases leads
  rw [Kernel.start] at file ⊢
  split at file
  · rename_i absolute
    rw [if_pos absolute]
    decide
  · exact absurd running.home file

/-- The links of inode `i`, which `ip` refers to, count one more. -/
structure Counted (start : Kernel) (ip : InodePtr) (i : Nat) (k : Kernel) : Prop where
  sound : Sound k.fs
  held : k.held = unlocked
  cwd : k.cwd = start.cwd
  sb : k.fs.sb = start.fs.sb
  refs : ∀ other, (k.fs.inode other).ref = (start.fs.inode other).ref + one ip other
  inums : ∀ other, 0 < (start.fs.inode other).ref →
    (k.fs.inode other).inum = (start.fs.inode other).inum
  inum : (k.fs.inode ip).inum = i
  self : k.fs.stat i = { start.fs.stat i with nlink := (start.fs.stat i).nlink + 1 }
  others : ∀ j, j ≠ i → (k.fs.stat j).Alike (start.fs.stat j)
  written : ∀ j, (k.fs.stat j).Alike (k.fs.dinode j)
  files : KeepsFiles start.fs.toFileSystem k.fs.toFileSystem
  number : ∀ place, k.fs.number place = start.fs.number place
  free : k.fs.free = start.fs.free

theorem Carrying.counts (running : Running start nodes content)
    (held : Carrying start (one ip) (Function.update unlocked ip true) k)
    (node : Node nodes k ip i) (live : k.fs.live i ip = true) :
    ∃ fs next, setFields ip addLink k.fs = .done () fs ∧
      Path.iunlock ip { k with fs := fs } = .done () next ∧ Counted start ip i next := by
  obtain ⟨referenced, -, number⟩ := live_iff.mp live
  have stat := stat_of_live held.fs.sound.consistent.once live
  rw [held.fs.stat] at stat
  have few := running.links i node.node
  rw [stat] at few
  have flushed := held.flushed running.atRest live
  obtain ⟨fs, set, relinked⟩ := @setFields_relinks ip k.fs i held.fs.sound live addLink rfl
  have inum : (addLink (k.fs.inode ip)).inum = i := number
  have self : fs.inode ip = addLink (k.fs.inode ip) := by
    rw [relinked.inodes, Function.update_self]
  have away : ∀ other, other ≠ ip → fs.inode other = k.fs.inode other := by
    intro other different
    rw [relinked.inodes, Function.update_of_ne different]
  have unlocks : Path.iunlock ip { k with fs := fs } =
      .done () { k with fs := fs, held := Function.update k.held ip false } := by
    refine @iunlock_done { k with fs := fs } ip ?_ ?_
    · change 0 < (fs.inode ip).ref
      rw [self]
      exact referenced
    · change k.held ip = true
      rw [held.held, Function.update_self]
  refine ⟨fs, _, set, unlocks, ⟨relinked.sound, ?_, held.cwd,
    relinked.content.sb.trans held.fs.sb, ?_, ?_, ?_, ?_, ?_, ?_, ?_, ?_, ?_⟩⟩
  · change Function.update k.held ip false = unlocked
    have off : unlocked ip = false := rfl
    rw [held.held, Function.update_idem, ← off, Function.update_eq_self]
  · intro other
    rw [← held.fs.refs other]
    change (fs.inode other).ref = _
    by_cases same : other = ip
    · rw [same, self]
      rfl
    · rw [away other same]
  · intro other used
    rw [← held.fs.number other used]
    change (fs.inode other).inum = _
    by_cases same : other = ip
    · rw [same, self]
      rfl
    · rw [away other same]
  · change (fs.inode ip).inum = i
    rw [self, inum]
  · change fs.stat i = _
    rw [← inum, relinked.self, inum, stat, addLink, Nat.mod_eq_of_lt (by omega)]
  · intro j different
    rw [← held.fs.stat]
    exact relinked.others j (inum ▸ different)
  · intro j
    by_cases same : j = i
    · have typed : (addLink (k.fs.inode ip)).Typed := by
        obtain ⟨type, major, minor, -, size⟩ := flushed.typed
        exact ⟨type, major, minor, Nat.mod_lt _ (by decide), size⟩
      have written := relinked.flushed typed
      rw [FileSystem.Flushed, self, inum] at written
      change (fs.stat j).Alike (fs.dinode j)
      rw [same, ← inum, relinked.self, inum]
      exact written
    · have disk := relinked.disk j (inum ▸ same)
      have before := running.atRest.written j
      rw [← held.fs.stat, ← held.dinode] at before
      exact ((relinked.others j (inum ▸ same)).trans before).trans disk.symm
  · intro j array file
    exact relinked.content.keepsFiles j array (held.fs.file file)
  · intro place
    exact (relinked.content.number place).trans (held.fs.number_eq place)
  · exact relinked.free.trans held.fs.free

namespace Counted

theorem types (counted : Counted start ip i k) (j : Nat) :
    (k.fs.stat j).type = (start.fs.stat j).type := by
  by_cases same : j = i
  · rw [same, counted.self]
  · exact (counted.others j same).kind.type

theorem referenced (counted : Counted start ip i k) (ready : Ready start nodes content) :
    0 < (k.fs.inode ip).ref := by
  have before := ready.tree.counted ip
  rw [counted.refs, one_self]
  omega

theorem ready (counted : Counted start ip i k) (ready : Ready start nodes content) :
    Ready k nodes content := by
  have tree := ready.tree
  refine ⟨⟨counted.sound, ?_, ?_, ?_, ?_, ?_, ?_⟩, ready.root, ?_, ?_, counted.held⟩
  · intro other
    have before := tree.counted other
    rw [counted.refs]
    omega
  · intro j inside
    rw [counted.sb]
    exact tree.inside j inside
  · intro j inside
    rw [counted.types]
    exact tree.allocated j inside
  · intro j inside
    by_cases same : j = i
    · exact Or.inr ⟨ip, counted.referenced ready, counted.inum.trans same.symm⟩
    · obtain linked | ⟨other, used, here⟩ := tree.kept j inside
      · rw [(counted.others j same).kind.nlink]
        exact Or.inl linked
      · refine Or.inr ⟨other, ?_, (counted.inums other used).trans here⟩
        rw [counted.refs]
        omega
  · intro j inside directory
    rw [counted.types] at directory
    have before := tree.directory j inside directory
    exact before.of_file (counted.files j _ before.file) counted.sb (counted.types j)
  · intro j inside directory
    rw [counted.types] at directory
    exact tree.closed j inside directory
  · rw [counted.cwd, counted.inums start.cwd ready.referenced]
    exact ready.cwd
  · have used := ready.referenced
    rw [counted.cwd, counted.refs]
    omega

theorem atRest (counted : Counted start ip i k) (running : Running start nodes content)
    (node : nodes i) : AtRest k.fs.toFileSystem where
  written := counted.written
  typed other used := by
    rw [counted.types]
    by_cases before : 0 < (start.fs.inode other).ref
    · rw [counted.inums other before]
      exact running.atRest.typed other before
    · have same : other = ip := by
        by_contra different
        have refs := counted.refs other
        rw [one, Function.update_of_ne different, nothing] at refs
        omega
      rw [same, counted.inum]
      exact running.ready.tree.allocated i node

theorem begins (counted : Counted start ip i k) (ready : Ready start nodes content)
    (path : List UInt8) : k.start path = start.start path := by
  rw [Kernel.start, Kernel.start, counted.cwd, counted.inums start.cwd ready.referenced]

end Counted

/-! ## Taking the link back -/

theorem released_refs {before after : FsState} (released : Released before ip after)
    (other : InodePtr) :
    (after.inode other).ref + one ip other = (before.inode other).ref := by
  by_cases same : other = ip
  · rw [same, released.self, one_self]
    exact Int.sub_add_cancel ..
  · have none : one ip other = 0 := Function.update_of_ne same ..
    rw [released.others same, none]
    exact Int.add_zero _

/-- After `bad` everything is as it was before the link was counted. -/
theorem Counted.linkBad {counted k : Kernel} (after : Counted start ip i counted)
    (running : Running start nodes content) (node : nodes i)
    (carrying : Carrying counted nothing unlocked k) :
    ∃ next, linkBad ip k = .done (-1) next ∧ Restored start next := by
  have ready := after.ready running.ready
  have used := after.referenced running.ready
  have referenced : 0 < (k.fs.inode ip).ref := by
    have refs := carrying.fs.refs ip
    omega
  have here : Node nodes k ip i := ⟨node, (carrying.fs.number ip used).trans after.inum⟩
  obtain ⟨locking, locks, held, there, live⟩ :=
    carrying.ilock ready.tree here referenced rfl
  have stat := stat_of_live held.fs.sound.consistent.once live
  rw [held.fs.stat, after.self] at stat
  have few := running.links i node
  have flushed := held.flushed (after.atRest running node) live
  obtain ⟨fs, set, relinked⟩ :=
    @setFields_relinks ip locking.fs i held.fs.sound live dropLink rfl
  have self : fs.inode ip = dropLink (locking.fs.inode ip) := by
    rw [relinked.inodes, Function.update_self]
  have inum : (dropLink (locking.fs.inode ip)).inum = i := there.number
  have links : (dropLink (locking.fs.inode ip)).toDinode = start.fs.stat i := by
    rw [dropLink, ← stat, if_neg (Nat.succ_ne_zero _), Nat.add_sub_cancel]
  have typed : (dropLink (locking.fs.inode ip)).Typed := by
    obtain ⟨type, major, minor, -, size⟩ := flushed.typed
    have short : (dropLink (locking.fs.inode ip)).nlink < 256 ^ 2 := by
      rw [links]
      exact Nat.lt_of_lt_of_le few (by decide)
    exact ⟨type, major, minor, short, size⟩
  have refs : ∀ other, (fs.inode other).ref = (start.fs.inode other).ref + one ip other := by
    intro other
    have before := held.fs.refs other
    rw [nothing, after.refs] at before
    rw [relinked.inodes, Function.update_apply]
    split
    · rename_i same
      rw [same] at before
      rw [same]
      change (locking.fs.inode ip).ref = _
      omega
    · omega
  have counted := running.ready.tree.counted ip
  have single := one_self ip
  have total := refs ip
  -- The inode had links, or another reference that is still there.
  have kept : (fs.inode ip).nlink ≠ 0 ∨ 1 < (fs.inode ip).ref := by
    obtain linked | ⟨other, before, same⟩ := running.ready.tree.kept i node
    · refine Or.inl ?_
      rw [self, links]
      exact linked
    · have equal : other = ip := by
        have refs := after.refs other
        apply after.sound.consistent.once other ip (by omega) used
        rw [after.inums other before, same, after.inum]
      rw [equal] at before
      exact Or.inr (by omega)
  have more : 0 < (fs.inode ip).ref := by omega
  obtain ⟨last, put, released⟩ := iput_released relinked.sound more (fun _ => kept)
    fun _ => relinked.flushed typed
  have holds : locking.held ip = true := by
    rw [held.held, Function.update_self]
  refine ⟨⟨last, Function.update locking.held ip false, locking.cwd⟩, ?_, ⟨?_, ?_, ?_, ?_⟩⟩
  · rw [Path.linkBad, Action.bind_done locks, Action.bind_done (onInodes_done set),
      Action.bind_done (@iunlockput_done { locking with fs := fs } ip last more holds put)]
    rfl
  · intro other
    change Function.update locking.held ip false other = false
    rw [held.held, Function.update_idem, Function.update_apply]
    split
    · rfl
    · rfl
  · intro other
    have dropped := released_refs released other
    change (last.inode other).ref = _
    rw [refs] at dropped
    omega
  · intro j
    refine (released.stat j).trans ?_
    by_cases same : j = i
    · rw [same, ← inum, relinked.self, inum, links]
      exact Dinode.Alike.refl _
    · have between := relinked.others j (inum ▸ same)
      rw [held.fs.stat] at between
      exact between.trans (after.others j same)
  · intro j array file
    have before := relinked.content.keepsFiles j array (held.fs.file (after.files j array file))
    exact before.of_alike relinked.sound.consistent released.sb (released.stat j) fun b _ =>
      congrFun released.block b

/-! ## The new entry -/

/-- The links of file `i` count one more, and directory `d` is locked. -/
structure AtEntry (start : Kernel) (nodes : Nat → Prop) (content : Nat → List UInt8)
    (ip dp : InodePtr) (i d : Nat) (counted k : Kernel) : Prop where
  running : Running start nodes content
  after : Counted start ip i counted
  node : nodes i
  file : (start.fs.stat i).type ≠ tDir
  number : i ≠ 0 ∧ i < 256 ^ 2
  held : Carrying counted (one dp) (Function.update unlocked dp true) k
  parent : Node nodes k dp d
  live : k.fs.live d dp = true
  directory : (start.fs.stat d).type = tDir

namespace AtEntry

variable {counted : Kernel} {name : Memory}

theorem ready (entry : AtEntry start nodes content ip dp i d counted k) :
    Ready counted nodes content := entry.after.ready entry.running.ready

theorem listed (entry : AtEntry start nodes content ip dp i d counted k) :
    (counted.fs.stat d).type = tDir := (entry.after.types d).trans entry.directory

theorem opened (entry : AtEntry start nodes content ip dp i d counted k) :
    Opened k.fs dp d (content d) :=
  entry.held.opened entry.ready.tree entry.parent entry.live entry.listed

theorem room (entry : AtEntry start nodes content ip dp i d counted k) :
    Room k.fs.toFileSystem d (content d) ↔ Room start.fs.toFileSystem d (content d) :=
  room_congr (fun place => (entry.held.fs.number_eq place).trans (entry.after.number place))
    (entry.held.fs.free.trans entry.after.free)

theorem inum (entry : AtEntry start nodes content ip dp i d counted k) :
    (k.fs.inode ip).inum = i :=
  (entry.held.fs.number ip (entry.after.referenced entry.running.ready)).trans entry.after.inum

theorem referenced (entry : AtEntry start nodes content ip dp i d counted k) :
    0 < (k.fs.inode ip).ref := by
  have used := entry.after.referenced entry.running.ready
  have refs := entry.held.fs.refs ip
  omega

theorem away (entry : AtEntry start nodes content ip dp i d counted k) : ip ≠ dp := by
  rintro rfl
  have same := entry.inum.symm.trans (live_iff.mp entry.live).2.2
  exact entry.file (same ▸ entry.directory)

/-- With room in the directory the entry is made. -/
theorem enters (entry : AtEntry start nodes content ip dp i d counted k)
    (unbound : bindings (content d) (nameOf name) = none)
    (room : Room start.fs.toFileSystem d (content d)) :
    ∃ next, linkEntry consoleread ip dp name k = .done 0 next ∧
      Linked start d (content d) (nameOf name) i next := by
  have atRest := entry.after.atRest entry.running entry.node
  have inside : i < k.fs.sb.ninodes := by
    rw [entry.held.fs.sb, entry.after.sb]
    exact entry.running.ready.tree.inside i entry.node
  obtain ⟨fs, array, done, relisted, -, changed⟩ := @Opened.dirlink_room _ _ _ _ consoleread
    entry.opened name i unbound entry.number.1 entry.number.2 inside (entry.room.mpr room)
  have kept := (@Opened.dirlink_keeps _ _ _ _ consoleread entry.opened name unbound i).of_done done
  obtain ⟨usedDp, closed, put, released⟩ := entry.held.puts entry.ready.tree entry.parent entry.live
    entry.opened rfl (entry.held.flushed atRest entry.live) kept
  -- The file has at least the link that was counted, and it has been written back.
  have same : closed.inode ip = fs.inode ip := released.others entry.away
  obtain ⟨ref, fresh, number⟩ := kept.opens ip
  have more : 0 < (closed.inode ip).ref := by
    rw [same, ref]
    exact entry.referenced
  have links : (fs.stat i).nlink = (start.fs.stat i).nlink + 1 := by
    rw [(kept.kinds.kinds i inside).nlink, entry.held.fs.stat, entry.after.self]
  have linked : (closed.inode ip).valid = true → (closed.inode ip).nlink ≠ 0 := by
    intro valid
    rw [same] at valid ⊢
    have cached : fs.live i ip = true :=
      live_iff.mpr ⟨ref ▸ entry.referenced, valid, number.trans entry.inum⟩
    rw [← stat_of_live kept.sound.consistent.once cached, links]
    exact Nat.succ_ne_zero _
  have flushed : (closed.inode ip).valid = true → closed.Flushed ip := by
    intro valid
    rw [same, fresh] at valid
    have before := entry.held.flushed atRest (live_iff.mpr ⟨entry.referenced, valid, entry.inum⟩)
    exact released.flushed entry.away (kept.flushed ip entry.referenced valid before)
  obtain ⟨last, dropped, gone⟩ := iput_released released.sound more
    (fun valid => Or.inl (linked valid)) flushed
  have holds : k.held dp = true := by
    rw [entry.held.held, Function.update_self]
  have free : Function.update k.held dp false = unlocked := by
    have off : unlocked dp = false := rfl
    rw [entry.held.held, Function.update_idem, ← off, Function.update_eq_self]
  have drops := @iput_done ⟨closed, Function.update k.held dp false, k.cwd⟩ ip last
    (congrFun free ip) dropped
  refine ⟨⟨last, Function.update k.held dp false, k.cwd⟩, ?_, ⟨?_, ?_, ?_, ?_, ?_⟩⟩
  · rw [linkEntry, Action.get_bind, entry.inum, Action.bind_done (onInodes_done done),
      if_neg (by decide),
      Action.bind_done (@iunlockput_done { k with fs := fs } dp closed usedDp holds put),
      Action.bind_done drops]
    rfl
  · exact congrFun free
  · intro other
    have first := released_refs released other
    have second := released_refs gone other
    have before := entry.held.fs.refs other
    rw [entry.after.refs, ← (kept.opens other).1] at before
    change (last.inode other).ref = _
    omega
  · exact ⟨array, gone.directory released.sound (released.directory kept.sound
      relisted.opened.directory), changed⟩
  · change (last.stat i).nlink = _
    rw [(gone.stat i).kind.nlink, (released.stat i).kind.nlink, links]
  · intro j different bytes whole
    have before := relisted.others j different bytes
      (entry.held.fs.file (entry.after.files j bytes whole))
    have between := before.of_alike kept.sound.consistent released.sb (released.stat j) fun b _ =>
      congrFun released.block b
    exact between.of_alike released.sound.consistent gone.sb (gone.stat j) fun b _ =>
      congrFun gone.block b

theorem panics (entry : AtEntry start nodes content ip dp i d counted k)
    (unbound : bindings (content d) (nameOf name) = none)
    (full : ¬Room start.fs.toFileSystem d (content d)) :
    ∃ message, linkEntry consoleread ip dp name k = .panic message := by
  obtain ⟨message, panics⟩ := @Opened.dirlink_panics _ _ _ _ consoleread entry.opened name unbound
    i fun room => full (entry.room.mp room)
  refine ⟨message, ?_⟩
  rw [linkEntry, Action.get_bind, entry.inum]
  exact Action.bind_panic (onInodes_panic panics)

theorem waits (entry : AtEntry start nodes content ip dp i d counted k)
    (self : bindings (content d) (nameOf name) = some d) :
    linkEntry consoleread ip dp name k = .blocked := by
  obtain ⟨j, target, found, bound⟩ | ⟨-, -, none⟩ :=
    entry.opened.directory.find_cases (nameOf name)
  · cases self.symm.trans bound
    have waits := @Opened.dirlink_self _ _ _ _ _ consoleread entry.opened name found i
    rw [linkEntry, Action.get_bind, entry.inum]
    exact Action.bind_blocked (Action.focus_blocked waits)
  · cases self.symm.trans none

/-- A name that is bound to another inode is refused. -/
theorem refuses (entry : AtEntry start nodes content ip dp i d counted k) {j : Nat}
    (bound : bindings (content d) (nameOf name) = some j) (different : j ≠ d) :
    (linkEntry consoleread ip dp name k).Ends (lacksInodes counted) fun result next =>
      result = -1 ∧ Restored start next := by
  have looked := @Carrying.dirlookup _ _ _ _ _ _ _ consoleread entry.held entry.ready.tree
    entry.parent entry.live entry.listed name
  have tree := entry.ready.tree
  rw [child, if_pos entry.listed, bound] at looked
  rw [onInodes, Action.ends_focus] at looked
  rw [linkEntry, Action.get_bind, Action.ends_bind, onInodes, Action.ends_focus, dirlink,
    Action.ends_bind]
  refine looked.mono ?_
  rintro found fs (⟨-, missing, -⟩ | ⟨entry', off, j', rfl, same, both, new, old⟩)
  · cases missing
  · cases same
    have other : entry' ≠ dp := by
      rintro rfl
      exact different (new.number.symm.trans old.number)
    have taken : 0 < Function.update (one dp) entry' (one dp entry' + 1) entry' := by
      rw [Function.update_self]
      exact Nat.succ_pos _
    obtain ⟨next, dropped, last, numbers⟩ := both.drops tree new taken
    rw [Function.update_idem, Function.update_self, Nat.add_sub_cancel,
      Function.update_eq_self] at last
    obtain ⟨middle, unlocks, back, -⟩ := last.iunlockput tree
      ⟨old.node, (numbers dp).trans old.number⟩ (one_pos dp) rfl
    rw [one_released] at back
    obtain ⟨finish, failed, restored⟩ :=
      entry.after.linkBad entry.running entry.node back
    dsimp only
    rw [if_neg other, Action.bind_done dropped]
    change Outcome.Ends _ _ ((iunlockput dp >>= fun _ => linkBad ip) { k with fs := next })
    rw [Action.bind_done unlocks, failed]
    exact ⟨rfl, restored⟩

end AtEntry

/-! ## The system call -/

/-- The inode cache runs out of entries. -/
def lacksThree (start : Kernel) (message : String) : Prop :=
  message = "iget: no inodes" ∧ ¬SpareThree start.fs.toFileSystem

theorem lacksInodes.three {message : String} (lacks : lacksInodes start message) :
    lacksThree start message := by
  refine ⟨lacks.1, ?_⟩
  rintro ⟨a, b, c, ⟨different, -⟩, first, second, -⟩
  exact lacks.2 ⟨a, b, different, first, second⟩

/-- Of three entries that were free, two are still free. -/
theorem Counted.lacks {message : String} (counted : Counted start ip i k)
    (lacks : lacksInodes k message) : lacksThree start message := by
  refine ⟨lacks.1, ?_⟩
  rintro ⟨a, b, c, ⟨ab, ac, bc⟩, first, second, third⟩
  have free : ∀ other, other ≠ ip → (start.fs.inode other).ref = 0 →
      (k.fs.inode other).ref = 0 := by
    intro other away before
    have none : one ip other = 0 := Function.update_of_ne away ..
    rw [counted.refs, before, none]
    rfl
  by_cases here : a = ip
  · rw [here] at ab ac
    exact lacks.2 ⟨b, c, bc, free b ab.symm second, free c ac.symm third⟩
  · by_cases there : b = ip
    · rw [there] at bc
      exact lacks.2 ⟨a, c, ac, free a here first, free c bc.symm third⟩
    · exact lacks.2 ⟨a, b, ab, free a here first, free b there second⟩

/-- Nothing was counted. -/
theorem Carrying.restored (carrying : Carrying start nothing unlocked k) : Restored start k where
  unlocked ip := congrFun carrying.held ip
  refs ip := (carrying.fs.refs ip).trans (Int.add_zero _)
  stat i := by
    rw [carrying.fs.stat]
    exact Dinode.Alike.refl _
  files _ _ file := carrying.fs.file file

/-- When the file and the directory are found, it is the directory that decides. -/
theorem stuck_iff {old new name : List UInt8}
    (leads : walk k.fs.toFileSystem content (k.start old) (elements old) = some i)
    (file : (k.fs.stat i).type ≠ tDir)
    (parent : walkParent k.fs.toFileSystem content (k.start new) (elements new) = some (d, name)) :
    Stuck k content old new ↔ Closed k.fs.toFileSystem d (content d) name := by
  constructor
  · rintro ⟨i', d', name', -, -, parent', closed⟩
    cases parent.symm.trans parent'
    exact closed
  · intro closed
    exact ⟨i, d, name, leads, file, parent, closed⟩

/-- Link panics in `iget`, or fails before it gets to `dirlink`, or it gets there. -/
theorem sysLink_reaches (running : Running k nodes content) {old new : List UInt8}
    (oldString : 0 ∉ old) (newString : 0 ∉ new) :
    (∃ message, sysLink consoleread old new k = .panic message ∧ lacksThree k message) ∨
    (∃ next, sysLink consoleread old new k = .done (-1) next ∧ Restored k next ∧
      ¬Stuck k content old new) ∨
    ∃ ip dp i d name counted opening,
      walk k.fs.toFileSystem content (k.start old) (elements old) = some i ∧
      walkParent k.fs.toFileSystem content (k.start new) (elements new) =
        some (d, nameOf name) ∧
      AtEntry k nodes content ip dp i d counted opening ∧
      sysLink consoleread old new k = linkEntry consoleread ip dp name opening := by
  obtain ⟨message, panics, lacks⟩ | ⟨result, first, found, leads⟩ :=
    (@namei_ends _ _ _ consoleread running.ready _ oldString).cases
  · exact Or.inl ⟨message, Action.bind_panic panics, lacks.three⟩
  rw [sysLink, Action.bind_done found]
  obtain ⟨rfl, missing, carrying⟩ | ⟨ip, i, rfl, leads, carrying, node⟩ := leads
  · refine Or.inr (Or.inl ⟨first, rfl, carrying.restored, ?_⟩)
    rintro ⟨i, d, name, leads, -⟩
    cases missing.symm.trans leads
  have taken := one_pos ip
  obtain ⟨locking, locks, held, there, live⟩ :=
    carrying.ilock running.ready.tree node (carrying.referenced taken) rfl
  have type : (locking.fs.inode ip).type = (k.fs.stat i).type := by
    rw [← held.fs.stat, stat_of_live held.fs.sound.consistent.once live]
  dsimp only
  rw [Action.bind_done locks, Action.get_bind, type]
  by_cases directory : (k.fs.stat i).type = tDir
  · obtain ⟨later, unlocks, last, -⟩ := held.iunlockput running.ready.tree there taken rfl
    rw [one_released] at last
    rw [if_pos directory, Action.bind_done unlocks]
    refine Or.inr (Or.inl ⟨later, rfl, last.restored, ?_⟩)
    rintro ⟨i', d, name, leads', file, -⟩
    cases leads.symm.trans leads'
    exact file directory
  obtain ⟨fs, counted, set, unlocks, after⟩ := held.counts running there live
  have ready := after.ready running.ready
  rw [if_neg directory, Action.bind_done (onInodes_done set), Action.bind_done unlocks]
  obtain ⟨message, panics, lacks⟩ | ⟨⟨found, name⟩, next, done, parent⟩ :=
    (@nameiparent_ends _ _ _ consoleread ready _ newString fun _ => 0).cases
  · exact Or.inl ⟨message, Action.bind_panic panics, after.lacks lacks⟩
  rw [after.begins running.ready, walkParent_congr after.types] at parent
  rw [Action.bind_done done]
  obtain ⟨none, missing, carrying⟩ | ⟨dp, d, some, parent, carrying, node'⟩ := parent
  · obtain ⟨finish, failed, restored⟩ := after.linkBad running node.node carrying
    dsimp only at none ⊢
    rw [none]
    refine Or.inr (Or.inl ⟨finish, failed, restored, ?_⟩)
    rintro ⟨i', d, name', -, -, parent, -⟩
    cases missing.symm.trans parent
  · have single := one_pos dp
    obtain ⟨opening, locks, held, open', live⟩ :=
      carrying.ilock ready.tree node' (carrying.referenced single) rfl
    dsimp only at some ⊢
    rw [some]
    dsimp only
    rw [Action.bind_done locks]
    exact Or.inr (Or.inr ⟨ip, dp, i, d, name, counted, opening, leads, parent,
      ⟨running, after, node.node, directory, running.number leads directory, held, open', live,
        walkParent_directory parent⟩, rfl⟩)

/-- Link ends, unless it gets stuck or the inode cache runs out of entries. -/
theorem sysLink_ends (running : Running k nodes content) {old new : List UInt8}
    (oldString : 0 ∉ old) (newString : 0 ∉ new) (free : ¬Stuck k content old new) :
    (sysLink consoleread old new k).Ends (lacksThree k)
      (LinkedOrRestored k content old new) := by
  obtain ⟨message, panics, lacks⟩ | ⟨next, failed, restored, -⟩ |
      ⟨ip, dp, i, d, name, counted, opening, leads, parent, entry, reached⟩ :=
    @sysLink_reaches _ _ _ consoleread running _ _ oldString newString
  · rw [panics]
    exact lacks
  · rw [failed]
    exact Or.inr ⟨rfl, restored⟩
  · rw [stuck_iff leads entry.file parent] at free
    rw [reached]
    cases bound : bindings (content d) (nameOf name) with
    | none =>
        by_cases room : Room k.fs.toFileSystem d (content d)
        · obtain ⟨next, done, linked⟩ := @AtEntry.enters _ _ _ _ _ _ _ _ consoleread _ _ entry bound room
          rw [done]
          exact Or.inl ⟨rfl, i, d, nameOf name, leads, parent, linked⟩
        · exact absurd (Or.inl ⟨bound, room⟩) free
    | some j =>
        by_cases self : j = d
        · rw [self] at bound
          exact absurd (Or.inr bound) free
        · refine (entry.refuses bound self).imp (fun _ lacks => entry.after.lacks lacks) ?_
          rintro result next ⟨failed, restored⟩
          exact Or.inr ⟨failed, restored⟩

/-- Link does not return when it is stuck. -/
theorem sysLink_stuck (running : Running k nodes content) {old new : List UInt8}
    (oldString : 0 ∉ old) (newString : 0 ∉ new) (spare : SpareThree k.fs.toFileSystem)
    (stuck : Stuck k content old new) :
    ∀ result next, sysLink consoleread old new k ≠ .done result next := by
  intro result next done
  obtain ⟨message, panics, lacks⟩ | ⟨next, failed, -, free⟩ |
      ⟨ip, dp, i, d, name, counted, opening, leads, parent, entry, reached⟩ :=
    @sysLink_reaches _ _ _ consoleread running _ _ oldString newString
  · exact lacks.2 spare
  · exact free stuck
  · rw [reached] at done
    obtain ⟨unbound, full⟩ | self := (stuck_iff leads entry.file parent).mp stuck
    · obtain ⟨message, panics⟩ := @AtEntry.panics _ _ _ _ _ _ _ _ consoleread _ _ entry unbound full
      cases panics.symm.trans done
    · cases (entry.waits self).symm.trans done

end Link

/-- `dirlink` with a new name works exactly when the directory has room, and so does link. -/
theorem link_iff (consoleread : Int → Int × List UInt8) :
    (∀ state dp inum array name target, Opened state dp inum array →
      bindings array (nameOf name) = none → target ≠ 0 → target < 256 ^ 2 →
      target < state.sb.ninodes →
        ((dirlink consoleread dp name target state).Ends (fun _ => False)
            (LinkedOrNot state dp inum array (nameOf name) target) ↔
          Room state.toFileSystem inum array)) ∧
    ∀ k nodes content, Running k nodes content → ∀ old new, 0 ∉ old → 0 ∉ new →
      (¬Stuck k content old new → (sysLink consoleread old new k).Ends (lacksThree k)
        (LinkedOrRestored k content old new)) ∧
      (SpareThree k.fs.toFileSystem →
        ((sysLink consoleread old new k).Ends (fun _ => False)
            (LinkedOrRestored k content old new) ↔ ¬Stuck k content old new)) := by
  constructor
  · intro state dp inum array name target opened unbound nonzero short inside
    exact opened.dirlink_iff unbound nonzero short inside
  · intro k nodes content running old new oldString newString
    refine ⟨sysLink_ends running oldString newString, fun spare => ⟨fun returns stuck => ?_,
      fun free => ?_⟩⟩
    · obtain ⟨result, next, done, -⟩ := returns.exists_done
      exact sysLink_stuck running oldString newString spare stuck result next done
    · exact (sysLink_ends running oldString newString free).imp
        (fun _ lacks => lacks.2 spare) fun _ _ ends => ends

/-! ## A second link -/

/-- The content of a directory with the entry "a" for inode 2. -/
def entryA : List UInt8 := (Fs.linked (fun _ => 0) nameA 2).read 0 16

/-- The root directory stays open, and "/a" is a file. -/
def rootWithFile : List FsOp :=
  rootAndFile ++ [.writei ⟨0, ninode_pos⟩ (Fs.linked (fun _ => 0) nameA 2) 0 16]

def Filed (start : FsState) : Prop :=
  let root := start.inode ⟨0, ninode_pos⟩
  start.sb.ninodes = 200 ∧ (0 < root.ref ∧ root.valid = true ∧ root.inum = 1) ∧
    (∀ ip, ip ≠ ⟨0, ninode_pos⟩ → (start.inode ip).ref = 0) ∧
    (root.type = tDir ∧ root.size = 16 ∧ root.nlink = 1) ∧
    ((start.dinode 2).type = tFile ∧ (start.dinode 2).nlink = 1) ∧
    (root.type = (start.dinode 1).type ∧ root.major = (start.dinode 1).major ∧
      root.minor = (start.dinode 1).minor ∧ root.nlink = (start.dinode 1).nlink ∧
      root.size = (start.dinode 1).size ∧ ∀ k < 13, root.addrs k = (start.dinode 1).addrs k) ∧
    (start.number (slotOf 1 0) ≠ 0 ∧ ∀ o < 16, start.byte 1 o = entryA.getD o 0) ∧
    start.needed 1 16 direntSize ≤ start.free

instance (start : FsState) : Decidable (Filed start) := by
  unfold Filed
  infer_instance

/-- The path "/b", and the name "b". -/
def pathB : List UInt8 := [47, 98]
def nameB : Memory := fun i => if i = 0 then 98 else 0

theorem entries_entryA {i target : Nat} {name : List UInt8}
    (entry : entries entryA i = some (name, target)) : i = 0 ∧ name = [97] ∧ target = 2 := by
  have empty : entries [] = fun _ => none :=
    funext fun i => @entries_within [] 0 rfl i (Nat.zero_le i)
  have put := @entries_putBytes [] 0 (Nat.le_refl _) (Fs.linked (fun _ => 0) nameA 2)
  rw [empty, entryOf_linked _ _ (by decide) (by decide)] at put
  have whole : entries entryA = _ := put
  rw [whole, Function.update_apply] at entry
  split at entry
  · rename_i first
    cases entry
    exact ⟨first, rfl, rfl⟩
  · cases entry

theorem directory_filed {start : FsState} (sound : Sound start) (filed : Filed start) :
    Directory start.toFileSystem 1 entryA := by
  obtain ⟨ninodes, ⟨referenced, valid, number⟩, -, ⟨type, size, -⟩, -, -, ⟨there, bytes⟩, -⟩ := filed
  have stat := stat_of_live sound.consistent.once (live_iff.mpr ⟨referenced, valid, number⟩)
  refine ⟨⟨?_, ?_, ?_, ?_, ?_⟩, ?_, ?_, ?_, ?_⟩
  · rw [ninodes]
    decide
  · rw [stat]
    rw [type]
    decide
  · rw [stat]
    exact size
  · intro o below
    rw [Nat.div_eq_of_lt (Nat.lt_trans below (by decide))]
    exact there
  · exact bytes
  · rw [stat]
    exact type
  · decide
  · intro i j name first second here also
    rw [(entries_entryA here).1, (entries_entryA also).1]
  · intro i name target entry
    rw [(entries_entryA entry).2.2, ninodes]
    decide

theorem running_filed {start : FsState} (sound : Sound start) (filed : Filed start) :
    Running ⟨start, unlocked, ⟨0, ninode_pos⟩⟩ (fun i => i = 1 ∨ i = 2) fun _ => entryA := by
  have directory := directory_filed sound filed
  obtain ⟨ninodes, ⟨referenced, valid, number⟩, others, ⟨type, -, links⟩, ⟨file, link⟩, written, -⟩ :=
    filed
  have stat := stat_of_live sound.consistent.once (live_iff.mpr ⟨referenced, valid, number⟩)
  have disk : ∀ i, i ≠ 1 → start.stat i = start.dinode i := by
    intro i different
    refine stat_of_disk fun ip => Bool.eq_false_iff.mpr fun cached => ?_
    obtain ⟨used, -, same⟩ := live_iff.mp cached
    by_cases root : ip = ⟨0, ninode_pos⟩
    · rw [root, number] at same
      exact different same.symm
    · rw [others ip root] at used
      cases used
  have kind := disk 2 (by decide)
  have plain : (start.stat 2).type ≠ tDir := by
    rw [kind, file]
    decide
  refine ⟨⟨⟨sound, ?_, ?_, ?_, ?_, ?_, ?_⟩, Or.inl rfl, Or.inl number, referenced, rfl⟩, ⟨?_, ?_⟩,
    ?_, ?_⟩
  · intro ip
    by_cases root : ip = ⟨0, ninode_pos⟩
    · rw [root]
      exact Int.le_of_lt referenced
    · rw [others ip root]
  · rintro i (rfl | rfl)
    · exact directory.file.inside
    · rw [ninodes]
      decide
  · rintro i (rfl | rfl)
    · rw [directory.type]
      decide
    · rw [kind, file]
      decide
  · rintro i (rfl | rfl)
    · exact Or.inr ⟨_, referenced, number⟩
    · refine Or.inl ?_
      rw [kind, link]
      decide
  · rintro i (rfl | rfl) isDirectory
    · exact directory
    · exact absurd isDirectory plain
  · rintro i - - j name target entry
    exact Or.inr (entries_entryA entry).2.2
  · intro i
    by_cases root : i = 1
    · obtain ⟨type, major, minor, nlink, size, addrs⟩ := written
      rw [root, stat]
      exact ⟨⟨type, major, minor, nlink⟩, size, fun k slot => addrs k (Nat.lt_succ_of_le slot)⟩
    · rw [disk i root]
      exact Dinode.Alike.refl _
  · intro ip used
    by_cases root : ip = ⟨0, ninode_pos⟩
    · rw [root, number, directory.type]
      decide
    · rw [others ip root] at used
      cases used
  · rintro i (rfl | rfl)
    · rw [stat]
      exact Nat.lt_of_le_of_lt (Nat.le_of_eq links) (by decide)
    · rw [kind, link]
      decide
  · change (start.stat (start.inode ⟨0, ninode_pos⟩).inum).type = tDir
    rw [number]
    exact directory.type

theorem room_filed {start : FsState} (filed : Filed start) :
    Room start.toFileSystem 1 entryA := by
  obtain ⟨-, -, -, -, -, -, -, enough⟩ := filed
  exact Or.inr ⟨by decide, enough⟩

/-- The root directory has room for "b". -/
theorem not_stuck_filed {start : FsState} (sound : Sound start) (filed : Filed start) :
    ¬Stuck ⟨start, unlocked, ⟨0, ninode_pos⟩⟩ (fun _ => entryA) pathA pathB := by
  have directory := directory_filed sound filed
  have names : elements pathB = [[98]] := by decide
  have parent : walkParent start.toFileSystem (fun _ => entryA) rootino (elements pathB) =
      some (1, [98]) := by
    rw [names]
    exact if_pos directory.type
  rintro ⟨i, d, name, -, -, found, closed⟩
  cases parent.symm.trans found
  obtain ⟨-, full⟩ | self := closed
  · exact full (room_filed filed)
  · revert self
    decide

/-- "/b" becomes a link to "/a". -/
theorem link_iff_pathB : ∃ k content next,
    sysLink (fun n => (n, [])) pathA pathB k = .done 0 next ∧
      LinkedOrRestored k content pathA pathB 0 next ∧
      ∃ dp result later, dirlink (fun n => (n, [])) dp nameB 2 k.fs = .done result later ∧
        LinkedOrNot k.fs dp 1 (content 1) (nameOf nameB) 2 result later := by
  let root : InodePtr := ⟨0, ninode_pos⟩
  have facts : (runs FsState.next blankDisk rootWithFile).map (fun start => decide (Filed start ∧
      ((sysLink (fun n => (n, [])) pathA pathB >>= fun result =>
        Action.ifThen (result ≠ 0) Action.never)
          ⟨start, unlocked, root⟩).state?.isSome = true)) = some true := by decide +kernel
  obtain ⟨start, ran, holds⟩ := Option.map_eq_some_iff.mp facts
  obtain ⟨filed, returns⟩ := of_decide_eq_true holds
  have sound := sound_run blankDisk_image ran
  have running := running_filed sound filed
  have free := not_stuck_filed sound filed
  have directory := directory_filed sound filed
  have room := room_filed filed
  have unbound : bindings entryA (nameOf nameB) = none := by decide
  obtain ⟨ninodes, live, others, -⟩ := filed
  have opened : Opened start root 1 entryA := ⟨sound, live_iff.mpr live, directory⟩
  obtain ⟨result, later, added, entry⟩ := (((link_iff fun n => (n, [])).1 start root 1 entryA nameB
    2 opened unbound (by decide) (by decide) (by rw [ninodes]; decide)).mpr room).exists_done
  generalize shape : (⟨start, unlocked, root⟩ : Kernel) = k at returns running free
  have state : k.fs = start := by rw [← shape]
  have spare : SpareThree k.fs.toFileSystem := by
    rw [state]
    exact ⟨⟨1, by decide⟩, ⟨2, by decide⟩, ⟨3, by decide⟩, by decide,
      others _ (by decide), others _ (by decide), others _ (by decide)⟩
  obtain ⟨value, next, done, linked⟩ := ((((link_iff fun n => (n, [])).2 k _ _ running pathA pathB
    (by decide) (by decide)).2 spare).mpr free).exists_done
  rw [Action.bind_done done] at returns
  by_cases zero : value = 0
  · subst zero
    exact ⟨k, _, next, done, linked, root, result, later, state ▸ added, state ▸ entry⟩
  · rw [Action.ifThen, if_pos zero] at returns
    cases returns

end Xv6.Path
