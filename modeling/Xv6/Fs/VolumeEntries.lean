import Xv6.Fs.Volume

/-!
# Entries of the volume

A directory of the volume gets a name or loses one, and `ialloc` makes a new node.
-/

namespace Xv6.Path

open Xv6.Library Xv6.Fs

/-! ## The first two entries -/

section Heads

variable {state next : FsState} {dp : InodePtr} {inum i : Nat} {array later : List UInt8}
  {consoleread : Int → Int × List UInt8}

/-- Where a directory puts the names "." and "..". -/
structure Fitting (i : Nat) (name : List UInt8) : Prop where
  first : name = nameOf dot → i = 0
  second : name = nameOf dotdot → i = 1

theorem Headed.update (headed : Headed array) {entry : Option (List UInt8 × Nat)}
    (fitting : ∀ name target, entry = some (name, target) → Fitting i name)
    (changed : entries later = Function.update (entries array) i entry) : Headed later := by
  have cases : ∀ j name target, entries later j = some (name, target) →
      entries array j = some (name, target) ∨ j = i ∧ Fitting i name := by
    intro j name target here
    rw [changed] at here
    by_cases same : j = i
    · rw [same, Function.update_self] at here
      exact Or.inr ⟨same, fitting name target here⟩
    · rw [Function.update_of_ne same] at here
      exact Or.inl here
  constructor
  · intro j target here
    obtain old | ⟨same, fits⟩ := cases j _ target here
    · exact headed.first j target old
    · exact same.trans (fits.first rfl)
  · intro j target here
    obtain old | ⟨same, fits⟩ := cases j _ target here
    · exact headed.second j target old
    · exact same.trans (fits.second rfl)

/-- The content of a file is what it is. -/
theorem file_unique {fs : FileSystem} (first : File fs inum array) (second : File fs inum later) :
    array = later := by
  have length : array.length = later.length := first.size.symm.trans second.size
  refine List.ext_getElem length fun o below within => ?_
  have left := first.bytes o below
  have right := second.bytes o within
  rw [List.getD_eq_getElem _ _ below] at left
  rw [List.getD_eq_getElem _ _ within] at right
  exact left.symm.trans right

/-- Entry `i` is written, and the inodes stay. -/
theorem writeEntry_headed (opened : Opened state dp inum array) (headed : Headed array)
    (inside : i ≤ slots array) (de : Memory)
    (fits : direntSize * i + direntSize ≤ maxFile * bsize)
    (distinct : SlotTable.Distinct (Function.update (entries array) i (entryOf de)))
    (numbers : ∀ name target, entryOf de = some (name, target) → target < state.sb.ninodes)
    (fitting : ∀ name target, entryOf de = some (name, target) → Fitting i name) :
    (writei dp de (offsetOf i) sizeofDe state).Ends (fun _ => True) fun _ next =>
      KeepsInodes state inum next ∧
        ∃ later, Directory next.toFileSystem inum later ∧ Headed later := by
  have wrote := @Opened.writeEntry _ _ _ _ _ (fun _ => True) opened inside de fits
    (fun _ => trivial) distinct numbers
  refine ((opened.entry_keeps inside de).and wrote).mono ?_
  rintro written next ⟨keeps, -, later, relisted, -, changed⟩
  exact ⟨keeps, later, relisted.opened.directory, headed.update fitting changed⟩

theorem dirlink_headed (opened : Opened state dp inum array) (headed : Headed array)
    {name : Memory} {target : Nat} (unbound : (entries array).Unbound (nameOf name))
    (nonzero : target ≠ 0) (short : target < 256 ^ 2) (inside : target < state.sb.ninodes)
    (fitting : ∀ i, entries array i = none → (∀ j < i, entries array j ≠ none) →
      Fitting i (nameOf name)) :
    (dirlink consoleread dp name target state).Ends (fun _ => True) fun _ next =>
      KeepsInodes state inum next ∧
        ∃ later, Directory next.toFileSystem inum later ∧ Headed later := by
  have absent := (SlotTable.lookup_none_iff opened.directory.within).mpr unbound
  obtain ⟨i, rest, writes, within, free, first⟩ :=
    @Opened.dirlink_writes _ _ _ _ consoleread opened name absent target
  have entry := entryOf_linked rest name nonzero short
  rw [writes, Action.ends_bind]
  by_cases fits : direntSize * i + direntSize ≤ maxFile * bsize
  · refine (writeEntry_headed opened headed within _ fits ?_ ?_ ?_).mono ?_
    · rw [entry]
      exact opened.directory.distinct.put unbound i target
    · intro other found same
      rw [entry] at same
      cases same
      exact inside
    · intro other found same
      rw [entry] at same
      cases same
      exact fitting i free first
    · intro written next both
      split
      · trivial
      · exact both
  · have ended : i = slots array := by
      refine Nat.le_antisymm within (Nat.le_of_not_lt fun below => fits ?_)
      exact Nat.le_trans (opened.entry_fits below) opened.directory.file.bounded
    subst ended
    have large : maxFile * bsize < array.length + direntSize := by
      rw [opened.directory.length]
      exact Nat.lt_of_not_le fits
    rw [opened.refuses large]
    trivial

theorem clearEntry_headed (opened : Opened state dp inum array) (headed : Headed array)
    {name : List UInt8} {target : Nat} (here : entries array i = some (name, target)) :
    (clearEntry dp (offsetOf i) state).Ends (fun _ => True) fun _ next =>
      KeepsInodes state inum next ∧
        ∃ later, Directory next.toFileSystem inum later ∧ Headed later := by
  have below := opened.directory.within.lt here
  rw [clearEntry, Action.ends_bind]
  refine (writeEntry_headed opened headed (Nat.le_of_lt below) _
    (Nat.le_trans (opened.entry_fits below) opened.directory.file.bounded) ?_ ?_ ?_).mono ?_
  · rw [entryOf_zero]
    exact opened.directory.distinct.clear i
  · intro other found same
    rw [entryOf_zero] at same
    cases same
  · intro other found same
    rw [entryOf_zero] at same
    cases same
  · intro written next both
    split
    · trivial
    · exact both

end Heads

/-! ## Names in directories -/

/-- A locked directory of the volume. -/
structure Shelf (volume : Volume) (fs : FsState) (dp : InodePtr) (d : Nat) (array : List UInt8) :
    Prop where
  opened : Opened fs dp d array
  headed : Headed array
  bound : bindings array = volume.naming.entry d

/-- The name may be the next one of a directory that binds `names`: "." comes first, then "..". -/
def Follows (names : List UInt8 → Option Nat) (name : List UInt8) : Prop :=
  scheme.Plain name ∨ (name = nameOf dot ∧ ∀ label, names label = none) ∨
    name = nameOf dotdot ∧ ∃ self, names = Function.update (fun _ => none) (nameOf dot) (some self)

theorem Shelf.fitting {volume : Volume} {fs : FsState} {dp : InodePtr} {i d : Nat}
    {array : List UInt8} {name : Memory} (shelf : Shelf volume fs dp d array)
    (follows : Follows (volume.naming.entry d) (nameOf name))
    (free : entries array i = none) (first : ∀ j < i, entries array j ≠ none) :
    Fitting i (nameOf name) := by
  have within := shelf.opened.directory.within
  have distinct := shelf.opened.directory.distinct
  obtain plain | ⟨same, empty⟩ | ⟨same, self, single⟩ := follows
  · exact ⟨fun equal => absurd equal plain.1, fun equal => absurd equal plain.2⟩
  · refine ⟨fun _ => ?_, fun equal => absurd (same.symm.trans equal) dot_other⟩
    by_contra later
    apply first 0 (Nat.pos_of_ne_zero later)
    cases head : entries array 0 with
    | none => rfl
    | some entry =>
        have bound := (distinct.lookup_iff within).mpr ⟨0, head⟩
        change bindings array entry.1 = some entry.2 at bound
        rw [shelf.bound, empty] at bound
        cases bound
  · refine ⟨fun equal => absurd (equal.symm.trans same) dot_other, fun _ => ?_⟩
    have head : entries array 0 = some (nameOf dot, self) := by
      have bound : bindings array (nameOf dot) = some self := by
        rw [shelf.bound, single, Function.update_self]
      obtain ⟨j, here⟩ := (distinct.lookup_iff within).mp bound
      rw [shelf.headed.first j self here] at here
      exact here
    have positive : i ≠ 0 := by
      rintro rfl
      rw [head] at free
      cases free
    by_contra later
    apply first 1 (by omega)
    cases second : entries array 1 with
    | none => rfl
    | some entry =>
        have bound := (distinct.lookup_iff within).mpr ⟨1, second⟩
        change bindings array entry.1 = some entry.2 at bound
        rw [shelf.bound, single, Function.update_apply] at bound
        split at bound
        · rename_i dot
          exact absurd (shelf.headed.first 1 entry.2 (dot ▸ second)) (by decide)
        · cases bound

namespace Shows

variable {volume : Volume} {fs next : FsState} {ip dp : InodePtr} {i d : Nat}
  {array later : List UInt8} {name : Memory} {consoleread : Int → Int × List UInt8}
  (shows : Shows volume fs)
include shows

theorem shelf (live : fs.live d dp = true) (isDirectory : volume.naming.kind d = tDir) :
    ∃ array, Shelf volume fs dp d array := by
  obtain ⟨array, directory, headed, bound⟩ :=
    (shows.inodes (live_inside shows.sound.consistent live)).directory isDirectory
  exact ⟨array, ⟨shows.sound, live, directory⟩, headed, bound⟩

/-- An entry of a directory was written. -/
theorem relisted (isDirectory : volume.naming.kind d = tDir)
    (relisted : Relisted fs dp d next array) (keeps : KeepsInodes fs d next)
    (headed : Headed array) :
    Shows { volume with naming := { volume.naming with
      entry := Function.update volume.naming.entry d (bindings array) } } next := by
  have sb := relisted.kinds.sb
  have sound := relisted.opened.sound
  have entries : KeepsEntries fs.toFileSystem next.toFileSystem := by
    intro other
    obtain ⟨ref, valid, number⟩ := relisted.keeps other
    exact ⟨ref, number, fun read => valid.trans read⟩
  refine shows.keeps sound sb entries rfl ?_ fun j none => Or.inl none
  intro j within
  have before := shows.inodes within
  have kind := relisted.kinds.kinds j within
  have written : (next.stat j).Alike (next.dinode j) := by
    refine written_of_flushed sound.consistent.once fun other live => ?_
    obtain ⟨ref, valid, number⟩ := relisted.keeps other
    rw [live_iff, ref, valid, number] at live
    exact keeps.flushed other live.1 live.2.1 (shows.flushed (live_iff.mpr live))
  by_cases same : j = d
  · subst same
    refine ⟨?_, fun used => ?_, written, fun _ => ?_, fun plain => ?_⟩
    · rw [kind.type]
      exact before.type
    · rw [kind.nlink]
      exact before.nlink used
    · refine ⟨array, relisted.opened.directory, headed, ?_⟩
      simp
    · cases isDirectory.symm.trans plain
  · exact before.congr ⟨rfl, rfl, Function.update_of_ne same .., rfl⟩ sb kind written
      (relisted.others j same)

theorem dirlink (live : fs.live d dp = true) (isDirectory : volume.naming.kind d = tDir)
    (unbound : volume.naming.entry d (nameOf name) = none) (nonzero : i ≠ 0)
    (inside : i < fs.sb.ninodes) (follows : Follows (volume.naming.entry d) (nameOf name)) :
    (Fs.dirlink consoleread dp name i fs).Ends OutOfSpace fun result next => result = 0 ∧
      Shows { volume with
        naming := volume.naming.setEntry d (nameOf name) (some i) } next ∧
      KeepsEntries fs.toFileSystem next.toFileSystem := by
  obtain ⟨array, shelf⟩ := shows.shelf live isDirectory
  have short := Nat.lt_of_lt_of_le inside shows.short
  have absent : (entries array).Unbound (nameOf name) := by
    rw [← shelf.bound] at unbound
    exact (SlotTable.lookup_none_iff shelf.opened.directory.within).mp unbound
  have added := @Opened.dirlink_unbound _ _ _ _ consoleread OutOfSpace shelf.opened name i absent
    nonzero short inside (fun _ => Or.inr (Or.inr (Or.inr rfl)))
    (fun _ _ => Or.inr (Or.inr (Or.inl rfl)))
  have headed := @dirlink_headed _ _ _ _ consoleread shelf.opened shelf.headed name i absent
    nonzero short inside fun j free first => shelf.fitting follows free first
  refine (added.and headed).mono ?_
  rintro result next ⟨⟨rfl, after, changed, -, bound⟩, keeps, later, directory, heads⟩
  have same := file_unique directory.file changed.opened.directory.file
  subst same
  have written := shows.relisted isDirectory changed keeps heads
  rw [bound, shelf.bound] at written
  refine ⟨rfl, written, fun other => ?_⟩
  obtain ⟨ref, valid, number⟩ := changed.keeps other
  exact ⟨ref, number, fun read => valid.trans read⟩

theorem clearEntry (live : fs.live d dp = true) (isDirectory : volume.naming.kind d = tDir)
    {label : List UInt8} {target : Nat} (directory : Directory fs.toFileSystem d array)
    (here : entries array i = some (label, target)) :
    ∃ next, Fs.clearEntry dp (offsetOf i) fs = .done () next ∧
      Shows { volume with naming := volume.naming.setEntry d label none } next ∧
      KeepsEntries fs.toFileSystem next.toFileSystem := by
  obtain ⟨array', shelf⟩ := shows.shelf live isDirectory
  have same := file_unique directory.file shelf.opened.directory.file
  subst same
  obtain ⟨next, after, done, changed, bound⟩ := shelf.opened.clearEntry here
  obtain ⟨keeps, later, directory, heads⟩ :=
    (clearEntry_headed shelf.opened shelf.headed here).of_done done
  have same := file_unique directory.file changed.opened.directory.file
  subst same
  have written := shows.relisted isDirectory changed keeps heads
  rw [bound, shelf.bound] at written
  refine ⟨next, done, written, fun other => ?_⟩
  obtain ⟨ref, valid, number⟩ := changed.keeps other
  exact ⟨ref, number, fun read => valid.trans read⟩

end Shows

/-! ## New inodes -/

/-- `ialloc` finds an inode whose number is not 0. -/
theorem ialloc_finds {state : FsState} (sound : Sound state) (type : Nat) :
    (ialloc type state).Ends OutOfSpace fun ip next => ∃ i, i ≠ 0 ∧ i < state.sb.ninodes ∧
      (state.dinode i).type = 0 ∧ Sound (state.allotted i type) ∧
        iget i (state.allotted i type) = .done ip next := by
  rw [ialloc, Action.ends_bind, Action.ends_get]
  cases found : (List.range' 1 (state.sb.ninodes - 1)).find? fun inum =>
      (state.dinode inum).type == 0 with
  | none => exact Or.inr (Or.inl rfl)
  | some i =>
      have member := List.mem_range'_1.mp (List.mem_of_find?_eq_some found)
      have inside : i < state.sb.ninodes := by omega
      have free : (state.dinode i).type = 0 := by simpa using List.find?_some found
      have cleared : Sound (state.allotted i type) :=
        ⟨sound.consistent.erase inside type, sound.calls⟩
      rw [Action.ends_bind]
      exact (iget_ends i _).imp (fun _ full => Or.inl full.1) fun ip next got =>
        ⟨i, Nat.ne_of_gt member.1, inside, free, cleared, got⟩

/-- The fields after the type are 0. -/
theorem allotted_zero (fs : FileSystem) (i type : Nat) {offset width : Nat} (after : 2 ≤ offset)
    (inside : offset + width ≤ 64) :
    ((fs.allotted i type).block (fs.sb.iblock i)).load (dinodeOffset i + offset) width = 0 := by
  simp only [FileSystem.allotted, FileSystem.setBlock, Function.update_self]
  rw [Memory.load_store_disjoint _ _ (Or.inr (by omega)), ← Memory.load_zero
    (dinodeOffset i + offset) width]
  refine Memory.load_congr fun j below => ?_
  rw [Nat.add_assoc, Memory.write_inside _ _ (by rw [List.length_replicate]; omega)]
  exact List.getElem_replicate ..

/-- The node `i` is in use now, and has nothing in it. -/
def Volume.allocate (volume : Volume) (i kind : Nat) : Volume where
  naming := volume.naming.allocate i kind
  content := Function.update volume.content i []

section Made

variable {volume : Volume} {fs next : FsState} {ip : InodePtr} {i type : Nat}

/-- The node that is new has no names and is empty. -/
theorem ShowsAt.entered (entered : Entered fs ip i type next) (inside : i < fs.sb.ninodes)
    (short : type < 256 ^ 2) : ShowsAt (volume.allocate i type) next.toFileSystem i := by
  have live : next.live i ip = true := by
    rw [live_iff, entered.self]
    exact ⟨Int.one_pos, rfl, rfl⟩
  have self := stat_of_live entered.sound.consistent.once live
  rw [entered.self] at self
  have kind : (next.stat i).type = type := by
    rw [self]
    exact allotted_type fs.toFileSystem i short
  have size : (next.stat i).size = 0 := by
    rw [self]
    exact @allotted_zero fs.toFileSystem i type 8 4 (by decide) (by decide)
  have nlink : (next.stat i).nlink = 0 := by
    rw [self]
    exact @allotted_zero fs.toFileSystem i type 6 2 (by decide) (by decide)
  have disk : next.dinode i = (fs.toFileSystem.allotted i type).dinode i := by
    rw [FileSystem.dinode, entered.block, entered.sb]
    rfl
  refine ⟨?_, fun _ => ?_, ?_, fun isDirectory => ?_, fun plain => ?_⟩
  · simp [Volume.allocate, kind]
  · simp [Volume.allocate, nlink]
  · rw [self, disk]
    exact Dinode.Alike.refl _
  · have tdir : type = tDir := by simpa [Volume.allocate] using isDirectory
    have opened := opened_empty entered.sound live (kind.trans tdir) size
    have free : ∀ k, entries [] k = none := fun k =>
      @entries_within [] 0 rfl k (Nat.zero_le k)
    refine ⟨[], opened.directory, ⟨?_, ?_⟩, ?_⟩
    · intro k target here
      rw [free k] at here
      cases here
    · intro k target here
      rw [free k] at here
      cases here
    · funext label
      have empty := congrFun (volume.naming.allocate_entry_self i type) label
      simp [Volume.allocate, bindings, slots, SlotTable.lookup, SlotTable.find, empty]
  · have tfile : type = tFile := by simpa [Volume.allocate] using plain
    have empty : (Volume.allocate volume i type).content i = [] := Function.update_self ..
    rw [empty]
    refine ⟨?_, ?_, size, fun _ below => absurd below (Nat.not_lt_zero _),
      fun _ below => absurd below (Nat.not_lt_zero _)⟩
    · rw [entered.sb]
      exact inside
    · rw [kind, tfile]
      decide

theorem Shows.entered (shows : Shows volume fs) (entered : Entered fs ip i type next)
    (positive : i ≠ 0) (inside : i < fs.sb.ninodes) (short : type < 256 ^ 2) (nonzero : type ≠ 0)
    (free : volume.naming.kind i = 0) : Shows (volume.allocate i type) next := by
  have region := shows.sound.consistent.layout.iblock_region inside
  have map := bmapstart_lt_dataStart fs.sb
  refine shows.replace entered.sound entered.sb ?_ (fun j _ => entered.stat j) ?_ ?_
    entered.others ?_ ?_ ⟨positive, inside⟩ (ShowsAt.entered entered inside short) ?_ ?_ ?_
  · intro j different
    exact ⟨by simp [Volume.allocate, different], by simp [Volume.allocate, different],
      volume.naming.allocate_entry_of_ne type different, by simp [Volume.allocate, different]⟩
  · intro j _ different
    rw [FileSystem.dinode, entered.block, entered.sb]
    exact allotted_dinode fs.toFileSystem different
  · intro b after
    rw [entered.block]
    exact Function.update_of_ne (by omega) ..
  · intro other _ referenced same
    exact shows.used other referenced (same.symm ▸ free)
  · intro referenced
    rw [entered.free] at referenced
    exact absurd referenced (Int.lt_irrefl 0)
  · rw [entered.self]
    exact Int.one_nonneg
  · simp [entered.self, Volume.allocate, nonzero]
  · intro _
    rw [entered.self]
    exact ⟨rfl, rfl⟩

end Made

end Xv6.Path
