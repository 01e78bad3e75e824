import Xv6.Fs.FileContents

/-!
# Locking and releasing a file

`ilock` reads an inode into the cache and leaves every file as it was, and
`iput` drops one reference, whether or not it frees the inode.
-/

namespace Xv6.Fs

open Xv6.Library

variable {fs later : FileSystem} {state : FsState} {ip : InodePtr} {inum : Nat}

/-! ## Files and the inode cache -/

theorem setInode_self (fs : FileSystem) (ip : InodePtr) (inode : Inode) :
    (fs.setInode ip inode).inode ip = inode := Function.update_self ..

theorem setInode_of_ne (fs : FileSystem) {other : InodePtr} (different : other ≠ ip)
    (inode : Inode) : (fs.setInode ip inode).inode other = fs.inode other :=
  Function.update_of_ne different ..

theorem addrs_stat (fs : FileSystem) (inum : Nat) : fs.addrs inum = (fs.stat inum).addrs := by
  unfold FileSystem.addrs FileSystem.stat
  cases (List.finRange ninode).find? (fs.live inum) with
  | none => rfl
  | some ip => rfl

theorem number_congr (stat : ∀ inum, later.stat inum = fs.stat inum)
    (block : later.block = fs.block) (sb : later.sb = fs.sb) (place : Place) :
    later.number place = fs.number place := by
  cases place with
  | addr inum slot => simp only [FileSystem.number, addrs_stat, stat, sb]
  | entry inum j => simp only [FileSystem.number, addrs_stat, stat, block, sb]

/-- A file depends on its inode and on the blocks only. -/
theorem File.congr {array : List UInt8} (file : File fs inum array)
    (stat : ∀ inum, later.stat inum = fs.stat inum) (block : later.block = fs.block)
    (sb : later.sb = fs.sb) : File later inum array where
  inside := by
    rw [sb]
    exact file.inside
  plain := by
    rw [stat]
    exact file.plain
  size := by
    rw [stat]
    exact file.size
  allocated o below := by
    rw [number_congr stat block sb]
    exact file.allocated o below
  bytes o below := by
    rw [FileSystem.byte, number_congr stat block sb, block]
    exact file.bytes o below

/-- What the cache shows does not change when an inode is read into it. -/
theorem stat_load (once : fs.CachedOnce) (referenced : 0 < (fs.inode ip).ref)
    (stale : (fs.inode ip).valid = false) (number : Nat) :
    (fs.setInode ip { fs.inode ip with
      toDinode := fs.dinode (fs.inode ip).inum, valid := true }).stat number = fs.stat number := by
  have onceAfter : (fs.setInode ip { fs.inode ip with
      toDinode := fs.dinode (fs.inode ip).inum, valid := true }).CachedOnce :=
    once.setInode fun positive => ⟨positive, rfl⟩
  generalize loaded : (fs.setInode ip { fs.inode ip with
    toDinode := fs.dinode (fs.inode ip).inum, valid := true }) = after at onceAfter ⊢
  have here : after.inode ip =
      { fs.inode ip with toDinode := fs.dinode (fs.inode ip).inum, valid := true } := by
    rw [← loaded, setInode_self]
  have away : ∀ other, other ≠ ip → after.inode other = fs.inode other := by
    intro other different
    rw [← loaded, setInode_of_ne fs different]
  have unread : ∀ number, fs.live number ip = false := by
    intro number
    apply Bool.eq_false_iff.mpr
    intro live
    have valid := (live_iff.mp live).2.1
    rw [stale] at valid
    cases valid
  have disk : after.dinode number = fs.dinode number := by
    rw [← loaded]
    rfl
  by_cases cached : ∃ other, fs.live number other = true
  · obtain ⟨other, live⟩ := cached
    have different : other ≠ ip := by
      rintro rfl
      rw [unread] at live
      cases live
    have still : after.live number other = true := by
      rw [live_iff, away other different]
      exact live_iff.mp live
    rw [stat_of_live once live, stat_of_live onceAfter still, away other different]
  · have nobody : ∀ other, fs.live number other = false := fun other =>
      Bool.eq_false_iff.mpr fun live => cached ⟨other, live⟩
    rw [stat_of_disk nobody]
    by_cases same : (fs.inode ip).inum = number
    · have live : after.live number ip = true := by
        rw [live_iff, here]
        exact ⟨referenced, rfl, same⟩
      rw [stat_of_live onceAfter live, here, same]
    · rw [stat_of_disk, disk]
      intro other
      apply Bool.eq_false_iff.mpr
      intro live
      by_cases which : other = ip
      · rw [which, live_iff, here] at live
        exact same live.2.2
      · rw [live_iff, away other which, ← live_iff, nobody] at live
        cases live

/-- `ilock` leaves every file and every reference, and the inode is read. -/
structure LockedInode (before : FsState) (ip : InodePtr) (after : FsState) : Prop where
  sound : Sound after
  live : after.live (before.inode ip).inum ip = true
  refs : ∀ other, (after.inode other).ref = (before.inode other).ref
  files : ∀ inum array, File before.toFileSystem inum array → File after.toFileSystem inum array

/-- An inode that is referenced but not read is the one on the disk. -/
theorem stat_stale (once : fs.CachedOnce) (referenced : 0 < (fs.inode ip).ref)
    (stale : (fs.inode ip).valid = false) :
    fs.stat (fs.inode ip).inum = fs.dinode (fs.inode ip).inum := by
  apply stat_of_disk
  intro other
  apply Bool.eq_false_iff.mpr
  intro live
  obtain ⟨positive, valid, same⟩ := live_iff.mp live
  rw [once other ip positive referenced same, stale] at valid
  cases valid

/-- The state after `ilock` has read the inode. -/
def FsState.loaded (state : FsState) (ip : InodePtr) : FsState :=
  { state with
    toFileSystem := state.toFileSystem.setInode ip { state.inode ip with
      toDinode := state.dinode (state.inode ip).inum, valid := true } }

theorem loaded_self (state : FsState) (ip : InodePtr) :
    (state.loaded ip).inode ip = { state.inode ip with
      toDinode := state.dinode (state.inode ip).inum, valid := true } :=
  setInode_self ..

theorem loaded_of_ne (state : FsState) {other : InodePtr} (different : other ≠ ip) :
    (state.loaded ip).inode other = state.inode other :=
  setInode_of_ne _ different _

theorem ilock_cases (sound : Sound state) (referenced : 0 < (state.inode ip).ref)
    (allocated : (state.stat (state.inode ip).inum).type ≠ 0) :
    ((state.inode ip).valid = true ∧ ilock ip state = .done () state) ∨
      (state.inode ip).valid = false ∧ ilock ip state = .done () (state.loaded ip) := by
  have used : ¬(state.inode ip).ref < 1 := by omega
  by_cases stale : (state.inode ip).valid = false
  · have type : ((state.loaded ip).inode ip).type ≠ 0 := by
      rw [loaded_self, ← stat_stale sound.consistent.once referenced stale]
      exact allocated
    refine Or.inr ⟨stale, ?_⟩
    rw [ilock, Action.get_bind, if_neg used, if_pos stale, onFs, Action.modify_bind,
      Action.get_bind]
    exact congrFun (if_neg type) (state.loaded ip)
  · refine Or.inl ⟨Bool.eq_true_of_not_eq_false stale, ?_⟩
    rw [ilock, Action.get_bind, if_neg used, if_neg stale]
    rfl

theorem ilock_locks (sound : Sound state) (referenced : 0 < (state.inode ip).ref)
    (allocated : (state.stat (state.inode ip).inum).type ≠ 0) :
    ∃ next, ilock ip state = .done () next ∧ LockedInode state ip next := by
  obtain ⟨valid, done⟩ | ⟨stale, done⟩ := ilock_cases sound referenced allocated
  · exact ⟨state, done, sound, live_iff.mpr ⟨referenced, valid, rfl⟩, fun _ => rfl,
      fun _ _ file => file⟩
  · refine ⟨state.loaded ip, done, (ilock_sound sound).of_done done, ?_, ?_, ?_⟩
    · rw [live_iff, loaded_self]
      exact ⟨referenced, rfl, rfl⟩
    · intro other
      by_cases same : other = ip
      · rw [same, loaded_self]
      · rw [loaded_of_ne state same]
    · intro inum array file
      exact file.congr (stat_load sound.consistent.once referenced stale) rfl rfl

/-! ## References -/

theorem stat_congr (live : ∀ ip, later.live inum ip = fs.live inum ip)
    (inodes : ∀ ip, fs.live inum ip = true → (later.inode ip).toDinode = (fs.inode ip).toDinode)
    (block : later.block = fs.block) (sb : later.sb = fs.sb) : later.stat inum = fs.stat inum := by
  have same : later.live inum = fs.live inum := funext live
  have disk : later.dinode inum = fs.dinode inum := by
    rw [FileSystem.dinode, block, sb, FileSystem.dinode]
  unfold FileSystem.stat
  rw [same, disk]
  cases found : (List.finRange ninode).find? (fs.live inum) with
  | none => rfl
  | some ip => exact inodes ip (List.find?_some found)

/-- `iget` returned `ip` for inode `inum`. -/
structure Got (before : FsState) (inum : Nat) (ip : InodePtr) (after : FsState) : Prop where
  sound : Sound after
  number : (after.inode ip).inum = inum
  referenced : 0 < (after.inode ip).ref
  refs : ∀ other, (after.inode other).ref = (before.inode other).ref + if other = ip then 1 else 0
  stat : ∀ number, after.stat number = before.stat number
  files : ∀ number array, File before.toFileSystem number array →
    File after.toFileSystem number array

/-- A cache entry that gets a reference shows what was there. -/
theorem got_setInode {next : FsState} (sound : Sound next) {inode : Inode}
    (changed : next.toFileSystem = state.toFileSystem.setInode ip inode)
    (ref : inode.ref = (state.inode ip).ref + 1) (positive : 0 < inode.ref)
    (number : inode.inum = inum) (same : inode.toDinode = (state.inode ip).toDinode)
    (live : ∀ number, next.live number ip = state.live number ip) : Got state inum ip next := by
  have away : ∀ other, other ≠ ip → next.inode other = state.inode other := by
    intro other different
    rw [changed, setInode_of_ne _ different]
  have here : next.inode ip = inode := by
    rw [changed, setInode_self]
  have block : next.block = state.block := by
    rw [changed, FileSystem.setInode]
  have sb : next.sb = state.sb := by
    rw [changed, FileSystem.setInode]
  have stat : ∀ number, next.stat number = state.stat number := by
    intro number
    refine stat_congr ?_ ?_ block sb
    · intro other
      by_cases which : other = ip
      · rw [which, live]
      · simp only [FileSystem.live, away other which]
    · intro other _
      by_cases which : other = ip
      · rw [which, here, same]
      · rw [away other which]
  refine ⟨sound, ?_, ?_, ?_, stat, fun number array file => file.congr stat block sb⟩
  · rw [here, number]
  · rw [here]
    exact positive
  · intro other
    by_cases which : other = ip
    · rw [which, here, ref, if_pos rfl]
    · rw [away other which, if_neg which, Int.add_zero]

/-- No entry of the inode cache has inode `inum` or is free. -/
def FileSystem.CacheFull (fs : FileSystem) (inum : Nat) : Prop :=
  ∀ ip, (fs.inode ip).ref ≠ 0 ∧ ¬(0 < (fs.inode ip).ref ∧ (fs.inode ip).inum = inum)

/-- `iget` finds the inode in the cache, or recycles a free entry, or there is none. -/
theorem iget_cases (inum : Nat) (state : FsState) :
    (∃ ip, 0 < (state.inode ip).ref ∧ (state.inode ip).inum = inum ∧
      iget inum state = .done ip { state with
        toFileSystem := state.toFileSystem.setInode ip { state.inode ip with
          ref := (state.inode ip).ref + 1 } }) ∨
    (∃ ip, (state.inode ip).ref = 0 ∧
      (∀ other, ¬(0 < (state.inode other).ref ∧ (state.inode other).inum = inum)) ∧
      iget inum state = .done ip { state with
        toFileSystem := state.toFileSystem.setInode ip { state.inode ip with
          inum := inum, ref := 1, valid := false } }) ∨
    (state.CacheFull inum ∧ iget inum state = .panic "iget: no inodes") := by
  rw [iget, Action.get_bind]
  cases cached : (List.finRange ninode).find? fun ip =>
      decide (0 < (state.inode ip).ref) && (state.inode ip).inum == inum with
  | some ip =>
    have found := List.find?_some cached
    simp only [Bool.and_eq_true, decide_eq_true_eq, beq_iff_eq] at found
    exact Or.inl ⟨ip, found.1, found.2, rfl⟩
  | none =>
    have nobody : ∀ other, ¬(0 < (state.inode other).ref ∧ (state.inode other).inum = inum) := by
      simpa using List.find?_eq_none.mp cached
    cases recycled : (List.finRange ninode).find? fun ip => (state.inode ip).ref == 0 with
    | some ip =>
      have free := List.find?_some recycled
      exact Or.inr (Or.inl ⟨ip, beq_iff_eq.mp free, nobody, rfl⟩)
    | none =>
      have used : ∀ other, (state.inode other).ref ≠ 0 := by
        simpa using List.find?_eq_none.mp recycled
      exact Or.inr (Or.inr ⟨fun other => ⟨used other, nobody other⟩, rfl⟩)

theorem iget_gets (sound : Sound state) (inside : inum < state.sb.ninodes) {next : FsState}
    (done : iget inum state = .done ip next) : Got state inum ip next := by
  have after := (iget_sound sound inside).of_done done
  obtain ⟨other, referenced, number, cached⟩ | ⟨other, free, -, recycled⟩ | ⟨-, full⟩ :=
    iget_cases inum state
  · cases cached.symm.trans done
    refine got_setInode after rfl rfl (by dsimp only; omega) number rfl ?_
    intro number
    have more : 0 < (state.inode ip).ref + 1 := by omega
    simp [FileSystem.live, setInode_self, referenced, more]
  · cases recycled.symm.trans done
    refine got_setInode after rfl (by dsimp only; omega) (by dsimp only; omega) rfl rfl ?_
    intro number
    simp [FileSystem.live, setInode_self, free]
  · cases full.symm.trans done

/-! ## Nothing that is used changes -/

/-- At most unused entries of the inode cache differ. -/
structure Untouched (before after : FsState) : Prop where
  block : after.block = before.block
  sb : after.sb = before.sb
  calls : after.calls = before.calls
  used : ∀ ip, (before.inode ip).ref ≠ 0 → after.inode ip = before.inode ip
  unused : ∀ ip, (before.inode ip).ref = 0 → (after.inode ip).ref = 0

namespace Untouched

variable {before middle after : FsState} {array : List UInt8}

theorem refl (state : FsState) : Untouched state state :=
  ⟨rfl, rfl, rfl, fun _ _ => rfl, fun _ same => same⟩

theorem refs (untouched : Untouched before after) (ip : InodePtr) :
    (after.inode ip).ref = (before.inode ip).ref := by
  by_cases free : (before.inode ip).ref = 0
  · rw [free, untouched.unused ip free]
  · rw [untouched.used ip free]

theorem trans (first : Untouched before middle) (second : Untouched middle after) :
    Untouched before after := by
  refine ⟨second.block.trans first.block, second.sb.trans first.sb,
    second.calls.trans first.calls, ?_, fun ip free => second.unused ip (first.unused ip free)⟩
  intro ip used
  have still : (middle.inode ip).ref ≠ 0 := by
    rw [first.refs]
    exact used
  rw [second.used ip still, first.used ip used]

theorem live (untouched : Untouched before after) (inum : Nat) (ip : InodePtr) :
    after.live inum ip = before.live inum ip := by
  by_cases free : (before.inode ip).ref = 0
  · simp [FileSystem.live, free, untouched.unused ip free]
  · simp only [FileSystem.live, untouched.used ip free]

theorem stat (untouched : Untouched before after) (inum : Nat) :
    after.stat inum = before.stat inum := by
  refine stat_congr (untouched.live inum) ?_ untouched.block untouched.sb
  intro ip live
  have used : (before.inode ip).ref ≠ 0 := Int.ne_of_gt (live_iff.mp live).1
  rw [untouched.used ip used]

theorem file (untouched : Untouched before after) (file : File before.toFileSystem inum array) :
    File after.toFileSystem inum array :=
  file.congr untouched.stat untouched.block untouched.sb

end Untouched

/-- Unless it is the last reference to a read inode without links, `iput` just drops it. -/
theorem iput_drops (kept : ¬((state.inode ip).valid = true ∧ (state.inode ip).nlink = 0 ∧
    (state.inode ip).ref = 1)) :
    iput ip state = .done () { state with
      toFileSystem := state.toFileSystem.setInode ip { state.inode ip with
        ref := (state.inode ip).ref - 1 } } := by
  rw [iput, Action.get_bind]
  exact congrFun (if_neg kept) state

/-- `iput` dropped one of several references, or one to an inode that is not read. -/
structure Dropped (before : FsState) (ip : InodePtr) (after : FsState) : Prop where
  sound : Sound after
  self : after.inode ip = { before.inode ip with ref := (before.inode ip).ref - 1 }
  others : ∀ other, other ≠ ip → after.inode other = before.inode other
  block : after.block = before.block
  sb : after.sb = before.sb
  stat : ∀ inum, after.stat inum = before.stat inum

theorem iput_dropped (sound : Sound state) (referenced : 0 < (state.inode ip).ref)
    (kept : (state.inode ip).valid = false ∨ 1 < (state.inode ip).ref) :
    ∃ next, iput ip state = .done () next ∧ Dropped state ip next := by
  have dropped := @iput_drops state ip (by
    rintro ⟨valid, -, last⟩
    obtain stale | more := kept
    · rw [stale] at valid
      cases valid
    · omega)
  refine ⟨_, dropped, (iput_sound sound referenced).of_done dropped, setInode_self ..,
    fun other different => setInode_of_ne _ different _, rfl, rfl, ?_⟩
  intro inum
  refine stat_congr ?_ ?_ rfl rfl
  · intro other
    by_cases same : other = ip
    · rw [same, FileSystem.live, FileSystem.live, setInode_self]
      obtain stale | more := kept
      · simp [stale]
      · simp [referenced, more]
    · simp only [FileSystem.live, setInode_of_ne _ same]
  · intro other _
    by_cases same : other = ip
    · rw [same, setInode_self]
    · rw [setInode_of_ne _ same]

theorem Untouched.setInode {inode later : Inode}
    (used : (state.inode ip).ref ≠ 0 → later = state.inode ip)
    (unused : (state.inode ip).ref = 0 → later.ref = 0) :
    Untouched state { state with
      toFileSystem := (state.toFileSystem.setInode ip inode).setInode ip later } := by
  have away : ∀ other, other ≠ ip → ((state.toFileSystem.setInode ip inode).setInode ip
      later).inode other = state.inode other := by
    intro other different
    rw [setInode_of_ne _ different, setInode_of_ne _ different]
  refine ⟨rfl, rfl, rfl, ?_, ?_⟩
  · intro other cached
    by_cases same : other = ip
    · rw [same] at cached ⊢
      exact (setInode_self ..).trans (used cached)
    · exact away other same
  · intro other free
    by_cases same : other = ip
    · rw [same] at free ⊢
      exact (congrArg Inode.ref (setInode_self ..)).trans (unused free)
    · exact (congrArg Inode.ref (away other same)).trans free

/-- A reference that is taken and dropped leaves no trace. -/
theorem iput_iget (sound : Sound state) (inside : inum < state.sb.ninodes) {middle : FsState}
    (done : iget inum state = .done ip middle) :
    ∃ next, iput ip middle = .done () next ∧ Sound next ∧ Untouched state next := by
  have got := iget_gets sound inside done
  have keeps := iput_sound got.sound got.referenced
  obtain ⟨other, referenced, -, cached⟩ | ⟨other, free, -, recycled⟩ | ⟨-, full⟩ :=
    iget_cases inum state
  · cases cached.symm.trans done
    have dropped := @iput_drops { state with
        toFileSystem := state.toFileSystem.setInode ip { state.inode ip with
          ref := (state.inode ip).ref + 1 } } ip (by
      rw [setInode_self]
      rintro ⟨-, -, last⟩
      dsimp only at last
      omega)
    refine ⟨_, dropped, keeps.of_done dropped, Untouched.setInode (fun _ => ?_) fun free => ?_⟩
    · rw [setInode_self, Int.add_sub_cancel]
    · omega
  · cases recycled.symm.trans done
    have dropped := @iput_drops { state with
        toFileSystem := state.toFileSystem.setInode ip { state.inode ip with
          inum := inum, ref := 1, valid := false } } ip (by
      rw [setInode_self]
      rintro ⟨stale, -⟩
      cases stale)
    refine ⟨_, dropped, keeps.of_done dropped, Untouched.setInode (fun used => ?_) fun _ => ?_⟩
    · exact absurd free used
    · rw [setInode_self]
      rfl
  · cases full.symm.trans done

/-- Every reference count is what it was. -/
def KeepsRefs (before after : FileSystem) : Prop :=
  ∀ ip, (after.inode ip).ref = (before.inode ip).ref

theorem KeepsRefs.setInode (keeps : KeepsRefs fs later) (ip : InodePtr) (inode : Inode)
    (same : inode.ref = (later.inode ip).ref) : KeepsRefs fs (later.setInode ip inode) := by
  intro other
  by_cases here : other = ip
  · rw [here, setInode_self, same, keeps ip]
  · rw [setInode_of_ne later here, keeps other]

theorem KeepsRefs.congr (keeps : KeepsRefs fs later) {next : FileSystem}
    (same : next.inode = later.inode) : KeepsRefs fs next := by
  intro other
  rw [same]
  exact keeps other

theorem bfree_inode (b : Nat) : (bfree b state).Ends (fun _ => True) fun _ next =>
    next.inode = state.inode := by
  rw [bfree, readsb, onFs, Action.modify_bind, Action.get_bind]
  split
  · trivial
  · rfl

theorem itrunc_refs (ip : InodePtr) :
    (itrunc ip state).Ends (fun _ => True) fun _ next =>
      KeepsRefs state.toFileSystem next.toFileSystem := by
  have finish : ∀ current : FsState, KeepsRefs state.toFileSystem current.toFileSystem →
      ((do
        onFs fun fs => fs.setInode ip { fs.inode ip with size := 0 }
        iupdate ip) current).Ends (fun _ => True) fun _ (next : FsState) =>
          KeepsRefs state.toFileSystem next.toFileSystem := by
    intro current keeps
    rw [Action.ends_bind]
    exact (keeps.setInode ip { current.inode ip with size := 0 } rfl).congr rfl
  rw [itrunc, Action.ends_bind]
  refine (Action.ends_forRange
    (fun _ (current : FsState) => KeepsRefs state.toFileSystem current.toFileSystem)
    (fun _ => rfl) ?_).mono ?_
  · intro i current _ keeps
    rw [Action.ends_bind, Action.ends_get]
    split
    · rw [Action.ends_bind]
      refine (bfree_inode _).mono ?_
      rintro - next same
      exact (keeps.congr same).setInode ip _ rfl
    · exact keeps
  · rintro - middle keeps
    rw [Action.ends_bind, Action.ends_get]
    split
    · rw [Action.ends_bind]
      refine (Action.ends_forRange
        (fun _ (current : FsState) => KeepsRefs state.toFileSystem current.toFileSystem)
        keeps ?_).mono ?_
      · intro j current _ kept
        rw [Action.ends_bind, Action.ends_get]
        split
        · exact (bfree_inode _).mono fun _ _ same => kept.congr same
        · exact kept
      · rintro - last kept
        rw [Action.ends_bind]
        refine (bfree_inode _).mono ?_
        rintro - freed same
        rw [Action.ends_bind]
        exact finish { freed with toFileSystem := _ } ((kept.congr same).setInode ip _ rfl)
    · exact finish middle keeps

/-- `iput` drops one reference. -/
theorem iput_refs (sound : Sound state) (referenced : 0 < (state.inode ip).ref) :
    ∃ next, iput ip state = .done () next ∧ ∀ other,
      (next.inode other).ref = (state.inode other).ref - if other = ip then 1 else 0 := by
  obtain ⟨value, next, done, -⟩ := (iput_sound sound referenced).exists_done
  have drop : ∀ current : FileSystem, KeepsRefs state.toFileSystem current → ∀ other,
      ((current.setInode ip { current.inode ip with ref := (current.inode ip).ref - 1 }).inode
        other).ref = (state.inode other).ref - if other = ip then 1 else 0 := by
    intro current keeps other
    by_cases same : other = ip
    · rw [same, setInode_self, if_pos rfl, keeps ip]
    · rw [setInode_of_ne current same, if_neg same, keeps other, Int.sub_zero]
  have refs : (iput ip state).Ends (fun _ => True) fun _ next => ∀ other,
      (next.inode other).ref = (state.inode other).ref - if other = ip then 1 else 0 := by
    rw [iput, Action.ends_bind, Action.ends_get]
    split
    · rw [Action.ends_bind]
      refine (itrunc_refs ip).mono ?_
      rintro - middle keeps
      have freed := keeps.setInode ip { middle.inode ip with type := 0 } rfl
      have written : KeepsRefs state.toFileSystem ((middle.toFileSystem.setInode ip
          { middle.inode ip with type := 0 }).updated ip) := freed.congr rfl
      exact drop _ (written.setInode ip _ rfl)
    · exact drop _ fun _ => rfl
  exact ⟨next, done, refs.of_done done⟩

end Xv6.Fs
