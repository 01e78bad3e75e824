import Xv6.Fs.References

/-!
# References taken for a while

A function that only looks at files takes references to inodes, locks them, and
drops the references again. `Borrowed` says that nothing but that has happened
since it began, and how many references it has at the moment.
-/

namespace Xv6.Fs

open Xv6.Library

/-- Since `before` inodes have been read and referenced at most: `extra ip` references to `ip`
are left. -/
structure Borrowed (before : FsState) (extra : InodePtr → Nat) (after : FsState) : Prop where
  sound : Sound after
  block : after.block = before.block
  sb : after.sb = before.sb
  calls : after.calls = before.calls
  stat : ∀ inum, after.stat inum = before.stat inum
  counted : ∀ ip, 0 ≤ (before.inode ip).ref
  refs : ∀ ip, (after.inode ip).ref = (before.inode ip).ref + extra ip
  number : ∀ ip, 0 < (before.inode ip).ref → (after.inode ip).inum = (before.inode ip).inum
  fresh : ∀ ip, (before.inode ip).ref = 0 → 0 < (after.inode ip).ref →
    (after.inode ip).valid = true → (after.inode ip).toDinode = after.dinode (after.inode ip).inum

namespace Borrowed

variable {before state next : FsState} {extra : InodePtr → Nat} {ip : InodePtr} {inum : Nat}
  {array : List UInt8}

theorem refl (sound : Sound state) (counted : ∀ ip, 0 ≤ (state.inode ip).ref) :
    Borrowed state (fun _ => 0) state where
  sound := sound
  block := rfl
  sb := rfl
  calls := rfl
  stat _ := rfl
  counted := counted
  refs _ := (Int.add_zero _).symm
  number _ _ := rfl
  fresh ip free used := by
    rw [free] at used
    exact absurd used (Int.lt_irrefl 0)

theorem file (borrowed : Borrowed before extra state) (file : File before.toFileSystem inum array) :
    File state.toFileSystem inum array :=
  file.congr borrowed.stat borrowed.block borrowed.sb

theorem number_eq (borrowed : Borrowed before extra state) (place : Place) :
    state.toFileSystem.number place = before.toFileSystem.number place :=
  number_congr borrowed.stat borrowed.block borrowed.sb place

theorem free (borrowed : Borrowed before extra state) : state.free = before.free := by
  refine free_congr borrowed.sb fun c _ => ?_
  rw [FileSystem.Used, FileSystem.Used, borrowed.block, borrowed.sb]

/-- One entry of the inode cache changes, and shows the same inode. -/
theorem change (borrowed : Borrowed before extra state) {inode : Inode} {count : Nat}
    (sound : Sound next)
    (changed : next = { state with toFileSystem := state.toFileSystem.setInode ip inode })
    (stat : ∀ inum, next.stat inum = state.stat inum)
    (ref : inode.ref = (before.inode ip).ref + count)
    (number : 0 < (before.inode ip).ref → inode.inum = (before.inode ip).inum)
    (fresh : (before.inode ip).ref = 0 → 0 < inode.ref → inode.valid = true →
      inode.toDinode = state.dinode inode.inum) :
    Borrowed before (Function.update extra ip count) next := by
  have here : next.inode ip = inode := by
    rw [changed]
    exact setInode_self ..
  have away : ∀ other, other ≠ ip → next.inode other = state.inode other := by
    intro other different
    rw [changed]
    exact setInode_of_ne _ different _
  refine ⟨sound, ?_, ?_, ?_, fun inum => (stat inum).trans (borrowed.stat inum), borrowed.counted,
    ?_, ?_, ?_⟩
  · rw [changed]
    exact borrowed.block
  · rw [changed]
    exact borrowed.sb
  · rw [changed]
    exact borrowed.calls
  · intro other
    by_cases same : other = ip
    · rw [same, here, Function.update_self, ref]
    · rw [away other same, Function.update_of_ne same, borrowed.refs other]
  · intro other used
    by_cases same : other = ip
    · rw [same] at used ⊢
      rw [here, number used]
    · rw [away other same, borrowed.number other used]
  · intro other free used valid
    have disk : ∀ inum, next.dinode inum = state.dinode inum := by
      intro inum
      rw [changed]
      rfl
    rw [disk]
    by_cases same : other = ip
    · rw [same] at free used valid ⊢
      rw [here] at used valid ⊢
      exact fresh free used valid
    · rw [away other same] at used valid ⊢
      exact borrowed.fresh other free used valid

theorem iget (borrowed : Borrowed before extra state) (inside : inum < before.sb.ninodes)
    (got : Fs.iget inum state = .done ip next) :
    Borrowed before (Function.update extra ip (extra ip + 1)) next ∧
      (next.inode ip).inum = inum := by
  rw [← borrowed.sb] at inside
  have taken := iget_gets borrowed.sound inside got
  have refs := borrowed.refs ip
  have counted := borrowed.counted ip
  refine ⟨?_, taken.number⟩
  obtain ⟨other, referenced, -, cached⟩ | ⟨other, free, -, recycled⟩ | ⟨-, full⟩ :=
    iget_cases inum state
  · cases cached.symm.trans got
    refine borrowed.change taken.sound rfl taken.stat ?_ (borrowed.number ip) ?_
    · dsimp only
      omega
    · intro free _ valid
      exact borrowed.fresh ip free referenced valid
  · cases recycled.symm.trans got
    refine borrowed.change taken.sound rfl taken.stat ?_ ?_ ?_
    · dsimp only
      omega
    · intro used
      omega
    · intro _ _ valid
      cases valid
  · cases full.symm.trans got

theorem idup (borrowed : Borrowed before extra state) (referenced : 0 < (state.inode ip).ref) :
    ∃ next, Fs.idup ip state = .done ip next ∧
      Borrowed before (Function.update extra ip (extra ip + 1)) next ∧
      (next.inode ip).inum = (state.inode ip).inum := by
  have refs := borrowed.refs ip
  have more : 0 < (state.inode ip).ref + 1 := by omega
  have done : Fs.idup ip state = .done ip { state with
      toFileSystem := state.toFileSystem.setInode ip { state.inode ip with
        ref := (state.inode ip).ref + 1 } } := rfl
  have sound := (idup_sound borrowed.sound referenced).of_done done
  have got := @got_setInode _ _ (state.inode ip).inum _ sound _ rfl rfl more rfl rfl (by
    intro number
    simp [FileSystem.live, setInode_self, referenced, more])
  refine ⟨_, done, borrowed.change sound rfl got.stat ?_ (borrowed.number ip) ?_, got.number⟩
  · dsimp only
    omega
  · intro free _ valid
    exact borrowed.fresh ip free referenced valid

theorem ilock (borrowed : Borrowed before extra state) (referenced : 0 < (state.inode ip).ref)
    (allocated : (before.stat (state.inode ip).inum).type ≠ 0) :
    ∃ next, Fs.ilock ip state = .done () next ∧ Borrowed before extra next ∧
      next.live (state.inode ip).inum ip = true := by
  rw [← borrowed.stat] at allocated
  obtain ⟨valid, done⟩ | ⟨stale, done⟩ := ilock_cases borrowed.sound referenced allocated
  · exact ⟨state, done, borrowed, live_iff.mpr ⟨referenced, valid, rfl⟩⟩
  · refine ⟨_, done, ?_, ?_⟩
    · have loaded := borrowed.change ((ilock_sound borrowed.sound).of_done done) rfl
        (stat_load borrowed.sound.consistent.once referenced stale) (borrowed.refs ip)
        (borrowed.number ip) fun _ _ _ => rfl
      rw [Function.update_eq_self] at loaded
      exact loaded
    · rw [live_iff, loaded_self]
      exact ⟨referenced, rfl, rfl⟩

/-- An inode leaves the cache, and what is on the disk shows. -/
theorem stat_released (once : state.CachedOnce) (live : state.live inum ip = true)
    {inode : Inode} (released : inode.ref = 0) (number : Nat) :
    (state.toFileSystem.setInode ip inode).stat number =
      if number = inum then state.dinode inum else state.stat number := by
  obtain ⟨referenced, -, same⟩ := live_iff.mp live
  have gone : ∀ number, (state.toFileSystem.setInode ip inode).live number ip = false := by
    intro number
    simp [FileSystem.live, setInode_self, released]
  have away : ∀ number other, other ≠ ip →
      (state.toFileSystem.setInode ip inode).live number other = state.live number other := by
    intro number other different
    simp only [FileSystem.live, setInode_of_ne _ different]
  by_cases here : number = inum
  · subst here
    rw [if_pos rfl, stat_of_disk]
    · rfl
    · intro other
      by_cases which : other = ip
      · rw [which, gone]
      · rw [away _ _ which]
        apply Bool.eq_false_iff.mpr
        intro cached
        obtain ⟨used, -, equal⟩ := live_iff.mp cached
        exact which (once other ip used referenced (equal.trans same.symm))
  · have different : ∀ other, state.live number other = true → other ≠ ip := by
      rintro other cached rfl
      exact here ((live_iff.mp cached).2.2.symm.trans same)
    rw [if_neg here]
    refine stat_congr ?_ ?_ rfl rfl
    · intro other
      by_cases which : other = ip
      · rw [which, gone, eq_comm]
        exact Bool.eq_false_iff.mpr fun cached => different ip cached rfl
      · exact away number other which
    · intro other cached
      rw [setInode_of_ne _ (different other cached)]

/-- An inode that is as on the disk leaves the cache. -/
theorem stat_release (once : state.CachedOnce) (live : state.live inum ip = true)
    (fresh : (state.inode ip).toDinode = state.dinode inum) {inode : Inode}
    (released : inode.ref = 0) (number : Nat) :
    (state.toFileSystem.setInode ip inode).stat number = state.stat number := by
  rw [stat_released once live released]
  split
  · rename_i here
    rw [here, stat_of_live once live, fresh]
  · rfl

/-- A reference is dropped. The inode has links, or it was referenced before. -/
theorem iput (borrowed : Borrowed before extra state) (extra_pos : 0 < extra ip)
    (kept : (before.stat (state.inode ip).inum).nlink ≠ 0 ∨ 0 < (before.inode ip).ref) :
    ∃ next, Fs.iput ip state = .done () next ∧
      Borrowed before (Function.update extra ip (extra ip - 1)) next ∧
      ∀ other, (next.inode other).inum = (state.inode other).inum := by
  have once := borrowed.sound.consistent.once
  have refs := borrowed.refs ip
  have counted := borrowed.counted ip
  have referenced : 0 < (state.inode ip).ref := by omega
  have count : (state.inode ip).ref - 1 = (before.inode ip).ref + (extra ip - 1 : Nat) := by omega
  have dropped := @iput_drops state ip (by
    rintro ⟨valid, unlinked, last⟩
    have live : state.live (state.inode ip).inum ip = true := live_iff.mpr ⟨referenced, valid, rfl⟩
    obtain linked | used := kept
    · rw [← borrowed.stat, stat_of_live once live] at linked
      exact linked unlinked
    · omega)
  have sound := (iput_sound borrowed.sound referenced).of_done dropped
  refine ⟨_, dropped, borrowed.change sound rfl ?_ count (borrowed.number ip) ?_, ?_⟩
  · intro inum
    by_cases last : (state.inode ip).valid = true ∧ (state.inode ip).ref = 1
    · have free : (before.inode ip).ref = 0 := by omega
      have released : (state.inode ip).ref - 1 = 0 := by omega
      exact stat_release once (live_iff.mpr ⟨referenced, last.1, rfl⟩)
        (borrowed.fresh ip free referenced last.1) released inum
    · obtain ⟨next, done, result⟩ := iput_dropped borrowed.sound referenced (by
        by_cases stale : (state.inode ip).valid = false
        · exact Or.inl stale
        · refine Or.inr ?_
          have valid := Bool.eq_true_of_not_eq_false stale
          have more : (state.inode ip).ref ≠ 1 := fun one => last ⟨valid, one⟩
          omega)
      cases dropped.symm.trans done
      exact result.stat inum
  · intro free _ valid
    exact borrowed.fresh ip free referenced valid
  · intro other
    by_cases same : other = ip
    · rw [same, setInode_self]
    · rw [setInode_of_ne _ same]

end Borrowed

end Xv6.Fs
