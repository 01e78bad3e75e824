import Xv6.Fs.Directory
import Xv6.Fs.Relink

/-!
# Inodes that are as on the disk

Between two calls every inode in the cache has been written back, and every
inode that is referenced has a type. An inode that has been written back can
leave the cache, and `ialloc` finds an inode that nobody refers to.
-/

namespace Xv6.Fs

open Xv6.Library

variable {fs later : FileSystem} {state next : FsState} {ip dp : InodePtr} {inum i : Nat}
  {array : List UInt8} {consoleread : Int → Int × List UInt8}

/-- No call is under way: what is cached has been written back, and what is referenced has a
type. -/
structure AtRest (fs : FileSystem) : Prop where
  written : ∀ i, (fs.stat i).Alike (fs.dinode i)
  typed : ∀ ip, 0 < (fs.inode ip).ref → (fs.stat (fs.inode ip).inum).type ≠ 0

/-! ## Files in the data region -/

/-- The blocks that a file has. -/
theorem number_alike (consistent : Consistent none nowhere fs) (sb : later.sb = fs.sb)
    (stat : (later.stat i).Alike (fs.stat i))
    (data : ∀ b, fs.sb.dataStart ≤ b → later.block b = fs.block b) (bn : Nat) :
    later.number (slotOf i bn) = fs.number (slotOf i bn) := by
  have addrs : ∀ k ≤ ndirect, later.addrs i k = fs.addrs i k := by
    intro k slot
    rw [addrs_stat, addrs_stat]
    exact stat.addrs k slot
  rw [slotOf]
  by_cases direct : bn < ndirect
  · rw [if_pos direct]
    simp only [FileSystem.number, sb, addrs bn (Nat.le_of_lt direct)]
  · rw [if_neg direct]
    simp only [FileSystem.number, sb, addrs ndirect (Nat.le_refl _)]
    by_cases all : i < fs.sb.ninodes ∧ bn - ndirect < nindirect ∧ fs.addrs i ndirect ≠ 0
    · obtain zero | given := consistent.addrs_fit all.1 (Nat.le_refl ndirect)
      · exact absurd zero all.2.2
      · rw [if_pos all, if_pos all, data _ given.start]
    · rw [if_neg all, if_neg all]

/-- A file depends on its inode and on the data region only. -/
theorem File.of_alike (file : File fs i array) (consistent : Consistent none nowhere fs)
    (sb : later.sb = fs.sb) (stat : (later.stat i).Alike (fs.stat i))
    (data : ∀ b, fs.sb.dataStart ≤ b → later.block b = fs.block b) : File later i array where
  inside := by
    rw [sb]
    exact file.inside
  plain := by
    rw [stat.kind.type]
    exact file.plain
  size := by
    rw [stat.size]
    exact file.size
  allocated o below := by
    rw [number_alike consistent sb stat data]
    exact file.allocated o below
  bytes o below := by
    have given := consistent.owned.given _ _ ⟨⟨file.allocated o below, rfl⟩, fun gone => gone⟩
    rw [FileSystem.byte, number_alike consistent sb stat data, data _ given.start]
    exact file.bytes o below

theorem Directory.of_file (directory : Directory fs i array) (file : File later i array)
    (sb : later.sb = fs.sb) (type : (later.stat i).type = (fs.stat i).type) :
    Directory later i array where
  file := file
  type := by
    rw [type]
    exact directory.type
  whole := directory.whole
  distinct := directory.distinct
  numbers := by
    rw [sb]
    exact directory.numbers

theorem Directory.of_alike (directory : Directory fs i array)
    (consistent : Consistent none nowhere fs) (sb : later.sb = fs.sb)
    (stat : (later.stat i).Alike (fs.stat i))
    (data : ∀ b, fs.sb.dataStart ≤ b → later.block b = fs.block b) : Directory later i array :=
  directory.of_file (directory.file.of_alike consistent sb stat data) sb stat.kind.type

/-- A directory stays open while its inode stays in the cache. -/
theorem Opened.still (opened : Opened state dp inum array) (sound : Sound next)
    (same : next.inode dp = state.inode dp)
    (directory : Directory next.toFileSystem inum array) : Opened next dp inum array where
  sound := sound
  live := by
    rw [live_iff, same]
    exact live_iff.mp opened.live
  directory := directory

/-! ## Dropping a reference -/

/-- A reference was dropped, and what shows is as before. -/
structure Released (before : FsState) (ip : InodePtr) (after : FsState) : Prop where
  sound : Sound after
  inodes : after.inode = Function.update before.inode ip
    { before.inode ip with ref := (before.inode ip).ref - 1 }
  block : after.block = before.block
  sb : after.sb = before.sb
  stat : ∀ i, (after.stat i).Alike (before.stat i)

/-- An inode that has been read has links or another reference, and is as on the disk. -/
theorem iput_released (sound : Sound state) (referenced : 0 < (state.inode ip).ref)
    (kept : (state.inode ip).valid = true → (state.inode ip).nlink ≠ 0 ∨ 1 < (state.inode ip).ref)
    (flushed : (state.inode ip).valid = true → state.Flushed ip) :
    ∃ next, iput ip state = .done () next ∧ Released state ip next := by
  have dropped := @iput_drops state ip (by
    rintro ⟨valid, unlinked, last⟩
    obtain linked | more := kept valid
    · exact linked unlinked
    · omega)
  refine ⟨_, dropped, (iput_sound sound referenced).of_done dropped, rfl, rfl, rfl, ?_⟩
  intro i
  by_cases last : (state.inode ip).valid = true ∧ (state.inode ip).ref = 1
  · have once := sound.consistent.once
    have live : state.live (state.inode ip).inum ip = true := live_iff.mpr ⟨referenced, last.1, rfl⟩
    have gone : (state.inode ip).ref - 1 = 0 := by omega
    have released := @Borrowed.stat_released state ip _ once live
      { state.inode ip with ref := (state.inode ip).ref - 1 } gone i
    change Dinode.Alike ((state.toFileSystem.setInode ip _).stat i) _
    rw [released]
    split
    · rename_i same
      rw [same, stat_of_live once live]
      exact (flushed last.1).symm
    · exact Dinode.Alike.refl _
  · obtain ⟨next, done, result⟩ := iput_dropped sound referenced (by
      by_cases stale : (state.inode ip).valid = false
      · exact Or.inl stale
      · refine Or.inr ?_
        have more : (state.inode ip).ref ≠ 1 := fun one =>
          last ⟨Bool.eq_true_of_not_eq_false stale, one⟩
        omega)
    cases dropped.symm.trans done
    rw [result.stat i]
    exact Dinode.Alike.refl _

namespace Released

variable {before after : FsState}

theorem self (released : Released before ip after) :
    after.inode ip = { before.inode ip with ref := (before.inode ip).ref - 1 } := by
  rw [released.inodes, Function.update_self]

theorem others (released : Released before ip after) {other : InodePtr} (different : other ≠ ip) :
    after.inode other = before.inode other := by
  rw [released.inodes, Function.update_of_ne different]

theorem directory (released : Released before ip after) (sound : Sound before)
    (directory : Directory before.toFileSystem i array) : Directory after.toFileSystem i array :=
  directory.of_alike sound.consistent released.sb (released.stat i) fun b _ =>
    congrFun released.block b

theorem flushed (released : Released before ip after) {other : InodePtr} (different : other ≠ ip)
    (flushed : before.Flushed other) : after.Flushed other := by
  have disk : after.dinode (before.inode other).inum = before.dinode (before.inode other).inum := by
    rw [FileSystem.dinode, released.block, released.sb, FileSystem.dinode]
  rw [FileSystem.Flushed, released.others different, disk]
  exact flushed

end Released

/-! ## Choosing a free inode -/

/-- The file system after `ialloc` has marked inode `inum`. -/
def FileSystem.allotted (fs : FileSystem) (inum type : Nat) : FileSystem :=
  fs.setBlock (fs.sb.iblock inum)
    (((fs.block (fs.sb.iblock inum)).write (dinodeOffset inum) (List.replicate 64 0)).store
      (dinodeOffset inum) 2 type)

def FsState.allotted (state : FsState) (inum type : Nat) : FsState :=
  { state with toFileSystem := state.toFileSystem.allotted inum type }

theorem allotted_type (fs : FileSystem) (inum : Nat) {type : Nat} (short : type < 256 ^ 2) :
    ((fs.allotted inum type).dinode inum).type = type := by
  simp only [FileSystem.dinode, FileSystem.allotted, FileSystem.setBlock, Function.update_self,
    dinodeOf]
  exact Memory.load_store_fits _ _ short

theorem allotted_dinode (fs : FileSystem) {inum type : Nat} (different : i ≠ inum) :
    ((fs.allotted inum type).dinode i).Alike (fs.dinode i) := by
  have same : ∀ location, location < dinodeOffset inum ∨ dinodeOffset inum + 64 ≤ location →
      (((fs.block (fs.sb.iblock inum)).write (dinodeOffset inum) (List.replicate 64 0)).store
        (dinodeOffset inum) 2 type) location = fs.block (fs.sb.iblock inum) location := by
    intro location outside
    rw [Memory.store_outside _ _ (by omega), Memory.write_outside]
    simpa using outside
  exact ⟨dinode_kind_setBlock same different, (dinode_stat_setBlock same different).2,
    fun _ slot => dinode_addrs_setBlock same different slot⟩

theorem allotted_stat (fs : FileSystem) {inum type : Nat} (different : i ≠ inum) :
    ((fs.allotted inum type).stat i).Alike (fs.stat i) := by
  have live : (fs.allotted inum type).live i = fs.live i := rfl
  unfold FileSystem.stat
  rw [live]
  cases (List.finRange ninode).find? (fs.live i) with
  | none => exact allotted_dinode fs different
  | some ip => exact Dinode.Alike.refl _

theorem ialloc_ends (sound : Sound state) (type : Nat) :
    (ialloc type state).Ends FsPanic fun ip next => ∃ inum < state.sb.ninodes,
      (state.dinode inum).type = 0 ∧
        Sound (state.allotted inum type) ∧
        iget inum (state.allotted inum type) = .done ip next := by
  rw [ialloc, Action.ends_bind, Action.ends_get]
  cases found : (List.range' 1 (state.sb.ninodes - 1)).find? fun inum =>
      (state.dinode inum).type == 0 with
  | none => exact Or.inr (Or.inr (Or.inl rfl))
  | some inum =>
      have member := List.mem_range'_1.mp (List.mem_of_find?_eq_some found)
      have inside : inum < state.sb.ninodes := by omega
      have free : (state.dinode inum).type = 0 := by simpa using List.find?_some found
      have cleared : Sound (state.allotted inum type) :=
        ⟨sound.consistent.erase inside type, sound.calls⟩
      rw [Action.ends_bind]
      refine (iget_ends inum _).imp (fun _ full => Or.inr (Or.inl full.1)) ?_
      intro ip next got
      exact ⟨inum, inside, free, cleared, got⟩

/-- `ialloc` and `ilock` got inode `inum` in the entry `ip`, which was free. -/
structure Entered (before : FsState) (ip : InodePtr) (inum type : Nat) (after : FsState) : Prop where
  sound : Sound after
  free : (before.inode ip).ref = 0
  self : after.inode ip =
    ⟨(before.toFileSystem.allotted inum type).dinode inum, inum, 1, true⟩
  others : ∀ other, other ≠ ip → after.inode other = before.inode other
  block : after.block = (before.allotted inum type).block
  sb : after.sb = before.sb
  stat : ∀ i, i ≠ inum → (after.stat i).Alike (before.stat i)

/-- Nobody refers to the inode, so a free entry is recycled. -/
theorem iget_recycles
    (nobody : ∀ other, ¬(0 < (state.inode other).ref ∧ (state.inode other).inum = inum))
    (got : iget inum state = .done ip next) :
    (state.inode ip).ref = 0 ∧ next = { state with
      toFileSystem := state.toFileSystem.setInode ip { state.inode ip with
        inum := inum, ref := 1, valid := false } } := by
  obtain ⟨other, referenced, number, -⟩ | ⟨other, free, -, recycled⟩ | ⟨-, full⟩ :=
    iget_cases inum state
  · exact absurd ⟨referenced, number⟩ (nobody other)
  · cases recycled.symm.trans got
    exact ⟨free, rfl⟩
  · cases full.symm.trans got

/-- The new inode is read from the disk. -/
theorem ilock_enters {type : Nat} (inside : inum < state.sb.ninodes) (short : type < 256 ^ 2)
    (nonzero : type ≠ 0)
    (nobody : ∀ other, ¬(0 < (state.inode other).ref ∧ (state.inode other).inum = inum))
    (cleared : Sound (state.allotted inum type))
    (got : iget inum (state.allotted inum type) = .done ip next) :
    ∃ after, ilock ip next = .done () after ∧ 0 < (next.inode ip).ref ∧
      Entered state ip inum type after := by
  have taken := iget_gets cleared inside got
  obtain ⟨free, recycled⟩ := @iget_recycles (state.allotted inum type) _ _ _ nobody got
  have self : next.inode ip = { state.inode ip with inum := inum, ref := 1, valid := false } := by
    rw [recycled]
    exact setInode_self ..
  have away : ∀ other, other ≠ ip → next.inode other = state.inode other := by
    intro other different
    rw [recycled]
    exact setInode_of_ne _ different _
  have unread : ∀ other, (state.allotted inum type).live inum other = false := by
    intro other
    apply Bool.eq_false_iff.mpr
    intro live
    obtain ⟨used, -, number⟩ := live_iff.mp live
    exact nobody other ⟨used, number⟩
  have allocated : (next.stat (next.inode ip).inum).type ≠ 0 := by
    rw [taken.number, taken.stat, stat_of_disk unread]
    change ((state.toFileSystem.allotted inum type).dinode inum).type ≠ 0
    rw [allotted_type _ _ short]
    exact nonzero
  have disk : next.dinode inum = (state.toFileSystem.allotted inum type).dinode inum := by
    rw [recycled]
    rfl
  obtain ⟨valid, -⟩ | ⟨stale, done⟩ := ilock_cases taken.sound taken.referenced allocated
  · rw [self] at valid
    cases valid
  · refine ⟨next.loaded ip, done, taken.referenced, (ilock_sound taken.sound).of_done done, free, ?_,
      ?_, ?_, ?_, ?_⟩
    · rw [loaded_self, taken.number, disk, self]
    · intro other different
      rw [loaded_of_ne _ different, away other different]
    · rw [recycled]
      rfl
    · rw [recycled]
      rfl
    · intro i different
      have load := stat_load taken.sound.consistent.once taken.referenced stale i
      change ((next.toFileSystem.setInode ip _).stat i).Alike _
      rw [load, taken.stat i]
      exact allotted_stat _ different

/-- A directory is another inode. -/
theorem Opened.entered (opened : Opened state dp inum array) {type : Nat}
    (entered : Entered state ip i type next) (different : inum ≠ i)
    (inside : i < state.sb.ninodes) : Opened next dp inum array := by
  obtain ⟨referenced, -, -⟩ := live_iff.mp opened.live
  have away : dp ≠ ip := by
    rintro rfl
    rw [entered.free] at referenced
    cases referenced
  refine opened.still entered.sound (entered.others dp away) (opened.directory.of_alike
    opened.sound.consistent entered.sb (entered.stat inum different) fun b region => ?_)
  have below := opened.sound.consistent.layout.iblock_region inside
  have map := bmapstart_lt_dataStart state.sb
  rw [entered.block]
  exact Function.update_of_ne (by omega) ..

theorem Entered.keepsFlushed {before after : FsState} {type : Nat} {other : InodePtr}
    (entered : Entered before ip inum type after) (different : other ≠ ip)
    (number : (before.inode other).inum ≠ inum) (flushed : before.Flushed other) :
    after.Flushed other := by
  have disk : after.dinode (before.inode other).inum =
      (before.toFileSystem.allotted inum type).dinode (before.inode other).inum := by
    rw [FileSystem.dinode, entered.block, entered.sb]
    rfl
  rw [FileSystem.Flushed, entered.others other different, disk]
  exact flushed.trans (allotted_dinode before.toFileSystem number).symm

/-! ## Setting fields -/

theorem Opened.relinked (opened : Opened state dp inum array) {inode : Inode}
    (relinked : Relinked state ip inode next) (different : dp ≠ ip) : Opened next dp inum array := by
  have same : next.inode dp = state.inode dp := by
    rw [relinked.inodes, Function.update_of_ne different]
  have file := relinked.content.keepsFiles _ _ opened.directory.file
  exact opened.still relinked.sound same (opened.directory.of_file file relinked.content.sb
    (relinked.content.types _ opened.directory.file.inside))

theorem Relinked.keepsFlushed {before after : FsState} {inode : Inode} {other : InodePtr}
    (relinked : Relinked before ip inode after) (different : other ≠ ip)
    (number : (before.inode other).inum ≠ inode.inum) (flushed : before.Flushed other) :
    after.Flushed other := by
  have same : after.inode other = before.inode other := by
    rw [relinked.inodes, Function.update_of_ne different]
  rw [FileSystem.Flushed, same]
  exact flushed.trans (relinked.disk _ number).symm

/-! ## A new entry -/

/-- What an entry of directory `inum` that is written leaves as it was. -/
structure KeepsInodes (before : FsState) (inum : Nat) (after : FsState) : Prop where
  sound : Sound after
  opens : KeepsOpen before.toFileSystem after.toFileSystem
  kinds : KeepsKinds before.toFileSystem inum after.toFileSystem
  flushed : KeepsFlushed before.toFileSystem after.toFileSystem

theorem KeepsInodes.refl (sound : Sound state) : KeepsInodes state inum state where
  sound := sound
  opens _ := ⟨rfl, rfl, rfl⟩
  kinds := ⟨rfl, fun _ _ => Dinode.SameKind.refl _, fun _ _ _ => rfl⟩
  flushed _ _ _ flushed := flushed

/-- Entry `j` is written over, or the directory grows. -/
theorem Opened.entry_flushed (opened : Opened state dp inum array) {j : Nat}
    (inside : j ≤ slots array) (fits : direntSize * j + direntSize ≤ maxFile * bsize)
    (de : Memory) :
    (writei dp de (offsetOf j) sizeofDe state).Ends (fun _ => True) fun _ next =>
      KeepsFlushed state.toFileSystem next.toFileSystem := by
  have offset := opened.toNat_offsetOf inside
  have size : sizeofDe.toNat = direntSize := rfl
  have length := opened.directory.length
  by_cases below : j < slots array
  · have entry := opened.entry_fits below
    have there : state.number (slotOf inum ((offsetOf j).toNat / bsize)) ≠ 0 := by
      rw [offset]
      exact opened.directory.file.allocated _ (Nat.lt_of_lt_of_le
        (Nat.lt_add_of_pos_right (by decide)) entry)
    have within : direntSize * j % bsize + direntSize ≤ bsize := by
      unfold direntSize bsize
      omega
    obtain ⟨data, wrote⟩ := @writei_block _ _ _ de (offsetOf j) sizeofDe opened.sound opened.live
      opened.plain (by decide) (by rw [offset, size]; exact within)
      (by rw [offset, size, opened.size, ← length]; exact entry)
      (by rw [offset, size]; exact fits) there
    rw [wrote]
    exact setBlock_flushed opened.sound there data
  · have ended : j = slots array := Nat.le_antisymm inside (Nat.le_of_not_lt below)
    subst ended
    refine writei_grows de opened.sound opened.live opened.plain ?_ ?_ ?_
    · rw [offset, opened.size]
    · rw [offset, size]
      exact fits
    · rw [offset, size, opened.size]
      exact Nat.lt_add_of_pos_right (by decide)

theorem Opened.entry_keeps (opened : Opened state dp inum array) {j : Nat}
    (inside : j ≤ slots array) (de : Memory) :
    (writei dp de (offsetOf j) sizeofDe state).Ends (fun _ => True) fun _ next =>
      KeepsInodes state inum next := by
  have offset := opened.toNat_offsetOf inside
  have size : sizeofDe.toNat = direntSize := rfl
  by_cases fits : direntSize * j + direntSize ≤ maxFile * bsize
  · have wrote := @writei_wrote _ _ _ (fun _ => True) de (offsetOf j) sizeofDe opened.sound
      opened.live opened.plain
      (by rw [offset, opened.size]; exact Nat.mul_le_mul_left _ inside)
      (by rw [offset, size]; exact fits) fun _ => trivial
    refine (wrote.and (opened.entry_flushed inside fits de)).mono ?_
    rintro written next ⟨⟨-, sound, stored, kinds⟩, flushed⟩
    exact ⟨sound, stored.opened, kinds, flushed⟩
  · have refused : writei dp de (offsetOf j) sizeofDe state = .done (-1) state := by
      apply writei_refuses de opened.plain
      rw [offset, size]
      exact fun allowed => fits allowed.2.2
    rw [refused]
    exact KeepsInodes.refl opened.sound

theorem Opened.dirlink_keeps (opened : Opened state dp inum array) {name : Memory}
    (unbound : bindings array (nameOf name) = none) (target : Nat) :
    (dirlink consoleread dp name target state).Ends (fun _ => True) fun _ next =>
      KeepsInodes state inum next := by
  obtain ⟨j, rest, writes, within, -, -⟩ :=
    @Opened.dirlink_writes _ _ _ _ consoleread opened name unbound target
  rw [writes, Action.ends_bind]
  refine (opened.entry_keeps within _).mono ?_
  intro written next kept
  split
  · trivial
  · exact kept

end Xv6.Fs
