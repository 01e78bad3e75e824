import Xv6.Fs.WrittenBack

/-!
# Freeing a file

`iput` of the last reference to an inode without links frees the inode with its
blocks. Every other inode stays as it is, and so does the data region.
-/

namespace Xv6.Fs

open Xv6.Library

variable {fs : FileSystem} {state current : FsState} {ip : InodePtr} {inum b : Nat}

/-- At most the free map and inode `inum`, which is cached at `ip`, have changed. -/
structure Freeing (before : FsState) (ip : InodePtr) (inum : Nat) (after : FsState) : Prop where
  sb : after.sb = before.sb
  others : ∀ other, other ≠ ip → after.inode other = before.inode other
  number : (after.inode ip).inum = inum
  super : after.block 1 = before.block 1
  data : ∀ b, before.sb.dataStart ≤ b → after.block b = before.block b
  disk : ∀ i < before.sb.ninodes, i ≠ inum → (after.dinode i).Alike (before.dinode i)

namespace Freeing

theorem refl (number : (state.inode ip).inum = inum) : Freeing state ip inum state where
  sb := rfl
  others _ _ := rfl
  number := number
  super := rfl
  data _ _ := rfl
  disk _ _ _ := Dinode.Alike.refl _

variable (freeing : Freeing state ip inum current)
include freeing

theorem setInode (inode : Inode) (number : inode.inum = inum) :
    Freeing state ip inum { current with
      toFileSystem := current.toFileSystem.setInode ip inode } where
  sb := freeing.sb
  others other different := (setInode_of_ne _ different _).trans (freeing.others other different)
  number := by
    rw [setInode_self]
    exact number
  super := freeing.super
  data := freeing.data
  disk := freeing.disk

/-- A block below the data region is written, which holds no inode. -/
theorem setMap (sound : Sound state) (inside : b < state.sb.size) (data : Block) :
    Freeing state ip inum { current with
      toFileSystem := current.toFileSystem.setBlock (state.sb.bblock b) data } := by
  obtain ⟨low, high⟩ := bblock_region state.sb inside
  have layout := sound.consistent.layout
  have start := layout.start
  have order := layout.order
  have away : ∀ c, c ≠ state.sb.bblock b →
      (current.toFileSystem.setBlock (state.sb.bblock b) data).block c = current.block c :=
    fun c different => Function.update_of_ne different ..
  refine ⟨freeing.sb, freeing.others, freeing.number, ?_, ?_, ?_⟩
  · exact (away 1 (by omega)).trans freeing.super
  · intro c region
    exact (away c (by omega)).trans (freeing.data c region)
  · intro i within different
    have below := layout.inodes i within
    have same : (current.toFileSystem.setBlock (state.sb.bblock b) data).dinode i =
        current.dinode i := by
      change dinodeOf ((current.toFileSystem.setBlock _ data).block (current.sb.iblock i)) i = _
      rw [away _ (by rw [freeing.sb]; omega)]
      rfl
    change ((current.toFileSystem.setBlock (state.sb.bblock b) data).dinode i).Alike _
    rw [same]
    exact freeing.disk i within different

theorem bfree (sound : Sound state) (inside : b < state.sb.size) :
    (Fs.bfree b current).Ends (fun _ => True) fun _ next =>
      Freeing state ip inum next ∧ next.inode = current.inode := by
  have super : superblockOf (current.block 1) = current.sb := by
    rw [freeing.super, freeing.sb]
    exact sound.consistent.layout.super
  have reread : readsb current = .done () current := by
    simp only [readsb, onFs, Action.modify, super]
  rw [Fs.bfree, Action.bind_done reread, Action.get_bind]
  split
  · trivial
  · have written := freeing.setMap sound inside
      (clearBit (current.block (current.sb.bblock b)) (b % bpb))
    rw [← freeing.sb] at written
    exact ⟨written, rfl⟩

theorem updated (sound : Sound state) (inside : inum < state.sb.ninodes) :
    Freeing state ip inum { current with toFileSystem := current.toFileSystem.updated ip } := by
  have region := sound.consistent.layout.iblock_region inside
  have map := bmapstart_lt_dataStart state.sb
  have away : ∀ c, c ≠ state.sb.iblock inum →
      (current.toFileSystem.updated ip).block c = current.block c := by
    intro c different
    refine Function.update_of_ne ?_ ..
    rw [freeing.number, freeing.sb]
    exact different
  refine ⟨freeing.sb, freeing.others, freeing.number, ?_, ?_, ?_⟩
  · exact (away 1 (by omega)).trans freeing.super
  · intro c region
    exact (away c (by omega)).trans (freeing.data c region)
  · intro i within different
    have kept := @dinode_updated current.toFileSystem ip i (by
      rw [freeing.number]
      exact different)
    exact kept.trans (freeing.disk i within different)

end Freeing

/-! ## itrunc -/

/-- Block numbers of a cached inode are inside the disk. -/
theorem Sound.addr_inside (sound : Sound state) (live : state.live inum ip = true) {slot : Nat}
    (bound : slot ≤ ndirect) (nonzero : (state.inode ip).addrs slot ≠ 0) :
    (state.inode ip).addrs slot < state.sb.size := by
  have inside := live_inside sound.consistent live
  rw [← addrs_of_live sound.consistent.once live] at nonzero ⊢
  exact ((sound.consistent.addrs_fit inside bound).resolve_left nonzero).size

theorem Sound.entry_inside (sound : Sound state) (live : state.live inum ip = true) {j : Nat}
    (index : j < nindirect) (indirect : (state.inode ip).addrs ndirect ≠ 0)
    (nonzero : (state.block ((state.inode ip).addrs ndirect)).load (4 * j) 4 ≠ 0) :
    (state.block ((state.inode ip).addrs ndirect)).load (4 * j) 4 < state.sb.size := by
  have inside := live_inside sound.consistent live
  have addrs := addrs_of_live sound.consistent.once live
  have value : state.number (.entry inum j) =
      (state.block ((state.inode ip).addrs ndirect)).load (4 * j) 4 := by
    rw [← addrs] at indirect ⊢
    exact if_pos ⟨inside, index, indirect⟩
  exact (sound.consistent.owned.given _ _ ⟨⟨nonzero, value⟩, fun gone => gone⟩).size

theorem itrunc_freeing (sound : Sound state) (live : state.live inum ip = true) :
    (itrunc ip state).Ends (fun _ => True) fun _ next => Freeing state ip inum next := by
  obtain ⟨-, -, number⟩ := live_iff.mp live
  have inside := live_inside sound.consistent live
  have finish : ∀ current : FsState, Freeing state ip inum current →
      ((do
        onFs fun fs => fs.setInode ip { fs.inode ip with size := 0 }
        iupdate ip) current).Ends (fun _ => True) fun _ next => Freeing state ip inum next := by
    intro current freeing
    rw [Action.ends_bind]
    have emptied := freeing.setInode { current.inode ip with size := 0 } freeing.number
    exact emptied.updated sound inside
  rw [itrunc, Action.ends_bind]
  -- The slots that are still to come are as in the beginning.
  refine (Action.ends_forRange (fun i (current : FsState) => Freeing state ip inum current ∧
    ∀ slot, i ≤ slot → (current.inode ip).addrs slot = (state.inode ip).addrs slot)
    ⟨Freeing.refl number, fun _ _ => rfl⟩ ?_).mono ?_
  · rintro i current below ⟨freeing, rest⟩
    rw [Action.ends_bind, Action.ends_get]
    split
    · rename_i nonzero
      rw [rest i (Nat.le_refl i)] at nonzero ⊢
      rw [Action.ends_bind]
      refine (freeing.bfree sound (sound.addr_inside live (Nat.le_of_lt below) nonzero)).mono ?_
      rintro - next ⟨after, same⟩
      refine ⟨after.setInode _ after.number, fun slot later => ?_⟩
      change ((next.toFileSystem.setInode ip _).inode ip).addrs slot = _
      rw [setInode_self]
      dsimp only
      rw [Function.update_of_ne (by omega), same]
      exact rest slot (Nat.le_of_succ_le later)
    · exact ⟨freeing, fun slot later => rest slot (Nat.le_of_succ_le later)⟩
  · rintro - middle ⟨freeing, rest⟩
    rw [Action.ends_bind, Action.ends_get, rest ndirect (Nat.le_refl _)]
    split
    · rename_i nonzero
      have given : (state.inode ip).addrs ndirect < state.sb.size :=
        sound.addr_inside live (Nat.le_refl _) nonzero
      have region : state.sb.dataStart ≤ (state.inode ip).addrs ndirect := by
        rw [← addrs_of_live sound.consistent.once live] at nonzero ⊢
        exact ((sound.consistent.addrs_fit inside (Nat.le_refl _)).resolve_left nonzero).start
      rw [Action.ends_bind]
      refine (Action.ends_forRange (fun _ (current : FsState) => Freeing state ip inum current)
        freeing ?_).mono ?_
      · intro j current below freeing
        rw [Action.ends_bind, Action.ends_get, freeing.data _ region]
        split
        · rename_i held
          exact (freeing.bfree sound (sound.entry_inside live below nonzero held)).mono
            fun _ _ both => both.1
        · exact freeing
      · rintro - last freeing
        rw [Action.ends_bind]
        refine (freeing.bfree sound given).mono ?_
        rintro - freed ⟨after, -⟩
        rw [Action.ends_bind]
        exact finish _ (after.setInode _ after.number)
    · exact finish middle freeing

/-! ## iput -/

theorem putDinode_type (data : Block) (i : Nat) {dinode : Dinode} (short : dinode.type < 256 ^ 2) :
    (dinodeOf (putDinode data i dinode) i).type = dinode.type := by
  apply (@putDinode_load data i dinode 0 2 (by decide)).trans
  rw [Memory.load_store_disjoint _ _ (Or.inl (by omega)),
    Memory.load_store_disjoint _ _ (Or.inl (by omega)),
    Memory.load_store_disjoint _ _ (Or.inl (by omega)),
    Memory.load_store_disjoint _ _ (Or.inl (by omega))]
  exact Memory.load_store_fits _ _ short

/-- Inode `inum`, which was cached at `ip`, is free. -/
structure Freed (before : FsState) (ip : InodePtr) (inum : Nat) (after : FsState) : Prop where
  sound : Sound after
  changes : Freeing before ip inum after
  refs : ∀ other, (after.inode other).ref = (before.inode other).ref - if other = ip then 1 else 0
  type : (after.dinode inum).type = 0

/-- The last reference to an inode without links is dropped. -/
theorem iput_frees (sound : Sound state) (live : state.live inum ip = true)
    (unlinked : (state.inode ip).nlink = 0) (last : (state.inode ip).ref = 1) :
    ∃ next, iput ip state = .done () next ∧ Freed state ip inum next := by
  obtain ⟨referenced, valid, -⟩ := live_iff.mp live
  have inside := live_inside sound.consistent live
  obtain ⟨next, done, refs⟩ := iput_refs sound referenced
  have frees : (iput ip state).Ends (fun _ => True) fun _ next =>
      Freeing state ip inum next ∧ (next.dinode inum).type = 0 := by
    rw [iput, Action.ends_bind, Action.ends_get, if_pos ⟨valid, unlinked, last⟩, Action.ends_bind]
    refine (itrunc_freeing sound live).mono ?_
    rintro - middle freeing
    have cleared := freeing.setInode { middle.inode ip with type := 0 } freeing.number
    have here : (middle.toFileSystem.setInode ip { middle.inode ip with type := 0 }).inode ip =
        { middle.inode ip with type := 0 } := setInode_self ..
    have type : (((middle.toFileSystem.setInode ip
        { middle.inode ip with type := 0 }).updated ip).dinode inum).type = 0 := by
      rw [FileSystem.dinode, FileSystem.updated, here, freeing.number]
      simp only [FileSystem.setBlock, Function.update_self]
      exact putDinode_type _ _ (Nat.zero_lt_succ _)
    have written := cleared.updated sound inside
    have ended : ∀ w : FsState, Freeing state ip inum w → (w.dinode inum).type = 0 →
        ((do
          onFs fun fs => fs.setInode ip { fs.inode ip with valid := false }
          onFs fun fs => fs.setInode ip { fs.inode ip with ref := (fs.inode ip).ref - 1 }) w).Ends
          (fun _ => True) fun _ next => Freeing state ip inum next ∧ (next.dinode inum).type = 0 := by
      intro w kept type
      have invalid := kept.setInode { w.inode ip with valid := false } kept.number
      rw [Action.ends_bind]
      exact ⟨Freeing.setInode invalid _ (by exact invalid.number), type⟩
    rw [Action.ends_bind]
    exact ended _ written type
  obtain ⟨freeing, type⟩ := frees.of_done done
  exact ⟨next, done, (iput_sound sound referenced).of_done done, freeing, refs, type⟩

end Xv6.Fs
