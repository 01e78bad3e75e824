import Xv6.Fs.Borrowed
import Xv6.Fs.Names

/-!
# Inodes that are written back

`create`, `sys_link` and `sys_unlink` set fields of a locked inode and call
`iupdate`. Every file keeps its content. An inode that has been written back
looks the same when it leaves the cache, but for the words after its block
numbers, which belong to other inodes.
-/

namespace Xv6.Fs

open Xv6.Library

variable {fs later : FileSystem} {state next : FsState} {ip : InodePtr} {inum : Nat}

/-! ## In memory and on the disk -/

/-- Inodes with the same fields. Of `addrs` the block numbers up to `ndirect` count. -/
structure Dinode.Alike (first second : Dinode) : Prop where
  kind : first.SameKind second
  size : first.size = second.size
  addrs : ∀ k ≤ ndirect, first.addrs k = second.addrs k

namespace Dinode

theorem SameKind.symm {first second : Dinode} (same : first.SameKind second) :
    second.SameKind first :=
  ⟨same.type.symm, same.major.symm, same.minor.symm, same.nlink.symm⟩

theorem Alike.refl (dinode : Dinode) : dinode.Alike dinode :=
  ⟨SameKind.refl dinode, rfl, fun _ _ => rfl⟩

theorem Alike.trans {first second third : Dinode} (one : first.Alike second)
    (two : second.Alike third) : first.Alike third :=
  ⟨one.kind.trans two.kind, one.size.trans two.size,
    fun k slot => (one.addrs k slot).trans (two.addrs k slot)⟩

theorem Alike.symm {first second : Dinode} (same : first.Alike second) : second.Alike first :=
  ⟨same.kind.symm, same.size.symm, fun k slot => (same.addrs k slot).symm⟩

/-- The fields fit into their C types. -/
structure Typed (dinode : Dinode) : Prop where
  type : dinode.type < 256 ^ 2
  major : dinode.major < 256 ^ 2
  minor : dinode.minor < 256 ^ 2
  nlink : dinode.nlink < 256 ^ 2
  size : dinode.size < 256 ^ 4

theorem Typed.alike {first second : Dinode} (typed : first.Typed) (same : second.Alike first) :
    second.Typed where
  type := same.kind.type ▸ typed.type
  major := same.kind.major ▸ typed.major
  minor := same.kind.minor ▸ typed.minor
  nlink := same.kind.nlink ▸ typed.nlink
  size := same.size ▸ typed.size

end Dinode

theorem dinodeOf_typed (data : Block) (i : Nat) : (dinodeOf data i).Typed where
  type := Memory.load_lt ..
  major := Memory.load_lt ..
  minor := Memory.load_lt ..
  nlink := Memory.load_lt ..
  size := Memory.load_lt ..

/-- The fields before the block numbers are written before them. -/
theorem putDinode_load (data : Block) (i : Nat) (dinode : Dinode) {offset width : Nat}
    (before : offset + width ≤ 12) :
    (putDinode data i dinode).load (dinodeOffset i + offset) width =
      (((((data.store (dinodeOffset i) 2 dinode.type).store
        (dinodeOffset i + 2) 2 dinode.major).store
        (dinodeOffset i + 4) 2 dinode.minor).store
        (dinodeOffset i + 6) 2 dinode.nlink).store
        (dinodeOffset i + 8) 4 dinode.size).load (dinodeOffset i + offset) width := by
  unfold putDinode
  refine forLoop_invariant (fun _ (current : Block) =>
    current.load (dinodeOffset i + offset) width = _) rfl ?_
  intro k current _ same
  rw [Memory.load_store_disjoint _ _ (Or.inl (by omega)), same]

theorem dinodeOf_putDinode (data : Block) (i : Nat) {dinode : Dinode} (typed : dinode.Typed)
    (fits : ∀ k ≤ ndirect, dinode.addrs k < 2 ^ 32) :
    (dinodeOf (putDinode data i dinode) i).Alike dinode := by
  refine ⟨⟨?_, ?_, ?_, ?_⟩, ?_, fun k slot => putDinode_addrs data i fits slot⟩
  · apply (@putDinode_load data i dinode 0 2 (by decide)).trans
    rw [Memory.load_store_disjoint _ _ (Or.inl (by omega)),
      Memory.load_store_disjoint _ _ (Or.inl (by omega)),
      Memory.load_store_disjoint _ _ (Or.inl (by omega)),
      Memory.load_store_disjoint _ _ (Or.inl (by omega))]
    exact Memory.load_store_fits _ _ typed.type
  · apply (@putDinode_load data i dinode 2 2 (by decide)).trans
    rw [Memory.load_store_disjoint _ _ (Or.inl (by omega)),
      Memory.load_store_disjoint _ _ (Or.inl (by omega)),
      Memory.load_store_disjoint _ _ (Or.inl (by omega))]
    exact Memory.load_store_fits _ _ typed.major
  · apply (@putDinode_load data i dinode 4 2 (by decide)).trans
    rw [Memory.load_store_disjoint _ _ (Or.inl (by omega)),
      Memory.load_store_disjoint _ _ (Or.inl (by omega))]
    exact Memory.load_store_fits _ _ typed.minor
  · apply (@putDinode_load data i dinode 6 2 (by decide)).trans
    rw [Memory.load_store_disjoint _ _ (Or.inl (by omega))]
    exact Memory.load_store_fits _ _ typed.nlink
  · apply (@putDinode_load data i dinode 8 4 (by decide)).trans
    exact Memory.load_store_fits _ _ typed.size

/-- The in-memory copy of an inode agrees with the disk. -/
def FileSystem.Flushed (fs : FileSystem) (ip : InodePtr) : Prop :=
  (fs.inode ip).toDinode.Alike (fs.dinode (fs.inode ip).inum)

theorem FileSystem.Flushed.typed (flushed : fs.Flushed ip) : (fs.inode ip).Typed :=
  (dinodeOf_typed _ _).alike flushed

/-- The other inodes in the block stay. -/
theorem dinode_updated (fs : FileSystem) (ip : InodePtr) {i : Nat}
    (different : i ≠ (fs.inode ip).inum) : ((fs.updated ip).dinode i).Alike (fs.dinode i) := by
  have same := fun location outside => @putDinode_outside
    (fs.block (fs.sb.iblock (fs.inode ip).inum)) (fs.inode ip).inum (fs.inode ip).toDinode location
    outside
  exact ⟨dinode_kind_setBlock same different, (dinode_stat_setBlock same different).2,
    fun _ slot => dinode_addrs_setBlock same different slot⟩

theorem Consistent.flushed (consistent : Consistent none nowhere fs)
    (live : fs.live inum ip = true) (typed : (fs.inode ip).Typed) : (fs.updated ip).Flushed ip := by
  obtain ⟨referenced, -, number⟩ := live_iff.mp live
  have inside := consistent.cached ip referenced
  have fits : ∀ k ≤ ndirect, (fs.inode ip).addrs k < 2 ^ 32 := by
    intro k slot
    rw [← addrs_of_live consistent.once live, ← number]
    obtain zero | data := consistent.addrs_fit inside slot
    · rw [zero]
      decide
    · have below := data.size
      have size := consistent.layout.size
      omega
  apply Dinode.Alike.symm
  simp only [FileSystem.dinode, FileSystem.updated, FileSystem.setBlock, Function.update_self]
  exact dinodeOf_putDinode _ _ typed fits

/-! ## The content of files -/

/-- Every inode has the same type, the same size and the same bytes. -/
structure SameContent (before after : FileSystem) : Prop where
  sb : after.sb = before.sb
  types : ∀ i < before.sb.ninodes, (after.stat i).type = (before.stat i).type
  sizes : ∀ i < before.sb.ninodes, (after.stat i).size = (before.stat i).size
  number : ∀ place, after.number place = before.number place
  byte : ∀ i o, before.number (slotOf i (o / bsize)) ≠ 0 → after.byte i o = before.byte i o

/-- Files stay as they are. -/
def KeepsFiles (before after : FileSystem) : Prop :=
  ∀ i array, File before i array → File after i array

theorem SameContent.keepsFiles (same : SameContent fs later) : KeepsFiles fs later := by
  intro i array file
  refine ⟨?_, ?_, ?_, ?_, ?_⟩
  · rw [same.sb]
    exact file.inside
  · rw [same.types i file.inside]
    exact file.plain
  · rw [same.sizes i file.inside]
    exact file.size
  · intro o below
    rw [same.number]
    exact file.allocated o below
  · intro o below
    rw [same.byte i o (file.allocated o below)]
    exact file.bytes o below

/-! ## Writing an inode back -/

/-- `major`, `minor` and `nlink` of an inode were set to those of `inode`, and it was written
back. -/
structure Relinked (before : FsState) (ip : InodePtr) (inode : Inode) (after : FsState) : Prop where
  entry : inode = { before.inode ip with
    major := inode.major, minor := inode.minor, nlink := inode.nlink }
  sound : Sound after
  inodes : after.inode = Function.update before.inode ip inode
  content : SameContent before.toFileSystem after.toFileSystem
  self : after.stat inode.inum = inode.toDinode
  others : ∀ i, i ≠ inode.inum → (after.stat i).Alike (before.stat i)
  disk : ∀ i, i ≠ inode.inum → (after.dinode i).Alike (before.dinode i)
  flushed : inode.Typed → after.Flushed ip
  free : after.free = before.free

theorem iupdate_relinks (sound : Sound state) (live : state.live inum ip = true) {inode : Inode}
    (same : inode = { state.inode ip with
      major := inode.major, minor := inode.minor, nlink := inode.nlink }) :
    ∃ next, iupdate ip { state with toFileSystem := state.toFileSystem.setInode ip inode } =
      .done () next ∧ Relinked state ip inode next := by
  obtain ⟨referenced, fresh, number⟩ := live_iff.mp live
  have ref : inode.ref = (state.inode ip).ref := by rw [same]
  have valid : inode.valid = true := by
    rw [same]
    exact fresh
  have inumber : inode.inum = inum := by
    rw [same]
    exact number
  have addrs : inode.addrs = (state.inode ip).addrs := by rw [same]
  have type : inode.type = (state.inode ip).type := by rw [same]
  have size : inode.size = (state.inode ip).size := by rw [same]
  obtain ⟨touched, still⟩ := sound.consistent.touch live inode ref valid inumber addrs
  have updated := touched.updated still (by simp)
  have here : ((state.toFileSystem.setInode ip inode).updated ip).inode ip = inode :=
    Function.update_self ..
  have liveAfter : ((state.toFileSystem.setInode ip inode).updated ip).live inum ip = true := still
  have disk : ∀ i, i ≠ inode.inum →
      (((state.toFileSystem.setInode ip inode).updated ip).dinode i).Alike (state.dinode i) := by
    intro i different
    refine dinode_updated (state.toFileSystem.setInode ip inode) ip ?_
    rw [setInode_self]
    exact different
  have self : ((state.toFileSystem.setInode ip inode).updated ip).stat inode.inum =
      inode.toDinode := by
    rw [inumber, stat_of_live updated.once liveAfter, here]
  have others : ∀ i, i ≠ inode.inum →
      (((state.toFileSystem.setInode ip inode).updated ip).stat i).Alike (state.stat i) := by
    intro i different
    rw [inumber] at different
    obtain equal | ⟨after, before⟩ := stat_other sound.consistent.once updated.once live liveAfter
      (fun other away => Function.update_of_ne away ..) different
    · rw [equal]
      exact Dinode.Alike.refl _
    · rw [after, before]
      rw [← inumber] at different
      exact disk i different
  have before := stat_of_live sound.consistent.once live
  refine ⟨{ state with toFileSystem := (state.toFileSystem.setInode ip inode).updated ip }, rfl,
    same, ⟨updated, sound.calls⟩, rfl, ⟨rfl, ?_, ?_, ?_, ?_⟩, self, others, disk, ?_, ?_⟩
  · intro i _
    by_cases equal : i = inode.inum
    · rw [equal, self, type, inumber, before]
    · exact (others i equal).kind.type
  · intro i _
    by_cases equal : i = inode.inum
    · rw [equal, self, size, inumber, before]
    · exact (others i equal).size
  · intro place
    dsimp only
    rw [number_updated touched still,
      number_touch sound.consistent.once live ref valid inumber addrs]
  · intro i o there
    exact byte_touch_updated sound.consistent live inode ref valid inumber addrs touched still there
  · intro typed
    apply touched.flushed still
    rw [setInode_self]
    exact typed
  · exact free_updated touched (touched.cached ip (live_iff.mp still).1)

/-! ## Writing a file -/

/-- What the cache has in common with the disk it keeps. -/
def KeepsFlushed (before after : FileSystem) : Prop :=
  ∀ ip, 0 < (before.inode ip).ref → (before.inode ip).valid = true → before.Flushed ip →
    after.Flushed ip

/-- Bytes of one block that is there are written. -/
theorem writei_block (src : Memory) {off n : UInt32} (sound : Sound state)
    (live : state.live inum ip = true) (plain : (state.inode ip).type ≠ tDev)
    (positive : 0 < n.toNat) (within : off.toNat % bsize + n.toNat ≤ bsize)
    (inside : off.toNat + n.toNat ≤ (state.inode ip).size)
    (fits : off.toNat + n.toNat ≤ maxFile * bsize)
    (there : state.number (slotOf inum (off.toNat / bsize)) ≠ 0) :
    ∃ data, writei ip src off n state = .done (n.toNat : Int) { state with
      toFileSystem := state.setBlock (state.number (slotOf inum (off.toNat / bsize))) data } := by
  obtain ⟨fuel, count⟩ := Nat.exists_eq_add_of_lt positive
  rw [Nat.zero_add] at count
  have piece : min (n.toNat - 0) (bsize - off.toNat % bsize) = n.toNat := by omega
  have stays : ¬(0 < n ∧ (state.inode ip).size < off.toNat + n.toNat) := fun both =>
    Nat.not_lt_of_le inside both.2
  refine ⟨(state.block (state.number (slotOf inum (off.toNat / bsize)))).write
    (off.toNat % bsize) (src.read 0 n.toNat), ?_⟩
  rw [writei_loop src plain (Nat.le_trans (Nat.le_add_right ..) inside) fits]
  have turn : writeiFrom ip src n.toNat n.toNat 0 off.toNat state =
      .done (off.toNat + n.toNat) { state with
        toFileSystem := state.setBlock (state.number (slotOf inum (off.toNat / bsize)))
          ((state.block (state.number (slotOf inum (off.toNat / bsize)))).write
            (off.toNat % bsize) (src.read 0 n.toNat)) } := by
    have last : ∀ current : FsState, writeiFrom ip src n.toNat fuel n.toNat
        (off.toNat + n.toNat) current = .done (off.toNat + n.toNat) current := by
      intro current
      cases fuel with
      | zero => rfl
      | succ fuel => rw [writeiFrom, if_neg (Nat.lt_irrefl _)]; rfl
    have split : writeiFrom ip src n.toNat n.toNat 0 off.toNat =
        writeiFrom ip src n.toNat (fuel + 1) 0 off.toNat :=
      congrArg (fun turns => writeiFrom ip src n.toNat turns 0 off.toNat) count
    rw [split, writeiFrom, if_pos positive, Action.bind_done (bmap_found sound live there), piece,
      onFs, Action.modify_bind, Nat.zero_add]
    exact last _
  rw [Action.bind_done turn, if_neg stays]
  rfl

theorem setBlock_flushed (sound : Sound state) {place : Place} (there : state.number place ≠ 0)
    (data : Block) :
    KeepsFlushed state.toFileSystem (state.setBlock (state.number place) data) := by
  intro ip referenced _ flushed
  have given := sound.consistent.owned.given place _ ⟨⟨there, rfl⟩, fun gone => gone⟩
  have region := Nat.le_trans (Nat.le_of_lt (bmapstart_lt_dataStart state.sb)) given.start
  have inside := sound.consistent.cached ip referenced
  have disk : (state.toFileSystem.setBlock (state.number place) data).dinode
      (state.inode ip).inum = state.toFileSystem.dinode (state.inode ip).inum :=
    sound.consistent.layout.dinode_setBlock region inside
  change (state.inode ip).toDinode.Alike
    ((state.setBlock (state.number place) data).dinode (state.inode ip).inum)
  rw [disk]
  exact flushed

/-- A file that grows is written back. -/
theorem writei_grows (src : Memory) {off n : UInt32} (sound : Sound state)
    (live : state.live inum ip = true) (plain : (state.inode ip).type ≠ tDev)
    (inside : off.toNat ≤ (state.inode ip).size) (fits : off.toNat + n.toNat ≤ maxFile * bsize)
    (grows : (state.inode ip).size < off.toNat + n.toNat) :
    (writei ip src off n state).Ends (fun _ => True) fun _ next =>
      KeepsFlushed state.toFileSystem next.toFileSystem := by
  have large : maxFile * bsize < 2 ^ 32 := by decide
  have positive : 0 < n := by
    rw [UInt32.lt_iff_toNat_lt]
    exact Nat.pos_of_ne_zero fun zero => by omega
  have loop := @writeiFrom_ends state.toFileSystem state ip inum (fun _ => True) src off.toNat
    n.toNat 0 n.toNat sound live (Writing.refl src off.toNat) fits (Nat.zero_le _) (Nat.sub_le _ _)
    fun _ => trivial
  rw [writei_loop src plain inside fits, Action.ends_bind]
  refine loop.mono ?_
  rintro last next ⟨rfl, after, still, writing⟩
  rw [if_pos ⟨positive, grows⟩]
  obtain ⟨-, valid, number⟩ := live_iff.mp still
  generalize grown : ({ next.inode ip with size := off.toNat + n.toNat } : Inode) = inode
  have inumber : inode.inum = inum := by
    rw [← grown]
    exact number
  have fresh : inode.valid = true := by
    rw [← grown]
    exact valid
  obtain ⟨touched, there⟩ := after.consistent.touch still inode (by rw [← grown]) fresh inumber
    (by rw [← grown])
  have here : (next.toFileSystem.setInode ip inode).inode ip = inode := setInode_self ..
  simp only [Action.ends_bind]
  subst grown
  intro other referenced read flushed
  by_cases same : other = ip
  · subst same
    have typed := flushed.typed
    apply touched.flushed there
    rw [here, writing.self]
    exact ⟨typed.type, typed.major, typed.minor, typed.nlink, Nat.lt_of_le_of_lt fits large⟩
  · have away : ((next.toFileSystem.setInode ip { next.inode ip with
        size := off.toNat + n.toNat }).updated ip).inode other = state.inode other :=
      (Function.update_of_ne same ..).trans (writing.others other same)
    have different : (state.inode other).inum ≠ inum := by
      obtain ⟨used, -, equal⟩ := live_iff.mp live
      exact fun shared => same (sound.consistent.once other ip referenced used
        (shared.trans equal.symm))
    have disk := @dinode_updated (next.toFileSystem.setInode ip { next.inode ip with
      size := off.toNat + n.toNat }) ip (state.inode other).inum (by
        rw [here, inumber]
        exact different)
    have kept : (next.toFileSystem.setInode ip { next.inode ip with
        size := off.toNat + n.toNat }).dinode (state.inode other).inum =
          state.dinode (state.inode other).inum :=
      writing.disk _ (sound.consistent.cached other referenced)
    rw [kept] at disk
    unfold FileSystem.Flushed
    change Dinode.Alike (((next.toFileSystem.setInode ip { next.inode ip with
      size := off.toNat + n.toNat }).updated ip).inode other).toDinode
        (((next.toFileSystem.setInode ip { next.inode ip with
          size := off.toNat + n.toNat }).updated ip).dinode (((next.toFileSystem.setInode ip
            { next.inode ip with size := off.toNat + n.toNat }).updated ip).inode other).inum)
    rw [away]
    exact flushed.trans disk.symm

end Xv6.Fs
