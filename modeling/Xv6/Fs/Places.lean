import Xv6.Fs.FreeMap
import Xv6.Fs.Inode
import Xv6.Library.Ownership

/-!
# Where block numbers are held

The slots of every inode, as the inode cache and the disk together show them,
and how they change when a block or a cache entry does.
-/

namespace Xv6.Fs

open Xv6.Library

variable {fs : FileSystem} {ip : InodePtr}

/-! ## The bytes of an inode -/

theorem putDinode_outside (data : Block) (i : Nat) (dinode : Dinode) {location : Nat}
    (outside : location < dinodeOffset i ∨ dinodeOffset i + 64 ≤ location) :
    putDinode data i dinode location = data location := by
  unfold putDinode
  refine forLoop_invariant (fun _ (current : Block) => current location = data location) ?_ ?_
  · rw [Memory.store_outside _ _ (by omega), Memory.store_outside _ _ (by omega),
      Memory.store_outside _ _ (by omega), Memory.store_outside _ _ (by omega),
      Memory.store_outside _ _ (by omega)]
  · intro k current below same
    have thirteen : k < 13 := below
    rw [Memory.store_outside _ _ (by omega), same]

theorem putDinode_addrs (data : Block) (i : Nat) {dinode : Dinode}
    (fits : ∀ k ≤ ndirect, dinode.addrs k < 2 ^ 32) {k : Nat} (slot : k ≤ ndirect) :
    (dinodeOf (putDinode data i dinode) i).addrs k = dinode.addrs k := by
  have stored : ∀ k < ndirect + 1,
      (putDinode data i dinode).load (dinodeOffset i + 12 + 4 * k) 4 = dinode.addrs k := by
    unfold putDinode
    refine forLoop_invariant (fun count (current : Block) => ∀ k < count,
      current.load (dinodeOffset i + 12 + 4 * k) 4 = dinode.addrs k) ?_ ?_
    · intro k below
      exact absurd below (Nat.not_lt_zero k)
    · intro count current below earlier k inside
      by_cases last : k = count
      · subst last
        exact Memory.load_store_fits _ _ (by simpa using fits k (Nat.le_of_lt_succ below))
      · rw [Memory.load_store_disjoint _ _ (Or.inl (by omega))]
        exact earlier k (by omega)
  exact stored k (Nat.lt_succ_of_le slot)

/-- Inodes that share a block lie apart in it. -/
theorem dinode_apart {sb : Superblock} {i j : Nat} (different : i ≠ j)
    (sameBlock : sb.iblock i = sb.iblock j) :
    dinodeOffset j + 64 ≤ dinodeOffset i ∨ dinodeOffset i + 64 ≤ dinodeOffset j := by
  have quotient : i / ipb = j / ipb := by simpa [Superblock.iblock] using sameBlock
  have remainder : i % ipb ≠ j % ipb := by
    intro same
    apply different
    rw [← Nat.div_add_mod i ipb, quotient, same, Nat.div_add_mod]
  unfold dinodeOffset
  omega

/-- Inodes that differ at most in their size and their blocks. -/
structure Dinode.SameKind (first second : Dinode) : Prop where
  type : first.type = second.type
  major : first.major = second.major
  minor : first.minor = second.minor
  nlink : first.nlink = second.nlink

theorem Dinode.SameKind.refl (dinode : Dinode) : dinode.SameKind dinode := ⟨rfl, rfl, rfl, rfl⟩

theorem Dinode.SameKind.trans {first second third : Dinode} (one : first.SameKind second)
    (two : second.SameKind third) : first.SameKind third :=
  ⟨one.type.trans two.type, one.major.trans two.major, one.minor.trans two.minor,
    one.nlink.trans two.nlink⟩

section OtherInodes

variable {i j : Nat} {data : Block}
  (same : ∀ location, location < dinodeOffset i ∨ dinodeOffset i + 64 ≤ location →
    data location = fs.block (fs.sb.iblock i) location)
  (different : j ≠ i)

include same different

/-- Changing the bytes of one inode leaves the fields of the others. -/
theorem dinode_load_setBlock (offset width : Nat) (inside : offset + width ≤ 64) :
    ((fs.setBlock (fs.sb.iblock i) data).block (fs.sb.iblock j)).load
        (dinodeOffset j + offset) width =
      (fs.block (fs.sb.iblock j)).load (dinodeOffset j + offset) width := by
  simp only [FileSystem.setBlock]
  by_cases sameBlock : fs.sb.iblock j = fs.sb.iblock i
  · rw [sameBlock, Function.update_self]
    apply Memory.load_congr
    intro location below
    have apart := dinode_apart different sameBlock
    exact same _ (by omega)
  · rw [Function.update_of_ne sameBlock]

theorem dinode_addrs_setBlock {k : Nat} (slot : k ≤ ndirect) :
    ((fs.setBlock (fs.sb.iblock i) data).dinode j).addrs k = (fs.dinode j).addrs k := by
  have thirteen : k ≤ 12 := slot
  have field := dinode_load_setBlock same different (12 + 4 * k) 4 (by omega)
  rw [← Nat.add_assoc] at field
  exact field

theorem dinode_stat_setBlock :
    ((fs.setBlock (fs.sb.iblock i) data).dinode j).type = (fs.dinode j).type ∧
      ((fs.setBlock (fs.sb.iblock i) data).dinode j).size = (fs.dinode j).size :=
  ⟨dinode_load_setBlock same different 0 2 (by omega),
    dinode_load_setBlock same different 8 4 (by omega)⟩

theorem dinode_kind_setBlock :
    ((fs.setBlock (fs.sb.iblock i) data).dinode j).SameKind (fs.dinode j) :=
  ⟨dinode_load_setBlock same different 0 2 (by omega),
    dinode_load_setBlock same different 2 2 (by omega),
    dinode_load_setBlock same different 4 2 (by omega),
    dinode_load_setBlock same different 6 2 (by omega)⟩

end OtherInodes

/-! ## The slots of an inode -/

/-- The cache entry `ip` holds a valid copy of inode `inum`. -/
def FileSystem.live (fs : FileSystem) (inum : Nat) (ip : InodePtr) : Bool :=
  decide (0 < (fs.inode ip).ref) && (fs.inode ip).valid && (fs.inode ip).inum == inum

/-- The block numbers of inode `inum`: the in-memory ones if a valid copy is
cached, else those on the disk. -/
def FileSystem.addrs (fs : FileSystem) (inum : Nat) : Nat → Nat :=
  match (List.finRange ninode).find? (fs.live inum) with
  | some ip => (fs.inode ip).addrs
  | none => (fs.dinode inum).addrs

/-- No inode is cached twice. -/
def FileSystem.CachedOnce (fs : FileSystem) : Prop :=
  ∀ a b, 0 < (fs.inode a).ref → 0 < (fs.inode b).ref → (fs.inode a).inum = (fs.inode b).inum →
    a = b

theorem live_iff {inum : Nat} :
    fs.live inum ip = true ↔
      0 < (fs.inode ip).ref ∧ (fs.inode ip).valid = true ∧ (fs.inode ip).inum = inum := by
  simp [FileSystem.live, and_assoc]

theorem addrs_of_live (once : fs.CachedOnce) {inum : Nat} (live : fs.live inum ip = true) :
    fs.addrs inum = (fs.inode ip).addrs := by
  unfold FileSystem.addrs
  cases found : (List.finRange ninode).find? (fs.live inum) with
  | none => exact absurd live (by simpa using List.find?_eq_none.mp found ip (List.mem_finRange ip))
  | some other =>
      rcases live_iff.mp (List.find?_some found) with ⟨referenced, -, same⟩
      rcases live_iff.mp live with ⟨used, -, number⟩
      rw [once other ip referenced used (same.trans number.symm)]

theorem addrs_of_disk {inum : Nat} (none : ∀ ip, fs.live inum ip = false) :
    fs.addrs inum = (fs.dinode inum).addrs := by
  unfold FileSystem.addrs
  rw [List.find?_eq_none.mpr (by simpa using fun ip => none ip)]

/-- Two file systems that cache the same inodes and agree on the disk. -/
theorem addrs_congr {later : FileSystem} {inum k : Nat} (inodes : later.inode = fs.inode)
    (disk : (later.dinode inum).addrs k = (fs.dinode inum).addrs k) :
    later.addrs inum k = fs.addrs inum k := by
  have live : later.live inum = fs.live inum := by
    funext ip
    simp [FileSystem.live, inodes]
  unfold FileSystem.addrs
  rw [live]
  cases (List.finRange ninode).find? (fs.live inum) with
  | none => exact disk
  | some ip => simp only [inodes]

/-- The places that hold a block number: the direct slots and the indirect slot
of an inode, and the entries of its indirect block. -/
inductive Place where
  | addr (inum k : Nat)
  | entry (inum j : Nat)

def FileSystem.number (fs : FileSystem) : Place → Nat
  | .addr inum k => if inum < fs.sb.ninodes ∧ k ≤ ndirect then fs.addrs inum k else 0
  | .entry inum j =>
      if inum < fs.sb.ninodes ∧ j < nindirect ∧ fs.addrs inum ndirect ≠ 0 then
        (fs.block (fs.addrs inum ndirect)).load (4 * j) 4
      else 0

def FileSystem.Holds (fs : FileSystem) (place : Place) (b : Nat) : Prop :=
  b ≠ 0 ∧ fs.number place = b

/-- Block `b` lies in the data region and its bit is set. -/
structure FileSystem.DataBlock (fs : FileSystem) (b : Nat) : Prop where
  start : fs.sb.dataStart ≤ b
  size : b < fs.sb.size
  used : fs.Used b

theorem holds_addr {inum k : Nat} (inside : inum < fs.sb.ninodes) (slot : k ≤ ndirect)
    (nonzero : fs.addrs inum k ≠ 0) : fs.Holds (.addr inum k) (fs.addrs inum k) :=
  ⟨nonzero, if_pos ⟨inside, slot⟩⟩

theorem FileSystem.Holds.addr_cases {inum k b : Nat} (held : fs.Holds (.addr inum k) b) :
    inum < fs.sb.ninodes ∧ k ≤ ndirect ∧ fs.addrs inum k = b := by
  rcases held with ⟨nonzero, rfl⟩
  simp only [FileSystem.number] at nonzero ⊢
  split at nonzero
  · rename_i inside
    exact ⟨inside.1, inside.2, by rw [if_pos inside]⟩
  · exact absurd rfl nonzero

theorem FileSystem.Holds.entry_cases {inum j b : Nat} (held : fs.Holds (.entry inum j) b) :
    inum < fs.sb.ninodes ∧ j < nindirect ∧ fs.addrs inum ndirect ≠ 0 ∧
      (fs.block (fs.addrs inum ndirect)).load (4 * j) 4 = b := by
  rcases held with ⟨nonzero, rfl⟩
  simp only [FileSystem.number] at nonzero ⊢
  split at nonzero
  · rename_i inside
    exact ⟨inside.1, inside.2.1, inside.2.2, by rw [if_pos inside]⟩
  · exact absurd rfl nonzero

/-- Slots that were cleared or kept hold what they held. -/
theorem holds_of_addrs {later : FileSystem} (sb : later.sb = fs.sb)
    (addrs : ∀ inum < fs.sb.ninodes, ∀ k ≤ ndirect,
      later.addrs inum k ≠ 0 → later.addrs inum k = fs.addrs inum k)
    (block : ∀ inum < fs.sb.ninodes, later.addrs inum ndirect ≠ 0 →
      later.block (later.addrs inum ndirect) = fs.block (later.addrs inum ndirect))
    {place : Place} {b : Nat} (held : later.Holds place b) : fs.Holds place b := by
  cases place with
  | addr inum k =>
      rcases held.addr_cases with ⟨inside, slot, same⟩
      rw [sb] at inside
      have kept := addrs inum inside k slot (by rw [same]; exact held.1)
      rw [← same, kept]
      apply holds_addr inside slot
      rw [← kept, same]
      exact held.1
  | entry inum j =>
      rcases held.entry_cases with ⟨inside, index, nonzero, same⟩
      rw [sb] at inside
      have kept := addrs inum inside ndirect (Nat.le_refl _) nonzero
      refine ⟨held.1, ?_⟩
      simp only [FileSystem.number, ← kept]
      rw [if_pos ⟨inside, index, nonzero⟩, ← block inum inside nonzero]
      exact same

/-! ## Changing a cache entry -/

/-- An entry that stays live shows its new slots, and other inodes are as before. -/
theorem addrs_setInode (once : fs.CachedOnce) (inode : Inode) {inum : Nat}
    (live : fs.live inum ip = true) (ref : inode.ref = (fs.inode ip).ref)
    (valid : inode.valid = true) (number : inode.inum = inum) :
    (fs.setInode ip inode).CachedOnce ∧ (fs.setInode ip inode).addrs inum = inode.addrs ∧
      ∀ other, other ≠ inum → (fs.setInode ip inode).addrs other = fs.addrs other := by
  rcases live_iff.mp live with ⟨referenced, -, same⟩
  have at_ip : (fs.setInode ip inode).inode ip = inode := by
    simp [FileSystem.setInode]
  have at_other : ∀ b, b ≠ ip → (fs.setInode ip inode).inode b = fs.inode b := by
    intro b different
    simp [FileSystem.setInode, different]
  have refs : ∀ b, ((fs.setInode ip inode).inode b).ref = (fs.inode b).ref ∧
      ((fs.setInode ip inode).inode b).inum = (fs.inode b).inum := by
    intro b
    by_cases here : b = ip
    · rw [here, at_ip, ref, number, same]
      exact ⟨rfl, rfl⟩
    · rw [at_other b here]
      exact ⟨rfl, rfl⟩
  have onceAfter : (fs.setInode ip inode).CachedOnce := by
    intro a b first second equal
    rw [(refs a).1] at first
    rw [(refs b).1] at second
    rw [(refs a).2, (refs b).2] at equal
    exact once a b first second equal
  have liveAfter : (fs.setInode ip inode).live inum ip = true := by
    rw [live_iff, at_ip]
    exact ⟨by rw [ref]; exact referenced, valid, number⟩
  refine ⟨onceAfter, ?_, ?_⟩
  · rw [addrs_of_live onceAfter liveAfter, at_ip]
  · intro other different
    have away : ∀ b, (fs.setInode ip inode).live other b = fs.live other b := by
      intro b
      by_cases here : b = ip
      · subst here
        have neither : fs.live other b = false := by
          simp [FileSystem.live, same, Ne.symm different]
        rw [neither]
        simp [FileSystem.live, at_ip, number, Ne.symm different]
      · simp only [FileSystem.live, at_other b here]
    by_cases cached : ∃ b, fs.live other b = true
    · rcases cached with ⟨b, here⟩
      have different : b ≠ ip := by
        rintro rfl
        rcases live_iff.mp here with ⟨-, -, number⟩
        exact different (number.symm.trans same)
      rw [addrs_of_live once here, addrs_of_live onceAfter ((away b).trans here), at_other b different]
    · have nowhere : ∀ b, fs.live other b = false := by
        intro b
        cases here : fs.live other b with
        | false => rfl
        | true => exact absurd ⟨b, here⟩ cached
      rw [addrs_of_disk nowhere, addrs_of_disk fun b => (away b).trans (nowhere b)]
      rfl

end Xv6.Fs
