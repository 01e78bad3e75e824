import Xv6.Fs.Places
import Xv6.Library.Runs

/-!
# Every block has one owner

All block numbers held by inodes are distinct blocks of the data region with
their bits set. The inode functions keep this, whatever they are called on, so
`bfree` never meets a free block and `balloc` never hands out a used one.
-/

namespace Xv6.Fs

open Xv6.Library

variable {fs : FileSystem} {ip : InodePtr} {loose : Option InodePtr} {freed : Place → Prop}

/-! ## The image -/

/-- The regions of the disk do not overlap, and the blocks before the data
region are marked used. -/
structure Layout (fs : FileSystem) : Prop where
  super : superblockOf (fs.block 1) = fs.sb
  start : 1 < fs.sb.inodestart
  order : fs.sb.inodestart ≤ fs.sb.bmapstart
  inodes : ∀ inum < fs.sb.ninodes, fs.sb.iblock inum < fs.sb.bmapstart
  size : fs.sb.size < 2 ^ 31
  metadata : ∀ b < fs.sb.dataStart, b < fs.sb.size → fs.Used b

/-- Block ownership, as far as it concerns one state. -/
def FileSystem.BlocksOwned (fs : FileSystem) : Prop :=
  Owned fs.DataBlock fs.Holds

/-- What the file system keeps between two functions. Inside `itrunc` the copy
on the disk of the inode `loose` is out of date, and the entries in `freed` are
held no more. -/
structure Consistent (loose : Option InodePtr) (freed : Place → Prop) (fs : FileSystem) :
    Prop where
  layout : Layout fs
  owned : Owned fs.DataBlock fun place b => fs.Holds place b ∧ ¬freed place
  once : fs.CachedOnce
  cached : ∀ ip, 0 < (fs.inode ip).ref → (fs.inode ip).inum < fs.sb.ninodes
  behind : ∀ ip, loose ≠ some ip → 0 < (fs.inode ip).ref → (fs.inode ip).valid = true →
    ∀ k ≤ ndirect, (fs.dinode (fs.inode ip).inum).addrs k ≠ 0 →
      (fs.dinode (fs.inode ip).inum).addrs k = (fs.inode ip).addrs k

/-- No entry is given up. -/
def nowhere : Place → Prop := fun _ => False

theorem bblock_region (sb : Superblock) {b : Nat} (inside : b < sb.size) :
    sb.bmapstart ≤ sb.bblock b ∧ sb.bblock b < sb.dataStart := by
  have quotient : b / bpb ≤ sb.size / bpb := Nat.div_le_div_right (Nat.le_of_lt inside)
  simp only [Superblock.bblock, Superblock.dataStart]
  refine ⟨Nat.le_add_left _ _, ?_⟩
  rw [Nat.add_comm]
  exact Nat.add_lt_add_left (Nat.lt_succ_of_le quotient) _

theorem Layout.iblock_region {inum : Nat} (layout : Layout fs) (inside : inum < fs.sb.ninodes) :
    1 < fs.sb.iblock inum ∧ fs.sb.iblock inum < fs.sb.bmapstart := by
  refine ⟨?_, layout.inodes inum inside⟩
  exact Nat.lt_of_lt_of_le layout.start (Nat.le_add_left _ _)

theorem bmapstart_lt_dataStart (sb : Superblock) : sb.bmapstart < sb.dataStart := by
  exact Nat.lt_add_of_pos_right (Nat.succ_pos _)

/-! ## Writing a block -/

/-- A block after the inodes is written: every inode on the disk stays. -/
theorem Layout.dinode_setBlock (layout : Layout fs) {bno : Nat} {data : Block}
    (region : fs.sb.bmapstart ≤ bno) {inum : Nat} (inside : inum < fs.sb.ninodes) :
    (fs.setBlock bno data).dinode inum = fs.dinode inum := by
  have before := layout.inodes inum inside
  have different : fs.sb.iblock inum ≠ bno := by omega
  simp only [FileSystem.dinode, FileSystem.setBlock, Function.update_of_ne different]

theorem Layout.addrs_setBlock (layout : Layout fs) {bno : Nat} (data : Block)
    (region : fs.sb.bmapstart ≤ bno) {inum : Nat} (inside : inum < fs.sb.ninodes) :
    (fs.setBlock bno data).addrs inum = fs.addrs inum := by
  funext k
  apply addrs_congr
  · rfl
  · rw [layout.dinode_setBlock region inside]

/-- A block of the data region is written. -/
theorem Layout.setData (layout : Layout fs) {bno : Nat} (data : Block)
    (region : fs.sb.dataStart ≤ bno) : Layout (fs.setBlock bno data) := by
  have bitmap := bmapstart_lt_dataStart fs.sb
  have order := layout.order
  have start := layout.start
  constructor
  · have different : 1 ≠ bno := by omega
    simp only [FileSystem.setBlock, Function.update_of_ne different]
    exact layout.super
  · exact layout.start
  · exact layout.order
  · exact layout.inodes
  · exact layout.size
  · intro b before inside
    have below := (bblock_region fs.sb inside).2
    have outside : fs.sb.bblock b ≠ bno := by omega
    exact (used_setBlock data outside).mpr (layout.metadata b before inside)

theorem used_setData {bno c : Nat} (data : Block)
    (region : fs.sb.dataStart ≤ bno) (inside : c < fs.sb.size) :
    (fs.setBlock bno data).Used c ↔ fs.Used c := by
  have below := (bblock_region fs.sb inside).2
  apply used_setBlock
  omega

/-- The bits change, for used blocks of the data region at most. -/
theorem Layout.setMap (layout : Layout fs) {b : Nat} {data : Block} (inside : b < fs.sb.size)
    (metadata : ∀ c < fs.sb.dataStart, c < fs.sb.size → fs.Used c →
      (fs.setBlock (fs.sb.bblock b) data).Used c) :
    Layout (fs.setBlock (fs.sb.bblock b) data) := by
  have region := bblock_region fs.sb inside
  have order := layout.order
  have start := layout.start
  constructor
  · have different : 1 ≠ fs.sb.bblock b := by omega
    simp only [FileSystem.setBlock, Function.update_of_ne different]
    exact layout.super
  · exact layout.start
  · exact layout.order
  · exact layout.inodes
  · exact layout.size
  · intro c before below
    exact metadata c before below (layout.metadata c before below)

/-- An inode on the disk is written. -/
theorem Layout.setDinode (layout : Layout fs) {inum : Nat} (data : Block)
    (inside : inum < fs.sb.ninodes) : Layout (fs.setBlock (fs.sb.iblock inum) data) := by
  have region := layout.iblock_region inside
  constructor
  · have different : 1 ≠ fs.sb.iblock inum := by omega
    simp only [FileSystem.setBlock, Function.update_of_ne different]
    exact layout.super
  · exact layout.start
  · exact layout.order
  · exact layout.inodes
  · exact layout.size
  · intro b before below
    have after := (bblock_region fs.sb below).1
    have outside : fs.sb.bblock b ≠ fs.sb.iblock inum := by omega
    exact (used_setBlock data outside).mpr (layout.metadata b before below)

/-- Block numbers stay when a block is written that holds none and is no inode. -/
theorem number_setBlock (layout : Layout fs) {bno : Nat} {data : Block}
    (region : fs.sb.bmapstart ≤ bno)
    (unheld : ∀ inum < fs.sb.ninodes, fs.addrs inum ndirect ≠ 0 → fs.addrs inum ndirect ≠ bno)
    (place : Place) : (fs.setBlock bno data).number place = fs.number place := by
  cases place with
  | addr inum k =>
      by_cases inside : inum < fs.sb.ninodes
      · have same := layout.addrs_setBlock data region inside
        simp only [FileSystem.number, same]
        rfl
      · simp only [FileSystem.number]
        rw [if_neg fun both => inside both.1, if_neg fun both => inside both.1]
  | entry inum j =>
      by_cases inside : inum < fs.sb.ninodes
      · have same := layout.addrs_setBlock data region inside
        simp only [FileSystem.number, same]
        by_cases nonzero : fs.addrs inum ndirect = 0
        · rw [if_neg fun all => all.2.2 nonzero, if_neg fun all => all.2.2 nonzero]
        · simp only [FileSystem.setBlock, Function.update_of_ne (unheld inum inside nonzero)]
      · simp only [FileSystem.number]
        rw [if_neg fun both => inside both.1, if_neg fun both => inside both.1]

/-- The inode cache does not see such a block. -/
theorem Consistent.setBlock (consistent : Consistent loose freed fs) {bno : Nat} {data : Block}
    (region : fs.sb.bmapstart ≤ bno) (layout : Layout (fs.setBlock bno data))
    {later : Place → Prop}
    (owned : Owned (fs.setBlock bno data).DataBlock fun place b =>
      (fs.setBlock bno data).Holds place b ∧ ¬later place) :
    Consistent loose later (fs.setBlock bno data) := by
  refine ⟨layout, owned, consistent.once, consistent.cached, ?_⟩
  intro ip tight referenced valid k slot
  have inside := consistent.cached ip referenced
  change ((fs.setBlock bno data).dinode (fs.inode ip).inum).addrs k ≠ 0 →
    ((fs.setBlock bno data).dinode (fs.inode ip).inum).addrs k = (fs.inode ip).addrs k
  rw [consistent.layout.dinode_setBlock region inside]
  exact consistent.behind ip tight referenced valid k slot

/-! ## Allocating -/

/-- A held block is not a free one. -/
theorem Consistent.unheld (consistent : Consistent loose nowhere fs) {b : Nat}
    (free : ¬fs.Used b) (place : Place) : ¬fs.Holds place b := by
  intro held
  exact free (consistent.owned.given place b ⟨held, fun given => given⟩).used

/-- A free block lies in the data region. -/
theorem Layout.free_region (layout : Layout fs) {b : Nat} (inside : b < fs.sb.size)
    (free : ¬fs.Used b) : fs.sb.dataStart ≤ b := by
  by_contra before
  exact free (layout.metadata b (Nat.lt_of_not_le before) inside)

/-- The state after `balloc` returned `b`. -/
def FileSystem.grabbed (fs : FileSystem) (b : Nat) : FileSystem := (fs.mark b).zero b

theorem grabbed_zero (b : Nat) {offset : Nat} (below : offset < bsize) :
    (fs.grabbed b).block b offset = 0 := by
  simp only [FileSystem.grabbed, FileSystem.zero, FileSystem.setBlock, Function.update_self,
    memset0]
  have inside : offset < (List.replicate bsize (0 : UInt8)).length := by
    rw [List.length_replicate]
    exact below
  have stored := Memory.write_inside ((fs.mark b).block b) 0 inside
  rw [Nat.zero_add] at stored
  rw [stored, List.getElem_replicate]

/-- What `balloc` leaves as it was. -/
structure Grabbed (fs : FileSystem) (b : Nat) (later : FileSystem) : Prop where
  sb : later.sb = fs.sb
  inode : later.inode = fs.inode
  free : ¬fs.DataBlock b
  data : later.DataBlock b
  used : ∀ c, fs.DataBlock c → later.DataBlock c
  unheld : ∀ place, ¬fs.Holds place b
  number : ∀ place, later.number place = fs.number place
  addrs : ∀ inum < fs.sb.ninodes, later.addrs inum = fs.addrs inum
  block : ∀ c, fs.sb.dataStart ≤ c → c ≠ b → later.block c = fs.block c
  zero : ∀ offset < bsize, later.block b offset = 0
  cost : later.free + 1 = fs.free
  disk : ∀ i < fs.sb.ninodes, later.dinode i = fs.dinode i

theorem Consistent.grab (consistent : Consistent loose nowhere fs) {b : Nat}
    (inside : b < fs.sb.size) (free : ¬fs.Used b) :
    Consistent loose nowhere (fs.grabbed b) ∧ Grabbed fs b (fs.grabbed b) := by
  have layout := consistent.layout
  have region := layout.free_region inside free
  have map := bblock_region fs.sb inside
  have bitmap := bmapstart_lt_dataStart fs.sb
  have unheld := consistent.unheld free
  have dataRegion : ∀ inum < fs.sb.ninodes, fs.addrs inum ndirect ≠ 0 →
      fs.sb.dataStart ≤ fs.addrs inum ndirect ∧ fs.addrs inum ndirect ≠ b := by
    intro inum small nonzero
    have held := holds_addr small (Nat.le_refl _) nonzero
    refine ⟨(consistent.owned.given _ _ ⟨held, fun given => given⟩).start, ?_⟩
    intro same
    rw [same] at held
    exact unheld _ held
  have marked : Layout (fs.mark b) := by
    apply layout.setMap inside
    intro c _ _ used
    exact used_mark.mpr (Or.inl used)
  have after : Layout (fs.grabbed b) := marked.setData _ region
  have addrs : ∀ inum < fs.sb.ninodes, (fs.grabbed b).addrs inum = fs.addrs inum := by
    intro inum small
    have first := layout.addrs_setBlock (setBit (fs.block (fs.sb.bblock b)) (b % bpb))
      map.1 small
    have second := marked.addrs_setBlock (memset0 ((fs.mark b).block b))
      (Nat.le_trans (Nat.le_of_lt bitmap) region) small
    exact second.trans first
  have middle : ∀ place, (fs.mark b).number place = fs.number place := by
    apply number_setBlock layout map.1
    intro inum small nonzero
    have start := (dataRegion inum small nonzero).1
    omega
  have number : ∀ place, (fs.grabbed b).number place = fs.number place := by
    intro place
    rw [← middle place]
    apply number_setBlock marked (Nat.le_trans (Nat.le_of_lt bitmap) region)
    intro inum small nonzero
    have same : (fs.mark b).addrs inum = fs.addrs inum := layout.addrs_setBlock _ map.1 small
    rw [same] at nonzero ⊢
    exact (dataRegion inum small nonzero).2
  have used : ∀ c < fs.sb.size, (fs.grabbed b).Used c ↔ fs.Used c ∨ c = b := by
    intro c small
    have middle := @used_setData (fs.mark b) b c (memset0 ((fs.mark b).block b)) region small
    exact middle.trans used_mark
  have kept : ∀ c, fs.DataBlock c → (fs.grabbed b).DataBlock c := by
    intro c data
    exact ⟨data.start, data.size, (used c data.size).mpr (Or.inl data.used)⟩
  have data : (fs.grabbed b).DataBlock b := ⟨region, inside, (used b inside).mpr (Or.inr rfl)⟩
  have owned : Owned (fs.grabbed b).DataBlock fun place c =>
      (fs.grabbed b).Holds place c ∧ ¬nowhere place := by
    refine consistent.owned.restrict (fun place c held => ⟨?_, held.2⟩) fun place c _ => kept c
    exact ⟨held.1.1, (number place).symm.trans held.1.2⟩
  have marking : Consistent loose nowhere (fs.mark b) := by
    apply consistent.setBlock map.1 marked
    refine consistent.owned.restrict (fun place c held => ⟨?_, held.2⟩) fun place c _ given => ?_
    · exact ⟨held.1.1, (middle place).symm.trans held.1.2⟩
    · exact ⟨given.start, given.size, used_mark.mpr (Or.inl given.used)⟩
  refine ⟨marking.setBlock (Nat.le_trans (Nat.le_of_lt bitmap) region) after owned, ?_⟩
  refine ⟨rfl, rfl, fun data => free data.used, data, kept, unheld, number, addrs, ?_,
    fun offset below => grabbed_zero b below, free_taken rfl inside free used, ?_⟩
  · intro c start different
    have away : c ≠ fs.sb.bblock b := by omega
    simp only [FileSystem.grabbed, FileSystem.zero, FileSystem.mark, FileSystem.setBlock,
      Function.update_of_ne different, Function.update_of_ne away]
  · intro i small
    exact (marked.dinode_setBlock (Nat.le_trans (Nat.le_of_lt bitmap) region) small).trans
      (layout.dinode_setBlock map.1 small)

/-! ## Changing a slot -/

/-- The entry `ip` with `v` in slot `k`. -/
def FileSystem.withAddr (fs : FileSystem) (ip : InodePtr) (k v : Nat) : FileSystem :=
  fs.setInode ip { fs.inode ip with addrs := Function.update (fs.inode ip).addrs k v }

theorem withAddr_spec (once : fs.CachedOnce) {inum : Nat} (live : fs.live inum ip = true)
    (k v : Nat) :
    (fs.withAddr ip k v).CachedOnce ∧
      (fs.withAddr ip k v).addrs inum = Function.update (fs.addrs inum) k v ∧
      ∀ other, other ≠ inum → (fs.withAddr ip k v).addrs other = fs.addrs other := by
  rcases live_iff.mp live with ⟨-, valid, number⟩
  have changed := addrs_setInode once
    { fs.inode ip with addrs := Function.update (fs.inode ip).addrs k v } live rfl valid number
  rw [addrs_of_live once live]
  exact changed

/-- A cached inode changes; its number, references and validity stay. -/
theorem Consistent.setInode (consistent : Consistent loose freed fs) {inum : Nat}
    (live : fs.live inum ip = true) {inode : Inode} (ref : inode.ref = (fs.inode ip).ref)
    (valid : inode.valid = true) (number : inode.inum = inum) {later : Place → Prop}
    (owned : Owned (fs.setInode ip inode).DataBlock fun place b =>
      (fs.setInode ip inode).Holds place b ∧ ¬later place)
    (disk : loose ≠ some ip → ∀ k ≤ ndirect, (fs.dinode inum).addrs k ≠ 0 →
      (fs.dinode inum).addrs k = inode.addrs k) :
    Consistent loose later (fs.setInode ip inode) := by
  rcases live_iff.mp live with ⟨referenced, -, same⟩
  have at_ip : (fs.setInode ip inode).inode ip = inode := by
    simp [FileSystem.setInode]
  have at_other : ∀ b, b ≠ ip → (fs.setInode ip inode).inode b = fs.inode b := by
    intro b different
    simp [FileSystem.setInode, different]
  refine ⟨?_, owned, (addrs_setInode consistent.once inode live ref valid number).1, ?_, ?_⟩
  · have layout := consistent.layout
    exact ⟨layout.super, layout.start, layout.order, layout.inodes, layout.size, layout.metadata⟩
  · intro b cached
    by_cases here : b = ip
    · rw [here, at_ip, number, ← same]
      exact consistent.cached ip referenced
    · rw [at_other b here] at cached ⊢
      exact consistent.cached b cached
  · intro b tight cached fresh k slot
    by_cases here : b = ip
    · subst here
      rw [at_ip, number]
      exact disk tight k slot
    · rw [at_other b here] at cached fresh ⊢
      exact consistent.behind b tight cached fresh k slot

/-- A slot is cleared: that place, and with the indirect slot every entry,
holds nothing any more. -/
theorem holds_cleared (once : fs.CachedOnce) {inum k : Nat} (live : fs.live inum ip = true)
    {place : Place} {b : Nat} (held : (fs.withAddr ip k 0).Holds place b) :
    fs.Holds place b ∧ place ≠ .addr inum k ∧ (k = ndirect → ∀ j, place ≠ .entry inum j) := by
  rcases withAddr_spec once live k 0 with ⟨-, here, elsewhere⟩
  refine ⟨?_, ?_, ?_⟩
  · refine holds_of_addrs ?_ ?_ ?_ held
    · rfl
    · intro other inside slot bound nonzero
      by_cases same : other = inum
      · subst same
        rw [here] at nonzero ⊢
        by_cases cleared : slot = k
        · rw [cleared, Function.update_self] at nonzero
          exact absurd rfl nonzero
        · rw [Function.update_of_ne cleared]
      · rw [elsewhere other same]
    · intro other inside nonzero
      rfl
  · rintro rfl
    have value := held.addr_cases.2.2
    rw [here, Function.update_self] at value
    exact held.1 value.symm
  · rintro rfl j rfl
    have nonzero := held.entry_cases.2.2.1
    rw [here, Function.update_self] at nonzero
    exact nonzero rfl

/-- A zeroed block has no entries. -/
theorem load_zero {data : Block} (zero : ∀ offset < bsize, data offset = 0) {j : Nat}
    (inside : j < nindirect) : data.load (4 * j) 4 = 0 := by
  have last : j < 128 := inside
  have same : data.load (4 * j) 4 = Memory.load (fun _ => 0) (4 * j) 4 := by
    apply Memory.load_congr
    intro offset below
    exact zero _ (by simp only [bsize]; omega)
  rw [same]
  rfl

/-- An empty slot is filled with a block whose content is zero. -/
theorem number_filled (once : fs.CachedOnce) {inum k v : Nat} (live : fs.live inum ip = true)
    (inside : inum < fs.sb.ninodes) (slot : k ≤ ndirect) (empty : fs.addrs inum k = 0)
    (zero : ∀ offset < bsize, fs.block v offset = 0) :
    (fs.withAddr ip k v).number (.addr inum k) = v ∧
      ∀ place, place ≠ .addr inum k → (fs.withAddr ip k v).number place = fs.number place := by
  rcases withAddr_spec once live k v with ⟨-, here, elsewhere⟩
  have sb : (fs.withAddr ip k v).sb = fs.sb := rfl
  refine ⟨?_, ?_⟩
  · simp only [FileSystem.number, here, Function.update_self, sb]
    exact if_pos ⟨inside, slot⟩
  · intro place different
    cases place with
    | addr other bound =>
        have same : (fs.withAddr ip k v).addrs other bound = fs.addrs other bound := by
          by_cases equal : other = inum
          · subst equal
            have away : bound ≠ k := fun equal => different (by rw [equal])
            rw [here, Function.update_of_ne away]
          · rw [elsewhere other equal]
        simp only [FileSystem.number, same, sb]
    | entry other j =>
        by_cases indirect : other = inum ∧ k = ndirect
        · rcases indirect with ⟨rfl, rfl⟩
          simp only [FileSystem.number, here, Function.update_self, sb]
          have gone : ¬(other < fs.sb.ninodes ∧ j < nindirect ∧ fs.addrs other ndirect ≠ 0) :=
            fun all => all.2.2 empty
          rw [if_neg gone]
          split
          · rename_i all
            exact load_zero zero all.2.1
          · rfl
        · have same : (fs.withAddr ip k v).addrs other ndirect = fs.addrs other ndirect := by
            by_cases equal : other = inum
            · subst equal
              have away : ndirect ≠ k := fun equal => indirect ⟨rfl, equal.symm⟩
              rw [here, Function.update_of_ne away]
            · rw [elsewhere other equal]
          simp only [FileSystem.number, same, sb]
          rfl

/-- One place receives a new block. -/
theorem Consistent.acquire (consistent : Consistent loose nowhere fs) {later : FileSystem}
    {new : Place} {b : Nat} (filled : later.number new = b)
    (kept : ∀ place, place ≠ new → later.number place = fs.number place)
    (unheld : ∀ place, ¬fs.Holds place b) (data : later.DataBlock b)
    (given : ∀ c, fs.DataBlock c → later.DataBlock c) :
    Owned later.DataBlock fun place c => later.Holds place c ∧ ¬nowhere place := by
  apply consistent.owned.acquire (fun other held => unheld other held.1) _ data given
  · exact new
  · intro place c held
    by_cases here : place = new
    · subst here
      exact Or.inr ⟨rfl, held.1.2.symm.trans filled⟩
    · exact Or.inl ⟨⟨held.1.1, (kept place here).symm.trans held.1.2⟩, held.2⟩

/-- `ip->addrs[k] = balloc()` for an empty slot. -/
theorem Consistent.attach (consistent : Consistent loose nowhere fs) {inum k b : Nat}
    (live : fs.live inum ip = true) (slot : k ≤ ndirect) (empty : fs.addrs inum k = 0)
    (data : fs.DataBlock b) (unheld : ∀ place, ¬fs.Holds place b)
    (zero : ∀ offset < bsize, fs.block b offset = 0) :
    Consistent loose nowhere (fs.withAddr ip k b) := by
  rcases live_iff.mp live with ⟨referenced, valid, number⟩
  have inside : inum < fs.sb.ninodes := by
    rw [← number]
    exact consistent.cached ip referenced
  have filled := number_filled consistent.once live inside slot empty zero
  rw [addrs_of_live consistent.once live] at empty
  refine consistent.setInode live ?_ ?_ ?_ ?_ ?_
  · rfl
  · exact valid
  · exact number
  · apply consistent.acquire filled.1 filled.2 unheld
    · exact ⟨data.start, data.size, data.used⟩
    · intro c given
      exact ⟨given.start, given.size, given.used⟩
  · intro tight other bound nonzero
    have behind := consistent.behind ip tight referenced valid other bound
    rw [number] at behind
    rw [behind nonzero]
    by_cases here : other = k
    · subst here
      exact absurd ((behind nonzero).trans empty) nonzero
    · exact (Function.update_of_ne here _ _).symm

/-- Inodes do not share an indirect block. -/
theorem Consistent.indirect_inj (consistent : Consistent loose nowhere fs) {inum other : Nat}
    (inside : inum < fs.sb.ninodes) (within : other < fs.sb.ninodes)
    (nonzero : fs.addrs inum ndirect ≠ 0)
    (same : fs.addrs other ndirect = fs.addrs inum ndirect) : other = inum := by
  have first := holds_addr inside (Nat.le_refl _) nonzero
  have second := holds_addr within (Nat.le_refl _) (same ▸ nonzero)
  rw [same] at second
  have place := consistent.owned.once _ _ _ ⟨second, fun given => given⟩
    ⟨first, fun given => given⟩
  exact (Place.addr.inj place).1

/-- An entry of the indirect block is written. -/
theorem Consistent.number_entry (consistent : Consistent loose nowhere fs) {inum j b : Nat}
    (inside : inum < fs.sb.ninodes) (index : j < nindirect)
    (nonzero : fs.addrs inum ndirect ≠ 0) (fits : b < 2 ^ 32) :
    let later := fs.setBlock (fs.addrs inum ndirect)
      ((fs.block (fs.addrs inum ndirect)).store (4 * j) 4 b)
    later.number (.entry inum j) = b ∧
      ∀ place, place ≠ .entry inum j → later.number place = fs.number place := by
  intro later
  have bitmap := bmapstart_lt_dataStart fs.sb
  have own := holds_addr inside (Nat.le_refl _) nonzero
  have region := (consistent.owned.given _ _ ⟨own, fun given => given⟩).start
  have map : fs.sb.bmapstart ≤ fs.addrs inum ndirect := Nat.le_trans (Nat.le_of_lt bitmap) region
  have addrs : ∀ other < fs.sb.ninodes, later.addrs other = fs.addrs other := by
    intro other within
    exact consistent.layout.addrs_setBlock _ map within
  have sb : later.sb = fs.sb := rfl
  refine ⟨?_, ?_⟩
  · simp only [FileSystem.number, addrs inum inside, sb]
    rw [if_pos ⟨inside, index, nonzero⟩]
    simp only [later, FileSystem.setBlock, Function.update_self]
    exact Memory.load_store_fits _ _ (by simpa using fits)
  · intro place different
    cases place with
    | addr other slot =>
        by_cases within : other < fs.sb.ninodes
        · simp only [FileSystem.number, addrs other within, sb]
        · simp only [FileSystem.number, sb]
          rw [if_neg fun both => within both.1, if_neg fun both => within both.1]
    | entry other i =>
        by_cases there : other < fs.sb.ninodes ∧ i < nindirect ∧ fs.addrs other ndirect ≠ 0
        · simp only [FileSystem.number, addrs other there.1, sb]
          rw [if_pos there, if_pos there]
          by_cases same : other = inum
          · subst same
            have apart : i ≠ j := fun equal => different (by rw [equal])
            simp only [later, FileSystem.setBlock, Function.update_self]
            apply Memory.load_store_disjoint
            omega
          · have elsewhere : fs.addrs other ndirect ≠ fs.addrs inum ndirect := by
              intro equal
              exact same (consistent.indirect_inj inside there.1 nonzero equal)
            simp only [later, FileSystem.setBlock, Function.update_of_ne elsewhere]
        · have gone : ¬(other < later.sb.ninodes ∧ i < nindirect ∧
              later.addrs other ndirect ≠ 0) := by
            rintro ⟨within, bound, value⟩
            rw [addrs other within] at value
            exact there ⟨within, bound, value⟩
          simp only [FileSystem.number]
          rw [if_neg there, if_neg gone]

/-- `a[j] = balloc()` for an empty entry of the indirect block. -/
theorem Consistent.attachEntry (consistent : Consistent loose nowhere fs) {inum j b : Nat}
    (inside : inum < fs.sb.ninodes) (index : j < nindirect)
    (nonzero : fs.addrs inum ndirect ≠ 0) (data : fs.DataBlock b)
    (unheld : ∀ place, ¬fs.Holds place b) :
    Consistent loose nowhere (fs.setBlock (fs.addrs inum ndirect)
      ((fs.block (fs.addrs inum ndirect)).store (4 * j) 4 b)) := by
  have bitmap := bmapstart_lt_dataStart fs.sb
  have own := holds_addr inside (Nat.le_refl _) nonzero
  have region := (consistent.owned.given _ _ ⟨own, fun given => given⟩).start
  have map : fs.sb.bmapstart ≤ fs.addrs inum ndirect := Nat.le_trans (Nat.le_of_lt bitmap) region
  have fits : b < 2 ^ 32 := by
    have small := consistent.layout.size
    have below := data.size
    omega
  have filled := consistent.number_entry inside index nonzero fits
  have given : ∀ c, fs.DataBlock c → (fs.setBlock (fs.addrs inum ndirect)
      ((fs.block (fs.addrs inum ndirect)).store (4 * j) 4 b)).DataBlock c := by
    intro c old
    exact ⟨old.start, old.size, (used_setData _ region old.size).mpr old.used⟩
  apply consistent.setBlock map (consistent.layout.setData _ region)
  exact consistent.acquire filled.1 filled.2 unheld (given b data) given

end Xv6.Fs
