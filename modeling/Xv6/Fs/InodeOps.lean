import Xv6.Fs.BlockOwnership

/-!
# What the inode functions do

One statement for each function of the inode layer: it keeps block ownership,
and this is what it changes.
-/

namespace Xv6.Fs

open Xv6.Library

variable {fs later : FileSystem} {state : FsState} {ip : InodePtr} {inum : Nat}

/-! ## Calls of the allocator -/

/-- The call returned a zeroed block of the data region that was not in use. -/
structure Allocation.Fresh (call : Allocation) : Prop where
  region : call.before.sb.dataStart ≤ call.result
  size : call.result < call.before.sb.size
  free : ¬call.before.Used call.result
  unheld : ∀ place, ¬call.before.Holds place call.result
  used : call.after.Used call.result
  zeroed : ∀ offset < bsize, call.after.block call.result offset = 0

/-- The state between two functions. -/
structure Sound (state : FsState) : Prop where
  consistent : Consistent none nowhere state.toFileSystem
  calls : ∀ call ∈ state.calls, call.Fresh

theorem balloc_sound (sound : Sound state) :
    (balloc state).Ends
        (fun message => message = "balloc: out of blocks" ∧ state.free = 0) fun b next =>
      Sound next ∧ Grabbed state.toFileSystem b next.toFileSystem := by
  refine (balloc_ends state).mono ?_
  rintro b next ⟨inside, free, same, calls⟩
  have grab := sound.consistent.grab inside free
  have grabbed : next.toFileSystem = state.grabbed b := same
  rw [grabbed]
  refine ⟨⟨by rw [grabbed]; exact grab.1, ?_⟩, grab.2⟩
  rw [calls]
  intro call member
  rcases List.mem_cons.mp member with rfl | old
  · have region := sound.consistent.layout.free_region inside free
    have unheld := sound.consistent.unheld free
    constructor
    · exact region
    · exact inside
    · exact free
    · exact unheld
    · change next.toFileSystem.Used b
      rw [grabbed]
      exact grab.2.data.used
    · change ∀ offset < bsize, next.toFileSystem.block b offset = 0
      rw [grabbed]
      exact grab.2.zero
  · exact sound.calls call old

/-! ## Finding a block -/

/-- The place of the `bn`-th block of an inode. -/
def slotOf (inum bn : Nat) : Place :=
  if bn < ndirect then .addr inum bn else .entry inum (bn - ndirect)

/-- How many blocks `bmap(ip, bn)` allocates. -/
def FileSystem.missing (fs : FileSystem) (inum bn : Nat) : Nat :=
  (if fs.number (slotOf inum bn) = 0 then 1 else 0) +
    if ndirect ≤ bn ∧ fs.number (.addr inum ndirect) = 0 then 1 else 0

/-- Fewer blocks are free than `bmap(ip, bn)` needs, or `bn` is too large. -/
def Exhausted (fs : FileSystem) (inum bn : Nat) (message : String) : Prop :=
  message = "balloc: out of blocks" ∧ fs.free < fs.missing inum bn ∨
    message = "bmap: out of range" ∧ maxFile ≤ bn

/-- The disk is full, or the file too large. -/
def FilePanic (message : String) : Prop :=
  message = "balloc: out of blocks" ∨ message = "bmap: out of range"

theorem Exhausted.filePanic {bn : Nat} {message : String}
    (exhausted : Exhausted fs inum bn message) : FilePanic message := by
  rcases exhausted with ⟨same, -⟩ | ⟨same, -⟩
  · exact Or.inl same
  · exact Or.inr same

/-- `bmap(ip, bn)` returned `b`. -/
structure Mapped (fs : FileSystem) (ip : InodePtr) (inum bn b : Nat) (later : FileSystem) :
    Prop where
  sb : later.sb = fs.sb
  others : ∀ other, other ≠ ip → later.inode other = fs.inode other
  self : later.inode ip = { fs.inode ip with addrs := (later.inode ip).addrs }
  here : later.number (slotOf inum bn) = b
  nonzero : b ≠ 0
  kept : ∀ place, fs.number place ≠ 0 → later.number place = fs.number place
  filled : ∀ place, later.number place ≠ fs.number place →
    place = slotOf inum bn ∨ place = .addr inum ndirect
  used : ∀ c, fs.DataBlock c → later.DataBlock c
  block : ∀ c, fs.DataBlock c → c ≠ fs.addrs inum ndirect → later.block c = fs.block c
  fresh : fs.number (slotOf inum bn) = 0 →
    ¬fs.DataBlock b ∧ ∀ offset < bsize, later.block b offset = 0
  cost : later.free + fs.missing inum bn = fs.free
  disk : ∀ i < fs.sb.ninodes, later.dinode i = fs.dinode i

theorem live_inside (consistent : Consistent none nowhere fs) (live : fs.live inum ip = true) :
    inum < fs.sb.ninodes := by
  rcases live_iff.mp live with ⟨referenced, -, number⟩
  rw [← number]
  exact consistent.cached ip referenced

theorem Mapped.live {bn b : Nat} (mapped : Mapped fs ip inum bn b later)
    (live : fs.live inum ip = true) : later.live inum ip = true := by
  rw [live_iff] at live ⊢
  rw [mapped.self]
  exact live

/-- The block is there already. -/
theorem Mapped.found {bn b : Nat} (place : fs.number (slotOf inum bn) = b) (nonzero : b ≠ 0)
    (indirect : ¬(ndirect ≤ bn ∧ fs.number (.addr inum ndirect) = 0)) :
    Mapped fs ip inum bn b fs where
  sb := rfl
  others _ _ := rfl
  self := rfl
  here := place
  nonzero := nonzero
  kept _ _ := rfl
  filled _ changed := absurd rfl changed
  used _ data := data
  block _ _ _ := rfl
  fresh empty := absurd (place.symm.trans empty) nonzero
  cost := by
    rw [FileSystem.missing, if_neg (place ▸ nonzero), if_neg indirect]
    rfl
  disk _ _ := rfl

theorem Grabbed.nonzero {b : Nat} (grabbed : Grabbed fs b later) : b ≠ 0 := by
  have start := grabbed.data.start
  have region := bmapstart_lt_dataStart later.sb
  omega

/-- A new block `b` is in `place`. -/
structure Filled (fs : FileSystem) (ip : InodePtr) (inum : Nat) (place : Place) (b : Nat)
    (later : FileSystem) : Prop where
  sb : later.sb = fs.sb
  others : ∀ other, other ≠ ip → later.inode other = fs.inode other
  self : later.inode ip = { fs.inode ip with addrs := (later.inode ip).addrs }
  here : later.number place = b
  nonzero : b ≠ 0
  kept : ∀ other, other ≠ place → later.number other = fs.number other
  used : ∀ c, fs.DataBlock c → later.DataBlock c
  block : ∀ c, fs.DataBlock c → c ≠ fs.addrs inum ndirect → later.block c = fs.block c
  free : ¬fs.DataBlock b
  zero : ∀ offset < bsize, later.block b offset = 0
  cost : later.free + 1 = fs.free
  disk : ∀ i < fs.sb.ninodes, later.dinode i = fs.dinode i

/-- A used data block is not the one just taken. -/
theorem Grabbed.kept_block (grabbed : Grabbed fs b later) {c : Nat}
    (data : fs.DataBlock c) : later.block c = fs.block c := by
  apply grabbed.block c data.start
  rintro rfl
  exact grabbed.free data

variable {k b : Nat} {middle : FileSystem}

/-- `ip->addrs[k] = balloc()` -/
theorem fill_addr (consistent : Consistent none nowhere middle) (live : fs.live inum ip = true)
    (inside : inum < fs.sb.ninodes) (slot : k ≤ ndirect) (empty : fs.addrs inum k = 0)
    (grabbed : Grabbed fs b middle) :
    Consistent none nowhere (middle.withAddr ip k b) ∧
      Filled fs ip inum (.addr inum k) b (middle.withAddr ip k b) := by
  have stillLive : middle.live inum ip = true := by
    rw [live_iff] at live ⊢
    rw [grabbed.inode]
    exact live
  have within : inum < middle.sb.ninodes := by
    rw [grabbed.sb]
    exact inside
  have stillEmpty : middle.addrs inum k = 0 := by
    rw [grabbed.addrs inum inside]
    exact empty
  have unheld : ∀ place, ¬middle.Holds place b := by
    intro place held
    exact grabbed.unheld place ⟨held.1, (grabbed.number place).symm.trans held.2⟩
  have filled := number_filled consistent.once stillLive within slot stillEmpty grabbed.zero
  refine ⟨consistent.attach stillLive slot stillEmpty grabbed.data unheld grabbed.zero, ?_⟩
  constructor
  · exact grabbed.sb
  · intro other different
    rw [← grabbed.inode]
    exact Function.update_of_ne different _ _
  · rw [← grabbed.inode]
    simp only [FileSystem.withAddr, FileSystem.setInode, Function.update_self]
  · exact filled.1
  · exact grabbed.nonzero
  · intro other different
    exact (filled.2 other different).trans (grabbed.number other)
  · intro c data
    have kept := grabbed.used c data
    exact ⟨kept.start, kept.size, kept.used⟩
  · intro c data _
    exact grabbed.kept_block data
  · exact grabbed.free
  · exact grabbed.zero
  · have same : (middle.withAddr ip k b).free = middle.free := free_congr rfl fun _ _ => Iff.rfl
    rw [same]
    exact grabbed.cost
  · exact grabbed.disk

/-- `a[j] = balloc()` -/
theorem fill_entry (before : Consistent none nowhere fs) (consistent : Consistent none nowhere middle)
    {j : Nat} (inside : inum < fs.sb.ninodes) (index : j < nindirect)
    (nonzero : fs.addrs inum ndirect ≠ 0) (grabbed : Grabbed fs b middle) :
    let bp := fs.addrs inum ndirect
    Consistent none nowhere (middle.setBlock bp ((middle.block bp).store (4 * j) 4 b)) ∧
      Filled fs ip inum (.entry inum j) b
        (middle.setBlock bp ((middle.block bp).store (4 * j) 4 b)) := by
  intro bp
  have same : middle.addrs inum ndirect = bp := by rw [grabbed.addrs inum inside]
  have within : inum < middle.sb.ninodes := by
    rw [grabbed.sb]
    exact inside
  have there : middle.addrs inum ndirect ≠ 0 := by
    rw [same]
    exact nonzero
  have held := holds_addr inside (Nat.le_refl _) nonzero
  have data := before.owned.given _ _ ⟨held, fun given => given⟩
  have region : middle.sb.dataStart ≤ bp := by
    rw [grabbed.sb]
    exact data.start
  have apart : b ≠ bp := by
    intro equal
    rw [equal] at grabbed
    exact grabbed.free data
  have unheld : ∀ place, ¬middle.Holds place b := by
    intro place held
    exact grabbed.unheld place ⟨held.1, (grabbed.number place).symm.trans held.2⟩
  have fits : b < 2 ^ 32 := by
    have small := consistent.layout.size
    have below := grabbed.data.size
    omega
  have attached := consistent.attachEntry within index there grabbed.data unheld
  have numbers := consistent.number_entry within index there fits
  rw [same] at attached numbers
  refine ⟨attached, ?_⟩
  constructor
  · exact grabbed.sb
  · intro other _
    exact congrFun grabbed.inode other
  · change middle.inode ip = { fs.inode ip with addrs := (middle.inode ip).addrs }
    rw [grabbed.inode]
  · exact numbers.1
  · exact grabbed.nonzero
  · intro other different
    exact (numbers.2 other different).trans (grabbed.number other)
  · intro c old
    have kept := grabbed.used c old
    exact ⟨kept.start, kept.size, (used_setData _ region kept.size).mpr kept.used⟩
  · intro c old different
    exact (Function.update_of_ne different _ _).trans (grabbed.kept_block old)
  · exact grabbed.free
  · intro offset below
    simp only [FileSystem.setBlock, Function.update_of_ne apart]
    exact grabbed.zero offset below
  · have same : (middle.setBlock bp ((middle.block bp).store (4 * j) 4 b)).free = middle.free :=
      free_congr rfl fun c small => used_setData _ region small
    rw [same]
    exact grabbed.cost
  · intro i small
    rw [← grabbed.sb] at small
    have map := Nat.le_trans (Nat.le_of_lt (bmapstart_lt_dataStart middle.sb)) region
    rw [consistent.layout.dinode_setBlock map small]
    exact grabbed.disk i (by rw [← grabbed.sb]; exact small)

theorem Filled.live (filled : Filled fs ip inum place b later) (live : fs.live inum ip = true) :
    later.live inum ip = true := by
  rw [live_iff] at live ⊢
  rw [filled.self]
  exact live

/-- One block was enough. -/
theorem Filled.mapped {bn : Nat} (filled : Filled fs ip inum (slotOf inum bn) b later)
    (empty : fs.number (slotOf inum bn) = 0)
    (indirect : ¬(ndirect ≤ bn ∧ fs.number (.addr inum ndirect) = 0)) : Mapped fs ip inum bn b later where
  sb := filled.sb
  others := filled.others
  self := filled.self
  here := filled.here
  nonzero := filled.nonzero
  kept place nonzero := by
    apply filled.kept
    rintro rfl
    exact nonzero empty
  filled place changed := by
    by_cases here : place = slotOf inum bn
    · exact Or.inl here
    · exact absurd (filled.kept place here) changed
  used := filled.used
  block := filled.block
  fresh _ := ⟨filled.free, filled.zero⟩
  cost := by
    rw [FileSystem.missing, if_pos empty, if_neg indirect]
    exact filled.cost
  disk := filled.disk

/-- First the indirect block, then the entry in it. -/
theorem Filled.indirect {j c : Nat} (first : Filled fs ip inum (.addr inum ndirect) c middle)
    (second : Mapped middle ip inum (ndirect + j) b later)
    (empty : fs.number (.addr inum ndirect) = 0) (entry : fs.number (.entry inum j) = 0)
    (here : middle.addrs inum ndirect = c) :
    Mapped fs ip inum (ndirect + j) b later := by
  have place : slotOf inum (ndirect + j) = .entry inum j := by
    simp [slotOf]
  have apart : Place.entry inum j ≠ .addr inum ndirect := by simp
  have still : middle.number (.entry inum j) = 0 := (first.kept _ apart).trans entry
  constructor
  · exact second.sb.trans first.sb
  · intro other different
    exact (second.others other different).trans (first.others other different)
  · rw [second.self, first.self]
  · exact second.here
  · exact second.nonzero
  · intro other nonzero
    have different : other ≠ .addr inum ndirect := by
      rintro rfl
      exact nonzero empty
    have same := first.kept other different
    rw [second.kept other (by rw [same]; exact nonzero), same]
  · intro other changed
    by_cases first_place : other = .addr inum ndirect
    · exact Or.inr first_place
    · apply second.filled other
      intro same
      exact changed (same.trans (first.kept other first_place))
  · intro c data
    exact second.used c (first.used c data)
  · intro c data different
    have new : c ≠ middle.addrs inum ndirect := by
      rw [here]
      rintro rfl
      exact first.free data
    rw [second.block c (first.used c data) new, first.block c data different]
  · intro _
    have fresh := second.fresh (place ▸ still)
    exact ⟨fun data => fresh.1 (first.used b data), fresh.2⟩
  · have slot : middle.number (.addr inum ndirect) ≠ 0 := by
      rw [first.here]
      exact first.nonzero
    have cost := second.cost
    have before := first.cost
    rw [FileSystem.missing, place] at cost ⊢
    rw [if_pos still, if_neg fun both => slot both.2] at cost
    rw [if_pos entry, if_pos ⟨Nat.le_add_right _ _, empty⟩]
    omega
  · intro i small
    rw [second.disk i (by rw [first.sb]; exact small), first.disk i small]

/-- `balloc` ran out where a block is missing. -/
theorem exhausted_of_empty {bn : Nat} {message : String}
    (full : message = "balloc: out of blocks" ∧ fs.free = 0)
    (empty : fs.number (slotOf inum bn) = 0) : Exhausted fs inum bn message := by
  refine Or.inl ⟨full.1, ?_⟩
  rw [full.2, FileSystem.missing, if_pos empty]
  exact Nat.lt_of_lt_of_le Nat.one_pos (Nat.le_add_right _ _)

theorem number_addr (once : fs.CachedOnce) (live : fs.live inum ip = true)
    (inside : inum < fs.sb.ninodes) (slot : k ≤ ndirect) :
    fs.number (.addr inum k) = (fs.inode ip).addrs k := by
  rw [← addrs_of_live once live]
  exact if_pos ⟨inside, slot⟩

/-- Look in the indirect block. -/
theorem bmapEntry_ends (sound : Sound state) (live : state.live inum ip = true) {j : Nat}
    (index : j < nindirect) (nonzero : (state.inode ip).addrs ndirect ≠ 0) :
    (bmapEntry ip j state).Ends (Exhausted state.toFileSystem inum (ndirect + j)) fun b next =>
      Sound next ∧ Mapped state.toFileSystem ip inum (ndirect + j) b next.toFileSystem := by
  have consistent := sound.consistent
  have inside := live_inside consistent live
  have addrs := addrs_of_live consistent.once live
  have place : slotOf inum (ndirect + j) = .entry inum j := by simp [slotOf]
  have number : state.number (slotOf inum (ndirect + j)) =
      (state.block ((state.inode ip).addrs ndirect)).load (4 * j) 4 := by
    rw [place, ← addrs]
    exact if_pos ⟨inside, index, addrs ▸ nonzero⟩
  have slot := number_addr consistent.once live inside (Nat.le_refl ndirect)
  have indirect : ¬(ndirect ≤ ndirect + j ∧ state.number (.addr inum ndirect) = 0) := by
    rintro ⟨-, empty⟩
    exact nonzero (slot.symm.trans empty)
  simp only [bmapEntry, Action.ends_bind, Action.ends_get]
  by_cases empty : (state.block ((state.inode ip).addrs ndirect)).load (4 * j) 4 = 0
  · rw [if_pos empty, Action.ends_bind]
    have zero := number.trans empty
    refine (balloc_sound sound).imp (fun _ full => exhausted_of_empty full zero) ?_
    rintro b next ⟨after, grabbed⟩
    have filled := @fill_entry _ ip _ _ _ consistent after.consistent _ inside index
      (addrs ▸ nonzero) grabbed
    simp only [addrs] at filled
    rw [Action.ends_bind]
    refine ⟨⟨filled.1, after.calls⟩, ?_⟩
    have mapped := filled.2
    rw [← place] at mapped
    exact mapped.mapped zero indirect
  · rw [if_neg empty, Action.ends_pure]
    exact ⟨sound, Mapped.found number empty indirect⟩

/-- `bmap` finds or makes the block. -/
theorem bmap_ends (sound : Sound state) (live : state.live inum ip = true) (bn : Nat) :
    (bmap ip bn state).Ends (Exhausted state.toFileSystem inum bn) fun b next =>
      Sound next ∧ Mapped state.toFileSystem ip inum bn b next.toFileSystem := by
  have consistent := sound.consistent
  have inside := live_inside consistent live
  have addrs := addrs_of_live consistent.once live
  rw [bmap, Action.ends_bind, Action.ends_get]
  by_cases direct : bn < ndirect
  · have place : slotOf inum bn = .addr inum bn := by simp [slotOf, direct]
    have slot : bn ≤ ndirect := Nat.le_of_lt direct
    have number := number_addr consistent.once live inside slot
    have indirect : ¬(ndirect ≤ bn ∧ state.number (.addr inum ndirect) = 0) :=
      fun both => Nat.not_le_of_lt direct both.1
    rw [if_pos direct]
    by_cases empty : (state.inode ip).addrs bn = 0
    · have zero : state.number (slotOf inum bn) = 0 := by rw [place, number, empty]
      rw [if_pos empty, Action.ends_bind]
      refine (balloc_sound sound).imp (fun _ full => exhausted_of_empty full zero) ?_
      rintro b next ⟨after, grabbed⟩
      have filled := fill_addr after.consistent live inside slot (addrs ▸ empty) grabbed
      rw [Action.ends_bind]
      refine ⟨⟨filled.1, after.calls⟩, ?_⟩
      rw [← place] at filled
      exact filled.2.mapped zero indirect
    · rw [if_neg empty, Action.ends_pure]
      exact ⟨sound, Mapped.found (place ▸ number) empty indirect⟩
  · rw [if_neg direct]
    by_cases index : bn - ndirect < nindirect
    · have split : ndirect + (bn - ndirect) = bn := by omega
      rw [if_pos index]
      by_cases empty : (state.inode ip).addrs ndirect = 0
      · have zeroNumber : state.number (.addr inum ndirect) = 0 :=
          (number_addr consistent.once live inside (Nat.le_refl _)).trans empty
        have zeroEntry : state.number (.entry inum (bn - ndirect)) = 0 :=
          if_neg fun all => all.2.2 (addrs ▸ empty)
        have place : slotOf inum (ndirect + (bn - ndirect)) = .entry inum (bn - ndirect) := by
          simp [slotOf]
        rw [split] at place
        have zero : state.number (slotOf inum bn) = 0 := by rw [place, zeroEntry]
        rw [if_pos empty, Action.ends_bind]
        refine (balloc_sound sound).imp (fun _ full => exhausted_of_empty full zero) ?_
        rintro c next ⟨after, grabbed⟩
        have filled := fill_addr after.consistent live inside (Nat.le_refl _) (addrs ▸ empty)
          grabbed
        have first := filled.2
        have stillLive := first.live live
        rw [Action.ends_bind]
        have slot : ((next.withAddr ip ndirect c).inode ip).addrs ndirect = c := by
          simp [FileSystem.withAddr, FileSystem.setInode]
        have there : ((next.withAddr ip ndirect c).inode ip).addrs ndirect ≠ 0 := by
          rw [slot]
          exact first.nonzero
        have filledSound : Sound { next with toFileSystem := next.withAddr ip ndirect c } :=
          ⟨filled.1, after.calls⟩
        refine (bmapEntry_ends filledSound stillLive index there).imp ?_ ?_
        · rintro message (⟨full, few⟩ | ⟨_, large⟩)
          · refine Or.inl ⟨full, ?_⟩
            have apart : Place.entry inum (bn - ndirect) ≠ .addr inum ndirect := by simp
            have still : (next.withAddr ip ndirect c).number (.entry inum (bn - ndirect)) = 0 :=
              (first.kept _ apart).trans zeroEntry
            have filledSlot : (next.withAddr ip ndirect c).number (.addr inum ndirect) ≠ 0 := by
              rw [first.here]
              exact first.nonzero
            have cost := first.cost
            change (next.withAddr ip ndirect c).free < _ at few
            rw [split, FileSystem.missing, place, if_pos still,
              if_neg fun both => filledSlot both.2] at few
            rw [FileSystem.missing, if_pos zero,
              if_pos ⟨Nat.le_of_not_lt direct, zeroNumber⟩]
            omega
          · simp only [maxFile] at large
            omega
        rintro b last ⟨done, second⟩
        refine ⟨done, ?_⟩
        have here : (next.withAddr ip ndirect c).addrs inum ndirect = c := by
          rw [addrs_of_live filled.1.once stillLive, slot]
        have mapped := first.indirect second zeroNumber zeroEntry here
        rw [split] at mapped
        exact mapped
      · rw [if_neg empty]
        have ends := bmapEntry_ends sound live index empty
        rw [split] at ends
        exact ends
    · rw [if_neg index]
      refine Or.inr ⟨rfl, ?_⟩
      simp only [maxFile]
      omega

/-! ## Writing an inode back -/

/-- The state after `iupdate(ip)`. -/
def FileSystem.updated (fs : FileSystem) (ip : InodePtr) : FileSystem :=
  fs.setBlock (fs.sb.iblock (fs.inode ip).inum)
    (putDinode (fs.block (fs.sb.iblock (fs.inode ip).inum)) (fs.inode ip).inum
      (fs.inode ip).toDinode)

variable {loose : Option InodePtr}

/-- Numbers in the slots are block numbers. -/
theorem Consistent.addrs_fit (consistent : Consistent loose nowhere fs)
    (inside : inum < fs.sb.ninodes) {slot : Nat} (bound : slot ≤ ndirect) :
    fs.addrs inum slot = 0 ∨ fs.DataBlock (fs.addrs inum slot) := by
  by_cases empty : fs.addrs inum slot = 0
  · exact Or.inl empty
  · have held := holds_addr inside bound empty
    exact Or.inr (consistent.owned.given _ _ ⟨held, fun given => given⟩)

/-- `iupdate` changes no number in a slot, and no block but those of inodes. -/
theorem number_updated (consistent : Consistent loose nowhere fs)
    (live : fs.live inum ip = true) (place : Place) :
    (fs.updated ip).number place = fs.number place := by
  rcases live_iff.mp live with ⟨referenced, valid, number⟩
  have inside : inum < fs.sb.ninodes := by
    rw [← number]
    exact consistent.cached ip referenced
  have addrs : ∀ other slot, slot ≤ ndirect →
      (fs.updated ip).addrs other slot = fs.addrs other slot := by
    intro other slot bound
    by_cases same : other = inum
    · subst same
      have once : (fs.updated ip).CachedOnce := consistent.once
      have still : (fs.updated ip).live other ip = true := live
      rw [addrs_of_live once still, addrs_of_live consistent.once live]
      rfl
    · apply addrs_congr
      · rfl
      · apply dinode_addrs_setBlock _ _ bound
        · intro location outside
          exact putDinode_outside _ _ _ outside
        · rw [number]
          exact same
  have sb : (fs.updated ip).sb = fs.sb := rfl
  cases place with
  | addr other slot =>
      simp only [FileSystem.number, sb]
      by_cases both : other < fs.sb.ninodes ∧ slot ≤ ndirect
      · rw [if_pos both, if_pos both, addrs other slot both.2]
      · rw [if_neg both, if_neg both]
  | entry other j =>
      simp only [FileSystem.number, sb, addrs other ndirect (Nat.le_refl _)]
      by_cases all : other < fs.sb.ninodes ∧ j < nindirect ∧ fs.addrs other ndirect ≠ 0
      · rw [if_pos all, if_pos all]
        rcases consistent.addrs_fit all.1 (Nat.le_refl _) with zero | data
        · exact absurd zero all.2.2
        · have region := consistent.layout.iblock_region (consistent.cached ip referenced)
          have bitmap := bmapstart_lt_dataStart fs.sb
          have start := data.start
          have different : fs.addrs other ndirect ≠ fs.sb.iblock (fs.inode ip).inum := by omega
          simp only [FileSystem.updated, FileSystem.setBlock, Function.update_of_ne different]
      · rw [if_neg all, if_neg all]

theorem Consistent.updated (consistent : Consistent loose nowhere fs)
    (live : fs.live inum ip = true) (only : ∀ other, loose = some other → other = ip) :
    Consistent none nowhere (fs.updated ip) := by
  rcases live_iff.mp live with ⟨referenced, valid, number⟩
  have inside := consistent.cached ip referenced
  have region := consistent.layout.iblock_region inside
  have used : ∀ c, fs.DataBlock c → (fs.updated ip).DataBlock c := by
    intro c data
    have map := bblock_region fs.sb data.size
    refine ⟨data.start, data.size, (used_setBlock _ ?_).mpr data.used⟩
    omega
  refine ⟨consistent.layout.setDinode _ inside, ?_, consistent.once, consistent.cached, ?_⟩
  · refine consistent.owned.restrict (fun place c held => ⟨?_, held.2⟩) fun place c _ => used c
    exact ⟨held.1.1, (number_updated consistent live place).symm.trans held.1.2⟩
  · intro other _ cached fresh slot bound
    by_cases here : other = ip
    · subst here
      intro _
      have fits : ∀ k ≤ ndirect, (fs.inode other).addrs k < 2 ^ 32 := by
        intro k small
        rw [← addrs_of_live consistent.once live, ← number]
        rcases consistent.addrs_fit inside small with zero | data
        · rw [zero]
          decide
        · have below := data.size
          have size := consistent.layout.size
          omega
      simp only [FileSystem.dinode, FileSystem.updated, FileSystem.setBlock, Function.update_self]
      exact putDinode_addrs _ _ fits bound
    · have different : (fs.inode other).inum ≠ (fs.inode ip).inum := by
        intro same
        exact here (consistent.once other ip cached referenced same)
      have tight : loose ≠ some other := fun some => here (only other some)
      have kept : ((fs.updated ip).dinode (fs.inode other).inum).addrs slot =
          (fs.dinode (fs.inode other).inum).addrs slot := by
        apply dinode_addrs_setBlock _ different bound
        intro location outside
        exact putDinode_outside _ _ _ outside
      change ((fs.updated ip).dinode (fs.inode other).inum).addrs slot ≠ 0 →
        ((fs.updated ip).dinode (fs.inode other).inum).addrs slot = (fs.inode other).addrs slot
      rw [kept]
      exact consistent.behind other tight cached fresh slot bound

/-! ## Freeing blocks -/

variable {freed : Place → Prop}

theorem Consistent.weaken (consistent : Consistent loose freed fs) {more : Place → Prop}
    (sub : ∀ place b, fs.Holds place b → freed place → more place) :
    Consistent loose more fs := by
  refine ⟨consistent.layout, ?_, consistent.once, consistent.cached, consistent.behind⟩
  refine consistent.owned.restrict (fun place c held => ⟨held.1, ?_⟩) fun place c _ given => given
  intro gone
  exact held.2 (sub place c held.1 gone)

theorem number_unmark (consistent : Consistent loose freed fs)
    (only : ∀ place, freed place → ∃ other j, place = .entry other j) (inside : b < fs.sb.size)
    (place : Place) : (fs.unmark b).number place = fs.number place := by
  have map := bblock_region fs.sb inside
  apply number_setBlock consistent.layout map.1
  intro other within nonzero
  have held := holds_addr within (Nat.le_refl _) nonzero
  have kept : ¬freed (.addr other ndirect) := by
    intro gone
    rcases only _ gone with ⟨_, _, same⟩
    cases same
  have start := (consistent.owned.given _ _ ⟨held, kept⟩).start
  omega

/-- `bfree(b)` for a block that is held: its place is given up. -/
theorem Consistent.unmark (consistent : Consistent loose freed fs)
    (only : ∀ place, freed place → ∃ other j, place = .entry other j) {place : Place}
    (held : fs.Holds place b) (kept : ¬freed place) :
    Consistent loose (fun other => freed other ∨ other = place) (fs.unmark b) := by
  have data := consistent.owned.given place b ⟨held, kept⟩
  have map := bblock_region fs.sb data.size
  have number := number_unmark consistent only data.size
  have layout : Layout (fs.unmark b) := by
    apply consistent.layout.setMap data.size
    intro c before _ used
    refine used_unmark.mpr ⟨used, ?_⟩
    have start := data.start
    omega
  refine consistent.setBlock map.1 layout ?_
  apply consistent.owned.release ⟨held, kept⟩
  · rintro other c ⟨still, neither⟩
    refine ⟨⟨⟨still.1, (number other).symm.trans still.2⟩, fun gone => neither (Or.inl gone)⟩, ?_⟩
    exact fun same => neither (Or.inr same)
  · intro c different old
    exact ⟨old.start, old.size, used_unmark.mpr ⟨old.used, different⟩⟩

/-- A slot is cleared; with it the places given up disappear. -/
theorem Consistent.clear (consistent : Consistent (some ip) freed fs)
    (live : fs.live inum ip = true) {slot : Nat}
    (only : ∀ place, freed place →
      place = .addr inum slot ∨ slot = ndirect ∧ ∃ j, place = .entry inum j) :
    Consistent (some ip) nowhere (fs.withAddr ip slot 0) := by
  rcases live_iff.mp live with ⟨-, valid, number⟩
  refine consistent.setInode live ?_ ?_ ?_ ?_ ?_
  · rfl
  · exact valid
  · exact number
  · refine consistent.owned.restrict ?_ fun place c _ given => ⟨given.start, given.size, given.used⟩
    rintro place c ⟨held, -⟩
    rcases holds_cleared consistent.once live held with ⟨old, place_ne, entries⟩
    refine ⟨old, fun gone => ?_⟩
    rcases only place gone with same | ⟨indirect, j, same⟩
    · exact place_ne same
    · exact entries indirect j same
  · intro tight
    exact absurd rfl tight

/-- The state inside `itrunc`. -/
structure Truncating (ip : InodePtr) (inum : Nat) (freed : Place → Prop) (calls : List Allocation)
    (state : FsState) : Prop where
  consistent : Consistent (some ip) freed state.toFileSystem
  live : state.live inum ip = true
  calls : state.calls = calls

theorem withAddr_live (live : fs.live inum ip = true) (slot v : Nat) :
    (fs.withAddr ip slot v).live inum ip = true := by
  rw [live_iff] at live ⊢
  simp only [FileSystem.withAddr, FileSystem.setInode, Function.update_self]
  exact live

/-- `bfree(addr)` inside `itrunc`. -/
theorem bfree_truncating {calls : List Allocation} (truncating : Truncating ip inum freed calls state)
    (only : ∀ place, freed place → ∃ other j, place = .entry other j) {place : Place}
    (held : state.Holds place b) (kept : ¬freed place) :
    bfree b state = .done () { state with toFileSystem := state.unmark b } ∧
      Truncating ip inum (fun other => freed other ∨ other = place) calls
        { state with toFileSystem := state.unmark b } := by
  have data := truncating.consistent.owned.given place b ⟨held, kept⟩
  refine ⟨bfree_eq truncating.consistent.layout.super data.used, ?_, truncating.live,
    truncating.calls⟩
  exact truncating.consistent.unmark only held kept

/-- One turn of the loop over the direct slots. -/
theorem itrunc_slot {calls : List Allocation} (truncating : Truncating ip inum nowhere calls state)
    {slot : Nat} (bound : slot ≤ ndirect) (nonzero : (state.inode ip).addrs slot ≠ 0) :
    ((do
      bfree ((state.inode ip).addrs slot)
      onFs fun fs => fs.withAddr ip slot 0) state).Ends (fun _ => False) fun _ next =>
        Truncating ip inum nowhere calls next ∧
          (next.inode ip).addrs = Function.update (state.inode ip).addrs slot 0 := by
  have consistent := truncating.consistent
  have live := truncating.live
  rcases live_iff.mp live with ⟨referenced, -, number⟩
  have inside : inum < state.sb.ninodes := by
    rw [← number]
    exact consistent.cached ip referenced
  have held : state.Holds (.addr inum slot) ((state.inode ip).addrs slot) :=
    ⟨nonzero, number_addr consistent.once live inside bound⟩
  rcases bfree_truncating truncating (fun _ gone => gone.elim) held (fun gone => gone)
    with ⟨done, freed⟩
  rw [Action.bind_done done]
  refine ⟨⟨?_, withAddr_live freed.live slot 0, freed.calls⟩, ?_⟩
  · apply freed.consistent.clear freed.live
    rintro place (gone | same)
    · exact gone.elim
    · exact Or.inl same
  · simp [FileSystem.withAddr, FileSystem.setInode, FileSystem.unmark, FileSystem.setBlock]

/-- The entries of the indirect block before the `j`-th. -/
def entriesBefore (inum j : Nat) : Place → Prop :=
  fun place => ∃ i < j, place = .entry inum i

/-- The loop over the entries of the indirect block. -/
theorem itrunc_entries {calls : List Allocation}
    (truncating : Truncating ip inum nowhere calls state)
    (nonzero : (state.inode ip).addrs ndirect ≠ 0) {count : Nat} (bounded : count ≤ nindirect) :
    (Action.forRange count (fun j => do
      let addr ← Action.get fun current : FsState =>
        (current.block ((state.inode ip).addrs ndirect)).load (4 * j) 4
      if addr ≠ 0 then
        bfree addr) state).Ends (fun _ => False) fun _ next =>
          Truncating ip inum (entriesBefore inum count) calls next ∧
            next.inode = state.inode := by
  refine Action.ends_forRange (fun j (current : FsState) =>
    Truncating ip inum (entriesBefore inum j) calls current ∧ current.inode = state.inode) ?_ ?_
  · refine ⟨⟨?_, truncating.live, truncating.calls⟩, rfl⟩
    exact truncating.consistent.weaken fun place b _ gone => gone.elim
  · rintro j current below ⟨going, same⟩
    rcases live_iff.mp going.live with ⟨referenced, -, number⟩
    have inside : inum < current.sb.ninodes := by
      rw [← number]
      exact going.consistent.cached ip referenced
    have addrs := addrs_of_live going.consistent.once going.live
    have value : current.number (.entry inum j) =
        (current.block ((state.inode ip).addrs ndirect)).load (4 * j) 4 := by
      rw [← same, ← addrs]
      refine if_pos ⟨inside, Nat.lt_of_lt_of_le below bounded, ?_⟩
      rw [addrs, same]
      exact nonzero
    have last : ∀ place, place = .entry inum j ∨ entriesBefore inum j place →
        entriesBefore inum (j + 1) place := by
      rintro place (rfl | ⟨i, less, rfl⟩)
      · exact ⟨j, Nat.lt_succ_self j, rfl⟩
      · exact ⟨i, Nat.lt_succ_of_lt less, rfl⟩
    rw [Action.ends_bind, Action.ends_get]
    by_cases empty : (current.block ((state.inode ip).addrs ndirect)).load (4 * j) 4 = 0
    · rw [if_neg (fun nonzero => nonzero empty)]
      refine ⟨⟨?_, going.live, going.calls⟩, same⟩
      exact going.consistent.weaken fun place b _ gone => last place (Or.inr gone)
    · rw [if_pos empty]
      have held : current.Holds (.entry inum j)
          ((current.block ((state.inode ip).addrs ndirect)).load (4 * j) 4) := ⟨empty, value⟩
      have only : ∀ place, entriesBefore inum j place → ∃ other i, place = .entry other i := by
        rintro place ⟨i, -, rfl⟩
        exact ⟨inum, i, rfl⟩
      have kept : ¬entriesBefore inum j (.entry inum j) := by
        rintro ⟨i, less, equal⟩
        cases equal
        exact Nat.lt_irrefl j less
      rcases bfree_truncating going only held kept with ⟨done, freed⟩
      rw [done]
      refine ⟨⟨?_, freed.live, freed.calls⟩, same⟩
      apply freed.consistent.weaken
      rintro place b - (gone | here)
      · exact last place (Or.inr gone)
      · exact last place (Or.inl here)

/-- The loop over the direct slots. -/
theorem itrunc_direct {calls : List Allocation} (truncating : Truncating ip inum nowhere calls state)
    {count : Nat} (bounded : count ≤ ndirect) :
    (Action.forRange count (fun i => do
      let addr ← Action.get fun current : FsState => (current.inode ip).addrs i
      if addr ≠ 0 then
        bfree addr
        onFs fun fs =>
          fs.setInode ip { fs.inode ip with addrs := Function.update (fs.inode ip).addrs i 0 })
      state).Ends (fun _ => False) fun _ next =>
        Truncating ip inum nowhere calls next ∧ ∀ slot < count, (next.inode ip).addrs slot = 0 := by
  refine Action.ends_forRange (fun i (current : FsState) =>
    Truncating ip inum nowhere calls current ∧
      ∀ slot < i, (current.inode ip).addrs slot = 0) ?_ ?_
  · exact ⟨truncating, fun slot below => absurd below (Nat.not_lt_zero slot)⟩
  · rintro i current below ⟨going, cleared⟩
    rw [Action.ends_bind, Action.ends_get]
    by_cases empty : (current.inode ip).addrs i = 0
    · rw [if_neg (fun nonzero => nonzero empty)]
      refine ⟨going, ?_⟩
      intro slot before
      rcases Nat.lt_succ_iff_lt_or_eq.mp before with less | rfl
      · exact cleared slot less
      · exact empty
    · rw [if_pos empty]
      have bound : i ≤ ndirect := Nat.le_trans (Nat.le_of_lt below) bounded
      refine (itrunc_slot going bound empty).mono ?_
      rintro - next ⟨after, addrs⟩
      refine ⟨after, ?_⟩
      intro slot before
      rw [addrs]
      by_cases here : slot = i
      · rw [here, Function.update_self]
      · rw [Function.update_of_ne here]
        exact cleared slot (by omega)

/-- Only what is no block number changes in a cached inode. -/
theorem number_touch (once : fs.CachedOnce) (live : fs.live inum ip = true) {inode : Inode}
    (ref : inode.ref = (fs.inode ip).ref) (valid : inode.valid = true) (number : inode.inum = inum)
    (addrs : inode.addrs = (fs.inode ip).addrs) (place : Place) :
    (fs.setInode ip inode).number place = fs.number place := by
  rcases addrs_setInode once inode live ref valid number with ⟨-, here, elsewhere⟩
  have same : ∀ other, (fs.setInode ip inode).addrs other = fs.addrs other := by
    intro other
    by_cases equal : other = inum
    · rw [equal, here, addrs, addrs_of_live once live]
    · exact elsewhere other equal
  have sb : (fs.setInode ip inode).sb = fs.sb := rfl
  cases place with
  | addr other slot => simp only [FileSystem.number, same, sb]
  | entry other j =>
      simp only [FileSystem.number, same, sb]
      rfl

theorem Consistent.touch (consistent : Consistent loose freed fs) (live : fs.live inum ip = true)
    (inode : Inode) (ref : inode.ref = (fs.inode ip).ref) (valid : inode.valid = true)
    (number : inode.inum = inum) (addrs : inode.addrs = (fs.inode ip).addrs) :
    Consistent loose freed (fs.setInode ip inode) ∧ (fs.setInode ip inode).live inum ip = true := by
  rcases live_iff.mp live with ⟨referenced, fresh, same⟩
  have numbers := number_touch consistent.once live ref valid number addrs
  refine ⟨consistent.setInode live ref valid number ?_ ?_, ?_⟩
  · refine consistent.owned.restrict (fun place c held => ⟨?_, held.2⟩)
      fun place c _ given => ⟨given.start, given.size, given.used⟩
    exact ⟨held.1.1, (numbers place).symm.trans held.1.2⟩
  · intro tight slot bound nonzero
    rw [addrs]
    have behind := consistent.behind ip tight referenced fresh slot bound
    rw [same] at behind
    exact behind nonzero
  · rw [live_iff]
    simp only [FileSystem.setInode, Function.update_self]
    exact ⟨by rw [ref]; exact referenced, valid, number⟩

/-- The end of `itrunc`. -/
theorem itrunc_end {calls : List Allocation} (truncating : Truncating ip inum nowhere calls state)
    (fresh : ∀ call ∈ calls, call.Fresh)
    (cleared : ∀ slot ≤ ndirect, (state.inode ip).addrs slot = 0) :
    ((do
      onFs fun fs => fs.setInode ip { fs.inode ip with size := 0 }
      iupdate ip) state).Ends (fun _ => False) fun _ next =>
        Sound next ∧ next.inode = Function.update state.inode ip { state.inode ip with size := 0 } ∧
          ∀ slot ≤ ndirect, (next.inode ip).addrs slot = 0 := by
  rcases live_iff.mp truncating.live with ⟨referenced, valid, number⟩
  have touched := truncating.consistent.touch truncating.live { state.inode ip with size := 0 }
    rfl valid number rfl
  have updated := touched.1.updated touched.2 (fun other same => (Option.some.inj same).symm)
  rw [Action.ends_bind]
  refine ⟨⟨updated, ?_⟩, rfl, ?_⟩
  · change ∀ call ∈ state.calls, call.Fresh
    rw [truncating.calls]
    exact fresh
  · intro slot bound
    change (Function.update state.inode ip { state.inode ip with size := 0 } ip).addrs slot = 0
    rw [Function.update_self]
    exact cleared slot bound

/-- `itrunc` never meets a free block, and leaves the inode without blocks. -/
theorem itrunc_ends (sound : Sound state) (live : state.live inum ip = true) :
    (itrunc ip state).Ends (fun _ => False) fun _ next =>
      Sound next ∧ next.live inum ip = true ∧ ∀ slot ≤ ndirect, (next.inode ip).addrs slot = 0 := by
  have start : Truncating ip inum nowhere state.calls state := by
    refine ⟨?_, live, rfl⟩
    have consistent := sound.consistent
    refine ⟨consistent.layout, consistent.owned, consistent.once, consistent.cached, ?_⟩
    intro other tight
    exact consistent.behind other (by simp)
  have finish : ∀ current, Truncating ip inum nowhere state.calls current →
      (∀ slot ≤ ndirect, (current.inode ip).addrs slot = 0) →
      ((do
        onFs fun fs => fs.setInode ip { fs.inode ip with size := 0 }
        iupdate ip) current).Ends (fun _ => False) fun _ next =>
          Sound next ∧ next.live inum ip = true ∧
            ∀ slot ≤ ndirect, (next.inode ip).addrs slot = 0 := by
    intro current truncating cleared
    refine (itrunc_end truncating sound.calls cleared).mono ?_
    rintro - next ⟨after, inodes, gone⟩
    refine ⟨after, ?_, gone⟩
    have before := truncating.live
    rw [live_iff] at before ⊢
    rw [inodes, Function.update_self]
    exact before
  rw [itrunc, Action.ends_bind]
  refine (itrunc_direct start (Nat.le_refl _)).mono ?_
  rintro - middle ⟨going, direct⟩
  rw [Action.ends_bind, Action.ends_get]
  by_cases empty : (middle.inode ip).addrs ndirect = 0
  · rw [if_neg (fun nonzero => nonzero empty)]
    apply finish middle going
    intro slot bound
    rcases Nat.lt_or_eq_of_le bound with less | rfl
    · exact direct slot less
    · exact empty
  · rw [if_pos empty, Action.ends_bind]
    have entries := itrunc_entries going empty (Nat.le_refl nindirect)
    refine entries.mono ?_
    rintro - last ⟨freeing, same⟩
    have live := freeing.live
    rcases live_iff.mp live with ⟨referenced, -, number⟩
    have inside : inum < last.sb.ninodes := by
      rw [← number]
      exact freeing.consistent.cached ip referenced
    have held : last.Holds (.addr inum ndirect) ((middle.inode ip).addrs ndirect) := by
      refine ⟨empty, ?_⟩
      rw [number_addr freeing.consistent.once live inside (Nat.le_refl _), same]
    have only : ∀ place, entriesBefore inum nindirect place →
        ∃ other i, place = .entry other i := by
      rintro place ⟨i, -, rfl⟩
      exact ⟨inum, i, rfl⟩
    have kept : ¬entriesBefore inum nindirect (.addr inum ndirect) := by
      rintro ⟨i, -, equal⟩
      cases equal
    rcases bfree_truncating freeing only held kept with ⟨done, freed⟩
    rw [Action.bind_done done, Action.ends_bind]
    apply finish
    · refine ⟨?_, withAddr_live freed.live ndirect 0, freed.calls⟩
      apply freed.consistent.clear freed.live
      rintro place (⟨i, -, here⟩ | here)
      · exact Or.inr ⟨rfl, i, here⟩
      · exact Or.inl here
    · intro slot bound
      change ((FileSystem.withAddr (last.unmark _) ip ndirect 0).inode ip).addrs slot = 0
      simp only [FileSystem.withAddr, FileSystem.setInode, FileSystem.unmark, FileSystem.setBlock,
        Function.update_self, same]
      by_cases here : slot = ndirect
      · rw [here, Function.update_self]
      · rw [Function.update_of_ne here]
        exact direct slot (Nat.lt_of_le_of_ne bound here)

/-! ## Writing -/

/-- A block that is no indirect block is written. -/
theorem Consistent.write_data (consistent : Consistent none nowhere fs) {place : Place}
    (held : fs.Holds place b) (content : ∀ other, place ≠ .addr other ndirect) (data : Block) :
    Consistent none nowhere (fs.setBlock b data) ∧
      ∀ other, (fs.setBlock b data).number other = fs.number other := by
  have given := consistent.owned.given place b ⟨held, fun gone => gone⟩
  have region := Nat.le_trans (Nat.le_of_lt (bmapstart_lt_dataStart fs.sb)) given.start
  have numbers : ∀ other, (fs.setBlock b data).number other = fs.number other := by
    apply number_setBlock consistent.layout region
    intro other within nonzero equal
    have own := holds_addr within (Nat.le_refl _) nonzero
    rw [equal] at own
    exact content other
      (consistent.owned.once _ _ b ⟨held, fun gone => gone⟩ ⟨own, fun gone => gone⟩)
  refine ⟨consistent.setBlock region (consistent.layout.setData data given.start) ?_, numbers⟩
  refine consistent.owned.restrict (fun other c still => ⟨?_, still.2⟩) fun other c _ old => ?_
  · exact ⟨still.1.1, (numbers other).symm.trans still.1.2⟩
  · exact ⟨old.start, old.size, (used_setData data given.start old.size).mpr old.used⟩

theorem slotOf_content (bn other : Nat) : slotOf inum bn ≠ .addr other ndirect := by
  unfold slotOf
  split
  · rename_i direct
    intro same
    injection same with _ equal
    exact absurd equal (Nat.ne_of_lt direct)
  · intro same
    cases same

theorem writeiFrom_sound (src : Memory) (n : Nat) {fuel tot off : Nat} (sound : Sound state)
    (live : state.live inum ip = true) :
    (writeiFrom ip src n fuel tot off state).Ends FilePanic fun _ next =>
      Sound next ∧ next.live inum ip = true := by
  induction fuel generalizing tot off state with
  | zero => exact ⟨sound, live⟩
  | succ fuel inductionHypothesis =>
      unfold writeiFrom
      by_cases more : tot < n
      · rw [if_pos more, Action.ends_bind]
        refine (bmap_ends sound live _).imp (fun _ wrong => wrong.filePanic) ?_
        rintro b middle ⟨after, mapped⟩
        have held : middle.Holds (slotOf inum (off / bsize)) b := ⟨mapped.nonzero, mapped.here⟩
        have written := after.consistent.write_data held (slotOf_content _)
        rw [Action.ends_bind]
        apply inductionHypothesis
        · exact ⟨(written _).1, after.calls⟩
        · exact mapped.live live
      · rw [if_neg more]
        exact ⟨sound, live⟩

theorem writei_sound (src : Memory) (off n : UInt32) (sound : Sound state)
    (live : state.live inum ip = true) :
    (writei ip src off n state).Ends FilePanic fun _ next => Sound next := by
  rw [writei, Action.ends_bind, Action.ends_get]
  by_cases device : (state.inode ip).type = tDev
  · rw [if_pos device]
    by_cases outside : short (state.inode ip).major < 0 ∨ ndev ≤ short (state.inode ip).major
    · rw [if_pos outside]
      exact sound
    · rw [if_neg outside]
      cases devswWrite (short (state.inode ip).major) with
      | none => exact sound
      | some write => exact sound
  · rw [if_neg device]
    by_cases beyond : (state.inode ip).size < off.toNat ∨ off + n < off
    · rw [if_pos beyond]
      exact sound
    · rw [if_neg beyond]
      by_cases large : maxFile * bsize < (off + n).toNat
      · rw [if_pos large]
        exact sound
      · rw [if_neg large, Action.ends_bind]
        refine (writeiFrom_sound src n.toNat sound live).mono ?_
        rintro last next ⟨after, still⟩
        by_cases longer : 0 < n ∧ (state.inode ip).size < last
        · rw [if_pos longer]
          rcases live_iff.mp still with ⟨-, valid, number⟩
          have touched := after.consistent.touch still { next.inode ip with size := last }
            rfl valid number rfl
          rw [Action.ends_bind]
          exact ⟨touched.1.updated touched.2 (by simp), after.calls⟩
        · rw [if_neg longer]
          exact after

/-! ## References -/

/-- What an inode's slots are after its cache entry was replaced. -/
theorem addrs_replaced (once : fs.CachedOnce) {inode : Inode}
    (onceAfter : (fs.setInode ip inode).CachedOnce) (number : Nat) :
    (fs.setInode ip inode).addrs number =
      if (fs.setInode ip inode).live number ip = true then inode.addrs
      else if fs.live number ip = true then (fs.dinode number).addrs
      else fs.addrs number := by
  have at_ip : (fs.setInode ip inode).inode ip = inode := by
    simp [FileSystem.setInode]
  have away : ∀ other, other ≠ ip →
      (fs.setInode ip inode).live number other = fs.live number other ∧
        (fs.setInode ip inode).inode other = fs.inode other := by
    intro other different
    have same : (fs.setInode ip inode).inode other = fs.inode other := by
      simp [FileSystem.setInode, different]
    exact ⟨by simp only [FileSystem.live, same], same⟩
  by_cases here : (fs.setInode ip inode).live number ip = true
  · rw [if_pos here, addrs_of_live onceAfter here, at_ip]
  · rw [if_neg here]
    by_cases other : ∃ other, (fs.setInode ip inode).live number other = true
    · rcases other with ⟨other, live⟩
      have different : other ≠ ip := by
        rintro rfl
        exact here live
      rw [addrs_of_live onceAfter live, (away other different).2]
      rw [(away other different).1] at live
      have gone : ¬fs.live number ip = true := by
        intro both
        rcases live_iff.mp live with ⟨referenced, -, equal⟩
        rcases live_iff.mp both with ⟨used, -, same⟩
        exact different (once other ip referenced used (equal.trans same.symm))
      rw [if_neg gone, addrs_of_live once live]
    · have nobody : ∀ b, (fs.setInode ip inode).live number b = false := by
        intro b
        cases live : (fs.setInode ip inode).live number b with
        | false => rfl
        | true => exact absurd ⟨b, live⟩ other
      rw [addrs_of_disk nobody]
      by_cases before : fs.live number ip = true
      · rw [if_pos before]
        rfl
      · rw [if_neg before]
        have nobodyBefore : ∀ b, fs.live number b = false := by
          intro b
          by_cases same : b = ip
          · rw [same]
            exact Bool.eq_false_iff.mpr before
          · rw [← (away b same).1]
            exact nobody b
        rw [addrs_of_disk nobodyBefore]
        rfl

/-- A cache entry is replaced by one that shows no other numbers. -/
theorem Consistent.replace (consistent : Consistent none nowhere fs) {inode : Inode}
    (once : (fs.setInode ip inode).CachedOnce)
    (cached : 0 < inode.ref → inode.inum < fs.sb.ninodes)
    (shown : 0 < inode.ref → inode.valid = true → inode.inum < fs.sb.ninodes →
      ∀ slot ≤ ndirect, inode.addrs slot = fs.addrs inode.inum slot ∧
        ((fs.dinode inode.inum).addrs slot ≠ 0 →
          (fs.dinode inode.inum).addrs slot = inode.addrs slot)) :
    Consistent none nowhere (fs.setInode ip inode) := by
  have at_ip : (fs.setInode ip inode).inode ip = inode := by
    simp [FileSystem.setInode]
  have at_other : ∀ other, other ≠ ip → (fs.setInode ip inode).inode other = fs.inode other := by
    intro other different
    simp [FileSystem.setInode, different]
  have holds : ∀ place c, (fs.setInode ip inode).Holds place c → fs.Holds place c := by
    intro place c held
    refine holds_of_addrs ?_ ?_ ?_ held
    · rfl
    · intro number within slot bound
      rw [addrs_replaced consistent.once once number]
      by_cases live : (fs.setInode ip inode).live number ip = true
      · rw [if_pos live]
        rcases live_iff.mp live with ⟨referenced, valid, equal⟩
        rw [at_ip] at referenced valid equal
        intro _
        rw [(shown referenced valid (by rw [equal]; exact within) slot bound).1, equal]
      · rw [if_neg live]
        by_cases before : fs.live number ip = true
        · rw [if_pos before, addrs_of_live consistent.once before]
          rcases live_iff.mp before with ⟨referenced, valid, equal⟩
          have behind := consistent.behind ip (by simp) referenced valid slot bound
          rw [equal] at behind
          exact behind
        · rw [if_neg before]
          intro _
          rfl
    · intro number within nonzero
      rfl
  refine ⟨?_, ?_, once, ?_, ?_⟩
  · have layout := consistent.layout
    exact ⟨layout.super, layout.start, layout.order, layout.inodes, layout.size, layout.metadata⟩
  · exact consistent.owned.restrict (fun place c held => ⟨holds place c held.1, held.2⟩)
      fun place c _ given => ⟨given.start, given.size, given.used⟩
  · intro other referenced
    by_cases here : other = ip
    · subst here
      rw [at_ip] at referenced ⊢
      exact cached referenced
    · rw [at_other other here] at referenced ⊢
      exact consistent.cached other referenced
  · intro other tight referenced valid slot bound
    by_cases here : other = ip
    · subst here
      rw [at_ip] at referenced valid ⊢
      exact (shown referenced valid (cached referenced) slot bound).2
    · rw [at_other other here] at referenced valid ⊢
      exact consistent.behind other tight referenced valid slot bound

end Xv6.Fs
