import Mathlib.Data.Finset.Card
import Mathlib.Data.Nat.Bitwise
import Xv6.Fs.Blocks

/-!
# The free map

What `balloc` and `bfree` do to the bits of the free map, block by block.
-/

namespace Xv6.Fs

open Xv6.Library

/-! ## Bits of one block -/

theorem toNat_mask (bi : Nat) : (mask bi).toNat = 2 ^ (bi % 8) := by
  have all : ∀ k < 8, ((1 : UInt8) <<< UInt8.ofNat k).toNat = 2 ^ k := by decide
  exact all (bi % 8) (Nat.mod_lt bi (by decide))

theorem bitClear_iff (data : Block) (bi : Nat) :
    bitClear data bi = true ↔ (data (bi / 8)).toNat.testBit (bi % 8) = false := by
  have product : (data (bi / 8) &&& mask bi).toNat =
      ((data (bi / 8)).toNat.testBit (bi % 8)).toNat * 2 ^ (bi % 8) := by
    rw [UInt8.toNat_and, toNat_mask, Nat.and_two_pow]
  have positive : 0 < 2 ^ (bi % 8) := Nat.two_pow_pos _
  simp only [bitClear, beq_iff_eq]
  constructor
  · intro clear
    rw [clear] at product
    cases bit : (data (bi / 8)).toNat.testBit (bi % 8) with
    | false => rfl
    | true =>
        rw [bit, Bool.toNat_true, Nat.one_mul, UInt8.toNat_zero] at product
        omega
  · intro bit
    apply UInt8.toNat_inj.mp
    rw [product, bit]
    simp

theorem sameBit_iff (bi other : Nat) :
    (other / 8 = bi / 8 ∧ other % 8 = bi % 8) ↔ other = bi := by
  omega

theorem bitClear_setBit (data : Block) (bi other : Nat) :
    bitClear (setBit data bi) other = true ↔ bitClear data other = true ∧ other ≠ bi := by
  rw [bitClear_iff, bitClear_iff, setBit, Ne, ← sameBit_iff bi other]
  by_cases byte : other / 8 = bi / 8
  · rw [byte, Function.update_self, UInt8.toNat_or, toNat_mask, Nat.testBit_or,
      Nat.testBit_two_pow]
    by_cases bit : bi % 8 = other % 8
    · simp [bit]
    · simp [bit, Ne.symm bit]
  · rw [Function.update_of_ne byte]
    simp [byte]

theorem bitClear_clearBit (data : Block) (bi other : Nat) :
    bitClear (clearBit data bi) other = true ↔ bitClear data other = true ∨ other = bi := by
  rw [bitClear_iff, bitClear_iff, clearBit, ← sameBit_iff bi other]
  by_cases byte : other / 8 = bi / 8
  · have below : 2 ^ (bi % 8) < 2 ^ 8 :=
      Nat.pow_lt_pow_right (by decide) (Nat.mod_lt bi (by decide))
    have small : other % 8 < 8 := Nat.mod_lt other (by decide)
    have complement : (UInt8.size - 1 - (mask bi).toNat).testBit (other % 8) =
        !decide (bi % 8 = other % 8) := by
      have same : UInt8.size - 1 - (mask bi).toNat = 2 ^ 8 - (2 ^ (bi % 8) + 1) := by
        rw [toNat_mask]
        simp only [UInt8.size]
        omega
      rw [same, Nat.testBit_two_pow_sub_succ below, Nat.testBit_two_pow]
      simp [small]
    rw [byte, Function.update_self, UInt8.toNat_and, UInt8.toNat_not, Nat.testBit_and, complement]
    by_cases bit : bi % 8 = other % 8
    · simp [bit]
    · simp [bit, Ne.symm bit]
  · rw [Function.update_of_ne byte]
    simp [byte]

/-! ## Blocks in use -/

/-- The bit of block `b` is set. -/
def FileSystem.Used (fs : FileSystem) (b : Nat) : Prop :=
  bitClear (fs.block (fs.sb.bblock b)) (b % bpb) = false

instance (fs : FileSystem) (b : Nat) : Decidable (fs.Used b) :=
  inferInstanceAs (Decidable (_ = false))

/-- The number of blocks that are not in use. -/
def FileSystem.free (fs : FileSystem) : Nat :=
  ((Finset.range fs.sb.size).filter fun b => ¬fs.Used b).card

/-- Set the bit of block `b`. -/
def FileSystem.mark (fs : FileSystem) (b : Nat) : FileSystem :=
  fs.setBlock (fs.sb.bblock b) (setBit (fs.block (fs.sb.bblock b)) (b % bpb))

/-- Clear the bit of block `b`. -/
def FileSystem.unmark (fs : FileSystem) (b : Nat) : FileSystem :=
  fs.setBlock (fs.sb.bblock b) (clearBit (fs.block (fs.sb.bblock b)) (b % bpb))

variable {fs : FileSystem} {b c : Nat}

theorem sameBlock_iff : (b / bpb = c / bpb ∧ b % bpb = c % bpb) ↔ b = c := by
  constructor
  · rintro ⟨quotient, remainder⟩
    rw [← Nat.div_add_mod b bpb, quotient, remainder, Nat.div_add_mod]
  · rintro rfl
    exact ⟨rfl, rfl⟩

theorem bblock_inj : fs.sb.bblock b = fs.sb.bblock c ↔ b / bpb = c / bpb := by
  simp [Superblock.bblock]

theorem used_mark : (fs.mark b).Used c ↔ fs.Used c ∨ c = b := by
  simp only [FileSystem.Used, FileSystem.mark, FileSystem.setBlock]
  by_cases sameBlock : fs.sb.bblock c = fs.sb.bblock b
  · have bit := bitClear_setBit (fs.block (fs.sb.bblock b)) (b % bpb) (c % bpb)
    rw [sameBlock, Function.update_self, ← Bool.not_eq_true, bit, ← Bool.not_eq_true,
      ← sameBlock_iff]
    simp only [bblock_inj.mp sameBlock, true_and]
    by_cases same : c % bpb = b % bpb <;> simp [same]
  · rw [Function.update_of_ne sameBlock]
    have different : c ≠ b := fun same => sameBlock (by rw [same])
    simp [different]

theorem used_unmark : (fs.unmark b).Used c ↔ fs.Used c ∧ c ≠ b := by
  simp only [FileSystem.Used, FileSystem.unmark, FileSystem.setBlock]
  by_cases sameBlock : fs.sb.bblock c = fs.sb.bblock b
  · have bit := bitClear_clearBit (fs.block (fs.sb.bblock b)) (b % bpb) (c % bpb)
    rw [sameBlock, Function.update_self, ← Bool.not_eq_true, bit, ← Bool.not_eq_true, Ne,
      ← sameBlock_iff (b := c) (c := b)]
    simp [bblock_inj.mp sameBlock]
  · rw [Function.update_of_ne sameBlock]
    have different : c ≠ b := fun same => sameBlock (by rw [same])
    simp [different]

/-- Blocks outside the free map do not matter. -/
theorem used_setBlock {bno : Nat} (data : Block) (outside : fs.sb.bblock c ≠ bno) :
    (fs.setBlock bno data).Used c ↔ fs.Used c := by
  simp only [FileSystem.Used, FileSystem.setBlock, Function.update_of_ne outside]

/-- The count of free blocks depends on the bits alone. -/
theorem free_congr {later : FileSystem} (sb : later.sb = fs.sb)
    (used : ∀ c < fs.sb.size, later.Used c ↔ fs.Used c) : later.free = fs.free := by
  unfold FileSystem.free
  rw [sb]
  congr 1
  apply Finset.filter_congr
  intro c member
  rw [used c (Finset.mem_range.mp member)]

theorem free_taken {later : FileSystem} (sb : later.sb = fs.sb) (inside : b < fs.sb.size)
    (unused : ¬fs.Used b) (used : ∀ c < fs.sb.size, later.Used c ↔ fs.Used c ∨ c = b) :
    later.free + 1 = fs.free := by
  have erased : ((Finset.range later.sb.size).filter fun c => ¬later.Used c) =
      ((Finset.range fs.sb.size).filter fun c => ¬fs.Used c).erase b := by
    ext c
    rw [sb, Finset.mem_erase, Finset.mem_filter, Finset.mem_filter]
    constructor
    · rintro ⟨member, free⟩
      rw [used c (Finset.mem_range.mp member)] at free
      exact ⟨fun same => free (Or.inr same), member, fun old => free (Or.inl old)⟩
    · rintro ⟨different, member, free⟩
      refine ⟨member, ?_⟩
      rw [used c (Finset.mem_range.mp member)]
      rintro (old | same)
      · exact free old
      · exact different same
  have member : b ∈ (Finset.range fs.sb.size).filter fun c => ¬fs.Used c :=
    Finset.mem_filter.mpr ⟨Finset.mem_range.mpr inside, unused⟩
  unfold FileSystem.free
  rw [erased]
  exact Finset.card_erase_add_one member

/-! ## The allocator -/

theorem freeBlock_spec {bi : Nat} (found : fs.freeBlock = some (b, bi)) :
    b + bi < fs.sb.size ∧ fs.sb.bblock (b + bi) = fs.sb.bblock b ∧ (b + bi) % bpb = bi ∧
      ¬fs.Used (b + bi) := by
  rcases List.exists_of_findSome?_eq_some found with ⟨start, member, mapped⟩
  rcases List.mem_map.mp member with ⟨k, -, rfl⟩
  rcases Option.map_eq_some_iff.mp mapped with ⟨bit, first, pair⟩
  cases pair
  have inside := List.mem_range.mp (List.mem_of_find?_eq_some first)
  have clear := List.find?_some first
  have small : bi < bpb := Nat.lt_of_lt_of_le inside (Nat.min_le_left _ _)
  have positive : 0 < bpb := by decide
  have quotient : (k * bpb + bi) / bpb = k * bpb / bpb := by
    rw [Nat.mul_comm, Nat.mul_add_div positive, Nat.mul_div_cancel_left k positive,
      Nat.div_eq_of_lt small, Nat.add_zero]
  have remainder : (k * bpb + bi) % bpb = bi := by
    rw [Nat.mul_comm, Nat.mul_add_mod, Nat.mod_eq_of_lt small]
  have sameBlock : fs.sb.bblock (k * bpb + bi) = fs.sb.bblock (k * bpb) := by
    rw [Superblock.bblock, Superblock.bblock, quotient]
  refine ⟨?_, sameBlock, remainder, ?_⟩
  · have room := Nat.lt_of_lt_of_le inside (Nat.min_le_right _ _)
    omega
  · rw [FileSystem.Used, sameBlock, remainder, clear]
    decide

/-- `balloc` finds no block only if all are in use. -/
theorem freeBlock_none (absent : fs.freeBlock = none) : fs.free = 0 := by
  have positive : 0 < bpb := by decide
  unfold FileSystem.free
  rw [Finset.card_eq_zero, Finset.filter_eq_empty_iff]
  intro b member
  have inside := Finset.mem_range.mp member
  have start : b / bpb * bpb ≤ b := Nat.div_mul_le_self b bpb
  have rest : b / bpb * bpb + b % bpb = b := Nat.div_add_mod' b bpb
  have bit : b % bpb < bpb := Nat.mod_lt b positive
  have count : b / bpb < (fs.sb.size + bpb - 1) / bpb := by
    have next : (b / bpb + 1) * bpb ≤ fs.sb.size + bpb - 1 := by
      rw [Nat.succ_mul]
      omega
    exact Nat.lt_of_succ_le ((Nat.le_div_iff_mul_le positive).mpr next)
  have scanned := List.findSome?_eq_none_iff.mp absent (b / bpb * bpb)
    (List.mem_map.mpr ⟨b / bpb, List.mem_range.mpr count, rfl⟩)
  have unset := List.find?_eq_none.mp (Option.map_eq_none_iff.mp scanned) (b % bpb)
    (List.mem_range.mpr (Nat.lt_min.mpr ⟨bit, by omega⟩))
  have sameBlock : fs.sb.bblock (b / bpb * bpb) = fs.sb.bblock b := by
    rw [Superblock.bblock, Superblock.bblock, Nat.mul_div_cancel _ positive]
  rw [sameBlock] at unset
  exact fun free => free (Bool.eq_false_iff.mpr unset)

/-- Block `b` with nothing in it. -/
def FileSystem.zero (fs : FileSystem) (b : Nat) : FileSystem :=
  fs.setBlock b (memset0 (fs.block b))

/-- `balloc` marks a free block and zeroes it. -/
theorem balloc_ends (state : FsState) :
    (balloc state).Ends
        (fun message => message = "balloc: out of blocks" ∧ state.free = 0) fun b next =>
      b < state.sb.size ∧ ¬state.Used b ∧ next.toFileSystem = (state.mark b).zero b ∧
        next.calls = ⟨state.toFileSystem, b, next.toFileSystem⟩ :: state.calls := by
  rw [balloc, Action.ends_bind, Action.ends_get]
  cases found : state.freeBlock with
  | none => exact ⟨rfl, freeBlock_none found⟩
  | some place =>
      rcases place with ⟨b, bi⟩
      rcases freeBlock_spec found with ⟨room, sameBlock, bit, free⟩
      simp only [Action.ends_bind, onFs, bzero, Action.ends_modify, Action.ends_pure]
      refine ⟨room, free, ?_, trivial⟩
      rw [FileSystem.mark, sameBlock, bit]
      rfl

theorem bfree_eq {state : FsState} (super : superblockOf (state.block 1) = state.sb)
    (used : state.Used b) :
    bfree b state = .done () { state with toFileSystem := state.unmark b } := by
  have reread : readsb state = .done () state := by
    simp only [readsb, onFs, Action.modify, super]
  have set : bitClear (state.block (state.sb.bblock b)) (b % bpb) = false := used
  rw [bfree, Action.bind_done reread, Action.get_bind]
  simp only [set]
  rfl

end Xv6.Fs
