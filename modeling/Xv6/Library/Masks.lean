import Mathlib.Algebra.Order.Ring.Nat
import Mathlib.Tactic.Common

/-!
# Bit masks

A word split at a bit: the part below it is a remainder, the part above it a
multiple, and a multiple with a small number in its low bits is their sum. And
registers of which some bits cannot be written.
-/

namespace Xv6.Library

/-- Clearing the low bits of a number rounds it down. -/
theorem and_high_mask {value low high : Nat} (bound : value < 2 ^ (low + high)) :
    value &&& ((2 ^ high - 1) <<< low) = value / 2 ^ low * 2 ^ low := by
  apply Nat.eq_of_testBit_eq
  intro bit
  rw [← Nat.shiftRight_eq_div_pow, ← Nat.shiftLeft_eq, Nat.testBit_and, Nat.testBit_shiftLeft,
    Nat.testBit_shiftLeft, Nat.testBit_shiftRight, Nat.testBit_two_pow_sub_one]
  by_cases above : low ≤ bit
  · have position : low + (bit - low) = bit := by omega
    by_cases inside : bit - low < high
    · simp [above, inside, position]
    · have clear : value.testBit bit = false :=
        Nat.testBit_lt_two_pow (Nat.lt_of_lt_of_le bound (Nat.pow_le_pow_right (by decide)
          (by omega)))
      simp [above, position, clear]
  · simp [above]

/-- The two parts of a word do not meet. -/
theorem or_low_bits {base small low : Nat} (aligned : base % 2 ^ low = 0)
    (below : small < 2 ^ low) : base ||| small = base + small := by
  have whole : base = (base / 2 ^ low) <<< low := by
    rw [Nat.shiftLeft_eq, Nat.mul_comm]
    exact (Nat.mul_div_cancel' (Nat.dvd_of_mod_eq_zero aligned)).symm
  rw [whole, Nat.shiftLeft_add_eq_or_of_lt below]

/-! ## Registers with fixed bits -/

section Register

variable {width : Nat}

/-- What a register holds after a write: only the writable bits take the new value. -/
def writeMasked (writable old new : BitVec width) : BitVec width :=
  (new &&& writable) ||| (old &&& ~~~writable)

/-- Writing the old value restores a register. -/
theorem writeMasked_restore (writable old new : BitVec width) :
    writeMasked writable (writeMasked writable old new) old = old := by
  ext bit below
  simp only [writeMasked, BitVec.getElem_or, BitVec.getElem_and, BitVec.getElem_not]
  cases old[bit] <;> cases writable[bit] <;> simp

/-- A register without writable bits keeps its value. -/
theorem writeMasked_zero (old new : BitVec width) : writeMasked 0 old new = old := by
  simp [writeMasked]

theorem writeMasked_allOnes (writable old : BitVec width) :
    writeMasked writable old (BitVec.allOnes width) = writable ||| (old &&& ~~~writable) := by
  rw [writeMasked, BitVec.allOnes_and]

/-- Clearing the low bits of a word leaves what was put above them. -/
theorem or_and_not {high small low : BitVec width} (above : high &&& low = BitVec.ofNat width 0)
    (inside : small &&& low = small) : (high ||| small) &&& ~~~low = high := by
  have clear : small &&& ~~~low = BitVec.ofNat width 0 := by
    rw [← inside, BitVec.and_assoc]
    exact (congrArg (small &&& ·) (BitVec.and_not_self low)).trans BitVec.and_zero
  have kept : high &&& ~~~low = high := by
    have split : (high &&& ~~~low) ||| (high &&& low) = high := by
      rw [← BitVec.and_or_distrib_left, BitVec.or_comm, BitVec.or_not_self, BitVec.and_allOnes]
    rwa [above, BitVec.or_zero] at split
  rw [BitVec.and_or_distrib_right, kept, clear, BitVec.or_zero]

/-- And the low bits are what was put into them. -/
theorem or_and_low {high small low : BitVec width} (above : high &&& low = BitVec.ofNat width 0)
    (inside : small &&& low = small) : (high ||| small) &&& low = small := by
  rw [BitVec.and_or_distrib_right, above, inside, BitVec.zero_or]

end Register

end Xv6.Library
