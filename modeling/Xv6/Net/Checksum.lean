import Mathlib.Algebra.Order.BigOperators.Group.List
import Mathlib.Algebra.Order.Ring.Nat
import Xv6.Library.Memory
import Xv6.Library.OnesComplement

/-!
# `calc_checksum` and `fillbuf`

The two functions `send_icmpRequest` builds its packet with.  `fillbuf` stores
the most significant byte first; `calc_checksum` loads words the way the
machine does, least significant byte first, and leaves the last word out.
-/

namespace Xv6.Net

open Xv6.Library

/-- A 16-bit load on the little-endian machine. -/
def loadU16 (mem : Memory) (address : Nat) : UInt16 :=
  (mem address).toUInt16 ||| ((mem (address + 1)).toUInt16 <<< 8)

/-- `while(size>1) { cksum += *buffer++; --size; }` -/
def sumLoop (mem : Memory) : Nat → Nat → UInt32 → UInt32
  | buffer, size + 2, cksum =>
      sumLoop mem (buffer + 2) (size + 1) (cksum + (loadU16 mem buffer).toUInt32)
  | _, _, cksum => cksum

/-- `calc_checksum`. -/
def calcChecksum (mem : Memory) (buffer size : Nat) : UInt16 :=
  let cksum := sumLoop mem buffer size 0
  let cksum := (cksum >>> 16) + (cksum &&& 0xffff)
  let cksum := cksum + (cksum >>> 16)
  (~~~cksum).toUInt16

/-- The words `calc_checksum` adds up: all but the last. -/
def summedWords (mem : Memory) (buffer size : Nat) : List Nat :=
  (List.range (size - 1)).map fun index => (loadU16 mem (buffer + 2 * index)).toNat

theorem loadU16_toNat (mem : Memory) (address : Nat) :
    (loadU16 mem address).toNat = (mem address).toNat + 256 * (mem (address + 1)).toNat := by
  have low := (mem address).toNat_lt
  have high := (mem (address + 1)).toNat_lt
  simp only [loadU16, UInt16.toNat_or, UInt16.toNat_shiftLeft, UInt8.toNat_toUInt16]
  have shifted : (mem (address + 1)).toNat <<< (UInt16.toNat 8 % 16) % 2 ^ 16 =
      256 * (mem (address + 1)).toNat := by
    simp [Nat.shiftLeft_eq]
    omega
  have disjoint := Nat.two_pow_add_eq_or_of_lt (i := 8) low (mem (address + 1)).toNat
  rw [show (2 : Nat) ^ 8 = 256 by decide] at disjoint
  rw [shifted, Nat.or_comm, ← disjoint, Nat.add_comm]

theorem summedWords_succ (mem : Memory) (buffer size : Nat) :
    summedWords mem buffer (size + 2) =
      (loadU16 mem buffer).toNat :: summedWords mem (buffer + 2) (size + 1) := by
  simp only [summedWords, Nat.add_one_sub_one, List.range_succ_eq_map, List.map_cons,
    List.map_map]
  congr 1
  apply List.map_congr_left
  intro index _
  simp only [Function.comp_apply, Nat.succ_eq_add_one]
  rw [show buffer + 2 * (index + 1) = buffer + 2 + 2 * index by omega]

theorem sumLoop_toNat (mem : Memory) (buffer size : Nat) (cksum : UInt32)
    (room : cksum.toNat + (summedWords mem buffer size).sum < 2 ^ 32) :
    (sumLoop mem buffer size cksum).toNat =
      cksum.toNat + (summedWords mem buffer size).sum := by
  induction size generalizing buffer cksum with
  | zero => simp [sumLoop, summedWords]
  | succ size inductionHypothesis =>
      cases size with
      | zero => simp [sumLoop, summedWords]
      | succ size =>
          rw [summedWords_succ, List.sum_cons] at room ⊢
          have added : (cksum + (loadU16 mem buffer).toUInt32).toNat =
              cksum.toNat + (loadU16 mem buffer).toNat := by
            rw [UInt32.toNat_add, UInt16.toNat_toUInt32]
            omega
          rw [sumLoop, inductionHypothesis, added]
          · omega
          · rw [added]
            omega

theorem summedWords_sum_le (mem : Memory) (buffer size : Nat) :
    (summedWords mem buffer size).sum ≤ 65535 * (size - 1) := by
  have bounded := List.sum_le_card_nsmul (summedWords mem buffer size) 65535 (by
    intro word member
    obtain ⟨index, _, rfl⟩ := List.mem_map.mp member
    have small := (loadU16 mem (buffer + 2 * index)).toNat_lt
    omega)
  have length : (summedWords mem buffer size).length = size - 1 := by simp [summedWords]
  rw [length, nsmul_eq_mul, Nat.cast_id] at bounded
  rwa [Nat.mul_comm]

/-- Two folds bring the sum into 16 bits, and the result is its complement. -/
theorem calcChecksum_toNat (mem : Memory) (buffer size : Nat) (small : size ≤ 65537) :
    (calcChecksum mem buffer size).toNat =
      65535 - foldCarry (foldCarry (summedWords mem buffer size).sum) := by
  have bounded := summedWords_sum_le mem buffer size
  have room : (summedWords mem buffer size).sum < 2 ^ 32 := by omega
  have summed := sumLoop_toNat mem buffer size 0 (by simpa using room)
  rw [UInt32.toNat_zero, Nat.zero_add] at summed
  generalize (summedWords mem buffer size).sum = total at summed room ⊢
  have masked : ∀ value : UInt32, (value &&& 0xffff).toNat = value.toNat % 65536 := by
    intro value
    rw [UInt32.toNat_and]
    exact Nat.and_two_pow_sub_one_eq_mod _ 16
  have shifted : ∀ value : UInt32, (value >>> 16).toNat = value.toNat / 65536 := by
    intro value
    rw [UInt32.toNat_shiftRight]
    exact Nat.shiftRight_eq_div_pow _ 16
  have first : ((sumLoop mem buffer size 0 >>> 16) + (sumLoop mem buffer size 0 &&& 0xffff)).toNat =
      foldCarry total := by
    rw [UInt32.toNat_add, masked, shifted, summed, foldCarry]
    omega
  have carried : foldCarry total ≤ 131070 := by
    unfold foldCarry
    omega
  simp only [calcChecksum, UInt32.toNat_toUInt16, UInt32.toNat_not, UInt32.toNat_add, shifted,
    first]
  generalize foldCarry total = folded at carried ⊢
  simp only [UInt32.size, foldCarry]
  omega

/-- The checksum complements the sum of all words but the last. -/
theorem calcChecksum_mod (mem : Memory) (buffer size : Nat) (small : size ≤ 65537) :
    ((calcChecksum mem buffer size).toNat + (summedWords mem buffer size).sum) % 65535 = 0 := by
  rw [calcChecksum_toNat mem buffer size small]
  have once := foldCarry_mod (summedWords mem buffer size).sum
  have twice := foldCarry_mod (foldCarry (summedWords mem buffer size).sum)
  have bounded := summedWords_sum_le mem buffer size
  have fits : foldCarry (foldCarry (summedWords mem buffer size).sum) ≤ 65535 := by
    unfold foldCarry
    omega
  omega

/-! ## The checksum of the whole buffer -/

/-- The words of the buffer. -/
def bufferWords (mem : Memory) (buffer n : Nat) : List Nat :=
  (List.range n).map fun index => (loadU16 mem (buffer + 2 * index)).toNat

theorem bufferWords_small (mem : Memory) (buffer n : Nat) :
    ∀ word ∈ bufferWords mem buffer n, word < 65536 := by
  intro word member
  obtain ⟨index, -, rfl⟩ := List.mem_map.mp member
  exact (loadU16 mem (buffer + 2 * index)).toNat_lt

theorem bufferWords_succ (mem : Memory) (buffer n : Nat) :
    bufferWords mem buffer (n + 1) =
      bufferWords mem buffer n ++ [(loadU16 mem (buffer + 2 * n)).toNat] := by
  rw [bufferWords, List.range_succ, List.map_append]
  rfl

/-- What the checksum of `n` words has to be: the complement of their sum, which the accumulator
holds and two folds bring into 16 bits. -/
structure InternetChecksum (mem : Memory) (buffer n : Nat) : Prop where
  value : (calcChecksum mem buffer n).toNat = 0xffff - onesSum (bufferWords mem buffer n)
  complements :
    addWords (calcChecksum mem buffer n).toNat (onesSum (bufferWords mem buffer n)) = 0xffff
  accumulator : (sumLoop mem buffer n 0).toNat = (summedWords mem buffer n).sum
  folds : foldCarry (foldCarry (summedWords mem buffer n).sum) < 65536

/-- The last word is not added, which goes unnoticed when it does not change the sum. -/
theorem calcChecksum_iff (mem : Memory) (buffer n : Nat) (positive : 1 ≤ n) (small : n ≤ 65537) :
    InternetChecksum mem buffer n ↔
      (loadU16 mem (buffer + 2 * (n - 1))).toNat = 0 ∨
        (loadU16 mem (buffer + 2 * (n - 1))).toNat = 0xffff ∧
          ∃ index < n - 1, loadU16 mem (buffer + 2 * index) ≠ 0 := by
  obtain ⟨count, rfl⟩ := Nat.exists_eq_add_of_le' positive
  have summed : summedWords mem buffer (count + 1) = bufferWords mem buffer count := rfl
  have whole := bufferWords_succ mem buffer count
  have smallFirst := bufferWords_small mem buffer count
  have smallWhole := bufferWords_small mem buffer (count + 1)
  have smallLast := (loadU16 mem (buffer + 2 * count)).toNat_lt
  have bound := summedWords_sum_le mem buffer (count + 1)
  have value := calcChecksum_toNat mem buffer (count + 1) small
  have accumulator := sumLoop_toNat mem buffer (count + 1) 0 (by
    rw [UInt32.toNat_zero, Nat.zero_add]
    omega)
  rw [UInt32.toNat_zero, Nat.zero_add] at accumulator
  rw [summed] at value bound accumulator
  have room : (bufferWords mem buffer count).sum < 2 ^ 32 := by omega
  have folded := foldCarry_foldCarry smallFirst room
  rw [folded] at value
  have total : (bufferWords mem buffer (count + 1)).sum =
      (bufferWords mem buffer count).sum + (loadU16 mem (buffer + 2 * count)).toNat := by
    rw [whole, List.sum_append, List.sum_singleton]
  have nonzero : (bufferWords mem buffer count).sum ≠ 0 ↔
      ∃ index < count, loadU16 mem (buffer + 2 * index) ≠ 0 := by
    rw [Ne, List.sum_eq_zero_iff]
    simp [bufferWords, ← UInt16.toNat_inj]
  have same := onesSum_eq_onesSum_iff smallFirst smallWhole smallLast total
  have below := onesSum_lt smallFirst
  have below' := onesSum_lt smallWhole
  rw [Nat.add_sub_cancel, ← nonzero, ← same]
  constructor
  · rintro ⟨right, -, -, -⟩
    rw [value] at right
    have back := Nat.sub_sub_self (Nat.le_of_lt_succ below')
    rw [← back, ← right]
    exact Nat.sub_sub_self (Nat.le_of_lt_succ below)
  · intro equal
    refine ⟨?_, ?_, ?_, ?_⟩
    · rw [value, equal]
    · rw [value, ← equal]
      exact addWords_complement below'
    · rw [accumulator, summed]
    · rw [summed, folded]
      exact below

/-- Two words: the second one is missing. -/
theorem calcChecksum_two : ¬InternetChecksum (fun _ => 1) 0 2 := by
  intro right
  have wrong := right.value
  revert wrong
  decide

/-- Three words, of which the last is `0xffff`. -/
theorem calcChecksum_iff_ones :
    InternetChecksum (fun address => [0x45, 0x12, 0x00, 0x54, 0xff, 0xff].getD address 0) 0 3 :=
  (calcChecksum_iff _ 0 3 (by decide) (by decide)).mpr
    (Or.inr ⟨by decide, 1, by decide, by decide⟩)

end Xv6.Net
