import Mathlib.Algebra.Order.Ring.Nat
import Xv6.Library.Memory

/-!
# Little-endian fields

Unsigned fields of any width in byte-addressed memory.
-/

namespace Xv6.Library

/-- The `count` low bytes of `value`, least significant first. -/
def leBytes : Nat → Nat → List UInt8
  | _, 0 => []
  | value, count + 1 => UInt8.ofNat value :: leBytes (value / 256) count

def ofLeBytes : List UInt8 → Nat
  | [] => 0
  | byte :: rest => byte.toNat + 256 * ofLeBytes rest

@[simp]
theorem length_leBytes (value count : Nat) : (leBytes value count).length = count := by
  induction count generalizing value with
  | zero => rfl
  | succ count inductionHypothesis => simp [leBytes, inductionHypothesis]

theorem getElem_leBytes {value count index : Nat} (inside : index < (leBytes value count).length) :
    (leBytes value count)[index] = UInt8.ofNat (value / 256 ^ index) := by
  induction count generalizing value index with
  | zero => exact absurd inside (Nat.not_lt_zero _)
  | succ count inductionHypothesis =>
      cases index with
      | zero => simp [leBytes]
      | succ index =>
          simp only [leBytes, List.getElem_cons_succ, inductionHypothesis]
          rw [Nat.div_div_eq_div_mul, Nat.pow_succ, Nat.mul_comm]

theorem ofLeBytes_leBytes (value count : Nat) :
    ofLeBytes (leBytes value count) = value % 256 ^ count := by
  induction count generalizing value with
  | zero => simp [leBytes, ofLeBytes, Nat.mod_one]
  | succ count inductionHypothesis =>
      simp only [leBytes, ofLeBytes, inductionHypothesis, UInt8.toNat_ofNat', Nat.reducePow]
      rw [Nat.pow_succ, Nat.mul_comm (256 ^ count), Nat.mod_mul]

/-- A number that fits is determined by its bytes. -/
theorem eq_of_bytes {first second count : Nat} (small : first < 256 ^ count)
    (small' : second < 256 ^ count)
    (same : ∀ index < count,
      UInt8.ofNat (first / 256 ^ index) = UInt8.ofNat (second / 256 ^ index)) :
    first = second := by
  have bytes : leBytes first count = leBytes second count := by
    apply List.ext_getElem
    · rw [length_leBytes, length_leBytes]
    · intro index inside _
      rw [getElem_leBytes, getElem_leBytes]
      rw [length_leBytes] at inside
      exact same index inside
  have back := congrArg ofLeBytes bytes
  rwa [ofLeBytes_leBytes, ofLeBytes_leBytes, Nat.mod_eq_of_lt small, Nat.mod_eq_of_lt small'] at back

theorem ofLeBytes_lt (bytes : List UInt8) : ofLeBytes bytes < 256 ^ bytes.length := by
  induction bytes with
  | nil => simp [ofLeBytes]
  | cons byte rest inductionHypothesis =>
      have small := byte.toNat_lt
      simp only [ofLeBytes, List.length_cons, Nat.pow_succ]
      omega

theorem leBytes_ofLeBytes (bytes : List UInt8) :
    leBytes (ofLeBytes bytes) bytes.length = bytes := by
  induction bytes with
  | nil => rfl
  | cons byte rest inductionHypothesis =>
      have small := byte.toNat_lt
      have low : UInt8.ofNat (byte.toNat + 256 * ofLeBytes rest) = byte := by
        apply UInt8.toNat_inj.mp
        rw [UInt8.toNat_ofNat']
        omega
      have high : (byte.toNat + 256 * ofLeBytes rest) / 256 = ofLeBytes rest := by omega
      rw [ofLeBytes, List.length_cons, leBytes, low, high, inductionHypothesis]

namespace Memory

/-- The field of `width` bytes at `address`. -/
def load (memory : Memory) (address width : Nat) : Nat :=
  ofLeBytes (memory.read address width)

def store (memory : Memory) (address width value : Nat) : Memory :=
  memory.write address (leBytes value width)

theorem load_lt (memory : Memory) (address width : Nat) :
    memory.load address width < 256 ^ width := by
  simpa [load] using ofLeBytes_lt (memory.read address width)

theorem load_congr {first second : Memory} {address width : Nat}
    (agree : ∀ offset < width, first (address + offset) = second (address + offset)) :
    first.load address width = second.load address width := by
  rw [load, load, read_congr agree]

theorem load_zero (address width : Nat) : load (fun _ => 0) address width = 0 := by
  have zeros : ∀ count, ofLeBytes (List.replicate count 0) = 0 := by
    intro count
    induction count with
    | zero => rfl
    | succ count inductionHypothesis =>
        rw [List.replicate_succ, ofLeBytes, inductionHypothesis]
        rfl
  rw [load, read, List.map_const', List.length_range, zeros]

theorem load_store_same (memory : Memory) (address width value : Nat) :
    (memory.store address width value).load address width = value % 256 ^ width := by
  have back := memory.read_write_same address (leBytes value width)
  rw [length_leBytes] at back
  rw [load, store, back, ofLeBytes_leBytes]

theorem load_store_fits (memory : Memory) (address : Nat) {width value : Nat}
    (fits : value < 256 ^ width) :
    (memory.store address width value).load address width = value := by
  rw [load_store_same, Nat.mod_eq_of_lt fits]

theorem load_store_disjoint (memory : Memory) {address other width wide : Nat} (value : Nat)
    (disjoint : other + wide ≤ address ∨ address + width ≤ other) :
    (memory.store address width value).load other wide = memory.load other wide := by
  rw [load, store, read_write_disjoint]
  · rfl
  · simpa using disjoint

theorem store_outside (memory : Memory) {address location width : Nat} (value : Nat)
    (outside : location < address ∨ address + width ≤ location) :
    memory.store address width value location = memory location := by
  apply write_outside
  simpa using outside

end Memory

end Xv6.Library
