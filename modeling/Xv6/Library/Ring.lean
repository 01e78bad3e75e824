import Mathlib.Data.List.Basic
import Mathlib.Logic.Function.Basic
import Mathlib.Tactic.Common

/-!
# Ring buffers with free-running indices

The indices are words that only ever grow and wrap around; the slot of an index
is its remainder. Where the size divides the number of words, a window of at most
that many consecutive indices has a slot for each.
-/

namespace Xv6.Library.Ring

universe u

variable {Value : Type u} {size start : UInt32} {buf : Nat → Value}

/-- The slot of an index. -/
def slot (size index : UInt32) : Nat := (index % size).toNat

/-- The values at the `count` indices from `start` on. -/
def window (size : UInt32) (buf : Nat → Value) (start : UInt32) (count : Nat) : List Value :=
  (List.range count).map fun i => buf (slot size (start + UInt32.ofNat i))

@[simp]
theorem length_window (size : UInt32) (buf : Nat → Value) (start : UInt32) (count : Nat) :
    (window size buf start count).length = count := by
  simp [window]

@[simp]
theorem window_zero (size : UInt32) (buf : Nat → Value) (start : UInt32) :
    window size buf start 0 = [] := rfl

theorem window_append (size : UInt32) (buf : Nat → Value) (start : UInt32) (first second : Nat) :
    window size buf start (first + second) =
      window size buf start first ++ window size buf (start + UInt32.ofNat first) second := by
  simp only [window, List.range_add, List.map_append, List.map_map, Function.comp_def,
    UInt32.ofNat_add, UInt32.add_assoc]

/-- The window from the next index on. -/
theorem window_succ (size : UInt32) (buf : Nat → Value) (start : UInt32) (count : Nat) :
    window size buf start (count + 1) =
      buf (slot size start) :: window size buf (start + 1) count := by
  rw [Nat.add_comm, window_append]
  simp [window]

theorem slot_add (divides : size.toNat ∣ 4294967296) (start : UInt32) (i : Nat) :
    slot size (start + UInt32.ofNat i) = (start.toNat + i) % size.toNat := by
  rw [slot, UInt32.toNat_mod, UInt32.toNat_add, UInt32.toNat_ofNat']
  rw [show (2 : Nat) ^ 32 = 4294967296 by rfl, Nat.mod_mod_of_dvd _ divides, Nat.add_mod,
    Nat.mod_mod_of_dvd _ divides, ← Nat.add_mod]

/-- Indices that are close to each other have different slots. -/
theorem slot_ne (divides : size.toNat ∣ 4294967296) (start : UInt32) {i j : Nat} (before : i < j)
    (near : j < i + size.toNat) :
    slot size (start + UInt32.ofNat i) ≠ slot size (start + UInt32.ofNat j) := by
  rw [slot_add divides, slot_add divides]
  intro same
  have gap : (start.toNat + j - (start.toNat + i)) % size.toNat = 0 :=
    Nat.sub_mod_eq_zero_of_mod_eq same.symm
  rw [show start.toNat + j - (start.toNat + i) = j - i by omega, Nat.mod_eq_of_lt (by omega)] at gap
  omega

/-- A value is stored right after the window. -/
theorem window_store (divides : size.toNat ∣ 4294967296) (buf : Nat → Value) (start : UInt32)
    {count : Nat} (room : count < size.toNat) (value : Value) :
    window size (Function.update buf (slot size (start + UInt32.ofNat count)) value) start
      (count + 1) = window size buf start count ++ [value] := by
  rw [window_append]
  congr 1
  · apply List.map_congr_left
    intro i below
    have before : i < count := List.mem_range.mp below
    exact Function.update_of_ne (slot_ne divides start before (by omega)) _ _
  · simp [window]

end Xv6.Library.Ring
