import Xv6.Library.Memory

/-!
# Copying byte by byte

Two loops copy a region of memory, one from its start and one from its end.
The first is right unless the target starts inside the source, where it repeats
the bytes in between; the second is right if the target does not lie before the
source.
-/

namespace Xv6.Library

/-- The bytes from `target` on are those that were at `source`, and no other byte
has changed. -/
structure Moved (target source count : Nat) (before after : Memory) : Prop where
  copied : ∀ i < count, after (target + i) = before (source + i)
  others : ∀ a, a < target ∨ target + count ≤ a → after a = before a

namespace Memory

variable {memory : Memory} {target source count : Nat}

/-- Copy from the start. -/
def copyUp : Nat → Nat → Nat → Memory → Memory
  | 0, _, _, memory => memory
  | count + 1, target, source, memory =>
      copyUp count (target + 1) (source + 1) (Function.update memory target (memory source))

/-- Copy from the end. -/
def copyDown : Nat → Nat → Nat → Memory → Memory
  | 0, _, _, memory => memory
  | count + 1, target, source, memory =>
      copyDown count target source
        (Function.update memory (target + count) (memory (source + count)))

theorem copyUp_others {a : Nat} (outside : a < target ∨ target + count ≤ a) :
    copyUp count target source memory a = memory a := by
  induction count generalizing target source memory with
  | zero => rfl
  | succ count inductionHypothesis =>
      rw [copyUp, inductionHypothesis (by omega), Function.update_of_ne (by omega)]

theorem copyDown_others {a : Nat} (outside : a < target ∨ target + count ≤ a) :
    copyDown count target source memory a = memory a := by
  induction count generalizing memory with
  | zero => rfl
  | succ count inductionHypothesis =>
      rw [copyDown, inductionHypothesis (by omega), Function.update_of_ne (by omega)]

/-- From the start, if the target is not inside the source. -/
theorem copyUp_moved (apart : target ≤ source ∨ source + count ≤ target) :
    Moved target source count memory (copyUp count target source memory) := by
  refine ⟨?_, fun a outside => copyUp_others outside⟩
  induction count generalizing target source memory with
  | zero => exact fun i none => absurd none (Nat.not_lt_zero i)
  | succ count inductionHypothesis =>
      intro i inside
      rw [copyUp]
      cases i with
      | zero => rw [copyUp_others (by omega), Nat.add_zero, Function.update_self, Nat.add_zero]
      | succ i =>
          have rest := @inductionHypothesis (Function.update memory target (memory source))
            (target + 1) (source + 1) (by omega) i (by omega)
          have forward (p : Nat) : p + (i + 1) = p + 1 + i := by omega
          rw [forward, forward, rest, Function.update_of_ne (by omega)]

/-- From the end, if the source is not inside the target. -/
theorem copyDown_moved (apart : source ≤ target) :
    Moved target source count memory (copyDown count target source memory) := by
  refine ⟨?_, fun a outside => copyDown_others outside⟩
  induction count generalizing memory with
  | zero => exact fun i none => absurd none (Nat.not_lt_zero i)
  | succ count inductionHypothesis =>
      intro i inside
      rw [copyDown]
      by_cases last : i = count
      · subst last
        rw [copyDown_others (Or.inr (Nat.le_refl _)), Function.update_self]
      · rw [inductionHypothesis i (by omega), Function.update_of_ne (by omega)]

/-- From the start, with the target after the source: each byte is the one that is then at
its source. -/
theorem copyUp_repeats (after : source < target) {i : Nat} (inside : i < count) :
    copyUp count target source memory (target + i) =
      copyUp count target source memory (source + i) := by
  induction count generalizing target source memory i with
  | zero => exact absurd inside (Nat.not_lt_zero i)
  | succ count inductionHypothesis =>
      rw [copyUp]
      cases i with
      | zero =>
          rw [copyUp_others (by omega), copyUp_others (by omega), Nat.add_zero,
            Function.update_self, Nat.add_zero, Function.update_of_ne (by omega)]
      | succ i =>
          have rest := @inductionHypothesis
            (Function.update memory target (memory source)) (target + 1) (source + 1) (by omega) i
            (Nat.lt_of_succ_lt_succ inside)
          have forward (p : Nat) : p + (i + 1) = p + 1 + i := by omega
          rw [forward, forward, rest]

/-- Copying from the start is right exactly if the source repeats itself where the target
overlaps it. -/
theorem copyUp_moved_iff : Moved target source count memory (copyUp count target source memory) ↔
    (source < target → ∀ i, target + i < source + count →
      memory (target + i) = memory (source + i)) := by
  by_cases after : source < target
  · have repeats := fun i inside => @copyUp_repeats memory target source count after i inside
    generalize final : copyUp count target source memory = last at repeats
    have others : ∀ a, a < target ∨ target + count ≤ a → last a = memory a := by
      intro a outside
      rw [← final]
      exact copyUp_others outside
    constructor
    · intro moved _ i inside
      have wanted := moved.copied i (by omega)
      have later := moved.copied (target - source + i) (by omega)
      rw [repeats _ (by omega), show source + (target - source + i) = target + i by omega,
        wanted] at later
      exact later.symm
    · intro periodic
      refine ⟨?_, others⟩
      intro i inside
      induction i using Nat.strongRecOn with
      | _ i inductionHypothesis =>
          rw [repeats i inside]
          by_cases first : source + i < target
          · exact others _ (Or.inl first)
          · obtain ⟨j, position⟩ := Nat.exists_eq_add_of_le (Nat.le_of_not_lt first)
            rw [position, inductionHypothesis j (by omega) (by omega)]
            exact (periodic after j (by omega)).symm
  · exact iff_of_true (copyUp_moved (Or.inl (Nat.le_of_not_lt after))) fun later =>
      absurd later after

end Memory

end Xv6.Library
