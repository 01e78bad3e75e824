import Mathlib.Algebra.BigOperators.Group.List.Basic
import Mathlib.Algebra.Order.Ring.Nat
import Mathlib.Tactic.Common

/-!
# Ones'-complement sums

The 16-bit end-around-carry sum of the Internet checksum, and its arithmetic:
up to the two representations of zero it is addition modulo 65535.
-/

namespace Xv6.Library

/-- Add two 16-bit words and add the carry back in. -/
def addWords (first second : Nat) : Nat :=
  if first + second < 65536 then first + second else first + second - 65535

/-- The ones'-complement sum of a list of 16-bit words. -/
def onesSum (words : List Nat) : Nat := words.foldr addWords 0

theorem addWords_lt {first second : Nat} (small : first < 65536) (small' : second < 65536) :
    addWords first second < 65536 := by
  unfold addWords
  split <;> omega

theorem addWords_mod (first second : Nat) :
    addWords first second % 65535 = (first + second) % 65535 := by
  unfold addWords
  split <;> omega

theorem onesSum_lt {words : List Nat} (small : ∀ word ∈ words, word < 65536) :
    onesSum words < 65536 := by
  induction words with
  | nil => decide
  | cons word rest inductionHypothesis =>
      exact addWords_lt (small word List.mem_cons_self)
        (inductionHypothesis fun word member => small word (List.mem_cons_of_mem _ member))

theorem onesSum_mod (words : List Nat) : onesSum words % 65535 = words.sum % 65535 := by
  induction words with
  | nil => rfl
  | cons word rest inductionHypothesis =>
      have step : onesSum (word :: rest) = addWords word (onesSum rest) := rfl
      rw [step, addWords_mod, List.sum_cons, Nat.add_mod, inductionHypothesis, ← Nat.add_mod]

/-- A sum of all ones is a multiple of 65535. -/
theorem sum_mod_of_onesSum {words : List Nat} (ones : onesSum words = 65535) :
    words.sum % 65535 = 0 := by
  rw [← onesSum_mod, ones]

theorem addWords_eq_zero_iff {first second : Nat} :
    addWords first second = 0 ↔ first = 0 ∧ second = 0 := by
  unfold addWords
  split <;> omega

/-- A carry is never lost: the sum is 0 only if there was nothing to add. -/
theorem onesSum_eq_zero_iff (words : List Nat) : onesSum words = 0 ↔ words.sum = 0 := by
  induction words with
  | nil => exact Iff.rfl
  | cons word rest inductionHypothesis =>
      have step : onesSum (word :: rest) = addWords word (onesSum rest) := rfl
      rw [step, addWords_eq_zero_iff, inductionHypothesis, List.sum_cons, Nat.add_eq_zero_iff]

/-- The complement of a sum is what is missing to all ones. -/
theorem addWords_complement {sum : Nat} (small : sum < 65536) :
    addWords (65535 - sum) sum = 65535 := by
  unfold addWords
  split <;> omega

/-- Fold the carries above the low 16 bits back in, once. -/
def foldCarry (sum : Nat) : Nat := sum / 65536 + sum % 65536

theorem foldCarry_mod (sum : Nat) : foldCarry sum % 65535 = sum % 65535 := by
  unfold foldCarry
  omega

theorem foldCarry_eq_zero_iff (sum : Nat) : foldCarry sum = 0 ↔ sum = 0 := by
  unfold foldCarry
  omega

/-- Below 2^32 two folds give the ones'-complement sum. -/
theorem foldCarry_foldCarry {words : List Nat} (small : ∀ word ∈ words, word < 65536)
    (room : words.sum < 2 ^ 32) : foldCarry (foldCarry words.sum) = onesSum words := by
  have once := foldCarry_mod words.sum
  have twice := foldCarry_mod (foldCarry words.sum)
  have sum := onesSum_mod words
  have zero := onesSum_eq_zero_iff words
  have lost := (foldCarry_eq_zero_iff (foldCarry words.sum)).trans (foldCarry_eq_zero_iff words.sum)
  have below := onesSum_lt small
  have fits : foldCarry (foldCarry words.sum) < 65536 := by
    unfold foldCarry
    omega
  omega

/-- One more word leaves the sum as it is if it is 0, or all ones and not the only one. -/
theorem onesSum_eq_onesSum_iff {words more : List Nat} {word : Nat}
    (small : ∀ word ∈ words, word < 65536) (smaller : ∀ word ∈ more, word < 65536)
    (last : word < 65536) (total : more.sum = words.sum + word) :
    onesSum more = onesSum words ↔ word = 0 ∨ word = 65535 ∧ words.sum ≠ 0 := by
  have first := onesSum_mod words
  have second := onesSum_mod more
  have zero := onesSum_eq_zero_iff words
  have also := onesSum_eq_zero_iff more
  have below := onesSum_lt small
  have below' := onesSum_lt smaller
  rw [total] at second also
  omega

end Xv6.Library
