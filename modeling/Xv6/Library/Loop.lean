import Mathlib.Tactic.Common

/-!
# Counted loops

`forLoop n body` is the C loop `for (i = 0; i < n; i++) body(i)` over an
explicit state, with the usual invariant rule.
-/

namespace Xv6.Library

universe u

variable {State : Type u}

def forLoop : Nat → (Nat → State → State) → State → State
  | 0, _, state => state
  | count + 1, body, state => body count (forLoop count body state)

@[simp]
theorem forLoop_zero (body : Nat → State → State) (state : State) :
    forLoop 0 body state = state := rfl

/-- The invariant may mention the index of the next iteration. -/
theorem forLoop_invariant (Invariant : Nat → State → Prop)
    {count : Nat} {body : Nat → State → State} {state : State}
    (initially : Invariant 0 state)
    (preserved : ∀ index current, index < count → Invariant index current →
      Invariant (index + 1) (body index current)) :
    Invariant count (forLoop count body state) := by
  induction count with
  | zero => exact initially
  | succ count inductionHypothesis =>
      refine preserved count _ (Nat.lt_succ_self count) (inductionHypothesis ?_)
      intro index current below holds
      exact preserved index current (Nat.lt_succ_of_lt below) holds

end Xv6.Library
