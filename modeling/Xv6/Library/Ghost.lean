import Xv6.Library.Action

/-!
# Actions with a history

An action on a state that has one more part than another action's state, and
writes that part only. Forgetting the part gives the other action, so that what
is known of its end holds here too.
-/

namespace Xv6.Library

variable {Whole Part First Second Value : Type} {part : Whole → Part}

/-- It does what the plain action does to the part of the state. -/
def Follows (part : Whole → Part) (action : Action Whole Value) (plain : Action Part Value) :
    Prop :=
  ∀ whole, (action whole).mapState part = plain (part whole)

theorem follows_pure (value : Value) :
    Follows part (pure value : Action Whole Value) (pure value) := fun _ => rfl

theorem follows_panic (message : String) :
    Follows part (Action.panic message : Action Whole Value) (Action.panic message) :=
  fun _ => rfl

theorem follows_get (field : Part → Value) :
    Follows part (Action.get fun whole => field (part whole)) (Action.get field) := fun _ => rfl

theorem follows_focus {replace : Whole → Part → Whole}
    (replaced : ∀ whole next, part (replace whole next) = next) (plain : Action Part Value) :
    Follows part (Action.focus part replace plain) plain := by
  intro whole
  rw [Action.focus]
  cases plain (part whole) with
  | blocked => rfl
  | panic message => rfl
  | done value next => exact congrArg _ (replaced whole next)

theorem Follows.bind {action : Action Whole First} {plain : Action Part First}
    {next : First → Action Whole Second} {plainNext : First → Action Part Second}
    (first : Follows part action plain) (second : ∀ value, Follows part (next value) (plainNext value)) :
    Follows part (action >>= next) (plain >>= plainNext) := by
  intro whole
  have same := first whole
  cases done : action whole with
  | blocked =>
      rw [done] at same
      rw [Action.bind_blocked done, Action.bind_blocked same.symm]
      rfl
  | panic message =>
      rw [done] at same
      rw [Action.bind_panic done, Action.bind_panic same.symm]
      rfl
  | done value middle =>
      rw [done] at same
      rw [Action.bind_done done, Action.bind_done same.symm]
      exact second value middle

/-- A step that only writes the history. -/
theorem Follows.note {note : Action Whole Unit} {next : Unit → Action Whole Value}
    {plain : Action Part Value} (only : ∀ whole, ∃ later, note whole = .done () later ∧
      part later = part whole) (rest : Follows part (next ()) plain) :
    Follows part (note >>= next) plain := by
  intro whole
  obtain ⟨later, done, same⟩ := only whole
  rw [Action.bind_done done, ← same]
  exact rest later

theorem Follows.ite {condition : Prop} [Decidable condition] {yes no : Action Whole Value}
    {plainYes plainNo : Action Part Value} (first : Follows part yes plainYes)
    (second : Follows part no plainNo) :
    Follows part (if condition then yes else no) (if condition then plainYes else plainNo) := by
  split
  · exact first
  · exact second

theorem Follows.ends {action : Action Whole Value} {plain : Action Part Value}
    {panics : String → Prop} {post : Value → Part → Prop} {whole : Whole}
    (follows : Follows part action plain) (ends : (plain (part whole)).Ends panics post) :
    (action whole).Ends panics fun value next => post value (part next) := by
  rw [← follows whole] at ends
  cases done : action whole with
  | blocked =>
      rw [done] at ends
      exact ends
  | panic message =>
      rw [done] at ends
      exact ends
  | done value next =>
      rw [done] at ends
      exact ends

end Xv6.Library
