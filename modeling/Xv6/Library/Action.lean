import Xv6.Library.Program

/-!
# Sequential actions

A function that runs alone on a state and may panic. `Outcome.Ends` says of an
outcome which panics it allows and what holds of the value and the state it
ends in; the rules below compute it along the statements of a function.
-/

namespace Xv6.Library

universe u v

/-- It does not block, a panic is one of `panics`, and an end satisfies `post`. -/
def Outcome.Ends {State : Type u} {Value : Type v} (panics : String → Prop)
    (post : Value → State → Prop) : Outcome State Value → Prop
  | .blocked => False
  | .panic message => panics message
  | .done value next => post value next

def Action (State Value : Type) := State → Outcome State Value

namespace Action

variable {State First Second Value : Type}

def bind (action : Action State First) (next : First → Action State Second) :
    Action State Second :=
  fun state =>
    match action state with
    | .blocked => .blocked
    | .panic message => .panic message
    | .done value middle => next value middle

instance : Monad (Action State) where
  pure value := fun state => .done value state
  bind := bind

/-- Read something from the state. -/
def get (field : State → Value) : Action State Value :=
  fun state => .done (field state) state

/-- Change the state. -/
def modify (change : State → State) : Action State Unit :=
  fun state => .done () (change state)

def panic (message : String) : Action State Value :=
  fun _ => .panic message

/-- An action on a part of the state. -/
def focus {Whole Part : Type} (part : Whole → Part) (replace : Whole → Part → Whole)
    (action : Action Part Value) : Action Whole Value :=
  fun whole =>
    match action (part whole) with
    | .blocked => .blocked
    | .panic message => .panic message
    | .done value next => .done value (replace whole next)

/-- `if (condition) body;` -/
def ifThen (condition : Prop) [Decidable condition] (body : Action State Unit) :
    Action State Unit :=
  if condition then body else pure ()

/-- A loop that goes on and on. -/
def never : Action State Value :=
  fun _ => .blocked

/-- `for (i = 0; i < count; i++) body(i)` -/
def forRange : Nat → (Nat → Action State Unit) → Action State Unit
  | 0, _ => pure ()
  | count + 1, body => do
      forRange count body
      body count

end Action

section Rules

variable {State First Second Value : Type} {panics allowed : String → Prop}
  {post : Value → State → Prop} {state : State}

theorem Outcome.Ends.imp {outcome : Outcome State Value} {weaker : Value → State → Prop}
    (ends : outcome.Ends panics post) (panic : ∀ message, panics message → allowed message)
    (implies : ∀ value next, post value next → weaker value next) :
    outcome.Ends allowed weaker := by
  cases outcome with
  | blocked => exact ends
  | panic message => exact panic message ends
  | done value next => exact implies value next ends

theorem Outcome.Ends.mono {outcome : Outcome State Value} {weaker : Value → State → Prop}
    (ends : outcome.Ends panics post)
    (implies : ∀ value next, post value next → weaker value next) :
    outcome.Ends panics weaker :=
  ends.imp (fun _ allowed => allowed) implies

/-- Two facts about one end. -/
theorem Outcome.Ends.and {outcome : Outcome State Value} {other : Value → State → Prop}
    (ends : outcome.Ends panics post) (also : outcome.Ends allowed other) :
    outcome.Ends panics fun value next => post value next ∧ other value next := by
  cases outcome with
  | blocked => exact ends
  | panic message => exact ends
  | done value next => exact ⟨ends, also⟩

theorem Outcome.Ends.exists_done {outcome : Outcome State Value}
    (ends : outcome.Ends (fun _ => False) post) :
    ∃ value next, outcome = .done value next ∧ post value next := by
  cases outcome with
  | blocked => exact ends.elim
  | panic message => exact ends.elim
  | done value next => exact ⟨value, next, rfl, ends⟩

theorem Outcome.Ends.cases {outcome : Outcome State Value} (ends : outcome.Ends panics post) :
    (∃ message, outcome = .panic message ∧ panics message) ∨
      ∃ value next, outcome = .done value next ∧ post value next := by
  cases outcome with
  | blocked => exact ends.elim
  | panic message => exact Or.inl ⟨message, rfl, ends⟩
  | done value next => exact Or.inr ⟨value, next, rfl, ends⟩

theorem Outcome.Ends.of_done {outcome : Outcome State Value} {value : Value} {next : State}
    (ends : outcome.Ends panics post) (done : outcome = .done value next) : post value next := by
  rw [done] at ends
  exact ends

theorem Outcome.Ends.of_panic {outcome : Outcome State Value} {message : String}
    (ends : outcome.Ends panics post) (panic : outcome = .panic message) : panics message := by
  rw [panic] at ends
  exact ends

theorem Outcome.Ends.of_state {outcome : Outcome State Value} {Condition : State → Prop}
    {next : State} (ends : outcome.Ends panics fun _ => Condition)
    (state : outcome.state? = some next) : Condition next := by
  cases outcome with
  | blocked => cases state
  | panic message => cases state
  | done value later =>
      cases state
      exact ends

namespace Action

@[simp]
theorem ends_pure (value : Value) :
    ((pure value : Action State Value) state).Ends panics post ↔ post value state := Iff.rfl

@[simp]
theorem ends_get (field : State → Value) :
    (get field state).Ends panics post ↔ post (field state) state := Iff.rfl

@[simp]
theorem ends_modify {post : Unit → State → Prop} (change : State → State) :
    (modify change state).Ends panics post ↔ post () (change state) := Iff.rfl

@[simp]
theorem ends_panic (message : String) :
    ((panic message : Action State Value) state).Ends panics post ↔ panics message := Iff.rfl

theorem bind_done {action : Action State First} {next : First → Action State Second}
    {value : First} {middle : State} (done : action state = .done value middle) :
    (action >>= next) state = next value middle := by
  change Action.bind action next state = _
  rw [Action.bind, done]

theorem bind_blocked {action : Action State First} {next : First → Action State Second}
    (blocks : action state = .blocked) : (action >>= next) state = .blocked := by
  change Action.bind action next state = _
  rw [Action.bind, blocks]

theorem bind_panic {action : Action State First} {next : First → Action State Second}
    {message : String} (panics : action state = .panic message) :
    (action >>= next) state = .panic message := by
  change Action.bind action next state = _
  rw [Action.bind, panics]

theorem get_bind (field : State → First) (next : First → Action State Second) :
    (get field >>= next) state = next (field state) state := rfl

theorem modify_bind (change : State → State) (next : Unit → Action State Second) :
    (modify change >>= next) state = next () (change state) := rfl

theorem ifThen_neg {condition : Prop} [Decidable condition] {body : Action State Unit}
    {next : Unit → Action State Second} (fails : ¬condition) :
    (ifThen condition body >>= next) state = next () state := by
  rw [ifThen, if_neg fails]
  rfl

theorem focus_done {Whole Part : Type} {part : Whole → Part} {replace : Whole → Part → Whole}
    {action : Action Part Value} {whole : Whole} {value : Value} {next : Part}
    (done : action (part whole) = .done value next) :
    focus part replace action whole = .done value (replace whole next) := by
  rw [focus, done]

theorem focus_blocked {Whole Part : Type} {part : Whole → Part} {replace : Whole → Part → Whole}
    {action : Action Part Value} {whole : Whole} (blocked : action (part whole) = .blocked) :
    focus part replace action whole = .blocked := by
  rw [focus, blocked]

theorem focus_panic {Whole Part : Type} {part : Whole → Part} {replace : Whole → Part → Whole}
    {action : Action Part Value} {whole : Whole} {message : String}
    (panic : action (part whole) = .panic message) :
    focus part replace action whole = .panic message := by
  rw [focus, panic]

@[simp]
theorem ends_focus {Whole Part : Type} {part : Whole → Part} {replace : Whole → Part → Whole}
    {action : Action Part Value} {whole : Whole} {post : Value → Whole → Prop} :
    (focus part replace action whole).Ends panics post ↔
      (action (part whole)).Ends panics fun value next => post value (replace whole next) := by
  unfold focus
  cases action (part whole) with
  | blocked => exact Iff.rfl
  | panic message => exact Iff.rfl
  | done value next => exact Iff.rfl

/-- The second statement starts where the first one ended. -/
@[simp]
theorem ends_bind {post : Second → State → Prop} (action : Action State First)
    (next : First → Action State Second) :
    ((action >>= next) state).Ends panics post ↔
      (action state).Ends panics fun value middle => (next value middle).Ends panics post := by
  change (Action.bind action next state).Ends panics post ↔ _
  unfold Action.bind
  cases action state with
  | blocked => exact Iff.rfl
  | panic message => exact Iff.rfl
  | done value middle => exact Iff.rfl

/-- The invariant may mention the index of the next iteration. -/
theorem ends_forRange (Invariant : Nat → State → Prop) {count : Nat}
    {body : Nat → Action State Unit} (initially : Invariant 0 state)
    (preserved : ∀ index current, index < count → Invariant index current →
      (body index current).Ends panics fun _ next => Invariant (index + 1) next) :
    (forRange count body state).Ends panics fun _ next => Invariant count next := by
  induction count with
  | zero => exact initially
  | succ count inductionHypothesis =>
      apply (ends_bind _ _).mpr
      have before := inductionHypothesis fun index current below holds =>
        preserved index current (Nat.lt_succ_of_lt below) holds
      exact before.mono fun _ middle holds =>
        preserved count middle (Nat.lt_succ_self count) holds

end Action

end Rules

-- A loop is never unrolled while a proof is being checked.
attribute [irreducible] Action.forRange

end Xv6.Library
