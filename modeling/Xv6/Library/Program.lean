import Mathlib.Tactic.Common

/-!
# Programs of atomic actions

A program is a tree of atomic actions on a shared state. Other processes may
run between two actions, and a crash may fall there. The rules below prove
both kinds of facts at once: a relation bounds what the others do, and a
condition holds in every state between two actions.
-/

namespace Xv6.Library

universe u v w

/-- What an atomic action does in a state. -/
inductive Outcome (State : Type u) (Value : Type v) where
  | blocked
  | panic (message : String)
  | done (value : Value) (next : State)

/-- The state an action ends in. -/
def Outcome.state? {State : Type u} {Value : Type v} : Outcome State Value → Option State
  | .done _ next => some next
  | _ => none

theorem Outcome.exists_done {State : Type u} {outcome : Outcome State Unit}
    (ends : outcome.state?.isSome = true) : ∃ next, outcome = .done () next := by
  cases outcome with
  | blocked => cases ends
  | panic message => cases ends
  | done value next => exact ⟨next, rfl⟩

/-- The message of a panic. -/
def Outcome.message? {State : Type u} {Value : Type v} : Outcome State Value → Option String
  | .panic message => some message
  | _ => none

theorem Outcome.panic_of_message {State : Type u} {Value : Type v}
    {outcome : Outcome State Value} {message : String}
    (same : outcome.message? = some message) : outcome = .panic message := by
  cases outcome with
  | blocked => cases same
  | panic other =>
      cases same
      rfl
  | done value next => cases same

/-- It does not panic, and an end satisfies the condition. -/
def Outcome.Keeps {State : Type u} {Value : Type v} (Condition : State → Prop) :
    Outcome State Value → Prop
  | .blocked => True
  | .panic _ => False
  | .done _ next => Condition next

theorem Outcome.Keeps.of_state {State : Type u} {Value : Type v} {Condition : State → Prop}
    {outcome : Outcome State Value} {next : State} (keeps : outcome.Keeps Condition)
    (ends : outcome.state? = some next) : Condition next := by
  cases outcome with
  | blocked => cases ends
  | panic message => cases ends
  | done value state =>
      cases ends
      exact keeps

/-- The same outcome, of an action on a part of the state. -/
def Outcome.mapState {Part : Type u} {Whole : Type v} {Value : Type w} (put : Part → Whole) :
    Outcome Part Value → Outcome Whole Value
  | .blocked => .blocked
  | .panic message => .panic message
  | .done value next => .done value (put next)

theorem Outcome.mapState_done {Part : Type u} {Whole : Type v} {Value : Type w} {put : Part → Whole}
    {outcome : Outcome Part Value} {value : Value} {whole : Whole}
    (done : outcome.mapState put = .done value whole) :
    ∃ next, outcome = .done value next ∧ whole = put next := by
  cases outcome with
  | blocked => cases done
  | panic message => cases done
  | done result next =>
      cases done
      exact ⟨next, rfl, rfl⟩

theorem Outcome.mapState_state {Part : Type u} {Whole : Type v} {Value : Type w} {put : Part → Whole}
    {outcome : Outcome Part Value} {whole : Whole}
    (ends : (outcome.mapState put).state? = some whole) :
    ∃ value next, outcome = .done value next ∧ whole = put next := by
  cases outcome with
  | blocked => cases ends
  | panic message => cases ends
  | done result next =>
      cases ends
      exact ⟨result, next, rfl, rfl⟩

inductive Program (State Value : Type) : Type 1 where
  | ret (value : Value)
  | act {Middle : Type} (action : State → Outcome State Middle)
      (next : Middle → Program State Value)

namespace Program

variable {State First Second Value : Type}

def bind : Program State First → (First → Program State Second) → Program State Second
  | ret value, next => next value
  | act action rest, next => act action fun middle => (rest middle).bind next

instance : Monad (Program State) where
  pure := ret
  bind := bind

/-- A program of one action. -/
def atom (action : State → Outcome State Value) : Program State Value :=
  act action ret

/-- Read something from the state. -/
def get (field : State → Value) : Program State Value :=
  atom fun state => .done (field state) state

/-- Change the state. -/
def modify (change : State → State) : Program State Unit :=
  atom fun state => .done () (change state)

/-- `for (index = …; index < bound; index++) body(index)` where the bound is read
again before every iteration. More than `fuel` iterations would leave the array
the loop runs over. -/
def forFrom (bound : State → Nat) (body : Nat → Program State Unit) :
    Nat → Nat → Program State Unit
  | 0, index =>
      atom fun state =>
        if index < bound state then .panic "index out of range" else .done () state
  | fuel + 1, index => do
      if ← get fun state => decide (index < bound state) then
        body index
        forFrom bound body fuel (index + 1)

/-- The next action of a program, and what is left of it. -/
def step : Program State Value → State → Outcome State (Program State Value)
  | ret _, _ => .blocked
  | act action next, state =>
      match action state with
      | .blocked => .blocked
      | .panic message => .panic message
      | .done middle after => .done (next middle) after

/-- Run a program with nobody else around. -/
def run : Program State Value → State → Outcome State Value
  | ret value, state => .done value state
  | act action next, state =>
      match action state with
      | .blocked => .blocked
      | .panic message => .panic message
      | .done middle after => (next middle).run after

/-- The states between the actions of an undisturbed run. -/
def states : Program State Value → State → List State
  | ret _, state => [state]
  | act action next, state =>
      state :: match action state with
        | .done middle after => (next middle).states after
        | _ => []

end Program

/-- What the other processes may do, and what must hold in every state. -/
structure Setting (State : Type) where
  rely : State → State → Prop
  always : State → Prop
  rely_refl : ∀ state, rely state state
  rely_trans : ∀ {first second third}, rely first second → rely second third →
    rely first third

namespace Setting

variable {State First Second Value : Type} (setting : Setting State)

/-- Whatever the others do in between, the program keeps the condition and ends
in a state with `post`. -/
def Safe (post : Value → State → Prop) : Program State Value → State → Prop
  | .ret value, state =>
      ∀ later, setting.rely state later → setting.always later ∧ post value later
  | .act action next, state =>
      ∀ later, setting.rely state later → setting.always later ∧
        ∀ middle after, action later = .done middle after → Safe post (next middle) after

variable {setting}

theorem Safe.later {post : Value → State → Prop} {program : Program State Value}
    {state later : State} (safe : setting.Safe post program state)
    (others : setting.rely state later) : setting.Safe post program later := by
  cases program with
  | ret value =>
      intro final more
      exact safe final (setting.rely_trans others more)
  | act action next =>
      intro final more
      exact safe final (setting.rely_trans others more)

theorem Safe.now {post : Value → State → Prop} {program : Program State Value}
    {state : State} (safe : setting.Safe post program state) : setting.always state := by
  cases program with
  | ret value => exact (safe state (setting.rely_refl state)).1
  | act action next => exact (safe state (setting.rely_refl state)).1

theorem Safe.step {post : Value → State → Prop} {program rest : Program State Value}
    {state after : State} (safe : setting.Safe post program state)
    (stepped : program.step state = .done rest after) : setting.Safe post rest after := by
  cases program with
  | ret value => cases stepped
  | act action next =>
      have following := (safe state (setting.rely_refl state)).2
      simp only [Program.step] at stepped
      cases outcome : action state with
      | blocked => simp [outcome] at stepped
      | panic message => simp [outcome] at stepped
      | done middle reached =>
          simp only [outcome, Outcome.done.injEq] at stepped
          rcases stepped with ⟨rfl, rfl⟩
          exact following middle reached outcome

theorem Safe.ret {post : Value → State → Prop} {value : Value} {state : State}
    (safe : setting.Safe post (.ret value) state) : post value state :=
  (safe state (setting.rely_refl state)).2

/-- An undisturbed run that ends, ends with the postcondition. -/
theorem Safe.run {post : Value → State → Prop} {program : Program State Value}
    {state final : State} {value : Value} (safe : setting.Safe post program state)
    (ended : program.run state = .done value final) : post value final := by
  induction program generalizing state with
  | ret returned =>
      simp only [Program.run, Outcome.done.injEq] at ended
      rcases ended with ⟨rfl, rfl⟩
      exact safe.ret
  | act action next inductionHypothesis =>
      simp only [Program.run] at ended
      cases outcome : action state with
      | blocked => simp [outcome] at ended
      | panic message => simp [outcome] at ended
      | done middle after =>
          simp only [outcome] at ended
          have stepped : (Program.act action next).step state = .done (next middle) after := by
            simp [Program.step, outcome]
          exact inductionHypothesis middle (safe.step stepped) ended

/-- Every state of an undisturbed run satisfies the condition. -/
theorem Safe.states {post : Value → State → Prop} {program : Program State Value}
    {state visited : State} (safe : setting.Safe post program state)
    (membership : visited ∈ program.states state) : setting.always visited := by
  induction program generalizing state with
  | ret returned =>
      simp only [Program.states, List.mem_singleton] at membership
      subst membership
      exact safe.now
  | act action next inductionHypothesis =>
      simp only [Program.states, List.mem_cons] at membership
      rcases membership with rfl | membership
      · exact safe.now
      · cases outcome : action state with
        | blocked => simp [outcome] at membership
        | panic message => simp [outcome] at membership
        | done middle after =>
            simp only [outcome] at membership
            have stepped : (Program.act action next).step state = .done (next middle) after := by
              simp [Program.step, outcome]
            exact inductionHypothesis middle (safe.step stepped) membership

theorem Safe.bind {middle : First → State → Prop} {post : Second → State → Prop}
    {program : Program State First} {next : First → Program State Second} {state : State}
    (safe : setting.Safe middle program state)
    (following : ∀ value after, middle value after → setting.Safe post (next value) after) :
    setting.Safe post (program.bind next) state := by
  induction program generalizing state with
  | ret value => exact following value state safe.ret
  | act action rest inductionHypothesis =>
      intro later others
      refine ⟨(safe later others).1, ?_⟩
      intro value after done
      exact inductionHypothesis value ((safe later others).2 value after done)

variable (setting)

/-- The others keep it, and it is one of the states the condition allows. -/
structure Stable (assertion : State → Prop) : Prop where
  kept : ∀ {state later}, assertion state → setting.rely state later → assertion later
  allowed : ∀ {state}, assertion state → setting.always state

def Triple (pre : State → Prop) (program : Program State Value)
    (post : Value → State → Prop) : Prop :=
  ∀ state, pre state → setting.Safe post program state

variable {setting}

theorem Triple.pure {pre : State → Prop} {post : Value → State → Prop} {value : Value}
    (stable : setting.Stable (post value)) (holds : ∀ state, pre state → post value state) :
    setting.Triple pre (Pure.pure value) post := by
  intro state before later others
  have kept := stable.kept (holds state before) others
  exact ⟨stable.allowed kept, kept⟩

theorem Triple.bind {pre : State → Prop} {middle : First → State → Prop}
    {post : Second → State → Prop} {program : Program State First}
    {next : First → Program State Second} (first : setting.Triple pre program middle)
    (second : ∀ value, setting.Triple (middle value) (next value) post) :
    setting.Triple pre (program >>= next) post := by
  intro state holds
  exact (first state holds).bind fun value after reached => second value after reached

/-- What follows a program that never ends does not matter. -/
theorem Triple.never {pre : State → Prop} {program : Program State First}
    (first : setting.Triple pre program fun _ _ => False) (next : First → Program State Second)
    (post : Second → State → Prop) : setting.Triple pre (program >>= next) post :=
  Triple.bind first fun _ _ impossible => impossible.elim

theorem Triple.atom {pre : State → Prop} {post : Value → State → Prop}
    {action : State → Outcome State Value} (before : setting.Stable pre)
    (after : ∀ value, setting.Stable (post value))
    (effect : ∀ state value next, pre state → action state = .done value next →
      post value next) :
    setting.Triple pre (Program.atom action) post := by
  intro state holds later others
  refine ⟨before.allowed (before.kept holds others), ?_⟩
  intro value next done
  exact Triple.pure (after value) (fun _ reached => reached) next
    (effect later value next (before.kept holds others) done)

theorem Triple.get {pre : State → Prop} {field : State → Value} (before : setting.Stable pre)
    {value : Value} (fixed : ∀ state, pre state → field state = value) :
    setting.Triple pre (Program.get field) fun read state => read = value ∧ pre state := by
  refine Triple.atom before ?_ ?_
  · intro read
    constructor
    · rintro state later ⟨rfl, holds⟩ others
      exact ⟨rfl, before.kept holds others⟩
    · rintro state ⟨_, holds⟩
      exact before.allowed holds
  · intro state read next holds done
    simp only [Outcome.done.injEq] at done
    rcases done with ⟨rfl, rfl⟩
    exact ⟨fixed state holds, holds⟩

/-- Read something the precondition determines. -/
theorem Triple.bind_get {pre : State → Prop} {post : Second → State → Prop}
    {field : State → First} {next : First → Program State Second} (before : setting.Stable pre)
    (value : First) (fixed : ∀ state, pre state → field state = value)
    (rest : setting.Triple pre (next value) post) :
    setting.Triple pre (Program.get field >>= next) post := by
  refine Triple.bind (Triple.get before fixed) ?_
  rintro read state ⟨rfl, holds⟩
  exact rest state holds

theorem Triple.consequence {pre stronger : State → Prop} {post weaker : Value → State → Prop}
    {program : Program State Value} (triple : setting.Triple pre program post)
    (before : ∀ state, stronger state → pre state)
    (stable : ∀ value, setting.Stable (weaker value))
    (after : ∀ value state, post value state → weaker value state) :
    setting.Triple stronger program weaker := by
  intro state holds
  have bound : program.bind Program.ret = program := by
    clear triple
    induction program with
    | ret value => rfl
    | act action next inductionHypothesis =>
        simp only [Program.bind]
        congr
        funext middle
        exact inductionHypothesis middle
  rw [← bound]
  refine (triple state (before state holds)).bind ?_
  intro value reached ended
  exact Triple.pure (stable value) (after value) reached ended

/-- The loop rule: nobody changes the bound, and each iteration takes the
invariant at its index to the invariant at the next one. -/
theorem Triple.forFrom (Invariant : Nat → State → Prop) {bound : State → Nat} {count : Nat}
    {body : Nat → Program State Unit}
    (fixed : ∀ index state, Invariant index state → bound state = count)
    (stable : ∀ index ≤ count, setting.Stable (Invariant index))
    (iteration : ∀ index < count, setting.Triple (Invariant index) (body index)
      fun _ => Invariant (index + 1))
    (fuel : Nat) {index : Nat} (started : index ≤ count) :
    setting.Triple (Invariant index) (Program.forFrom bound body fuel index)
      fun _ => Invariant count := by
  have decision : ∀ index state, Invariant index state →
      decide (index < bound state) = decide (index < count) := by
    intro index state holds
    simp only [fixed index state holds]
  induction fuel generalizing index with
  | zero =>
      refine Triple.atom (stable index started) (fun _ => stable count (Nat.le_refl count)) ?_
      intro state value next holds done
      by_cases below : index < bound state
      · simp [below] at done
      · simp only [below, if_false, Outcome.done.injEq, true_and] at done
        subst done
        have reached := fixed index state holds
        have last : index = count := by omega
        exact last ▸ holds
  | succ fuel inductionHypothesis =>
      have test := Triple.get
        (stable index started) (decision index)
      refine Triple.bind test ?_
      intro continues state holds
      rcases holds with ⟨rfl, holds⟩
      by_cases below : index < count
      · simp only [below, decide_true, if_true]
        exact Triple.bind (iteration index below) (fun _ => inductionHypothesis below) state holds
      · have last : index = count := by omega
        simp only [below, decide_false, Bool.false_eq_true, if_false]
        exact Triple.pure (stable count (Nat.le_refl count)) (fun _ reached => last ▸ reached)
          state holds

end Setting

end Xv6.Library
