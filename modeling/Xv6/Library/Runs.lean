import Mathlib.Data.List.Induction
import Mathlib.Tactic.Common

/-!
# Runs of a partial step function

A system is a partial function from a state and an event to the next state.
The events carry every choice that is not the system's own: which process
moves, what arrives from outside, which of several candidates is taken.
A run is the list of its events, oldest first.
-/

namespace Xv6.Library

universe u v

variable {State : Type u} {Event : Type v}

/-- Take the events one after the other; `none` as soon as one is not enabled. -/
def runs (step : State → Event → Option State) : State → List Event → Option State
  | state, [] => some state
  | state, event :: rest =>
      match step state event with
      | none => none
      | some next => runs step next rest

@[simp]
theorem runs_nil (step : State → Event → Option State) (state : State) :
    runs step state [] = some state := rfl

theorem runs_cons (step : State → Event → Option State) (state : State)
    (event : Event) (rest : List Event) :
    runs step state (event :: rest) =
      (step state event).bind fun next => runs step next rest := by
  simp only [runs]
  cases step state event <;> rfl

/-- What takes more steps has more runs. -/
theorem runs_mono {step larger : State → Event → Option State}
    (more : ∀ {state event next}, step state event = some next → larger state event = some next)
    {start final : State} {events : List Event} (ran : runs step start events = some final) :
    runs larger start events = some final := by
  induction events generalizing start with
  | nil => exact ran
  | cons event rest inductionHypothesis =>
      rw [runs_cons] at ran ⊢
      obtain ⟨middle, stepped, rested⟩ := Option.bind_eq_some_iff.mp ran
      rw [more stepped]
      exact inductionHypothesis rested

theorem runs_append (step : State → Event → Option State) (state : State)
    (first second : List Event) :
    runs step state (first ++ second) =
      (runs step state first).bind fun middle => runs step middle second := by
  induction first generalizing state with
  | nil => rfl
  | cons event rest inductionHypothesis =>
      simp only [List.cons_append, runs_cons]
      cases step state event with
      | none => rfl
      | some next => simpa using inductionHypothesis next

theorem runs_concat (step : State → Event → Option State) (state : State)
    (events : List Event) (event : Event) :
    runs step state (events ++ [event]) =
      (runs step state events).bind fun middle => step middle event := by
  rw [runs_append]
  congr 1
  funext middle
  rw [runs_cons]
  cases step middle event <;> rfl

/-- The run of a prefix exists when the whole run does. -/
theorem runs_prefix {step : State → Event → Option State} {state final : State}
    {first second : List Event}
    (whole : runs step state (first ++ second) = some final) :
    ∃ middle, runs step state first = some middle ∧
      runs step middle second = some final := by
  rw [runs_append] at whole
  exact Option.bind_eq_some_iff.mp whole

/-- What holds at the start and is preserved by every step, possibly in
relation to the events so far, holds at the end of every run. -/
theorem runs_invariant {step : State → Event → Option State} {start : State}
    (Invariant : List Event → State → Prop)
    (initially : Invariant [] start)
    (preserved : ∀ past state event next, Invariant past state →
      step state event = some next → Invariant (past ++ [event]) next)
    {events : List Event} {final : State}
    (run : runs step start events = some final) : Invariant events final := by
  induction events using List.reverseRecOn generalizing final with
  | nil =>
      cases run
      exact initially
  | append_singleton past event inductionHypothesis =>
      obtain ⟨middle, reached, last⟩ := runs_prefix run
      rw [runs_cons] at last
      obtain ⟨next, stepped, rfl⟩ : ∃ next, step middle event = some next ∧ next = final := by
        simpa using last
      exact preserved past middle event next (inductionHypothesis reached) stepped

/-- Every event of a run meets a condition on the state it is taken in. -/
def Throughout (step : State → Event → Option State) (Condition : State → Event → Prop) :
    State → List Event → Prop
  | _, [] => True
  | state, event :: rest => Condition state event ∧
      ∀ next, step state event = some next → Throughout step Condition next rest

instance Throughout.decidable {step : State → Event → Option State}
    {Condition : State → Event → Prop} [∀ state event, Decidable (Condition state event)] :
    (start : State) → (events : List Event) → Decidable (Throughout step Condition start events)
  | _, [] => isTrue trivial
  | start, event :: rest =>
      match stepped : step start event with
      | none => decidable_of_iff (Condition start event)
          ⟨fun meets => ⟨meets, fun _ done => by rw [stepped] at done; cases done⟩, And.left⟩
      | some next =>
          haveI := @Throughout.decidable step Condition _ next rest
          decidable_of_iff (Condition start event ∧ Throughout step Condition next rest)
            ⟨fun both => ⟨both.1, fun _ done => by rw [stepped] at done; cases done; exact both.2⟩,
              fun both => ⟨both.1, both.2 next stepped⟩⟩

theorem Throughout.mono {step : State → Event → Option State}
    {Condition Weaker : State → Event → Prop} {start : State} {events : List Event}
    (throughout : Throughout step Condition start events)
    (implies : ∀ state event, Condition state event → Weaker state event) :
    Throughout step Weaker start events := by
  induction events generalizing start with
  | nil => trivial
  | cons event rest inductionHypothesis =>
      exact ⟨implies start event throughout.1,
        fun next stepped => inductionHypothesis (throughout.2 next stepped)⟩

theorem throughout_of {step : State → Event → Option State} {Condition : State → Event → Prop}
    (always : ∀ state event, Condition state event) (start : State) (events : List Event) :
    Throughout step Condition start events := by
  induction events generalizing start with
  | nil => trivial
  | cons event rest inductionHypothesis =>
      exact ⟨always start event, fun next _ => inductionHypothesis next⟩

/-- What steps that meet the condition preserve holds after a run of such steps. -/
theorem runs_invariant_throughout {step : State → Event → Option State} {start final : State}
    {Condition : State → Event → Prop} (Invariant : State → Prop) {events : List Event}
    (initially : Invariant start) (preserved : ∀ state event next, Invariant state →
      Condition state event → step state event = some next → Invariant next)
    (throughout : Throughout step Condition start events)
    (run : runs step start events = some final) : Invariant final := by
  induction events generalizing start with
  | nil =>
      cases run
      exact initially
  | cons event rest inductionHypothesis =>
      rw [runs_cons] at run
      rcases Option.bind_eq_some_iff.mp run with ⟨next, stepped, after⟩
      have holds := preserved start event next initially throughout.1 stepped
      exact inductionHypothesis holds (throughout.2 next stepped) after

/-- A run that can be computed exists. -/
theorem runs_getD {step : State → Event → Option State} {start : State} {events : List Event}
    (possible : (runs step start events).isSome = true) (default : State) :
    runs step start events = some ((runs step start events).getD default) := by
  cases reached : runs step start events with
  | none => simp [reached] at possible
  | some state => rfl

end Xv6.Library
