import Xv6.Library.Program
import Xv6.Library.Runs

/-!
# Programs in parallel

Any number of processes run programs of atomic actions on one state. Each has a
view of the state, its own part of it, which the others may change in known ways
only. A program is checked against the view of its process and an invariant of the
whole state, and what is checked holds whatever the order of the actions is.
-/

namespace Xv6.Library

variable {Proc State View Value First Second Call : Type}

/-- What the processes share. -/
structure Sharing (Proc State View : Type) where
  invariant : State → Prop
  view : Proc → State → View
  /-- What the others may do to the view of a process. -/
  rely : View → View → Prop
  rely_refl : ∀ view, rely view view
  rely_trans : ∀ {first second third}, rely first second → rely second third → rely first third
  mayPanic : String → Prop

namespace Sharing

variable (sharing : Sharing Proc State View)

/-- One action of `p`, in any state in which its view is as given: the invariant
and the views of the others are kept, and `post` holds of the new view. -/
def Action (p : Proc) (post : Value → View → Prop) (action : State → Outcome State Value)
    (view : View) : Prop :=
  ∀ state, sharing.invariant state → sharing.view p state = view →
    (∀ message, action state = .panic message → sharing.mayPanic message) ∧
    ∀ value after, action state = .done value after → sharing.invariant after ∧
      (∀ q, q ≠ p → sharing.rely (sharing.view q state) (sharing.view q after)) ∧
      post value (sharing.view p after)

/-- Every action of the program is right, and it ends with `post`. -/
def Secures (p : Proc) (post : Value → View → Prop) : Program State Value → View → Prop
  | .ret value, view => ∀ later, sharing.rely view later → post value later
  | .act action next, view => ∀ later, sharing.rely view later →
      sharing.Action p (fun middle => Secures p post (next middle)) action later

variable {sharing} {p : Proc} {view : View}

theorem Secures.later {post : Value → View → Prop} {program : Program State Value} {later : View}
    (secures : sharing.Secures p post program view) (others : sharing.rely view later) :
    sharing.Secures p post program later := by
  cases program with
  | ret value => exact fun final more => secures final (sharing.rely_trans others more)
  | act action next => exact fun final more => secures final (sharing.rely_trans others more)

theorem Secures.bind {middle : First → View → Prop} {post : Second → View → Prop}
    {program : Program State First} {next : First → Program State Second}
    (secures : sharing.Secures p middle program view)
    (following : ∀ value view, middle value view → sharing.Secures p post (next value) view) :
    sharing.Secures p post (program >>= next) view := by
  induction program generalizing view with
  | ret value => exact following value view (secures view (sharing.rely_refl view))
  | act action rest inductionHypothesis =>
      intro later others state holds seen
      rcases secures later others state holds seen with ⟨panics, ends⟩
      refine ⟨panics, fun value after done => ?_⟩
      rcases ends value after done with ⟨kept, framed, more⟩
      exact ⟨kept, framed, inductionHypothesis value more⟩

theorem Secures.mono {post weaker : Value → View → Prop} {program : Program State Value}
    (secures : sharing.Secures p post program view)
    (follows : ∀ value view, post value view → weaker value view) :
    sharing.Secures p weaker program view := by
  induction program generalizing view with
  | ret value => exact fun later others => follows value later (secures later others)
  | act action rest inductionHypothesis =>
      intro later others state holds seen
      rcases secures later others state holds seen with ⟨panics, ends⟩
      refine ⟨panics, fun value after done => ?_⟩
      rcases ends value after done with ⟨kept, framed, more⟩
      exact ⟨kept, framed, inductionHypothesis value more⟩

/-- The views that the others leave alone. -/
def Steady (sharing : Sharing Proc State View) (view : View) : Prop :=
  ∀ later, sharing.rely view later → later = view

theorem Secures.ret {post : Value → View → Prop} {value : Value} (steady : sharing.Steady view)
    (holds : post value view) : sharing.Secures p post (.ret value) view := by
  intro later others
  rw [steady later others]
  exact holds

theorem Secures.atom {post : Value → View → Prop} {action : State → Outcome State Value}
    (steady : sharing.Steady view) (secured : sharing.Action p post action view)
    (after : ∀ value later, post value later → sharing.Steady later) :
    sharing.Secures p post (Program.atom action) view := by
  intro later others
  rw [steady later others]
  intro state holds seen
  rcases secured state holds seen with ⟨panics, ends⟩
  refine ⟨panics, fun value next done => ?_⟩
  rcases ends value next done with ⟨kept, framed, reached⟩
  exact ⟨kept, framed, Secures.ret (after value _ reached) reached⟩

/-- An action, and then the rest of the program. -/
theorem Secures.act {middle : First → View → Prop} {post : Second → View → Prop}
    {action : State → Outcome State First} {next : First → Program State Second}
    (steady : sharing.Steady view) (secured : sharing.Action p middle action view)
    (following : ∀ value later, middle value later → sharing.Secures p post (next value) later) :
    sharing.Secures p post (Program.atom action >>= next) view := by
  intro later others
  rw [steady later others]
  intro state holds seen
  rcases secured state holds seen with ⟨panics, ends⟩
  refine ⟨panics, fun value after done => ?_⟩
  rcases ends value after done with ⟨kept, framed, reached⟩
  exact ⟨kept, framed, following value _ reached⟩

end Sharing

/-! ## The processes together -/

/-- A shared state, and what each process still has to do. -/
structure Parallel (Proc State : Type) where
  state : State
  running : Proc → Program State Unit

inductive Parallel.Event (Proc Call : Type) where
  | call (p : Proc) (call : Call)
  | step (p : Proc)

namespace Parallel

section Steps

variable [DecidableEq Proc] (body : Proc → Call → Program State Unit)

/-- A process that has nothing to do makes a call; one that has takes a step. -/
def next (parallel : Parallel Proc State) : Event Proc Call → Option (Parallel Proc State)
  | .call p call =>
      match parallel.running p with
      | .ret _ => some { parallel with running := Function.update parallel.running p (body p call) }
      | .act _ _ => none
  | .step p =>
      match (parallel.running p).step parallel.state with
      | .done rest state =>
          some { state := state, running := Function.update parallel.running p rest }
      | _ => none

end Steps

/-- The invariant holds, and what is left of every program is right. -/
structure Good (sharing : Sharing Proc State View) (ready : Proc → View → Prop)
    (parallel : Parallel Proc State) : Prop where
  invariant : sharing.invariant parallel.state
  secures : ∀ p, sharing.Secures p (fun _ => ready p) (parallel.running p)
    (sharing.view p parallel.state)

variable {sharing : Sharing Proc State View} {ready : Proc → View → Prop}
  {parallel later : Parallel Proc State}

section Runs

variable [DecidableEq Proc] {body : Proc → Call → Program State Unit}

theorem Good.step {event : Event Proc Call} (good : Good sharing ready parallel)
    (calls : ∀ p call view, ready p view →
      sharing.Secures p (fun _ => ready p) (body p call) view)
    (stepped : parallel.next body event = some later) : Good sharing ready later := by
  cases event with
  | call p call =>
      simp only [next] at stepped
      split at stepped
      · rename_i value idle
        cases stepped
        refine ⟨good.invariant, fun q => ?_⟩
        by_cases here : q = p
        · subst here
          have before := good.secures q
          rw [idle] at before
          simp only [Function.update_self]
          exact calls q call _ (before _ (sharing.rely_refl _))
        · simp only [Function.update_of_ne here]
          exact good.secures q
      · cases stepped
  | step p =>
      simp only [next] at stepped
      have before := good.secures p
      cases program : parallel.running p with
      | ret value => simp [program, Program.step] at stepped
      | act action rest =>
          rw [program] at before
          rcases before _ (sharing.rely_refl _) parallel.state good.invariant rfl with ⟨-, ends⟩
          cases outcome : action parallel.state with
          | blocked => simp [program, Program.step, outcome] at stepped
          | panic message => simp [program, Program.step, outcome] at stepped
          | done value state =>
              simp only [program, Program.step, outcome, Option.some.injEq] at stepped
              subst stepped
              rcases ends value state outcome with ⟨kept, framed, secured⟩
              refine ⟨kept, fun q => ?_⟩
              by_cases here : q = p
              · subst here
                simpa only [Function.update_self] using secured
              · simp only [Function.update_of_ne here]
                exact (good.secures q).later (framed q here)

theorem Good.run {start : Parallel Proc State} {events : List (Event Proc Call)}
    (good : Good sharing ready start)
    (calls : ∀ p call view, ready p view →
      sharing.Secures p (fun _ => ready p) (body p call) view)
    (ran : runs (next body) start events = some parallel) : Good sharing ready parallel :=
  runs_invariant (fun _ current => Good sharing ready current) good
    (fun _ _ _ _ good stepped => good.step calls stepped) ran

end Runs

/-- A step that panics does so with a message that is allowed. -/
theorem Good.panics {p : Proc} {message : String} (good : Good sharing ready parallel)
    (panics : (parallel.running p).step parallel.state = .panic message) :
    sharing.mayPanic message := by
  have before := good.secures p
  cases program : parallel.running p with
  | ret value => simp [program, Program.step] at panics
  | act action rest =>
      rw [program] at before panics
      rcases before _ (sharing.rely_refl _) parallel.state good.invariant rfl with ⟨none, -⟩
      cases outcome : action parallel.state with
      | blocked => simp [Program.step, outcome] at panics
      | panic other =>
          simp only [Program.step, outcome, Outcome.panic.injEq] at panics
          exact none message (panics ▸ outcome)
      | done value state => simp [Program.step, outcome] at panics

end Parallel

end Xv6.Library
