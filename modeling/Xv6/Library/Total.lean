import Xv6.Library.Action

/-!
# Undisturbed runs and frames

Rules for a program that runs with nobody else around and has to end. Then the
frame of a program that others interleave with: a relation that every action
keeps holds from the start to the end, whatever else is known of the program.
-/

namespace Xv6.Library

variable {State First Second Value : Type} {panics : String → Prop}

namespace Program

/-- The undisturbed run ends, or panics as `panics` says. -/
def Ends (panics : String → Prop) (post : Value → State → Prop) (program : Program State Value)
    (state : State) : Prop :=
  (program.run state).Ends panics post

theorem run_bind (program : Program State First) (next : First → Program State Second)
    (state : State) :
    (program >>= next).run state =
      match program.run state with
      | .blocked => .blocked
      | .panic message => .panic message
      | .done value middle => (next value).run middle := by
  change (program.bind next).run state = _
  induction program generalizing state with
  | ret value => rfl
  | act action rest inductionHypothesis =>
      simp only [Program.bind, run]
      cases action state with
      | blocked => rfl
      | panic message => rfl
      | done middle after => exact inductionHypothesis middle after

theorem Ends.bind {middle : First → State → Prop} {post : Second → State → Prop}
    {program : Program State First} {next : First → Program State Second} {state : State}
    (first : program.Ends panics middle state)
    (second : ∀ value after, middle value after → (next value).Ends panics post after) :
    (program >>= next).Ends panics post state := by
  unfold Ends at first ⊢
  rw [run_bind]
  cases done : program.run state with
  | blocked =>
      rw [done] at first
      exact first
  | panic message =>
      rw [done] at first
      exact first
  | done value after =>
      rw [done] at first
      exact second value after first

theorem ends_pure {post : Value → State → Prop} {value : Value} {state : State}
    (holds : post value state) : (pure value : Program State Value).Ends panics post state :=
  holds

theorem ends_atom {post : Value → State → Prop} {action : State → Outcome State Value}
    {state : State} (ends : (action state).Ends panics post) :
    (atom action).Ends panics post state := by
  unfold Ends atom
  simp only [run]
  cases done : action state with
  | blocked =>
      rw [done] at ends
      exact ends
  | panic message =>
      rw [done] at ends
      exact ends
  | done value next =>
      rw [done] at ends
      exact ends

theorem ends_get {post : Second → State → Prop} {field : State → First}
    {next : First → Program State Second} {state : State}
    (rest : (next (field state)).Ends panics post state) :
    (get field >>= next).Ends panics post state := by
  unfold Ends
  rw [run_bind]
  exact rest

/-- One action, which ends. -/
theorem ends_step {post : Second → State → Prop} {action : State → Outcome State First}
    {next : First → Program State Second} {state after : State} {value : First}
    (done : action state = .done value after) (rest : (next value).Ends panics post after) :
    (atom action >>= next).Ends panics post state := by
  unfold Ends
  rw [run_bind]
  simp only [atom, run, done]
  exact rest

/-- One action, which panics. -/
theorem ends_stop {post : Second → State → Prop} {action : State → Outcome State First}
    {next : First → Program State Second} {state : State} {message : String}
    (stops : action state = .panic message) (allowed : panics message) :
    (atom action >>= next).Ends panics post state := by
  unfold Ends
  rw [run_bind]
  simp only [atom, run, stops]
  exact allowed

theorem Ends.mono {post weaker : Value → State → Prop} {program : Program State Value}
    {state : State} (ends : program.Ends panics post state)
    (implies : ∀ value after, post value after → weaker value after) :
    program.Ends panics weaker state :=
  Outcome.Ends.mono ends implies

/-- The loop rule, with enough room in the array. -/
theorem ends_forFrom (Invariant : Nat → State → Prop) {bound : State → Nat} {count : Nat}
    {body : Nat → Program State Unit}
    (fixed : ∀ index state, Invariant index state → bound state = count)
    (iteration : ∀ index state, index < count → Invariant index state →
      (body index).Ends panics (fun _ => Invariant (index + 1)) state)
    {fuel index : Nat} {state : State} (started : index ≤ count) (room : count ≤ index + fuel)
    (holds : Invariant index state) :
    (forFrom bound body fuel index).Ends panics (fun _ => Invariant count) state := by
  induction fuel generalizing index state with
  | zero =>
      have last : index = count := by omega
      subst last
      apply ends_atom
      rw [fixed index state holds, if_neg (Nat.lt_irrefl _)]
      exact holds
  | succ fuel inductionHypothesis =>
      apply ends_get
      rw [fixed index state holds]
      by_cases below : index < count
      · simp only [below, decide_true, if_true]
        apply (iteration index state below holds).bind
        intro _ after next
        exact inductionHypothesis below (by omega) next
      · have last : index = count := by omega
        subst last
        simp only [below, decide_false, Bool.false_eq_true, if_false]
        exact ends_pure holds

/-! ## Assertions -/

/-- It is `plain` with tests that stop with `message` when they fail. -/
def Asserts (message : String) (program plain : Program State Value) : Prop :=
  ∀ state, program.run state = .panic message ∨ program.run state = plain.run state

variable {message : String}

theorem asserts_refl (program : Program State Value) : Asserts message program program :=
  fun _ => Or.inr rfl

theorem Asserts.bind {program plain : Program State First}
    {next plainNext : First → Program State Second} (first : Asserts message program plain)
    (second : ∀ value, Asserts message (next value) (plainNext value)) :
    Asserts message (program >>= next) (plain >>= plainNext) := by
  intro state
  rw [run_bind, run_bind]
  obtain stopped | same := first state
  · exact Or.inl (by rw [stopped])
  · rw [same]
    cases plain.run state with
    | blocked => exact Or.inr rfl
    | panic other => exact Or.inr rfl
    | done value middle => exact second value middle

/-- A test between two statements. -/
theorem Asserts.test {test : State → Prop} [DecidablePred test]
    {next plain : Program State Value} (rest : Asserts message next plain) :
    Asserts message
      (atom (fun state => if test state then .done () state else .panic message) >>=
        fun _ => next) plain := by
  intro state
  rw [run_bind]
  by_cases passed : test state
  · simp only [atom, run, if_pos passed]
    exact rest state
  · simp only [atom, run, if_neg passed]
    exact Or.inl trivial

theorem Asserts.forFrom {bound : State → Nat} {body plain : Nat → Program State Unit}
    (each : ∀ index, Asserts message (body index) (plain index)) (fuel index : Nat) :
    Asserts message (forFrom bound body fuel index) (forFrom bound plain fuel index) := by
  induction fuel generalizing index with
  | zero => exact asserts_refl _
  | succ fuel inductionHypothesis =>
      apply (asserts_refl _).bind
      intro continues
      cases continues with
      | true => exact (each index).bind fun _ => inductionHypothesis (index + 1)
      | false => exact asserts_refl _

/-- Tests that never fail change nothing. -/
theorem Asserts.run_eq {program plain : Program State Value} {post : Value → State → Prop}
    {state : State} (asserts : Asserts message program plain) (not : ¬panics message)
    (ends : program.Ends panics post state) : program.run state = plain.run state := by
  obtain stopped | same := asserts state
  · unfold Ends at ends
    rw [stopped] at ends
    exact absurd ends not
  · exact same

/-! ## Relations that every action keeps -/

def Steps (relation : State → State → Prop) : Program State Value → Prop
  | ret _ => True
  | act action next =>
      (∀ state value after, action state = .done value after → relation state after) ∧
        ∀ value, Steps relation (next value)

variable {relation : State → State → Prop}

theorem steps_atom {action : State → Outcome State Value}
    (keeps : ∀ state value after, action state = .done value after → relation state after) :
    Steps relation (atom action) :=
  ⟨keeps, fun _ => trivial⟩

theorem steps_get (refl : ∀ state, relation state state) (field : State → Value) :
    Steps relation (get field) := by
  apply steps_atom
  rintro state value after ⟨⟩
  exact refl state

theorem Steps.bind {program : Program State First} {next : First → Program State Second}
    (first : Steps relation program) (second : ∀ value, Steps relation (next value)) :
    Steps relation (program >>= next) := by
  change Steps relation (program.bind next)
  induction program with
  | ret value => exact second value
  | act action rest inductionHypothesis =>
      exact ⟨first.1, fun value => inductionHypothesis value (first.2 value)⟩

/-- What each action keeps, an undisturbed run keeps. -/
theorem Steps.run (refl : ∀ state, relation state state)
    (trans : ∀ {first second third}, relation first second → relation second third →
      relation first third) {program : Program State Value} (steps : Steps relation program)
    {state final : State} {value : Value} (ended : program.run state = .done value final) :
    relation state final := by
  induction program generalizing state with
  | ret returned =>
      cases ended
      exact refl _
  | act action next inductionHypothesis =>
      simp only [Program.run] at ended
      cases done : action state with
      | blocked =>
          rw [done] at ended
          cases ended
      | panic message =>
          rw [done] at ended
          cases ended
      | done middle after =>
          rw [done] at ended
          exact trans (steps.1 state middle after done)
            (inductionHypothesis middle (steps.2 middle) ended)

theorem Steps.forFrom (refl : ∀ state, relation state state) {bound : State → Nat}
    {body : Nat → Program State Unit} (each : ∀ index, Steps relation (body index))
    (fuel index : Nat) : Steps relation (forFrom bound body fuel index) := by
  induction fuel generalizing index with
  | zero =>
      apply steps_atom
      intro state value after done
      split at done
      · cases done
      · cases done
        exact refl state
  | succ fuel inductionHypothesis =>
      apply (steps_get refl _).bind
      intro continues
      cases continues with
      | true => exact (each index).bind fun _ => inductionHypothesis (index + 1)
      | false => trivial

end Program

namespace Setting

variable (setting : Setting State) {relation : State → State → Prop}

/-- The others keep the relation too. -/
def restrict (relation : State → State → Prop) (refl : ∀ state, relation state state)
    (trans : ∀ {first second third}, relation first second → relation second third →
      relation first third) : Setting State where
  rely first second := setting.rely first second ∧ relation first second
  always := setting.always
  rely_refl state := ⟨setting.rely_refl state, refl state⟩
  rely_trans first second := ⟨setting.rely_trans first.1 second.1, trans first.2 second.2⟩

variable {setting} {refl : ∀ state, relation state state}
  {trans : ∀ {first second third}, relation first second → relation second third →
    relation first third}

/-- The frame rule: what the relation keeps is kept. -/
theorem Safe.frame {kept : State → Prop} {post : Value → State → Prop}
    {program : Program State Value} {state : State} (safe : setting.Safe post program state)
    (steps : program.Steps relation)
    (keeps : ∀ {before later}, kept before → relation before later → kept later)
    (holds : kept state) :
    (setting.restrict relation refl trans).Safe
      (fun value final => post value final ∧ kept final) program state := by
  induction program generalizing state with
  | ret value =>
      rintro later ⟨others, since⟩
      obtain ⟨allowed, reached⟩ := safe later others
      exact ⟨allowed, reached, keeps holds since⟩
  | act action next inductionHypothesis =>
      rintro later ⟨others, since⟩
      refine ⟨(safe later others).1, ?_⟩
      intro middle after done
      have still := keeps (keeps holds since) (steps.1 later middle after done)
      exact inductionHypothesis middle ((safe later others).2 middle after done) (steps.2 middle)
        still

theorem Triple.frame {pre kept : State → Prop} {post : Value → State → Prop}
    {program : Program State Value} (triple : setting.Triple pre program post)
    (steps : program.Steps relation)
    (keeps : ∀ {before later}, kept before → relation before later → kept later) :
    (setting.restrict relation refl trans).Triple (fun state => pre state ∧ kept state) program
      fun value state => post value state ∧ kept state :=
  fun state holds => (triple state holds.1).frame steps keeps holds.2

theorem Safe.mono {post weaker : Value → State → Prop} {program : Program State Value}
    {state : State} (safe : setting.Safe post program state)
    (implies : ∀ value final, post value final → weaker value final) :
    setting.Safe weaker program state := by
  induction program generalizing state with
  | ret value =>
      intro later others
      exact ⟨(safe later others).1, implies value later (safe later others).2⟩
  | act action next inductionHypothesis =>
      intro later others
      refine ⟨(safe later others).1, ?_⟩
      intro middle after done
      exact inductionHypothesis middle ((safe later others).2 middle after done)

theorem Stable.frame {assertion kept : State → Prop} (stable : setting.Stable assertion)
    (keeps : ∀ {before later}, kept before → relation before later → kept later) :
    (setting.restrict relation refl trans).Stable fun state => assertion state ∧ kept state where
  kept holds others := ⟨stable.kept holds.1 others.1, keeps holds.2 others.2⟩
  allowed holds := stable.allowed holds.1

/-- What one action does. -/
theorem Triple.effect {pre : State → Prop} {post : Value → State → Prop}
    {action : State → Outcome State Value} (triple : setting.Triple pre (Program.atom action) post)
    {state next : State} {value : Value} (holds : pre state)
    (done : action state = .done value next) : post value next :=
  (((triple state holds) state (setting.rely_refl state)).2 value next done).ret

end Setting

end Xv6.Library
