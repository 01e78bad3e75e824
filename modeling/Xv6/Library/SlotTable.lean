import Mathlib.Logic.Function.Basic
import Mathlib.Tactic.Common

/-!
# Finite maps in tables of slots

Every slot is empty or binds a key to a value. A binding goes into any empty
slot, and clearing its slot removes it. As long as no key is bound twice, the
table is a finite map, wherever the bindings are.
-/

namespace Xv6.Library

abbrev SlotTable (Key Value : Type) := Nat → Option (Key × Value)

namespace SlotTable

variable {Key Value : Type} {table : SlotTable Key Value} {key : Key} {value : Value}
  {i j left count larger : Nat}

/-- No key is bound twice. -/
def Distinct (table : SlotTable Key Value) : Prop :=
  ∀ i j key first second, table i = some (key, first) → table j = some (key, second) → i = j

/-- All bindings are in the first `count` slots. -/
def Within (table : SlotTable Key Value) (count : Nat) : Prop :=
  ∀ i, count ≤ i → table i = none

def Unbound (table : SlotTable Key Value) (key : Key) : Prop :=
  ∀ i value, table i ≠ some (key, value)

def put (table : SlotTable Key Value) (i : Nat) (key : Key) (value : Value) :
    SlotTable Key Value :=
  Function.update table i (some (key, value))

def clear (table : SlotTable Key Value) (i : Nat) : SlotTable Key Value :=
  Function.update table i none

theorem Within.mono (within : table.Within count) (grows : count ≤ larger) :
    table.Within larger :=
  fun i beyond => within i (Nat.le_trans grows beyond)

theorem Within.lt (within : table.Within count) (here : table i = some (key, value)) :
    i < count := by
  by_contra beyond
  rw [within i (Nat.le_of_not_lt beyond)] at here
  cases here

/-! ## Searching -/

variable [DecidableEq Key]

/-- The first of `left` slots from `i` on that binds the key, with its value. -/
def find (table : SlotTable Key Value) (key : Key) : Nat → Nat → Option (Nat × Value)
  | 0, _ => none
  | left + 1, i =>
      match table i with
      | none => find table key left (i + 1)
      | some (bound, value) => if bound = key then some (i, value) else find table key left (i + 1)

/-- The map that the first `count` slots are. -/
def lookup (table : SlotTable Key Value) (count : Nat) (key : Key) : Option Value :=
  (table.find key count 0).map Prod.snd

theorem find_some (found : table.find key left i = some (j, value)) :
    j < i + left ∧ table j = some (key, value) := by
  induction left generalizing i with
  | zero => cases found
  | succ left inductionHypothesis =>
      have later : ∀ found : table.find key left (i + 1) = some (j, value),
          j < i + (left + 1) ∧ table j = some (key, value) := by
        intro found
        obtain ⟨below, here⟩ := inductionHypothesis found
        exact ⟨by omega, here⟩
      rw [find] at found
      cases slot : table i with
      | none =>
          rw [slot] at found
          exact later found
      | some binding =>
          obtain ⟨bound, old⟩ := binding
          simp only [slot] at found
          by_cases same : bound = key
          · rw [if_pos same] at found
            cases found
            exact ⟨Nat.lt_add_of_pos_right (Nat.succ_pos left), same ▸ slot⟩
          · rw [if_neg same] at found
            exact later found

theorem find_none (missing : table.find key left i = none) (after : i ≤ j)
    (below : j < i + left) (value : Value) : table j ≠ some (key, value) := by
  induction left generalizing i with
  | zero => exact absurd below (Nat.not_lt_of_le after)
  | succ left inductionHypothesis =>
      have later : table.find key left (i + 1) = none → i ≠ j →
          table j ≠ some (key, value) := fun missing different =>
        inductionHypothesis missing (by omega) (by omega)
      rw [find] at missing
      cases slot : table i with
      | none =>
          rw [slot] at missing
          by_cases here : i = j
          · rw [← here, slot]
            rintro ⟨⟩
          · exact later missing here
      | some binding =>
          obtain ⟨bound, old⟩ := binding
          simp only [slot] at missing
          by_cases same : bound = key
          · rw [if_pos same] at missing
            cases missing
          · rw [if_neg same] at missing
            by_cases here : i = j
            · rw [← here, slot]
              intro equal
              cases equal
              exact same rfl
            · exact later missing here

theorem lookup_none_iff (within : table.Within count) :
    table.lookup count key = none ↔ table.Unbound key := by
  rw [lookup, Option.map_eq_none_iff]
  constructor
  · intro missing i value here
    have below := within.lt here
    exact find_none missing (Nat.zero_le i) (by omega) value here
  · intro unbound
    cases found : table.find key count 0 with
    | none => rfl
    | some binding => exact absurd (find_some found).2 (unbound _ _)

theorem Distinct.find_iff (distinct : table.Distinct) (within : table.Within count) :
    table.find key count 0 = some (i, value) ↔ table i = some (key, value) := by
  constructor
  · exact fun found => (find_some found).2
  · intro here
    have below := within.lt here
    cases found : table.find key count 0 with
    | none => exact absurd here (find_none found (Nat.zero_le i) (by omega) value)
    | some binding =>
        obtain ⟨j, other⟩ := binding
        have there := (find_some found).2
        have same := distinct _ _ _ _ _ here there
        rw [← same, here] at there
        cases there
        rw [same]

theorem Distinct.lookup_iff (distinct : table.Distinct) (within : table.Within count) :
    table.lookup count key = some value ↔ ∃ i, table i = some (key, value) := by
  rw [lookup, Option.map_eq_some_iff]
  constructor
  · rintro ⟨⟨i, found⟩, search, rfl⟩
    exact ⟨i, (find_some search).2⟩
  · rintro ⟨i, here⟩
    exact ⟨(i, value), (distinct.find_iff within).mpr here, rfl⟩

/-! ## Binding and clearing -/

omit [DecidableEq Key] in
theorem put_some {other : Key} {old : Value}
    (here : table.put i key value j = some (other, old)) :
    j = i ∧ other = key ∧ old = value ∨ j ≠ i ∧ table j = some (other, old) := by
  rw [put] at here
  by_cases same : j = i
  · rw [same, Function.update_self] at here
    cases here
    exact Or.inl ⟨same, rfl, rfl⟩
  · rw [Function.update_of_ne same] at here
    exact Or.inr ⟨same, here⟩

omit [DecidableEq Key] in
theorem clear_some {other : Key} {old : Value} (here : table.clear i j = some (other, old)) :
    j ≠ i ∧ table j = some (other, old) := by
  rw [clear] at here
  by_cases same : j = i
  · rw [same, Function.update_self] at here
    cases here
  · rw [Function.update_of_ne same] at here
    exact ⟨same, here⟩

omit [DecidableEq Key] in
theorem Distinct.put (distinct : table.Distinct) (unbound : table.Unbound key) (i : Nat)
    (value : Value) : (table.put i key value).Distinct := by
  intro a b other first second here there
  obtain ⟨rfl, rfl, -⟩ | ⟨-, old⟩ := put_some here
  · obtain ⟨rfl, -, -⟩ | ⟨-, old⟩ := put_some there
    · rfl
    · exact absurd old (unbound b second)
  · obtain ⟨-, rfl, -⟩ | ⟨-, later⟩ := put_some there
    · exact absurd old (unbound a first)
    · exact distinct a b other first second old later

omit [DecidableEq Key] in
theorem Distinct.clear (distinct : table.Distinct) (i : Nat) : (table.clear i).Distinct :=
  fun a b other first second here there =>
    distinct a b other first second (clear_some here).2 (clear_some there).2

omit [DecidableEq Key] in
theorem Within.put (within : table.Within count) (grows : count ≤ larger) (inside : i < larger)
    (key : Key) (value : Value) : (table.put i key value).Within larger := by
  intro j beyond
  rw [SlotTable.put, Function.update_of_ne (by omega)]
  exact within.mono grows j beyond

omit [DecidableEq Key] in
theorem Within.clear (within : table.Within count) (i : Nat) : (table.clear i).Within count := by
  intro j beyond
  rw [SlotTable.clear, Function.update_apply, within j beyond, ite_self]

/-- A new binding in an empty slot. -/
theorem Distinct.lookup_put (distinct : table.Distinct) (within : table.Within count)
    (unbound : table.Unbound key) (empty : table i = none) (grows : count ≤ larger)
    (inside : i < larger) (value : Value) :
    (table.put i key value).lookup larger =
      Function.update (table.lookup count) key (some value) := by
  funext other
  apply Option.ext
  intro found
  rw [(distinct.put unbound i value).lookup_iff (within.put grows inside key value)]
  by_cases same : other = key
  · rw [same, Function.update_self]
    constructor
    · rintro ⟨j, here⟩
      obtain ⟨-, -, rfl⟩ | ⟨-, old⟩ := put_some here
      · rfl
      · exact absurd old (unbound j found)
    · intro equal
      cases equal
      exact ⟨i, Function.update_self ..⟩
  · rw [Function.update_of_ne same, distinct.lookup_iff within]
    constructor
    · rintro ⟨j, here⟩
      obtain ⟨-, rfl, -⟩ | ⟨-, old⟩ := put_some here
      · exact absurd rfl same
      · exact ⟨j, old⟩
    · rintro ⟨j, here⟩
      refine ⟨j, (Function.update_of_ne ?_ ..).trans here⟩
      rintro rfl
      rw [empty] at here
      cases here

/-- Clearing a slot unbinds the key that it bound. -/
theorem Distinct.lookup_clear (distinct : table.Distinct) (within : table.Within count)
    (here : table i = some (key, value)) :
    (table.clear i).lookup count = Function.update (table.lookup count) key none := by
  funext other
  apply Option.ext
  intro found
  rw [(distinct.clear i).lookup_iff (within.clear i)]
  by_cases same : other = key
  · rw [same, Function.update_self]
    constructor
    · rintro ⟨j, there⟩
      obtain ⟨different, old⟩ := clear_some there
      exact absurd (distinct _ _ _ _ _ old here) different
    · intro equal
      cases equal
  · rw [Function.update_of_ne same, distinct.lookup_iff within]
    constructor
    · rintro ⟨j, there⟩
      exact ⟨j, (clear_some there).2⟩
    · rintro ⟨j, there⟩
      refine ⟨j, (Function.update_of_ne ?_ ..).trans there⟩
      rintro rfl
      rw [here] at there
      cases there
      exact same rfl

end SlotTable

end Xv6.Library
