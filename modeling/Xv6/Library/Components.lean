import Mathlib.Data.List.TakeWhile
import Mathlib.Tactic.Common

/-!
# The parts between separators

The non-empty parts of a list between its separators, and how a scan from the
front finds them one after the other.
-/

namespace Xv6.Library

variable {Symbol : Type} [DecidableEq Symbol] {separator : Symbol} {path part : List Symbol}

/-- The non-empty parts between the separators. -/
def components (separator : Symbol) (path : List Symbol) : List (List Symbol) :=
  (path.splitOn separator).filter (· ≠ [])

/-- What is left after the separators in front. -/
def skip (separator : Symbol) (path : List Symbol) : List Symbol :=
  path.dropWhile (· = separator)

theorem components_nil (separator : Symbol) : components separator [] = [] := by
  rw [components, List.splitOn_nil]
  rfl

theorem components_separator (separator : Symbol) (path : List Symbol) :
    components separator (separator :: path) = components separator path := by
  rw [components, List.splitOn_eq_splitOnP, List.splitOnP_cons_eq_if_modifyHead,
    if_pos (beq_self_eq_true separator), List.filter_cons_of_neg (by simp), components,
    List.splitOn_eq_splitOnP]

/-- One part, up to a separator. -/
theorem components_append (inside : separator ∉ part) (nonempty : part ≠ []) :
    components separator (part ++ separator :: path) = part :: components separator path := by
  have plain : ∀ symbol ∈ part, (symbol == separator) = false :=
    fun symbol member => beq_false_of_ne fun same => inside (same ▸ member)
  have first := List.splitOnP_append_cons_of_forall_mem plain separator
    (beq_self_eq_true separator) path
  rw [components, List.splitOn_eq_splitOnP, first, List.filter_cons_of_pos (by simpa using nonempty),
    components, List.splitOn_eq_splitOnP]

/-- One part, up to the end. -/
theorem components_single (inside : separator ∉ part) (nonempty : part ≠ []) :
    components separator part = [part] := by
  have plain : ∀ symbol ∈ part, (symbol == separator) = false :=
    fun symbol member => beq_false_of_ne fun same => inside (same ▸ member)
  have only := List.splitOnP_eq_singleton plain
  rw [components, List.splitOn_eq_splitOnP, only, List.filter_cons_of_pos (by simpa using nonempty)]
  rfl

theorem components_skip (separator : Symbol) (path : List Symbol) :
    components separator (skip separator path) = components separator path := by
  induction path with
  | nil => rfl
  | cons symbol rest inductionHypothesis =>
      by_cases same : symbol = separator
      · rw [skip, List.dropWhile_cons_of_pos (by simpa using same), same, components_separator]
        exact inductionHypothesis
      · rw [skip, List.dropWhile_cons_of_neg (by simpa using same)]

theorem skip_head {symbol : Symbol} {rest : List Symbol}
    (skipped : skip separator path = symbol :: rest) : symbol ≠ separator := by
  rintro rfl
  have stops := List.head?_dropWhile_not (· = symbol) path
  rw [skip] at skipped
  rw [skipped] at stops
  simp at stops

/-- The first part, and the path after it. -/
theorem components_next (nonempty : skip separator path ≠ []) :
    components separator path =
      (skip separator path).takeWhile (· ≠ separator) ::
        components separator ((skip separator path).dropWhile (· ≠ separator)) := by
  have whole := List.takeWhile_append_dropWhile (p := (· ≠ separator)) (l := skip separator path)
  have inside : separator ∉ (skip separator path).takeWhile (· ≠ separator) := by
    intro member
    have passes := List.mem_takeWhile_imp member
    simp at passes
  have first : (skip separator path).takeWhile (· ≠ separator) ≠ [] := by
    obtain ⟨symbol, rest, skipped⟩ := List.exists_cons_of_ne_nil nonempty
    rw [skipped, List.takeWhile_cons_of_pos (by simpa using skip_head skipped)]
    exact List.cons_ne_nil _ _
  have stops := List.head?_dropWhile_not (· ≠ separator) (skip separator path)
  rw [← components_skip]
  generalize (skip separator path).takeWhile (· ≠ separator) = part at whole inside first ⊢
  generalize (skip separator path).dropWhile (· ≠ separator) = rest at whole stops ⊢
  rw [← whole]
  cases rest with
  | nil => rw [List.append_nil, components_single inside first, components_nil]
  | cons symbol later =>
      have same : symbol = separator := by simpa using stops
      rw [same, components_append inside first, components_separator]

/-- Nothing is left exactly if no part is left. -/
theorem components_eq_nil_iff : components separator path = [] ↔ skip separator path = [] := by
  constructor
  · intro none
    by_contra nonempty
    rw [components_next nonempty] at none
    cases none
  · intro empty
    rw [← components_skip, empty, components_nil]

end Xv6.Library
