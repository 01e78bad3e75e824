import Mathlib.Data.List.Basic

/-!
# Lines

A text cut behind each occurrence of a separator. The last line may lack it.
-/

namespace Xv6.Library

universe u
variable {Symbol : Type u} [DecidableEq Symbol]

/-- The lines of a text, each with the separator that ends it. -/
def lines (separator : Symbol) : List Symbol → List (List Symbol)
  | [] => []
  | symbol :: text =>
      if symbol = separator then [separator] :: lines separator text
      else match lines separator text with
        | [] => [[symbol]]
        | line :: others => (symbol :: line) :: others

/-- A line without its separator. -/
def content (separator : Symbol) (line : List Symbol) : List Symbol :=
  line.takeWhile (· ≠ separator)

variable {separator symbol : Symbol} {text line before after : List Symbol}

@[simp]
theorem lines_nil : lines separator [] = [] := rfl

@[simp]
theorem lines_separator :
    lines separator (separator :: text) = [separator] :: lines separator text :=
  if_pos rfl

theorem lines_symbol (inside : symbol ≠ separator) (others : List (List Symbol))
    (cut : lines separator text = line :: others) :
    lines separator (symbol :: text) = (symbol :: line) :: others := by
  rw [lines, if_neg inside, cut]

theorem lines_symbol_nil (inside : symbol ≠ separator) :
    lines separator [symbol] = [[symbol]] := by
  rw [lines, if_neg inside, lines_nil]

theorem content_append (inside : separator ∉ before) :
    content separator (before ++ separator :: after) = before := by
  induction before with
  | nil => simp [content]
  | cons symbol before inductionHypothesis =>
      rw [List.mem_cons, not_or] at inside
      rw [content, List.cons_append, List.takeWhile_cons_of_pos (by simpa using Ne.symm inside.1)]
      exact congrArg (symbol :: ·) (inductionHypothesis inside.2)

theorem content_of_notMem (inside : separator ∉ line) : content separator line = line := by
  induction line with
  | nil => rfl
  | cons symbol line inductionHypothesis =>
      rw [List.mem_cons, not_or] at inside
      rw [content, List.takeWhile_cons_of_pos (by simpa using Ne.symm inside.1)]
      exact congrArg (symbol :: ·) (inductionHypothesis inside.2)

theorem lines_eq_nil : lines separator text = [] ↔ text = [] := by
  refine ⟨fun none => ?_, fun none => none ▸ rfl⟩
  cases text with
  | nil => rfl
  | cons symbol text =>
      rw [lines] at none
      split at none
      · exact absurd none nofun
      · split at none <;> exact absurd none nofun

theorem flatten_lines : (lines separator text).flatten = text := by
  induction text with
  | nil => rfl
  | cons symbol text inductionHypothesis =>
      by_cases ends : symbol = separator
      · rw [ends, lines_separator, List.flatten_cons, inductionHypothesis]
        rfl
      · cases cut : lines separator text with
        | nil =>
            rw [lines_eq_nil.mp cut, lines_symbol_nil ends]
            rfl
        | cons line others =>
            rw [lines_symbol ends others cut, List.flatten_cons, List.cons_append,
              ← List.flatten_cons, ← cut, inductionHypothesis]

/-- The first line goes to the first separator. -/
theorem lines_append (inside : separator ∉ before) :
    lines separator (before ++ separator :: after) =
      (before ++ [separator]) :: lines separator after := by
  induction before with
  | nil => exact lines_separator
  | cons symbol before inductionHypothesis =>
      rw [List.mem_cons, not_or] at inside
      exact lines_symbol (Ne.symm inside.1) _ (inductionHypothesis inside.2)

theorem lines_of_notMem (inside : separator ∉ text) (nonempty : text ≠ []) :
    lines separator text = [text] := by
  induction text with
  | nil => exact absurd rfl nonempty
  | cons symbol text inductionHypothesis =>
      rw [List.mem_cons, not_or] at inside
      cases text with
      | nil => exact lines_symbol_nil (Ne.symm inside.1)
      | cons next text =>
          exact lines_symbol (Ne.symm inside.1) _ (inductionHypothesis inside.2 nofun)

/-- A line is a body and its separator, or what is left behind the last separator. -/
theorem shape_of_mem_lines (member : line ∈ lines separator text) :
    (∃ body, separator ∉ body ∧ line = body ++ [separator]) ∨ (separator ∉ line ∧ line ≠ []) := by
  induction text generalizing line with
  | nil => exact absurd member nofun
  | cons symbol text inductionHypothesis =>
      by_cases ends : symbol = separator
      · rw [ends, lines_separator, List.mem_cons] at member
        obtain rfl | later := member
        · exact .inl ⟨[], nofun, rfl⟩
        · exact inductionHypothesis later
      · cases cut : lines separator text with
        | nil =>
            rw [lines_eq_nil.mp cut, lines_symbol_nil ends, List.mem_singleton] at member
            rw [member]
            exact .inr ⟨fun inside => ends (List.mem_singleton.mp inside).symm, nofun⟩
        | cons first others =>
            rw [lines_symbol ends others cut, List.mem_cons] at member
            rw [cut] at inductionHypothesis
            obtain rfl | later := member
            · obtain ⟨body, inside, rfl⟩ | ⟨inside, -⟩ :=
                @inductionHypothesis first (.head _)
              · exact .inl ⟨symbol :: body,
                  List.not_mem_cons_of_ne_of_not_mem (Ne.symm ends) inside, rfl⟩
              · exact .inr ⟨List.not_mem_cons_of_ne_of_not_mem (Ne.symm ends) inside, nofun⟩
            · exact inductionHypothesis (.tail _ later)

/-- What stands before a separator, without another one, is the end of a line. -/
theorem exists_line (before after : List Symbol) {piece : List Symbol}
    (inside : separator ∉ piece) :
    ∃ line ∈ lines separator (before ++ piece ++ separator :: after),
      separator ∈ line ∧ piece <:+ content separator line := by
  induction before with
  | nil =>
      rw [List.nil_append, lines_append inside]
      refine ⟨_, .head _, List.mem_append_right _ (.head _), ?_⟩
      calc
        piece <:+ piece := List.suffix_refl piece
        _ = content separator (piece ++ [separator]) := (content_append inside).symm
  | cons symbol before inductionHypothesis =>
      obtain ⟨line, member, separated, isEnd⟩ := inductionHypothesis
      rw [List.cons_append, List.cons_append]
      by_cases ends : symbol = separator
      · exact ⟨line, by rw [ends, lines_separator]; exact .tail _ member, separated, isEnd⟩
      · cases cut : lines separator (before ++ piece ++ separator :: after) with
        | nil => exact absurd (cut ▸ member) nofun
        | cons first others =>
            rw [cut, List.mem_cons] at member
            rw [lines_symbol ends others cut]
            obtain rfl | later := member
            · refine ⟨symbol :: line, .head _, .tail _ separated, ?_⟩
              rw [content, List.takeWhile_cons_of_pos (by simpa using ends)]
              exact isEnd.trans (List.suffix_cons symbol _)
            · exact ⟨line, .tail _ later, separated, isEnd⟩

end Xv6.Library
