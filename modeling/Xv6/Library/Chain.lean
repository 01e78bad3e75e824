import Mathlib.Data.List.Nodup
import Mathlib.Logic.Function.Basic
import Mathlib.Tactic.Common

/-!
# Linked lists

A list whose cells point to the next one. The elements that the pointers visit
are given as a list; appending and removing the head change few pointers.
-/

namespace Xv6.Library

variable {Cell : Type}

/-- Following `next` from `start` visits the cells of the list, and then ends. -/
def Chain (next : Cell → Option Cell) : Option Cell → List Cell → Prop
  | start, [] => start = none
  | start, cell :: rest => start = some cell ∧ Chain next (next cell) rest

/-- The last cell, reached by at most `fuel` steps. -/
def lastCell (next : Cell → Option Cell) : Nat → Cell → Cell
  | 0, cell => cell
  | fuel + 1, cell =>
      match next cell with
      | none => cell
      | some other => lastCell next fuel other

namespace Chain

variable {next other : Cell → Option Cell} {start : Option Cell} {cells : List Cell}

/-- Only the pointers of the cells of the list matter. -/
theorem congr (chain : Chain next start cells) (agree : ∀ cell ∈ cells, other cell = next cell) :
    Chain other start cells := by
  induction cells generalizing start with
  | nil => exact chain
  | cons cell rest inductionHypothesis =>
      refine ⟨chain.1, ?_⟩
      rw [agree cell (List.mem_cons_self ..)]
      exact inductionHypothesis chain.2 fun cell member =>
        agree cell (List.mem_cons_of_mem _ member)

theorem cons_of_some {cell : Cell} (chain : Chain next (some cell) cells) :
    ∃ rest, cells = cell :: rest ∧ Chain next (next cell) rest := by
  cases cells with
  | nil => cases chain
  | cons first rest =>
      rcases chain with ⟨same, chain⟩
      cases same
      exact ⟨rest, rfl, chain⟩

theorem lastCell_eq {cell : Cell} {rest : List Cell} {fuel : Nat}
    (chain : Chain next (next cell) rest) (enough : rest.length ≤ fuel) :
    lastCell next fuel cell = (cell :: rest).getLast (List.cons_ne_nil _ _) := by
  induction rest generalizing cell fuel with
  | nil =>
      have ends : next cell = none := chain
      cases fuel with
      | zero => rfl
      | succ fuel => rw [lastCell, ends]; rfl
  | cons following rest inductionHypothesis =>
      rcases chain with ⟨step, chain⟩
      cases fuel with
      | zero => cases enough
      | succ fuel =>
          rw [lastCell, step]
          exact inductionHypothesis chain (Nat.le_of_succ_le_succ enough)

/-- A cell is appended by a change of the last pointer. -/
theorem append [DecidableEq Cell] {cell added : Cell} {rest : List Cell}
    (chain : Chain next (some cell) (cell :: rest)) (nodup : (cell :: rest).Nodup)
    (fresh : added ∉ cell :: rest) (ends : next added = none) :
    Chain (Function.update next ((cell :: rest).getLast (List.cons_ne_nil _ _)) (some added))
      (some cell) (cell :: (rest ++ [added])) := by
  induction rest generalizing cell with
  | nil =>
      have different : added ≠ cell := by simpa using fresh
      refine ⟨rfl, ?_⟩
      simp only [List.getLast_singleton, Function.update_self]
      exact ⟨rfl, by rw [Function.update_of_ne different]; exact ends⟩
  | cons following rest inductionHypothesis =>
      have step : next cell = some following := chain.2.1
      have last : (cell :: following :: rest).getLast (List.cons_ne_nil _ _) =
          (following :: rest).getLast (List.cons_ne_nil _ _) := List.getLast_cons _
      have apart : cell ≠ (following :: rest).getLast (List.cons_ne_nil _ _) := by
        intro same
        apply (List.nodup_cons.mp nodup).1
        rw [same]
        exact List.getLast_mem _
      refine ⟨rfl, ?_⟩
      rw [last, Function.update_of_ne apart, step]
      exact inductionHypothesis ⟨rfl, chain.2.2⟩ (List.nodup_cons.mp nodup).2
        (fun member => fresh (List.mem_cons_of_mem _ member))

end Chain

end Xv6.Library
