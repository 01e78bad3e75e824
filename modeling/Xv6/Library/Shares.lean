import Mathlib.Algebra.BigOperators.Group.Finset.Piecewise
import Mathlib.Data.Fintype.BigOperators
import Mathlib.Tactic.Common

/-!
# Shares of an item

Finitely many owners each hold at most one item. A reference count is right when
it is the number of owners of its item.
-/

namespace Xv6.Library

variable {Owner Item : Type} [Fintype Owner] [DecidableEq Item]

/-- How many owners hold the item. -/
def shares (owns : Owner → Option Item) (item : Item) : Nat :=
  (Finset.univ.filter fun owner => owns owner = some item).card

variable {owns : Owner → Option Item} {owner other : Owner} {item : Item}

theorem shares_eq_sum (owns : Owner → Option Item) (item : Item) :
    shares owns item = ∑ owner, if owns owner = some item then 1 else 0 := by
  rw [shares, Finset.card_filter]

section Update

variable [DecidableEq Owner]

/-- One owner holds something else instead. -/
theorem shares_update (owns : Owner → Option Item) (owner : Owner) (held : Option Item)
    (item : Item) :
    shares (Function.update owns owner held) item + (if owns owner = some item then 1 else 0) =
      shares owns item + if held = some item then 1 else 0 := by
  have others : ∑ other ∈ Finset.univ.erase owner,
        (if Function.update owns owner held other = some item then 1 else 0) =
      ∑ other ∈ Finset.univ.erase owner, if owns other = some item then 1 else 0 := by
    apply Finset.sum_congr rfl
    intro other member
    rw [Function.update_of_ne (Finset.ne_of_mem_erase member)]
  rw [shares_eq_sum, shares_eq_sum, ← Finset.sum_erase_add _ _ (Finset.mem_univ owner),
    ← Finset.sum_erase_add (a := owner) Finset.univ (fun other => if owns other = some item then 1 else 0)
      (Finset.mem_univ owner), others, Function.update_self]
  omega

theorem shares_take (free : owns owner = none) (item item' : Item) :
    shares (Function.update owns owner (some item)) item' =
      shares owns item' + if item = item' then 1 else 0 := by
  have count := shares_update owns owner (some item) item'
  simpa [free] using count

theorem shares_give (holds : owns owner = some item) (item' : Item) :
    shares (Function.update owns owner none) item' + (if item = item' then 1 else 0) =
      shares owns item' := by
  have count := shares_update owns owner none item'
  simpa [holds] using count

/-- An item goes from one owner to another. -/
theorem shares_move (holds : owns owner = some item) (free : owns other = none) (item' : Item) :
    shares (Function.update (Function.update owns owner none) other (some item)) item' =
      shares owns item' := by
  have different : other ≠ owner := by
    rintro rfl
    simp [free] at holds
  rw [shares_take (by rw [Function.update_of_ne different, free]), shares_give holds]

/-- What one owner has goes to another that has nothing. -/
theorem shares_pass (free : owns other = none) (item : Item) :
    shares (Function.update (Function.update owns owner none) other (owns owner)) item =
      shares owns item := by
  cases holds : owns owner with
  | none =>
      have same : Function.update (Function.update owns owner none) other none = owns := by
        have first : Function.update owns owner none = owns := by
          rw [← holds, Function.update_eq_self]
        rw [first, ← free, Function.update_eq_self]
      rw [same]
  | some held => exact shares_move holds free item

/-- The same items, one of them perhaps with another owner. -/
def Rearranged (before after : Owner → Option Item) : Prop :=
  after = before ∨ ∃ owner other item, before owner = some item ∧ before other = none ∧
    after = Function.update (Function.update before owner none) other (some item)

theorem Rearranged.shares {after : Owner → Option Item} (rearranged : Rearranged owns after)
    (item : Item) : Library.shares after item = Library.shares owns item := by
  rcases rearranged with rfl | ⟨owner, other, held, holds, free, rfl⟩
  · rfl
  · exact shares_move holds free item

omit [Fintype Owner] [DecidableEq Item] in
/-- Who had an item, or somebody else, has it now. -/
theorem Rearranged.exists_owner {after : Owner → Option Item} (rearranged : Rearranged owns after)
    (holds : owns owner = some item) : ∃ owner, after owner = some item := by
  rcases rearranged with rfl | ⟨first, second, held, had, free, rfl⟩
  · exact ⟨owner, holds⟩
  · by_cases same : owner = first
    · subst same
      rw [had] at holds
      cases holds
      exact ⟨second, by simp⟩
    · refine ⟨owner, ?_⟩
      have apart : owner ≠ second := by
        rintro rfl
        rw [free] at holds
        cases holds
      rw [Function.update_of_ne apart, Function.update_of_ne same, holds]

omit [Fintype Owner] [DecidableEq Item] in
/-- Some of the owners rearrange what they have among themselves. -/
theorem Rearranged.embed {Place : Type} [DecidableEq Place] {small small' : Place → Option Item}
    {before after : Owner → Option Item} {place : Place → Owner}
    (rearranged : Rearranged small small') (injective : Function.Injective place)
    (old : ∀ x, before (place x) = small x) (new : ∀ x, after (place x) = small' x)
    (others : ∀ owner, (∀ x, place x ≠ owner) → after owner = before owner) :
    Rearranged before after := by
  rcases rearranged with rfl | ⟨x, y, item, holds, free, rfl⟩
  · refine Or.inl (funext fun owner => ?_)
    by_cases inside : ∃ x, place x = owner
    · rcases inside with ⟨x, rfl⟩
      rw [new, old]
    · exact others owner fun x is => inside ⟨x, is⟩
  · refine Or.inr ⟨place x, place y, item, by rw [old, holds], by rw [old, free],
      funext fun owner => ?_⟩
    by_cases inside : ∃ z, place z = owner
    · rcases inside with ⟨z, rfl⟩
      rw [new]
      by_cases second : z = y
      · subst second
        simp
      · rw [Function.update_of_ne second, Function.update_of_ne (injective.ne second)]
        by_cases first : z = x
        · subst first
          simp
        · rw [Function.update_of_ne first, Function.update_of_ne (injective.ne first), old]
    · have apart : ∀ z, owner ≠ place z := fun z is => inside ⟨z, is.symm⟩
      rw [Function.update_of_ne (apart y), Function.update_of_ne (apart x)]
      exact others owner fun z is => inside ⟨z, is⟩

end Update

theorem shares_pos (holds : owns owner = some item) : 0 < shares owns item :=
  Finset.card_pos.mpr ⟨owner, by simp [holds]⟩

theorem shares_eq_zero (nobody : ∀ owner, owns owner ≠ some item) : shares owns item = 0 := by
  rw [shares, Finset.card_eq_zero, Finset.filter_eq_empty_iff]
  exact fun owner _ => nobody owner

theorem exists_owner (positive : 0 < shares owns item) : ∃ owner, owns owner = some item := by
  rcases Finset.card_pos.mp positive with ⟨owner, member⟩
  exact ⟨owner, (Finset.mem_filter.mp member).2⟩

/-- The owner of an item that is held once. -/
theorem owner_unique (once : shares owns item ≤ 1) (first : owns owner = some item)
    (second : owns other = some item) : owner = other :=
  Finset.card_le_one.mp once owner (by simp [first]) other (by simp [second])

end Xv6.Library
