import Mathlib.Data.Finset.Card
import Mathlib.Data.Set.Insert
import Mathlib.Tactic.Common

/-!
# Exclusive ownership

Places hold blocks. Every held block is one the allocator has given out, and
no two places hold the same block. Dropping places keeps this; so do giving a
block back once nobody holds it, and handing a new one to an empty place.
-/

namespace Xv6.Library

universe u v

variable {Place : Type u} {Block : Type v}

structure Owned (given : Block → Prop) (holds : Place → Block → Prop) : Prop where
  given : ∀ place block, holds place block → given block
  once : ∀ first second block, holds first block → holds second block → first = second

variable {given : Block → Prop} {holds : Place → Block → Prop}

/-- Fewer places hold blocks, and what they hold is still given out. -/
theorem Owned.restrict (owned : Owned given holds) {later : Block → Prop}
    {fewer : Place → Block → Prop}
    (sub : ∀ place block, fewer place block → holds place block)
    (kept : ∀ place block, fewer place block → given block → later block) :
    Owned later fewer where
  given place block held := kept place block held (owned.given place block (sub place block held))
  once first second block one other :=
    owned.once first second block (sub first block one) (sub second block other)

/-- What one place holds can be taken back, if that place is cleared. -/
theorem Owned.release (owned : Owned given holds) {place : Place} {block : Block}
    (held : holds place block) {later : Block → Prop} {fewer : Place → Block → Prop}
    (sub : ∀ other number, fewer other number → holds other number ∧ other ≠ place)
    (kept : ∀ number, number ≠ block → given number → later number) :
    Owned later fewer := by
  refine owned.restrict (fun other number still => (sub other number still).1) ?_
  intro other number still out
  apply kept number _ out
  rintro rfl
  exact (sub other number still).2 (owned.once other place number (sub other number still).1 held)

/-- A block that nobody holds goes to one place. -/
theorem Owned.acquire (owned : Owned given holds) {place : Place} {block : Block}
    (unheld : ∀ other, ¬holds other block) {later : Block → Prop} {more : Place → Block → Prop}
    (sub : ∀ other number, more other number →
      holds other number ∨ other = place ∧ number = block)
    (new : later block) (kept : ∀ number, given number → later number) :
    Owned later more where
  given other number held := by
    rcases sub other number held with old | ⟨-, rfl⟩
    · exact kept number (owned.given other number old)
    · exact new
  once first second number one other := by
    rcases sub first number one with old | ⟨rfl, rfl⟩
    · rcases sub second number other with older | ⟨-, rfl⟩
      · exact owned.once first second number old older
      · exact absurd old (unheld first)
    · rcases sub second number other with older | ⟨same, -⟩
      · exact absurd older (unheld second)
      · exact same.symm

/-- Every block of `all` is free or held, and not both. -/
structure Accounted (all free : Set Block) (holds : Place → Block → Prop) : Prop where
  owned : Owned (fun block => block ∈ all ∧ block ∉ free) holds
  covered : ∀ block ∈ all, block ∈ free ∨ ∃ place, holds place block
  within : free ⊆ all

namespace Accounted

variable {all free : Set Block} {place : Place} {block : Block}

/-- A free block leaves the account. -/
theorem take (accounted : Accounted all (insert block free) holds) (fresh : block ∉ free) :
    Accounted (all \ {block}) free holds where
  owned := by
    refine accounted.owned.restrict (fun _ _ held => held) ?_
    intro other number held given
    exact ⟨⟨given.1, fun same => given.2 (Or.inl same)⟩, fun member => given.2 (Or.inr member)⟩
  covered number member := by
    rcases accounted.covered number member.1 with (same | still) | held
    · exact absurd same member.2
    · exact Or.inl still
    · exact Or.inr held
  within number member :=
    ⟨accounted.within (Or.inr member), fun same => fresh (same ▸ member)⟩

/-- A block from outside becomes free. -/
theorem give (accounted : Accounted all free holds) (fresh : block ∉ all) :
    Accounted (insert block all) (insert block free) holds where
  owned := by
    refine accounted.owned.restrict (fun _ _ held => held) ?_
    intro other number held given
    refine ⟨Or.inr given.1, ?_⟩
    rintro (rfl | member)
    · exact fresh given.1
    · exact given.2 member
  covered number member := by
    rcases member with same | member
    · exact Or.inl (Or.inl same)
    · exact (accounted.covered number member).imp Or.inr id
  within := Set.insert_subset_insert accounted.within

/-- A block from outside goes to a place. -/
theorem acquire (accounted : Accounted all free holds) (fresh : block ∉ all)
    {more : Place → Block → Prop}
    (sub : ∀ other number, more other number ↔
      holds other number ∨ other = place ∧ number = block) :
    Accounted (insert block all) free more where
  owned := by
    have unheld : ∀ other, ¬holds other block := fun other held =>
      fresh (accounted.owned.given other block held).1
    refine accounted.owned.acquire unheld (fun other number held => (sub other number).mp held)
      ?_ ?_
    · exact ⟨Or.inl rfl, fun member => fresh (accounted.within member)⟩
    · exact fun number given => ⟨Or.inr given.1, given.2⟩
  covered number member := by
    rcases member with rfl | member
    · exact Or.inr ⟨place, (sub place number).mpr (Or.inr ⟨rfl, rfl⟩)⟩
    · rcases accounted.covered number member with still | ⟨other, held⟩
      · exact Or.inl still
      · exact Or.inr ⟨other, (sub other number).mpr (Or.inl held)⟩
  within := accounted.within.trans (Set.subset_insert block all)

/-- What a place holds leaves the account. -/
theorem release (accounted : Accounted all free holds) (held : holds place block)
    (only : ∀ number, holds place number → number = block) {fewer : Place → Block → Prop}
    (sub : ∀ other number, fewer other number ↔ holds other number ∧ other ≠ place) :
    Accounted (all \ {block}) free fewer where
  owned := by
    refine accounted.owned.release held (fun other number still => (sub other number).mp still) ?_
    exact fun number different given => ⟨⟨given.1, different⟩, given.2⟩
  covered number member := by
    rcases accounted.covered number member.1 with still | ⟨other, holding⟩
    · exact Or.inl still
    · refine Or.inr ⟨other, (sub other number).mpr ⟨holding, ?_⟩⟩
      rintro rfl
      exact member.2 (only number holding)
  within number member := by
    refine ⟨accounted.within member, ?_⟩
    rintro rfl
    exact (accounted.owned.given place number held).2 member

/-- Every block is free or the one that some place holds. -/
theorem card [DecidableEq Block] {all free : Finset Block}
    (accounted : Accounted (↑all : Set Block) ↑free holds) {places : Finset Place}
    (taken : ∀ place, place ∈ places ↔ ∃ block, holds place block)
    (only : ∀ place first second, holds place first → holds place second → first = second) :
    all.card = free.card + places.card := by
  have within : free ⊆ all := Finset.coe_subset.mp accounted.within
  have blocks : ∀ place ∈ places, ∃ block, holds place block := fun place member =>
    (taken place).mp member
  have used : (all \ free).card = places.card := by
    apply Eq.symm
    refine Finset.card_bij (fun place member => (blocks place member).choose) ?_ ?_ ?_
    · intro place member
      have given := accounted.owned.given place _ (blocks place member).choose_spec
      exact Finset.mem_sdiff.mpr given
    · intro first one second two same
      have held := (blocks second two).choose_spec
      rw [← same] at held
      exact accounted.owned.once first second _ (blocks first one).choose_spec held
    · intro block member
      obtain ⟨inside, busy⟩ := Finset.mem_sdiff.mp member
      obtain listed | ⟨place, held⟩ := accounted.covered block inside
      · exact absurd listed busy
      · have member := (taken place).mpr ⟨block, held⟩
        exact ⟨place, member, only place _ _ (blocks place member).choose_spec held⟩
  have split := Finset.card_sdiff_add_card_eq_card within
  omega

end Accounted

end Xv6.Library
