import Xv6.Vm.Copy

/-!
# Copies that do not fit

`copyuvm` takes a fixed number of pages. With fewer free pages it gives up, and
puts back what it took, except where the page for a copy was the last one and
its page table is missing.
-/

namespace Xv6.Vm

open Xv6.Library

variable {symbols : Symbols} {all : Set (Page symbols)} {m : Machine}
  {s parent base child : Space symbols} {free : List (Page symbols)}

/-! ## The free pages -/

/-- The page is on the free list. -/
def Machine.IsFree (m : Machine) (page : Page symbols) : Prop :=
  ∃ free : List (Page symbols), m.Free free ∧ page ∈ free

namespace Machine

theorem Linked.unique {head : UInt32} {first second : List (Page symbols)}
    (one : m.Linked head first) (two : m.Linked head second) : first = second := by
  induction first generalizing head second with
  | nil =>
      cases second with
      | nil => rfl
      | cons page rest =>
          have zero : page.addr = 0 := two.1.symm.trans one
          exact absurd zero page.addr_ne_zero
  | cons page rest inductionHypothesis =>
      cases second with
      | nil =>
          have zero : page.addr = 0 := one.1.symm.trans two
          exact absurd zero page.addr_ne_zero
      | cons other left =>
          have same : page = other := Page.ext (one.1.symm.trans two.1)
          subst same
          rw [inductionHypothesis one.2 two.2]

theorem Free.isFree (frees : m.Free free) (page : Page symbols) : m.IsFree page ↔ page ∈ free := by
  constructor
  · rintro ⟨other, also, member⟩
    rw [frees.linked.unique also.linked]
    exact member
  · exact fun member => ⟨free, frees, member⟩

end Machine

/-! ## Counting -/

/-- The pages for the directory and the page tables of the kernel, for the copies, and for their
page tables. -/
def copyNeeds (count : Nat) : Nat := 65 + count + (count + 1023) / 1024

/-- The last free page is the one for a copy that needs another page table. -/
def LosesPage (count length : Nat) : Prop := ∃ j, 1024 * j < count ∧ length = 66 + 1025 * j

section Count

variable {later : Machine} {rest : List (Page symbols)} {n : Nat}

theorem kernelTables_range {i : Nat} (member : i ∈ kernelTables) : 512 ≤ i := by
  rw [kernelTables, Finset.mem_union, Finset.mem_Ico, Finset.mem_Ico] at member
  omega

/-- What a space takes whose first `n` pages are mapped. -/
theorem World.count_mapped (world : World {page | page ∈ free} later child rest)
    (nodup : free.Nodup) (user : n ≤ userPages)
    (tables : ∀ i, child.table i ≠ none ↔ i ∈ kernelTables ∨ 1024 * i < n)
    (mapped : ∀ k < userPages, (Present (child.pte k) ↔ k < n)) :
    free.length = rest.length + copyNeeds n := by
  have counted := world.count nodup (kernelTables ∪ Finset.range ((n + 1023) / 1024))
    (Finset.range n) ?_ ?_
  · have apart : Disjoint kernelTables (Finset.range ((n + 1023) / 1024)) := by
      rw [Finset.disjoint_left]
      intro i member
      have above := kernelTables_range member
      unfold userPages at user
      rw [Finset.mem_range]
      omega
    rw [Finset.card_union_of_disjoint apart, card_kernelTables, Finset.card_range,
      Finset.card_range] at counted
    unfold copyNeeds
    omega
  · intro i
    rw [Finset.mem_union, Finset.mem_range, tables i]
    exact or_congr_right (by omega)
  · intro k
    rw [Finset.mem_range]
    constructor
    · intro below
      exact ⟨Nat.lt_of_lt_of_le below user, (mapped k (Nat.lt_of_lt_of_le below user)).mpr below⟩
    · rintro ⟨below, present⟩
      exact (mapped k below).mp present

/-- What has been taken from the free list before page `n`. -/
theorem Copied.count (copied : Copied {page | page ∈ free} m parent base n later child)
    (nodup : free.Nodup) (world : World {page | page ∈ free} later child rest)
    (tabled : Tabled n base child) (only : base.KernelOnly)
    (tables : ∀ i ∈ kernelTables, base.table i ≠ none) (user : n ≤ userPages) :
    free.length = rest.length + copyNeeds n := by
  refine world.count_mapped nodup user ?_ ?_
  · intro i
    by_cases small : i < 512
    · rw [tabled.user i small]
      constructor
      · intro below
        exact Or.inr (by omega)
      · rintro (member | below)
        · have above := kernelTables_range member
          omega
        · omega
    · rw [tabled.kernel i (Nat.le_of_not_lt small)]
      constructor
      · intro there
        obtain ⟨page, held⟩ := Option.ne_none_iff_exists'.mp there
        exact Or.inl (only.table i page held)
      · rintro (member | below)
        · exact tables i member
        · unfold userPages at user
          omega
  · intro k below
    constructor
    · intro present
      by_contra outside
      rw [copied.above k (Nat.le_of_not_lt outside) below] at present
      exact not_present_zero present
    · intro inside
      obtain ⟨_, _, _, held, -⟩ := copied.has_user inside below
      exact held.2.1

end Count

/-- `copyuvm` succeeds exactly when there are enough free pages. If there are not, they are all
free again, or all but one when the last of them was for a copy without a page table. -/
theorem copyuvm_ends {sz : UInt32} (frees : m.Free free)
    (source : Parent {page | page ∈ free} m parent (pages sz)) (user : pages sz ≤ userPages) :
    ∃ d later, copyuvm symbols parent.dir.addr sz m = .done d later ∧
      (copyNeeds (pages sz) ≤ free.length ∧ d ≠ 0 ∨
        free.length < copyNeeds (pages sz) ∧ d = 0 ∧ ∃ freed, later.Free freed ∧
          (¬LosesPage (pages sz) free.length ∧ (∀ page, page ∈ freed ↔ page ∈ free) ∨
            LosesPage (pages sz) free.length ∧
              ∃ lost ∈ free, ∀ page, page ∈ freed ↔ page ∈ free ∧ page ≠ lost)) := by
  obtain ⟨later, rest, few, failed, again, same, -⟩ |
    ⟨start, base, rest, made, world, -, only, outside, maps⟩ := setupkvm_spec frees
  · refine ⟨0, later, ?_, Or.inr ⟨?_, rfl, rest, again, Or.inl ⟨?_, same⟩⟩⟩
    · rw [copyuvm, Action.bind_done failed, if_pos rfl]
      rfl
    · unfold copyNeeds
      omega
    · rintro ⟨j, -, exact⟩
      omega
  · have first : Copied {page | page ∈ free} m parent base 0 start base :=
      ⟨rfl, fun _ _ => rfl, fun _ none => absurd none (Nat.not_lt_zero _),
        fun k _ below => only.user k below, outside⟩
    obtain ⟨value, later, ran, result⟩ := first.copyFrom only.tabled source world
      (show (0 : UInt32).toNat = 4096 * 0 by rfl) (Nat.zero_le _) user
      (show pages sz < 0 + turns by
        unfold turns npdentries nptentries
        unfold userPages at user
        omega)
    refine ⟨value, later, ?_, ?_⟩
    · rw [copyuvm, Action.bind_done made, if_neg base.dir.addr_ne_zero]
      exact ran
    have tables : ∀ i ∈ kernelTables, base.table i ≠ none := fun i member => maps.tables member
    obtain ⟨rfl, n, inside, last, next, left, holding, copied, tabled, freed, again, gaveUp⟩ |
      ⟨rfl, next, left, holding, copied, tabled⟩ := result
    · right
      have counted := copied.count frees.nodup holding tabled only tables (by omega)
      obtain ⟨rfl, same⟩ | ⟨lost, rfl, none, same⟩ := gaveUp
      · rw [List.length_nil, Nat.zero_add] at counted
        refine ⟨?_, rfl, freed, again, Or.inl ⟨?_, same⟩⟩
        · rw [counted]
          unfold copyNeeds
          omega
        · rintro ⟨j, -, exact⟩
          unfold copyNeeds at counted
          omega
      · rw [List.length_singleton] at counted
        have start : n % 1024 = 0 := by
          have absent := (tabled.user (n / 1024) (by unfold userPages at user; omega)).mpr.mt
            (not_not.mpr none)
          omega
        refine ⟨?_, rfl, freed, again, Or.inr ⟨⟨n / 1024, by omega, ?_⟩, lost, ?_, same⟩⟩
        · rw [counted]
          unfold copyNeeds
          omega
        · unfold copyNeeds at counted
          omega
        · exact holding.accounts.within (List.mem_singleton_self lost)
    · left
      have counted := copied.count frees.nodup holding tabled only tables user
      exact ⟨by omega, base.dir.addr_ne_zero⟩

end Xv6.Vm
