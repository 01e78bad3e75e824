import Xv6.Vm.Accounting

/-!
# Page tables as maps

A two-level table is a finite map from virtual pages to frames and flags, and
`mappages` adds a range of consecutive frames to it, or stops half way.
-/

namespace Xv6.Vm

open Xv6.Library

variable {symbols : Symbols} {m later : Machine} {s next : Space symbols}
  {free rest : List (Page symbols)} {page : Page symbols}

/-! ## Maps -/

/-- The frame and the flags of an entry that is present. -/
def translation (entry : UInt32) : Option (UInt32 × UInt32) :=
  if Present entry then some (pteAddr entry, pteFlags entry) else none

/-- The frame and the flags that the processor finds for an address. -/
def Machine.translate (m : Machine) (pgdir va : UInt32) : Option (UInt32 × UInt32) :=
  translation (m.lookup pgdir va)

/-- What the virtual pages are mapped to. -/
abbrev Mapping := Nat → Option (UInt32 × UInt32)

/-- The pages from `first` to `last` go to consecutive frames from `pa` on. -/
def Mapping.insertRange (mapping : Mapping) (first last : Nat) (pa flags : UInt32) : Mapping :=
  fun n =>
    if first ≤ n ∧ n ≤ last then some (pa + UInt32.ofNat (4096 * (n - first)), flags)
    else mapping n

def Space.mapping (s : Space symbols) : Mapping := fun n => translation (s.pte n)

theorem Machine.Holds.translate (holds : m.Holds s) (va : UInt32) :
    m.translate s.dir.addr va = s.mapping (vpn va) := by
  rw [Machine.translate, holds.lookup, Space.mapping]

@[simp]
theorem translation_eq_none {entry : UInt32} : translation entry = none ↔ ¬Present entry := by
  simp [translation]

/-- The entries of a range say where its pages go. -/
theorem translation_rangeEntry {pa perm : UInt32} (aligned : pa.toNat % 4096 = 0)
    (flags : perm.toNat < 4096) (i : Nat) :
    translation (World.rangeEntry pa perm i) =
      some (pa + UInt32.ofNat (4096 * i), perm ||| pteP) := by
  have whole : (pa + UInt32.ofNat (4096 * i)).toNat % 4096 = 0 := by
    rw [UInt32.toNat_add, UInt32.toNat_ofNat']
    omega
  have small : (perm ||| pteP).toNat < 4096 := by
    rw [UInt32.toNat_or]
    exact Nat.or_lt_two_pow (n := 12) flags (by decide)
  rw [World.rangeEntry, translation, if_pos (present_or_pteP _), UInt32.or_assoc,
    pteAddr_or whole small, pteFlags_or whole small]

/-! ## Page tables that are missing -/

/-- The page tables that the pages from `first` to `last` still need. -/
def Space.missing (s : Space symbols) (first last : Nat) : Finset Nat :=
  {i ∈ Finset.Icc (first / 1024) (last / 1024) | s.table i = none}

@[simp]
theorem Space.mem_missing {first last i : Nat} :
    i ∈ s.missing first last ↔
      (first / 1024 ≤ i ∧ i ≤ last / 1024) ∧ s.table i = none := by
  simp [Space.missing]

/-- Going from `first` to `last`, a page that is mapped comes before one whose page table cannot
be made. -/
def Space.Meets (s : Space symbols) (free : List (Page symbols)) (first last : Nat) : Prop :=
  ∃ n, first ≤ n ∧ n ≤ last ∧ s.mapping n ≠ none ∧
    (∀ k, first ≤ k → k < n → s.mapping k = none) ∧ (s.missing first n).card ≤ free.length

/-- A page that is mapped has its page table. -/
theorem Space.meets_first {first last : Nat} (mapped : s.mapping first ≠ none)
    (ordered : first ≤ last) : s.Meets free first last := by
  refine ⟨first, Nat.le_refl _, ordered, mapped, fun k after before => by omega, ?_⟩
  have nothing : s.missing first first = ∅ := by
    ext i
    simp only [mem_missing, Finset.notMem_empty, iff_false, not_and]
    rintro ⟨after, before⟩ none
    obtain rfl : i = first / 1024 := by omega
    simp [Space.mapping, s.absent first none, not_present_zero] at mapped
  simp [nothing]

/-- Without free pages the loop does not get past a page without a page table. -/
theorem Space.card_missing_pos {first last : Nat} (none : s.table (first / 1024) = none)
    (ordered : first ≤ last) : 0 < (s.missing first last).card := by
  apply Finset.card_pos.mpr
  exact ⟨first / 1024, by simpa [none] using Nat.div_le_div_right ordered⟩

theorem Space.not_meets_empty {first last : Nat} (none : s.table (first / 1024) = none) :
    ¬s.Meets [] first last := by
  rintro ⟨n, after, -, -, -, few⟩
  have needs := s.card_missing_pos none after
  simp at few
  simp [few] at needs

namespace Walked

variable {first last : Nat}

/-- A walk makes the page table of its page if that is missing. -/
theorem card_missing (walked : Walked m s (first / 1024) free page later next rest)
    (after : first < last) :
    (s.missing first last).card + rest.length =
      (next.missing (first + 1) last).card + free.length := by
  cases walked with
  | found there =>
      have same : s.missing first last = s.missing (first + 1) last := by
        ext i
        by_cases here : i = first / 1024
        · simp [here, there]
        · simp only [Space.mem_missing]
          refine and_congr_left fun _ => ?_
          omega
      rw [same]
  | added inside none =>
      have more : s.missing first last =
          insert (first / 1024) ((s.addTable inside page).missing (first + 1) last) := by
        ext i
        by_cases here : i = first / 1024
        · have below : first / 1024 ≤ last / 1024 := Nat.div_le_div_right (Nat.le_of_lt after)
          simp [here, none, below]
        · simp only [Space.mem_missing, Finset.mem_insert, here, false_or,
            s.addTable_of_ne inside page here]
          refine and_congr_left fun _ => ?_
          omega
      have fresh : first / 1024 ∉ (s.addTable inside page).missing (first + 1) last := by
        simp [s.addTable_self inside page]
      rw [more, Finset.card_insert_of_notMem fresh, List.length_cons]
      omega

/-- The loop goes on with the pages after the one that it has mapped. -/
theorem meets_iff (walked : Walked m s (first / 1024) free page later next rest) (value : UInt32)
    (unmapped : s.mapping first = none) :
    (next.setPte walked.there value).Meets rest (first + 1) last ↔ s.Meets free first last := by
  have others : ∀ n, n ≠ first →
      (next.setPte walked.there value).mapping n = s.mapping n := by
    intro n different
    rw [Space.mapping, next.setPte_of_ne walked.there value different, walked.pte, Space.mapping]
  have tables : ∀ n, (next.setPte walked.there value).missing (first + 1) n =
      next.missing (first + 1) n := fun _ => rfl
  constructor
  · rintro ⟨n, after, before, mapped, gap, few⟩
    have counted := walked.card_missing (show first < n by omega)
    rw [tables] at few
    refine ⟨n, by omega, before, others n (by omega) ▸ mapped, ?_, by omega⟩
    intro k above below
    obtain rfl | different := eq_or_ne k first
    · exact unmapped
    · exact others k different ▸ gap k (by omega) below
  · rintro ⟨n, after, before, mapped, gap, few⟩
    have different : n ≠ first := by
      rintro rfl
      exact mapped unmapped
    have counted := walked.card_missing (show first < n by omega)
    refine ⟨n, by omega, before, (others n different).symm ▸ mapped, ?_, ?_⟩
    · intro k above below
      exact (others k (by omega)).symm ▸ gap k (by omega) below
    · rw [tables]
      omega

end Walked

/-! ## mappages -/

/-- What `mappages` leaves of a space when it does not panic: it has added the range, or it has
stopped because no page was left for a page table. -/
structure Mapped (s : Space symbols) (free : List (Page symbols)) (first last : Nat)
    (pa perm : UInt32) (result : Int) (next : Space symbols) (rest : List (Page symbols)) :
    Prop where
  dir : next.dir = s.dir
  outside : ∀ n, n < first ∨ last < n → next.pte n = s.pte n
  ends : result = 0 ∧ (∀ i, first + i ≤ last → next.pte (first + i) = World.rangeEntry pa perm i) ∨
    result = -1 ∧ rest = [] ∧ free.length < (s.missing first last).card

namespace Mapped

variable {first last : Nat} {pa perm : UInt32} {result : Int} {final : Space symbols}
  {remaining : List (Page symbols)}

/-- There is no page for the page table of the first page. -/
theorem full (none : s.table (first / 1024) = none) (ordered : first ≤ last) :
    Mapped s [] first last pa perm (-1) s [] where
  dir := rfl
  outside := fun _ _ => rfl
  ends := Or.inr ⟨rfl, rfl, s.card_missing_pos none ordered⟩

/-- The first page is also the last one. -/
theorem single (walked : Walked m s (first / 1024) free page later next rest) :
    Mapped s free first first pa perm 0
      (next.setPte walked.there (pa ||| perm ||| pteP)) rest where
  dir := walked.dir
  outside := by
    intro n outside
    rw [next.setPte_of_ne _ _ (by omega), walked.pte]
  ends := by
    refine Or.inl ⟨rfl, fun i inside => ?_⟩
    obtain rfl : i = 0 := by omega
    rw [Nat.add_zero, World.rangeEntry_zero, Space.setPte_self]

/-- The pages after the first one are mapped in the space that has the entry of the first. -/
theorem cons (walked : Walked m s (first / 1024) free page later next rest)
    (mapped : Mapped (next.setPte walked.there (pa ||| perm ||| pteP)) rest (first + 1) last
      (pa + pgsize) perm result final remaining) (before : first < last) :
    Mapped s free first last pa perm result final remaining where
  dir := mapped.dir.trans walked.dir
  outside := by
    intro n outside
    rw [mapped.outside n (by omega), next.setPte_of_ne _ _ (by omega), walked.pte]
  ends := by
    refine mapped.ends.imp ?_ ?_
    · rintro ⟨zero, entries⟩
      refine ⟨zero, fun i inside => ?_⟩
      cases i with
      | zero =>
          rw [Nat.add_zero, World.rangeEntry_zero, mapped.outside first (by omega),
            Space.setPte_self]
      | succ i =>
          rw [← World.rangeEntry_succ, ← entries i (by omega)]
          congr 1
          omega
    · rintro ⟨failed, empty, few⟩
      have counted := walked.card_missing before
      have tables : (next.setPte walked.there (pa ||| perm ||| pteP)).missing (first + 1) last =
          next.missing (first + 1) last := rfl
      rw [tables] at few
      exact ⟨failed, empty, by omega⟩

end Mapped

/-- The loop of `mappages` from page `first` to page `last`. -/
theorem Machine.WellFormed.mapFrom_maps (formed : m.WellFormed s free)
    {first count last fuel : Nat} {a final : UInt32} (pa perm : UInt32)
    (span : first + count = last) (inside : last < 1048576) (address : a.toNat = 4096 * first)
    (ends : final.toNat = 4096 * last) (enough : count < fuel) :
    mapFrom s.dir.addr final perm fuel a pa m = .panic "remap" ∧ s.Meets free first last ∨
    ∃ result later next rest, mapFrom s.dir.addr final perm fuel a pa m = .done result later ∧
      ¬s.Meets free first last ∧ later.WellFormed next rest ∧
      Mapped s free first last pa perm result next rest := by
  induction count generalizing m s free first fuel a pa with
  | zero =>
      obtain rfl : first = last := span
      obtain ⟨fuel, rfl⟩ : ∃ k, fuel = k + 1 := ⟨fuel - 1, by omega⟩
      have number := World.vpn_eq address
      have lastOne : a = final := UInt32.toNat_inj.mp (by omega)
      by_cases mapped : s.mapping first = none
      · have unmapped := translation_eq_none.mp mapped
        right
        rcases formed.mapFrom_turn (a := a) pa final perm fuel (number ▸ unmapped) with
          ⟨rfl, none, ran⟩ | ⟨later, next, rest, page, walked, ran⟩
        · rw [number] at none
          exact ⟨_, m, s, [], ran, Space.not_meets_empty none, formed,
            .full none (Nat.le_refl _)⟩
        · rw [if_pos lastOne, number] at ran
          rw [number] at walked
          refine ⟨_, _, _, rest, ran, ?_, (walked.wellFormed formed).setWord walked.there _,
            .single walked⟩
          rintro ⟨n, after, before, present, -⟩
          obtain rfl : n = first := by omega
          exact present mapped
      · have present := not_not.mp (translation_eq_none.not.mp mapped)
        exact Or.inl ⟨formed.holds.mapFrom_remap pa final perm fuel (number ▸ present),
          Space.meets_first mapped (Nat.le_refl _)⟩
  | succ count inductionHypothesis =>
      obtain ⟨fuel, rfl⟩ : ∃ k, fuel = k + 1 := ⟨fuel - 1, by omega⟩
      have number := World.vpn_eq address
      have before : first < last := by omega
      have more : ¬a = final := by
        intro same
        have addresses := congrArg UInt32.toNat same
        omega
      by_cases mapped : s.mapping first = none
      · have unmapped := translation_eq_none.mp mapped
        rcases formed.mapFrom_turn (a := a) pa final perm fuel (number ▸ unmapped) with
          ⟨rfl, none, ran⟩ | ⟨later, next, rest, page, walked, ran⟩
        · rw [number] at none
          exact Or.inr ⟨_, m, s, [], ran, Space.not_meets_empty none, formed,
            .full none (Nat.le_of_lt before)⟩
        · rw [if_neg more, number] at ran
          rw [number] at walked
          have written := (walked.wellFormed formed).setWord walked.there (pa ||| perm ||| pteP)
          have goesOn := inductionHypothesis written (pa + pgsize) (show first + 1 + count = last by omega)
            (World.vpn_next address (by omega)) (show count < fuel by omega)
          rw [Space.setPte_dir, walked.dir, ← ran, walked.meets_iff _ mapped] at goesOn
          refine goesOn.imp_right ?_
          rintro ⟨result, machine, space, left, ended, notMeets, holding, rests⟩
          exact ⟨result, machine, space, left, ended, notMeets, holding, rests.cons walked before⟩
      · have present := not_not.mp (translation_eq_none.not.mp mapped)
        exact Or.inl ⟨formed.holds.mapFrom_remap pa final perm fuel (number ▸ present),
          Space.meets_first mapped (Nat.le_of_lt before)⟩

/-- The map of the space that `mappages` leaves when it succeeds. -/
theorem Mapped.mapping {first last : Nat} {pa perm : UInt32}
    (mapped : Mapped s free first last pa perm 0 next rest) (aligned : pa.toNat % 4096 = 0)
    (flags : perm.toNat < 4096) :
    next.mapping = s.mapping.insertRange first last pa (perm ||| pteP) := by
  rcases mapped.ends with ⟨-, entries⟩ | ⟨failed, -⟩
  · funext n
    by_cases inside : first ≤ n ∧ n ≤ last
    · obtain ⟨i, rfl⟩ := Nat.exists_eq_add_of_le inside.1
      rw [Mapping.insertRange, if_pos inside, Nat.add_sub_cancel_left, Space.mapping,
        entries i inside.2, translation_rangeEntry aligned flags]
    · rw [Mapping.insertRange, if_neg inside, Space.mapping, mapped.outside n (by omega),
        Space.mapping]
  · cases failed

/-- On a well-formed table `mappages` panics exactly when it meets a page of the range that is
mapped already. Otherwise it maps the whole range to consecutive frames, or fails without a free
page; the addresses outside the range keep their translation, and the table stays well formed. -/
theorem mappages_maps (formed : m.WellFormed s free) {va size pa perm : UInt32}
    (positive : 0 < size) (fits : va.toNat + size.toNat ≤ 2 ^ 32)
    (aligned : pa.toNat % 4096 = 0) (flags : perm.toNat < 4096) :
    (mappages s.dir.addr va size pa perm m = .panic "remap" ↔
      s.Meets free (vpn va) (vpn (va + size - 1))) ∧
    (¬s.Meets free (vpn va) (vpn (va + size - 1)) → ∃ result later next rest,
      mappages s.dir.addr va size pa perm m = .done result later ∧
      later.WellFormed next rest ∧ next.dir = s.dir ∧
      (∀ a, vpn a < vpn va ∨ vpn (va + size - 1) < vpn a →
        later.translate s.dir.addr a = m.translate s.dir.addr a) ∧
      (result = 0 ∧ (∀ a, vpn va ≤ vpn a → vpn a ≤ vpn (va + size - 1) →
          later.translate s.dir.addr a =
            some (pa + UInt32.ofNat (4096 * (vpn a - vpn va)), perm ||| pteP)) ∨
        result = -1 ∧ rest = [] ∧
          free.length < (s.missing (vpn va) (vpn (va + size - 1))).card)) := by
  have some : 0 < size.toNat := UInt32.lt_iff_toNat_lt.mp positive
  have sum : (va + size - 1).toNat = va.toNat + size.toNat - 1 := by
    rw [UInt32.toNat_sub, UInt32.toNat_add, UInt32.toNat_one]
    omega
  have ordered : vpn va ≤ vpn (va + size - 1) := by
    unfold vpn
    omega
  have start : (pgRoundDown va).toNat = 4096 * vpn va := by
    rw [toNat_pgRoundDown, vpn, Nat.mul_comm]
  have stop : (pgRoundDown (va + size - 1)).toNat = 4096 * vpn (va + size - 1) := by
    rw [toNat_pgRoundDown, vpn, Nat.mul_comm]
  have ran := formed.mapFrom_maps pa perm (Nat.add_sub_cancel' ordered) (vpn_lt _) start stop
    (show vpn (va + size - 1) - vpn va < turns by
      have bound := vpn_lt (va + size - 1)
      unfold turns npdentries nptentries
      omega)
  rw [← mappages] at ran
  rcases ran with ⟨panics, meets⟩ | ⟨result, later, next, rest, done, notMeets, holding, mapped⟩
  · exact ⟨iff_of_true panics meets, fun notMeets => absurd meets notMeets⟩
  · refine ⟨iff_of_false (by simp [done]) notMeets, fun _ => ?_⟩
    have reads : ∀ a, later.translate s.dir.addr a = next.mapping (vpn a) := by
      intro a
      rw [← mapped.dir]
      exact holding.holds.translate a
    refine ⟨result, later, next, rest, done, holding, mapped.dir, ?_, ?_⟩
    · intro a outside
      rw [reads, formed.holds.translate, Space.mapping, mapped.outside _ outside, Space.mapping]
    · refine mapped.ends.imp ?_ id
      rintro ⟨rfl, -⟩
      refine ⟨rfl, fun a after before => ?_⟩
      rw [reads, mapped.mapping aligned flags, Mapping.insertRange, if_pos ⟨after, before⟩]

/-- Two pages on both sides of a boundary between page tables, in a directory without tables. -/
theorem mappages_maps_boundary :
    ∃ m, ∃ s : Space smallKernel, ∃ free later, m.WellFormed s free ∧
      mappages s.dir.addr 0x3FF123 0x1000 0x7000 pteW m = .done 0 later ∧
      later.translate s.dir.addr 0x3FF123 = some (0x7000, pteW ||| pteP) ∧
      later.translate s.dir.addr 0x400000 = some (0x8000, pteW ||| pteP) := by
  obtain ⟨start, all, -, frees, everything⟩ := kinit_frees smallKernel (by decide) fun _ => 0
  have enough := many_pages (by decide) (show 3 ≤ 56320 by decide) everything
  obtain ⟨dir, free, rfl⟩ := List.exists_cons_of_ne_nil (l := all) (by
    rintro rfl
    simp at enough)
  have formed := (world_empty frees).wellFormed
  obtain ⟨-, maps⟩ := mappages_maps formed (show (0 : UInt32) < 0x1000 by decide)
    (show (0x3FF123 : UInt32).toNat + (0x1000 : UInt32).toNat ≤ 2 ^ 32 by decide)
    (show (0x7000 : UInt32).toNat % 4096 = 0 by decide) (show pteW.toNat < 4096 by decide)
  obtain ⟨result, later, next, rest, ran, -, -, -, ended⟩ := maps (by
    rintro ⟨n, -, -, mapped, -⟩
    exact mapped (translation_eq_none.mpr not_present_zero))
  obtain ⟨rfl, inside⟩ | ⟨-, -, few⟩ := ended
  · exact ⟨_, _, free, later, formed, ran, inside 0x3FF123 (by decide) (by decide),
      inside 0x400000 (by decide) (by decide)⟩
  · have needs : ((Space.empty dir).missing (vpn 0x3FF123) (vpn (0x3FF123 + 0x1000 - 1))).card ≤ 2 :=
      Finset.card_filter_le _ _
    simp at enough
    omega

end Xv6.Vm
