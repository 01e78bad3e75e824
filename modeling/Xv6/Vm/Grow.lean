import Mathlib.Data.Finset.Card
import Mathlib.Order.Interval.Finset.Nat
import Xv6.Vm.Release

/-!
# Building and growing address spaces

`setupkvm` maps the kernel into a new directory, and `allocuvm` maps new user
pages. Both clean up when `kalloc` runs out.
-/

namespace Xv6.Vm

open Xv6.Library

variable {symbols : Symbols} {all : Set (Page symbols)} {m : Machine} {s : Space symbols}
  {free : List (Page symbols)}

/-! ## setupkvm -/

/-- The page tables of the kernel's mappings. -/
def kernelTables : Finset Nat := Finset.Ico 512 568 ∪ Finset.Ico 1016 1024

/-- The mappings cover whole ranges of pages, one after the other. -/
def Covers : Nat → List Kmap → Prop
  | _, [] => True
  | first, k :: rest =>
      ∃ start count, first ≤ start ∧ start + count < 1048576 ∧ k.virt.toNat = 4096 * start ∧
        (k.physEnd - k.physStart).toNat = 4096 * (count + 1) ∧
        (∀ i, start / 1024 ≤ i → i ≤ (start + count) / 1024 → i ∈ kernelTables) ∧
        Covers (start + count + 1) rest

/-- How large the kernel's text and its memory are. -/
theorem kernel_sizes (symbols : Symbols) :
    0x80100000 < symbols.data.toNat ∧ symbols.data.toNat < 0x8E000000 ∧
      (v2p symbols.data - v2p kernlink).toNat = symbols.data.toNat - 0x80100000 ∧
      (phystop - v2p symbols.data).toNat = 0x8E000000 - symbols.data.toNat := by
  have after : 0x80100000 < symbols.data.toNat := symbols.after
  have before : symbols.data.toNat < 0x8E000000 := Nat.lt_of_le_of_lt symbols.ordered symbols.before
  have base : kernbase ≤ symbols.data := UInt32.le_iff_toNat_le.mpr (by
    rw [toNat_kernbase]
    omega)
  have physical : (v2p symbols.data).toNat = symbols.data.toNat - 0x80000000 := toNat_v2p base
  refine ⟨after, before, ?_, ?_⟩
  · rw [UInt32.toNat_sub, physical, show (v2p kernlink).toNat = 0x100000 by rfl]
    omega
  · rw [UInt32.toNat_sub, physical, show phystop.toNat = 0xE000000 by rfl]
    omega

theorem kmap_covers (symbols : Symbols) : Covers userPages (kmap symbols) := by
  have aligned := symbols.aligned
  obtain ⟨after, before, text, rest⟩ := kernel_sizes symbols
  have low : ∀ i, 512 ≤ i → i < 568 → i ∈ kernelTables := fun i after before =>
    Finset.mem_union_left _ (Finset.mem_Ico.mpr ⟨after, before⟩)
  have high : ∀ i, 1016 ≤ i → i < 1024 → i ∈ kernelTables := fun i after before =>
    Finset.mem_union_right _ (Finset.mem_Ico.mpr ⟨after, before⟩)
  refine ⟨0x80000, 255, Nat.le_refl _, by decide, by rfl, by rfl,
    fun i _ _ => low i (by omega) (by omega),
    0x80100, symbols.data.toNat / 4096 - 0x80101, Nat.le_refl _, by omega, by rfl, ?_,
    fun i _ _ => low i (by omega) (by omega),
    symbols.data.toNat / 4096, 0x8DFFF - symbols.data.toNat / 4096, by omega, by omega, ?_, ?_,
    fun i _ _ => low i (by omega) (by omega),
    0xFE000, 8191, by omega, by decide, by rfl, by rfl,
    fun i _ _ => high i (by omega) (by omega), trivial⟩
  · rw [text]
    omega
  · change symbols.data.toNat = _
    omega
  · rw [rest]
    omega

/-- Only the kernel is mapped. -/
structure Space.KernelOnly (s : Space symbols) : Prop where
  user : ∀ n < userPages, s.pte n = 0
  table : ∀ i page, s.table i = some page → i ∈ kernelTables

/-- The pages of the mappings have their entries, and the others are as before. -/
structure MapsKernel (first : Nat) (mappings : List Kmap) (s next : Space symbols) : Prop where
  entries : ∀ k ∈ mappings, ∀ i, 4096 * i < (k.physEnd - k.physStart).toNat →
    next.pte (k.virt.toNat / 4096 + i) = World.rangeEntry k.physStart k.perm i
  others : ∀ n, next.pte n = s.pte n ∨ ∃ k ∈ mappings, ∃ i,
    4096 * i < (k.physEnd - k.physStart).toNat ∧ n = k.virt.toNat / 4096 + i
  below : ∀ n < first, next.pte n = s.pte n

/-- `setupkvm` leaves no page table of the kernel out. -/
theorem MapsKernel.tables {dir : Page symbols}
    (maps : MapsKernel userPages (kmap symbols) (Space.empty dir) s) {i : Nat}
    (member : i ∈ kernelTables) : s.table i ≠ none := by
  have aligned := symbols.aligned
  obtain ⟨after, before, text, rest⟩ := kernel_sizes symbols
  have first : ∃ k ∈ kmap symbols, ∃ j, 4096 * j < (k.physEnd - k.physStart).toNat ∧
      k.virt.toNat / 4096 + j = 1024 * i := by
    rw [kernelTables, Finset.mem_union, Finset.mem_Ico, Finset.mem_Ico] at member
    by_cases low : i = 512
    · exact ⟨⟨kernbase, 0, extmem, pteW⟩, by simp [kmap], 0, by decide, by subst low; rfl⟩
    · by_cases devices : 1016 ≤ i
      · refine ⟨⟨devspace, devspace, 0, pteW⟩, by simp [kmap], 1024 * i - 0xFE000, ?_, ?_⟩
        · rw [show ((0 : UInt32) - devspace).toNat = 0x2000000 by rfl]
          omega
        · rw [show devspace.toNat = 0xFE000000 by rfl]
          omega
      · by_cases data : symbols.data.toNat / 4096 ≤ 1024 * i
        · refine ⟨⟨symbols.data, v2p symbols.data, phystop, pteW⟩, by simp [kmap],
            1024 * i - symbols.data.toNat / 4096, ?_, Nat.add_sub_cancel' data⟩
          rw [rest]
          omega
        · refine ⟨⟨kernlink, v2p kernlink, v2p symbols.data, 0⟩, by simp [kmap],
            1024 * i - 0x80100, ?_, ?_⟩
          · rw [text]
            omega
          · rw [show kernlink.toNat = 0x80100000 by rfl]
            omega
  obtain ⟨k, mapped, j, inside, number⟩ := first
  have entry := maps.entries k mapped j inside
  rw [number] at entry
  intro none
  have absent := s.absent (1024 * i) (by rw [Nat.mul_div_cancel_left i (by decide)]; exact none)
  rw [entry] at absent
  exact not_present_zero (absent ▸ present_or_pteP _)

namespace World

/-- The loop of `setupkvm` maps the rest of the kernel or gives everything back,
which happens when all pages were in use. -/
theorem mapKernel (world : World all m s free) {first : Nat} {rest : List Kmap}
    (only : s.KernelOnly) (covers : Covers first rest) (kernel : userPages ≤ first)
    (unmapped : ∀ n, first ≤ n → ¬Present (s.pte n)) :
    (∃ later freed full final, World all full final [] ∧ final.KernelOnly ∧
      (∃ i ∈ kernelTables, final.table i = none) ∧
      mapKernel symbols s.dir.addr rest m = .done 0 later ∧ later.Free freed ∧
      (∀ page, page ∈ freed ↔ page ∈ all) ∧ ∀ page, page ∉ all → m.Same later page) ∨
    ∃ later next remaining, mapKernel symbols s.dir.addr rest m = .done s.dir.addr later ∧
      World all later next remaining ∧ Grows m s free later next remaining ∧
      next.KernelOnly ∧ MapsKernel first rest s next := by
  induction rest generalizing m s free first with
  | nil =>
      exact Or.inr ⟨m, s, free, rfl, world, Grows.refl m s free, only,
        fun _ member => absurd member List.not_mem_nil, fun _ => Or.inl rfl, fun _ _ => rfl⟩
  | cons k rest inductionHypothesis =>
      obtain ⟨start, count, after, inside, address, whole, allowed, covers⟩ := covers
      obtain ⟨result, middle, grown, used, mapped, holding, grows, kept, tables, decides⟩ :=
        world.mappages_kernel k.physStart k.perm (Nat.le_trans kernel after) inside address whole
          fun n below _ => unmapped n (Nat.le_trans after below)
      have still : grown.KernelOnly := by
        refine ⟨fun n user => (kept n (by omega)).trans (only.user n user), ?_⟩
        intro i page there
        by_cases within : start / 1024 ≤ i ∧ i ≤ (start + count) / 1024
        · exact allowed i within.1 within.2
        · rw [tables i (by omega)] at there
          exact only.table i page there
      have number : k.virt.toNat / 4096 = start := by omega
      rcases decides with ⟨rfl, rfl, i, above, below, none⟩ | ⟨rfl, entries⟩
      · obtain ⟨later, freed, ran, frees, -, same, others⟩ := holding.freevm
        rw [grows.dir] at ran
        refine Or.inl ⟨later, freed, middle, grown, holding, still, ⟨i, allowed i above below, none⟩,
          ?_, frees, same,
          fun page outside => (world.same_outside grows outside).trans (others page outside)⟩
        rw [Vm.mapKernel, Action.bind_done mapped, if_pos (by decide), Action.bind_done ran]
        rfl
      · have step : Vm.mapKernel symbols s.dir.addr (k :: rest) m =
            Vm.mapKernel symbols grown.dir.addr rest middle := by
          rw [Vm.mapKernel, Action.bind_done mapped, if_neg (by decide), grows.dir]
        rw [step, ← grows.dir]
        rcases inductionHypothesis holding still covers (by omega) (by
          intro n below
          rw [kept n (by omega)]
          exact unmapped n (by omega)) with
          ⟨later, freed, full, final, out, last, partly, ran, frees, same, others⟩ |
          ⟨later, next, remaining, ran, final, more, last, maps⟩
        · exact Or.inl ⟨later, freed, full, final, out, last, partly, ran, frees, same,
            fun page outside => (world.same_outside grows outside).trans (others page outside)⟩
        · refine Or.inr ⟨later, next, remaining, ran, final, grows.trans more, last, ?_, ?_, ?_⟩
          · intro other member i inside
            obtain rfl | listed := List.mem_cons.mp member
            · rw [number, maps.below _ (by omega)]
              exact entries i (by omega)
            · exact maps.entries other listed i inside
          · intro n
            obtain same | ⟨other, listed, place⟩ := maps.others n
            · by_cases within : start ≤ n ∧ n ≤ start + count
              · refine Or.inr ⟨k, List.mem_cons_self .., n - start, ?_, ?_⟩
                · omega
                · omega
              · rw [same, kept n (by omega)]
                exact Or.inl rfl
            · exact Or.inr ⟨other, List.mem_cons_of_mem _ listed, place⟩
          · intro n below
            rw [maps.below n (by omega), kept n (by omega)]

end World

/-- The directory of a new space is the first free page. -/
theorem world_empty {dir : Page symbols} (frees : m.Free (dir :: free)) :
    World {page | page ∈ dir :: free} ((m.take dir).fill dir 0) (Space.empty dir) free where
  frees := by
    refine frees.take.congr (fun other listed => Machine.same_fill ?_ 0) rfl
    rintro rfl
    exact (List.nodup_cons.mp frees.nodup).1 listed
  holds := by
    constructor
    · intro i inside _
      rw [Space.empty, Machine.word_fill_zero inside]
      exact not_present_zero
    · intro i page there
      cases there
    · intro n page there
      cases there
  backed := fun _ _ present => absurd present not_present_zero
  accounts := by
    have used := (List.nodup_cons.mp frees.nodup).1
    refine ⟨⟨?_, ?_⟩, ?_, fun page listed => List.mem_cons_of_mem _ listed⟩
    · intro place page held
      cases place with
      | dir =>
          cases held
          exact ⟨List.mem_cons_self .., used⟩
      | table i => cases held
      | user n => exact absurd held.2.1 not_present_zero
    · intro place other page held also
      cases place with
      | dir =>
          cases other with
          | dir => rfl
          | table i => cases also
          | user n => exact absurd also.2.1 not_present_zero
      | table i => cases held
      | user n => exact absurd held.2.1 not_present_zero
    · intro page listed
      rcases List.mem_cons.mp listed with rfl | rest
      · exact Or.inr ⟨.dir, rfl⟩
      · exact Or.inl rest

/-- The pages of the account are free, the directory, page tables, or mapped for the user. -/
theorem World.count {listed : List (Page symbols)} (nodup : listed.Nodup)
    (world : World {page | page ∈ listed} m s free) (tables users : Finset Nat)
    (table : ∀ i, i ∈ tables ↔ s.table i ≠ none)
    (user : ∀ n, n ∈ users ↔ n < userPages ∧ Present (s.pte n)) :
    listed.length = free.length + (1 + tables.card + users.card) := by
  classical
  have accounts := world.accounts
  rw [← List.coe_toFinset, ← List.coe_toFinset] at accounts
  have taken : ∀ place : Place, place ∈ {Place.dir} ∪ tables.image Place.table ∪
      users.image Place.user ↔ ∃ page, s.Has place page := by
    intro place
    cases place with
    | dir => simpa using (⟨s.dir, rfl⟩ : ∃ page, s.Has .dir page)
    | table i =>
        have there : (∃ page, s.Has (.table i) page) ↔ s.table i ≠ none :=
          Option.ne_none_iff_exists'.symm
        rw [there, ← table]
        simp
    | user n =>
        have mapped : (∃ page, s.Has (.user n) page) ↔ n < userPages ∧ Present (s.pte n) := by
          constructor
          · rintro ⟨page, below, present, -⟩
            exact ⟨below, present⟩
          · rintro ⟨below, present⟩
            obtain ⟨page, frame⟩ := world.backed n below present
            exact ⟨page, below, present, frame⟩
        rw [mapped, ← user]
        simp
  have counted := accounts.card taken fun place first second one two =>
    (Space.has_only one two).symm
  have apart : Disjoint ({Place.dir} ∪ tables.image Place.table) (users.image Place.user) := by
    rw [Finset.disjoint_right]
    intro place member
    obtain ⟨n, -, rfl⟩ := Finset.mem_image.mp member
    simp
  have first : Disjoint {Place.dir} (tables.image Place.table) := by
    rw [Finset.disjoint_singleton_left]
    simp
  rw [List.toFinset_card_of_nodup nodup, List.toFinset_card_of_nodup world.frees.nodup,
    Finset.card_union_of_disjoint apart, Finset.card_union_of_disjoint first,
    Finset.card_singleton, Finset.card_image_of_injective _ fun _ _ same => Place.table.inj same,
    Finset.card_image_of_injective _ fun _ _ same => Place.user.inj same] at counted
  exact counted

theorem card_kernelTables : kernelTables.card = 64 := by decide +kernel

/-- A space that maps the kernel only, and not all of it, holds few pages. -/
theorem World.kernel_pages {listed : List (Page symbols)} (nodup : listed.Nodup)
    (world : World {page | page ∈ listed} m s []) (only : s.KernelOnly)
    (partly : ∃ i ∈ kernelTables, s.table i = none) : listed.length ≤ 64 := by
  obtain ⟨absent, member, vacant⟩ := partly
  have counted := world.count nodup (kernelTables.filter fun i => s.table i ≠ none) ∅
    (by
      intro i
      rw [Finset.mem_filter]
      refine ⟨And.right, fun there => ⟨?_, there⟩⟩
      obtain ⟨page, held⟩ := Option.ne_none_iff_exists'.mp there
      exact only.table i page held)
    (by
      intro n
      refine iff_of_false (Finset.notMem_empty n) ?_
      rintro ⟨below, present⟩
      rw [only.user n below] at present
      exact not_present_zero present)
  have fewer : (kernelTables.filter fun i => s.table i ≠ none).card < kernelTables.card := by
    apply Finset.card_lt_card
    rw [Finset.filter_ssubset]
    exact ⟨absent, member, fun there => there vacant⟩
  rw [card_kernelTables] at fewer
  rw [List.length_nil, Finset.card_empty] at counted
  omega

/-- `setupkvm` gives a space without user pages; when it fails the free pages
are the same, and they were few. -/
theorem setupkvm_spec (frees : m.Free free) :
    (∃ later rest, free.length ≤ 64 ∧ setupkvm symbols m = .done 0 later ∧ later.Free rest ∧
      (∀ page, page ∈ rest ↔ page ∈ free) ∧ ∀ page, page ∉ free → m.Same later page) ∨
    ∃ later s rest, setupkvm symbols m = .done s.dir.addr later ∧
      World {page | page ∈ free} later s rest ∧ rest <:+ free ∧
      s.KernelOnly ∧ (∀ page, page ∉ free → m.Same later page) ∧
      MapsKernel userPages (kmap symbols) (Space.empty s.dir) s := by
  cases free with
  | nil =>
      refine Or.inl ⟨m, [], Nat.zero_le _, ?_, frees, fun _ => Iff.rfl,
        fun page _ => Machine.Same.refl m page⟩
      rw [setupkvm, Action.bind_done frees.kalloc_nil, if_pos rfl]
      rfl
  | cons dir free =>
      have blank : ∀ page, page ∉ dir :: free → m.Same ((m.take dir).fill dir 0) page := by
        intro page outside
        refine (Machine.same_take page).trans (Machine.same_fill ?_ 0)
        rintro rfl
        exact outside (List.mem_cons_self ..)
      have step : setupkvm symbols m =
          mapKernel symbols dir.addr (kmap symbols) ((m.take dir).fill dir 0) := by
        rw [setupkvm, Action.bind_done frees.kalloc_cons, if_neg dir.addr_ne_zero, memset,
          Action.modify_bind, if_neg (by decide)]
        rfl
      rw [step]
      have nothing : (Space.empty dir).KernelOnly := ⟨fun _ _ => rfl, fun _ _ there => by cases there⟩
      rcases (world_empty frees).mapKernel nothing (kmap_covers symbols) (Nat.le_refl _)
          (fun n _ => not_present_zero) with
        ⟨later, freed, full, final, out, last, partly, ran, again, same, others⟩ |
        ⟨later, next, rest, ran, final, grows, last, maps⟩
      · exact Or.inl ⟨later, freed, out.kernel_pages frees.nodup last partly, ran, again, same,
          fun page outside => (blank page outside).trans (others page outside)⟩
      · refine Or.inr ⟨later, next, rest, ?_, final, grows.suffix.trans (List.suffix_cons _ _),
          last, fun page outside => (blank page outside).trans
            ((world_empty frees).same_outside grows outside), ?_⟩
        · rw [grows.dir]
          exact ran
        · rw [grows.dir]
          exact maps

/-! ## allocuvm -/

/-- The entry that `allocuvm` makes for a page. -/
def userEntry (page : Page symbols) : UInt32 := v2p page.addr ||| (pteW ||| pteU) ||| pteP

theorem userEntry_present (page : Page symbols) : Present (userEntry page) := present_or_pteP _

theorem userEntry_frame (page : Page symbols) : p2v (pteAddr (userEntry page)) = page.addr := by
  rw [userEntry, UInt32.or_assoc]
  exact page.p2v_pteAddr (by decide)

/-- The pages from `lo` to `hi` are mapped to cleared pages that were free, and
they have got the page tables they lacked. -/
structure Grown (lo hi : Nat) (m : Machine) (s : Space symbols) (free : List (Page symbols))
    (later : Machine) (next : Space symbols) (rest : List (Page symbols)) : Prop where
  grows : Grows m s free later next rest
  kept : ∀ n, ¬(lo ≤ n ∧ n < hi) → next.pte n = s.pte n
  mapped : ∀ n, lo ≤ n → n < hi → ∃ page, page ∈ free ∧ next.pte n = userEntry page ∧
    ∀ offset < 4096, later.byte page offset = 0
  tables : ∀ i, next.table i ≠ none ↔ s.table i ≠ none ∨ ∃ k, lo ≤ k ∧ k < hi ∧ k / 1024 = i

theorem Grown.none {lo hi : Nat} (empty : hi ≤ lo) (m : Machine) (s : Space symbols)
    (free : List (Page symbols)) : Grown lo hi m s free m s free where
  grows := Grows.refl m s free
  kept _ _ := rfl
  mapped _ after before := absurd before (by omega)
  tables i := by
    constructor
    · exact Or.inl
    · rintro (there | ⟨k, after, before, -⟩)
      · exact there
      · omega

/-- The pages before `k` were mapped, and then there was no free page for page `k`, or just one
while it had no page table. -/
def RanOut (lo hi : Nat) (all : Set (Page symbols)) (m : Machine) (s : Space symbols)
    (free : List (Page symbols)) : Prop :=
  ∃ k middle grown left, lo ≤ k ∧ k < hi ∧ World all middle grown left ∧
    Grown lo k m s free middle grown left ∧
    (left.length = 0 ∨ left.length = 1 ∧ grown.table (k / 1024) = none)

/-- The pages from `lo` to `hi` are not mapped any more, and the others as before. -/
structure Undone (lo hi : Nat) (all : Set (Page symbols)) (m : Machine) (s : Space symbols)
    (later : Machine) (next : Space symbols) : Prop where
  dir : next.dir = s.dir
  cleared : ∀ n, lo ≤ n → n < hi → ¬Present (next.pte n)
  kept : ∀ n, ¬(lo ≤ n ∧ n < hi) → next.pte n = s.pte n
  same : ∀ page, page ∉ all → m.Same later page
  table : ∀ i page, s.table i = some page → next.table i = some page
  users : ∀ n page, ¬(lo ≤ n ∧ n < hi) → s.Has (.user n) page → m.Same later page

namespace World

variable {page : Page symbols}

/-- The first free page is taken and written. -/
theorem takeWrite (world : World all m s (page :: free)) {later : Machine}
    (same : ∀ other, other ≠ page → (m.take page).Same later other)
    (head : later.freelist = (m.take page).freelist) : World (all \ {page}) later s free := by
  obtain ⟨_, fresh, nowhere⟩ := world.first_fresh
  refine world.take.congr (fun other used => same other ?_) head
  rintro rfl
  rcases used with listed | dir | ⟨i, there⟩
  · exact fresh listed
  · exact nowhere .dir dir
  · exact nowhere (.table i) there

theorem insert_taken (world : World all m s (page :: free)) : insert page (all \ {page}) = all := by
  rw [Set.insert_sdiff_singleton, Set.insert_eq_of_mem world.first_fresh.1]

theorem same_shrunk (world : World all m s free) {lo hi : Nat} {later : Machine}
    {next : Space symbols} {rest : List (Page symbols)}
    (shrinks : Shrinks lo hi m s free later next rest) {other : Page symbols}
    (outside : other ∉ all) : m.Same later other :=
  shrinks.same other (fun _ _ _ mapped => outside (world.has_all mapped))
    (fun entries => outside (world.structural_all entries))

/-- `allocuvm` cleans up after a failure. -/
theorem undo (world : World all m s free) (oldsz : UInt32) {newsz : UInt32}
    (user : newsz ≤ kernbase) :
    ∃ value later next rest, deallocuvm symbols s.dir.addr newsz oldsz m = .done value later ∧
      World all later next rest ∧ Undone (pages oldsz) (pages newsz) all m s later next := by
  obtain ⟨later, next, rest, ran, shrunk, shrinks⟩ := world.deallocuvm_shrinks oldsz user
  refine ⟨_, later, next, rest, ran, shrunk, shrinks.dir, shrinks.cleared, shrinks.kept,
    fun page outside => world.same_shrunk shrinks outside, ?_, ?_⟩
  · intro i page there
    rw [shrinks.table]
    exact there
  · intro n page outside held
    refine shrinks.same page ?_ (world.user_data held)
    intro k after inside also
    have places := world.accounts.owned.once (.user n) (.user k) page held also
    injection places with number
    omega

/-- One page was mapped, and then the others. -/
theorem grown_cons (world : World all m s (page :: free)) {n hi : Nat} {middle later : Machine}
    {mapped next : Space symbols} {used rest : List (Page symbols)} (below : n < userPages)
    (inside : n < hi) (holding : World all middle mapped used)
    (grows : Grows ((m.take page).fill page 0) s free middle mapped used)
    (entry : mapped.pte = Function.update s.pte n (userEntry page))
    (there : mapped.table (n / 1024) ≠ none)
    (elsewhere : ∀ i, i ≠ n / 1024 → mapped.table i = s.table i)
    (grown : Grown (n + 1) hi middle mapped used later next rest) :
    Grown n hi m s (page :: free) later next rest := by
  obtain ⟨_, fresh, nowhere⟩ := world.first_fresh
  have first : Grows m s (page :: free) ((m.take page).fill page 0) s free := by
    refine ⟨rfl, fun _ _ there => there, fun _ _ there => Or.inl there, List.suffix_cons _ _, ?_,
      fun a below => Machine.fill_low page 0 below⟩
    intro other used _
    refine (Machine.same_take other).trans (Machine.same_fill ?_ 0)
    rintro rfl
    exact used (List.mem_cons_self ..)
  have here : mapped.pte n = userEntry page := by
    rw [entry, Function.update_self]
  have user : mapped.Has (.user n) page := by
    refine ⟨below, ?_, ?_⟩
    · rw [here]
      exact userEntry_present page
    · rw [Space.frame, here, userEntry_frame]
  have data : ¬s.Structural page := by
    rintro (dir | ⟨i, there⟩)
    · exact nowhere .dir dir
    · exact nowhere (.table i) there
  refine ⟨(first.trans grows).trans grown.grows, ?_, ?_, ?_⟩
  · intro k outside
    rw [grown.kept k (by omega), entry, Function.update_of_ne (by omega)]
  · intro k after before
    by_cases same : k = n
    · refine ⟨page, List.mem_cons_self .., ?_, ?_⟩
      · rw [same, grown.kept n (by omega), here]
      · intro offset within
        rw [grown.grows.same page (holding.has_used user) (holding.user_data user) offset within,
          grows.same page fresh data offset within]
        exact Machine.byte_fill 0 within
    · obtain ⟨other, listed, pte, zero⟩ := grown.mapped k (by omega) before
      exact ⟨other, List.mem_cons_of_mem _ (grows.suffix.subset listed), pte, zero⟩
  · intro i
    rw [grown.tables i]
    by_cases same : i = n / 1024
    · exact iff_of_true (Or.inl (same ▸ there)) (Or.inr ⟨n, Nat.le_refl n, inside, same.symm⟩)
    · rw [elsewhere i same]
      refine or_congr_right ⟨?_, ?_⟩
      · rintro ⟨k, after, before, number⟩
        exact ⟨k, by omega, before, number⟩
      · rintro ⟨k, after, before, number⟩
        have other : k ≠ n := fun equal => same (equal ▸ number.symm)
        exact ⟨k, by omega, before, number⟩

/-- The loop of `allocuvm` panics if a page of the range is mapped already;
else it maps them all or, when it runs out of memory, none of them. -/
theorem allocFrom (world : World all m s free) {oldsz newsz a : UInt32} {n fuel : Nat}
    (address : a.toNat = 4096 * n) (user : newsz < kernbase)
    (enough : pages newsz < n + fuel) (turn : 0 < fuel) (start : pages oldsz ≤ n) :
    (allocFrom symbols s.dir.addr oldsz newsz fuel a m = .panic "remap" ∧
      ∃ k, n ≤ k ∧ k < pages newsz ∧ Present (s.pte k)) ∨
    ∃ value later next rest,
      allocFrom symbols s.dir.addr oldsz newsz fuel a m = .done value later ∧
      World all later next rest ∧
      (value = newsz ∧ Grown n (pages newsz) m s free later next rest ∨
        value = 0 ∧ Undone (pages oldsz) (pages newsz) all m s later next ∧
          RanOut n (pages newsz) all m s free) := by
  have bound : newsz.toNat < 0x80000000 := UInt32.lt_iff_toNat_lt.mp user
  have top : pages newsz ≤ userPages := by
    unfold pages userPages
    omega
  induction fuel generalizing m s free n a with
  | zero => cases turn
  | succ fuel inductionHypothesis =>
      by_cases more : a < newsz
      · have inside : n < pages newsz := by
          rw [UInt32.lt_iff_toNat_lt] at more
          unfold pages
          omega
        have userPage : n < userPages := Nat.lt_of_lt_of_le inside top
        cases free with
        | nil =>
            obtain ⟨value, later, next, rest, ran, undone, changes⟩ :=
              world.undo oldsz (UInt32.le_of_lt user)
            refine Or.inr ⟨0, later, next, rest, ?_, undone, Or.inr ⟨rfl, changes, n, m, s, [],
              Nat.le_refl n, inside, world, Grown.none (Nat.le_refl n) .., Or.inl rfl⟩⟩
            rw [Vm.allocFrom, if_pos more, Action.bind_done world.frees.kalloc_nil, if_pos rfl,
              Action.bind_done ran]
            rfl
        | cons page free =>
            have step : Vm.allocFrom symbols s.dir.addr oldsz newsz (fuel + 1) a m =
                (mappages s.dir.addr a pgsize (v2p page.addr) (pteW ||| pteU) >>= fun mapped =>
                  if mapped < 0 then do
                    let _ ← deallocuvm symbols s.dir.addr newsz oldsz
                    kfree symbols page.addr
                    return 0
                  else Vm.allocFrom symbols s.dir.addr oldsz newsz fuel (a + pgsize))
                ((m.take page).fill page 0) := by
              rw [Vm.allocFrom, if_pos more, Action.bind_done world.frees.kalloc_cons,
                if_neg page.addr_ne_zero, memset, Action.modify_bind]
              rfl
            have cleared := world.takeWrite
              (fun other different => Machine.same_fill different 0) rfl
            by_cases present : Present (s.pte n)
            · refine Or.inl ⟨?_, n, Nat.le_refl n, inside, present⟩
              rw [step]
              exact Action.bind_panic (cleared.mappages_remap address present)
            · rcases cleared.mappages_user address userPage
                  (show (pteW ||| pteU).toNat < 4096 by decide)
                  (show page ∉ all \ {page} from fun outside => outside.2 rfl) present with
                ⟨rfl, absent, failed⟩ | ⟨middle, mapped, used, ran, holding, grows, entry, there,
                  elsewhere⟩
              · obtain ⟨value, later, next, rest, ran, undone, changes⟩ :=
                  cleared.undo oldsz (UInt32.le_of_lt user)
                have released := undone.release fun outside => outside.2 rfl
                rw [world.insert_taken] at released
                refine Or.inr ⟨0, later.release page, next, page :: rest, ?_, released,
                  Or.inr ⟨rfl, ⟨changes.dir, changes.cleared, changes.kept, ?_, changes.table, ?_⟩,
                    n, m, s, [page], Nat.le_refl n, inside, world, Grown.none (Nat.le_refl n) ..,
                    Or.inr ⟨rfl, absent⟩⟩⟩
                · rw [step, Action.bind_done failed, if_pos (by decide), Action.bind_done ran,
                    Action.bind_done (Machine.kfree_page later page)]
                  rfl
                · intro other outside
                  have different : other ≠ page := by
                    rintro rfl
                    exact outside world.first_fresh.1
                  exact (((Machine.same_take other).trans (Machine.same_fill different 0)).trans
                    (changes.same other fun member => outside member.1)).trans
                    (Machine.same_release different)
                · intro k other outside held
                  have different : other ≠ page := by
                    rintro rfl
                    exact world.has_used held (List.mem_cons_self ..)
                  exact (((Machine.same_take other).trans (Machine.same_fill different 0)).trans
                    (changes.users k other outside held)).trans (Machine.same_release different)
              · rw [world.insert_taken] at holding
                have others : ∀ k, k ≠ n → mapped.pte k = s.pte k := by
                  intro k different
                  rw [entry, Function.update_of_ne different]
                have next := vpn_next address (by unfold userPages at userPage; omega)
                rw [step, Action.bind_done ran, if_neg (by decide), ← grows.dir]
                rcases inductionHypothesis holding next (by omega) (by omega) (by omega) with
                  ⟨panic, k, after, before, already⟩ | ⟨value, later, final, rest, ran, ends, result⟩
                · refine Or.inl ⟨panic, k, by omega, before, ?_⟩
                  rw [← others k (by omega)]
                  exact already
                · refine Or.inr ⟨value, later, final, rest, ran, ends, ?_⟩
                  rcases result with ⟨same, grown⟩ |
                    ⟨zero, changes, k, past, before, left, after, below, world', grown, short⟩
                  · exact Or.inl ⟨same, world.grown_cons userPage inside holding grows entry there
                      elsewhere grown⟩
                  · refine Or.inr ⟨zero, ⟨changes.dir.trans grows.dir, changes.cleared, ?_, ?_,
                      fun i other there => changes.table i other (grows.table i other there), ?_⟩,
                      k, past, before, left, by omega, below, world', world.grown_cons userPage
                        (by omega) holding grows entry there elsewhere grown, short⟩
                    · intro k outside
                      rw [changes.kept k outside, others k (by omega)]
                    · intro other outside
                      have different : other ≠ page := by
                        rintro rfl
                        exact outside world.first_fresh.1
                      exact (((Machine.same_take other).trans
                        (Machine.same_fill different 0)).trans (cleared.same_outside grows
                          fun member => outside member.1)).trans (changes.same other outside)
                    · intro k other outside held
                      have different : other ≠ page := by
                        rintro rfl
                        exact world.has_used held (List.mem_cons_self ..)
                      have still : mapped.Has (.user k) other := by
                        refine ⟨held.1, ?_, ?_⟩
                        · rw [others k (by omega)]
                          exact held.2.1
                        · rw [Space.frame, others k (by omega)]
                          exact held.2.2
                      exact (((Machine.same_take other).trans
                        (Machine.same_fill different 0)).trans (grows.same other
                          (fun listed => world.has_used held (List.mem_cons_of_mem _ listed))
                          (world.user_data held))).trans (changes.users k other outside still)
      · refine Or.inr ⟨newsz, m, s, free, ?_, world, Or.inl ⟨rfl, Grown.none ?_ m s free⟩⟩
        · rw [Vm.allocFrom, if_neg more]
          rfl
        · rw [UInt32.lt_iff_toNat_lt] at more
          unfold pages
          omega

/-- What `allocuvm` does. It panics where a page is mapped already; else it
maps the new pages, or it returns 0. -/
theorem allocuvm (world : World all m s free) (oldsz newsz : UInt32) :
    (allocuvm symbols s.dir.addr oldsz newsz m = .panic "remap" ∧
      ∃ k, pages oldsz ≤ k ∧ k < pages newsz ∧ Present (s.pte k)) ∨
    ∃ value later next rest, allocuvm symbols s.dir.addr oldsz newsz m = .done value later ∧
      World all later next rest ∧ next.dir = s.dir ∧
      (newsz < kernbase ∧ value = (if newsz < oldsz then oldsz else newsz) ∧
          Grown (pages oldsz) (pages newsz) m s free later next rest ∨
        value = 0 ∧ (kernbase ≤ newsz ∨ RanOut (pages oldsz) (pages newsz) all m s free) ∧
          ∀ page, page ∉ all → m.Same later page) := by
  by_cases kernel : kernbase ≤ newsz
  · refine Or.inr ⟨0, m, s, free, ?_, world, rfl, Or.inr ⟨rfl, Or.inl kernel, fun page _ =>
      Machine.Same.refl m page⟩⟩
    rw [Vm.allocuvm, if_pos kernel]
    rfl
  · have user := UInt32.not_le.mp kernel
    by_cases smaller : newsz < oldsz
    · refine Or.inr ⟨oldsz, m, s, free, ?_, world, rfl, Or.inl ⟨user, (if_pos smaller).symm,
        Grown.none ?_ m s free⟩⟩
      · rw [Vm.allocuvm, if_neg kernel, if_pos smaller]
        rfl
      · rw [UInt32.lt_iff_toNat_lt] at smaller
        unfold pages
        omega
    · have order : oldsz.toNat ≤ newsz.toNat := UInt32.le_iff_toNat_le.mp (UInt32.not_lt.mp smaller)
      have bound : newsz.toNat < 0x80000000 := UInt32.lt_iff_toNat_lt.mp user
      have address : (pgRoundUp oldsz).toNat = 4096 * pages oldsz := by
        rw [toNat_pgRoundUp (by omega), pages, Nat.mul_comm]
      have ran : Vm.allocuvm symbols s.dir.addr oldsz newsz m =
          Vm.allocFrom symbols s.dir.addr oldsz newsz turns (pgRoundUp oldsz) m := by
        rw [Vm.allocuvm, if_neg kernel, if_neg smaller]
      rw [ran]
      rcases world.allocFrom address user
          (show pages newsz < pages oldsz + turns by
            unfold pages turns npdentries nptentries
            omega)
          (by decide) (Nat.le_refl _) with
        panic | ⟨value, later, next, rest, ended, holding, result⟩
      · exact Or.inl panic
      · refine Or.inr ⟨value, later, next, rest, ended, holding, ?_, ?_⟩
        · rcases result with ⟨-, grown⟩ | ⟨-, undone, -⟩
          · exact grown.grows.dir
          · exact undone.dir
        · rcases result with ⟨same, grown⟩ | ⟨zero, undone, ranOut⟩
          · exact Or.inl ⟨user, same.trans (if_neg smaller).symm, grown⟩
          · exact Or.inr ⟨zero, Or.inr ranOut, undone.same⟩

end World

end Xv6.Vm
