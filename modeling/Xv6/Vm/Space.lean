import Xv6.Library.Ownership
import Xv6.Vm.PageTable

/-!
# Address spaces

An address space is a directory, the page tables it points to, and an entry
for each virtual page. A machine holds it when its memory says the same. In a
world the pages of an account are free or held by one place of the space.
-/

namespace Xv6.Vm

open Xv6.Library

variable {symbols : Symbols}

/-- The number of the virtual page of an address. -/
def vpn (va : UInt32) : Nat := va.toNat / 4096

theorem vpn_lt (va : UInt32) : vpn va < 1048576 := by
  have bound := va.toNat_lt
  unfold vpn
  omega

/-- The number of virtual pages below KERNBASE. -/
def userPages : Nat := 524288

/-- Pages without a page table have no entry. -/
structure Space (symbols : Symbols) where
  dir : Page symbols
  table : Nat → Option (Page symbols)
  pte : Nat → UInt32
  small : ∀ i page, table i = some page → i < 1024
  absent : ∀ vpn, table (vpn / 1024) = none → pte vpn = 0

/-- Where an address space uses a page. -/
inductive Place where
  | dir
  | table (i : Nat)
  | user (vpn : Nat)

namespace Space

variable (s : Space symbols)

/-- The kernel address of what a virtual page is mapped to. -/
def frame (vpn : Nat) : UInt32 := p2v (pteAddr (s.pte vpn))

def Has : Place → Page symbols → Prop
  | .dir, page => page = s.dir
  | .table i, page => s.table i = some page
  | .user vpn, page => vpn < userPages ∧ Present (s.pte vpn) ∧ s.frame vpn = page.addr

/-- The pages that hold the entries. -/
def Structural (page : Page symbols) : Prop := page = s.dir ∨ ∃ i, s.table i = some page

theorem has_only {s : Space symbols} {place : Place} {page other : Page symbols}
    (held : s.Has place page) (also : s.Has place other) : other = page := by
  cases place with
  | dir => exact Eq.trans also held.symm
  | table i => exact Option.some.inj (Eq.trans (Eq.symm also) held)
  | user vpn => exact Page.ext (also.2.2.symm.trans held.2.2)

/-- The space without page tables. -/
def empty (dir : Page symbols) : Space symbols where
  dir := dir
  table := fun _ => none
  pte := fun _ => 0
  small := fun _ _ none => by cases none
  absent := fun _ _ => rfl

/-- The space with a new page table. -/
def addTable {i : Nat} (inside : i < 1024) (page : Page symbols) : Space symbols where
  dir := s.dir
  table := Function.update s.table i (some page)
  pte := s.pte
  small := by
    intro j other some
    by_cases same : j = i
    · exact same ▸ inside
    · exact s.small j other ((Function.update_of_ne same _ _).symm.trans some)
  absent := by
    intro vpn none
    by_cases same : vpn / 1024 = i
    · rw [same, Function.update_self] at none
      cases none
    · exact s.absent vpn ((Function.update_of_ne same _ _).symm.trans none)

@[simp]
theorem addTable_dir {i : Nat} (inside : i < 1024) (page : Page symbols) :
    (s.addTable inside page).dir = s.dir := rfl

@[simp]
theorem addTable_pte {i : Nat} (inside : i < 1024) (page : Page symbols) :
    (s.addTable inside page).pte = s.pte := rfl

theorem addTable_self {i : Nat} (inside : i < 1024) (page : Page symbols) :
    (s.addTable inside page).table i = some page := Function.update_self ..

theorem addTable_of_ne {i j : Nat} (inside : i < 1024) (page : Page symbols) (different : j ≠ i) :
    (s.addTable inside page).table j = s.table j := Function.update_of_ne different ..

/-- The space with another entry for one page. -/
def setPte {vpn : Nat} {page : Page symbols} (there : s.table (vpn / 1024) = some page)
    (value : UInt32) : Space symbols where
  dir := s.dir
  table := s.table
  pte := Function.update s.pte vpn value
  small := s.small
  absent := by
    intro other none
    by_cases same : other = vpn
    · rw [same, there] at none
      cases none
    · rw [Function.update_of_ne same]
      exact s.absent other none

@[simp]
theorem setPte_dir {vpn : Nat} {page : Page symbols} (there : s.table (vpn / 1024) = some page)
    (value : UInt32) : (s.setPte there value).dir = s.dir := rfl

@[simp]
theorem setPte_table {vpn : Nat} {page : Page symbols} (there : s.table (vpn / 1024) = some page)
    (value : UInt32) : (s.setPte there value).table = s.table := rfl

theorem setPte_self {vpn : Nat} {page : Page symbols} (there : s.table (vpn / 1024) = some page)
    (value : UInt32) : (s.setPte there value).pte vpn = value := Function.update_self ..

theorem setPte_of_ne {vpn other : Nat} {page : Page symbols}
    (there : s.table (vpn / 1024) = some page) (value : UInt32) (different : other ≠ vpn) :
    (s.setPte there value).pte other = s.pte other := Function.update_of_ne different ..

end Space

/-- The memory says what the space is. -/
structure Machine.Holds (m : Machine) (s : Space symbols) : Prop where
  vacant : ∀ i < 1024, s.table i = none → ¬Present (m.word s.dir i)
  points : ∀ i page, s.table i = some page →
    Present (m.word s.dir i) ∧ p2v (pteAddr (m.word s.dir i)) = page.addr
  entries : ∀ vpn page, s.table (vpn / 1024) = some page →
    m.word page (vpn % 1024) = s.pte vpn

theorem Machine.Holds.congr {m later : Machine} {s : Space symbols} (holds : m.Holds s)
    (same : ∀ page, s.Structural page → m.Same later page) : later.Holds s where
  vacant i inside none := by
    rw [(same s.dir (Or.inl rfl)).word inside]
    exact holds.vacant i inside none
  points i page there := by
    rw [(same s.dir (Or.inl rfl)).word (s.small i page there)]
    exact holds.points i page there
  entries vpn page there := by
    rw [(same page (Or.inr ⟨_, there⟩)).word (Nat.mod_lt _ (by decide))]
    exact holds.entries vpn page there

/-- The directory and the page tables are different pages, and none of them is free. -/
structure Machine.WellFormed (m : Machine) (s : Space symbols) (free : List (Page symbols)) :
    Prop where
  frees : m.Free free
  holds : m.Holds s
  apart : ∀ i page, s.table i = some page → page ≠ s.dir
  once : ∀ i j page, s.table i = some page → s.table j = some page → i = j
  unused : ∀ page, s.Structural page → page ∉ free

/-- The pages of `all` are free or held by the space, each once. -/
structure World (all : Set (Page symbols)) (m : Machine) (s : Space symbols)
    (free : List (Page symbols)) : Prop where
  frees : m.Free free
  holds : m.Holds s
  backed : ∀ vpn < userPages, Present (s.pte vpn) →
    ∃ page : Page symbols, s.frame vpn = page.addr
  accounts : Accounted all {page | page ∈ free} s.Has

/-- How mapping more pages may change a world. -/
structure Grows (m : Machine) (s : Space symbols) (free : List (Page symbols)) (later : Machine)
    (next : Space symbols) (rest : List (Page symbols)) : Prop where
  dir : next.dir = s.dir
  table : ∀ i page, s.table i = some page → next.table i = some page
  origin : ∀ i page, next.table i = some page → s.table i = some page ∨ page ∈ free
  suffix : rest <:+ free
  same : ∀ page, page ∉ free → ¬s.Structural page → m.Same later page
  low : ∀ a < 0x80000000, later.memory a = m.memory a

namespace Grows

variable {m middle last : Machine} {s next final : Space symbols}
  {free rest remaining : List (Page symbols)}

theorem refl (m : Machine) (s : Space symbols) (free : List (Page symbols)) :
    Grows m s free m s free where
  dir := rfl
  table := fun _ _ there => there
  origin := fun _ _ there => Or.inl there
  suffix := List.suffix_rfl
  same := fun page _ _ => Machine.Same.refl m page
  low := fun _ _ => rfl

theorem structural (grows : Grows m s free middle next rest) {page : Page symbols}
    (used : page ∉ free) (data : ¬s.Structural page) : ¬next.Structural page := by
  rintro (dir | ⟨i, there⟩)
  · exact data (Or.inl (dir.trans grows.dir))
  · rcases grows.origin i page there with old | new
    · exact data (Or.inr ⟨i, old⟩)
    · exact used new

theorem trans (first : Grows m s free middle next rest)
    (second : Grows middle next rest last final remaining) :
    Grows m s free last final remaining where
  dir := second.dir.trans first.dir
  table := fun i page there => second.table i page (first.table i page there)
  origin := by
    intro i page there
    rcases second.origin i page there with old | new
    · exact first.origin i page old
    · exact Or.inr (first.suffix.subset new)
  suffix := second.suffix.trans first.suffix
  same := fun page used data =>
    (first.same page used data).trans
      (second.same page (fun member => used (first.suffix.subset member))
        (first.structural used data))
  low := fun a below => (second.low a below).trans (first.low a below)

end Grows

namespace World

variable {all : Set (Page symbols)} {m : Machine} {s : Space symbols}
  {free rest : List (Page symbols)} {page : Page symbols}

theorem setOf_mem_cons (page : Page symbols) (free : List (Page symbols)) :
    {other | other ∈ page :: free} = insert page {other | other ∈ free} :=
  Set.ext fun _ => List.mem_cons

theorem has_used (world : World all m s free) {place : Place} (held : s.Has place page) :
    page ∉ free := (world.accounts.owned.given place page held).2

theorem has_all (world : World all m s free) {place : Place} (held : s.Has place page) :
    page ∈ all := (world.accounts.owned.given place page held).1

theorem structural_used (world : World all m s free) (entries : s.Structural page) :
    page ∉ free := by
  rcases entries with dir | ⟨i, there⟩
  · exact world.has_used (show s.Has .dir page from dir)
  · exact world.has_used (show s.Has (.table i) page from there)

theorem table_ne_dir (world : World all m s free) {i : Nat} (there : s.table i = some page) :
    page ≠ s.dir := by
  intro same
  have places := world.accounts.owned.once (.table i) .dir page there same
  cases places

theorem table_injective (world : World all m s free) {i j : Nat} (there : s.table i = some page)
    (also : s.table j = some page) : i = j := by
  have places := world.accounts.owned.once (.table i) (.table j) page there also
  cases places
  rfl

theorem structural_all (world : World all m s free) (entries : s.Structural page) :
    page ∈ all := by
  rcases entries with dir | ⟨i, there⟩
  · exact world.has_all (show s.Has .dir page from dir)
  · exact world.has_all (show s.Has (.table i) page from there)

theorem wellFormed (world : World all m s free) : m.WellFormed s free where
  frees := world.frees
  holds := world.holds
  apart := fun _ _ there => world.table_ne_dir there
  once := fun _ _ _ there also => world.table_injective there also
  unused := fun _ entries => world.structural_used entries

/-- Growing leaves every page outside the account alone. -/
theorem same_outside (world : World all m s free) {later : Machine} {next : Space symbols}
    (grows : Grows m s free later next rest) (outside : page ∉ all) : m.Same later page :=
  grows.same page (fun member => outside (world.accounts.within member))
    (fun entries => outside (world.structural_all entries))

/-- A mapped user page is not one that holds entries. -/
theorem user_data (world : World all m s free) {vpn : Nat} (held : s.Has (.user vpn) page) :
    ¬s.Structural page := by
  rintro (dir | ⟨i, there⟩)
  · have places := world.accounts.owned.once (.user vpn) .dir page held dir
    cases places
  · have places := world.accounts.owned.once (.user vpn) (.table i) page held there
    cases places

/-- The first free page is in the account and has no place. -/
theorem first_fresh (world : World all m s (page :: free)) :
    page ∈ all ∧ page ∉ free ∧ ∀ place, ¬s.Has place page :=
  ⟨world.accounts.within (List.mem_cons_self ..), (List.nodup_cons.mp world.frees.nodup).1,
    fun _ held => world.has_used held (List.mem_cons_self ..)⟩

/-- A step that writes neither to free pages nor to the pages with the entries. -/
theorem congr (world : World all m s free) {later : Machine}
    (same : ∀ page, page ∈ free ∨ s.Structural page → m.Same later page)
    (head : later.freelist = m.freelist) : World all later s free where
  frees := world.frees.congr (fun page member => same page (Or.inl member)) head
  holds := world.holds.congr fun page structural => same page (Or.inr structural)
  backed := world.backed
  accounts := world.accounts

/-- `kalloc` hands out the first free page. -/
theorem take (world : World all m s (page :: free)) :
    World (all \ {page}) (m.take page) s free where
  frees := world.frees.take
  holds := world.holds.congr fun other _ => Machine.same_take other
  backed := world.backed
  accounts := by
    have accounts := world.accounts
    rw [setOf_mem_cons] at accounts
    exact accounts.take world.first_fresh.2.1

/-- `kfree` takes a page from outside. -/
theorem release (world : World all m s free) (fresh : page ∉ all) :
    World (insert page all) (m.release page) s (page :: free) where
  frees := world.frees.release fun member => fresh (world.accounts.within member)
  holds := by
    apply world.holds.congr
    rintro other structural
    apply Machine.same_release
    rintro rfl
    exact fresh (world.structural_all structural)
  backed := world.backed
  accounts := by
    rw [setOf_mem_cons]
    exact world.accounts.give fresh

end World

end Xv6.Vm
