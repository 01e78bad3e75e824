import Xv6.Vm.Copy

/-!
# Changing the size of a process

`allocuvm` adds all the pages of a range or none, and `growproc` on top of it.
-/

namespace Xv6.Vm

open Xv6.Library

variable {symbols : Symbols} {all : Set (Page symbols)} {m : Machine} {s : Space symbols}
  {free : List (Page symbols)}

/-! ## allocuvm -/

/-- The pages from `lo` to `hi` are mapped to cleared pages that were free, each to
its own, and no other mapping has changed. -/
structure Added (lo hi : Nat) (m : Machine) (s : Space symbols) (free : List (Page symbols))
    (later : Machine) (next : Space symbols) (rest : List (Page symbols)) : Prop where
  kept : ∀ n, ¬(lo ≤ n ∧ n < hi) → next.pte n = s.pte n
  mapped : ∀ n, lo ≤ n → n < hi → ∃ page, page ∈ free ∧ page ∉ rest ∧
    next.pte n = userEntry page ∧ ∀ offset < 4096, later.byte page offset = 0
  distinct : ∀ n k, lo ≤ n → n < hi → lo ≤ k → k < hi → next.frame n = next.frame k → n = k
  data : ∀ n page, s.Has (.user n) page → m.Same later page

/-- Every mapping is as before, and the pages that were free are free again or
page tables of the directory. -/
structure RolledBack (m : Machine) (s : Space symbols) (free : List (Page symbols))
    (later : Machine) (next : Space symbols) (rest : List (Page symbols)) : Prop where
  mappings : ∀ n, Present (s.pte n) ∨ Present (next.pte n) → next.pte n = s.pte n
  tables : ∀ i page, s.table i = some page → next.table i = some page
  returned : ∀ page ∈ free, page ∈ rest ∨ ∃ i, next.table i = some page
  only : ∀ page ∈ rest, page ∈ free
  data : ∀ n page, s.Has (.user n) page → m.Same later page

namespace World

theorem added (world : World all m s free) {lo hi : Nat} {later : Machine} {next : Space symbols}
    {rest : List (Page symbols)} (holding : World all later next rest)
    (grown : Grown lo hi m s free later next rest) (user : hi ≤ userPages) :
    Added lo hi m s free later next rest := by
  have held : ∀ n, lo ≤ n → n < hi → ∃ page, page ∈ free ∧ next.Has (.user n) page ∧
      next.pte n = userEntry page ∧ ∀ offset < 4096, later.byte page offset = 0 := by
    intro n after before
    obtain ⟨page, listed, entry, zero⟩ := grown.mapped n after before
    refine ⟨page, listed, ⟨by omega, ?_, ?_⟩, entry, zero⟩
    · rw [entry]
      exact userEntry_present page
    · rw [Space.frame, entry]
      exact userEntry_frame page
  refine ⟨grown.kept, ?_, ?_, fun n page held =>
    grown.grows.same page (world.has_used held) (world.user_data held)⟩
  · intro n after before
    obtain ⟨page, listed, mapped, entry, zero⟩ := held n after before
    exact ⟨page, listed, holding.has_used mapped, entry, zero⟩
  · intro n k after before also within same
    obtain ⟨page, -, first, -⟩ := held n after before
    obtain ⟨other, -, second, -⟩ := held k also within
    have equal : other = page := Page.ext (second.2.2.symm.trans (same.symm.trans first.2.2))
    rw [equal] at second
    have places := holding.accounts.owned.once (.user n) (.user k) page first second
    injection places

theorem rolledBack (world : World all m s free) {lo hi : Nat} {later : Machine}
    {next : Space symbols} {rest : List (Page symbols)} (holding : World all later next rest)
    (undone : Undone lo hi all m s later next)
    (unmapped : ∀ n, lo ≤ n → n < hi → ¬Present (s.pte n)) : RolledBack m s free later next rest := by
  have mappings : ∀ n, Present (s.pte n) ∨ Present (next.pte n) → next.pte n = s.pte n := by
    intro n present
    by_cases inside : lo ≤ n ∧ n < hi
    · obtain old | new := present
      · exact absurd old (unmapped n inside.1 inside.2)
      · exact absurd new (undone.cleared n inside.1 inside.2)
    · exact undone.kept n inside
  have users : ∀ n page, s.Has (.user n) page ↔ next.Has (.user n) page := by
    intro n page
    constructor
    · rintro ⟨user, present, frame⟩
      have same := mappings n (Or.inl present)
      exact ⟨user, same.symm ▸ present, by rw [Space.frame, same]; exact frame⟩
    · rintro ⟨user, present, frame⟩
      have same := mappings n (Or.inr present)
      exact ⟨user, same ▸ present, by rw [Space.frame, ← same]; exact frame⟩
  refine ⟨mappings, undone.table, ?_, ?_, ?_⟩
  · intro page listed
    obtain free | ⟨place, held⟩ := holding.accounts.covered page (world.accounts.within listed)
    · exact Or.inl free
    · cases place with
      | dir => exact absurd listed (world.has_used (show s.Has .dir page from held.trans undone.dir))
      | table i => exact Or.inr ⟨i, held⟩
      | user n => exact absurd listed (world.has_used ((users n page).mpr held))
  · intro page listed
    obtain free | ⟨place, held⟩ := world.accounts.covered page (holding.accounts.within listed)
    · exact free
    · cases place with
      | dir =>
          exact absurd listed
            (holding.has_used (show next.Has .dir page from held.trans undone.dir.symm))
      | table i =>
          exact absurd listed (holding.has_used
            (show next.Has (.table i) page from undone.table i page held))
      | user n => exact absurd listed (holding.has_used ((users n page).mp held))
  · intro n page held
    exact undone.users n page (fun inside => unmapped n inside.1 inside.2 held.2.1) held

/-- `allocuvm` on a range that is not mapped yet. -/
theorem allocuvm_cases (world : World all m s free) {oldsz : UInt32} (newsz : UInt32)
    (bounded : oldsz ≤ kernbase)
    (unmapped : ∀ n, pages oldsz ≤ n → n < userPages → ¬Present (s.pte n)) :
    kernbase ≤ newsz ∧ Vm.allocuvm symbols s.dir.addr oldsz newsz m = .done 0 m ∨
    newsz < oldsz ∧ Vm.allocuvm symbols s.dir.addr oldsz newsz m = .done oldsz m ∨
    newsz < kernbase ∧ oldsz ≤ newsz ∧ ∃ value later next rest,
      Vm.allocuvm symbols s.dir.addr oldsz newsz m = .done value later ∧
      World all later next rest ∧
      (value = newsz ∧ Grown (pages oldsz) (pages newsz) m s free later next rest ∨
        value = 0 ∧ Undone (pages oldsz) (pages newsz) all m s later next) := by
  by_cases kernel : kernbase ≤ newsz
  · refine Or.inl ⟨kernel, ?_⟩
    rw [Vm.allocuvm, if_pos kernel]
    rfl
  have user := UInt32.not_le.mp kernel
  by_cases smaller : newsz < oldsz
  · refine Or.inr (Or.inl ⟨smaller, ?_⟩)
    rw [Vm.allocuvm, if_neg kernel, if_pos smaller]
    rfl
  have order := UInt32.not_lt.mp smaller
  have old : oldsz.toNat ≤ 0x80000000 := UInt32.le_iff_toNat_le.mp bounded
  have new : newsz.toNat < 0x80000000 := UInt32.lt_iff_toNat_lt.mp user
  have address : (pgRoundUp oldsz).toNat = 4096 * pages oldsz := by
    rw [toNat_pgRoundUp (by omega), pages, Nat.mul_comm]
  have ran : Vm.allocuvm symbols s.dir.addr oldsz newsz m =
      Vm.allocFrom symbols s.dir.addr oldsz newsz turns (pgRoundUp oldsz) m := by
    rw [Vm.allocuvm, if_neg kernel, if_neg smaller]
  refine Or.inr (Or.inr ⟨user, order, ?_⟩)
  rw [ran]
  obtain ⟨-, n, after, before, present⟩ | ends := world.allocFrom address user
    (show pages newsz < pages oldsz + turns by
      unfold pages turns npdentries nptentries
      omega)
    (by decide) (Nat.le_refl _)
  · refine absurd present (unmapped n after ?_)
    unfold pages at before
    unfold userPages
    omega
  · obtain ⟨value, later, next, rest, done, holding, result⟩ := ends
    exact ⟨value, later, next, rest, done, holding, result.imp_right fun ended =>
      ⟨ended.1, ended.2.1⟩⟩

/-- `allocuvm` maps the whole range, or leaves every mapping and gives back every
page but new page tables. -/
theorem allocuvm_all_or_none (world : World all m s free) {oldsz : UInt32}
    (bounded : oldsz ≤ kernbase)
    (unmapped : ∀ n, pages oldsz ≤ n → n < userPages → ¬Present (s.pte n)) (newsz : UInt32) :
    ∃ value later next rest, Vm.allocuvm symbols s.dir.addr oldsz newsz m = .done value later ∧
      World all later next rest ∧ next.dir = s.dir ∧
      (oldsz ≤ newsz ∧ value = newsz ∧
          Added (pages oldsz) (pages newsz) m s free later next rest ∨
        newsz < oldsz ∧ value = oldsz ∧ later = m ∧ next = s ∧ rest = free ∨
        value = 0 ∧ RolledBack m s free later next rest) := by
  obtain ⟨-, ran⟩ | ⟨smaller, ran⟩ | ⟨user, order, value, later, next, rest, ran, holding, ends⟩ :=
    world.allocuvm_cases newsz bounded unmapped
  · exact ⟨0, m, s, free, ran, world, rfl, Or.inr (Or.inr ⟨rfl, fun _ _ => rfl,
      fun _ _ there => there, fun _ listed => Or.inl listed, fun _ listed => listed,
    fun _ page _ => Machine.Same.refl m page⟩)⟩
  · exact ⟨oldsz, m, s, free, ran, world, rfl, Or.inr (Or.inl ⟨smaller, rfl, rfl, rfl, rfl⟩)⟩
  · have new : newsz.toNat < 0x80000000 := UInt32.lt_iff_toNat_lt.mp user
    have top : pages newsz ≤ userPages := by
      unfold pages userPages
      omega
    obtain ⟨same, grown⟩ | ⟨zero, undone⟩ := ends
    · exact ⟨value, later, next, rest, ran, holding, grown.grows.dir,
        Or.inl ⟨order, same, world.added holding grown top⟩⟩
    · exact ⟨value, later, next, rest, ran, holding, undone.dir, Or.inr (Or.inr ⟨zero,
        world.rolledBack holding undone fun n after before => unmapped n after (by omega)⟩)⟩

theorem allocuvm_all_or_none_booted :
    ∃ m start, ∃ s next : Space smallKernel, ∃ all free rest, ∃ value later,
      World all start s free ∧
      setupkvm smallKernel m = .done s.dir.addr start ∧
      Vm.allocuvm smallKernel s.dir.addr 0 5000 start = .done value later ∧
      (value = 5000 ∧ Added 0 2 start s free later next rest ∨
        value = 0 ∧ RolledBack start s free later next rest) := by
  obtain ⟨m, free, -, frees, everything⟩ := kinit_frees smallKernel (by decide) fun _ => 0
  have enough := many_pages (by decide) (show 66 ≤ 56320 by decide) everything
  obtain ⟨_, _, few, -⟩ | ⟨start, s, left, made, world, -, only, -⟩ := setupkvm_spec frees
  · exact absurd few (by omega)
  obtain ⟨value, later, next, rest, ran, -, -, ends⟩ :=
    world.allocuvm_all_or_none (show 0 ≤ kernbase by decide)
      (by
        intro n _ below
        rw [only.user n below]
        exact not_present_zero)
      5000
  obtain ⟨-, same, added⟩ | ⟨smaller, -⟩ | failed := ends
  · exact ⟨m, start, s, next, _, left, rest, value, later, world, made, ran, Or.inl ⟨same, added⟩⟩
  · exact absurd smaller (by decide)
  · exact ⟨m, start, s, next, _, left, rest, value, later, world, made, ran, Or.inr failed⟩

end World

/-! ## growproc -/

/-- Grow current process's memory by `n` bytes. Gives what is returned, 0 on success and
-1 on failure, and the size of the process then. -/
def growproc (symbols : Symbols) (pgdir sz : UInt32) (n : Int32) :
    Action Machine (Int × UInt32) := do
  if 0 < n then
    let grown ← allocuvm symbols pgdir sz (sz + n.toUInt32)
    if grown = 0 then return (-1, sz) else return (0, grown)
  else if n < 0 then
    let shrunk ← deallocuvm symbols pgdir sz (sz + n.toUInt32)
    if shrunk = 0 then return (-1, sz) else return (0, shrunk)
  else return (0, sz)

/-- The user has the pages of `size` instead of those of `sz`. -/
structure Resized (pgdir sz size : UInt32) (m later : Machine) : Prop where
  mapped : ∀ va < kernbase, Present (later.lookup pgdir va) ↔ vpn va < pages size
  added : ∀ va < kernbase, pages sz ≤ vpn va → vpn va < pages size →
    pteFlags (later.lookup pgdir va) = pteW ||| pteU ||| pteP ∧ later.userByte pgdir va = 0
  kept : ∀ va < kernbase, vpn va < pages sz → vpn va < pages size →
    later.lookup pgdir va = m.lookup pgdir va ∧ later.userByte pgdir va = m.userByte pgdir va

/-- Every user mapping and all user memory is as before. -/
def Unchanged (pgdir : UInt32) (m later : Machine) : Prop :=
  ∀ va < kernbase, Present (m.lookup pgdir va) ∨ Present (later.lookup pgdir va) →
    later.lookup pgdir va = m.lookup pgdir va ∧ later.userByte pgdir va = m.userByte pgdir va

/-- The process has changed its size by `n`, or nothing has changed. -/
def Atomic (pgdir sz : UInt32) (n : Int32) (m : Machine) (result : Int) (size : UInt32)
    (later : Machine) : Prop :=
  result = 0 ∧ (size.toNat : Int) = sz.toNat + n.toInt ∧ Resized pgdir sz size m later ∨
    result = -1 ∧ size = sz ∧ Unchanged pgdir m later

theorem unchanged_refl (pgdir : UInt32) (m : Machine) : Unchanged pgdir m m :=
  fun _ _ _ => ⟨rfl, rfl⟩

/-- The sum of `growproc`, which may wrap around below 0. -/
theorem toNat_add_int (sz : UInt32) (n : Int32) (user : sz ≤ kernbase) :
    ((sz + n.toUInt32).toNat : Int) =
      if 0 ≤ sz.toNat + n.toInt then sz.toNat + n.toInt else sz.toNat + n.toInt + 4294967296 := by
  have bound : sz.toNat ≤ 0x80000000 := UInt32.le_iff_toNat_le.mp user
  have low := n.le_toInt
  have high := n.toInt_lt
  have word : (n.toUInt32.toNat : Int) = if 0 ≤ n.toInt then n.toInt else n.toInt + 4294967296 := by
    have bits : n.toInt = if 2 * n.toUInt32.toNat < 2 ^ 32 then (n.toUInt32.toNat : Int)
        else n.toUInt32.toNat - (2 ^ 32 : Nat) := BitVec.toInt_eq_toNat_cond ..
    have below := n.toUInt32.toNat_lt
    split at bits <;> split <;> omega
  rw [UInt32.toNat_add, Int.natCast_emod, Int.natCast_add, word]
  split <;> split <;> omega

namespace World

section

variable {later : Machine} {next : Space symbols} {rest : List (Page symbols)} {va : UInt32}

theorem kept_at (world : World all m s free) (holding : World all later next rest)
    (dir : next.dir = s.dir) (user : va < kernbase) (present : Present (s.pte (vpn va)))
    (entry : next.pte (vpn va) = s.pte (vpn va))
    (data : ∀ page, s.Has (.user (vpn va)) page → m.Same later page) :
    later.lookup s.dir.addr va = m.lookup s.dir.addr va ∧
      later.userByte s.dir.addr va = m.userByte s.dir.addr va := by
  have below : vpn va < userPages := vpn_user user
  obtain ⟨page, frame⟩ := world.backed _ below present
  have after : next.frame (vpn va) = page.addr := by
    rw [Space.frame, entry]
    exact frame
  constructor
  · rw [world.holds.lookup, ← dir, holding.holds.lookup, entry]
  · rw [world.holds.userByte frame, ← dir, holding.holds.userByte after]
    exact data page ⟨below, present, frame⟩ _ (Nat.mod_lt _ (by decide))

variable {sz : UInt32} {n : Int32}

/-- Growing by more than nothing. -/
theorem growproc_more (world : World all m s free) (bounded : sz ≤ kernbase)
    (mapped : ∀ k < userPages, Present (s.pte k) ↔ k < pages sz) (more : 0 < n) :
    ∃ result size later next rest,
      growproc symbols s.dir.addr sz n m = .done (result, size) later ∧
      World all later next rest ∧ next.dir = s.dir ∧
      Atomic s.dir.addr sz n m result size later := by
  have positive : 0 < n.toInt := Int32.lt_iff_toInt_lt.mp more
  have old : sz.toNat ≤ 0x80000000 := UInt32.le_iff_toNat_le.mp bounded
  have sum := toNat_add_int sz n bounded
  rw [if_pos (by omega)] at sum
  have larger : ¬sz + n.toUInt32 < sz := by
    rw [UInt32.lt_iff_toNat_lt]
    omega
  have nonzero : sz + n.toUInt32 ≠ 0 := by
    intro zero
    rw [zero, UInt32.toNat_zero] at sum
    omega
  obtain ⟨value, later, next, rest, ran, holding, dir, ends⟩ :=
    world.allocuvm_all_or_none bounded (fun k after below present => by
      have inside := (mapped k below).mp present
      omega) (sz + n.toUInt32)
  obtain ⟨-, rfl, added⟩ | ⟨smaller, -⟩ | ⟨rfl, back⟩ := ends
  · refine ⟨0, sz + n.toUInt32, later, next, rest, ?_, holding, dir, Or.inl ⟨rfl, sum, ?_⟩⟩
    · rw [growproc, if_pos more, Action.bind_done ran, if_neg nonzero]
      rfl
    have above : pages sz ≤ pages (sz + n.toUInt32) := by
      unfold pages
      omega
    refine ⟨?_, ?_, ?_⟩
    · intro va user
      rw [← dir, holding.holds.lookup]
      by_cases inside : pages sz ≤ vpn va ∧ vpn va < pages (sz + n.toUInt32)
      · obtain ⟨page, -, -, entry, -⟩ := added.mapped _ inside.1 inside.2
        rw [entry]
        exact iff_of_true (userEntry_present page) inside.2
      · rw [added.kept _ inside, mapped _ (vpn_user user)]
        omega
    · intro va user after before
      obtain ⟨page, -, -, entry, zero⟩ := added.mapped _ after before
      have frame : next.frame (vpn va) = page.addr := by
        rw [Space.frame, entry]
        exact userEntry_frame page
      rw [← dir, holding.holds.lookup, holding.holds.userByte frame]
      refine ⟨?_, zero _ (Nat.mod_lt _ (by decide))⟩
      rw [entry, userEntry, UInt32.or_assoc]
      exact pteFlags_or page.v2p_aligned (by decide)
    · intro va user before _
      have present := (mapped _ (vpn_user user)).mpr before
      exact world.kept_at holding dir user present (added.kept _ (by omega)) fun page held =>
        added.data _ page held
  · exact absurd smaller larger
  · refine ⟨-1, sz, later, next, rest, ?_, holding, dir, Or.inr ⟨rfl, rfl, ?_⟩⟩
    · rw [growproc, if_pos more, Action.bind_done ran, if_pos rfl]
      rfl
    · intro va user either
      rw [world.holds.lookup, ← dir, holding.holds.lookup] at either
      have entry := back.mappings _ either
      have present : Present (s.pte (vpn va)) := by
        obtain first | second := either
        · exact first
        · rw [entry] at second
          exact second
      exact world.kept_at holding dir user present entry fun page held => back.data _ page held

/-- Shrinking, but not to nothing. -/
theorem growproc_less (world : World all m s free) (bounded : sz ≤ kernbase)
    (mapped : ∀ k < userPages, Present (s.pte k) ↔ k < pages sz) (less : n < 0)
    (stays : 0 < sz.toNat + n.toInt) :
    ∃ result size later next rest,
      growproc symbols s.dir.addr sz n m = .done (result, size) later ∧
      World all later next rest ∧ next.dir = s.dir ∧
      Atomic s.dir.addr sz n m result size later := by
  have negative : n.toInt < 0 := Int32.lt_iff_toInt_lt.mp less
  have sum := toNat_add_int sz n bounded
  rw [if_pos (Int.le_of_lt stays)] at sum
  have smaller : ¬sz ≤ sz + n.toUInt32 := by
    rw [UInt32.le_iff_toNat_le]
    omega
  have nonzero : sz + n.toUInt32 ≠ 0 := by
    intro zero
    rw [zero, UInt32.toNat_zero] at sum
    omega
  obtain ⟨later, next, rest, ran, holding, shrinks⟩ :=
    world.deallocuvm_shrinks (sz + n.toUInt32) bounded
  rw [if_neg smaller] at ran
  have below : pages (sz + n.toUInt32) ≤ pages sz := by
    unfold pages
    omega
  refine ⟨0, sz + n.toUInt32, later, next, rest, ?_, holding, shrinks.dir,
    Or.inl ⟨rfl, sum, ?_, ?_, ?_⟩⟩
  · rw [growproc, if_neg (Int32.lt_asymm less), if_pos less, Action.bind_done ran, if_neg nonzero]
    rfl
  · intro va user
    rw [← shrinks.dir, holding.holds.lookup]
    by_cases inside : pages (sz + n.toUInt32) ≤ vpn va ∧ vpn va < pages sz
    · exact iff_of_false (shrinks.cleared _ inside.1 inside.2) (Nat.not_lt.mpr inside.1)
    · rw [shrinks.kept _ inside, mapped _ (vpn_user user)]
      omega
  · intro va _ after before
    omega
  · intro va user before within
    have present := (mapped _ (vpn_user user)).mpr before
    refine world.kept_at holding shrinks.dir user present (shrinks.kept _ (by omega)) ?_
    intro page held
    refine shrinks.same page ?_ (world.user_data held)
    intro k after _ also
    have places := world.accounts.owned.once (.user (vpn va)) (.user k) page held also
    injection places with number
    omega

/-- Giving back exactly all of the memory unmaps it and fails. -/
theorem growproc_nothing (world : World all m s free) (bounded : sz ≤ kernbase)
    (mapped : ∀ k < userPages, Present (s.pte k) ↔ k < pages sz) (less : n < 0)
    (zero : sz.toNat + n.toInt = 0) :
    ∃ later next rest, growproc symbols s.dir.addr sz n m = .done (-1, sz) later ∧
      World all later next rest ∧ next.dir = s.dir ∧ ¬Unchanged s.dir.addr m later := by
  have negative : n.toInt < 0 := Int32.lt_iff_toInt_lt.mp less
  have sum := toNat_add_int sz n bounded
  rw [if_pos (Int.le_of_eq zero.symm), zero] at sum
  have nothing : sz + n.toUInt32 = 0 := UInt32.toNat_inj.mp (Int.natCast_inj.mp sum)
  have smaller : ¬sz ≤ 0 := by
    rw [UInt32.le_iff_toNat_le, UInt32.toNat_zero]
    omega
  obtain ⟨later, next, rest, ran, holding, shrinks⟩ := world.deallocuvm_shrinks 0 bounded
  rw [if_neg smaller] at ran
  refine ⟨later, next, rest, ?_, holding, shrinks.dir, ?_⟩
  · rw [growproc, if_neg (Int32.lt_asymm less), if_pos less, nothing, Action.bind_done ran,
      if_pos rfl]
    rfl
  intro unchanged
  have first : 0 < pages sz := by
    unfold pages
    omega
  have present : Present (s.pte 0) := (mapped 0 (by decide)).mpr first
  obtain ⟨same, -⟩ := unchanged 0 (by decide) (Or.inl (by
    rw [world.holds.lookup]
    exact present))
  rw [world.holds.lookup, ← shrinks.dir, holding.holds.lookup] at same
  apply shrinks.cleared 0 (by decide) first
  rw [show next.pte 0 = s.pte 0 from same]
  exact present

/-- When the sum wraps around, nothing happens. -/
theorem growproc_wraps (bounded : sz ≤ kernbase) (less : n < 0)
    (below : sz.toNat + n.toInt < 0) :
    growproc symbols s.dir.addr sz n m = .done (if sz = 0 then -1 else 0, sz) m := by
  have old : sz.toNat ≤ 0x80000000 := UInt32.le_iff_toNat_le.mp bounded
  have low := n.le_toInt
  have sum := toNat_add_int sz n bounded
  rw [if_neg (by omega)] at sum
  have larger : sz ≤ sz + n.toUInt32 := by
    rw [UInt32.le_iff_toNat_le]
    omega
  have kept : deallocuvm symbols s.dir.addr sz (sz + n.toUInt32) m = .done sz m := by
    rw [deallocuvm, if_pos larger]
    rfl
  rw [growproc, if_neg (Int32.lt_asymm less), if_pos less, Action.bind_done kept]
  by_cases zero : sz = 0
  · rw [if_pos zero, if_pos zero]
    rfl
  · rw [if_neg zero, if_neg zero]
    rfl

/-- `growproc` is atomic unless a process gives back all of its memory or more. -/
theorem growproc_atomic_iff (world : World all m s free) (bounded : sz ≤ kernbase)
    (mapped : ∀ k < userPages, Present (s.pte k) ↔ k < pages sz) (n : Int32) :
    ∃ result size later next rest,
      growproc symbols s.dir.addr sz n m = .done (result, size) later ∧
      World all later next rest ∧ next.dir = s.dir ∧
      (Atomic s.dir.addr sz n m result size later ↔ sz = 0 ∨ 0 < sz.toNat + n.toInt) := by
  have size : sz.toNat = 0 ↔ sz = 0 := by
    rw [← UInt32.toNat_inj]
    exact Iff.rfl
  by_cases more : 0 < n
  · obtain ⟨result, size, later, next, rest, ran, holding, dir, atomic⟩ :=
      world.growproc_more bounded mapped more
    have positive : 0 < n.toInt := Int32.lt_iff_toInt_lt.mp more
    exact ⟨result, size, later, next, rest, ran, holding, dir,
      iff_of_true atomic (Or.inr (by omega))⟩
  by_cases less : n < 0
  · have negative : n.toInt < 0 := Int32.lt_iff_toInt_lt.mp less
    obtain below | zero | stays := Int.lt_trichotomy (sz.toNat + n.toInt) 0
    · refine ⟨_, sz, m, s, free, growproc_wraps bounded less below, world, rfl, ?_⟩
      constructor
      · rintro (⟨-, changed, -⟩ | ⟨failed, -, -⟩)
        · omega
        · by_cases empty : sz = 0
          · exact Or.inl empty
          · rw [if_neg empty] at failed
            cases failed
      · rintro (empty | stays)
        · exact Or.inr ⟨if_pos empty, rfl, unchanged_refl _ _⟩
        · omega
    · obtain ⟨later, next, rest, ran, holding, dir, changed⟩ :=
        world.growproc_nothing bounded mapped less zero
      refine ⟨-1, sz, later, next, rest, ran, holding, dir, iff_of_false ?_ ?_⟩
      · rintro (⟨done, -⟩ | ⟨-, -, unchanged⟩)
        · cases done
        · exact changed unchanged
      · rintro (empty | stays)
        · rw [← size] at empty
          omega
        · omega
    · obtain ⟨result, size, later, next, rest, ran, holding, dir, atomic⟩ :=
        world.growproc_less bounded mapped less stays
      exact ⟨result, size, later, next, rest, ran, holding, dir, iff_of_true atomic (Or.inr stays)⟩
  · have zero : n.toInt = 0 := by
      rw [Int32.lt_iff_toInt_lt] at more less
      exact Int.le_antisymm (Int.not_lt.mp more) (Int.not_lt.mp less)
    refine ⟨0, sz, m, s, free, ?_, world, rfl, iff_of_true (Or.inl ⟨rfl, ?_, ?_⟩) ?_⟩
    · rw [growproc, if_neg more, if_neg less]
      rfl
    · rw [zero, Int.add_zero]
    · refine ⟨?_, ?_, fun _ _ _ _ => ⟨rfl, rfl⟩⟩
      · intro va user
        rw [world.holds.lookup]
        exact mapped _ (vpn_user user)
      · intro va _ after before
        omega
    · by_cases empty : sz = 0
      · exact Or.inl empty
      · refine Or.inr ?_
        rw [← size] at empty
        omega

end

theorem booted_one : ∃ m, ∃ all : Set (Page smallKernel), ∃ s free, World all m s free ∧
    ∀ k < userPages, Present (s.pte k) ↔ k < pages 4096 := by
  obtain ⟨m, s, all, free, page, -, -, world, entry, above, -⟩ := booted_page
  refine ⟨m, _, s, free, world, ?_⟩
  intro k below
  rw [show pages 4096 = 1 by rfl]
  obtain rfl | after := Nat.eq_zero_or_pos k
  · rw [entry]
    exact iff_of_true (userEntry_present page) Nat.one_pos
  · rw [above k after below]
    exact iff_of_false not_present_zero (Nat.not_lt.mpr after)

/-- The only page of a process is gone although the call fails. -/
theorem growproc_all_fails : ∃ m, ∃ all : Set (Page smallKernel), ∃ s free,
    World all m s free ∧ (∀ k < userPages, Present (s.pte k) ↔ k < pages 4096) ∧
    ∃ later, growproc smallKernel s.dir.addr 4096 (-4096) m = .done (-1, 4096) later ∧
      ¬Atomic s.dir.addr 4096 (-4096) m (-1) 4096 later := by
  obtain ⟨m, all, s, free, world, mapped⟩ := booted_one
  obtain ⟨later, _, _, ran, -, -, changed⟩ :=
    world.growproc_nothing (show 4096 ≤ kernbase by decide) mapped (show -4096 < 0 by decide) rfl
  refine ⟨m, all, s, free, world, mapped, later, ran, ?_⟩
  rintro (⟨done, -⟩ | ⟨-, -, unchanged⟩)
  · cases done
  · exact changed unchanged

theorem growproc_atomic_iff_one : ∃ m, ∃ s : Space smallKernel, ∃ result size later,
    growproc smallKernel s.dir.addr 4096 5000 m = .done (result, size) later ∧
    Atomic s.dir.addr 4096 5000 m result size later := by
  obtain ⟨m, all, s, free, world, mapped⟩ := booted_one
  obtain ⟨result, size, later, _, _, ran, -, -, atomic⟩ :=
    world.growproc_atomic_iff (show 4096 ≤ kernbase by decide) mapped 5000
  exact ⟨m, s, result, size, later, ran, atomic.mpr (Or.inr (by decide))⟩

end World

end Xv6.Vm
