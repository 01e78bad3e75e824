import Xv6.Vm.Walk

/-!
# Giving pages back

`deallocuvm` unmaps the user pages of a range and frees them; `freevm` then
frees the page tables and the directory, so that the whole account is free.
-/

namespace Xv6.Vm

open Xv6.Library

variable {symbols : Symbols} {all : Set (Page symbols)} {m : Machine} {s : Space symbols}
  {free : List (Page symbols)}

/-- The number of pages of a process of size `sz`. -/
def pages (sz : UInt32) : Nat := (sz.toNat + 4095) / 4096

/-- How unmapping the user pages from `lo` to `hi` changes a world. -/
structure Shrinks (lo hi : Nat) (m : Machine) (s : Space symbols) (free : List (Page symbols))
    (later : Machine) (next : Space symbols) (rest : List (Page symbols)) : Prop where
  dir : next.dir = s.dir
  table : next.table = s.table
  cleared : ∀ n, lo ≤ n → n < hi → ¬Present (next.pte n)
  kept : ∀ n, ¬(lo ≤ n ∧ n < hi) → next.pte n = s.pte n
  suffix : free <:+ rest
  same : ∀ page, (∀ n, lo ≤ n → n < hi → ¬s.Has (.user n) page) → ¬s.Structural page →
    m.Same later page

theorem Shrinks.refl {lo hi : Nat} (m : Machine) (s : Space symbols) (free : List (Page symbols))
    (clear : ∀ n, lo ≤ n → n < hi → ¬Present (s.pte n)) : Shrinks lo hi m s free m s free where
  dir := rfl
  table := rfl
  cleared := clear
  kept := fun _ _ => rfl
  suffix := List.suffix_rfl
  same := fun page _ _ => Machine.Same.refl m page

/-- The first pages of the range are not mapped. -/
theorem Shrinks.skip {lo start hi : Nat} {later : Machine} {next : Space symbols}
    {rest : List (Page symbols)} (shrinks : Shrinks start hi m s free later next rest)
    (before : lo ≤ start) (clear : ∀ n, lo ≤ n → n < start → ¬Present (s.pte n)) :
    Shrinks lo hi m s free later next rest where
  dir := shrinks.dir
  table := shrinks.table
  cleared := by
    intro n after inside
    by_cases skipped : n < start
    · rw [shrinks.kept n (by omega)]
      exact clear n after skipped
    · exact shrinks.cleared n (Nat.le_of_not_lt skipped) inside
  kept := fun n outside => shrinks.kept n (by omega)
  suffix := shrinks.suffix
  same := fun page unmapped data =>
    shrinks.same page (fun n after inside => unmapped n (Nat.le_trans before after) inside) data

/-! ## deallocuvm -/

/-- A page and a table entry elsewhere are written in any order. -/
theorem Machine.release_setWord {page data : Page symbols} (different : page ≠ data) {i : Nat}
    (inside : i < 1024) (value : UInt32) :
    (m.release data).setWord page i value = (m.setWord page i value).release data := by
  have apart := Page.apart different
  have first : page.addr.toNat + 4 * i + 4 ≤ data.addr.toNat ∨
      data.addr.toNat + 4096 ≤ page.addr.toNat + 4 * i := by omega
  have length : (List.replicate 4096 (1 : UInt8)).length = 4096 := List.length_replicate ..
  simp only [Machine.release, Machine.setWord, Machine.fill, Memory.store]
  generalize List.replicate 4096 (1 : UInt8) = bytes at length ⊢
  congr 1
  have head : data.addr.toNat + 4 * 0 + (leBytes m.freelist.toNat 4).length ≤
        page.addr.toNat + 4 * i ∨
      page.addr.toNat + 4 * i + (leBytes value.toNat 4).length ≤ data.addr.toNat + 4 * 0 := by
    rw [length_leBytes, length_leBytes]
    omega
  have junk : data.addr.toNat + bytes.length ≤ page.addr.toNat + 4 * i ∨
      page.addr.toNat + 4 * i + (leBytes value.toNat 4).length ≤ data.addr.toNat := by
    rw [length, length_leBytes]
    omega
  rw [Memory.write_comm _ head, Memory.write_comm _ junk]

namespace World

variable {page data : Page symbols}

/-- A mapped user page is freed and its entry cleared. -/
theorem unmap (world : World all m s free) {n : Nat} (there : s.table (n / 1024) = some page)
    (mapped : s.Has (.user n) data) :
    World all ((m.release data).setWord page (n % 1024) 0) (s.setPte there 0) (data :: free) := by
  have different : page ≠ data := by
    rintro rfl
    exact world.user_data mapped (Or.inr ⟨_, there⟩)
  rw [Machine.release_setWord different (Nat.mod_lt _ (by decide))]
  have released := (world.clearUser there mapped).release fun outside => outside.2 rfl
  rw [Set.insert_sdiff_singleton, Set.insert_eq_of_mem (world.has_all mapped)] at released
  exact released

theorem shrinks_unmap {lo hi : Nat} (there : s.table (lo / 1024) = some page) (mapped : s.Has (.user lo) data) {later : Machine}
    {next : Space symbols} {rest : List (Page symbols)} (below : lo < hi)
    (shrinks : Shrinks (lo + 1) hi ((m.release data).setWord page (lo % 1024) 0)
      (s.setPte there 0) (data :: free) later next rest) :
    Shrinks lo hi m s free later next rest where
  dir := shrinks.dir
  table := shrinks.table
  cleared := by
    intro n after inside
    by_cases first : n = lo
    · rw [first, shrinks.kept lo (by omega), Space.setPte_self]
      exact not_present_zero
    · exact shrinks.cleared n (by omega) inside
  kept := by
    intro n outside
    rw [shrinks.kept n (by omega), s.setPte_of_ne there 0 (by omega)]
  suffix := (List.suffix_cons data free).trans shrinks.suffix
  same := by
    intro other unmapped entries
    have freed : other ≠ data := by
      rintro rfl
      exact unmapped lo (Nat.le_refl _) below mapped
    have table : other ≠ page := by
      rintro rfl
      exact entries (Or.inr ⟨_, there⟩)
    refine ((Machine.same_release freed).trans
      (Machine.same_setWord table (Nat.mod_lt _ (by decide)) 0)).trans
      (shrinks.same other ?_ entries)
    rintro n after inside ⟨user, present, address⟩
    rw [s.setPte_of_ne there 0 (by omega)] at present
    rw [frame_setPte_of_ne there 0 (by omega)] at address
    exact unmapped n (by omega) inside ⟨user, present, address⟩

/-- The frame of a mapped user page is not the one at physical address 0. -/
theorem pteAddr_ne_zero {n : Nat} (mapped : s.Has (.user n) data) : pteAddr (s.pte n) ≠ 0 := by
  intro zero
  have address := mapped.2.2
  rw [Space.frame, zero, show p2v 0 = kernbase by rfl] at address
  have above := data.above
  rw [← address] at above
  exact absurd above (by decide)

theorem deallocFrom_shrinks (world : World all m s free) {a oldsz : UInt32} {n fuel : Nat}
    (address : a.toNat = 4096 * n) (user : pages oldsz ≤ userPages)
    (enough : pages oldsz < n + fuel) (turn : 0 < fuel) :
    ∃ later next rest, deallocFrom symbols s.dir.addr oldsz fuel a m = .done () later ∧
      World all later next rest ∧ Shrinks n (pages oldsz) m s free later next rest := by
  have number := vpn_eq address
  induction fuel generalizing m s free n a with
  | zero => cases turn
  | succ fuel inductionHypothesis =>
      by_cases more : a < oldsz
      · have inside : n < pages oldsz := by
          rw [UInt32.lt_iff_toNat_lt] at more
          unfold pages
          omega
        unfold userPages at user
        cases there : s.table (n / 1024) with
        | none =>
            have index : (pdx a + 1).toNat = n / 1024 + 1 := by
              rw [UInt32.toNat_add, toNat_pdx, UInt32.toNat_one]
              omega
            have next : (pgAddr (pdx a + 1) 0 0).toNat = 4096 * ((n / 1024 + 1) * 1024) := by
              rw [toNat_pgAddr (by omega), index]
              omega
            obtain ⟨later, final, rest, ran, grown, shrinks⟩ :=
              inductionHypothesis world next (by omega) (by omega) (vpn_eq next)
            refine ⟨later, final, rest, ?_, grown, shrinks.skip (by omega) ?_⟩
            · rw [deallocFrom, if_pos more,
                Action.bind_done (world.holds.walkpgdir_none (number ▸ there)), if_pos rfl,
                UInt32.sub_add_cancel]
              exact ran
            · intro k after before
              rw [s.absent k (by rw [show k / 1024 = n / 1024 by omega]; exact there)]
              exact not_present_zero
        | some page =>
            have next := vpn_next address (by omega)
            have walked := world.holds.walkpgdir_table
              (show s.table (vpn a / 1024) = some page by rw [number]; exact there) false
            have entry : m.word page (ptx a).toNat = s.pte n := by
              rw [toNat_ptx_eq, number]
              exact world.holds.entries n page there
            by_cases present : Present (s.pte n)
            · obtain ⟨data, frame⟩ := world.backed n (by unfold userPages; omega) present
              have mapped : s.Has (.user n) data := ⟨by unfold userPages; omega, present, frame⟩
              obtain ⟨later, final, rest, ran, grown, shrinks⟩ :=
                inductionHypothesis (world.unmap there mapped) next (by omega) (by omega)
                  (vpn_eq next)
              refine ⟨later, final, rest, ?_, grown, shrinks_unmap there mapped inside shrinks⟩
              rw [deallocFrom, if_pos more, Action.bind_done walked,
                if_neg (slot_ne_zero page a), Machine.loadWord_page (toNat_ptx_lt a), entry,
                if_pos present, if_neg (pteAddr_ne_zero mapped)]
              have freed := Machine.kfree_page m data
              rw [← frame] at freed
              change (kfree symbols (s.frame n) >>= _) m = _
              rw [Action.bind_done freed, Machine.storeWord_page (toNat_ptx_lt a), toNat_ptx_eq,
                number]
              exact ran
            · obtain ⟨later, final, rest, ran, grown, shrinks⟩ :=
                inductionHypothesis world next (by omega) (by omega) (vpn_eq next)
              refine ⟨later, final, rest, ?_, grown, shrinks.skip (Nat.le_succ n) ?_⟩
              · rw [deallocFrom, if_pos more, Action.bind_done walked,
                  if_neg (slot_ne_zero page a), Machine.loadWord_page (toNat_ptx_lt a), entry,
                  if_neg present]
                exact ran
              · intro k after before
                rw [show k = n by omega]
                exact present
      · refine ⟨m, s, free, ?_, world, Shrinks.refl m s free ?_⟩
        · rw [deallocFrom, if_neg more]
          rfl
        · intro k after before
          rw [UInt32.lt_iff_toNat_lt] at more
          unfold pages at before
          omega

/-- `deallocuvm` of user addresses unmaps the pages between the two sizes. -/
theorem deallocuvm_shrinks (world : World all m s free) {oldsz : UInt32} (newsz : UInt32)
    (user : oldsz ≤ kernbase) :
    ∃ later next rest, deallocuvm symbols s.dir.addr oldsz newsz m =
        .done (if oldsz ≤ newsz then oldsz else newsz) later ∧
      World all later next rest ∧
      Shrinks (pages newsz) (pages oldsz) m s free later next rest := by
  have bound : oldsz.toNat ≤ 0x80000000 := UInt32.le_iff_toNat_le.mp user
  by_cases nothing : oldsz ≤ newsz
  · refine ⟨m, s, free, ?_, world, Shrinks.refl m s free ?_⟩
    · rw [deallocuvm, if_pos nothing, if_pos nothing]
      rfl
    · intro n after before
      rw [UInt32.le_iff_toNat_le] at nothing
      unfold pages at after before
      omega
  · have smaller : newsz.toNat < oldsz.toNat := by
      rw [UInt32.le_iff_toNat_le] at nothing
      omega
    have address : (pgRoundUp newsz).toNat = 4096 * pages newsz := by
      rw [toNat_pgRoundUp (by omega), pages, Nat.mul_comm]
    obtain ⟨later, next, rest, ran, grown, shrinks⟩ :=
      world.deallocFrom_shrinks address
        (show pages oldsz ≤ userPages by unfold pages userPages; omega)
        (show pages oldsz < pages newsz + turns by
          unfold pages turns npdentries nptentries; omega) (by decide)
    refine ⟨later, next, rest, ?_, grown, shrinks⟩
    rw [deallocuvm, if_neg nothing, if_neg nothing, Action.bind_done ran]
    rfl

end World

/-! ## freevm -/

/-- What is still held when the page tables before `i` have been freed. -/
def Space.Left (s : Space symbols) (i : Nat) : Place → Page symbols → Prop
  | .dir, page => page = s.dir
  | .table j, page => i ≤ j ∧ s.table j = some page
  | .user _, _ => False

/-- The loop of `freevm` before turn `i`; the directory is the one of `start`. -/
structure Freeing (all : Set (Page symbols)) (start : Machine) (s : Space symbols)
    (free : List (Page symbols)) (i : Nat) (m : Machine) (rest : List (Page symbols)) : Prop where
  frees : m.Free rest
  suffix : free <:+ rest
  directory : start.Same m s.dir
  accounts : Accounted all {page | page ∈ rest} (s.Left i)
  same : ∀ page, page ∉ all → start.Same m page

namespace Freeing

variable {start : Machine} {i : Nat} {rest : List (Page symbols)} {page : Page symbols}

theorem left_succ (page : Page symbols) (place : Place) :
    s.Left (i + 1) place page ↔ s.Left i place page ∧ place ≠ .table i := by
  cases place with
  | dir => simp [Space.Left]
  | user n => simp [Space.Left]
  | table j =>
      simp only [Space.Left, ne_eq, Place.table.injEq]
      constructor
      · rintro ⟨after, there⟩
        exact ⟨⟨by omega, there⟩, by omega⟩
      · rintro ⟨⟨after, there⟩, different⟩
        exact ⟨by omega, there⟩

/-- A page that is left is freed. -/
theorem release (freeing : Freeing all start s free i m rest) {place : Place}
    (left : s.Left i place page) {fewer : Place → Page symbols → Prop}
    (sub : ∀ other number, fewer other number ↔ s.Left i other number ∧ other ≠ place) :
    (m.release page).Free (page :: rest) ∧
      Accounted all {other | other ∈ page :: rest} fewer ∧
      ∀ other, other ∉ all → start.Same (m.release page) other := by
  have given := freeing.accounts.owned.given place page left
  have only : ∀ number, s.Left i place number → number = page := by
    intro number also
    cases place with
    | dir => exact Eq.trans also (Eq.symm left)
    | table j => exact Option.some.inj (also.2.symm.trans left.2)
    | user n => exact left.elim
  refine ⟨freeing.frees.release given.2, ?_, ?_⟩
  · have freed := (freeing.accounts.release left only sub).give fun outside => outside.2 rfl
    rw [Set.insert_sdiff_singleton, Set.insert_eq_of_mem given.1] at freed
    rw [World.setOf_mem_cons]
    exact freed
  · intro other outside
    refine (freeing.same other outside).trans (Machine.same_release ?_)
    rintro rfl
    exact outside given.1

/-- One turn frees the page table of its entry, if there is one. -/
theorem freeTable (freeing : Freeing all start s free i m rest) (holds : start.Holds s)
    (inside : i < 1024) :
    ∃ later remaining, freeTable symbols s.dir.addr i m = .done () later ∧
      Freeing all start s free (i + 1) later remaining := by
  have index : (UInt32.ofNat i).toNat = i := UInt32.toNat_ofNat_of_lt' (by
    rw [UInt32.size]
    omega)
  have entry : m.word s.dir (UInt32.ofNat i).toNat = start.word s.dir i := by
    rw [index]
    exact freeing.directory.word inside
  cases there : s.table i with
  | none =>
      refine ⟨m, rest, ?_, freeing.frees, freeing.suffix, freeing.directory, ?_, freeing.same⟩
      · rw [Vm.freeTable, Machine.loadWord_page (by omega), entry,
          if_neg (holds.vacant i inside there)]
        rfl
      · have places : s.Left (i + 1) = s.Left i := by
          funext place page
          apply propext
          rw [left_succ, and_iff_left_iff_imp]
          rintro left rfl
          rw [left.2] at there
          cases there
        rw [places]
        exact freeing.accounts
  | some page =>
      obtain ⟨present, address⟩ := holds.points i page there
      obtain ⟨frees, accounts, same⟩ := freeing.release
        (show s.Left i (.table i) page from ⟨Nat.le_refl i, there⟩)
        (fun other number => left_succ number other)
      refine ⟨m.release page, page :: rest, ?_, frees,
        freeing.suffix.trans (List.suffix_cons page rest), ?_, accounts, same⟩
      · rw [Vm.freeTable, Machine.loadWord_page (by omega), entry, if_pos present, address]
        exact Machine.kfree_page m page
      · refine freeing.directory.trans (Machine.same_release ?_)
        intro same
        have places := freeing.accounts.owned.once .dir (.table i) page same.symm
          ⟨Nat.le_refl i, there⟩
        cases places

end Freeing

/-- `freevm` frees the whole account. -/
theorem World.freevm (world : World all m s free) :
    ∃ later rest, freevm symbols s.dir.addr m = .done () later ∧ later.Free rest ∧
      free <:+ rest ∧ (∀ page, page ∈ rest ↔ page ∈ all) ∧
      ∀ page, page ∉ all → m.Same later page := by
  obtain ⟨middle, next, freed, ran, shrunk, shrinks⟩ :=
    world.deallocuvm_shrinks 0 (UInt32.le_refl kernbase)
  have first : Freeing all middle next free 0 middle freed := by
    refine ⟨shrunk.frees, shrinks.suffix, Machine.Same.refl _ _, ?_, fun _ _ =>
      Machine.Same.refl _ _⟩
    have places : next.Left 0 = next.Has := by
      funext place page
      cases place with
      | dir => rfl
      | table j => simp [Space.Left, Space.Has]
      | user n =>
          refine propext ⟨False.elim, ?_⟩
          rintro ⟨user, present, -⟩
          exact shrinks.cleared n (Nat.zero_le n) user present
    rw [places]
    exact shrunk.accounts
  have loop : (Action.forRange npdentries (Vm.freeTable symbols s.dir.addr) middle).Ends
      (fun _ => False) fun _ later => ∃ rest, Freeing all middle next free npdentries later rest := by
    refine Action.ends_forRange
      (fun i current => ∃ rest, Freeing all middle next free i current rest) ⟨freed, first⟩ ?_
    rintro i current inside ⟨rest, freeing⟩
    obtain ⟨later, remaining, step, freeing⟩ := freeing.freeTable shrunk.holds inside
    rw [shrinks.dir] at step
    rw [step]
    exact ⟨remaining, freeing⟩
  obtain ⟨value, last, ended, rest, freeing⟩ := loop.exists_done
  have nothing : ∀ place page, False ↔ next.Left npdentries place page ∧ place ≠ .dir := by
    intro place page
    cases place with
    | dir => simp
    | table j =>
        simp only [Space.Left, false_iff, not_and]
        rintro ⟨after, there⟩
        exact absurd (next.small j page there) (by rw [npdentries] at after; omega)
    | user n => simp [Space.Left]
  obtain ⟨frees, accounts, same⟩ := freeing.release
    (show next.Left npdentries .dir next.dir from rfl) nothing
  refine ⟨last.release next.dir, next.dir :: rest, ?_, frees,
    freeing.suffix.trans (List.suffix_cons _ _), ?_, ?_⟩
  · rw [Vm.freevm, if_neg s.dir.addr_ne_zero, Action.bind_done ran, Action.bind_done ended,
      ← shrinks.dir]
    exact Machine.kfree_page last next.dir
  · intro page
    refine ⟨fun member => accounts.within member, fun member => ?_⟩
    rcases accounts.covered page member with still | ⟨_, none⟩
    · exact still
    · exact none.elim
  · intro page outside
    refine (shrinks.same page ?_ ?_).trans (same page outside)
    · exact fun n _ _ mapped => outside (world.has_all mapped)
    · exact fun entries => outside (world.structural_all entries)

end Xv6.Vm
