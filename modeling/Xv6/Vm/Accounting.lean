import Xv6.Vm.Grow

/-!
# Page accounting

A process's page directory comes from `setupkvm` and changes by `allocuvm`,
`deallocuvm` and `clearpteu`. Whatever these calls did, `freevm` puts exactly
the pages that are in use back on the free list.
-/

namespace Xv6.Vm

open Xv6.Library

variable {symbols : Symbols} {all : Set (Page symbols)} {m : Machine} {s : Space symbols}
  {free : List (Page symbols)}

/-! ## What a directory uses -/

/-- Entry `i` of a page directory. -/
def Machine.pde (m : Machine) (pgdir i : UInt32) : UInt32 :=
  UInt32.ofNat (m.memory.load (pgdir + 4 * i).toNat 4)

/-- The entry for a virtual address, 0 where there is no page table. -/
def Machine.lookup (m : Machine) (pgdir va : UInt32) : UInt32 :=
  let entry := m.pde pgdir (pdx va)
  if Present entry then
    UInt32.ofNat (m.memory.load (p2v (pteAddr entry) + 4 * ptx va).toNat 4)
  else 0

/-- The page is the directory, one of its page tables, or mapped below KERNBASE. -/
def Machine.Uses (m : Machine) (pgdir : UInt32) (page : Page symbols) : Prop :=
  page.addr = pgdir ∨
    (∃ i < 1024, Present (m.pde pgdir i) ∧ p2v (pteAddr (m.pde pgdir i)) = page.addr) ∨
    ∃ va < kernbase, Present (m.lookup pgdir va) ∧
      p2v (pteAddr (m.lookup pgdir va)) = page.addr

theorem Machine.pde_dir {i : UInt32} (inside : i.toNat < 1024) :
    m.pde s.dir.addr i = m.word s.dir i.toNat := by
  rw [Machine.pde, Page.toNat_word inside, Machine.word]

theorem Machine.Holds.lookup (holds : m.Holds s) (va : UInt32) :
    m.lookup s.dir.addr va = s.pte (vpn va) := by
  have bound := vpn_lt va
  have index : (pdx va).toNat = vpn va / 1024 := toNat_pdx va
  rw [Machine.lookup, Machine.pde_dir (toNat_pdx_lt va), index]
  cases there : s.table (vpn va / 1024) with
  | none => rw [if_neg (holds.vacant _ (by omega) there), s.absent _ there]
  | some page =>
      obtain ⟨present, address⟩ := holds.points _ page there
      rw [if_pos present, address, Page.toNat_word (toNat_ptx_lt va), World.toNat_ptx_eq,
        ← holds.entries _ page there, Machine.word]

theorem toNat_ofNat_page {n : Nat} (below : n < 1048576) :
    (UInt32.ofNat (4096 * n)).toNat = 4096 * n :=
  UInt32.toNat_ofNat_of_lt' (by
    rw [UInt32.size]
    omega)

/-- The pages in use are the ones that the space holds. -/
theorem Machine.Holds.uses_iff (holds : m.Holds s) (page : Page symbols) :
    m.Uses s.dir.addr page ↔ ∃ place, s.Has place page := by
  constructor
  · rintro (dir | ⟨i, inside, present, address⟩ | ⟨va, user, present, address⟩)
    · exact ⟨.dir, Page.ext dir⟩
    · have below : i.toNat < 1024 := UInt32.lt_iff_toNat_lt.mp inside
      rw [Machine.pde_dir below] at present address
      cases there : s.table i.toNat with
      | none => exact absurd present (holds.vacant _ below there)
      | some other =>
          refine ⟨.table i.toNat, ?_⟩
          rw [(holds.points _ other there).2] at address
          exact there.trans (congrArg some (Page.ext address))
    · have below : va.toNat < 0x80000000 := UInt32.lt_iff_toNat_lt.mp user
      rw [holds.lookup] at present address
      exact ⟨.user (vpn va), by unfold vpn userPages; omega, present, address⟩
  · rintro ⟨place, held⟩
    cases place with
    | dir => exact Or.inl (congrArg Page.addr held)
    | table i =>
        have below := s.small i page held
        have index : (UInt32.ofNat i).toNat = i := UInt32.toNat_ofNat_of_lt' (by
          rw [UInt32.size]
          omega)
        have inside : (UInt32.ofNat i).toNat < 1024 := by
          rw [index]
          exact below
        refine Or.inr (Or.inl ⟨UInt32.ofNat i, UInt32.lt_iff_toNat_lt.mpr inside, ?_⟩)
        rw [Machine.pde_dir inside, index]
        exact holds.points i page held
    | user n =>
        have below : n < 524288 := held.1
        have address := toNat_ofNat_page (show n < 1048576 by omega)
        refine Or.inr (Or.inr ⟨UInt32.ofNat (4096 * n), ?_, ?_⟩)
        · rw [UInt32.lt_iff_toNat_lt, address, toNat_kernbase]
          omega
        · rw [holds.lookup, World.vpn_eq address]
          exact held.2

/-! ## Runs -/

/-- A call that changes an address space. -/
inductive UserCall where
  | allocuvm (oldsz newsz : UInt32)
  | deallocuvm (oldsz newsz : UInt32)
  | clearpteu (uva : UInt32)

namespace UserCall

/-- Its addresses are user addresses. -/
def User : UserCall → Prop
  | allocuvm oldsz newsz => oldsz ≤ kernbase ∧ newsz ≤ kernbase
  | deallocuvm oldsz newsz => oldsz ≤ kernbase ∧ newsz ≤ kernbase
  | clearpteu uva => uva < kernbase

def run (symbols : Symbols) (pgdir : UInt32) : UserCall → Action Machine Unit
  | allocuvm oldsz newsz => do
      let _ ← Vm.allocuvm symbols pgdir oldsz newsz
      return ()
  | deallocuvm oldsz newsz => do
      let _ ← Vm.deallocuvm symbols pgdir oldsz newsz
      return ()
  | clearpteu uva => Vm.clearpteu pgdir uva

/-- One call after the other. -/
def runAll (symbols : Symbols) (pgdir : UInt32) : List UserCall → Action Machine Unit
  | [] => return ()
  | call :: rest => do
      call.run symbols pgdir
      runAll symbols pgdir rest

end UserCall

namespace World

/-- Clearing the user bit of an entry keeps the account. -/
theorem clearpteu (world : World all m s free) (uva : UInt32) :
    Vm.clearpteu s.dir.addr uva m = .panic "clearpteu" ∧ s.table (vpn uva / 1024) = none ∨
    ∃ page, ∃ there : s.table (vpn uva / 1024) = some page,
      Vm.clearpteu s.dir.addr uva m =
        .done () (m.setWord page (vpn uva % 1024) (s.pte (vpn uva) &&& ~~~pteU)) ∧
      World all (m.setWord page (vpn uva % 1024) (s.pte (vpn uva) &&& ~~~pteU))
        (s.setPte there (s.pte (vpn uva) &&& ~~~pteU)) free := by
  obtain none | ⟨page, there⟩ := Option.eq_none_or_eq_some (s.table (vpn uva / 1024))
  · refine Or.inl ⟨?_, none⟩
    rw [Vm.clearpteu, Action.bind_done (world.holds.walkpgdir_none none), if_pos rfl]
    rfl
  · refine Or.inr ⟨page, there, ?_, world.setFlags there (present_clear_user _)
      (pteAddr_clear_user _)⟩
    have entry : m.word page (ptx uva).toNat = s.pte (vpn uva) := by
      rw [toNat_ptx_eq]
      exact world.holds.entries _ page there
    rw [Vm.clearpteu, Action.bind_done (world.holds.walkpgdir_table there false),
      if_neg (slot_ne_zero page uva), Machine.loadWord_page (toNat_ptx_lt uva), entry, storeWord,
      Page.toNat_word (toNat_ptx_lt uva), toNat_ptx_eq]
    rfl

/-- A call that returns leaves every page of the account free or held once. -/
theorem call (world : World all m s free) {call : UserCall} (user : call.User) {later : Machine}
    (ran : call.run symbols s.dir.addr m = .done () later) :
    ∃ next rest, World all later next rest ∧ next.dir = s.dir := by
  cases call with
  | allocuvm oldsz newsz =>
      rcases world.allocuvm oldsz newsz with ⟨panic, -⟩ | ⟨value, middle, next, rest, done, holding,
        dir, -⟩
      · rw [UserCall.run, Action.bind_panic panic] at ran
        cases ran
      · rw [UserCall.run, Action.bind_done done] at ran
        cases ran
        exact ⟨next, rest, holding, dir⟩
  | deallocuvm oldsz newsz =>
      obtain ⟨middle, next, rest, done, holding, shrinks⟩ := world.deallocuvm_shrinks newsz user.1
      rw [UserCall.run, Action.bind_done done] at ran
      cases ran
      exact ⟨next, rest, holding, shrinks.dir⟩
  | clearpteu uva =>
      rcases world.clearpteu uva with ⟨panic, -⟩ | ⟨page, there, done, holding⟩
      · rw [UserCall.run, panic] at ran
        cases ran
      · rw [UserCall.run, done] at ran
        cases ran
        exact ⟨_, free, holding, rfl⟩

/-- So do any number of calls. -/
theorem runAll (world : World all m s free) {calls : List UserCall}
    (user : ∀ call ∈ calls, call.User) {later : Machine}
    (ran : UserCall.runAll symbols s.dir.addr calls m = .done () later) :
    ∃ next rest, World all later next rest ∧ next.dir = s.dir := by
  induction calls generalizing m s free with
  | nil =>
      cases ran
      exact ⟨s, free, world, rfl⟩
  | cons call rest inductionHypothesis =>
      rw [UserCall.runAll] at ran
      cases first : call.run symbols s.dir.addr m with
      | blocked =>
          change Action.bind _ _ _ = _ at ran
          rw [Action.bind, first] at ran
          cases ran
      | panic message =>
          rw [Action.bind_panic first] at ran
          cases ran
      | done value middle =>
          rw [Action.bind_done first] at ran
          obtain ⟨next, remaining, holding, dir⟩ := world.call (user call (List.mem_cons_self ..)) first
          rw [← dir] at ran
          obtain ⟨final, left, ended, same⟩ := inductionHypothesis holding
            (fun other member => user other (List.mem_cons_of_mem _ member)) ran
          exact ⟨final, left, ended, same.trans dir⟩

end World

/-! ## A machine after boot -/

/-- A kernel with eight pages of text and thirteen of data. -/
def smallKernel : Symbols where
  data := 0x80108000
  kend := 0x80115000
  aligned := by decide
  after := by decide
  ordered := by decide
  before := by decide

/-- The page `i` pages above the first four megabytes. -/
theorem exists_page (small : symbols.kend ≤ p2v (4 * 1024 * 1024)) {i : Nat} (below : i < 56320) :
    ∃ page : Page symbols, page.addr.toNat = 0x80400000 + 4096 * i := by
  have fits := UInt32.le_iff_toNat_le.mp small
  rw [show (p2v (4 * 1024 * 1024)).toNat = 0x80400000 by decide] at fits
  have address : (UInt32.ofNat (0x80400000 + 4096 * i)).toNat = 0x80400000 + 4096 * i :=
    UInt32.toNat_ofNat_of_lt' (by
      rw [UInt32.size]
      omega)
  have before : (UInt32.ofNat (0x80400000 + 4096 * i)).toNat < (p2v phystop).toNat := by
    rw [address, show (p2v phystop).toNat = 0x8E000000 by rfl]
    omega
  exact ⟨⟨UInt32.ofNat (0x80400000 + 4096 * i), by omega, by omega, before⟩, address⟩

/-- There are many pages above the first four megabytes. -/
theorem many_pages (small : symbols.kend ≤ p2v (4 * 1024 * 1024)) {count : Nat}
    (fits : count ≤ 56320) (everything : ∀ page : Page symbols, page ∈ free) :
    count ≤ free.length := by
  have chosen := fun i : Fin count => exists_page small (Nat.lt_of_lt_of_le i.isLt fits)
  have injective : Function.Injective fun i => Classical.choose (chosen i) := by
    intro i j same
    have first := Classical.choose_spec (chosen i)
    have second := Classical.choose_spec (chosen j)
    simp only at same
    rw [same, second] at first
    apply Fin.ext
    omega
  have length := (List.subperm_of_subset (List.nodup_ofFn_ofInjective injective)
    (fun page _ => everything page)).length_le
  rw [List.length_ofFn] at length
  exact length

/-! ## The account is free again -/

/-- `freevm` puts exactly the pages in use back on the free list, each once, and
the free pages are then those from before `setupkvm`. When `setupkvm` fails they
are that at once. -/
theorem freevm_returns_all (frees : m.Free free) :
    ∃ pgdir start, setupkvm symbols m = .done pgdir start ∧
      (pgdir = 0 → ∃ rest, start.Free rest ∧ ∀ page, page ∈ rest ↔ page ∈ free) ∧
      (pgdir ≠ 0 → ∀ calls, (∀ call ∈ calls, call.User) → ∀ before,
        UserCall.runAll symbols pgdir calls start = .done () before →
        ∃ after returned rest, freevm symbols pgdir before = .done () after ∧
          before.Free rest ∧ after.Free (returned ++ rest) ∧
          (∀ page, page ∈ returned ↔ before.Uses pgdir page) ∧
          ∀ page, page ∈ returned ++ rest ↔ page ∈ free) := by
  rcases setupkvm_spec frees with
    ⟨later, rest, -, failed, again, same, -⟩ | ⟨start, s, rest, made, world, -⟩
  · exact ⟨0, later, failed, fun _ => ⟨rest, again, same⟩, fun absurd => (absurd rfl).elim⟩
  · refine ⟨s.dir.addr, start, made, fun zero => (s.dir.addr_ne_zero zero).elim, ?_⟩
    intro _ calls user before ran
    obtain ⟨last, remaining, holding, dir⟩ := world.runAll user ran
    obtain ⟨after, listed, freed, frees, ⟨returned, joined⟩, same, -⟩ := holding.freevm
    rw [dir] at freed
    subst joined
    refine ⟨after, returned, remaining, freed, holding.frees, frees, ?_, same⟩
    intro page
    have places := holding.holds.uses_iff page
    rw [dir] at places
    rw [places]
    have apart := (List.nodup_append.mp frees.nodup).2.2
    constructor
    · intro member
      have inside := (same page).mp (List.mem_append_left _ member)
      rcases holding.accounts.covered page inside with still | held
      · exact absurd rfl (apart page member page still)
      · exact held
    · rintro ⟨place, held⟩
      have inside := (same page).mpr (holding.has_all held)
      exact (List.mem_append.mp inside).resolve_right (holding.has_used held)

theorem freevm_returns_all_booted :
    ∃ m pgdir start before after, ∃ returned rest : List (Page smallKernel),
      kinit smallKernel ⟨fun _ => 0, 0⟩ = .done () m ∧
      setupkvm smallKernel m = .done pgdir start ∧ pgdir ≠ 0 ∧
      UserCall.runAll smallKernel pgdir [.allocuvm 0 8192, .deallocuvm 8192 4096] start =
        .done () before ∧
      freevm smallKernel pgdir before = .done () after ∧ before.Free rest ∧
      after.Free (returned ++ rest) ∧ (∀ page, page ∈ returned ↔ before.Uses pgdir page) ∧
      ∀ page, page ∈ returned ++ rest := by
  obtain ⟨m, free, booted, frees, everything⟩ := kinit_frees smallKernel (by decide) fun _ => 0
  obtain ⟨pgdir, start, made, -, returns⟩ := freevm_returns_all frees
  have enough := many_pages (by decide) (show 66 ≤ 56320 by decide) everything
  rcases setupkvm_spec frees with ⟨_, _, few, -⟩ | ⟨first, s, rest, done, world, -, only, -⟩
  · exact absurd few (by omega)
  · rw [made] at done
    cases done
    rcases world.allocuvm 0 8192 with ⟨-, k, -, below, present⟩ | ⟨value, middle, next, left, grown,
      holding, dir, -⟩
    · rw [only.user k (Nat.lt_trans below (by decide))] at present
      exact absurd present not_present_zero
    · obtain ⟨before, last, remaining, shrunk, -⟩ :=
        holding.deallocuvm_shrinks 4096 (show 8192 ≤ kernbase by decide)
      rw [dir] at shrunk
      have ran : UserCall.runAll smallKernel s.dir.addr
          [.allocuvm 0 8192, .deallocuvm 8192 4096] start = .done () before := by
        have one : (UserCall.allocuvm 0 8192).run smallKernel s.dir.addr start =
            .done () middle := by
          rw [UserCall.run, Action.bind_done grown]
          rfl
        have two : (UserCall.deallocuvm 8192 4096).run smallKernel s.dir.addr middle =
            .done () before := by
          rw [UserCall.run, Action.bind_done shrunk]
          rfl
        rw [UserCall.runAll, Action.bind_done one, UserCall.runAll, Action.bind_done two]
        rfl
      have user : ∀ call ∈ [UserCall.allocuvm 0 8192, .deallocuvm 8192 4096], call.User := by
        intro call member
        rcases List.mem_cons.mp member with rfl | member
        · exact ⟨by decide, by decide⟩
        · cases List.mem_singleton.mp member
          exact ⟨by decide, by decide⟩
      obtain ⟨after, returned, rest, freed, was, frees, used, same⟩ :=
        returns s.dir.addr_ne_zero _ user before ran
      exact ⟨m, s.dir.addr, start, before, after, returned, rest, booted, made,
        s.dir.addr_ne_zero, ran, freed, was, frees, used, fun page =>
          (same page).mpr (everything page)⟩

end Xv6.Vm
