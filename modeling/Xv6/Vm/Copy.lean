import Xv6.Vm.Accounting

/-!
# Copying an address space

`copyuvm` copies the user pages of a process for its child, one after the
other. The pages of the child come from the free list, where no page of the
parent is, so the two share nothing that the user can write.
-/

namespace Xv6.Vm

open Xv6.Library

variable {symbols : Symbols} {all : Set (Page symbols)} {m : Machine}
  {s parent base child : Space symbols} {free : List (Page symbols)}

/-! ## User memory -/

/-- Where the kernel finds the byte at a user address. -/
def Machine.kernelAddr (m : Machine) (pgdir va : UInt32) : UInt32 :=
  p2v (pteAddr (m.lookup pgdir va)) + va % pgsize

def Machine.userByte (m : Machine) (pgdir va : UInt32) : UInt8 :=
  m.memory (m.kernelAddr pgdir va).toNat

theorem toNat_offset (va : UInt32) : (va % pgsize).toNat = va.toNat % 4096 :=
  UInt32.toNat_mod va pgsize

theorem toNat_in_page (page : Page symbols) (va : UInt32) :
    (page.addr + va % pgsize).toNat = page.addr.toNat + va.toNat % 4096 := by
  have below := page.below
  rw [UInt32.toNat_add, toNat_offset]
  omega

/-- The byte of the page that the address is mapped to. -/
theorem Machine.Holds.userByte (holds : m.Holds s) {va : UInt32} {page : Page symbols}
    (mapped : s.frame (vpn va) = page.addr) :
    m.userByte s.dir.addr va = m.byte page (va.toNat % 4096) := by
  have address : p2v (pteAddr (s.pte (vpn va))) = page.addr := mapped
  rw [Machine.userByte, Machine.kernelAddr, holds.lookup, address, toNat_in_page, Machine.byte]

/-! ## One page -/

/-- The page with the bytes of another one. -/
def Machine.copyPage (m : Machine) (page source : Page symbols) : Machine :=
  { m with memory := m.memory.write page.addr.toNat (m.memory.read source.addr.toNat 4096) }

theorem Machine.byte_copyPage (page source : Page symbols) {offset : Nat}
    (inside : offset < 4096) :
    (m.copyPage page source).byte page offset = m.byte source offset := by
  change m.memory.write page.addr.toNat (m.memory.read source.addr.toNat 4096)
    (page.addr.toNat + offset) = _
  rw [Memory.write_inside _ _ (by rw [Memory.length_read]; exact inside)]
  simp only [Memory.read, List.getElem_map, List.getElem_range, Machine.byte]

theorem Machine.same_copyPage {page other : Page symbols} (source : Page symbols)
    (different : other ≠ page) : m.Same (m.copyPage page source) other := by
  intro offset below
  have apart := Page.apart different
  apply Memory.write_outside
  rw [Memory.length_read]
  omega

/-- What has been copied before page `n`: the pages below it have the parent's
flags and bytes, and the kernel part is that of `base`. -/
structure Copied (all : Set (Page symbols)) (m : Machine) (parent base : Space symbols) (n : Nat)
    (later : Machine) (child : Space symbols) : Prop where
  dir : child.dir = base.dir
  kernel : ∀ k, userPages ≤ k → child.pte k = base.pte k
  copied : ∀ k < n, ∃ source page : Page symbols, parent.frame k = source.addr ∧
    child.pte k = v2p page.addr ||| pteFlags (parent.pte k) ||| pteP ∧
    ∀ offset < 4096, later.byte page offset = m.byte source offset
  above : ∀ k, n ≤ k → k < userPages → child.pte k = 0
  same : ∀ page, page ∉ all → m.Same later page

/-- What `copyuvm` relies on: the parent's pages are pages of the allocator and
not free, and its user pages are present. -/
structure Parent (all : Set (Page symbols)) (m : Machine) (parent : Space symbols) (count : Nat) :
    Prop where
  holds : m.Holds parent
  used : ∀ place page, parent.Has place page → page ∉ all
  present : ∀ n < count, Present (parent.pte n)
  backed : ∀ n < count, ∃ page : Page symbols, parent.frame n = page.addr

/-- There is a page table for every user page below page `n`, and the others are those of
`base`. -/
structure Tabled (n : Nat) (base child : Space symbols) : Prop where
  user : ∀ i < 512, child.table i ≠ none ↔ 1024 * i < n
  kernel : ∀ i, 512 ≤ i → child.table i = base.table i

theorem Tabled.next {n : Nat} {after : Space symbols} (tabled : Tabled n base child)
    (below : n < userPages) (here : after.table (n / 1024) ≠ none)
    (others : ∀ i, i ≠ n / 1024 → after.table i = child.table i) : Tabled (n + 1) base after where
  user i small := by
    by_cases same : i = n / 1024
    · rw [same]
      exact iff_of_true here (by omega)
    · rw [others i same, tabled.user i small]
      omega
  kernel i large := by
    unfold userPages at below
    rw [others i (by omega)]
    exact tabled.kernel i large

/-- `copyuvm` gives up at page `n`: there is no page left for the copy, or none for the page
table, and then the page for the copy is lost. -/
def GaveUp (all : Set (Page symbols)) (child : Space symbols) (rest : List (Page symbols)) (n : Nat)
    (final : Machine) : Prop :=
  ∃ freed, final.Free freed ∧
    (rest = [] ∧ (∀ page, page ∈ freed ↔ page ∈ all) ∨
      ∃ lost, rest = [lost] ∧ child.table (n / 1024) = none ∧
        ∀ page, page ∈ freed ↔ page ∈ all ∧ page ≠ lost)

theorem GaveUp.few {n : Nat} {rest : List (Page symbols)} {final : Machine}
    (gaveUp : GaveUp all child rest n final) : rest.length ≤ 1 := by
  obtain ⟨_, -, ⟨rfl, -⟩ | ⟨lost, rfl, -⟩⟩ := gaveUp
  · exact Nat.zero_le 1
  · exact Nat.le_refl 1

theorem pteFlags_lt (pte : UInt32) : (pteFlags pte).toNat < 4096 := by
  rw [pteFlags, UInt32.toNat_and]
  exact Nat.lt_of_le_of_lt Nat.and_le_right (by decide)

/-- The frame of the entry that `copyuvm` makes. -/
theorem copied_frame (page : Page symbols) (pte : UInt32) :
    p2v (pteAddr (v2p page.addr ||| pteFlags pte ||| pteP)) = page.addr := by
  rw [UInt32.or_assoc]
  apply page.p2v_pteAddr
  rw [UInt32.toNat_or]
  exact Nat.or_lt_two_pow (n := 12) (pteFlags_lt pte) (by decide)

/-- A world with few user pages has few pages besides the free ones. -/
theorem World.few_pages (world : World all m s free) {n : Nat}
    (above : ∀ k, n ≤ k → k < userPages → s.pte k = 0) :
    ∃ counted : Finset (Page symbols), all ⊆ ↑counted ∧
      counted.card ≤ n + 1025 + free.length := by
  classical
  have frames : ∀ k < n, ∃ page, ∀ other, s.Has (.user k) other → other = page := by
    intro k below
    by_cases held : ∃ page, s.Has (.user k) page
    · obtain ⟨page, held⟩ := held
      exact ⟨page, fun other also => Space.has_only held also⟩
    · exact ⟨s.dir, fun other also => absurd ⟨other, also⟩ held⟩
  choose frame only using frames
  refine ⟨insert s.dir ((Finset.range 1024).image (fun i => (s.table i).getD s.dir) ∪
    (Finset.univ : Finset (Fin n)).image fun k : Fin n => frame k k.isLt) ∪ free.toFinset, ?_, ?_⟩
  · intro page member
    rcases world.accounts.covered page member with listed | ⟨place, held⟩
    · exact Finset.mem_union_right _ (List.mem_toFinset.mpr listed)
    · apply Finset.mem_union_left
      cases place with
      | dir => exact Finset.mem_insert.mpr (Or.inl held)
      | table i =>
          refine Finset.mem_insert_of_mem (Finset.mem_union_left _ (Finset.mem_image.mpr ⟨i, ?_, ?_⟩))
          · exact Finset.mem_range.mpr (s.small i page held)
          · have there : s.table i = some page := held
            rw [there, Option.getD_some]
      | user k =>
          have below : k < n := by
            by_contra outside
            have present := held.2.1
            rw [above k (Nat.le_of_not_lt outside) held.1] at present
            exact not_present_zero present
          exact Finset.mem_insert_of_mem (Finset.mem_union_right _ (Finset.mem_image.mpr
            ⟨⟨k, below⟩, Finset.mem_univ _, (only k below page held).symm⟩))
  · refine (Finset.card_union_le _ _).trans ?_
    have held := Finset.card_insert_le s.dir
      ((Finset.range 1024).image (fun i => (s.table i).getD s.dir) ∪
        (Finset.univ : Finset (Fin n)).image fun k : Fin n => frame k k.isLt)
    have listed := List.toFinset_card_le free
    have tables : ((Finset.range 1024).image fun i => (s.table i).getD s.dir).card ≤ 1024 :=
      Finset.card_image_le.trans (Nat.le_of_eq (Finset.card_range 1024))
    have users : ((Finset.univ : Finset (Fin n)).image fun k : Fin n => frame k k.isLt).card ≤ n :=
      Finset.card_image_le.trans (Nat.le_of_eq (Finset.card_fin n))
    have union := Finset.card_union_le
      ((Finset.range 1024).image fun i => (s.table i).getD s.dir)
      ((Finset.univ : Finset (Fin n)).image fun k : Fin n => frame k k.isLt)
    omega

namespace Copied

variable {later : Machine} {n count : Nat} {rest : List (Page symbols)}

theorem has_user (copied : Copied all m parent base n later child) {k : Nat} (below : k < n)
    (user : k < userPages) : ∃ source page : Page symbols, parent.frame k = source.addr ∧
      child.Has (.user k) page ∧
      child.pte k = v2p page.addr ||| pteFlags (parent.pte k) ||| pteP ∧
      ∀ offset < 4096, later.byte page offset = m.byte source offset := by
  obtain ⟨source, page, frame, entry, bytes⟩ := copied.copied k below
  refine ⟨source, page, frame, ⟨user, ?_, ?_⟩, entry, bytes⟩
  · rw [entry]
    exact present_or_pteP _
  · rw [Space.frame, entry, copied_frame]

/-- The parent's pages are as before. -/
theorem parent_holds (copied : Copied all m parent base n later child)
    (source : Parent all m parent count) : later.Holds parent := by
  refine source.holds.congr fun page structural => copied.same page ?_
  rcases structural with dir | ⟨i, there⟩
  · exact source.used .dir page dir
  · exact source.used (.table i) page there

/-- One turn copies page `n`, unless there is no memory left. -/
theorem copyFrom_turn (copied : Copied all m parent base n later child)
    (source : Parent all m parent count) (world : World all later child rest) {i sz : UInt32}
    (address : i.toNat = 4096 * n) (more : i < sz) (inside : n < count) (user : n < userPages)
    (fuel : Nat) :
    (∃ final, copyFrom symbols parent.dir.addr base.dir.addr sz (fuel + 1) i later =
      .done 0 final ∧ GaveUp all child rest n final) ∨
    ∃ final next remaining,
      copyFrom symbols parent.dir.addr base.dir.addr sz (fuel + 1) i later =
        copyFrom symbols parent.dir.addr base.dir.addr sz fuel (i + pgsize) final ∧
      World all final next remaining ∧ Copied all m parent base (n + 1) final next ∧
      next.table (n / 1024) ≠ none ∧ ∀ i, i ≠ n / 1024 → next.table i = child.table i := by
  have number := World.vpn_eq address
  have present := source.present n inside
  obtain ⟨frame, framed⟩ := source.backed n inside
  have holds := copied.parent_holds source
  obtain ⟨table, there⟩ : ∃ table, parent.table (n / 1024) = some table := by
    apply Option.ne_none_iff_exists'.mp
    intro none
    rw [parent.absent n none] at present
    exact not_present_zero present
  have walked := holds.walkpgdir_table
    (show parent.table (vpn i / 1024) = some table by rw [number]; exact there) false
  have entry : later.word table (ptx i).toNat = parent.pte n := by
    rw [World.toNat_ptx_eq, number]
    exact holds.entries n table there
  have reads : copyFrom symbols parent.dir.addr base.dir.addr sz (fuel + 1) i later =
      (kalloc >>= fun mem =>
        if mem = 0 then do
          freevm symbols base.dir.addr
          return 0
        else do
          memmove mem (parent.frame n) pgsize
          let mapped ← mappages base.dir.addr i pgsize (v2p mem) (pteFlags (parent.pte n))
          if mapped < 0 then
            freevm symbols base.dir.addr
            return 0
          else copyFrom symbols parent.dir.addr base.dir.addr sz fuel (i + pgsize)) later := by
    rw [copyFrom, if_pos more, Action.bind_done walked, if_neg (slot_ne_zero table i),
      Machine.loadWord_page (toNat_ptx_lt i), entry, if_neg (not_not.mpr present)]
    rfl
  cases rest with
  | nil =>
      obtain ⟨final, freed, ran, frees, -, same, -⟩ := world.freevm
      rw [copied.dir] at ran
      refine Or.inl ⟨final, ?_, freed, frees, Or.inl ⟨rfl, same⟩⟩
      rw [reads, Action.bind_done world.frees.kalloc_nil, if_pos rfl, Action.bind_done ran]
      rfl
  | cons page rest =>
      have outside : frame ∉ all := source.used (.user n) frame ⟨user, present, framed⟩
      have step : copyFrom symbols parent.dir.addr base.dir.addr sz (fuel + 1) i later =
          (mappages child.dir.addr i pgsize (v2p page.addr) (pteFlags (parent.pte n)) >>=
            fun mapped =>
              if mapped < 0 then do
                freevm symbols base.dir.addr
                return 0
              else copyFrom symbols parent.dir.addr base.dir.addr sz fuel (i + pgsize))
            ((later.take page).copyPage page frame) := by
        rw [reads, Action.bind_done world.frees.kalloc_cons, if_neg page.addr_ne_zero, framed,
          memmove, Action.modify_bind, copied.dir]
        rfl
      have written := world.takeWrite
        (fun other different => Machine.same_copyPage frame different) rfl
      have unmapped : ¬Present (child.pte n) := by
        rw [copied.above n (Nat.le_refl n) user]
        exact not_present_zero
      rcases written.mappages_user address user (pteFlags_lt (parent.pte n))
          (show page ∉ all \ {page} from fun outside => outside.2 rfl) unmapped with
        ⟨rfl, none, failed⟩ | ⟨final, next, remaining, ran, holding, grows, entries, tables⟩
      · obtain ⟨final, freed, ran, frees, -, same, -⟩ := written.freevm
        rw [copied.dir] at ran
        refine Or.inl ⟨final, ?_, freed, frees, Or.inr ⟨page, rfl, none, same⟩⟩
        rw [step, Action.bind_done failed, if_pos (by decide), Action.bind_done ran]
        rfl
      · rw [world.insert_taken] at holding
        refine Or.inr ⟨final, next, remaining, ?_, holding, ?_, tables⟩
        · rw [step, Action.bind_done ran, if_neg (by decide)]
        obtain ⟨member, fresh, nowhere⟩ := world.first_fresh
        have others : ∀ k, k ≠ n → next.pte k = child.pte k := by
          intro k different
          rw [entries, Function.update_of_ne different]
        refine ⟨grows.dir.trans copied.dir, ?_, ?_, ?_, ?_⟩
        · intro k kernel
          rw [others k (by omega)]
          exact copied.kernel k kernel
        · intro k below
          by_cases last : k = n
          · subst last
            refine ⟨frame, page, framed, by rw [entries, Function.update_self], ?_⟩
            intro offset within
            have data : ¬child.Structural page := by
              rintro (dir | ⟨j, pointed⟩)
              · exact nowhere .dir dir
              · exact nowhere (.table j) pointed
            rw [grows.same page fresh data offset within, Machine.byte_copyPage page frame within]
            exact copied.same frame outside offset within
          · obtain ⟨origin, copy, named, mapped, pte, bytes⟩ :=
              copied.has_user (show k < n by omega) (by omega)
            refine ⟨origin, copy, named, (others k last).trans pte, ?_⟩
            intro offset within
            have different : copy ≠ page := by
              rintro rfl
              exact nowhere (.user k) mapped
            have used : copy ∉ rest := fun listed =>
              world.has_used mapped (List.mem_cons_of_mem _ listed)
            rw [grows.same copy used (world.user_data mapped) offset within,
              Machine.same_copyPage frame different offset within]
            exact bytes offset within
        · intro k after below
          rw [others k (by omega)]
          exact copied.above k (by omega) below
        · intro other away
          have different : other ≠ page := by
            rintro rfl
            exact away member
          exact ((copied.same other away).trans (Machine.same_copyPage frame different)).trans
            (written.same_outside grows fun inside => away inside.1)

/-- The loop copies all pages of the process or returns 0, for want of memory. -/
theorem copyFrom (copied : Copied all m parent base n later child) {sz : UInt32}
    (tabled : Tabled n base child) (source : Parent all m parent (pages sz))
    (world : World all later child rest) {i : UInt32}
    {fuel : Nat} (address : i.toNat = 4096 * n) (started : n ≤ pages sz)
    (user : pages sz ≤ userPages) (enough : pages sz < n + fuel) :
    ∃ value final, copyFrom symbols parent.dir.addr base.dir.addr sz fuel i later =
      .done value final ∧
      ((value = 0 ∧ ∃ k < pages sz, ∃ last next remaining, World all last next remaining ∧
          Copied all m parent base k last next ∧ Tabled k base next ∧
          GaveUp all next remaining k final) ∨
        value = base.dir.addr ∧ ∃ next remaining, World all final next remaining ∧
          Copied all m parent base (pages sz) final next ∧ Tabled (pages sz) base next) := by
  induction fuel generalizing later child rest n i with
  | zero => omega
  | succ fuel inductionHypothesis =>
      by_cases more : i < sz
      · have inside : n < pages sz := by
          rw [UInt32.lt_iff_toNat_lt] at more
          unfold pages
          omega
        rcases copied.copyFrom_turn source world address more inside (by omega) fuel with
          ⟨final, ran, gaveUp⟩ | ⟨middle, next, remaining, ran, holding, further, here, others⟩
        · exact ⟨0, final, ran, Or.inl ⟨rfl, n, inside, later, child, rest, world, copied, tabled,
            gaveUp⟩⟩
        · rw [ran]
          have tables := tabled.next (by omega) here others
          unfold userPages at user
          exact inductionHypothesis further tables holding (World.vpn_next address (by omega)) inside
            (by omega)
      · have last : n = pages sz := by
          rw [UInt32.lt_iff_toNat_lt] at more
          unfold pages at started ⊢
          omega
        refine ⟨base.dir.addr, later, ?_, Or.inr ⟨rfl, child, rest, world, last ▸ copied,
          last ▸ tabled⟩⟩
        rw [Vm.copyFrom, if_neg more]
        rfl

end Copied

/-! ## The copy -/

/-- The directory `d` in `later` is a copy of the user pages of `pgdir` in `m`,
and shares no user page with it. Its kernel part is that of `start`. -/
structure IsolatedCopy (symbols : Symbols) (m start later : Machine) (pgdir d sz : UInt32) :
    Prop where
  mapped : ∀ va < kernbase, Present (later.lookup d va) ↔ vpn va < pages sz
  flags : ∀ va, vpn va < pages sz → pteFlags (later.lookup d va) = pteFlags (m.lookup pgdir va)
  bytes : ∀ va, vpn va < pages sz → later.userByte d va = m.userByte pgdir va
  apart : ∀ va < kernbase, Present (later.lookup d va) →
    ∀ other < kernbase, Present (m.lookup pgdir other) →
      pteAddr (later.lookup d va) ≠ pteAddr (m.lookup pgdir other)
  isolated : ∀ va < kernbase, Present (later.lookup d va) →
    ∀ other < kernbase, Present (later.lookup pgdir other) →
      later.kernelAddr d va ≠ later.kernelAddr pgdir other
  table : ∀ va, later.lookup pgdir va = m.lookup pgdir va
  memory : ∀ page : Page symbols, m.Uses pgdir page → m.Same later page
  kernel : ∀ va, kernbase ≤ va → later.lookup d va = start.lookup d va

theorem vpn_user {va : UInt32} (user : va < kernbase) : vpn va < userPages := by
  have below : va.toNat < 0x80000000 := UInt32.lt_iff_toNat_lt.mp user
  unfold vpn userPages
  omega

theorem user_of_vpn {va : UInt32} (below : vpn va < userPages) : va < kernbase := by
  unfold vpn userPages at below
  rw [UInt32.lt_iff_toNat_lt, toNat_kernbase]
  omega

/-- A page's address is not an address in a frame with another number. -/
theorem frame_of_kernelAddr {page : Page symbols} {pte first second : UInt32}
    (same : page.addr + first % pgsize = p2v (pteAddr pte) + second % pgsize) :
    p2v (pteAddr pte) = page.addr := by
  have aligned := page.aligned
  have below := page.below
  have above := page.above
  have left := toNat_in_page page first
  have frame : (pteAddr pte).toNat = pte.toNat / 4096 * 4096 := toNat_clear_low pte
  have bound := pte.toNat_lt
  have physical : (p2v (pteAddr pte)).toNat % 4096 = 0 := by
    rw [p2v, UInt32.toNat_add, frame, toNat_kernbase]
    omega
  have right : (p2v (pteAddr pte) + second % pgsize).toNat =
      (p2v (pteAddr pte)).toNat + second.toNat % 4096 := by
    have frames := (p2v (pteAddr pte)).toNat_lt
    rw [UInt32.toNat_add, toNat_offset]
    omega
  rw [← UInt32.toNat_inj]
  have numbers := congrArg UInt32.toNat same
  rw [left, right] at numbers
  omega

namespace Copied

variable {start later : Machine} {rest left : List (Page symbols)} {sz : UInt32}

/-- The pages below the size are the copied ones. -/
theorem present_iff (copied : Copied all m parent base (pages sz) later child) {k : Nat}
    (below : k < userPages) :
    Present (child.pte k) ↔ k < pages sz := by
  constructor
  · intro present
    by_contra outside
    rw [copied.above k (Nat.le_of_not_lt outside) below] at present
    exact not_present_zero present
  · intro inside
    obtain ⟨_, _, _, held, -⟩ := copied.has_user inside below
    exact held.2.1

/-- The finished copy. -/
theorem isolated (copied : Copied all m parent base (pages sz) later child)
    (source : Parent all m parent (pages sz)) (world : World all later child rest)
    (began : start.Holds base) (user : pages sz ≤ userPages) :
    IsolatedCopy symbols m start later parent.dir.addr base.dir.addr sz := by
  have holds := copied.parent_holds source
  have childHolds := world.holds
  have lookup : ∀ va, later.lookup base.dir.addr va = child.pte (vpn va) := by
    intro va
    rw [← copied.dir]
    exact childHolds.lookup va
  have frames : ∀ va < kernbase, Present (later.lookup base.dir.addr va) →
      ∃ page : Page symbols, page ∈ all ∧ child.frame (vpn va) = page.addr := by
    intro va below present
    rw [lookup] at present
    obtain ⟨page, frame⟩ := world.backed (vpn va) (vpn_user below) present
    exact ⟨page, world.has_all (show child.Has (.user (vpn va)) page from
      ⟨vpn_user below, present, frame⟩), frame⟩
  have unused : ∀ page ∈ all, ∀ other < kernbase, Present (m.lookup parent.dir.addr other) →
      p2v (pteAddr (m.lookup parent.dir.addr other)) ≠ page.addr := by
    intro page member other below present same
    rw [source.holds.lookup] at present same
    exact source.used (.user (vpn other)) page ⟨vpn_user below, present, same⟩ member
  have table : ∀ va, later.lookup parent.dir.addr va = m.lookup parent.dir.addr va := by
    intro va
    rw [holds.lookup, source.holds.lookup]
  constructor
  · intro va below
    rw [lookup]
    exact copied.present_iff (vpn_user below)
  · intro va inside
    obtain ⟨_, page, _, _, entry, -⟩ :=
      copied.has_user inside (Nat.lt_of_lt_of_le inside user)
    have present := source.present _ inside
    rw [lookup, source.holds.lookup, entry, UInt32.or_assoc, pteFlags_or_pteP present,
      pteFlags_or page.v2p_aligned (pteFlags_lt _)]
  · intro va inside
    obtain ⟨origin, page, frame, held, -, bytes⟩ :=
      copied.has_user inside (Nat.lt_of_lt_of_le inside user)
    rw [source.holds.userByte frame, ← copied.dir, childHolds.userByte held.2.2]
    exact bytes _ (Nat.mod_lt _ (by decide))
  · intro va below present other otherBelow also same
    obtain ⟨page, member, frame⟩ := frames va below present
    apply unused page member other otherBelow also
    rw [← same, lookup]
    exact frame
  · intro va below present other otherBelow also same
    obtain ⟨page, member, frame⟩ := frames va below present
    rw [table] at also
    have address : p2v (pteAddr (child.pte (vpn va))) = page.addr := frame
    rw [Machine.kernelAddr, Machine.kernelAddr, lookup, address, table] at same
    exact unused page member other otherBelow also (frame_of_kernelAddr same)
  · exact table
  · intro page used
    apply copied.same page
    obtain ⟨place, held⟩ := (source.holds.uses_iff page).mp used
    exact source.used place page held
  · intro va kernel
    have above : userPages ≤ vpn va := by
      by_contra below
      have user := user_of_vpn (Nat.lt_of_not_le below)
      exact UInt32.not_le.mpr user kernel
    rw [lookup, began.lookup]
    exact copied.kernel _ above

end Copied

theorem length_le_of_subset (nodup : free.Nodup) {counted : Finset (Page symbols)}
    (covers : {page | page ∈ free} ⊆ (↑counted : Set (Page symbols))) :
    free.length ≤ counted.card := by
  rw [← List.toFinset_card_of_nodup nodup]
  exact Finset.card_le_card fun page member => covers (List.mem_toFinset.mp member)

/-- No user page has a page table yet. -/
theorem Space.KernelOnly.tabled (only : base.KernelOnly) : Tabled 0 base base where
  user i small := by
    refine iff_of_false ?_ (Nat.not_lt_zero _)
    intro there
    obtain ⟨page, held⟩ := Option.ne_none_iff_exists'.mp there
    have kernel := only.table i page held
    rw [kernelTables, Finset.mem_union, Finset.mem_Ico, Finset.mem_Ico] at kernel
    omega
  kernel _ _ := rfl

/-- Fork's copy is exact and isolated, and there is one whenever enough pages
are free. -/
theorem copyuvm_copies {sz : UInt32} (frees : m.Free free) (holds : m.Holds parent)
    (user : sz ≤ kernbase)
    (present : ∀ va, vpn va < pages sz → Present (m.lookup parent.dir.addr va))
    (backed : ∀ va, vpn va < pages sz →
      ∃ page : Page symbols, p2v (pteAddr (m.lookup parent.dir.addr va)) = page.addr)
    (used : ∀ page, m.Uses parent.dir.addr page → page ∉ free) :
    ∃ fresh start d later, setupkvm symbols m = .done fresh start ∧
      copyuvm symbols parent.dir.addr sz m = .done d later ∧
      (d ≠ 0 → d = fresh ∧ IsolatedCopy symbols m start later parent.dir.addr d sz) ∧
      (pages sz + 1026 < free.length → d ≠ 0) := by
  have bound : sz.toNat ≤ 0x80000000 := UInt32.le_iff_toNat_le.mp user
  have small : pages sz ≤ userPages := by
    unfold pages userPages
    omega
  have address : ∀ n < pages sz, vpn (UInt32.ofNat (4096 * n)) = n := by
    intro n below
    unfold userPages at small
    exact World.vpn_eq (toNat_ofNat_page (by omega))
  have source : Parent {page | page ∈ free} m parent (pages sz) := by
    refine ⟨holds, ?_, ?_, ?_⟩
    · exact fun place page held => used page ((holds.uses_iff page).mpr ⟨place, held⟩)
    · intro n below
      have there := present _ ((address n below).symm ▸ below)
      rw [holds.lookup, address n below] at there
      exact there
    · intro n below
      obtain ⟨page, frame⟩ := backed _ ((address n below).symm ▸ below)
      rw [holds.lookup, address n below] at frame
      exact ⟨page, frame⟩
  rcases setupkvm_spec frees with
    ⟨later, rest, few, failed, -⟩ | ⟨start, base, rest, made, world, -, only, outside, -⟩
  · refine ⟨0, later, 0, later, failed, ?_, fun absurd => (absurd rfl).elim, ?_⟩
    · rw [copyuvm, Action.bind_done failed, if_pos rfl]
      rfl
    · intro enough
      omega
  · have first : Copied {page | page ∈ free} m parent base 0 start base :=
      ⟨rfl, fun _ _ => rfl, fun _ none => absurd none (Nat.not_lt_zero _),
        fun k _ below => only.user k below, outside⟩
    obtain ⟨value, later, ran, result⟩ := first.copyFrom only.tabled source world
      (show (0 : UInt32).toNat = 4096 * 0 by rfl) (Nat.zero_le _) small
      (show pages sz < 0 + turns by
        unfold turns npdentries nptentries
        unfold userPages at small
        omega)
    refine ⟨base.dir.addr, start, value, later, made, ?_, ?_, ?_⟩
    · rw [copyuvm, Action.bind_done made, if_neg base.dir.addr_ne_zero]
      exact ran
    · intro success
      rcases result with ⟨zero, -⟩ | ⟨rfl, child, remaining, holding, copied, -⟩
      · exact absurd zero success
      · exact ⟨rfl, copied.isolated source holding world.holds small⟩
    · intro enough zero
      rcases result with ⟨-, n, inside, _, child, remaining, holding, copied, -, gaveUp⟩ | ⟨same, -⟩
      · obtain ⟨counted, covers, few⟩ := holding.few_pages copied.above
        have length := length_le_of_subset frees.nodup covers
        have none := gaveUp.few
        omega
      · exact base.dir.addr_ne_zero (same.symm.trans zero)

/-- After boot there is a space with one user page. -/
theorem booted_page :
    ∃ m s, ∃ all free : List (Page smallKernel), ∃ page : Page smallKernel, all.Nodup ∧ 5000 ≤ all.length ∧
      World {page | page ∈ all} m s free ∧ s.pte 0 = userEntry page ∧
      (∀ k, 1 ≤ k → k < userPages → s.pte k = 0) ∧
      ∃ base : Space smallKernel,
        MapsKernel userPages (kmap smallKernel) (Space.empty base.dir) base ∧
          ∀ k, userPages ≤ k → s.pte k = base.pte k := by
  obtain ⟨m, free, -, frees, everything⟩ := kinit_frees smallKernel (by decide) fun _ => 0
  have enough := many_pages (by decide) (show 5000 ≤ 56320 by decide) everything
  obtain ⟨_, _, few, -⟩ | ⟨start, base, rest, -, world, -, only, -, maps⟩ := setupkvm_spec frees
  · omega
  obtain ⟨counted, covers, few⟩ := world.few_pages fun k (_ : 0 ≤ k) below => only.user k below
  have most := length_le_of_subset frees.nodup covers
  cases rest with
  | nil =>
      rw [List.length_nil] at few
      omega
  | cons page rest =>
      have cleared := world.takeWrite (fun other different => Machine.same_fill different 0) rfl
      have unmapped : ¬Present (base.pte 0) := by
        rw [only.user 0 (by decide)]
        exact not_present_zero
      obtain ⟨rfl, -⟩ | ⟨mapped, parent, remaining, -, holding, -, entries, -⟩ :=
        cleared.mappages_user (show (0 : UInt32).toNat = 4096 * 0 by rfl) (by decide)
          (show (pteW ||| pteU).toNat < 4096 by decide)
          (show page ∉ {other | other ∈ free} \ {page} from fun outside => outside.2 rfl)
          unmapped
      · rw [List.length_singleton] at few
        omega
      rw [world.insert_taken] at holding
      refine ⟨mapped, parent, free, remaining, page, frees.nodup, enough, holding, ?_, ?_, base,
        maps, ?_⟩
      · rw [entries, Function.update_self]
        rfl
      · intro k after below
        rw [entries, Function.update_of_ne (by omega)]
        exact only.user k below
      · intro k kernel
        rw [entries, Function.update_of_ne (by
          unfold userPages at kernel
          omega)]

theorem copyuvm_copies_page :
    ∃ m pgdir start d later, Present (m.lookup pgdir 0) ∧
      copyuvm smallKernel pgdir 4096 m = .done d later ∧ d ≠ 0 ∧
      setupkvm smallKernel m = .done d start ∧
      IsolatedCopy smallKernel m start later pgdir d 4096 := by
  obtain ⟨m, parent, everything, free, page, nodup, enough, world, entry, above, -⟩ := booted_page
  have zero : ∀ va, vpn va < pages 4096 → vpn va = 0 := by
    intro va below
    exact Nat.lt_one_iff.mp below
  have present : Present (parent.pte 0) := by
    rw [entry]
    exact userEntry_present page
  obtain ⟨fresh, start, d, later, made, copied, isolated, succeeds⟩ :=
    copyuvm_copies world.frees world.holds (show 4096 ≤ kernbase by decide)
      (by
        intro va below
        rw [world.holds.lookup, zero va below]
        exact present)
      (by
        intro va below
        rw [world.holds.lookup, zero va below]
        exact world.backed 0 (by decide) present)
      (by
        intro other used
        obtain ⟨place, held⟩ := (world.holds.uses_iff other).mp used
        exact world.has_used held)
  obtain ⟨counted, covers, few⟩ := world.few_pages above
  have most := length_le_of_subset nodup covers
  have success : d ≠ 0 := succeeds (by
    rw [show pages 4096 = 1 by rfl]
    omega)
  obtain ⟨rfl, copy⟩ := isolated success
  refine ⟨m, parent.dir.addr, start, d, later, ?_, copied, success, made, copy⟩
  rw [world.holds.lookup]
  exact present

end Xv6.Vm
