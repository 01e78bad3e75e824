import Xv6.Vm.Space

/-!
# Walking and mapping

What `walkpgdir` and `mappages` do to a world: a walk may add a page table, and
a mapping then writes the entries of a range one after the other.
-/

namespace Xv6.Vm

open Xv6.Library

variable {symbols : Symbols} {all : Set (Page symbols)} {m : Machine} {s : Space symbols}
  {free : List (Page symbols)}

/-! ## walkpgdir -/

theorem toNat_pdx_lt (va : UInt32) : (pdx va).toNat < 1024 := by
  have bound := va.toNat_lt
  rw [toNat_pdx]
  omega

theorem toNat_ptx_lt (va : UInt32) : (ptx va).toNat < 1024 := by
  rw [toNat_ptx]
  exact Nat.mod_lt _ (by decide)

theorem slot_ne_zero (page : Page symbols) (va : UInt32) : page.addr + 4 * ptx va ≠ 0 := by
  intro zero
  have above := page.above
  have address := page.toNat_word (toNat_ptx_lt va)
  rw [zero] at address
  have none : (0 : UInt32).toNat = 0 := rfl
  omega

theorem Machine.Holds.walkpgdir_table (holds : m.Holds s) {va : UInt32} {page : Page symbols}
    (there : s.table (vpn va / 1024) = some page) (alloc : Bool) :
    walkpgdir s.dir.addr va alloc m = .done (page.addr + 4 * ptx va) m := by
  obtain ⟨present, address⟩ := holds.points _ page there
  rw [vpn, ← toNat_pdx] at present address
  rw [walkpgdir, Machine.loadWord_page (toNat_pdx_lt va), if_pos present, address]
  rfl

theorem Machine.Holds.walkpgdir_none (holds : m.Holds s) {va : UInt32}
    (none : s.table (vpn va / 1024) = none) : walkpgdir s.dir.addr va false m = .done 0 m := by
  have vacant := holds.vacant _ (by have bound := vpn_lt va; omega) none
  rw [vpn, ← toNat_pdx] at vacant
  rw [walkpgdir, Machine.loadWord_page (toNat_pdx_lt va), if_neg vacant, if_pos rfl]
  rfl

/-- The machine with a cleared page as a page table. -/
def Machine.addTable (m : Machine) (dir : Page symbols) (i : Nat) (page : Page symbols) :
    Machine :=
  ((m.take page).fill page 0).setWord dir i (v2p page.addr ||| pteP ||| pteW ||| pteU)

theorem Machine.Holds.walkpgdir_alloc (holds : m.Holds s) {va : UInt32} {page : Page symbols}
    (frees : m.Free (page :: free)) (none : s.table (vpn va / 1024) = none) :
    walkpgdir s.dir.addr va true m =
      .done (page.addr + 4 * ptx va) (m.addTable s.dir (vpn va / 1024) page) := by
  have vacant := holds.vacant _ (by have bound := vpn_lt va; omega) none
  rw [vpn, ← toNat_pdx] at vacant
  rw [walkpgdir, Machine.loadWord_page (toNat_pdx_lt va), if_neg vacant, if_neg (by decide),
    Action.bind_done frees.kalloc_cons, if_neg page.addr_ne_zero, memset, Action.modify_bind,
    Machine.storeWord_page (toNat_pdx_lt va), toNat_pdx]
  rfl

theorem Machine.Holds.walkpgdir_full (holds : m.Holds s) {va : UInt32}
    (frees : m.Free ([] : List (Page symbols))) (none : s.table (vpn va / 1024) = none) :
    walkpgdir s.dir.addr va true m = .done 0 m := by
  have vacant := holds.vacant _ (by have bound := vpn_lt va; omega) none
  rw [vpn, ← toNat_pdx] at vacant
  rw [walkpgdir, Machine.loadWord_page (toNat_pdx_lt va), if_neg vacant, if_neg (by decide),
    Action.bind_done frees.kalloc_nil, if_pos rfl]
  rfl

/-- The entry of a new table points to it. -/
theorem table_entry (page : Page symbols) :
    Present (v2p page.addr ||| pteP ||| pteW ||| pteU) ∧
      p2v (pteAddr (v2p page.addr ||| pteP ||| pteW ||| pteU)) = page.addr := by
  have flags : v2p page.addr ||| pteP ||| pteW ||| pteU = v2p page.addr ||| 7 := by
    rw [UInt32.or_assoc, UInt32.or_assoc]
    rfl
  have bit : v2p page.addr ||| pteP ||| pteW ||| pteU = v2p page.addr ||| 6 ||| pteP := by
    rw [flags, UInt32.or_assoc]
    rfl
  refine ⟨bit ▸ present_or_pteP _, ?_⟩
  rw [flags]
  exact page.p2v_pteAddr (by decide)

namespace Machine.WellFormed

theorem same_addTable {page dir other : Page symbols} {i : Nat} (inside : i < 1024)
    (first : other ≠ page) (second : other ≠ dir) : m.Same (m.addTable dir i page) other :=
  ((Machine.same_take other).trans (Machine.same_fill first 0)).trans
    (Machine.same_setWord second inside _)

/-- The first free page becomes a page table. -/
theorem addTable {page : Page symbols} {i : Nat} (formed : m.WellFormed s (page :: free))
    (inside : i < 1024) (none : s.table i = none) :
    (m.addTable s.dir i page).WellFormed (s.addTable inside page) free := by
  have fresh : ∀ other, s.Structural other → other ≠ page := by
    rintro other entries rfl
    exact formed.unused other entries (List.mem_cons_self ..)
  have notDir : s.dir ≠ page := fresh s.dir (Or.inl rfl)
  have table : ∀ j other, (s.addTable inside page).table j = some other →
      j = i ∧ other = page ∨ j ≠ i ∧ s.table j = some other := by
    intro j other there
    by_cases same : j = i
    · subst same
      rw [s.addTable_self] at there
      exact Or.inl ⟨rfl, (Option.some.inj there).symm⟩
    · rw [s.addTable_of_ne _ _ same] at there
      exact Or.inr ⟨same, there⟩
  constructor
  · apply formed.frees.take.congr
    · intro other listed
      apply same_addTable inside
      · rintro rfl
        exact (List.nodup_cons.mp formed.frees.nodup).1 listed
      · rintro rfl
        exact formed.unused s.dir (Or.inl rfl) (List.mem_cons_of_mem _ listed)
    · rfl
  · constructor
    · intro j below vacant
      by_cases same : j = i
      · rw [same, s.addTable_self] at vacant
        cases vacant
      · rw [s.addTable_of_ne _ _ same] at vacant
        rw [Machine.addTable, Space.addTable_dir, Machine.word_setWord_other same,
          (Machine.same_fill notDir 0).word below]
        exact formed.holds.vacant j below vacant
    · intro j other there
      rcases table j other there with ⟨rfl, rfl⟩ | ⟨different, old⟩
      · rw [Machine.addTable, Space.addTable_dir, Machine.word_setWord]
        exact table_entry other
      · rw [Machine.addTable, Space.addTable_dir, Machine.word_setWord_other different,
          (Machine.same_fill notDir 0).word (s.small j other old)]
        exact formed.holds.points j other old
    · intro vpn other there
      have low : vpn % 1024 < 1024 := Nat.mod_lt _ (by decide)
      rcases table _ other there with ⟨rfl, rfl⟩ | ⟨different, old⟩
      · rw [Machine.addTable, (Machine.same_setWord notDir.symm inside _).word low,
          Machine.word_fill_zero low]
        exact (s.absent vpn none).symm
      · rw [(same_addTable inside (fresh other (Or.inr ⟨_, old⟩)) (formed.apart _ other old)).word
          low]
        exact formed.holds.entries vpn other old
  · intro j other there
    rcases table j other there with ⟨rfl, rfl⟩ | ⟨-, old⟩
    · exact notDir.symm
    · exact formed.apart j other old
  · intro j k other there also
    rcases table j other there with ⟨rfl, rfl⟩ | ⟨-, old⟩
    · rcases table k other also with ⟨rfl, -⟩ | ⟨-, old⟩
      · rfl
      · exact absurd rfl (fresh other (Or.inr ⟨k, old⟩))
    · rcases table k other also with ⟨rfl, rfl⟩ | ⟨-, older⟩
      · exact absurd rfl (fresh other (Or.inr ⟨j, old⟩))
      · exact formed.once j k other old older
  · rintro other (dir | ⟨j, there⟩)
    · exact fun listed => formed.unused other (Or.inl dir) (List.mem_cons_of_mem _ listed)
    · rcases table j other there with ⟨rfl, rfl⟩ | ⟨-, old⟩
      · exact (List.nodup_cons.mp formed.frees.nodup).1
      · exact fun listed =>
          formed.unused other (Or.inr ⟨j, old⟩) (List.mem_cons_of_mem _ listed)

variable {page : Page symbols} {n : Nat}

/-- An entry of a page table is written. -/
theorem setWord (formed : m.WellFormed s free) (there : s.table (n / 1024) = some page)
    (value : UInt32) :
    (m.setWord page (n % 1024) value).WellFormed (s.setPte there value) free where
  frees := by
    refine formed.frees.congr (fun other listed => ?_) rfl
    refine Machine.same_setWord ?_ (Nat.mod_lt _ (by decide)) value
    rintro rfl
    exact formed.unused other (Or.inr ⟨_, there⟩) listed
  holds := by
    have low : n % 1024 < 1024 := Nat.mod_lt _ (by decide)
    have dir := Machine.same_setWord (m := m) (formed.apart _ page there).symm low value
    constructor
    · intro i inside none
      rw [Space.setPte_dir, dir.word inside]
      exact formed.holds.vacant i inside none
    · intro i other pointed
      rw [Space.setPte_dir, dir.word (s.small i other pointed)]
      exact formed.holds.points i other pointed
    · intro other holder pointed
      by_cases table : holder = page
      · subst table
        have block := formed.once _ _ holder there pointed
        by_cases same : other = n
        · rw [same, Machine.word_setWord, Space.setPte_self]
        · rw [Machine.word_setWord_other (by omega), s.setPte_of_ne there value same]
          exact formed.holds.entries other holder pointed
      · have different : other ≠ n := by
          rintro rfl
          exact table (Option.some.inj (pointed.symm.trans there))
        rw [(Machine.same_setWord table low value).word (Nat.mod_lt _ (by decide)),
          s.setPte_of_ne there value different]
        exact formed.holds.entries other holder pointed
  apart := formed.apart
  once := formed.once
  unused := formed.unused

end Machine.WellFormed

/-- What a walk that may allocate does when it does not fail: it finds the page table, or makes
one of the first free page. -/
inductive Walked (m : Machine) (s : Space symbols) (i : Nat) :
    List (Page symbols) → Page symbols → Machine → Space symbols → List (Page symbols) → Prop where
  | found {free page} (there : s.table i = some page) : Walked m s i free page m s free
  | added {rest page} (inside : i < 1024) (none : s.table i = none) :
      Walked m s i (page :: rest) page (m.addTable s.dir i page) (s.addTable inside page) rest

theorem Machine.WellFormed.walk (formed : m.WellFormed s free) (va : UInt32) :
    (free = [] ∧ s.table (vpn va / 1024) = none ∧
      walkpgdir s.dir.addr va true m = .done 0 m) ∨
    ∃ later next rest page,
      walkpgdir s.dir.addr va true m = .done (page.addr + 4 * ptx va) later ∧
      Walked m s (vpn va / 1024) free page later next rest := by
  have inside : vpn va / 1024 < 1024 := by
    have bound := vpn_lt va
    omega
  cases there : s.table (vpn va / 1024) with
  | some page =>
      exact Or.inr ⟨m, s, free, page, formed.holds.walkpgdir_table there true, .found there⟩
  | none =>
      cases free with
      | nil => exact Or.inl ⟨rfl, rfl, formed.holds.walkpgdir_full formed.frees there⟩
      | cons page rest =>
          exact Or.inr ⟨_, _, rest, page, formed.holds.walkpgdir_alloc formed.frees there,
            .added inside there⟩

namespace Walked

variable {page : Page symbols} {later : Machine} {next : Space symbols}
  {rest : List (Page symbols)} {i : Nat}

theorem wellFormed (walked : Walked m s i free page later next rest)
    (formed : m.WellFormed s free) : later.WellFormed next rest := by
  cases walked with
  | found there => exact formed
  | added inside none => exact formed.addTable inside none

theorem dir (walked : Walked m s i free page later next rest) : next.dir = s.dir := by
  cases walked <;> rfl

theorem pte (walked : Walked m s i free page later next rest) : next.pte = s.pte := by
  cases walked <;> rfl

theorem there (walked : Walked m s i free page later next rest) : next.table i = some page := by
  cases walked with
  | found there => exact there
  | added inside none => exact s.addTable_self inside page

theorem table (walked : Walked m s i free page later next rest) {j : Nat} (different : j ≠ i) :
    next.table j = s.table j := by
  cases walked with
  | found there => rfl
  | added inside none => exact s.addTable_of_ne inside page different

end Walked

namespace World

/-- The first free page becomes a page table. -/
theorem addTable {page : Page symbols} {i : Nat} (world : World all m s (page :: free))
    (inside : i < 1024) (none : s.table i = none) :
    World all (m.addTable s.dir i page) (s.addTable inside page) free where
  frees := (world.wellFormed.addTable inside none).frees
  holds := (world.wellFormed.addTable inside none).holds
  backed := world.backed
  accounts := by
    obtain ⟨member, fresh, -⟩ := world.first_fresh
    have accounts := world.accounts
    rw [setOf_mem_cons] at accounts
    have places : ∀ place other, (s.addTable inside page).Has place other ↔
        s.Has place other ∨ place = .table i ∧ other = page := by
      intro place other
      cases place with
      | dir => simp [Space.Has]
      | user vpn => simp [Space.Has, Space.frame]
      | table j =>
          by_cases same : j = i
          · subst same
            simp [Space.Has, s.addTable_self, none, eq_comm]
          · simp [Space.Has, s.addTable_of_ne _ _ same, same]
    have taken := (accounts.take fresh).acquire (fun outside => outside.2 rfl) places
    rw [Set.insert_sdiff_singleton, Set.insert_eq_of_mem member] at taken
    exact taken

theorem grows_addTable {page : Page symbols} {i : Nat} (inside : i < 1024)
    (none : s.table i = none) :
    Grows m s (page :: free) (m.addTable s.dir i page) (s.addTable inside page) free where
  dir := rfl
  table := by
    intro j other there
    have different : j ≠ i := by
      rintro rfl
      rw [none] at there
      cases there
    exact (s.addTable_of_ne inside page different).trans there
  origin := by
    intro j other there
    by_cases same : j = i
    · rw [same, s.addTable_self] at there
      cases there
      exact Or.inr (List.mem_cons_self ..)
    · exact Or.inl ((s.addTable_of_ne inside page same).symm.trans there)
  suffix := List.suffix_cons page free
  same := by
    intro other used data
    refine Machine.WellFormed.same_addTable inside ?_ fun same => data (Or.inl same)
    rintro rfl
    exact used (List.mem_cons_self ..)
  low a below :=
    (Machine.setWord_low s.dir i _ below).trans (Machine.fill_low page 0 below)

theorem walked {page : Page symbols} {later : Machine} {next : Space symbols}
    {rest : List (Page symbols)} {i : Nat} (world : World all m s free)
    (walked : Walked m s i free page later next rest) :
    World all later next rest ∧ Grows m s free later next rest := by
  cases walked with
  | found there => exact ⟨world, Grows.refl m s free⟩
  | added inside none => exact ⟨world.addTable inside none, grows_addTable inside none⟩

end World

/-! ## Writing entries -/

namespace World

variable {page data : Page symbols} {n : Nat}

theorem frees_setWord (world : World all m s free) (there : s.table (n / 1024) = some page)
    (value : UInt32) : (m.setWord page (n % 1024) value).Free free :=
  (world.wellFormed.setWord there value).frees

theorem holds_setWord (world : World all m s free) (there : s.table (n / 1024) = some page)
    (value : UInt32) : (m.setWord page (n % 1024) value).Holds (s.setPte there value) :=
  (world.wellFormed.setWord there value).holds

theorem grows_setWord (there : s.table (n / 1024) = some page) (value : UInt32) :
    Grows m s free (m.setWord page (n % 1024) value) (s.setPte there value) free where
  dir := rfl
  table := fun _ _ pointed => pointed
  origin := fun _ _ pointed => Or.inl pointed
  suffix := List.suffix_rfl
  same := by
    intro other _ entries
    refine Machine.same_setWord ?_ (Nat.mod_lt _ (by decide)) value
    rintro rfl
    exact entries (Or.inr ⟨_, there⟩)
  low a below := Machine.setWord_low _ _ value below

theorem frame_setPte (there : s.table (n / 1024) = some page) (value : UInt32) :
    (s.setPte there value).frame n = p2v (pteAddr value) := by
  rw [Space.frame, Space.setPte_self]

theorem frame_setPte_of_ne (there : s.table (n / 1024) = some page) (value : UInt32)
    {other : Nat} (different : other ≠ n) : (s.setPte there value).frame other = s.frame other := by
  rw [Space.frame, s.setPte_of_ne there value different]
  rfl

/-- The kernel's entries use no page of the account. -/
theorem setKernel (world : World all m s free) (there : s.table (n / 1024) = some page)
    (kernel : userPages ≤ n) (value : UInt32) :
    World all (m.setWord page (n % 1024) value) (s.setPte there value) free where
  frees := world.frees_setWord there value
  holds := world.holds_setWord there value
  backed := by
    intro other user present
    have different : other ≠ n := by omega
    rw [s.setPte_of_ne there value different] at present
    rw [frame_setPte_of_ne there value different]
    exact world.backed other user present
  accounts := by
    have places : (s.setPte there value).Has = s.Has := by
      funext place other
      cases place with
      | dir => rfl
      | table i => rfl
      | user v =>
          by_cases same : v = n
          · have outside : ¬v < userPages := by omega
            simp only [Space.Has, outside, false_and]
          · simp only [Space.Has, s.setPte_of_ne there value same,
              frame_setPte_of_ne there value same]
    rw [places]
    exact world.accounts

/-- A page from outside is mapped for the user. -/
theorem setUser (world : World all m s free) (there : s.table (n / 1024) = some page)
    (user : n < userPages) (unmapped : ¬Present (s.pte n)) {value : UInt32}
    (present : Present value) (address : p2v (pteAddr value) = data.addr) (fresh : data ∉ all) :
    World (insert data all) (m.setWord page (n % 1024) value) (s.setPte there value) free where
  frees := world.frees_setWord there value
  holds := world.holds_setWord there value
  backed := by
    intro other below mapped
    by_cases same : other = n
    · exact ⟨data, by rw [same, frame_setPte, address]⟩
    · rw [s.setPte_of_ne there value same] at mapped
      rw [frame_setPte_of_ne there value same]
      exact world.backed other below mapped
  accounts := by
    have places : ∀ place other, (s.setPte there value).Has place other ↔
        s.Has place other ∨ place = .user n ∧ other = data := by
      intro place other
      cases place with
      | dir => simp [Space.Has]
      | table i => simp [Space.Has]
      | user v =>
          by_cases same : v = n
          · subst same
            simp only [Space.Has, Space.setPte_self, frame_setPte, address, present, unmapped,
              user, true_and, false_and, and_false, false_or]
            rw [eq_comm, Page.ext_iff]
          · simp [Space.Has, s.setPte_of_ne there value same,
              frame_setPte_of_ne there value same, same]
    exact world.accounts.acquire fresh places

/-- The entry of a mapped user page is cleared. -/
theorem clearUser (world : World all m s free) (there : s.table (n / 1024) = some page)
    (mapped : s.Has (.user n) data) :
    World (all \ {data}) (m.setWord page (n % 1024) 0) (s.setPte there 0) free where
  frees := world.frees_setWord there 0
  holds := world.holds_setWord there 0
  backed := by
    intro other below present
    have different : other ≠ n := by
      rintro rfl
      rw [Space.setPte_self] at present
      exact not_present_zero present
    rw [s.setPte_of_ne there 0 different] at present
    rw [frame_setPte_of_ne there 0 different]
    exact world.backed other below present
  accounts := by
    refine world.accounts.release mapped (fun other held => Space.has_only mapped held) ?_
    intro place other
    cases place with
    | dir => simp [Space.Has]
    | table i => simp [Space.Has]
    | user v =>
        by_cases same : v = n
        · subst same
          simp [Space.Has, Space.setPte_self, not_present_zero]
        · simp [Space.Has, s.setPte_of_ne there 0 same, frame_setPte_of_ne there 0 same, same]

/-- Other flags for the same page. -/
theorem setFlags (world : World all m s free) (there : s.table (n / 1024) = some page)
    {value : UInt32} (present : Present value ↔ Present (s.pte n))
    (address : pteAddr value = pteAddr (s.pte n)) :
    World all (m.setWord page (n % 1024) value) (s.setPte there value) free := by
  have entries : ∀ other, Present ((s.setPte there value).pte other) ↔ Present (s.pte other) := by
    intro other
    by_cases same : other = n
    · rw [same, Space.setPte_self, present]
    · rw [s.setPte_of_ne there value same]
  have frames : (s.setPte there value).frame = s.frame := by
    funext other
    by_cases same : other = n
    · rw [same, frame_setPte, address]
      rfl
    · exact frame_setPte_of_ne there value same
  refine ⟨world.frees_setWord there value, world.holds_setWord there value, ?_, ?_⟩
  · intro other below mapped
    rw [frames]
    exact world.backed other below ((entries other).mp mapped)
  · have places : (s.setPte there value).Has = s.Has := by
      funext place other
      cases place with
      | dir => rfl
      | table i => rfl
      | user v => simp only [Space.Has, entries, frames]
    rw [places]
    exact world.accounts

end World

/-! ## mappages -/

/-- One turn of the loop of `mappages`, at a page that is not mapped. -/
theorem Machine.WellFormed.mapFrom_turn (formed : m.WellFormed s free) {a : UInt32}
    (pa last perm : UInt32) (fuel : Nat) (unmapped : ¬Present (s.pte (vpn a))) :
    (free = [] ∧ s.table (vpn a / 1024) = none ∧
      mapFrom s.dir.addr last perm (fuel + 1) a pa m = .done (-1) m) ∨
    ∃ later next rest page, Walked m s (vpn a / 1024) free page later next rest ∧
      mapFrom s.dir.addr last perm (fuel + 1) a pa m =
        if a = last then
          .done 0 (later.setWord page (vpn a % 1024) (pa ||| perm ||| pteP))
        else
          mapFrom s.dir.addr last perm fuel (a + pgsize) (pa + pgsize)
            (later.setWord page (vpn a % 1024) (pa ||| perm ||| pteP)) := by
  rcases formed.walk a with ⟨empty, none, ran⟩ | ⟨later, next, rest, page, ran, walked⟩
  · refine Or.inl ⟨empty, none, ?_⟩
    rw [mapFrom, Action.bind_done ran, if_pos rfl]
    rfl
  · refine Or.inr ⟨later, next, rest, page, walked, ?_⟩
    have slot : (ptx a).toNat = vpn a % 1024 := toNat_ptx a
    have entry : ¬Present (later.word page (ptx a).toNat) := by
      rw [slot, (walked.wellFormed formed).holds.entries _ page walked.there, walked.pte]
      exact unmapped
    rw [mapFrom, Action.bind_done ran, if_neg (slot_ne_zero page a),
      Machine.loadWord_page (toNat_ptx_lt a), if_neg entry, Machine.storeWord_page (toNat_ptx_lt a),
      slot]
    split
    · rfl
    · rfl

/-- The loop of `mappages` does not map a page twice. -/
theorem Machine.Holds.mapFrom_remap (holds : m.Holds s) {a : UInt32} (pa last perm : UInt32)
    (fuel : Nat) (present : Present (s.pte (vpn a))) :
    mapFrom s.dir.addr last perm (fuel + 1) a pa m = .panic "remap" := by
  cases there : s.table (vpn a / 1024) with
  | none =>
      rw [s.absent _ there] at present
      exact absurd present not_present_zero
  | some page =>
      have slot : (ptx a).toNat = vpn a % 1024 := toNat_ptx a
      have entry : Present (m.word page (ptx a).toNat) := by
        rw [slot, holds.entries _ page there]
        exact present
      rw [mapFrom, Action.bind_done (holds.walkpgdir_table there true),
        if_neg (slot_ne_zero page a), Machine.loadWord_page (toNat_ptx_lt a), if_pos entry]
      rfl

namespace World

variable {page data : Page symbols}

/-- The slot of an address in its table. -/
theorem toNat_ptx_eq (va : UInt32) : (ptx va).toNat = vpn va % 1024 := toNat_ptx va

/-- One turn of the loop of `mappages`. -/
theorem mapFrom_turn (world : World all m s free) {a : UInt32} (pa last perm : UInt32)
    (fuel : Nat) (unmapped : ¬Present (s.pte (vpn a))) :
    (free = [] ∧ s.table (vpn a / 1024) = none ∧
      mapFrom s.dir.addr last perm (fuel + 1) a pa m = .done (-1) m) ∨
    ∃ later next rest page, World all later next rest ∧ Grows m s free later next rest ∧
      next.pte = s.pte ∧ next.table (vpn a / 1024) = some page ∧
      (∀ i, i ≠ vpn a / 1024 → next.table i = s.table i) ∧
      mapFrom s.dir.addr last perm (fuel + 1) a pa m =
        if a = last then
          .done 0 (later.setWord page (vpn a % 1024) (pa ||| perm ||| pteP))
        else
          mapFrom s.dir.addr last perm fuel (a + pgsize) (pa + pgsize)
            (later.setWord page (vpn a % 1024) (pa ||| perm ||| pteP)) := by
  rcases world.wellFormed.mapFrom_turn pa last perm fuel unmapped with
    failed | ⟨later, next, rest, page, walked, ran⟩
  · exact Or.inl failed
  · obtain ⟨grown, grows⟩ := world.walked walked
    exact Or.inr ⟨later, next, rest, page, grown, grows, walked.pte, walked.there,
      fun _ different => walked.table different, ran⟩

theorem vpn_next {a : UInt32} {n : Nat} (address : a.toNat = 4096 * n) (below : n + 1 < 1048576) :
    (a + pgsize).toNat = 4096 * (n + 1) := by
  rw [UInt32.toNat_add, toNat_pgsize]
  omega

theorem vpn_eq {a : UInt32} {n : Nat} (address : a.toNat = 4096 * n) : vpn a = n := by
  unfold vpn
  omega

/-- The entry of page `i` of a range that is mapped to consecutive pages. -/
def rangeEntry (pa perm : UInt32) (i : Nat) : UInt32 :=
  (pa + UInt32.ofNat (4096 * i)) ||| perm ||| pteP

theorem rangeEntry_zero (pa perm : UInt32) : rangeEntry pa perm 0 = pa ||| perm ||| pteP := by
  rw [rangeEntry, show UInt32.ofNat (4096 * 0) = 0 by rfl, UInt32.add_zero]

theorem rangeEntry_succ (pa perm : UInt32) (i : Nat) :
    rangeEntry (pa + pgsize) perm i = rangeEntry pa perm (i + 1) := by
  rw [rangeEntry, rangeEntry, Nat.mul_add, UInt32.ofNat_add, UInt32.add_assoc,
    UInt32.add_comm pgsize]
  rfl

/-- A range of kernel pages is mapped entry by entry, as far as there is memory
for the page tables. -/
theorem mapFrom_kernel (world : World all m s free) {first count fuel : Nat} {a last : UInt32}
    (pa perm : UInt32) (kernel : userPages ≤ first) (inside : first + count < 1048576)
    (address : a.toNat = 4096 * first) (ends : last.toNat = 4096 * (first + count))
    (enough : count < fuel) (unmapped : ∀ n, first ≤ n → n ≤ first + count → ¬Present (s.pte n)) :
    ∃ result later next rest, mapFrom s.dir.addr last perm fuel a pa m = .done result later ∧
      World all later next rest ∧ Grows m s free later next rest ∧
      (∀ n, n < first ∨ first + count < n → next.pte n = s.pte n) ∧
      (∀ i, i < first / 1024 ∨ (first + count) / 1024 < i → next.table i = s.table i) ∧
      (result = -1 ∧ rest = [] ∧
          (∃ i, first / 1024 ≤ i ∧ i ≤ (first + count) / 1024 ∧ next.table i = none) ∨
        result = 0 ∧ ∀ i ≤ count, next.pte (first + i) = rangeEntry pa perm i) := by
  induction count generalizing m s free first fuel a pa with
  | zero =>
      obtain ⟨fuel, rfl⟩ : ∃ k, fuel = k + 1 := ⟨fuel - 1, by omega⟩
      have number := vpn_eq address
      have lastOne : a = last := UInt32.toNat_inj.mp (by omega)
      rcases world.mapFrom_turn (a := a) pa last perm fuel
          (number ▸ unmapped first (Nat.le_refl _) (Nat.le_refl _)) with
        ⟨empty, none, ran⟩ | ⟨later, next, rest, page, grown, grows, same, there, tables, ran⟩
      · exact ⟨_, m, s, free, ran, world, Grows.refl m s free, fun _ _ => rfl, fun _ _ => rfl,
          Or.inl ⟨rfl, empty, first / 1024, Nat.le_refl _, Nat.le_refl _, number ▸ none⟩⟩
      · rw [if_pos lastOne] at ran
        refine ⟨_, _, _, rest, ran, grown.setKernel there (number.symm ▸ kernel) _,
          grows.trans (grows_setWord there _), ?_, ?_, Or.inr ⟨rfl, ?_⟩⟩
        · intro n outside
          rw [next.setPte_of_ne there _ (by omega), same]
        · exact fun i outside => tables i (by omega)
        · intro i none
          obtain rfl : i = 0 := by omega
          rw [Nat.add_zero, rangeEntry_zero, ← number, Space.setPte_self]
  | succ count inductionHypothesis =>
      obtain ⟨fuel, rfl⟩ : ∃ k, fuel = k + 1 := ⟨fuel - 1, by omega⟩
      have number := vpn_eq address
      have more : ¬a = last := by
        intro same
        have addresses := congrArg UInt32.toNat same
        omega
      rcases world.mapFrom_turn (a := a) pa last perm fuel
          (number ▸ unmapped first (Nat.le_refl _) (by omega)) with
        ⟨empty, none, ran⟩ | ⟨later, next, rest, page, grown, grows, same, there, tables, ran⟩
      · exact ⟨_, m, s, free, ran, world, Grows.refl m s free, fun _ _ => rfl, fun _ _ => rfl,
          Or.inl ⟨rfl, empty, first / 1024, Nat.le_refl _, by omega, number ▸ none⟩⟩
      · rw [if_neg more] at ran
        have others : ∀ n, n ≠ first →
            (next.setPte there (pa ||| perm ||| pteP)).pte n = s.pte n := by
          intro n different
          rw [next.setPte_of_ne there _ (by omega), same]
        have written := grown.setKernel there (number.symm ▸ kernel) (pa ||| perm ||| pteP)
        obtain ⟨result, machine, final, remaining, ended, holding, growing, kept,
            untouched, decides⟩ :=
          inductionHypothesis written (pa + pgsize) (by omega) (by omega)
            (vpn_next address (by omega)) (by omega) (show count < fuel by omega) (by
              intro n after before
              rw [others n (by omega)]
              exact unmapped n (by omega) (by omega))
        rw [Space.setPte_dir, grows.dir] at ended
        refine ⟨result, machine, final, remaining, ran.trans ended, holding,
          (grows.trans (grows_setWord there _)).trans growing, ?_, ?_, ?_⟩
        · intro n outside
          rw [kept n (by omega), others n (by omega)]
        · intro i outside
          rw [untouched i (by omega)]
          exact tables i (by omega)
        · refine decides.imp ?_ ?_
          · rintro ⟨failed, empty, i, after, before, none⟩
            exact ⟨failed, empty, i, by omega, by omega, none⟩
          rintro ⟨zero, entries⟩
          refine ⟨zero, ?_⟩
          intro i below
          cases i with
          | zero =>
              rw [Nat.add_zero, kept first (by omega), rangeEntry_zero, ← number, Space.setPte_self]
          | succ i =>
              rw [← rangeEntry_succ, ← entries i (by omega)]
              congr 1
              omega

theorem toNat_last {va size : UInt32} {first count : Nat} (address : va.toNat = 4096 * first)
    (whole : size.toNat = 4096 * (count + 1)) (inside : first + count < 1048576) :
    (pgRoundDown (va + size - 1)).toNat = 4096 * (first + count) := by
  have sum : (va + size - 1).toNat = 4096 * (first + count) + 4095 := by
    rw [UInt32.toNat_sub, UInt32.toNat_add, UInt32.toNat_one]
    omega
  rw [toNat_pgRoundDown, sum]
  omega

theorem pgRoundDown_aligned {va : UInt32} {n : Nat} (address : va.toNat = 4096 * n) :
    pgRoundDown va = va := by
  rw [← UInt32.toNat_inj, toNat_pgRoundDown]
  omega

theorem mappages_kernel (world : World all m s free) {first count : Nat} {va size : UInt32}
    (pa perm : UInt32) (kernel : userPages ≤ first) (inside : first + count < 1048576)
    (address : va.toNat = 4096 * first) (whole : size.toNat = 4096 * (count + 1))
    (unmapped : ∀ n, first ≤ n → n ≤ first + count → ¬Present (s.pte n)) :
    ∃ result later next rest, mappages s.dir.addr va size pa perm m = .done result later ∧
      World all later next rest ∧ Grows m s free later next rest ∧
      (∀ n, n < first ∨ first + count < n → next.pte n = s.pte n) ∧
      (∀ i, i < first / 1024 ∨ (first + count) / 1024 < i → next.table i = s.table i) ∧
      (result = -1 ∧ rest = [] ∧
          (∃ i, first / 1024 ≤ i ∧ i ≤ (first + count) / 1024 ∧ next.table i = none) ∨
        result = 0 ∧ ∀ i ≤ count, next.pte (first + i) = rangeEntry pa perm i) := by
  rw [mappages, pgRoundDown_aligned address]
  exact world.mapFrom_kernel pa perm kernel inside address (toNat_last address whole inside)
    (by rw [turns, npdentries, nptentries]; omega) unmapped

/-- The user's page at `va` is mapped to a page from outside, unless there is no
memory left for the page table. -/
theorem mappages_user (world : World all m s free) {va perm : UInt32} {n : Nat}
    (address : va.toNat = 4096 * n) (user : n < userPages) (small : perm.toNat < 4096)
    (fresh : data ∉ all) (unmapped : ¬Present (s.pte n)) :
    (free = [] ∧ s.table (n / 1024) = none ∧
      mappages s.dir.addr va pgsize (v2p data.addr) perm m = .done (-1) m) ∨
    ∃ later next rest,
      mappages s.dir.addr va pgsize (v2p data.addr) perm m = .done 0 later ∧
      World (insert data all) later next rest ∧ Grows m s free later next rest ∧
      next.pte = Function.update s.pte n (v2p data.addr ||| perm ||| pteP) ∧
      next.table (n / 1024) ≠ none ∧ ∀ i, i ≠ n / 1024 → next.table i = s.table i := by
  have number := vpn_eq address
  have one : pgRoundDown (va + pgsize - 1) = va := by
    have inside : n + 0 < 1048576 := by
      unfold userPages at user
      omega
    rw [← UInt32.toNat_inj, toNat_last address (show pgsize.toNat = 4096 * (0 + 1) by rfl) inside, address,
      Nat.add_zero]
  rw [mappages, pgRoundDown_aligned address, one]
  rcases world.mapFrom_turn (a := va) (v2p data.addr) va perm (npdentries * nptentries)
      (number ▸ unmapped) with
    ⟨empty, none, ran⟩ | ⟨later, next, rest, page, grown, grows, same, there, tables, ran⟩
  · exact Or.inl ⟨empty, number ▸ none, ran⟩
  · rw [if_pos rfl] at ran
    have flags : (perm ||| pteP).toNat < 4096 := by
      rw [UInt32.toNat_or]
      exact Nat.or_lt_two_pow (n := 12) small (by decide)
    have entry : p2v (pteAddr (v2p data.addr ||| perm ||| pteP)) = data.addr := by
      rw [UInt32.or_assoc]
      exact data.p2v_pteAddr flags
    refine Or.inr ⟨_, _, rest, ran, grown.setUser there (number.symm ▸ user) ?_
      (present_or_pteP _) entry fresh, grows.trans (grows_setWord there _), ?_, ?_, ?_⟩
    · rw [same, number]
      exact unmapped
    · rw [← same, ← number]
      rfl
    · rw [← number, Space.setPte_table, there]
      exact Option.some_ne_none page
    · rw [← number]
      exact tables

/-- `mappages` does not map a page twice. -/
theorem mappages_remap (world : World all m s free) {va pa perm : UInt32} {n : Nat}
    (address : va.toNat = 4096 * n) (present : Present (s.pte n)) :
    mappages s.dir.addr va pgsize pa perm m = .panic "remap" := by
  rw [mappages, pgRoundDown_aligned address, turns]
  exact world.holds.mapFrom_remap pa _ perm _ (vpn_eq address ▸ present)

end World

end Xv6.Vm
