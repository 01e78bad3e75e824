import Xv6.Exec.Segments

/-!
# exec loads a program or leaves everything as it was

Up to the allocation of the user stack `exec` works on a new address space. When
it fails it gives the pages back; in any case the inode and the transaction are
released and the caller's process is as before.
-/

namespace Xv6.Exec

open Xv6.Library Xv6.Fs Xv6.Vm

variable {symbols : Symbols} {consoleread : Int → Int × List UInt8} {k before : Kernel}
  {ip : InodePtr} {array : List UInt8} {free : List (Page symbols)}

/-! ## What is released -/

/-- `namei` returns nothing, or an inode with one more reference that is a file
with the bytes `array`. -/
structure Resolved (before : FsState) (array : List UInt8) (result : Option InodePtr)
    (after : FsState) : Prop where
  sound : Sound after
  refs : ∀ ip, (after.inode ip).ref = (before.inode ip).ref + if result = some ip then 1 else 0
  referenced : ∀ ip, result = some ip → 0 < (after.inode ip).ref
  file : ∀ ip, result = some ip → File after.toFileSystem (after.inode ip).inum array
  allocated : ∀ ip, result = some ip → (after.stat (after.inode ip).inum).type ≠ 0

/-- The process is as before, and so are the pages that were not free, the
references and locks of inodes, `cwd` and the number of transactions. -/
structure Released (free : List (Page symbols)) (before after : Kernel) : Prop where
  proc : after.proc = before.proc
  memory : ∀ page, page ∉ free → before.machine.Same after.machine page
  refs : ∀ ip, (after.fs.inode ip).ref = (before.fs.inode ip).ref
  held : after.held = before.held
  outstanding : after.outstanding = before.outstanding
  cwd : after.cwd = before.cwd

/-- While `exec` has the inode locked. -/
structure Inside (free : List (Page symbols)) (before : Kernel) (ip : InodePtr)
    (array : List UInt8) (k : Kernel) : Prop where
  proc : k.proc = before.proc
  memory : ∀ page, page ∉ free → before.machine.Same k.machine page
  refs : ∀ other, (k.fs.inode other).ref =
    (before.fs.inode other).ref + if other = ip then 1 else 0
  held : k.held = Function.update before.held ip true
  outstanding : k.outstanding = before.outstanding + 1
  cwd : k.cwd = before.cwd
  referenced : 0 < (k.fs.inode ip).ref
  reading : Reading k.fs ip array

namespace Inside

/-- A step on the memory alone. -/
theorem setMachine (inside : Inside free before ip array k) {later : Machine}
    (same : ∀ page, page ∉ free → k.machine.Same later page) :
    Inside free before ip array { k with machine := later } where
  proc := inside.proc
  memory page used := (inside.memory page used).trans (same page used)
  refs := inside.refs
  held := inside.held
  outstanding := inside.outstanding
  cwd := inside.cwd
  referenced := inside.referenced
  reading := inside.reading

/-- `iunlockput(ip); end_op();` -/
theorem close (inside : Inside free before ip array k) (unlocked : before.held ip = false)
    {Value : Type} (next : Action Kernel Value) :
    ∃ after, (do
        iunlockput ip
        endOp
        next) k = next after ∧
      Released free before after ∧ after.machine = k.machine := by
  obtain ⟨fs, put, refs⟩ := iput_refs inside.reading.sound inside.referenced
  have locked : ¬(k.held ip = false ∨ (k.fs.inode ip).ref < 1) := by
    have referenced := inside.referenced
    rw [inside.held, Function.update_self]
    rintro (open_ | unused)
    · cases open_
    · omega
  have unlock : iunlock ip k = .done () { k with held := Function.update k.held ip false } := by
    rw [iunlock, Action.get_bind, if_neg locked]
    rfl
  have done : iunlockput ip k =
      .done () { k with held := Function.update k.held ip false, fs := fs } := by
    rw [iunlockput, Action.bind_done unlock]
    exact Action.focus_done put
  refine ⟨⟨k.machine, fs, Function.update k.held ip false, k.outstanding - 1, k.proc, k.cwd⟩, ?_,
    ⟨inside.proc, inside.memory, ?_, ?_, ?_, inside.cwd⟩, rfl⟩
  · rw [Action.bind_done done]
    rfl
  · intro other
    rw [refs other, inside.refs other]
    omega
  · change Function.update k.held ip false = before.held
    rw [inside.held, Function.update_idem, ← unlocked, Function.update_eq_self]
  · change k.outstanding - 1 = before.outstanding
    rw [inside.outstanding, Nat.add_sub_cancel]

end Inside

/-! ## bad -/

/-- The free pages are the same set. -/
def SameFree (free : List (Page symbols)) (m : Machine) : Prop :=
  ∃ rest : List (Page symbols), m.Free rest ∧ ∀ page, page ∈ rest ↔ page ∈ free

/-- Giving up before there is a page directory. -/
theorem bad_early (inside : Inside free before ip array k) (unlocked : before.held ip = false) :
    ∃ after, bad symbols 0 (some ip) k = .done none after ∧ Released free before after ∧
      after.machine = k.machine := by
  obtain ⟨after, closed, released, machine⟩ := inside.close unlocked (return none)
  refine ⟨after, ?_, released, machine⟩
  rw [bad, if_neg (not_not.mpr rfl)]
  exact closed

/-- The new address space is freed. -/
theorem freevm_new {s : Space symbols} {rest : List (Page symbols)}
    (world : World {page | page ∈ free} k.machine s rest) :
    ∃ later, onMachine (freevm symbols s.dir.addr) k = .done () { k with machine := later } ∧
      SameFree free later ∧ ∀ page, page ∉ free → k.machine.Same later page := by
  obtain ⟨later, listed, freed, frees, -, members, same⟩ := world.freevm
  exact ⟨later, Action.focus_done freed, ⟨listed, frees, members⟩, same⟩

theorem bad_late {s : Space symbols} {rest : List (Page symbols)}
    (world : World {page | page ∈ free} k.machine s rest)
    (inside : Inside free before ip array k) (unlocked : before.held ip = false) :
    ∃ after, bad symbols s.dir.addr (some ip) k = .done none after ∧
      Released free before after ∧ SameFree free after.machine := by
  obtain ⟨later, freed, again, same⟩ := freevm_new world
  obtain ⟨after, closed, released, machine⟩ := (inside.setMachine same).close unlocked (return none)
  refine ⟨after, ?_, released, machine ▸ again⟩
  rw [bad, if_pos s.dir.addr_ne_zero, Action.bind_done freed]
  exact closed

theorem bad_unlocked {s : Space symbols} {rest : List (Page symbols)}
    (world : World {page | page ∈ free} k.machine s rest) :
    ∃ later, bad symbols s.dir.addr none k = .done none { k with machine := later } ∧
      SameFree free later ∧ ∀ page, page ∉ free → k.machine.Same later page := by
  obtain ⟨later, freed, again, same⟩ := freevm_new world
  refine ⟨later, ?_, again, same⟩
  rw [bad, if_pos s.dir.addr_ne_zero, Action.bind_done freed]
  rfl

/-! ## The stack -/

variable {all : Set (Page symbols)} {m : Machine} {s : Space symbols}
  {rest : List (Page symbols)} {sz : UInt32} {image : Memory}

/-- The pages below `sz` are mapped for the user and hold `image`. -/
def Shows (symbols : Symbols) (m : Machine) (pgdir sz : UInt32) (image : Memory) : Prop :=
  ∀ va < 4096 * pages sz, userMemory m pgdir va = image va ∧
    ∃ page : Page symbols, m.lookup pgdir (UInt32.ofNat va) = userEntry page

theorem Loaded.shows (loaded : Loaded all m s rest sz image) :
    Shows symbols m s.dir.addr sz image := by
  intro va below
  have user := pages_user loaded.small
  refine ⟨loaded.bytes va below, ?_⟩
  rw [loaded.world.holds.lookup, vpn, toNat_userAddr below user]
  exact loaded.entries _ (by omega)

/-- Taking the user bit from the page after the program leaves the program. -/
theorem Shows.clearpteu {larger guard : UInt32} (loaded : Loaded all m s rest larger image)
    (here : vpn guard = pages sz)
    (inside : pages sz < pages larger) :
    ∃ later, clearpteu s.dir.addr guard m = .done () later ∧
      Shows symbols later s.dir.addr sz image ∧ ∀ page, page ∉ all → m.Same later page := by
  have world := loaded.world
  obtain ⟨data, held⟩ := loaded.mapped (here ▸ inside : vpn guard < pages larger)
  obtain ⟨-, none⟩ | ⟨table, there, cleared, holding⟩ := world.clearpteu guard
  · obtain ⟨table, there⟩ := table_of_user held
    rw [none] at there
    cases there
  · have apart : ∀ page, ¬s.Structural page → m.Same
        (m.setWord table (vpn guard % 1024) (s.pte (vpn guard) &&& ~~~pteU)) page := by
      intro page different
      refine Machine.same_setWord ?_ (Nat.mod_lt _ (by decide)) _
      rintro rfl
      exact different (Or.inr ⟨_, there⟩)
    refine ⟨_, cleared, ?_, fun page outside => apart page fun entries =>
      outside (world.structural_all entries)⟩
    intro va below
    have user := pages_user loaded.small
    have inRange : va < 4096 * pages larger := by omega
    obtain ⟨bytes, page, entry⟩ := loaded.shows va inRange
    have address := toNat_userAddr inRange user
    have number : vpn (UInt32.ofNat va) = va / 4096 := by
      rw [vpn, address]
    have elsewhere : va / 4096 ≠ vpn guard := by omega
    rw [world.holds.lookup, number] at entry
    have held := has_userEntry (show va / 4096 < userPages by omega) entry
    have same : (s.setPte there (s.pte (vpn guard) &&& ~~~pteU)).pte (va / 4096) =
        s.pte (va / 4096) := Space.setPte_of_ne s there _ elsewhere
    have mapped : (s.setPte there (s.pte (vpn guard) &&& ~~~pteU)).frame (va / 4096) =
        page.addr := by
      rw [Space.frame, same]
      exact held.2.2
    constructor
    · rw [← bytes, userMemory_mapped world.holds inRange user held.2.2]
      have seen := userMemory_mapped holding.holds inRange user mapped
      rw [Space.setPte_dir] at seen
      rw [seen]
      exact apart page (world.user_data held) _ (Nat.mod_lt _ (by decide))
    · have found := holding.holds.lookup (UInt32.ofNat va)
      rw [Space.setPte_dir, number, same] at found
      exact ⟨page, found.trans entry⟩

/-- Two pages above the program. -/
theorem toNat_stackTop (small : sz < kernbase) :
    (pgRoundUp sz + 2 * pgsize).toNat = 4096 * (pages sz + 2) := by
  have bound := UInt32.lt_iff_toNat_lt.mp small
  rw [toNat_kernbase] at bound
  rw [UInt32.toNat_add, toNat_pgRoundUp (by omega), show (2 * pgsize).toNat = 8192 by rfl, pages]
  omega

/-- `allocuvm` from the next page boundary on. -/
theorem Loaded.allocStackPages (loaded : Loaded all m s rest sz image) :
    ∃ value later next remaining,
      Vm.allocuvm symbols s.dir.addr (pgRoundUp sz) (pgRoundUp sz + 2 * pgsize) m =
        .done value later ∧ World all later next remaining ∧ next.dir = s.dir ∧
      (∀ page, page ∉ all → m.Same later page) ∧
      (value ≠ 0 → Loaded all later next remaining value image ∧ pages value = pages sz + 2 ∧
        (value - 2 * pgsize).toNat = 4096 * pages sz ∧ value = pgRoundUp sz + 2 * pgsize) ∧
      (value = 0 → kernbase ≤ pgRoundUp sz + 2 * pgsize ∨
        RanOut (pages sz) (pages (pgRoundUp sz + 2 * pgsize)) all m s rest) := by
  have small := UInt32.lt_iff_toNat_lt.mp loaded.small
  rw [toNat_kernbase] at small
  have rounded : (pgRoundUp sz).toNat = 4096 * pages sz := by
    rw [toNat_pgRoundUp (by omega), pages, Nat.mul_comm]
  have few : pages sz ≤ 524288 := pages_user loaded.small
  have count : pages (pgRoundUp sz) = pages sz := by
    rw [pages, rounded]
    omega
  by_cases top : pgRoundUp sz < kernbase
  · have aligned : Loaded all m s rest (pgRoundUp sz) image := by
      refine ⟨loaded.world, top, ?_, ?_, ?_, ?_, loaded.supervised, ?_⟩
      · rw [count]
        exact loaded.entries
      · rw [count]
        exact loaded.above
      · rw [count]
        exact loaded.bytes
      · rw [count]
        exact loaded.blank
      · rw [count]
        exact loaded.tables
    obtain ⟨value, later, next, remaining, ran, holding, dir, same, success, failure⟩ :=
      aligned.allocuvm (pgRoundUp sz + 2 * pgsize)
    have sum := toNat_stackTop loaded.small
    have larger : ¬pgRoundUp sz + 2 * pgsize < pgRoundUp sz := by
      rw [UInt32.lt_iff_toNat_lt, sum, rounded]
      omega
    rw [if_neg larger] at success failure
    rw [count] at failure
    refine ⟨value, later, next, remaining, ran, holding, dir, same, ?_, ?_⟩
    · intro nonzero
      obtain ⟨grown, -, -, -, valued⟩ := success nonzero
      refine ⟨grown, ?_, ?_, valued⟩
      · rw [valued, pages, sum]
        omega
      · rw [valued, UInt32.add_sub_cancel, rounded]
    · intro zero
      obtain kernel | empty | ranOut := failure zero
      · exact Or.inl kernel
      · rw [← UInt32.toNat_inj, sum] at empty
        cases empty
      · exact Or.inr ranOut
  · have kernel : kernbase ≤ pgRoundUp sz + 2 * pgsize := by
      rw [UInt32.lt_iff_toNat_lt, toNat_kernbase, rounded] at top
      rw [UInt32.le_iff_toNat_le, UInt32.toNat_add, rounded,
        show (2 * pgsize).toNat = 8192 by rfl, toNat_kernbase]
      omega
    refine ⟨0, m, s, rest, ?_, loaded.world, rfl, fun page _ => Machine.Same.refl m page,
      fun nonzero => absurd rfl nonzero, fun _ => Or.inl kernel⟩
    rw [Vm.allocuvm, if_pos kernel]
    rfl

/-- The address space that the arguments are pushed to: the program, the guard page `n`, which
the user cannot use, and the stack page. -/
structure Prepared (all : Set (Page symbols)) (m : Machine) (s : Space symbols)
    (rest : List (Page symbols)) (n : Nat) (sz : UInt32) : Prop where
  world : World all m s rest
  size : sz.toNat = 4096 * (n + 2)
  user : n + 2 ≤ userPages
  program : ∀ i < n, Accessible (s.pte i)
  guard : ¬Accessible (s.pte n)
  guardTable : s.table (n / 1024) ≠ none
  stack : ∃ page : Page symbols, s.pte (n + 1) = userEntry page
  supervised : s.Supervised
  kernel : ∀ i ∈ kernelTables, s.table i ≠ none

/-- The rest of `exec` can push the arguments. -/
def PreparedFor (free : List (Page symbols)) (m : Machine) (image : Image) : Prop :=
  ∃ s rest n, s.dir.addr = image.pgdir ∧ Prepared {page | page ∈ free} m s rest n image.sz

theorem userEntry_accessible (page : Page symbols) : Accessible (userEntry page) := by
  refine ⟨userEntry_present page, ?_⟩
  have flags : pteFlags (userEntry page) = pteW ||| pteU ||| pteP := by
    rw [userEntry, UInt32.or_assoc]
    exact pteFlags_or page.v2p_aligned (by decide)
  have same : userEntry page &&& pteU = pteFlags (userEntry page) &&& pteU := by
    rw [pteFlags, UInt32.and_assoc]
    rfl
  rw [same, flags]
  decide

theorem Loaded.prepare {n : Nat} {guard : UInt32} (loaded : Loaded all m s rest sz image)
    (size : sz.toNat = 4096 * (n + 2)) (here : vpn guard = n) :
    ∃ later next, Vm.clearpteu s.dir.addr guard m = .done () later ∧ next.dir = s.dir ∧
      Prepared all later next rest n sz := by
  have count : pages sz = n + 2 := by
    unfold pages
    omega
  have user := pages_user loaded.small
  obtain ⟨data, held⟩ := loaded.mapped (show vpn guard < pages sz by omega)
  obtain ⟨-, none⟩ | ⟨table, there, cleared, holding⟩ := loaded.world.clearpteu guard
  · obtain ⟨table, there⟩ := table_of_user held
    rw [none] at there
    cases there
  · refine ⟨_, s.setPte there (s.pte (vpn guard) &&& ~~~pteU), cleared, rfl, holding, size,
      count ▸ user, ?_, ?_, ?_, ?_, ?_, loaded.kernel⟩
    · intro i below
      obtain ⟨page, entry⟩ := loaded.entries i (by omega)
      rw [Space.setPte_of_ne s there _ (by omega), entry]
      exact userEntry_accessible page
    · rw [← here, Space.setPte_self]
      rintro ⟨-, usable⟩
      apply usable
      rw [UInt32.and_assoc, show ~~~pteU &&& pteU = 0 by decide, UInt32.and_zero]
    · rw [← here, Space.setPte_table, there]
      exact Option.some_ne_none table
    · rw [Space.setPte_of_ne s there _ (by omega)]
      exact loaded.entries (n + 1) (by omega)
    · intro i kernel
      rw [Space.setPte_of_ne s there _ (by omega)]
      exact loaded.supervised i kernel

/-- The guard page and the stack page are mapped above the program, or the address
space is freed, if it gets too large or there are too few pages. -/
theorem allocStack_ends (nodup : free.Nodup)
    (loaded : Loaded {page | page ∈ free} k.machine s rest sz image) (entry : UInt32) :
    ∃ result later, allocStack symbols s.dir.addr sz entry k =
        .done result { k with machine := later } ∧
      (∀ page, page ∉ free → k.machine.Same later page) ∧
      (result = none → SameFree free later ∧ (pgRoundUp sz + 2 * pgsize < kernbase →
        free.length < copyNeeds (pages (pgRoundUp sz + 2 * pgsize)))) ∧
      ∀ img, result = some img → (img.entry = entry ∧ img.sz = pgRoundUp sz + 2 * pgsize ∧
        img.sz < kernbase ∧ copyNeeds (pages img.sz) ≤ free.length) ∧
        Shows symbols later img.pgdir sz image ∧ PreparedFor free later img := by
  obtain ⟨value, middle, next, remaining, ran, holding, dir, same, success, failure⟩ :=
    loaded.allocStackPages
  rw [allocStack, onMachine_done ran]
  by_cases failed : value = 0
  · obtain ⟨later, ended, again, others⟩ :=
      bad_unlocked (k := { k with machine := middle }) holding
    rw [if_pos failed, ← dir]
    refine ⟨none, later, ended, fun page used => (same page used).trans (others page used),
      fun _ => ⟨again, fun small => ?_⟩, ?_⟩
    · obtain kernel | ranOut := failure failed
      · exact absurd kernel (UInt32.not_le.mpr small)
      · exact loaded.few nodup small ranOut
    · intro img some
      cases some
  · obtain ⟨grown, count, guard, valued⟩ := success failed
    have number : vpn (value - 2 * pgsize) = pages sz := World.vpn_eq guard
    obtain ⟨later, cleared, shows, others⟩ := Shows.clearpteu grown number (by omega)
    have size : value.toNat = 4096 * (pages sz + 2) := by
      have few := pages_user loaded.small
      have bound := value.toNat_lt
      unfold userPages at few
      rw [UInt32.toNat_sub, show (2 * pgsize).toNat = 8192 by rfl] at guard
      omega
    obtain ⟨last, final, ran, kept, prepared⟩ := grown.prepare size number
    cases cleared.symm.trans ran
    rw [dir] at cleared shows kept
    rw [if_neg failed, onMachine_done cleared]
    refine ⟨some ⟨s.dir.addr, value, entry⟩, later, rfl,
      fun page used => (same page used).trans (others page used), ?_, ?_⟩
    · intro none
      cases none
    · rintro img ⟨⟩
      have counted := grown.count nodup
      exact ⟨⟨rfl, valued, grown.small, by dsimp only; omega⟩, shows,
        ⟨final, remaining, _, congrArg Page.addr kept, prepared⟩⟩

/-! ## Segments that do not overlap -/

def Apart (first second : Proghdr) : Prop :=
  first.vaddr.toNat + first.memsz.toNat ≤ second.vaddr.toNat ∨
    second.vaddr.toNat + second.memsz.toNat ≤ first.vaddr.toNat

/-- Where segments do not overlap, each is in memory whole. -/
theorem read_segment {phs : List Proghdr} (fits : ∀ ph ∈ phs, Fits array sz ph)
    (apart : phs.Pairwise Apart) {ph : Proghdr} (member : ph ∈ phs) :
    (Memory.writeAll (fun _ => 0) (phs.map (segment array))).read ph.vaddr.toNat ph.memsz.toNat =
      (segment array ph).2 ++ List.replicate (ph.memsz.toNat - ph.filesz.toNat) 0 := by
  obtain ⟨first, last, rfl⟩ := List.append_of_mem member
  have fit := fits ph member
  have length := fit.length
  have file := fit.file
  obtain ⟨-, others, across⟩ := List.pairwise_append.mp apart
  have away : ∀ other ∈ first ++ last, Apart other ph ∨ Apart ph other := by
    intro other here
    obtain before | after := List.mem_append.mp here
    · exact Or.inl (across other before ph (List.mem_cons_self ..))
    · exact Or.inr ((List.pairwise_cons.mp others).1 other after)
  have outside : ∀ listed : List Proghdr, (∀ other ∈ listed, other ∈ first ++ last) → ∀ i < ph.memsz.toNat,
      ∀ range ∈ listed.map (segment array), ph.vaddr.toNat + i < range.1 ∨
        range.1 + range.2.length ≤ ph.vaddr.toNat + i := by
    intro listed sub i below range inRange
    obtain ⟨other, here, rfl⟩ := List.mem_map.mp inRange
    have fitted := fits other (by
      obtain before | after := List.mem_append.mp (sub other here)
      · exact List.mem_append_left _ before
      · exact List.mem_append_right _ (List.mem_cons_of_mem _ after))
    have short := fitted.length
    have within := fitted.file
    have start : (segment array other).1 = other.vaddr.toNat := rfl
    have disjoint := away other (sub other here)
    unfold Apart at disjoint
    omega
  apply List.ext_getElem
  · rw [Memory.length_read, List.length_append, List.length_replicate]
    omega
  · intro i below _
    rw [Memory.length_read] at below
    simp only [Memory.read, List.getElem_map, List.getElem_range, List.map_append, List.map_cons]
    rw [Memory.writeAll_middle _ _ _ _ _ (outside last (fun other here =>
      List.mem_append_right _ here) i below)]
    by_cases inside : i < (segment array ph).2.length
    · rw [List.getElem_append_left inside]
      exact Memory.write_inside _ _ inside
    · rw [List.getElem_append_right (Nat.le_of_not_lt inside), List.getElem_replicate,
        Memory.write_outside _ _ (Or.inr (by
          have start : (segment array ph).1 = ph.vaddr.toNat := rfl
          omega))]
      exact Memory.writeAll_outside (outside first (fun other here =>
        List.mem_append_left _ here) i below)

/-! ## exec -/

/-- The header at the start of the file. -/
def header (array : List UInt8) : Elfhdr := elfhdr (array.take 52)

/-- The loadable segments of the file. -/
def segments (array : List UInt8) : List Proghdr :=
  loadable array (header array).phoff.toNat (header array).phnum.toNat

/-- The size of the new image, with its guard page and its stack page. -/
def imageSize (array : List UInt8) : UInt32 :=
  pgRoundUp ((segments array).foldl grownTo 0) + 2 * pgsize

/-- `exec` accepts the file, and `count` pages are enough. -/
structure Executable (array : List UInt8) (count : Nat) : Prop where
  whole : 52 ≤ array.length
  magic : (header array).magic = elfMagic
  headers : HeadersInside array (header array).phoff.toNat (header array).phnum.toNat
  segments : Accepts array 0 (segments array)
  user : imageSize array < kernbase
  pages : copyNeeds (pages (imageSize array)) ≤ count

theorem Accepts.small {phs : List Proghdr} (accepts : Accepts array sz phs)
    (small : sz.toNat < 0x80000000) : (phs.foldl grownTo sz).toNat < 0x80000000 := by
  induction phs generalizing sz with
  | nil => exact small
  | cons ph phs inductionHypothesis =>
      refine inductionHypothesis accepts.2 ?_
      have user := accepts.1.user
      rw [grownTo]
      split
      · exact small
      · rw [UInt32.toNat_add]
        omega

/-- The stack lies above the program. -/
theorem Accepts.pages_le (accepts : Accepts array 0 (segments array)) :
    pages ((segments array).foldl grownTo 0) ≤ pages (imageSize array) := by
  have small := accepts.small (show (0 : UInt32).toNat < 0x80000000 by decide)
  have top := toNat_stackTop (UInt32.lt_iff_toNat_lt.mpr small)
  rw [imageSize, pages, pages, top, pages]
  omega

/-- The user's memory holds the segment: its bytes from the file and then zeros, in
pages that the user may read and write. -/
structure InMemory (symbols : Symbols) (array : List UInt8) (m : Machine) (pgdir : UInt32)
    (ph : Proghdr) : Prop where
  length : ((array.drop ph.off.toNat).take ph.filesz.toNat).length = ph.filesz.toNat
  bytes : (userMemory m pgdir).read ph.vaddr.toNat ph.memsz.toNat =
    (array.drop ph.off.toNat).take ph.filesz.toNat ++
      List.replicate (ph.memsz.toNat - ph.filesz.toNat) 0
  mapped : ∀ offset < ph.memsz.toNat, ∃ page : Page symbols,
    m.lookup pgdir (UInt32.ofNat (ph.vaddr.toNat + offset)) = userEntry page

theorem Shows.inMemory {phs : List Proghdr} {pgdir : UInt32}
    (shows : Shows symbols m pgdir sz (Memory.writeAll (fun _ => 0) (phs.map (segment array))))
    (fits : ∀ ph ∈ phs, Fits array sz ph) (apart : phs.Pairwise Apart) {ph : Proghdr}
    (member : ph ∈ phs) : InMemory symbols array m pgdir ph := by
  have fit := fits ph member
  have below : ∀ offset < ph.memsz.toNat, ph.vaddr.toNat + offset < 4096 * pages sz := by
    intro offset inside
    have ends := fit.inside
    unfold pages
    omega
  refine ⟨fit.length, ?_, fun offset inside => (shows _ (below offset inside)).2⟩
  rw [Memory.read_congr fun offset inside => (shows _ (below offset inside)).1]
  exact read_segment fits apart member

/-- How `exec` ends before the arguments are pushed, the file having the bytes `array`. -/
structure Finished (free : List (Page symbols)) (array : List UInt8) (before : Kernel)
    (result : Option Image) (after : Kernel) : Prop where
  released : Released free before after
  failed : result = none → SameFree free after.machine
  entry : ∀ image, result = some image → image.entry = (header array).entry
  loaded : ∀ image, result = some image → (segments array).Pairwise Apart →
    ∀ ph ∈ segments array, InMemory symbols array after.machine image.pgdir ph

/-- The bytes of the segments, one stored over the other, and zeros elsewhere. -/
def programBytes (array : List UInt8) : Memory :=
  Memory.writeAll (fun _ => 0) ((segments array).map (segment array))

/-- Besides, the rest of `exec` can push the arguments. -/
structure Started (free : List (Page symbols)) (array : List UInt8) (before : Kernel)
    (result : Option Image) (after : Kernel) : Prop where
  finished : Finished free array before result after
  shows : ∀ image, result = some image → ∀ va, va + 8192 < image.sz.toNat →
    userMemory after.machine image.pgdir va = programBytes array va
  prepared : ∀ image, result = some image → PreparedFor free after.machine image
  size : ∀ image, result = some image → image.sz = imageSize array
  below : ∀ image, result = some image → ∀ ph ∈ segments array,
    ph.vaddr.toNat + ph.memsz.toNat + 8192 ≤ image.sz.toNat

theorem Started.fail {after : Kernel} (released : Released free before after)
    (again : SameFree free after.machine) : Started free array before none after where
  finished :=
    ⟨released, fun _ => again, fun _ absurd => (by cases absurd), fun _ absurd => (by cases absurd)⟩
  shows _ absurd := by cases absurd
  prepared _ absurd := by cases absurd
  size _ absurd := by cases absurd
  below _ absurd := by cases absurd

/-- A new page directory maps nothing below its size, which is 0. -/
theorem loaded_new (world : World all m s rest) (only : s.KernelOnly)
    (maps : MapsKernel userPages (kmap symbols) (Space.empty s.dir) s) :
    Loaded all m s rest 0 fun _ => 0 where
  world := world
  small := by decide
  entries n below := absurd below (Nat.not_lt_zero n)
  above n _ user := by
    rw [only.user n user]
    exact not_present_zero
  bytes va below := absurd below (Nat.not_lt_zero va)
  blank _ _ := rfl
  supervised := maps.supervised
  tables i := by
    constructor
    · intro there
      obtain ⟨page, held⟩ := Option.ne_none_iff_exists'.mp there
      exact Or.inl (only.table i page held)
    · rintro (member | below)
      · exact maps.tables member
      · exact absurd below (Nat.not_lt_zero _)

/-- The stack, once the segments are loaded. -/
theorem endLoad_ends (nodup : free.Nodup) (inside : Inside free before ip array k)
    (unlocked : before.held ip = false)
    (loaded : Loaded {page | page ∈ free} k.machine s rest sz (programBytes array))
    (fits : ∀ ph ∈ segments array, Fits array sz ph)
    (size : imageSize array = pgRoundUp sz + 2 * pgsize) :
    ∃ result after, endLoad symbols s.dir.addr (header array).entry ip (some sz) k =
        .done result after ∧
      Started free array before result after ∧
      (result ≠ none ↔
        imageSize array < kernbase ∧ copyNeeds (pages (imageSize array)) ≤ free.length) := by
  obtain ⟨after, closed, released, machine⟩ := inside.close unlocked
    (allocStack symbols s.dir.addr sz (header array).entry)
  rw [← machine] at loaded
  obtain ⟨result, last, stacked, kept, failed, shows⟩ :=
    allocStack_ends nodup loaded (header array).entry
  have released : Released free before { after with machine := last } :=
    ⟨released.proc, fun page used => (released.memory page used).trans (kept page used),
      released.refs, released.held, released.outstanding, released.cwd⟩
  have sizes : ∀ img, result = some img → img.sz = imageSize array := fun img some =>
    (shows img some).1.2.1.trans size.symm
  have top : (imageSize array).toNat = 4096 * (pages sz + 2) := by
    rw [size]
    exact toNat_stackTop loaded.small
  refine ⟨result, _, closed.trans stacked,
    ⟨⟨released, fun none => (failed none).1, ?_, ?_⟩, ?_, ?_, sizes, ?_⟩, ?_⟩
  · exact fun img some => (shows img some).1.1
  · exact fun img some apart ph member => (shows img some).2.1.inMemory fits apart member
  · intro img some va below
    rw [sizes img some, top] at below
    exact ((shows img some).2.1 va (by omega)).1
  · exact fun img some => (shows img some).2.2
  · intro img some ph member
    have inside := (fits ph member).inside
    rw [sizes img some, top]
    unfold pages
    omega
  · constructor
    · intro some
      obtain ⟨img, some⟩ := Option.ne_none_iff_exists'.mp some
      obtain ⟨⟨-, -, user, enough⟩, -⟩ := shows img some
      rw [sizes img some] at user enough
      exact ⟨user, enough⟩
    · rintro ⟨user, enough⟩ none
      have few := (failed none).2 (size ▸ user)
      rw [← size] at few
      exact absurd enough (Nat.not_le.mpr few)

/-- The loops and the stack, once there is a page directory. -/
theorem loads_ends (nodup : free.Nodup) (inside : Inside free before ip array k)
    (unlocked : before.held ip = false)
    (world : World {page | page ∈ free} k.machine s rest) (only : s.KernelOnly)
    (maps : MapsKernel userPages (kmap symbols) (Space.empty s.dir) s) {elf : Elfhdr}
    (same : elf = header array) (whole : 52 ≤ array.length)
    (magic : (header array).magic = elfMagic) :
    ∃ result after, (loadSegments symbols consoleread s.dir.addr ip elf.phnum.toNat elf.phoff 0
        >>= endLoad symbols s.dir.addr elf.entry ip) k = .done result after ∧
      Started free array before result after ∧
      (result ≠ none ↔ Executable array free.length) := by
  subst same
  have ends : LoadsAll free k s 0 (fun _ => 0) array
      (HeadersInside array (header array).phoff.toNat (header array).phnum.toNat) (segments array)
      (loadSegments symbols consoleread s.dir.addr ip (header array).phnum.toNat
        (header array).phoff 0 k) :=
    loadSegments_loads nodup (loaded_new world only maps) inside.reading
  obtain ⟨loaded, later, next, remaining, ran, holding, dir, others, success, failure⟩ := ends
  have inside := inside.setMachine others
  rw [Action.bind_done ran]
  cases loaded with
  | none =>
      obtain ⟨after, ended, released, again⟩ := bad_late holding inside unlocked
      rw [dir] at ended
      refine ⟨none, after, ended, Started.fail released again, iff_of_false (not_not.mpr rfl) ?_⟩
      intro executable
      have few := failure rfl executable.headers executable.segments
      have more := copyNeeds_mono executable.segments.pages_le
      have enough := executable.pages
      omega
  | some sz =>
      obtain ⟨⟨-, headers, accepts⟩, loaded, fits, rfl⟩ := success sz rfl
      obtain ⟨result, after, ended, started, exact⟩ :=
        endLoad_ends nodup inside unlocked loaded fits rfl
      rw [dir] at ended
      refine ⟨result, after, ended, started, exact.trans ?_⟩
      constructor
      · rintro ⟨user, enough⟩
        exact ⟨whole, magic, headers, accepts, user, enough⟩
      · intro executable
        exact ⟨executable.user, executable.pages⟩

/-- `exec` with the locked inode. -/
theorem execLocked_ends (inside : Inside free before ip array k)
    (unlocked : before.held ip = false) (frees : k.machine.Free free) :
    ∃ result after, execLocked symbols consoleread ip k = .done result after ∧
      Started free array before result after ∧
      (result ≠ none ↔ Executable array free.length) := by
  have early : ∃ after, bad symbols 0 (some ip) k = .done none after ∧
      Started free array before none after := by
    obtain ⟨after, ended, released, machine⟩ := bad_early inside unlocked
    exact ⟨after, ended, Started.fail released ⟨free, machine ▸ frees, fun _ => Iff.rfl⟩⟩
  obtain ⟨after, ended, finished⟩ := early
  obtain ⟨got, bytes, read, -, complete, returns⟩ := inside.reading.readi 0 elfhdrSize
  have start : (0 : UInt32).toNat + elfhdrSize.toNat = 52 := rfl
  rw [start] at complete returns
  rw [execLocked, onInodes_done read]
  dsimp only
  by_cases short : got ≠ elfhdrSize.toNat
  · rw [if_pos short]
    exact ⟨none, after, ended, finished, iff_of_false (not_not.mpr rfl) fun executable =>
      short (returns executable.whole)⟩
  rw [if_neg short]
  obtain ⟨whole, content⟩ := complete (not_not.mp short)
  have same : elfhdr bytes = header array := congrArg elfhdr content
  by_cases magic : (elfhdr bytes).magic ≠ elfMagic
  · rw [if_pos magic]
    exact ⟨none, after, ended, finished, iff_of_false (not_not.mpr rfl) fun executable =>
      magic (same ▸ executable.magic)⟩
  rw [if_neg magic]
  obtain ⟨later, rest, few, failed, again, members, others⟩ |
    ⟨later, s, rest, made, world, -, only, others, maps⟩ := setupkvm_spec frees
  · obtain ⟨last, ended, released, machine⟩ := bad_early (inside.setMachine others) unlocked
    rw [onMachine_done failed, if_pos rfl]
    refine ⟨none, last, ended, Started.fail released ⟨rest, ?_, members⟩,
      iff_of_false (not_not.mpr rfl) fun executable => ?_⟩
    · rw [machine]
      exact again
    · have enough := executable.pages
      unfold copyNeeds at enough
      omega
  · rw [onMachine_done made, if_neg s.dir.addr_ne_zero]
    exact loads_ends frees.nodup (inside.setMachine others) unlocked world only maps same whole
      (same ▸ not_not.mp magic)

/-! ## The path -/

section Path

variable {nodes : Nat → Prop} {content : Nat → List UInt8} {path : List UInt8}

/-- The inode that `path` leads to. -/
def Kernel.leads (before : Kernel) (content : Nat → List UInt8) (path : List UInt8) : Option Nat :=
  Path.walk before.fs.toFileSystem content (before.paths.start path) (Path.elements path)

/-- The file that `path` leads to has the bytes `array`. -/
def LeadsTo (before : Kernel) (content : Nat → List UInt8) (path array : List UInt8) : Prop :=
  ∀ i, before.leads content path = some i → File before.fs.toFileSystem i array

/-- What `namei` returns can be loaded, and it leaves the locks and `cwd` as they were. -/
theorem namei_resolves (ready : Path.Ready before.paths nodes content) (string : 0 ∉ path)
    (file : LeadsTo before content path array) {found : Option InodePtr} {middle : Path.Kernel}
    (looked : Path.namei consoleread path before.paths = .done found middle) :
    Resolved before.fs array found middle.fs ∧ middle.held = before.held ∧
      middle.cwd = before.cwd ∧ (found ≠ none ↔ before.leads content path ≠ none) := by
  have returned := (Path.namei_returns ready string).of_done looked
  have refs := returned.balanced.1.refs
  have free : before.held = Path.unlocked := ready.free
  cases found with
  | none =>
      obtain ⟨nowhere, carrying⟩ := returned
      exact ⟨⟨carrying.fs.sound, refs, fun ip none => (by cases none),
        fun ip none => (by cases none), fun ip none => (by cases none)⟩,
        carrying.held.trans free.symm, carrying.cwd,
        iff_of_false (not_not.mpr rfl) (not_not.mpr nowhere)⟩
  | some ip =>
      obtain ⟨leads, carrying⟩ := returned
      have node := ready.tree.walk_node (ready.begins path) leads
      have somewhere : before.leads content path ≠ none := by
        rw [Kernel.leads, show Path.walk before.fs.toFileSystem content _ _ = _ from leads]
        exact Option.some_ne_none _
      refine ⟨⟨carrying.fs.sound, refs, ?_, ?_, ?_⟩, carrying.held.trans free.symm, carrying.cwd,
        iff_of_true (Option.some_ne_none ip) somewhere⟩
      · rintro other ⟨⟩
        exact carrying.referenced (Path.one_pos ip)
      · rintro other ⟨⟩
        exact (file _ leads).congr carrying.fs.stat carrying.fs.block carrying.fs.sb
      · rintro other ⟨⟩
        rw [carrying.fs.stat]
        exact ready.tree.allocated _ node

/-- `exec` up to the allocation of the user stack, with what the rest needs. It fails unless
the path leads somewhere, the file is accepted and there are enough pages. -/
theorem execPrefix_starts (before : Kernel) (frees : before.machine.Free free)
    (ready : Path.Ready before.paths nodes content) (string : 0 ∉ path)
    (file : LeadsTo before content path array) {found : Option InodePtr} {middle : Path.Kernel}
    (looked : Path.namei consoleread path before.paths = .done found middle) :
    ∃ result after, execPrefix symbols consoleread path before = .done result after ∧
      Started free array before result after ∧
      (result ≠ none ↔ before.leads content path ≠ none ∧ Executable array free.length) := by
  obtain ⟨resolved, held, cwd, leads⟩ := namei_resolves ready string file looked
  rw [← leads]
  have unlocked : ∀ ip, before.held ip = false := fun ip => congrFun ready.free ip
  have lookup : onPaths (Path.namei consoleread path) ⟨before.machine, before.fs, before.held,
      before.outstanding + 1, before.proc, before.cwd⟩ = .done found ⟨before.machine, middle.fs,
      before.held, before.outstanding + 1, before.proc, before.cwd⟩ := by
    rw [← held, ← cwd]
    exact Action.focus_done (show Path.namei consoleread path
      ⟨before.fs, middle.held, middle.cwd⟩ = _ by rw [held, cwd]; exact looked)
  rw [execPrefix, beginOp, Action.modify_bind, Action.bind_done lookup]
  cases found with
  | none =>
      refine ⟨none, _, rfl, Started.fail ⟨rfl, fun page _ => Machine.Same.refl _ page, ?_, rfl,
        rfl, rfl⟩ ⟨free, frees, fun _ => Iff.rfl⟩, iff_of_false (not_not.mpr rfl) fun both =>
          both.1 rfl⟩
      intro ip
      have refs := resolved.refs ip
      rw [if_neg (by simp), Int.add_zero] at refs
      exact refs
  | some ip =>
      have referenced := resolved.referenced ip rfl
      obtain ⟨fs, done, locked⟩ := ilock_locks resolved.sound referenced (resolved.allocated ip rfl)
      have lock : ilock ip ⟨before.machine, middle.fs, before.held, before.outstanding + 1,
          before.proc, before.cwd⟩ = .done () ⟨before.machine, fs,
          Function.update before.held ip true, before.outstanding + 1, before.proc,
          before.cwd⟩ := by
        rw [ilock, Action.get_bind, if_neg (by dsimp only; omega), if_neg (by simp [unlocked ip]),
          Action.modify_bind]
        exact Action.focus_done done
      have inside : Inside free before ip array ⟨before.machine, fs,
          Function.update before.held ip true, before.outstanding + 1, before.proc,
          before.cwd⟩ := by
        have number : (fs.inode ip).inum = (middle.fs.inode ip).inum :=
          (live_iff.mp locked.live).2.2
        refine ⟨rfl, fun page _ => Machine.Same.refl _ page, ?_, rfl, rfl, rfl, ?_, locked.sound,
          ?_, ?_⟩
        · intro other
          rw [locked.refs, resolved.refs]
          congr 2
          simp [eq_comm]
        · rw [locked.refs]
          exact referenced
        · rw [number]
          exact locked.live
        · rw [number]
          exact locked.files _ _ (resolved.file ip rfl)
      dsimp only
      rw [Action.bind_done lock]
      obtain ⟨result, after, ended, started, exact⟩ := execLocked_ends inside (unlocked ip) frees
      exact ⟨result, after, ended, started, exact.trans
        (and_iff_right (Option.some_ne_none ip)).symm⟩

/-- For every file and every list of free pages `exec`, up to the allocation of the
user stack, returns without a panic. It leaves the process, the pages in use, the
inode and the transaction as they were, and if it fails the free pages too; else
every segment is in memory unless segments overlap. -/
theorem execPrefix_ends (before : Kernel) (frees : before.machine.Free free)
    (ready : Path.Ready before.paths nodes content) (string : 0 ∉ path)
    (file : LeadsTo before content path array) {found : Option InodePtr} {middle : Path.Kernel}
    (looked : Path.namei consoleread path before.paths = .done found middle) :
    ∃ result after, execPrefix symbols consoleread path before = .done result after ∧
      Finished free array before result after := by
  obtain ⟨result, after, ran, started, -⟩ :=
    execPrefix_starts before frees ready string file looked
  exact ⟨result, after, ran, started.finished⟩

end Path

/-- An ELF file with one segment, of four bytes in the file and eight in memory. -/
def tinyProgram : List UInt8 :=
  [0x7F, 0x45, 0x4C, 0x46] ++ List.replicate 24 0 ++ [52, 0, 0, 0] ++ List.replicate 12 0 ++
    [1, 0] ++ List.replicate 6 0 ++ [1, 0, 0, 0, 84, 0, 0, 0] ++ List.replicate 8 0 ++
    [4, 0, 0, 0, 8, 0, 0, 0] ++ List.replicate 8 0 ++ [11, 22, 33, 44]

/-- It takes 69 free pages: 65 for the directory and the page tables of the kernel, one for the
program, two for the stack, and their page table. -/
theorem tinyProgram_executable {count : Nat} (enough : 69 ≤ count) :
    Executable tinyProgram count := by
  have single : segments tinyProgram = [⟨1, 84, 0, 4, 8⟩] := by decide +kernel
  have size : imageSize tinyProgram = 12288 := by decide +kernel
  refine ⟨by decide, by decide, by decide, ?_, ?_, ?_⟩
  · rw [single]
    exact ⟨⟨by decide, by decide, by decide, by decide, by decide⟩, trivial⟩
  · rw [size]
    decide
  · rw [size]
    exact enough

theorem one_lt_ninode : 1 < ninode := by decide

/-- A root directory, which stays referenced, and a file with one link: the program. -/
def installProgram : List FsOp :=
  let root : InodePtr := ⟨0, ninode_pos⟩
  let file : InodePtr := ⟨1, one_lt_ninode⟩
  [.ialloc tDir, .ilock root, .relink root 0 0 1, .ialloc tFile, .ilock file, .relink file 0 0 1,
    .writei file (fun offset => tinyProgram.getD offset 0) 0 88, .iput file]

/-- The program is linked as "a", and two entries of the inode cache are free. -/
theorem tinyProgram_linked : ∃ fs content,
    Path.Ready ⟨fs, Path.unlocked, ⟨0, ninode_pos⟩⟩ (fun i => i = 1 ∨ i = 2) content ∧
      Path.Spare fs.toFileSystem ∧
      Path.walk fs.toFileSystem content rootino (Path.elements Path.pathA) = some 2 ∧
      File fs.toFileSystem 2 tinyProgram := by
  have facts : (runs FsState.next blankDisk installProgram).map (fun state =>
      decide (Path.Made state ∧ (state.inode ⟨1, by decide⟩).ref = 0 ∧
        (state.inode ⟨2, by decide⟩).ref = 0 ∧ (state.stat 2).size = 88) &&
        decide ((∀ o ∈ List.range 88, state.number (slotOf 2 (o / bsize)) ≠ 0) ∧
          ∀ o ∈ List.range 88, state.byte 2 o = tinyProgram.getD o 0)) = some true := by
    decide +kernel
  obtain ⟨start, ran, holds⟩ := Option.map_eq_some_iff.mp facts
  obtain ⟨first, second⟩ := (Bool.and_eq_true ..).mp holds
  obtain ⟨made, free, also, size⟩ := of_decide_eq_true first
  obtain ⟨allocated, bytes⟩ := of_decide_eq_true second
  obtain ⟨fs, content, keeps, files, ready, leads⟩ :=
    Path.ready_made (sound_run blankDisk_image ran) made
  have file : File start.toFileSystem 2 tinyProgram := by
    obtain ⟨ninodes, -, -, type, -⟩ := made
    have inside : 2 < start.sb.ninodes := by rw [ninodes]; decide
    have plain : (start.stat 2).type ≠ tDev := by rw [type]; decide
    exact ⟨inside, plain, size, fun o below => allocated o (List.mem_range.mpr below),
      fun o below => bytes o (List.mem_range.mpr below)⟩
  exact ⟨fs, content, ready, ⟨⟨1, by decide⟩, ⟨2, by decide⟩, by decide, (keeps _).1.trans free,
    (keeps _).1.trans also⟩, leads, files _ file⟩

/-- The program is loaded. -/
theorem execPrefix_ends_program : ∃ m, ∃ free : List (Page smallKernel),
    ∃ before content result after,
      kinit smallKernel ⟨fun _ => 0, 0⟩ = .done () m ∧ m.Free free ∧ before.machine = m ∧
      before.leads content Path.pathA = some 2 ∧ File before.fs.toFileSystem 2 tinyProgram ∧
      execPrefix smallKernel (fun n => (n, [])) Path.pathA before = .done result after ∧
      result ≠ none ∧ Finished free tinyProgram before result after ∧
      (segments tinyProgram).map (segment tinyProgram) = [(0, [11, 22, 33, 44])] := by
  obtain ⟨m, free, booted, frees, everything⟩ := kinit_frees smallKernel (by decide) fun _ => 0
  have enough := many_pages (by decide) (show 69 ≤ 56320 by decide) everything
  obtain ⟨fs, content, ready, spare, leads, file⟩ := tinyProgram_linked
  let before : Kernel := ⟨m, fs, Path.unlocked, 0, ⟨0, 0, ⟨0, 0⟩, []⟩, ⟨0, ninode_pos⟩⟩
  have here : before.leads content Path.pathA = some 2 := leads
  have found : LeadsTo before content Path.pathA tinyProgram := by
    intro i leads
    cases leads.symm.trans here
    exact file
  obtain ⟨result, middle, looked, -⟩ := ((@Path.namei_returns before.paths _ content
    (fun n => (n, [])) ready _ (by decide : (0 : UInt8) ∉ Path.pathA)).imp
      (fun _ lacks => lacks.2 spare) fun _ _ returned => returned).exists_done
  obtain ⟨result, after, ended, finished⟩ : ∃ result after,
      execPrefix smallKernel (fun n => (n, [])) Path.pathA before = .done result after ∧
        Finished free tinyProgram before result after :=
    execPrefix_ends before frees ready (by decide) found looked
  obtain ⟨_, _, same, -, exact⟩ : ∃ result after,
      execPrefix smallKernel (fun n => (n, [])) Path.pathA before = .done result after ∧
        Started free tinyProgram before result after ∧ (result ≠ none ↔
          before.leads content Path.pathA ≠ none ∧ Executable tinyProgram free.length) :=
    execPrefix_starts before frees ready (by decide) found looked
  cases ended.symm.trans same
  have loads : result ≠ none :=
    exact.mpr ⟨here ▸ Option.some_ne_none 2, tinyProgram_executable enough⟩
  exact ⟨m, free, before, content, result, after, booted, frees, rfl, here, file, ended, loads,
    finished, by decide⟩

end Xv6.Exec
