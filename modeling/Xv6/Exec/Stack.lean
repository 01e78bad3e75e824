import Xv6.Exec.Push

/-!
# The stack that exec gives a program

The strings lie on the last page, one below the other, and below them the array of their
addresses. That holds unless a string is so long that its address wraps.
-/

namespace Xv6.Exec

open Xv6.Library Xv6.Fs Xv6.Vm

variable {symbols : Symbols} {all : Set (Page symbols)} {m later : Machine} {s : Space symbols}
  {rest : List (Page symbols)} {n : Nat} {sz : UInt32}

/-! ## The change of address spaces -/

section Caller

variable {callers : Set (Page symbols)} {start : Machine} {old : Space symbols}
  {free : List (Page symbols)} {image : Image} {esp : UInt32} {path : List UInt8}
  {argv : List CString} {k : Kernel}

/-- The caller's address space is as it was while the new one is built from free pages. -/
theorem World.beside (caller : World callers start old free)
    (new : World {page | page ∈ free} m s rest)
    (same : ∀ page, page ∉ free → start.Same m page) :
    World {page | page ∈ rest ∨ ∃ place, old.Has place page} m old rest where
  frees := new.frees
  holds := caller.holds.congr fun page entries => same page (caller.structural_used entries)
  backed := caller.backed
  accounts := by
    refine ⟨⟨?_, caller.accounts.owned.once⟩, ?_, fun page member => Or.inl member⟩
    · intro place page held
      exact ⟨Or.inr ⟨place, held⟩, fun member =>
        caller.has_used held (new.accounts.within member)⟩
    · rintro page (member | held)
      · exact Or.inl member
      · exact Or.inr held

/-- Freeing the caller's address space leaves the new one. -/
theorem commit_ends (caller : World callers start old free)
    (new : World {page | page ∈ free} k.machine s rest)
    (same : ∀ page, page ∉ free → start.Same k.machine page)
    (dir : old.dir.addr = k.proc.pgdir) (here : s.dir.addr = image.pgdir) :
    ∃ final listed, commit symbols path image esp k = .done () { k with
        machine := final
        proc := ⟨image.pgdir, image.sz, ⟨image.entry, esp⟩, (lastFrom path path).take 15⟩ } ∧
      World {page | page ∈ free ∨ ∃ place, old.Has place page} final s listed ∧
      (∀ place page, old.Has place page → page ∈ listed) ∧
      ∀ place page, s.Has place page → k.machine.Same final page := by
  obtain ⟨final, listed, freed, frees, -, members, others⟩ := (World.beside caller new same).freevm
  have apart : ∀ place page, s.Has place page → ¬∃ place, old.Has place page := by
    rintro place page held ⟨also, used⟩
    exact caller.has_used used (new.has_all held)
  have kept : ∀ place page, s.Has place page → k.machine.Same final page := by
    intro place page held
    apply others
    rintro (member | used)
    · exact new.has_used held member
    · exact apart place page held used
  refine ⟨final, listed, ?_, ⟨frees, ?_, new.backed, ?_⟩,
    fun place page held => (members page).mpr (Or.inr ⟨place, held⟩), kept⟩
  · rw [commit, Action.get_bind, Action.modify_bind, if_neg (here ▸ s.dir.addr_ne_zero), ← dir]
    exact Action.focus_done freed
  · apply new.holds.congr
    rintro page (rfl | ⟨i, there⟩)
    · exact kept .dir _ rfl
    · exact kept (.table i) page there
  · refine ⟨⟨fun place page held => ⟨Or.inl (new.has_all held), fun member => ?_⟩,
      new.accounts.owned.once⟩, ?_, ?_⟩
    · rcases (members page).mp member with left | used
      · exact new.has_used held left
      · exact apart place page held used
    · rintro page (member | used)
      · rcases new.accounts.covered page member with left | held
        · exact Or.inl ((members page).mpr (Or.inl left))
        · exact Or.inr held
      · exact Or.inl ((members page).mpr (Or.inr used))
    · intro page member
      rcases (members page).mp member with left | used
      · exact Or.inl (new.accounts.within left)
      · exact Or.inr used

/-! ## The array -/

/-- A string of the new process: it lies above the array, which ends at `low`, and below `sz`. -/
structure StringAt (m : Machine) (pgdir sz : UInt32) (low : Nat) (string : CString)
    (pointer : UInt32) : Prop where
  bytes : (userMemory m pgdir).read pointer.toNat string.stored.length = string.stored
  aligned : pointer.toNat % 4 = 0
  above : low ≤ pointer.toNat
  below : pointer.toNat + string.stored.length ≤ sz.toNat

/-- What the new process finds on its stack: at `esp` a fake return address, `argc`, the
`argv` pointer and the array it points to, and the strings that the array points to. All of
it is on the last page below `sz`, and the page before that cannot be used. -/
structure ArgumentStack (m : Machine) (pgdir sz esp : UInt32) (argv : List CString)
    (pointers : List UInt32) : Prop where
  count : pointers.length = argv.length
  array : (userMemory m pgdir).read esp.toNat (4 * (argv.length + 4)) =
    wordBytes ([0xffffffff, UInt32.ofNat argv.length, esp + 12] ++ pointers ++ [0])
  strings : ∀ (i : Nat) (string : CString) (pointer : UInt32), argv[i]? = some string →
    pointers[i]? = some pointer →
      StringAt m pgdir sz (esp.toNat + 4 * (argv.length + 4)) string pointer
  apart : ∀ (i j : Nat) (string : CString) (lower pointer : UInt32), i < j →
    argv[j]? = some string → pointers[j]? = some lower → pointers[i]? = some pointer →
      lower.toNat + string.stored.length ≤ pointer.toNat
  aligned : esp.toNat % 4 = 0
  inside : sz.toNat ≤ esp.toNat + 4096 ∧ esp.toNat + 4 * (argv.length + 4) ≤ sz.toNat
  page : ∀ va : UInt32, sz.toNat ≤ va.toNat + 4096 → va < sz → Accessible (m.lookup pgdir va)
  guard : ∀ va : UInt32, sz.toNat ≤ va.toNat + 8192 → va.toNat + 4096 < sz.toNat →
    ¬Accessible (m.lookup pgdir va)

theorem length_wordBytes (words : List UInt32) : (wordBytes words).length = 4 * words.length := by
  induction words with
  | nil => rfl
  | cons word words inductionHypothesis =>
      rw [wordBytes, List.flatMap_cons, List.length_append, length_leBytes, ← wordBytes,
        inductionHypothesis, List.length_cons]
      omega

theorem Placed.strings {sp last : UInt32} {pointers : List UInt32}
    (placed : Placed s m sp argv pointers last) (i : Nat) {string : CString} {pointer : UInt32}
    (here : argv[i]? = some string) (there : pointers[i]? = some pointer) :
    Sees s m pointer.toNat string.stored ∧ pointer.toNat % 4 = 0 ∧ last.toNat ≤ pointer.toNat ∧
      pointer.toNat + string.stored.length ≤ sp.toNat := by
  induction placed generalizing i with
  | nil sp => cases here
  | @cons sp p last other argv pointers address aligned sees rest inductionHypothesis =>
      have total := rest.room.1
      have longer : other.stored.length ≤ alignUp other.stored.length := by
        unfold alignUp
        omega
      cases i with
      | zero =>
          cases here
          cases there
          exact ⟨sees, aligned, by omega, by omega⟩
      | succ i =>
          obtain ⟨seen, even, above, below⟩ := inductionHypothesis i here there
          exact ⟨seen, even, above, by omega⟩

theorem Placed.apart {sp last : UInt32} {pointers : List UInt32}
    (placed : Placed s m sp argv pointers last) {i j : Nat} (order : i < j) {string : CString}
    {lower pointer : UInt32} (here : argv[j]? = some string) (low : pointers[j]? = some lower)
    (there : pointers[i]? = some pointer) :
    lower.toNat + string.stored.length ≤ pointer.toNat := by
  induction placed generalizing i j with
  | nil sp => cases here
  | cons address aligned sees rest inductionHypothesis =>
      cases j with
      | zero => cases order
      | succ j =>
          cases i with
          | zero =>
              cases there
              exact (rest.strings j here low).2.2.2
          | succ i => exact inductionHypothesis (Nat.lt_of_succ_lt_succ order) here low there

/-- What the user sees on the stack page. -/
theorem Prepared.read (prepared : Prepared all m s rest n sz) {final : Machine}
    (holds : final.Holds s) (kept : ∀ place page, s.Has place page → m.Same final page)
    {va : Nat} {bytes : List UInt8} (sees : Sees s m va bytes) (low : 4096 * (n + 1) ≤ va)
    (high : va + bytes.length ≤ 4096 * (n + 2)) :
    (userMemory final s.dir.addr).read va bytes.length = bytes := by
  obtain ⟨page, held⟩ := prepared.world.open_backed prepared.stack_open
  apply List.ext_getElem
  · rw [Memory.length_read]
  · intro i _ inside
    have number : (va + i) / 4096 = n + 1 := by omega
    have seen := userMemory_mapped holds (show va + i < 4096 * (n + 2) by omega) prepared.user
      (by rw [number]; exact held.2.2)
    simp only [Memory.read, List.getElem_map, List.getElem_range, seen]
    have same := kept _ page held ((va + i) % 4096) (Nat.mod_lt _ (by decide))
    have stored := sees i inside
    rw [Space.place, number, held.2.2] at stored
    exact same.trans stored

end Caller

section Arguments

variable {callers : Set (Page symbols)} {start : Machine} {old : Space symbols}
  {free : List (Page symbols)} {image : Image} {path : List UInt8} {argv : List CString}
  {k : Kernel}

/-- The program in the new address space is still there. -/
def KeepsProgram (m : Machine) (image : Image) (later : Machine) : Prop :=
  ∀ va, va + 8192 < image.sz.toNat →
    userMemory later image.pgdir va = userMemory m image.pgdir va ∧
      later.lookup image.pgdir (UInt32.ofNat va) = m.lookup image.pgdir (UInt32.ofNat va)

/-- How `exec` ends after the allocation of the stack, `old` being the address space of its
caller. -/
def Executed (old : Space symbols) (free : List (Page symbols)) (k : Kernel) (image : Image)
    (argv : List CString) (outcome : Outcome Kernel Int) : Prop :=
  (FitsPage argv ∧ argv.length ≤ maxarg ∧ ∃ final esp name pointers next listed,
    outcome = .done 0 { k with
      machine := final
      proc := ⟨image.pgdir, image.sz, ⟨image.entry, esp⟩, name⟩ } ∧
    ArgumentStack final image.pgdir image.sz esp argv pointers ∧
    KeepsProgram k.machine image final ∧ next.dir.addr = image.pgdir ∧
    World {page | page ∈ free ∨ ∃ place, old.Has place page} final next listed ∧
    ∀ place page, old.Has place page → page ∈ listed) ∨
  (¬(FitsPage argv ∧ argv.length ≤ maxarg) ∧ ∃ later,
    outcome = .done (-1) { k with machine := later } ∧ SameFree free later ∧
    ∀ page, page ∉ free → k.machine.Same later page)

theorem ustackWords_eq {last esp : UInt32} {pointers : List UInt32}
    (address : esp = last - (3 + UInt32.ofNat pointers.length + 1) * 4) :
    ustackWords last pointers =
      [0xffffffff, UInt32.ofNat pointers.length, esp + 12] ++ pointers ++ [0] := by
  have same : last - (UInt32.ofNat pointers.length + 1) * 4 = esp + 12 := by
    grind
  rw [ustackWords, same]

theorem length_ustackWords (last : UInt32) (pointers : List UInt32) :
    (wordBytes (ustackWords last pointers)).length = 4 * (pointers.length + 4) := by
  rw [length_wordBytes, ustackWords]
  simp only [List.length_append, List.length_cons, List.length_nil]
  omega

/-- The words end where the strings begin. -/
theorem toNat_esp {last esp : UInt32} {argc : Nat}
    (address : last - (3 + UInt32.ofNat argc + 1) * 4 = esp) (few : argc ≤ maxarg)
    (room : 4 * (argc + 4) ≤ last.toNat) : esp.toNat + 4 * (argc + 4) = last.toNat := by
  unfold maxarg at few
  have count : (UInt32.ofNat argc).toNat = argc := UInt32.toNat_ofNat_of_lt' (by
    rw [UInt32.size]
    omega)
  have bound := last.toNat_lt
  rw [← address, UInt32.toNat_sub, UInt32.toNat_mul, UInt32.toNat_add, UInt32.toNat_add, count,
    show (3 : UInt32).toNat = 3 by rfl, UInt32.toNat_one, show (4 : UInt32).toNat = 4 by rfl]
  omega

/-- The new address space is given up. -/
theorem bad_executed (world : World {page | page ∈ free} m s rest)
    (here : s.dir.addr = image.pgdir) (unfit : ¬(FitsPage argv ∧ argv.length ≤ maxarg))
    (same : ∀ page, page ∉ free → k.machine.Same m page) :
    Executed old free k image argv ((do
      let _ ← bad symbols image.pgdir none
      return (-1 : Int)) { k with machine := m }) := by
  obtain ⟨later, ended, again, others⟩ := bad_unlocked (k := { k with machine := m }) world
  rw [here] at ended
  exact Or.inr ⟨unfit, later, Action.bind_done ended, again,
    fun page used => (same page used).trans (others page used)⟩

/-- The user sees a byte of the program as long as nobody writes to it. -/
theorem Prepared.keeps {final : Machine} {listed : List (Page symbols)} {users : Set (Page symbols)}
    (prepared : Prepared all m s rest n sz) (world : World users final s listed)
    (same : ∀ u, u / 4096 < n → final.memory (s.place u) = m.memory (s.place u)) {va : Nat}
    (program : va / 4096 < n) :
    userMemory final s.dir.addr va = userMemory m s.dir.addr va ∧
      final.lookup s.dir.addr (UInt32.ofNat va) = m.lookup s.dir.addr (UInt32.ofNat va) := by
  have user := prepared.user
  obtain ⟨page, held⟩ := prepared.world.open_backed ⟨by omega, prepared.program _ program⟩
  constructor
  · have below : va < 4096 * (n + 2) := by omega
    rw [userMemory_mapped world.holds below user held.2.2,
      userMemory_mapped prepared.world.holds below user held.2.2]
    have memory := same va program
    rw [Space.place, held.2.2] at memory
    exact memory
  · rw [world.holds.lookup, prepared.world.holds.lookup]

/-- For all strings that do not stray, the arguments are pushed or `exec` fails. -/
theorem pushArguments_ends (caller : World callers start old free)
    (prepared : Prepared {page | page ∈ free} k.machine s rest n image.sz)
    (same : ∀ page, page ∉ free → start.Same k.machine page)
    (dir : old.dir.addr = k.proc.pgdir) (here : s.dir.addr = image.pgdir)
    (mapped : ¬Strays (image.sz - pgsize) 0 image.sz argv) :
    Executed old free k image argv (pushArguments symbols path argv image k) := by
  have size := prepared.size
  have top := image.sz.toNat_lt
  have page : (image.sz - pgsize).toNat = 4096 * (n + 1) := by
    rw [UInt32.toNat_sub, toNat_pgsize]
    omega
  rw [pushArguments]
  obtain ⟨few, last, pointers, middle, ran, pushes⟩ | ⟨reason, middle, ran, world, others⟩ :=
    @pushStrings_ends _ _ s rest n image.sz _ page argv k image.sz [] prepared (by omega)
      (by omega) (by omega) (Nat.zero_le _) mapped
  · obtain ⟨total, count⟩ := pushes.placed.room
    have low := pushes.low
    have even := pushes.aligned
    rw [List.length_nil, Nat.zero_add] at few
    rw [List.nil_append] at ran
    rw [← here, Action.bind_done ran]
    dsimp only
    generalize address : last - (3 + UInt32.ofNat pointers.length + 1) * 4 = esp
    have words := ustackWords_eq address.symm
    have length : (wordBytes (ustackWords last pointers)).length = 4 * (argv.length + 4) := by
      rw [length_ustackWords, count]
    have down : esp.toNat + 4 * (argv.length + 4) = last.toNat := by
      rw [count] at address
      exact toNat_esp address few (by
        unfold maxarg at few
        omega)
    by_cases fits : 4096 * (n + 1) ≤ esp.toNat
    · obtain ⟨reads, stored, copied, wrote⟩ := pushes.prepared.copyout_stack fits
        (show esp.toNat + (wordBytes (ustackWords last pointers)).length ≤ 4096 * (n + 2) by omega)
      obtain ⟨ready, outside, others⟩ := pushes.prepared.wrote wrote fits (by omega)
      have placed : Placed s stored image.sz argv pointers last :=
        pushes.placed.congr fun u above below =>
          others u (by omega) (by omega) (Or.inr (by omega))
      obtain ⟨final, listed, committed, world, freed, kept⟩ := @commit_ends symbols s rest callers start old
        free image esp path { k with machine := stored } caller ready.world
        (fun page used => ((same page used).trans (pushes.outside page used)).trans
          (outside page used)) dir here
      have holds := world.holds
      have program : ∀ u, u / 4096 < n → final.memory (s.place u) = k.machine.memory (s.place u) := by
        intro u below
        have user := prepared.user
        obtain ⟨page, held⟩ := prepared.world.open_backed ⟨by omega, prepared.program _ below⟩
        have last := kept _ page held (u % 4096) (Nat.mod_lt _ (by decide))
        rw [← pushes.program u below, ← pushes.prepared.wrote_program wrote fits (by omega) below,
          Space.place, held.2.2]
        exact last
      have reads : ∀ {va : Nat} {bytes : List UInt8}, Sees s stored va bytes →
          4096 * (n + 1) ≤ va → va + bytes.length ≤ 4096 * (n + 2) →
          (userMemory final s.dir.addr).read va bytes.length = bytes :=
        fun sees low high => ready.read holds kept sees low high
      have entry : ∀ va, final.lookup s.dir.addr va = s.pte (vpn va) := holds.lookup
      have stack : ArgumentStack final s.dir.addr image.sz esp argv pointers := by
        refine ⟨count, ?_, ?_, ?_, by omega, by omega, ?_, ?_⟩
        · rw [← length, ← count, ← words]
          exact reads wrote.written fits (by omega)
        · intro i string pointer one two
          obtain ⟨sees, aligned, above, below⟩ := placed.strings i one two
          exact ⟨reads sees (by omega) (by omega), aligned, by omega, below⟩
        · intro i j string lower pointer order one two three
          exact placed.apart order one two three
        · intro va above below
          rw [UInt32.lt_iff_toNat_lt] at below
          rw [entry, vpn, show va.toNat / 4096 = n + 1 by omega]
          exact ready.stack_open.2
        · intro va above below
          rw [entry, vpn, show va.toNat / 4096 = n by omega]
          exact ready.guard
      rw [onMachine_done copied, if_neg (show ¬(0 : Int) < 0 by decide),
        Action.bind_done committed]
      refine Or.inl ⟨?_, few, final, esp, _, pointers, s, listed, rfl, here ▸ stack, ?_, here, world,
        freed⟩
      · unfold FitsPage
        omega
      · intro va below
        rw [← here]
        exact prepared.keeps world program (by omega)
    · obtain ⟨reads, stored, copied, world, others⟩ := @Prepared.copyout_guard _ _ _ _ _ _ _
        (wordBytes (ustackWords last pointers)) esp pushes.prepared (by omega) (by omega) (by omega)
        (by omega)
      rw [onMachine_done copied, if_pos (show (-1 : Int) < 0 by decide), here]
      refine bad_executed world here ?_ fun page used =>
        (pushes.outside page used).trans (others page used)
      unfold FitsPage
      omega
  · rw [← here, Action.bind_done ran, here]
    refine bad_executed world here ?_ others
    rw [List.length_nil, Nat.zero_add] at reason
    unfold FitsPage
    omega

end Arguments

/-! ## exec -/

section Exec

variable {callers : Set (Page symbols)} {old : Space symbols} {free : List (Page symbols)}
  {consoleread : Int → Int × List UInt8} {array path : List UInt8} {argv : List CString}

/-- The bytes of all strings. -/
def total (argv : List CString) : Nat := (argv.map fun s => s.stored.length).sum

/-- Strings that are smaller than the image do not stray. -/
theorem not_strays {page : UInt32} (user : image ≤ 0x80000000) {sp : UInt32} (argc : Nat)
    (low : image ≤ page.toNat + 4096) (high : sp.toNat ≤ image) (aligned : sp.toNat % 4 = 0)
    (above : page ≤ sp) (small : total argv < image) : ¬Strays page argc sp argv := by
  induction argv generalizing argc sp with
  | nil => exact id
  | cons string argv inductionHypothesis =>
      rw [total, List.map_cons, List.sum_cons, ← total] at small
      rw [UInt32.le_iff_toNat_le] at above
      have rounds : alignUp string.stored.length < string.stored.length + 4 := by
        unfold alignUp
        omega
      rintro ⟨-, unmapped | ⟨⟨still, below⟩, stray⟩⟩
      · rw [Unmapped, UInt32.le_iff_toNat_le, UInt32.lt_iff_toNat_lt,
          show devspace.toNat = 0xFE000000 by rfl,
          show (kernbase + phystop).toNat = 0x8E000000 by rfl] at unmapped
        obtain ⟨-, address⟩ | ⟨-, address⟩ := toNat_pushed aligned string
        · omega
        · omega
      · rw [UInt32.le_iff_toNat_le] at below
        exact inductionHypothesis (argc + 1) (Nat.le_trans below high) (pushed_aligned sp string)
          still (by omega) stray

/-- What a process is after `exec`: `array` was the file, `old` its address space before, and
`free` the free pages. Below the guard page its memory is that of the segments, one stored over
the other, so each is there whole when none overlap. The pages of the old address space and those
that were free and are not in the new one are the free pages. -/
structure Replaced (old : Space symbols) (free : List (Page symbols)) (array : List UInt8)
    (argv : List CString) (after : Kernel) : Prop where
  entry : after.proc.tf.eip = (header array).entry
  size : after.proc.sz = imageSize array
  stack : ∃ pointers, ArgumentStack after.machine after.proc.pgdir after.proc.sz after.proc.tf.esp
    argv pointers
  program : ∀ va, va + 8192 < after.proc.sz.toNat →
    userMemory after.machine after.proc.pgdir va = programBytes array va
  segments : (segments array).Pairwise Apart → ∀ ph ∈ segments array,
    InMemory symbols array after.machine after.proc.pgdir ph
  pages : ∃ next listed, next.dir.addr = after.proc.pgdir ∧
    World {page | page ∈ free ∨ ∃ place, old.Has place page} after.machine next listed ∧
    ∀ place page, old.Has place page → page ∈ listed

/-- The process keeps its image, and the free pages are the same. -/
structure Refused (free : List (Page symbols)) (before after : Kernel) : Prop where
  proc : after.proc = before.proc
  memory : ∀ page, page ∉ free → before.machine.Same after.machine page
  free : SameFree free after.machine

theorem KeepsProgram.inMemory {m later : Machine} {image : Image} (keeps : KeepsProgram m image later)
    {ph : Proghdr} (below : ph.vaddr.toNat + ph.memsz.toNat + 8192 ≤ image.sz.toNat)
    (inMemory : InMemory symbols array m image.pgdir ph) :
    InMemory symbols array later image.pgdir ph where
  length := inMemory.length
  bytes := by
    rw [← inMemory.bytes]
    exact Memory.read_congr fun offset inside => (keeps _ (by omega)).1
  mapped offset inside := by
    rw [(keeps _ (by omega)).2]
    exact inMemory.mapped offset inside

/-- When `exec` succeeds with `count` free pages. -/
structure Succeeds (before : Kernel) (content : Nat → List UInt8) (path array : List UInt8)
    (argv : List CString) (count : Nat) : Prop where
  leads : before.leads content path ≠ none
  executable : Executable array count
  page : FitsPage argv
  few : argv.length ≤ maxarg

/-- How `exec` ends. References, locks, `cwd` and transactions are as before. -/
structure Ended (old : Space symbols) (free : List (Page symbols)) (content : Nat → List UInt8)
    (path array : List UInt8) (argv : List CString) (before : Kernel) (result : Int)
    (after : Kernel) : Prop where
  success : Succeeds before content path array argv free.length →
    result = 0 ∧ Replaced old free array argv after
  failure : ¬Succeeds before content path array argv free.length →
    result = -1 ∧ Refused free before after
  refs : ∀ ip, (after.fs.inode ip).ref = (before.fs.inode ip).ref
  held : after.held = before.held
  outstanding : after.outstanding = before.outstanding
  cwd : after.cwd = before.cwd

variable {before : Kernel} {nodes : Nat → Prop} {content : Nat → List UInt8}

/-- Once the path has been looked up, `exec` returns. -/
theorem exec_ends (caller : World callers before.machine old free)
    (dir : old.dir.addr = before.proc.pgdir) (ready : Path.Ready before.paths nodes content)
    (string : 0 ∉ path) (file : LeadsTo before content path array) {found : Option InodePtr}
    {middle : Path.Kernel} (looked : Path.namei consoleread path before.paths = .done found middle)
    (mapped : ¬Strays (imageSize array - pgsize) 0 (imageSize array) argv) :
    ∃ result after, exec symbols consoleread path argv before = .done result after ∧
      Ended old free content path array argv before result after := by
  obtain ⟨loaded, later, ran, started, accepted⟩ : ∃ loaded later,
      execPrefix symbols consoleread path before = .done loaded later ∧
        Started free array before loaded later ∧
        (loaded ≠ none ↔ before.leads content path ≠ none ∧ Executable array free.length) :=
    execPrefix_starts before caller.frees ready string file looked
  have released := started.finished.released
  rw [exec, Action.bind_done ran]
  cases loaded with
  | none =>
      have refused : ¬Succeeds before content path array argv free.length := fun succeeds =>
        accepted.mpr ⟨succeeds.leads, succeeds.executable⟩ rfl
      exact ⟨-1, later, rfl, fun succeeds => absurd succeeds refused,
        fun _ => ⟨rfl, released.proc, released.memory, started.finished.failed rfl⟩,
        released.refs, released.held, released.outstanding, released.cwd⟩
  | some image =>
      obtain ⟨leads, executable⟩ := accepted.mp (Option.some_ne_none image)
      obtain ⟨s, rest, n, here, prepared⟩ := started.prepared image rfl
      have size := started.size image rfl
      have executed : Executed old free later image argv
          (pushArguments symbols path argv image later) :=
        pushArguments_ends caller prepared released.memory (dir.trans (by rw [released.proc])) here
          (by rw [size]; exact mapped)
      dsimp only
      rcases executed with ⟨fits, few, final, esp, name, pointers, next, listed, done, stack, keeps,
        place, world, freed⟩ | ⟨unfit, last, done, again, others⟩
      · rw [done]
        refine ⟨0, _, rfl, fun _ => ⟨rfl, started.finished.entry image rfl, size,
          ⟨pointers, stack⟩, ?_, ?_, ⟨next, listed, place, world, freed⟩⟩,
          fun refused => absurd ⟨leads, executable, fits, few⟩ refused, released.refs,
          released.held, released.outstanding, released.cwd⟩
        · exact fun va below => (keeps va below).1.trans (started.shows image rfl va below)
        · intro apart ph member
          exact keeps.inMemory (started.below image rfl ph member)
            (started.finished.loaded image rfl apart ph member)
      · rw [done]
        exact ⟨-1, _, rfl, fun succeeds => absurd ⟨succeeds.page, succeeds.few⟩ unfit,
          fun _ => ⟨rfl, released.proc,
            fun page used => (released.memory page used).trans (others page used), again⟩,
          released.refs, released.held, released.outstanding, released.cwd⟩

/-- `exec` always returns, unless the inode cache is full or a string is so long that its address
wraps to where there is no page table. It succeeds exactly when the path leads to a file that it
accepts, there are enough free pages, and the arguments fit in a page and are not too many. Then the
process has the image of the file with the arguments on its stack, and the pages of the old image
are free; else the process is as it was. -/
theorem exec_replaces (caller : World callers before.machine old free)
    (dir : old.dir.addr = before.proc.pgdir) (ready : Path.Ready before.paths nodes content)
    (string : 0 ∉ path) (file : LeadsTo before content path array)
    (mapped : ¬Strays (imageSize array - pgsize) 0 (imageSize array) argv) :
    (exec symbols consoleread path argv before).Ends (Path.lacksInodes before.paths)
      (Ended old free content path array argv before) := by
  have walks : (Path.namei consoleread path before.paths).Ends (Path.lacksInodes before.paths) _ :=
    Path.namei_returns ready string
  cases looked : Path.namei consoleread path before.paths with
  | blocked =>
      rw [looked] at walks
      exact walks.elim
  | panic message =>
      have lookup : onPaths (Path.namei consoleread path)
          { before with outstanding := before.outstanding + 1 } = .panic message :=
        Action.focus_panic looked
      have start : execPrefix symbols consoleread path before = .panic message := by
        rw [execPrefix, beginOp, Action.modify_bind, Action.bind_panic lookup]
      rw [exec, Action.bind_panic start]
      exact walks.of_panic looked
  | done found middle =>
      obtain ⟨result, after, done, ended⟩ : ∃ result after,
          exec symbols consoleread path argv before = .done result after ∧
            Ended old free content path array argv before result after :=
        exec_ends caller dir ready string file looked mapped
      rw [done]
      exact ended

end Exec

/-- The argument `hi`. -/
def hi : CString := ⟨[104, 105], by simp, by simp⟩

/-- The caller has taken 65 pages, and 69 are free. -/
theorem exec_replaces_program : ∃ free : List (Page smallKernel),
    ∃ old before content after, before.machine.Free free ∧
      before.leads content Path.pathA = some 2 ∧ File before.fs.toFileSystem 2 tinyProgram ∧
      exec smallKernel (fun n => (n, [])) Path.pathA [hi] before = .done 0 after ∧
      Replaced old free tinyProgram [hi] after := by
  obtain ⟨first, all, -, frees, everything⟩ := kinit_frees smallKernel (by decide) fun _ => 0
  have enough := many_pages (by decide) (show 134 ≤ 56320 by decide) everything
  obtain ⟨_, _, few, -⟩ | ⟨m, old, free, -, caller, -, only, -, maps⟩ := setupkvm_spec frees
  · exact absurd few (by omega)
  have counted := (loaded_new caller only maps).count frees.nodup
  have none : copyNeeds (pages 0) = 65 := by decide
  obtain ⟨fs, content, ready, spare, leads, file⟩ := tinyProgram_linked
  let before : Kernel :=
    ⟨m, fs, Path.unlocked, 0, ⟨old.dir.addr, 0, ⟨0, 0⟩, []⟩, ⟨0, ninode_pos⟩⟩
  have found : LeadsTo before content Path.pathA tinyProgram := by
    intro i here
    cases here.symm.trans leads
    exact file
  have size : imageSize tinyProgram = 12288 := by decide +kernel
  have mapped : ¬Strays (imageSize tinyProgram - pgsize) 0 (imageSize tinyProgram) [hi] := by
    rw [size]
    have user : 12288 ≤ 0x80000000 := by decide
    exact not_strays user 0 (by decide) (by decide) (by decide) (by decide) (by decide)
  have succeeds : Succeeds before content Path.pathA tinyProgram [hi] free.length := by
    refine ⟨?_, tinyProgram_executable (by omega), by decide, by decide⟩
    rw [show before.leads content Path.pathA = some 2 from leads]
    exact Option.some_ne_none 2
  have ends := @exec_replaces smallKernel _ old free (fun n => (n, [])) tinyProgram Path.pathA [hi]
    before _ content caller rfl ready (by decide) found mapped
  obtain ⟨result, after, done, ended⟩ :=
    (ends.imp (fun _ lacks => lacks.2 spare) fun _ _ ended => ended).exists_done
  obtain ⟨rfl, replaced⟩ := ended.success succeeds
  exact ⟨free, old, before, content, after, caller.frees, leads, file, done, replaced⟩

end Xv6.Exec
