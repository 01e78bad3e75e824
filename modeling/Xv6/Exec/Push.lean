import Xv6.Exec.Load
import Xv6.Vm.Copyout

/-!
# exec, from the user stack on

`exec.c`: the argument strings are pushed on the stack page, and then the array of
their addresses. Only after that the process changes to the new address space.
-/

namespace Xv6.Exec

open Xv6.Library Xv6.Fs Xv6.Vm

/-! ## The functions -/

/-- `MAXARG` -/
def maxarg : Nat := 32

/-- A string below KERNBASE, without the 0 that ends it. -/
structure CString where
  bytes : List UInt8
  string : 0 ∉ bytes
  user : bytes.length < 0x80000000

/-- The `strlen(s) + 1` bytes that are copied. -/
def CString.stored (s : CString) : List UInt8 := s.bytes ++ [0]

/-- `(sp - (strlen(s) + 1)) & ~3` -/
def pushed (sp : UInt32) (s : CString) : UInt32 :=
  (sp - UInt32.ofNat s.stored.length) &&& ~~~3

/-- The loop over the strings. It returns `sp` and the addresses of the strings, or
nothing for `goto bad`. -/
def pushStrings (pgdir : UInt32) :
    List CString → UInt32 → List UInt32 → Action Kernel (Option (UInt32 × List UInt32))
  | [], sp, ustack => return some (sp, ustack)
  | s :: argv, sp, ustack =>
      if maxarg ≤ ustack.length then return none
      else do
        let sp := pushed sp s
        let copied ← onMachine (copyout pgdir sp s.stored)
        if copied.1 < 0 then return none
        else pushStrings pgdir argv sp (ustack ++ [sp])

/-- The whole of `ustack`: a fake return address, `argc`, the `argv` pointer, the
addresses of the strings, and 0. -/
def ustackWords (sp : UInt32) (ustack : List UInt32) : List UInt32 :=
  let argc := UInt32.ofNat ustack.length
  [0xffffffff, argc, sp - (argc + 1) * 4] ++ ustack ++ [0]

/-- An array of words in memory. -/
def wordBytes (words : List UInt32) : List UInt8 := words.flatMap fun word => leBytes word.toNat 4

/-- The loop that looks for the name of the program. -/
def lastFrom (last : List UInt8) : List UInt8 → List UInt8
  | [] => last
  | c :: s => lastFrom (if c = 47 then s else last) s

variable (symbols : Symbols) (consoleread : Int → Int × List UInt8)

/-- The process gets the new address space, and the old one is freed. -/
def commit (path : List UInt8) (image : Image) (esp : UInt32) : Action Kernel Unit := do
  let oldpgdir ← Action.get fun k : Kernel => k.proc.pgdir
  Action.modify fun k => { k with
    proc := ⟨image.pgdir, image.sz, ⟨image.entry, esp⟩, (lastFrom path path).take 15⟩ }
  if image.pgdir = 0 then Action.panic "switchuvm: no pgdir"
  else onMachine (freevm symbols oldpgdir)

/-- What follows the allocation of the stack. -/
def pushArguments (path : List UInt8) (argv : List CString) (image : Image) :
    Action Kernel Int := do
  let strings ← pushStrings image.pgdir argv image.sz []
  match strings with
  | none =>
      let _ ← bad symbols image.pgdir none
      return -1
  | some (sp, ustack) =>
      let esp := sp - (3 + UInt32.ofNat ustack.length + 1) * 4
      let copied ← onMachine (copyout image.pgdir esp (wordBytes (ustackWords sp ustack)))
      if copied.1 < 0 then
        let _ ← bad symbols image.pgdir none
        return -1
      else
        commit symbols path image esp
        return 0

def exec (path : List UInt8) (argv : List CString) : Action Kernel Int := do
  let loaded ← execPrefix symbols consoleread path
  match loaded with
  | none => return -1
  | some image => pushArguments symbols path argv image

/-! ## Sizes -/

/-- The next multiple of 4. -/
def alignUp (size : Nat) : Nat := (size + 3) / 4 * 4

/-- The bytes that the strings take on the stack. -/
def room (argv : List CString) : Nat := (argv.map fun s => alignUp s.stored.length).sum

/-- The strings and the array fit in the stack page. -/
def FitsPage (argv : List CString) : Prop := room argv + 4 * (argv.length + 4) ≤ 4096

instance (argv : List CString) : Decidable (FitsPage argv) := inferInstanceAs (Decidable (_ ≤ _))

/-- There is no page table between the memory and the devices. -/
def Unmapped (va : UInt32) : Prop := kernbase + phystop ≤ va ∧ va < devspace

instance (va : UInt32) : Decidable (Unmapped va) := inferInstanceAs (Decidable (_ ∧ _))

/-- Some string is so long that its address wraps to where there is no page table, the
strings before it being in the page at `page`. -/
def Strays (page : UInt32) : Nat → UInt32 → List CString → Prop
  | _, _, [] => False
  | argc, sp, s :: argv =>
      argc < maxarg ∧ (Unmapped (pushed sp s) ∨
        (page ≤ pushed sp s ∧ pushed sp s ≤ sp) ∧ Strays page (argc + 1) (pushed sp s) argv)

theorem toNat_clear_two (a : UInt32) : (a &&& ~~~3).toNat = a.toNat / 4 * 4 := by
  have mask : (~~~3 : UInt32).toNat = (2 ^ 30 - 1) <<< 2 := by decide
  rw [UInt32.toNat_and, mask]
  exact and_high_mask (show a.toNat < 2 ^ (2 + 30) from a.toNat_lt)

theorem CString.stored_length (s : CString) :
    s.stored.length = s.bytes.length + 1 ∧ s.stored.length ≤ 0x80000000 := by
  have user := s.user
  rw [CString.stored, List.length_append, List.length_singleton]
  omega

/-- The stack pointer goes down by a multiple of 4. -/
theorem toNat_pushed {sp : UInt32} (aligned : sp.toNat % 4 = 0) (s : CString) :
    (alignUp s.stored.length ≤ sp.toNat ∧
      (pushed sp s).toNat + alignUp s.stored.length = sp.toNat) ∨
    (sp.toNat < alignUp s.stored.length ∧
      (pushed sp s).toNat + alignUp s.stored.length = sp.toNat + 4294967296) := by
  obtain ⟨-, user⟩ := s.stored_length
  have bound := sp.toNat_lt
  have length : (UInt32.ofNat s.stored.length).toNat = s.stored.length :=
    UInt32.toNat_ofNat_of_lt' (by
      rw [UInt32.size]
      omega)
  rw [pushed, toNat_clear_two, UInt32.toNat_sub, length]
  unfold alignUp
  omega

theorem pushed_aligned (sp : UInt32) (s : CString) : (pushed sp s).toNat % 4 = 0 := by
  rw [pushed, toNat_clear_two]
  omega

/-! ## What one copy does -/

variable {symbols : Symbols} {all : Set (Page symbols)} {m later : Machine} {s : Space symbols}
  {rest : List (Page symbols)} {n : Nat} {sz : UInt32}

/-- The user sees the bytes from `va` on. -/
def Sees (s : Space symbols) (m : Machine) (va : Nat) (bytes : List UInt8) : Prop :=
  ∀ i (inside : i < bytes.length), m.memory (s.place (va + i)) = bytes[i]

theorem Sees.congr {va : Nat} {bytes : List UInt8} (sees : Sees s m va bytes)
    (same : ∀ i < bytes.length, later.memory (s.place (va + i)) = m.memory (s.place (va + i))) :
    Sees s later va bytes :=
  fun i inside => (same i inside).trans (sees i inside)

/-- What was written is outside of the account's other pages. -/
theorem same_wrote {start : Nat} {bytes : List UInt8} (wrote : Wrote s m start bytes later)
    (world : World all m s rest) (able : ∀ i < bytes.length, s.Open ((start + i) / 4096))
    {page : Page symbols} (outside : page ∉ all) : m.Same later page := by
  intro offset below
  apply wrote.others
  intro i inside equal
  obtain ⟨other, held⟩ := world.open_backed (able i inside)
  have different : page ≠ other := by
    rintro rfl
    exact outside (world.has_all held)
  have apart := Page.apart different
  rw [Space.place, held.2.2] at equal
  omega

namespace Prepared

variable {bytes : List UInt8} {va : UInt32}

theorem stack_open (prepared : Prepared all m s rest n sz) : s.Open (n + 1) := by
  obtain ⟨page, entry⟩ := prepared.stack
  have user := prepared.user
  refine ⟨by omega, ?_⟩
  rw [entry]
  exact userEntry_accessible page

/-- The pages up to the stack have page tables. -/
theorem table_ne (prepared : Prepared all m s rest n sz) {i : Nat} (below : i ≤ n + 1) :
    s.table (i / 1024) ≠ none := by
  have there : ∀ i, Accessible (s.pte i) → s.table (i / 1024) ≠ none := by
    intro i accessible none
    rw [s.absent i none] at accessible
    exact not_present_zero accessible.1
  obtain program | rfl | rfl : i < n ∨ i = n ∨ i = n + 1 := by omega
  · exact there i (prepared.program i program)
  · exact prepared.guardTable
  · exact there _ prepared.stack_open.2

/-- Bytes for the stack page are copied. -/
theorem copyout_stack (prepared : Prepared all m s rest n sz)
    (low : 4096 * (n + 1) ≤ va.toNat) (high : va.toNat + bytes.length ≤ 4096 * (n + 2)) :
    ∃ reads later, copyout s.dir.addr va bytes m = .done (0, reads) later ∧
      Wrote s m va.toNat bytes later := by
  have page : ∀ i < bytes.length, (va.toNat + i) / 4096 = n + 1 := by
    intro i inside
    omega
  obtain ⟨count, most, opens, ends⟩ := prepared.world.copyoutFrom_ends prepared.supervised va []
    (Nat.lt_succ_self bytes.length)
  obtain ⟨result, seen, later, ran, -, wrote, decides⟩ | ⟨short, none, -⟩ := ends
  · obtain ⟨rfl, rfl⟩ | ⟨-, short, unable, -⟩ := decides
    · rw [List.take_length] at wrote
      exact ⟨seen, later, ran, wrote⟩
    · rw [page count short] at unable
      exact absurd prepared.stack_open.2 unable
  · rw [page count short] at none
    exact absurd none (prepared.table_ne (Nat.le_refl _))

/-- Bytes of which the user cannot use some are not copied in full. -/
theorem copyout_refused (prepared : Prepared all m s rest n sz) {t : Nat}
    (inside : t < bytes.length) (unable : ¬Accessible (s.pte ((va.toNat + t) / 4096)))
    (tables : ∀ i ≤ t, s.table ((va.toNat + i) / 4096 / 1024) ≠ none) :
    ∃ reads later, copyout s.dir.addr va bytes m = .done (-1, reads) later ∧
      World all later s rest ∧ ∀ page, page ∉ all → m.Same later page := by
  obtain ⟨count, most, opens, ends⟩ := prepared.world.copyoutFrom_ends prepared.supervised va []
    (Nat.lt_succ_self bytes.length)
  have early : count ≤ t := by
    by_contra past
    exact unable (opens t (by omega)).2
  obtain ⟨result, seen, later, ran, -, wrote, decides⟩ | ⟨-, none, -⟩ := ends
  · obtain ⟨-, everything⟩ | ⟨rfl, -⟩ := decides
    · omega
    · have able : ∀ i < (bytes.take count).length, s.Open ((va.toNat + i) / 4096) := by
        intro i within
        rw [List.length_take_of_le most] at within
        exact opens i within
      exact ⟨seen, later, ran, wrote.world prepared.world able,
        fun page outside => same_wrote wrote prepared.world able outside⟩
  · exact absurd none (tables count early)

/-- Bytes that reach down into the guard page, or below it. -/
theorem copyout_guard (prepared : Prepared all m s rest n sz)
    (low : va.toNat < 4096 * (n + 1)) (reaches : 4096 * (n + 1) - 4 < va.toNat + bytes.length)
    (high : va.toNat + bytes.length ≤ 4096 * (n + 2)) (aligned : va.toNat % 4 = 0) :
    ∃ reads later, copyout s.dir.addr va bytes m = .done (-1, reads) later ∧
      World all later s rest ∧ ∀ page, page ∉ all → m.Same later page := by
  obtain ⟨t, inside, here⟩ : ∃ t < bytes.length, (va.toNat + t) / 4096 = n := by
    by_cases guard : 4096 * n ≤ va.toNat
    · exact ⟨0, by omega, by omega⟩
    · exact ⟨4096 * n - va.toNat, by omega, by omega⟩
  refine prepared.copyout_refused inside (here ▸ prepared.guard) ?_
  intro i before
  exact prepared.table_ne (by omega)

/-- Bytes for the kernel's part of the address space. -/
theorem copyout_kernel (prepared : Prepared all m s rest n sz) (nonempty : 0 < bytes.length)
    (kernel : kernbase ≤ va) (mapped : ¬(kernbase + phystop ≤ va ∧ va < devspace)) :
    ∃ reads later, copyout s.dir.addr va bytes m = .done (-1, reads) later ∧
      World all later s rest ∧ ∀ page, page ∉ all → m.Same later page := by
  have bound := va.toNat_lt
  rw [UInt32.le_iff_toNat_le, toNat_kernbase] at kernel
  rw [UInt32.le_iff_toNat_le, UInt32.lt_iff_toNat_lt, show devspace.toNat = 0xFE000000 by rfl,
    show (kernbase + phystop).toNat = 0x8E000000 by rfl] at mapped
  refine prepared.copyout_refused nonempty (prepared.supervised _ ?_) ?_
  · unfold userPages
    omega
  · intro i first
    apply prepared.kernel
    rw [kernelTables, Finset.mem_union, Finset.mem_Ico, Finset.mem_Ico]
    omega

end Prepared

/-! ## Pushing -/

namespace Prepared

/-- The user sees what was stored on the stack page, and what was there elsewhere on it. -/
theorem wrote (prepared : Prepared all m s rest n sz) {start : Nat} {bytes : List UInt8}
    (wrote : Wrote s m start bytes later) (low : 4096 * (n + 1) ≤ start)
    (high : start + bytes.length ≤ 4096 * (n + 2)) :
    Prepared all later s rest n sz ∧ (∀ page, page ∉ all → m.Same later page) ∧
      ∀ u, 4096 * (n + 1) ≤ u → u < 4096 * (n + 2) → (u < start ∨ start + bytes.length ≤ u) →
        later.memory (s.place u) = m.memory (s.place u) := by
  have able : ∀ u, 4096 * (n + 1) ≤ u → u < 4096 * (n + 2) → s.Open (u / 4096) := by
    intro u above below
    rw [show u / 4096 = n + 1 by omega]
    exact prepared.stack_open
  have open_ : ∀ i < bytes.length, s.Open ((start + i) / 4096) := fun i inside =>
    able _ (by omega) (by omega)
  refine ⟨⟨wrote.world prepared.world open_, prepared.size, prepared.user, prepared.program,
    prepared.guard, prepared.guardTable, prepared.stack, prepared.supervised, prepared.kernel⟩,
    fun page outside => same_wrote wrote prepared.world open_ outside, ?_⟩
  intro u above below apart
  apply wrote.others
  intro i inside same
  have equal := prepared.world.place_injective (able u above below) (open_ i inside) same
  omega

/-- The program stays as it is. -/
theorem wrote_program (prepared : Prepared all m s rest n sz) {start : Nat} {bytes : List UInt8}
    (wrote : Wrote s m start bytes later) (low : 4096 * (n + 1) ≤ start)
    (high : start + bytes.length ≤ 4096 * (n + 2)) {u : Nat} (program : u / 4096 < n) :
    later.memory (s.place u) = m.memory (s.place u) := by
  have user := prepared.user
  apply wrote.others
  intro i inside same
  have stack : s.Open ((start + i) / 4096) := by
    rw [show (start + i) / 4096 = n + 1 by omega]
    exact prepared.stack_open
  have equal := prepared.world.place_injective ⟨by omega, prepared.program _ program⟩ stack same
  omega

/-- A string is pushed, unless there is no room for it in the page. -/
theorem push (prepared : Prepared all m s rest n sz) {sp : UInt32}
    (low : 4096 * (n + 1) ≤ sp.toNat) (high : sp.toNat ≤ 4096 * (n + 2))
    (aligned : sp.toNat % 4 = 0) {string : CString} (mapped : ¬Unmapped (pushed sp string)) :
    (∃ reads later, copyout s.dir.addr (pushed sp string) string.stored m = .done (0, reads) later ∧
      Wrote s m (pushed sp string).toNat string.stored later ∧
      (pushed sp string).toNat + alignUp string.stored.length = sp.toNat ∧
      4096 * (n + 1) ≤ (pushed sp string).toNat) ∨
    (sp.toNat < 4096 * (n + 1) + alignUp string.stored.length ∧
      ∃ reads later, copyout s.dir.addr (pushed sp string) string.stored m =
          .done (-1, reads) later ∧
        World all later s rest ∧ ∀ page, page ∉ all → m.Same later page) := by
  obtain ⟨length, user⟩ := string.stored_length
  have even := pushed_aligned sp string
  have rounds : string.stored.length ≤ alignUp string.stored.length ∧
      alignUp string.stored.length < string.stored.length + 4 := by
    unfold alignUp
    omega
  obtain ⟨-, address⟩ | ⟨wraps, address⟩ := toNat_pushed aligned string
  · by_cases fits : 4096 * (n + 1) ≤ (pushed sp string).toNat
    · obtain ⟨reads, later, ran, wrote⟩ := prepared.copyout_stack fits
        (show (pushed sp string).toNat + string.stored.length ≤ 4096 * (n + 2) by omega)
      exact Or.inl ⟨reads, later, ran, wrote, address, fits⟩
    · exact Or.inr ⟨by omega,
        prepared.copyout_guard (by omega) (by omega) (by omega) even⟩
  · have multiple : alignUp string.stored.length ≤ 0x80000000 := by
      unfold alignUp
      omega
    have kernel : kernbase ≤ pushed sp string := by
      rw [UInt32.le_iff_toNat_le, toNat_kernbase]
      omega
    exact Or.inr ⟨by omega, prepared.copyout_kernel (by omega) kernel mapped⟩

end Prepared

/-- The strings lie below `sp` one below the other, each at its address. -/
inductive Placed (s : Space symbols) (m : Machine) :
    UInt32 → List CString → List UInt32 → UInt32 → Prop
  | nil (sp : UInt32) : Placed s m sp [] [] sp
  | cons {sp p last : UInt32} {string : CString} {argv : List CString} {pointers : List UInt32}
      (address : p.toNat + alignUp string.stored.length = sp.toNat) (aligned : p.toNat % 4 = 0)
      (sees : Sees s m p.toNat string.stored) (rest : Placed s m p argv pointers last) :
      Placed s m sp (string :: argv) (p :: pointers) last

namespace Placed

variable {sp last : UInt32} {argv : List CString} {pointers : List UInt32}

theorem room (placed : Placed s m sp argv pointers last) :
    last.toNat + Exec.room argv = sp.toNat ∧ pointers.length = argv.length := by
  induction placed with
  | nil sp => exact ⟨rfl, rfl⟩
  | cons address aligned sees rest inductionHypothesis =>
      obtain ⟨total, length⟩ := inductionHypothesis
      rw [Exec.room, List.map_cons, List.sum_cons, ← Exec.room, List.length_cons, List.length_cons]
      omega

theorem congr (placed : Placed s m sp argv pointers last)
    (same : ∀ u, last.toNat ≤ u → u < sp.toNat →
      later.memory (s.place u) = m.memory (s.place u)) :
    Placed s later sp argv pointers last := by
  induction placed with
  | nil sp => exact .nil sp
  | @cons sp p last string argv pointers address aligned sees rest inductionHypothesis =>
      have total := rest.room.1
      have longer : string.stored.length ≤ alignUp string.stored.length := by
        unfold alignUp
        omega
      refine .cons address aligned (sees.congr fun i inside => same _ (by omega) (by omega)) ?_
      exact inductionHypothesis fun u above below => same u above (by omega)

end Placed

/-- How the loop over the strings ends. -/
structure PushesAll (all : Set (Page symbols)) (k : Kernel) (s : Space symbols)
    (rest : List (Page symbols)) (n : Nat) (sz sp : UInt32) (argv : List CString)
    (last : UInt32) (pointers : List UInt32) (later : Machine) : Prop where
  prepared : Prepared all later s rest n sz
  placed : Placed s later sp argv pointers last
  low : 4096 * (n + 1) ≤ last.toNat
  aligned : last.toNat % 4 = 0
  outside : ∀ page, page ∉ all → k.machine.Same later page
  above : ∀ u, sp.toNat ≤ u → u < 4096 * (n + 2) →
    later.memory (s.place u) = k.machine.memory (s.place u)
  program : ∀ u, u / 4096 < n → later.memory (s.place u) = k.machine.memory (s.place u)

/-- All strings are pushed, or there are too many of them, or too long ones. -/
theorem pushStrings_ends {page : UInt32} (start : page.toNat = 4096 * (n + 1))
    (argv : List CString) {k : Kernel} {sp : UInt32} {ustack : List UInt32}
    (prepared : Prepared all k.machine s rest n sz)
    (low : 4096 * (n + 1) ≤ sp.toNat) (high : sp.toNat ≤ 4096 * (n + 2))
    (aligned : sp.toNat % 4 = 0) (few : ustack.length ≤ maxarg)
    (mapped : ¬Strays page ustack.length sp argv) :
    (ustack.length + argv.length ≤ maxarg ∧
      ∃ last pointers later, pushStrings s.dir.addr argv sp ustack k =
          .done (some (last, ustack ++ pointers)) { k with machine := later } ∧
        PushesAll all k s rest n sz sp argv last pointers later) ∨
    ((maxarg < ustack.length + argv.length ∨ sp.toNat < 4096 * (n + 1) + room argv) ∧
      ∃ later, pushStrings s.dir.addr argv sp ustack k = .done none { k with machine := later } ∧
        World all later s rest ∧ ∀ page, page ∉ all → k.machine.Same later page) := by
  induction argv generalizing k sp ustack with
  | nil =>
      refine Or.inl ⟨few, sp, [], k.machine, ?_, prepared, .nil sp, low, aligned,
        fun page _ => Machine.Same.refl _ page, fun _ _ _ => rfl, fun _ _ => rfl⟩
      rw [List.append_nil]
      rfl
  | cons string argv inductionHypothesis =>
      rw [Strays] at mapped
      by_cases many : maxarg ≤ ustack.length
      · refine Or.inr ⟨Or.inl ?_, k.machine, ?_, prepared.world,
          fun page _ => Machine.Same.refl _ page⟩
        · rw [List.length_cons]
          omega
        · rw [pushStrings, if_pos many]
          rfl
      have more : ustack.length < maxarg := Nat.lt_of_not_le many
      have mappedHere : ¬Unmapped (pushed sp string) := fun stray => mapped ⟨more, Or.inl stray⟩
      rw [pushStrings, if_neg many]
      obtain ⟨reads, middle, ran, wrote, address, above⟩ |
        ⟨full, reads, middle, ran, world, same⟩ := prepared.push low high aligned mappedHere
      · have longer : string.stored.length ≤ alignUp string.stored.length := by
          unfold alignUp
          omega
        obtain ⟨ready, same, others⟩ := prepared.wrote wrote above (by omega)
        have lower : page ≤ pushed sp string ∧ pushed sp string ≤ sp := by
          rw [UInt32.le_iff_toNat_le, UInt32.le_iff_toNat_le]
          omega
        have mappedRest : ¬Strays page (ustack ++ [pushed sp string]).length (pushed sp string)
            argv := by
          rw [List.length_append, List.length_singleton]
          exact fun stray => mapped ⟨more, Or.inr ⟨lower, stray⟩⟩
        rw [onMachine_done ran, if_neg (show ¬(0 : Int) < 0 by decide)]
        obtain ⟨count, last, pointers, final, done, pushes⟩ |
          ⟨reason, final, failed, world, again⟩ := inductionHypothesis (k := { k with machine := middle }) ready above (by omega)
            (pushed_aligned sp string)
            (by
              rw [List.length_append, List.length_singleton]
              exact more) mappedRest
        · rw [List.length_append, List.length_singleton] at count
          refine Or.inl ⟨?_, last, pushed sp string :: pointers, final, ?_, pushes.prepared,
            ?_, pushes.low, pushes.aligned,
            fun page outside => (same page outside).trans (pushes.outside page outside), ?_, ?_⟩
          · rw [List.length_cons]
            omega
          · rw [done, List.append_assoc]
            rfl
          · refine .cons address (pushed_aligned sp string) ?_ pushes.placed
            intro i inside
            rw [pushes.above _ (by omega) (by omega)]
            exact wrote.written i inside
          · intro u up below
            rw [pushes.above u (by omega) below]
            exact others u (by omega) below (Or.inr (by omega))
          · intro u below
            rw [pushes.program u below]
            exact prepared.wrote_program wrote above (by omega) below
        · rw [List.length_append, List.length_singleton] at reason
          refine Or.inr ⟨?_, final, failed, world,
            fun page outside => (same page outside).trans (again page outside)⟩
          rw [List.length_cons, room, List.map_cons, List.sum_cons, ← room]
          omega
      · rw [onMachine_done ran, if_pos (show (-1 : Int) < 0 by decide)]
        refine Or.inr ⟨Or.inr ?_, middle, rfl, world, same⟩
        rw [room, List.map_cons, List.sum_cons]
        omega

end Xv6.Exec
