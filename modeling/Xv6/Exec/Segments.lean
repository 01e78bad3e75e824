import Xv6.Exec.Image
import Xv6.Vm.Copyout
import Xv6.Vm.Exhausted

/-!
# Loading segments

What the loops of `loaduvm` and `exec` leave in the new address space: the pages
below the size are mapped, and their bytes are those of the segments loaded so
far, one stored over the other, and zero elsewhere.
-/

namespace Xv6.Exec

open Xv6.Library Xv6.Fs Xv6.Vm

variable {symbols : Symbols} {consoleread : Int → Int × List UInt8} {k : Kernel}
  {ip : InodePtr} {array : List UInt8} {all : Set (Page symbols)} {m : Machine}
  {s : Space symbols} {free : List (Page symbols)}

/-! ## Reading the file -/

/-- The inode is read and has the bytes `array`. -/
structure Reading (fs : FsState) (ip : InodePtr) (array : List UInt8) : Prop where
  sound : Sound fs
  live : fs.live (fs.inode ip).inum ip = true
  file : File fs.toFileSystem (fs.inode ip).inum array

/-- A read returns what was asked for, the bytes of the file, if they are all there. -/
theorem Reading.readi {fs : FsState} (reading : Reading fs ip array) (off n : UInt32) :
    ∃ count bytes, Fs.readi consoleread ip off n fs = .done (count, bytes) fs ∧
      bytes.length ≤ n.toNat ∧ (count = n.toNat → off.toNat + n.toNat ≤ array.length ∧
        bytes = (array.drop off.toNat).take n.toNat) ∧
      (off.toNat + n.toNat ≤ array.length → count = n.toNat) := by
  have plain := reading.file.plain
  have size := reading.file.size
  rw [stat_of_live reading.sound.consistent.once reading.live] at plain size
  by_cases accepted : off.toNat ≤ array.length ∧ off.toNat + n.toNat < 2 ^ 32
  · refine ⟨_, _, readi_eq consoleread reading.sound reading.live reading.file accepted.1
      accepted.2, ?_, ?_, ?_⟩
    · rw [List.length_take]
      exact Nat.min_le_left _ _
    · intro whole
      refine ⟨?_, rfl⟩
      have inside := accepted.1
      omega
    · intro inside
      omega
  · have bounded : array.length ≤ 71680 := reading.file.bounded
    have beyond : ¬off.toNat + n.toNat ≤ array.length := by omega
    rw [← size] at accepted
    refine ⟨-1, [], readi_refuses consoleread plain accepted, Nat.zero_le _, ?_, ?_⟩
    · intro whole
      omega
    · exact fun inside => absurd inside beyond

theorem onMachine_done {First Second : Type} {action : Action Machine First}
    {next : First → Action Kernel Second} {value : First} {later : Machine}
    (done : action k.machine = .done value later) :
    (onMachine action >>= next) k = next value { k with machine := later } :=
  Action.bind_done (Action.focus_done done)

theorem onInodes_done {First Second : Type} {action : Action FsState First}
    {next : First → Action Kernel Second} {value : First} {later : FsState}
    (done : action k.fs = .done value later) :
    (onInodes action >>= next) k = next value { k with fs := later } :=
  Action.bind_done (Action.focus_done done)

/-! ## User memory -/

/-- The user's memory, by user addresses. -/
def userMemory (m : Machine) (pgdir : UInt32) : Memory := fun va => m.userByte pgdir (UInt32.ofNat va)

theorem toNat_userAddr {va limit : Nat} (below : va < 4096 * limit) (user : limit ≤ userPages) :
    (UInt32.ofNat va).toNat = va := by
  apply UInt32.toNat_ofNat_of_lt'
  rw [UInt32.size]
  unfold userPages at user
  omega

theorem userMemory_mapped (holds : m.Holds s) {va limit : Nat} {page : Page symbols}
    (below : va < 4096 * limit) (user : limit ≤ userPages)
    (mapped : s.frame (va / 4096) = page.addr) :
    userMemory m s.dir.addr va = m.byte page (va % 4096) := by
  have address := toNat_userAddr below user
  have seen : m.userByte s.dir.addr (UInt32.ofNat va) =
      m.byte page ((UInt32.ofNat va).toNat % 4096) :=
    holds.userByte (by rw [vpn, address]; exact mapped)
  rw [userMemory, seen, address]

/-- The machine with bytes stored at the start of a page. -/
def put (m : Machine) (page : Page symbols) (bytes : List UInt8) : Machine :=
  { m with memory := m.memory.write page.addr.toNat bytes }

theorem same_put {page other : Page symbols} (different : other ≠ page) {bytes : List UInt8}
    (short : bytes.length ≤ 4096) : m.Same (put m page bytes) other := by
  intro offset below
  have apart := Page.apart different
  apply Memory.write_outside
  omega

/-- Storing into a user page keeps the account. -/
theorem world_put (world : World all m s free) {n : Nat} {page : Page symbols}
    (held : s.Has (.user n) page) {bytes : List UInt8} (short : bytes.length ≤ 4096) :
    World all (put m page bytes) s free := by
  refine world.congr (fun other used => same_put ?_ short) rfl
  rintro rfl
  obtain listed | structural := used
  · exact world.has_used held listed
  · exact world.user_data held structural

/-- The user sees the bytes at the start of the virtual page. -/
theorem userMemory_put (world : World all m s free) {n va limit : Nat} {page : Page symbols}
    (held : s.Has (.user n) page) {bytes : List UInt8} (short : bytes.length ≤ 4096)
    (mapped : ∀ n < limit, ∃ page, s.Has (.user n) page) (user : limit ≤ userPages)
    (below : va < 4096 * limit) :
    userMemory (put m page bytes) s.dir.addr va =
      (userMemory m s.dir.addr).write (4096 * n) bytes va := by
  obtain ⟨other, there⟩ := mapped (va / 4096) (by omega)
  have stored := world_put world held short
  rw [userMemory_mapped stored.holds below user there.2.2]
  by_cases here : va / 4096 = n
  · have same : other = page := Space.has_only held (here ▸ there)
    rw [same] at there ⊢
    have position : va = 4096 * n + va % 4096 := by omega
    by_cases inside : va % 4096 < bytes.length
    · rw [position, Memory.write_inside _ _ inside, ← position]
      exact Memory.write_inside _ _ inside
    · rw [Memory.write_outside _ _ (by omega),
        userMemory_mapped world.holds below user there.2.2]
      exact Memory.write_outside _ _ (by omega)
  · have different : other ≠ page := by
      rintro rfl
      have places := world.accounts.owned.once (.user (va / 4096)) (.user n) other there held
      injection places with same
      exact here same
    rw [Memory.write_outside _ _ (by omega),
      userMemory_mapped world.holds below user there.2.2]
    exact same_put different short (va % 4096) (Nat.mod_lt _ (by decide))

/-! ## loaduvm -/

/-- The part of the file for a chunk and what comes after it. -/
theorem take_chunk (array : List UInt8) (off total n : Nat) (within : n ≤ total) :
    (array.drop off).take total =
      (array.drop off).take n ++ (array.drop (off + n)).take (total - n) := by
  rw [← List.drop_drop, ← List.take_add, Nat.add_sub_cancel' within]

theorem table_of_user {n : Nat} {page : Page symbols} (held : s.Has (.user n) page) :
    ∃ table, s.table (n / 1024) = some table := by
  obtain none | there := Option.eq_none_or_eq_some (s.table (n / 1024))
  · have present := held.2.1
    rw [s.absent n none] at present
    exact absurd present not_present_zero
  · exact there

/-- The entry of a page that is mapped for the user. -/
theorem walk_user (holds : m.Holds s) {va : UInt32} {page : Page symbols}
    (held : s.Has (.user (vpn va)) page) :
    ∃ pte entry, walkpgdir s.dir.addr va false m = .done pte m ∧ pte ≠ 0 ∧
      loadWord pte m = .done entry m ∧ p2v (pteAddr entry) = page.addr := by
  obtain ⟨table, there⟩ := table_of_user held
  refine ⟨table.addr + 4 * ptx va, s.pte (vpn va), holds.walkpgdir_table there false,
    slot_ne_zero table va, ?_, held.2.2⟩
  rw [loadWord, Action.get, Page.toNat_word (toNat_ptx_lt va), World.toNat_ptx_eq,
    ← holds.entries _ table there, Machine.word]

theorem readiTo_done {off n : UInt32} {count : Int} {bytes : List UInt8}
    (read : Fs.readi consoleread ip off n k.fs = .done (count, bytes) k.fs) (page : Page symbols) :
    readiTo consoleread ip page.addr off n k =
      .done count { k with machine := put k.machine page bytes } := by
  rw [readiTo, onInodes_done read]
  rfl

/-- `loaduvm` finds every page. It stores the part of the file, or it fails where
the file is too short. -/
theorem loadFrom_loads (reading : Reading k.fs ip array) (world : World all k.machine s free)
    {addr offset sz i : UInt32} {limit fuel : Nat}
    (mapped : ∀ n < limit, ∃ page, s.Has (.user n) page) (user : limit ≤ userPages)
    (aligned : addr.toNat % 4096 = 0) (fits : addr.toNat + sz.toNat ≤ 4096 * limit)
    (whole : i.toNat % 4096 = 0) (start : i.toNat = 0 ∨ sz.toNat ≤ i.toNat ∨ offset.toNat + i.toNat ≤ array.length)
    (turn : 0 < fuel) (enough : sz.toNat + 4096 ≤ i.toNat + 4096 * fuel) :
    ∃ result later, loadFrom consoleread s.dir.addr addr ip offset sz fuel i k =
        .done result { k with machine := later } ∧ World all later s free ∧
      (∀ page, page ∉ all → k.machine.Same later page) ∧
      (result = -1 ∧ 0 < sz.toNat ∧ array.length < offset.toNat + sz.toNat ∨
        result = 0 ∧ (i.toNat < sz.toNat → offset.toNat + sz.toNat ≤ array.length) ∧
        ∀ va < 4096 * limit, userMemory later s.dir.addr va =
          (userMemory k.machine s.dir.addr).write (addr.toNat + i.toNat)
            ((array.drop (offset.toNat + i.toNat)).take (sz.toNat - i.toNat)) va) := by
  have top : limit ≤ 524288 := user
  induction fuel generalizing k i with
  | zero => cases turn
  | succ fuel inductionHypothesis =>
      by_cases more : i < sz
      · have below := UInt32.lt_iff_toNat_lt.mp more
        have address : (addr + i).toNat = addr.toNat + i.toNat := by
          rw [UInt32.toNat_add]
          omega
        have number : vpn (addr + i) = (addr.toNat + i.toNat) / 4096 := by
          rw [vpn, address]
        obtain ⟨page, held⟩ := mapped (vpn (addr + i)) (by omega)
        obtain ⟨pte, entry, walked, nonzero, loaded, frame⟩ := walk_user world.holds held
        have difference : (sz - i).toNat = sz.toNat - i.toNat := 
          UInt32.toNat_sub_of_le _ _ (UInt32.le_of_lt more)
        generalize chunk : (if sz - i < pgsize then sz - i else pgsize) = n
        have length : n.toNat = min (sz.toNat - i.toNat) 4096 := by
          rw [← chunk]
          split
          · rename_i less
            rw [UInt32.lt_iff_toNat_lt, difference, toNat_pgsize] at less
            omega
          · rename_i less
            rw [UInt32.lt_iff_toNat_lt, difference, toNat_pgsize] at less
            rw [toNat_pgsize]
            omega
        obtain ⟨count, bytes, read, short, complete, returns⟩ := reading.readi (offset + i) n
        have position : (offset + i).toNat = offset.toNat + i.toNat := by
          have bounded : array.length ≤ 71680 := reading.file.bounded
          have small := offset.toNat_lt
          rw [UInt32.toNat_add]
          omega
        have stored := world_put world held (show bytes.length ≤ 4096 by omega)
        have others : ∀ page', page' ∉ all → k.machine.Same (put k.machine page bytes) page' := by
          intro other outside
          refine same_put ?_ (by omega)
          rintro rfl
          exact outside (world.has_all held)
        have step : loadFrom consoleread s.dir.addr addr ip offset sz (fuel + 1) i k =
            (if count ≠ n.toNat then return -1
              else loadFrom consoleread s.dir.addr addr ip offset sz fuel (i + pgsize))
            { k with machine := put k.machine page bytes } := by
          rw [loadFrom, if_pos more, onMachine_done walked, if_neg nonzero, onMachine_done loaded]
          simp only [chunk, frame]
          exact Action.bind_done (readiTo_done read page)
        rw [step]
        by_cases less : count ≠ n.toNat
        · rw [if_pos less]
          refine ⟨-1, _, rfl, stored, others, Or.inl ⟨rfl, by omega, ?_⟩⟩
          by_contra inside
          exact less (returns (by omega))
        · obtain ⟨inside, content⟩ := complete (not_not.mp less)
          have next : (i + pgsize).toNat = i.toNat + 4096 := by
            rw [UInt32.toNat_add, toNat_pgsize]
            omega
          rw [position] at inside content
          have filled : bytes.length = n.toNat := by
            rw [content, List.length_take, List.length_drop]
            omega
          obtain ⟨result, last, ran, holding, kept, ends⟩ :=
            inductionHypothesis (k := { k with machine := put k.machine page bytes })
              (i := i + pgsize) reading stored (by omega) (by omega) (by omega) (by omega)
          rw [if_neg less]
          refine ⟨result, last, ran, holding, fun other outside =>
            (others other outside).trans (kept other outside), ?_⟩
          obtain failed | ⟨zero, rest, loaded⟩ := ends
          · exact Or.inl failed
          · refine Or.inr ⟨zero, fun _ => by omega, ?_⟩
            intro va inRange
            rw [loaded va inRange, next]
            have seen : userMemory (put k.machine page bytes) s.dir.addr va =
                (userMemory k.machine s.dir.addr).write (addr.toNat + i.toNat) bytes va := by
              rw [userMemory_put world held (by omega) mapped user inRange, number,
                show 4096 * ((addr.toNat + i.toNat) / 4096) = addr.toNat + i.toNat by omega]
            rw [Memory.write_congr seen, take_chunk array (offset.toNat + i.toNat)
              (sz.toNat - i.toNat) n.toNat (by omega), ← content]
            by_cases last : sz.toNat - i.toNat ≤ 4096
            · rw [show sz.toNat - (i.toNat + 4096) = 0 by omega,
                show sz.toNat - i.toNat - n.toNat = 0 by omega, List.take_zero, List.take_zero,
                Memory.write_nil, List.append_nil]
            · have full : n.toNat = 4096 := by omega
              rw [Memory.write_next _ (by omega), full, Nat.sub_sub, Nat.add_assoc]
      · have past : sz.toNat ≤ i.toNat := by
          rw [UInt32.lt_iff_toNat_lt] at more
          omega
        refine ⟨0, k.machine, ?_, world, fun page _ => Machine.Same.refl _ page,
          Or.inr ⟨rfl, fun less => absurd less (Nat.not_lt.mpr past), ?_⟩⟩
        · rw [loadFrom, if_neg more]
          rfl
        · intro va _
          rw [Nat.sub_eq_zero_of_le past, List.take_zero, Memory.write_nil]

/-! ## The new address space -/

/-- The pages below the size are mapped for the user, and hold `image`. The kernel's part is as
`setupkvm` made it. -/
structure Loaded (all : Set (Page symbols)) (m : Machine) (s : Space symbols)
    (free : List (Page symbols)) (sz : UInt32) (image : Memory) : Prop where
  world : World all m s free
  small : sz < kernbase
  entries : ∀ n < pages sz, ∃ page : Page symbols, s.pte n = userEntry page
  above : ∀ n, pages sz ≤ n → n < userPages → ¬Present (s.pte n)
  bytes : ∀ va < 4096 * pages sz, userMemory m s.dir.addr va = image va
  blank : ∀ va, 4096 * pages sz ≤ va → image va = 0
  supervised : s.Supervised
  tables : ∀ i, s.table i ≠ none ↔ i ∈ kernelTables ∨ 1024 * i < pages sz

theorem pages_user {sz : UInt32} (small : sz < kernbase) : pages sz ≤ userPages := by
  have bound : sz.toNat < 0x80000000 := UInt32.lt_iff_toNat_lt.mp small
  unfold pages userPages
  omega

theorem pages_mono {sz larger : UInt32} (order : sz ≤ larger) : pages sz ≤ pages larger := by
  rw [UInt32.le_iff_toNat_le] at order
  unfold pages
  omega

theorem copyNeeds_mono {count more : Nat} (order : count ≤ more) :
    copyNeeds count ≤ copyNeeds more := by
  unfold copyNeeds
  omega

theorem has_userEntry {n : Nat} {page : Page symbols} (user : n < userPages)
    (entry : s.pte n = userEntry page) : s.Has (.user n) page := by
  refine ⟨user, ?_, ?_⟩
  · rw [entry]
    exact userEntry_present page
  · rw [Space.frame, entry]
    exact userEntry_frame page

namespace Loaded

variable {sz : UInt32} {image : Memory}

theorem mapped (loaded : Loaded all m s free sz image) {n : Nat} (below : n < pages sz) :
    ∃ page, s.Has (.user n) page := by
  obtain ⟨page, entry⟩ := loaded.entries n below
  exact ⟨page, has_userEntry (Nat.lt_of_lt_of_le below (pages_user loaded.small)) entry⟩

theorem kernel (loaded : Loaded all m s free sz image) : ∀ i ∈ kernelTables, s.table i ≠ none :=
  fun i member => (loaded.tables i).mpr (Or.inl member)

theorem tables_grown (loaded : Loaded all m s free sz image) {hi : Nat} {later : Machine}
    {next : Space symbols} {rest : List (Page symbols)}
    (grown : Grown (pages sz) hi m s free later next rest) (i : Nat) :
    next.table i ≠ none ↔ i ∈ kernelTables ∨ 1024 * i < max (pages sz) hi := by
  rw [grown.tables i, loaded.tables i, or_assoc]
  refine or_congr_right ⟨?_, ?_⟩
  · rintro (below | ⟨k, after, before, number⟩) <;> omega
  · intro below
    by_cases old : 1024 * i < pages sz
    · exact Or.inl old
    · exact Or.inr ⟨1024 * i, by omega, by omega, by omega⟩

theorem present_grown (loaded : Loaded all m s free sz image) {hi : Nat} {later : Machine}
    {next : Space symbols} {rest : List (Page symbols)}
    (grown : Grown (pages sz) hi m s free later next rest) {n : Nat} (user : n < userPages) :
    Present (next.pte n) ↔ n < max (pages sz) hi := by
  constructor
  · intro present
    by_contra outside
    rw [grown.kept n (by omega)] at present
    exact loaded.above n (by omega) user present
  · intro below
    by_cases old : n < pages sz
    · obtain ⟨page, entry⟩ := loaded.entries n old
      rw [grown.kept n (by omega), entry]
      exact userEntry_present page
    · obtain ⟨page, -, entry, -⟩ := grown.mapped n (by omega) (by omega)
      rw [entry]
      exact userEntry_present page

section Count

variable {listed : List (Page symbols)}

/-- The pages that the new address space has taken from the free list. -/
theorem count (loaded : Loaded {page | page ∈ listed} m s free sz image) (nodup : listed.Nodup) :
    listed.length = free.length + copyNeeds (pages sz) := by
  have same : Grown (pages sz) (pages sz) m s free m s free := Grown.none (Nat.le_refl _) m s free
  refine loaded.world.count_mapped nodup (pages_user loaded.small) loaded.tables ?_
  intro n user
  rw [loaded.present_grown same user, Nat.max_self]

/-- Where the free pages run out there were too few from the beginning. -/
theorem few (loaded : Loaded {page | page ∈ listed} m s free sz image) (nodup : listed.Nodup)
    {newsz : UInt32} (small : newsz < kernbase)
    (ranOut : RanOut (pages sz) (pages newsz) {page | page ∈ listed} m s free) :
    listed.length < copyNeeds (pages newsz) := by
  obtain ⟨n, middle, grown, left, after, before, world, mapped, short⟩ := ranOut
  have top := pages_user small
  have most : max (pages sz) n = n := Nat.max_eq_right after
  have tables : ∀ i, grown.table i ≠ none ↔ i ∈ kernelTables ∨ 1024 * i < n := by
    intro i
    rw [loaded.tables_grown mapped i, most]
  have counted := world.count_mapped nodup (by omega) tables (by
    intro k user
    rw [loaded.present_grown mapped user, most])
  have larger : copyNeeds (n + 1) ≤ copyNeeds (pages newsz) := copyNeeds_mono before
  obtain none | ⟨single, absent⟩ := short
  · unfold copyNeeds at *
    omega
  · -- The page needs another page table.
    have start : ¬1024 * (n / 1024) < n := fun below =>
      (tables (n / 1024)).mpr (Or.inr below) absent
    unfold copyNeeds at *
    omega

end Count

/-- A step that maps more pages keeps what the pages below hold. -/
theorem userMemory_grows (loaded : Loaded all m s free sz image) {later : Machine}
    {next : Space symbols} {rest : List (Page symbols)} (holds : later.Holds next)
    (grows : Grows m s free later next rest) (kept : ∀ n < pages sz, next.pte n = s.pte n)
    {va : Nat} (below : va < 4096 * pages sz) :
    userMemory later next.dir.addr va = userMemory m s.dir.addr va := by
  obtain ⟨page, held⟩ := loaded.mapped (show va / 4096 < pages sz by omega)
  have user := pages_user loaded.small
  have still : next.frame (va / 4096) = page.addr := by
    rw [Space.frame, kept _ (by omega)]
    exact held.2.2
  rw [userMemory_mapped holds below user still,
    userMemory_mapped loaded.world.holds below user held.2.2]
  exact grows.same page (loaded.world.has_used held) (loaded.world.user_data held) _
    (Nat.mod_lt _ (by decide))

/-- New pages are clear, as `image` is above the size. -/
theorem grown (loaded : Loaded all m s free sz image) {newsz : UInt32} {later : Machine}
    {next : Space symbols} {rest : List (Page symbols)} (small : newsz < kernbase)
    (holding : World all later next rest)
    (grown : Grown (pages sz) (pages newsz) m s free later next rest) :
    Loaded all later next rest (if newsz < sz then sz else newsz) image := by
  generalize size : (if newsz < sz then sz else newsz) = value
  have below : value < kernbase := by
    rw [← size]
    split
    · exact loaded.small
    · exact small
  have count : pages value = max (pages sz) (pages newsz) := by
    rw [← size]
    split
    · rename_i smaller
      have order := UInt32.lt_iff_toNat_lt.mp smaller
      unfold pages
      omega
    · rename_i larger
      have order := UInt32.le_iff_toNat_le.mp (UInt32.not_lt.mp larger)
      unfold pages
      omega
  refine ⟨holding, below, ?_, ?_, ?_, ?_, ?_, ?_⟩
  · intro n inside
    by_cases old : n < pages sz
    · rw [grown.kept n (by omega)]
      exact loaded.entries n old
    · obtain ⟨page, -, entry, -⟩ := grown.mapped n (by omega) (by omega)
      exact ⟨page, entry⟩
  · intro n after user
    rw [grown.kept n (by omega)]
    exact loaded.above n (by omega) user
  · intro va inside
    by_cases old : va < 4096 * pages sz
    · rw [loaded.userMemory_grows holding.holds grown.grows
        (fun n before => grown.kept n (by omega)) old]
      exact loaded.bytes va old
    · obtain ⟨page, -, entry, zero⟩ := grown.mapped (va / 4096) (by omega) (by omega)
      have mapped := has_userEntry (show va / 4096 < userPages by
        have top := pages_user below
        omega) entry
      rw [userMemory_mapped holding.holds inside (pages_user below) mapped.2.2,
        zero _ (Nat.mod_lt _ (by decide)), loaded.blank va (by omega)]
  · intro va after
    exact loaded.blank va (by omega)
  · intro n kernel
    have top := pages_user small
    rw [grown.kept n (by omega)]
    exact loaded.supervised n kernel
  · intro i
    rw [loaded.tables_grown grown i, count]

/-- `allocuvm` maps cleared pages, or fails; no page it needs is mapped already. -/
theorem allocuvm (loaded : Loaded all m s free sz image) (newsz : UInt32) :
    ∃ value later next rest, allocuvm symbols s.dir.addr sz newsz m = .done value later ∧
      World all later next rest ∧ next.dir = s.dir ∧ (∀ page, page ∉ all → m.Same later page) ∧
      (value ≠ 0 → Loaded all later next rest value image ∧ sz ≤ value ∧ newsz ≤ value ∧
        newsz < kernbase ∧ value = if newsz < sz then sz else newsz) ∧
      (value = 0 → kernbase ≤ newsz ∨ (if newsz < sz then sz else newsz) = 0 ∨
        RanOut (pages sz) (pages newsz) all m s free) := by
  by_cases kernel : kernbase ≤ newsz
  · refine ⟨0, m, s, free, ?_, loaded.world, rfl, fun page _ => Machine.Same.refl m page,
      fun nonzero => absurd rfl nonzero, fun _ => Or.inl kernel⟩
    rw [Vm.allocuvm, if_pos kernel]
    rfl
  have user := pages_user (UInt32.not_le.mp kernel)
  obtain ⟨-, n, after, before, present⟩ | ⟨value, later, next, rest, ran, holding, dir, result⟩ :=
    loaded.world.allocuvm sz newsz
  · exact absurd present (loaded.above n after (by omega))
  · refine ⟨value, later, next, rest, ran, holding, dir, ?_, ?_, ?_⟩
    · intro page outside
      obtain ⟨-, -, grown⟩ | ⟨-, -, same⟩ := result
      · exact loaded.world.same_outside grown.grows outside
      · exact same page outside
    · intro nonzero
      obtain ⟨small, valued, grown⟩ | ⟨zero, -⟩ := result
      · subst valued
        refine ⟨loaded.grown small holding grown, ?_, ?_, small, rfl⟩
        · split
          · exact UInt32.le_refl _
          · rename_i larger
            exact UInt32.not_lt.mp larger
        · split
          · rename_i smaller
            exact UInt32.le_of_lt smaller
          · exact UInt32.le_refl _
      · exact absurd zero nonzero
    · intro zero
      obtain ⟨-, valued, -⟩ | ⟨-, reason, -⟩ := result
      · exact Or.inr (Or.inl (valued ▸ zero))
      · exact reason.imp_right Or.inr

/-- Loading a segment stores its part of the file. -/
theorem loaduvm (loaded : Loaded all k.machine s free sz image) (reading : Reading k.fs ip array)
    {addr offset count : UInt32} (aligned : addr.toNat % 4096 = 0)
    (inside : addr.toNat + count.toNat ≤ sz.toNat) :
    ∃ result later, Exec.loaduvm consoleread s.dir.addr addr ip offset count k =
        .done result { k with machine := later } ∧ World all later s free ∧
      (∀ page, page ∉ all → k.machine.Same later page) ∧
      (result = -1 ∧ ((array.drop offset.toNat).take count.toNat).length ≠ count.toNat ∨
        result = 0 ∧ ((array.drop offset.toNat).take count.toNat).length = count.toNat ∧
        Loaded all later s free sz
          (image.write addr.toNat ((array.drop offset.toNat).take count.toNat))) := by
  have low : sz.toNat ≤ 4096 * pages sz := by
    unfold pages
    omega
  have step : Exec.loaduvm consoleread s.dir.addr addr ip offset count k =
      loadFrom consoleread s.dir.addr addr ip offset count turns 0 k := by
    rw [Exec.loaduvm, if_neg]
    rw [not_not, ← UInt32.toNat_inj, UInt32.toNat_mod]
    exact aligned
  have bound := count.toNat_lt
  have zero : (0 : UInt32).toNat = 0 := rfl
  obtain ⟨result, later, ran, world, same, ends⟩ := loadFrom_loads (i := 0) reading loaded.world
    (fun n below => loaded.mapped below) (pages_user loaded.small) aligned
    (show addr.toNat + count.toNat ≤ 4096 * pages sz by omega) (by decide) (Or.inl zero)
    (show 0 < turns by decide) (show count.toNat + 4096 ≤ (0 : UInt32).toNat + 4096 * turns by
      unfold turns npdentries nptentries
      omega)
  refine ⟨result, later, step.trans ran, world, same, ?_⟩
  obtain ⟨failed, some, beyond⟩ | ⟨done, whole, bytes⟩ := ends
  · refine Or.inl ⟨failed, ?_⟩
    rw [List.length_take, List.length_drop]
    omega
  · have length : ((array.drop offset.toNat).take count.toNat).length = count.toNat := by
      rw [List.length_take, List.length_drop]
      omega
    refine Or.inr ⟨done, length, world, loaded.small, loaded.entries, loaded.above, ?_, ?_,
      loaded.supervised, loaded.tables⟩
    · intro va below
      rw [bytes va below, zero, Nat.add_zero, Nat.add_zero, Nat.sub_zero]
      exact Memory.write_congr (loaded.bytes va below) _ _
    · intro va after
      rw [Memory.write_outside _ _ (by omega)]
      exact loaded.blank va after

end Loaded

/-! ## The program headers -/

/-- The program headers from `off` on. -/
def headers (array : List UInt8) (off count : Nat) : List Proghdr :=
  (List.range count).map fun i => proghdr ((array.drop (off + 32 * i)).take 32)

/-- The segments that are loaded. -/
def loadable (array : List UInt8) (off count : Nat) : List Proghdr :=
  (headers array off count).filter fun ph => ph.type = elfProgLoad

/-- Where the segment is stored, and its part of the file. -/
def segment (array : List UInt8) (ph : Proghdr) : Nat × List UInt8 :=
  (ph.vaddr.toNat, (array.drop ph.off.toNat).take ph.filesz.toNat)

theorem headers_succ (array : List UInt8) (off count : Nat) :
    headers array off (count + 1) =
      proghdr ((array.drop off).take 32) :: headers array (off + 32) count := by
  simp only [headers, List.range_succ_eq_map, List.map_cons, List.map_map, Function.comp_def,
    Nat.mul_zero, Nat.add_zero, Nat.mul_add, Nat.mul_one, Nat.succ_eq_add_one]
  congr 2
  funext i
  rw [Nat.add_comm (32 * i), Nat.add_assoc]

theorem loadable_skip {off count : Nat}
    (other : (proghdr ((array.drop off).take 32)).type ≠ elfProgLoad) :
    loadable array off (count + 1) = loadable array (off + 32) count := by
  rw [loadable, headers_succ, List.filter_cons_of_neg (by simpa using other)]
  rfl

theorem loadable_cons {off count : Nat}
    (load : (proghdr ((array.drop off).take 32)).type = elfProgLoad) :
    loadable array off (count + 1) =
      proghdr ((array.drop off).take 32) :: loadable array (off + 32) count := by
  rw [loadable, headers_succ, List.filter_cons_of_pos (by simpa using load)]
  rfl

/-- What the checks of `exec` make sure of. -/
structure Fits (array : List UInt8) (sz : UInt32) (ph : Proghdr) : Prop where
  file : ph.filesz.toNat ≤ ph.memsz.toNat
  length : (segment array ph).2.length = ph.filesz.toNat
  inside : ph.vaddr.toNat + ph.memsz.toNat ≤ sz.toNat

/-- The size after a segment. -/
def grownTo (sz : UInt32) (ph : Proghdr) : UInt32 :=
  if ph.vaddr + ph.memsz < sz then sz else ph.vaddr + ph.memsz

/-- A segment that `exec` accepts when the size is `sz`. -/
structure Accepted (array : List UInt8) (sz : UInt32) (ph : Proghdr) : Prop where
  file : ph.filesz.toNat ≤ ph.memsz.toNat
  user : ph.vaddr.toNat + ph.memsz.toNat < 0x80000000
  nonempty : grownTo sz ph ≠ 0
  aligned : ph.vaddr.toNat % 4096 = 0
  length : (segment array ph).2.length = ph.filesz.toNat

/-- The segments are accepted one after the other. -/
def Accepts (array : List UInt8) : UInt32 → List Proghdr → Prop
  | _, [] => True
  | sz, ph :: phs => Accepted array sz ph ∧ Accepts array (grownTo sz ph) phs

/-- The file has all the program headers. -/
def HeadersInside (array : List UInt8) (off count : Nat) : Prop :=
  count = 0 ∨ off + 32 * count ≤ array.length

instance (array : List UInt8) (off count : Nat) : Decidable (HeadersInside array off count) :=
  inferInstanceAs (Decidable (_ ∨ _))

theorem headersInside_succ {off count : Nat} (first : off + 32 ≤ array.length) :
    HeadersInside array off (count + 1) ↔ HeadersInside array (off + 32) count := by
  unfold HeadersInside
  omega

theorem le_grownTo (sz : UInt32) (ph : Proghdr) :
    sz ≤ grownTo sz ph ∧ ph.vaddr + ph.memsz ≤ grownTo sz ph := by
  rw [grownTo]
  split
  · rename_i smaller
    exact ⟨UInt32.le_refl _, UInt32.le_of_lt smaller⟩
  · rename_i larger
    exact ⟨UInt32.not_lt.mp larger, UInt32.le_refl _⟩

theorem le_foldl_grownTo (sz : UInt32) (phs : List Proghdr) : sz ≤ phs.foldl grownTo sz := by
  induction phs generalizing sz with
  | nil => exact UInt32.le_refl sz
  | cons ph phs inductionHypothesis =>
      exact UInt32.le_trans (le_grownTo sz ph).1 (inductionHypothesis (grownTo sz ph))

section LoadsAll

variable {listed : List (Page symbols)}

/-- How the loop ends that loads the segments `phs` after `image`: it may give up, if the headers
are not all there, which is `whole`, if a segment is not accepted, or if there are too few pages. -/
def LoadsAll (listed : List (Page symbols)) (k : Kernel) (s : Space symbols) (sz : UInt32)
    (image : Memory) (array : List UInt8) (whole : Prop) (phs : List Proghdr)
    (outcome : Outcome Kernel (Option UInt32)) : Prop :=
  ∃ result later next rest, outcome = .done result { k with machine := later } ∧
    World {page | page ∈ listed} later next rest ∧ next.dir = s.dir ∧
    (∀ page, page ∉ listed → k.machine.Same later page) ∧
    (∀ final, result = some final → (sz ≤ final ∧ whole ∧ Accepts array sz phs) ∧
      Loaded {page | page ∈ listed} later next rest final
        (image.writeAll (phs.map (segment array))) ∧
      (∀ ph ∈ phs, Fits array final ph) ∧ final = phs.foldl grownTo sz) ∧
    (result = none → whole → Accepts array sz phs →
      listed.length < copyNeeds (pages (phs.foldl grownTo sz)))

theorem LoadsAll.stop {sz : UInt32} {image : Memory} {whole : Prop} {phs : List Proghdr}
    {later : Machine} {next : Space symbols} {rest : List (Page symbols)}
    (world : World {page | page ∈ listed} later next rest) (dir : next.dir = s.dir)
    (same : ∀ page, page ∉ listed → k.machine.Same later page)
    (reason : whole → Accepts array sz phs →
      listed.length < copyNeeds (pages (phs.foldl grownTo sz))) :
    LoadsAll listed k s sz image array whole phs (.done none { k with machine := later }) :=
  ⟨none, later, next, rest, rfl, world, dir, same, fun _ some => (by cases some), fun _ => reason⟩

/-- One segment, and then the others. -/
theorem LoadsAll.cons {sz value : UInt32} {image : Memory} {whole : Prop} {ph : Proghdr}
    {phs : List Proghdr} {middle : Machine} {grown : Space symbols}
    {outcome : Outcome Kernel (Option UInt32)} (dir : grown.dir = s.dir)
    (same : ∀ page, page ∉ listed → k.machine.Same middle page) (larger : sz ≤ value)
    (grows : value = grownTo sz ph) (accepted : Accepted array sz ph) (fits : Fits array value ph)
    (ends : LoadsAll listed { k with machine := middle } grown value
      (image.write (segment array ph).1 (segment array ph).2) array whole phs outcome) :
    LoadsAll listed k s sz image array whole (ph :: phs) outcome := by
  obtain ⟨result, later, next, rest, ran, world, dirs, others, success, failure⟩ := ends
  refine ⟨result, later, next, rest, ran, world, dirs.trans dir,
    fun page outside => (same page outside).trans (others page outside), ?_, ?_⟩
  · intro final some
    obtain ⟨⟨order, inside, accepts⟩, loaded, all, sizes⟩ := success final some
    refine ⟨⟨UInt32.le_trans larger order, inside, accepted, grows ▸ accepts⟩, loaded, ?_, ?_⟩
    · intro other member
      obtain rfl | member := List.mem_cons.mp member
      · exact ⟨fits.file, fits.length,
          Nat.le_trans fits.inside (UInt32.le_iff_toNat_le.mp order)⟩
      · exact all other member
    · rw [List.foldl_cons, ← grows]
      exact sizes
  · intro none inside accepts
    rw [List.foldl_cons, ← grows]
    exact failure none inside (grows ▸ accepts.2)

/-- The loop loads the segments, or gives up. -/
theorem loadSegments_loads {sz off : UInt32} {image : Memory} {count : Nat}
    (nodup : listed.Nodup) (loaded : Loaded {page | page ∈ listed} k.machine s free sz image)
    (reading : Reading k.fs ip array) :
    LoadsAll listed k s sz image array (HeadersInside array off.toNat count)
      (loadable array off.toNat count)
      (loadSegments symbols consoleread s.dir.addr ip count off sz k) := by
  induction count generalizing k s free off sz image with
  | zero =>
      refine ⟨some sz, k.machine, s, free, rfl, loaded.world, rfl,
        fun page _ => Machine.Same.refl _ page, ?_, fun none => by cases none⟩
      rintro final ⟨⟩
      refine ⟨⟨UInt32.le_refl _, Or.inl rfl, trivial⟩, loaded, ?_, rfl⟩
      intro ph none
      cases none
  | succ count inductionHypothesis =>
      have unchanged : ∀ page, page ∉ listed → k.machine.Same k.machine page :=
        fun page _ => Machine.Same.refl _ page
      obtain ⟨got, bytes, read, -, complete, returns⟩ := reading.readi off proghdrSize
      have width : proghdrSize.toNat = 32 := rfl
      rw [loadSegments, onInodes_done read]
      dsimp only
      by_cases short : got ≠ proghdrSize.toNat
      · rw [if_pos short]
        refine LoadsAll.stop loaded.world rfl unchanged fun inside => ?_
        unfold HeadersInside at inside
        exact absurd (returns (by omega)) short
      rw [if_neg short]
      obtain ⟨inside, content⟩ := complete (not_not.mp short)
      rw [width] at inside content
      have next : (off + proghdrSize).toNat = off.toNat + 32 := by
        have bounded : array.length ≤ 71680 := reading.file.bounded
        rw [UInt32.toNat_add, width]
        omega
      rw [headersInside_succ inside, ← next]
      generalize header : proghdr bytes = ph
      rw [content] at header
      by_cases other : ph.type ≠ elfProgLoad
      · rw [if_pos other, loadable_skip (header ▸ other), ← next]
        exact inductionHypothesis loaded reading
      rw [if_neg other, loadable_cons (header ▸ not_not.mp other), header, ← next]
      by_cases small : ph.memsz < ph.filesz
      · rw [if_pos small]
        refine LoadsAll.stop loaded.world rfl unchanged fun _ accepts => ?_
        have file := accepts.1.file
        rw [UInt32.lt_iff_toNat_lt] at small
        omega
      rw [if_neg small]
      by_cases wraps : ph.vaddr + ph.memsz < ph.vaddr
      · rw [if_pos wraps]
        refine LoadsAll.stop loaded.world rfl unchanged fun _ accepts => ?_
        have user := accepts.1.user
        rw [UInt32.lt_iff_toNat_lt, UInt32.toNat_add] at wraps
        omega
      rw [if_neg wraps]
      have below : ph.vaddr.toNat + ph.memsz.toNat < 2 ^ 32 := by
        by_contra large
        exact wraps (lt_of_wrap (Nat.le_of_not_lt large))
      have sum : (ph.vaddr + ph.memsz).toNat = ph.vaddr.toNat + ph.memsz.toNat := by
        rw [UInt32.toNat_add, Nat.mod_eq_of_lt below]
      obtain ⟨value, middle, grown, rest, ran, holding, dir, same, success, failure⟩ :=
        loaded.allocuvm (ph.vaddr + ph.memsz)
      rw [onMachine_done ran]
      by_cases failed : value = 0
      · rw [if_pos failed]
        refine LoadsAll.stop holding dir same fun _ accepts => ?_
        have user := accepts.1.user
        obtain kernel | zero | ranOut := failure failed
        · rw [UInt32.le_iff_toNat_le, toNat_kernbase, sum] at kernel
          omega
        · exact absurd zero accepts.1.nonempty
        · refine Nat.lt_of_lt_of_le (loaded.few nodup ?_ ranOut) (copyNeeds_mono (pages_mono ?_))
          · rw [UInt32.lt_iff_toNat_lt, toNat_kernbase, sum]
            exact user
          · exact UInt32.le_trans (le_grownTo sz ph).2 (le_foldl_grownTo _ _)
      rw [if_neg failed]
      obtain ⟨mapped, larger, covers, user, grows⟩ := success failed
      by_cases misaligned : ph.vaddr % pgsize ≠ 0
      · rw [if_pos misaligned]
        refine LoadsAll.stop holding dir same fun _ accepts => ?_
        have aligned := accepts.1.aligned
        rw [ne_eq, ← UInt32.toNat_inj, UInt32.toNat_mod] at misaligned
        exact absurd aligned misaligned
      rw [if_neg misaligned]
      have aligned : ph.vaddr.toNat % 4096 = 0 := by
        rw [not_not, ← UInt32.toNat_inj, UInt32.toNat_mod] at misaligned
        exact misaligned
      have fits : ph.filesz.toNat ≤ ph.memsz.toNat :=
        UInt32.le_iff_toNat_le.mp (UInt32.not_lt.mp small)
      have ends : ph.vaddr.toNat + ph.memsz.toNat ≤ value.toNat := by
        rw [UInt32.le_iff_toNat_le, sum] at covers
        exact covers
      obtain ⟨status, stored, done, world, others, result⟩ :=
        mapped.loaduvm (k := { k with machine := middle }) reading aligned
          (show ph.vaddr.toNat + ph.filesz.toNat ≤ value.toNat by omega)
      have outside : ∀ page, page ∉ listed → k.machine.Same stored page := fun page away =>
        (same page away).trans (others page away)
      rw [← dir, Action.bind_done done]
      obtain ⟨rfl, beyond⟩ | ⟨rfl, length, now⟩ := result
      · exact LoadsAll.stop world dir outside fun _ accepts => absurd accepts.1.length beyond
      · have accepted : Accepted array sz ph := by
          rw [UInt32.lt_iff_toNat_lt, toNat_kernbase, sum] at user
          exact ⟨fits, user, fun zero => failed (grows.trans zero), aligned, length⟩
        rw [if_neg (by decide)]
        exact LoadsAll.cons dir outside larger grows accepted ⟨fits, length, ends⟩
          (inductionHypothesis now reading)

end LoadsAll

end Xv6.Exec
