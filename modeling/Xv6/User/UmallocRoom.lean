import Xv6.User.UmallocRuns
import Xv6.Vm.Resize

/-!
# malloc on the kernel

`sys_sbrk` on `growproc`. The size of a request goes through three computations: the number of
units, the number of bytes for `sbrk`, which is an `int`, and the new size of the process.
-/

namespace Xv6.Umalloc

open Xv6.Library Xv6.Vm

/-! ## The system call -/

/-- What `sbrk` uses of a process: the memory, the page directory and the size. -/
structure User where
  machine : Machine
  pgdir : UInt32
  sz : UInt32

/-- `sys_sbrk`, with the argument that `argint` has fetched. -/
def sysSbrk (symbols : Symbols) (n : Int32) : Action User UInt32 := fun user =>
  let addr := user.sz
  match growproc symbols user.pgdir user.sz n user.machine with
  | .done (result, size) machine =>
      .done (if result < 0 then 0xFFFFFFFF else addr) { user with machine := machine, sz := size }
  | .panic message => .panic message
  | .blocked => .blocked

/-- What `sbrk` has given to a process that had the size `start` before. -/
def since (start : UInt32) (user : User) : Set Nat := {a | start.toNat ≤ a ∧ a < user.sz.toNat}

/-- A process in order, with whole units from `start` on. -/
structure InOrder (symbols : Symbols) (start : UInt32) (user : User) : Prop where
  world : ∃ (all : Set (Page symbols)) (s : Space symbols) (free : List (Page symbols)),
    World all user.machine s free ∧ user.pgdir = s.dir.addr ∧
      ∀ k < userPages, Present (s.pte k) ↔ k < pages user.sz
  below : user.sz ≤ kernbase
  grown : start ≤ user.sz
  units : user.sz.toNat % 8 = 0

variable {symbols : Symbols} {start base : UInt32}

/-- The page tables say which pages are present. -/
theorem present_iff {all : Set (Page symbols)} {m : Machine} {s : Space symbols}
    {free : List (Page symbols)} (world : World all m s free) {k : Nat} (user : k < userPages) :
    UInt32.ofNat (4096 * k) < kernbase ∧ vpn (UInt32.ofNat (4096 * k)) = k ∧
      m.lookup s.dir.addr (UInt32.ofNat (4096 * k)) = s.pte k := by
  have small : k < 524288 := user
  have address : (UInt32.ofNat (4096 * k)).toNat = 4096 * k := toNat_ofNat_page (by omega)
  have number := World.vpn_eq address
  refine ⟨?_, number, ?_⟩
  · rw [UInt32.lt_iff_toNat_lt, address, toNat_kernbase]
    omega
  · rw [world.holds.lookup, number]

theorem growproc_fails {m : Machine} {pgdir sz : UInt32} {n : Int32} (more : 0 < n)
    (kernel : kernbase ≤ sz + n.toUInt32) :
    growproc symbols pgdir sz n m = .done (-1, sz) m := by
  have none : allocuvm symbols pgdir sz (sz + n.toUInt32) m = .done 0 m := by
    rw [allocuvm, if_pos kernel]
    rfl
  rw [growproc, if_pos more, Action.bind_done none, if_pos rfl]
  rfl

/-- The kernel gives fresh memory. -/
theorem sysSbrk_fresh (above : base.toNat + 8 ≤ start.toNat) :
    Fresh base (since start) (InOrder symbols start) (sysSbrk symbols) where
  answers := by
    rintro n user positive units ⟨⟨all, s, free, world, dir, mapped⟩, below, grown, aligned⟩
    have more : 0 < n := Int32.lt_iff_toInt_lt.mpr positive
    have user_le : user.sz.toNat ≤ 2147483648 := UInt32.le_iff_toNat_le.mp below
    have start_le := UInt32.le_iff_toNat_le.mp grown
    obtain ⟨result, size, later, next, rest, ran, holding, dir', ends⟩ :=
      world.growproc_more below mapped more
    rw [← dir] at ran ends
    rcases ends with ⟨rfl, sum, resized⟩ | ⟨rfl, rfl, unchanged⟩
    · have inUser : size < kernbase := by
        refine UInt32.not_le.mp fun kernel => ?_
        have total := toNat_add_int user.sz n below
        rw [if_pos (by omega)] at total
        have same : user.sz + n.toUInt32 = size := UInt32.toNat_inj.mp (by omega)
        rw [growproc_fails more (by rw [same]; exact kernel)] at ran
        cases ran
      have bound : size.toNat < 2147483648 := UInt32.lt_iff_toNat_lt.mp inUser
      refine ⟨user.sz, { user with machine := later, sz := size }, ?_, ⟨⟨all, next, rest, holding,
        by rw [dir', dir], fun k inside => ?_⟩, UInt32.le_of_lt inUser, ?_, ?_⟩,
        Or.inr ⟨aligned, by omega, by omega, fun a inside => inside.2, ?_⟩⟩
      · rw [sysSbrk, ran]
        rfl
      · obtain ⟨low, number, entry⟩ := present_iff holding inside
        have there := resized.mapped _ low
        rwa [number, dir, ← dir', entry] at there
      · rw [UInt32.le_iff_toNat_le]
        simp only
        omega
      · simp only
        omega
      · ext a
        simp only [since, Set.mem_ofPred_eq, Set.mem_union]
        omega
    · refine ⟨0xFFFFFFFF, { user with machine := later }, ?_, ⟨⟨all, next, rest, holding,
        by rw [dir', dir], fun k inside => ?_⟩, below, grown, aligned⟩, Or.inl ⟨rfl, rfl⟩⟩
      · rw [sysSbrk, ran]
        rfl
      · obtain ⟨low, number, entry⟩ := present_iff holding inside
        obtain ⟨-, -, before⟩ := present_iff world inside
        have same := unchanged _ low
        rw [dir, before, ← dir', entry] at same
        rw [← mapped k inside]
        constructor
        · intro there
          rw [← (same (Or.inr there)).1]
          exact there
        · intro there
          rw [(same (Or.inl there)).1]
          exact there

/-! ## Requests of any size -/

/-- The computations for the request do not wrap, and `malloc` fails or gives a block that has the
room, in memory that the process has. -/
structure Roomy (nbytes : UInt32) : Prop where
  units : (nunits nbytes).toNat = (nbytes.toNat + 7) / 8 + 1
  bytes : (moreUnits (nunits nbytes) * headerSize).toInt32.toInt =
    8 * (moreUnits (nunits nbytes)).toNat
  block : ∀ {symbols : Symbols} {start base : UInt32} {s : Process User} {live : Set UInt32},
    base ≠ 0 → base.toNat + 8 ≤ start.toNat →
    Reachable (sysSbrk symbols) base (since start) (InOrder symbols start) mostBytes s live →
    ∃ result next, Ends (fun fuel => malloc (sysSbrk symbols) base fuel nbytes) s result next ∧
      (result = 0 ∨
        extent next.headers (result - headerSize) ⊆ since start next.os ∧
          room result nbytes ⊆ extent next.headers (result - headerSize))

/-- Up to the largest request whose bytes are a positive `int` all is well, and beyond it never. -/
theorem malloc_roomy_iff (nbytes : UInt32) : Roomy nbytes ↔ nbytes.toNat ≤ 2147483632 := by
  constructor
  · intro roomy
    by_contra large
    have bound := nbytes.toNat_lt
    have units := roomy.units
    have bytes := roomy.bytes
    have enough := le_moreUnits (nunits nbytes)
    have most := (moreUnits (nunits nbytes) * headerSize).toInt32.toInt_lt
    omega
  · intro small
    obtain ⟨units, few⟩ := toNat_nunits small
    refine ⟨units, toInt_bytes (moreUnits_le few).2, ?_⟩
    intro symbols start base s live nonzero above run
    have fresh : Fresh base (since start) (InOrder symbols start) (sysSbrk symbols) :=
      sysSbrk_fresh above
    obtain ⟨sound, good⟩ := run.good fresh nonzero (Nat.le_refl _)
    obtain ⟨result, next, -, ends, ⟨zero, -⟩ | ⟨blocks, -, allocated⟩⟩ :=
      malloc_ends fresh nonzero sound good small
    · exact ⟨result, next, ends, Or.inl zero⟩
    · exact ⟨result, next, ends, Or.inr ⟨allocated.heap.live_given (Set.mem_insert _ _),
        allocated.room_inside small⟩⟩

/-- The headers after the first call of `malloc` has found the list empty. -/
def emptyList : Headers :=
  Headers.setSize (Headers.setPtr (fun _ => ⟨0, 0⟩) 8 8) 8 0

/-- The headers when 2 GB have been put into the list at 16. -/
def hugeBlock : Headers :=
  joinLower (joinUpper (emptyList.setSize 16 0x10000001) 16 8) 16 8

theorem malloc_huge {sbrk : Int32 → Action User UInt32} {user : User}
    (answer : sbrk (-2147483640) user = .done 16 user) {fuel : Nat} (enough : 1 < fuel) :
    malloc sbrk 8 fuel 0x80000000 ⟨fun _ => ⟨0, 0⟩, 0, user⟩ =
      .done 24 ⟨hugeBlock.setPtr 8 (hugeBlock 16).ptr, 8, user⟩ := by
  obtain ⟨turns, rfl⟩ : ∃ turns, fuel = turns + 2 := ⟨fuel - 2, by omega⟩
  have place : findPlace (emptyList.setSize 16 0x10000001) 16 (turns + 2) 8 = some 8 := by
    simp only [findPlace]
    rw [if_neg (by decide), if_pos (by decide)]
  have put : free (turns + 2) 24 ⟨emptyList.setSize 16 0x10000001, 8, user⟩ =
      .done () ⟨hugeBlock, 8, user⟩ := by
    rw [free]
    simp only [show (24 : UInt32) - headerSize = 16 by decide, place]
    rfl
  have more : morecore sbrk (turns + 2) 0x10000001 ⟨emptyList, 8, user⟩ =
      .done 8 ⟨hugeBlock, 8, user⟩ := by
    have got : onOs (sbrk (moreUnits 0x10000001 * headerSize).toInt32)
        (⟨emptyList, 8, user⟩ : Process User) = .done 16 ⟨emptyList, 8, user⟩ := onOs_done answer
    rw [morecore, Action.bind_done got, if_neg (by decide), Action.modify_bind]
    exact Action.bind_done put
  have first : malloc sbrk 8 (turns + 2) 0x80000000 ⟨fun _ => ⟨0, 0⟩, 0, user⟩ =
      search sbrk (turns + 2) 0x10000001 (turns + 2) 8 8 ⟨emptyList, 8, user⟩ := rfl
  have next : (hugeBlock 8).ptr = 16 := by decide
  have whole : (hugeBlock 16).size = 0x10000001 := by decide
  rw [first, search, Action.get_bind, if_neg (show ¬(emptyList 8).size ≥ 0x10000001 by decide),
    if_pos rfl, Action.bind_done more, if_neg (by decide), Action.get_bind]
  simp only [next]
  rw [search, Action.get_bind, if_pos (UInt32.le_of_eq whole.symm), take, if_pos whole]
  rfl

/-- A process of 16 bytes asks for 2 GB: `sbrk` sees a negative number and changes nothing, and the
block is behind the end of the process. -/
theorem malloc_beyond :
    ∃ s next : Process User, InOrder smallKernel 16 s.os ∧ s.freep = 0 ∧
      Ends (fun fuel => malloc (sysSbrk smallKernel) 8 fuel 0x80000000) s 24 next ∧
        next.os.sz = 16 ∧ ¬room 24 0x80000000 ⊆ {a | a < next.os.sz.toNat} := by
  obtain ⟨m, all, space, free, world, mapped⟩ := World.booted_one
  have answer : sysSbrk smallKernel (-2147483640) ⟨m, space.dir.addr, 16⟩ =
      .done 16 ⟨m, space.dir.addr, 16⟩ := by
    have wraps := @World.growproc_wraps smallKernel m space 16 (-2147483640)
      (by decide) (by decide) (by decide)
    rw [sysSbrk, wraps]
    rfl
  have page : ∀ k < userPages, Present (space.pte k) ↔ k < pages 16 := by
    rw [show pages 16 = pages 4096 by decide]
    exact mapped
  have order : InOrder smallKernel 16 ⟨m, space.dir.addr, 16⟩ :=
    ⟨⟨all, space, free, world, rfl, page⟩, show (16 : UInt32) ≤ kernbase by decide,
      UInt32.le_refl 16, show (16 : UInt32).toNat % 8 = 0 by decide⟩
  refine ⟨⟨fun _ => ⟨0, 0⟩, 0, _⟩, _, order, rfl,
    ⟨1, fun fuel enough => malloc_huge answer enough⟩, rfl, fun inside => ?_⟩
  have first : (24 : UInt32).toNat < (16 : UInt32).toNat :=
    inside ⟨Nat.le_refl _, show (24 : UInt32).toNat <
      (24 : UInt32).toNat + (0x80000000 : UInt32).toNat by decide⟩
  exact absurd first (by decide)

end Xv6.Umalloc
