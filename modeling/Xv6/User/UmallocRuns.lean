import Mathlib.Algebra.Group.Nat.Defs
import Xv6.User.UmallocHeap

/-!
# Runs of malloc and free

With a kernel that gives fresh memory or nothing, the heap is in order after any calls of
`malloc` and any calls of `free` on live blocks, and every such call returns.
-/

namespace Xv6.Umalloc

open Xv6.Library

variable {Os : Type}

/-- `sbrk` for whole units fails or gives aligned memory above all that it has given before. `given`
is what the kernel has given, and `Sound` is an invariant of the kernel. -/
structure Fresh (base : UInt32) (given : Os → Set Nat) (Sound : Os → Prop)
    (sbrk : Int32 → Action Os UInt32) : Prop where
  answers : ∀ n os, 0 < n.toInt → n.toInt % 8 = 0 → Sound os →
    ∃ result later, sbrk n os = .done result later ∧ Sound later ∧
    (result = 0xFFFFFFFF ∧ given later = given os ∨
      result.toNat % 8 = 0 ∧ base.toNat + 8 ≤ result.toNat ∧
        result.toNat + n.toInt.toNat < 4294967296 ∧ (∀ a ∈ given os, a < result.toNat) ∧
        given later = given os ∪ {a | result.toNat ≤ a ∧ a < result.toNat + n.toInt.toNat})

/-- With enough turns of its loops the function returns. -/
def Ends {State Value : Type} (function : Nat → Action State Value) (state : State) (value : Value)
    (next : State) : Prop :=
  ∃ enough, ∀ fuel > enough, function fuel state = .done value next

theorem Ends.unique {State Value : Type} {function : Nat → Action State Value}
    {state first second : State} {value other : Value} (ends : Ends function state value first)
    (also : Ends function state other second) : value = other ∧ first = second := by
  obtain ⟨enough, all⟩ := ends
  obtain ⟨enough', all'⟩ := also
  have same := (all (enough + enough' + 1) (by omega)).symm.trans
    (all' (enough + enough' + 1) (by omega))
  cases same
  exact ⟨rfl, rfl⟩

/-- The heap before the first call of `malloc`, or in order. -/
def Good (given : Os → Set Nat) (base : UInt32) (s : Process Os) (live : Set UInt32) : Prop :=
  s.freep = 0 ∧ live = ∅ ∧ given s.os = ∅ ∨
    ∃ blocks, s.freep ∈ base :: blocks ∧ Heap (given s.os) base s.headers live blocks

/-- Calls of `malloc` for at most `most` bytes and of `free` on live blocks; in between the program
writes into its live blocks what it likes. -/
inductive Reachable (sbrk : Int32 → Action Os UInt32) (base : UInt32) (given : Os → Set Nat)
    (Sound : Os → Prop) (most : Nat) : Process Os → Set UInt32 → Prop
  | start {s} : s.freep = 0 → Sound s.os → given s.os = ∅ →
      Reachable sbrk base given Sound most s ∅
  | malloc {s live nbytes result next} : Reachable sbrk base given Sound most s live →
      nbytes.toNat ≤ most → Ends (fun fuel => malloc sbrk base fuel nbytes) s result next →
      Reachable sbrk base given Sound most next
        (if result = 0 then live else insert (result - headerSize) live)
  | free {s live p next} : Reachable sbrk base given Sound most s live → p ∈ live →
      Ends (fun fuel => free fuel (p + headerSize)) s () next →
      Reachable sbrk base given Sound most next (live \ {p})
  | write {s live later} : Reachable sbrk base given Sound most s live →
      (∀ q, (∀ p ∈ live, ¬(p.toNat + 8 ≤ q.toNat ∧
        q.toNat < p.toNat + 8 * (s.headers p).size.toNat)) → later q = s.headers q) →
      Reachable sbrk base given Sound most { s with headers := later } live

/-! ## What one call does -/

variable {sbrk : Int32 → Action Os UInt32} {base : UInt32} {given : Os → Set Nat}
  {Sound : Os → Prop} {s : Process Os} {live : Set UInt32} {blocks : List UInt32}

theorem Heap.freep_ne_zero {bytes : Set Nat} {headers : Headers}
    (heap : Heap bytes base headers live blocks) (nonzero : base ≠ 0) {p : UInt32}
    (listed : p ∈ base :: blocks) : p ≠ 0 := by
  rcases List.mem_cons.mp listed with rfl | block
  · exact nonzero
  · rintro rfl
    have above := heap.block_above block
    rw [UInt32.toNat_zero] at above
    omega

/-- The number of bytes that `morecore` asks for, as an `int`. -/
theorem toInt_bytes {nu : UInt32} (small : nu.toNat ≤ 268435455) :
    (nu * headerSize).toInt32.toInt = 8 * nu.toNat := by
  have product : (nu * headerSize).toNat = 8 * nu.toNat := by
    rw [UInt32.toNat_mul, toNat_headerSize]
    omega
  have bits : (nu * headerSize).toInt32.toInt =
      if 2 * (nu * headerSize).toNat < 2 ^ 32 then ((nu * headerSize).toNat : Int)
        else (nu * headerSize).toNat - (2 ^ 32 : Nat) := BitVec.toInt_eq_toNat_cond ..
  rw [bits, if_pos (by omega), product]
  rfl

theorem le_moreUnits (nu : UInt32) : nu.toNat ≤ (moreUnits nu).toNat := by
  rw [moreUnits]
  split
  · next less => exact Nat.le_of_lt (UInt32.lt_iff_toNat_lt.mp less)
  · exact Nat.le_refl _

theorem moreUnits_le {nu : UInt32} (small : nu.toNat ≤ 268435455) :
    4096 ≤ (moreUnits nu).toNat ∧ (moreUnits nu).toNat ≤ 268435455 := by
  rw [moreUnits]
  split
  · decide
  · next more =>
      have least := UInt32.le_iff_toNat_le.mp (UInt32.not_lt.mp more)
      exact ⟨least, small⟩

theorem onOs_done {Value : Type} {action : Action Os Value} {value : Value} {os : Os}
    (answer : action s.os = .done value os) : onOs action s = .done value { s with os := os } :=
  Action.focus_done answer

/-- `morecore` fails, or a block that is large enough comes into the list. -/
theorem morecore_ends (fresh : Fresh base given Sound sbrk) (sound : Sound s.os)
    (heap : Heap (given s.os) base s.headers live blocks) (roving : s.freep ∈ base :: blocks)
    {nu : UInt32} (small : nu.toNat ≤ 268435455) :
    (∃ os, Sound os ∧ given os = given s.os ∧
      ∀ fuel, morecore sbrk fuel nu s = .done 0 { s with os := os }) ∨
    ∃ next blocks', Sound next.os ∧ next.freep ∈ base :: blocks' ∧
      Heap (given next.os) base next.headers live blocks' ∧
      (∃ q ∈ blocks', nu.toNat ≤ (next.headers q).size.toNat) ∧
      ∀ fuel > 2 * blocks.length + 2, morecore sbrk fuel nu s = .done next.freep next := by
  obtain ⟨least, most⟩ := moreUnits_le small
  have bytes := toInt_bytes most
  obtain ⟨p, os, answer, sound', failed | ⟨aligned, above, inside, higher, more⟩⟩ :=
    fresh.answers (moreUnits nu * headerSize).toInt32 s.os (by omega) (by omega) sound
  · obtain ⟨rfl, same⟩ := failed
    refine Or.inl ⟨os, sound', same, fun fuel => ?_⟩
    rw [morecore, Action.bind_done (onOs_done answer), if_pos rfl]
    rfl
  · have different : p ≠ 0xFFFFFFFF := by
      rintro rfl
      exact absurd aligned (by decide)
    rw [bytes, show (8 * ((moreUnits nu).toNat : Int)).toNat = 8 * (moreUnits nu).toNat by omega]
      at inside more
    generalize made : s.headers.setSize p (moreUnits nu) = headers
    have size : (headers p).size = moreUnits nu := by
      rw [← made, Headers.setSize_self]
    have own : extent headers p =
        {a | p.toNat ≤ a ∧ a < p.toNat + 8 * (moreUnits nu).toNat} := by
      rw [extent, size]
    have outside : ∀ a ∈ extent headers p, a ∉ given s.os :=
      fun a here there => absurd (higher a there) (Nat.not_lt.mpr here.1)
    have kept : Heap (given s.os) base headers live blocks :=
      made ▸ heap.setSize_behind above higher _
    obtain ⟨next, blocks', ends, sameOs, roving', after, large⟩ :=
      Heap.inserts (s := { s with os := os, headers := headers }) kept roving
        (show 0 < (headers p).size.toNat by rw [size]; omega)
        (show p.toNat + 8 * (headers p).size.toNat < 4294967296 by rw [size]; omega) aligned above
        (Set.disjoint_left.mpr outside)
    have os_eq : next.os = os := sameOs
    refine Or.inr ⟨next, blocks', by rw [os_eq]; exact sound', roving', ?_, ?_, fun fuel some => ?_⟩
    · rw [os_eq, more, ← own]
      exact after
    · obtain ⟨q, member, larger⟩ := large
      have enough := le_moreUnits nu
      simp only [size] at larger
      exact ⟨q, member, by omega⟩
    · rw [morecore, Action.bind_done (onOs_done answer), if_neg different,
        Action.modify_bind]
      simp only [made]
      rw [Action.bind_done (ends fuel some)]
      rfl

theorem mem_ring {ring front : List UInt32} {p x : UInt32}
    (listed : ∀ q, q ∈ front ++ [p] ↔ q ∈ ring) (member : x ∈ p :: front) : x ∈ ring := by
  rw [← listed]
  rcases List.mem_cons.mp member with rfl | inner
  · simp
  · exact List.mem_append_left _ inner

/-- `malloc` from its loop on: nothing has changed in the heap, or there is a new block. -/
theorem search_ends (fresh : Fresh base given Sound sbrk) (nonzero : base ≠ 0) (sound : Sound s.os)
    (heap : Heap (given s.os) base s.headers live blocks) (roving : s.freep ∈ base :: blocks)
    {n : UInt32} (positive : 0 < n.toNat) (small : n.toNat ≤ 268435455) :
    ∃ result next, Sound next.os ∧
      Ends (fun fuel => search sbrk fuel n fuel s.freep (s.headers s.freep).ptr) s result next ∧
      (result = 0 ∧ next.freep ∈ base :: blocks ∧
          Heap (given next.os) base next.headers live blocks ∨
        ∃ r blocks', result = r + headerSize ∧
          Allocated (given next.os) base live n r next blocks') := by
  obtain ⟨front, linked, away, listed, length⟩ := heap.onward.around roving
  by_cases large : ∃ x ∈ front ++ [s.freep], n.toNat ≤ (s.headers x).size.toNat
  · obtain ⟨before, x, member, pointer, fits, ends⟩ := search_hit sbrk linked away large
    obtain ⟨r, next, blocks', took, os, allocated⟩ :=
      heap.takes (mem_ring listed member) pointer positive fits
    refine ⟨r + headerSize, next, os ▸ sound, ⟨front.length, fun fuel enough => ?_⟩,
      Or.inr ⟨r, blocks', rfl, os.symm ▸ allocated⟩⟩
    exact (ends fuel fuel enough).trans took
  · have small' : ∀ x ∈ front ++ [s.freep], (s.headers x).size.toNat < n.toNat :=
      fun x member => Nat.lt_of_not_le fun fits => large ⟨x, member, fits⟩
    rcases morecore_ends fresh sound heap roving small with
      ⟨os, sound', same, ran⟩ | ⟨middle, more, sound', roving', heap', large', ran⟩
    · refine ⟨0, { s with os := os }, sound', ⟨front.length, fun fuel enough => ?_⟩,
        Or.inl ⟨rfl, roving, by rw [same]; exact heap⟩⟩
      obtain ⟨turns, split⟩ : ∃ turns, fuel = turns + front.length + 1 :=
        ⟨fuel - front.length - 1, by omega⟩
      have missed := @search_miss _ s sbrk fuel n _ _ linked away small' turns
      rw [← split] at missed
      refine missed.trans ?_
      rw [Action.bind_done (ran fuel), if_pos rfl]
      rfl
    · obtain ⟨front', linked', away', listed', -⟩ := heap'.onward.around roving'
      have fits' : ∃ x ∈ front' ++ [middle.freep], n.toNat ≤ (middle.headers x).size.toNat := by
        obtain ⟨q, member, fits⟩ := large'
        exact ⟨q, (listed' q).mpr (List.mem_cons_of_mem _ member), fits⟩
      obtain ⟨before, x, member, pointer, fits, ends⟩ := search_hit sbrk linked' away' fits'
      obtain ⟨r, next, blocks', took, os, allocated⟩ :=
        heap'.takes (mem_ring listed' member) pointer positive fits
      refine ⟨r + headerSize, next, os ▸ sound',
        ⟨2 * blocks.length + 3 + front.length + front'.length, fun fuel enough => ?_⟩,
        Or.inr ⟨r, blocks', rfl, os.symm ▸ allocated⟩⟩
      obtain ⟨turns, split⟩ : ∃ turns, fuel = turns + front.length + 1 :=
        ⟨fuel - front.length - 1, by omega⟩
      have missed := @search_miss _ s sbrk fuel n _ _ linked away small' turns
      rw [← split] at missed
      refine missed.trans ?_
      rw [Action.bind_done (ran fuel (by omega)),
        if_neg (heap'.freep_ne_zero nonzero roving'), Action.get_bind,
        ends fuel turns (by omega)]
      exact took

/-- The largest request whose units still fit in a positive `int`. -/
def mostBytes : Nat := 2147483632

theorem toNat_nunits {nbytes : UInt32} (small : nbytes.toNat ≤ mostBytes) :
    (nunits nbytes).toNat = (nbytes.toNat + 7) / 8 + 1 ∧ (nunits nbytes).toNat ≤ 268435455 := by
  rw [mostBytes] at small
  have sum : (nbytes + headerSize - 1).toNat = nbytes.toNat + 7 := by
    rw [UInt32.toNat_sub, UInt32.toNat_add, toNat_headerSize,
      UInt32.toNat_one]
    omega
  have units : (nunits nbytes).toNat = (nbytes.toNat + 7) / 8 + 1 := by
    rw [nunits, UInt32.toNat_add, UInt32.toNat_div, sum, toNat_headerSize,
      UInt32.toNat_one]
    omega
  omega

theorem heap_init {s : Process Os} : Heap ∅ base
    ((s.headers.setPtr base base).setSize base 0) ∅ [] := by
  have own : (s.headers.setPtr base base).setSize base 0 base = ⟨base, 0⟩ := by
    rw [Headers.setSize_self, Headers.setPtr_self]
  have empty {P : UInt32 → Prop} : ∀ p ∈ (∅ : Set UInt32), P p :=
    fun p member => absurd member (Set.notMem_empty p)
  refine ⟨⟨?_, List.pairwise_singleton .., List.forall_mem_nil _, ?_⟩, ?_, empty, empty, empty,
    empty, ?_, fun a member => absurd member (Set.notMem_empty a), ?_⟩
  · exact List.isChain_cons_cons.mpr ⟨by rw [own], List.isChain_singleton _⟩
  · intro p member
    rw [List.mem_singleton.mp member, own, UInt32.toNat_zero]
    exact base.toNat_lt
  · rw [own]
  · ext a
    simp [liveBytes]
  · rintro p (member | member)
    · cases member
    · cases member

theorem Good.init (good : Good given base s live) (nonzero : base ≠ 0) :
    ∃ blocks, (init base s).os = s.os ∧ (init base s).freep ∈ base :: blocks ∧
      Heap (given s.os) base (init base s).headers live blocks := by
  rcases good with ⟨zero, rfl, none⟩ | ⟨blocks, roving, heap⟩
  · rw [Umalloc.init, if_pos zero, none]
    exact ⟨[], rfl, List.mem_cons_self, heap_init⟩
  · rw [Umalloc.init, if_neg (heap.freep_ne_zero nonzero roving)]
    exact ⟨blocks, rfl, roving, heap⟩

theorem malloc_ends (fresh : Fresh base given Sound sbrk) (nonzero : base ≠ 0) (sound : Sound s.os)
    (good : Good given base s live) {nbytes : UInt32} (small : nbytes.toNat ≤ mostBytes) :
    ∃ result next, Sound next.os ∧ Ends (fun fuel => malloc sbrk base fuel nbytes) s result next ∧
      (result = 0 ∧ Good given base next live ∨
        ∃ blocks, result ≠ 0 ∧ Allocated (given next.os) base live (nunits nbytes)
          (result - headerSize) next blocks) := by
  obtain ⟨blocks, os, roving, heap⟩ := good.init nonzero
  obtain ⟨units, few⟩ := toNat_nunits small
  rw [← os] at heap sound
  obtain ⟨result, next, sound', ends, ⟨rfl, roving', heap'⟩ | ⟨r, blocks', rfl, allocated⟩⟩ :=
    search_ends fresh nonzero sound heap roving (show 0 < (nunits nbytes).toNat by omega) few
  · exact ⟨0, next, sound', ends, Or.inl ⟨rfl, Or.inr ⟨blocks, roving', heap'⟩⟩⟩
  · have back : r + headerSize - headerSize = r := UInt32.add_sub_cancel ..
    have positive : r + headerSize ≠ 0 := by
      intro zero
      have within := allocated.heap.within r (Set.mem_insert _ _)
      have full := allocated.heap.full r (Set.mem_insert _ _)
      have wraps := congrArg UInt32.toNat zero
      rw [UInt32.toNat_add, toNat_headerSize, UInt32.toNat_zero]
        at wraps
      omega
    exact ⟨r + headerSize, next, sound', ends, Or.inr ⟨blocks', positive, back.symm ▸ allocated⟩⟩

theorem free_ends (good : Good given base s live) {p : UInt32} (member : p ∈ live) :
    ∃ next, next.os = s.os ∧ Ends (fun fuel => free fuel (p + headerSize)) s () next ∧
      Good given base next (live \ {p}) := by
  rcases good with ⟨-, rfl, -⟩ | ⟨blocks, roving, heap⟩
  · cases member
  · obtain ⟨next, blocks', ends, os, roving', heap', -⟩ :=
      (heap.drop member).inserts roving (heap.full p member) (heap.within p member)
        (heap.aligned p (Or.inr member)) (heap.live_above member)
        (Set.disjoint_left.mpr fun a own there => there.2 own)
    rw [Set.sdiff_union_of_subset (heap.live_given member), ← os] at heap'
    exact ⟨next, os, ⟨_, ends⟩, Or.inr ⟨blocks', roving', heap'⟩⟩

/-- What the program writes into its blocks is not a header. -/
theorem Good.write (good : Good given base s live) {later : Headers}
    (others : ∀ q, (∀ p ∈ live, ¬(p.toNat + 8 ≤ q.toNat ∧
      q.toNat < p.toNat + 8 * (s.headers p).size.toNat)) → later q = s.headers q) :
    Good given base { s with headers := later } live := by
  rcases good with start | ⟨blocks, roving, heap⟩
  · exact Or.inl start
  · refine Or.inr ⟨blocks, roving, heap.congr fun q member => others q ?_⟩
    rintro p alive ⟨low, high⟩
    have inside : q.toNat ∈ extent s.headers p := ⟨by omega, high⟩
    rcases member with listed | also
    · rcases List.mem_cons.mp listed with rfl | block
      · have above := heap.live_above alive
        omega
      · exact Set.disjoint_left.mp (heap.free p alive) inside
          ⟨q, block, mem_extent (heap.onward.filled q block)⟩
    · have different : p ≠ q := by
        rintro rfl
        omega
      exact Set.disjoint_left.mp (heap.apart p alive q also different) inside
        (mem_extent (heap.full q also))

/-! ## Runs -/

theorem Reachable.good {most : Nat} (fresh : Fresh base given Sound sbrk) (nonzero : base ≠ 0)
    (bound : most ≤ mostBytes) (run : Reachable sbrk base given Sound most s live) :
    Sound s.os ∧ Good given base s live := by
  induction run with
  | start zero sound none => exact ⟨sound, Or.inl ⟨zero, rfl, none⟩⟩
  | malloc _ small ends inductionHypothesis =>
      obtain ⟨sound, good⟩ := inductionHypothesis
      obtain ⟨result, next, sound', also, outcome⟩ :=
        malloc_ends fresh nonzero sound good (Nat.le_trans small bound)
      obtain ⟨rfl, rfl⟩ := ends.unique also
      refine ⟨sound', ?_⟩
      rcases outcome with ⟨rfl, after⟩ | ⟨blocks, positive, allocated⟩
      · rw [if_pos rfl]
        exact after
      · rw [if_neg positive]
        exact Or.inr ⟨blocks, allocated.roving, allocated.heap⟩
  | free _ member ends inductionHypothesis =>
      obtain ⟨sound, good⟩ := inductionHypothesis
      obtain ⟨next, os, also, after⟩ := free_ends good member
      obtain ⟨-, rfl⟩ := ends.unique also
      exact ⟨os ▸ sound, after⟩
  | write _ others inductionHypothesis =>
      obtain ⟨sound, good⟩ := inductionHypothesis
      exact ⟨sound, good.write others⟩

/-- The bytes that a call of `malloc` has asked for. -/
def room (result nbytes : UInt32) : Set Nat :=
  {a | result.toNat ≤ a ∧ a < result.toNat + nbytes.toNat}

/-- The room is memory from `sbrk`, apart from all headers, live blocks and free blocks. -/
structure Block (given : Set Nat) (base : UInt32) (headers : Headers) (live : Set UInt32)
    (blocks : List UInt32) (result nbytes : UInt32) : Prop where
  inside : room result nbytes ⊆ given
  live : Disjoint (room result nbytes) (liveBytes headers live)
  free : Disjoint (room result nbytes) (cover headers blocks)
  base : Disjoint (room result nbytes) {a | base.toNat ≤ a ∧ a < base.toNat + 8}

/-- The room is in the block, behind its header. -/
theorem Allocated.room_inside {bytes : Set Nat} {next : Process Os} {result nbytes : UInt32}
    (allocated : Allocated bytes base live (nunits nbytes) (result - headerSize) next blocks)
    (small : nbytes.toNat ≤ mostBytes) :
    room result nbytes ⊆ extent next.headers (result - headerSize) := by
  have mine : result - headerSize ∈ insert (result - headerSize) live := Set.mem_insert _ _
  have within := allocated.heap.within _ mine
  have full := allocated.heap.full _ mine
  obtain ⟨units, -⟩ := toNat_nunits small
  have place : (result - headerSize).toNat + 8 = result.toNat := by
    rw [UInt32.toNat_sub, toNat_headerSize] at within ⊢
    have bound := result.toNat_lt
    omega
  rintro a ⟨low, high⟩
  refine ⟨by omega, ?_⟩
  rw [allocated.size, units]
  omega

theorem Allocated.block {bytes : Set Nat} {next : Process Os} {result nbytes : UInt32}
    (allocated : Allocated bytes base live (nunits nbytes) (result - headerSize) next blocks)
    (small : nbytes.toNat ≤ mostBytes) :
    Block bytes base next.headers live blocks result nbytes := by
  have mine : result - headerSize ∈ insert (result - headerSize) live := Set.mem_insert _ _
  have own := allocated.room_inside small
  refine ⟨own.trans (allocated.heap.live_given mine), ?_, ?_, ?_⟩
  · refine Set.disjoint_left.mpr fun a here there => ?_
    obtain ⟨p, member, inside⟩ := there
    have different : result - headerSize ≠ p := by
      rintro rfl
      exact allocated.fresh member
    exact Set.disjoint_left.mp (allocated.heap.apart _ mine p (Set.mem_insert_of_mem _ member)
      different) (own here) inside
  · exact (allocated.heap.free _ mine).mono_left own
  · refine Set.disjoint_left.mpr fun a here there => ?_
    have low := allocated.heap.above a (allocated.heap.live_given mine (own here))
    exact absurd there.2 (by omega)

/-- After any calls the heap is in order, `malloc` fails or gives a block, and both functions
return. -/
theorem umalloc_heap (fresh : Fresh base given Sound sbrk) (nonzero : base ≠ 0)
    (run : Reachable sbrk base given Sound (2 ^ 30 - 1) s live) :
    Good given base s live ∧
      (∀ nbytes : UInt32, nbytes.toNat < 2 ^ 30 → ∃ result next,
        Ends (fun fuel => malloc sbrk base fuel nbytes) s result next ∧
          (result = 0 ∧ Good given base next live ∨
            ∃ blocks, next.freep ∈ base :: blocks ∧
              Heap (given next.os) base next.headers (insert (result - headerSize) live) blocks ∧
              Block (given next.os) base next.headers live blocks result nbytes)) ∧
      ∀ p ∈ live, ∃ next, Ends (fun fuel => free fuel (p + headerSize)) s () next := by
  obtain ⟨sound, good⟩ := run.good fresh nonzero (by decide)
  refine ⟨good, fun nbytes small => ?_, fun p member => ?_⟩
  · have fits : nbytes.toNat ≤ mostBytes := by
      rw [mostBytes]
      omega
    obtain ⟨result, next, -, ends, ⟨zero, after⟩ | ⟨blocks, -, allocated⟩⟩ :=
      malloc_ends fresh nonzero sound good fits
    · exact ⟨result, next, ends, Or.inl ⟨zero, after⟩⟩
    · exact ⟨result, next, ends, Or.inr ⟨blocks, allocated.roving, allocated.heap,
        allocated.block fits⟩⟩
  · obtain ⟨next, -, ends, -⟩ := free_ends good member
    exact ⟨next, ends⟩

/-- A kernel that only moves the end of the process. -/
def bump (n : Int32) : Action UInt32 UInt32 := fun brk =>
  if brk.toNat + n.toInt.toNat < 2147483648 then
    .done brk (brk + UInt32.ofNat n.toInt.toNat)
  else .done 0xFFFFFFFF brk

theorem bump_fresh :
    Fresh 8 (fun brk => {a | 16 ≤ a ∧ a < brk.toNat})
      (fun brk => 16 ≤ brk.toNat ∧ brk.toNat < 2147483648 ∧ brk.toNat % 8 = 0) bump where
  answers := by
    rintro n brk positive units ⟨least, most, aligned⟩
    by_cases fits : brk.toNat + n.toInt.toNat < 2147483648
    · have sum : (brk + UInt32.ofNat n.toInt.toNat).toNat = brk.toNat + n.toInt.toNat := by
        rw [UInt32.toNat_add, UInt32.toNat_ofNat']
        omega
      refine ⟨brk, brk + UInt32.ofNat n.toInt.toNat, if_pos fits, ?_,
        Or.inr ⟨aligned, least, by omega, fun a inside => inside.2, ?_⟩⟩
      · rw [sum]
        omega
      · ext a
        simp only [Set.mem_ofPred_eq, Set.mem_union, sum]
        omega
    · exact ⟨0xFFFFFFFF, brk, if_neg fits, ⟨least, most, aligned⟩, Or.inl ⟨rfl, rfl⟩⟩

/-- A process that has not called `malloc` yet. -/
def firstProcess : Process UInt32 := ⟨fun _ => ⟨0, 0⟩, 0, 16⟩

/-- After `malloc(nbytes)`. -/
def mallocs (s : Process UInt32) (nbytes : UInt32) : Process UInt32 :=
  (malloc bump 8 10 nbytes s).state?.getD s

/-- After two calls of `malloc`. -/
def twoBlocks : Process UInt32 := mallocs (mallocs firstProcess 100) 20

/-- The program has written to the first word of the first block. -/
def oneWritten : Process UInt32 :=
  { twoBlocks with headers := Function.update twoBlocks.headers 32680 ⟨1, 2⟩ }

def oneFreed : Process UInt32 := (free 10 32680 oneWritten).state?.getD oneWritten

theorem bump_ends {s : Process UInt32} {nbytes result : UInt32}
    (same : ∀ n, malloc bump 8 (n + 10) nbytes s = .done result (mallocs s nbytes)) :
    Ends (fun fuel => malloc bump 8 fuel nbytes) s result (mallocs s nbytes) := by
  refine ⟨9, fun fuel many => ?_⟩
  obtain ⟨n, rfl⟩ := Nat.exists_eq_add_of_le' (Nat.succ_le_of_lt many)
  exact same n

/-- Two blocks are allocated, the first is written to and freed, and then `malloc` and `free` still
return. -/
theorem umalloc_heap_freed :
    ∃ (given : UInt32 → Set Nat) (Sound : UInt32 → Prop) (live : Set UInt32),
      Reachable bump 8 given Sound (2 ^ 30 - 1) oneFreed live ∧ live = {32640} ∧
        Good given 8 oneFreed live ∧
        (∃ result next, Ends (fun fuel => malloc bump 8 fuel 100) oneFreed result next) ∧
        ∃ next, Ends (fun fuel => free fuel 32648) oneFreed () next := by
  have start : Reachable bump 8 (fun brk => {a | 16 ≤ a ∧ a < brk.toNat})
      (fun brk => 16 ≤ brk.toNat ∧ brk.toNat < 2147483648 ∧ brk.toNat % 8 = 0) (2 ^ 30 - 1)
      firstProcess ∅ := by
    refine Reachable.start rfl ⟨by decide, by decide, by decide⟩ ?_
    ext a
    simp [firstProcess]
  have one := start.malloc (show (100 : UInt32).toNat ≤ 2 ^ 30 - 1 by decide) (bump_ends fun _ => rfl)
  have two := one.malloc (show (20 : UInt32).toNat ≤ 2 ^ 30 - 1 by decide) (bump_ends fun _ => rfl)
  rw [if_neg (by decide), if_neg (by decide)] at two
  have written := @Reachable.write _ _ _ _ _ _ _ _ oneWritten.headers two ?_
  swap
  · intro q outside
    apply Function.update_of_ne
    rintro rfl
    exact outside 32672 (by simp; decide) (by decide)
  have freed := @Reachable.free _ _ _ _ _ _ _ _ 32672 oneFreed written (by simp; decide)
    ⟨9, fun fuel many => by
      obtain ⟨n, rfl⟩ := Nat.exists_eq_add_of_le' (Nat.succ_le_of_lt many)
      rfl⟩
  obtain ⟨good, again, frees⟩ := umalloc_heap bump_fresh (by decide) freed
  obtain ⟨result, next, ends, -⟩ := again 100 (by decide)
  have left : insert ((32648 : UInt32) - headerSize) (insert (32680 - headerSize) ∅) \ {32672} =
      ({32640} : Set UInt32) := by
    rw [show (32648 : UInt32) - headerSize = 32640 by decide,
      show (32680 : UInt32) - headerSize = 32672 by decide]
    ext p
    simp only [Set.mem_sdiff, Set.mem_insert_iff, Set.mem_empty_iff_false, or_false,
      Set.mem_singleton_iff]
    constructor
    · rintro ⟨rfl | rfl, other⟩
      · rfl
      · exact absurd rfl other
    · rintro rfl
      exact ⟨Or.inl rfl, by decide⟩
  obtain ⟨last, done⟩ := frees 32640 (left ▸ rfl)
  exact ⟨_, _, _, freed, left, good, ⟨result, next, ends⟩, last, done⟩

end Xv6.Umalloc
