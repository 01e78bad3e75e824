import Mathlib.Data.List.Nodup
import Xv6.Library.Action
import Xv6.Library.LittleEndian
import Xv6.Vm.Layout

/-!
# Physical memory

`kalloc.c`: the free pages are linked through their first words. The kernel
maps all of physical memory, so its memory is indexed by kernel addresses. A
loop over the pages of a range takes at most `turns` turns, unless it never ends.
-/

namespace Xv6.Vm

open Xv6.Library

/-! ## The model -/

/-- The symbols of the linker script: `data` starts a page after the kernel's
text, and `end`, here `kend`, comes after the data and below PHYSTOP. -/
structure Symbols where
  data : UInt32
  kend : UInt32
  aligned : data.toNat % 4096 = 0
  after : kernlink.toNat < data.toNat
  ordered : data.toNat ≤ kend.toNat
  before : kend.toNat < (p2v phystop).toNat

/-- The memory, and the head of the list of free pages. -/
structure Machine where
  memory : Memory
  freelist : UInt32

def loadWord (a : UInt32) : Action Machine UInt32 :=
  Action.get fun m => UInt32.ofNat (m.memory.load a.toNat 4)

def storeWord (a value : UInt32) : Action Machine Unit :=
  Action.modify fun m => { m with memory := m.memory.store a.toNat 4 value.toNat }

def memset (dst : UInt32) (c : UInt8) (n : UInt32) : Action Machine Unit :=
  Action.modify fun m =>
    { m with memory := m.memory.write dst.toNat (List.replicate n.toNat c) }

def memmove (dst src n : UInt32) : Action Machine Unit :=
  Action.modify fun m =>
    { m with memory := m.memory.write dst.toNat (m.memory.read src.toNat n.toNat) }

/-- Allocate one page; 0 if the memory cannot be allocated. -/
def kalloc : Action Machine UInt32 := do
  let r ← Action.get Machine.freelist
  if r ≠ 0 then
    let next ← loadWord r
    Action.modify fun m => { m with freelist := next }
    return r
  else return r

/-- Free the page of physical memory pointed at by `v`. -/
def kfree (symbols : Symbols) (v : UInt32) : Action Machine Unit := do
  if v % pgsize ≠ 0 ∨ v < symbols.kend ∨ phystop ≤ v2p v then Action.panic "kfree"
  else
    memset v 1 pgsize
    let r := v
    let next ← Action.get Machine.freelist
    storeWord r next
    Action.modify fun m => { m with freelist := r }

/-- One turn for each page, and the one that ends the loop. -/
def turns : Nat := npdentries * nptentries + 1

/-- The loop of `freerange`. -/
def freeFrom (symbols : Symbols) (vend : UInt32) : Nat → UInt32 → Action Machine Unit
  | 0, _ => Action.never
  | fuel + 1, p =>
      if p + pgsize ≤ vend then do
        kfree symbols p
        freeFrom symbols vend fuel (p + pgsize)
      else return ()

def freerange (symbols : Symbols) (vstart vend : UInt32) : Action Machine Unit :=
  freeFrom symbols vend turns (pgRoundUp vstart)

/-- `kinit1` and `kinit2` as `main` calls them. -/
def kinit (symbols : Symbols) : Action Machine Unit := do
  freerange symbols symbols.kend (p2v (4 * 1024 * 1024))
  freerange symbols (p2v (4 * 1024 * 1024)) (p2v phystop)

/-! ## Pages -/

/-- The address of a page that `kfree` accepts. -/
@[ext]
structure Page (symbols : Symbols) where
  addr : UInt32
  aligned : addr.toNat % 4096 = 0
  after : symbols.kend.toNat ≤ addr.toNat
  before : addr.toNat < (p2v phystop).toNat
deriving DecidableEq

variable {symbols : Symbols}

namespace Page

variable (page other : Page symbols)

theorem above : 0x80100000 < page.addr.toNat :=
  Nat.lt_of_lt_of_le symbols.after (Nat.le_trans symbols.ordered page.after)

theorem below : page.addr.toNat + 4096 ≤ 0x8E000000 := by
  have before : page.addr.toNat < 0x8E000000 := page.before
  have aligned := page.aligned
  omega

theorem addr_ne_zero : page.addr ≠ 0 := by
  intro zero
  have above := page.above
  rw [zero] at above
  cases above

theorem toNat_v2p : (v2p page.addr).toNat = page.addr.toNat - 0x80000000 :=
  Vm.toNat_v2p (UInt32.le_iff_toNat_le.mpr (Nat.le_trans (by decide) (Nat.le_of_lt page.above)))

theorem v2p_aligned : (v2p page.addr).toNat % 4096 = 0 := by
  have aligned := page.aligned
  have above := page.above
  rw [toNat_v2p]
  omega

/-- The page that an entry made for it names. -/
theorem p2v_pteAddr {flags : UInt32} (small : flags.toNat < 4096) :
    p2v (pteAddr (v2p page.addr ||| flags)) = page.addr := by
  rw [pteAddr_or page.v2p_aligned small, p2v_v2p]

variable {page other}

theorem apart (different : page ≠ other) :
    page.addr.toNat + 4096 ≤ other.addr.toNat ∨ other.addr.toNat + 4096 ≤ page.addr.toNat := by
  have first := page.aligned
  have second := other.aligned
  have addresses : page.addr.toNat ≠ other.addr.toNat := fun same =>
    different (Page.ext (UInt32.toNat_inj.mp same))
  omega

/-- The address of word `i` of the page. -/
theorem toNat_word {i : UInt32} (inside : i.toNat < 1024) :
    (page.addr + 4 * i).toNat = page.addr.toNat + 4 * i.toNat := by
  have below := page.below
  rw [UInt32.toNat_add, UInt32.toNat_mul, show (4 : UInt32).toNat = 4 by rfl]
  omega

end Page

/-! ## Reading and writing pages -/

namespace Machine

variable {m middle last : Machine} {page other : Page symbols}

def byte (m : Machine) (page : Page symbols) (offset : Nat) : UInt8 :=
  m.memory (page.addr.toNat + offset)

def word (m : Machine) (page : Page symbols) (i : Nat) : UInt32 :=
  UInt32.ofNat (m.memory.load (page.addr.toNat + 4 * i) 4)

def setWord (m : Machine) (page : Page symbols) (i : Nat) (value : UInt32) : Machine :=
  { m with memory := m.memory.store (page.addr.toNat + 4 * i) 4 value.toNat }

def fill (m : Machine) (page : Page symbols) (c : UInt8) : Machine :=
  { m with memory := m.memory.write page.addr.toNat (List.replicate 4096 c) }

@[simp]
theorem setWord_freelist (i : Nat) (value : UInt32) :
    (m.setWord page i value).freelist = m.freelist := rfl

@[simp]
theorem fill_freelist (c : UInt8) : (m.fill page c).freelist = m.freelist := rfl

/-- The page holds the same bytes in both. -/
def Same (m middle : Machine) (page : Page symbols) : Prop :=
  ∀ offset < 4096, middle.byte page offset = m.byte page offset

theorem Same.refl (m : Machine) (page : Page symbols) : m.Same m page := fun _ _ => rfl

theorem Same.trans (first : m.Same middle page) (second : middle.Same last page) :
    m.Same last page := fun offset inside =>
  (second offset inside).trans (first offset inside)

theorem Same.word (same : m.Same middle page) {i : Nat} (inside : i < 1024) :
    middle.word page i = m.word page i := by
  have agree : ∀ offset < 4, middle.memory (page.addr.toNat + 4 * i + offset) =
      m.memory (page.addr.toNat + 4 * i + offset) := by
    intro offset below
    rw [Nat.add_assoc]
    exact same (4 * i + offset) (by omega)
  rw [Machine.word, Machine.word, Memory.load_congr agree]

theorem same_setWord (different : other ≠ page) {i : Nat} (inside : i < 1024) (value : UInt32) :
    m.Same (m.setWord page i value) other := by
  intro offset below
  have apart := Page.apart different
  exact Memory.store_outside _ _ (by omega)

theorem same_fill (different : other ≠ page) (c : UInt8) : m.Same (m.fill page c) other := by
  intro offset below
  have apart := Page.apart different
  apply Memory.write_outside
  rw [List.length_replicate]
  omega

/-- Pages are in the kernel's part. -/
theorem setWord_low (page : Page symbols) (i : Nat) (value : UInt32) {a : Nat}
    (below : a < 0x80000000) : (m.setWord page i value).memory a = m.memory a := by
  have above := page.above
  exact Memory.store_outside _ _ (by omega)

theorem fill_low (page : Page symbols) (c : UInt8) {a : Nat} (below : a < 0x80000000) :
    (m.fill page c).memory a = m.memory a := by
  have above := page.above
  exact Memory.write_outside _ _ (by omega)

theorem word_setWord (i : Nat) (value : UInt32) :
    (m.setWord page i value).word page i = value := by
  rw [word, setWord, Memory.load_store_fits _ _ value.toNat_lt, UInt32.ofNat_toNat]

theorem word_setWord_other {i j : Nat} (different : j ≠ i) (value : UInt32) :
    (m.setWord page i value).word page j = m.word page j := by
  rw [word, setWord, Memory.load_store_disjoint _ _ (by omega)]
  rfl

theorem byte_fill (c : UInt8) {offset : Nat} (inside : offset < 4096) :
    (m.fill page c).byte page offset = c := by
  change m.memory.write page.addr.toNat (List.replicate 4096 c) (page.addr.toNat + offset) = c
  rw [Memory.write_inside _ _ (by rw [List.length_replicate]; exact inside),
    List.getElem_replicate]

theorem word_fill_zero {i : Nat} (inside : i < 1024) : (m.fill page 0).word page i = 0 := by
  have zeros : ∀ offset < 4, (m.fill page 0).memory (page.addr.toNat + 4 * i + offset) = 0 := by
    intro offset below
    rw [Nat.add_assoc]
    exact byte_fill 0 (by omega)
  have blank : (m.fill page 0).memory.load (page.addr.toNat + 4 * i) 4 =
      Memory.load (fun _ => 0) (page.addr.toNat + 4 * i) 4 := Memory.load_congr zeros
  rw [word, blank, Memory.load_zero]
  rfl

theorem loadWord_page {next : UInt32 → Action Machine Value} {i : UInt32}
    (inside : i.toNat < 1024) :
    (loadWord (page.addr + 4 * i) >>= next) m = next (m.word page i.toNat) m := by
  rw [loadWord, Action.get_bind, Page.toNat_word inside]
  rfl

theorem storeWord_page {next : Unit → Action Machine Value} {i : UInt32}
    (inside : i.toNat < 1024) (value : UInt32) :
    (storeWord (page.addr + 4 * i) value >>= next) m = next () (m.setWord page i.toNat value) := by
  rw [storeWord, Action.modify_bind, Page.toNat_word inside]
  rfl

end Machine

/-! ## The free list -/

namespace Machine

variable {m later : Machine} {page : Page symbols} {free : List (Page symbols)}

/-- Following the first words from `head` visits the pages, and then ends. -/
def Linked (m : Machine) : UInt32 → List (Page symbols) → Prop
  | head, [] => head = 0
  | head, page :: rest => head = page.addr ∧ m.Linked (m.word page 0) rest

/-- The pages of the free list, in its order. -/
structure Free (m : Machine) (free : List (Page symbols)) : Prop where
  linked : m.Linked m.freelist free
  nodup : free.Nodup

theorem Linked.congr {head : UInt32} (linked : m.Linked head free)
    (same : ∀ page ∈ free, m.Same later page) : later.Linked head free := by
  induction free generalizing head with
  | nil => exact linked
  | cons page rest inductionHypothesis =>
      refine ⟨linked.1, ?_⟩
      rw [(same page (List.mem_cons_self ..)).word (by decide)]
      exact inductionHypothesis linked.2 fun other member =>
        same other (List.mem_cons_of_mem _ member)

/-- A step that leaves the free pages alone. -/
theorem Free.congr (frees : m.Free free) (same : ∀ page ∈ free, m.Same later page)
    (head : later.freelist = m.freelist) : later.Free free where
  linked := by
    rw [head]
    exact frees.linked.congr same
  nodup := frees.nodup

/-- The machine without the first page of its free list. -/
def take (m : Machine) (page : Page symbols) : Machine := { m with freelist := m.word page 0 }

theorem Free.take (frees : m.Free (page :: free)) : (m.take page).Free free where
  linked := frees.linked.2.congr fun other _ => Same.refl m other
  nodup := (List.nodup_cons.mp frees.nodup).2

theorem same_take (other : Page symbols) : m.Same (m.take page) other := Same.refl m other

theorem Free.kalloc_nil (frees : m.Free ([] : List (Page symbols))) : kalloc m = .done 0 m := by
  have empty : m.freelist = 0 := frees.linked
  rw [kalloc, Action.get_bind, empty, if_neg (by decide)]
  rfl

theorem Free.kalloc_cons (frees : m.Free (page :: free)) :
    kalloc m = .done page.addr (m.take page) := by
  have head : m.freelist = page.addr := frees.linked.1
  rw [kalloc, Action.get_bind, head, if_pos page.addr_ne_zero, loadWord, Action.get_bind]
  rfl

/-- The machine with one more free page. -/
def release (m : Machine) (page : Page symbols) : Machine :=
  { (m.fill page 1).setWord page 0 m.freelist with freelist := page.addr }

theorem same_release {other : Page symbols} (different : other ≠ page) :
    m.Same (m.release page) other :=
  (same_fill different 1).trans (same_setWord different (by decide) _)

theorem kfree_page (m : Machine) (page : Page symbols) :
    kfree symbols page.addr m = .done () (m.release page) := by
  have whole : ¬page.addr % pgsize ≠ 0 := by
    rw [not_not, ← UInt32.toNat_inj, UInt32.toNat_mod]
    exact page.aligned
  have after : ¬page.addr < symbols.kend := by
    rw [UInt32.lt_iff_toNat_lt]
    exact Nat.not_lt.mpr page.after
  have before : ¬phystop ≤ v2p page.addr := by
    have below := page.below
    rw [UInt32.le_iff_toNat_le, page.toNat_v2p, show phystop.toNat = 0xE000000 by rfl]
    omega
  rw [kfree, if_neg (by simp only [whole, after, before, or_self, not_false_eq_true])]
  rfl

theorem Free.release (frees : m.Free free) (fresh : page ∉ free) :
    (m.release page).Free (page :: free) where
  linked := by
    refine ⟨rfl, ?_⟩
    have first : (m.release page).word page 0 = m.freelist := word_setWord 0 _
    rw [first]
    exact frees.linked.congr fun other member =>
      same_release fun same => fresh (same ▸ member)
  nodup := List.nodup_cons.mpr ⟨fresh, frees.nodup⟩

end Machine

/-! ## Initialization -/

/-- The loop frees the pages from `p` on that end by `vend`. -/
theorem Machine.Free.freeFrom {m : Machine} {free : List (Page symbols)} (frees : m.Free free)
    {p vend : UInt32} {fuel : Nat} (aligned : p.toNat % 4096 = 0)
    (start : symbols.kend.toNat ≤ p.toNat) (inside : p.toNat ≤ 0x8E000000)
    (bound : vend.toNat ≤ 0x8E000000) (enough : vend.toNat < p.toNat + 4096 * fuel)
    (turn : 0 < fuel)
    (apart : ∀ page ∈ free, page.addr.toNat < p.toNat ∨ vend.toNat < page.addr.toNat + 4096) :
    ∃ later added, freeFrom symbols vend fuel p m = .done () later ∧
      later.Free (added ++ free) ∧ ∀ page : Page symbols, page ∈ added ↔
        p.toNat ≤ page.addr.toNat ∧ page.addr.toNat + 4096 ≤ vend.toNat := by
  induction fuel generalizing m free p with
  | zero => cases turn
  | succ fuel inductionHypothesis =>
      have next : (p + pgsize).toNat = p.toNat + 4096 := by
        rw [UInt32.toNat_add, toNat_pgsize]
        omega
      by_cases more : p + pgsize ≤ vend
      · have room : p.toNat + 4096 ≤ vend.toNat := by
          rw [← next]
          exact UInt32.le_iff_toNat_le.mp more
        have before : p.toNat < (p2v phystop).toNat := by
          rw [show (p2v phystop).toNat = 0x8E000000 by rfl]
          omega
        obtain ⟨page, rfl⟩ : ∃ page : Page symbols, page.addr = p :=
          ⟨⟨p, aligned, start, before⟩, rfl⟩
        have fresh : page ∉ free := by
          intro member
          have away := apart page member
          omega
        obtain ⟨later, added, ran, listed, members⟩ := inductionHypothesis (frees.release fresh)
          (p := page.addr + pgsize) (by omega) (by omega) (by omega) (by omega) (by omega) (by
            intro other member
            rcases List.mem_cons.mp member with rfl | member
            · omega
            · have away := apart other member
              omega)
        refine ⟨later, added ++ [page], ?_, ?_, ?_⟩
        · rw [Vm.freeFrom, if_pos more, Action.bind_done (Machine.kfree_page m page)]
          exact ran
        · rw [List.append_assoc]
          exact listed
        · intro other
          rw [List.mem_append, List.mem_singleton, members, next]
          constructor
          · rintro (⟨after, inside⟩ | rfl)
            · exact ⟨by omega, inside⟩
            · exact ⟨Nat.le_refl _, room⟩
          · rintro ⟨after, inside⟩
            by_cases first : other = page
            · exact Or.inr first
            · have away := Page.apart first
              exact Or.inl ⟨by omega, inside⟩
      · refine ⟨m, [], ?_, frees, ?_⟩
        · rw [Vm.freeFrom, if_neg more]
          rfl
        · intro page
          rw [UInt32.le_iff_toNat_le, next] at more
          constructor
          · intro member
            cases member
          · rintro ⟨after, before⟩
            omega

theorem Machine.Free.freerange {m : Machine} {free : List (Page symbols)} (frees : m.Free free)
    {vstart vend : UInt32} (start : symbols.kend.toNat ≤ vstart.toNat)
    (inside : vstart.toNat ≤ 0x8E000000) (bound : vend.toNat ≤ 0x8E000000)
    (apart : ∀ page ∈ free, page.addr.toNat < vstart.toNat) :
    ∃ later added, freerange symbols vstart vend m = .done () later ∧
      later.Free (added ++ free) ∧ ∀ page : Page symbols, page ∈ added ↔
        vstart.toNat ≤ page.addr.toNat ∧ page.addr.toNat + 4096 ≤ vend.toNat := by
  have rounded : (pgRoundUp vstart).toNat = (vstart.toNat + 4095) / 4096 * 4096 :=
    toNat_pgRoundUp (by omega)
  obtain ⟨later, added, ran, listed, members⟩ := frees.freeFrom (p := pgRoundUp vstart)
    (by omega) (by omega) (by omega) bound
    (show vend.toNat < (pgRoundUp vstart).toNat + 4096 * turns by
      unfold turns npdentries nptentries
      omega)
    (by decide) (fun page member => Or.inl (by have low := apart page member; omega))
  refine ⟨later, added, ran, listed, fun page => ?_⟩
  have aligned := page.aligned
  rw [members]
  omega

/-- After `kinit` every page is free, provided the kernel fits into the memory
that is mapped while `kinit1` runs. -/
theorem kinit_frees (symbols : Symbols) (small : symbols.kend ≤ p2v (4 * 1024 * 1024))
    (memory : Memory) :
    ∃ m free, kinit symbols ⟨memory, 0⟩ = .done () m ∧ m.Free free ∧
      ∀ page : Page symbols, page ∈ free := by
  have empty : (⟨memory, 0⟩ : Machine).Free ([] : List (Page symbols)) := ⟨rfl, List.nodup_nil⟩
  have below : symbols.kend.toNat < 0x8E000000 := symbols.before
  have middle : (p2v (4 * 1024 * 1024)).toNat = 0x80400000 := by decide
  have top : (p2v phystop).toNat = 0x8E000000 := rfl
  have fits := UInt32.le_iff_toNat_le.mp small
  obtain ⟨later, low, first, frees, lows⟩ := empty.freerange (Nat.le_refl symbols.kend.toNat)
    (Nat.le_of_lt below) (show (p2v (4 * 1024 * 1024)).toNat ≤ 0x8E000000 by omega)
    (fun page none => by cases none)
  rw [List.append_nil] at frees
  obtain ⟨last, high, second, all, highs⟩ := frees.freerange fits (by omega) (Nat.le_of_eq top)
    (fun page member => by have ends := ((lows page).mp member).2; omega)
  refine ⟨last, high ++ low, ?_, all, ?_⟩
  · rw [kinit, Action.bind_done first]
    exact second
  · intro page
    have aligned := page.aligned
    have after := page.after
    have below := page.below
    rw [List.mem_append, lows, highs]
    omega

end Xv6.Vm
