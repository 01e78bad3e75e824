import Xv6.Library.Memory
import Xv6.Library.Wakeup

/-!
# Pipes

Any number of pipes, with the processes that write, read and close them. What
was stored, copied out and returned so far is kept beside the pipe.
-/

namespace Xv6.Proc

open Xv6.Library Monitor

def pipesize : Nat := 512

/-- A byte stored by the writer's `call`-th call of `pipewrite`. -/
structure StoredByte (Proc : Type) where
  writer : Proc
  call : Nat
  byte : UInt8

/-- A call of `pipewrite` that returned. -/
structure PipeWrite (Proc : Type) where
  writer : Proc
  call : Nat
  addr : Memory
  n : Int
  result : Int

structure Pipe (Proc : Type) where
  data : Memory
  /-- Number of bytes read. -/
  nread : UInt32
  /-- Number of bytes written. -/
  nwrite : UInt32
  readopen : Bool
  writeopen : Bool
  freed : Bool
  /-- The bytes stored, oldest first. -/
  stored : List (StoredByte Proc)
  /-- The bytes copied out by each `piperead`, oldest first. -/
  copied : List (List UInt8)
  written : List (PipeWrite Proc)

inductive PipeCall where
  | pipewrite (addr : Memory) (n : Int)
  | piperead (n : Int)
  | pipeclose (writable : Bool)

/-- How far a process is in a call. -/
inductive PipeStage where
  | idle
  | write (addr : Memory) (n : Int) (i : Nat)
  /-- The pipe is full and the readers were woken. -/
  | full (addr : Memory) (n : Int) (i : Nat)
  /-- All bytes are stored and the readers were woken. -/
  | stored (addr : Memory) (n : Int)
  | read (n : Int)
  /-- `i` bytes are copied and the writers were woken. -/
  | copied (i : Nat)
  | close (writable : Bool)
  | closed

structure PipeLocal where
  /-- How often the process called `pipewrite`. -/
  calls : Nat
  stage : PipeStage
  result : Int

/-- `&p->nread` and `&p->nwrite` -/
inductive PipeChan (Lock : Type) where
  | nread (p : Lock)
  | nwrite (p : Lock)
  deriving DecidableEq

variable {Proc Cpu Lock : Type}

namespace Pipe

/-- What `pipealloc` makes. -/
def pipealloc (data : Memory) : Pipe Proc where
  data := data
  nread := 0
  nwrite := 0
  readopen := true
  writeopen := true
  freed := false
  stored := []
  copied := []
  written := []

def IsFull (p : Pipe Proc) : Prop := p.nwrite = p.nread + 512

instance (p : Pipe Proc) : Decidable p.IsFull := inferInstanceAs (Decidable (_ = _))

def IsEmpty (p : Pipe Proc) : Prop := p.nread = p.nwrite

instance (p : Pipe Proc) : Decidable p.IsEmpty := inferInstanceAs (Decidable (_ = _))

/-- `p->data[p->nwrite++ % PIPESIZE] = byte` -/
def store (p : Pipe Proc) (writer : Proc) (call : Nat) (byte : UInt8) : Pipe Proc :=
  { p with
    data := Function.update p.data (p.nwrite % 512).toNat byte
    nwrite := p.nwrite + 1
    stored := p.stored ++ [⟨writer, call, byte⟩] }

/-- The loop of `pipewrite` until the pipe is full or `left` bytes are stored. -/
def fill (writer : Proc) (call : Nat) (addr : Memory) : Nat → Nat → Pipe Proc → Nat × Pipe Proc
  | 0, i, p => (i, p)
  | left + 1, i, p =>
      if p.IsFull then (i, p) else fill writer call addr left (i + 1) (p.store writer call (addr i))

/-- The loop of `piperead` until the pipe is empty or `left` bytes are copied. -/
def drain : Nat → List UInt8 → Pipe Proc → List UInt8 × Pipe Proc
  | 0, bytes, p => (bytes, p)
  | left + 1, bytes, p =>
      if p.IsEmpty then (bytes, p)
      else drain left (bytes ++ [p.data (p.nread % 512).toNat]) { p with nread := p.nread + 1 }

end Pipe

/-- `pipewrite`, `piperead` and `pipeclose`. -/
def pipes : Monitor Proc Lock (PipeChan Lock) (Lock × PipeCall) (Pipe Proc) PipeLocal where
  start _ here call :=
    match call with
    | (p, .pipewrite addr n) =>
        some (p, { here with calls := here.calls + 1, stage := .write addr n 0 })
    | (p, .piperead n) => some (p, { here with stage := .read n })
    | (p, .pipeclose writable) => some (p, { here with stage := .close writable })
  body myproc killed p here pipe :=
    match here.stage with
    | .write addr n i =>
        let (i, pipe) := pipe.fill myproc here.calls addr (n.toNat - i) i
        if i < n then
          if pipe.readopen = false ∨ killed = true then
            ({ pipe with written := pipe.written ++ [⟨myproc, here.calls, addr, n, -1⟩] },
              .release { here with stage := .idle, result := -1 })
          else (pipe, .wakeup (.nread p) { here with stage := .full addr n i })
        else (pipe, .wakeup (.nread p) { here with stage := .stored addr n })
    | .full addr n i => (pipe, .sleep (.nwrite p) { here with stage := .write addr n i })
    | .stored addr n =>
        ({ pipe with written := pipe.written ++ [⟨myproc, here.calls, addr, n, n⟩] },
          .release { here with stage := .idle, result := n })
    | .read n =>
        if pipe.IsEmpty ∧ pipe.writeopen = true then
          if killed = true then (pipe, .release { here with stage := .idle, result := -1 })
          else (pipe, .sleep (.nread p) here)
        else
          let (bytes, pipe) := pipe.drain n.toNat []
          ({ pipe with copied := pipe.copied ++ [bytes] },
            .wakeup (.nwrite p) { here with stage := .copied bytes.length })
    | .copied i => (pipe, .release { here with stage := .idle, result := i })
    | .close true =>
        ({ pipe with writeopen := false }, .wakeup (.nread p) { here with stage := .closed })
    | .close false =>
        ({ pipe with readopen := false }, .wakeup (.nwrite p) { here with stage := .closed })
    | .closed =>
        -- The page is freed when both ends are closed.
        (if pipe.readopen = false ∧ pipe.writeopen = false then { pipe with freed := true } else pipe,
          .release { here with stage := .idle })
    | .idle => (pipe, .release here)

/-! ## The ring -/

namespace Pipe

/-- The counters count the bytes stored and those copied out, which come first,
and the ring has the bytes between. -/
structure Ring (p : Pipe Proc) (copied : List UInt8) : Prop where
  nread : p.nread = UInt32.ofNat copied.length
  nwrite : p.nwrite = UInt32.ofNat p.stored.length
  room : p.stored.length ≤ copied.length + pipesize
  first : copied <+: p.stored.map StoredByte.byte
  rest : ∀ k, copied.length ≤ k → k < p.stored.length →
    (p.stored.map StoredByte.byte)[k]? = some (p.data (k % pipesize))

variable {p : Pipe Proc} {copied : List UInt8}

theorem Ring.behind (ring : p.Ring copied) : copied.length ≤ p.stored.length := by
  have short := ring.first.length_le
  rwa [List.length_map] at short

/-- The ring has nothing to do with the ends, nor with which calls returned. -/
theorem Ring.same {q : Pipe Proc} (ring : p.Ring copied) (nread : q.nread = p.nread)
    (nwrite : q.nwrite = p.nwrite) (data : q.data = p.data) (stored : q.stored = p.stored) :
    q.Ring copied := by
  constructor
  · rw [nread]
    exact ring.nread
  · rw [nwrite, stored]
    exact ring.nwrite
  · rw [stored]
    exact ring.room
  · rw [stored]
    exact ring.first
  · rw [stored, data]
    exact ring.rest

/-- The index of a counter in the ring does not see that the counter wraps. -/
theorem index_ofNat (n : Nat) : (UInt32.ofNat n % 512).toNat = n % pipesize := by
  rw [UInt32.toNat_mod, UInt32.toNat_ofNat']
  exact Nat.mod_mod_of_dvd n (by decide)

theorem Ring.used (ring : p.Ring copied) :
    (p.nwrite - p.nread).toNat = p.stored.length - copied.length := by
  have behind := ring.behind
  have room : p.stored.length ≤ copied.length + 512 := ring.room
  rw [ring.nwrite, ring.nread, UInt32.toNat_sub, UInt32.toNat_ofNat', UInt32.toNat_ofNat']
  omega

theorem Ring.isFull_iff (ring : p.Ring copied) :
    p.IsFull ↔ p.stored.length = copied.length + pipesize := by
  have behind := ring.behind
  have room : p.stored.length ≤ copied.length + 512 := ring.room
  rw [IsFull, ring.nwrite, ring.nread, ← UInt32.toNat_inj, UInt32.toNat_add, UInt32.toNat_ofNat',
    UInt32.toNat_ofNat']
  change _ = (_ + 512) % _ ↔ _ = _ + 512
  omega

theorem Ring.isEmpty_iff (ring : p.Ring copied) : p.IsEmpty ↔ p.stored.length = copied.length := by
  have behind := ring.behind
  have room : p.stored.length ≤ copied.length + 512 := ring.room
  rw [IsEmpty, ring.nwrite, ring.nread, ← UInt32.toNat_inj, UInt32.toNat_ofNat', UInt32.toNat_ofNat']
  omega

theorem Ring.store (ring : p.Ring copied) (room : ¬p.IsFull) (writer : Proc) (call : Nat)
    (byte : UInt8) : (p.store writer call byte).Ring copied := by
  have behind := ring.behind
  have space := ring.room
  rw [ring.isFull_iff] at room
  constructor
  · exact ring.nread
  · rw [Pipe.store, List.length_append, List.length_singleton, ring.nwrite, UInt32.ofNat_add]
    rfl
  · rw [Pipe.store, List.length_append, List.length_singleton]
    omega
  · rw [Pipe.store, List.map_append]
    exact ring.first.trans (List.prefix_append _ _)
  · intro k after before
    simp only [Pipe.store, List.length_append, List.length_singleton] at before
    simp only [Pipe.store, List.map_append]
    rw [ring.nwrite, index_ofNat]
    by_cases last : k = p.stored.length
    · subst last
      rw [Function.update_self, List.getElem?_append_right (by simp), List.length_map,
        Nat.sub_self]
      rfl
    · have other : k % pipesize ≠ p.stored.length % pipesize := by
        have small : p.stored.length < k + pipesize := by omega
        unfold pipesize at small ⊢
        omega
      rw [Function.update_of_ne other, List.getElem?_append_left (by rw [List.length_map]; omega)]
      exact ring.rest k after (by omega)

theorem Ring.copy (ring : p.Ring copied) (some : ¬p.IsEmpty) :
    Ring { p with nread := p.nread + 1 } (copied ++ [p.data (p.nread % 512).toNat]) := by
  have behind := ring.behind
  rw [ring.isEmpty_iff] at some
  have next := ring.rest copied.length (Nat.le_refl _) (by omega)
  rw [ring.nread, index_ofNat]
  constructor
  · rw [List.length_append, List.length_singleton, UInt32.ofNat_add]
    rfl
  · exact ring.nwrite
  · have space := ring.room
    rw [List.length_append, List.length_singleton]
    change p.stored.length ≤ _
    omega
  · rcases ring.first with ⟨rest, whole⟩
    change _ <+: p.stored.map StoredByte.byte
    rw [← whole] at next ⊢
    rw [List.getElem?_append_right (Nat.le_refl _), Nat.sub_self] at next
    cases rest with
    | nil => cases next
    | cons byte rest =>
        cases next
        exact ⟨rest, by simp⟩
  · intro k after before
    rw [List.length_append, List.length_singleton] at after
    exact ring.rest k (by omega) before

/-- The bytes from `addr[i]` to `addr[last - 1]` were stored. -/
structure Filled (p : Pipe Proc) (writer : Proc) (call : Nat) (addr : Memory) (i last : Nat)
    (after : Pipe Proc) : Prop where
  nread : after.nread = p.nread
  readopen : after.readopen = p.readopen
  writeopen : after.writeopen = p.writeopen
  copied : after.copied = p.copied
  written : after.written = p.written
  le : i ≤ last
  stored : after.stored =
    p.stored ++ (List.range (last - i)).map fun k => ⟨writer, call, addr (i + k)⟩

theorem fill_filled (p : Pipe Proc) (writer : Proc) (call : Nat) (addr : Memory) (left i : Nat) :
    let result := p.fill writer call addr left i
    p.Filled writer call addr i result.1 result.2 ∧ result.1 ≤ i + left ∧
      (result.1 < i + left → result.2.IsFull) := by
  induction left generalizing i p with
  | zero => exact ⟨⟨rfl, rfl, rfl, rfl, rfl, Nat.le_refl _, by simp [fill]⟩, Nat.le_refl _,
      fun less => absurd less (Nat.lt_irrefl _)⟩
  | succ left inductionHypothesis =>
      unfold fill
      by_cases full : p.IsFull
      · rw [if_pos full]
        exact ⟨⟨rfl, rfl, rfl, rfl, rfl, Nat.le_refl _, by simp⟩, Nat.le_add_right _ _,
          fun _ => full⟩
      · rw [if_neg full]
        have rest := inductionHypothesis (p.store writer call (addr i)) (i + 1)
        generalize (p.store writer call (addr i)).fill writer call addr left (i + 1) = result at rest ⊢
        rcases result with ⟨last, after⟩
        rcases rest with ⟨filled, bound, stops⟩
        refine ⟨?_, by omega, fun less => stops (by omega)⟩
        have low : i + 1 ≤ last := filled.le
        refine ⟨filled.nread, filled.readopen, filled.writeopen, filled.copied, filled.written,
          by omega, ?_⟩
        have count : last - i = 1 + (last - (i + 1)) := by omega
        rw [filled.stored, count, List.range_add, List.map_append, List.map_map]
        simp [store, Function.comp_def, Nat.add_assoc]

theorem Ring.fill (ring : p.Ring copied) (writer : Proc) (call : Nat) (addr : Memory)
    (left i : Nat) : (p.fill writer call addr left i).2.Ring copied := by
  induction left generalizing i p with
  | zero => exact ring
  | succ left inductionHypothesis =>
      unfold Pipe.fill
      by_cases full : p.IsFull
      · rw [if_pos full]
        exact ring
      · rw [if_neg full]
        exact inductionHypothesis (ring.store full writer call (addr i)) (i + 1)

/-- If nothing was stored, nothing changed. -/
theorem fill_none {writer : Proc} {call : Nat} {addr : Memory} {left i : Nat}
    (none : (p.fill writer call addr left i).1 = i) : (p.fill writer call addr left i).2 = p := by
  cases left with
  | zero => rfl
  | succ left =>
      unfold fill at none ⊢
      by_cases full : p.IsFull
      · rw [if_pos full]
      · rw [if_neg full] at none
        have low := (fill_filled (p.store writer call (addr i)) writer call addr left (i + 1)).1.le
        omega

theorem drain_ring (left : Nat) (bytes : List UInt8) {old : List UInt8}
    (ring : p.Ring (old ++ bytes)) :
    let result := p.drain left bytes
    result.2.Ring (old ++ result.1) ∧ result.2.stored = p.stored ∧ result.2.copied = p.copied ∧
      result.2.written = p.written ∧ result.2.writeopen = p.writeopen := by
  induction left generalizing bytes p with
  | zero => exact ⟨ring, rfl, rfl, rfl, rfl⟩
  | succ left inductionHypothesis =>
      unfold drain
      by_cases empty : p.IsEmpty
      · rw [if_pos empty]
        exact ⟨ring, rfl, rfl, rfl, rfl⟩
      · rw [if_neg empty]
        have copied := ring.copy empty
        rw [List.append_assoc] at copied
        exact inductionHypothesis _ copied

end Pipe

end Xv6.Proc
