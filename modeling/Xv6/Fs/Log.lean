import Xv6.Fs.Cache
import Xv6.Library.Loop

/-!
# The redo log

`log.c`: the header block, the copying loops of a commit, and recovery. A disk
stands for a content, read through its log header; every write of a commit or
of recovery keeps that content, except the one that commits.
-/

namespace Xv6.Fs

open Xv6.Library

/-! ## The header block -/

/-- `struct logheader` as a block holds it. A negative count runs no loop, as
0 does. -/
def headerOf (data : Block) : LogHeader where
  n := if data.load 0 4 < 2 ^ 31 then data.load 0 4 else 0
  block := fun i => data.load (4 + 4 * i) 4

/-- The stores of `write_head`: the count and the first `n` numbers. -/
def putHeader (lh : LogHeader) (data : Block) : Block :=
  forLoop lh.n (fun i data => data.store (4 + 4 * i) 4 (lh.block i)) (data.store 0 4 lh.n)

theorem putHeader_fields (lh : LogHeader) (data : Block) (small : lh.n < 2 ^ 32)
    (fits : ∀ i < lh.n, lh.block i < 2 ^ 32) :
    (putHeader lh data).load 0 4 = lh.n ∧
      ∀ i < lh.n, (putHeader lh data).load (4 + 4 * i) 4 = lh.block i := by
  unfold putHeader
  refine forLoop_invariant (fun count (current : Block) => current.load 0 4 = lh.n ∧
    ∀ i < count, current.load (4 + 4 * i) 4 = lh.block i) ?_ ?_
  · refine ⟨Memory.load_store_fits _ _ (by simpa using small), ?_⟩
    intro i below
    exact absurd below (Nat.not_lt_zero i)
  · rintro count current below ⟨counted, stored⟩
    refine ⟨?_, ?_⟩
    · rw [Memory.load_store_disjoint _ _ (Or.inl (by omega)), counted]
    · intro i inside
      by_cases last : i = count
      · subst last
        exact Memory.load_store_fits _ _ (by simpa using fits i below)
      · rw [Memory.load_store_disjoint _ _ (Or.inl (by omega))]
        exact stored i (by omega)

theorem headerOf_putHeader (lh : LogHeader) (data : Block) (small : lh.n ≤ logSize)
    (fits : ∀ i < lh.n, lh.block i < 2 ^ 32) :
    (headerOf (putHeader lh data)).n = lh.n ∧
      ∀ i < lh.n, (headerOf (putHeader lh data)).block i = lh.block i := by
  have bound : lh.n ≤ 30 := small
  have fields := putHeader_fields lh data (by omega) fits
  refine ⟨?_, fields.2⟩
  simp only [headerOf, fields.1]
  exact if_pos (by omega)

/-! ## The functions of `log.c` -/

/-- The loops `for (tail = 0; tail < log.lh.n; tail++)`. -/
def forTail (body : Nat → Program Store Unit) : Program Store Unit :=
  Program.forFrom (fun store => store.log.lh.n) body logSize 0

def memmove (dst src : BufPtr) : Program Store Unit :=
  Program.modify fun store =>
    store.setBuf dst { store.buf dst with data := (store.buf src).data }

/-- Copy committed blocks from log to their home location. -/
def installTrans (p : Pid) : Program Store Unit :=
  forTail fun tail => do
    let log ← Program.get Store.log
    let lbuf ← bread p log.dev (log.start + tail + 1)
    let dbuf ← bread p log.dev (log.lh.block tail)
    memmove dbuf lbuf
    Program.atom (bwrite dbuf)
    brelse p lbuf
    brelse p dbuf

/-- Read the log header from disk into the in-memory log header. -/
def readHead (p : Pid) : Program Store Unit := do
  let log ← Program.get Store.log
  let buf ← bread p log.dev log.start
  Program.atom fun store =>
    let lh := headerOf (store.buf buf).data
    if logSize < lh.n then .panic "log.lh.block out of range"
    else
      .done () { store with log := { store.log with lh :=
        { n := lh.n, block := fun i => if i < lh.n then lh.block i else store.log.lh.block i } } }
  brelse p buf

/-- Write in-memory log header to disk. -/
def writeHead (p : Pid) : Program Store Unit := do
  let log ← Program.get Store.log
  let buf ← bread p log.dev log.start
  Program.modify fun store =>
    store.setBuf buf
      { store.buf buf with data := putHeader store.log.lh (store.buf buf).data }
  Program.atom (bwrite buf)
  brelse p buf

/-- `log.lh.n = 0` -/
def clearHead : Program Store Unit :=
  Program.modify fun store =>
    { store with log := { store.log with lh := { store.log.lh with n := 0 } } }

def recoverFromLog (p : Pid) : Program Store Unit := do
  readHead p
  installTrans p
  clearHead
  writeHead p

/-- Copy modified blocks from cache to log. -/
def writeLog (p : Pid) : Program Store Unit :=
  forTail fun tail => do
    let log ← Program.get Store.log
    let toBuf ← bread p log.dev (log.start + tail + 1)
    let fromBuf ← bread p log.dev (log.lh.block tail)
    memmove toBuf fromBuf
    Program.atom (bwrite toBuf)
    brelse p fromBuf
    brelse p toBuf

def commit (p : Pid) : Program Store Unit := do
  if ← Program.get fun store => decide (0 < store.log.lh.n) then
    writeLog p
    writeHead p
    installTrans p
    clearHead
    writeHead p

/-! ## What a disk stands for -/

/-- The home blocks hold `content`, or the log holds what is to be copied to
them. -/
structure Represents (log : Log) (disk : Nat → Block) (content : Nat → Block) : Prop where
  small : (headerOf (disk log.start)).n ≤ logSize
  fits : (headerOf (disk log.start)).n = 0 ∨ (headerOf (disk log.start)).n < log.size
  home : ∀ i < (headerOf (disk log.start)).n, ¬log.Owns ((headerOf (disk log.start)).block i)
  logged : ∀ i < (headerOf (disk log.start)).n,
    disk (log.start + i + 1) = content ((headerOf (disk log.start)).block i)
  elsewhere : ∀ b, ¬log.Owns b →
    (∀ i < (headerOf (disk log.start)).n, (headerOf (disk log.start)).block i ≠ b) →
    disk b = content b

variable {log : Log} {disk other content : Nat → Block}

theorem Log.owns_start (log : Log) : log.Owns log.start := Or.inl rfl

theorem Log.owns_data (log : Log) {tail : Nat} (inside : tail + 1 < log.size) :
    log.Owns (log.start + tail + 1) :=
  Or.inr ⟨by omega, by omega⟩

theorem Represents.of_empty (empty : (headerOf (disk log.start)).n = 0)
    (same : ∀ b, ¬log.Owns b → disk b = content b) : Represents log disk content := by
  constructor
  · omega
  · exact Or.inl empty
  · intro i below
    omega
  · intro i below
    omega
  · exact fun b free _ => same b free

/-- Copying a log block to its home location. -/
theorem Represents.install (represents : Represents log disk content) {i : Nat}
    (below : i < (headerOf (disk log.start)).n) :
    Represents log (Function.update disk ((headerOf (disk log.start)).block i)
      (disk (log.start + i + 1))) content := by
  have free := represents.home i below
  have header : Function.update disk ((headerOf (disk log.start)).block i)
      (disk (log.start + i + 1)) log.start = disk log.start := by
    rw [Function.update_of_ne]
    intro same
    exact free (same ▸ log.owns_start)
  have fits := represents.fits
  constructor
  · simpa only [header] using represents.small
  · simpa only [header] using represents.fits
  · simpa only [header] using represents.home
  · simp only [header]
    intro k inside
    rw [Function.update_of_ne]
    · exact represents.logged k inside
    · intro same
      exact free (same ▸ log.owns_data (by omega))
  · simp only [header]
    intro b home apart
    rw [Function.update_of_ne (apart i below).symm]
    exact represents.elsewhere b home apart

end Xv6.Fs
