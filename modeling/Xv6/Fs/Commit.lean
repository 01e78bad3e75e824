import Xv6.Fs.Journal

/-!
# What commit and recovery do

The disk after each write of the copying loops, and from it that a commit keeps
what the disk stands for until the header is written, and that recovery keeps
it to the end.
-/

namespace Xv6.Fs

open Xv6.Library

/-- The disk after the first `count` copies. -/
def copyDisk (dst : Nat → Nat) (content : Nat → Block) (disk : Nat → Block) :
    Nat → Nat → Block
  | 0 => disk
  | count + 1 => Function.update (copyDisk dst content disk count) (dst count) (content count)

def copyWrites (dst : Nat → Nat) (written : List Nat) : Nat → List Nat
  | 0 => written
  | count + 1 => dst count :: copyWrites dst written count

variable {dst : Nat → Nat} {content : Nat → Block} {disk : Nat → Block} {written : List Nat}

theorem copyDisk_of_ne {count b : Nat} (apart : ∀ i < count, dst i ≠ b) :
    copyDisk dst content disk count b = disk b := by
  induction count with
  | zero => rfl
  | succ count inductionHypothesis =>
      simp only [copyDisk]
      rw [Function.update_of_ne (apart count (Nat.lt_succ_self count)).symm]
      exact inductionHypothesis fun i below => apart i (Nat.lt_succ_of_lt below)

/-- Copies to one block agree, so it holds what any of them put there. -/
theorem copyDisk_at (dst : Nat → Nat) {count i : Nat} (below : i < count)
    (agree : ∀ j < count, dst j = dst i → content j = content i) :
    copyDisk dst content disk count (dst i) = content i := by
  induction count with
  | zero => exact absurd below (Nat.not_lt_zero i)
  | succ count inductionHypothesis =>
      simp only [copyDisk]
      by_cases same : dst count = dst i
      · rw [← same, Function.update_self]
        exact agree count (Nat.lt_succ_self count) same
      · rw [Function.update_of_ne (Ne.symm same)]
        have earlier : i < count := by
          rcases Nat.lt_succ_iff_lt_or_eq.mp below with earlier | rfl
          · exact earlier
          · exact absurd rfl same
        exact inductionHypothesis earlier fun j inside => agree j (Nat.lt_succ_of_lt inside)

theorem mem_copyWrites {count b : Nat} :
    b ∈ copyWrites dst written count ↔ (∃ i < count, dst i = b) ∨ b ∈ written := by
  induction count with
  | zero => simp [copyWrites]
  | succ count inductionHypothesis =>
      simp only [copyWrites, List.mem_cons, inductionHypothesis, Nat.exists_lt_succ_right]
      grind

theorem copyWrites_append (recent : List Nat) (count : Nat) :
    copyWrites dst (recent ++ written) count = copyWrites dst recent count ++ written := by
  induction count with
  | zero => rfl
  | succ count inductionHypothesis => simp [copyWrites, inductionHypothesis]

/-! ## The loops and the header -/

variable {p : Pid} {pinned : List Pin} {log : Log} {phase : Log → List Nat → (Nat → Block) → Prop}

/-- The end of an iteration of either copying loop. -/
theorem copy_safe {dstBuf srcBuf : BufPtr} {blockno number : Nat} {old bytes : Block}
    {held : List Holding} {store : Store} (now : phase log written disk)
    (next : phase log (blockno :: written) (Function.update disk blockno bytes))
    (different : dstBuf ≠ srcBuf) (free : blockno ∉ pinned.map Prod.fst)
    (here : At p none held pinned log disk written store)
    (dst : (dstBuf, blockno, old) ∈ held) (src : (srcBuf, number, bytes) ∈ held) :
    (journal p phase).Safe
      (fun _ => At p none [] pinned log (Function.update disk blockno bytes) (blockno :: written))
      (do
        memmove dstBuf srcBuf
        Program.atom (bwrite dstBuf)
        brelse p srcBuf
        brelse p dstBuf)
      store := by
  have fresh : dstBuf ∉ [(srcBuf, number, bytes)].map Prod.fst := by simpa using different
  have other : srcBuf ∉ [(dstBuf, blockno, bytes)].map Prod.fst := by simpa using different.symm
  have both : At p none [(dstBuf, blockno, old), (srcBuf, number, bytes)] pinned log disk
      written store := here.mono (by simp [dst, src]) (List.Subset.refl _)
  refine Setting.Triple.bind (memmove_triple now (List.mem_singleton.mpr rfl) fresh free)
    (fun _ => ?_) store both
  refine Setting.Triple.bind (bwrite_triple now next fresh free) ?_
  intro _ state here
  have swapped : At p none [(srcBuf, number, bytes), (dstBuf, blockno, bytes)] pinned log
      (Function.update disk blockno bytes) (blockno :: written) state :=
    here.mono (by simp) (List.Subset.refl _)
  exact Setting.Triple.bind (brelse_triple next other)
    (fun _ => brelse_triple next (by simp)) state swapped

theorem writeLog_triple (device : log.dev = rootDev) (new : Nat → Block)
    (fits : log.lh.n = 0 ∨ log.lh.n < log.size)
    (dirty : ∀ i < log.lh.n, (log.lh.block i, new (log.lh.block i)) ∈ pinned)
    (home : ∀ pin ∈ pinned, ¬log.Owns pin.1)
    (phases : ∀ tail ≤ log.lh.n, phase log (copyWrites (fun i => log.start + i + 1) written tail)
      (copyDisk (fun i => log.start + i + 1) (fun i => new (log.lh.block i)) disk tail)) :
    (journal p phase).Triple (At p none [] pinned log disk written) (writeLog p)
      fun _ => At p none [] pinned log
        (copyDisk (fun i => log.start + i + 1) (fun i => new (log.lh.block i)) disk log.lh.n)
        (copyWrites (fun i => log.start + i + 1) written log.lh.n) := by
  unfold writeLog forTail
  refine Setting.Triple.forFrom
    (fun tail => At p none [] pinned log
      (copyDisk (fun i => log.start + i + 1) (fun i => new (log.lh.block i)) disk tail)
      (copyWrites (fun i => log.start + i + 1) written tail))
    (fun _ _ here => congrArg (fun log => log.lh.n) here.log)
    (fun tail inside => At.stable (phases tail inside)) ?_ logSize (Nat.zero_le _)
  intro tail below
  have now := phases tail (Nat.le_of_lt below)
  have next := phases (tail + 1) below
  have inLog : log.Owns (log.start + tail + 1) := log.owns_data (by omega)
  have free : log.start + tail + 1 ∉ pinned.map Prod.fst := by
    intro membership
    rcases List.mem_map.mp membership with ⟨pin, member, same⟩
    exact home pin member (same ▸ inLog)
  refine Setting.Triple.bind_get (At.stable now) log (fun _ here => here.log) ?_
  refine Setting.Triple.bind (bread_triple device now) ?_
  rintro toBuf state ⟨old, here, fresh, -⟩
  refine Setting.Triple.bind (bread_triple device now) ?_ state here
  rintro fromBuf state ⟨copy, here, apart, -, agrees⟩
  obtain rfl := agrees _ (dirty tail below)
  have different : toBuf ≠ fromBuf := by
    rintro rfl
    simp at apart
  exact copy_safe now next different free here (List.mem_cons_of_mem _ List.mem_cons_self)
    List.mem_cons_self

/-- The log blocks are read back from disk and written home. -/
theorem installTrans_triple (device : log.dev = rootDev)
    (fits : log.lh.n = 0 ∨ log.lh.n < log.size)
    (home : ∀ i < log.lh.n, ¬log.Owns (log.lh.block i))
    (phases : ∀ tail ≤ log.lh.n, phase log (copyWrites log.lh.block written tail)
      (copyDisk log.lh.block (fun i => disk (log.start + i + 1)) disk tail)) :
    (journal p phase).Triple (At p none [] [] log disk written) (installTrans p)
      fun _ => At p none [] [] log
        (copyDisk log.lh.block (fun i => disk (log.start + i + 1)) disk log.lh.n)
        (copyWrites log.lh.block written log.lh.n) := by
  unfold installTrans forTail
  refine Setting.Triple.forFrom
    (fun tail => At p none [] [] log
      (copyDisk log.lh.block (fun i => disk (log.start + i + 1)) disk tail)
      (copyWrites log.lh.block written tail))
    (fun _ _ here => congrArg (fun log => log.lh.n) here.log)
    (fun tail inside => At.stable (phases tail inside)) ?_ logSize (Nat.zero_le _)
  intro tail below
  have now := phases tail (Nat.le_of_lt below)
  have next := phases (tail + 1) below
  have inLog : log.Owns (log.start + tail + 1) := log.owns_data (by omega)
  -- the log block itself is never a destination
  have kept : copyDisk log.lh.block (fun i => disk (log.start + i + 1)) disk tail
      (log.start + tail + 1) = disk (log.start + tail + 1) := by
    apply copyDisk_of_ne
    intro i earlier same
    exact home i (Nat.lt_trans earlier below) (same ▸ inLog)
  refine Setting.Triple.bind_get (At.stable now) log (fun _ here => here.log) ?_
  refine Setting.Triple.bind (bread_triple device now) ?_
  rintro lbuf state ⟨copy, here, fresh, coherent, -⟩
  obtain rfl := (coherent inLog).trans kept
  refine Setting.Triple.bind (bread_triple device now) ?_ state here
  rintro dbuf state ⟨old, here, apart, -⟩
  have different : dbuf ≠ lbuf := by
    rintro rfl
    simp at apart
  exact copy_safe now next different List.not_mem_nil here List.mem_cons_self
    (List.mem_cons_of_mem _ List.mem_cons_self)

theorem writeHead_triple (device : log.dev = rootDev) (now : phase log written disk)
    (next : phase log (log.start :: written)
      (Function.update disk log.start (putHeader log.lh (disk log.start))))
    (home : ∀ pin ∈ pinned, ¬log.Owns pin.1) :
    (journal p phase).Triple (At p none [] pinned log disk written) (writeHead p)
      fun _ => At p none [] pinned log
        (Function.update disk log.start (putHeader log.lh (disk log.start)))
        (log.start :: written) := by
  have free : log.start ∉ pinned.map Prod.fst := by
    intro membership
    rcases List.mem_map.mp membership with ⟨pin, member, same⟩
    exact home pin member (same ▸ log.owns_start)
  refine Setting.Triple.bind_get (At.stable now) log (fun _ here => here.log) ?_
  refine Setting.Triple.bind (bread_triple device now) ?_
  rintro buf state ⟨old, here, fresh, coherent, -⟩
  obtain rfl := coherent log.owns_start
  have filled : ∀ store, At p none [(buf, log.start, disk log.start)] pinned log disk written
      store → putHeader store.log.lh (store.buf buf).data = putHeader log.lh (disk log.start) := by
    intro store here
    rw [here.log, (here.held _ List.mem_cons_self).data]
  refine Setting.Triple.bind (fill_triple now fresh free _ filled) (fun _ => ?_) state here
  exact Setting.Triple.bind (bwrite_triple now next fresh free)
    fun _ => brelse_triple next fresh

/-- Changing the in-memory header leaves the cache as it is. -/
theorem setHead_triple {held : List Holding} {action : Store → Outcome Store Unit}
    (lh : LogHeader) (now : phase log written disk)
    (next : phase { log with lh := lh } written disk)
    (effect : ∀ store next, At p none held pinned log disk written store →
      action store = .done () next → next = { store with log := { log with lh := lh } }) :
    (journal p phase).Triple (At p none held pinned log disk written) (Program.atom action)
      fun _ => At p none held pinned { log with lh := lh } disk written := by
  apply Setting.Triple.atom (At.stable now) (fun _ => At.stable next)
  rintro state ⟨⟩ next here done
  obtain rfl := effect state next here done
  refine ⟨here.cache.of_buf rfl rfl ?_, here.owner, rfl, here.disk, here.written, ?_, here.pinned⟩
  · rw [here.log]
    rfl
  · intro holding membership
    have holds := here.held holding membership
    exact ⟨holds.lock, holds.valid, holds.dev, holds.blockno, holds.data⟩

theorem clearHead_triple (now : phase log written disk)
    (next : phase { log with lh := { log.lh with n := 0 } } written disk) :
    (journal p phase).Triple (At p none [] pinned log disk written) clearHead
      fun _ => At p none [] pinned { log with lh := { log.lh with n := 0 } } disk written := by
  apply setHead_triple _ now next
  intro store next here done
  simp only [Outcome.done.injEq, true_and] at done
  rw [← done, here.log]

theorem readHead_triple (device : log.dev = rootDev)
    (closed : ∀ lh, phase { log with lh := lh } written disk) :
    (journal p phase).Triple (At p none [] pinned log disk written) (readHead p)
      fun _ store => ∃ lh, lh.n = (headerOf (disk log.start)).n ∧
        (∀ i < lh.n, lh.block i = (headerOf (disk log.start)).block i) ∧
        At p none [] pinned { log with lh := lh } disk written store := by
  have now : phase log written disk := closed log.lh
  let lh : LogHeader :=
    { n := (headerOf (disk log.start)).n
      block := fun i => if i < (headerOf (disk log.start)).n then
        (headerOf (disk log.start)).block i else log.lh.block i }
  refine Setting.Triple.bind_get (At.stable now) log (fun _ here => here.log) ?_
  refine Setting.Triple.bind (bread_triple device now) ?_
  rintro buf state ⟨old, here, fresh, coherent, -⟩
  obtain rfl := coherent log.owns_start
  refine Setting.Triple.bind (setHead_triple lh now (closed lh) ?_) (fun _ => ?_) state here
  · intro store next here done
    have data := (here.held _ List.mem_cons_self).data
    simp only at data
    by_cases large : logSize < (headerOf (store.buf buf).data).n
    · simp [large] at done
    · rw [if_neg large] at done
      simp only [Outcome.done.injEq, true_and] at done
      rw [← done, here.log, data]
  · refine (brelse_triple (closed lh) fresh).consequence (fun _ reached => reached) ?_ ?_
    · intro _
      constructor
      · rintro state later ⟨lh, count, blocks, here⟩ others
        exact ⟨lh, count, blocks, here.later others⟩
      · rintro state ⟨lh, -, -, here⟩
        exact (At.stable (closed lh)).allowed here
    · intro _ store here
      refine ⟨lh, rfl, ?_, here⟩
      intro i below
      have inside : i < (headerOf (disk log.start)).n := below
      simp only [lh, inside, if_true]

end Xv6.Fs
