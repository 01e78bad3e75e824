import Mathlib.Algebra.BigOperators.Fin
import Xv6.Fs.References

/-!
# Writing through a shared open file

`filewrite` in `file.c`, called by any number of processes on one `struct file`
that refers to an inode. A call writes its bytes in chunks, with the inode locked
while it writes one and advances the offset.
-/

namespace Xv6.Fs

open Xv6.Library

/-! ## filewrite -/

/-- `max`: bytes that are written in one transaction -/
def chunkMax : Nat := ((maxOpBlocks - 1 - 1 - 2) / 2) * 512

/-- Where a call of `filewrite` is; `r` is its variable. -/
inductive WriteStage where
  /-- at the test of the loop -/
  | test
  /-- between `ilock` and `writei` -/
  | locked
  /-- between `writei` and the change of the offset -/
  | written (r : Int)
  /-- before `iunlock` -/
  | advanced (r : Int)
deriving DecidableEq

/-- A call under way: its number, and the variable `i`. -/
structure WriteCall where
  id : Nat
  i : Nat
  stage : WriteStage
deriving DecidableEq

/-- The file system and the open file, with the lock of its inode. The rest is history: what
the calls so far are to write, their results, and the chunks written, each with its call. -/
structure SharedFile where
  fs : FsState
  writable : Bool
  off : UInt32
  lock : Option Pid
  inside : Pid → Option WriteCall
  buffers : List (List UInt8)
  results : Nat → Option Int
  chunks : List (Nat × List UInt8)

inductive SharedEvent where
  | filewrite (p : Pid) (addr : List UInt8)
  | ilock (p : Pid)
  | writei (p : Pid)
  | advance (p : Pid)
  | iunlock (p : Pid)
  | leave (p : Pid)

namespace SharedFile

/-- The bytes at `addr` in a call. -/
def addr (state : SharedFile) (id : Nat) : List UInt8 := state.buffers.getD id []

def setCall (state : SharedFile) (p : Pid) (call : Option WriteCall) : SharedFile :=
  { state with inside := Function.update state.inside p call }

/-- `return i == n ? n : -1` -/
def finish (state : SharedFile) (p : Pid) (call : WriteCall) : SharedFile :=
  let n := (state.addr call.id).length
  { state.setCall p none with
    results := Function.update state.results call.id (some (if call.i = n then n else -1)) }

/-- `n1` -/
def chunk (state : SharedFile) (call : WriteCall) : Nat :=
  min ((state.addr call.id).length - call.i) chunkMax

variable (ip : InodePtr)

def step (state : SharedFile) : SharedEvent → Outcome SharedFile Unit
  | .filewrite p addr =>
      if state.inside p = none ∧ addr.length < 2 ^ 31 then
        let id := state.buffers.length
        let state := { state with buffers := state.buffers ++ [addr] }
        if state.writable = false then
          .done () { state with results := Function.update state.results id (some (-1)) }
        else .done () (state.setCall p (some ⟨id, 0, .test⟩))
      else .blocked
  | .ilock p =>
      match state.inside p with
      | some ⟨id, i, .test⟩ =>
          if i < (state.addr id).length ∧ state.lock = none then
            (Fs.ilock ip state.fs).mapState fun fs =>
              { state.setCall p (some ⟨id, i, .locked⟩) with fs := fs, lock := some p }
          else .blocked
      | _ => .blocked
  | .writei p =>
      match state.inside p with
      | some ⟨id, i, .locked⟩ =>
          let n1 := state.chunk ⟨id, i, .locked⟩
          match Fs.writei ip (fun o => (state.addr id).getD (i + o) 0) state.off
              (UInt32.ofNat n1) state.fs with
          | .blocked => .blocked
          | .panic message => .panic message
          | .done r fs =>
              let written := ((state.addr id).drop i).take r.toNat
              .done ()
                { state.setCall p (some ⟨id, i, .written r⟩) with
                  fs := fs
                  chunks := if 0 < r then state.chunks ++ [(id, written)] else state.chunks }
      | _ => .blocked
  | .advance p =>
      match state.inside p with
      | some ⟨id, i, .written r⟩ =>
          .done ()
            { state.setCall p (some ⟨id, i, .advanced r⟩) with
              off := if 0 < r then state.off + UInt32.ofNat r.toNat else state.off }
      | _ => .blocked
  | .iunlock p =>
      match state.inside p with
      | some ⟨id, i, .advanced r⟩ =>
          let state := { state with lock := none }
          if r < 0 then .done () (state.finish p ⟨id, i, .test⟩)
          else if r ≠ state.chunk ⟨id, i, .test⟩ then .panic "short filewrite"
          else .done () (state.setCall p (some ⟨id, i + r.toNat, .test⟩))
      | _ => .blocked
  | .leave p =>
      match state.inside p with
      | some ⟨id, i, .test⟩ =>
          if i < (state.addr id).length then .blocked
          else .done () (state.finish p ⟨id, i, .test⟩)
      | _ => .blocked

def next (state : SharedFile) (event : SharedEvent) : Option SharedFile :=
  (state.step ip event).state?

end SharedFile

/-! ## Chunks and their owners -/

/-- The bytes of one owner, in the order of the chunks. -/
def bytesOf (id : Nat) (chunks : List (Nat × List UInt8)) : List UInt8 :=
  (chunks.filter fun chunk => chunk.1 == id).flatMap Prod.snd

theorem bytesOf_append_self (id : Nat) (chunks : List (Nat × List UInt8)) (bytes : List UInt8) :
    bytesOf id (chunks ++ [(id, bytes)]) = bytesOf id chunks ++ bytes := by
  simp [bytesOf, List.filter_append]

theorem bytesOf_append_other {id other : Nat} (different : other ≠ id)
    (chunks : List (Nat × List UInt8)) (bytes : List UInt8) :
    bytesOf id (chunks ++ [(other, bytes)]) = bytesOf id chunks := by
  simp [bytesOf, List.filter_append, different]

theorem bytesOf_none {id : Nat} {chunks : List (Nat × List UInt8)}
    (others : ∀ chunk ∈ chunks, chunk.1 ≠ id) : bytesOf id chunks = [] := by
  have none : (chunks.filter fun chunk => chunk.1 == id) = [] := by
    rw [List.filter_eq_nil_iff]
    intro chunk member same
    exact others chunk member (beq_iff_eq.mp same)
  rw [bytesOf, none]
  rfl

/-- All bytes are some owner's. -/
theorem length_flatMap_owners {chunks : List (Nat × List UInt8)} {count : Nat}
    (owners : ∀ chunk ∈ chunks, chunk.1 < count) :
    (chunks.flatMap Prod.snd).length =
      ∑ id ∈ Finset.range count, (bytesOf id chunks).length := by
  induction chunks with
  | nil => exact (Finset.sum_eq_zero fun _ _ => rfl).symm
  | cons chunk rest inductionHypothesis =>
      have later := inductionHypothesis fun other member => owners other (List.mem_cons_of_mem _ member)
      have split : ∀ id, (bytesOf id (chunk :: rest)).length =
          (if chunk.1 = id then chunk.2.length else 0) + (bytesOf id rest).length := by
        intro id
        by_cases same : chunk.1 = id
        · simp [bytesOf, same]
        · simp [bytesOf, same]
      have here : chunk.1 ∈ Finset.range count :=
        Finset.mem_range.mpr (owners chunk (List.mem_cons_self ..))
      rw [List.flatMap_cons, List.length_append, later]
      simp only [split]
      rw [Finset.sum_add_distrib, Finset.sum_ite_eq, if_pos here]

/-! ## What the calls have written -/

variable {ip : InodePtr} {inum o : Nat} {array : List UInt8} {state next : SharedFile}

/-- Bytes of the chunk at hand that have been written. -/
def WriteStage.count : WriteStage → Nat
  | .written r | .advanced r => r.toNat
  | .test | .locked => 0

/-- Bytes written by which the offset has not been advanced. -/
def WriteStage.ahead : WriteStage → Nat
  | .written r => r.toNat
  | .test | .locked | .advanced _ => 0

/-- How far a call has come. -/
structure Progress (buffers : List (List UInt8)) (chunks : List (Nat × List UInt8))
    (call : WriteCall) : Prop where
  known : call.id < buffers.length
  bytes : bytesOf call.id chunks = (buffers.getD call.id []).take (call.i + call.stage.count)
  bounded : call.i ≤ (buffers.getD call.id []).length
  more : call.stage ≠ .test → call.i < (buffers.getD call.id []).length
  result : ∀ r, call.stage = .written r ∨ call.stage = .advanced r →
    r = -1 ∨ r = min ((buffers.getD call.id []).length - call.i) chunkMax

/-- The chunks are those of the calls, and each has its bytes in order. -/
structure Credited (inside : Pid → Option WriteCall) (buffers : List (List UInt8))
    (results : Nat → Option Int) (chunks : List (Nat × List UInt8)) : Prop where
  progress : ∀ p call, inside p = some call → Progress buffers chunks call ∧ results call.id = none
  distinct : ∀ p q call other, inside p = some call → inside q = some other →
    call.id = other.id → p = q
  owners : ∀ chunk ∈ chunks, chunk.1 < buffers.length ∧ chunk.2.length ≤ chunkMax
  fresh : ∀ id, buffers.length ≤ id → results id = none
  finished : ∀ id < buffers.length,
    results id = some ((buffers.getD id []).length : Int) → bytesOf id chunks = buffers.getD id []
  lengths : ∀ addr ∈ buffers, addr.length < 2 ^ 31

/-- The inode is open, and has the bytes from `o` on. -/
structure Content (ip : InodePtr) (inum o : Nat) (array : List UInt8) (fs : FsState)
    (region : List UInt8) : Prop where
  sound : Sound fs
  number : (fs.inode ip).inum = inum
  referenced : 0 < (fs.inode ip).ref
  readable : (fs.inode ip).valid = true ∨ (fs.stat inum).type ≠ 0
  file : File fs.toFileSystem inum (putBytes array o region)
  started : region ≠ [] → o ≤ array.length

/-- Who holds the lock is past `ilock`. -/
def Guarded (lock : Option Pid) (inside : Pid → Option WriteCall) : Prop :=
  ∀ p, lock = some p ↔ ∃ call, inside p = some call ∧ call.stage ≠ .test

/-- The offset is behind by what the holder of the lock has written. -/
def behind (lock : Option Pid) (inside : Pid → Option WriteCall) : Nat :=
  lock.elim 0 fun p => (inside p).elim 0 fun call => call.stage.ahead

namespace SharedFile

/-- What the file has from the first offset on. -/
def region (state : SharedFile) : List UInt8 := state.chunks.flatMap Prod.snd

structure Tiled (ip : InodePtr) (inum o : Nat) (array : List UInt8) (state : SharedFile) :
    Prop where
  content : Content ip inum o array state.fs state.region
  read : state.lock ≠ none → (state.fs.inode ip).valid = true
  off : state.off.toNat + behind state.lock state.inside = o + state.region.length
  guarded : Guarded state.lock state.inside
  credited : Credited state.inside state.buffers state.results state.chunks

end SharedFile

/-! ## Steps -/

section Steps

variable {inside : Pid → Option WriteCall} {buffers : List (List UInt8)} {results : Nat → Option Int}
  {chunks : List (Nat × List UInt8)} {lock : Option Pid} {p : Pid} {call : WriteCall}

theorem getD_concat {buffers : List (List UInt8)} {id : Nat} (known : id < buffers.length)
    (addr : List UInt8) : (buffers ++ [addr]).getD id [] = buffers.getD id [] :=
  List.getD_append _ _ _ _ known

theorem Progress.concat (progress : Progress buffers chunks call) (addr : List UInt8) :
    Progress (buffers ++ [addr]) chunks call := by
  have same := getD_concat progress.known addr
  refine ⟨?_, ?_, ?_, ?_, ?_⟩
  · rw [List.length_append]
    exact Nat.lt_of_lt_of_le progress.known (Nat.le_add_right _ _)
  · rw [same]
    exact progress.bytes
  · rw [same]
    exact progress.bounded
  · rw [same]
    exact progress.more
  · rw [same]
    exact progress.result

/-- A call begins, or is refused at once. -/
theorem Credited.begin (credited : Credited inside buffers results chunks) {addr : List UInt8}
    (small : addr.length < 2 ^ 31) {later : Nat → Option Int}
    (others : ∀ id, id ≠ buffers.length → later id = results id)
    (refused : later buffers.length = none ∨ later buffers.length = some (-1)) :
    Credited inside (buffers ++ [addr]) later chunks := by
  refine ⟨?_, credited.distinct, ?_, ?_, ?_, ?_⟩
  · intro q call running
    obtain ⟨progress, pending⟩ := credited.progress q call running
    refine ⟨progress.concat addr, ?_⟩
    rw [others _ (Nat.ne_of_lt progress.known)]
    exact pending
  · intro chunk member
    obtain ⟨known, short⟩ := credited.owners chunk member
    rw [List.length_append]
    exact ⟨Nat.lt_of_lt_of_le known (Nat.le_add_right _ _), short⟩
  · intro id beyond
    rw [List.length_append, List.length_singleton] at beyond
    rw [others id (Nat.ne_of_gt beyond)]
    exact credited.fresh id (Nat.le_of_succ_le beyond)
  · intro id below full
    rw [List.length_append, List.length_singleton] at below
    obtain known | last := Nat.lt_or_eq_of_le (Nat.le_of_lt_succ below)
    · rw [getD_concat known] at full ⊢
      rw [others id (Nat.ne_of_lt known)] at full
      exact credited.finished id known full
    · rw [last] at full
      obtain none | failed := refused
      · rw [none] at full
        cases full
      · rw [failed] at full
        have negative := Option.some.inj full
        omega
  · intro other member
    obtain old | new := List.mem_append.mp member
    · exact credited.lengths other old
    · rw [List.mem_singleton.mp new]
      exact small

theorem Credited.enter (credited : Credited inside buffers results chunks) {addr : List UInt8}
    (small : addr.length < 2 ^ 31) :
    Credited (Function.update inside p (some ⟨buffers.length, 0, .test⟩)) (buffers ++ [addr])
      results chunks := by
  have unused := credited.fresh buffers.length (Nat.le_refl _)
  have begun := credited.begin small (fun _ _ => rfl) (Or.inl unused)
  have older : ∀ q other, inside q = some other → other.id < buffers.length :=
    fun q other running => (credited.progress q other running).1.known
  refine ⟨?_, ?_, begun.owners, begun.fresh, begun.finished, begun.lengths⟩
  · intro q other running
    by_cases same : q = p
    · rw [same, Function.update_self] at running
      cases running
      refine ⟨⟨?_, ?_, Nat.zero_le _, fun more => absurd rfl more, ?_⟩, unused⟩
      · rw [List.length_append]
        exact Nat.lt_succ_self _
      · rw [bytesOf_none fun chunk member => Nat.ne_of_lt (credited.owners chunk member).1]
        rfl
      · rintro r (absurd | absurd) <;> cases absurd
    · rw [Function.update_of_ne same] at running
      exact begun.progress q other running
  · intro q r one two first second equal
    by_cases here : q = p <;> by_cases there : r = p
    · rw [here, there]
    · rw [here, Function.update_self] at first
      rw [Function.update_of_ne there] at second
      cases first
      exact absurd equal.symm (Nat.ne_of_lt (older r two second))
    · rw [there, Function.update_self] at second
      rw [Function.update_of_ne here] at first
      cases second
      exact absurd equal (Nat.ne_of_lt (older q one first))
    · rw [Function.update_of_ne here] at first
      rw [Function.update_of_ne there] at second
      exact credited.distinct q r one two first second equal

/-- A call goes on. The chunks of other calls are as before. -/
theorem Credited.advance (credited : Credited inside buffers results chunks)
    (running : inside p = some call) {later : WriteCall} {more : List (Nat × List UInt8)}
    (progress : Progress buffers more later) (same : later.id = call.id)
    (others : ∀ id, id ≠ call.id → bytesOf id more = bytesOf id chunks)
    (owners : ∀ chunk ∈ more, chunk.1 < buffers.length ∧ chunk.2.length ≤ chunkMax) :
    Credited (Function.update inside p (some later)) buffers results more := by
  have pending := (credited.progress p call running).2
  have apart : ∀ q other, q ≠ p → inside q = some other → other.id ≠ call.id :=
    fun q other different active equal =>
      different (credited.distinct q p other call active running equal)
  refine ⟨?_, ?_, owners, credited.fresh, ?_, credited.lengths⟩
  · intro q other active
    by_cases here : q = p
    · rw [here, Function.update_self] at active
      cases active
      rw [same]
      exact ⟨progress, pending⟩
    · rw [Function.update_of_ne here] at active
      obtain ⟨before, none⟩ := credited.progress q other active
      refine ⟨⟨before.known, ?_, before.bounded, before.more, before.result⟩, none⟩
      rw [others _ (apart q other here active)]
      exact before.bytes
  · intro q r one two first second equal
    by_cases here : q = p <;> by_cases there : r = p
    · rw [here, there]
    · rw [here, Function.update_self] at first
      rw [Function.update_of_ne there] at second
      cases first
      exact absurd (equal.symm.trans same) (apart r two there second)
    · rw [there, Function.update_self] at second
      rw [Function.update_of_ne here] at first
      cases second
      exact absurd (equal.trans same) (apart q one here first)
    · rw [Function.update_of_ne here] at first
      rw [Function.update_of_ne there] at second
      exact credited.distinct q r one two first second equal
  · intro id below full
    by_cases mine : id = call.id
    · rw [mine, pending] at full
      cases full
    · rw [others id mine]
      exact credited.finished id below full

theorem Credited.leave (credited : Credited inside buffers results chunks)
    (running : inside p = some call) (test : call.stage = .test) :
    Credited (Function.update inside p none) buffers
      (Function.update results call.id (some
        (if call.i = (buffers.getD call.id []).length then ((buffers.getD call.id []).length : Int)
          else -1))) chunks := by
  obtain ⟨progress, -⟩ := credited.progress p call running
  refine ⟨?_, ?_, credited.owners, ?_, ?_, credited.lengths⟩
  · intro q other active
    by_cases here : q = p
    · rw [here, Function.update_self] at active
      cases active
    · rw [Function.update_of_ne here] at active
      obtain ⟨before, none⟩ := credited.progress q other active
      have apart : other.id ≠ call.id :=
        fun equal => here (credited.distinct q p other call active running equal)
      rw [Function.update_of_ne apart]
      exact ⟨before, none⟩
  · intro q r one two first second equal
    by_cases here : q = p
    · rw [here, Function.update_self] at first
      cases first
    · by_cases there : r = p
      · rw [there, Function.update_self] at second
        cases second
      · rw [Function.update_of_ne here] at first
        rw [Function.update_of_ne there] at second
        exact credited.distinct q r one two first second equal
  · intro id beyond
    have known := progress.known
    rw [Function.update_of_ne (by omega)]
    exact credited.fresh id beyond
  · intro id below full
    by_cases mine : id = call.id
    · rw [mine, Function.update_self] at full
      by_cases all : call.i = (buffers.getD call.id []).length
      · rw [mine, progress.bytes, test, all]
        exact List.take_length
      · rw [if_neg all] at full
        have negative := Option.some.inj full
        omega
    · rw [Function.update_of_ne mine] at full
      exact credited.finished id below full

theorem Guarded.update (guarded : Guarded lock inside) {later : Option WriteCall}
    (held : lock = some p) (still : ∃ call, later = some call ∧ call.stage ≠ .test) :
    Guarded lock (Function.update inside p later) := by
  intro q
  by_cases here : q = p
  · rw [here, Function.update_self]
    exact iff_of_true held still
  · rw [Function.update_of_ne here]
    exact guarded q

/-- Nobody has the lock, and nobody takes it. -/
theorem Guarded.idle (guarded : Guarded lock inside) {later : Option WriteCall}
    (outside : ∀ call, inside p = some call → call.stage = .test)
    (still : ∀ call, later = some call → call.stage = .test) :
    Guarded lock (Function.update inside p later) := by
  intro q
  by_cases here : q = p
  · rw [here, Function.update_self, guarded p]
    constructor
    · rintro ⟨call, running, past⟩
      exact absurd (outside call running) past
    · rintro ⟨call, running, past⟩
      exact absurd (still call running) past
  · rw [Function.update_of_ne here]
    exact guarded q

/-- Another process than the holder of the lock goes on. -/
theorem behind_update (other : lock ≠ some p) (later : Option WriteCall) :
    behind lock (Function.update inside p later) = behind lock inside := by
  cases lock with
  | none => rfl
  | some q =>
      have different : q ≠ p := fun same => other (congrArg some same)
      rw [behind, behind, Option.elim, Option.elim, Function.update_of_ne different]

theorem Guarded.acquire (guarded : Guarded none inside) {call : WriteCall}
    (past : call.stage ≠ .test) : Guarded (some p) (Function.update inside p (some call)) := by
  intro q
  by_cases here : q = p
  · rw [here, Function.update_self]
    exact iff_of_true rfl ⟨call, rfl, past⟩
  · rw [Function.update_of_ne here, ← guarded q]
    refine iff_of_false (fun same => here (Option.some.inj same).symm) nofun

theorem Guarded.release (guarded : Guarded (some p) inside) {later : Option WriteCall}
    (test : ∀ call, later = some call → call.stage = .test) :
    Guarded none (Function.update inside p later) := by
  intro q
  refine iff_of_false nofun ?_
  rintro ⟨call, running, past⟩
  by_cases here : q = p
  · rw [here, Function.update_self] at running
    exact past (test call running)
  · rw [Function.update_of_ne here] at running
    exact here (Option.some.inj ((guarded q).mpr ⟨call, running, past⟩)).symm

/-! ## The file -/

/-- Bytes stored right behind bytes that were stored before. -/
theorem putBytes_append {array first : List UInt8} {off : Nat} (inside : off ≤ array.length)
    (second : List UInt8) :
    putBytes (putBytes array off first) (off + first.length) second =
      putBytes array off (first ++ second) := by
  have front : (array.take off ++ first).length = off + first.length := by
    rw [List.length_append, List.length_take_of_le inside]
  have kept : (putBytes array off first).take (off + first.length) = array.take off ++ first := by
    rw [putBytes, ← front, List.take_left]
  have rest : (putBytes array off first).drop (off + first.length + second.length) =
      array.drop (off + (first ++ second).length) := by
    rw [putBytes, ← front, ← List.drop_drop, List.drop_left, List.drop_drop, front,
      List.length_append, Nat.add_assoc]
  rw [putBytes, kept, rest, putBytes, List.append_assoc (array.take off)]

variable {fs after : FsState} {region : List UInt8}

theorem Content.live (content : Content ip inum o array fs region)
    (valid : (fs.inode ip).valid = true) : fs.live inum ip = true :=
  live_iff.mpr ⟨content.referenced, valid, content.number⟩

theorem Content.ilock (content : Content ip inum o array fs region)
    (locked : Fs.ilock ip fs = .done () after) :
    Content ip inum o array after region ∧ (after.inode ip).valid = true := by
  by_cases valid : (fs.inode ip).valid = true
  · have used : ¬(fs.inode ip).ref < 1 := by
      have referenced := content.referenced
      omega
    rw [Fs.ilock, Action.get_bind, if_neg used, if_neg (by rw [valid]; decide)] at locked
    cases locked
    exact ⟨content, valid⟩
  · have allocated := content.readable.resolve_left valid
    rw [← content.number] at allocated
    obtain ⟨next, ran, kept⟩ := ilock_locks content.sound content.referenced allocated
    rw [locked] at ran
    cases ran
    obtain ⟨referenced, read, number⟩ := live_iff.mp kept.live
    rw [content.number] at number
    exact ⟨⟨kept.sound, number, referenced, Or.inl read, kept.files _ _ content.file,
      content.started⟩, read⟩

/-- `writei` at the offset refuses, or adds the bytes to the region. -/
theorem Content.writei (content : Content ip inum o array fs region)
    (valid : (fs.inode ip).valid = true) {off : UInt32} (here : off.toNat = o + region.length)
    {src : Memory} {n : Nat} (small : n ≤ chunkMax) {r : Int}
    (wrote : Fs.writei ip src off (UInt32.ofNat n) fs = .done r after) :
    r = -1 ∧ after = fs ∨
      r = n ∧ Content ip inum o array after (region ++ src.read 0 n) ∧
        (after.inode ip).valid = true := by
  have live := content.live valid
  have plain := content.file.plain
  have size := content.file.size
  rw [stat_of_live content.sound.consistent.once live] at plain size
  have count : (UInt32.ofNat n).toNat = n := by
    have bound : chunkMax = 1536 := rfl
    rw [UInt32.toNat_ofNat']
    omega
  by_cases accepted : off.toNat ≤ (fs.inode ip).size ∧
      off.toNat + (UInt32.ofNat n).toNat < 2 ^ 32 ∧
      off.toNat + (UInt32.ofNat n).toNat ≤ maxFile * bsize
  · obtain ⟨inside, -, fits⟩ := accepted
    have ends : (Fs.writei ip src off (UInt32.ofNat n) fs).Ends (fun _ => True)
        fun result next => result = ((UInt32.ofNat n).toNat : Int) ∧ Sound next ∧
          Written fs.toFileSystem inum src off.toNat (UInt32.ofNat n).toNat next.toFileSystem :=
      writei_ends src content.sound live plain inside fits fun _ => trivial
    obtain ⟨result, sound, written⟩ := ends.of_done wrote
    rw [count] at result written
    obtain ⟨ref, fresh, number⟩ := written.opened ip
    have started : o ≤ array.length := by
      by_cases none : region = []
      · rw [size, here, none, putBytes] at inside
        simp only [List.length_append, List.length_take, List.length_drop,
          List.length_nil] at inside
        omega
      · exact content.started none
    have file := written.file _ content.file (by rw [← size]; exact inside)
    rw [here, putBytes_append started] at file
    refine Or.inr ⟨result, ⟨sound, number.trans content.number, ref ▸ content.referenced,
      Or.inl (fresh.trans valid), file, fun _ => started⟩, fresh.trans valid⟩
  · rw [writei_refuses src plain accepted] at wrote
    cases wrote
    exact Or.inl ⟨rfl, rfl⟩

/-- The end of a region that is not empty can be an offset. -/
theorem Content.offset (content : Content ip inum o array fs region) (some : region ≠ []) :
    o + region.length < 2 ^ 32 := by
  have bounded := content.file.bounded
  have limit : maxFile * bsize < 2 ^ 32 := by decide
  rw [length_putBytes (content.started some)] at bounded
  exact Nat.lt_of_le_of_lt (Nat.le_trans (Nat.le_max_right _ _) bounded) limit

end Steps

namespace SharedFile

variable {p : Pid}

theorem Tiled.filewrite (tiled : state.Tiled ip inum o array) {addr : List UInt8}
    (stepped : state.next ip (.filewrite p addr) = some next) : next.Tiled ip inum o array := by
  rw [SharedFile.next, step] at stepped
  by_cases ready : state.inside p = none ∧ addr.length < 2 ^ 31
  · rw [if_pos ready] at stepped
    have other : state.lock ≠ some p := by
      intro held
      obtain ⟨call, running, -⟩ := (tiled.guarded p).mp held
      rw [ready.1] at running
      cases running
    by_cases refused : state.writable = false
    · rw [if_pos refused] at stepped
      cases stepped
      exact ⟨tiled.content, tiled.read, tiled.off, tiled.guarded,
        tiled.credited.begin ready.2 (fun _ different => Function.update_of_ne different _ _)
          (Or.inr (Function.update_self ..))⟩
    · rw [if_neg refused] at stepped
      cases stepped
      refine ⟨tiled.content, tiled.read, ?_, tiled.guarded.idle ?_ ?_,
        tiled.credited.enter ready.2⟩
      · exact (congrArg _ (behind_update other _)).trans tiled.off
      · intro call running
        rw [ready.1] at running
        cases running
      · rintro call ⟨⟩
        rfl
  · rw [if_neg ready] at stepped
    cases stepped

theorem Tiled.ilock (tiled : state.Tiled ip inum o array)
    (stepped : state.next ip (.ilock p) = some next) : next.Tiled ip inum o array := by
  rw [SharedFile.next, step] at stepped
  split at stepped
  · next id i running =>
      split at stepped
      · next ready =>
          obtain ⟨more, free⟩ := ready
          cases locked : Fs.ilock ip state.fs with
          | blocked =>
              rw [locked] at stepped
              cases stepped
          | panic message =>
              rw [locked] at stepped
              cases stepped
          | done value fs =>
              rw [locked] at stepped
              cases stepped
              obtain ⟨content, valid⟩ := tiled.content.ilock locked
              have guarded := tiled.guarded
              have off := tiled.off
              rw [free] at guarded off
              obtain ⟨before, -⟩ := tiled.credited.progress p _ running
              have progress : Progress state.buffers state.chunks ⟨id, i, .locked⟩ := by
                refine ⟨before.known, before.bytes, before.bounded, fun _ => more, ?_⟩
                rintro r (absurd | absurd) <;> cases absurd
              refine ⟨content, fun _ => valid, ?_, guarded.acquire (by nofun),
                tiled.credited.advance running progress rfl (fun _ _ => rfl)
                  tiled.credited.owners⟩
              have here : behind (some p) (Function.update state.inside p
                  (some ⟨id, i, .locked⟩)) = 0 := by
                rw [behind, Option.elim, Function.update_self]
                rfl
              exact (congrArg _ here).trans off
      · cases stepped
  · cases stepped

/-- The holder of the lock is the only one past `ilock`. -/
theorem Tiled.holds (tiled : state.Tiled ip inum o array) {call : WriteCall}
    (running : state.inside p = some call) (past : call.stage ≠ .test) : state.lock = some p :=
  (tiled.guarded p).mpr ⟨call, running, past⟩

theorem behind_self (inside : Pid → Option WriteCall) (call : WriteCall) :
    behind (some p) (Function.update inside p (some call)) = call.stage.ahead := by
  rw [behind, Option.elim, Function.update_self]
  rfl

theorem behind_holder {inside : Pid → Option WriteCall} {call : WriteCall}
    (running : inside p = some call) : behind (some p) inside = call.stage.ahead := by
  rw [behind, Option.elim, running]
  rfl

theorem read_chunk {addr : List UInt8} {i n : Nat} (inside : i + n ≤ addr.length) :
    Memory.read (fun o => addr.getD (i + o) 0) 0 n = (addr.drop i).take n := by
  have short : n ≤ (addr.drop i).length := by
    rw [List.length_drop]
    omega
  apply List.ext_getElem
  · rw [Memory.length_read, List.length_take_of_le short]
  · intro k below beyond
    rw [Memory.length_read] at below
    have within : i + k < addr.length := by omega
    rw [List.getElem_take, List.getElem_drop]
    simp [Memory.read, List.getElem?_eq_getElem within]

theorem Tiled.writei (tiled : state.Tiled ip inum o array)
    (stepped : state.next ip (.writei p) = some next) : next.Tiled ip inum o array := by
  rw [SharedFile.next, step] at stepped
  split at stepped
  · next id i running =>
      have held := tiled.holds running (by nofun)
      obtain ⟨before, -⟩ := tiled.credited.progress p _ running
      have more := before.more (by nofun)
      have valid := tiled.read (by rw [held]; exact Option.some_ne_none p)
      have off := tiled.off
      rw [held, behind_holder running] at off
      have short : state.chunk ⟨id, i, .locked⟩ ≤ chunkMax := Nat.min_le_right _ _
      dsimp only at stepped
      cases wrote : Fs.writei ip (fun o => (state.addr id).getD (i + o) 0) state.off
          (UInt32.ofNat (state.chunk ⟨id, i, .locked⟩)) state.fs with
      | blocked =>
          rw [wrote] at stepped
          cases stepped
      | panic message =>
          rw [wrote] at stepped
          cases stepped
      | done r fs =>
          rw [wrote] at stepped
          cases stepped
          obtain ⟨rfl, rfl⟩ | ⟨full, content, read⟩ := tiled.content.writei valid off short wrote
          · have progress : Progress state.buffers state.chunks ⟨id, i, .written (-1)⟩ := by
              refine ⟨before.known, before.bytes, before.bounded, fun _ => more, ?_⟩
              rintro r (same | same) <;> cases same
              exact Or.inl rfl
            refine ⟨tiled.content, tiled.read, ?_, tiled.guarded.update held ⟨_, rfl, by nofun⟩,
              tiled.credited.advance running progress rfl (fun _ _ => rfl)
                tiled.credited.owners⟩
            change state.off.toNat + behind state.lock (Function.update _ _ _) = _
            rw [held, behind_self]
            exact off
          · have count : state.chunk ⟨id, i, .locked⟩ = min ((state.addr id).length - i) chunkMax :=
              rfl
            obtain ⟨n, same⟩ : ∃ n, state.chunk ⟨id, i, .locked⟩ = n := ⟨_, rfl⟩
            rw [same] at full content count short
            have more : i < (state.addr id).length := more
            have inside : i + n ≤ (state.addr id).length := by omega
            have positive : 0 < n := by
              have bound : chunkMax = 1536 := rfl
              omega
            subst full
            rw [read_chunk inside] at content
            have length : (((state.addr id).drop i).take n).length = n := by
              rw [List.length_take_of_le]
              rw [List.length_drop]
              omega
            have bytes : bytesOf id state.chunks = (state.addr id).take i := before.bytes
            have progress : Progress state.buffers
                (state.chunks ++ [(id, ((state.addr id).drop i).take n)]) ⟨id, i, .written n⟩ := by
              refine ⟨before.known, ?_, before.bounded, fun _ => more, ?_⟩
              · rw [bytesOf_append_self, bytes]
                exact List.take_add.symm
              · rintro r (same | same) <;> cases same
                exact Or.inr (congrArg _ count)
            have credited := tiled.credited.advance running progress rfl
              (fun other different => bytesOf_append_other (Ne.symm different) _ _)
              (by
                intro chunk member
                obtain old | new := List.mem_append.mp member
                · exact tiled.credited.owners chunk old
                · rw [List.mem_singleton.mp new]
                  exact ⟨before.known, length.le.trans short⟩)
            rw [if_pos (Int.natCast_pos.mpr positive)]
            refine ⟨?_, fun _ => read, ?_, tiled.guarded.update held ⟨_, rfl, by nofun⟩, credited⟩
            · simpa [region] using content
            · change state.off.toNat + behind state.lock (Function.update _ _ _) = _
              rw [held, behind_self]
              simp only [WriteStage.ahead, Int.toNat_natCast, region, List.flatMap_append,
                List.flatMap_cons, List.flatMap_nil, List.append_nil, List.length_append, length]
              rw [← Nat.add_assoc]
              exact congrArg (· + n) off
  · cases stepped

theorem length_bytesOf_le (id : Nat) (chunks : List (Nat × List UInt8)) :
    (bytesOf id chunks).length ≤ (chunks.flatMap Prod.snd).length :=
  (List.filter_sublist.flatMap Prod.snd).length_le

theorem Tiled.advance (tiled : state.Tiled ip inum o array)
    (stepped : state.next ip (.advance p) = some next) : next.Tiled ip inum o array := by
  rw [SharedFile.next, step] at stepped
  split at stepped
  · next id i r running =>
      cases stepped
      have held := tiled.holds running (by nofun)
      obtain ⟨before, -⟩ := tiled.credited.progress p _ running
      have more := before.more (by nofun)
      have off := tiled.off
      rw [held, behind_holder running] at off
      have progress : Progress state.buffers state.chunks ⟨id, i, .advanced r⟩ := by
        refine ⟨before.known, before.bytes, before.bounded, fun _ => more, ?_⟩
        rintro s (same | same) <;> cases same
        exact before.result r (Or.inl rfl)
      refine ⟨tiled.content, tiled.read, ?_, tiled.guarded.update held ⟨_, rfl, by nofun⟩,
        tiled.credited.advance running progress rfl (fun _ _ => rfl) tiled.credited.owners⟩
      change (if 0 < r then state.off + UInt32.ofNat r.toNat else state.off).toNat +
        behind state.lock (Function.update _ _ _) = _
      rw [held, behind_self]
      by_cases positive : 0 < r
      · have bytes := congrArg List.length before.bytes
        have least := length_bytesOf_le id state.chunks
        have some : state.region ≠ [] := by
          intro none
          rw [region] at none
          rw [none, bytes, List.length_take, List.length_nil] at least
          simp only [WriteStage.count] at least
          simp only at more
          omega
        have fits := tiled.content.offset some
        have wraps : (state.off + UInt32.ofNat r.toNat).toNat = state.off.toNat + r.toNat := by
          simp only [WriteStage.ahead] at off
          rw [UInt32.toNat_add, UInt32.toNat_ofNat']
          omega
        rw [if_pos positive, wraps]
        exact off
      · have zero : r.toNat = 0 := by omega
        rw [if_neg positive]
        simp only [WriteStage.ahead, zero] at off ⊢
        exact off
  · cases stepped

theorem Tiled.iunlock (tiled : state.Tiled ip inum o array)
    (stepped : state.next ip (.iunlock p) = some next) : next.Tiled ip inum o array := by
  rw [SharedFile.next, step] at stepped
  split at stepped
  · next id i r running =>
      have held := tiled.holds running (by nofun)
      obtain ⟨before, -⟩ := tiled.credited.progress p _ running
      have guarded := tiled.guarded
      have off := tiled.off
      rw [held] at guarded off
      rw [behind_holder running] at off
      dsimp only at stepped
      by_cases failed : r < 0
      · rw [if_pos failed] at stepped
        cases stepped
        have none : r.toNat = 0 := by omega
        have bytes := before.bytes
        simp only [WriteStage.count, none] at bytes
        have progress : Progress state.buffers state.chunks ⟨id, i, .test⟩ := by
          refine ⟨before.known, bytes, before.bounded, fun more => absurd rfl more, ?_⟩
          rintro s (absurd | absurd) <;> cases absurd
        have credited := (tiled.credited.advance running progress rfl (fun _ _ => rfl)
          tiled.credited.owners).leave (Function.update_self ..) rfl
        rw [Function.update_idem] at credited
        exact ⟨tiled.content, fun locked => absurd rfl locked, off, guarded.release (by nofun),
          credited⟩
      · rw [if_neg failed] at stepped
        split at stepped
        · cases stepped
        · next full =>
            cases stepped
            have whole : r = state.chunk ⟨id, i, .test⟩ := Decidable.not_not.mp full
            have count : r.toNat = min ((state.addr id).length - i) chunkMax := by
              rw [whole]
              exact Int.toNat_natCast _
            have bounded : i ≤ (state.addr id).length := before.bounded
            have progress : Progress state.buffers state.chunks ⟨id, i + r.toNat, .test⟩ := by
              refine ⟨before.known, before.bytes, ?_, fun more => absurd rfl more, ?_⟩
              · change i + r.toNat ≤ (state.addr id).length
                omega
              · rintro s (absurd | absurd) <;> cases absurd
            refine ⟨tiled.content, fun locked => absurd rfl locked, off, guarded.release ?_,
              tiled.credited.advance running progress rfl (fun _ _ => rfl)
                tiled.credited.owners⟩
            rintro call ⟨⟩
            rfl
  · cases stepped

theorem Tiled.leave (tiled : state.Tiled ip inum o array)
    (stepped : state.next ip (.leave p) = some next) : next.Tiled ip inum o array := by
  rw [SharedFile.next, step] at stepped
  split at stepped
  · next id i running =>
      split at stepped
      · cases stepped
      · cases stepped
        have other : state.lock ≠ some p := by
          intro held
          obtain ⟨call, active, past⟩ := (tiled.guarded p).mp held
          rw [running] at active
          cases active
          exact past rfl
        refine ⟨tiled.content, tiled.read, ?_, tiled.guarded.idle ?_ (by nofun),
          tiled.credited.leave running rfl⟩
        · exact (congrArg _ (behind_update other _)).trans tiled.off
        · intro call active
          rw [running] at active
          cases active
          rfl
  · cases stepped

theorem Tiled.step {event : SharedEvent} (tiled : state.Tiled ip inum o array)
    (stepped : state.next ip event = some next) : next.Tiled ip inum o array := by
  cases event with
  | filewrite p addr => exact tiled.filewrite stepped
  | ilock p => exact tiled.ilock stepped
  | writei p => exact tiled.writei stepped
  | advance p => exact tiled.advance stepped
  | iunlock p => exact tiled.iunlock stepped
  | leave p => exact tiled.leave stepped

/-- No call has been made. -/
structure Unused (state : SharedFile) : Prop where
  lock : state.lock = none
  inside : ∀ p, state.inside p = none
  buffers : state.buffers = []
  results : ∀ id, state.results id = none
  chunks : state.chunks = []

theorem Unused.tiled (unused : state.Unused)
    (content : Content ip inum state.off.toNat array state.fs []) :
    state.Tiled ip inum state.off.toNat array := by
  have none : state.region = [] := by
    rw [region, unused.chunks]
    rfl
  refine ⟨none ▸ content, fun locked => absurd unused.lock locked, ?_, ?_, ?_⟩
  · rw [unused.lock, none]
    rfl
  · intro p
    rw [unused.lock, unused.inside p]
    exact iff_of_false nofun (by rintro ⟨call, ⟨⟩, -⟩)
  · refine ⟨?_, ?_, ?_, fun id _ => unused.results id, ?_, ?_⟩
    · intro p call running
      rw [unused.inside p] at running
      cases running
    · intro p q call other running
      rw [unused.inside p] at running
      cases running
    · rw [unused.chunks]
      exact nofun
    · intro id known
      rw [unused.buffers] at known
      cases known
    · rw [unused.buffers]
      exact nofun

/-- When all calls have returned nobody has the lock. -/
theorem Tiled.released (tiled : state.Tiled ip inum o array)
    (returned : ∀ id < state.buffers.length, state.results id ≠ none) : state.lock = none := by
  cases held : state.lock with
  | none => rfl
  | some p =>
      obtain ⟨call, running, -⟩ := (tiled.guarded p).mp held
      obtain ⟨progress, pending⟩ := tiled.credited.progress p call running
      exact absurd pending (returned call.id progress.known)

end SharedFile

/-- Calls of `filewrite` on one open file that all return their length have written the file
from the first offset on, chunk by chunk, each call its bytes in order, and the offset is
behind the last byte. -/
theorem filewrites_tile (ip : InodePtr) {inum : Nat} {array : List UInt8}
    {start finish : SharedFile} {events : List SharedEvent} (sound : Sound start.fs)
    (number : (start.fs.inode ip).inum = inum) (referenced : 0 < (start.fs.inode ip).ref)
    (regular : (start.fs.stat inum).type = tFile) (file : File start.fs.toFileSystem inum array)
    (unused : start.Unused) (ran : runs (SharedFile.next ip) start events = some finish)
    (full : ∀ id < finish.buffers.length,
      finish.results id = some ((finish.addr id).length : Int)) :
    finish.off.toNat = start.off.toNat +
        ∑ id ∈ Finset.range finish.buffers.length, (finish.addr id).length ∧
      File finish.fs.toFileSystem inum (putBytes array start.off.toNat finish.region) ∧
      finish.region.length =
        ∑ id ∈ Finset.range finish.buffers.length, (finish.addr id).length ∧
      (finish.region ≠ [] → start.off.toNat ≤ array.length) ∧
      (∀ id < finish.buffers.length, bytesOf id finish.chunks = finish.addr id) ∧
      ∀ chunk ∈ finish.chunks, chunk.1 < finish.buffers.length ∧ chunk.2.length ≤ 1536 := by
  have empty : putBytes array start.off.toNat [] = array := by
    rw [putBytes, List.append_nil, List.length_nil, Nat.add_zero]
    exact List.take_append_drop _ _
  have content : Content ip inum start.off.toNat array start.fs [] := by
    refine ⟨sound, number, referenced, Or.inr ?_, empty.symm ▸ file, fun some => absurd rfl some⟩
    rw [regular]
    decide
  have tiled : finish.Tiled ip inum start.off.toNat array :=
    runs_invariant (fun _ state => state.Tiled ip inum start.off.toNat array)
      (unused.tiled content) (fun _ _ _ _ tiled stepped => tiled.step stepped) ran
  have released : finish.lock = none := tiled.released fun id known => by
    rw [full id known]
    exact Option.some_ne_none _
  have own : ∀ id < finish.buffers.length, bytesOf id finish.chunks = finish.addr id :=
    fun id known => tiled.credited.finished id known (full id known)
  have length : finish.region.length =
      ∑ id ∈ Finset.range finish.buffers.length, (finish.addr id).length := by
    rw [SharedFile.region,
      length_flatMap_owners fun chunk member => (tiled.credited.owners chunk member).1]
    apply Finset.sum_congr rfl
    intro id member
    rw [own id (Finset.mem_range.mp member)]
  have off := tiled.off
  rw [released, length] at off
  exact ⟨off, tiled.content.file, length, tiled.content.started, own, tiled.credited.owners⟩

/-- The file that was just made, open for writing -/
def sharedNew (fs : FsState) : SharedFile where
  fs := fs
  writable := true
  off := 0
  lock := none
  inside := fun _ => none
  buffers := []
  results := fun _ => none
  chunks := []

/-- Two calls, the second of which writes between the first one's start and its chunk -/
def twoWrites : List SharedEvent :=
  [.filewrite 1 [7, 7, 7], .filewrite 2 [9], .ilock 2, .writei 2, .advance 2, .iunlock 2,
    .ilock 1, .writei 1, .advance 1, .leave 2, .iunlock 1, .leave 1]

theorem filewrites_tile_twoWrites : ∃ fs finish, runs FsState.next blankDisk newFile = some fs ∧
    runs (SharedFile.next ⟨0, ninode_pos⟩) (sharedNew fs) twoWrites = some finish ∧
    finish.off.toNat = 4 ∧ File finish.fs.toFileSystem 1 [9, 7, 7, 7] := by
  let ip : InodePtr := ⟨0, ninode_pos⟩
  have facts : (runs FsState.next blankDisk newFile).bind (fun fs =>
      (runs (SharedFile.next ip) (sharedNew fs) twoWrites).map fun finish =>
        decide (1 < fs.sb.ninodes ∧ (fs.stat 1).type = tFile ∧ (fs.stat 1).size = 0 ∧
          0 < (fs.inode ip).ref ∧ (fs.inode ip).inum = 1 ∧ finish.buffers = [[7, 7, 7], [9]] ∧
          finish.results 0 = some 3 ∧ finish.results 1 = some 1 ∧ finish.off = 4 ∧
          finish.region = [9, 7, 7, 7])) = some true := by decide +kernel
  obtain ⟨fs, ran, rest⟩ := Option.bind_eq_some_iff.mp facts
  obtain ⟨finish, went, holds⟩ := Option.map_eq_some_iff.mp rest
  obtain ⟨inside, regular, size, referenced, number, buffers, first, second, off, region⟩ :=
    of_decide_eq_true holds
  have file : File fs.toFileSystem 1 [] := by
    refine ⟨inside, ?_, size, fun _ below => absurd below (Nat.not_lt_zero _),
      fun _ below => absurd below (Nat.not_lt_zero _)⟩
    rw [regular]
    decide
  have full : ∀ id < finish.buffers.length,
      finish.results id = some ((finish.addr id).length : Int) := by
    rw [buffers]
    intro id known
    match id, known with
    | 0, _ => simp [first, SharedFile.addr, buffers]
    | 1, _ => simp [second, SharedFile.addr, buffers]
  have sound : Sound (sharedNew fs).fs := sound_run blankDisk_image ran
  have unused : (sharedNew fs).Unused := ⟨rfl, fun _ => rfl, rfl, fun _ => rfl, rfl⟩
  obtain ⟨-, written, -⟩ := filewrites_tile ip sound number referenced regular file unused went full
  rw [region] at written
  exact ⟨fs, finish, ran, went, by rw [off]; rfl, written⟩

end Xv6.Fs
