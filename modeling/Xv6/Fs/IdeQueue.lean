import Xv6.Fs.CrashAtomic
import Xv6.Fs.Ide

/-!
# The queue of the disk driver

The queue has the requests that arrived and are not served yet, the disk works
on its head, and with each request served the in-memory driver takes one step.
-/

namespace Xv6.Fs

open Xv6.Library

namespace Ide

variable {ide : Ide} {queue : List BufPtr} {start : Store}

/-- The disk works on `b`, or has finished it. -/
def Works (ide : Ide) (b : BufPtr) : Prop :=
  ide.device = .busy (command (ide.buf b)) ∨
    ∃ read, ide.device = .raised (command (ide.buf b)) read ∧
      ((ide.buf b).dirty = false → read = ide.store.disk (ide.buf b).blockno)

structure Queued (ide : Ide) (queue : List BufPtr) : Prop where
  disk1 : ide.havedisk1 = true
  chain : Chain ide.qnext ide.idequeue queue
  nodup : queue.Nodup
  arrived : ide.arrived.map Request.buf = ide.served ++ queue
  works : ∀ b, ide.idequeue = some b → ide.Works b
  rests : queue = [] → ide.device = .idle
  queued : ∀ b ∈ queue, ¬ide.Clean b ∧ (ide.buf b).dev = 1 ∧ (ide.buf b).blockno < fsSize ∧
    ∃ p, ide.inside p = some b
  inside : ∀ p b, ide.inside p = some b → (ide.buf b).lock = some p ∧
    ide.arrived[ide.request p]? = some ⟨p, b⟩ ∧
    ((ide.Clean b ∧ ide.request p < ide.served.length) ∨
      (b ∈ queue ∧ ide.served.length ≤ ide.request p))

/-- The disk as it will be when the interrupt that was raised is handled. -/
def settle (device : Device) (store : Store) : Store :=
  match device with
  | .raised command _ => execute command store
  | _ => store

/-- The in-memory driver, served in the same order, has the same buffers and disk. -/
def Refines (start : Store) (ide : Ide) : Prop :=
  ∃ memory, runs Store.diskStep start ide.history = some memory ∧
    ide.store = settle ide.device memory

theorem sectorRegisters_eq {sector : Nat} (small : sector < fsSize) :
    sectorRegisters sector = sector := by
  have bound : sector < 1000 := small
  unfold sectorRegisters
  omega

@[simp]
theorem execute_buf (command : Command) (store : Store) : (execute command store).buf = store.buf := by
  unfold execute
  split <;> rfl

@[simp]
theorem settle_buf (device : Device) (store : Store) : (settle device store).buf = store.buf := by
  unfold settle
  split
  · rw [execute_buf]
  · rfl

theorem settle_setBuf (device : Device) (store : Store) (b : BufPtr) (buffer : Buf) :
    settle device (store.setBuf b buffer) = (settle device store).setBuf b buffer := by
  unfold settle
  split
  · unfold execute
    split <;> rfl
  · rfl

/-- A process that waits is the holder of the lock of its buffer. -/
theorem Queued.free (queued : ide.Queued queue) {p : Pid} {b : BufPtr} (outside : ide.inside p = none)
    (lock : (ide.buf b).lock = some p ∨ (ide.buf b).lock = none) :
    (∀ q, ide.inside q ≠ some b) ∧ b ∉ queue := by
  have nobody : ∀ q, ide.inside q ≠ some b := by
    intro q waits
    have holds := (queued.inside q b waits).1
    rcases lock with mine | free
    · rw [mine] at holds
      cases holds
      rw [outside] at waits
      cases waits
    · rw [free] at holds
      cases holds
  refine ⟨nobody, fun member => ?_⟩
  rcases (queued.queued b member).2.2.2 with ⟨q, waits⟩
  exact nobody q waits

/-- A buffer changes that no request is about. -/
theorem Queued.touch (queued : ide.Queued queue) {b : BufPtr} (nobody : ∀ q, ide.inside q ≠ some b)
    (away : b ∉ queue) (buffer : Buf) (history : List DiskOp) :
    Queued { ide with store := ide.store.setBuf b buffer, history := history } queue := by
  have same : ∀ other, other ≠ b → (ide.store.setBuf b buffer).buf other = ide.store.buf other :=
    fun other different => Function.update_of_ne different _ _
  have clean : ∀ other, other ≠ b → (Clean { ide with
      store := ide.store.setBuf b buffer, history := history } other ↔ ide.Clean other) := by
    intro other different
    simp only [Clean, Ide.buf, same other different]
  have others : ∀ other ∈ queue, other ≠ b := by
    rintro other member rfl
    exact away member
  refine ⟨queued.disk1, queued.chain, queued.nodup, queued.arrived, ?_, queued.rests, ?_, ?_⟩
  · intro head first
    have chain := queued.chain
    rw [show ide.idequeue = some head from first] at chain
    rcases chain.cons_of_some with ⟨rest, rfl, -⟩
    have different := others head (List.mem_cons_self ..)
    have disk : (ide.store.setBuf b buffer).disk = ide.store.disk := rfl
    have works := queued.works head first
    simpa only [Works, Ide.buf, same head different, disk] using works
  · intro other member
    have different := others other member
    rw [clean other different]
    simpa only [Ide.buf, same other different] using queued.queued other member
  · intro q other waits
    have different : other ≠ b := by
      rintro rfl
      exact nobody q waits
    rw [clean other different]
    simpa only [Ide.buf, same other different] using queued.inside q other waits

/-- What one step keeps. -/
def Served (start : Store) (ide : Ide) : Prop :=
  (∃ queue, ide.Queued queue) ∧ ide.Refines start

/-- The driver and its in-memory twin change the same buffer. -/
theorem Served.touch (served : ide.Served start) {p : Pid} {b : BufPtr}
    (outside : ide.inside p = none)
    (lock : (ide.buf b).lock = some p ∨ (ide.buf b).lock = none) {buffer : Buf} {op : DiskOp}
    (step : ∀ memory : Store, memory.buf = ide.store.buf →
      memory.diskStep op = some (memory.setBuf b buffer)) :
    Served start { ide with store := ide.store.setBuf b buffer, history := ide.history ++ [op] } := by
  rcases served with ⟨⟨queue, queued⟩, memory, ran, refines⟩
  rcases queued.free outside lock with ⟨nobody, away⟩
  refine ⟨⟨queue, queued.touch nobody away buffer _⟩, memory.setBuf b buffer, ?_, ?_⟩
  · change runs Store.diskStep start (ide.history ++ [op]) = _
    rw [runs_concat, ran]
    exact step memory (by rw [refines, settle_buf])
  · change ide.store.setBuf b buffer = settle ide.device (memory.setBuf b buffer)
    rw [settle_setBuf, ← refines]

theorem Served.acquire (served : ide.Served start) {p : Pid} {b : BufPtr} :
    (ide.step (.acquire p b)).Keeps (Served start) := by
  rw [step]
  by_cases outside : ide.inside p = none
  · rw [if_pos outside, acquiresleep]
    cases lock : (ide.store.buf b).lock with
    | some other => trivial
    | none =>
        apply served.touch outside (Or.inr lock)
        intro memory same
        rw [Store.diskStep, acquiresleep, same, lock]
        rfl
  · rw [if_neg outside]
    trivial

theorem Served.release (served : ide.Served start) {p : Pid} {b : BufPtr} :
    (ide.step (.release p b)).Keeps (Served start) := by
  rw [step]
  by_cases guard : ide.inside p = none ∧ (ide.buf b).lock = some p
  · rw [if_pos guard]
    apply served.touch guard.1 (Or.inl guard.2)
    intro memory same
    rw [Store.diskStep, releasesleep, same]
    rfl
  · rw [if_neg guard]
    trivial

theorem Served.fill (served : ide.Served start) {p : Pid} {b : BufPtr} {valid dirty : Bool}
    {dev blockno : Nat} {data : Block} :
    (ide.step (.fill p b valid dirty dev blockno data)).Keeps (Served start) := by
  rw [step]
  by_cases guard : ide.inside p = none ∧ (ide.buf b).lock = some p
  · rw [if_pos guard]
    exact served.touch guard.1 (Or.inl guard.2) fun _ _ => rfl
  · rw [if_neg guard]
    trivial

/-- Only who sleeps and who left changes. -/
theorem Queued.wake (queued : ide.Queued queue) (sleeping : Pid → Bool) :
    Queued { ide with sleeping := sleeping } queue :=
  ⟨queued.disk1, queued.chain, queued.nodup, queued.arrived, queued.works, queued.rests, queued.queued,
    queued.inside⟩

theorem Queued.wait (queued : ide.Queued queue) {p : Pid} {b : BufPtr}
    (waits : ide.inside p = some b) : (ide.wait p b).Queued queue := by
  unfold Ide.wait
  by_cases clean : ide.Clean b
  · rw [if_pos clean]
    refine ⟨queued.disk1, queued.chain, queued.nodup, queued.arrived, queued.works, queued.rests, ?_, ?_⟩
    · intro other member
      rcases queued.queued other member with ⟨stale, dev, blockno, q, inside⟩
      refine ⟨stale, dev, blockno, q, ?_⟩
      have different : q ≠ p := by
        rintro rfl
        rw [waits] at inside
        cases inside
        exact stale clean
      exact (Function.update_of_ne different _ _).trans inside
    · intro q other inside
      change Function.update ide.inside p none q = some other at inside
      have different : q ≠ p := by
        rintro rfl
        rw [Function.update_self] at inside
        cases inside
      rw [Function.update_of_ne different] at inside
      exact queued.inside q other inside
  · rw [if_neg clean]
    have same : Function.update ide.inside p (some b) = ide.inside := by
      rw [← waits, Function.update_eq_self]
    rw [same]
    exact queued.wake _

theorem Refines.wait {p : Pid} {b : BufPtr} (refines : ide.Refines start) :
    (ide.wait p b).Refines start := by
  unfold Ide.wait
  split <;> exact refines

theorem Served.retest (served : ide.Served start) {p : Pid} :
    (ide.step (.retest p)).Keeps (Served start) := by
  rcases served with ⟨⟨queue, queued⟩, refines⟩
  rw [step]
  cases waits : ide.inside p with
  | none => trivial
  | some b =>
      dsimp only
      split
      · exact ⟨⟨queue, queued.wait waits⟩, refines.wait⟩
      · trivial

theorem Served.kill (served : ide.Served start) {p : Pid} :
    (ide.step (.kill p)).Keeps (Served start) := by
  rcases served with ⟨⟨queue, queued⟩, refines⟩
  exact ⟨⟨queue, queued.wake _⟩, refines⟩

/-- While the disk is not idle it works on the head of the queue. -/
theorem Queued.head (queued : ide.Queued queue) (active : ide.device ≠ .idle) :
    ∃ b rest, queue = b :: rest ∧ ide.idequeue = some b ∧ Chain ide.qnext (ide.qnext b) rest ∧
      ide.Works b := by
  cases queue with
  | nil => exact absurd (queued.rests rfl) active
  | cons b rest =>
      rcases queued.chain with ⟨first, chain⟩
      exact ⟨b, rest, rfl, first, chain, queued.works b first⟩

/-- The command that the disk executes is that of the head of the queue. -/
theorem Queued.executes (queued : ide.Queued queue) {command : Command}
    (state : ide.device = .busy command) {b : BufPtr} (first : ide.idequeue = some b) :
    command = Ide.command (ide.buf b) := by
  rcases queued.works b first with busy | ⟨read, raised, -⟩
  · rw [state] at busy
    cases busy
    rfl
  · rw [state] at raised
    cases raised

/-- The disk raises its interrupt. -/
theorem Queued.complete (queued : ide.Queued queue) {command : Command}
    (state : ide.device = .busy command) {store : Store} (buf : store.buf = ide.store.buf)
    (written : command.write = false → store.disk = ide.store.disk) :
    Queued
      { ide with
        store := store
        device := .raised command (ide.store.disk command.sector) } queue := by
  rcases queued.head (by rw [state]; simp) with ⟨b, rest, rfl, first, chain, works⟩
  rcases queued.queued b (List.mem_cons_self ..) with ⟨-, -, blockno, -⟩
  have now := queued.executes state first
  refine ⟨queued.disk1, queued.chain, queued.nodup, queued.arrived, ?_, nofun, ?_, ?_⟩
  · intro head here
    rw [show ide.idequeue = some head from here] at first
    cases first
    refine Or.inr ⟨ide.store.disk command.sector, ?_, ?_⟩
    · simp only [Ide.buf, buf]
      exact congrArg (Device.raised · _) now
    · intro clean
      simp only [Ide.buf, buf] at clean ⊢
      have write : command.write = false := by
        rw [now]
        exact clean
      rw [written write, now]
      exact congrArg ide.store.disk (sectorRegisters_eq blockno)
  · simpa only [Clean, Ide.buf, buf] using queued.queued
  · simpa only [Clean, Ide.buf, buf] using queued.inside

theorem Served.device (served : ide.Served start) : (ide.step .device).Keeps (Served start) := by
  rcases served with ⟨⟨queue, queued⟩, memory, ran, refines⟩
  rw [step]
  cases state : ide.device with
  | idle => trivial
  | raised command read => trivial
  | busy command =>
      refine ⟨⟨queue, ?_⟩, memory, ran, ?_⟩
      · apply queued.complete state (execute_buf command ide.store)
        intro write
        rw [execute, if_neg (by simp [write])]
      · change execute command ide.store = execute command memory
        rw [refines, state]
        rfl

/-- The in-memory driver does in one step what was done for `b`. -/
theorem iderw_memory {memory : Store} {b : BufPtr} {buffer : Buf} (same : memory.buf b = buffer)
    (locked : buffer.lock ≠ none) (stale : ¬(buffer.valid = true ∧ buffer.dirty = false))
    (dev : buffer.dev = 1) (blockno : buffer.blockno < fsSize) :
    memory.diskStep (.iderw b) = some ((execute (command buffer) memory).setBuf b
      { buffer with
        data := if buffer.dirty = true then buffer.data else memory.disk buffer.blockno
        valid := true
        dirty := false }) := by
  subst same
  have nothing : ¬((memory.buf b).valid && !(memory.buf b).dirty) = true := by
    simpa using stale
  rw [Store.diskStep, Fs.iderw]
  simp only [if_neg locked, if_neg nothing, dev, ne_eq, not_true, if_false,
    if_neg (Nat.not_le_of_lt blockno)]
  by_cases dirty : (memory.buf b).dirty = true
  · simp only [dirty, if_true, Outcome.state?, execute, command, dev, Nat.mod_succ, and_self,
      sectorRegisters_eq blockno]
    rfl
  · have clean : (memory.buf b).dirty = false := by simpa using dirty
    simp only [clean, Bool.false_eq_true, if_false, Outcome.state?, execute, command, false_and]

/-- The request at the head of the queue is the next one to be served. -/
theorem Queued.next_request {b : BufPtr} {rest : List BufPtr} (queued : ide.Queued (b :: rest))
    {p : Pid} {other : BufPtr} (here : ide.arrived[ide.request p]? = some ⟨p, other⟩)
    (later : ide.served.length ≤ ide.request p) :
    (other = b ∧ ide.request p = ide.served.length) ∨
      (other ≠ b ∧ ide.served.length < ide.request p) := by
  have buffer : (ide.served ++ b :: rest)[ide.request p]? = some other := by
    rw [← queued.arrived, List.getElem?_map, here]
    rfl
  rw [List.getElem?_append_right later] at buffer
  rcases Nat.eq_or_lt_of_le later with now | after
  · rw [now, Nat.sub_self] at buffer
    cases buffer
    exact Or.inl ⟨rfl, now.symm⟩
  · refine Or.inr ⟨?_, after⟩
    rintro rfl
    have positive : ide.request p - ide.served.length = (ide.request p - ide.served.length - 1) + 1 := by
      omega
    rw [positive, List.getElem?_cons_succ] at buffer
    exact (List.nodup_cons.mp queued.nodup).1 (List.mem_of_getElem? buffer)

/-- The handler serves the head of the queue. -/
theorem Queued.serve {b : BufPtr} {rest : List BufPtr} (queued : ide.Queued (b :: rest)) {data : Block}
    {device : Device} {history : List DiskOp} {sleeping : Pid → Bool}
    (works : ∀ next, ide.qnext b = some next → device = .busy (command (ide.buf next)))
    (rests : rest = [] → device = .idle) :
    Queued
      { ide with
        store := ide.store.setBuf b { ide.buf b with data := data, valid := true, dirty := false }
        idequeue := ide.qnext b
        device := device
        sleeping := sleeping
        served := ide.served ++ [b]
        history := history } rest := by
  have nodup := List.nodup_cons.mp queued.nodup
  have others : ∀ other, other ≠ b → ∀ buffer, (ide.store.setBuf b buffer).buf other =
      ide.store.buf other := fun other different buffer => Function.update_of_ne different _ _
  refine ⟨queued.disk1, queued.chain.2, nodup.2, ?_, ?_, rests, ?_, ?_⟩
  · change ide.arrived.map Request.buf = (ide.served ++ [b]) ++ rest
    rw [queued.arrived, List.append_assoc]
    rfl
  · intro next here
    have chain := queued.chain.2
    rw [show ide.qnext b = some next from here] at chain
    rcases chain.cons_of_some with ⟨after, rfl, -⟩
    have different : next ≠ b := by
      rintro rfl
      exact nodup.1 (List.mem_cons_self ..)
    left
    simp only [Ide.buf, others next different]
    exact works next here
  · intro other member
    have different : other ≠ b := by
      rintro rfl
      exact nodup.1 member
    simpa only [Clean, Ide.buf, others other different] using
      queued.queued other (List.mem_cons_of_mem _ member)
  · intro p other waits
    rcases queued.inside p other waits with ⟨lock, here, done | ⟨member, later⟩⟩
    · have different : other ≠ b := by
        rintro rfl
        exact (queued.queued other (List.mem_cons_self ..)).1 done.1
      simp only [Clean, Ide.buf, others other different]
      refine ⟨lock, here, Or.inl ⟨done.1, ?_⟩⟩
      rw [List.length_append]
      exact Nat.lt_add_right _ done.2
    · rcases queued.next_request here later with ⟨rfl, now⟩ | ⟨different, after⟩
      · simp only [Clean, Ide.buf, Store.setBuf, Function.update_self]
        refine ⟨lock, here, Or.inl ⟨⟨trivial, trivial⟩, ?_⟩⟩
        rw [List.length_append, now]
        exact Nat.lt_succ_self _
      · simp only [Clean, Ide.buf, others other different]
        refine ⟨lock, here, Or.inr ⟨(List.mem_cons.mp member).resolve_left different, ?_⟩⟩
        rw [List.length_append]
        exact after

/-- The handler serves the head of the queue and starts the disk on the next. -/
theorem Queued.ideintr {b : BufPtr} {rest : List BufPtr} (queued : ide.Queued (b :: rest))
    (read : Block) : ∃ after, Ide.ideintr read ide = .done () after ∧ after.Queued rest ∧
      after.store = ide.store.setBuf b
        { ide.buf b with
          data := if (ide.buf b).dirty = true then (ide.buf b).data else read
          valid := true
          dirty := false } ∧
      after.inside = ide.inside ∧ after.history = ide.history ++ [DiskOp.iderw b] ∧
      (after.device = .idle ∨ ∃ command, after.device = .busy command) := by
  have first : ide.idequeue = some b := queued.chain.1
  have chain := queued.chain.2
  simp only [Ide.ideintr, first]
  cases next : ide.qnext b with
  | none =>
      dsimp only
      refine ⟨_, rfl, ?_, rfl, rfl, rfl, Or.inl rfl⟩
      rw [← next]
      exact queued.serve (fun other here => by rw [next] at here; cases here) fun _ => rfl
  | some other =>
      rw [next] at chain
      rcases chain.cons_of_some with ⟨others, rfl, -⟩
      have different : other ≠ b := by
        rintro rfl
        exact (List.nodup_cons.mp queued.nodup).1 (List.mem_cons_self ..)
      have same : ∀ buffer, (ide.store.setBuf b buffer).buf other = ide.store.buf other :=
        fun buffer => Function.update_of_ne different _ _
      have small : (ide.store.buf other).blockno < fsSize :=
        (queued.queued other (by simp)).2.2.1
      simp only [idestart, Ide.buf, same]
      rw [if_neg (Nat.not_le_of_lt small)]
      refine ⟨_, rfl, ?_, rfl, rfl, rfl, Or.inr ⟨_, rfl⟩⟩
      rw [← next]
      refine queued.serve ?_ nofun
      intro later here
      rw [next] at here
      cases here
      rfl

theorem Served.ideintr (served : ide.Served start) : (ide.step .ideintr).Keeps (Served start) := by
  rcases served with ⟨⟨queue, queued⟩, memory, ran, refines⟩
  rw [step]
  cases state : ide.device with
  | idle => trivial
  | busy command => trivial
  | raised command read =>
      rcases queued.head (by rw [state]; simp) with ⟨b, rest, rfl, first, chain, works⟩
      rcases queued.queued b (List.mem_cons_self ..) with ⟨stale, dev, blockno, p, waits⟩
      have locked : (ide.buf b).lock ≠ none := by
        rw [(queued.inside p b waits).1]
        simp
      rw [state] at refines
      have buf : memory.buf = ide.store.buf := by rw [refines, settle_buf]
      have now : command = Ide.command (ide.buf b) ∧
          ((ide.buf b).dirty = false → read = ide.store.disk (ide.buf b).blockno) := by
        rcases works with busy | ⟨other, raised, same⟩
        · rw [state] at busy
          cases busy
        · rw [state] at raised
          cases raised
          exact ⟨rfl, same⟩
      -- What the handler reads is what the in-memory driver copies.
      have data : (if (ide.buf b).dirty = true then (ide.buf b).data else read) =
          if (ide.buf b).dirty = true then (ide.buf b).data
            else memory.disk (ide.buf b).blockno := by
        by_cases dirty : (ide.buf b).dirty = true
        · rw [if_pos dirty, if_pos dirty]
        · have clean : (ide.buf b).dirty = false := by simpa using dirty
          have unwritten : execute (Ide.command (ide.buf b)) memory = memory := by
            rw [execute, if_neg]
            simp [Ide.command, clean]
          rw [if_neg dirty, if_neg dirty, now.2 clean, refines, settle, now.1, unwritten]
      have step := iderw_memory (congrFun buf b) locked stale dev blockno
      obtain ⟨after, ended, kept, store, -, history, quiet⟩ := queued.ideintr read
      have settled : ∀ store, settle after.device store = store := by
        intro store
        rcases quiet with idle | ⟨_, busy⟩
        · rw [idle]
          rfl
        · rw [busy]
          rfl
      have whole : ide.store = execute (Ide.command (ide.buf b)) memory := by
        rw [refines, settle, now.1]
      have same : ∀ buffer, ide.store.setBuf b buffer =
          (execute (Ide.command (ide.buf b)) memory).setBuf b buffer := by
        intro buffer
        rw [whole]
      have replayed : runs Store.diskStep start after.history =
          memory.diskStep (DiskOp.iderw b) := by
        rw [history, runs_concat, ran]
        rfl
      have refined : after.Refines start := by
        rw [step] at replayed
        refine ⟨_, replayed, ?_⟩
        rw [settled, store, data]
        exact same _
      simp only [ended]
      exact ⟨⟨rest, kept⟩, refined⟩

/-- Appending follows the pointers to the last buffer of the queue. -/
theorem Queued.append (queued : ide.Queued queue) {b : BufPtr} (fresh : b ∉ queue) :
    Chain (enqueue b ide.idequeue ide.qnext).2 (enqueue b ide.idequeue ide.qnext).1
        (queue ++ [b]) ∧
      (queue = [] → (enqueue b ide.idequeue ide.qnext).1 = some b) ∧
      (queue ≠ [] → (enqueue b ide.idequeue ide.qnext).1 = ide.idequeue ∧
        ide.idequeue ≠ some b) := by
  unfold enqueue
  have chain : Chain (Function.update ide.qnext b none) ide.idequeue queue := by
    refine queued.chain.congr fun cell member => Function.update_of_ne ?_ _ _
    rintro rfl
    exact fresh member
  have ends : Function.update ide.qnext b none b = none := Function.update_self _ _ _
  cases queue with
  | nil =>
      have empty : ide.idequeue = none := chain
      rw [empty]
      exact ⟨⟨rfl, ends⟩, fun _ => rfl, fun some => absurd rfl some⟩
  | cons first rest =>
      have head : ide.idequeue = some first := chain.1
      have few : (first :: rest).length ≤ nbuf := by
        have card := queued.nodup.length_le_card
        rwa [Fintype.card_fin] at card
      have last := chain.2.lastCell_eq (Nat.le_of_succ_le few)
      rw [head] at chain ⊢
      dsimp only
      rw [last]
      refine ⟨chain.append queued.nodup fresh ends, nofun, fun _ => ⟨rfl, ?_⟩⟩
      intro same
      cases same
      exact fresh (List.mem_cons_self ..)

/-- A request has arrived. -/
theorem Queued.arrive (queued : ide.Queued queue) {p : Pid} {b : BufPtr}
    (outside : ide.inside p = none) (lock : (ide.buf b).lock = some p) (stale : ¬ide.Clean b)
    (dev : (ide.buf b).dev = 1) (blockno : (ide.buf b).blockno < fsSize)
    {qnext : BufPtr → Option BufPtr} {idequeue : Option BufPtr} {device : Device}
    {sleeping : Pid → Bool} (chain : Chain qnext idequeue (queue ++ [b]))
    (starts : queue = [] → device = .busy (command (ide.buf b)))
    (stays : queue ≠ [] → device = ide.device ∧ idequeue = ide.idequeue) :
    Queued
      { ide with
        idequeue := idequeue
        qnext := qnext
        device := device
        inside := Function.update ide.inside p (some b)
        sleeping := sleeping
        arrived := ide.arrived ++ [⟨p, b⟩]
        request := Function.update ide.request p ide.arrived.length } (queue ++ [b]) := by
  rcases queued.free outside (Or.inl lock) with ⟨nobody, fresh⟩
  have total : ide.arrived.length = ide.served.length + queue.length := by
    rw [← List.length_append, ← queued.arrived, List.length_map]
  refine ⟨queued.disk1, chain, ?_, ?_, ?_, ?_, ?_, ?_⟩
  · rw [List.nodup_append]
    refine ⟨queued.nodup, List.nodup_singleton b, ?_⟩
    rintro a member c single rfl
    rw [List.mem_singleton.mp single] at member
    exact fresh member
  · change (ide.arrived ++ [(⟨p, b⟩ : Request)]).map Request.buf = ide.served ++ (queue ++ [b])
    rw [List.map_append, queued.arrived, List.append_assoc]
    rfl
  · intro head first
    by_cases empty : queue = []
    · subst empty
      have same : some head = some b := (show idequeue = some head from first).symm.trans chain.1
      cases same
      exact Or.inl (starts rfl)
    · rcases stays empty with ⟨same, queue⟩
      have works := queued.works head (queue ▸ first)
      rw [Works, ← same] at works
      exact works
  · intro empty
    exact absurd empty (by simp)
  · intro other member
    rcases List.mem_append.mp member with old | new
    · rcases queued.queued other old with ⟨stale, dev, blockno, q, waits⟩
      refine ⟨stale, dev, blockno, q, ?_⟩
      have different : q ≠ p := by
        rintro rfl
        rw [outside] at waits
        cases waits
      exact (Function.update_of_ne different _ _).trans waits
    · rw [List.mem_singleton.mp new]
      exact ⟨stale, dev, blockno, p, Function.update_self _ _ _⟩
  · intro q other waits
    change Function.update ide.inside p (some b) q = some other at waits
    by_cases same : q = p
    · subst same
      rw [Function.update_self] at waits
      cases waits
      refine ⟨lock, ?_, Or.inr ⟨by simp, ?_⟩⟩
      · simp
      · simp only [Function.update_self]
        omega
    · rw [Function.update_of_ne same] at waits
      rcases queued.inside q other waits with ⟨holds, here, place⟩
      refine ⟨holds, ?_, ?_⟩
      · simp only [Function.update_of_ne same]
        rw [List.getElem?_append_left (List.getElem?_eq_some_iff.mp here).1]
        exact here
      · simp only [Function.update_of_ne same]
        rcases place with done | ⟨member, later⟩
        · exact Or.inl done
        · exact Or.inr ⟨List.mem_append_left _ member, later⟩

/-- The disk starts on a buffer that is the first in the queue. -/
theorem startDisk_first {b : BufPtr} (first : ide.idequeue = some b)
    (small : (ide.buf b).blockno < fsSize) :
    startDisk b ide = .done () { ide with device := .busy (command (ide.buf b)) } := by
  rw [startDisk, if_pos first, idestart, if_neg (Nat.not_le_of_lt small)]

/-- A process sleeps while the buffer is not in sync with the disk. -/
theorem wait_sleeps {p : Pid} {b : BufPtr} (stale : ¬ide.Clean b) : wait p b ide =
    { ide with
      inside := Function.update ide.inside p (some b)
      sleeping := Function.update ide.sleeping p true } := by
  rw [Ide.wait, if_neg stale]

/-- What `iderw` changes before it sleeps. -/
theorem iderw_state {p : Pid} {b : BufPtr} {after : Ide} (stale : ¬ide.Clean b)
    (ends : (iderw p b ide).state? = some after) : ∃ device, after =
      { ide with
        idequeue := (enqueue b ide.idequeue ide.qnext).1
        qnext := (enqueue b ide.idequeue ide.qnext).2
        device := device
        inside := Function.update ide.inside p (some b)
        sleeping := Function.update ide.sleeping p true
        arrived := ide.arrived ++ [⟨p, b⟩]
        request := Function.update ide.request p ide.arrived.length } := by
  unfold Ide.iderw startDisk at ends
  rw [if_neg stale] at ends
  split at ends
  · cases ends
  split at ends
  · cases ends
  dsimp only at ends
  split at ends
  · unfold Ide.idestart at ends
    split at ends
    · cases ends
    · cases ends
      exact ⟨_, wait_sleeps stale⟩
  · cases ends
    exact ⟨_, wait_sleeps stale⟩

/-- A call of `iderw` appends its request, and starts the disk when it was idle. -/
theorem Queued.iderw (queued : ide.Queued queue) {p : Pid} {b : BufPtr}
    (outside : ide.inside p = none) (lock : (ide.buf b).lock = some p) (stale : ¬ide.Clean b)
    (dev : (ide.buf b).dev = 1) (blockno : (ide.buf b).blockno < fsSize) :
    ∃ after, Ide.iderw p b ide = .done () after ∧ after.Queued (queue ++ [b]) ∧
      (after.device = ide.device ∨
        ide.device = .idle ∧ after.device = .busy (command (ide.buf b))) := by
  rcases queued.free outside (Or.inl lock) with ⟨nobody, fresh⟩
  have locked : ¬(ide.buf b).lock = none := by
    rw [lock]
    simp
  have present : ¬((ide.buf b).dev ≠ 0 ∧ ide.havedisk1 = false) := by
    rw [queued.disk1]
    simp
  rw [Ide.iderw, if_neg locked, if_neg stale, if_neg present]
  have appended := queued.append fresh
  rcases appended with ⟨chain, first, later⟩
  by_cases empty : queue = []
  · dsimp only
    rw [startDisk_first]
    rotate_left
    · exact first empty
    · exact blockno
    simp only [Outcome.mapState]
    rw [wait_sleeps]
    rotate_left
    · exact stale
    refine ⟨_, rfl, ?_, Or.inr ⟨queued.rests empty, rfl⟩⟩
    exact queued.arrive outside lock stale dev blockno chain (fun _ => rfl)
      fun some => absurd empty some
  · have head := later empty
    have other : ¬(enqueue b ide.idequeue ide.qnext).1 = some b := by
      rw [head.1]
      exact head.2
    dsimp only
    rw [startDisk, if_neg]
    rotate_left
    · exact other
    simp only [Outcome.mapState]
    rw [wait_sleeps]
    rotate_left
    · exact stale
    refine ⟨_, rfl, ?_, Or.inl rfl⟩
    exact queued.arrive outside lock stale dev blockno chain (fun none => absurd none empty)
      fun _ => ⟨rfl, head.1⟩

theorem Served.iderw (served : ide.Served start) {p : Pid} {b : BufPtr} :
    (ide.step (.iderw p b)).Keeps (Served start) := by
  rcases served with ⟨⟨queue, queued⟩, memory, ran, refines⟩
  rw [step]
  by_cases guard : ide.inside p = none ∧ (ide.buf b).lock = some p ∧ ¬ide.Clean b ∧
      (ide.buf b).dev = 1 ∧ (ide.buf b).blockno < fsSize
  · rw [if_pos guard]
    rcases guard with ⟨outside, lock, stale, dev, blockno⟩
    obtain ⟨after, ended, appended, device⟩ := queued.iderw outside lock stale dev blockno
    obtain ⟨_, shape⟩ := iderw_state stale (congrArg Outcome.state? ended)
    have store : after.store = ide.store := by rw [shape]
    have history : after.history = ide.history := by rw [shape]
    rw [ended]
    refine ⟨⟨_, appended⟩, memory, ?_, ?_⟩
    · rw [history]
      exact ran
    · rw [store, refines]
      rcases device with same | ⟨idle, busy⟩
      · rw [same]
      · rw [idle, busy]
        rfl
  · rw [if_neg guard]
    trivial

theorem Served.step (served : ide.Served start) (event : IdeEvent) :
    (ide.step event).Keeps (Served start) := by
  cases event with
  | acquire p b => exact served.acquire
  | release p b => exact served.release
  | fill p b valid dirty dev blockno data => exact served.fill
  | iderw p b => exact served.iderw
  | retest p => exact served.retest
  | kill p => exact served.kill
  | device => exact served.device
  | ideintr => exact served.ideintr

/-- Nothing was asked of the disk yet. -/
structure Boot (ide : Ide) : Prop where
  disk1 : ide.havedisk1 = true
  idequeue : ide.idequeue = none
  device : ide.device = .idle
  inside : ∀ p, ide.inside p = none
  arrived : ide.arrived = []
  served : ide.served = []
  history : ide.history = []

theorem Boot.served_start (boot : ide.Boot) : ide.Served ide.store := by
  refine ⟨⟨[], boot.disk1, boot.idequeue, List.nodup_nil, ?_, ?_, fun _ => boot.device, nofun, ?_⟩,
    ide.store, ?_, ?_⟩
  · rw [boot.arrived, boot.served]
    rfl
  · intro b first
    rw [boot.idequeue] at first
    cases first
  · intro p b waits
    rw [boot.inside] at waits
    cases waits
  · rw [boot.history]
    rfl
  · rw [boot.device]
    rfl

theorem served_run {ide final : Ide} {events : List IdeEvent} (boot : ide.Boot)
    (ran : runs next ide events = some final) : final.Served ide.store := by
  apply runs_invariant (fun _ => Served ide.store) boot.served_start ?_ ran
  intro _ before event after served stepped
  exact (served.step event).of_state stepped

/-- The buffer that the in-memory driver syncs with the disk in this step. -/
def synced : DiskOp → Option BufPtr
  | .iderw b => some b
  | _ => none

/-- The in-memory driver has served the same requests. -/
def Synced (ide : Ide) : Prop := ide.history.filterMap synced = ide.served

theorem Synced.touch (before : ide.Synced) {op : DiskOp} (other : synced op = none)
    {outcome : Outcome Store Unit} {after : Ide}
    (ends : (outcome.mapState fun store =>
      { ide with store := store, history := ide.history ++ [op] }).state? = some after) :
    after.Synced := by
  cases outcome with
  | blocked => cases ends
  | panic message => cases ends
  | done value store =>
      cases ends
      rw [Synced, List.filterMap_append, before]
      simp [other]

theorem Synced.wait (before : ide.Synced) (p : Pid) (b : BufPtr) : (wait p b ide).Synced := by
  unfold Ide.wait
  split <;> exact before

theorem Synced.idestart (before : ide.Synced) {b : BufPtr} {after : Ide}
    (ends : (idestart b ide).state? = some after) : after.Synced := by
  unfold Ide.idestart at ends
  split at ends
  · cases ends
  · cases ends
    exact before

theorem Synced.ideintr (before : ide.Synced) {read : Block} {after : Ide}
    (ends : (ideintr read ide).state? = some after) : after.Synced := by
  unfold Ide.ideintr at ends
  cases first : ide.idequeue with
  | none =>
      simp only [first] at ends
      cases ends
      exact before
  | some b =>
      simp only [first] at ends
      have served : (ide.history ++ [DiskOp.iderw b]).filterMap synced = ide.served ++ [b] := by
        rw [List.filterMap_append, before]
        rfl
      cases second : ide.qnext b with
      | none =>
          simp only [second] at ends
          cases ends
          exact served
      | some next =>
          simp only [second] at ends
          refine Synced.idestart ?_ ends
          exact served

/-- Only the handler serves requests. -/
theorem Synced.next (before : ide.Synced) {event : IdeEvent} {after : Ide}
    (stepped : ide.next event = some after) : after.Synced := by
  rw [Ide.next] at stepped
  cases event with
  | acquire p b =>
      rw [Ide.step] at stepped
      split at stepped
      · exact before.touch rfl stepped
      · cases stepped
  | release p b =>
      rw [Ide.step] at stepped
      split at stepped
      · exact before.touch rfl stepped
      · cases stepped
  | fill p b valid dirty dev blockno data =>
      rw [Ide.step] at stepped
      split at stepped
      · cases stepped
        rw [Synced, List.filterMap_append, before]
        simp [synced]
      · cases stepped
  | iderw p b =>
      rw [Ide.step] at stepped
      split at stepped
      · rename_i guard
        rcases iderw_state guard.2.2.1 stepped with ⟨device, rfl⟩
        exact before
      · cases stepped
  | retest p =>
      rw [Ide.step] at stepped
      split at stepped
      · split at stepped
        · cases stepped
          exact before.wait _ _
        · cases stepped
      · cases stepped
  | kill p =>
      cases stepped
      exact before
  | device =>
      rw [Ide.step] at stepped
      split at stepped
      · cases stepped
        exact before
      · cases stepped
  | ideintr =>
      rw [Ide.step] at stepped
      split at stepped
      · exact before.ideintr stepped
      · cases stepped

/-- A call of `iderw` that does not panic has queued its request and sleeps. -/
theorem iderw_sleeps {p : Pid} {b : BufPtr} {after : Ide}
    (stepped : ide.next (.iderw p b) = some after) :
    after.inside p = some b ∧ after.arrived[after.request p]? = some ⟨p, b⟩ := by
  rw [Ide.next, Ide.step] at stepped
  split at stepped
  · rename_i guard
    rcases iderw_state guard.2.2.1 stepped with ⟨device, rfl⟩
    simp
  · cases stepped

theorem idestart_inside {b : BufPtr} {after : Ide}
    (ends : (idestart b ide).state? = some after) : after.inside = ide.inside := by
  unfold idestart at ends
  split at ends
  · cases ends
  · cases ends
    rfl

/-- A process leaves `iderw` only where it tests the flags of its buffer. -/
theorem leaves_iderw {event : IdeEvent} {after : Ide} (stepped : ide.next event = some after)
    {p : Pid} {b : BufPtr} (waits : ide.inside p = some b) (left : after.inside p = none) :
    event = .retest p := by
  have stays : after.inside ≠ ide.inside := by
    intro same
    rw [same, waits] at left
    cases left
  rw [Ide.next, Ide.step.eq_def] at stepped
  cases event with
  | acquire q other =>
      dsimp only at stepped
      split at stepped
      · cases locked : acquiresleep q other ide.store with
        | done value store =>
            rw [locked] at stepped
            cases stepped
            exact absurd rfl stays
        | _ =>
            rw [locked] at stepped
            cases stepped
      · cases stepped
  | release q other =>
      dsimp only at stepped
      split at stepped
      · cases unlocked : releasesleep other ide.store with
        | done value store =>
            rw [unlocked] at stepped
            cases stepped
            exact absurd rfl stays
        | _ =>
            rw [unlocked] at stepped
            cases stepped
      · cases stepped
  | fill q other valid dirty dev blockno data =>
      dsimp only at stepped
      split at stepped
      · cases stepped
        exact absurd rfl stays
      · cases stepped
  | iderw q other =>
      dsimp only at stepped
      split at stepped
      · rename_i guard
        rcases iderw_state guard.2.2.1 stepped with ⟨device, rfl⟩
        have different : p ≠ q := by
          rintro rfl
          rw [guard.1] at waits
          cases waits
        have same := (Function.update_of_ne different (some other) ide.inside).symm.trans left
        rw [waits] at same
        cases same
      · cases stepped
  | retest q =>
      dsimp only at stepped
      split at stepped
      · rename_i other asks
        split at stepped
        · cases stepped
          by_cases same : p = q
          · rw [same]
          · unfold Ide.wait at left
            split at left
            all_goals
              simp only [Function.update_of_ne same] at left
              rw [waits] at left
              cases left
        · cases stepped
      · cases stepped
  | kill q =>
      cases stepped
      exact absurd rfl stays
  | device =>
      dsimp only at stepped
      split at stepped
      · cases stepped
        exact absurd rfl stays
      · cases stepped
  | ideintr =>
      dsimp only at stepped
      split at stepped
      · unfold Ide.ideintr at stepped
        split at stepped
        · cases stepped
          exact absurd rfl stays
        · dsimp only at stepped
          split at stepped
          · cases stepped
            exact absurd rfl stays
          · exact absurd (idestart_inside stepped) stays
      · cases stepped

/-- A process that returns from `iderw` was served. -/
theorem Queued.returned (queued : ide.Queued queue) {event : IdeEvent} {after : Ide}
    (stepped : ide.next event = some after) {p : Pid} {b : BufPtr} (waits : ide.inside p = some b)
    (left : after.inside p = none) :
    ide.arrived[ide.request p]? = some ⟨p, b⟩ ∧ ide.served[ide.request p]? = some b := by
  rcases queued.inside p b waits with ⟨-, here, place⟩
  refine ⟨here, ?_⟩
  have clean : ide.Clean b := by
    by_contra stale
    rw [leaves_iderw stepped waits left, Ide.next, Ide.step, waits] at stepped
    dsimp only at stepped
    split at stepped
    · rw [wait_sleeps stale] at stepped
      cases stepped
      simp at left
    · cases stepped
  have early : ide.request p < ide.served.length := by
    rcases place with done | ⟨member, -⟩
    · exact done.2
    · exact absurd clean (queued.queued b member).1
  have buffer : (ide.served ++ queue)[ide.request p]? = some b := by
    rw [← queued.arrived, List.getElem?_map, here]
    rfl
  rwa [List.getElem?_append_left early] at buffer

/-- The queue of a driver is the requests that arrived and are not served yet,
in the order of their arrival, and the disk works on its head. -/
def QueueOk (ide : Ide) : Prop :=
  ∃ queue, Chain ide.qnext ide.idequeue queue ∧ queue.Nodup ∧
    ide.arrived.map Request.buf = ide.served ++ queue ∧
    (∀ b, queue.head? = some b → ide.Works b) ∧ (queue = [] → ide.device = .idle)

/-- In every run no call panics, a call of `iderw` queues its request and returns
only after it was served, in the order of arrival, and the buffers and the disk
are those of the in-memory driver after it served the same requests. -/
theorem ide_refines_memide {start : Ide} (boot : start.Boot) (events : List IdeEvent) (ide : Ide)
    (ran : runs next start events = some ide) :
    (∀ event message, ide.step event ≠ .panic message) ∧ ide.QueueOk ∧
      (∀ p b after, ide.next (.iderw p b) = some after →
        after.inside p = some b ∧ after.arrived[after.request p]? = some ⟨p, b⟩) ∧
      (∀ event p b after, ide.next event = some after → ide.inside p = some b →
        after.inside p = none →
        ide.arrived[ide.request p]? = some ⟨p, b⟩ ∧ ide.served[ide.request p]? = some b) ∧
      ∃ memory, runs Store.diskStep start.store ide.history = some memory ∧
        ide.history.filterMap synced = ide.served ∧
        ide.store = settle ide.device memory ∧ (ide.device = .idle → ide.store = memory) := by
  rcases served_run boot ran with served
  have sync : ide.Synced := by
    apply runs_invariant (fun _ => Synced) ?_ (fun _ _ _ _ before => before.next) ran
    rw [Synced, boot.history, boot.served]
    rfl
  rcases served with ⟨⟨queue, queued⟩, memory, ran, refines⟩
  refine ⟨?_, ?_, ?_, ?_, memory, ran, sync, refines, ?_⟩
  · intro event message panics
    have keeps := Served.step ⟨⟨queue, queued⟩, memory, ran, refines⟩ event
    rw [panics] at keeps
    exact keeps
  · refine ⟨queue, queued.chain, queued.nodup, queued.arrived, ?_, queued.rests⟩
    intro b first
    cases queue with
    | nil => cases first
    | cons head rest =>
        cases first
        exact queued.works _ queued.chain.1
  · intro p b after stepped
    exact iderw_sleeps stepped
  · intro event p b after stepped waits left
    exact queued.returned stepped waits left
  · intro idle
    rw [refines, idle]
    rfl

/-- The driver before the first process runs. -/
def ideinit (store : Store) : Ide where
  store := store
  havedisk1 := true
  idequeue := none
  qnext := fun _ => none
  device := .idle
  inside := fun _ => none
  sleeping := fun _ => false
  arrived := []
  served := []
  request := fun _ => 0
  history := []

def blankDriver : Ide := ideinit (boot ⟨2, 30, 0, false, 1, ⟨0, fun _ => 0⟩⟩ fun _ _ => 0)

def firstBuf : BufPtr := ⟨0, zero_lt_nbuf⟩

def secondBuf : BufPtr := ⟨1, one_lt_nbuf⟩

/-- One process writes a block while another waits to read it. -/
def writeThenRead : List IdeEvent :=
  [.acquire 1 firstBuf, .fill 1 firstBuf false true 1 7 (fun _ => 5),
    .acquire 2 secondBuf, .fill 2 secondBuf false false 1 7 (fun _ => 0),
    .iderw 1 firstBuf, .iderw 2 secondBuf, .device, .ideintr, .retest 1,
    .device, .kill 2, .retest 2, .ideintr, .retest 2]

theorem ide_refines_memide_once :
    ∃ ide memory, runs next blankDriver writeThenRead = some ide ∧
      ide.arrived = [⟨1, firstBuf⟩, ⟨2, secondBuf⟩] ∧ ide.served = [firstBuf, secondBuf] ∧
      ide.history.filterMap synced = [firstBuf, secondBuf] ∧
      runs Store.diskStep blankDriver.store ide.history = some memory ∧
      ide.store = memory ∧ (memory.buf secondBuf).data 0 = 5 := by
  have facts : (runs next blankDriver writeThenRead).map (fun ide =>
      decide (ide.arrived = [⟨1, firstBuf⟩, ⟨2, secondBuf⟩] ∧
        ide.served = [firstBuf, secondBuf] ∧ (ide.store.buf secondBuf).data 0 = 5 ∧
        ide.idequeue = none)) = some true := by
    decide +kernel
  rcases Option.map_eq_some_iff.mp facts with ⟨ide, ran, holds⟩
  rcases of_decide_eq_true holds with ⟨arrived, served, data, empty⟩
  have boot : Boot blankDriver := ⟨rfl, rfl, rfl, fun _ => rfl, rfl, rfl, rfl⟩
  rcases ide_refines_memide boot writeThenRead ide ran with
    ⟨-, ⟨queue, chain, -, -, -, idle⟩, -, -, memory, replayed, sync, -, same⟩
  have nothing : queue = [] := by
    cases queue with
    | nil => rfl
    | cons head rest =>
        have first := chain.1
        rw [empty] at first
        cases first
  have equal := same (idle nothing)
  refine ⟨ide, memory, ran, arrived, served, ?_, replayed, equal, ?_⟩
  · rw [sync, served]
  · rw [← equal]
    exact data

end Ide

end Xv6.Fs
