import Xv6.Fs.Commit

/-!
# Crash atomicity

A commit switches what the disk stands for with one write, the first
`write_head`; recovery brings it home however often it is interrupted.
-/

namespace Xv6.Fs

open Xv6.Library

/-- The logged block numbers. -/
def LogHeader.logged (lh : LogHeader) : List Nat := (List.range lh.n).map lh.block

theorem LogHeader.mem_logged {lh : LogHeader} {b : Nat} :
    b ∈ lh.logged ↔ ∃ i < lh.n, lh.block i = b := by
  simp [logged]

/-- The blocks of the transaction with their contents. -/
def LogHeader.pins (lh : LogHeader) (new : Nat → Block) : List Pin :=
  lh.logged.map fun b => (b, new b)

/-- The home blocks with the transaction applied. -/
def LogHeader.apply (lh : LogHeader) (new old : Nat → Block) : Nat → Block :=
  fun b => if b ∈ lh.logged then new b else old b

variable {p : Pid} {log : Log} {disk content new : Nat → Block} {written : List Nat}
  {lh : LogHeader}

/-! ## Installing -/

theorem Represents.install_upto (represents : Represents log disk content)
    (count : lh.n = (headerOf (disk log.start)).n)
    (agree : ∀ i < lh.n, lh.block i = (headerOf (disk log.start)).block i) {tail : Nat}
    (inside : tail ≤ lh.n) :
    Represents log (copyDisk lh.block (fun i => disk (log.start + i + 1)) disk tail) content ∧
      copyDisk lh.block (fun i => disk (log.start + i + 1)) disk tail log.start =
        disk log.start := by
  have home : ∀ i < lh.n, ¬log.Owns (lh.block i) := by
    intro i below
    rw [agree i below]
    exact represents.home i (count ▸ below)
  have header : ∀ tail ≤ lh.n, copyDisk lh.block (fun i => disk (log.start + i + 1)) disk tail
      log.start = disk log.start := by
    intro tail inside
    apply copyDisk_of_ne
    intro i below same
    exact home i (by omega) (same ▸ log.owns_start)
  refine ⟨?_, header tail inside⟩
  induction tail with
  | zero => exact represents
  | succ tail inductionHypothesis =>
      have before := inductionHypothesis (Nat.le_of_lt inside)
      have same := header tail (Nat.le_of_lt inside)
      have below : tail < (headerOf (disk log.start)).n := count ▸ inside
      have fits := represents.fits
      have data : copyDisk lh.block (fun i => disk (log.start + i + 1)) disk tail
          (log.start + tail + 1) = disk (log.start + tail + 1) := by
        apply copyDisk_of_ne
        intro i earlier reached
        exact home i (by omega) (reached ▸ log.owns_data (by omega))
      have step := before.install (i := tail) (by rw [same]; exact below)
      rw [same, data, ← agree tail inside] at step
      exact step

/-- After installation every home block holds its content. -/
theorem Represents.installed (represents : Represents log disk content)
    (count : lh.n = (headerOf (disk log.start)).n)
    (agree : ∀ i < lh.n, lh.block i = (headerOf (disk log.start)).block i) (b : Nat)
    (free : ¬log.Owns b) :
    copyDisk lh.block (fun i => disk (log.start + i + 1)) disk lh.n b = content b := by
  have logged : ∀ i < lh.n, disk (log.start + i + 1) = content (lh.block i) := by
    intro i below
    rw [agree i below]
    exact represents.logged i (count ▸ below)
  by_cases member : ∃ i < lh.n, lh.block i = b
  · rcases member with ⟨i, below, rfl⟩
    rw [copyDisk_at lh.block below, logged i below]
    intro j inside same
    rw [logged j inside, logged i below, same]
  · have apart : ∀ i < lh.n, lh.block i ≠ b := fun i below same => member ⟨i, below, same⟩
    rw [copyDisk_of_ne apart]
    apply represents.elsewhere b free
    intro i below
    rw [← agree i (count ▸ below)]
    exact apart i (count ▸ below)

/-- The end of a commit and of a recovery that had `written` behind it: nothing
is left in the log, and the home blocks hold `content`. -/
def Settled (p : Pid) (log : Log) (content : Nat → Block) (written : List Nat) (store : Store) :
    Prop :=
  ∃ lh disk more, lh.n = 0 ∧ At p none [] [] { log with lh := lh } disk (more ++ written) store ∧
    (headerOf (disk log.start)).n = 0 ∧ ∀ b, ¬log.Owns b → disk b = content b

variable {phase : Log → List Nat → (Nat → Block) → Prop}

theorem Settled.stable
    (closed : ∀ lh more disk, Represents log disk content →
      phase { log with lh := lh } (more ++ written) disk) :
    (journal p phase).Stable (Settled p log content written) where
  kept := by
    rintro store later ⟨lh, disk, more, count, here, facts⟩ others
    exact ⟨lh, disk, more, count, here.later others, facts⟩
  allowed := by
    rintro store ⟨lh, disk, more, count, here, empty, home⟩
    exact (At.stable (closed lh more disk (Represents.of_empty empty home))).allowed here

/-- Clearing the header writes a count of 0 and leaves the home blocks alone. -/
theorem cleared (log : Log) (lh : LogHeader) (disk : Nat → Block) (count : lh.n = 0) :
    (headerOf (Function.update disk log.start (putHeader lh (disk log.start)) log.start)).n = 0 ∧
      ∀ b, ¬log.Owns b →
        Function.update disk log.start (putHeader lh (disk log.start)) b = disk b := by
  constructor
  · rw [Function.update_self, (headerOf_putHeader lh _ (by omega) (by omega)).1, count]
  · intro b free
    rw [Function.update_of_ne]
    rintro rfl
    exact free log.owns_start

theorem finish_triple (device : log.dev = rootDev) (represents : Represents log disk content)
    (count : log.lh.n = (headerOf (disk log.start)).n)
    (agree : ∀ i < log.lh.n, log.lh.block i = (headerOf (disk log.start)).block i)
    (closed : ∀ lh more disk, Represents log disk content →
      phase { log with lh := lh } (more ++ written) disk) :
    (journal p phase).Triple (At p none [] [] log disk written)
      (do
        installTrans p
        clearHead
        writeHead p)
      fun _ => Settled p log content written := by
  have home : ∀ i < log.lh.n, ¬log.Owns (log.lh.block i) := by
    intro i below
    rw [agree i below]
    exact represents.home i (count ▸ below)
  have phases : ∀ tail ≤ log.lh.n, phase log (copyWrites log.lh.block written tail)
      (copyDisk log.lh.block (fun i => disk (log.start + i + 1)) disk tail) := by
    intro tail inside
    have shown := closed log.lh (copyWrites log.lh.block [] tail) _
      (represents.install_upto count agree inside).1
    rwa [← copyWrites_append] at shown
  have installed := represents.installed count agree
  have emptied := closed { log.lh with n := 0 } (copyWrites log.lh.block [] log.lh.n) _
    (represents.install_upto count agree (Nat.le_refl _)).1
  rw [← copyWrites_append, List.nil_append] at emptied
  refine Setting.Triple.bind (installTrans_triple device (count ▸ represents.fits) home phases)
    fun _ => ?_
  have now := phases log.lh.n (Nat.le_refl _)
  generalize copyDisk log.lh.block (fun i => disk (log.start + i + 1)) disk log.lh.n = last
    at installed now emptied
  have erased := cleared log { log.lh with n := 0 } last rfl
  have ended : Represents log
      (Function.update last log.start (putHeader { log.lh with n := 0 } (last log.start)))
      content :=
    Represents.of_empty erased.1 fun b free => (erased.2 b free).trans (installed b free)
  have next := closed { log.lh with n := 0 } (log.start :: copyWrites log.lh.block [] log.lh.n) _ ended
  simp only [List.cons_append, ← copyWrites_append, List.nil_append] at next
  refine Setting.Triple.bind (clearHead_triple now emptied) fun _ => ?_
  have onRoot : ({ log with lh := { log.lh with n := 0 } } : Log).dev = rootDev := device
  refine (writeHead_triple onRoot emptied next (List.forall_mem_nil _)).consequence
    (fun _ reached => reached) (fun _ => Settled.stable closed) ?_
  intro _ store here
  refine ⟨{ log.lh with n := 0 }, _, log.start :: copyWrites log.lh.block [] log.lh.n, rfl, ?_,
    erased.1, fun b free => (erased.2 b free).trans (installed b free)⟩
  rw [List.cons_append, ← copyWrites_append]
  exact here

/-! ## Recovery -/

theorem recover_triple (device : log.dev = rootDev) (represents : Represents log disk content)
    (closed : ∀ lh more disk, Represents log disk content →
      phase { log with lh := lh } (more ++ written) disk) :
    (journal p phase).Triple (At p none [] [] log disk written) (recoverFromLog p)
      fun _ => Settled p log content written := by
  refine Setting.Triple.bind (readHead_triple device fun lh => closed lh [] disk represents)
    fun _ => ?_
  rintro store ⟨lh, count, agree, here⟩
  have same : Represents { log with lh := lh } disk content :=
    ⟨represents.small, represents.fits, represents.home, represents.logged, represents.elsewhere⟩
  have onRoot : ({ log with lh := lh } : Log).dev = rootDev := device
  exact finish_triple onRoot same count agree (fun lh more disk shown => closed lh more disk
    ⟨shown.small, shown.fits, shown.home, shown.logged, shown.elsewhere⟩) store here

/-! ## Commit -/

/-- A transaction that fits the log, on home blocks only. -/
structure Transaction (log : Log) : Prop where
  device : log.dev = rootDev
  small : log.lh.n ≤ logSize
  fits : log.lh.n = 0 ∨ log.lh.n < log.size
  home : ∀ b ∈ log.lh.logged, ¬log.Owns b
  number : ∀ b ∈ log.lh.logged, b < 2 ^ 32

/-- During a commit the disk stands for the old content until the header is
written, and for the new content afterwards. -/
def CommitPhase (log : Log) (new old : Nat → Block) (before : List Nat) (current : Log)
    (written : List Nat) (disk : Nat → Block) : Prop :=
  current = { log with lh := current.lh } ∧ ∃ recent, written = recent ++ before ∧
    Represents log disk (if log.start ∈ recent then log.lh.apply new old else old)

/-- Writing the header commits. -/
theorem Transaction.commits (transaction : Transaction log) (content new : Nat → Block)
    (old : ∀ b, ¬log.Owns b → disk b = content b)
    (copies : ∀ i < log.lh.n, disk (log.start + i + 1) = new (log.lh.block i)) :
    (headerOf (Function.update disk log.start (putHeader log.lh (disk log.start)) log.start)).n =
        log.lh.n ∧
      (∀ i < log.lh.n, log.lh.block i = (headerOf (Function.update disk log.start
        (putHeader log.lh (disk log.start)) log.start)).block i) ∧
      Represents log (Function.update disk log.start (putHeader log.lh (disk log.start)))
        (log.lh.apply new content) := by
  have header := headerOf_putHeader log.lh (disk log.start) transaction.small
    fun i below => transaction.number _ (LogHeader.mem_logged.mpr ⟨i, below, rfl⟩)
  rw [Function.update_self]
  refine ⟨header.1, fun i below => (header.2 i below).symm, ?_⟩
  have fits := transaction.fits
  constructor
  · rw [Function.update_self, header.1]
    exact transaction.small
  · rw [Function.update_self, header.1]
    exact fits
  · rw [Function.update_self, header.1]
    intro i below
    rw [header.2 i below]
    exact transaction.home _ (LogHeader.mem_logged.mpr ⟨i, below, rfl⟩)
  · rw [Function.update_self, header.1]
    intro i below
    rw [header.2 i below, Function.update_of_ne (by omega), copies i below]
    exact (if_pos (LogHeader.mem_logged.mpr ⟨i, below, rfl⟩)).symm
  · rw [Function.update_self, header.1]
    intro b free apart
    have absent : b ∉ log.lh.logged := by
      intro member
      rcases LogHeader.mem_logged.mp member with ⟨i, below, same⟩
      exact apart i below ((header.2 i below).trans same)
    rw [Function.update_of_ne, old b free]
    · exact (if_neg absent).symm
    · rintro rfl
      exact free log.owns_start

/-- The disk after `write_log` has written the first `count` log blocks. -/
def loggedDisk (log : Log) (new disk : Nat → Block) (count : Nat) : Nat → Block :=
  copyDisk (fun i => log.start + i + 1) (fun i => new (log.lh.block i)) disk count

def loggedWrites (log : Log) (written : List Nat) (count : Nat) : List Nat :=
  copyWrites (fun i => log.start + i + 1) written count

theorem loggedDisk_header (count : Nat) :
    loggedDisk log new disk count log.start = disk log.start :=
  copyDisk_of_ne fun i _ => by omega

theorem loggedDisk_data {count i : Nat} (below : i < count) :
    loggedDisk log new disk count (log.start + i + 1) = new (log.lh.block i) := by
  refine copyDisk_at (fun i => log.start + i + 1) below ?_
  intro j _ same
  have index : j = i := by omega
  rw [index]

theorem Transaction.loggedDisk_home (transaction : Transaction log) (new disk : Nat → Block)
    {count : Nat}
    (inside : count ≤ log.lh.n) (b : Nat) (free : ¬log.Owns b) :
    loggedDisk log new disk count b = disk b := by
  apply copyDisk_of_ne
  rintro i below rfl
  have fits := transaction.fits
  exact free (log.owns_data (by omega))

theorem Transaction.logging (transaction : Transaction log) (new : Nat → Block)
    (written : List Nat) (empty : (headerOf (disk log.start)).n = 0) {count : Nat} (inside : count ≤ log.lh.n) :
    CommitPhase log new disk written log (loggedWrites log written count)
      (loggedDisk log new disk count) := by
  refine ⟨rfl, loggedWrites log [] count, ?_, ?_⟩
  · rw [loggedWrites, loggedWrites, ← copyWrites_append, List.nil_append]
  · have unwritten : log.start ∉ loggedWrites log [] count := by
      rw [loggedWrites, mem_copyWrites]
      rintro (⟨i, -, same⟩ | member)
      · omega
      · exact List.not_mem_nil member
    rw [if_neg unwritten]
    exact Represents.of_empty (by rw [loggedDisk_header]; exact empty)
      (transaction.loggedDisk_home new disk inside)

/-- The end of a commit, with the phase it ends in. -/
def Committed (p : Pid) (log : Log) (new disk : Nat → Block) (written : List Nat)
    (store : Store) : Prop :=
  Settled p log (log.lh.apply new disk) written store ∧
    CommitPhase log new disk written store.log store.written store.disk

theorem Committed.stable :
    (journal p (CommitPhase log new disk written)).Stable (Committed p log new disk written) where
  kept := by
    rintro store later ⟨⟨lh, last, more, count, here, facts⟩, phase⟩ others
    refine ⟨⟨lh, last, more, count, here.later others, facts⟩, ?_⟩
    rw [others.log, others.written, others.disk]
    exact phase
  allowed := by
    rintro store ⟨⟨lh, last, more, count, here, facts⟩, phase⟩
    exact ⟨⟨none, here.cache, here.owner⟩, phase⟩

theorem commit_triple (transaction : Transaction log) (new : Nat → Block)
    (empty : (headerOf (disk log.start)).n = 0) :
    (journal p (CommitPhase log new disk written)).Triple
      (At p none [] (log.lh.pins new) log disk written) (commit p)
      fun _ => Committed p log new disk written := by
  have pinned : ∀ i < log.lh.n, (log.lh.block i, new (log.lh.block i)) ∈ log.lh.pins new :=
    fun i below => List.mem_map.mpr
      ⟨_, LogHeader.mem_logged.mpr ⟨i, below, rfl⟩, rfl⟩
  have home : ∀ pin ∈ log.lh.pins new, ¬log.Owns pin.1 := by
    intro pin member
    rcases List.mem_map.mp member with ⟨b, logged, rfl⟩
    exact transaction.home b logged
  have start := transaction.logging new written empty (Nat.zero_le _)
  have now := transaction.logging new written empty (Nat.le_refl _)
  refine Setting.Triple.bind_get (At.stable start) (decide (0 < log.lh.n))
    (fun _ here => by rw [here.log]) ?_
  by_cases some : 0 < log.lh.n
  · simp only [some, decide_true, if_true]
    rcases transaction.commits disk new
      (transaction.loggedDisk_home new disk (Nat.le_refl _))
      (fun i below => loggedDisk_data below) with ⟨count, agree, committed⟩
    -- from here on the disk stands for the new content
    have closed : ∀ lh more disk', Represents log disk' (log.lh.apply new disk) →
        CommitPhase log new disk written { log with lh := lh }
          (more ++ log.start :: loggedWrites log written log.lh.n) disk' := by
      intro lh more disk' represents
      refine ⟨rfl, more ++ log.start :: loggedWrites log [] log.lh.n, ?_, ?_⟩
      · rw [List.append_assoc, List.cons_append, loggedWrites, loggedWrites, ← copyWrites_append,
          List.nil_append]
      · rw [if_pos (by simp)]
        exact represents
    refine Setting.Triple.bind (writeLog_triple transaction.device new transaction.fits pinned home
      fun tail inside => transaction.logging new written empty inside) fun _ => ?_
    refine Setting.Triple.bind (writeHead_triple transaction.device now (closed log.lh [] _ committed)
      home) fun _ => ?_
    intro store here
    have finish := finish_triple (p := p) transaction.device committed count.symm agree closed
    refine finish.consequence (fun _ reached => reached) (fun _ => Committed.stable) ?_ store
      (here.mono (List.Subset.refl _) (List.nil_subset _))
    rintro _ final ⟨lh, last, more, cleared, ended, erased, same⟩
    refine ⟨⟨lh, last, more ++ log.start :: loggedWrites log [] log.lh.n, cleared, ?_, erased,
      same⟩, ?_⟩
    · rw [List.append_assoc, List.cons_append, loggedWrites, ← copyWrites_append, List.nil_append]
      exact ended
    · rw [ended.log, ended.written, ended.disk]
      exact closed lh more last (Represents.of_empty erased same)
  · have none : log.lh.n = 0 := by omega
    simp only [some, decide_false, Bool.false_eq_true, if_false]
    refine Setting.Triple.pure Committed.stable ?_
    intro store here
    have same : log.lh.apply new disk = disk := by
      funext b
      simp [LogHeader.apply, LogHeader.logged, none]
    refine ⟨⟨log.lh, disk, [], none, here.mono (List.Subset.refl _) (List.nil_subset _), empty, ?_⟩,
      ?_⟩
    · intro b _
      rw [same]
    · rw [here.log, here.written, here.disk]
      exact start

/-! ## Crashes -/

/-- A machine that has just booted: the disk is all that is left. -/
def boot (log : Log) (disk : Nat → Block) : Store where
  disk := disk
  written := []
  buf := fun _ =>
    { valid := false, dirty := false, dev := 0, blockno := 0, lock := none, refs := []
      data := fun _ => 0 }
  mru :=
    { order := (List.finRange nbuf).reverse
      nodup := List.nodup_reverse.mpr (List.nodup_finRange nbuf)
      complete := by simp }
  log :=
    { start := log.start, size := log.size, outstanding := 0, committing := false
      dev := log.dev, lh := { n := 0, block := fun _ => 0 } }

/-- The disk after any number of recoveries, each cut short by a crash. -/
inductive Recrash (log : Log) (p : Pid) : (Nat → Block) → (Nat → Block) → Prop where
  | none {disk : Nat → Block} : Recrash log p disk disk
  | again {disk last : Nat → Block} {crash : Store}
      (crashed : crash ∈ (recoverFromLog p).states (boot log disk))
      (more : Recrash log p crash.disk last) : Recrash log p disk last

theorem cacheOk_boot (log : Log) (disk : Nat → Block) : CacheOk none (boot log disk) := by
  constructor <;> simp [boot, rootDev]

/-- Recovery, whatever it is interrupted by, keeps what the disk stands for. -/
theorem recovery_safe (p : Pid) (device : log.dev = rootDev)
    (represents : Represents log disk content) :
    (journal p fun _ _ disk => Represents log disk content).Safe
      (fun _ => Settled p (boot log disk).log content []) (recoverFromLog p)
      (boot log disk) := by
  have same : ∀ {other : Nat → Block}, Represents log other content →
      Represents (boot log disk).log other content := fun shown =>
    ⟨shown.small, shown.fits, shown.home, shown.logged, shown.elsewhere⟩
  have closed : ∀ lh (more : List Nat) other, Represents (boot log disk).log other content →
      (fun (_ : Log) (_ : List Nat) disk => Represents log disk content)
        { (boot log disk).log with lh := lh } (more ++ []) other :=
    fun _ _ _ shown => ⟨shown.small, shown.fits, shown.home, shown.logged, shown.elsewhere⟩
  have onRoot : (boot log disk).log.dev = rootDev := device
  have start : At p none [] [] (boot log disk).log disk [] (boot log disk) :=
    ⟨cacheOk_boot log disk, by simp, rfl, rfl, rfl, List.forall_mem_nil _, List.forall_mem_nil _⟩
  exact recover_triple onRoot (same represents) closed _ start

theorem Recrash.represents {last : Nat → Block} (device : log.dev = rootDev)
    (crashes : Recrash log p disk last) (represents : Represents log disk content) :
    Represents log last content := by
  induction crashes with
  | none => exact represents
  | again crashed _ inductionHypothesis =>
      exact inductionHypothesis ((recovery_safe p device represents).states crashed).2

/-- The machine as `commit` finds it: the blocks of the transaction are dirty in
the cache with their new contents, and the header on disk is empty. -/
structure ReadyToCommit (store : Store) (new : Nat → Block) : Prop where
  cache : CacheOk none store
  device : store.log.dev = rootDev
  admitted : store.log.lh.n ≤ min logSize (store.log.size - 1)
  distinct : store.log.lh.logged.Nodup
  home : ∀ b ∈ store.log.lh.logged, ¬store.log.Owns b
  cached : ∀ pin ∈ store.log.lh.pins new, Pinned pin store
  empty : (headerOf (store.disk store.log.start)).n = 0
  fresh : store.written = []

theorem ReadyToCommit.transaction {store : Store} (ready : ReadyToCommit store new) :
    Transaction store.log := by
  have admitted := ready.admitted
  refine ⟨ready.device, by omega, by omega, ready.home, ?_⟩
  intro b logged
  rcases ready.cached _ (List.mem_map.mpr ⟨b, logged, rfl⟩) with ⟨a, dirty, rfl, -⟩
  have range := ready.cache.range a (ready.cache.dirty a dirty).1
  exact Nat.lt_trans range (by decide)

/-- A commit cut short anywhere, then recoveries cut short anywhere, then one
recovery that completes: the home blocks of the transaction hold the new
contents if the header had been written when the commit was cut short, and the
old ones otherwise; nothing else has changed. -/
theorem commit_crashAtomic {store : Store} (ready : ReadyToCommit store new)
    {crash : Store} (crashed : crash ∈ (commit p).states store)
    {q : Pid} {last : Nat → Block} (crashes : Recrash store.log q crash.disk last)
    {final : Store} (recovered : (recoverFromLog q).run (boot store.log last) = .done () final) :
    (headerOf (final.disk store.log.start)).n = 0 ∧
      ∀ b, ¬store.log.Owns b → final.disk b =
        if b ∈ store.log.lh.logged ∧ store.log.start ∈ crash.written then new b
        else store.disk b := by
  have transaction := ready.transaction
  have here : At p none [] (store.log.lh.pins new) store.log store.disk [] store :=
    ⟨ready.cache, by simp, rfl, rfl, ready.fresh, List.forall_mem_nil _, ready.cached⟩
  rcases ((commit_triple transaction new ready.empty store here).states crashed).2 with
    ⟨-, recent, written, represents⟩
  rw [List.append_nil] at written
  rw [← written] at represents
  have settled := (recovery_safe q ready.device
    (crashes.represents ready.device represents)).run recovered
  rcases settled with ⟨lh, disk, more, -, ended, erased, home⟩
  rw [ended.disk]
  refine ⟨erased, ?_⟩
  intro b free
  rw [home b free]
  by_cases reached : store.log.start ∈ crash.written
  · simp [reached, LogHeader.apply]
  · simp [reached]

/-- A log whose transaction is blocks 100, 101 and 102. -/
def threeBlockLog : Log where
  start := 2
  size := 30
  outstanding := 0
  committing := true
  dev := rootDev
  lh := { n := 3, block := fun i => 100 + i }

def threeBlockStore : Store :=
  { boot threeBlockLog fun _ _ => 0 with
    log := threeBlockLog
    buf := fun b =>
      if b.val < 3 then
        { valid := true, dirty := true, dev := rootDev, blockno := 100 + b.val, lock := none
          refs := [], data := fun _ => UInt8.ofNat (100 + b.val) }
      else (boot threeBlockLog fun _ _ => 0).buf b }

theorem threeBlockStore_ready : ReadyToCommit threeBlockStore fun b _ => UInt8.ofNat b where
  cache := by
    constructor
    · intro a b
      simp only [threeBlockStore, boot]
      split <;> split <;> simp [rootDev, Fin.ext_iff]
    · intro b p
      simp only [threeBlockStore, boot]
      split <;> simp
    · intro b
      simp only [threeBlockStore, boot]
      split <;> simp
    · intro b
      simp only [threeBlockStore, boot]
      split <;> simp [fsSize]
      omega
    · intro b
      simp only [threeBlockStore, boot]
      split <;> simp [Log.Owns, threeBlockLog]
      omega
  device := rfl
  admitted := by decide
  distinct := by decide
  home := by decide
  cached := by
    intro pin member
    rcases List.mem_map.mp member with ⟨b, logged, rfl⟩
    obtain ⟨i, below, rfl⟩ := LogHeader.mem_logged.mp logged
    have inside : i < 3 := below
    refine ⟨⟨i, Nat.lt_trans inside (by decide)⟩, ?_⟩
    simp [threeBlockStore, threeBlockLog, inside]
  empty := by decide
  fresh := rfl

/-- The commit is cut short with one of the three blocks home, the first recovery
when it has copied that one again. -/
def threeBlockCrash : Store := ((commit 1).states threeBlockStore).getD 70 threeBlockStore

def threeBlockRecrash : Store :=
  ((recoverFromLog 2).states (boot threeBlockLog threeBlockCrash.disk)).getD 25 threeBlockStore

theorem mem_of_getD {Value : Type} {values : List Value} {i : Nat} (default : Value)
    (inside : i < values.length) : values.getD i default ∈ values := by
  simp [List.getD, inside]

theorem commit_crashAtomic_once :
    ∃ final, (recoverFromLog 2).run (boot threeBlockLog threeBlockRecrash.disk) = .done () final ∧
      ∀ b ∈ [100, 101, 102], final.disk b = fun _ => UInt8.ofNat b := by
  have ends : ((recoverFromLog 2).run
      (boot threeBlockLog threeBlockRecrash.disk)).state?.isSome = true := by decide +kernel
  rcases Outcome.exists_done ends with ⟨final, recovered⟩
  have crashed : threeBlockCrash ∈ (commit 1).states threeBlockStore :=
    mem_of_getD _ (by decide +kernel)
  have recrashed : threeBlockRecrash ∈
      (recoverFromLog 2).states (boot threeBlockLog threeBlockCrash.disk) :=
    mem_of_getD _ (by decide +kernel)
  have written : threeBlockCrash.written = [100, 2, 5, 4, 3] := by decide +kernel
  have atomic := commit_crashAtomic threeBlockStore_ready crashed (.again recrashed .none) recovered
  refine ⟨final, recovered, ?_⟩
  intro b member
  have logged : b ∈ threeBlockLog.lh.logged := member
  have home : ¬threeBlockLog.Owns b := threeBlockStore_ready.home b logged
  rw [atomic.2 b home, written]
  exact if_pos ⟨logged, by decide⟩

end Xv6.Fs
