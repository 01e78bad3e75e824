import Mathlib.Data.Finset.Card
import Xv6.Fs.OperationSteps

/-!
# Group commit

The invariant of the log under any interleaving: who commits commits alone,
with no operation under way, and what the group has logged stays dirty in the
cache until then.
-/

namespace Xv6.Fs

open Xv6.Library

variable {p q : Pid} {b : BufPtr} {store : Store} {group : List Nat} {system next : System}

/-- `log.outstanding` counts the processes in an operation. -/
def Counted (system : System) : Prop :=
  ∃ active : Finset Pid, (∀ p, p ∈ active ↔ (system.pc p).InOp) ∧
    system.store.log.outstanding = active.card

/-- The log between commits. -/
structure Quiet (store : Store) (group : List Nat) : Prop where
  cache : CacheOk none store
  dirty : ∀ b ∈ store.log.lh.logged, ∃ a, (store.buf a).dirty = true ∧
    (store.buf a).blockno = b
  home : ∀ b ∈ store.log.lh.logged, ¬store.log.Owns b
  distinct : store.log.lh.logged.Nodup
  empty : (headerOf (store.disk store.log.start)).n = 0
  group : ∀ b, b ∈ group ↔ b ∈ store.log.lh.logged

/-- A commit under way: whatever the others do, it will keep its phase and end
with the contents `new` at home. -/
def Underway (p : Pid) (log : Log) (new disk : Nat → Block) (written : List Nat)
    (rest : Program Store Unit) (store : Store) : Prop :=
  (journal p (CommitPhase log new disk written)).Safe
    (fun _ => Committed p log new disk written) rest store

structure LogInvariant (system : System) : Prop where
  device : system.store.log.dev = rootDev
  size : logSize ≤ system.store.log.size
  counted : Counted system
  flag : system.store.log.committing = true → ∃ p, (system.pc p).Commits
  exclusive : ∀ p, (system.pc p).Commits → system.store.log.committing = true ∧
    (∀ q, ¬(system.pc q).InOp) ∧ ∀ q, (system.pc q).Commits → q = p
  logging : ∀ p b, system.pc p = .sized b ∨ system.pc p = .checked b → Logging p b system.store
  quiet : system.store.log.committing = false → Quiet system.store system.group
  underway : ∀ p rest, system.pc p = .committing rest → ∃ log new disk written,
    Underway p log new disk written rest system.store

/-! ## Counting -/

theorem Counted.congr (counted : Counted system)
    (same : ∀ q, (next.pc q).InOp ↔ (system.pc q).InOp)
    (outstanding : next.store.log.outstanding = system.store.log.outstanding) : Counted next := by
  rcases counted with ⟨active, members, count⟩
  exact ⟨active, fun q => (members q).trans (same q).symm, outstanding.trans count⟩

theorem Counted.enter (counted : Counted system) (before : ¬(system.pc p).InOp)
    (after : (next.pc p).InOp) (same : ∀ q, q ≠ p → ((next.pc q).InOp ↔ (system.pc q).InOp))
    (outstanding : next.store.log.outstanding = system.store.log.outstanding + 1) :
    Counted next := by
  rcases counted with ⟨active, members, count⟩
  have absent : p ∉ active := fun member => before ((members p).mp member)
  refine ⟨insert p active, ?_, ?_⟩
  · intro q
    by_cases here : q = p
    · subst here
      simp [after]
    · simp [here, members, same q here]
  · rw [Finset.card_insert_of_notMem absent, outstanding, count]
    simp

theorem Counted.leave (counted : Counted system) (before : (system.pc p).InOp)
    (after : ¬(next.pc p).InOp) (same : ∀ q, q ≠ p → ((next.pc q).InOp ↔ (system.pc q).InOp))
    (outstanding : next.store.log.outstanding = system.store.log.outstanding - 1) :
    Counted next := by
  rcases counted with ⟨active, members, count⟩
  have present : p ∈ active := (members p).mpr before
  have positive : 0 < active.card := Finset.card_pos.mpr ⟨p, present⟩
  refine ⟨active.erase p, ?_, ?_⟩
  · intro q
    by_cases here : q = p
    · subst here
      simp [after]
    · simp [here, members, same q here]
  · rw [Finset.card_erase_of_mem present, outstanding, count]
    omega

theorem Counted.positive (counted : Counted system) (inside : (system.pc p).InOp) :
    1 ≤ system.store.log.outstanding := by
  rcases counted with ⟨active, members, count⟩
  have positive : 0 < active.card := Finset.card_pos.mpr ⟨p, (members p).mpr inside⟩
  omega

/-- The last operation under way is the only one. -/
theorem Counted.alone (counted : Counted system) (last : system.store.log.outstanding = 1)
    (inside : (system.pc p).InOp) (q : Pid) (also : (system.pc q).InOp) : q = p := by
  rcases counted with ⟨active, members, count⟩
  have one : active.card ≤ 1 := by omega
  exact Finset.card_le_one.mp one q ((members q).mpr also) p ((members p).mpr inside)

theorem Counted.none (counted : Counted system) (idle : ∀ q, ¬(system.pc q).InOp) :
    system.store.log.outstanding = 0 := by
  rcases counted with ⟨active, members, count⟩
  have empty : active = ∅ := by
    apply Finset.eq_empty_of_forall_notMem
    exact fun q member => idle q ((members q).mp member)
  simp [count, empty]

/-! ## Starting a commit -/

/-- The content of a block in the cache. -/
def Store.cached (store : Store) (blockno : Nat) : Block :=
  match store.mru.order.find? fun b =>
      (store.buf b).dev == rootDev && (store.buf b).blockno == blockno with
  | some b => (store.buf b).data
  | none => fun _ => 0

theorem CacheOk.cached (ok : CacheOk none store) (dev : (store.buf b).dev = rootDev) :
    store.cached (store.buf b).blockno = (store.buf b).data := by
  unfold Store.cached
  split
  · rename_i a found
    have matching := List.find?_some found
    simp only [Bool.and_eq_true, beq_iff_eq] at matching
    rw [ok.unique a b matching.1 dev matching.2]
  · rename_i missing
    have absent := List.find?_eq_none.mp missing b (store.mru.complete b)
    simp [dev] at absent

theorem Quiet.pinned (quiet : Quiet store group) :
    ∀ pin ∈ store.log.lh.pins store.cached, Pinned pin store := by
  intro pin member
  rcases List.mem_map.mp member with ⟨b, logged, rfl⟩
  rcases quiet.dirty b logged with ⟨a, dirty, rfl⟩
  exact ⟨a, dirty, rfl, (quiet.cache.cached (quiet.cache.dirty a dirty).2).symm⟩

theorem LogHeader.length_logged (lh : LogHeader) : lh.logged.length = lh.n := by
  simp [logged]

/-- The header counts the distinct blocks of the group. -/
theorem Quiet.count (quiet : Quiet store group) :
    group.toFinset.card = store.log.lh.n := by
  have same : group.toFinset = store.log.lh.logged.toFinset := by
    ext block
    simp [quiet.group block]
  rw [same, List.toFinset_card_of_nodup quiet.distinct, LogHeader.length_logged]

/-- With as many blocks logged as there are buffers, every buffer is dirty. -/
theorem Quiet.full (quiet : Quiet store group) (full : nbuf ≤ store.log.lh.n) (b : BufPtr) :
    (store.buf b).dirty = true ∧
      (store.buf b).blockno ∈ store.log.lh.logged := by
  have : Nonempty BufPtr := ⟨⟨0, by decide⟩⟩
  choose! place dirty number using quiet.dirty
  have injective : Set.InjOn place (store.log.lh.logged.toFinset : Set Nat) := by
    intro first member second other same
    simp only [List.coe_toFinset, Set.mem_ofPred_eq] at member other
    rw [← number first member, ← number second other, same]
  have count : (store.log.lh.logged.toFinset.image place).card =
      store.log.lh.n := by
    rw [Finset.card_image_of_injOn injective, List.toFinset_card_of_nodup quiet.distinct,
      LogHeader.length_logged]
  have everything : store.log.lh.logged.toFinset.image place = Finset.univ := by
    apply Finset.eq_univ_of_card
    have atMost := Finset.card_le_univ (store.log.lh.logged.toFinset.image place)
    rw [Fintype.card_fin] at atMost ⊢
    omega
  have member : b ∈ store.log.lh.logged.toFinset.image place := by
    rw [everything]
    exact Finset.mem_univ b
  rcases Finset.mem_image.mp member with ⟨block, logged, rfl⟩
  have present := List.mem_toFinset.mp logged
  rw [number block present]
  exact ⟨dirty block present, present⟩

/-- A commit that finds every buffer dirty stops at its first `bread`. -/
theorem commit_full {log : Log} {disk : Nat → Block} {written : List Nat}
    {phase : Log → List Nat → (Nat → Block) → Prop} {post : Unit → Store → Prop}
    (now : phase log written disk) (many : logSize ≤ log.lh.n) (size : logSize ≤ log.size)
    (here : At p none [] [] log disk written store)
    (full : ∀ b, (store.buf b).dirty = true ∧ ¬log.Owns (store.buf b).blockno) :
    (journal p phase).Safe post (commit p) store := by
  let Full : Store → Prop := fun store => At p none [] [] log disk written store ∧
    ∀ b, (store.buf b).dirty = true ∧ ¬log.Owns (store.buf b).blockno
  have stable : (journal p phase).Stable Full := by
    constructor
    · rintro state later ⟨here, full⟩ others
      refine ⟨here.later others, fun b => ?_⟩
      rcases Buf.core_eq (others.dirty b (full b).1) with ⟨-, dirty, -, blockno, -⟩
      rw [dirty, blockno]
      exact full b
    · rintro state ⟨here, -⟩
      exact (At.stable now).allowed here
  have first : log.Owns (log.start + 0 + 1) := by
    have room : 30 ≤ log.size := size
    exact Or.inr ⟨by omega, by omega⟩
  have large : 30 ≤ log.lh.n := many
  have bound : ∀ state, Full state → state.log.lh.n = log.lh.n :=
    fun state here => by rw [here.1.log]
  have never : (journal p phase).Triple Full (Program.atom (bgetScan p log.dev (log.start + 0 + 1)))
      fun _ _ => False := by
    apply Setting.Triple.atom stable
    · exact fun _ => ⟨fun impossible => impossible.elim, fun impossible => impossible.elim⟩
    · rintro state b next ⟨here, full⟩ done
      rcases bgetScan_cases done with ⟨-, same, -⟩ | ⟨-, -, clean, -⟩
      · exact (full b).2 (same ▸ first)
      · rw [(full b).1] at clean
        cases clean
  have logging : (journal p phase).Triple Full (writeLog p) fun _ _ => False := by
    unfold writeLog forTail
    rw [show logSize = 29 + 1 from rfl]
    refine Setting.Triple.bind_get stable true (fun state here => ?_) ?_
    · have same := bound state here
      exact decide_eq_true (show 0 < state.log.lh.n by omega)
    rw [if_pos rfl]
    refine Setting.Triple.never ?_ _ _
    refine Setting.Triple.bind_get stable log (fun _ here => here.1.log) ?_
    exact Setting.Triple.never (Setting.Triple.never (Setting.Triple.never never _ _) _ _) _ _
  refine Setting.Triple.bind_get stable true (fun state here => ?_) ?_ store ⟨here, full⟩
  · rw [bound state here]
    exact decide_eq_true (by omega)
  rw [if_pos rfl]
  exact Setting.Triple.never logging _ _

/-- A commit starts from what the group has left in the cache. -/
theorem Quiet.underway (quiet : Quiet store group) (device : store.log.dev = rootDev)
    (size : logSize ≤ store.log.size) (outstanding : Int) (committing : Bool) :
    Underway p { store.log with outstanding := outstanding, committing := committing }
      store.cached store.disk store.written (commit p)
      { store with log :=
        { store.log with outstanding := outstanding, committing := committing } } := by
  have pinned := quiet.pinned
  have here : At p none [] (store.log.lh.pins store.cached)
      { store.log with outstanding := outstanding, committing := committing }
      store.disk store.written
      { store with log :=
        { store.log with outstanding := outstanding, committing := committing } } :=
    ⟨quiet.cache.of_buf rfl rfl rfl, by simp, rfl, rfl, rfl, List.forall_mem_nil _, pinned⟩
  by_cases room : store.log.lh.n < logSize
  · have transaction : Transaction
        { store.log with outstanding := outstanding, committing := committing } := by
      refine ⟨device, Nat.le_of_lt room, Or.inr (Nat.lt_of_lt_of_le room size), quiet.home, ?_⟩
      intro b logged
      rcases quiet.dirty b logged with ⟨a, dirty, rfl⟩
      exact Nat.lt_trans (quiet.cache.range a (quiet.cache.dirty a dirty).1) (by decide)
    exact commit_triple transaction _ quiet.empty _ here
  · have full := quiet.full (Nat.le_of_not_lt room)
    have start : CommitPhase
        { store.log with outstanding := outstanding, committing := committing }
        store.cached store.disk store.written
        { store.log with outstanding := outstanding, committing := committing }
        store.written store.disk :=
      ⟨rfl, [], rfl, Represents.of_empty quiet.empty fun _ _ => rfl⟩
    exact commit_full start (Nat.le_of_not_lt room) size
      (here.mono (List.Subset.refl _) (List.nil_subset _))
      fun b => ⟨(full b).1, quiet.home _ (full b).2⟩

/-! ## Every step keeps the invariant -/

theorem System.setPc_pc (system : System) (p : Pid) (pc : Pc) (q : Pid) :
    (system.setPc p pc).pc q = if q = p then pc else system.pc q := by
  simp [setPc, Function.update_apply]

theorem wake_inOp (pc : Pc) : (wake pc).InOp ↔ pc.InOp := by
  cases pc <;> exact Iff.rfl

theorem wake_commits (pc : Pc) : (wake pc).Commits ↔ pc.Commits := by
  cases pc <;> exact Iff.rfl

theorem wake_eq {pc other : Pc} (same : wake pc = other) (asleep : other ≠ .waiting) :
    pc = other := by
  cases pc with
  | sleeping => exact absurd same.symm asleep
  | outside => exact same
  | waiting => exact same
  | inside => exact same
  | sized b => exact same
  | checked b => exact same
  | committing rest => exact same

theorem Pc.commits_iff {pc : Pc} : pc.Commits ↔ ∃ rest, pc = .committing rest := by
  cases pc <;> simp [Pc.Commits]

theorem LogInvariant.not_committing (invariant : LogInvariant system) (inside : (system.pc p).InOp) :
    system.store.log.committing = false := by
  cases busy : system.store.log.committing with
  | false => rfl
  | true =>
      rcases invariant.flag busy with ⟨q, commits⟩
      exact absurd inside ((invariant.exclusive q commits).2.1 p)

/-- A process moves on without touching the store or starting an operation. -/
theorem LogInvariant.setPc (invariant : LogInvariant system) (pc : Pc)
    (old : ¬(system.pc p).Commits) (new : ¬pc.Commits) (same : pc.InOp ↔ (system.pc p).InOp)
    (logging : ∀ b, pc = .sized b ∨ pc = .checked b → Logging p b system.store) :
    LogInvariant (system.setPc p pc) := by
  have inOp : ∀ q, ((system.setPc p pc).pc q).InOp ↔ (system.pc q).InOp := by
    intro q
    rw [System.setPc_pc]
    split
    · rename_i here
      rw [here]
      exact same
    · exact Iff.rfl
  have commits : ∀ q, ((system.setPc p pc).pc q).Commits ↔ (system.pc q).Commits := by
    intro q
    rw [System.setPc_pc]
    split
    · rename_i here
      rw [here]
      exact iff_of_false new old
    · exact Iff.rfl
  constructor
  · exact invariant.device
  · exact invariant.size
  · exact invariant.counted.congr inOp rfl
  · intro busy
    rcases invariant.flag busy with ⟨q, is⟩
    exact ⟨q, (commits q).mpr is⟩
  · intro q is
    rcases invariant.exclusive q ((commits q).mp is) with ⟨busy, idle, only⟩
    exact ⟨busy, fun r inside => idle r ((inOp r).mp inside),
      fun r also => only r ((commits r).mp also)⟩
  · intro q b place
    rw [System.setPc_pc] at place
    split at place
    · rename_i here
      rw [here]
      exact logging b place
    · exact invariant.logging q b place
  · exact invariant.quiet
  · intro q rest place
    rw [System.setPc_pc] at place
    split at place
    · rename_i here
      rw [place] at new
      exact absurd trivial new
    · exact invariant.underway q rest place

theorem LogInvariant.idle (invariant : LogInvariant system)
    (free : system.store.log.committing = false) (q : Pid) : ¬(system.pc q).Commits := by
  intro commits
  have busy := (invariant.exclusive q commits).1
  simp [free] at busy

/-- The invariant of a state in which nobody commits. -/
theorem LogInvariant.of_idle (device : next.store.log.dev = rootDev)
    (size : logSize ≤ next.store.log.size) (counted : Counted next)
    (free : next.store.log.committing = false) (idle : ∀ q, ¬(next.pc q).Commits)
    (logging : ∀ p b, next.pc p = .sized b ∨ next.pc p = .checked b → Logging p b next.store)
    (quiet : Quiet next.store next.group) : LogInvariant next where
  device := device
  size := size
  counted := counted
  flag busy := by simp [free] at busy
  exclusive p commits := absurd commits (idle p)
  logging := logging
  quiet _ := quiet
  underway p rest place := absurd (Pc.commits_iff.mpr ⟨rest, place⟩) (idle p)

theorem Logging.setLog (logging : Logging p b store) {log : Log}
    (owns : log.Owns = store.log.Owns) : Logging p b { store with log := log } :=
  ⟨logging.lock, logging.valid, logging.dev, by simpa only [owns] using logging.home⟩

theorem Quiet.setLog (quiet : Quiet store group) (outstanding : Int) (committing : Bool) :
    Quiet { store with log :=
      { store.log with outstanding := outstanding, committing := committing } } group :=
  ⟨quiet.cache.of_buf rfl rfl rfl, quiet.dirty, quiet.home, quiet.distinct, quiet.empty,
    quiet.group⟩

theorem LogInvariant.beginOp (invariant : LogInvariant system)
    (done : beginOp p system = .done () next) : LogInvariant next := by
  rcases beginOp_cases done with ⟨place, rfl | ⟨free, -, rfl⟩⟩
  · apply invariant.setPc
    · rcases place with place | place <;> simp [place, Pc.Commits]
    · exact id
    · rcases place with place | place <;> simp [place, Pc.InOp]
    · simp
  · have idle := invariant.idle free
    have before : ¬(system.pc p).InOp := by
      rcases place with place | place <;> simp [place, Pc.InOp]
    apply LogInvariant.of_idle
    · exact invariant.device
    · exact invariant.size
    · refine invariant.counted.enter before ?_ ?_ rfl
      · simp [System.setPc, Pc.InOp]
      · intro q different
        simp [System.setPc, System.setLog, different]
    · exact free
    · intro q
      simp only [System.setPc, System.setLog, Function.update_apply]
      split
      · exact id
      · exact idle q
    · intro q b at'
      simp only [System.setPc, System.setLog, Function.update_apply] at at'
      split at at'
      · simp at at'
      · exact (invariant.logging q b at').setLog rfl
    · exact (invariant.quiet free).setLog _ _

theorem LogInvariant.endOp (invariant : LogInvariant system)
    (done : endOp p system = .done () next) : LogInvariant next := by
  rcases endOp_cases done with ⟨place, free, ⟨last, rfl⟩ | ⟨more, rfl⟩⟩
  · have inside : (system.pc p).InOp := by simp [place, Pc.InOp]
    have alone := invariant.counted.alone last inside
    have idle := invariant.idle free
    have inOp : ∀ q, ¬(((system.setLog { system.store.log with
        outstanding := 0, committing := true }).setPc p (.committing (commit p))).pc q).InOp := by
      intro q
      rw [System.setPc_pc]
      split
      · exact id
      · rename_i different
        exact fun also => different (alone q also)
    have commits : ∀ q, (((system.setLog { system.store.log with
        outstanding := 0, committing := true }).setPc p (.committing (commit p))).pc q).Commits →
        q = p := by
      intro q
      rw [System.setPc_pc]
      split
      · rename_i here
        exact fun _ => here
      · exact fun also => absurd also (idle q)
    constructor
    · exact invariant.device
    · exact invariant.size
    · exact ⟨∅, fun q => by simpa using inOp q, rfl⟩
    · exact fun _ => ⟨p, by simp [System.setPc, Pc.Commits]⟩
    · intro q also
      rw [commits q also]
      exact ⟨rfl, inOp, commits⟩
    · intro q b at'
      rw [System.setPc_pc] at at'
      split at at'
      · simp at at'
      · exact (invariant.logging q b at').setLog rfl
    · intro free
      simp [System.setPc, System.setLog] at free
    · intro q rest at'
      rw [System.setPc_pc] at at'
      split at at'
      · rename_i here
        simp only [Pc.committing.injEq] at at'
        subst at' here
        exact ⟨_, _, _, _, (invariant.quiet free).underway invariant.device invariant.size 0 true⟩
      · exact absurd (Pc.commits_iff.mpr ⟨rest, at'⟩) (idle q)
  · have idle := invariant.idle free
    have inside : (system.pc p).InOp := by simp [place, Pc.InOp]
    apply LogInvariant.of_idle
    · exact invariant.device
    · exact invariant.size
    · refine invariant.counted.leave inside ?_ ?_ rfl
      · simp [System.setPc, Pc.InOp]
      · intro q different
        simp [System.setPc, System.wakeup, System.setLog, different, wake_inOp]
    · exact free
    · intro q
      simp only [System.setPc, System.wakeup, System.setLog, Function.update_apply]
      split
      · exact id
      · rw [wake_commits]
        exact idle q
    · intro q b at'
      simp only [System.setPc, System.wakeup, System.setLog, Function.update_apply] at at'
      split at at'
      · simp at at'
      · have before : system.pc q = .sized b ∨ system.pc q = .checked b := by
          rcases at' with at' | at'
          · exact Or.inl (wake_eq at' (by simp))
          · exact Or.inr (wake_eq at' (by simp))
        exact (invariant.logging q b before).setLog rfl
    · exact (invariant.quiet free).setLog _ _

theorem Underway.log_eq {log : Log} {new disk : Nat → Block} {written : List Nat}
    {rest : Program Store Unit} (underway : Underway p log new disk written rest store) :
    store.log = { log with lh := store.log.lh } :=
  underway.now.2.1

theorem LogInvariant.endOpReturn (invariant : LogInvariant system)
    (done : endOpReturn p system = .done () next) : LogInvariant next := by
  rcases endOpReturn_cases done with ⟨value, place, rfl⟩
  rcases invariant.underway p _ place with ⟨log, new, disk, written, underway⟩
  rcases underway.ret with ⟨⟨lh, last, more, count, here, empty, -⟩, -⟩
  have exclusive := invariant.exclusive p (Pc.commits_iff.mpr ⟨_, place⟩)
  have inOp : ∀ q, ¬(wake (system.pc q)).InOp := fun q => by
    rw [wake_inOp]
    exact exclusive.2.1 q
  have header := here.log
  apply LogInvariant.of_idle
  · exact invariant.device
  · exact invariant.size
  · refine invariant.counted.congr ?_ rfl
    intro q
    simp only [System.setPc, System.wakeup, System.setLog, Function.update_apply]
    split
    · exact iff_of_false id (exclusive.2.1 q)
    · exact wake_inOp _
  · rfl
  · intro q
    simp only [System.setPc, System.wakeup, System.setLog, Function.update_apply]
    split
    · exact id
    · rename_i different
      rw [wake_commits]
      exact fun also => different (exclusive.2.2 q also)
  · intro q b at'
    simp only [System.setPc, System.wakeup, System.setLog, Function.update_apply] at at'
    split at at'
    · simp at at'
    · have outside := inOp q
      rcases at' with at' | at' <;> simp [at', Pc.InOp] at outside
  · have none : system.store.log.lh.logged = [] := by
      rw [header]
      simp [LogHeader.logged, count]
    have erased : (headerOf (system.store.disk system.store.log.start)).n = 0 := by
      rw [header, here.disk]
      exact empty
    have start : Quiet system.store [] := by
      refine ⟨here.cache, ?_, ?_, ?_, erased, ?_⟩ <;> simp [none]
    exact start.setLog _ _

theorem LogInvariant.commitStep (invariant : LogInvariant system)
    (done : commitStep p system = .done () next) : LogInvariant next := by
  rcases commitStep_cases done with ⟨rest, remaining, store, place, stepped, rfl⟩
  rcases invariant.underway p _ place with ⟨log, new, disk, written, underway⟩
  have after : Underway p log new disk written remaining store := underway.step stepped
  have same : store.log = { system.store.log with lh := store.log.lh } := by
    rw [after.log_eq, underway.log_eq]
  have exclusive := invariant.exclusive p (Pc.commits_iff.mpr ⟨_, place⟩)
  have inOp : ∀ q, ¬(({ system with store := store }.setPc p (.committing remaining)).pc q).InOp := by
    intro q
    rw [System.setPc_pc]
    split
    · exact id
    · exact exclusive.2.1 q
  have only : ∀ q, (({ system with store := store }.setPc p (.committing remaining)).pc q).Commits →
      q = p := by
    intro q
    rw [System.setPc_pc]
    split
    · rename_i here
      exact fun _ => here
    · exact exclusive.2.2 q
  constructor
  · simp only [System.setPc]
    rw [same]
    exact invariant.device
  · simp only [System.setPc]
    rw [same]
    exact invariant.size
  · refine invariant.counted.congr ?_ ?_
    · intro q
      exact iff_of_false (inOp q) (exclusive.2.1 q)
    · simp only [System.setPc]
      rw [same]
  · exact fun _ => ⟨p, by simp [System.setPc, Pc.Commits]⟩
  · intro q also
    rw [only q also]
    refine ⟨?_, inOp, only⟩
    simp only [System.setPc]
    rw [same]
    exact exclusive.1
  · intro q b at'
    have outside := inOp q
    rcases at' with at' | at' <;> simp [at', Pc.InOp] at outside
  · intro free
    simp only [System.setPc] at free
    rw [same] at free
    simp [exclusive.1] at free
  · intro q later at'
    rw [System.setPc_pc] at at'
    split at at'
    · rename_i here
      simp only [Pc.committing.injEq] at at'
      subst at' here
      exact ⟨log, new, disk, written, after⟩
    · exact absurd (exclusive.2.2 q (Pc.commits_iff.mpr ⟨later, at'⟩)) (by assumption)

theorem LogInvariant.logWrite (invariant : LogInvariant system)
    (done : logWrite p b system = .done () next) : LogInvariant next := by
  rcases logWrite_cases done with ⟨place, logging, rfl⟩
  apply invariant.setPc
  · simp [place, Pc.Commits]
  · exact id
  · simp [place, Pc.InOp]
  · intro other same
    simp only [Pc.sized.injEq, reduceCtorEq, or_false] at same
    exact same ▸ logging

theorem LogInvariant.logWriteCheck (invariant : LogInvariant system)
    (done : logWriteCheck p system = .done () next) : LogInvariant next := by
  rcases logWriteCheck_cases done with ⟨b, place, rfl⟩
  apply invariant.setPc
  · simp [place, Pc.Commits]
  · exact id
  · simp [place, Pc.InOp]
  · intro other same
    simp only [Pc.checked.injEq, reduceCtorEq, false_or] at same
    exact same ▸ invariant.logging p b (Or.inl place)

/-- Logging a block pins it, and records it once. -/
theorem Quiet.append (quiet : Quiet store group) (logging : Logging p b store) :
    Quiet { store.setBuf b { store.buf b with dirty := true } with
        log := { store.log with lh := store.log.lh.append (store.buf b).blockno } }
      ((store.buf b).blockno :: group) := by
  have members : ∀ block, block ∈ (store.log.lh.append (store.buf b).blockno).logged ↔
      block = (store.buf b).blockno ∨ block ∈ store.log.lh.logged := by
    intro block
    rw [LogHeader.logged_append]
    split
    · rename_i present
      constructor
      · exact Or.inr
      · rintro (rfl | member)
        · exact present
        · exact member
    · simp [or_comm]
  have cache : CacheOk none (store.setBuf b { store.buf b with dirty := true }) := by
    apply quiet.cache.setBuf
    · exact fun device => quiet.cache.other_block device
    · exact quiet.cache.holder b
    · exact fun _ => ⟨logging.valid, logging.dev⟩
    · exact quiet.cache.range b
    · exact quiet.cache.coherent b
  constructor
  · exact cache.of_buf rfl rfl rfl
  · intro block member
    rcases (members block).mp member with rfl | old
    · exact ⟨b, by simp, by simp⟩
    · rcases quiet.dirty block old with ⟨a, dirty, number⟩
      refine ⟨a, ?_⟩
      by_cases same : a = b
      · subst same
        simpa using number
      · simp only [Store.setBuf_of_ne _ _ same]
        exact ⟨dirty, number⟩
  · intro block member
    rcases (members block).mp member with rfl | old
    · exact logging.home
    · exact quiet.home block old
  · simp only [LogHeader.logged_append]
    split
    · exact quiet.distinct
    · rename_i absent
      exact List.nodup_append.mpr ⟨quiet.distinct, List.nodup_singleton _, by
        intro old member fresh single same
        rw [List.mem_singleton.mp single] at same
        exact absent (same ▸ member)⟩
  · exact quiet.empty
  · intro block
    simp only [members, List.mem_cons, quiet.group]

theorem LogInvariant.logWriteAppend (invariant : LogInvariant system)
    (done : logWriteAppend p system = .done () next) : LogInvariant next := by
  rcases logWriteAppend_cases done with ⟨b, place, rfl⟩
  have inside : (system.pc p).InOp := by simp [place, Pc.InOp]
  have free := invariant.not_committing inside
  have idle := invariant.idle free
  have logging := invariant.logging p b (Or.inr place)
  apply LogInvariant.of_idle
  · exact invariant.device
  · exact invariant.size
  · refine invariant.counted.congr ?_ rfl
    intro q
    simp only [System.setPc, Function.update_apply]
    split
    · rename_i here
      exact iff_of_true trivial (here ▸ inside)
    · exact Iff.rfl
  · exact free
  · intro q
    simp only [System.setPc, Function.update_apply]
    split
    · exact id
    · exact idle q
  · intro q a at'
    simp only [System.setPc, Function.update_apply] at at'
    split at at'
    · simp at at'
    · rename_i different
      have other := invariant.logging q a at'
      have apart : a ≠ b := by
        rintro rfl
        have holders := logging.lock.symm.trans other.lock
        exact different (Option.some.inj holders).symm
      constructor <;> simp only [Store.setBuf_of_ne _ _ apart]
      · exact other.lock
      · exact other.valid
      · exact other.dev
      · exact other.home
  · exact (invariant.quiet free).append logging

theorem LogInvariant.buffer {use : Use} (invariant : LogInvariant system)
    (done : bufferStep p use system = .done () next) : LogInvariant next := by
  rcases bufferStep_cases done with ⟨place, inOp, store, operation, ran, rfl⟩
  cases free : system.store.log.committing with
  | false =>
      have quiet := invariant.quiet free
      have used := Used.of_useBuffer quiet.cache ran
      apply LogInvariant.of_idle
      · simp only [used.log]
        exact invariant.device
      · simp only [used.log]
        exact invariant.size
      · exact invariant.counted.congr (fun q => Iff.rfl) (congrArg Log.outstanding used.log)
      · simp only [used.log]
        exact free
      · exact invariant.idle free
      · intro q a at'
        have different : q ≠ p := by
          rintro rfl
          rcases place with place | place <;> simp [place] at at'
        have before := invariant.logging q a at'
        rcases used.held q different a before.lock with ⟨lock, same⟩
        rcases Buf.core_eq same with ⟨valid, -, dev, number, -⟩
        refine ⟨lock, valid.trans before.valid, dev.trans before.dev, ?_⟩
        rw [used.log, number]
        exact before.home
      · refine ⟨used.cache quiet.cache, ?_, ?_, ?_, ?_, ?_⟩ <;> simp only [used.log, used.disk]
        · intro block member
          rcases quiet.dirty block member with ⟨a, dirty, number⟩
          rcases used.dirty a dirty with ⟨dirty', number'⟩
          exact ⟨a, dirty', number'.trans number⟩
        · exact quiet.home
        · exact quiet.distinct
        · exact quiet.empty
        · exact quiet.group
  | true =>
      rcases invariant.flag free with ⟨q, commits⟩
      rcases invariant.exclusive q commits with ⟨busy, idle, only⟩
      rcases Pc.commits_iff.mp commits with ⟨rest, at'⟩
      rcases invariant.underway q rest at' with ⟨log, new, disk, written, underway⟩
      rcases underway.now.1 with ⟨filling, cache, -⟩
      have different : p ≠ q := by
        rintro rfl
        rcases place with place | place <;> simp [place] at at'
      have reads : ∀ a data, use = .modify a data → inOp = false := by
        intro a data _
        cases inOp with
        | false => rfl
        | true => exact absurd (by simp [operation rfl, Pc.InOp]) (idle p)
      have others : Others q system.store store :=
        Others.of_useBuffer different cache ran reads
      constructor
      · simp only [others.log]
        exact invariant.device
      · simp only [others.log]
        exact invariant.size
      · exact invariant.counted.congr (fun q => Iff.rfl) (congrArg Log.outstanding others.log)
      · exact fun _ => ⟨q, commits⟩
      · intro r also
        rw [only r also]
        exact ⟨by simp only [others.log]; exact busy, idle, only⟩
      · intro r a inside
        have outside := idle r
        simp only at inside
        rcases inside with inside | inside <;> rw [inside] at outside <;>
          exact absurd trivial outside
      · intro quiet
        simp only [others.log] at quiet
        simp [busy] at quiet
      · intro r later inside
        have same := only r (Pc.commits_iff.mpr ⟨later, inside⟩)
        subst same
        rcases invariant.underway r later inside with ⟨log, new, disk, written, underway⟩
        exact ⟨log, new, disk, written, Setting.Safe.later underway others⟩

theorem LogInvariant.step {event : Event} (invariant : LogInvariant system)
    (done : system.step event = .done () next) : LogInvariant next := by
  cases event with
  | beginOp p => exact invariant.beginOp done
  | logWrite p b => exact invariant.logWrite done
  | logWriteCheck p => exact invariant.logWriteCheck done
  | logWriteAppend p => exact invariant.logWriteAppend done
  | endOp p => exact invariant.endOp done
  | commitStep p => exact invariant.commitStep done
  | endOpReturn p => exact invariant.endOpReturn done
  | buffer p use => exact invariant.buffer done

theorem System.next_eq {event : Event} (stepped : system.next event = some next) :
    system.step event = .done () next := by
  unfold System.next at stepped
  cases outcome : system.step event with
  | blocked => simp [outcome, Outcome.state?] at stepped
  | panic message => simp [outcome, Outcome.state?] at stepped
  | done value reached =>
      simp only [outcome, Outcome.state?, Option.some.injEq] at stepped
      rw [stepped]

theorem Started.invariant (started : Started system) : LogInvariant system := by
  have logged : system.store.log.lh.logged = [] := by simp [LogHeader.logged, started.count]
  apply LogInvariant.of_idle
  · exact started.device
  · exact started.size
  · exact ⟨∅, fun p => by simp [started.outside p, Pc.InOp], started.outstanding⟩
  · exact started.committing
  · intro p
    simp [started.outside p, Pc.Commits]
  · intro p b place
    simp [started.outside p] at place
  · refine ⟨started.cache, ?_, ?_, ?_, started.empty, ?_⟩ <;> simp [logged, started.group]

theorem LogInvariant.run {events : List Event} (invariant : LogInvariant system)
    (ran : runs System.next system events = some next) : LogInvariant next :=
  runs_invariant (fun _ system => LogInvariant system) invariant
    (fun _ _ _ _ before stepped => before.step (System.next_eq stepped)) ran

/-! ## What a commit puts on disk -/

/-- A commit goes on whatever step is taken, until its process returns. -/
theorem LogInvariant.commit_step {log : Log} {new disk : Nat → Block} {written : List Nat}
    {event : Event} (invariant : LogInvariant system) {rest : Program Store Unit}
    (place : system.pc p = .committing rest)
    (underway : Underway p log new disk written rest system.store)
    (done : system.step event = .done () next) (stays : event ≠ .endOpReturn p) :
    ∃ rest, next.pc p = .committing rest ∧ Underway p log new disk written rest next.store := by
  rcases invariant.exclusive p (Pc.commits_iff.mpr ⟨rest, place⟩) with ⟨busy, idle, only⟩
  have nobody : ∀ q, system.pc q ≠ .inside := by
    intro q inside
    have outside := idle q
    rw [inside] at outside
    exact outside trivial
  cases event with
  | beginOp q =>
      rcases beginOp_cases done with ⟨before, rfl | ⟨free, -, rfl⟩⟩
      · have different : p ≠ q := by
          rintro rfl
          rcases before with before | before <;> simp [place] at before
        refine ⟨rest, ?_, underway⟩
        rw [System.setPc_pc, if_neg different]
        exact place
      · simp [busy] at free
  | logWrite q b => exact absurd (logWrite_cases done).1 (nobody q)
  | logWriteCheck q =>
      rcases logWriteCheck_cases done with ⟨b, before, -⟩
      have outside := idle q
      rw [before] at outside
      exact absurd trivial outside
  | logWriteAppend q =>
      rcases logWriteAppend_cases done with ⟨b, before, -⟩
      have outside := idle q
      rw [before] at outside
      exact absurd trivial outside
  | endOp q => exact absurd (endOp_cases done).1 (nobody q)
  | commitStep q =>
      rcases commitStep_cases done with ⟨mine, remaining, store, before, stepped, rfl⟩
      obtain rfl := only q (Pc.commits_iff.mpr ⟨mine, before⟩)
      rw [place, Pc.committing.injEq] at before
      subst before
      exact ⟨remaining, by simp [System.setPc], Setting.Safe.step underway stepped⟩
  | endOpReturn q =>
      rcases endOpReturn_cases done with ⟨value, before, -⟩
      obtain rfl := only q (Pc.commits_iff.mpr ⟨_, before⟩)
      exact absurd rfl stays
  | buffer q use =>
      rcases bufferStep_cases done with ⟨before, inOp, store, operation, ran, rfl⟩
      rcases underway.now.1 with ⟨filling, cache, -⟩
      have different : q ≠ p := by
        rintro rfl
        rcases before with before | before <;> simp [place] at before
      have reads : ∀ a data, use = .modify a data → inOp = false := by
        intro a data _
        cases inOp with
        | false => rfl
        | true => exact absurd (operation rfl) (nobody q)
      exact ⟨rest, place, Setting.Safe.later underway
        (Others.of_useBuffer different cache ran reads)⟩

theorem LogInvariant.commit_run {log : Log} {new disk : Nat → Block} {written : List Nat}
    {events : List Event} (invariant : LogInvariant system) {rest : Program Store Unit}
    (place : system.pc p = .committing rest)
    (underway : Underway p log new disk written rest system.store)
    (ran : runs System.next system events = some next) (stays : Event.endOpReturn p ∉ events) :
    ∃ rest, next.pc p = .committing rest ∧ Underway p log new disk written rest next.store := by
  refine (runs_invariant (fun past current => LogInvariant current ∧
    (Event.endOpReturn p ∉ past → ∃ rest, current.pc p = .committing rest ∧
      Underway p log new disk written rest current.store))
    ⟨invariant, fun _ => ⟨rest, place, underway⟩⟩ ?_ ran).2 stays
  rintro past current event after ⟨kept, going⟩ stepped
  have done := System.next_eq stepped
  refine ⟨kept.step done, ?_⟩
  intro absent
  simp only [List.mem_append, List.mem_singleton, not_or] at absent
  rcases going absent.1 with ⟨rest, place, underway⟩
  exact kept.commit_step place underway done (Ne.symm absent.2)

/-- A process is in `commit`, between the two critical sections of `end_op`. -/
def System.InCommit (system : System) (p : Pid) : Prop := (system.pc p).Commits

/-- The last operation commits. -/
theorem endOp_commits (done : system.step (.endOp p) = .done () next)
    (last : system.store.log.outstanding = 1) : next.InCommit p := by
  rcases endOp_cases done with ⟨-, -, ⟨-, rfl⟩ | ⟨more, -⟩⟩
  · simp [System.InCommit, System.setPc, Pc.Commits]
  · exact absurd last more

/-- Whatever happens between an `end_op` that finds no other operation and its
return, the blocks its group logged are home with their cached contents. -/
def CommitsGroup (system : System) : Prop :=
  ∀ p started during ended returned, system.step (.endOp p) = .done () started →
    started.InCommit p → Event.endOpReturn p ∉ during →
    runs System.next started during = some ended →
    ended.step (.endOpReturn p) = .done () returned →
    ∀ block ∈ system.group, ∃ b, (started.store.buf b).valid = true ∧
      (started.store.buf b).dev = rootDev ∧ (started.store.buf b).blockno = block ∧
      returned.store.disk block = (started.store.buf b).data

/-- Nothing but the committing process has business with the log. -/
structure CommitsAlone (system : System) : Prop where
  single : ∀ p q, system.InCommit p → system.InCommit q → p = q
  noOperation : ∀ p, system.InCommit p → system.store.log.outstanding = 0
  noLogWrite : ∀ p, system.InCommit p → ∀ q b, system.pc q ≠ .sized b ∧ system.pc q ≠ .checked b ∧
    system.step (.logWrite q b) = .blocked
  noPanic : ∀ p, endOp p system ≠ .panic "log.committing" ∧
    logWriteCheck p system ≠ .panic "log_write outside of trans"

theorem LogInvariant.commitsGroup (invariant : LogInvariant system) : CommitsGroup system := by
  intro p started during ended returned begun commits stays ran done block member
  rcases endOp_cases begun with ⟨place, free, ⟨last, rfl⟩ | ⟨-, rfl⟩⟩
  swap
  · simp [System.InCommit, System.setPc, Pc.Commits] at commits
  have quiet := invariant.quiet free
  have underway := quiet.underway (p := p) invariant.device invariant.size 0 true
  rcases (invariant.step begun).commit_run (by simp [System.setPc]) underway ran stays with
    ⟨rest, going, finishing⟩
  rcases endOpReturn_cases done with ⟨value, finished, rfl⟩
  rw [going, Pc.committing.injEq] at finished
  subst finished
  rcases finishing.ret with ⟨⟨lh, disk, more, -, here, -, home⟩, -⟩
  have logged := (quiet.group block).mp member
  rcases quiet.dirty block logged with ⟨b, dirty, rfl⟩
  rcases quiet.cache.dirty b dirty with ⟨valid, dev⟩
  refine ⟨b, valid, dev, rfl, ?_⟩
  have written : ended.store.disk (system.store.buf b).blockno =
      system.store.cached (system.store.buf b).blockno := by
    rw [here.disk, home _ (quiet.home _ logged)]
    exact if_pos logged
  rw [quiet.cache.cached dev] at written
  exact written

theorem LogInvariant.commitsAlone (invariant : LogInvariant system) : CommitsAlone system where
  single p q first second := (invariant.exclusive q second).2.2 p first
  noOperation p commits := invariant.counted.none (invariant.exclusive p commits).2.1
  noLogWrite := by
    intro p commits q b
    have outside := (invariant.exclusive p commits).2.1 q
    cases place : system.pc q with
    | inside =>
        rw [place] at outside
        exact absurd trivial outside
    | sized a =>
        rw [place] at outside
        exact absurd trivial outside
    | checked a =>
        rw [place] at outside
        exact absurd trivial outside
    | outside => simp [System.step, Fs.logWrite, place]
    | waiting => simp [System.step, Fs.logWrite, place]
    | sleeping => simp [System.step, Fs.logWrite, place]
    | committing rest => simp [System.step, Fs.logWrite, place]
  noPanic := by
    intro p
    constructor
    · simp only [Fs.endOp]
      split
      · rename_i place
        have free := invariant.not_committing (p := p) (by simp [place, Pc.InOp])
        rw [if_neg (by simp [free])]
        split <;> simp
      · simp
    · simp only [Fs.logWriteCheck]
      split
      · rename_i b place
        have positive := invariant.counted.positive (p := p) (by simp [place, Pc.InOp])
        rw [if_neg (by omega)]
        simp
      · simp

/-- In every state of every run a commit has the log to itself, and it puts the
blocks of its group home. -/
theorem groupCommit (start : System) (started : Started start) (events : List Event)
    (system : System) (ran : runs System.next start events = some system) :
    CommitsAlone system ∧ CommitsGroup system :=
  have invariant := started.invariant.run ran
  ⟨invariant.commitsAlone, invariant.commitsGroup⟩

/-- Nothing logged, and nobody in an operation. -/
def idleSystem : System where
  store := boot threeBlockLog fun _ _ => 0
  pc := fun _ => .outside
  record := fun _ => []
  group := []

theorem idleSystem_started : Started idleSystem where
  device := rfl
  size := by decide
  cache := cacheOk_boot _ _
  count := rfl
  outstanding := rfl
  committing := rfl
  empty := by decide
  outside _ := rfl
  group := rfl

/-- The `i`-th buffer. -/
def bufferAt (i : Nat) : BufPtr := ⟨i % nbuf, Nat.mod_lt _ zero_lt_nbuf⟩

/-- The operation of `p` changes block `100 + i` and logs it. -/
def logBlock (p : Pid) (i : Nat) : List Event :=
  let b := bufferAt i
  [.buffer p (.scan (100 + i)), .buffer p (.acquire b), .buffer p (.fetch b),
    .buffer p (.modify b fun _ => UInt8.ofNat (7 + i)), .logWrite p b, .logWriteCheck p,
    .logWriteAppend p, .buffer p (.release b), .buffer p (.put b)]

/-- Process 1 changes block 100 and logs it. -/
def oneOperation : List Event := .beginOp 1 :: logBlock 1 0

def loggedOnce : System := (runs System.next idleSystem oneOperation).getD idleSystem

/-- Process 2 begins its operation before that of process 1 ends. -/
def twoOperations : List Event :=
  oneOperation ++ [.beginOp 2] ++ logBlock 2 1 ++ [.endOp 1]

def loggedTwice : System := (runs System.next idleSystem twoOperations).getD idleSystem

def startedTwice : System := (loggedTwice.next (.endOp 2)).getD idleSystem

/-- Process 2 commits, while process 1 waits to begin another operation. -/
def duringCommit : List Event := .beginOp 1 :: List.replicate 79 (.commitStep 2)

def endedTwice : System := (runs System.next startedTwice duringCommit).getD idleSystem

/-- The last operation commits for both, and both blocks are home. -/
theorem groupCommit_once :
    ∃ returned, endedTwice.step (.endOpReturn 2) = .done () returned ∧
      ∀ block ∈ [100, 101], ∃ b, (startedTwice.store.buf b).blockno = block ∧
        returned.store.disk block = (startedTwice.store.buf b).data := by
  have logged : runs System.next idleSystem twoOperations = some loggedTwice :=
    runs_getD (by decide +kernel) idleSystem
  have begun : loggedTwice.next (.endOp 2) = some startedTwice := by
    have possible : (runs System.next loggedTwice [.endOp 2]).isSome = true := by decide +kernel
    cases reached : loggedTwice.next (.endOp 2) with
    | none => simp [runs_cons, reached] at possible
    | some state => simp [startedTwice, reached]
  have ended : runs System.next startedTwice duringCommit = some endedTwice :=
    runs_getD (by decide +kernel) idleSystem
  have returns : (endedTwice.step (.endOpReturn 2)).state?.isSome = true := by decide +kernel
  rcases Outcome.exists_done returns with ⟨returned, done⟩
  have members : ∀ block ∈ [100, 101], block ∈ loggedTwice.group := by decide +kernel
  have commits : startedTwice.InCommit 2 :=
    endOp_commits (System.next_eq begun) (by decide +kernel)
  refine ⟨returned, done, fun block member => ?_⟩
  rcases (groupCommit idleSystem idleSystem_started twoOperations loggedTwice logged).2 2
    startedTwice duringCommit endedTwice returned (System.next_eq begun) commits
    (by simp [duringCommit]) ended done block (members block member) with ⟨b, -, -, number, written⟩
  exact ⟨b, number, written⟩

end Xv6.Fs
