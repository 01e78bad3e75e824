import Xv6.Fs.CommitAlone

/-!
# The buffers of a commit

Only `log_write` sets the dirty flag to stay, and a commit clears it for every
block of the log, whatever the others do. So a commit starts with the buffers
`log_write` pinned, and finds room for one more.
-/

namespace Xv6.Fs

open Xv6.Library

variable {p : Pid} {log : Log} {store : Store} {b : BufPtr} {blockno : Nat}

/-! ## Who sets the flag -/

/-- No buffer becomes dirty, and no dirty buffer gets another block. -/
def Cleans (store later : Store) : Prop :=
  ∀ b, (later.buf b).dirty = true →
    (store.buf b).dirty = true ∧ (later.buf b).blockno = (store.buf b).blockno

variable {later : Store} {q : Pid}

theorem Cleans.refl (store : Store) : Cleans store store := fun _ dirty => ⟨dirty, rfl⟩

theorem Cleans.trans {second third : Store} (first : Cleans store second)
    (next : Cleans second third) : Cleans store third := by
  intro b dirty
  obtain ⟨before, number⟩ := next b dirty
  obtain ⟨old, same⟩ := first b before
  exact ⟨old, number.trans same⟩

theorem Cleans.setBuf (buffer : Buf) (cleans : buffer.dirty = true →
    (store.buf b).dirty = true ∧ buffer.blockno = (store.buf b).blockno) :
    Cleans store (store.setBuf b buffer) := by
  intro a dirty
  by_cases same : a = b
  · subst same
    rw [Store.setBuf_same] at dirty ⊢
    exact cleans dirty
  · rw [Store.setBuf_of_ne _ _ same] at dirty ⊢
    exact ⟨dirty, rfl⟩

theorem Cleans.bgetScan {dev : Nat} (done : bgetScan p dev blockno store = .done b later) :
    Cleans store later := by
  obtain ⟨-, -, rfl⟩ | ⟨-, -, -, rfl⟩ := bgetScan_cases done
  · exact Cleans.setBuf _ fun dirty => ⟨dirty, rfl⟩
  · exact Cleans.setBuf _ nofun

theorem Cleans.acquiresleep (done : acquiresleep p b store = .done () later) :
    Cleans store later := by
  obtain ⟨-, rfl⟩ := acquiresleep_cases done
  exact Cleans.setBuf _ fun dirty => ⟨dirty, rfl⟩

theorem Cleans.iderw (done : iderw b store = .done () later) : Cleans store later := by
  obtain ⟨-, -, ⟨-, rfl⟩ | ⟨-, -, rfl⟩⟩ := iderw_cases done
  · exact @Cleans.setBuf store b { store.buf b with dirty := false, valid := true } nofun
  · exact Cleans.setBuf _ fun dirty => ⟨dirty, rfl⟩

theorem Cleans.releasesleep (done : releasesleep b store = .done () later) :
    Cleans store later := by
  cases done
  exact Cleans.setBuf _ fun dirty => ⟨dirty, rfl⟩

theorem Cleans.bput (done : bput p b store = .done () later) : Cleans store later := by
  obtain ⟨mru, rfl⟩ := bput_cases done
  have cleans : Cleans store (store.setBuf b
      { store.buf b with refs := (store.buf b).refs.erase p }) :=
    Cleans.setBuf _ fun dirty => ⟨dirty, rfl⟩
  exact cleans

theorem Cleans.useBuffer {inOp : Bool} {use : Use}
    (done : useBuffer p inOp store use = .done () later) : Cleans store later := by
  cases use with
  | scan blockno =>
      simp only [Fs.useBuffer] at done
      split at done
      · cases done
      · cases done
      · next found =>
          cases done
          exact Cleans.bgetScan found
  | acquire b =>
      simp only [Fs.useBuffer] at done
      split at done
      · exact Cleans.acquiresleep done
      · cases done
  | fetch b =>
      simp only [Fs.useBuffer] at done
      split at done
      · exact Cleans.iderw done
      · cases done
  | modify b data =>
      simp only [Fs.useBuffer] at done
      split at done
      · cases done
        exact Cleans.setBuf _ fun dirty => ⟨dirty, rfl⟩
      · cases done
  | release b =>
      simp only [Fs.useBuffer] at done
      split at done
      · exact Cleans.releasesleep done
      · cases done
  | put b =>
      simp only [Fs.useBuffer] at done
      split at done
      · exact Cleans.bput done
      · cases done

/-- A buffer that was written is clean. -/
theorem bwrite_cleans (done : bwrite b store = .done () later) :
    Cleans store later ∧ (later.buf b).dirty = false := by
  unfold bwrite at done
  split at done
  · cases done
  · obtain ⟨-, -, ⟨-, same⟩ | ⟨clean, -⟩⟩ := iderw_cases done
    · have buffer : later.buf = Function.update store.buf b
          { store.buf b with dirty := false, valid := true } := by
        rw [same]
        simp [Store.setBuf]
      constructor
      · intro a dirty
        rw [buffer] at dirty ⊢
        by_cases here : a = b
        · rw [here, Function.update_self] at dirty
          cases dirty
        · rw [Function.update_of_ne here] at dirty ⊢
          exact ⟨dirty, rfl⟩
      · rw [buffer, Function.update_self]
    · rw [Store.setBuf_same] at clean
      cases clean

/-! ## A commit that others disturb -/

theorem bread_steps (p : Pid) (dev blockno : Nat) :
    Program.Steps Cleans (bread p dev blockno) := by
  have scans : Program.Steps Cleans (Program.atom (bgetScan p dev blockno)) :=
    Program.steps_atom fun _ _ _ done => Cleans.bgetScan done
  have acquires : ∀ b, Program.Steps Cleans (Program.atom (acquiresleep p b)) :=
    fun b => Program.steps_atom fun _ _ _ done => Cleans.acquiresleep done
  have reads : ∀ b, Program.Steps Cleans (Program.atom (iderw b)) :=
    fun b => Program.steps_atom fun _ _ _ done => Cleans.iderw done
  apply Program.Steps.bind
  · apply scans.bind
    intro b
    apply (acquires b).bind
    intro _
    trivial
  · intro b
    apply (Program.steps_get Cleans.refl _).bind
    intro invalid
    cases invalid with
    | false => trivial
    | true => exact (reads b).bind fun _ => trivial

theorem brelse_steps (p : Pid) (b : BufPtr) : Program.Steps Cleans (brelse p b) := by
  apply Program.Steps.bind
  · apply Program.steps_atom
    intro store _ later done
    split at done
    · cases done
    · exact Cleans.releasesleep done
  · exact fun _ => Program.steps_atom fun _ _ _ done => Cleans.bput done

theorem modify_steps (b : BufPtr) (change : Store → Block) :
    Program.Steps Cleans (Program.modify fun store =>
      store.setBuf b { store.buf b with data := change store }) := by
  apply Program.steps_atom
  rintro store _ later ⟨⟩
  exact Cleans.setBuf _ fun dirty => ⟨dirty, rfl⟩

theorem bwrite_steps (b : BufPtr) : Program.Steps Cleans (Program.atom (bwrite b)) :=
  Program.steps_atom fun _ _ _ done => (bwrite_cleans done).1

theorem writeLog_steps (p : Pid) : Program.Steps Cleans (writeLog p) := by
  unfold writeLog forTail
  apply Program.Steps.forFrom Cleans.refl
  intro tail
  apply (Program.steps_get Cleans.refl _).bind
  intro log
  apply (bread_steps p _ _).bind
  intro toBuf
  apply (bread_steps p _ _).bind
  intro fromBuf
  apply (modify_steps _ fun store => (store.buf fromBuf).data).bind
  intro _
  apply (bwrite_steps _).bind
  intro _
  exact (brelse_steps p _).bind fun _ => brelse_steps p _

theorem writeHead_steps (p : Pid) : Program.Steps Cleans (writeHead p) := by
  apply (Program.steps_get Cleans.refl _).bind
  intro log
  apply (bread_steps p _ _).bind
  intro buf
  apply (modify_steps _ fun store => putHeader store.log.lh (store.buf buf).data).bind
  intro _
  exact (bwrite_steps _).bind fun _ => brelse_steps p _

theorem clearHead_steps : Program.Steps Cleans clearHead := by
  apply Program.steps_atom
  rintro store _ later ⟨⟩
  exact Cleans.refl store

theorem installTrans_steps (p : Pid) : Program.Steps Cleans (installTrans p) := by
  unfold installTrans forTail
  apply Program.Steps.forFrom Cleans.refl
  intro tail
  apply (Program.steps_get Cleans.refl _).bind
  intro log
  apply (bread_steps p _ _).bind
  intro lbuf
  apply (bread_steps p _ _).bind
  intro dbuf
  apply (modify_steps _ fun store => (store.buf lbuf).data).bind
  intro _
  apply (bwrite_steps _).bind
  intro _
  exact (brelse_steps p _).bind fun _ => brelse_steps p _

theorem commit_steps (p : Pid) : Program.Steps Cleans (commit p) := by
  apply (Program.steps_get Cleans.refl _).bind
  intro some
  cases some with
  | false => trivial
  | true =>
      apply (writeLog_steps p).bind
      intro _
      apply (writeHead_steps p).bind
      intro _
      apply (installTrans_steps p).bind
      intro _
      exact clearHead_steps.bind fun _ => writeHead_steps p

/-- Recovery makes no buffer dirty either. -/
theorem recoverFromLog_clean (clean : ∀ b, (store.buf b).dirty = false)
    (ended : (recoverFromLog p).run store = .done () later) (b : BufPtr) :
    (later.buf b).dirty = false := by
  have reads : Program.Steps Cleans (readHead p) := by
    apply (Program.steps_get Cleans.refl _).bind
    intro log
    apply (bread_steps p _ _).bind
    intro buf
    apply Program.Steps.bind
    · apply Program.steps_atom
      intro store _ later done
      dsimp only at done
      split at done
      · cases done
      · cases done
        exact Cleans.refl store
    · exact fun _ => brelse_steps p _
  have steps : Program.Steps Cleans (recoverFromLog p) := by
    apply reads.bind
    intro _
    apply (installTrans_steps p).bind
    intro _
    exact clearHead_steps.bind fun _ => writeHead_steps p
  have cleans := steps.run Cleans.refl Cleans.trans ended
  by_contra dirty
  have before := (cleans b (Bool.eq_true_of_not_eq_false dirty)).1
  rw [clean b] at before
  cases before

/-- What is not asked of the log here. -/
def anyPhase (_ : Log) (_ : List Nat) (_ : Nat → Block) : Prop := True

/-- Others use the cache, and clean it at most. -/
def cleaning (p : Pid) : Setting Store :=
  (journal p anyPhase).restrict Cleans Cleans.refl Cleans.trans

/-- The blocks of dirty buffers are among `blocks`. -/
def Dirtied (blocks : Nat → Prop) (store : Store) : Prop :=
  ∀ b, (store.buf b).dirty = true → blocks (store.buf b).blockno

theorem Dirtied.after {blocks : Nat → Prop} {before after : Store}
    (dirtied : Dirtied blocks before) (cleans : Cleans before after) : Dirtied blocks after := by
  intro b dirty
  obtain ⟨old, number⟩ := cleans b dirty
  rw [number]
  exact dirtied b old

/-- What is known of a program of the log, with the blocks of the dirty buffers. -/
theorem cleans_frame {Value : Type} {pre : Store → Prop} {post : Value → Store → Prop}
    {blocks : Nat → Prop} {program : Program Store Value}
    (triple : (journal p anyPhase).Triple pre program post)
    (steps : program.Steps Cleans) :
    (cleaning p).Triple (fun store => pre store ∧ Dirtied blocks store) program
      fun value store => post value store ∧ Dirtied blocks store :=
  triple.frame steps Dirtied.after

variable {disk : Nat → Block} {written : List Nat} {tailHeld : List Holding}

/-- The block of the buffer that is written is not among the dirty ones any more. -/
theorem bwrite_triple_cleans {blocks : Nat → Prop} {data : Block}
    (fresh : b ∉ tailHeld.map Prod.fst) :
    (cleaning p).Triple
      (fun store => At p (some b) ((b, blockno, data) :: tailHeld) [] log disk written store ∧
        Dirtied blocks store)
      (Program.atom (bwrite b))
      fun _ store => At p none ((b, blockno, data) :: tailHeld) [] log
          (Function.update disk blockno data) (blockno :: written) store ∧
        Dirtied (fun block => blocks block ∧ block ≠ blockno) store := by
  have plain := @bwrite_triple p tailHeld [] log disk written anyPhase b blockno data trivial
    trivial fresh List.not_mem_nil
  apply Setting.Triple.atom
  · exact (At.stable trivial).frame Dirtied.after
  · exact fun _ => (At.stable trivial).frame Dirtied.after
  · rintro store ⟨⟩ next ⟨here, dirtied⟩ done
    have after := plain.effect here done
    obtain ⟨cleans, clean⟩ := bwrite_cleans done
    refine ⟨after, fun a dirty => ⟨dirtied.after cleans a dirty, ?_⟩⟩
    intro same
    have holds := after.held _ (List.mem_cons_self ..)
    have device := (after.cache.dirty a dirty).2
    have equal : a = b := after.cache.unique a b device holds.dev (same.trans holds.blockno.symm)
    rw [equal, clean] at dirty
    cases dirty

/-- An iteration of the loop of `install_trans`. -/
theorem install_cleans {blocks left : Nat → Prop} {tail : Nat} (device : log.dev = rootDev)
    (removed : ∀ block, blocks block → block ≠ log.lh.block tail → left block) :
    (cleaning p).Triple
      (fun store => At p none [] [] log disk written store ∧ Dirtied blocks store)
      (do
        let log ← Program.get Store.log
        let lbuf ← bread p log.dev (log.start + tail + 1)
        let dbuf ← bread p log.dev (log.lh.block tail)
        memmove dbuf lbuf
        Program.atom (bwrite dbuf)
        brelse p lbuf
        brelse p dbuf)
      fun _ store => (∃ disk written, At p none [] [] log disk written store) ∧
        Dirtied left store := by
  refine Setting.Triple.bind_get ((At.stable trivial).frame Dirtied.after) log
    (fun _ here => here.1.log) ?_
  refine Setting.Triple.bind
    (cleans_frame (bread_triple device trivial) (bread_steps _ _ _)) ?_
  rintro lbuf middle ⟨⟨data, here, -⟩, dirtied⟩
  refine Setting.Triple.bind
    (cleans_frame (bread_triple device trivial) (bread_steps _ _ _)) ?_ middle ⟨here, dirtied⟩
  rintro dbuf middle ⟨⟨old, here, apart, -⟩, dirtied⟩
  have different : dbuf ≠ lbuf := by
    rintro rfl
    simp at apart
  have fresh : dbuf ∉ [(lbuf, log.start + tail + 1, data)].map Prod.fst := by
    simpa using different
  have other : lbuf ∉ [(dbuf, log.lh.block tail, data)].map Prod.fst := by
    simpa using different.symm
  have moved := @memmove_triple p [(lbuf, log.start + tail + 1, data)] [] log disk written
    anyPhase dbuf (log.lh.block tail) old trivial lbuf _ data (List.mem_cons_self ..) fresh
    List.not_mem_nil
  refine Setting.Triple.bind
    (cleans_frame moved (modify_steps _ fun store => (store.buf lbuf).data)) ?_ middle
    ⟨here, dirtied⟩
  intro _
  refine Setting.Triple.bind (bwrite_triple_cleans fresh) ?_
  rintro _ store ⟨here, dirtied⟩
  have less : Dirtied left store := fun b dirty =>
    removed _ (dirtied b dirty).1 (dirtied b dirty).2
  have swapped := here.mono
    (show [(lbuf, log.start + tail + 1, data), (dbuf, log.lh.block tail, data)] ⊆ _ by simp)
    (List.Subset.refl _)
  have first := @brelse_triple p [(dbuf, log.lh.block tail, data)] [] log
    (Function.update disk (log.lh.block tail) data) (log.lh.block tail :: written) anyPhase lbuf
    (log.start + tail + 1) data trivial other
  have second := @brelse_triple p [] [] log (Function.update disk (log.lh.block tail) data)
    (log.lh.block tail :: written) anyPhase dbuf (log.lh.block tail) data trivial
    List.not_mem_nil
  have released := Setting.Triple.bind (cleans_frame first (brelse_steps _ _))
    (fun _ => cleans_frame second (brelse_steps _ _)) store ⟨swapped, less⟩
  exact released.mono fun _ _ reached => ⟨⟨_, _, reached.1⟩, reached.2⟩

theorem installTrans_cleans (device : log.dev = rootDev) :
    (cleaning p).Triple
      (fun store => At p none [] [] log disk written store ∧
        Dirtied (fun block => block ∈ log.lh.logged) store)
      (installTrans p)
      fun _ store => (∃ disk written, At p none [] [] log disk written store) ∧
        Dirtied (fun _ => False) store := by
  have loop : (cleaning p).Triple
      (fun store => (∃ disk written, At p none [] [] log disk written store) ∧
        Dirtied (fun block => block ∈ log.lh.logged.drop 0) store)
      (installTrans p)
      fun _ store => (∃ disk written, At p none [] [] log disk written store) ∧
        Dirtied (fun block => block ∈ log.lh.logged.drop log.lh.n) store := by
    unfold installTrans forTail
    refine Setting.Triple.forFrom
      (fun tail store => (∃ disk written, At p none [] [] log disk written store) ∧
        Dirtied (fun block => block ∈ log.lh.logged.drop tail) store) ?_ ?_ ?_ logSize
        (Nat.zero_le _)
    · rintro _ store ⟨⟨disk, written, here⟩, -⟩
      exact congrArg (fun log => log.lh.n) here.log
    · rintro tail -
      constructor
      · rintro before after ⟨⟨disk, written, here⟩, dirtied⟩ ⟨others, cleans⟩
        exact ⟨⟨disk, written, here.later others⟩, dirtied.after cleans⟩
      · rintro store ⟨⟨disk, written, here⟩, -⟩
        exact (At.stable trivial).allowed here
    · rintro tail below store ⟨⟨disk, written, here⟩, dirtied⟩
      refine install_cleans device ?_ store ⟨here, dirtied⟩
      intro block member different
      have inside : tail < log.lh.logged.length := by
        rw [LogHeader.length_logged]
        exact below
      rw [List.drop_eq_getElem_cons inside] at member
      obtain same | later := List.mem_cons.mp member
      · exact absurd (same.trans (by simp [LogHeader.logged])) different
      · exact later
  rintro store ⟨here, dirtied⟩
  have ran := loop store ⟨⟨disk, written, here⟩, dirtied⟩
  apply ran.mono
  rintro _ final ⟨reached, clean⟩
  refine ⟨reached, fun b dirty => ?_⟩
  have member := clean b dirty
  rw [List.drop_of_length_le (LogHeader.length_logged _).le] at member
  exact List.not_mem_nil member

/-- A commit leaves no buffer dirty. -/
theorem commit_cleans (device : log.dev = rootDev) (small : log.lh.n < logSize)
    (size : logSize ≤ log.size) (home : ∀ b ∈ log.lh.logged, ¬log.Owns b)
    (new : Nat → Block) :
    (cleaning p).Triple
      (fun store => At p none [] (log.lh.pins new) log disk written store ∧
        Dirtied (fun block => block ∈ log.lh.logged) store)
      (commit p) fun _ => Dirtied fun _ => False := by
  have pins : ∀ i < log.lh.n, (log.lh.block i, new (log.lh.block i)) ∈ log.lh.pins new :=
    fun i below => List.mem_map.mpr ⟨_, LogHeader.mem_logged.mpr ⟨i, below, rfl⟩, rfl⟩
  have outside : ∀ pin ∈ log.lh.pins new, ¬log.Owns pin.1 := by
    intro pin member
    obtain ⟨b, logged, rfl⟩ := List.mem_map.mp member
    exact home b logged
  refine Setting.Triple.bind_get ((At.stable trivial).frame Dirtied.after)
    (decide (0 < log.lh.n)) (fun _ here => by rw [here.1.log]) ?_
  by_cases some : 0 < log.lh.n
  · simp only [some, decide_true, if_true]
    have logs := @writeLog_triple disk written p (log.lh.pins new) log anyPhase device new
      (Or.inr (Nat.lt_of_lt_of_le small size)) pins outside fun _ _ => trivial
    refine Setting.Triple.bind (cleans_frame logs (writeLog_steps p)) fun _ => ?_
    refine Setting.Triple.bind
      (cleans_frame (writeHead_triple device trivial trivial outside) (writeHead_steps p)) ?_
    rintro _ store ⟨here, dirtied⟩
    refine Setting.Triple.bind (installTrans_cleans device) ?_ store
      ⟨here.mono (List.Subset.refl _) (List.nil_subset _), dirtied⟩
    rintro _ store ⟨⟨disk, written, here⟩, clean⟩
    refine Setting.Triple.bind
      (cleans_frame (clearHead_triple trivial trivial) clearHead_steps) ?_ store ⟨here, clean⟩
    rintro _ store ⟨here, clean⟩
    have onRoot : ({ log with lh := { log.lh with n := 0 } } : Log).dev = rootDev := device
    have ends := cleans_frame (writeHead_triple onRoot trivial trivial (List.forall_mem_nil _))
      (writeHead_steps p) store ⟨here, clean⟩
    exact ends.mono fun _ _ reached => reached.2
  · have none : log.lh.n = 0 := Nat.eq_zero_of_not_pos some
    simp only [some, decide_false, Bool.false_eq_true, if_false]
    rintro store ⟨here, dirtied⟩ later ⟨others, cleans⟩
    refine ⟨(At.stable trivial).allowed (here.later others), ?_⟩
    intro b dirty
    have member := dirtied.after cleans b dirty
    rw [LogHeader.logged, none] at member
    exact List.not_mem_nil member

/-! ## Every run -/

/-- Only what has been logged is dirty, and a commit will clean it. -/
structure Swept (system : System) : Prop where
  quiet : system.store.log.committing = false →
    Dirtied (fun block => block ∈ system.store.log.lh.logged) system.store
  underway : ∀ p rest, system.pc p = .committing rest →
    (cleaning p).Safe (fun _ => Dirtied fun _ => False) rest system.store

theorem Quiet.sweeps {group : List Nat} (quiet : Quiet store group)
    (dirtied : Dirtied (fun block => block ∈ store.log.lh.logged) store)
    (device : store.log.dev = rootDev) (size : logSize ≤ store.log.size)
    (outstanding : Int) (committing : Bool) :
    (cleaning p).Safe (fun _ => Dirtied fun _ => False) (commit p)
      { store with log :=
        { store.log with outstanding := outstanding, committing := committing } } := by
  have here : At p none [] (store.log.lh.pins store.cached)
      { store.log with outstanding := outstanding, committing := committing }
      store.disk store.written
      { store with log :=
        { store.log with outstanding := outstanding, committing := committing } } :=
    ⟨quiet.cache.of_buf rfl rfl rfl, by simp, rfl, rfl, rfl, List.forall_mem_nil _, quiet.pinned⟩
  by_cases room : store.log.lh.n < logSize
  · have cleans := @commit_cleans p { store.log with
      outstanding := outstanding, committing := committing } store.disk store.written device room
      size quiet.home store.cached
    exact cleans _ ⟨here, dirtied⟩
  · have full := quiet.full (Nat.le_of_not_lt room)
    have stops : (journal p anyPhase).Safe (fun _ => Dirtied fun _ => False) (commit p)
        { store with log :=
          { store.log with outstanding := outstanding, committing := committing } } :=
      @commit_full p _ { store.log with outstanding := outstanding, committing := committing }
        store.disk store.written anyPhase _ trivial (Nat.le_of_not_lt room) size
        (here.mono (List.Subset.refl _) (List.nil_subset _))
        fun b => ⟨(full b).1, quiet.home _ (full b).2⟩
    have framed : (cleaning p).Safe _ (commit p) _ :=
      stops.frame (commit_steps p) (fun _ _ => trivial) (trivial : (fun _ : Store => True) _)
    exact framed.mono fun _ _ reached => reached.1

variable {system next : System}

/-- A step that leaves the buffers alone. -/
theorem Swept.same_buffers (swept : Swept system) (buf : next.store.buf = system.store.buf)
    (logged : next.store.log.lh = system.store.log.lh)
    (flag : next.store.log.committing = false → system.store.log.committing = false)
    (same : ∀ q rest, next.pc q = .committing rest →
      system.pc q = .committing rest ∧ next.store = system.store) : Swept next where
  quiet free b dirty := by
    rw [buf] at dirty ⊢
    rw [logged]
    exact swept.quiet (flag free) b dirty
  underway q rest place := by
    obtain ⟨before, store⟩ := same q rest place
    rw [store]
    exact swept.underway q rest before

/-- Nobody commits. -/
theorem Swept.of_idle (idle : ∀ q, ¬(next.pc q).Commits)
    (dirtied : Dirtied (fun block => block ∈ next.store.log.lh.logged) next.store) :
    Swept next where
  quiet _ := dirtied
  underway q rest place := absurd (Pc.commits_iff.mpr ⟨rest, place⟩) (idle q)

theorem Swept.setPc (swept : Swept system) {pc : Pc} (stays : ¬pc.Commits) :
    Swept (system.setPc p pc) := by
  refine swept.same_buffers rfl rfl id ?_
  intro q rest place
  rw [System.setPc_pc] at place
  split at place
  · exact absurd (Pc.commits_iff.mpr ⟨rest, place⟩) stays
  · exact ⟨place, rfl⟩

theorem Swept.beginOp (swept : Swept system) (invariant : LogInvariant system)
    (done : beginOp p system = .done () next) : Swept next := by
  obtain ⟨-, rfl | ⟨free, -, rfl⟩⟩ := beginOp_cases done
  · exact swept.setPc id
  · apply Swept.of_idle
    · intro q
      simp only [System.setPc, System.setLog, Function.update_apply]
      split
      · exact id
      · exact invariant.idle free q
    · exact swept.quiet free

theorem Swept.endOp (swept : Swept system) (invariant : LogInvariant system)
    (done : endOp p system = .done () next) : Swept next := by
  obtain ⟨-, free, ⟨-, rfl⟩ | ⟨-, rfl⟩⟩ := endOp_cases done
  · have idle := invariant.idle free
    constructor
    · intro still
      simp [System.setPc, System.setLog] at still
    · intro q rest place
      rw [System.setPc_pc] at place
      split at place
      · next here =>
          cases place
          subst here
          exact (invariant.quiet free).sweeps (swept.quiet free) invariant.device invariant.size
            0 true
      · exact absurd (Pc.commits_iff.mpr ⟨rest, place⟩) (idle q)
  · apply Swept.of_idle
    · intro q
      simp only [System.setPc, System.wakeup, System.setLog, Function.update_apply]
      split
      · exact id
      · rw [wake_commits]
        exact invariant.idle free q
    · exact swept.quiet free

theorem Swept.endOpReturn (swept : Swept system) (invariant : LogInvariant system)
    (done : endOpReturn p system = .done () next) : Swept next := by
  obtain ⟨value, place, rfl⟩ := endOpReturn_cases done
  have clean : Dirtied (fun _ => False) system.store := (swept.underway p _ place).ret
  have exclusive := invariant.exclusive p (Pc.commits_iff.mpr ⟨_, place⟩)
  apply Swept.of_idle
  · intro q
    simp only [System.setPc, System.wakeup, System.setLog, Function.update_apply]
    split
    · exact id
    · next different =>
        rw [wake_commits]
        exact fun also => different (exclusive.2.2 q also)
  · exact fun b dirty => (clean b dirty).elim

theorem Swept.commitStep (swept : Swept system) (invariant : LogInvariant system)
    (done : commitStep p system = .done () next) : Swept next := by
  obtain ⟨rest, remaining, store, place, stepped, rfl⟩ := commitStep_cases done
  have exclusive := invariant.exclusive p (Pc.commits_iff.mpr ⟨_, place⟩)
  have after := invariant.commitStep done
  constructor
  · intro free
    have busy := (after.exclusive p (Pc.commits_iff.mpr ⟨remaining, by simp [System.setPc]⟩)).1
    rw [free] at busy
    cases busy
  · intro q later at'
    rw [System.setPc_pc] at at'
    split at at'
    · next here =>
        cases at'
        subst here
        exact (swept.underway q rest place).step stepped
    · next different =>
        exact absurd (exclusive.2.2 q (Pc.commits_iff.mpr ⟨later, at'⟩)) different

theorem Swept.logWriteAppend (swept : Swept system) (invariant : LogInvariant system)
    (done : logWriteAppend p system = .done () next) : Swept next := by
  obtain ⟨b, place, rfl⟩ := logWriteAppend_cases done
  have free := invariant.not_committing (p := p) (by simp [place, Pc.InOp])
  apply Swept.of_idle
  · intro q
    simp only [System.setPc, Function.update_apply]
    split
    · exact id
    · exact invariant.idle free q
  · have logged : ∀ block, block = (system.store.buf b).blockno ∨
        block ∈ system.store.log.lh.logged →
        block ∈ (system.store.log.lh.append (system.store.buf b).blockno).logged := by
      intro block either
      rw [LogHeader.logged_append]
      split
      · next present =>
          obtain rfl | old := either
          · exact present
          · exact old
      · obtain rfl | old := either
        · exact List.mem_append_right _ (List.mem_singleton.mpr rfl)
        · exact List.mem_append_left _ old
    intro a dirty
    by_cases same : a = b
    · subst same
      rw [Store.setBuf_same]
      exact logged _ (Or.inl rfl)
    · rw [Store.setBuf_of_ne _ _ same] at dirty ⊢
      exact logged _ (Or.inr (swept.quiet free a dirty))

theorem Swept.buffer {use : Use} (swept : Swept system) (invariant : LogInvariant system)
    (done : bufferStep p use system = .done () next) : Swept next := by
  obtain ⟨place, inOp, store, operation, ran, rfl⟩ := bufferStep_cases done
  have cleans := Cleans.useBuffer ran
  cases free : system.store.log.committing with
  | false =>
      have used := Used.of_useBuffer (invariant.quiet free).cache ran
      apply Swept.of_idle
      · exact invariant.idle free
      · have dirtied := (swept.quiet free).after cleans
        rw [← used.log] at dirtied
        exact dirtied
  | true =>
      obtain ⟨q, commits⟩ := invariant.flag free
      obtain ⟨busy, idle, only⟩ := invariant.exclusive q commits
      obtain ⟨rest, at'⟩ := Pc.commits_iff.mp commits
      obtain ⟨log, new, disk, written, underway⟩ := invariant.underway q rest at'
      obtain ⟨filling, cache, -⟩ := underway.now.1
      have different : p ≠ q := by
        rintro rfl
        obtain place | place := place <;> simp [place] at at'
      have reads : ∀ a data, use = .modify a data → inOp = false := by
        intro a data _
        cases inOp with
        | false => rfl
        | true => exact absurd (by simp [operation rfl, Pc.InOp]) (idle p)
      have others : Others q system.store store :=
        Others.of_useBuffer different cache ran reads
      constructor
      · intro quiet
        simp only [others.log] at quiet
        simp [busy] at quiet
      · intro r later inside
        have same := only r (Pc.commits_iff.mpr ⟨later, inside⟩)
        subst same
        exact (swept.underway r later inside).later ⟨others, cleans⟩

theorem Swept.step {event : Event} (swept : Swept system) (invariant : LogInvariant system)
    (done : system.step event = .done () next) : Swept next := by
  cases event with
  | beginOp p => exact swept.beginOp invariant done
  | logWrite p b =>
      obtain ⟨-, -, rfl⟩ := logWrite_cases done
      exact swept.setPc id
  | logWriteCheck p =>
      obtain ⟨b, -, rfl⟩ := logWriteCheck_cases done
      exact swept.setPc id
  | logWriteAppend p => exact swept.logWriteAppend invariant done
  | endOp p => exact swept.endOp invariant done
  | commitStep p => exact swept.commitStep invariant done
  | endOpReturn p => exact swept.endOpReturn invariant done
  | buffer p use => exact swept.buffer invariant done

theorem swept_run {start : System} (started : Started start)
    (clean : ∀ b, (start.store.buf b).dirty = false) {events : List Event}
    (ran : runs System.next start events = some system) :
    Swept system ∧ LogInvariant system := by
  have first : Swept start := by
    apply Swept.of_idle
    · intro p
      rw [started.outside p]
      exact id
    · intro b dirty
      rw [clean b] at dirty
      cases dirty
  refine runs_invariant (fun _ system => Swept system ∧ LogInvariant system)
    ⟨first, started.invariant⟩ ?_ ran
  rintro _ state event next ⟨swept, invariant⟩ stepped
  have done := System.next_eq stepped
  exact ⟨swept.step invariant done, invariant.step done⟩

/-- The state in which `end_op` calls `commit`. -/
theorem Swept.alone (swept : Swept system) (invariant : LogInvariant system)
    (ended : Fs.endOp p system = .done () next) (commits : next.InCommit p)
    (free : ∀ b, (next.store.buf b).refs = []) :
    Alone p [] next.store.log.lh.logged next.store.log next.store ∧
      next.store.log.dev = rootDev ∧ logSize ≤ next.store.log.size ∧
      ∀ b ∈ next.store.log.lh.logged, ¬next.store.log.Owns b := by
  obtain ⟨-, idle, ⟨-, rfl⟩ | ⟨-, rfl⟩⟩ := endOp_cases ended
  · have quiet := invariant.quiet idle
    refine ⟨⟨rfl, nofun, ?_, quiet.cache.unique, quiet.cache.dirty, quiet.cache.range,
      quiet.dirty, swept.quiet idle, quiet.distinct⟩, invariant.device, invariant.size,
      quiet.home⟩
    exact fun b _ => ⟨quiet.cache.unlocked (free b), free b⟩
  · simp [System.InCommit, System.setPc, Pc.Commits] at commits

/-- A commit that runs undisturbed (a reader's `bget` in between could take the last buffer), with
room for one more block than are pinned, finds a buffer for every `bread` and each home block in
its pinned buffer, and leaves every buffer clean and free. -/
theorem commit_has_buffers (p : Pid) {start before system : System} {events : List Event}
    (started : Started start) (clean : ∀ b, (start.store.buf b).dirty = false)
    (ran : runs System.next start events = some before)
    (ended : endOp p before = .done () system) (commits : system.InCommit p)
    (free : ∀ b, (system.store.buf b).refs = []) (few : system.store.log.lh.n < logSize) :
    (commitPinned p).run system.store = (commit p).run system.store ∧
      ((commit p).run system.store).Ends (OffDisk system.store.log) fun _ final =>
        ∀ b, (final.buf b).dirty = false ∧ (final.buf b).refs = [] := by
  obtain ⟨swept, invariant⟩ := swept_run started clean ran
  obtain ⟨alone, device, size, home⟩ := swept.alone invariant ended commits free
  have ends := alone.commit ⟨device, size, few, home⟩
  have passes : ¬OffDisk system.store.log notPinned := by
    rintro ⟨same, -⟩
    exact absurd same (by decide)
  have same := (commitPinned_asserts p).run_eq passes ends
  refine ⟨same, ?_⟩
  rw [← same]
  apply ends.mono
  rintro _ final ⟨log, last⟩ b
  refine ⟨?_, (last.free b List.not_mem_nil).2⟩
  by_contra dirty
  exact List.not_mem_nil (last.only b (Bool.eq_true_of_not_eq_false dirty))

/-- Three operations fill the log. -/
def fullLog : List Event :=
  [.beginOp 1, .beginOp 2, .beginOp 3] ++
    (List.range 29).flatMap (fun i => logBlock (1 + i / maxOpBlocks) i) ++ [.endOp 1, .endOp 2]

/-- One buffer is left for the log blocks. -/
theorem commit_has_buffers_full : ∃ before system,
    runs System.next idleSystem fullLog = some before ∧ endOp 3 before = .done () system ∧
      system.store.log.lh.n = 29 ∧
      (commitPinned 3).run system.store = (commit 3).run system.store ∧
      ((commit 3).run system.store).Ends (OffDisk system.store.log) fun _ final =>
        ∀ b, (final.buf b).dirty = false ∧ (final.buf b).refs = [] := by
  have facts : (runs System.next idleSystem fullLog).map (fun before =>
      decide (before.store.log.outstanding = 1 ∧ before.group.toFinset.card = 29 ∧
        (∀ b, (before.store.buf b).refs = []) ∧
        (before.step (.endOp 3)).state?.isSome = true)) = some true := by decide +kernel
  obtain ⟨before, ran, holds⟩ := Option.map_eq_some_iff.mp facts
  obtain ⟨last, card, free, ends⟩ := of_decide_eq_true holds
  obtain ⟨system, ended⟩ := Outcome.exists_done ends
  have ending : endOp 3 before = .done () system := ended
  have idle := (endOp_cases ending).2.1
  have count : system.store.log.lh.n = 29 := by
    rw [endOp_header ending, ← ((idleSystem_started.invariant.run ran).quiet idle).count]
    exact card
  have unused : ∀ b, (system.store.buf b).refs = [] := by
    rw [endOp_buf ending]
    exact free
  refine ⟨before, system, ran, ending, count, ?_⟩
  exact commit_has_buffers 3 idleSystem_started (by decide +kernel) ran ending
    (endOp_commits ended last) unused (count ▸ by decide)

end Xv6.Fs
