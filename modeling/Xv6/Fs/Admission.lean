import Mathlib.Algebra.Order.BigOperators.Group.Finset
import Xv6.Fs.GroupCommit

/-!
# Admission of operations

`begin_op` reserves `maxOpBlocks` blocks of `logSize` for each operation, while
`log_write` gives up one block earlier, because the header also takes one of
the `log.size` blocks. The two tests disagree when a group fills the log, which
operations cannot do that keep one block of their reservation unused.
-/

namespace Xv6.Fs

open Xv6.Library

variable {p : Pid} {b : BufPtr} {bound : Nat} {event : Event} {events : List Event}
  {start system next : System}

/-! ## Operations that log few blocks -/

/-- The blocks that the operation of `p` has logged. -/
def System.logged (system : System) (p : Pid) : Nat := (system.record p).toFinset.card

/-- The blocks that it will have logged once it has logged the block in `b`. -/
def System.logging (system : System) (p : Pid) (b : BufPtr) : Nat :=
  ((system.store.buf b).blockno :: system.record p).toFinset.card

/-- A step in which no operation logs more than `bound` distinct blocks. -/
def System.reservedStep (bound : Nat) (system : System) (event : Event) : Outcome System Unit :=
  match event with
  | .logWrite p b => if system.logging p b ≤ bound then system.step event else .blocked
  | _ => system.step event

def System.reservedNext (bound : Nat) (system : System) (event : Event) : Option System :=
  (system.reservedStep bound event).state?

/-- No call of `log_write` in the run panics for lack of room. -/
def NeverTooBig (bound : Nat) (start : System) (events : List Event) : Prop :=
  ∀ past p b rest, events = past ++ .logWrite p b :: rest →
    ∀ system, runs (System.reservedNext bound) start past = some system →
      system.reservedStep bound (.logWrite p b) ≠ .panic "too big a transaction"

/-- A process in an operation calls `log_write(b)`, within its reservation. -/
structure Calls (bound : Nat) (p : Pid) (b : BufPtr) (system : System) : Prop where
  inside : system.pc p = .inside
  logging : Logging p b system.store
  reserved : system.logging p b ≤ bound

theorem System.reserved_cases (stepped : system.reservedNext bound event = some next) :
    system.next event = some next ∧ ∀ p b, event = .logWrite p b → system.logging p b ≤ bound := by
  unfold reservedNext reservedStep at stepped
  cases event with
  | logWrite p b =>
      simp only at stepped
      split at stepped
      · rename_i few
        refine ⟨stepped, ?_⟩
        rintro q a ⟨⟩
        exact few
      · cases stepped
  | beginOp p => exact ⟨stepped, fun _ _ same => by cases same⟩
  | logWriteCheck p => exact ⟨stepped, fun _ _ same => by cases same⟩
  | logWriteAppend p => exact ⟨stepped, fun _ _ same => by cases same⟩
  | endOp p => exact ⟨stepped, fun _ _ same => by cases same⟩
  | commitStep p => exact ⟨stepped, fun _ _ same => by cases same⟩
  | endOpReturn p => exact ⟨stepped, fun _ _ same => by cases same⟩
  | buffer p use => exact ⟨stepped, fun _ _ same => by cases same⟩

/-- The reservation only rules runs out. -/
theorem runs_reserved (ran : runs (System.reservedNext bound) start events = some system) :
    runs System.next start events = some system :=
  runs_mono (fun stepped => (System.reserved_cases stepped).1) ran

theorem System.reserved_logWrite (few : system.logging p b ≤ bound) :
    system.reservedStep bound (.logWrite p b) = system.step (.logWrite p b) := if_pos few

/-- A larger reservation rules fewer runs out. -/
theorem runs_reserved_mono {larger : Nat} (more : bound ≤ larger)
    (ran : runs (System.reservedNext bound) start events = some system) :
    runs (System.reservedNext larger) start events = some system := by
  refine runs_mono (fun {state event next} stepped => ?_) ran
  obtain ⟨plain, few⟩ := System.reserved_cases stepped
  cases event with
  | logWrite p b =>
      rw [System.reservedNext, System.reserved_logWrite (Nat.le_trans (few p b rfl) more)]
      exact plain
  | beginOp p => exact plain
  | logWriteCheck p => exact plain
  | logWriteAppend p => exact plain
  | endOp p => exact plain
  | commitStep p => exact plain
  | endOpReturn p => exact plain
  | buffer p use => exact plain

/-! ## The size of the log -/

theorem useBuffer_log {inOp : Bool} {use : Use} {store later : Store}
    (done : useBuffer p inOp store use = .done () later) : later.log = store.log := by
  cases use with
  | scan blockno =>
      simp only [useBuffer] at done
      cases outcome : bgetScan p rootDev blockno store with
      | blocked => simp [outcome] at done
      | panic message => simp [outcome] at done
      | done b next =>
          simp only [outcome, Outcome.done.injEq, true_and] at done
          subst done
          rcases bgetScan_cases outcome with ⟨-, -, rfl⟩ | ⟨-, -, -, rfl⟩ <;> rfl
  | acquire b =>
      simp only [useBuffer] at done
      split at done
      · rw [(acquiresleep_cases done).2]
        rfl
      · cases done
  | fetch b =>
      simp only [useBuffer] at done
      split at done
      · rcases (iderw_cases done).2.2 with ⟨-, rfl⟩ | ⟨-, -, rfl⟩ <;> rfl
      · cases done
  | modify b data =>
      simp only [useBuffer] at done
      split at done
      · simp only [Outcome.done.injEq, true_and] at done
        rw [← done]
        rfl
      · cases done
  | release b =>
      simp only [useBuffer] at done
      split at done
      · simp only [releasesleep, Outcome.done.injEq, true_and] at done
        rw [← done]
        rfl
      · cases done
  | put b =>
      simp only [useBuffer] at done
      split at done
      · rcases bput_cases done with ⟨mru, rfl⟩
        rfl
      · cases done

/-- The size of the log never changes. -/
theorem LogInvariant.size_step (invariant : LogInvariant system)
    (done : system.step event = .done () next) :
    next.store.log.size = system.store.log.size := by
  cases event with
  | beginOp p => rcases beginOp_cases done with ⟨-, rfl | ⟨-, -, rfl⟩⟩ <;> rfl
  | logWrite p b =>
      rcases logWrite_cases done with ⟨-, -, rfl⟩
      rfl
  | logWriteCheck p =>
      rcases logWriteCheck_cases done with ⟨b, -, rfl⟩
      rfl
  | logWriteAppend p =>
      rcases logWriteAppend_cases done with ⟨b, -, rfl⟩
      rfl
  | endOp p => rcases endOp_cases done with ⟨-, -, ⟨-, rfl⟩ | ⟨-, rfl⟩⟩ <;> rfl
  | endOpReturn p =>
      rcases endOpReturn_cases done with ⟨value, -, rfl⟩
      rfl
  | commitStep p =>
      rcases commitStep_cases done with ⟨rest, later, store, place, stepped, rfl⟩
      rcases invariant.underway p rest place with ⟨log, new, disk, written, underway⟩
      have after := Underway.log_eq (underway.step stepped)
      simp only [System.setPc]
      rw [after, underway.log_eq]
  | buffer p use =>
      rcases bufferStep_cases done with ⟨-, inOp, store, -, ran, rfl⟩
      simp only [useBuffer_log ran]

theorem size_run (invariant : LogInvariant start)
    (ran : runs System.next start events = some system) :
    system.store.log.size = start.store.log.size := by
  refine (runs_invariant (fun _ current => LogInvariant current ∧
    current.store.log.size = start.store.log.size) ⟨invariant, rfl⟩ ?_ ran).2
  rintro past current event after ⟨kept, same⟩ stepped
  have done := System.next_eq stepped
  exact ⟨kept.step done, (kept.size_step done).trans same⟩

/-! ## What an operation has logged -/

/-- What the operations under way have logged is in the group. -/
def Recorded (system : System) : Prop :=
  ∀ p, (system.pc p).InOp → ∀ b ∈ system.record p, b ∈ system.group

theorem Recorded.of_same (recorded : Recorded system)
    (same : ∀ q, (next.pc q).InOp → (system.pc q).InOp ∧ next.record q = system.record q)
    (group : next.group = system.group) : Recorded next := by
  intro q inside b member
  rcases same q inside with ⟨before, record⟩
  rw [group]
  exact recorded q before b (record ▸ member)

theorem Recorded.setPc (recorded : Recorded system) {pc : Pc}
    (same : pc.InOp → (system.pc p).InOp) : Recorded (system.setPc p pc) := by
  refine recorded.of_same (fun q inside => ⟨?_, rfl⟩) rfl
  rw [System.setPc_pc] at inside
  split at inside
  · rename_i here
    rw [here]
    exact same inside
  · exact inside

theorem Recorded.step (recorded : Recorded system) (invariant : LogInvariant system)
    (event : Event) (done : system.step event = .done () next) : Recorded next := by
  cases event with
  | beginOp p =>
      rcases beginOp_cases done with ⟨-, rfl | ⟨-, -, rfl⟩⟩
      · exact recorded.setPc False.elim
      · intro q inside b member
        by_cases here : q = p
        · subst here
          simp at member
        · simp only [System.setPc, System.setLog, Function.update_of_ne here] at inside member
          exact recorded q inside b member
  | logWrite p b =>
      rcases logWrite_cases done with ⟨place, -, rfl⟩
      exact recorded.setPc fun _ => by simp [place, Pc.InOp]
  | logWriteCheck p =>
      rcases logWriteCheck_cases done with ⟨b, place, rfl⟩
      exact recorded.setPc fun _ => by simp [place, Pc.InOp]
  | logWriteAppend p =>
      rcases logWriteAppend_cases done with ⟨b, place, rfl⟩
      intro q inside block member
      by_cases here : q = p
      · subst here
        simp only [Function.update_self, List.mem_cons] at member
        refine List.mem_cons.mpr (member.imp_right fun old => ?_)
        exact recorded q (by simp [place, Pc.InOp]) block old
      · simp only [System.setPc, Function.update_of_ne here] at inside member
        exact List.mem_cons_of_mem _ (recorded q inside block member)
  | endOp p =>
      rcases endOp_cases done with ⟨-, -, ⟨-, rfl⟩ | ⟨-, rfl⟩⟩
      · have same : Recorded (system.setLog { system.store.log with
            outstanding := 0, committing := true }) := recorded
        exact same.setPc False.elim
      · refine Recorded.setPc ?_ False.elim
        exact recorded.of_same (fun q inside => ⟨(wake_inOp _).mp inside, rfl⟩) rfl
  | commitStep p =>
      rcases commitStep_cases done with ⟨rest, later, store, -, -, rfl⟩
      have same : Recorded { system with store := store } := recorded
      exact same.setPc False.elim
  | endOpReturn p =>
      rcases endOpReturn_cases done with ⟨value, place, rfl⟩
      have idle := (invariant.exclusive p (Pc.commits_iff.mpr ⟨_, place⟩)).2.1
      intro q inside
      simp only [System.setPc, System.wakeup, System.setLog, Function.update_apply] at inside
      split at inside
      · exact inside.elim
      · exact absurd ((wake_inOp _).mp inside) (idle q)
  | buffer p use =>
      rcases bufferStep_cases done with ⟨-, inOp, store, -, -, rfl⟩
      exact recorded

theorem Started.recorded (started : Started start) : Recorded start := by
  intro p inside
  simp [started.outside p, Pc.InOp] at inside

/-! ## Room for the reservations -/

variable {active : Finset Pid}

/-- What the operations under way may still log fits with what the group has
logged, and leaves one block of the log's data blocks over. -/
structure Headroom (bound : Nat) (system : System) (active : Finset Pid) : Prop where
  members : ∀ p, p ∈ active ↔ (system.pc p).InOp
  fits : system.group.toFinset.card + ∑ p ∈ active, (bound - system.logged p) ≤ logSize - 2

theorem Headroom.congr (room : Headroom bound system active)
    (same : ∀ q, (next.pc q).InOp ↔ (system.pc q).InOp) (record : next.record = system.record)
    (group : next.group = system.group) : Headroom bound next active := by
  refine ⟨fun q => (room.members q).trans (same q).symm, ?_⟩
  simp only [System.logged, record, group]
  exact room.fits

theorem Headroom.count (room : Headroom bound system active) (counted : Counted system) :
    system.store.log.outstanding = active.card := by
  rcases counted with ⟨others, members, count⟩
  have same : active = others := by
    ext p
    exact (room.members p).trans (members p).symm
  rw [same, count]

/-- An operation that `begin_op` admits has room for its blocks, as
`maxOpBlocks` of them are more than it will log. -/
theorem Headroom.enter (room : Headroom bound system active) (few : bound < maxOpBlocks)
    (admitted : system.group.toFinset.card + (active.card + 1) * maxOpBlocks ≤ logSize)
    (first : active = ∅ → system.group = []) (before : ¬(system.pc p).InOp)
    (after : (next.pc p).InOp) (same : ∀ q, q ≠ p → ((next.pc q).InOp ↔ (system.pc q).InOp))
    (record : next.record = Function.update system.record p [])
    (group : next.group = system.group) : Headroom bound next (insert p active) := by
  have absent : p ∉ active := fun member => before ((room.members p).mp member)
  have fresh : next.logged p = 0 := by simp [System.logged, record]
  have others : ∀ q ∈ active, bound - next.logged q ≤ bound := fun q _ => Nat.sub_le _ _
  have most : ∑ q ∈ active, (bound - next.logged q) ≤ active.card * bound := by
    simpa using Finset.sum_le_card_nsmul active _ bound others
  constructor
  · intro q
    by_cases here : q = p
    · subst here
      simp [after]
    · simp [here, room.members, same q here]
  · rw [Finset.sum_insert absent, fresh, group]
    have ten : maxOpBlocks = 10 := rfl
    have thirty : logSize = 30 := rfl
    rw [ten, thirty] at admitted
    have less : active.card * bound ≤ active.card * 9 :=
      Nat.mul_le_mul_left _ (Nat.le_of_lt_succ few)
    rcases active.eq_empty_or_nonempty with none | some
    · -- the group is empty: the last `end_op` has committed it
      rw [first none, none] at *
      simp only [List.toFinset_nil, Finset.card_empty, Finset.sum_empty]
      omega
    · have positive := Finset.card_pos.mpr some
      omega

/-- A block that is new to the operation takes one of its reserved ones; one
that it has logged before is in the group already. -/
theorem Headroom.append {block : Nat} (room : Headroom bound system active)
    (recorded : Recorded system)
    (inside : (system.pc p).InOp)
    (few : (block :: system.record p).toFinset.card ≤ bound)
    (same : ∀ q, (next.pc q).InOp ↔ (system.pc q).InOp)
    (record : next.record = Function.update system.record p (block :: system.record p))
    (group : next.group = block :: system.group) : Headroom bound next active := by
  refine ⟨fun q => (room.members q).trans (same q).symm, ?_⟩
  have member : p ∈ active := (room.members p).mpr inside
  have mine : next.logged p = (block :: system.record p).toFinset.card := by
    simp [System.logged, record]
  have others : ∑ q ∈ active.erase p, (bound - next.logged q) =
      ∑ q ∈ active.erase p, (bound - system.logged q) := by
    refine Finset.sum_congr rfl fun q other => ?_
    simp only [System.logged, record, Function.update_of_ne (Finset.ne_of_mem_erase other)]
  have before := room.fits
  rw [← Finset.add_sum_erase active _ member] at before ⊢
  rw [others, mine, group]
  have logged : system.logged p = (system.record p).toFinset.card := rfl
  rw [List.toFinset_cons] at few ⊢
  rw [List.toFinset_cons]
  by_cases old : block ∈ system.record p
  · rw [Finset.insert_eq_of_mem (List.mem_toFinset.mpr (recorded p inside block old)),
      Finset.insert_eq_of_mem (List.mem_toFinset.mpr old)]
    exact before
  · have more := Finset.card_insert_le block system.group.toFinset
    rw [Finset.card_insert_of_notMem (fun there => old (List.mem_toFinset.mp there))] at few ⊢
    omega

theorem Headroom.leave (room : Headroom bound system active) (after : ¬(next.pc p).InOp)
    (same : ∀ q, q ≠ p → ((next.pc q).InOp ↔ (system.pc q).InOp))
    (record : next.record = system.record) (group : next.group = system.group) :
    Headroom bound next (active.erase p) := by
  constructor
  · intro q
    by_cases here : q = p
    · subst here
      simp [after]
    · simp [here, room.members, same q here]
  · have fewer : ∑ q ∈ active.erase p, (bound - system.logged q) ≤
        ∑ q ∈ active, (bound - system.logged q) :=
      Finset.sum_le_sum_of_subset (Finset.erase_subset p active)
    have before := room.fits
    simp only [System.logged, record, group] at fewer before ⊢
    omega

/-! ## Every step keeps the room -/

/-- The reservations in a run whose operations log at most `bound` blocks. -/
structure Reserved (bound : Nat) (system : System) : Prop where
  recorded : Recorded system
  room : ∃ active, Headroom bound system active
  logging : ∀ p b, system.pc p = .sized b ∨ system.pc p = .checked b →
    system.logging p b ≤ bound
  empty : system.store.log.committing = false → system.store.log.outstanding = 0 →
    system.group = []

theorem Pc.inOp_of_logging {pc : Pc} (place : pc = .sized b ∨ pc = .checked b) : pc.InOp := by
  rcases place with rfl | rfl <;> trivial

/-- A process moves on without touching the store or starting an operation. -/
theorem Reserved.setPc (reserved : Reserved bound system) (pc : Pc)
    (same : pc.InOp ↔ (system.pc p).InOp)
    (logging : ∀ b, pc = .sized b ∨ pc = .checked b → system.logging p b ≤ bound) :
    Reserved bound (system.setPc p pc) := by
  rcases reserved.room with ⟨active, room⟩
  refine ⟨reserved.recorded.setPc same.mp, ⟨active, room.congr ?_ rfl rfl⟩, ?_, reserved.empty⟩
  · intro q
    rw [System.setPc_pc]
    split
    · rename_i here
      rw [here]
      exact same
    · exact Iff.rfl
  · intro q b place
    rw [System.setPc_pc] at place
    split at place
    · rename_i here
      rw [here]
      exact logging b place
    · exact reserved.logging q b place

theorem Reserved.beginOp (reserved : Reserved bound system) (few : bound < maxOpBlocks)
    (invariant : LogInvariant system) (done : beginOp p system = .done () next) :
    Reserved bound next := by
  have recorded := reserved.recorded.step invariant (.beginOp p) done
  rcases beginOp_cases done with ⟨place, rfl | ⟨free, admitted, rfl⟩⟩
  · refine reserved.setPc _ ?_ (by simp)
    rcases place with place | place <;> simp [place, Pc.InOp]
  rcases reserved.room with ⟨active, room⟩
  have count := room.count invariant.counted
  refine ⟨recorded, ⟨insert p active, room.enter few ?_ ?_ ?_ ?_ ?_ rfl rfl⟩, ?_, ?_⟩
  · rw [(invariant.quiet free).count]
    rw [count] at admitted
    exact_mod_cast admitted
  · intro none
    exact reserved.empty free (by simp [count, none])
  · rcases place with place | place <;> simp [place, Pc.InOp]
  · simp [System.setPc, Pc.InOp]
  · intro q different
    simp [System.setPc, System.setLog, different]
  · intro q b at'
    simp only [System.setPc, System.setLog, Function.update_apply] at at'
    split at at'
    · simp at at'
    · rename_i different
      have before := reserved.logging q b at'
      simpa [System.logging, System.setPc, System.setLog, different] using before
  · intro _ nobody
    simp only [System.setPc, System.setLog, count] at nobody
    omega

theorem Reserved.logWriteAppend (reserved : Reserved bound system)
    (invariant : LogInvariant system) (done : logWriteAppend p system = .done () next) :
    Reserved bound next := by
  have recorded := reserved.recorded.step invariant (.logWriteAppend p) done
  rcases logWriteAppend_cases done with ⟨b, place, rfl⟩
  have inside : (system.pc p).InOp := by simp [place, Pc.InOp]
  have few := reserved.logging p b (Or.inr place)
  rcases reserved.room with ⟨active, room⟩
  refine ⟨recorded, ⟨active, room.append reserved.recorded inside few ?_ rfl rfl⟩, ?_, ?_⟩
  · intro q
    simp only [System.setPc, Function.update_apply]
    split
    · rename_i here
      exact iff_of_true trivial (here ▸ inside)
    · exact Iff.rfl
  · intro q a at'
    simp only [System.setPc, Function.update_apply] at at'
    split at at'
    · simp at at'
    · rename_i different
      have before := reserved.logging q a at'
      have number : ((system.store.setBuf b
          { system.store.buf b with dirty := true }).buf a).blockno =
          (system.store.buf a).blockno := by
        by_cases same : a = b
        · subst same
          simp
        · rw [Store.setBuf_of_ne _ _ same]
      simpa only [System.logging, System.setPc, Function.update_of_ne different, number]
        using before
  · intro _ nobody
    have positive := invariant.counted.positive inside
    simp only at nobody
    omega

theorem Reserved.endOp (reserved : Reserved bound system) (invariant : LogInvariant system)
    (done : endOp p system = .done () next) : Reserved bound next := by
  have recorded := reserved.recorded.step invariant (.endOp p) done
  rcases reserved.room with ⟨active, room⟩
  rcases endOp_cases done with ⟨place, free, ⟨last, rfl⟩ | ⟨more, rfl⟩⟩
  · refine ⟨recorded, ⟨active.erase p, room.leave ?_ ?_ rfl rfl⟩, ?_, ?_⟩
    · simp [System.setPc, Pc.InOp]
    · intro q different
      simp [System.setPc, System.setLog, different]
    · intro q b at'
      rw [System.setPc_pc] at at'
      split at at'
      · simp at at'
      · exact reserved.logging q b at'
    · intro busy
      simp [System.setPc, System.setLog] at busy
  · refine ⟨recorded, ⟨active.erase p, room.leave ?_ ?_ rfl rfl⟩, ?_, ?_⟩
    · simp [System.setPc, Pc.InOp]
    · intro q different
      simp [System.setPc, System.wakeup, System.setLog, different, wake_inOp]
    · intro q b at'
      simp only [System.setPc, System.wakeup, System.setLog, Function.update_apply] at at'
      split at at'
      · simp at at'
      · refine reserved.logging q b (at'.imp (fun at' => ?_) fun at' => ?_)
        · exact wake_eq at' (by simp)
        · exact wake_eq at' (by simp)
    · intro _ nobody
      simp only [System.setPc, System.wakeup, System.setLog] at nobody
      omega

/-- While a commit is under way there is no operation to keep room for. -/
theorem Reserved.of_commit {q : Pid} (recorded : Recorded next) (invariant : LogInvariant next)
    (commits : (next.pc q).Commits) (fits : next.group.toFinset.card ≤ logSize - 2) :
    Reserved bound next := by
  rcases invariant.exclusive q commits with ⟨busy, idle, -⟩
  refine ⟨recorded, ⟨∅, fun p => by simp [idle p], by simpa using fits⟩, ?_, ?_⟩
  · exact fun p b place => absurd (Pc.inOp_of_logging place) (idle p)
  · simp [busy]

theorem Reserved.fits (reserved : Reserved bound system) :
    system.group.toFinset.card ≤ logSize - 2 := by
  rcases reserved.room with ⟨active, room⟩
  exact Nat.le_trans (Nat.le_add_right _ _) room.fits

theorem Reserved.endOpReturn (reserved : Reserved bound system) (invariant : LogInvariant system)
    (done : endOpReturn p system = .done () next) : Reserved bound next := by
  have recorded := reserved.recorded.step invariant (.endOpReturn p) done
  rcases endOpReturn_cases done with ⟨value, place, rfl⟩
  have idle := (invariant.exclusive p (Pc.commits_iff.mpr ⟨_, place⟩)).2.1
  have outside : ∀ q, ¬(Function.update (fun q => wake (system.pc q)) p .outside q).InOp := by
    intro q
    rw [Function.update_apply]
    split
    · exact id
    · rw [wake_inOp]
      exact idle q
  refine ⟨recorded, ⟨∅, fun q => iff_of_false (by simp) (outside q), by simp⟩, ?_, fun _ _ => rfl⟩
  exact fun q b at' => absurd (Pc.inOp_of_logging at') (outside q)

theorem Reserved.buffer {use : Use} (reserved : Reserved bound system)
    (invariant : LogInvariant system) (done : bufferStep p use system = .done () next) :
    Reserved bound next := by
  have recorded := reserved.recorded.step invariant (.buffer p use) done
  rcases bufferStep_cases done with ⟨place, inOp, store, -, ran, rfl⟩
  have log := useBuffer_log ran
  rcases reserved.room with ⟨active, room⟩
  refine ⟨recorded, ⟨active, room.congr (fun _ => Iff.rfl) rfl rfl⟩, ?_, ?_⟩
  · intro q a at'
    have different : q ≠ p := by
      rintro rfl
      rcases place with place | place <;> simp [place] at at'
    have inside : (system.pc q).InOp := Pc.inOp_of_logging at'
    have quiet := invariant.quiet (invariant.not_committing inside)
    have before := invariant.logging q a at'
    -- the buffer that `q` logs is locked, so it keeps its block
    have kept := ((Used.of_useBuffer quiet.cache ran).held q different a before.lock).2
    rcases Buf.core_eq kept with ⟨-, -, -, number, -⟩
    simpa only [System.logging, number] using reserved.logging q a at'
  · simpa only [log] using reserved.empty

theorem Reserved.step (reserved : Reserved bound system) (few : bound < maxOpBlocks)
    (invariant : LogInvariant system) (stepped : system.reservedNext bound event = some next) :
    Reserved bound next := by
  obtain ⟨plain, within⟩ := System.reserved_cases stepped
  have done := System.next_eq plain
  cases event with
  | beginOp p => exact reserved.beginOp few invariant done
  | logWrite p b =>
      rcases logWrite_cases done with ⟨place, -, rfl⟩
      refine reserved.setPc _ (by simp [place, Pc.InOp]) ?_
      intro other same
      simp only [Pc.sized.injEq, reduceCtorEq, or_false] at same
      exact same ▸ within p b rfl
  | logWriteCheck p =>
      rcases logWriteCheck_cases done with ⟨b, place, rfl⟩
      refine reserved.setPc _ (by simp [place, Pc.InOp]) ?_
      intro other same
      simp only [Pc.checked.injEq, reduceCtorEq, false_or] at same
      exact same ▸ reserved.logging p b (Or.inl place)
  | logWriteAppend p => exact reserved.logWriteAppend invariant done
  | endOp p => exact reserved.endOp invariant done
  | commitStep p =>
      have after := invariant.step done
      have recorded := reserved.recorded.step invariant _ done
      rcases commitStep_cases done with ⟨rest, later, store, -, -, rfl⟩
      exact Reserved.of_commit recorded after (q := p) (by simp [System.setPc, Pc.Commits])
        reserved.fits
  | endOpReturn p => exact reserved.endOpReturn invariant done
  | buffer p use => exact reserved.buffer invariant done

theorem Started.reserved (started : Started start) : Reserved bound start := by
  refine ⟨started.recorded, ⟨∅, ?_, ?_⟩, ?_, fun _ _ => started.group⟩
  · intro p
    simp [started.outside p, Pc.InOp]
  · simp [started.group]
  · intro p b place
    simp [started.outside p] at place

theorem Started.reserved_run (started : Started start) (few : bound < maxOpBlocks)
    (ran : runs (System.reservedNext bound) start events = some system) :
    Reserved bound system := by
  refine (runs_invariant (fun _ current => LogInvariant current ∧ Reserved bound current)
    ⟨started.invariant, started.reserved⟩ ?_ ran).2
  rintro past current event after ⟨invariant, reserved⟩ stepped
  have done := System.next_eq (System.reserved_cases stepped).1
  exact ⟨invariant.step done, reserved.step few invariant stepped⟩

/-! ## Which reservations suffice -/

/-- `log_write` panics exactly when the group has filled the data blocks. -/
theorem logWrite_panics_iff (invariant : LogInvariant system)
    (size : system.store.log.size = logSize) (calls : Calls bound p b system) :
    system.reservedStep bound (.logWrite p b) = .panic "too big a transaction" ↔
      logSize - 1 ≤ system.group.toFinset.card := by
  have inside : (system.pc p).InOp := by simp [calls.inside, Pc.InOp]
  have quiet := invariant.quiet (invariant.not_committing inside)
  have held : (system.store.buf b).lock = some p ∧ (system.store.buf b).valid = true ∧
      (system.store.buf b).dev = rootDev ∧ ¬system.store.log.Owns (system.store.buf b).blockno :=
    ⟨calls.logging.lock, calls.logging.valid, calls.logging.dev, calls.logging.home⟩
  have thirty : logSize = 30 := rfl
  have test : (logSize ≤ system.store.log.lh.n ∨
      (system.store.log.size : Int) - 1 ≤ system.store.log.lh.n) ↔
      logSize - 1 ≤ system.group.toFinset.card := by
    rw [quiet.count]
    omega
  simp only [System.reservedStep, if_pos calls.reserved, System.step, logWrite, calls.inside,
    if_pos held]
  by_cases full : logSize - 1 ≤ system.group.toFinset.card
  · rw [if_pos (test.mpr full)]
    exact iff_of_true rfl full
  · rw [if_neg fun large => full (test.mp large)]
    exact iff_of_false (by simp) full

/-- A call that the process cannot make does not panic. -/
theorem calls_of_panic {message : String}
    (panics : system.reservedStep bound (.logWrite p b) = .panic message) :
    Calls bound p b system := by
  simp only [System.reservedStep] at panics
  split at panics
  · rename_i reserved
    simp only [System.step, logWrite] at panics
    split at panics
    · rename_i place
      split at panics
      · rename_i held
        exact ⟨place, ⟨held.1, held.2.1, held.2.2.1, held.2.2.2⟩, reserved⟩
      · cases panics
    · cases panics
  · cases panics

/-- Three operations are admitted; two log ten blocks, the third logs nine and
reads its tenth. -/
def filledLog : List Event :=
  [.beginOp 1, .beginOp 2, .beginOp 3] ++
    (List.range 29).flatMap (fun i => logBlock (1 + i / maxOpBlocks) i) ++
    [.buffer 3 (.scan 129), .buffer 3 (.acquire (bufferAt 29)), .buffer 3 (.fetch (bufferAt 29))]

def filledSystem : System :=
  (runs (System.reservedNext maxOpBlocks) idleSystem filledLog).getD idleSystem

theorem filledLog_runs :
    runs (System.reservedNext maxOpBlocks) idleSystem filledLog = some filledSystem :=
  runs_getD (by decide +kernel) idleSystem

theorem filledSystem_reserved : filledSystem.logging 3 (bufferAt 29) ≤ maxOpBlocks := by
  decide +kernel

theorem filledSystem_panics :
    filledSystem.step (.logWrite 3 (bufferAt 29)) = .panic "too big a transaction" :=
  Outcome.panic_of_message (by decide +kernel)

/-- Three admitted operations of ten blocks each do not fit. -/
theorem not_neverTooBig (many : maxOpBlocks ≤ bound) :
    ¬NeverTooBig bound idleSystem (filledLog ++ [.logWrite 3 (bufferAt 29)]) := by
  intro never
  refine never filledLog 3 (bufferAt 29) [] rfl filledSystem
    (runs_reserved_mono many filledLog_runs) ?_
  rw [System.reserved_logWrite (Nat.le_trans filledSystem_reserved many)]
  exact filledSystem_panics

/-- What `begin_op` admits has room in the log, in every run of any number of
operations that log at most `bound` distinct blocks each, if and only if that
is less than the `maxOpBlocks` which `begin_op` counts for each. -/
theorem admission_iff (bound : Nat) :
    (∀ start, Started start → start.store.log.size = logSize →
      ∀ events, NeverTooBig bound start events) ↔ bound < maxOpBlocks := by
  constructor
  · intro sufficient
    by_contra many
    exact not_neverTooBig (Nat.le_of_not_lt many) (sufficient idleSystem idleSystem_started rfl _)
  · intro few start started size events past p b rest split system ran panics
    have plain := runs_reserved ran
    have same := (size_run started.invariant plain).trans size
    have full := (logWrite_panics_iff (started.invariant.run plain) same
      (calls_of_panic panics)).mp panics
    have fits := (started.reserved_run few ran).fits
    have thirty : logSize = 30 := rfl
    omega

/-- Three operations are admitted and log nine blocks each. -/
def nineEach : List Event :=
  [.beginOp 1, .beginOp 2, .beginOp 3] ++
    (List.range 27).flatMap (fun i => logBlock (1 + i / 9) i)

/-- They find room, with 27 blocks logged in the end. -/
theorem admission_nine : NeverTooBig 9 idleSystem nineEach ∧
    (runs (System.reservedNext 9) idleSystem nineEach).map
      (fun system => system.group.toFinset.card) = some 27 :=
  ⟨(admission_iff 9).mpr (by decide) idleSystem idleSystem_started rfl nineEach, by decide +kernel⟩

/-- The reservation of `maxOpBlocks` itself does not suffice. -/
theorem admission_fails : ¬∀ start, Started start → start.store.log.size = logSize →
    ∀ events, NeverTooBig maxOpBlocks start events :=
  fun sufficient => not_neverTooBig (Nat.le_refl _)
    (sufficient idleSystem idleSystem_started rfl _)

end Xv6.Fs
