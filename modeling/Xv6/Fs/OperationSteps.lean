import Xv6.Fs.Operations

/-!
# What a step of an operation does

One lemma for each event that says all it can do, and what the uses of the
cache between the calls leave alone.
-/

namespace Xv6.Fs

open Xv6.Library

variable {p q : Pid} {b : BufPtr} {use : Use} {inOp : Bool} {store : Store}
  {system next : System}

/-! ## All a step can do -/

theorem beginOp_cases (done : beginOp p system = .done () next) :
    (system.pc p = .outside ∨ system.pc p = .waiting) ∧
      (next = system.setPc p .sleeping ∨
        system.store.log.committing = false ∧
          (system.store.log.lh.n : Int) + (system.store.log.outstanding + 1) * maxOpBlocks ≤ logSize ∧
          next = { (system.setLog { system.store.log with
              outstanding := system.store.log.outstanding + 1 }).setPc p .inside with
            record := Function.update system.record p [] }) := by
  have tested : ∀ result, (if system.store.log.committing = true then
        Outcome.done () (system.setPc p .sleeping)
      else if (system.store.log.lh.n : Int) + (system.store.log.outstanding + 1) * maxOpBlocks >
          logSize then .done () (system.setPc p .sleeping)
      else .done () result) = .done () next →
      next = system.setPc p .sleeping ∨ system.store.log.committing = false ∧
        (system.store.log.lh.n : Int) + (system.store.log.outstanding + 1) * maxOpBlocks ≤ logSize ∧
        next = result := by
    intro result tests
    by_cases busy : system.store.log.committing = true
    · rw [if_pos busy] at tests
      simp only [Outcome.done.injEq, true_and] at tests
      exact Or.inl tests.symm
    rw [if_neg busy] at tests
    by_cases full : (system.store.log.lh.n : Int) +
        (system.store.log.outstanding + 1) * maxOpBlocks > logSize
    · rw [if_pos full] at tests
      simp only [Outcome.done.injEq, true_and] at tests
      exact Or.inl tests.symm
    · rw [if_neg full] at tests
      simp only [Outcome.done.injEq, true_and] at tests
      exact Or.inr ⟨Bool.eq_false_of_not_eq_true busy, Int.not_lt.mp full, tests.symm⟩
  simp only [beginOp] at done
  split at done
  · rename_i place
    exact ⟨Or.inl place, tested _ done⟩
  · rename_i place
    exact ⟨Or.inr place, tested _ done⟩
  · cases done

theorem endOp_cases (done : endOp p system = .done () next) :
    system.pc p = .inside ∧ system.store.log.committing = false ∧
      (system.store.log.outstanding = 1 ∧
        next = (system.setLog { system.store.log with
          outstanding := 0, committing := true }).setPc p (.committing (commit p)) ∨
      system.store.log.outstanding ≠ 1 ∧
        next = (system.setLog { system.store.log with
          outstanding := system.store.log.outstanding - 1 }).wakeup.setPc p .outside) := by
  simp only [endOp] at done
  split at done
  swap
  · cases done
  rename_i place
  by_cases busy : system.store.log.committing = true
  · simp [busy] at done
  rw [if_neg busy] at done
  refine ⟨place, Bool.eq_false_of_not_eq_true busy, ?_⟩
  by_cases last : system.store.log.outstanding - 1 = 0
  · rw [if_pos last] at done
    simp only [Outcome.done.injEq, true_and, last] at done
    exact Or.inl ⟨by omega, done.symm⟩
  · rw [if_neg last] at done
    simp only [Outcome.done.injEq, true_and] at done
    exact Or.inr ⟨by omega, done.symm⟩

/-- `end_op` leaves the header to the commit. -/
theorem endOp_header (done : endOp p system = .done () next) :
    next.store.log.lh = system.store.log.lh := by
  rcases endOp_cases done with ⟨-, -, ⟨-, rfl⟩ | ⟨-, rfl⟩⟩ <;> rfl

theorem endOp_buf (done : endOp p system = .done () next) :
    next.store.buf = system.store.buf := by
  rcases endOp_cases done with ⟨-, -, ⟨-, rfl⟩ | ⟨-, rfl⟩⟩ <;> rfl

theorem endOpReturn_cases (done : endOpReturn p system = .done () next) :
    ∃ value, system.pc p = .committing (.ret value) ∧
      next = { (system.setLog { system.store.log with committing := false }).wakeup.setPc p .outside
        with group := [] } := by
  unfold endOpReturn at done
  split at done
  · rename_i value place
    simp only [Outcome.done.injEq, true_and] at done
    exact ⟨value, place, done.symm⟩
  · cases done

theorem commitStep_cases (done : commitStep p system = .done () next) :
    ∃ rest later store, system.pc p = .committing rest ∧
      rest.step system.store = .done later store ∧
      next = { system with store := store }.setPc p (.committing later) := by
  unfold commitStep at done
  split at done
  · rename_i rest place
    split at done
    · cases done
    · cases done
    · rename_i later store stepped
      simp only [Outcome.done.injEq, true_and] at done
      exact ⟨rest, later, store, place, stepped, done.symm⟩
  · cases done

/-- A buffer `log_write` may be called with. -/
structure Logging (p : Pid) (b : BufPtr) (store : Store) : Prop where
  lock : (store.buf b).lock = some p
  valid : (store.buf b).valid = true
  dev : (store.buf b).dev = rootDev
  home : ¬store.log.Owns (store.buf b).blockno

theorem logWrite_cases (done : logWrite p b system = .done () next) :
    system.pc p = .inside ∧ Logging p b system.store ∧ next = system.setPc p (.sized b) := by
  simp only [logWrite] at done
  split at done
  · rename_i place
    split at done
    · rename_i held
      split at done
      · cases done
      · simp only [Outcome.done.injEq, true_and] at done
        exact ⟨place, ⟨held.1, held.2.1, held.2.2.1, held.2.2.2⟩, done.symm⟩
    · cases done
  · cases done

theorem logWriteCheck_cases (done : logWriteCheck p system = .done () next) :
    ∃ b, system.pc p = .sized b ∧ next = system.setPc p (.checked b) := by
  unfold logWriteCheck at done
  split at done
  · rename_i b place
    split at done
    · cases done
    · simp only [Outcome.done.injEq, true_and] at done
      exact ⟨b, place, done.symm⟩
  · cases done

theorem logWriteAppend_cases (done : logWriteAppend p system = .done () next) :
    ∃ b, system.pc p = .checked b ∧
      next = { system.setPc p .inside with
        store := { system.store.setBuf b { system.store.buf b with dirty := true } with
          log := { system.store.log with
            lh := system.store.log.lh.append (system.store.buf b).blockno } }
        record := Function.update system.record p
          ((system.store.buf b).blockno :: system.record p)
        group := (system.store.buf b).blockno :: system.group } := by
  simp only [logWriteAppend] at done
  split at done
  · rename_i b place
    split at done
    · cases done
    · simp only [Outcome.done.injEq, true_and] at done
      exact ⟨b, place, done.symm⟩
  · cases done

theorem bufferStep_cases (done : bufferStep p use system = .done () next) :
    (system.pc p = .outside ∨ system.pc p = .inside) ∧
      ∃ inOp store, (inOp = true → system.pc p = .inside) ∧
        useBuffer p inOp system.store use = .done () store ∧ next = { system with store := store } := by
  simp only [bufferStep] at done
  split at done
  · rename_i place
    rcases Outcome.mapState_done done with ⟨store, ran, rfl⟩
    exact ⟨Or.inl place, false, store, by simp, ran, rfl⟩
  · rename_i place
    rcases Outcome.mapState_done done with ⟨store, ran, rfl⟩
    exact ⟨Or.inr place, true, store, fun _ => place, ran, rfl⟩
  · cases done

/-! ## Buffers between the calls -/

variable {later : Store} {filling : Option BufPtr}

/-- Reading never disturbs another process. -/
theorem Others.of_useBuffer (different : p ≠ q) (ok : CacheOk filling store)
    (done : useBuffer p inOp store use = .done () later)
    (reads : ∀ b data, use = .modify b data → inOp = false) : Others q store later := by
  cases use with
  | scan blockno =>
      simp only [useBuffer] at done
      cases outcome : bgetScan p rootDev blockno store with
      | blocked => simp [outcome] at done
      | panic message => simp [outcome] at done
      | done b next =>
          simp only [outcome, Outcome.done.injEq, true_and] at done
          subst done
          exact Others.of_bgetScan ok outcome
  | acquire b =>
      simp only [useBuffer] at done
      split at done
      · rename_i referenced
        exact Others.of_acquiresleep different referenced done
      · cases done
  | fetch b =>
      simp only [useBuffer] at done
      split at done
      · rename_i held
        exact Others.of_fetch different held.1 ok held.2 done
      · cases done
  | modify b data => simp [useBuffer, reads b data rfl] at done
  | release b =>
      simp only [useBuffer] at done
      split at done
      · rename_i held
        exact Others.of_releasesleep different held done
      · cases done
  | put b =>
      simp only [useBuffer] at done
      split at done
      · rename_i held
        exact Others.of_bput different held.2 done
      · cases done

/-- What any use of the cache by `p` leaves alone. -/
structure Used (p : Pid) (store later : Store) : Prop where
  log : later.log = store.log
  disk : later.disk = store.disk
  cache : CacheOk none store → CacheOk none later
  dirty : ∀ b, (store.buf b).dirty = true →
    (later.buf b).dirty = true ∧ (later.buf b).blockno = (store.buf b).blockno
  held : ∀ q, q ≠ p → ∀ b, (store.buf b).lock = some q →
    (later.buf b).lock = some q ∧ (later.buf b).core = (store.buf b).core

theorem Used.of_others (others : ∀ q, q ≠ p → Others q store later) : Used p store later := by
  have other := others (p + 1) (Nat.succ_ne_self p)
  refine ⟨other.log, other.disk, other.cache none, ?_, fun q different => (others q different).held⟩
  intro b dirty
  rcases Buf.core_eq (other.dirty b dirty) with ⟨-, dirty', -, blockno, -⟩
  exact ⟨dirty'.trans dirty, blockno⟩

theorem Used.of_modify {data : Block} (held : (store.buf b).lock = some p)
    (home : ¬store.log.Owns (store.buf b).blockno) :
    Used p store (store.setBuf b { store.buf b with data := data }) := by
  refine ⟨rfl, rfl, ?_, ?_, ?_⟩
  · intro ok
    apply ok.setBuf
    · exact fun device => ok.other_block device
    · exact ok.holder b
    · exact ok.dirty b
    · exact ok.range b
    · exact fun _ _ _ owned => absurd owned home
  · intro a dirty
    by_cases same : a = b
    · subst same
      simpa using dirty
    · rw [Store.setBuf_of_ne _ _ same]
      exact ⟨dirty, rfl⟩
  · intro q different a lock
    have apart : a ≠ b := by
      rintro rfl
      rw [held] at lock
      exact different (Option.some.inj lock).symm
    rw [Store.setBuf_of_ne _ _ apart]
    exact ⟨lock, rfl⟩

theorem Used.of_useBuffer (ok : CacheOk none store)
    (done : useBuffer p inOp store use = .done () later) : Used p store later := by
  by_cases modifies : ∃ b data, use = .modify b data
  · rcases modifies with ⟨b, data, rfl⟩
    simp only [useBuffer] at done
    split at done
    · rename_i allowed
      simp only [Outcome.done.injEq, true_and] at done
      subst done
      exact Used.of_modify allowed.2.1 allowed.2.2
    · cases done
  · apply Used.of_others
    intro q different
    exact Others.of_useBuffer different.symm ok done
      fun b data same => absurd ⟨b, data, same⟩ modifies

/-! ## The header in memory -/

theorem LogHeader.place_cases (lh : LogHeader) (blockno : Nat) :
    (lh.place blockno < lh.n ∧ lh.block (lh.place blockno) = blockno) ∨
      (lh.place blockno = lh.n ∧ blockno ∉ lh.logged) := by
  unfold place
  cases found : (List.range lh.n).find? fun i => lh.block i == blockno with
  | some i =>
      have inside := List.mem_range.mp (List.mem_of_find?_eq_some found)
      have same := List.find?_some found
      simp only [beq_iff_eq] at same
      exact Or.inl ⟨inside, same⟩
  | none =>
      refine Or.inr ⟨rfl, ?_⟩
      intro member
      rcases LogHeader.mem_logged.mp member with ⟨i, below, same⟩
      have absent := List.find?_eq_none.mp found i (List.mem_range.mpr below)
      simp [same] at absent

/-- A block that is already logged is absorbed. -/
theorem LogHeader.logged_append (lh : LogHeader) (blockno : Nat) :
    (lh.append blockno).logged =
      if blockno ∈ lh.logged then lh.logged else lh.logged ++ [blockno] := by
  rcases lh.place_cases blockno with ⟨inside, same⟩ | ⟨last, absent⟩
  · have member : blockno ∈ lh.logged := LogHeader.mem_logged.mpr ⟨_, inside, same⟩
    have unchanged : Function.update lh.block (lh.place blockno) blockno = lh.block := by
      rw [← same]
      simp only [same]
      exact Function.update_eq_self_iff.mpr same.symm
    rw [if_pos member]
    simp only [logged, append, unchanged, if_neg (Nat.ne_of_lt inside)]
  · rw [if_neg absent]
    simp only [logged, append, last, if_true, List.range_succ, List.map_append, List.map_cons,
      List.map_nil, Function.update_self]
    congr 1
    apply List.map_congr_left
    intro i membership
    have below := List.mem_range.mp membership
    exact Function.update_of_ne (Nat.ne_of_lt below) _ _

end Xv6.Fs
