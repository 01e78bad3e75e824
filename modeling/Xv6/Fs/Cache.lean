import Xv6.Fs.Bio

/-!
# What the buffer actions preserve

One lemma for each action that says all it can do; from these the cache
invariant, and what a process may rely on while others use the cache.
-/

namespace Xv6.Fs

open Xv6.Library

variable {p q : Pid} {b : BufPtr} {dev blockno : Nat} {filling : Option BufPtr}
  {store next : Store}

@[simp]
theorem Store.setBuf_same (store : Store) (b : BufPtr) (buffer : Buf) :
    (store.setBuf b buffer).buf b = buffer := by
  simp [Store.setBuf]

theorem Store.setBuf_of_ne (store : Store) {b other : BufPtr} (buffer : Buf)
    (different : other ≠ b) : (store.setBuf b buffer).buf other = store.buf other := by
  simp [Store.setBuf, different]

theorem Store.setBuf_setBuf (store : Store) (b : BufPtr) (first second : Buf) :
    (store.setBuf b first).setBuf b second = store.setBuf b second := by
  simp [Store.setBuf]

/-! ## All an action can do -/

theorem bgetScan_cases (done : bgetScan p dev blockno store = .done b next) :
    ((store.buf b).dev = dev ∧ (store.buf b).blockno = blockno ∧
      next = store.setBuf b { store.buf b with refs := p :: (store.buf b).refs }) ∨
    ((∀ a, (store.buf a).dev = dev → (store.buf a).blockno ≠ blockno) ∧
      (store.buf b).refs = [] ∧ (store.buf b).dirty = false ∧
      next = store.setBuf b
        { store.buf b with
          dev := dev, blockno := blockno, valid := false, dirty := false, refs := [p] }) := by
  unfold bgetScan at done
  split at done
  · rename_i found search
    simp only [Outcome.done.injEq] at done
    rcases done with ⟨rfl, rfl⟩
    have matching := List.find?_some search
    simp only [Bool.and_eq_true, beq_iff_eq] at matching
    exact Or.inl ⟨matching.1, matching.2, rfl⟩
  · rename_i missing
    split at done
    · rename_i unused search
      simp only [Outcome.done.injEq] at done
      rcases done with ⟨rfl, rfl⟩
      have clean := List.find?_some search
      simp only [Bool.and_eq_true, beq_iff_eq, Bool.not_eq_true', Buf.refcnt,
        List.length_eq_zero_iff] at clean
      refine Or.inr ⟨?_, clean.1, clean.2, rfl⟩
      intro a device same
      have absent := List.find?_eq_none.mp missing a (store.mru.complete a)
      simp [device, same] at absent
    · cases done

theorem acquiresleep_cases (done : acquiresleep p b store = .done () next) :
    (store.buf b).lock = none ∧ next = store.setBuf b { store.buf b with lock := some p } := by
  unfold acquiresleep at done
  cases lock : (store.buf b).lock with
  | some holder => simp [lock] at done
  | none =>
      simp only [lock, Outcome.done.injEq, true_and] at done
      exact ⟨rfl, done.symm⟩

theorem iderw_cases (done : iderw b store = .done () next) :
    (store.buf b).lock ≠ none ∧ (store.buf b).blockno < fsSize ∧
      (((store.buf b).dirty = true ∧
        next = { store.setBuf b { store.buf b with dirty := false, valid := true } with
          disk := Function.update store.disk (store.buf b).blockno (store.buf b).data
          written := (store.buf b).blockno :: store.written }) ∨
      ((store.buf b).dirty = false ∧ (store.buf b).valid = false ∧
        next = store.setBuf b
          { store.buf b with data := store.disk (store.buf b).blockno, valid := true })) := by
  simp only [iderw] at done
  by_cases locked : (store.buf b).lock = none
  · simp [locked] at done
  by_cases idle : ((store.buf b).valid && !(store.buf b).dirty) = true
  · rw [if_neg locked, if_pos idle] at done
    cases done
  by_cases device : (store.buf b).dev ≠ 1
  · rw [if_neg locked, if_neg idle, if_pos device] at done
    cases done
  by_cases outside : fsSize ≤ (store.buf b).blockno
  · rw [if_neg locked, if_neg idle, if_neg device, if_pos outside] at done
    cases done
  rw [if_neg locked, if_neg idle, if_neg device, if_neg outside] at done
  refine ⟨locked, Nat.lt_of_not_le outside, ?_⟩
  by_cases dirty : (store.buf b).dirty = true
  · rw [if_pos dirty] at done
    simp only [Outcome.done.injEq, true_and] at done
    exact Or.inl ⟨dirty, done.symm⟩
  · rw [if_neg dirty] at done
    simp only [Outcome.done.injEq, true_and] at done
    have clean := Bool.eq_false_of_not_eq_true dirty
    exact Or.inr ⟨clean, by simpa [clean] using idle, done.symm⟩

theorem bput_cases (done : bput p b store = .done () next) :
    ∃ mru, next = { store.setBuf b
      { store.buf b with refs := (store.buf b).refs.erase p } with mru := mru } := by
  simp only [bput, Outcome.done.injEq, true_and] at done
  exact ⟨_, done.symm⟩

/-! ## The cache invariant -/

theorem CacheOk.of_buf {other : Store} (ok : CacheOk filling store)
    (buf : other.buf = store.buf) (disk : other.disk = store.disk)
    (owns : other.log.Owns = store.log.Owns) : CacheOk filling other := by
  constructor
  · rw [buf]
    exact ok.unique
  · rw [buf]
    exact ok.holder
  · rw [buf]
    exact ok.dirty
  · rw [buf]
    exact ok.range
  · rw [buf, disk, owns]
    exact ok.coherent

/-- Replace one buffer by another that obeys the rules. -/
theorem CacheOk.setBuf (ok : CacheOk filling store) (buffer : Buf)
    (unique : buffer.dev = rootDev → ∀ a, a ≠ b → (store.buf a).dev = rootDev →
      (store.buf a).blockno ≠ buffer.blockno)
    (holder : ∀ p, buffer.lock = some p → p ∈ buffer.refs)
    (dirty : buffer.dirty = true → buffer.valid = true ∧ buffer.dev = rootDev)
    (range : buffer.valid = true → buffer.blockno < fsSize)
    (coherent : filling ≠ some b → buffer.valid = true → buffer.dev = rootDev →
      store.log.Owns buffer.blockno → buffer.data = store.disk buffer.blockno) :
    CacheOk filling (store.setBuf b buffer) := by
  constructor
  · intro a c
    by_cases first : a = b <;> by_cases second : c = b
    · simp [first, second]
    · subst first
      simp only [Store.setBuf_same, Store.setBuf_of_ne _ _ second]
      intro device other same
      exact absurd same.symm (unique device c second other)
    · subst second
      simp only [Store.setBuf_same, Store.setBuf_of_ne _ _ first]
      intro device other same
      exact absurd same (unique other a first device)
    · simp only [Store.setBuf_of_ne _ _ first, Store.setBuf_of_ne _ _ second]
      exact ok.unique a c
  · intro a p
    by_cases same : a = b
    · subst same
      simpa using holder p
    · simpa only [Store.setBuf_of_ne _ _ same] using ok.holder a p
  · intro a
    by_cases same : a = b
    · subst same
      simpa using dirty
    · simpa only [Store.setBuf_of_ne _ _ same] using ok.dirty a
  · intro a
    by_cases same : a = b
    · subst same
      simpa using range
    · simpa only [Store.setBuf_of_ne _ _ same] using ok.range a
  · intro a
    by_cases same : a = b
    · subst same
      simpa [Store.setBuf] using coherent
    · rw [Store.setBuf_of_ne _ _ same]
      exact ok.coherent a

theorem CacheOk.other_block (ok : CacheOk filling store) (device : (store.buf b).dev = rootDev)
    (a : BufPtr) (different : a ≠ b) (onRoot : (store.buf a).dev = rootDev) :
    (store.buf a).blockno ≠ (store.buf b).blockno :=
  fun same => different (ok.unique a b onRoot device same)

theorem CacheOk.unlocked (ok : CacheOk filling store) (unused : (store.buf b).refs = []) :
    (store.buf b).lock = none := by
  cases lock : (store.buf b).lock with
  | none => rfl
  | some holder =>
      have member := ok.holder b holder lock
      simp [unused] at member

theorem CacheOk.bgetScan (ok : CacheOk filling store)
    (done : bgetScan p dev blockno store = .done b next) : CacheOk filling next := by
  rcases bgetScan_cases done with ⟨-, -, rfl⟩ | ⟨missing, unused, -, rfl⟩
  · apply ok.setBuf
    · exact fun device => ok.other_block device
    · exact fun holder locked => List.mem_cons_of_mem _ (ok.holder b holder locked)
    · exact ok.dirty b
    · exact ok.range b
    · exact ok.coherent b
  · apply ok.setBuf
    · rintro rfl a - onRoot
      exact missing a onRoot
    · intro holder locked
      have free := ok.unlocked unused
      simp [free] at locked
    · simp
    · simp
    · simp

theorem CacheOk.acquiresleep (ok : CacheOk filling store) (referenced : p ∈ (store.buf b).refs)
    (done : acquiresleep p b store = .done () next) : CacheOk filling next := by
  rcases acquiresleep_cases done with ⟨-, rfl⟩
  apply ok.setBuf
  · exact fun device => ok.other_block device
  · rintro holder locked
    simp only [Option.some.injEq] at locked
    exact locked ▸ referenced
  · exact ok.dirty b
  · exact ok.range b
  · exact ok.coherent b

theorem CacheOk.releasesleep (ok : CacheOk filling store)
    (done : releasesleep b store = .done () next) : CacheOk filling next := by
  simp only [Fs.releasesleep, Outcome.done.injEq, true_and] at done
  subst done
  apply ok.setBuf
  · exact fun device => ok.other_block device
  · simp
  · exact ok.dirty b
  · exact ok.range b
  · exact ok.coherent b

/-- Reading an invalid buffer from disk. -/
theorem CacheOk.fetch (ok : CacheOk filling store) (invalid : (store.buf b).valid = false)
    (done : iderw b store = .done () next) : CacheOk filling next := by
  rcases (iderw_cases done).2.2 with ⟨dirty, -⟩ | ⟨clean, -, rfl⟩
  · have valid := (ok.dirty b dirty).1
    simp [invalid] at valid
  · apply ok.setBuf
    · exact fun device => ok.other_block device
    · exact ok.holder b
    · intro dirty
      simp [clean] at dirty
    · exact fun _ => (iderw_cases done).2.1
    · simp

theorem CacheOk.bput (ok : CacheOk filling store) (unheld : (store.buf b).lock ≠ some p)
    (done : bput p b store = .done () next) : CacheOk filling next := by
  rcases bput_cases done with ⟨mru, rfl⟩
  have dropped : CacheOk filling (store.setBuf b
      { store.buf b with refs := (store.buf b).refs.erase p }) := by
    apply ok.setBuf
    · exact fun device => ok.other_block device
    · intro holder locked
      have different : holder ≠ p := by
        rintro rfl
        exact unheld locked
      exact (List.mem_erase_of_ne different).mpr (ok.holder b holder locked)
    · exact ok.dirty b
    · exact ok.range b
    · exact ok.coherent b
  exact dropped.of_buf rfl rfl rfl

/-! ## What a process relies on -/

/-- The contents of a buffer, without the lock and the references. -/
def Buf.core (buffer : Buf) : Bool × Bool × Nat × Nat × Block :=
  (buffer.valid, buffer.dirty, buffer.dev, buffer.blockno, buffer.data)

/-- What process `p` may rely on while others use the cache and nobody is in an
operation. -/
structure Others (p : Pid) (store later : Store) : Prop where
  log : later.log = store.log
  disk : later.disk = store.disk
  written : later.written = store.written
  held : ∀ b, (store.buf b).lock = some p →
    (later.buf b).lock = some p ∧ (later.buf b).core = (store.buf b).core
  unheld : ∀ b, (store.buf b).lock ≠ some p → (later.buf b).lock ≠ some p
  referenced : ∀ b, p ∈ (store.buf b).refs → p ∈ (later.buf b).refs ∧
    (later.buf b).dev = (store.buf b).dev ∧ (later.buf b).blockno = (store.buf b).blockno
  dirty : ∀ b, (store.buf b).dirty = true → (later.buf b).core = (store.buf b).core
  cache : ∀ filling, CacheOk filling store → CacheOk filling later

theorem Others.refl (p : Pid) (store : Store) : Others p store store := by
  constructor <;> simp +contextual

theorem Others.trans {third : Store} (first : Others p store next) (second : Others p next third) :
    Others p store third := by
  constructor
  · exact second.log.trans first.log
  · exact second.disk.trans first.disk
  · exact second.written.trans first.written
  · intro b held
    rcases first.held b held with ⟨still, same⟩
    rcases second.held b still with ⟨yet, alike⟩
    exact ⟨yet, alike.trans same⟩
  · exact fun b unheld => second.unheld b (first.unheld b unheld)
  · intro b referenced
    rcases first.referenced b referenced with ⟨still, device, number⟩
    rcases second.referenced b still with ⟨yet, device', number'⟩
    exact ⟨yet, device'.trans device, number'.trans number⟩
  · intro b dirty
    have same := first.dirty b dirty
    have still : (next.buf b).dirty = true := by
      have flags := congrArg (fun core => core.2.1) same
      exact flags.trans dirty
    exact (second.dirty b still).trans same
  · exact fun filling ok => second.cache filling (first.cache filling ok)

/-- One buffer changes, in a way `p` does not notice. -/
theorem Others.setBuf (buffer : Buf)
    (held : (store.buf b).lock = some p → buffer.lock = some p ∧ buffer.core = (store.buf b).core)
    (unheld : (store.buf b).lock ≠ some p → buffer.lock ≠ some p)
    (referenced : p ∈ (store.buf b).refs → p ∈ buffer.refs ∧
      buffer.dev = (store.buf b).dev ∧ buffer.blockno = (store.buf b).blockno)
    (dirty : (store.buf b).dirty = true → buffer.core = (store.buf b).core)
    (cache : ∀ filling, CacheOk filling store → CacheOk filling (store.setBuf b buffer)) :
    Others p store (store.setBuf b buffer) := by
  have keep : ∀ fact : Buf → Buf → Prop, (∀ other, fact other other) →
      fact (store.buf b) buffer → ∀ a, fact (store.buf a) ((store.setBuf b buffer).buf a) := by
    intro fact same changed a
    by_cases here : a = b
    · subst here
      simpa using changed
    · simpa only [Store.setBuf_of_ne _ _ here] using same _
  constructor
  · rfl
  · rfl
  · rfl
  · exact keep (fun old new => old.lock = some p → new.lock = some p ∧ new.core = old.core)
      (by simp) held
  · exact keep (fun old new => old.lock ≠ some p → new.lock ≠ some p) (by simp) unheld
  · exact keep (fun old new => p ∈ old.refs → p ∈ new.refs ∧ new.dev = old.dev ∧
      new.blockno = old.blockno) (by simp) referenced
  · exact keep (fun old new => old.dirty = true → new.core = old.core) (by simp) dirty
  · exact cache

theorem Others.of_bgetScan (ok : CacheOk filling store)
    (done : bgetScan q dev blockno store = .done b next) : Others p store next := by
  have preserved : ∀ filling, CacheOk filling store → CacheOk filling next :=
    fun _ ok => ok.bgetScan done
  rcases bgetScan_cases done with ⟨-, -, rfl⟩ | ⟨-, unused, clean, rfl⟩
  · apply Others.setBuf
    · exact fun held => ⟨held, rfl⟩
    · exact fun unheld => unheld
    · exact fun referenced => ⟨List.mem_cons_of_mem _ referenced, rfl, rfl⟩
    · exact fun _ => rfl
    · exact preserved
  · have free := ok.unlocked unused
    apply Others.setBuf
    · intro held
      simp [free] at held
    · exact fun unheld => unheld
    · intro referenced
      simp [unused] at referenced
    · intro dirty
      simp [clean] at dirty
    · exact preserved

theorem Others.of_acquiresleep (different : q ≠ p) (referenced : q ∈ (store.buf b).refs)
    (done : acquiresleep q b store = .done () next) : Others p store next := by
  have preserved : ∀ filling, CacheOk filling store → CacheOk filling next :=
    fun _ ok => ok.acquiresleep referenced done
  rcases acquiresleep_cases done with ⟨free, rfl⟩
  apply Others.setBuf
  · intro held
    simp [free] at held
  · intro _ held
    exact different (Option.some.inj held)
  · exact fun mine => ⟨mine, rfl, rfl⟩
  · exact fun _ => rfl
  · exact preserved

theorem Others.of_releasesleep (different : q ≠ p) (held : (store.buf b).lock = some q)
    (done : releasesleep b store = .done () next) : Others p store next := by
  have preserved : ∀ filling, CacheOk filling store → CacheOk filling next :=
    fun _ ok => ok.releasesleep done
  simp only [releasesleep, Outcome.done.injEq, true_and] at done
  subst done
  apply Others.setBuf
  · intro mine
    rw [held] at mine
    exact absurd (Option.some.inj mine) different
  · simp
  · exact fun mine => ⟨mine, rfl, rfl⟩
  · exact fun _ => rfl
  · exact preserved

theorem Others.of_fetch (different : q ≠ p) (held : (store.buf b).lock = some q)
    (ok : CacheOk filling store) (invalid : (store.buf b).valid = false)
    (done : iderw b store = .done () next) : Others p store next := by
  have preserved : ∀ filling, CacheOk filling store → CacheOk filling next :=
    fun _ ok => ok.fetch invalid done
  rcases (iderw_cases done).2.2 with ⟨dirty, -⟩ | ⟨clean, -, rfl⟩
  · have valid := (ok.dirty b dirty).1
    simp [invalid] at valid
  · apply Others.setBuf
    · intro mine
      rw [held] at mine
      exact absurd (Option.some.inj mine) different
    · exact fun unheld => unheld
    · exact fun mine => ⟨mine, rfl, rfl⟩
    · intro dirty
      simp [clean] at dirty
    · exact preserved

theorem Others.of_bput (different : q ≠ p) (unheld : (store.buf b).lock ≠ some q)
    (done : bput q b store = .done () next) : Others p store next := by
  have preserved : ∀ filling, CacheOk filling store → CacheOk filling next :=
    fun _ ok => ok.bput unheld done
  rcases bput_cases done with ⟨mru, rfl⟩
  have changed : Others p store (store.setBuf b
      { store.buf b with refs := (store.buf b).refs.erase q }) := by
    apply Others.setBuf
    · exact fun held => ⟨held, rfl⟩
    · exact fun unheld => unheld
    · exact fun mine => ⟨(List.mem_erase_of_ne different.symm).mpr mine, rfl, rfl⟩
    · exact fun _ => rfl
    · exact fun filling ok => (preserved filling ok).of_buf rfl rfl rfl
  exact ⟨changed.log, changed.disk, changed.written, changed.held, changed.unheld,
    changed.referenced, changed.dirty, preserved⟩

end Xv6.Fs
