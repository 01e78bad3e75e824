import Xv6.Fs.GroupCommit
import Xv6.Library.Total

/-!
# A commit that nobody disturbs

Which buffers it holds, and which are dirty. Its calls of `bread` always find a
buffer, and that of a home block finds the pinned one.
-/

namespace Xv6.Fs

open Xv6.Library

/-! ## The commit with assertions -/

/-- What stops the commit when a home block is not found in its pinned buffer. -/
def notPinned : String := "home block is not pinned"

/-- A buffer that `bread` took for another block, or filled from the disk, is not dirty. -/
def assertPinned (b : BufPtr) : Program Store Unit :=
  Program.atom fun store =>
    if (store.buf b).dirty = true then .done () store else .panic notPinned

def writeLogPinned (p : Pid) : Program Store Unit :=
  forTail fun tail => do
    let log ← Program.get Store.log
    let toBuf ← bread p log.dev (log.start + tail + 1)
    let fromBuf ← bread p log.dev (log.lh.block tail)
    assertPinned fromBuf
    memmove toBuf fromBuf
    Program.atom (bwrite toBuf)
    brelse p fromBuf
    brelse p toBuf

def installTransPinned (p : Pid) : Program Store Unit :=
  forTail fun tail => do
    let log ← Program.get Store.log
    let lbuf ← bread p log.dev (log.start + tail + 1)
    let dbuf ← bread p log.dev (log.lh.block tail)
    assertPinned dbuf
    memmove dbuf lbuf
    Program.atom (bwrite dbuf)
    brelse p lbuf
    brelse p dbuf

/-- `commit`, with an assertion after each `bread` of a home block. -/
def commitPinned (p : Pid) : Program Store Unit := do
  if ← Program.get fun store => decide (0 < store.log.lh.n) then
    writeLogPinned p
    writeHead p
    installTransPinned p
    clearHead
    writeHead p

theorem writeLogPinned_asserts (p : Pid) :
    Program.Asserts notPinned (writeLogPinned p) (writeLog p) := by
  unfold writeLogPinned writeLog forTail
  apply Program.Asserts.forFrom
  intro tail
  apply (Program.asserts_refl _).bind
  intro log
  apply (Program.asserts_refl _).bind
  intro toBuf
  apply (Program.asserts_refl _).bind
  intro fromBuf
  exact Program.Asserts.test (Program.asserts_refl _)

theorem installTransPinned_asserts (p : Pid) :
    Program.Asserts notPinned (installTransPinned p) (installTrans p) := by
  unfold installTransPinned installTrans forTail
  apply Program.Asserts.forFrom
  intro tail
  apply (Program.asserts_refl _).bind
  intro log
  apply (Program.asserts_refl _).bind
  intro lbuf
  apply (Program.asserts_refl _).bind
  intro dbuf
  exact Program.Asserts.test (Program.asserts_refl _)

theorem commitPinned_asserts (p : Pid) :
    Program.Asserts notPinned (commitPinned p) (commit p) := by
  apply (Program.asserts_refl _).bind
  intro some
  cases some with
  | false => exact Program.asserts_refl _
  | true =>
      apply (writeLogPinned_asserts p).bind
      intro _
      apply (Program.asserts_refl _).bind
      intro _
      apply (installTransPinned_asserts p).bind
      intro _
      exact Program.asserts_refl _

/-! ## Nobody else around -/

/-- Only `p` has buffers, the buffers in `held`; the dirty ones hold the blocks in `pins`. -/
structure Alone (p : Pid) (held : List BufPtr) (pins : List Nat) (log : Log) (store : Store) :
    Prop where
  log : store.log = log
  mine : ∀ b ∈ held, (store.buf b).lock = some p ∧ (store.buf b).refs = [p] ∧
    (store.buf b).valid = true ∧ (store.buf b).dev = rootDev
  free : ∀ b, b ∉ held → (store.buf b).lock = none ∧ (store.buf b).refs = []
  unique : ∀ a b, (store.buf a).dev = rootDev → (store.buf b).dev = rootDev →
    (store.buf a).blockno = (store.buf b).blockno → a = b
  flags : ∀ b, (store.buf b).dirty = true →
    (store.buf b).valid = true ∧ (store.buf b).dev = rootDev
  range : ∀ b, (store.buf b).valid = true → (store.buf b).blockno < fsSize
  pinned : ∀ blockno ∈ pins, ∃ b, (store.buf b).dirty = true ∧ (store.buf b).blockno = blockno
  only : ∀ b, (store.buf b).dirty = true → (store.buf b).blockno ∈ pins
  nodup : pins.Nodup

/-- The log does not fit on the disk. -/
def OffDisk (log : Log) (message : String) : Prop :=
  message = "iderw: block out of range" ∧ fsSize < log.start + log.size

variable {p : Pid} {held rest : List BufPtr} {pins : List Nat} {log : Log} {store : Store}
  {b src dst : BufPtr} {blockno : Nat}

/-- With fewer dirty blocks than buffers some buffer is clean. -/
theorem Alone.room (alone : Alone p held pins log store) (few : pins.length < nbuf) :
    ∃ b, (store.buf b).dirty = false := by
  by_contra none
  have all : ∀ b, (store.buf b).dirty = true := by
    intro b
    by_contra clean
    exact none ⟨b, Bool.eq_false_of_not_eq_true clean⟩
  have injective : Set.InjOn (fun b => (store.buf b).blockno)
      (Finset.univ : Finset BufPtr) := by
    intro a _ b _ same
    exact alone.unique a b (alone.flags a (all a)).2 (alone.flags b (all b)).2 same
  have inside : ∀ b ∈ (Finset.univ : Finset BufPtr),
      (store.buf b).blockno ∈ pins.toFinset :=
    fun b _ => List.mem_toFinset.mpr (alone.only b (all b))
  have many := Finset.card_le_card_of_injOn _ inside injective
  rw [Finset.card_univ, Fintype.card_fin] at many
  exact absurd (Nat.le_trans many (List.toFinset_card_le pins)) (Nat.not_le_of_lt few)

/-- One buffer changes. -/
theorem Alone.setBuf (alone : Alone p held pins log store) {now : List BufPtr} {left : List Nat}
    (buffer : Buf)
    (holds : b ∈ now → buffer.lock = some p ∧ buffer.refs = [p] ∧ buffer.valid = true ∧
      buffer.dev = rootDev)
    (frees : b ∉ now → buffer.lock = none ∧ buffer.refs = [])
    (others : ∀ a, a ≠ b → (a ∈ now ↔ a ∈ held))
    (unique : buffer.dev = rootDev → ∀ a, a ≠ b → (store.buf a).dev = rootDev →
      (store.buf a).blockno ≠ buffer.blockno)
    (flags : buffer.dirty = true → buffer.valid = true ∧ buffer.dev = rootDev)
    (range : buffer.valid = true → buffer.blockno < fsSize)
    (only : ∀ block, block ∈ left ↔
      buffer.dirty = true ∧ buffer.blockno = block ∨
        ∃ a, a ≠ b ∧ (store.buf a).dirty = true ∧ (store.buf a).blockno = block)
    (nodup : left.Nodup) : Alone p now left log (store.setBuf b buffer) := by
  have here : (store.setBuf b buffer).buf b = buffer := Store.setBuf_same ..
  have there : ∀ {a}, a ≠ b → (store.setBuf b buffer).buf a = store.buf a :=
    fun different => Store.setBuf_of_ne _ _ different
  refine ⟨alone.log, ?_, ?_, ?_, ?_, ?_, ?_, ?_, nodup⟩
  · intro a member
    by_cases same : a = b
    · subst same
      rw [here]
      exact holds member
    · rw [there same]
      exact alone.mine a ((others a same).mp member)
  · intro a outside
    by_cases same : a = b
    · subst same
      rw [here]
      exact frees outside
    · rw [there same]
      exact alone.free a fun member => outside ((others a same).mpr member)
  · intro a c
    by_cases first : a = b <;> by_cases second : c = b
    · rw [first, second]
      exact fun _ _ _ => rfl
    · subst first
      rw [here, there second]
      exact fun device other same => absurd same.symm (unique device c second other)
    · subst second
      rw [here, there first]
      exact fun other device same => absurd same (unique device a first other)
    · rw [there first, there second]
      exact alone.unique a c
  · intro a
    by_cases same : a = b
    · subst same
      rw [here]
      exact flags
    · rw [there same]
      exact alone.flags a
  · intro a
    by_cases same : a = b
    · subst same
      rw [here]
      exact range
    · rw [there same]
      exact alone.range a
  · intro block member
    obtain ⟨dirty, number⟩ | ⟨a, different, dirty, number⟩ := (only block).mp member
    · exact ⟨b, by rw [here]; exact dirty, by rw [here]; exact number⟩
    · exact ⟨a, by rw [there different]; exact dirty, by rw [there different]; exact number⟩
  · intro a dirty
    by_cases same : a = b
    · subst same
      rw [here] at dirty ⊢
      exact (only _).mpr (Or.inl ⟨dirty, rfl⟩)
    · rw [there same] at dirty ⊢
      exact (only _).mpr (Or.inr ⟨a, same, dirty, rfl⟩)

/-- A buffer keeps its block and its flags. -/
theorem Alone.pins_same (alone : Alone p held pins log store) {dirty : Bool} {number : Nat}
    (flag : dirty = (store.buf b).dirty) (same : dirty = true → number = (store.buf b).blockno)
    (block : Nat) : block ∈ pins ↔ dirty = true ∧ number = block ∨
      ∃ a, a ≠ b ∧ (store.buf a).dirty = true ∧ (store.buf a).blockno = block := by
  constructor
  · intro member
    obtain ⟨a, held, here⟩ := alone.pinned block member
    by_cases equal : a = b
    · subst equal
      have set : dirty = true := flag.trans held
      exact Or.inl ⟨set, (same set).trans here⟩
    · exact Or.inr ⟨a, equal, held, here⟩
  · rintro (⟨set, here⟩ | ⟨a, -, held, here⟩)
    · rw [← here, same set]
      exact alone.only b (flag.symm.trans set)
    · rw [← here]
      exact alone.only a held

/-- The buffer that `bget` returns, locked. -/
structure Taken (p : Pid) (blockno : Nat) (store : Store) (b : BufPtr) (buffer : Buf) : Prop where
  lock : buffer.lock = some p
  refs : buffer.refs = [p]
  dev : buffer.dev = rootDev
  number : buffer.blockno = blockno
  dirty : buffer.dirty = (store.buf b).dirty
  found : (store.buf b).dev = rootDev ∧ (store.buf b).blockno = blockno ∧
      buffer.valid = (store.buf b).valid ∨
    (∀ a, (store.buf a).dev = rootDev → (store.buf a).blockno ≠ blockno) ∧
      (store.buf b).dirty = false ∧ buffer.valid = false

theorem Alone.scan (alone : Alone p held pins log store)
    (room : blockno ∈ pins ∨ ∃ b, b ∉ held ∧ (store.buf b).dirty = false) :
    ∃ b next, bgetScan p rootDev blockno store = .done b next := by
  unfold bgetScan
  split
  · exact ⟨_, _, rfl⟩
  · next missing =>
      split
      · exact ⟨_, _, rfl⟩
      · next full =>
          exfalso
          obtain member | ⟨b, outside, clean⟩ := room
          · obtain ⟨a, dirty, number⟩ := alone.pinned blockno member
            have absent := List.find?_eq_none.mp missing a (store.mru.complete a)
            simp [(alone.flags a dirty).2, number] at absent
          · have member : b ∈ store.mru.order.reverse :=
              List.mem_reverse.mpr (store.mru.complete b)
            have busy := List.find?_eq_none.mp full b member
            simp [Buf.refcnt, (alone.free b outside).2, clean] at busy

theorem Alone.bget {panics : String → Prop} (alone : Alone p held pins log store)
    (apart : ∀ a ∈ held, (store.buf a).blockno ≠ blockno)
    (room : blockno ∈ pins ∨ ∃ b, b ∉ held ∧ (store.buf b).dirty = false) :
    (bget p rootDev blockno).Ends panics (fun b next => b ∉ held ∧
      ∃ buffer, next = store.setBuf b buffer ∧ Taken p blockno store b buffer) store := by
  obtain ⟨b, next, scanned⟩ := alone.scan room
  apply Program.ends_step scanned
  obtain ⟨dev, number, rfl⟩ | ⟨missing, unused, clean, rfl⟩ := bgetScan_cases scanned
  · have outside : b ∉ held := fun member => apart b member number
    obtain ⟨lock, refs⟩ := alone.free b outside
    have acquired : acquiresleep p b
        (store.setBuf b { store.buf b with refs := p :: (store.buf b).refs }) =
          .done () (store.setBuf b { store.buf b with lock := some p, refs := [p] }) := by
      simp only [acquiresleep, Store.setBuf_same, lock, refs, Store.setBuf_setBuf]
    apply Program.ends_step acquired
    exact Program.ends_pure ⟨outside, _, rfl, rfl, rfl, dev, number, rfl,
      Or.inl ⟨dev, number, rfl⟩⟩
  · have outside : b ∉ held := by
      intro member
      have busy := (alone.mine b member).2.1
      rw [unused] at busy
      cases busy
    obtain ⟨lock, -⟩ := alone.free b outside
    have acquired : acquiresleep p b
        (store.setBuf b { store.buf b with
          dev := rootDev, blockno := blockno, valid := false, dirty := false, refs := [p] }) =
          .done () (store.setBuf b { store.buf b with
            dev := rootDev, blockno := blockno, valid := false, dirty := false, refs := [p],
            lock := some p }) := by
      simp only [acquiresleep, Store.setBuf_same, lock, Store.setBuf_setBuf]
    apply Program.ends_step acquired
    exact Program.ends_pure ⟨outside, _, rfl, rfl, rfl, rfl, rfl, clean.symm,
      Or.inr ⟨missing, clean, rfl⟩⟩

/-- The buffer that was taken, with the block in it. -/
theorem Alone.take (alone : Alone p held pins log store) {buffer : Buf}
    (taken : Taken p blockno store b buffer) (inside : blockno < fsSize) (data : Block) :
    Alone p (b :: held) pins log (store.setBuf b { buffer with valid := true, data := data }) := by
  apply alone.setBuf
  · exact fun _ => ⟨taken.lock, taken.refs, rfl, taken.dev⟩
  · exact fun outside => absurd (List.mem_cons_self ..) outside
  · intro a different
    exact ⟨fun member => (List.mem_cons.mp member).resolve_left different,
      fun member => List.mem_cons_of_mem _ member⟩
  · intro _ a different device same
    have number : (store.buf a).blockno = blockno := same.trans taken.number
    obtain ⟨dev, here, -⟩ | ⟨missing, -⟩ := taken.found
    · exact different (alone.unique a b device dev (number.trans here.symm))
    · exact missing a device number
  · exact fun _ => ⟨rfl, taken.dev⟩
  · intro _
    exact taken.number.symm ▸ inside
  · apply alone.pins_same taken.dirty
    intro dirty
    obtain ⟨-, here, -⟩ | ⟨-, clean, -⟩ := taken.found
    · exact taken.number.trans here.symm
    · rw [taken.dirty, clean] at dirty
      cases dirty
  · exact alone.nodup

theorem Alone.bread (alone : Alone p held pins log store) (some : 0 < log.size)
    (block : blockno ∈ pins ∨ log.Owns blockno)
    (apart : ∀ a ∈ held, (store.buf a).blockno ≠ blockno)
    (room : blockno ∈ pins ∨ ∃ b, b ∉ held ∧ (store.buf b).dirty = false) :
    (bread p rootDev blockno).Ends (OffDisk log) (fun b next => b ∉ held ∧
      Alone p (b :: held) pins log next ∧ (next.buf b).blockno = blockno ∧
      (blockno ∈ pins → (next.buf b).dirty = true) ∧
      ∀ a, a ≠ b → next.buf a = store.buf a) store := by
  apply Program.Ends.bind (alone.bget apart room)
  rintro b next ⟨outside, buffer, rfl, taken⟩
  apply Program.ends_get
  rw [Store.setBuf_same]
  -- a block of the transaction is in the cache, in a dirty buffer
  have pinned : blockno ∈ pins → buffer.dirty = true ∧ buffer.valid = true := by
    intro member
    obtain ⟨a, dirty, number⟩ := alone.pinned blockno member
    obtain ⟨valid, device⟩ := alone.flags a dirty
    obtain ⟨dev, here, same⟩ | ⟨missing, -⟩ := taken.found
    · have equal : a = b := alone.unique a b device dev (number.trans here.symm)
      rw [taken.dirty, same, ← equal]
      exact ⟨dirty, valid⟩
    · exact absurd number (missing a device)
  cases valid : buffer.valid with
  | true =>
      have range : blockno < fsSize := by
        obtain ⟨-, here, same⟩ | ⟨-, -, invalid⟩ := taken.found
        · rw [← here]
          exact alone.range b (same.symm.trans valid)
        · rw [valid] at invalid
          cases invalid
      have same : { buffer with valid := true, data := buffer.data } = buffer := by
        rw [← valid]
      have after := alone.take taken range buffer.data
      rw [same] at after
      refine Program.ends_pure ⟨outside, after, ?_, ?_, fun a different => ?_⟩
      · rw [Store.setBuf_same]
        exact taken.number
      · rw [Store.setBuf_same]
        exact fun member => (pinned member).1
      · exact Store.setBuf_of_ne _ _ different
  | false =>
      have unpinned : blockno ∉ pins := by
        intro member
        rw [(pinned member).2] at valid
        cases valid
      have clean : buffer.dirty = false := by
        rw [taken.dirty]
        by_contra dirty
        have set : (store.buf b).dirty = true := Bool.eq_true_of_not_eq_false dirty
        obtain ⟨-, here, same⟩ | ⟨-, free, -⟩ := taken.found
        · rw [(alone.flags b set).1] at same
          rw [valid] at same
          cases same
        · exact dirty free
      have read : iderw b (store.setBuf b buffer) =
          if fsSize ≤ blockno then .panic "iderw: block out of range"
          else .done () (store.setBuf b
            { buffer with valid := true, data := store.disk blockno }) := by
        have device : ¬rootDev ≠ 1 := fun different => different rfl
        simp only [iderw, Store.setBuf_same, taken.lock, valid, clean, taken.dev, taken.number,
          Bool.false_and, Store.setBuf_setBuf, Bool.false_eq_true, if_false, if_neg device]
        rfl
      by_cases range : fsSize ≤ blockno
      · have owned := block.resolve_left unpinned
        have beyond : fsSize < log.start + log.size := by
          obtain rfl | ⟨-, below⟩ := owned
          · exact Nat.lt_of_le_of_lt range (Nat.lt_add_of_pos_right some)
          · exact Nat.lt_of_le_of_lt range below
        rw [if_pos range] at read
        exact Program.ends_stop read ⟨rfl, beyond⟩
      · rw [if_neg range] at read
        apply Program.ends_step read
        have after := alone.take taken (Nat.lt_of_not_le range) (store.disk blockno)
        refine Program.ends_pure ⟨outside, after, ?_, ?_, fun a different => ?_⟩
        · rw [Store.setBuf_same]
          exact taken.number
        · exact fun member => absurd member unpinned
        · exact Store.setBuf_of_ne _ _ different

/-- Filling a buffer. -/
theorem Alone.fill (alone : Alone p held pins log store) (member : b ∈ held) (data : Block) :
    Alone p held pins log (store.setBuf b { store.buf b with data := data }) := by
  apply alone.setBuf
  · exact fun _ => alone.mine b member
  · exact fun outside => absurd member outside
  · exact fun _ _ => Iff.rfl
  · exact fun device a different other same => different (alone.unique a b other device same)
  · exact alone.flags b
  · exact alone.range b
  · exact alone.pins_same rfl fun _ => rfl
  · exact alone.nodup

/-- Writing a buffer: its block is not dirty any more. -/
theorem Alone.bwrite (alone : Alone p held pins log store) (member : b ∈ held) :
    ∃ next, bwrite b store = .done () next ∧
      Alone p held (pins.erase (store.buf b).blockno) log next := by
  obtain ⟨lock, refs, valid, dev⟩ := alone.mine b member
  have range := alone.range b valid
  have wrote : Fs.bwrite b store = .done ()
      { store.setBuf b { store.buf b with dirty := false, valid := true } with
        disk := Function.update store.disk (store.buf b).blockno (store.buf b).data
        written := (store.buf b).blockno :: store.written } := by
    have device : ¬rootDev ≠ 1 := fun different => different rfl
    simp only [Fs.bwrite, iderw, Store.setBuf_same, lock, dev, Bool.not_true, Bool.and_false,
      if_neg device, if_neg (Nat.not_le_of_lt range), Store.setBuf_setBuf]
    rfl
  have after : Alone p held (pins.erase (store.buf b).blockno) log
      (store.setBuf b { store.buf b with dirty := false, valid := true }) := by
    apply alone.setBuf
    · exact fun _ => ⟨lock, refs, rfl, dev⟩
    · exact fun outside => absurd member outside
    · exact fun _ _ => Iff.rfl
    · exact fun device a different other same => different (alone.unique a b other device same)
    · intro dirty
      cases dirty
    · exact fun _ => range
    · intro block
      rw [alone.nodup.mem_erase_iff]
      constructor
      · rintro ⟨different, pin⟩
        obtain ⟨a, dirty, number⟩ := alone.pinned block pin
        refine Or.inr ⟨a, ?_, dirty, number⟩
        rintro rfl
        exact different number.symm
      · rintro (⟨⟨⟩, -⟩ | ⟨a, different, dirty, number⟩)
        refine ⟨?_, number ▸ alone.only a dirty⟩
        rintro rfl
        exact different (alone.unique a b (alone.flags a dirty).2 dev number)
    · exact alone.nodup.erase _
  exact ⟨_, wrote, after.log, after.mine, after.free, after.unique, after.flags, after.range,
    after.pinned, after.only, after.nodup⟩

theorem Alone.brelse {panics : String → Prop} (alone : Alone p (b :: rest) pins log store)
    (fresh : b ∉ rest) :
    (brelse p b).Ends panics (fun _ => Alone p rest pins log) store := by
  obtain ⟨lock, refs, valid, dev⟩ := alone.mine b (List.mem_cons_self ..)
  have released : (fun store : Store =>
      if (store.buf b).lock = none then .panic "brelse" else releasesleep b store) store =
        Outcome.done () (store.setBuf b { store.buf b with lock := none }) := by
    dsimp only
    rw [lock, if_neg (Option.some_ne_none p)]
    rfl
  apply Program.ends_step released
  apply Program.ends_atom
  have put : bput p b (store.setBuf b { store.buf b with lock := none }) = .done ()
      { store.setBuf b { store.buf b with lock := none, refs := [] } with
        mru := store.mru.front b } := by
    simp only [bput, Store.setBuf_same, refs, List.erase_cons_head, Store.setBuf_setBuf, Buf.refcnt,
      List.length_nil, if_true]
    rfl
  rw [put]
  have after : Alone p rest pins log
      (store.setBuf b { store.buf b with lock := none, refs := [] }) := by
    apply alone.setBuf
    · exact fun member => absurd member fresh
    · exact fun _ => ⟨rfl, rfl⟩
    · intro a different
      exact ⟨fun member => List.mem_cons_of_mem _ member,
        fun member => (List.mem_cons.mp member).resolve_left different⟩
    · exact fun device a different other same => different (alone.unique a b other device same)
    · exact alone.flags b
    · exact alone.range b
    · exact alone.pins_same rfl fun _ => rfl
    · exact alone.nodup
  exact ⟨after.log, after.mine, after.free, after.unique, after.flags, after.range,
    after.pinned, after.only, after.nodup⟩

/-! ## The loops -/

theorem Alone.congr (alone : Alone p held pins log store) (same : ∀ b, b ∈ rest ↔ b ∈ held) :
    Alone p rest pins log store :=
  ⟨alone.log, fun b member => alone.mine b ((same b).mp member),
    fun b outside => alone.free b fun member => outside ((same b).mpr member), alone.unique,
    alone.flags, alone.range, alone.pinned, alone.only, alone.nodup⟩

/-- The end of an iteration of either copying loop. -/
theorem Alone.copy {panics : String → Prop} (alone : Alone p held pins log store)
    (both : ∀ b, b ∈ held ↔ b = src ∨ b = dst) (different : src ≠ dst) :
    Program.Ends panics
      (fun _ => Alone p [] (pins.erase (store.buf dst).blockno) log)
      (do
        memmove dst src
        Program.atom (Fs.bwrite dst)
        Fs.brelse p src
        Fs.brelse p dst)
      store := by
  have member : dst ∈ held := (both dst).mpr (Or.inr rfl)
  have filled := alone.fill member (store.buf src).data
  obtain ⟨next, wrote, written⟩ := filled.bwrite member
  rw [Store.setBuf_same] at written
  have moved : (fun store : Store => Outcome.done () (store.setBuf dst
      { store.buf dst with data := (store.buf src).data })) store = .done () (store.setBuf dst
      { store.buf dst with data := (store.buf src).data }) := rfl
  apply Program.ends_step moved
  apply Program.ends_step wrote
  have ordered : Alone p [src, dst] (pins.erase (store.buf dst).blockno) log next :=
    written.congr fun b => by rw [both]; simp
  apply Program.Ends.bind (ordered.brelse (by simpa using different))
  intro _ after released
  exact released.brelse List.not_mem_nil

/-- The blocks of a commit: the log on the root device, with its home blocks outside. -/
structure Commits (log : Log) : Prop where
  device : log.dev = rootDev
  size : logSize ≤ log.size
  few : log.lh.n < logSize
  home : ∀ b ∈ log.lh.logged, ¬log.Owns b

theorem Commits.some (commits : Commits log) : 0 < log.size :=
  Nat.lt_of_lt_of_le (by decide) commits.size

theorem Commits.owns (commits : Commits log) {tail : Nat} (below : tail < log.lh.n) :
    log.Owns (log.start + tail + 1) :=
  log.owns_data (Nat.lt_of_le_of_lt (Nat.succ_le_of_lt below)
    (Nat.lt_of_lt_of_le commits.few commits.size))

/-- A block of the log is read into a clean buffer. -/
theorem Alone.breadLog (alone : Alone p [] pins log store) (commits : Commits log)
    (few : pins.length < nbuf) (owns : log.Owns blockno) :
    (Fs.bread p rootDev blockno).Ends (OffDisk log) (fun b next => Alone p [b] pins log next ∧
      (next.buf b).blockno = blockno) store := by
  obtain ⟨b, clean⟩ := alone.room few
  have read := alone.bread commits.some (Or.inr owns) (fun _ member => absurd member
    List.not_mem_nil) (Or.inr ⟨b, List.not_mem_nil, clean⟩)
  exact read.mono fun _ _ facts => ⟨facts.2.1, facts.2.2.1⟩

/-- A home block is found in its buffer. -/
theorem Alone.breadHome {first : BufPtr} (alone : Alone p [first] pins log store)
    (commits : Commits log) (pin : blockno ∈ pins) (apart : (store.buf first).blockno ≠ blockno) :
    (Fs.bread p rootDev blockno).Ends (OffDisk log) (fun b next => b ≠ first ∧
      Alone p [b, first] pins log next ∧ (next.buf b).blockno = blockno ∧
      (next.buf b).dirty = true ∧ next.buf first = store.buf first) store := by
  have read := alone.bread commits.some (Or.inl pin)
    (fun a member => by rw [List.mem_singleton.mp member]; exact apart) (Or.inl pin)
  apply read.mono
  rintro b next ⟨outside, after, number, dirty, others⟩
  have different : b ≠ first := fun same => outside (List.mem_singleton.mpr same)
  exact ⟨different, after, number, dirty pin, others first different.symm⟩

theorem assertPinned_ends {panics : String → Prop} {post : Second → Store → Prop}
    {next : Unit → Program Store Second} (dirty : (store.buf b).dirty = true)
    (rest : (next ()).Ends panics post store) :
    (assertPinned b >>= next).Ends panics post store :=
  Program.ends_step (if_pos dirty) rest

theorem Alone.writeLog (alone : Alone p [] log.lh.logged log store) (commits : Commits log) :
    (writeLogPinned p).Ends (OffDisk log) (fun _ => Alone p [] log.lh.logged log) store := by
  have few : log.lh.logged.length < nbuf := by
    rw [LogHeader.length_logged]
    exact commits.few
  unfold writeLogPinned forTail
  apply Program.ends_forFrom (fun _ => Alone p [] log.lh.logged log)
    (fun _ _ here => congrArg (fun log => log.lh.n) here.log) ?_ (Nat.zero_le _)
    (Nat.le_trans (Nat.le_of_lt commits.few) (Nat.le_add_left _ _)) alone
  intro tail store below here
  apply Program.ends_get
  rw [here.log, commits.device]
  have owns := commits.owns below
  have member : log.lh.block tail ∈ log.lh.logged := LogHeader.mem_logged.mpr ⟨tail, below, rfl⟩
  apply Program.Ends.bind (here.breadLog commits few owns)
  rintro toBuf middle ⟨taken, number⟩
  have apart : (middle.buf toBuf).blockno ≠ log.lh.block tail := by
    intro same
    rw [number] at same
    exact commits.home _ member (same ▸ owns)
  apply Program.Ends.bind (taken.breadHome commits member apart)
  rintro fromBuf last ⟨different, both, -, dirty, same⟩
  apply assertPinned_ends dirty
  have copied := @Alone.copy p [fromBuf, toBuf] log.lh.logged log last fromBuf toBuf
    (OffDisk log) both (fun b => by simp) different
  have unpinned : log.start + tail + 1 ∉ log.lh.logged := fun inside =>
    commits.home _ inside owns
  rw [same, number, List.erase_of_not_mem unpinned] at copied
  exact copied

/-- Each home block is clean after its iteration. -/
theorem Alone.installTrans (alone : Alone p [] log.lh.logged log store) (commits : Commits log) :
    (installTransPinned p).Ends (OffDisk log) (fun _ => Alone p [] [] log) store := by
  have all : log.lh.logged.drop log.lh.n = [] := by
    rw [← LogHeader.length_logged]
    exact List.drop_length
  have ends : (installTransPinned p).Ends (OffDisk log)
      (fun _ => Alone p [] (log.lh.logged.drop log.lh.n) log) store := by
    unfold installTransPinned forTail
    apply Program.ends_forFrom (fun tail => Alone p [] (log.lh.logged.drop tail) log)
      (fun _ _ here => congrArg (fun log => log.lh.n) here.log) ?_ (Nat.zero_le _)
      (Nat.le_trans (Nat.le_of_lt commits.few) (Nat.le_add_left _ _)) alone
    intro tail store below here
    apply Program.ends_get
    rw [here.log, commits.device]
    have owns := commits.owns below
    have inside : tail < log.lh.logged.length := by
      rw [LogHeader.length_logged]
      exact below
    have split : log.lh.logged.drop tail =
        log.lh.block tail :: log.lh.logged.drop (tail + 1) := by
      rw [List.drop_eq_getElem_cons inside]
      simp [LogHeader.logged]
    have few : (log.lh.logged.drop tail).length < nbuf := by
      rw [List.length_drop, LogHeader.length_logged]
      exact Nat.lt_of_le_of_lt (Nat.sub_le _ _) commits.few
    have member : log.lh.block tail ∈ log.lh.logged.drop tail := by
      rw [split]
      exact List.mem_cons_self ..
    apply Program.Ends.bind (here.breadLog commits few owns)
    rintro lbuf middle ⟨taken, number⟩
    have apart : (middle.buf lbuf).blockno ≠ log.lh.block tail := by
      intro same
      rw [number] at same
      exact commits.home _ (List.mem_of_mem_drop member) (same ▸ owns)
    apply Program.Ends.bind (taken.breadHome commits member apart)
    rintro dbuf last ⟨different, both, home, dirty, -⟩
    apply assertPinned_ends dirty
    have copied := @Alone.copy p [dbuf, lbuf] (log.lh.logged.drop tail) log last lbuf dbuf
      (OffDisk log) both (fun b => by simp [or_comm]) (Ne.symm different)
    rw [home, split, List.erase_cons_head] at copied
    exact copied
  rw [all] at ends
  exact ends

theorem Alone.writeHead (alone : Alone p [] pins log store) (commits : Commits log)
    (few : pins.length < nbuf) (unpinned : log.start ∉ pins) :
    (Fs.writeHead p).Ends (OffDisk log) (fun _ => Alone p [] pins log) store := by
  apply Program.ends_get
  rw [alone.log, commits.device]
  apply Program.Ends.bind (alone.breadLog commits few log.owns_start)
  rintro buf middle ⟨taken, number⟩
  have member : buf ∈ [buf] := List.mem_cons_self ..
  have filled := taken.fill member (putHeader middle.log.lh (middle.buf buf).data)
  obtain ⟨next, wrote, written⟩ := filled.bwrite member
  rw [Store.setBuf_same, number, List.erase_of_not_mem unpinned] at written
  have moved : (fun store : Store => Outcome.done () (store.setBuf buf
      { store.buf buf with data := putHeader store.log.lh (store.buf buf).data })) middle =
      .done () (middle.setBuf buf { middle.buf buf with
        data := putHeader middle.log.lh (middle.buf buf).data }) := rfl
  apply Program.ends_step moved
  apply Program.ends_step wrote
  exact written.brelse List.not_mem_nil

theorem Alone.setLog (alone : Alone p held pins log store) (later : Log) :
    Alone p held pins later { store with log := later } :=
  ⟨rfl, alone.mine, alone.free, alone.unique, alone.flags, alone.range, alone.pinned,
    alone.only, alone.nodup⟩

/-- No `bread` of the commit is without a buffer, and in the end all buffers are clean and free. -/
theorem Alone.commit (alone : Alone p [] log.lh.logged log store) (commits : Commits log) :
    (commitPinned p).Ends (OffDisk log) (fun _ final => ∃ log, Alone p [] [] log final) store := by
  have few : log.lh.logged.length < nbuf := by
    rw [LogHeader.length_logged]
    exact commits.few
  apply Program.ends_get
  rw [alone.log]
  by_cases some : 0 < log.lh.n
  · simp only [some, decide_true, if_true]
    apply Program.Ends.bind (alone.writeLog commits)
    intro _ second logged
    apply Program.Ends.bind (logged.writeHead commits few
      fun member => commits.home _ member log.owns_start)
    intro _ third headed
    apply Program.Ends.bind (headed.installTrans commits)
    intro _ fourth installed
    have cleared : (fun store : Store => Outcome.done () { store with
        log := { store.log with lh := { store.log.lh with n := 0 } } }) fourth =
        .done () { fourth with log := { log with lh := { log.lh with n := 0 } } } := by
      dsimp only
      rw [installed.log]
    apply Program.ends_step cleared
    have empty : Commits { log with lh := { log.lh with n := 0 } } :=
      ⟨commits.device, commits.size, (by decide : 0 < logSize), nofun⟩
    have last := (installed.setLog { log with lh := { log.lh with n := 0 } }).writeHead empty
      (by decide) List.not_mem_nil
    exact last.mono fun _ final clean => ⟨_, clean⟩
  · have none : log.lh.n = 0 := Nat.eq_zero_of_not_pos some
    have nothing : log.lh.logged = [] := by
      rw [LogHeader.logged, none]
      rfl
    rw [nothing] at alone
    simp only [some, decide_false, Bool.false_eq_true, if_false]
    exact Program.ends_pure ⟨log, alone⟩

end Xv6.Fs
