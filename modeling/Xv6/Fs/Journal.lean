import Xv6.Fs.Log

/-!
# Rules for the programs of the log

`At` says where a committing or recovering process is: the buffers it holds,
the dirty buffers of the transaction, and the disk. One rule for each function
of `bio.c` that the log calls.
-/

namespace Xv6.Fs

open Xv6.Library

/-- A buffer a process holds: which one, the block in it, and its content. -/
abbrev Holding := BufPtr × Nat × Block

/-- A block of the transaction and its content. -/
abbrev Pin := Nat × Block

structure Holds (p : Pid) (holding : Holding) (store : Store) : Prop where
  lock : (store.buf holding.1).lock = some p
  valid : (store.buf holding.1).valid = true
  dev : (store.buf holding.1).dev = rootDev
  blockno : (store.buf holding.1).blockno = holding.2.1
  data : (store.buf holding.1).data = holding.2.2

def Pinned (pin : Pin) (store : Store) : Prop :=
  ∃ b, (store.buf b).dirty = true ∧ (store.buf b).blockno = pin.1 ∧ (store.buf b).data = pin.2

structure At (p : Pid) (filling : Option BufPtr) (held : List Holding) (pinned : List Pin)
    (log : Log) (disk : Nat → Block) (written : List Nat) (store : Store) : Prop where
  cache : CacheOk filling store
  owner : ∀ b, filling = some b → (store.buf b).lock = some p
  log : store.log = log
  disk : store.disk = disk
  written : store.written = written
  held : ∀ holding ∈ held, Holds p holding store
  pinned : ∀ pin ∈ pinned, Pinned pin store

/-- Process `p` works on the log while others only read; `phase` must hold of
the log and the disk at any time. -/
def journal (p : Pid) (phase : Log → List Nat → (Nat → Block) → Prop) : Setting Store where
  rely := Others p
  always store :=
    (∃ filling, CacheOk filling store ∧
      ∀ b, filling = some b → (store.buf b).lock = some p) ∧
    phase store.log store.written store.disk
  rely_refl := Others.refl p
  rely_trans := Others.trans

variable {p : Pid} {filling : Option BufPtr} {held rest : List Holding} {pinned : List Pin}
  {log : Log} {disk : Nat → Block} {written : List Nat} {store after : Store}
  {phase : Log → List Nat → (Nat → Block) → Prop} {b : BufPtr} {blockno : Nat} {data : Block}

theorem Buf.core_eq {first second : Buf} (same : first.core = second.core) :
    first.valid = second.valid ∧ first.dirty = second.dirty ∧ first.dev = second.dev ∧
      first.blockno = second.blockno ∧ first.data = second.data := by
  simpa [Buf.core] using same

theorem Holds.later {holding : Holding} (holds : Holds p holding store)
    (others : Others p store after) : Holds p holding after := by
  rcases others.held holding.1 holds.lock with ⟨lock, same⟩
  rcases Buf.core_eq same with ⟨valid, -, dev, blockno, data⟩
  exact ⟨lock, valid.trans holds.valid, dev.trans holds.dev, blockno.trans holds.blockno,
    data.trans holds.data⟩

theorem Pinned.later {pin : Pin} (pinned : Pinned pin store) (others : Others p store after) :
    Pinned pin after := by
  rcases pinned with ⟨b, dirty, blockno, data⟩
  rcases Buf.core_eq (others.dirty b dirty) with ⟨-, dirty', -, blockno', data'⟩
  exact ⟨b, dirty'.trans dirty, blockno'.trans blockno, data'.trans data⟩

theorem At.later (here : At p filling held pinned log disk written store)
    (others : Others p store after) : At p filling held pinned log disk written after where
  cache := others.cache filling here.cache
  owner b same := (others.held b (here.owner b same)).1
  log := others.log.trans here.log
  disk := others.disk.trans here.disk
  written := others.written.trans here.written
  held holding membership := (here.held holding membership).later others
  pinned pin membership := (here.pinned pin membership).later others

theorem At.stable (now : phase log written disk) :
    (journal p phase).Stable (At p filling held pinned log disk written) where
  kept here others := here.later others
  allowed {state} here := by
    refine ⟨⟨filling, here.cache, here.owner⟩, ?_⟩
    rw [here.log, here.written, here.disk]
    exact now

theorem At.mono (here : At p filling held pinned log disk written store) {fewer : List Holding}
    {less : List Pin} (subset : fewer ⊆ held) (included : less ⊆ pinned) :
    At p filling fewer less log disk written store :=
  ⟨here.cache, here.owner, here.log, here.disk, here.written,
    fun holding membership => here.held holding (subset membership),
    fun pin membership => here.pinned pin (included membership)⟩

theorem At.of_mru (here : At p filling held pinned log disk written store) (mru : Mru) :
    At p filling held pinned log disk written { store with mru := mru } where
  cache := here.cache.of_buf rfl rfl rfl
  owner := here.owner
  log := here.log
  disk := here.disk
  written := here.written
  held holding membership :=
    let holds := here.held holding membership
    ⟨holds.lock, holds.valid, holds.dev, holds.blockno, holds.data⟩
  pinned := here.pinned

/-- The buffers of `At` keep their roles when another buffer changes. -/
theorem Holds.setBuf {holding : Holding} (holds : Holds p holding store) (buffer : Buf)
    (different : holding.1 ≠ b) : Holds p holding (store.setBuf b buffer) := by
  constructor <;> rw [Store.setBuf_of_ne _ _ different]
  · exact holds.lock
  · exact holds.valid
  · exact holds.dev
  · exact holds.blockno
  · exact holds.data

theorem Pinned.setBuf {pin : Pin} (pinned : Pinned pin store) (buffer : Buf)
    (changed : (store.buf b).dirty = true → (store.buf b).blockno = pin.1 →
      buffer.dirty = true ∧ buffer.blockno = pin.1 ∧ buffer.data = (store.buf b).data) :
    Pinned pin (store.setBuf b buffer) := by
  rcases pinned with ⟨a, dirty, number, content⟩
  by_cases same : a = b
  · subst same
    refine ⟨a, ?_⟩
    simp only [Store.setBuf_same]
    rcases changed dirty number with ⟨dirty', number', content'⟩
    exact ⟨dirty', number', content'.trans content⟩
  · refine ⟨a, ?_⟩
    rw [Store.setBuf_of_ne _ _ same]
    exact ⟨dirty, number, content⟩

/-! ## Getting a buffer -/

/-- `bget` up to the lock: the buffer is referenced, so nobody recycles it. -/
def Located (p : Pid) (held : List Holding) (pinned : List Pin) (log : Log)
    (disk : Nat → Block) (written : List Nat) (blockno : Nat) (b : BufPtr) (store : Store) :
    Prop :=
  At p none held pinned log disk written store ∧
    p ∈ (store.buf b).refs ∧ (store.buf b).dev = rootDev ∧ (store.buf b).blockno = blockno

/-- `bget` at its end. -/
def Locked (p : Pid) (held : List Holding) (pinned : List Pin) (log : Log)
    (disk : Nat → Block) (written : List Nat) (blockno : Nat) (b : BufPtr) (store : Store) :
    Prop :=
  At p none held pinned log disk written store ∧ (store.buf b).lock = some p ∧
    (store.buf b).dev = rootDev ∧ (store.buf b).blockno = blockno ∧ b ∉ held.map Prod.fst

theorem Located.stable (now : phase log written disk) :
    (journal p phase).Stable (Located p held pinned log disk written blockno b) where
  kept := by
    rintro state later ⟨here, referenced, dev, number⟩ others
    rcases others.referenced b referenced with ⟨still, dev', number'⟩
    exact ⟨here.later others, still, dev'.trans dev, number'.trans number⟩
  allowed located := (At.stable now).allowed located.1

theorem Locked.stable (now : phase log written disk) :
    (journal p phase).Stable (Locked p held pinned log disk written blockno b) where
  kept := by
    rintro state later ⟨here, lock, dev, number, fresh⟩ others
    rcases others.held b lock with ⟨lock', same⟩
    rcases Buf.core_eq same with ⟨-, -, dev', number', -⟩
    exact ⟨here.later others, lock', dev'.trans dev, number'.trans number, fresh⟩
  allowed locked := (At.stable now).allowed locked.1

/-- Whether a buffer is valid, while `p` holds it. -/
theorem Locked.stable_valid (now : phase log written disk) (valid : Bool) :
    (journal p phase).Stable fun store =>
      Locked p held pinned log disk written blockno b store ∧ (store.buf b).valid = valid where
  kept := by
    rintro state later ⟨locked, flag⟩ others
    have same := (others.held b locked.2.1).2
    exact ⟨(Locked.stable now).kept locked others, (Buf.core_eq same).1.trans flag⟩
  allowed locked := (Locked.stable now).allowed locked.1

theorem scan_triple (now : phase log written disk) :
    (journal p phase).Triple (At p none held pinned log disk written)
      (Program.atom (bgetScan p rootDev blockno))
      (Located p held pinned log disk written blockno) := by
  apply Setting.Triple.atom (At.stable now) (fun _ => Located.stable now)
  intro state b next here done
  refine ⟨here.later (Others.of_bgetScan here.cache done), ?_⟩
  rcases bgetScan_cases done with ⟨dev, number, rfl⟩ | ⟨-, -, -, rfl⟩
  · simp [dev, number]
  · simp

theorem acquire_triple (now : phase log written disk) :
    (journal p phase).Triple (Located p held pinned log disk written blockno b)
      (Program.atom (acquiresleep p b))
      fun _ => Locked p held pinned log disk written blockno b := by
  apply Setting.Triple.atom (Located.stable now) (fun _ => Locked.stable now)
  rintro state ⟨⟩ next ⟨here, referenced, dev, number⟩ done
  have cache := here.cache.acquiresleep referenced done
  rcases acquiresleep_cases done with ⟨free, rfl⟩
  have fresh : ∀ holding ∈ held, holding.1 ≠ b := by
    rintro holding membership rfl
    have lock := (here.held holding membership).lock
    simp [free] at lock
  refine ⟨⟨cache, by simp, here.log, here.disk, here.written, ?_, ?_⟩, by simp,
    by simpa using dev, by simpa using number, ?_⟩
  · exact fun holding membership =>
      (here.held holding membership).setBuf _ (fresh holding membership)
  · exact fun pin membership =>
      (here.pinned pin membership).setBuf _ fun dirty same => ⟨dirty, same, rfl⟩
  · intro membership
    rcases List.mem_map.mp membership with ⟨holding, held, same⟩
    exact fresh holding held same

theorem bget_triple (now : phase log written disk) :
    (journal p phase).Triple (At p none held pinned log disk written) (bget p rootDev blockno)
      (Locked p held pinned log disk written blockno) := by
  refine Setting.Triple.bind (scan_triple now) fun b => ?_
  refine Setting.Triple.bind (acquire_triple now) fun _ => ?_
  exact Setting.Triple.pure (Locked.stable now) fun _ reached => reached

/-- `bread` returns a locked, valid buffer that was not held before. A log
block reads as on disk, a block of the transaction as it was left. -/
def Fetched (p : Pid) (held : List Holding) (pinned : List Pin) (log : Log)
    (disk : Nat → Block) (written : List Nat) (blockno : Nat) (b : BufPtr) (store : Store) :
    Prop :=
  ∃ data, At p none ((b, blockno, data) :: held) pinned log disk written store ∧
    b ∉ held.map Prod.fst ∧ (log.Owns blockno → data = disk blockno) ∧
    ∀ content, (blockno, content) ∈ pinned → data = content

theorem Fetched.stable (now : phase log written disk) :
    (journal p phase).Stable (Fetched p held pinned log disk written blockno b) where
  kept := by
    rintro state later ⟨data, here, facts⟩ others
    exact ⟨data, here.later others, facts⟩
  allowed := by
    rintro state ⟨data, here, -⟩
    exact (At.stable now).allowed here

theorem Fetched.of_held (here : At p none held pinned log disk written store)
    (lock : (store.buf b).lock = some p) (valid : (store.buf b).valid = true)
    (dev : (store.buf b).dev = rootDev) (number : (store.buf b).blockno = blockno)
    (fresh : b ∉ held.map Prod.fst) : Fetched p held pinned log disk written blockno b store := by
  refine ⟨(store.buf b).data, ?_, fresh, ?_, ?_⟩
  · refine ⟨here.cache, here.owner, here.log, here.disk, here.written, ?_, here.pinned⟩
    intro holding membership
    rcases List.mem_cons.mp membership with rfl | membership
    · exact ⟨lock, valid, dev, number, rfl⟩
    · exact here.held holding membership
  · intro owns
    have same := here.cache.coherent b (by simp) valid dev
    rw [here.log, here.disk, number] at same
    exact same owns
  · intro content membership
    rcases here.pinned _ membership with ⟨a, dirty, number', content'⟩
    have device := (here.cache.dirty a dirty).2
    have same : a = b := here.cache.unique a b device dev (number'.trans number.symm)
    exact same ▸ content'

theorem fetch_triple (now : phase log written disk) :
    (journal p phase).Triple
      (fun store => Locked p held pinned log disk written blockno b store ∧
        (store.buf b).valid = false)
      (Program.atom (iderw b))
      fun _ => Fetched p held pinned log disk written blockno b := by
  apply Setting.Triple.atom (Locked.stable_valid now false) (fun _ => Fetched.stable now)
  rintro state ⟨⟩ next ⟨⟨here, lock, dev, number, fresh⟩, invalid⟩ done
  have cache := here.cache.fetch invalid done
  have notHeld : ∀ holding ∈ held, holding.1 ≠ b :=
    fun holding membership same => fresh (List.mem_map.mpr ⟨holding, membership, same⟩)
  rcases (iderw_cases done).2.2 with ⟨dirty, -⟩ | ⟨clean, -, rfl⟩
  · have valid := (here.cache.dirty b dirty).1
    simp [invalid] at valid
  · apply Fetched.of_held
    · refine ⟨cache, by simp, here.log, here.disk, here.written, ?_, ?_⟩
      · exact fun holding membership =>
          (here.held holding membership).setBuf _ (notHeld holding membership)
      · refine fun pin membership => (here.pinned pin membership).setBuf _ fun dirty _ => ?_
        simp [clean] at dirty
    · simpa using lock
    · simp
    · simpa using dev
    · simpa using number
    · exact fresh

theorem bread_triple {dev : Nat} (device : dev = rootDev) (now : phase log written disk) :
    (journal p phase).Triple (At p none held pinned log disk written) (bread p dev blockno)
      (Fetched p held pinned log disk written blockno) := by
  subst device
  refine Setting.Triple.bind (bget_triple now) fun b => ?_
  have test : (journal p phase).Triple (Locked p held pinned log disk written blockno b)
      (Program.get fun store => !(store.buf b).valid)
      fun invalid store => Locked p held pinned log disk written blockno b store ∧
        (store.buf b).valid = !invalid := by
    apply Setting.Triple.atom (Locked.stable now) (fun invalid => Locked.stable_valid now !invalid)
    intro state invalid next locked done
    simp only [Outcome.done.injEq] at done
    rcases done with ⟨rfl, rfl⟩
    exact ⟨locked, by simp⟩
  refine Setting.Triple.bind test fun invalid => ?_
  cases invalid with
  | false =>
      apply Setting.Triple.pure (Fetched.stable now)
      rintro state ⟨⟨here, lock, dev, number, fresh⟩, valid⟩
      exact Fetched.of_held here lock valid dev number fresh
  | true =>
      refine Setting.Triple.bind (fetch_triple now) fun _ => ?_
      exact Setting.Triple.pure (Fetched.stable now) fun _ reached => reached

/-! ## Using a buffer -/

/-- Fill a held buffer that is not part of the transaction. -/
theorem fill_triple (now : phase log written disk) {content : Block}
    (fresh : b ∉ rest.map Prod.fst) (free : blockno ∉ pinned.map Prod.fst)
    (change : Store → Block)
    (filled : ∀ store, At p none ((b, blockno, data) :: rest) pinned log disk written store →
      change store = content) :
    (journal p phase).Triple (At p none ((b, blockno, data) :: rest) pinned log disk written)
      (Program.modify fun store => store.setBuf b { store.buf b with data := change store })
      fun _ => At p (some b) ((b, blockno, content) :: rest) pinned log disk written := by
  apply Setting.Triple.atom (At.stable now) (fun _ => At.stable now)
  intro state _ next here done
  simp only [Outcome.done.injEq, true_and] at done
  subst done
  rw [filled state here]
  have holds := here.held _ List.mem_cons_self
  constructor
  · have relaxed : CacheOk (some b) state :=
      ⟨here.cache.unique, here.cache.holder, here.cache.dirty, here.cache.range,
        fun a _ => here.cache.coherent a (by simp)⟩
    apply relaxed.setBuf
    · exact fun device => relaxed.other_block device
    · exact relaxed.holder b
    · exact relaxed.dirty b
    · exact relaxed.range b
    · simp
  · rintro a same
    simp only [Option.some.injEq] at same
    subst same
    simpa using holds.lock
  · exact here.log
  · exact here.disk
  · exact here.written
  · intro holding membership
    rcases List.mem_cons.mp membership with rfl | membership
    · exact ⟨by simpa using holds.lock, by simpa using holds.valid, by simpa using holds.dev,
        by simpa using holds.blockno, by simp⟩
    · refine (here.held holding (List.mem_cons_of_mem _ membership)).setBuf _ ?_
      intro same
      exact fresh (List.mem_map.mpr ⟨holding, membership, same⟩)
  · refine fun pin membership => (here.pinned pin membership).setBuf _ fun _ same => ?_
    have number := holds.blockno.symm.trans same
    exact absurd (List.mem_map.mpr ⟨pin, membership, number.symm⟩) free

theorem memmove_triple (now : phase log written disk) {src : BufPtr} {number : Nat} {content : Block}
    (held : (src, number, content) ∈ rest)
    (fresh : b ∉ rest.map Prod.fst) (free : blockno ∉ pinned.map Prod.fst) :
    (journal p phase).Triple (At p none ((b, blockno, data) :: rest) pinned log disk written)
      (memmove b src)
      fun _ => At p (some b) ((b, blockno, content) :: rest) pinned log disk written :=
  fill_triple now fresh free (fun store => (store.buf src).data) fun _ here =>
    (here.held _ (List.mem_cons_of_mem _ held)).data

/-- The disk block changes, and the cache agrees with it again. -/
theorem bwrite_triple (now : phase log written disk)
    (next : phase log (blockno :: written) (Function.update disk blockno data))
    (fresh : b ∉ rest.map Prod.fst) (free : blockno ∉ pinned.map Prod.fst) :
    (journal p phase).Triple (At p (some b) ((b, blockno, data) :: rest) pinned log disk written)
      (Program.atom (bwrite b))
      fun _ => At p none ((b, blockno, data) :: rest) pinned log
        (Function.update disk blockno data) (blockno :: written) := by
  apply Setting.Triple.atom (At.stable now) (fun _ => At.stable next)
  rintro state ⟨⟩ reached here done
  have holds := here.held _ List.mem_cons_self
  have lock := holds.lock
  simp only at lock
  rw [bwrite, lock, if_neg (Option.some_ne_none p)] at done
  have cases := (iderw_cases done).2.2
  simp only [Store.setBuf_same, Bool.true_eq_false, false_and, or_false, true_and] at cases
  have number := holds.blockno
  have content := holds.data
  simp only at number content
  have buffer : ∀ a, reached.buf a =
      if a = b then { state.buf b with dirty := false, valid := true } else state.buf a := by
    intro a
    by_cases same : a = b
    · subst same
      simp [cases]
    · simp [cases, Store.setBuf, same]
  have onDisk : reached.disk = Function.update disk blockno data := by
    rw [cases, ← here.disk, number, content]
    rfl
  have owns : reached.log = log := by
    rw [cases, ← here.log]
    rfl
  constructor
  · constructor
    · intro a c
      simp only [buffer]
      split <;> split <;> rename_i first second
      · simp [first, second]
      · subst first
        exact fun device other same => here.cache.unique a c device other same
      · subst second
        exact fun device other same => here.cache.unique a c device other same
      · exact here.cache.unique a c
    · intro a holder
      simp only [buffer]
      split
      · rename_i same
        subst same
        exact here.cache.holder a holder
      · exact here.cache.holder a holder
    · intro a
      simp only [buffer]
      split
      · simp
      · exact here.cache.dirty a
    · intro a
      simp only [buffer]
      split
      · rename_i same
        subst same
        exact fun _ => here.cache.range a holds.valid
      · exact here.cache.range a
    · intro a _
      simp only [buffer, onDisk, owns]
      split
      · intro _ _ _
        simp [number, content]
      · rename_i different
        intro valid device inLog
        have apart := here.cache.other_block holds.dev a different device
        simp only [number] at apart
        rw [Function.update_of_ne apart, ← here.disk]
        rw [← here.log] at inLog
        exact here.cache.coherent a (by simpa using Ne.symm different) valid device inLog
  · simp
  · exact owns
  · exact onDisk
  · rw [cases, ← here.written, number]
    rfl
  · intro holding membership
    rcases List.mem_cons.mp membership with rfl | membership
    · exact ⟨by simpa [buffer] using lock, by simp [buffer], by simpa [buffer] using holds.dev,
        by simpa [buffer] using number, by simpa [buffer] using content⟩
    · have different : holding.1 ≠ b := fun same =>
        fresh (List.mem_map.mpr ⟨holding, membership, same⟩)
      have kept := here.held holding (List.mem_cons_of_mem _ membership)
      constructor <;> rw [buffer, if_neg different]
      · exact kept.lock
      · exact kept.valid
      · exact kept.dev
      · exact kept.blockno
      · exact kept.data
  · intro pin membership
    rcases here.pinned pin membership with ⟨a, dirty, same, kept⟩
    have different : a ≠ b := by
      rintro rfl
      exact free (List.mem_map.mpr ⟨pin, membership, (same.symm.trans number)⟩)
    refine ⟨a, ?_⟩
    rw [buffer, if_neg different]
    exact ⟨dirty, same, kept⟩

theorem brelse_triple (now : phase log written disk) (fresh : b ∉ rest.map Prod.fst) :
    (journal p phase).Triple (At p none ((b, blockno, data) :: rest) pinned log disk written)
      (brelse p b) fun _ => At p none rest pinned log disk written := by
  have notHeld : ∀ holding ∈ rest, holding.1 ≠ b :=
    fun holding membership same => fresh (List.mem_map.mpr ⟨holding, membership, same⟩)
  have unlocked : (journal p phase).Stable fun store =>
      At p none rest pinned log disk written store ∧ (store.buf b).lock ≠ some p := by
    constructor
    · rintro state later ⟨here, unheld⟩ others
      exact ⟨here.later others, others.unheld b unheld⟩
    · exact fun here => (At.stable now).allowed here.1
  have released : (journal p phase).Triple
      (At p none ((b, blockno, data) :: rest) pinned log disk written)
      (Program.atom fun store =>
        if (store.buf b).lock = none then .panic "brelse" else releasesleep b store)
      fun _ store =>
        At p none rest pinned log disk written store ∧ (store.buf b).lock ≠ some p := by
    apply Setting.Triple.atom (At.stable now) (fun _ => unlocked)
    rintro state ⟨⟩ next here done
    by_cases free : (state.buf b).lock = none
    · simp [free] at done
    rw [if_neg free] at done
    have cache := here.cache.releasesleep done
    simp only [releasesleep, Outcome.done.injEq, true_and] at done
    subst done
    refine ⟨⟨cache, by simp, here.log, here.disk, here.written, ?_, ?_⟩, by simp⟩
    · exact fun holding membership =>
        (here.held holding (List.mem_cons_of_mem _ membership)).setBuf _
          (notHeld holding membership)
    · exact fun pin membership =>
        (here.pinned pin membership).setBuf _ fun dirty same => ⟨dirty, same, rfl⟩
  refine Setting.Triple.bind released fun _ => ?_
  · apply Setting.Triple.atom unlocked (fun _ => At.stable now)
    rintro state ⟨⟩ next ⟨here, unheld⟩ done
    have cache := here.cache.bput unheld done
    rcases bput_cases done with ⟨mru, rfl⟩
    apply At.of_mru
    refine ⟨cache.of_buf rfl rfl rfl, by simp, here.log, here.disk, here.written, ?_, ?_⟩
    · exact fun holding membership =>
        (here.held holding membership).setBuf _ (notHeld holding membership)
    · exact fun pin membership =>
        (here.pinned pin membership).setBuf _ fun dirty same => ⟨dirty, same, rfl⟩

end Xv6.Fs
