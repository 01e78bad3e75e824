import Xv6.Fs.Bcache
import Xv6.Fs.Cache

/-!
# The list of all buffers

The list stays a circle of all buffers, a block of the root device is in at most
one buffer, and the unreferenced buffers are in the order of their last release.
-/

namespace Xv6.Fs

open Xv6.Library

variable {p : Pid} {dev blockno : Nat} {order : List BufPtr}

theorem BufPtr.card_le {order : List BufPtr} (nodup : order.Nodup) : order.length ≤ nbuf := by
  have card := nodup.length_le_card
  rwa [Fintype.card_fin] at card

/-- The list of pointers stands for the list of buffers. -/
structure Bcache.Represents (cache : Bcache) (store : Store) : Prop where
  circle : Circle cache.links store.mru.order
  buf : cache.buf = store.buf

/-- Both searches of `bget` go through the list of all buffers. -/
theorem Bcache.Represents.bget {cache : Bcache} {store : Store} (represents : cache.Represents store)
    (p : Pid) (dev blockno : Nat) : cache.bget p dev blockno =
      (bgetScan p dev blockno store).mapState fun next => { cache with buf := next.buf } := by
  have short := Nat.lt_succ_of_le (BufPtr.card_le represents.circle.nodup)
  have shorter : store.mru.order.reverse.length < nbuf + 1 := by
    rw [List.length_reverse]
    exact short
  unfold Bcache.bget bgetScan
  rw [represents.circle.chain.search_eq _ short, represents.circle.chain_prev.search_eq _ shorter,
    represents.buf]
  cases store.mru.order.find? fun b =>
      (store.buf b).dev == dev && (store.buf b).blockno == blockno with
  | some b =>
      simp only [Outcome.mapState, Bcache.setBuf, Store.setBuf, represents.buf]
  | none =>
      cases store.mru.order.reverse.find? fun b =>
          (store.buf b).refcnt == 0 && !(store.buf b).dirty with
      | some b => simp only [Outcome.mapState, Bcache.setBuf, Store.setBuf, represents.buf]
      | none => rfl

/-- `bput` moves the pointers as the in-memory list is changed. -/
theorem Bcache.Represents.bput {cache : Bcache} {store next : Store}
    (represents : cache.Represents store) {b : BufPtr}
    (done : Fs.bput p b store = .done () next) : (cache.bput p b).Represents next := by
  simp only [Fs.bput, Outcome.done.injEq, true_and] at done
  subst done
  refine ⟨?_, ?_⟩
  · simp only [Bcache.bput, represents.buf]
    split
    · exact (represents.circle.unlink (store.mru.complete b)).pushFront
        represents.circle.nodup.not_mem_erase
    · exact represents.circle
  · simp only [Bcache.bput, Bcache.setBuf, Store.setBuf, represents.buf]

namespace Caching

variable {state after : Caching}

/-- What every step keeps, about the list and about who has a reference. -/
structure Cached (state : Caching) (order : List BufPtr) : Prop where
  circle : Circle state.cache.links order
  complete : ∀ b, b ∈ order
  unique : ∀ a b, (state.buf a).dev = rootDev → (state.buf b).dev = rootDev →
    (state.buf a).blockno = (state.buf b).blockno → a = b
  holder : ∀ q b, (state.buf b).lock = some q → q ∈ (state.buf b).refs
  waiting : ∀ q b, state.stage q = .waiting b → q ∈ (state.buf b).refs
  putting : ∀ q b, state.stage q = .putting b →
    q ∈ (state.buf b).refs ∧ (state.buf b).lock ≠ some q
  times : ∀ b, state.released b ≤ state.clock
  recent : order.Pairwise fun a b => (state.buf a).refs = [] → (state.buf b).refs = [] →
    state.released b = 0 ∨ state.released b < state.released a

/-- Buffers keep their references and blocks. -/
structure Quiet (state after : Caching) : Prop where
  links : after.cache.links = state.cache.links
  refs : ∀ b, (after.buf b).refs = (state.buf b).refs
  dev : ∀ b, (after.buf b).dev = (state.buf b).dev
  blockno : ∀ b, (after.buf b).blockno = (state.buf b).blockno
  clock : after.clock = state.clock
  released : after.released = state.released

theorem Cached.quiet (cached : state.Cached order) (quiet : state.Quiet after)
    (holder : ∀ q b, (after.buf b).lock = some q → q ∈ (state.buf b).refs)
    (waiting : ∀ q b, after.stage q = .waiting b → q ∈ (state.buf b).refs)
    (putting : ∀ q b, after.stage q = .putting b →
      q ∈ (state.buf b).refs ∧ (after.buf b).lock ≠ some q) : after.Cached order := by
  refine ⟨?_, cached.complete, ?_, ?_, ?_, ?_, ?_, ?_⟩
  · rw [quiet.links]
    exact cached.circle
  · intro a b
    rw [quiet.dev, quiet.dev, quiet.blockno, quiet.blockno]
    exact cached.unique a b
  · intro q b
    rw [quiet.refs]
    exact holder q b
  · intro q b
    rw [quiet.refs]
    exact waiting q b
  · intro q b
    rw [quiet.refs]
    exact putting q b
  · rw [quiet.clock, quiet.released]
    exact cached.times
  · rw [quiet.released]
    refine cached.recent.imp ?_
    intro a b recent
    rw [quiet.refs, quiet.refs]
    exact recent

/-- The holder of a buffer changes the flags or the data. -/
theorem Quiet.setBuf {b : BufPtr} {buffer : Buf} (refs : buffer.refs = (state.buf b).refs)
    (dev : buffer.dev = (state.buf b).dev) (blockno : buffer.blockno = (state.buf b).blockno)
    {log : Log} {stage : Pid → BioStage} :
    state.Quiet { state.setBuf b buffer with log := log, stage := stage } := by
  have each : ∀ {Field : Type} (field : Buf → Field), field buffer = field (state.buf b) →
      ∀ other, field (Function.update state.cache.buf b buffer other) =
        field (state.cache.buf other) := by
    intro Field field same other
    by_cases here : other = b
    · subst here
      rw [Function.update_self]
      exact same
    · rw [Function.update_of_ne here]
  exact ⟨rfl, each Buf.refs refs, each Buf.dev dev, each Buf.blockno blockno, rfl, rfl⟩

theorem Cached.setBuf (cached : state.Cached order) {b : BufPtr} {buffer : Buf}
    (same : buffer = { state.buf b with
      valid := buffer.valid, dirty := buffer.dirty, data := buffer.data }) {stage : Pid → BioStage} {log : Log}
    (stages : ∀ q, stage q = state.stage q ∨
      ∀ other, stage q ≠ .waiting other ∧ stage q ≠ .putting other) :
    Cached { state.setBuf b buffer with log := log, stage := stage } order := by
  have locks : ∀ other, (Function.update state.cache.buf b buffer other).lock =
      (state.cache.buf other).lock := by
    intro other
    by_cases here : other = b
    · subst here
      rw [Function.update_self, same]
      rfl
    · rw [Function.update_of_ne here]
  have quiet : state.Quiet { state.setBuf b buffer with log := log, stage := stage } := by
    apply Quiet.setBuf
    all_goals
      rw [same]
  refine cached.quiet quiet ?_ ?_ ?_
  · intro q other held
    exact cached.holder q other ((locks other).symm.trans held)
  · intro q other waits
    rcases stages q with same | neither
    · exact cached.waiting q other (same.symm.trans waits)
    · exact absurd waits (neither other).1
  · intro q other puts
    rcases stages q with same | neither
    · rcases cached.putting q other (same.symm.trans puts) with ⟨member, free⟩
      exact ⟨member, fun held => free ((locks other).symm.trans held)⟩
    · exact absurd puts (neither other).2

/-- No buffer changes. -/
theorem Cached.setStage (cached : state.Cached order) {stage : Pid → BioStage} {log : Log}
    (stages : ∀ q, stage q = state.stage q ∨
      ∀ other, stage q ≠ .waiting other ∧ stage q ≠ .putting other) :
    Cached { state with log := log, stage := stage } order := by
  refine cached.quiet ⟨rfl, fun _ => rfl, fun _ => rfl, fun _ => rfl, rfl, rfl⟩ cached.holder ?_ ?_
  · intro q other waits
    rcases stages q with same | neither
    · exact cached.waiting q other (same.symm.trans waits)
    · exact absurd waits (neither other).1
  · intro q other puts
    rcases stages q with same | neither
    · exact cached.putting q other (same.symm.trans puts)
    · exact absurd puts (neither other).2

theorem stages_update {p : Pid} {stage : BioStage}
    (neither : ∀ other, stage ≠ .waiting other ∧ stage ≠ .putting other) (q : Pid) :
    Function.update state.stage p stage q = state.stage q ∨
      ∀ other, Function.update state.stage p stage q ≠ .waiting other ∧
        Function.update state.stage p stage q ≠ .putting other := by
  by_cases same : q = p
  · subst same
    rw [Function.update_self]
    exact Or.inr neither
  · exact Or.inl (Function.update_of_ne same _ _)

/-- One buffer gets a block that no other buffer has. -/
theorem Cached.unique_update (cached : state.Cached order) {b : BufPtr} {buffer : Buf}
    (new : ∀ a, a ≠ b → buffer.dev = rootDev → (state.buf a).dev = rootDev →
      (state.buf a).blockno ≠ buffer.blockno) :
    ∀ a c, ((state.setBuf b buffer).buf a).dev = rootDev →
      ((state.setBuf b buffer).buf c).dev = rootDev →
      ((state.setBuf b buffer).buf a).blockno = ((state.setBuf b buffer).buf c).blockno → a = c := by
  have mine : (state.setBuf b buffer).buf b = buffer := Function.update_self _ _ _
  have others : ∀ other, other ≠ b → (state.setBuf b buffer).buf other = state.buf other :=
    fun other different => Function.update_of_ne different _ _
  intro a c
  by_cases first : a = b
  · subst first
    by_cases second : c = a
    · exact fun _ _ _ => second.symm
    · rw [mine, others c second]
      intro device other same
      exact absurd same.symm (new c second device other)
  · rw [others a first]
    by_cases second : c = b
    · subst second
      rw [mine]
      intro other device same
      exact absurd same (new a first device other)
    · rw [others c second]
      exact cached.unique a c

/-- `bget` takes the buffer of the block, or recycles one that is unused and clean. -/
theorem Cached.bget_cases (cached : state.Cached order) {p : Pid} {dev blockno : Nat}
    (ends : (state.bget p dev blockno).state? = some after) : ∃ b buffer,
    after = (state.setBuf b buffer).setStage p (.waiting b) ∧
      ((buffer = { state.buf b with refs := p :: (state.buf b).refs } ∧
          (state.buf b).dev = dev ∧ (state.buf b).blockno = blockno) ∨
        (buffer = { state.buf b with
            dev := dev, blockno := blockno, valid := false, dirty := false, refs := [p] } ∧
          (state.buf b).refs = [] ∧ (state.buf b).dirty = false ∧
          ∀ a, (state.buf a).dev = dev → (state.buf a).blockno ≠ blockno)) := by
  let store : Store :=
    { disk := fun _ _ => 0, written := [], buf := state.cache.buf
      mru := ⟨order, cached.circle.nodup, cached.complete⟩, log := state.log }
  have represents : state.cache.Represents store := ⟨cached.circle, rfl⟩
  unfold Caching.bget at ends
  rw [represents.bget] at ends
  cases scan : bgetScan p dev blockno store with
  | blocked =>
      rw [scan] at ends
      cases ends
  | panic message =>
      rw [scan] at ends
      cases ends
  | done b next =>
      rw [scan] at ends
      cases ends
      rcases bgetScan_cases scan with ⟨device, number, rfl⟩ | ⟨absent, unused, clean, rfl⟩
      · exact ⟨b, _, rfl, Or.inl ⟨rfl, device, number⟩⟩
      · exact ⟨b, _, rfl, Or.inr ⟨rfl, unused, clean, absent⟩⟩

theorem Cached.bget (cached : state.Cached order) {p : Pid} {dev blockno : Nat}
    (idle : state.stage p = .idle)
    (ends : (state.bget p dev blockno).state? = some after) : after.Cached order := by
  rcases cached.bget_cases ends with ⟨b, buffer, rfl, how⟩
  have others : ∀ other, other ≠ b →
      Function.update state.cache.buf b buffer other = state.cache.buf other :=
    fun other different => Function.update_of_ne different _ _
  have mine : p ∈ buffer.refs := by
    rcases how with ⟨rfl, -⟩ | ⟨rfl, -⟩ <;> exact List.mem_cons_self ..
  have lock : buffer.lock = (state.buf b).lock := by
    rcases how with ⟨rfl, -⟩ | ⟨rfl, -⟩ <;> rfl
  have more : ∀ q ∈ (state.buf b).refs, q ∈ buffer.refs := by
    intro q member
    rcases how with ⟨rfl, -⟩ | ⟨-, unused, -⟩
    · exact List.mem_cons_of_mem _ member
    · rw [unused] at member
      cases member
  have refs : ∀ q other, q ∈ (state.buf other).refs →
      q ∈ (Function.update state.cache.buf b buffer other).refs := by
    intro q other member
    by_cases here : other = b
    · subst here
      rw [Function.update_self]
      exact more q member
    · rw [others other here]
      exact member
  have locks : ∀ other, (Function.update state.cache.buf b buffer other).lock =
      (state.buf other).lock := by
    intro other
    by_cases here : other = b
    · subst here
      rw [Function.update_self]
      exact lock
    · rw [others other here]
      rfl
  refine ⟨cached.circle, cached.complete, ?_, ?_, ?_, ?_, cached.times, ?_⟩
  · apply cached.unique_update
    intro a different device other same
    rcases how with ⟨rfl, -⟩ | ⟨rfl, -, -, absent⟩
    · exact different (cached.unique a b other device same)
    · exact absent a (other.trans device.symm) same
  · intro q other held
    exact refs q other (cached.holder q other ((locks other).symm.trans held))
  · intro q other waits
    by_cases same : q = p
    · subst same
      have here : BioStage.waiting b = .waiting other :=
        (Function.update_self _ _ _).symm.trans waits
      cases here
      change q ∈ (Function.update state.cache.buf b buffer b).refs
      rw [Function.update_self]
      exact mine
    · exact refs q other (cached.waiting q other ((Function.update_of_ne same _ _).symm.trans waits))
  · intro q other puts
    by_cases same : q = p
    · subst same
      have here : BioStage.waiting b = .putting other :=
        (Function.update_self _ _ _).symm.trans puts
      cases here
    · rcases cached.putting q other ((Function.update_of_ne same _ _).symm.trans puts) with
        ⟨member, free⟩
      exact ⟨refs q other member, fun held => free ((locks other).symm.trans held)⟩
  · refine cached.recent.imp ?_
    intro first second recent unused clean
    have before : ∀ other, (Function.update state.cache.buf b buffer other).refs = [] →
        (state.buf other).refs = [] := by
      intro other none
      rw [List.eq_nil_iff_forall_not_mem]
      intro q member
      have still := refs q other member
      rw [none] at still
      cases still
    exact recent (before first unused) (before second clean)

theorem Cached.acquiresleep (cached : state.Cached order) {p : Pid} {b : BufPtr}
    (waits : state.stage p = .waiting b)
    (ends : (state.acquiresleep p b).state? = some after) : after.Cached order := by
  have takes : ∀ stage, (∀ other, stage ≠ BioStage.waiting other ∧ stage ≠ .putting other) →
      Cached ((state.setBuf b { state.buf b with lock := some p }).setStage p stage) order := by
    intro stage neither
    have stages : ∀ q, Function.update state.stage p stage q = state.stage q ∨
        ∀ other, Function.update state.stage p stage q ≠ .waiting other ∧
          Function.update state.stage p stage q ≠ .putting other := stages_update neither
    refine cached.quiet (by apply Quiet.setBuf <;> rfl) ?_ ?_ ?_
    · intro q other held
      by_cases here : other = b
      · subst here
        have same : some p = some q :=
          (congrArg Buf.lock (Function.update_self other _ state.cache.buf)).symm.trans held
        cases same
        exact cached.waiting p other waits
      · have same := Function.update_of_ne here
          ({ state.buf b with lock := some p } : Buf) state.cache.buf
        exact cached.holder q other ((congrArg Buf.lock same).symm.trans held)
    · intro q other later
      rcases stages q with same | neither
      · exact cached.waiting q other (same.symm.trans later)
      · exact absurd later (neither other).1
    · intro q other puts
      rcases stages q with same | neither
      · rcases cached.putting q other (same.symm.trans puts) with ⟨member, free⟩
        refine ⟨member, fun held => ?_⟩
        by_cases here : other = b
        · subst here
          have equal : some p = some q :=
            (congrArg Buf.lock (Function.update_self other _ state.cache.buf)).symm.trans held
          cases equal
          have busy := same.symm.trans puts
          rw [waits] at busy
          cases busy
        · have buffer := Function.update_of_ne here
            ({ state.buf b with lock := some p } : Buf) state.cache.buf
          exact free ((congrArg Buf.lock buffer).symm.trans held)
      · exact absurd puts (neither other).2
  unfold Caching.acquiresleep at ends
  split at ends
  · cases ends
  · dsimp only at ends
    split at ends
    · cases ends
      exact takes _ fun _ => ⟨nofun, nofun⟩
    · cases ends
      exact takes _ fun _ => ⟨nofun, nofun⟩

theorem Cached.brelse (cached : state.Cached order) {p : Pid} {b : BufPtr}
    (holds : state.Holds p b) (ends : (state.brelse p b).state? = some after) :
    after.Cached order := by
  unfold Caching.brelse at ends
  split at ends
  · cases ends
  · cases ends
    have buffers : ∀ other, (Function.update state.cache.buf b
        { state.buf b with lock := none } other).lock = if other = b then none
          else (state.buf other).lock := by
      intro other
      by_cases here : other = b
      · rw [if_pos here, here, Function.update_self]
      · rw [if_neg here, Function.update_of_ne here]
        rfl
    refine cached.quiet (by apply Quiet.setBuf <;> rfl) ?_ ?_ ?_
    · intro q other held
      have lock := (buffers other).symm.trans held
      split at lock
      · cases lock
      · exact cached.holder q other lock
    · intro q other waits
      by_cases same : q = p
      · subst same
        have here : BioStage.putting b = .waiting other :=
          (Function.update_self _ _ _).symm.trans waits
        cases here
      · exact cached.waiting q other ((Function.update_of_ne same _ _).symm.trans waits)
    · intro q other puts
      by_cases same : q = p
      · subst same
        have here : BioStage.putting b = .putting other :=
          (Function.update_self _ _ _).symm.trans puts
        cases here
        refine ⟨cached.holder q b holds.2, fun held => ?_⟩
        have lock := (buffers b).symm.trans held
        rw [if_pos rfl] at lock
        cases lock
      · rcases cached.putting q other ((Function.update_of_ne same _ _).symm.trans puts) with
          ⟨member, free⟩
        refine ⟨member, fun held => ?_⟩
        have lock := (buffers other).symm.trans held
        split at lock
        · cases lock
        · exact free lock

theorem Cached.bput (cached : state.Cached order) {p : Pid} {b : BufPtr}
    (puts : state.stage p = .putting b) : ∃ order, (state.bput p b).Cached order := by
  let buffer : Buf := { state.buf b with refs := (state.buf b).refs.erase p }
  have mine : (state.bput p b).buf b = buffer := Function.update_self _ _ _
  have others : ∀ other, other ≠ b → (state.bput p b).buf other = state.buf other :=
    fun other different => Function.update_of_ne different _ _
  have now : (state.bput p b).released b = state.clock + 1 := Function.update_self _ _ _
  have times : ∀ other, other ≠ b → (state.bput p b).released other = state.released other :=
    fun other different => Function.update_of_ne different _ _
  have refs : ∀ q other, q ≠ p ∨ other ≠ b → q ∈ (state.buf other).refs →
      q ∈ ((state.bput p b).buf other).refs := by
    intro q other apart member
    by_cases here : other = b
    · subst here
      rw [mine]
      exact (List.mem_erase_of_ne (apart.resolve_right (not_not_intro rfl))).mpr member
    · rw [others other here]
      exact member
  have locks : ∀ other, ((state.bput p b).buf other).lock = (state.buf other).lock := by
    intro other
    by_cases here : other = b
    · subst here
      rw [mine]
    · rw [others other here]
  have stages : ∀ q, q ≠ p → (state.bput p b).stage q = state.stage q :=
    fun q different => Function.update_of_ne different _ _
  have idle : (state.bput p b).stage p = .idle := Function.update_self _ _ _
  have keeps : ∀ first second, first ≠ b → second ≠ b →
      ((state.buf first).refs = [] → (state.buf second).refs = [] →
        state.released second = 0 ∨ state.released second < state.released first) →
      ((state.bput p b).buf first).refs = [] → ((state.bput p b).buf second).refs = [] →
        (state.bput p b).released second = 0 ∨
          (state.bput p b).released second < (state.bput p b).released first := by
    intro first second away apart
    rw [others first away, others second apart, times first away, times second apart]
    exact id
  have done : ∀ order, Circle (state.bput p b).cache.links order → (∀ other, other ∈ order) →
      order.Pairwise (fun first second => ((state.bput p b).buf first).refs = [] →
        ((state.bput p b).buf second).refs = [] → (state.bput p b).released second = 0 ∨
          (state.bput p b).released second < (state.bput p b).released first) →
      (state.bput p b).Cached order := by
    intro order circle complete recent
    refine ⟨circle, complete, ?_, ?_, ?_, ?_, ?_, recent⟩
    · apply cached.unique_update
      intro a different device other same
      exact different (cached.unique a b other device same)
    · intro q other held
      have before := (locks other).symm.trans held
      apply refs q other ?_ (cached.holder q other before)
      by_contra both
      rcases not_or.mp both with ⟨first, second⟩
      rw [not_not.mp first, not_not.mp second] at before
      exact (cached.putting p b puts).2 before
    · intro q other waits
      have different : q ≠ p := by
        rintro rfl
        rw [idle] at waits
        cases waits
      exact refs q other (Or.inl different)
        (cached.waiting q other ((stages q different).symm.trans waits))
    · intro q other later
      have different : q ≠ p := by
        rintro rfl
        rw [idle] at later
        cases later
      rcases cached.putting q other ((stages q different).symm.trans later) with ⟨member, free⟩
      exact ⟨refs q other (Or.inl different) member, fun held => free ((locks other).symm.trans held)⟩
    · intro other
      by_cases here : other = b
      · rw [here, now]
        exact Nat.le_refl _
      · rw [times other here]
        exact Nat.le_succ_of_le (cached.times other)
  have links : (state.bput p b).cache.links = if buffer.refcnt = 0 then
      (state.cache.links.unlink b).pushFront b else state.cache.links := rfl
  by_cases unused : buffer.refcnt = 0
  · rw [if_pos unused] at links
    refine ⟨b :: order.erase b, done _ ?_ ?_ ?_⟩
    · rw [links]
      exact (cached.circle.unlink (cached.complete b)).pushFront cached.circle.nodup.not_mem_erase
    · intro other
      by_cases here : other = b
      · rw [here]
        exact List.mem_cons_self ..
      · exact List.mem_cons_of_mem _ ((List.mem_erase_of_ne here).mpr (cached.complete other))
    · have away : ∀ other ∈ order.erase b, other ≠ b := by
        rintro other member rfl
        exact cached.circle.nodup.not_mem_erase member
      refine List.pairwise_cons.mpr ⟨?_, ?_⟩
      · intro other member _ _
        right
        rw [now, times other (away other member)]
        exact Nat.lt_succ_of_le (cached.times other)
      · refine (cached.recent.sublist List.erase_sublist).imp_of_mem ?_
        intro first second former latter
        exact keeps first second (away first former) (away second latter)
  · rw [if_neg unused] at links
    refine ⟨order, done order ?_ cached.complete ?_⟩
    · rw [links]
      exact cached.circle
    · refine cached.recent.imp ?_
      intro first second recent none nothing
      have used : ((state.bput p b).buf b).refs ≠ [] := by
        rw [mine]
        exact fun empty => unused (List.length_eq_zero_iff.mpr empty)
      have away : first ≠ b := by
        rintro rfl
        exact used none
      have apart : second ≠ b := by
        rintro rfl
        exact used nothing
      exact keeps first second away apart recent none nothing

/-- What a step can do. -/
inductive Changes (state : Caching) : Caching → Prop where
  | bget {after : Caching} (p : Pid) (dev blockno : Nat) (idle : state.stage p = .idle)
      (ends : (state.bget p dev blockno).state? = some after) : Changes state after
  | acquiresleep {after : Caching} (p : Pid) (b : BufPtr) (waits : state.stage p = .waiting b)
      (ends : (state.acquiresleep p b).state? = some after) : Changes state after
  /-- The holder of a buffer changes the flags or the data. -/
  | setBuf (b : BufPtr) (valid dirty : Bool) (data : Block) (log : Log) {stage : Pid → BioStage}
      (stages : ∀ q, stage q = state.stage q ∨
        ∀ other, stage q ≠ .waiting other ∧ stage q ≠ .putting other) :
      Changes state
        { state.setBuf b { state.buf b with valid := valid, dirty := dirty, data := data } with
          log := log, stage := stage }
  | setStage (log : Log) {stage : Pid → BioStage}
      (stages : ∀ q, stage q = state.stage q ∨
        ∀ other, stage q ≠ .waiting other ∧ stage q ≠ .putting other) :
      Changes state { state with log := log, stage := stage }
  | brelse {after : Caching} (p : Pid) (b : BufPtr) (holds : state.Holds p b)
      (ends : (state.brelse p b).state? = some after) : Changes state after
  | bput (p : Pid) (b : BufPtr) (puts : state.stage p = .putting b) : Changes state (state.bput p b)

theorem next_changes {event : CachingEvent} (stepped : state.next event = some after) :
    state.Changes after := by
  have elsewhere : ∀ p stage, (∀ other, stage ≠ BioStage.waiting other ∧ stage ≠ .putting other) →
      ∀ q, Function.update state.stage p stage q = state.stage q ∨
        ∀ other, Function.update state.stage p stage q ≠ .waiting other ∧
          Function.update state.stage p stage q ≠ .putting other :=
    fun p stage neither => stages_update neither
  rw [Caching.next, Caching.step.eq_def] at stepped
  cases event with
  | bget p dev blockno =>
      dsimp only at stepped
      split at stepped
      · exact .bget p dev blockno ‹_› stepped
      · cases stepped
  | acquiresleep p =>
      dsimp only at stepped
      split at stepped
      · exact .acquiresleep p _ ‹_› stepped
      · cases stepped
  | iderw p read =>
      dsimp only at stepped
      split at stepped
      · cases stepped
        exact .setBuf _ true false _ state.log (elsewhere p .idle fun _ => ⟨nofun, nofun⟩)
      · cases stepped
  | fill p b data =>
      dsimp only at stepped
      split at stepped
      · cases stepped
        exact .setBuf b _ _ data state.log fun _ => Or.inl rfl
      · cases stepped
  | bwrite p b =>
      dsimp only at stepped
      split at stepped
      · unfold Caching.bwrite at stepped
        split at stepped
        · cases stepped
        · cases stepped
          exact .setBuf b _ true _ state.log (elsewhere p (.syncing b) fun _ => ⟨nofun, nofun⟩)
      · cases stepped
  | logWrite p b =>
      dsimp only at stepped
      split at stepped
      · unfold Caching.logWrite at stepped
        split at stepped
        · cases stepped
        · cases stepped
          exact .setStage state.log (elsewhere p (.sized b) fun _ => ⟨nofun, nofun⟩)
      · cases stepped
  | logWriteCheck p =>
      dsimp only at stepped
      split at stepped
      · unfold Caching.logWriteCheck at stepped
        split at stepped
        · cases stepped
        · cases stepped
          exact .setStage state.log (elsewhere p (.checked _) fun _ => ⟨nofun, nofun⟩)
      · cases stepped
  | logWriteAppend p =>
      dsimp only at stepped
      split at stepped
      · unfold Caching.logWriteAppend at stepped
        dsimp only at stepped
        split at stepped
        · cases stepped
        · cases stepped
          exact .setBuf _ _ true _ _ (elsewhere p .idle fun _ => ⟨nofun, nofun⟩)
      · cases stepped
  | relog log =>
      cases stepped
      exact .setStage log fun _ => Or.inl rfl
  | brelse p b =>
      dsimp only at stepped
      split at stepped
      · exact .brelse p b ‹_› stepped
      · cases stepped
  | bput p =>
      dsimp only at stepped
      split at stepped
      · cases stepped
        exact .bput p _ ‹_›
      · cases stepped

theorem Cached.changes (cached : state.Cached order) (changes : state.Changes after) :
    ∃ order, after.Cached order := by
  cases changes with
  | bget p dev blockno idle ends => exact ⟨order, cached.bget idle ends⟩
  | acquiresleep p b waits ends => exact ⟨order, cached.acquiresleep waits ends⟩
  | setBuf b valid dirty data log stages =>
      refine ⟨order, ?_⟩
      apply cached.setBuf
      · rfl
      · exact stages
  | setStage log stages => exact ⟨order, cached.setStage stages⟩
  | brelse p b holds ends => exact ⟨order, cached.brelse holds ends⟩
  | bput p b puts => exact cached.bput puts

/-- The block that a buffer has, or had last. -/
def block (state : Caching) (b : BufPtr) : Nat × Nat := ((state.buf b).dev, (state.buf b).blockno)

theorem setBuf_block (state : Caching) {b : BufPtr} {buffer : Buf}
    (same : (buffer.dev, buffer.blockno) = state.block b) :
    (state.setBuf b buffer).block = state.block := by
  funext other
  by_cases here : other = b
  · subst here
    have now : (state.setBuf other buffer).buf other = buffer := Function.update_self _ _ _
    rw [block, now]
    exact same
  · have now : (state.setBuf b buffer).buf other = state.buf other :=
      Function.update_of_ne here _ _
    rw [block, block, now]

/-- Only `bget` gives a buffer another block, and then nobody uses it. -/
theorem Cached.changes_block (cached : state.Cached order) (changes : state.Changes after)
    {b : BufPtr} (used : 0 < (state.buf b).refcnt ∨ (state.buf b).dirty = true) :
    after.block b = state.block b := by
  cases changes with
  | bget p dev blockno idle ends =>
      rcases cached.bget_cases ends with ⟨recycled, buffer, rfl, how⟩
      rcases how with ⟨same, -⟩ | ⟨-, unused, clean, -⟩
      · have kept : (state.setBuf recycled buffer).block = state.block := by
          apply setBuf_block
          rw [same]
          rfl
        exact congrFun kept b
      · have different : b ≠ recycled := by
          rintro rfl
          rcases used with referenced | dirty
          · rw [Buf.refcnt, unused] at referenced
            cases referenced
          · rw [clean] at dirty
            cases dirty
        have now : ((state.setBuf recycled buffer).setStage p (.waiting recycled)).buf b =
            state.buf b := Function.update_of_ne different _ _
        rw [block, block, now]
  | acquiresleep p other waits ends =>
      have kept : (state.setBuf other { state.buf other with lock := some p }).block =
          state.block := by
        apply setBuf_block
        rfl
      unfold Caching.acquiresleep at ends
      split at ends
      · cases ends
      · dsimp only at ends
        split at ends <;>
        · cases ends
          exact congrFun kept b
  | setBuf other valid dirty data log stages =>
      have kept : (state.setBuf other
          { state.buf other with valid := valid, dirty := dirty, data := data }).block =
          state.block := by
        apply setBuf_block
        rfl
      exact congrFun kept b
  | setStage log stages => rfl
  | brelse p other holds ends =>
      have kept : (state.setBuf other { state.buf other with lock := none }).block =
          state.block := by
        apply setBuf_block
        rfl
      unfold Caching.brelse at ends
      split at ends
      · cases ends
      · cases ends
        exact congrFun kept b
  | bput p other puts =>
      have kept : (state.setBuf other
          { state.buf other with refs := (state.buf other).refs.erase p }).block = state.block := by
        apply setBuf_block
        rfl
      exact congrFun kept b

/-- The list that `binit` makes. -/
theorem binit_circle (cells : List BufPtr) (cache : Bcache) {done : List BufPtr}
    (circle : Circle cache.links done) (nodup : (cells.reverse ++ done).Nodup) :
    Circle (cells.foldl (fun cache b =>
      { cache.setBuf b { cache.buf b with lock := none } with
        links := cache.links.pushFront b }) cache).links (cells.reverse ++ done) := by
  induction cells generalizing cache done with
  | nil => exact circle
  | cons b rest inductionHypothesis =>
      rw [List.reverse_cons, List.append_assoc] at nodup ⊢
      have fresh : b ∉ done :=
        (List.nodup_cons.mp (List.nodup_append.mp nodup).2.1).1
      exact inductionHypothesis _ (circle.pushFront fresh) nodup

/-- The static memory that the kernel starts with; the pointers do not matter. -/
def bss (links : Links BufPtr) : Bcache where
  buf := fun _ =>
    { valid := false, dirty := false, dev := 0, blockno := 0, lock := none, refs := []
      data := fun _ => 0 }
  links := links

theorem binit_buf (cells : List BufPtr) (cache : Bcache)
    (unlocked : ∀ b, (cache.buf b).lock = none) :
    (cells.foldl (fun cache b =>
      { cache.setBuf b { cache.buf b with lock := none } with
        links := cache.links.pushFront b }) cache).buf = cache.buf := by
  induction cells generalizing cache with
  | nil => rfl
  | cons b rest inductionHypothesis =>
      have same : { cache.buf b with lock := none } = cache.buf b := by
        rw [← unlocked b]
      have kept : (cache.setBuf b { cache.buf b with lock := none }).buf = cache.buf := by
        rw [same]
        exact Function.update_eq_self b cache.buf
      rw [List.foldl_cons, inductionHypothesis]
      · exact kept
      · intro other
        change ((cache.setBuf b _).buf other).lock = none
        rw [kept]
        exact unlocked other

/-- The kernel after `binit`. -/
def boot (links : Links BufPtr) (log : Log) : Caching where
  cache := (bss links).binit
  log := log
  stage := fun _ => .idle
  clock := 0
  released := fun _ => 0

theorem boot_cached (links : Links BufPtr) (log : Log) :
    (boot links log).Cached (List.finRange nbuf).reverse := by
  have buf : (bss links).binit.buf = (bss links).buf := binit_buf _ _ fun _ => rfl
  have fields : ∀ b, (boot links log).buf b = (bss links).buf b := congrFun buf
  refine ⟨?_, fun b => List.mem_reverse.mpr (List.mem_finRange b), ?_, ?_, nofun, nofun,
    fun _ => Nat.le_refl _, ?_⟩
  · let head : Links BufPtr :=
      { next := Function.update links.next none none
        prev := Function.update links.prev none none }
    have empty : Circle head [] :=
      ⟨⟨Function.update_self none none links.next, Function.update_self none none links.prev⟩,
        List.nodup_nil⟩
    have circle := binit_circle (List.finRange nbuf) { bss links with links := head } empty
    rw [List.append_nil] at circle
    exact circle (List.nodup_reverse.mpr (List.nodup_finRange nbuf))
  · intro a b device
    rw [fields] at device
    cases device
  · intro q b held
    rw [fields] at held
    cases held
  · exact List.pairwise_of_forall fun _ _ _ _ => Or.inl rfl

theorem cached_run {links : Links BufPtr} {log : Log} {events : List CachingEvent}
    (ran : runs next (boot links log) events = some state) : ∃ order, state.Cached order := by
  apply runs_invariant (fun _ state => ∃ order, state.Cached order) ⟨_, boot_cached links log⟩ ?_ ran
  rintro _ before event after ⟨order, cached⟩ stepped
  exact cached.changes (next_changes stepped)

/-- In every run `next` visits each buffer once and `prev` is its inverse, a
block of the root device is in at most one buffer, a buffer that is referenced
or dirty keeps its block, and the unreferenced buffers are in the order of their
last release, the last one first. -/
theorem bufferCache_invariant (links : Links BufPtr) (log : Log) (events : List CachingEvent)
    (state : Caching) (ran : runs next (boot links log) events = some state) :
    (∃ order, Chain (fun b => state.cache.links.next (some b)) (state.cache.links.next none) order ∧
      order.Nodup ∧ (∀ b, b ∈ order) ∧
      order.Pairwise fun a b => (state.buf a).refcnt = 0 → (state.buf b).refcnt = 0 →
        state.released b = 0 ∨ state.released b < state.released a) ∧
    Function.LeftInverse state.cache.links.prev state.cache.links.next ∧
    Function.RightInverse state.cache.links.prev state.cache.links.next ∧
    (∀ a b, (state.buf a).dev = rootDev → (state.buf b).dev = rootDev →
      (state.buf a).blockno = (state.buf b).blockno → a = b) ∧
    ∀ event after, state.next event = some after →
      ∀ b, 0 < (state.buf b).refcnt ∨ (state.buf b).dirty = true →
        after.block b = state.block b := by
  rcases cached_run ran with ⟨order, cached⟩
  rcases cached.circle.inverse cached.complete with ⟨left, right⟩
  refine ⟨⟨order, cached.circle.chain, cached.circle.nodup, cached.complete, ?_⟩, left, right,
    cached.unique, fun event after stepped b used => cached.changes_block (next_changes stepped) used⟩
  refine cached.recent.imp ?_
  intro a b recent none nothing
  exact recent (List.length_eq_zero_iff.mp none) (List.length_eq_zero_iff.mp nothing)

/-- Two processes miss on block 6 while a third one logs block 5, and both blocks
are released. -/
def threeReaders : List CachingEvent :=
  let first : BufPtr := ⟨0, zero_lt_nbuf⟩
  let second : BufPtr := ⟨1, one_lt_nbuf⟩
  [.bget 1 rootDev 5, .acquiresleep 1, .iderw 1 (fun _ => UInt8.ofNat 0),
    .bget 2 rootDev 6, .bget 3 rootDev 6, .acquiresleep 2, .iderw 2 (fun _ => UInt8.ofNat 0),
    .logWrite 1 first, .logWriteCheck 1, .logWriteAppend 1, .brelse 1 first, .bput 1,
    .brelse 2 second, .acquiresleep 3, .bput 2, .brelse 3 second, .bput 3]

theorem bufferCache_invariant_once : ∃ state first second,
    runs next (boot ⟨fun _ => none, fun _ => none⟩ ⟨2, 30, 1, false, 1, ⟨0, fun _ => 0⟩⟩)
      threeReaders = some state ∧
    state.cache.links.next none = some second ∧ state.block second = (1, 6) ∧
    state.cache.links.next (some second) = some first ∧ state.block first = (1, 5) ∧
    state.cache.links.prev (some first) = some second ∧
    ∀ event after, state.next event = some after → after.block first = (1, 5) := by
  let first : BufPtr := ⟨0, zero_lt_nbuf⟩
  let second : BufPtr := ⟨1, one_lt_nbuf⟩
  have facts : (runs next
      (boot ⟨fun _ => none, fun _ => none⟩ ⟨2, 30, 1, false, 1, ⟨0, fun _ => 0⟩⟩)
      threeReaders).map (fun state =>
        decide (state.cache.links.next none = some second ∧ state.block second = (1, 6) ∧
          state.cache.links.next (some second) = some first ∧ state.block first = (1, 5) ∧
          (state.buf first).dirty = true)) = some true := by
    decide +kernel
  rcases Option.map_eq_some_iff.mp facts with ⟨state, ran, holds⟩
  rcases of_decide_eq_true holds with ⟨head, latter, following, former, dirty⟩
  rcases bufferCache_invariant _ _ threeReaders state ran with ⟨-, inverse, -, -, kept⟩
  refine ⟨state, first, second, ran, head, latter, following, former, ?_, ?_⟩
  · rw [← following]
    exact inverse (some second)
  · intro event after stepped
    rw [kept event after stepped first (Or.inr dirty)]
    exact former

end Caching

end Xv6.Fs
