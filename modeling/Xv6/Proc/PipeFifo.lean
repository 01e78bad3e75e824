import Xv6.Proc.Pipe

/-!
# Pipes are lossless queues

Readers get a prefix of what the writers stored, in that order, and each call
of `pipewrite` stores its own bytes in their order.
-/

namespace Xv6.Proc

open Xv6.Library Monitor

variable {Proc Cpu Lock : Type}

/-- The buffer, the length and the progress of a `pipewrite`. -/
def PipeStage.progress : PipeStage → Option (Memory × Int × Nat)
  | .write addr n i => some (addr, n, i)
  | .full addr n i => some (addr, n, i)
  | .stored addr n => some (addr, n, n.toNat)
  | _ => none

section Fifo

variable [DecidableEq Proc]

/-- What a call of `pipewrite` stored. -/
def Pipe.storedBy (p : Pipe Proc) (writer : Proc) (call : Nat) : List UInt8 :=
  (p.stored.filter fun s => s.writer = writer ∧ s.call = call).map StoredByte.byte

/-- The bytes of one writer are stored call after call. -/
def Pipe.InOrder (p : Pipe Proc) : Prop :=
  p.stored.Pairwise fun earlier later => earlier.writer = later.writer → earlier.call ≤ later.call

structure Fifo (data : Lock → Pipe Proc) (places : Proc → Place Lock PipeLocal) : Prop where
  ring : ∀ lk, (data lk).Ring (data lk).copied.flatten
  old : ∀ lk, ∀ s ∈ (data lk).stored, s.call ≤ (places s.writer).here.calls
  ordered : ∀ lk, (data lk).InOrder
  current : ∀ lk p here addr n i, places p = .within lk here →
    here.stage.progress = some (addr, n, i) →
    i ≤ n.toNat ∧ (data lk).storedBy p here.calls = addr.read 0 i
  ended : ∀ lk, ∀ w ∈ (data lk).written, w.call ≤ (places w.writer).here.calls ∧
    ((places w.writer).here.stage.progress ≠ none → w.call < (places w.writer).here.calls)
  returned : ∀ lk, ∀ w ∈ (data lk).written, ∃ k ≤ w.n.toNat,
    (data lk).storedBy w.writer w.call = w.addr.read 0 k ∧ (w.result = w.n → k = w.n.toNat)

variable {data : Lock → Pipe Proc} {places : Proc → Place Lock PipeLocal} {p : Proc} {lk : Lock}
  {here : PipeLocal}

theorem Pipe.storedBy_congr {first second : Pipe Proc} (same : first.stored = second.stored)
    (writer : Proc) (call : Nat) : first.storedBy writer call = second.storedBy writer call := by
  unfold Pipe.storedBy
  rw [same]

/-- A call that has a later number than all bytes stored nothing. -/
theorem Fifo.storedBy_new (fifo : Fifo data places) (lk : Lock) {call : Nat}
    (new : (places p).here.calls < call) : (data lk).storedBy p call = [] := by
  unfold Pipe.storedBy
  rw [List.map_eq_nil_iff, List.filter_eq_nil_iff]
  rintro s member both
  rcases of_decide_eq_true both with ⟨rfl, rfl⟩
  exact Nat.not_lt_of_le (fifo.old lk s member) new

/-- `p` moves, and no pipe changes. -/
theorem Fifo.moved (fifo : Fifo data places) {place : Place Lock PipeLocal}
    (calls : (places p).here.calls ≤ place.here.calls)
    (ended : place.here.stage.progress ≠ none → (places p).here.stage.progress = none →
      (places p).here.calls < place.here.calls)
    (current : ∀ lk here addr n i, place = .within lk here →
      here.stage.progress = some (addr, n, i) →
      i ≤ n.toNat ∧ (data lk).storedBy p here.calls = addr.read 0 i) :
    Fifo data (Function.update places p place) := by
  constructor
  · exact fifo.ring
  · intro lk s member
    have before := fifo.old lk s member
    by_cases same : s.writer = p
    · rw [same, Function.update_self]
      rw [same] at before
      exact Nat.le_trans before calls
    · rw [Function.update_of_ne same]
      exact before
  · exact fifo.ordered
  · intro lk q here addr n i within progress
    by_cases same : q = p
    · subst same
      rw [Function.update_self] at within
      exact current lk here addr n i within progress
    · rw [Function.update_of_ne same] at within
      exact fifo.current lk q here addr n i within progress
  · intro lk w member
    rcases fifo.ended lk w member with ⟨before, during⟩
    by_cases same : w.writer = p
    · rw [same, Function.update_self]
      rw [same] at before during
      refine ⟨Nat.le_trans before calls, fun some => ?_⟩
      by_cases none : (places p).here.stage.progress = none
      · exact Nat.lt_of_le_of_lt before (ended some none)
      · exact Nat.lt_of_lt_of_le (during none) calls
    · rw [Function.update_of_ne same]
      exact ⟨before, during⟩
  · exact fifo.returned

/-- `p` is in no `pipewrite` after its move. -/
theorem Fifo.quiet (fifo : Fifo data places) {place : Place Lock PipeLocal}
    (calls : place.here.calls = (places p).here.calls) (none : place.here.stage.progress = none) :
    Fifo data (Function.update places p place) := by
  apply fifo.moved
  · exact Nat.le_of_eq calls.symm
  · intro some
    exact absurd none some
  · intro _ there _ _ _ same some
    subst same
    rw [show (Place.within _ there).here = there from rfl, some] at none
    cases none

theorem fifo_start {after : PipeLocal} {call : Lock × PipeCall} (outside : places p = .outside here)
    (starts : (pipes : Monitor Proc Lock _ _ _ _).start p here call = some (lk, after))
    (fifo : Fifo data places) : Fifo data (Function.update places p (.within lk after)) := by
  have now : (places p).here = here := by rw [outside]; rfl
  rcases call with ⟨pipe, call⟩
  cases call with
  | pipewrite addr n =>
      cases starts
      apply fifo.moved
      · rw [now]
        exact Nat.le_succ _
      · intro _ _
        rw [now]
        exact Nat.lt_succ_self _
      · intro other there addr' n' i' same progress
        cases same
        cases progress
        refine ⟨Nat.zero_le _, fifo.storedBy_new lk ?_⟩
        rw [now]
        exact Nat.lt_succ_self _
  | piperead n =>
      cases starts
      exact fifo.quiet (by rw [now]; rfl) rfl
  | pipeclose writable =>
      cases starts
      exact fifo.quiet (by rw [now]; rfl) rfl

variable [DecidableEq Lock]

/-- A pipe changes, but neither what is stored nor which calls returned. -/
theorem Fifo.kept (fifo : Fifo data places) {pipe : Pipe Proc}
    (ring : pipe.Ring pipe.copied.flatten) (stored : pipe.stored = (data lk).stored)
    (written : pipe.written = (data lk).written) :
    Fifo (Function.update data lk pipe) places := by
  have same : ∀ other, (Function.update data lk pipe other).stored = (data other).stored ∧
      (Function.update data lk pipe other).written = (data other).written := by
    intro other
    by_cases equal : other = lk
    · subst equal
      rw [Function.update_self]
      exact ⟨stored, written⟩
    · rw [Function.update_of_ne equal]
      exact ⟨rfl, rfl⟩
  constructor
  · intro other
    by_cases equal : other = lk
    · subst equal
      rw [Function.update_self]
      exact ring
    · rw [Function.update_of_ne equal]
      exact fifo.ring other
  · intro other
    rw [(same other).1]
    exact fifo.old other
  · intro other
    rw [Pipe.InOrder, (same other).1]
    exact fifo.ordered other
  · intro other q there addr n i
    rw [Pipe.storedBy_congr (same other).1]
    exact fifo.current other q there addr n i
  · intro other
    rw [(same other).2]
    exact fifo.ended other
  · intro other w
    rw [(same other).2, Pipe.storedBy_congr (same other).1]
    exact fifo.returned other w

theorem Pipe.Filled.storedBy {pipe after : Pipe Proc} {call i last : Nat} {addr : Memory}
    (filled : pipe.Filled p call addr i last after) (q : Proc) (other : Nat) :
    after.storedBy q other = if q = p ∧ other = call then
      pipe.storedBy q other ++ addr.read i (last - i) else pipe.storedBy q other := by
  unfold Pipe.storedBy
  rw [filled.stored, List.filter_append, List.map_append]
  split
  · rename_i both
    rcases both with ⟨rfl, rfl⟩
    congr 1
    rw [List.filter_eq_self.mpr]
    · simp [Memory.read, Function.comp_def]
    · intro s member
      rcases List.mem_map.mp member with ⟨k, -, rfl⟩
      simp
  · rename_i different
    have none : ((List.range (last - i)).map fun k =>
        (⟨p, call, addr (i + k)⟩ : StoredByte Proc)).filter
          (fun s => s.writer = q ∧ s.call = other) = [] := by
      rw [List.filter_eq_nil_iff]
      intro s member both
      rcases List.mem_map.mp member with ⟨k, -, rfl⟩
      rcases of_decide_eq_true both with ⟨rfl, rfl⟩
      exact different ⟨rfl, rfl⟩
    rw [none, List.map_nil, List.append_nil]

/-- `pipewrite` stored some more of its bytes. -/
theorem Fifo.filled (fifo : Fifo data places) (within : places p = .within lk here) {addr : Memory}
    {n : Int} {i last : Nat} {pipe : Pipe Proc} (progress : here.stage.progress = some (addr, n, i))
    (filled : (data lk).Filled p here.calls addr i last pipe) (bound : last ≤ n.toNat)
    (ring : pipe.Ring pipe.copied.flatten) {stage : PipeStage}
    (later : stage.progress = some (addr, n, last)) :
    Fifo (Function.update data lk pipe)
      (Function.update places p (.within lk { here with stage := stage })) := by
  have now : (places p).here = here := by rw [within]; rfl
  have before := fifo.current lk p here addr n i within progress
  have low := filled.le
  -- The call is under way, so no returned call is the same.
  have apart : ∀ w ∈ (data lk).written, ¬(w.writer = p ∧ w.call = here.calls) := by
    rintro w member ⟨rfl, same⟩
    have during := (fifo.ended lk w member).2
    rw [now, progress] at during
    exact Nat.lt_irrefl _ (same ▸ during (by simp))
  have calls : ∀ q, (Function.update places p
      (.within lk { here with stage := stage }) q).here.calls = (places q).here.calls := by
    intro q
    by_cases same : q = p
    · subst same
      rw [Function.update_self, now]
      rfl
    · rw [Function.update_of_ne same]
  have written : ∀ other, (Function.update data lk pipe other).written = (data other).written := by
    intro other
    by_cases equal : other = lk
    · subst equal
      rw [Function.update_self, filled.written]
    · rw [Function.update_of_ne equal]
  constructor
  · intro other
    by_cases equal : other = lk
    · subst equal
      rw [Function.update_self]
      exact ring
    · rw [Function.update_of_ne equal]
      exact fifo.ring other
  · intro other s member
    rw [calls]
    by_cases equal : other = lk
    · subst equal
      rw [Function.update_self, filled.stored] at member
      rcases List.mem_append.mp member with old | new
      · exact fifo.old other s old
      · rcases List.mem_map.mp new with ⟨k, -, rfl⟩
        exact Nat.le_of_eq (by rw [now])
    · rw [Function.update_of_ne equal] at member
      exact fifo.old other s member
  · intro other
    by_cases equal : other = lk
    · subst equal
      rw [Function.update_self, Pipe.InOrder, filled.stored]
      refine List.pairwise_append.mpr ⟨fifo.ordered other, ?_, ?_⟩
      · exact List.pairwise_map.mpr (List.Pairwise.imp (fun _ _ => Nat.le_refl _)
          (List.pairwise_lt_range))
      · intro s old t new same
        rcases List.mem_map.mp new with ⟨k, -, rfl⟩
        have before := fifo.old other s old
        rw [same, now] at before
        exact before
    · rw [Function.update_of_ne equal]
      exact fifo.ordered other
  · intro other q there addr' n' i' place some
    by_cases same : q = p
    · subst same
      rw [Function.update_self] at place
      cases place
      rw [Function.update_self, filled.storedBy, if_pos ⟨rfl, rfl⟩, before.2]
      rw [later] at some
      cases some
      refine ⟨bound, ?_⟩
      have split : addr.read 0 last = addr.read 0 (i + (last - i)) := by
        rw [Nat.add_sub_cancel' low]
      rw [split, Memory.read_append, Nat.zero_add]
    · rw [Function.update_of_ne same] at place
      have held := fifo.current other q there addr' n' i' place some
      by_cases equal : other = lk
      · subst equal
        rw [Function.update_self, filled.storedBy, if_neg fun both => same both.1]
        exact held
      · rw [Function.update_of_ne equal]
        exact held
  · intro other w member
    rw [written] at member
    rw [calls]
    have during := fifo.ended other w member
    by_cases same : w.writer = p
    · refine ⟨during.1, fun _ => during.2 ?_⟩
      rw [same, now, progress]
      simp
    · rw [Function.update_of_ne same]
      exact during
  · intro other w member
    rw [written] at member
    have stored := fifo.returned other w member
    by_cases equal : other = lk
    · subst equal
      rw [Function.update_self, filled.storedBy, if_neg (apart w member)]
      exact stored
    · rw [Function.update_of_ne equal]
      exact stored

/-- A `pipewrite` returns. -/
theorem Fifo.returns (fifo : Fifo data places) (within : places p = .within lk here) {addr : Memory}
    {n : Int} {i : Nat} (progress : here.stage.progress = some (addr, n, i)) {result : Int}
    (all : result = n → i = n.toNat) :
    Fifo
      (Function.update data lk { data lk with
        written := (data lk).written ++ [⟨p, here.calls, addr, n, result⟩] })
      (Function.update places p (.outside { here with stage := .idle, result := result })) := by
  have now : (places p).here = here := by rw [within]; rfl
  have before := fifo.current lk p here addr n i within progress
  have out : Fifo data
      (Function.update places p (.outside { here with stage := .idle, result := result })) :=
    fifo.quiet (by rw [now]; rfl) rfl
  have same : ∀ other, (Function.update data lk { data lk with
      written := (data lk).written ++ [⟨p, here.calls, addr, n, result⟩] } other).stored =
        (data other).stored := by
    intro other
    by_cases equal : other = lk
    · subst equal
      rw [Function.update_self]
    · rw [Function.update_of_ne equal]
  have cases : ∀ other w, w ∈ (Function.update data lk { data lk with
      written := (data lk).written ++ [⟨p, here.calls, addr, n, result⟩] } other).written →
        w ∈ (data other).written ∨ (other = lk ∧ w = ⟨p, here.calls, addr, n, result⟩) := by
    intro other w member
    by_cases equal : other = lk
    · subst equal
      rw [Function.update_self] at member
      rcases List.mem_append.mp member with old | new
      · exact Or.inl old
      · exact Or.inr ⟨rfl, List.mem_singleton.mp new⟩
    · rw [Function.update_of_ne equal] at member
      exact Or.inl member
  constructor
  · intro other
    by_cases equal : other = lk
    · subst equal
      rw [Function.update_self]
      exact (fifo.ring other).same rfl rfl rfl rfl
    · rw [Function.update_of_ne equal]
      exact fifo.ring other
  · intro other
    rw [same]
    exact out.old other
  · intro other
    rw [Pipe.InOrder, same]
    exact out.ordered other
  · intro other q there addr' n' i'
    rw [Pipe.storedBy_congr (same other)]
    exact out.current other q there addr' n' i'
  · intro other w member
    rcases cases other w member with old | ⟨-, rfl⟩
    · exact out.ended other w old
    · rw [Function.update_self]
      exact ⟨Nat.le_refl _, fun some => absurd rfl some⟩
  · intro other w member
    rw [Pipe.storedBy_congr (same other)]
    rcases cases other w member with old | ⟨rfl, rfl⟩
    · exact out.returned other w old
    · exact ⟨i, before.1, before.2, all⟩

theorem fifo_body {killed : Bool} (within : places p = .within lk here) (fifo : Fifo data places) :
    Fifo (Function.update data lk (pipes.body p killed lk here (data lk)).1)
      (Function.update places p ((pipes.body p killed lk here (data lk)).2.place lk)) := by
  have now : (places p).here = here := by rw [within]; rfl
  have ring := fifo.ring lk
  -- In most pieces no byte is stored.
  have other : ∀ (pipe : Pipe Proc) (place : Place Lock PipeLocal),
      pipe.Ring pipe.copied.flatten → pipe.stored = (data lk).stored →
      pipe.written = (data lk).written → place.here.calls = here.calls →
      place.here.stage.progress = none →
      Fifo (Function.update data lk pipe) (Function.update places p place) := by
    intro pipe place ring stored written calls none
    exact (fifo.quiet (by rw [now, calls]) none).kept ring stored written
  simp only [pipes]
  cases stage : here.stage with
  | write addr n i =>
      have progress : here.stage.progress = some (addr, n, i) := by rw [stage]; rfl
      have before := fifo.current lk p here addr n i within progress
      have result := (data lk).fill_filled p here.calls addr (n.toNat - i) i
      have ringed := ring.fill p here.calls addr (n.toNat - i) i
      dsimp only at result ringed ⊢
      generalize (data lk).fill p here.calls addr (n.toNat - i) i = filled at result ringed ⊢
      rcases filled with ⟨last, pipe⟩
      rcases result with ⟨filled, bound, -⟩
      have most : last ≤ n.toNat := by
        have le : last ≤ i + (n.toNat - i) := bound
        omega
      rw [← filled.copied] at ringed
      have wrote : ∀ {stage : PipeStage}, stage.progress = some (addr, n, last) →
          Fifo (Function.update data lk pipe)
            (Function.update places p (.within lk { here with stage := stage })) :=
        fun later => fifo.filled within progress filled most ringed later
      by_cases more : (last : Int) < n
      · simp only [if_pos more]
        by_cases leaves : pipe.readopen = false ∨ killed = true
        · simp only [if_pos leaves]
          have later : (PipeStage.write addr n last).progress = some (addr, n, last) := rfl
          have none : (-1 : Int) = n → last = n.toNat := by omega
          have returned := (wrote later).returns (Function.update_self ..) rfl none
          simp only [Function.update_idem, Function.update_self] at returned
          exact returned
        · simp only [if_neg leaves]
          exact wrote rfl
      · simp only [if_neg more]
        have all : last = n.toNat := by omega
        exact wrote (by rw [all]; rfl)
  | full addr n i =>
      rw [Function.update_eq_self]
      have before := fifo.current lk p here addr n i within (by rw [stage]; rfl)
      apply fifo.moved
      · rw [now]
        exact Nat.le_refl _
      · intro _ none
        rw [now, stage] at none
        cases none
      · intro other there addr' n' i' same progress
        cases same
        cases progress
        exact before
  | stored addr n => exact fifo.returns within (by rw [stage]; rfl) fun _ => rfl
  | read n =>
      by_cases waits : (data lk).IsEmpty ∧ (data lk).writeopen = true
      · simp only [if_pos waits]
        split
        · exact other _ _ ring rfl rfl rfl rfl
        · exact other _ _ ring rfl rfl rfl (by
            simp [Move.place, Place.here, stage, PipeStage.progress])
      · simp only [if_neg waits]
        have drained := Pipe.drain_ring (p := data lk) n.toNat []
          (by rw [List.append_nil]; exact ring)
        dsimp only at drained ⊢
        generalize (data lk).drain n.toNat [] = result at drained ⊢
        rcases result with ⟨bytes, pipe⟩
        rcases drained with ⟨ringed, stored, copied, written, -⟩
        refine other _ _ ?_ stored written rfl rfl
        rw [← copied] at ringed
        have whole : (pipe.copied ++ [bytes]).flatten = pipe.copied.flatten ++ bytes := by simp
        rw [whole]
        exact ringed.same rfl rfl rfl rfl
  | copied i => exact other _ _ ring rfl rfl rfl rfl
  | close writable =>
      cases writable with
      | true => exact other _ _ (ring.same rfl rfl rfl rfl) rfl rfl rfl rfl
      | false => exact other _ _ (ring.same rfl rfl rfl rfl) rfl rfl rfl rfl
  | closed =>
      dsimp only
      split
      · exact other _ _ (ring.same rfl rfl rfl rfl) rfl rfl rfl rfl
      · exact other _ _ ring rfl rfl rfl rfl
  | idle =>
      exact other _ _ ring rfl rfl rfl (by simp [Move.place, Place.here, stage, PipeStage.progress])

end Fifo

/-- New pipes, and no process in a call. -/
def bootPipes (memory : Lock → Memory) :
    State Proc Cpu Lock (PipeChan Lock) (Pipe Proc) PipeLocal :=
  boot (fun p => Pipe.pipealloc (memory p)) fun _ => { calls := 0, stage := .idle, result := 0 }

variable [DecidableEq Proc] [DecidableEq Cpu] [DecidableEq Lock]

theorem fifo_run {memory : Lock → Memory} {events : List (Event Proc Cpu (Lock × PipeCall))}
    {state : State Proc Cpu Lock (PipeChan Lock) (Pipe Proc) PipeLocal}
    (ran : runs pipes.step (bootPipes memory) events = some state) :
    Fifo state.data state.places := by
  refine atomic_run Fifo ?_ ?_ ?_ ran
  · refine ⟨fun lk => ⟨rfl, rfl, Nat.zero_le _, List.prefix_refl _, ?_⟩, nofun,
      fun _ => List.Pairwise.nil, nofun, nofun, nofun⟩
    intro k _ none
    exact absurd none (Nat.not_lt_zero k)
  · intro data places p here call lk after outside starts fifo
    exact fifo_start outside starts fifo
  · intro data places p killed lk here within fifo
    exact fifo_body within fifo

/-- In every run and for every pipe: at most `PIPESIZE` bytes are in it, the
bytes read are a prefix of those stored, those of one writer are stored call
after call, a call of `pipewrite` stored its first bytes in their order, and all
`n` if it returned `n`. -/
theorem pipe_fifo (memory : Lock → Memory) (events : List (Event Proc Cpu (Lock × PipeCall)))
    (state : State Proc Cpu Lock (PipeChan Lock) (Pipe Proc) PipeLocal)
    (ran : runs pipes.step (bootPipes memory) events = some state) (lk : Lock) :
    ((state.data lk).nwrite - (state.data lk).nread).toNat ≤ pipesize ∧
      (state.data lk).copied.flatten <+: (state.data lk).stored.map StoredByte.byte ∧
      (state.data lk).InOrder ∧
      (∀ p here addr n i, state.places p = .within lk here →
        here.stage.progress = some (addr, n, i) →
        (state.data lk).storedBy p here.calls = addr.read 0 i) ∧
      ∀ w ∈ (state.data lk).written, ∃ k ≤ w.n.toNat,
        (state.data lk).storedBy w.writer w.call = w.addr.read 0 k ∧
          (w.result = w.n → k = w.n.toNat) := by
  have fifo := fifo_run ran
  have ring := fifo.ring lk
  refine ⟨?_, ring.first, fifo.ordered lk, ?_, fifo.returned lk⟩
  · have room := ring.room
    rw [ring.used]
    omega
  · intro p here addr n i within progress
    exact (fifo.current lk p here addr n i within progress).2

/-- Process `false` writes three bytes, and `true` reads two of them. -/
def writeAndRead : List (Event Bool Bool (Unit × PipeCall)) :=
  [.schedule false, .switch false false, .advance false,
    .schedule true, .switch true true, .advance true,
    .call false ((), .pipewrite (fun i => UInt8.ofNat i) 3), .advance false, .advance false,
    .advance false, .advance false, .advance false,
    .call true ((), .piperead 2), .advance true, .advance true]

theorem pipe_fifo_once :
    ∃ state, runs pipes.step (bootPipes fun _ _ => 0) writeAndRead = some state ∧
      ((state.data ()).nwrite - (state.data ()).nread).toNat ≤ pipesize ∧
      (state.data ()).copied = [[0, 1]] ∧
      (state.data ()).copied.flatten <+: (state.data ()).stored.map StoredByte.byte := by
  have copied : (runs pipes.step (bootPipes fun _ _ => 0) writeAndRead).map
      (fun state => (state.data ()).copied) = some [[0, 1]] := by
    decide +kernel
  rcases Option.map_eq_some_iff.mp copied with ⟨state, ran, bytes⟩
  have fifo := pipe_fifo (fun _ _ => 0) writeAndRead state ran ()
  exact ⟨state, ran, fifo.1, bytes, fifo.2.1⟩

end Xv6.Proc
