import Mathlib.Data.List.Induction
import Xv6.Net.Init

/-!
# The receive ring

The device side of reception as the 8254x manual describes it, and runs in
which frames arrive and `e1000_recv` is called in any order.  The driver moves
its own tail but never writes `RDT` again, so the device fills the ring once
and then stops.
-/

namespace Xv6.Net

open Xv6.Library

/-! ## The device -/

/-- The buffer size `RCTL.BSIZE = 0` selects. -/
def rxBufSize : Nat := 2048

/-- A frame from the wire: not empty, and small enough for one buffer. -/
structure Frame where
  bytes : List UInt8
  nonempty : 0 < bytes.length
  fits : bytes.length ≤ rxBufSize

theorem Frame.length_toUInt16 (frame : Frame) :
    frame.bytes.length.toUInt16.toNat = frame.bytes.length := by
  have fits := frame.fits
  simp only [rxBufSize] at fits
  simp [Nat.mod_eq_of_lt (show frame.bytes.length < 65536 by omega)]

/-- The slot the device fills next. -/
def Nic.rxHead (nic : Nic) : Nat := (nic.regRead regRDH).toNat

/-- Store a frame through descriptor `RDH` and advance `RDH`. -/
def Nic.deposit (nic : Nic) (frame : Frame) : Nic :=
  let descriptor := nic.drv.rbd (slot nic.rxHead)
  let filled := { descriptor with
    length := frame.bytes.length.toUInt16, status := rxdStatDD ||| rxdStatEOP }
  ((nic.writeMem descriptor.addr frame.bytes).setRbd (slot nic.rxHead) filled).regWrite regRDH
    ((nic.rxHead + 1) % rbdSlots).toUInt32

/-- An arriving frame is stored, unless the device owns no descriptor. -/
def Nic.receive (nic : Nic) (frame : Frame) : Option Nic :=
  if nic.regRead regRDH = nic.regRead regRDT then none else some (nic.deposit frame)

/-! ## Runs -/

inductive RxEvent where
  | arrive (frame : Frame)
  | recv

/-- The card, with the frames it has stored and the packets handed to callers. -/
structure RxState where
  nic : Nic
  accepted : List Frame
  handed : List (List UInt8)

/-- One arrival or one call of `e1000_recv`. -/
def rxStep (state : RxState) : RxEvent → RxState
  | .arrive frame =>
      match state.nic.receive frame with
      | none => state
      | some nic => { state with nic := nic, accepted := state.accepted ++ [frame] }
  | .recv =>
      match state.nic.e1000Recv with
      | (nic, none) => { state with nic := nic }
      | (nic, some pkt) => { state with nic := nic, handed := state.handed ++ [pkt] }

/-- The state after a sequence of events, from the state `e1000_init` leaves. -/
def rxRun (card : PoweredCard) (events : List RxEvent) : RxState :=
  events.foldl rxStep { nic := card.nic, accepted := [], handed := [] }

theorem rxRun_concat (card : PoweredCard) (events : List RxEvent) (event : RxEvent) :
    rxRun card (events ++ [event]) = rxStep (rxRun card events) event := by
  simp [rxRun]

/-- How many frames arrive in a sequence of events. -/
def arrivals (events : List RxEvent) : Nat :=
  events.countP fun event => match event with | .arrive _ => true | .recv => false

@[simp]
theorem arrivals_arrive (events : List RxEvent) (frame : Frame) :
    arrivals (events ++ [.arrive frame]) = arrivals events + 1 := by
  simp [arrivals]

@[simp]
theorem arrivals_recv (events : List RxEvent) :
    arrivals (events ++ [.recv]) = arrivals events := by
  simp [arrivals]

/-! ## The ownership invariant -/

/-- The slots from the first unread to the last stored frame hold those frames;
every other slot is clear. -/
structure RxInvariant (initial : Nic) (events : List RxEvent) (state : RxState) : Prop where
  rdt : state.nic.regRead regRDT = 127
  rdh : (state.nic.regRead regRDH).toNat = state.accepted.length
  stored : state.accepted.length = min (arrivals events) 127
  read_le : state.handed.length ≤ state.accepted.length
  handed : state.handed = (state.accepted.take state.handed.length).map Frame.bytes
  tail : state.nic.drv.rbdTail = (127 + state.handed.length) % 128
  addr : ∀ index, (state.nic.drv.rbd index).addr = (initial.drv.rbd index).addr
  full : ∀ position (inside : position < state.accepted.length), state.handed.length ≤ position →
    (state.nic.drv.rbd (slot position)).status = rxdStatDD ||| rxdStatEOP ∧
    (state.nic.drv.rbd (slot position)).length = state.accepted[position].bytes.length.toUInt16 ∧
    state.nic.mem.read (state.nic.drv.rbd (slot position)).addr
      state.accepted[position].bytes.length = state.accepted[position].bytes
  clear : ∀ position < 128, position < state.handed.length ∨ state.accepted.length ≤ position →
    (state.nic.drv.rbd (slot position)).status = 0

theorem rxInvariant_initial {initial : Nic} (ready : Ready initial) :
    RxInvariant initial [] { nic := initial, accepted := [], handed := [] } where
  rdt := ready.rdt
  rdh := by simp [ready.rdh]
  stored := by simp [arrivals]
  read_le := Nat.le_refl _
  handed := rfl
  tail := by simp [ready.rbdTail]
  addr _ := rfl
  full position inside := absurd inside (Nat.not_lt_zero _)
  clear position _ _ := ready.rbdStatus _

/-- Slots below one lap are told apart by their positions. -/
theorem slot_ne_of_lt {first second : Nat} (belowFirst : first < 128) (belowSecond : second < 128)
    (different : first ≠ second) : slot first ≠ slot second := by
  rw [Ne, slot_eq_iff, Nat.mod_eq_of_lt belowFirst, Nat.mod_eq_of_lt belowSecond]
  exact different

namespace RxInvariant

variable {initial : Nic} {events : List RxEvent} {state : RxState}

/-- The device drops a frame exactly when it has stored 127. -/
theorem receive_eq_none_iff (invariant : RxInvariant initial events state) (frame : Frame) :
    state.nic.receive frame = none ↔ state.accepted.length = 127 := by
  have heads : state.nic.regRead regRDH = state.nic.regRead regRDT ↔
      state.accepted.length = 127 := by
    rw [invariant.rdt, ← invariant.rdh, ← UInt32.toNat_inj]
    rfl
  rw [← heads]
  unfold Nic.receive
  split <;> simp_all

/-- A stored frame goes to the slot after the last one and touches no other. -/
theorem arrive (ready : Ready initial) (invariant : RxInvariant initial events state)
    (frame : Frame) :
    RxInvariant initial (events ++ [.arrive frame]) (rxStep state (.arrive frame)) := by
  have bounded : state.accepted.length ≤ 127 := by
    rw [invariant.stored]
    exact Nat.min_le_right _ _
  cases received : state.nic.receive frame with
  | none =>
      have full := (invariant.receive_eq_none_iff frame).mp received
      have stored := invariant.stored
      simp only [rxStep, received]
      exact { invariant with stored := by rw [arrivals_arrive]; omega }
  | some nic =>
      have room : state.accepted.length < 127 := by
        refine lt_of_le_of_ne bounded fun full => ?_
        simp [(invariant.receive_eq_none_iff frame).mpr full] at received
      obtain rfl : state.nic.deposit frame = nic := by
        simpa [Nic.receive] using (Option.ite_none_left_eq_some.mp received).2
      have head : state.nic.rxHead = state.accepted.length := invariant.rdh
      have readLe := invariant.read_le
      simp only [rxStep, received]
      refine ⟨?_, ?_, ?_, ?_, ?_, invariant.tail, ?_, ?_, ?_⟩
      · simpa [Nic.deposit, Nic.regRead_regWrite, regRDT, regRDH] using invariant.rdt
      · simp only [Nic.deposit, Nic.regRead_regWrite, head, if_true, List.length_append,
          List.length_singleton, rbdSlots]
        simp
        omega
      · have stored := invariant.stored
        simp only [arrivals_arrive, List.length_append, List.length_singleton]
        omega
      · simp only [List.length_append, List.length_singleton]
        omega
      · rw [List.take_append_of_le_length readLe]
        exact invariant.handed
      · intro index
        simp only [Nic.deposit, Nic.regWrite_drv, Nic.setRbd_rbd]
        split
        · next same => rw [← invariant.addr, same]
        · exact invariant.addr index
      · intro position inside unread
        have below : position < 128 := by
          simp only [List.length_append, List.length_singleton] at inside
          omega
        by_cases last : position = state.accepted.length
        · subst last
          simp only [Nic.deposit, Nic.regWrite_drv, Nic.regWrite_mem, Nic.setRbd_mem,
            Nic.setRbd_rbd, head, if_true, Nic.writeMem_mem, List.getElem_append_right,
            Nat.le_refl, Nat.sub_self, List.getElem_singleton, Memory.read_write_same, and_self]
        · have before : position < state.accepted.length := by
            simp only [List.length_append, List.length_singleton] at inside
            omega
          have other : slot position ≠ slot state.accepted.length :=
            slot_ne_of_lt below (by omega) last
          obtain ⟨status, length, bytes⟩ := invariant.full position before unread
          have fits := state.accepted[position].fits
          have apart := ready.rbdApart _ _ other
          simp only [← invariant.addr, pgSize] at apart
          have newFits := frame.fits
          simp only [rxBufSize] at fits newFits
          simp only [Nic.deposit, Nic.regWrite_drv, Nic.regWrite_mem, Nic.setRbd_mem,
            Nic.setRbd_rbd, head, other, if_false, Nic.writeMem_mem, Nic.writeMem_drv,
            List.getElem_append_left before]
          refine ⟨status, length, ?_⟩
          rw [Memory.read_write_disjoint, bytes]
          omega
      · intro position below free
        simp only [List.length_append, List.length_singleton] at free
        have other : slot position ≠ slot state.accepted.length :=
          slot_ne_of_lt below (by omega) (by omega)
        simp only [Nic.deposit, Nic.regWrite_drv, Nic.setRbd_rbd, head, other, if_false,
          Nic.writeMem_drv]
        exact invariant.clear position below (by omega)

/-- `e1000_recv` hands over the oldest unread frame and clears its slot, or
finds a clear slot and hands over nothing. -/
theorem recv (invariant : RxInvariant initial events state) :
    RxInvariant initial (events ++ [.recv]) (rxStep state .recv) ∧
      (rxStep state .recv).accepted = state.accepted ∧
      (rxStep state .recv).handed =
        (state.accepted.take (state.handed.length + 1)).map Frame.bytes := by
  have stored := invariant.stored
  have readLe := invariant.read_le
  have next : slot (state.nic.drv.rbdTail + 1) = slot state.handed.length := by
    rw [slot_eq_iff, invariant.tail]
    omega
  by_cases unread : state.handed.length < state.accepted.length
  · obtain ⟨status, length, bytes⟩ := invariant.full _ unread (Nat.le_refl _)
    have position : state.handed.length < 128 := by omega
    have done : ¬((rxdStatDD ||| rxdStatEOP) &&& rxdStatDD = 0 ∨
        (rxdStatDD ||| rxdStatEOP) &&& rxdStatEOP = 0) := by decide
    have address : v2p (p2v (state.nic.drv.rbd (slot state.handed.length)).addr) =
        (state.nic.drv.rbd (slot state.handed.length)).addr := by
      simp [v2p, p2v]
    have handed : state.nic.e1000Recv = (state.nic.releaseRbd (slot state.handed.length),
        some state.accepted[state.handed.length].bytes) := by
      simp only [Nic.e1000Recv, next, status, done, if_false, address, length,
        Frame.length_toUInt16, bytes]
    have read : (rxStep state .recv).handed =
        (state.accepted.take (state.handed.length + 1)).map Frame.bytes := by
      rw [List.take_succ_eq_append_getElem unread, List.map_append, ← invariant.handed]
      simp only [rxStep, handed, List.map_cons, List.map_nil]
    refine ⟨?_, by simp only [rxStep, handed], read⟩
    have more : (rxStep state .recv).handed.length = state.handed.length + 1 := by
      simp only [rxStep, handed, List.length_append, List.length_singleton]
    constructor
    case handed => rw [more]; simpa only [rxStep, handed] using read
    case read_le => rw [more]; simp only [rxStep, handed]; omega
    all_goals simp only [rxStep, handed, List.length_append, List.length_singleton]
    case rdt => exact invariant.rdt
    case rdh => exact invariant.rdh
    case stored => rw [arrivals_recv]; exact stored
    case tail =>
      simp only [Nic.releaseRbd, slot]
      omega
    case addr =>
      intro index
      rw [← invariant.addr index]
      simp only [Nic.releaseRbd, Nic.setRbd_rbd]
      split
      · next same => rw [same]
      · rfl
    case full =>
      intro later inside after
      have other : slot later ≠ slot state.handed.length :=
        slot_ne_of_lt (by omega) position (by omega)
      simp only [Nic.releaseRbd, Nic.setRbd_rbd, Nic.setRbd_mem, other, if_false]
      exact invariant.full later inside (by omega)
    case clear =>
      intro other below free
      simp only [Nic.releaseRbd, Nic.setRbd_rbd]
      split
      · rfl
      · next different =>
          have apart : other ≠ state.handed.length := fun same => different (by rw [same])
          exact invariant.clear other below (by omega)
  · have status := invariant.clear state.handed.length (by omega) (by omega)
    have nothing : state.nic.e1000Recv = (state.nic, none) := by
      simp [Nic.e1000Recv, next, status]
    have same : rxStep state .recv = state := by
      simp only [rxStep, nothing]
    rw [same]
    refine ⟨{ invariant with stored := by rw [arrivals_recv]; exact stored }, rfl, ?_⟩
    rw [List.take_of_length_le (by omega)]
    conv_lhs => rw [invariant.handed]
    rw [List.take_of_length_le (by omega)]

end RxInvariant

/-- The invariant holds after every sequence of events. -/
theorem rxRun_invariant (card : PoweredCard) (events : List RxEvent) :
    RxInvariant card.nic events (rxRun card events) := by
  induction events using List.reverseRecOn with
  | nil => exact rxInvariant_initial card.nic_ready
  | append_singleton past event inductionHypothesis =>
      rw [rxRun_concat]
      cases event with
      | arrive frame => exact inductionHypothesis.arrive card.nic_ready frame
      | recv => exact inductionHypothesis.recv.1

/-! ## Delivery and loss -/

/-- The frame is dropped when it arrives after these events. -/
def Dropped (card : PoweredCard) (past : List RxEvent) (frame : Frame) : Prop :=
  (rxRun card past).nic.receive frame = none

/-- How many accepted frames no caller has been given yet. -/
def unread (card : PoweredCard) (past : List RxEvent) : Nat :=
  (rxRun card past).accepted.length - (rxRun card past).handed.length

/-- What the callers have been given is a prefix of the accepted frames, and
at every moment the next call hands over the next accepted frame, if any. -/
def HandsOverInOrder (card : PoweredCard) (events : List RxEvent) : Prop :=
  ∀ past rest, events = past ++ rest →
    let state := rxRun card past
    state.handed = (state.accepted.take state.handed.length).map Frame.bytes ∧
    (rxStep state .recv).handed =
      (state.accepted.take (state.handed.length + 1)).map Frame.bytes

/-- No frame is dropped while fewer than 127 accepted frames are unread. -/
def NoEarlyDrop (card : PoweredCard) (events : List RxEvent) : Prop :=
  ∀ past frame rest, events = past ++ .arrive frame :: rest →
    Dropped card past frame → 127 ≤ unread card past

/-- Some call of `e1000_recv` comes after some arrival. -/
def ReadAfterArrival (events : List RxEvent) : Prop :=
  ∃ before after, events = before ++ .recv :: after ∧ 0 < arrivals before

/-- Every frame that arrives after 127 others arrives before anything is read. -/
def WithinOneLap (events : List RxEvent) : Prop :=
  ∀ past frame rest, events = past ++ .arrive frame :: rest →
    127 ≤ arrivals past → ¬ReadAfterArrival past

theorem handsOverInOrder (card : PoweredCard) (events : List RxEvent) :
    HandsOverInOrder card events := by
  intro past rest _
  have invariant := rxRun_invariant card past
  exact ⟨invariant.handed, invariant.recv.2.2⟩

theorem dropped_iff (card : PoweredCard) (past : List RxEvent) (frame : Frame) :
    Dropped card past frame ↔ 127 ≤ arrivals past := by
  have invariant := rxRun_invariant card past
  have stored := invariant.stored
  rw [Dropped, invariant.receive_eq_none_iff]
  omega

theorem readAfterArrival_arrive (past : List RxEvent) (frame : Frame) :
    ReadAfterArrival (past ++ [.arrive frame]) ↔ ReadAfterArrival past := by
  constructor
  · rintro ⟨before, after, split, arrived⟩
    rcases List.eq_nil_or_concat after with rfl | ⟨front, last, rfl⟩
    · simp at split
    · have regrouped : past ++ [.arrive frame] = (before ++ .recv :: front) ++ [last] := by
        simpa using split
      have same := (List.append_inj' regrouped rfl).1
      exact ⟨before, front, same, arrived⟩
  · rintro ⟨before, after, rfl, arrived⟩
    exact ⟨before, after ++ [.arrive frame], by simp, arrived⟩

theorem readAfterArrival_recv (past : List RxEvent) :
    ReadAfterArrival (past ++ [.recv]) ↔ 0 < arrivals past := by
  constructor
  · rintro ⟨before, after, split, arrived⟩
    have counted := congrArg arrivals split
    simp only [arrivals_recv] at counted
    rw [counted]
    simp only [arrivals, List.countP_append] at arrived ⊢
    omega
  · intro arrived
    exact ⟨past, [], rfl, arrived⟩

/-- Something has been handed over exactly when a read came after an arrival. -/
theorem handed_pos_iff (card : PoweredCard) (past : List RxEvent) :
    0 < (rxRun card past).handed.length ↔ ReadAfterArrival past := by
  induction past using List.reverseRecOn with
  | nil => simp [rxRun, ReadAfterArrival]
  | append_singleton past event inductionHypothesis =>
      have invariant := rxRun_invariant card past
      have stored := invariant.stored
      rw [rxRun_concat]
      cases event with
      | arrive frame =>
          rw [readAfterArrival_arrive, ← inductionHypothesis, rxStep]
          cases (rxRun card past).nic.receive frame <;> rfl
      | recv =>
          rw [readAfterArrival_recv, invariant.recv.2.2, List.length_map, List.length_take]
          omega

/-- Frames are lost early exactly in the runs that leave the first lap. -/
theorem noEarlyDrop_iff (card : PoweredCard) (events : List RxEvent) :
    NoEarlyDrop card events ↔ WithinOneLap events := by
  have pointwise : ∀ past frame, (Dropped card past frame → 127 ≤ unread card past) ↔
      (127 ≤ arrivals past → ¬ReadAfterArrival past) := by
    intro past frame
    have stored := (rxRun_invariant card past).stored
    rw [dropped_iff, ← handed_pos_iff card, unread]
    omega
  constructor
  · intro kept past frame rest split
    exact (pointwise past frame).mp (kept past frame rest split)
  · intro within past frame rest split
    exact (pointwise past frame).mpr (within past frame rest split)

/-- **Reception.**  Every run hands over exactly the accepted frames, in order
and each once; and no frame is dropped early exactly when the run stays within
one lap of the ring. -/
theorem e1000_reception_iff (card : PoweredCard) (events : List RxEvent) :
    (HandsOverInOrder card events ∧ NoEarlyDrop card events) ↔ WithinOneLap events := by
  rw [noEarlyDrop_iff]
  exact and_iff_right (handsOverInOrder card events)

/-- A one-byte frame. -/
def smallFrame : Frame := ⟨[0], by decide, by decide⟩

/-- 127 arrivals, all of them read, and one more arrival. -/
def lappedRun : List RxEvent :=
  List.replicate 127 (.arrive smallFrame) ++ List.replicate 127 .recv ++ [.arrive smallFrame]

/-- With every accepted frame read, the 128th frame is dropped. -/
theorem e1000_reception_fails :
    ¬(HandsOverInOrder emulatedCard lappedRun ∧ NoEarlyDrop emulatedCard lappedRun) := by
  rintro ⟨_, kept⟩
  have within := (noEarlyDrop_iff emulatedCard lappedRun).mp kept
  have filled : arrivals (List.replicate 127 (.arrive smallFrame)) = 127 := by
    simp only [arrivals, List.countP_replicate, if_true]
  let past := List.replicate 127 (RxEvent.arrive smallFrame) ++ List.replicate 127 .recv
  have lapped : 127 ≤ arrivals past := by
    simp only [arrivals, past, List.countP_append, List.countP_replicate, if_true]
    exact Nat.le_add_right _ _
  refine within past smallFrame [] rfl lapped ?_
  exact ⟨List.replicate 127 (.arrive smallFrame), List.replicate 126 .recv, rfl,
    by rw [filled]; decide⟩

end Xv6.Net
