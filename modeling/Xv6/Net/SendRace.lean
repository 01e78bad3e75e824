import Mathlib.Data.Fintype.Card
import Xv6.Net.Transmit

/-!
# Two calls of `e1000_send` at once

The system calls run with interrupts on and yield on timer ticks, and nothing
locks the tail.  Two calls interleave well as long as neither fills its
descriptor between the other's filling and advancing: otherwise both fill the
same descriptor, and the one after it goes out without having been filled.
-/

namespace Xv6.Net

open Xv6.Library

/-! ## The calls and the device -/

/-- The system calls that send. -/
inductive Caller where
  | arp
  | icmp
  deriving DecidableEq

instance : Fintype Caller where
  elems := {.arp, .icmp}
  complete caller := by cases caller <;> simp

def Caller.other : Caller → Caller
  | .arp => .icmp
  | .icmp => .arp

theorem Caller.eq_other {first second : Caller} (different : first ≠ second) :
    first = second.other := by
  cases first <;> cases second <;> first | rfl | exact absurd rfl different

/-- Where a call of `e1000_send` is. -/
inductive SendPc where
  | called
  | filled
  | advanced (oldtail : Slot)
  | waiting (oldtail : Slot)
  | returned
  deriving DecidableEq

inductive SendEvent where
  | fill (caller : Caller)
  | advance (caller : Caller)
  | notify (caller : Caller)
  | poll (caller : Caller)
  | process
  deriving DecidableEq

structure SendState where
  nic : Nic
  pc : Caller → SendPc
  wire : List (List UInt8)

def SendState.moveTo (state : SendState) (caller : Caller) (pc : SendPc) : SendState :=
  { state with pc := Function.update state.pc caller pc }

@[simp]
theorem moveTo_nic (state : SendState) (caller : Caller) (pc : SendPc) :
    (state.moveTo caller pc).nic = state.nic := rfl

@[simp]
theorem moveTo_wire (state : SendState) (caller : Caller) (pc : SendPc) :
    (state.moveTo caller pc).wire = state.wire := rfl

@[simp]
theorem moveTo_self (state : SendState) (caller : Caller) (pc : SendPc) :
    (state.moveTo caller pc).pc caller = pc := Function.update_self ..

theorem moveTo_ne (state : SendState) {caller other : Caller} (different : other ≠ caller)
    (pc : SendPc) : (state.moveTo caller pc).pc other = state.pc other :=
  Function.update_of_ne different ..

/-- One step of a call or of the device.  The tail a call writes to `TDT` is the one
in the driver structure at that moment. -/
def sendStep (packet : Caller → Packet) (state : SendState) : SendEvent → Option SendState
  | .fill caller =>
      match state.pc caller with
      | .called => some
          ({ state with nic := state.nic.fillDescriptor (packet caller).val }.moveTo caller .filled)
      | _ => none
  | .advance caller =>
      match state.pc caller with
      | .filled => some ({ state with nic := state.nic.advanceTail }.moveTo caller
          (.advanced state.nic.txSlot))
      | _ => none
  | .notify caller =>
      match state.pc caller with
      | .advanced oldtail => some
          ({ state with nic := state.nic.writeTDT }.moveTo caller (.waiting oldtail))
      | _ => none
  | .poll caller =>
      match state.pc caller with
      | .waiting oldtail =>
          if state.nic.txDone oldtail then some (state.moveTo caller .returned) else some state
      | _ => none
  | .process =>
      match state.nic.transmit with
      | none => none
      | some (nic, bytes) => some { state with nic := nic, wire := state.wire ++ [bytes] }

/-- Both calls begin when no other one is under way. -/
def sendStart (idle : TxState) : SendState :=
  { nic := idle.nic, pc := fun _ => .called, wire := idle.wire }

/-! ## The condition and the property -/

/-- A call fills its descriptor only when the other one is not between filling and
advancing. -/
def FillsAlone (state : SendState) : SendEvent → Prop
  | .fill caller => state.pc caller.other ≠ .filled
  | _ => True

instance (state : SendState) : (event : SendEvent) → Decidable (FillsAlone state event)
  | .fill caller => inferInstanceAs (Decidable (state.pc caller.other ≠ .filled))
  | .advance _ | .notify _ | .poll _ | .process => isTrue trivial

/-- Nothing but packets of the calls has been transmitted since, each at most
once, and those of the calls that have returned. -/
def EachOnce (packet : Caller → Packet) (earlier : List (List UInt8)) (state : SendState) : Prop :=
  ∃ sent : List Caller, sent.Nodup ∧
    state.wire = earlier ++ sent.map (fun caller => (packet caller).val) ∧
    ∀ caller, state.pc caller = .returned → caller ∈ sent

/-! ## The invariant -/

/-- Transmit buffers of different slots do not overlap. -/
def Nic.TxApart (nic : Nic) : Prop :=
  ∀ first second, first ≠ second →
    v2p (nic.drv.txBuf first) + packetBufSize ≤ v2p (nic.drv.txBuf second) ∨
      v2p (nic.drv.txBuf second) + packetBufSize ≤ v2p (nic.drv.txBuf first)

/-- The slot holds the packet, for the device to send. -/
structure Nic.Holds (nic : Nic) (index : Slot) (packet : List UInt8) : Prop where
  descriptor : nic.drv.tbd index = { Tbd.zero with
    addr := v2p (nic.drv.txBuf index), length := packet.length.toUInt16, cmd := 9 }
  buffer : nic.mem.read (v2p (nic.drv.txBuf index)) packet.length = packet

/-- Where a call can be whose packet lies in the slot `index` after the first one, with
the given numbers of slots advanced over, handed to the device and sent. -/
def PlaceOf (position advanced handed sent index : Nat) : SendPc → Prop
  | .called => False
  | .filled => index = advanced
  | .advanced oldtail => index < advanced ∧ oldtail = slot (position + index)
  | .waiting oldtail => index < handed ∧ oldtail = slot (position + index)
  | .returned => index < sent

/-- The calls that have filled a descriptor, in that order, lie in consecutive slots. -/
structure InOrder (packet : Caller → Packet) (earlier : List (List UInt8)) (position : Nat)
    (order : List Caller) (advanced handed sent : Nat) (state : SendState) : Prop where
  nodup : order.Nodup
  sent_le : sent ≤ handed
  handed_le : handed ≤ advanced
  advanced_le : advanced ≤ order.length
  tails : state.nic.TailsAt ((position + advanced) % 128) ((position + sent) % 128)
    ((position + handed) % 128)
  apart : state.nic.TxApart
  called : ∀ caller, caller ∉ order → state.pc caller = .called
  places : ∀ index (inside : index < order.length),
    PlaceOf position advanced handed sent index (state.pc order[index])
  pending : ∀ index (inside : index < order.length), sent ≤ index →
    state.nic.Holds (slot (position + index)) (packet order[index]).val
  done : ∀ index < sent, state.nic.txDone (slot (position + index)) = true
  wire : state.wire = earlier ++ (order.take sent).map fun caller => (packet caller).val

section Steps

variable {packet : Caller → Packet} {earlier : List (List UInt8)} {position : Nat}
  {order : List Caller} {advanced handed sent : Nat} {state next : SendState}

namespace InOrder

theorem length_le (invariant : InOrder packet earlier position order advanced handed sent state) :
    order.length ≤ 2 :=
  invariant.nodup.length_le_card

/-- Slots of different packets are different. -/
theorem slot_ne (invariant : InOrder packet earlier position order advanced handed sent state)
    {first second : Nat} (firstInside : first ≤ order.length) (secondInside : second ≤ order.length)
    (different : first ≠ second) : slot (position + first) ≠ slot (position + second) := by
  have short := invariant.length_le
  rw [Ne, slot_eq_iff]
  omega

/-- A call that is not at the start has a place in the order. -/
theorem place (invariant : InOrder packet earlier position order advanced handed sent state)
    (caller : Caller) (begun : state.pc caller ≠ .called) :
    ∃ index, ∃ inside : index < order.length, order[index] = caller ∧
      PlaceOf position advanced handed sent index (state.pc caller) := by
  have member : caller ∈ order := by
    by_contra outside
    exact begun (invariant.called caller outside)
  obtain ⟨index, inside, rfl⟩ := List.mem_iff_getElem.mp member
  exact ⟨index, inside, rfl, invariant.places index inside⟩

end InOrder

/-- The calls at the start stay there when another one moves. -/
theorem called_moveTo {order : List Caller}
    (called : ∀ caller, caller ∉ order → state.pc caller = .called) {caller : Caller}
    (begun : state.pc caller ≠ .called) {pc : SendPc} :
    ∀ other, other ∉ order → (state.moveTo caller pc).pc other = .called := by
  intro other outside
  have different : other ≠ caller := by
    rintro rfl
    exact begun (called other outside)
  rw [moveTo_ne _ different]
  exact called other outside

/-- The places when one call moves. -/
theorem places_moveTo {order : List Caller} (nodup : order.Nodup) {caller : Caller} {pc : SendPc}
    {index : Nat} {inside : index < order.length} (here : order[index] = caller)
    {Place After : Nat → SendPc → Prop} (moves : After index pc)
    (stays : ∀ other, other ≠ index → ∀ place, Place other place → After other place)
    (places : ∀ index (inside : index < order.length), Place index (state.pc order[index])) :
    ∀ index (inside : index < order.length),
      After index ((state.moveTo caller pc).pc order[index]) := by
  intro other otherInside
  by_cases same : other = index
  · subst same
    rw [here, moveTo_self]
    exact moves
  · have apart : order[other] ≠ caller := by
      rw [← here]
      exact fun equal => same ((nodup.getElem_inj_iff).mp equal)
    rw [moveTo_ne _ apart]
    exact stays other same _ (places other otherInside)

/-- A packet held for the device is not reported yet. -/
theorem Nic.Holds.not_done {nic : Nic} {index : Slot} {bytes : List UInt8}
    (holds : nic.Holds index bytes) : nic.txDone index = false := by
  simp [Nic.txDone, holds.descriptor, Tbd.zero]

theorem Nic.Holds.describes {nic : Nic} {index : Slot} {packet : Packet}
    (holds : nic.Holds index packet.val) : nic.Describes index packet.val where
  cmd := by rw [holds.descriptor]
  status := by rw [holds.descriptor]; rfl
  bytes := by
    rw [holds.descriptor]
    simp only [Packet.length_toUInt16]
    exact holds.buffer

theorem setTbd_txBuf (nic : Nic) (index : Slot) (descriptor : Tbd) :
    (nic.setTbd index descriptor).drv.txBuf = nic.drv.txBuf := rfl

theorem fillDescriptor_txBuf (nic : Nic) (packet : List UInt8) :
    (nic.fillDescriptor packet).drv.txBuf = nic.drv.txBuf := by
  rw [Nic.fillDescriptor, setTbd_txBuf, Nic.writeMem_drv]

/-- Filling puts the packet into the slot at the tail. -/
theorem Nic.holds_fillDescriptor (nic : Nic) (packet : List UInt8) :
    (nic.fillDescriptor packet).Holds nic.txSlot packet where
  descriptor := by
    rw [fillDescriptor_txBuf]
    simp only [Nic.fillDescriptor, Nic.setTbd_tbd, if_true, Tbd.zero]
  buffer := by
    rw [fillDescriptor_txBuf, Nic.fillDescriptor, Nic.setTbd_mem, Nic.writeMem_mem,
      Memory.read_write_same]

/-- Filling leaves the packets in other slots. -/
theorem Nic.Holds.fillDescriptor {nic : Nic} (apart : nic.TxApart) {index : Slot}
    {packet new : Packet} (holds : nic.Holds index packet.val) (other : index ≠ nic.txSlot) :
    (nic.fillDescriptor new.val).Holds index packet.val where
  descriptor := by
    rw [fillDescriptor_txBuf, ← holds.descriptor]
    simp only [Nic.fillDescriptor, Nic.setTbd_tbd, if_neg other, Nic.writeMem_drv]
  buffer := by
    have buffers := apart index nic.txSlot other
    have fits := packet.property
    have newFits := new.property
    simp only [packetBufSize] at buffers fits newFits
    rw [fillDescriptor_txBuf]
    simp only [Nic.fillDescriptor, Nic.setTbd_mem, Nic.writeMem_mem]
    rw [Memory.read_write_disjoint _ (by omega), holds.buffer]

theorem Nic.txDone_fillDescriptor {nic : Nic} {index : Slot} (packet : List UInt8)
    (other : index ≠ nic.txSlot) :
    (nic.fillDescriptor packet).txDone index = nic.txDone index := by
  simp only [Nic.txDone, Nic.fillDescriptor, Nic.setTbd_tbd, if_neg other, Nic.writeMem_drv]

namespace InOrder

theorem txSlot (invariant : InOrder packet earlier position order advanced handed sent state) :
    state.nic.txSlot = slot (position + advanced) := by
  rw [Nic.txSlot, invariant.tails.software, slot_mod]

/-- Only a packet that lies in the slot at the tail is not advanced over. -/
theorem all_advanced
    (invariant : InOrder packet earlier position order advanced handed sent state)
    (alone : ∀ caller ∈ order, state.pc caller ≠ .filled) : advanced = order.length := by
  by_contra different
  have inside : advanced < order.length := lt_of_le_of_ne invariant.advanced_le different
  have unfilled := alone _ (List.getElem_mem inside)
  have place := invariant.places advanced inside
  have handedLe := invariant.handed_le
  have sentLe := invariant.sent_le
  cases pc : state.pc order[advanced] with
  | called => rw [pc] at place; exact place
  | filled => exact unfilled pc
  | advanced => rw [pc] at place; exact Nat.lt_irrefl _ place.1
  | waiting => rw [pc] at place; exact absurd place.1 (by omega)
  | returned => rw [pc, PlaceOf] at place; omega

/-- A call fills the slot after those of the calls before it. -/
theorem fill {caller : Caller}
    (invariant : InOrder packet earlier position order advanced handed sent state)
    (alone : FillsAlone state (.fill caller))
    (step : sendStep packet state (.fill caller) = some next) :
    InOrder packet earlier position (order ++ [caller]) advanced handed sent next := by
  cases start : state.pc caller with
  | filled | advanced | waiting | returned => simp [sendStep, start] at step
  | called =>
      simp only [sendStep, start, Option.some.injEq] at step
      subst step
      have fresh : caller ∉ order := by
        intro member
        obtain ⟨index, inside, rfl⟩ := List.mem_iff_getElem.mp member
        have place := invariant.places index inside
        rw [start] at place
        exact place
      have others : ∀ other ∈ order, other ≠ caller := fun other member same =>
        fresh (same ▸ member)
      have all : advanced = order.length := by
        refine invariant.all_advanced fun other member => ?_
        rw [Caller.eq_other (others other member)]
        exact alone
      have here := invariant.txSlot
      have sentLe := invariant.sent_le
      have handedLe := invariant.handed_le
      have apart : ∀ index, index ≤ order.length → index ≠ advanced →
          slot (position + index) ≠ state.nic.txSlot := by
        intro index inside different
        rw [here]
        exact invariant.slot_ne inside invariant.advanced_le different
      refine ⟨?_, sentLe, handedLe, ?_, ?_, ?_, ?_, ?_, ?_, ?_, ?_⟩
      · exact List.nodup_append.mpr ⟨invariant.nodup, List.nodup_singleton _, by simpa using others⟩
      · rw [List.length_append]
        exact Nat.le_add_right_of_le invariant.advanced_le
      · exact ⟨by simpa using invariant.tails.software, by simpa using invariant.tails.head,
          by simpa using invariant.tails.tail⟩
      · simp only [moveTo_nic, Nic.TxApart, fillDescriptor_txBuf]
        exact invariant.apart
      · intro other outside
        rw [List.mem_append, List.mem_singleton, not_or] at outside
        rw [moveTo_ne _ outside.2]
        exact invariant.called other outside.1
      · intro index inside
        rw [List.getElem_append]
        split
        · next before =>
            rw [moveTo_ne _ (others _ (List.getElem_mem before))]
            exact invariant.places index before
        · next last =>
            rw [List.length_append, List.length_singleton] at inside
            rw [List.getElem_singleton, moveTo_self, PlaceOf]
            omega
      · intro index inside unsent
        simp only [moveTo_nic]
        rw [List.getElem_append]
        split
        · next before =>
            exact (invariant.pending index before unsent).fillDescriptor invariant.apart
              (apart index (by omega) (by omega))
        · next last =>
            rw [List.length_append, List.length_singleton] at inside
            rw [List.getElem_singleton, show index = advanced by omega, ← here]
            exact Nic.holds_fillDescriptor _ _
      · intro index below
        rw [moveTo_nic, Nic.txDone_fillDescriptor _ (apart index (by omega) (by omega))]
        exact invariant.done index below
      · rw [moveTo_wire, List.take_append_of_le_length (by omega), invariant.wire]

/-- A call moves the tail over its own packet. -/
theorem advance {caller : Caller}
    (invariant : InOrder packet earlier position order advanced handed sent state)
    (step : sendStep packet state (.advance caller) = some next) :
    InOrder packet earlier position order (advanced + 1) handed sent next := by
  cases start : state.pc caller with
  | called | advanced | waiting | returned => simp [sendStep, start] at step
  | filled =>
      simp only [sendStep, start, Option.some.injEq] at step
      subst step
      obtain ⟨index, inside, here, place⟩ := invariant.place caller (by rw [start]; simp)
      rw [start, PlaceOf] at place
      subst place
      have handedLe := invariant.handed_le
      have tails := invariant.tails
      refine ⟨invariant.nodup, invariant.sent_le, by omega, by omega,
        ⟨?_, tails.head, tails.tail⟩, invariant.apart, ?_, ?_, ?_, invariant.done, invariant.wire⟩
      · simp only [moveTo_nic, Nic.advanceTail, tails.software, tbdSlots]
        omega
      · exact called_moveTo invariant.called (by rw [start]; simp)
      · refine places_moveTo invariant.nodup here ?_ ?_ invariant.places
        · exact ⟨Nat.lt_succ_self _, invariant.txSlot⟩
        · intro other different pc place
          cases pc with
          | called => exact place
          | filled => exact absurd place different
          | advanced => exact ⟨Nat.lt_succ_of_lt place.1, place.2⟩
          | waiting => exact place
          | returned => exact place
      · intro index inside unsent
        have holds := invariant.pending index inside unsent
        exact ⟨holds.descriptor, holds.buffer⟩

/-- A call hands everything advanced over to the device. -/
theorem notify {caller : Caller}
    (invariant : InOrder packet earlier position order advanced handed sent state)
    (step : sendStep packet state (.notify caller) = some next) :
    InOrder packet earlier position order advanced advanced sent next := by
  cases start : state.pc caller with
  | called | filled | waiting | returned => simp [sendStep, start] at step
  | advanced oldtail =>
      simp only [sendStep, start, Option.some.injEq] at step
      subst step
      obtain ⟨index, inside, here, place⟩ := invariant.place caller (by rw [start]; simp)
      rw [start] at place
      have handedLe := invariant.handed_le
      have sentLe := invariant.sent_le
      have tails := invariant.tails
      refine ⟨invariant.nodup, by omega, by omega, invariant.advanced_le,
        ⟨tails.software, ?_, ?_⟩, invariant.apart, ?_, ?_, ?_, invariant.done, invariant.wire⟩
      · simpa [Nic.writeTDT, Nic.regRead_regWrite, regTDH, regTDT] using tails.head
      · simp [Nic.writeTDT, Nic.regRead_regWrite, tails.software]
      · exact called_moveTo invariant.called (by rw [start]; simp)
      · refine places_moveTo invariant.nodup here ?_ ?_ invariant.places
        · exact place
        · intro other different pc place
          cases pc with
          | called => exact place
          | filled => exact place
          | advanced => exact place
          | waiting => exact ⟨Nat.lt_of_lt_of_le place.1 handedLe, place.2⟩
          | returned => exact place
      · intro index inside unsent
        have holds := invariant.pending index inside unsent
        exact ⟨holds.descriptor, holds.buffer⟩

/-- A call returns only when the device has sent its packet. -/
theorem poll {caller : Caller}
    (invariant : InOrder packet earlier position order advanced handed sent state)
    (step : sendStep packet state (.poll caller) = some next) :
    InOrder packet earlier position order advanced handed sent next := by
  cases start : state.pc caller with
  | called | filled | advanced | returned => simp [sendStep, start] at step
  | waiting oldtail =>
      simp only [sendStep, start] at step
      obtain ⟨index, inside, here, place⟩ := invariant.place caller (by rw [start]; simp)
      rw [start] at place
      obtain ⟨given, rfl⟩ := place
      split at step
      case isFalse =>
        cases step
        exact invariant
      case isTrue done =>
        cases step
        have isSent : index < sent := by
          by_contra unsent
          have holds := invariant.pending index inside (Nat.le_of_not_lt unsent)
          rw [holds.not_done] at done
          cases done
        refine ⟨invariant.nodup, invariant.sent_le, invariant.handed_le, invariant.advanced_le,
          invariant.tails, invariant.apart, ?_, ?_, invariant.pending, invariant.done,
          invariant.wire⟩
        · exact called_moveTo invariant.called (by rw [start]; simp)
        · exact places_moveTo invariant.nodup here isSent (fun _ _ _ place => place)
            invariant.places

/-- The device sends the oldest packet it has not sent. -/
theorem process
    (invariant : InOrder packet earlier position order advanced handed sent state)
    (step : sendStep packet state .process = some next) :
    InOrder packet earlier position order advanced handed (sent + 1) next := by
  have tails := invariant.tails
  have short := invariant.length_le
  have advancedLe := invariant.advanced_le
  have handedLe := invariant.handed_le
  have unsent : sent < handed := by
    by_contra all
    have same : sent = handed := Nat.le_antisymm invariant.sent_le (Nat.le_of_not_lt all)
    simp [sendStep, Nic.transmit, tails.head, tails.tail, same] at step
  have inside : sent < order.length := by omega
  have holds := invariant.pending sent inside (Nat.le_refl _)
  have owned : ¬state.nic.regRead regTDH = state.nic.regRead regTDT := by
    rw [tails.head, tails.tail, toUInt32_eq_iff (Nat.mod_lt _ (by decide))
      (Nat.mod_lt _ (by decide))]
    omega
  have head : state.nic.txHead = (position + sent) % 128 := by
    rw [Nic.txHead, tails.head, toUInt32_toNat (Nat.mod_lt _ (by decide))]
  simp only [sendStep, Nic.transmit, if_neg owned, head, slot_mod, holds.describes.bytes,
    Option.some.injEq] at step
  subst step
  have other : ∀ index, index ≤ order.length → index ≠ sent →
      slot (position + index) ≠ slot (position + sent) := fun index below different =>
    invariant.slot_ne below (by omega) different
  refine ⟨invariant.nodup, unsent, handedLe, advancedLe, ⟨tails.software, ?_, ?_⟩,
    invariant.apart, invariant.called, ?_, ?_, ?_, ?_⟩
  · simp only [Nic.regRead_regWrite, if_true, tbdSlots]
    congr 1
    omega
  · simpa [Nic.regRead_regWrite, regTDH, regTDT] using tails.tail
  · intro index below
    have place := invariant.places index below
    cases pc : state.pc order[index] with
    | called => rw [pc] at place; exact place
    | filled => rw [pc] at place; exact place
    | advanced => rw [pc] at place; exact place
    | waiting => rw [pc] at place; exact place
    | returned => rw [pc] at place; exact Nat.lt_succ_of_lt place
  · intro index below after
    have still := invariant.pending index below (by omega)
    refine ⟨?_, still.buffer⟩
    simp only [Nic.regWrite_drv, Nic.setTbd_tbd, if_neg (other index (by omega) (by omega)),
      setTbd_txBuf]
    exact still.descriptor
  · intro index below
    by_cases last : index = sent
    · subst last
      have asked : (9 : UInt8) &&& tdescCmdRS ≠ 0 := by decide
      simp [Nic.txDone, Nic.setTbd_tbd, Tbd.reported, holds.describes.cmd, holds.describes.status,
        asked, txdStatDD]
    · simp only [Nic.txDone, Nic.regWrite_drv, Nic.setTbd_tbd,
        if_neg (other index (by omega) last)]
      exact invariant.done index (by omega)
  · rw [List.take_succ_eq_append_getElem inside, List.map_append, ← List.append_assoc,
      ← invariant.wire]
    rfl

/-- What one step does to the invariant. -/
theorem step {event : SendEvent}
    (invariant : InOrder packet earlier position order advanced handed sent state)
    (alone : FillsAlone state event) (step : sendStep packet state event = some next) :
    ∃ order advanced handed sent,
      InOrder packet earlier position order advanced handed sent next := by
  cases event with
  | fill caller => exact ⟨_, _, _, _, invariant.fill alone step⟩
  | advance caller => exact ⟨_, _, _, _, invariant.advance step⟩
  | notify caller => exact ⟨_, _, _, _, invariant.notify step⟩
  | poll caller => exact ⟨_, _, _, _, invariant.poll step⟩
  | process => exact ⟨_, _, _, _, invariant.process step⟩

theorem eachOnce (invariant : InOrder packet earlier position order advanced handed sent state) :
    EachOnce packet earlier state := by
  refine ⟨order.take sent, invariant.nodup.sublist (List.take_sublist ..), invariant.wire, ?_⟩
  intro caller returned
  obtain ⟨index, inside, rfl, place⟩ := invariant.place caller (by simp [returned])
  rw [returned, PlaceOf] at place
  rw [List.mem_take_iff_getElem]
  exact ⟨index, by omega, rfl⟩

end InOrder

end Steps

/-! ## Both calls can return -/

/-- How many steps a call has left. -/
def SendPc.left : SendPc → Nat
  | .called => 4
  | .filled => 3
  | .advanced _ => 2
  | .waiting _ => 1
  | .returned => 0

def SendState.left (state : SendState) : Nat := (state.pc .arp).left + (state.pc .icmp).left

theorem left_moveTo (state : SendState) (caller : Caller) (pc : SendPc) :
    (state.moveTo caller pc).left + (state.pc caller).left = state.left + pc.left := by
  cases caller with
  | arp =>
      rw [SendState.left, moveTo_self, moveTo_ne _ (by decide), SendState.left]
      omega
  | icmp =>
      rw [SendState.left, moveTo_self, moveTo_ne _ (by decide), SendState.left]
      omega

section Progress

variable {packet : Caller → Packet} {earlier : List (List UInt8)} {position : Nat}
  {order : List Caller} {advanced handed sent : Nat} {state : SendState}

/-- As long as a call has not returned, a step is possible that brings the end nearer. -/
theorem InOrder.progress
    (invariant : InOrder packet earlier position order advanced handed sent state) :
    (∀ caller, state.pc caller = .returned) ∨
      ∃ event next, FillsAlone state event ∧ sendStep packet state event = some next ∧
        ∃ order advanced handed' sent',
          InOrder packet earlier position order advanced handed' sent' next ∧
          3 * next.left + (handed' - sent') < 3 * state.left + (handed - sent) := by
  have short := invariant.length_le
  have advancedLe := invariant.advanced_le
  have sentLe := invariant.sent_le
  by_cases owned : sent < handed
  · right
    have tails := invariant.tails
    have differ : ¬state.nic.regRead regTDH = state.nic.regRead regTDT := by
      rw [tails.head, tails.tail, toUInt32_eq_iff (Nat.mod_lt _ (by decide))
        (Nat.mod_lt _ (by decide))]
      have handedLe := invariant.handed_le
      omega
    obtain ⟨nic, bytes, sends⟩ : ∃ nic bytes, state.nic.transmit = some (nic, bytes) := by
      simp [Nic.transmit, differ]
    have step : sendStep packet state .process =
        some { state with nic := nic, wire := state.wire ++ [bytes] } := by
      simp only [sendStep, sends]
    refine ⟨.process, _, trivial, step, _, _, _, _, invariant.process step, ?_⟩
    simp only [SendState.left]
    omega
  -- the device is idle, so a call that waits finds its packet sent
  by_cases filling : ∃ caller, state.pc caller = .filled
  · obtain ⟨caller, filled⟩ := filling
    right
    have step : sendStep packet state (.advance caller) =
        some ({ state with nic := state.nic.advanceTail }.moveTo caller
          (.advanced state.nic.txSlot)) := by
      simp only [sendStep, filled]
    refine ⟨.advance caller, _, trivial, step, _, _, _, _, invariant.advance step, ?_⟩
    have left := left_moveTo { state with nic := state.nic.advanceTail } caller
      (.advanced state.nic.txSlot)
    simp only [filled, SendPc.left, SendState.left] at left ⊢
    omega
  rw [not_exists] at filling
  by_cases finished : ∀ caller, state.pc caller = .returned
  · exact Or.inl finished
  right
  obtain ⟨caller, unfinished⟩ := not_forall.mp finished
  cases pc : state.pc caller with
  | called =>
      have step : sendStep packet state (.fill caller) =
          some ({ state with nic := state.nic.fillDescriptor (packet caller).val }.moveTo caller
            .filled) := by
        simp only [sendStep, pc]
      have alone : FillsAlone state (.fill caller) := filling caller.other
      refine ⟨.fill caller, _, alone, step, _, _, _, _, invariant.fill alone step, ?_⟩
      have left := left_moveTo { state with nic := state.nic.fillDescriptor (packet caller).val }
        caller .filled
      simp only [pc, SendPc.left, SendState.left] at left ⊢
      omega
  | filled => exact absurd pc (filling caller)
  | advanced oldtail =>
      have step : sendStep packet state (.notify caller) =
          some ({ state with nic := state.nic.writeTDT }.moveTo caller (.waiting oldtail)) := by
        simp only [sendStep, pc]
      refine ⟨.notify caller, _, trivial, step, _, _, _, _, invariant.notify step, ?_⟩
      have left := left_moveTo { state with nic := state.nic.writeTDT } caller (.waiting oldtail)
      simp only [pc, SendPc.left, SendState.left] at left ⊢
      omega
  | waiting oldtail =>
      obtain ⟨index, inside, here, place⟩ := invariant.place caller (by simp [pc])
      rw [pc] at place
      obtain ⟨given, rfl⟩ := place
      have done := invariant.done index (by omega)
      have step : sendStep packet state (.poll caller) = some (state.moveTo caller .returned) := by
        simp only [sendStep, pc, done, if_true]
      refine ⟨.poll caller, _, trivial, step, _, _, _, _, invariant.poll step, ?_⟩
      have left := left_moveTo state caller .returned
      simp only [pc, SendPc.left, SendState.left] at left ⊢
      omega
  | returned => exact absurd pc unfinished

/-- From every such state both calls can return. -/
theorem InOrder.returns
    (invariant : InOrder packet earlier position order advanced handed sent state) :
    ∃ rest final, runs (sendStep packet) state rest = some final ∧
      Throughout (sendStep packet) FillsAlone state rest ∧
      ∀ caller, final.pc caller = .returned := by
  generalize bound : 3 * state.left + (handed - sent) = measure
  induction measure using Nat.strong_induction_on
    generalizing state order advanced handed sent with
  | _ measure inductionHypothesis =>
      rcases invariant.progress with finished | ⟨event, next, alone, step, _, _, _, _, kept, less⟩
      · exact ⟨[], state, rfl, trivial, finished⟩
      · rw [bound] at less
        obtain ⟨rest, final, ran, throughout, finished⟩ := inductionHypothesis _ less kept rfl
        refine ⟨event :: rest, final, ?_, ⟨alone, ?_⟩, finished⟩
        · rw [runs_cons, step, Option.bind_some, ran]
        · intro other stepped
          rw [step, Option.some.injEq] at stepped
          exact stepped ▸ throughout

end Progress

/-! ## Every interleaving -/

/-- No step moves a transmit buffer. -/
theorem txStep_txBuf {state next : TxState} {event : TxEvent}
    (step : txStep state event = some next) : next.nic.drv.txBuf = state.nic.drv.txBuf := by
  cases event with
  | call packet =>
      simp only [txStep] at step
      split at step <;> cases step
      exact fillDescriptor_txBuf _ _
  | advance =>
      simp only [txStep] at step
      split at step <;> cases step
      rfl
  | notify =>
      simp only [txStep] at step
      split at step <;> cases step
      rfl
  | poll =>
      simp only [txStep] at step
      split at step
      · split at step <;> cases step <;> rfl
      · cases step
  | process =>
      simp only [txStep, Nic.transmit] at step
      by_cases none : state.nic.regRead regTDH = state.nic.regRead regTDT
      · simp only [if_pos none] at step
        cases step
      · simp only [if_neg none] at step
        cases step
        rfl

/-- Between calls the ring is empty, and the buffers do not overlap. -/
theorem inOrder_start {card : PoweredCard} {events : List TxEvent} {idle : TxState}
    (before : runs txStep (txInitial card) events = some idle) (returned : idle.pc = .idle)
    (packet : Caller → Packet) :
    ∃ position, InOrder packet idle.wire position [] 0 0 0 (sendStart idle) := by
  have buffers : idle.nic.drv.txBuf = card.nic.drv.txBuf := by
    refine runs_invariant (fun _ state => state.nic.drv.txBuf = card.nic.drv.txBuf) rfl ?_ before
    intro past state event next same step
    rw [txStep_txBuf step, same]
  obtain ⟨position, below, facts⟩ := txRun_invariant before
  simp only [returned] at facts
  have wraps : position % 128 = position := Nat.mod_eq_of_lt below
  refine ⟨position, List.nodup_nil, Nat.le_refl _, Nat.le_refl _, Nat.le_refl _, ?_, ?_,
    fun _ _ => rfl, ?_, ?_, ?_, ?_⟩
  · rw [Nat.add_zero, wraps]
    exact facts.1
  · intro first second different
    simp only [sendStart, buffers]
    exact card.nic_ready.txBufApart first second different
  · intro index inside
    exact absurd inside (Nat.not_lt_zero _)
  · intro index inside
    exact absurd inside (Nat.not_lt_zero _)
  · intro index inside
    exact absurd inside (Nat.not_lt_zero _)
  · exact (List.append_nil _).symm

/-- **Two calls at once.**  In every interleaving of two calls of `e1000_send` with the
device in which each fills its descriptor outside of the other's filling and
advancing: nothing but their packets goes out, each at most once and before its call
returns, and both calls can return. -/
theorem e1000Send_eachOnce {card : PoweredCard} {events : List TxEvent} {idle : TxState}
    (before : runs txStep (txInitial card) events = some idle) (returned : idle.pc = .idle)
    (packet : Caller → Packet) {interleaving : List SendEvent} {state : SendState}
    (run : runs (sendStep packet) (sendStart idle) interleaving = some state)
    (alone : Throughout (sendStep packet) FillsAlone (sendStart idle) interleaving) :
    EachOnce packet idle.wire state ∧
      ∃ rest final, runs (sendStep packet) state rest = some final ∧
        (∀ caller, final.pc caller = .returned) ∧ EachOnce packet idle.wire final := by
  obtain ⟨position, start⟩ := inOrder_start before returned packet
  have keeps : ∀ state event next,
      (∃ order advanced handed sent,
        InOrder packet idle.wire position order advanced handed sent state) →
      FillsAlone state event → sendStep packet state event = some next →
      ∃ order advanced handed sent,
        InOrder packet idle.wire position order advanced handed sent next := by
    rintro state event next ⟨_, _, _, _, invariant⟩ alone step
    exact invariant.step alone step
  obtain ⟨_, _, _, _, invariant⟩ :=
    runs_invariant_throughout _ ⟨_, _, _, _, start⟩ keeps alone run
  obtain ⟨rest, final, ran, throughout, finished⟩ := invariant.returns
  obtain ⟨_, _, _, _, last⟩ :=
    runs_invariant_throughout _ ⟨_, _, _, _, invariant⟩ keeps throughout ran
  exact ⟨invariant.eachOnce, rest, final, ran, finished, last.eachOnce⟩

theorem one_byte_fits (byte : UInt8) : [byte].length ≤ packetBufSize := by
  simp [packetBufSize]

/-- A packet for each of the calls. -/
def twoPackets : Caller → Packet
  | .arp => ⟨[UInt8.ofNat 1], one_byte_fits _⟩
  | .icmp => ⟨[UInt8.ofNat 2], one_byte_fits _⟩

/-- One call fills its descriptor after the other has advanced. -/
def takingTurns : List SendEvent :=
  [.fill .arp, .advance .arp, .fill .icmp, .notify .arp, .advance .icmp, .process, .notify .icmp,
    .poll .arp, .process, .poll .icmp]

theorem e1000Send_eachOnce_turns :
    ∃ state, runs (sendStep twoPackets) (sendStart (txInitial emulatedCard)) takingTurns =
        some state ∧
      EachOnce twoPackets [] state := by
  have facts : (runs (sendStep twoPackets) (sendStart (txInitial emulatedCard))
      takingTurns).isSome = true := by
    decide +kernel
  have alone : Throughout (sendStep twoPackets) FillsAlone (sendStart (txInitial emulatedCard))
      takingTurns := by
    decide +kernel
  obtain ⟨state, ran⟩ := Option.isSome_iff_exists.mp facts
  have before : runs txStep (txInitial emulatedCard) [] = some (txInitial emulatedCard) := rfl
  exact ⟨state, ran, (e1000Send_eachOnce before rfl twoPackets ran alone).1⟩

/-- Both calls fill the descriptor at the tail before either advances. -/
def fillingTogether : List SendEvent :=
  [.fill .arp, .fill .icmp, .advance .arp, .advance .icmp, .notify .arp, .notify .icmp, .process,
    .process, .poll .arp, .poll .icmp]

/-- The packet of the first call is lost, and an empty descriptor is sent. -/
theorem e1000Send_loses :
    ∃ state, runs (sendStep twoPackets) (sendStart (txInitial emulatedCard)) fillingTogether =
        some state ∧
      (∀ caller, state.pc caller = .returned) ∧ ¬EachOnce twoPackets [] state := by
  have facts : (runs (sendStep twoPackets) (sendStart (txInitial emulatedCard))
      fillingTogether).map (fun state => decide (state.wire = [[2], []] ∧
        ∀ caller, state.pc caller = .returned)) = some true := by
    decide +kernel
  obtain ⟨state, ran, holds⟩ := Option.map_eq_some_iff.mp facts
  obtain ⟨wire, finished⟩ := of_decide_eq_true holds
  refine ⟨state, ran, finished, ?_⟩
  rintro ⟨sent, _, sends, _⟩
  rw [wire, List.nil_append] at sends
  have empty : [] ∈ sent.map fun caller => (twoPackets caller).val := by
    rw [← sends]
    simp
  obtain ⟨caller, _, nothing⟩ := List.mem_map.mp empty
  cases caller <;> cases nothing

end Xv6.Net
