import Xv6.Library.Runs
import Xv6.Net.Init

/-!
# The transmit ring

The device side of transmission, and runs in which `e1000_send` is called again
and again while the device works at its own pace.  A call is broken into the
steps between which the device can act: describe the packet, move the software
tail, write `TDT`, poll the status.
-/

namespace Xv6.Net

open Xv6.Library

/-! ## The device -/

/-- A descriptor the device is done with: `DD` is set if the driver asked for it. -/
def Tbd.reported (descriptor : Tbd) : Tbd :=
  if descriptor.cmd &&& tdescCmdRS ≠ 0 then
    { descriptor with status := descriptor.status ||| txdStatDD }
  else descriptor

/-- The descriptor the device looks at next. -/
def Nic.txHead (nic : Nic) : Nat := (nic.regRead regTDH).toNat

/-- Process descriptor `TDH`, if the device owns it: its bytes go on the wire. -/
def Nic.transmit (nic : Nic) : Option (Nic × List UInt8) :=
  if nic.regRead regTDH = nic.regRead regTDT then none
  else
    let descriptor := nic.drv.tbd (slot nic.txHead)
    some ((nic.setTbd (slot nic.txHead) descriptor.reported).regWrite regTDH
        ((nic.txHead + 1) % tbdSlots).toUInt32,
      nic.mem.read descriptor.addr descriptor.length.toNat)

/-- The device owns the descriptors from `TDH` up to, but not including, `TDT`. -/
def Nic.TxOwned (nic : Nic) (index : Slot) : Prop :=
  (index.val + 128 - nic.txHead) % 128 < ((nic.regRead regTDT).toNat + 128 - nic.txHead) % 128

/-! ## Runs -/

/-- A packet that fits a transmit buffer. -/
abbrev Packet := { bytes : List UInt8 // bytes.length ≤ packetBufSize }

theorem Packet.length_toUInt16 (packet : Packet) :
    packet.val.length.toUInt16.toNat = packet.val.length := by
  have fits := packet.property
  simp only [packetBufSize] at fits
  simp [Nat.mod_eq_of_lt (show packet.val.length < 65536 by omega)]

/-- Where the caller of `e1000_send` is. -/
inductive TxPc where
  | idle
  | filled
  | advanced (oldtail : Slot)
  | waiting (oldtail : Slot)

inductive TxEvent where
  /-- A call of `e1000_send` fills the descriptor at the tail. -/
  | call (packet : Packet)
  /-- The call moves the software tail. -/
  | advance
  /-- The call writes `TDT`. -/
  | notify
  /-- The call tests the status once and returns if it finds `DD`. -/
  | poll
  /-- The device processes one descriptor. -/
  | process

structure TxState where
  nic : Nic
  pc : TxPc
  wire : List (List UInt8)

def txStep (state : TxState) : TxEvent → Option TxState
  | .call packet =>
      match state.pc with
      | .idle => some { state with nic := state.nic.fillDescriptor packet.val, pc := .filled }
      | _ => none
  | .advance =>
      match state.pc with
      | .filled => some { state with nic := state.nic.advanceTail, pc := .advanced state.nic.txSlot }
      | _ => none
  | .notify =>
      match state.pc with
      | .advanced oldtail => some { state with nic := state.nic.writeTDT, pc := .waiting oldtail }
      | _ => none
  | .poll =>
      match state.pc with
      | .waiting oldtail =>
          if state.nic.txDone oldtail then some { state with pc := .idle } else some state
      | _ => none
  | .process =>
      match state.nic.transmit with
      | none => none
      | some (nic, bytes) => some { state with nic := nic, wire := state.wire ++ [bytes] }

/-- Between calls, with the card as `e1000_init` leaves it. -/
def txInitial (card : PoweredCard) : TxState := { nic := card.nic, pc := .idle, wire := [] }

/-- The packets passed to `e1000_send`, in call order. -/
def sentPackets (events : List TxEvent) : List (List UInt8) :=
  events.filterMap fun event => match event with
    | .call packet => some packet.val
    | _ => none

theorem sentPackets_concat (events : List TxEvent) (event : TxEvent) :
    sentPackets (events ++ [event]) = sentPackets events ++ sentPackets [event] := by
  simp [sentPackets]

/-! ## The simulation invariant -/

/-- The descriptor at `index` describes the packet, and its buffer holds it. -/
structure Nic.Describes (nic : Nic) (index : Slot) (packet : List UInt8) : Prop where
  cmd : (nic.drv.tbd index).cmd = 9
  status : (nic.drv.tbd index).status = 0
  bytes : nic.mem.read (nic.drv.tbd index).addr (nic.drv.tbd index).length.toNat = packet

/-- Software tail, `TDH` and `TDT` at given positions. -/
structure Nic.TailsAt (nic : Nic) (software head tail : Nat) : Prop where
  software : nic.drv.tbdTail = software
  head : nic.regRead regTDH = head.toUInt32
  tail : nic.regRead regTDT = tail.toUInt32

/-- How far the current call and the device have come with the last packet. -/
def TxInvariant (packets : List (List UInt8)) (state : TxState) : Prop :=
  ∃ position < 128, match state.pc with
    | .idle => state.nic.TailsAt position position position ∧ state.wire = packets
    | .filled => state.nic.TailsAt position position position ∧
        ∃ packet, packets = state.wire ++ [packet] ∧ state.nic.Describes (slot position) packet
    | .advanced oldtail => oldtail = slot position ∧
        state.nic.TailsAt ((position + 1) % 128) position position ∧
        ∃ packet, packets = state.wire ++ [packet] ∧ state.nic.Describes (slot position) packet
    | .waiting oldtail => oldtail = slot position ∧
        ((state.nic.TailsAt ((position + 1) % 128) position ((position + 1) % 128) ∧
            ∃ packet, packets = state.wire ++ [packet] ∧
              state.nic.Describes (slot position) packet) ∨
          (state.nic.TailsAt ((position + 1) % 128) ((position + 1) % 128)
              ((position + 1) % 128) ∧
            state.wire = packets ∧ state.nic.txDone (slot position) = true))

theorem txInvariant_initial (card : PoweredCard) : TxInvariant [] (txInitial card) :=
  ⟨0, by decide, ⟨card.nic_ready.tbdTail, card.nic_ready.tdh, card.nic_ready.tdt⟩, rfl⟩

/-- Ring positions are told apart by the registers that hold them. -/
theorem toUInt32_eq_iff {first second : Nat} (belowFirst : first < 128)
    (belowSecond : second < 128) : first.toUInt32 = second.toUInt32 ↔ first = second := by
  rw [← UInt32.toNat_inj]
  simp only [Nat.toUInt32_eq, UInt32.toNat_ofNat']
  omega

theorem toUInt32_toNat {position : Nat} (below : position < 128) :
    position.toUInt32.toNat = position := by
  simp only [Nat.toUInt32_eq, UInt32.toNat_ofNat']
  omega

/-- The device sends the one packet handed to it and reports it. -/
theorem Nic.TailsAt.transmit {nic : Nic} {position : Nat} {packet : List UInt8}
    (below : position < 128)
    (tails : nic.TailsAt ((position + 1) % 128) position ((position + 1) % 128))
    (described : nic.Describes (slot position) packet) :
    ∃ next, nic.transmit = some (next, packet) ∧
      next.TailsAt ((position + 1) % 128) ((position + 1) % 128) ((position + 1) % 128) ∧
      next.txDone (slot position) = true := by
  have wraps : (position + 1) % 128 < 128 := Nat.mod_lt _ (by decide)
  have owned : ¬nic.regRead regTDH = nic.regRead regTDT := by
    rw [tails.head, tails.tail, toUInt32_eq_iff below wraps]
    omega
  have head : nic.txHead = position := by
    rw [Nic.txHead, tails.head, toUInt32_toNat below]
  refine ⟨(nic.setTbd (slot position) (nic.drv.tbd (slot position)).reported).regWrite regTDH
      ((position + 1) % tbdSlots).toUInt32,
    by simp only [Nic.transmit, owned, if_false, head, described.bytes], ⟨tails.software, ?_, ?_⟩, ?_⟩
  · simp [Nic.regRead_regWrite, tbdSlots]
  · simpa [Nic.regRead_regWrite, regTDH, regTDT] using tails.tail
  · have reported : (nic.drv.tbd (slot position)).reported.status = txdStatDD := by
      have asked : (9 : UInt8) &&& tdescCmdRS ≠ 0 := by decide
      simp [Tbd.reported, described.cmd, described.status, asked]
    simp [Nic.txDone, Nic.setTbd_tbd, reported, txdStatDD]

section Steps

variable {packets : List (List UInt8)} {state next : TxState}

/-- A call fills the descriptor at the tail and its buffer. -/
theorem TxInvariant.call {packet : Packet} (invariant : TxInvariant packets state)
    (step : txStep state (.call packet) = some next) :
    TxInvariant (packets ++ [packet.val]) next := by
  obtain ⟨position, below, facts⟩ := invariant
  cases place : state.pc with
  | filled | advanced | waiting => simp [txStep, place] at step
  | idle =>
      simp only [place] at facts
      obtain ⟨tails, sent⟩ := facts
      simp only [txStep, place, Option.some.injEq] at step
      subst step
      have current : state.nic.txSlot = slot position := by rw [Nic.txSlot, tails.software]
      have untouched : (state.nic.fillDescriptor packet.val).TailsAt position position position :=
        ⟨by simpa using tails.software, by simpa using tails.head, by simpa using tails.tail⟩
      refine ⟨position, below, untouched, packet.val, by rw [sent], ?_, ?_, ?_⟩
      · simp [Nic.fillDescriptor, Nic.setTbd_tbd, current]
      · simp [Nic.fillDescriptor, Nic.setTbd_tbd, current, Tbd.zero]
      · simp only [Nic.fillDescriptor, Nic.setTbd_tbd, current, if_true, Nic.setTbd_mem,
          Nic.writeMem_mem, Packet.length_toUInt16, Memory.read_write_same]

/-- Moving the software tail touches neither the descriptors nor the device. -/
theorem TxInvariant.advance (invariant : TxInvariant packets state)
    (step : txStep state .advance = some next) : TxInvariant packets next := by
  obtain ⟨position, below, facts⟩ := invariant
  cases place : state.pc with
  | idle | advanced | waiting => simp [txStep, place] at step
  | filled =>
      simp only [place] at facts
      obtain ⟨tails, pending⟩ := facts
      simp only [txStep, place, Option.some.injEq] at step
      subst step
      obtain ⟨packet, sent, described⟩ := pending
      refine ⟨position, below, by rw [Nic.txSlot, tails.software],
        ⟨?_, tails.head, tails.tail⟩, packet, sent,
        ⟨described.cmd, described.status, described.bytes⟩⟩
      simp [Nic.advanceTail, tails.software, tbdSlots]

/-- Writing `TDT` hands the one filled descriptor to the device. -/
theorem TxInvariant.notify (invariant : TxInvariant packets state)
    (step : txStep state .notify = some next) : TxInvariant packets next := by
  obtain ⟨position, below, facts⟩ := invariant
  cases place : state.pc with
  | idle | filled | waiting => simp [txStep, place] at step
  | advanced oldtail =>
      simp only [place] at facts
      obtain ⟨same, tails, packet, sent, described⟩ := facts
      simp only [txStep, place, Option.some.injEq] at step
      subst step
      refine ⟨position, below, same, Or.inl ⟨⟨tails.software, ?_, ?_⟩, packet, sent,
        ⟨described.cmd, described.status, described.bytes⟩⟩⟩
      · simpa [Nic.writeTDT, Nic.regRead_regWrite, regTDH, regTDT] using tails.head
      · simp [Nic.writeTDT, Nic.regRead_regWrite, tails.software]

/-- A poll returns only when the device has reported the packet. -/
theorem TxInvariant.poll (invariant : TxInvariant packets state)
    (step : txStep state .poll = some next) : TxInvariant packets next := by
  obtain ⟨position, below, facts⟩ := invariant
  cases place : state.pc with
  | idle | filled | advanced => simp [txStep, place] at step
  | waiting oldtail =>
      simp only [place] at facts
      obtain ⟨rfl, stage⟩ := facts
      simp only [txStep, place] at step
      rcases stage with ⟨tails, packet, sent, described⟩ | ⟨tails, sent, done⟩
      · have pending : state.nic.txDone (slot position) = false := by
          simp [Nic.txDone, described.status]
        simp only [pending, Bool.false_eq_true, if_false, Option.some.injEq] at step
        subst step
        refine ⟨position, below, ?_⟩
        simp only [place, true_and]
        exact Or.inl ⟨tails, packet, sent, described⟩
      · simp only [done, if_true, Option.some.injEq] at step
        subst step
        exact ⟨(position + 1) % 128, Nat.mod_lt _ (by decide),
          ⟨tails.software, tails.head, tails.tail⟩, sent⟩

/-- The device only ever finds the one descriptor handed to it, and reports it. -/
theorem TxInvariant.process (invariant : TxInvariant packets state)
    (step : txStep state .process = some next) : TxInvariant packets next := by
  obtain ⟨position, below, facts⟩ := invariant
  have idleDevice : ∀ {head : Nat}, state.nic.regRead regTDH = head.toUInt32 →
      state.nic.regRead regTDT = head.toUInt32 → False := by
    intro head atHead atTail
    simp [txStep, Nic.transmit, atHead, atTail] at step
  cases place : state.pc with
  | idle => simp only [place] at facts; exact (idleDevice facts.1.head facts.1.tail).elim
  | filled => simp only [place] at facts; exact (idleDevice facts.1.head facts.1.tail).elim
  | advanced oldtail =>
      simp only [place] at facts
      exact (idleDevice facts.2.1.head facts.2.1.tail).elim
  | waiting oldtail =>
      simp only [place] at facts
      obtain ⟨rfl, ⟨tails, packet, sent, described⟩ | ⟨tails, _, _⟩⟩ := facts
      · obtain ⟨nic, sends, moved, done⟩ := tails.transmit below described
        simp only [txStep, sends, Option.some.injEq] at step
        subst step
        refine ⟨position, below, ?_⟩
        simp only [place, true_and]
        exact Or.inr ⟨moved, sent.symm, done⟩
      · exact (idleDevice tails.head tails.tail).elim

end Steps

/-- The invariant holds after every run. -/
theorem txRun_invariant {card : PoweredCard} {events : List TxEvent} {state : TxState}
    (run : runs txStep (txInitial card) events = some state) :
    TxInvariant (sentPackets events) state := by
  refine runs_invariant (fun past state => TxInvariant (sentPackets past) state)
    (txInvariant_initial card) ?_ run
  intro past current event next invariant step
  rw [sentPackets_concat]
  cases event with
  | call packet => exact invariant.call step
  | advance => simpa [sentPackets] using invariant.advance step
  | notify => simpa [sentPackets] using invariant.notify step
  | poll => simpa [sentPackets] using invariant.poll step
  | process => simpa [sentPackets] using invariant.process step

/-! ## Every call returns -/

/-- The driver and the device can finish the current call without a new one. -/
def Returns (state : TxState) : Prop :=
  ∃ rest final, sentPackets rest = [] ∧ runs txStep state rest = some final ∧ final.pc = .idle

theorem Returns.of_step {state : TxState} (event : TxEvent) (next : TxState)
    (step : txStep state event = some next) (silent : sentPackets [event] = [])
    (later : Returns next) : Returns state := by
  obtain ⟨rest, final, quiet, run, idle⟩ := later
  refine ⟨event :: rest, final, ?_, ?_, idle⟩
  · simpa [sentPackets] using And.intro silent quiet
  · simp [runs_cons, step, run]

theorem returns_of_done {state : TxState} {oldtail : Slot}
    (place : state.pc = .waiting oldtail) (done : state.nic.txDone oldtail = true) :
    Returns state := by
  refine Returns.of_step .poll { state with pc := .idle } ?_ rfl
    ⟨[], _, rfl, rfl, rfl⟩
  simp [txStep, place, done]

/-- From every state a run reaches, the current call can return: at most four
steps of the driver and one of the device are left. -/
theorem TxInvariant.returns {packets : List (List UInt8)} {state : TxState}
    (invariant : TxInvariant packets state) : Returns state := by
  have waiting : ∀ {current : TxState} {oldtail : Slot}, TxInvariant packets current →
      current.pc = .waiting oldtail → Returns current := by
    intro current oldtail invariant place
    obtain ⟨position, below, facts⟩ := invariant
    simp only [place] at facts
    obtain ⟨rfl, ⟨tails, packet, sent, described⟩ | ⟨_, _, done⟩⟩ := facts
    · obtain ⟨nic, sends, _, done⟩ := tails.transmit below described
      refine Returns.of_step .process
        { current with nic := nic, wire := current.wire ++ [packet] } ?_ rfl
        (returns_of_done place done)
      simp [txStep, sends]
    · exact returns_of_done place done
  have advanced : ∀ {current : TxState} {oldtail : Slot}, TxInvariant packets current →
      current.pc = .advanced oldtail → Returns current := by
    intro current oldtail invariant place
    have step : txStep current .notify =
        some { current with nic := current.nic.writeTDT, pc := .waiting oldtail } := by
      simp [txStep, place]
    exact Returns.of_step _ _ step rfl (waiting (invariant.notify step) rfl)
  cases place : state.pc with
  | idle => exact ⟨[], state, rfl, rfl, place⟩
  | waiting oldtail => exact waiting invariant place
  | advanced oldtail => exact advanced invariant place
  | filled =>
      have step : txStep state .advance = some { state with
          nic := state.nic.advanceTail, pc := .advanced state.nic.txSlot } := by
        simp [txStep, place]
      exact Returns.of_step _ _ step rfl (advanced (invariant.advance step) rfl)

/-- Any list of packets can be sent, one call after the other. -/
theorem sends_complete (card : PoweredCard) (packets : List Packet) :
    ∃ events state, runs txStep (txInitial card) events = some state ∧ state.pc = .idle ∧
      sentPackets events = packets.map Subtype.val := by
  induction packets using List.reverseRecOn with
  | nil => exact ⟨[], txInitial card, rfl, rfl, rfl⟩
  | append_singleton earlier packet inductionHypothesis =>
      obtain ⟨events, state, run, idle, sent⟩ := inductionHypothesis
      have step : txStep state (.call packet) = some { state with
          nic := state.nic.fillDescriptor packet.val, pc := .filled } := by
        simp [txStep, idle]
      obtain ⟨rest, final, silent, finishing, returned⟩ :=
        ((txRun_invariant run).call step).returns
      refine ⟨events ++ .call packet :: rest, final, ?_, returned, ?_⟩
      · simp [runs_append, run, runs_cons, step, finishing]
      · have split : sentPackets (events ++ .call packet :: rest) =
            sentPackets events ++ packet.val :: sentPackets rest := by
          simp [sentPackets]
        simp [split, sent, silent]

/-! ## What the wire sees -/

/-- **Transmission.**  After every run the wire has seen the packets passed so
far, in call order and each once, but for the packet of a call still under way.
Between calls it has seen all of them, the software tail, `TDT` and `TDH` agree
and the device owns no descriptor.  And the call under way can always return. -/
theorem e1000_transmission {card : PoweredCard} {events : List TxEvent} {state : TxState}
    (run : runs txStep (txInitial card) events = some state) :
    (state.pc = .idle →
      state.wire = sentPackets events ∧
      state.nic.regRead regTDT = state.nic.drv.tbdTail.toUInt32 ∧
      state.nic.regRead regTDT = state.nic.regRead regTDH ∧
      ∀ index, ¬state.nic.TxOwned index) ∧
    (∃ pending, sentPackets events = state.wire ++ pending ∧ pending.length ≤ 1) ∧
    Returns state := by
  have invariant := txRun_invariant run
  refine ⟨?_, ?_, invariant.returns⟩
  · intro idle
    obtain ⟨position, below, facts⟩ := invariant
    simp only [idle] at facts
    obtain ⟨tails, sent⟩ := facts
    refine ⟨sent, by rw [tails.software, tails.tail], by rw [tails.head, tails.tail], ?_⟩
    intro index owned
    have head : state.nic.txHead = position := by
      rw [Nic.txHead, tails.head, toUInt32_toNat below]
    rw [Nic.TxOwned, head, tails.tail, toUInt32_toNat below] at owned
    omega
  · obtain ⟨position, below, facts⟩ := invariant
    cases place : state.pc with
    | idle =>
        simp only [place] at facts
        exact ⟨[], by simp [facts.2], by simp⟩
    | filled =>
        simp only [place] at facts
        obtain ⟨_, packet, sent, _⟩ := facts
        exact ⟨[packet], sent, by simp⟩
    | advanced oldtail =>
        simp only [place] at facts
        obtain ⟨_, _, packet, sent, _⟩ := facts
        exact ⟨[packet], sent, by simp⟩
    | waiting oldtail =>
        simp only [place] at facts
        obtain ⟨_, ⟨_, packet, sent, _⟩ | ⟨_, sent, _⟩⟩ := facts
        · exact ⟨[packet], sent, by simp⟩
        · exact ⟨[], by simp [sent], by simp⟩

/-- The `i`-th of many packets. -/
def nthPacket (i : Nat) : Packet := ⟨[UInt8.ofNat i, 2], by simp [packetBufSize]⟩

/-- 300 calls, which go round the ring more than twice. -/
theorem e1000_transmission_laps :
    ∃ events state, runs txStep (txInitial emulatedCard) events = some state ∧
      state.pc = .idle ∧ state.wire = (List.range 300).map fun i => [UInt8.ofNat i, 2] := by
  obtain ⟨events, state, run, idle, sent⟩ :=
    sends_complete emulatedCard ((List.range 300).map nthPacket)
  refine ⟨events, state, run, idle, ?_⟩
  rw [((e1000_transmission run).1 idle).1, sent, List.map_map]
  rfl

end Xv6.Net
