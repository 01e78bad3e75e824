import Xv6.Net.Arp
import Xv6.Net.Receive

/-!
# The answer to an ARP request

`sys_arp` polls the receive ring and reports the first frame it is handed, of
whatever kind.  So its report answers the request exactly when that frame does.
-/

namespace Xv6.Net

open Xv6.Library

/-! ## The system call -/

/-- What `sys_arp` prints: the bytes of the packet, and `ip .. is at ..`. -/
structure ArpReport where
  packet : List UInt8
  ip : List UInt8
  mac : List UInt8
  deriving DecidableEq

/-- The report on a packet copied to the page `pp`. -/
def arpReport (pp : Memory) (packet : List UInt8) : ArpReport where
  packet := packet
  ip := pp.read 28 4
  mac := pp.read 22 6

def arriveAll (state : RxState) (frames : List Frame) : RxState :=
  frames.foldl (fun state frame => rxStep state (.arrive frame)) state

/-- The polling loop, with `left` polls to go until `cnt` is `0xffff`.  The frames
`arriving cnt` arrive before the poll that finds `cnt`. -/
def arpPoll (arriving : Nat → List Frame) : Nat → Nat → Memory → RxState → Option ArpReport
  | 0, _, _, _ => none
  | left + 1, cnt, page, state =>
      let state := arriveAll state (arriving cnt)
      match state.nic.e1000Recv with
      | (nic, none) => arpPoll arriving left (cnt + 1) page { state with nic := nic }
      | (nic, some packet) =>
          let page := page.write 0 packet
          if packet.length ≠ 0 then some (arpReport page packet)
          else arpPoll arriving left (cnt + 1) page
            { state with nic := nic, handed := state.handed ++ [packet] }

inductive ArpOutcome where
  /-- `send_arpRequest` failed: the call returns -1. -/
  | failed
  | noReply
  | reported (report : ArpReport)
  deriving DecidableEq

/-- `sys_arp` on fetched arguments, with `page` the page it allocates; `none` when
the address string makes `get_ip` go wrong.  The request goes out through the
transmit half of the card, and what arrives meanwhile is in `arriving 0`. -/
def sysArp (stack page : Memory) (device : NicDevice) (ipAddr : List UInt8)
    (arriving : Nat → List Frame) (state : RxState) : Option ArpOutcome :=
  match sendArpRequest stack device ipAddr with
  | none => none
  | some (status, _) =>
      if status < 0 then some .failed
      else match arpPoll arriving 0xffff 0 page state with
        | none => some .noReply
        | some report => some (.reported report)

/-! ## The right answer -/

/-- The packet is an ARP reply from the address. -/
def ReplyFrom (asked packet : List UInt8) : Prop :=
  ∃ arp, decodeArp packet = some arp ∧ arp.etherType = 0x0806 ∧ arp.opcode = 2 ∧
    arp.senderProtocol = asked

/-- The report is taken from an ARP reply from the address. -/
def TakenFromReply (asked : List UInt8) (report : ArpReport) : Prop :=
  ∃ arp, decodeArp report.packet = some arp ∧ arp.etherType = 0x0806 ∧ arp.opcode = 2 ∧
    arp.senderProtocol = asked ∧ report.ip = asked ∧ report.mac = arp.senderHardware

/-- The frames on the ring that nobody has read. -/
def unreadFrames (state : RxState) : List Frame := state.accepted.drop state.handed.length

/-- What the polls can see: the frames on the ring, and those arriving later as
far as the device has descriptors for them. -/
def visibleFrames (state : RxState) (arriving : Nat → List Frame) (cnt left : Nat) : List Frame :=
  unreadFrames state ++
    ((List.range' cnt left).flatMap arriving).take (127 - state.accepted.length)

/-- Every report is taken from a reply of the address that was asked for, and other
frames are skipped: a reply that the polls can see is not missed. -/
structure AnswersRequest (asked : List UInt8) (visible : List Frame)
    (outcome : Option ArpOutcome) : Prop where
  taken : ∀ report, outcome = some (.reported report) → TakenFromReply asked report
  skipped : ∀ frame ∈ visible, ReplyFrom asked frame.bytes →
    ∃ report, outcome = some (.reported report)

/-! ## What the polls find -/

section Poll

variable {initial : Nic} {events : List RxEvent} {state : RxState}

/-- A frame is accepted as long as fewer than 127 are stored. -/
theorem RxInvariant.arrive_accepted (invariant : RxInvariant initial events state)
    (frame : Frame) :
    (rxStep state (.arrive frame)).accepted =
        state.accepted ++ [frame].take (127 - state.accepted.length) ∧
      (rxStep state (.arrive frame)).handed = state.handed := by
  have full := invariant.receive_eq_none_iff frame
  have stored := invariant.stored
  cases received : state.nic.receive frame with
  | none =>
      have lost : 127 - state.accepted.length = 0 := by
        have := full.mp received
        omega
      simp only [rxStep, received, lost, List.take_zero, List.append_nil, and_self]
  | some nic =>
      have room : 127 - state.accepted.length ≠ 0 := by
        intro none
        rw [full.mpr (by omega)] at received
        cases received
      obtain ⟨space, eq⟩ := Nat.exists_eq_succ_of_ne_zero room
      simp only [rxStep, received, eq, List.take_succ_cons, List.take_nil, and_self]

/-- The frames that find a descriptor are accepted, the others are lost. -/
theorem RxInvariant.arriveAll (ready : Ready initial)
    (invariant : RxInvariant initial events state) (frames : List Frame) :
    ∃ later, RxInvariant initial later (arriveAll state frames) ∧
      (Net.arriveAll state frames).accepted =
        state.accepted ++ frames.take (127 - state.accepted.length) ∧
      (Net.arriveAll state frames).handed = state.handed := by
  induction frames generalizing events state with
  | nil => exact ⟨events, invariant, by simp [Net.arriveAll], rfl⟩
  | cons frame rest inductionHypothesis =>
      obtain ⟨more, same⟩ := invariant.arrive_accepted frame
      obtain ⟨later, kept, accepted, handed⟩ :=
        inductionHypothesis (invariant.arrive ready frame)
      refine ⟨later, kept, accepted.trans ?_, handed.trans same⟩
      rw [more, List.append_assoc, List.append_cancel_left_eq]
      cases space : 127 - state.accepted.length with
      | zero => simp [space]
      | succ more =>
          have left : 127 - (state.accepted.length + 1) = more := by omega
          simp [left]

/-- A poll is handed the oldest frame nobody has read. -/
theorem RxInvariant.e1000Recv_eq (invariant : RxInvariant initial events state) :
    (state.nic.e1000Recv).2 = ((unreadFrames state).head?).map Frame.bytes := by
  have next : (rxStep state .recv).handed[state.handed.length]? =
      (state.accepted[state.handed.length]?).map Frame.bytes := by
    rw [invariant.recv.2.2, List.getElem?_map, List.getElem?_take_of_succ]
  rw [unreadFrames, List.head?_drop, ← next, rxStep]
  cases state.nic.e1000Recv with
  | mk nic packet =>
      cases packet with
      | none => exact (List.getElem?_eq_none (Nat.le_refl _)).symm
      | some packet => exact List.getElem?_concat_length.symm

/-- What the polls can see does not change when a batch arrives. -/
theorem visibleFrames_arrive {after : RxState} {batch : List Frame}
    (readLe : state.handed.length ≤ state.accepted.length)
    (accepted : after.accepted =
      state.accepted ++ batch.take (127 - state.accepted.length))
    (handed : after.handed = state.handed) {arriving : Nat → List Frame} {cnt left : Nat}
    (arrived : arriving cnt = batch) :
    visibleFrames state arriving cnt (left + 1) = visibleFrames after arriving (cnt + 1) left := by
  have space : 127 - after.accepted.length = 127 - state.accepted.length - batch.length := by
    rw [accepted, List.length_append, List.length_take]
    omega
  rw [visibleFrames, visibleFrames, space, unreadFrames, unreadFrames, accepted, handed,
    List.drop_append_of_le_length readLe, List.append_assoc, List.range'_succ, List.flatMap_cons,
    arrived, List.take_append]

/-- The loop reports the first frame the polls can see. -/
theorem arpPoll_eq (ready : Ready initial) (invariant : RxInvariant initial events state)
    (arriving : Nat → List Frame) (page : Memory) {left cnt : Nat}
    (quiet : left = 0 → unreadFrames state = []) :
    arpPoll arriving left cnt page state =
      ((visibleFrames state arriving cnt left).head?).map fun frame =>
        arpReport (page.write 0 frame.bytes) frame.bytes := by
  induction left generalizing events state cnt with
  | zero =>
      have nothing : visibleFrames state arriving cnt 0 = [] := by
        rw [visibleFrames, quiet rfl, List.range'_zero, List.flatMap_nil, List.take_nil,
          List.append_nil]
      rw [nothing]
      rfl
  | succ left inductionHypothesis =>
      obtain ⟨later, kept, accepted, handed⟩ := invariant.arriveAll ready (arriving cnt)
      have found := kept.e1000Recv_eq
      have stays := kept.recv.1
      rw [arpPoll, visibleFrames_arrive invariant.read_le accepted handed rfl]
      generalize arriveAll state (arriving cnt) = after at *
      rw [rxStep] at stays
      cases received : after.nic.e1000Recv with
      | mk nic packet =>
          simp only [received] at found stays
          subst found
          cases unread : unreadFrames after with
          | nil =>
              simp only [unread, List.head?_nil, Option.map_none] at stays ⊢
              exact inductionHypothesis stays fun _ => unread
          | cons frame rest =>
              have nonempty := Nat.pos_iff_ne_zero.mp frame.nonempty
              simp only [List.head?_cons, Option.map_some, if_pos nonempty, visibleFrames, unread,
                List.cons_append]

end Poll

/-! ## When the answer is right -/

/-- The fields of a packet that is long enough, on the page it is copied to. -/
theorem arpReport_of_decode {packet : List UInt8} {arp : ArpPacket}
    (decoded : decodeArp packet = some arp) (page : Memory) :
    arpReport (page.write 0 packet) packet = ⟨packet, arp.senderProtocol, arp.senderHardware⟩ := by
  have long : ¬packet.length < 42 := by
    intro short
    rw [decodeArp, if_pos short] at decoded
    cases decoded
  rw [decodeArp, if_neg long, Option.some.injEq] at decoded
  subst decoded
  have ip : (page.write 0 packet).read (0 + 28) 4 = (packet.drop 28).take 4 :=
    page.read_write_inside 0 (by omega)
  have mac : (page.write 0 packet).read (0 + 22) 6 = (packet.drop 22).take 6 :=
    page.read_write_inside 0 (by omega)
  rw [Nat.zero_add] at ip mac
  rw [arpReport, ip, mac]

/-- The report on the first visible frame, if there is one. -/
theorem sysArp_eq (card : PoweredCard) (events : List RxEvent) (stack page : Memory)
    (mac : Fin 6 → UInt8) (a b c d : UInt8) (arriving : Nat → List Frame) :
    sysArp stack page ⟨mac, true, true⟩ (dottedQuad a b c d) arriving (rxRun card events) =
      some ((((visibleFrames (rxRun card events) arriving 0 0xffff).head?).map fun frame =>
        .reported (arpReport (page.write 0 frame.bytes) frame.bytes)).getD .noReply) := by
  have six : (List.ofFn mac).length = 6 := List.length_ofFn
  have ready : getDevice ⟨mac, true, true⟩ = some ⟨mac, true, true⟩ := rfl
  rw [sysArp, sendArpRequest, ready]
  simp only [createEthArpFrame_eq six, Option.bind_eq_bind, Option.bind_some, Option.pure_def]
  rw [arpPoll_eq card.nic_ready (rxRun_invariant card events) arriving page
    fun impossible => absurd impossible (by decide)]
  cases (visibleFrames (rxRun card events) arriving 0 0xffff).head? <;> rfl

/-- **The answer to an ARP request.**  For every content of the receive ring and all
arrivals: the call answers the request exactly when the first frame its polls can
see, if there is one, is an ARP reply from the address. -/
theorem sysArp_answers_iff (card : PoweredCard) (events : List RxEvent) (stack page : Memory)
    (mac : Fin 6 → UInt8) (a b c d : UInt8) (arriving : Nat → List Frame) :
    let visible := visibleFrames (rxRun card events) arriving 0 0xffff
    AnswersRequest [a, b, c, d] visible
        (sysArp stack page ⟨mac, true, true⟩ (dottedQuad a b c d) arriving (rxRun card events)) ↔
      ∀ frame ∈ visible.head?, ReplyFrom [a, b, c, d] frame.bytes := by
  intro visible
  rw [sysArp_eq]
  change AnswersRequest _ visible (some ((visible.head?.map _).getD .noReply)) ↔ _
  cases first : visible.head? with
  | none =>
      have empty : visible = [] := List.head?_eq_none_iff.mp first
      refine iff_of_true ⟨fun report reported => ?_, fun frame member => ?_⟩ fun frame found => ?_
      · cases reported
      · rw [empty] at member
        cases member
      · cases found
  | some frame =>
      simp only [Option.map_some, Option.getD_some, Option.mem_some_iff, forall_eq']
      constructor
      · intro answers
        obtain ⟨arp, decoded, type, opcode, sender, _⟩ := answers.taken _ rfl
        exact ⟨arp, decoded, type, opcode, sender⟩
      · rintro ⟨arp, decoded, type, opcode, sender⟩
        refine ⟨fun report reported => ?_, fun _ _ _ => ⟨_, rfl⟩⟩
        rw [arpReport_of_decode decoded, Option.some.injEq, ArpOutcome.reported.injEq] at reported
        subst reported
        exact ⟨arp, decoded, type, opcode, sender, sender, rfl⟩

/-- An IPv4 broadcast of the smallest size. -/
def broadcastFrame : Frame :=
  ⟨List.replicate 6 0xff ++ [0x52, 0x55, 0x0a, 0x00, 0x02, 0x02] ++ [0x08, 0x00] ++
    List.replicate 46 0, by simp, by simp [rxBufSize]⟩

/-- A broadcast arrives before the first poll, and is reported. -/
theorem sysArp_reports_broadcast :
    ¬AnswersRequest [10, 0, 2, 2]
      (visibleFrames (rxRun emulatedCard []) (fun cnt => if cnt = 0 then [broadcastFrame] else [])
        0 0xffff)
      (sysArp (fun _ => 0) (fun _ => 1) ⟨fun _ => 0, true, true⟩ (dottedQuad 10 0 2 2)
        (fun cnt => if cnt = 0 then [broadcastFrame] else []) (rxRun emulatedCard [])) := by
  intro answers
  have first : (visibleFrames (rxRun emulatedCard [])
      (fun cnt => if cnt = 0 then [broadcastFrame] else []) 0 0xffff).head? =
        some broadcastFrame := by
    rw [visibleFrames, List.range'_succ]
    rfl
  obtain ⟨arp, decoded, type, _⟩ := answers.taken _ (by rw [sysArp_eq, first]; rfl)
  have parsed : (decodeArp broadcastFrame.bytes).map ArpPacket.etherType = some 0x0800 := by decide
  rw [show decodeArp broadcastFrame.bytes = some arp from decoded, Option.map_some, type] at parsed
  exact absurd parsed (by decide)

end Xv6.Net
