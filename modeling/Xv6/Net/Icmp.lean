import Xv6.Net.Address
import Xv6.Net.Checksum

/-!
# ICMP requests

`send_icmpRequest` of `sysfile.c`, and what a valid Ethernet / IPv4 / ICMP
packet is.  The checksums the function stores are computed over one word too
few and in the wrong byte order; for the ICMP message this never comes out
right, whatever the type and the code.
-/

namespace Xv6.Net

open Xv6.Library

/-! ## Building the packet -/

/-- The loop of `fillbuf` with `j` bytes left to store. -/
def fillbufLoop (buf : Memory) (k : UInt8) (num : UInt64) : Nat → Memory × UInt8
  | 0 => (buf, k)
  | j + 1 =>
      let byte := ((num >>> (j <<< 3).toUInt64) &&& 0xff).toUInt8
      fillbufLoop (Function.update buf k.toNat byte) (k + 1) num j

/-- `fillbuf`: store the low `len` bytes of `num`, most significant first. -/
def fillbuf (buf : Memory) (k : UInt8) (num : UInt64) (len : UInt8) : Memory × UInt8 :=
  fillbufLoop buf k num len.toNat

/-- `struct nic_device`, with function pointers known only to be null or not. -/
structure NicDevice where
  macAddr : Fin 6 → UInt8
  sendPacket : Bool
  recvPacket : Bool

/-- `get_device` on `nic_devices[0]`. -/
def getDevice (device : NicDevice) : Option NicDevice :=
  if device.sendPacket = false ∨ device.recvPacket = false then none else some device

/-- What a call of `send_icmpRequest` comes to. -/
inductive IcmpResult where
  /-- `get_device` failed: the call returns -1. -/
  | noDevice
  /-- The bytes passed to `send_packet`. -/
  | sent (frame : List UInt8)

/-- `send_icmpRequest`, on a page with arbitrary content and the current value
of its static counter, which is the first component of the result; `none` when
`getIP` reads past the end of the address string. -/
def sendIcmpRequest (page : Memory) (id : UInt16) (device : NicDevice) (tarips : List UInt8)
    (type code : UInt8) : Option (UInt16 × IcmpResult) := do
  let tarmac : UInt64 := 0x52550a000202
  let srcmac : UInt64 := 0x525400123456
  let macprotocal : UInt16 := 0x0800
  let (buffer, pos) := fillbuf page 0 tarmac 6
  let (buffer, pos) := fillbuf buffer pos srcmac 6
  let (buffer, pos) := fillbuf buffer pos macprotocal.toUInt64 2
  let vrs : UInt16 := 4
  let IHL : UInt16 := 5
  let TOS : UInt16 := 0
  let TOL : UInt16 := 28
  let ID := id
  let id := id + 1
  let flag : UInt16 := 0
  let offset : UInt16 := 0
  let TTL : UInt16 := 32
  let protocal : UInt16 := 1
  let piphdr := pos
  let (buffer, pos) := fillbuf buffer pos ((vrs.toUInt64 <<< 4) + IHL.toUInt64) 1
  let (buffer, pos) := fillbuf buffer pos TOS.toUInt64 1
  let (buffer, pos) := fillbuf buffer pos TOL.toUInt64 2
  let (buffer, pos) := fillbuf buffer pos ID.toUInt64 2
  let (buffer, pos) := fillbuf buffer pos ((flag.toUInt64 <<< 13) + offset.toUInt64) 2
  let (buffer, pos) := fillbuf buffer pos TTL.toUInt64 1
  let (buffer, pos) := fillbuf buffer pos protocal.toUInt64 1
  let srcip ← getIP (dottedQuad 10 0 2 15)
  let tarip ← getIP tarips
  let posiphdrcks := pos
  let (buffer, pos) := fillbuf buffer pos 0 2
  let (buffer, pos) := fillbuf buffer pos srcip.toUInt64 4
  let (buffer, pos) := fillbuf buffer pos tarip.toUInt64 4
  let picmphdr := pos
  let (buffer, pos) := fillbuf buffer pos type.toUInt64 1
  let (buffer, pos) := fillbuf buffer pos code.toUInt64 1
  let icmpflag : UInt16 := 1108
  let icmpseq : UInt16 := 921
  let posicmphdrcks := pos
  let (buffer, pos) := fillbuf buffer pos 0 2
  let (buffer, pos) := fillbuf buffer pos icmpflag.toUInt64 2
  let (buffer, pos) := fillbuf buffer pos icmpseq.toUInt64 2
  let cksum := calcChecksum buffer piphdr.toNat 10
  let icmpcksum := calcChecksum buffer picmphdr.toNat 4
  let (buffer, _) := fillbuf buffer posiphdrcks cksum.toUInt64 2
  let (buffer, _) := fillbuf buffer posicmphdrcks icmpcksum.toUInt64 2
  match getDevice device with
  | none => return (id, .noDevice)
  | some _ => return (id, .sent (buffer.read 0 pos.toNat))

/-! ## What a valid packet is -/

/-- The 16-bit field at a byte offset, in network byte order. -/
def field16 (frame : List UInt8) (offset : Nat) : Nat :=
  (frame.getD offset 0).toNat * 256 + (frame.getD (offset + 1) 0).toNat

/-- The words of a header, in network byte order. -/
def headerWords (frame : List UInt8) (offset count : Nat) : List Nat :=
  (List.range count).map fun index => field16 frame (offset + 2 * index)

/-- The fields of the 42-byte packet, checksums aside. -/
structure IcmpFields (frame : List UInt8) (id : UInt16) (target : List UInt8)
    (type code : UInt8) : Prop where
  length : frame.length = 42
  destination : frame.take 6 = [0x52, 0x55, 0x0a, 0x00, 0x02, 0x02]
  source : (frame.drop 6).take 6 = [0x52, 0x54, 0x00, 0x12, 0x34, 0x56]
  etherType : field16 frame 12 = 0x0800
  versionIHL : frame.getD 14 0 = 0x45
  typeOfService : frame.getD 15 0 = 0
  totalLength : field16 frame 16 = frame.length - 14
  identification : field16 frame 18 = id.toNat
  fragment : field16 frame 20 = 0
  timeToLive : frame.getD 22 0 = 32
  protocol : frame.getD 23 0 = 1
  sourceAddress : (frame.drop 26).take 4 = [10, 0, 2, 15]
  targetAddress : (frame.drop 30).take 4 = target
  icmpType : frame.getD 34 0 = type
  icmpCode : frame.getD 35 0 = code
  icmpIdentifier : field16 frame 38 = 1108
  icmpSequence : field16 frame 40 = 921

/-- A valid packet: the intended fields, and both headers sum to all ones. -/
structure IcmpValid (frame : List UInt8) (id : UInt16) (target : List UInt8)
    (type code : UInt8) : Prop where
  fields : IcmpFields frame id target type code
  ipChecksum : onesSum (headerWords frame 14 10) = 0xffff
  icmpChecksum : onesSum (headerWords frame 34 4) = 0xffff

/-! ## The bytes of the packet -/

/-- The low `len` bytes of a number, most significant first. -/
def beBytes (num : UInt64) : Nat → List UInt8
  | 0 => []
  | j + 1 => ((num >>> (j <<< 3).toUInt64) &&& 0xff).toUInt8 :: beBytes num j

@[simp]
theorem length_beBytes (num : UInt64) (len : Nat) : (beBytes num len).length = len := by
  induction len with
  | zero => rfl
  | succ len inductionHypothesis => simp [beBytes, inductionHypothesis]

theorem fillbufLoop_eq (buf : Memory) (k : UInt8) (num : UInt64) (len : Nat)
    (room : k.toNat + len < 256) :
    fillbufLoop buf k num len =
      (buf.write k.toNat (beBytes num len), (k.toNat + len).toUInt8) := by
  induction len generalizing buf k with
  | zero => simp [fillbufLoop, beBytes, Memory.write_nil]
  | succ len inductionHypothesis =>
      have next : (k + 1).toNat = k.toNat + 1 := by
        rw [UInt8.toNat_add]
        simp only [UInt8.reduceToNat]
        omega
      rw [fillbufLoop, inductionHypothesis _ _ (by omega), next, beBytes, Memory.write_cons]
      congr 2
      omega

/-- Store a field in the middle of the packet. -/
theorem fillbuf_eq (buf : Memory) (k : UInt8) (num : UInt64) (len : UInt8)
    (room : k.toNat + len.toNat < 256) :
    fillbuf buf k num len =
      (buf.write k.toNat (beBytes num len.toNat), (k.toNat + len.toNat).toUInt8) :=
  fillbufLoop_eq buf k num len.toNat room

/-- Append a field to the bytes stored so far. -/
theorem fillbuf_append (page : Memory) (bytes : List UInt8) (k : UInt8) (num : UInt64)
    (len : UInt8) (position : bytes.length = k.toNat) (room : k.toNat + len.toNat < 256) :
    fillbuf (page.write 0 bytes) k num len =
      (page.write 0 (bytes ++ beBytes num len.toNat), k + len) := by
  have advanced : (k.toNat + len.toNat).toUInt8 = k + len := by
    rw [← UInt8.toNat_inj, UInt8.toNat_add]
    simp
  rw [fillbuf_eq _ _ _ _ room, advanced, ← position]
  have appended := page.write_append 0 bytes (beBytes num len.toNat)
  rw [Nat.zero_add] at appended
  rw [appended]

/-- The packet before the checksums are stored. -/
def icmpDraft (id : UInt16) (tarip : UInt32) (type code : UInt8) : List UInt8 :=
  [0x52, 0x55, 0x0a, 0x00, 0x02, 0x02, 0x52, 0x54, 0x00, 0x12, 0x34, 0x56, 0x08, 0x00,
    0x45, 0x00, 0x00, 0x1c] ++ beBytes id.toUInt64 2 ++ [0x00, 0x00, 0x20, 0x01, 0x00, 0x00,
    10, 0, 2, 15] ++ beBytes tarip.toUInt64 4 ++ [type, code, 0, 0, 0x04, 0x54, 0x03, 0x99]

theorem beBytes_octet : ∀ octet : UInt8, beBytes octet.toUInt64 1 = [octet] :=
  forall_octet (by decide +kernel)

/-- The fields stored by the successive `fillbuf` calls are the draft. -/
theorem icmpDraft_eq (id : UInt16) (tarip : UInt32) (type code : UInt8) :
    [] ++ beBytes 0x52550a000202 6 ++ beBytes 0x525400123456 6 ++
      beBytes (UInt16.toUInt64 0x0800) 2 ++
      beBytes (UInt16.toUInt64 4 <<< 4 + UInt16.toUInt64 5) 1 ++
      beBytes (UInt16.toUInt64 0) 1 ++ beBytes (UInt16.toUInt64 28) 2 ++
      beBytes id.toUInt64 2 ++ beBytes (UInt16.toUInt64 0 <<< 13 + UInt16.toUInt64 0) 2 ++
      beBytes (UInt16.toUInt64 32) 1 ++ beBytes (UInt16.toUInt64 1) 1 ++ beBytes 0 2 ++
      beBytes (addressOf 10 0 2 15).toUInt64 4 ++ beBytes tarip.toUInt64 4 ++
      beBytes type.toUInt64 1 ++ beBytes code.toUInt64 1 ++ beBytes 0 2 ++
      beBytes (UInt16.toUInt64 1108) 2 ++ beBytes (UInt16.toUInt64 921) 2 =
    icmpDraft id tarip type code := by
  have ethernet : [] ++ beBytes 0x52550a000202 6 ++ beBytes 0x525400123456 6 ++
      beBytes (UInt16.toUInt64 0x0800) 2 ++
      beBytes (UInt16.toUInt64 4 <<< 4 + UInt16.toUInt64 5) 1 ++
      beBytes (UInt16.toUInt64 0) 1 ++ beBytes (UInt16.toUInt64 28) 2 =
      [0x52, 0x55, 0x0a, 0x00, 0x02, 0x02, 0x52, 0x54, 0x00, 0x12, 0x34, 0x56, 0x08, 0x00,
        0x45, 0x00, 0x00, 0x1c] := by decide +kernel
  have fragment : beBytes (UInt16.toUInt64 0 <<< 13 + UInt16.toUInt64 0) 2 = [0, 0] := by
    decide +kernel
  have ttl : beBytes (UInt16.toUInt64 32) 1 = [32] := by decide +kernel
  have protocol : beBytes (UInt16.toUInt64 1) 1 = [1] := by decide +kernel
  have zero : beBytes 0 2 = [0, 0] := by decide +kernel
  have source : beBytes (addressOf 10 0 2 15).toUInt64 4 = [10, 0, 2, 15] := by decide +kernel
  have flag : beBytes (UInt16.toUInt64 1108) 2 = [0x04, 0x54] := by decide +kernel
  have sequence : beBytes (UInt16.toUInt64 921) 2 = [0x03, 0x99] := by decide +kernel
  rw [ethernet, fragment, ttl, protocol, zero, source, flag, sequence, beBytes_octet,
    beBytes_octet]
  simp only [icmpDraft, List.append_assoc, List.cons_append, List.nil_append]

theorem sendIcmpRequest_eq (page : Memory) (id : UInt16) (device : NicDevice)
    (tarips : List UInt8) (type code : UInt8) (tarip : UInt32) (parsed : getIP tarips = some tarip) :
    sendIcmpRequest page id device tarips type code =
      let draft := page.write 0 (icmpDraft id tarip type code)
      let checked := draft.write 24 (beBytes (calcChecksum draft 14 10).toUInt64 2)
      let final := checked.write 36 (beBytes (calcChecksum draft 34 4).toUInt64 2)
      some (id + 1, match getDevice device with
        | none => .noDevice
        | some _ => .sent (final.read 0 42)) := by
  have empty : page = page.write 0 [] := (page.write_nil 0).symm
  unfold sendIcmpRequest
  rw [empty]
  simp (disch := simp) only [fillbuf_append, parsed, getIP_dottedQuad, UInt8.reduceAdd,
    UInt8.reduceToNat, Option.bind_eq_bind, Option.bind_some]
  rw [icmpDraft_eq, Memory.write_nil]
  simp (disch := simp) only [fillbuf_eq, UInt8.reduceToNat]
  cases getDevice device <;> rfl

/-- The bytes handed to `send_packet`, given the two checksums. -/
def icmpFrame (id : UInt16) (tarip : UInt32) (type code : UInt8) (cksum icmpcksum : UInt16) :
    List UInt8 :=
  [0x52, 0x55, 0x0a, 0x00, 0x02, 0x02, 0x52, 0x54, 0x00, 0x12, 0x34, 0x56, 0x08, 0x00,
    0x45, 0x00, 0x00, 0x1c] ++ beBytes id.toUInt64 2 ++ [0x00, 0x00, 0x20, 0x01] ++
    beBytes cksum.toUInt64 2 ++ [10, 0, 2, 15] ++ beBytes tarip.toUInt64 4 ++ [type, code] ++
    beBytes icmpcksum.toUInt64 2 ++ [0x04, 0x54, 0x03, 0x99]

/-- Storing the checksums turns the draft into the frame. -/
theorem icmpFrame_eq (page : Memory) (id : UInt16) (tarip : UInt32) (type code : UInt8)
    (cksum icmpcksum : UInt16) :
    (((page.write 0 (icmpDraft id tarip type code)).write 24 (beBytes cksum.toUInt64 2)).write 36
      (beBytes icmpcksum.toUInt64 2)).read 0 42 =
      icmpFrame id tarip type code cksum icmpcksum := by
  have ip := page.write_middle 0 ([0x52, 0x55, 0x0a, 0x00, 0x02, 0x02, 0x52, 0x54, 0x00, 0x12,
      0x34, 0x56, 0x08, 0x00, 0x45, 0x00, 0x00, 0x1c] ++ beBytes id.toUInt64 2 ++
      [0x00, 0x00, 0x20, 0x01])
    ([10, 0, 2, 15] ++ beBytes tarip.toUInt64 4 ++ [type, code, 0, 0, 0x04, 0x54, 0x03, 0x99])
    [0, 0] (beBytes cksum.toUInt64 2) (by simp)
  have icmp := page.write_middle 0 ([0x52, 0x55, 0x0a, 0x00, 0x02, 0x02, 0x52, 0x54, 0x00, 0x12,
      0x34, 0x56, 0x08, 0x00, 0x45, 0x00, 0x00, 0x1c] ++ beBytes id.toUInt64 2 ++
      [0x00, 0x00, 0x20, 0x01] ++ beBytes cksum.toUInt64 2 ++ [10, 0, 2, 15] ++
      beBytes tarip.toUInt64 4 ++ [type, code])
    [0x04, 0x54, 0x03, 0x99] [0, 0] (beBytes icmpcksum.toUInt64 2) (by simp)
  have length : (icmpFrame id tarip type code cksum icmpcksum).length = 42 := by
    simp [icmpFrame]
  have stored := page.read_write_same 0 (icmpFrame id tarip type code cksum icmpcksum)
  rw [length] at stored
  rw [← stored]
  simp only [List.length_append, List.length_cons, List.length_nil, length_beBytes,
    List.append_assoc, List.cons_append, List.nil_append, Nat.reduceAdd] at ip icmp
  simp only [icmpDraft, icmpFrame, List.append_assoc, List.cons_append, List.nil_append]
  rw [ip, icmp]

/-! ## The fields are right -/

/-- One byte of a number, in arithmetic. -/
theorem beByte_toNat (num : UInt64) (j : Nat) (small : j < 8) :
    ((num >>> (j <<< 3).toUInt64) &&& 0xff).toUInt8.toNat = num.toNat / 2 ^ (8 * j) % 256 := by
  have amount : (j <<< 3).toUInt64.toNat % 64 = 8 * j := by
    rw [Nat.shiftLeft_eq]
    simp only [Nat.toUInt64_eq, UInt64.toNat_ofNat']
    omega
  rw [UInt64.toNat_toUInt8, UInt64.toNat_and, UInt64.toNat_shiftRight, amount,
    Nat.shiftRight_eq_div_pow, show (0xff : UInt64).toNat = 2 ^ 8 - 1 by rfl,
    Nat.and_two_pow_sub_one_eq_mod]
  omega

/-- The two bytes of a 16-bit field spell its value. -/
theorem beBytes_word (word : UInt16) : ∃ high low : UInt8,
    beBytes word.toUInt64 2 = [high, low] ∧ high.toNat * 256 + low.toNat = word.toNat := by
  refine ⟨_, _, rfl, ?_⟩
  have small := word.toNat_lt
  rw [beByte_toNat _ _ (by decide), beByte_toNat _ _ (by decide), UInt16.toNat_toUInt64]
  simp only [Nat.reduceMul, Nat.reducePow]
  omega

/-- An address is stored octet by octet. -/
theorem beBytes_address (a b c d : UInt8) :
    beBytes (addressOf a b c d).toUInt64 4 = [a, b, c, d] := by
  have value : (addressOf a b c d).toUInt64.toNat =
      a.toNat * 2 ^ 24 + b.toNat * 2 ^ 16 + c.toNat * 2 ^ 8 + d.toNat := by
    rw [UInt32.toNat_toUInt64, addressOf_toNat]
  simp only [beBytes, List.cons.injEq, and_true, ← UInt8.toNat_inj]
  have := a.toNat_lt
  have := b.toNat_lt
  have := c.toNat_lt
  have := d.toNat_lt
  refine ⟨?_, ?_, ?_, ?_⟩ <;> rw [beByte_toNat _ _ (by decide), value] <;> omega

/-- Checksums aside, the frame is the intended packet. -/
theorem icmpFrame_fields (id : UInt16) (a b c d type code : UInt8) (cksum icmpcksum : UInt16) :
    IcmpFields (icmpFrame id (addressOf a b c d) type code cksum icmpcksum) id [a, b, c, d]
      type code := by
  obtain ⟨idHigh, idLow, idBytes, idValue⟩ := beBytes_word id
  obtain ⟨ckHigh, ckLow, ckBytes, _⟩ := beBytes_word cksum
  obtain ⟨icmpHigh, icmpLow, icmpBytes, _⟩ := beBytes_word icmpcksum
  simp only [icmpFrame, idBytes, ckBytes, icmpBytes, beBytes_address, List.cons_append,
    List.nil_append]
  constructor
  case identification => simpa [field16] using idValue
  all_goals simp [field16]

/-! ## The checksum is not -/

/-- The checksum of the ICMP message covers its first three words, loaded least
significant byte first. -/
theorem icmpChecksum_words (page : Memory) (id : UInt16) (tarip : UInt32) (type code : UInt8) :
    summedWords (page.write 0 (icmpDraft id tarip type code)) 34 4 =
      [type.toNat + 256 * code.toNat, 0, 0x04 + 256 * 0x54] := by
  simp [summedWords, loadU16_toNat, List.range_succ, icmpDraft, beBytes, Memory.write]

/-- No type and no code make the ICMP checksum come out. -/
theorem icmpFrame_checksum (page : Memory) (id : UInt16) (tarip : UInt32) (type code : UInt8)
    (cksum : UInt16) :
    onesSum (headerWords (icmpFrame id tarip type code cksum
      (calcChecksum (page.write 0 (icmpDraft id tarip type code)) 34 4)) 34 4) ≠ 0xffff := by
  have complement := calcChecksum_mod (page.write 0 (icmpDraft id tarip type code)) 34 4
    (by decide)
  rw [icmpChecksum_words] at complement
  generalize calcChecksum (page.write 0 (icmpDraft id tarip type code)) 34 4 = icmpcksum
    at complement ⊢
  obtain ⟨idHigh, idLow, idBytes, _⟩ := beBytes_word id
  obtain ⟨ckHigh, ckLow, ckBytes, _⟩ := beBytes_word cksum
  obtain ⟨icmpHigh, icmpLow, icmpBytes, icmpValue⟩ := beBytes_word icmpcksum
  have words : headerWords (icmpFrame id tarip type code cksum icmpcksum) 34 4 =
      [type.toNat * 256 + code.toNat, icmpcksum.toNat, 1108, 921] := by
    obtain ⟨t1, t2, t3, t4, targetBytes⟩ :
        ∃ t1 t2 t3 t4, beBytes tarip.toUInt64 4 = [t1, t2, t3, t4] := ⟨_, _, _, _, rfl⟩
    simp [headerWords, icmpFrame, field16, idBytes, ckBytes, icmpBytes, targetBytes,
      List.range_succ, icmpValue]
  intro ones
  have multiple := sum_mod_of_onesSum (words ▸ ones)
  simp only [List.sum_cons, List.sum_nil] at multiple complement
  omega

/-- The device `e1000_attach` registers: both function pointers set. -/
def e1000Device (macAddr : Fin 6 → UInt8) : NicDevice :=
  { macAddr := macAddr, sendPacket := true, recvPacket := true }

/-- For a dotted-quad target the frame is handed to the driver. -/
theorem sendIcmpRequest_sent (page : Memory) (id : UInt16) (macAddr : Fin 6 → UInt8)
    (a b c d type code : UInt8) :
    ∃ cksum, sendIcmpRequest page id (e1000Device macAddr) (dottedQuad a b c d) type code =
      some (id + 1, .sent (icmpFrame id (addressOf a b c d) type code cksum
        (calcChecksum (page.write 0 (icmpDraft id (addressOf a b c d) type code)) 34 4))) := by
  refine ⟨calcChecksum (page.write 0 (icmpDraft id (addressOf a b c d) type code)) 14 10, ?_⟩
  rw [sendIcmpRequest_eq page id _ _ type code _ (getIP_dottedQuad a b c d)]
  simp only [icmpFrame_eq, getDevice, e1000Device, Bool.true_eq_false, or_self, if_false]

/-- **Every ICMP request is invalid.**  Whatever the counter, the target, the
type and the code, the frame handed to `send_packet` carries the intended
fields but not a valid ICMP checksum. -/
theorem icmpRequest_invalid (page : Memory) (id : UInt16) (macAddr : Fin 6 → UInt8)
    (a b c d type code : UInt8) :
    ∃ frame,
      sendIcmpRequest page id (e1000Device macAddr) (dottedQuad a b c d) type code =
        some (id + 1, .sent frame) ∧
      IcmpFields frame id [a, b, c, d] type code ∧
      ¬IcmpValid frame id [a, b, c, d] type code := by
  obtain ⟨cksum, sent⟩ := sendIcmpRequest_sent page id macAddr a b c d type code
  refine ⟨_, sent, icmpFrame_fields id a b c d type code cksum _, ?_⟩
  intro valid
  exact icmpFrame_checksum page id (addressOf a b c d) type code cksum valid.icmpChecksum

/-- The request `sys_icmptest` sends first: counter 1, an echo request to 10.0.2.2. -/
theorem icmptest_request_invalid : ∃ frame,
    sendIcmpRequest (fun _ => 0) 1 (e1000Device fun _ => 0) (dottedQuad 10 0 2 2) 8 0 =
      some (2, .sent frame) ∧ ¬IcmpValid frame 1 [10, 0, 2, 2] 8 0 := by
  obtain ⟨cksum, sent⟩ := sendIcmpRequest_sent (fun _ => 0) 1 (fun _ => 0) 10 0 2 2 8 0
  exact ⟨_, sent, fun valid => icmpFrame_checksum _ _ _ _ _ _ valid.icmpChecksum⟩

end Xv6.Net
