import Xv6.Net.Icmp
import Xv6.Library.LittleEndian

/-!
# ARP requests

`send_arpRequest` of `arp.c` and the functions of `arp_frame.c` that it uses,
against the packet format of Ethernet and ARP.
-/

namespace Xv6.Net

open Xv6.Library

/-! ## The frame -/

/-- The fields of `struct ethr_hdr`. -/
inductive EthrHdr where
  | dmac
  | smac
  | ethrType
  | hwtype
  | protype
  | hwsize
  | prosize
  | opcode
  | arpSmac
  | sip
  | arpDmac
  | dip
  | dip2
  | padd
  deriving DecidableEq

namespace EthrHdr

/-- In the order of the declaration. -/
def fields : List EthrHdr :=
  [dmac, smac, ethrType, hwtype, protype, hwsize, prosize, opcode, arpSmac, sip, arpDmac, dip, dip2,
    padd]

def size : EthrHdr → Nat
  | dmac | smac | arpSmac | arpDmac => 6
  | ethrType | hwtype | protype | opcode | dip | dip2 | padd => 2
  | hwsize | prosize => 1
  | sip => 4

def align : EthrHdr → Nat
  | dmac | smac | arpSmac | arpDmac | hwsize | prosize => 1
  | ethrType | hwtype | protype | opcode | dip | dip2 | padd => 2
  | sip => 4

/-- The first multiple of an alignment from an offset on. -/
def roundUp (start alignment : Nat) : Nat := (start + alignment - 1) / alignment * alignment

def offsetFrom (field : EthrHdr) : List EthrHdr → Nat → Nat
  | [], start => start
  | first :: rest, start =>
      if first = field then roundUp start first.align
      else offsetFrom field rest (roundUp start first.align + first.size)

/-- Where a field lies: every one at the next multiple of its alignment. -/
def offset (field : EthrHdr) : Nat := offsetFrom field fields 0

/-- `sizeof(struct ethr_hdr)` -/
def sizeOf : Nat := roundUp (offset padd + size padd) 4

end EthrHdr

/-! ## The functions of `arp_frame.c` -/

def hexToInt (ch : UInt8) : UInt32 :=
  if 48 ≤ ch ∧ ch ≤ 57 then charToUInt32 ch - 48
  else if 65 ≤ ch ∧ ch ≤ 70 then 10 + (charToUInt32 ch - 65)
  else if 97 ≤ ch ∧ ch ≤ 102 then 10 + (charToUInt32 ch - 97)
  else 0

/-- The six octets of the `XX:XX:XX:XX:XX:XX` representation of a MAC address. -/
def packMac (src : List UInt8) : List UInt8 :=
  (List.range 6).map fun j =>
    ((hexToInt (src.getD (3 * j) 0) <<< 4) + hexToInt (src.getD (3 * j + 1) 0)).toUInt8

/-- `"FF:FF:FF:FF:FF:FF"` -/
def broadcastMac : List UInt8 :=
  [70, 70, 58, 70, 70, 58, 70, 70, 58, 70, 70, 58, 70, 70, 58, 70, 70]

/-- The loop of `util_atoi`, on a C string. -/
def utilAtoi : List UInt8 → UInt32 → UInt32
  | [], n => n
  | c :: rest, n =>
      if 48 ≤ c ∧ c ≤ 57 then utilAtoi rest (n * 10 + charToUInt32 c - 48) else n

/-- The loop of `get_ip`, with the characters in `arr` and the values in `ip_vals`;
`none` when a store would fall outside of these arrays of four. -/
def getIpLoop : List UInt8 → List UInt8 → List UInt32 → Option (List UInt8 × List UInt32)
  | [], arr, ipVals => some (arr, ipVals)
  | ch :: rest, arr, ipVals =>
      if ch = 46 then
        if arr.length < 4 ∧ ipVals.length < 4 then
          getIpLoop rest [] (ipVals ++ [utilAtoi arr 0])
        else none
      else if arr.length < 4 then getIpLoop rest (arr ++ [ch]) ipVals
      else none

/-- `get_ip`; `none` also when it would return values it has not set. -/
def getIp (ip : List UInt8) : Option UInt32 :=
  match getIpLoop ip [] [] with
  | some (arr, [v0, v1, v2]) =>
      if arr.length < 4 then
        some ((utilAtoi arr 0 <<< 24) + (v2 <<< 16) + (v1 <<< 8) + v0)
      else none
  | _ => none

def htons (v : UInt16) : UInt16 := (v >>> 8) ||| (v <<< 8)

/-- `create_eth_arp_frame`, on a `struct ethr_hdr` at address 0. -/
def createEthArpFrame (smac ipAddr : List UInt8) (eth : Memory) : Option Memory := do
  let dmac := packMac broadcastMac
  let eth := eth.write (EthrHdr.offset .dmac) dmac
  let eth := eth.write (EthrHdr.offset .smac) smac
  -- ether type = 0x0806 for ARP
  let eth := eth.store (EthrHdr.offset .ethrType) 2 (htons 0x0806).toNat
  let eth := eth.store (EthrHdr.offset .hwtype) 2 (htons 1).toNat
  let eth := eth.store (EthrHdr.offset .protype) 2 (htons 0x0800).toNat
  let eth := eth.store (EthrHdr.offset .hwsize) 1 0x06
  let eth := eth.store (EthrHdr.offset .prosize) 1 0x04
  -- arp request
  let eth := eth.store (EthrHdr.offset .opcode) 2 (htons 1).toNat
  let eth := eth.write (EthrHdr.offset .arpSmac) smac
  let eth := eth.write (EthrHdr.offset .arpDmac) dmac
  let sip ← getIp (dottedQuad 10 0 2 15)
  let eth := eth.store (EthrHdr.offset .sip) 4 sip.toNat
  let dip ← getIp ipAddr
  -- a 32-bit store through the 16-bit field
  return eth.store (EthrHdr.offset .dip) 4 dip.toNat

/-- `send_arpRequest`, on a stack with any content: the bytes passed to
`send_packet`, or -1; `none` when the address string makes `get_ip` go wrong. -/
def sendArpRequest (stack : Memory) (device : NicDevice) (ipAddr : List UInt8) :
    Option (Int × Option (List UInt8)) :=
  match getDevice device with
  | none => some (-1, none)
  | some nd => do
      let eth ← createEthArpFrame (List.ofFn nd.macAddr) ipAddr stack
      return (0, some (eth.read 0 (EthrHdr.sizeOf - 2)))

/-! ## The format -/

/-- An ARP packet for Ethernet and IPv4, in an Ethernet frame. -/
structure ArpPacket where
  destination : List UInt8
  source : List UInt8
  etherType : Nat
  hardwareType : Nat
  protocolType : Nat
  hardwareLength : UInt8
  protocolLength : UInt8
  opcode : Nat
  senderHardware : List UInt8
  senderProtocol : List UInt8
  targetHardware : List UInt8
  targetProtocol : List UInt8
  deriving DecidableEq

/-- The fields in the order of the format, numbers most significant byte first. -/
def decodeArp (frame : List UInt8) : Option ArpPacket :=
  if frame.length < 42 then none
  else some {
    destination := frame.take 6
    source := (frame.drop 6).take 6
    etherType := field16 frame 12
    hardwareType := field16 frame 14
    protocolType := field16 frame 16
    hardwareLength := frame.getD 18 0
    protocolLength := frame.getD 19 0
    opcode := field16 frame 20
    senderHardware := (frame.drop 22).take 6
    senderProtocol := (frame.drop 28).take 4
    targetHardware := (frame.drop 32).take 6
    targetProtocol := (frame.drop 38).take 4 }

/-! ## Addresses -/

theorem decimal_short : ∀ octet : UInt8, (decimal octet).length < 4 :=
  forall_octet (by decide +kernel)

theorem utilAtoi_decimal : ∀ octet : UInt8, utilAtoi (decimal octet) 0 = octet.toUInt32 :=
  forall_octet (by decide +kernel)

/-- Characters other than the dot are stored in `arr`. -/
theorem getIpLoop_append {digits : List UInt8} (other : ∀ c ∈ digits, c ≠ 46)
    (rest arr : List UInt8) (ipVals : List UInt32) (room : arr.length + digits.length < 5) :
    getIpLoop (digits ++ rest) arr ipVals = getIpLoop rest (arr ++ digits) ipVals := by
  induction digits generalizing arr with
  | nil => rw [List.nil_append, List.append_nil]
  | cons c digits inductionHypothesis =>
      have different : c ≠ 46 := other c List.mem_cons_self
      rw [List.length_cons] at room
      have short : arr.length < 4 := by omega
      rw [List.cons_append, getIpLoop, if_neg different, if_pos short,
        inductionHypothesis (fun c member => other c (List.mem_cons_of_mem _ member)) (arr ++ [c])
          (by rw [List.length_append, List.length_singleton]; omega),
        List.append_assoc, List.singleton_append]

theorem getIpLoop_octet (octet : UInt8) (rest : List UInt8) (ipVals : List UInt32)
    (room : ipVals.length < 4) :
    getIpLoop (decimal octet ++ 46 :: rest) [] ipVals =
      getIpLoop rest [] (ipVals ++ [octet.toUInt32]) := by
  have short := decimal_short octet
  rw [getIpLoop_append (fun c member => (decimal_digit octet c member).1) _ _ _ (by simp; omega),
    List.nil_append, getIpLoop, if_pos rfl, if_pos ⟨short, room⟩, utilAtoi_decimal]

/-- The octets of an address, the first one in the low byte. -/
theorem getIp_dottedQuad (a b c d : UInt8) : getIp (dottedQuad a b c d) =
    some ((d.toUInt32 <<< 24) + (c.toUInt32 <<< 16) + (b.toUInt32 <<< 8) + a.toUInt32) := by
  have short := decimal_short d
  have last := getIpLoop_append (fun c member => (decimal_digit d c member).1) [] []
    [a.toUInt32, b.toUInt32, c.toUInt32] (by simp; omega)
  rw [List.append_nil, List.nil_append] at last
  rw [getIp, dottedQuad, getIpLoop_octet a _ _ (by decide)]
  rw [getIpLoop_octet b _ _ (by simp), getIpLoop_octet c _ _ (by simp)]
  simp only [List.nil_append, List.cons_append, last, getIpLoop,
    if_pos short, utilAtoi_decimal]

/-- In memory the address lies in the order of its octets. -/
theorem leBytes_address (a b c d : UInt8) :
    leBytes ((d.toUInt32 <<< 24) + (c.toUInt32 <<< 16) + (b.toUInt32 <<< 8) + a.toUInt32).toNat 4 =
      [a, b, c, d] := by
  have value :
      ((d.toUInt32 <<< 24) + (c.toUInt32 <<< 16) + (b.toUInt32 <<< 8) + a.toUInt32).toNat =
        ofLeBytes [a, b, c, d] := by
    have := a.toNat_lt
    have := b.toNat_lt
    have := c.toNat_lt
    have := d.toNat_lt
    simp only [ofLeBytes, UInt32.toNat_add, UInt32.toNat_shiftLeft, UInt8.toNat_toUInt32,
      Nat.shiftLeft_eq, UInt32.reduceToNat, Nat.reduceMod, Nat.reducePow]
    omega
  rw [value]
  exact leBytes_ofLeBytes [a, b, c, d]

/-! ## The frame of a request -/

def arpRequest (mac target : List UInt8) : List UInt8 :=
  List.replicate 6 0xff ++ mac ++ [0x08, 0x06] ++ [0x00, 0x01] ++ [0x08, 0x00] ++ [0x06] ++ [0x04] ++
    [0x00, 0x01] ++ mac ++ [10, 0, 2, 15] ++ List.replicate 6 0xff ++ target

theorem length_arpRequest {mac target : List UInt8} (six : mac.length = 6)
    (four : target.length = 4) : (arpRequest mac target).length = 42 := by
  simp only [arpRequest, List.length_append, List.length_replicate, List.length_cons,
    List.length_nil, six, four]

theorem ethrHdr_offsets :
    EthrHdr.offset .dmac = 0 ∧ EthrHdr.offset .smac = 6 ∧ EthrHdr.offset .ethrType = 12 ∧
      EthrHdr.offset .hwtype = 14 ∧ EthrHdr.offset .protype = 16 ∧ EthrHdr.offset .hwsize = 18 ∧
      EthrHdr.offset .prosize = 19 ∧ EthrHdr.offset .opcode = 20 ∧
      EthrHdr.offset .arpSmac = 22 ∧ EthrHdr.offset .sip = 28 ∧ EthrHdr.offset .arpDmac = 32 ∧
      EthrHdr.offset .dip = 38 := by
  decide

/-- The fields lie one after the other; `sip` is stored after `arp_dmac` and lies before it. -/
theorem createEthArpFrame_eq {mac : List UInt8} (six : mac.length = 6) (a b c d : UInt8)
    (stack : Memory) : createEthArpFrame mac (dottedQuad a b c d) stack =
      some (stack.write 0 (arpRequest mac [a, b, c, d])) := by
  have broadcast : packMac broadcastMac = List.replicate 6 0xff := by decide
  have sender : leBytes ((15 : UInt8).toUInt32 <<< 24 + (2 : UInt8).toUInt32 <<< 16 +
      (0 : UInt8).toUInt32 <<< 8 + (10 : UInt8).toUInt32).toNat 4 = [10, 0, 2, 15] :=
    leBytes_address 10 0 2 15
  have constants : leBytes (htons 0x0806).toNat 2 = [0x08, 0x06] ∧
      leBytes (htons 1).toNat 2 = [0x00, 0x01] ∧ leBytes (htons 0x0800).toNat 2 = [0x08, 0x00] ∧
      leBytes 0x06 1 = [0x06] ∧ leBytes 0x04 1 = [0x04] := by decide
  obtain ⟨dmac, smac, ethrType, hwtype, protype, hwsize, prosize, opcode, arpSmac, sip, arpDmac,
    dip⟩ := ethrHdr_offsets
  -- the order of the stores becomes the order of the addresses
  have swap (memory : Memory) :
      (memory.write 32 (List.replicate 6 0xff)).write 28 [10, 0, 2, 15] =
        (memory.write 28 [10, 0, 2, 15]).write 32 (List.replicate 6 0xff) :=
    memory.write_comm (Or.inr (by decide))
  simp only [createEthArpFrame, getIp_dottedQuad, Option.bind_eq_bind, Option.bind_some,
    Option.pure_def, Memory.store, sender, leBytes_address, broadcast, constants, dmac, smac,
    ethrType, hwtype, protype, hwsize, prosize, opcode, arpSmac, sip, arpDmac, dip, swap]
  simp (disch := simp [six]) only [Memory.write_next, arpRequest]

theorem decodeArp_arpRequest {mac target : List UInt8} (six : mac.length = 6)
    (four : target.length = 4) : decodeArp (arpRequest mac target) = some {
      destination := List.replicate 6 0xff
      source := mac
      etherType := 0x0806
      hardwareType := 1
      protocolType := 0x0800
      hardwareLength := 6
      protocolLength := 4
      opcode := 1
      senderHardware := mac
      senderProtocol := [10, 0, 2, 15]
      targetHardware := List.replicate 6 0xff
      targetProtocol := target } := by
  have length := length_arpRequest six four
  rw [decodeArp, if_neg (by omega)]
  clear length
  match mac, target, six, four with
  | [m0, m1, m2, m3, m4, m5], [t0, t1, t2, t3], _, _ =>
      simp [arpRequest, field16, List.replicate]

/-- Every request decodes as the request that was asked for. -/
theorem sendArpRequest_valid (mac : Fin 6 → UInt8) (stack : Memory) (a b c d : UInt8) :
    ∃ frame,
      sendArpRequest stack ⟨mac, true, true⟩ (dottedQuad a b c d) = some (0, some frame) ∧
      frame.length = 42 ∧
      decodeArp frame = some {
        destination := List.replicate 6 0xff
        source := List.ofFn mac
        etherType := 0x0806
        hardwareType := 1
        protocolType := 0x0800
        hardwareLength := 6
        protocolLength := 4
        opcode := 1
        senderHardware := List.ofFn mac
        senderProtocol := [10, 0, 2, 15]
        targetHardware := List.replicate 6 0xff
        targetProtocol := [a, b, c, d] } := by
  have six : (List.ofFn mac).length = 6 := List.length_ofFn
  have length := length_arpRequest six (show [a, b, c, d].length = 4 from rfl)
  have back := stack.read_write_same 0 (arpRequest (List.ofFn mac) [a, b, c, d])
  rw [length] at back
  refine ⟨arpRequest (List.ofFn mac) [a, b, c, d], ?_, length, decodeArp_arpRequest six rfl⟩
  have size : EthrHdr.sizeOf - 2 = 42 := by decide
  have ready : getDevice ⟨mac, true, true⟩ = some ⟨mac, true, true⟩ := rfl
  rw [sendArpRequest, ready]
  simp only [createEthArpFrame_eq six, size, back, Option.bind_eq_bind, Option.bind_some,
    Option.pure_def]

end Xv6.Net
