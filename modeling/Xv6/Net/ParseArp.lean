import Xv6.Net.GetIp

/-!
# `parse_arp_reply`

The way back in `arp_frame.c`: the header checks of `parse_arp_reply`, and the
functions `unpack_mac` and `parse_ip` that print addresses. The checks load the
fields the way the machine does, and `parse_ip` sets one octet of four.
-/

namespace Xv6.Net

open Xv6.Library

/-! ## Printing addresses -/

def intToHex (n : UInt32) : UInt8 :=
  if 0 ≤ n ∧ n ≤ 9 then 48 + n.toUInt8
  else if 10 ≤ n ∧ n ≤ 15 then 65 + (n.toUInt8 - 10)
  else 48

/-- `unpack_mac`: the last colon becomes the terminator. -/
def unpackMac (mac : List UInt8) : List UInt8 :=
  (mac.flatMap fun (m : UInt8) =>
    [intToHex ((m.toUInt32 &&& 0xf0) >>> 4), intToHex (m.toUInt32 &&& 0x0f), 58]).dropLast

/-- `while (ip1 > 0) { arr[j++] = (ip1 % 10) + '0'; ip1 /= 10; }`, with `left` elements of `arr`
left; `none` when a store leaves `arr`. -/
def digitsLoop : Nat → UInt32 → List UInt8 → Option (List UInt8)
  | left, ip1, arr =>
      if ip1 > 0 then
        match left with
        | 0 => none
        | left + 1 => digitsLoop left (ip1 / 10) (arr ++ [(ip1 % 10).toUInt8 + 48])
      else some arr

/-- The `&&` of C. -/
def logicalAnd (x y : UInt32) : UInt32 := if x ≠ 0 ∧ y ≠ 0 then 1 else 0

/-- `for (; i >= 0; i--) { ip_vals[i] = ip && v; v = v<<8; }` -/
def ipValsLoop (ip : UInt32) : Nat → UInt32 → (Nat → Option UInt32) → Nat → Option UInt32
  | 0, v, ipVals => Function.update ipVals 0 (some (logicalAnd ip v))
  | i + 1, v, ipVals =>
      ipValsLoop ip i (v <<< 8) (Function.update ipVals (i + 1) (some (logicalAnd ip v)))

/-- `ip_str[c++] = ..`, for several characters; `none` when a store leaves the 16 bytes. -/
def putChars (ipStr chars : List UInt8) : Option (List UInt8) :=
  if ipStr.length + chars.length ≤ 16 then some (ipStr ++ chars) else none

/-- The characters of one value, and the separator. -/
def printOctet (ip1 : UInt32) (ipStr : List UInt8) : Option (List UInt8) :=
  if ip1 = 0 then putChars ipStr [48, 58]
  else do
    let arr ← digitsLoop 3 ip1 []
    putChars ipStr (arr.reverse ++ [58])

/-- `for (int i = 0; i < 4; i++)`, with `left` values left. -/
def printLoop (ipVals : Nat → Option UInt32) : Nat → Nat → List UInt8 → Option (List UInt8)
  | 0, _, ipStr => some ipStr
  | left + 1, i, ipStr => do
      let ip1 ← ipVals i
      let ipStr ← printOctet ip1 ipStr
      printLoop ipVals left (i + 1) ipStr

/-- `parse_ip` into a buffer of 16 bytes, on a stack that holds `stack` where `ip_vals` comes to
lie: `none` there is an element that was not set, and reading one goes wrong. -/
def parseIp (stack : Nat → Option UInt32) (ip : UInt32) : Option (List UInt8) := do
  let ipVals := ipValsLoop ip 0 255 stack
  let ipStr ← printLoop ipVals 4 0 []
  -- `ip_str[c-1] = '\0'`
  return ipStr.dropLast

/-! ## The reply -/

/-- `util_strcmp`, on C strings. -/
def utilStrcmp : List UInt8 → List UInt8 → Int
  | [], [] => 0
  | [], d :: _ => -d.toNat
  | c :: _, [] => c.toNat
  | c :: p, d :: q => if c = d then utilStrcmp p q else c.toNat - d.toNat

/-- What `parse_arp_reply` prints. -/
inductive ArpVerdict where
  | notArp
  | notIpv4
  | notReply
  | notRecipient
  | mac (text : List UInt8)
  deriving DecidableEq

/-- `"255.255.255.255"` -/
def broadcastIp : List UInt8 := dottedQuad 255 255 255 255

/-- `parse_arp_reply` after the header checks. -/
def parseArpAddresses (stack : Nat → Option UInt32) (eth : Memory) : Option ArpVerdict := do
  let dstMac := unpackMac (eth.read (EthrHdr.offset .arpDmac) 6)
  if utilStrcmp broadcastMac dstMac ≠ 0 then return .notRecipient
  -- the 16-bit field `dip`
  let dstIp ← parseIp stack (eth.load (EthrHdr.offset .dip) 2).toUInt32
  if utilStrcmp broadcastIp dstIp ≠ 0 then return .notRecipient
  return .mac (unpackMac (eth.read (EthrHdr.offset .arpSmac) 6))

/-- `parse_arp_reply`, on a `struct ethr_hdr` at address 0; `none` when `parse_ip` goes wrong. -/
def parseArpReply (stack : Nat → Option UInt32) (eth : Memory) : Option ArpVerdict :=
  if eth.load (EthrHdr.offset .ethrType) 2 ≠ 0x0806 then some .notArp
  else if eth.load (EthrHdr.offset .protype) 2 ≠ 0x0800 then some .notIpv4
  else if eth.load (EthrHdr.offset .opcode) 2 ≠ 2 then some .notReply
  else parseArpAddresses stack eth

/-! ## The header checks -/

/-- None of the three header checks ended the call. -/
def PastChecks (verdict : Option ArpVerdict) : Prop :=
  verdict ≠ some .notArp ∧ verdict ≠ some .notIpv4 ∧ verdict ≠ some .notReply

instance (verdict : Option ArpVerdict) : Decidable (PastChecks verdict) :=
  inferInstanceAs (Decidable (_ ∧ _ ∧ _))

/-- The header of an ARP reply for IPv4, numbers most significant byte first. -/
def GenuineReply (frame : List UInt8) : Prop :=
  field16 frame 12 = 0x0806 ∧ field16 frame 16 = 0x0800 ∧ field16 frame 20 = 2

/-- The same numbers, least significant byte first. -/
def SwappedReply (frame : List UInt8) : Prop :=
  field16 frame 12 = 0x0608 ∧ field16 frame 16 = 0x0008 ∧ field16 frame 20 = 0x0200

instance (frame : List UInt8) : Decidable (GenuineReply frame) :=
  inferInstanceAs (Decidable (_ ∧ _ ∧ _))

instance (frame : List UInt8) : Decidable (SwappedReply frame) :=
  inferInstanceAs (Decidable (_ ∧ _ ∧ _))

theorem parseArpAddresses_past (stack : Nat → Option UInt32) (eth : Memory) :
    PastChecks (parseArpAddresses stack eth) := by
  unfold parseArpAddresses
  by_cases recipient : utilStrcmp broadcastMac (unpackMac (eth.read (EthrHdr.offset .arpDmac) 6)) = 0
  · cases printed : parseIp stack (eth.load (EthrHdr.offset .dip) 2).toUInt32 with
    | none => simp [recipient, PastChecks]
    | some dstIp =>
        by_cases asked : utilStrcmp broadcastIp dstIp = 0
        · simp [recipient, asked, PastChecks]
        · simp [recipient, asked, PastChecks]
  · simp [recipient, PastChecks]

theorem pastChecks_iff (stack : Nat → Option UInt32) (eth : Memory) :
    PastChecks (parseArpReply stack eth) ↔
      eth.load 12 2 = 0x0806 ∧ eth.load 16 2 = 0x0800 ∧ eth.load 20 2 = 2 := by
  obtain ⟨-, -, ethrType, -, protype, -, -, opcode, -⟩ := ethrHdr_offsets
  rw [parseArpReply, ethrType, protype, opcode]
  by_cases arp : eth.load 12 2 = 0x0806
  · by_cases ipv4 : eth.load 16 2 = 0x0800
    · by_cases reply : eth.load 20 2 = 2
      · have past := parseArpAddresses_past stack eth
        simpa only [arp, ipv4, reply, ne_eq, not_true_eq_false, if_false, and_self, iff_true]
      · simp [PastChecks, arp, ipv4, reply]
    · simp [PastChecks, arp, ipv4]
  · simp [PastChecks, arp]

/-- The machine reads a number of the frame least significant byte first. -/
theorem load_frame (memory : Memory) {frame : List UInt8} {offset : Nat}
    (inside : offset + 2 ≤ frame.length) :
    (memory.write 0 frame).load offset 2 =
      (frame.getD offset 0).toNat + 256 * (frame.getD (offset + 1) 0).toNat := by
  have low := memory.write_inside 0 (Nat.lt_of_succ_lt inside)
  have high := memory.write_inside 0 (Nat.lt_of_succ_le inside)
  rw [Nat.zero_add] at low high
  rw [List.getD_eq_getElem?_getD, List.getD_eq_getElem?_getD,
    List.getElem?_eq_getElem (Nat.lt_of_succ_lt inside),
    List.getElem?_eq_getElem (Nat.lt_of_succ_le inside), Option.getD_some, Option.getD_some,
    ← low, ← high]
  rfl

theorem load_frame_iff (memory : Memory) (frame : List UInt8) (offset low high : Nat)
    (inside : offset + 2 ≤ frame.length) (lowByte : low < 256) (highByte : high < 256) :
    (memory.write 0 frame).load offset 2 = 256 * high + low ↔
      field16 frame offset = 256 * low + high := by
  have first := (frame.getD offset 0).toNat_lt
  have second := (frame.getD (offset + 1) 0).toNat_lt
  rw [load_frame memory inside, field16]
  constructor
  · intro loaded
    omega
  · intro field
    omega

/-- The checks pass on the replies whose numbers are in the order of the machine. -/
theorem pastChecks_frame (stack : Nat → Option UInt32) (memory : Memory) (frame : List UInt8)
    (length : frame.length = 42) :
    PastChecks (parseArpReply stack (memory.write 0 frame)) ↔ SwappedReply frame := by
  have etherType :=
    load_frame_iff memory frame 12 0x06 0x08 (by omega) (by decide) (by decide)
  have protocol :=
    load_frame_iff memory frame 16 0x00 0x08 (by omega) (by decide) (by decide)
  have opcode :=
    load_frame_iff memory frame 20 0x02 0x00 (by omega) (by decide) (by decide)
  rw [pastChecks_iff]
  exact and_congr etherType (and_congr protocol opcode)

/-- A genuine reply is refused, and a swapped one is not. -/
theorem parseArpReply_iff (stack : Nat → Option UInt32) (memory : Memory) (frame : List UInt8)
    (length : frame.length = 42) :
    (PastChecks (parseArpReply stack (memory.write 0 frame)) ↔ GenuineReply frame) ↔
      ¬GenuineReply frame ∧ ¬SwappedReply frame := by
  have different : ¬(GenuineReply frame ∧ SwappedReply frame) := by
    rintro ⟨⟨genuine, -⟩, swapped, -⟩
    rw [genuine] at swapped
    cases swapped
  rw [pastChecks_frame stack memory frame length]
  tauto

/-- What `10.0.2.2` answers to the request of `10.0.2.15`. -/
def replyFrame : List UInt8 :=
  [0x52, 0x54, 0x00, 0x12, 0x34, 0x56, 0x52, 0x55, 0x0a, 0x00, 0x02, 0x02, 0x08, 0x06,
    0x00, 0x01, 0x08, 0x00, 0x06, 0x04, 0x00, 0x02, 0x52, 0x55, 0x0a, 0x00, 0x02, 0x02,
    10, 0, 2, 2, 0x52, 0x54, 0x00, 0x12, 0x34, 0x56, 10, 0, 2, 15]

theorem parseArpReply_genuine :
    ¬(PastChecks (parseArpReply (fun _ => none) (Memory.write (fun _ => 0) 0 replyFrame)) ↔
      GenuineReply replyFrame) := by
  decide +kernel

/-- The request itself is neither. -/
theorem parseArpReply_request :
    (PastChecks (parseArpReply (fun _ => none)
      (Memory.write (fun _ => 0) 0 (arpRequest (List.replicate 6 1) [10, 0, 2, 2]))) ↔
      GenuineReply (arpRequest (List.replicate 6 1) [10, 0, 2, 2])) :=
  (parseArpReply_iff (fun _ => none) (fun _ => 0) (arpRequest (List.replicate 6 1) [10, 0, 2, 2])
    (by decide)).mpr (by decide)

/-! ## Printing an address -/

/-- `parse_ip` gives the address back: it ends, stays inside of its buffers, reads what it has
set, and leaves the string that was parsed. -/
def PrintsBack (stack : Nat → Option UInt32) (a b c d : UInt8) : Prop :=
  ∃ ip, getIpAccesses (dottedQuad a b c d) = some ip ∧
    parseIp stack ip = some (dottedQuad a b c d)

theorem printLoop_succ {ipVals : Nat → Option UInt32} {left i : Nat} {ipStr out : List UInt8}
    (printed : printLoop ipVals (left + 1) i ipStr = some out) :
    ∃ ip1 next, ipVals i = some ip1 ∧ printOctet ip1 ipStr = some next ∧
      printLoop ipVals left (i + 1) next = some out := by
  rw [printLoop] at printed
  obtain ⟨ip1, read, printed⟩ := Option.bind_eq_some_iff.mp printed
  obtain ⟨next, first, rest⟩ := Option.bind_eq_some_iff.mp printed
  exact ⟨ip1, next, read, first, rest⟩

/-- `ip_vals[1]` is read and never set. -/
theorem parseIp_unset (ip : UInt32) : parseIp (fun _ => none) ip = none := by
  have unset : ipValsLoop ip 0 255 (fun _ => none) 1 = none :=
    Function.update_of_ne (by decide) _ _
  rw [Option.eq_none_iff_forall_not_mem]
  intro out printed
  obtain ⟨whole, printed, -⟩ := Option.bind_eq_some_iff.mp printed
  obtain ⟨ip1, next, -, -, rest⟩ := printLoop_succ printed
  obtain ⟨ip2, later, read, -⟩ := printLoop_succ rest
  rw [unset] at read
  cases read

theorem putChars_eq {ipStr chars next : List UInt8} (put : putChars ipStr chars = some next) :
    next = ipStr ++ chars := by
  unfold putChars at put
  by_cases room : ipStr.length + chars.length ≤ 16
  · rw [if_pos room, Option.some.injEq] at put
    exact put.symm
  · rw [if_neg room] at put
    cases put

/-- A value ends with a colon. -/
theorem printOctet_eq {ip1 : UInt32} {ipStr next : List UInt8}
    (printed : printOctet ip1 ipStr = some next) : ∃ chars, next = ipStr ++ chars ++ [58] := by
  unfold printOctet at printed
  by_cases zero : ip1 = 0
  · rw [if_pos zero] at printed
    exact ⟨[48], (putChars_eq printed).trans (List.append_assoc ipStr [48] [58]).symm⟩
  · rw [if_neg zero] at printed
    obtain ⟨arr, -, put⟩ := Option.bind_eq_some_iff.mp printed
    exact ⟨arr.reverse, (putChars_eq put).trans (List.append_assoc _ _ _).symm⟩

theorem printLoop_eq {ipVals : Nat → Option UInt32} {left i : Nat} {ipStr out : List UInt8}
    (printed : printLoop ipVals (left + 1) i ipStr = some out) :
    ∃ chars, out = ipStr ++ chars ++ [58] := by
  induction left generalizing i ipStr with
  | zero =>
      obtain ⟨ip1, next, -, last, ended⟩ := printLoop_succ printed
      cases ended
      exact printOctet_eq last
  | succ left inductionHypothesis =>
      obtain ⟨ip1, next, -, first, rest⟩ := printLoop_succ printed
      obtain ⟨chars, rfl⟩ := printOctet_eq first
      obtain ⟨more, rfl⟩ := inductionHypothesis rest
      exact ⟨chars ++ 58 :: more, by simp⟩

/-- The values are separated by colons. -/
theorem parseIp_colon {stack : Nat → Option UInt32} {ip : UInt32} {out : List UInt8}
    (printed : parseIp stack ip = some out) : 58 ∈ out := by
  obtain ⟨whole, printed, ended⟩ := Option.bind_eq_some_iff.mp printed
  obtain ⟨ip1, next, -, first, rest⟩ := printLoop_succ printed
  obtain ⟨chars, rfl⟩ := printOctet_eq first
  obtain ⟨more, rfl⟩ := printLoop_eq rest
  cases ended
  rw [List.dropLast_concat]
  simp

theorem decimal_colon : ∀ octet : UInt8, 58 ∉ decimal octet :=
  forall_octet (by decide +kernel)

/-- Whatever the stack holds, what is printed is not the address. -/
theorem parseIp_never (stack : Nat → Option UInt32) (a b c d : UInt8) :
    ¬PrintsBack stack a b c d := by
  rintro ⟨ip, -, printed⟩
  have colon := parseIp_colon printed
  rw [dottedQuad] at colon
  simp [decimal_colon] at colon

theorem parseIp_ten : ¬PrintsBack (fun _ => none) 10 0 2 15 := by
  rintro ⟨ip, -, printed⟩
  rw [parseIp_unset] at printed
  cases printed

end Xv6.Net
