import Xv6.Net.GetIp

/-!
# The two address parsers

`getIP` of `sysfile.c` serves the IP header, `get_ip` of `arp_frame.c` the ARP
frame. They agree on the value; but `getIP` first prints the character `sIP[9]`,
which a short address does not have.
-/

namespace Xv6.Net

open Xv6.Library

/-- `getIP` on the array of a C string; `none` when a read leaves the array. -/
def getIPAccesses (sIP : List UInt8) : Option UInt32 := do
  -- cprintf("%d\n",sIP[9]);
  let _ ← (sIP ++ [0])[9]?
  getIP sIP

def htonl (v : UInt32) : UInt32 :=
  (htons (v >>> 16).toUInt16).toUInt32 ||| ((htons v.toUInt16).toUInt32 <<< 16)

/-- The parsers agree on an address, and what is made of their values puts its octets on
the wire. -/
structure ParsersAgree (a b c d : UInt8) : Prop where
  value : ∃ address, getIPAccesses (dottedQuad a b c d) = some address ∧
    address.toNat = a.toNat * 2 ^ 24 + b.toNat * 2 ^ 16 + c.toNat * 2 ^ 8 + d.toNat
  converted : ∃ address, getIPAccesses (dottedQuad a b c d) = some address ∧
    getIpAccesses (dottedQuad a b c d) = some (htonl address)
  header : ∃ address, getIPAccesses (dottedQuad a b c d) = some address ∧
    ∀ (buf : Memory) (k : UInt8), k.toNat + 4 < 256 →
      (fillbuf buf k address.toUInt64 4).1.read k.toNat 4 = [a, b, c, d]
  frame : ∃ address, getIpAccesses (dottedQuad a b c d) = some address ∧
    ∀ (eth : Memory) (field : Nat), (eth.store field 4 address.toNat).read field 4 = [a, b, c, d]

/-! ## Byte orders -/

theorem htons_toNat (v : UInt16) : (htons v).toNat = v.toNat / 256 + v.toNat % 256 * 256 := by
  have small := v.toNat_lt
  have high : (v >>> 8).toNat = v.toNat / 256 := by
    rw [UInt16.toNat_shiftRight]
    exact Nat.shiftRight_eq_div_pow _ 8
  have low : (v <<< 8).toNat = v.toNat % 256 * 2 ^ 8 := by
    rw [UInt16.toNat_shiftLeft, Nat.shiftLeft_eq]
    simp only [UInt16.reduceToNat, Nat.reduceMod, Nat.reducePow]
    omega
  have disjoint := Nat.two_pow_add_eq_or_of_lt (i := 8) (b := v.toNat / 256) (by omega)
    (v.toNat % 256)
  rw [htons, UInt16.toNat_or, high, low, Nat.or_comm, Nat.mul_comm, ← disjoint]
  omega

theorem htonl_toNat (v : UInt32) : (htonl v).toNat =
    (htons (v >>> 16).toUInt16).toNat + (htons v.toUInt16).toNat * 65536 := by
  have low := (htons (v >>> 16).toUInt16).toNat_lt
  have high := (htons v.toUInt16).toNat_lt
  have shifted : ((htons v.toUInt16).toUInt32 <<< 16).toNat =
      (htons v.toUInt16).toNat * 2 ^ 16 := by
    rw [UInt32.toNat_shiftLeft, Nat.shiftLeft_eq, UInt16.toNat_toUInt32]
    simp only [UInt32.reduceToNat, Nat.reduceMod, Nat.reducePow]
    omega
  have disjoint := Nat.two_pow_add_eq_or_of_lt (i := 16) low (htons v.toUInt16).toNat
  rw [htonl, UInt32.toNat_or, shifted, UInt16.toNat_toUInt32, Nat.or_comm, Nat.mul_comm,
    ← disjoint]
  omega

/-- Network order on a little-endian machine: the first octet is in the low byte. -/
theorem htonl_addressOf (a b c d : UInt8) : htonl (addressOf a b c d) =
    (d.toUInt32 <<< 24) + (c.toUInt32 <<< 16) + (b.toUInt32 <<< 8) + a.toUInt32 := by
  have value := addressOf_toNat a b c d
  have := a.toNat_lt
  have := b.toNat_lt
  have := c.toNat_lt
  have := d.toNat_lt
  have high : (addressOf a b c d >>> 16).toUInt16.toNat = a.toNat * 256 + b.toNat := by
    have upper : (a.toNat * 2 ^ 24 + b.toNat * 2 ^ 16 + c.toNat * 2 ^ 8 + d.toNat) / 2 ^ 16 =
        a.toNat * 256 + b.toNat := by omega
    rw [UInt32.toNat_toUInt16, UInt32.toNat_shiftRight, value]
    simp only [UInt32.reduceToNat, Nat.reduceMod, Nat.shiftRight_eq_div_pow, upper]
    omega
  have low : (addressOf a b c d).toUInt16.toNat = c.toNat * 256 + d.toNat := by
    rw [UInt32.toNat_toUInt16, value]
    omega
  change _ = addressOf d c b a
  rw [← UInt32.toNat_inj, htonl_toNat, htons_toNat, htons_toNat, high, low,
    addressOf_toNat d c b a]
  omega

/-! ## When the parsers agree -/

theorem getIPAccesses_dottedQuad (a b c d : UInt8) :
    getIPAccesses (dottedQuad a b c d) =
      if 9 ≤ (dottedQuad a b c d).length then some (addressOf a b c d) else none := by
  by_cases long : 9 ≤ (dottedQuad a b c d).length
  · have inside : 9 < (dottedQuad a b c d ++ [0]).length := by
      rw [List.length_append, List.length_singleton]
      exact Nat.lt_succ_of_le long
    rw [if_pos long, getIPAccesses, List.getElem?_eq_getElem inside, Option.bind_eq_bind,
      Option.bind_some, getIP_dottedQuad]
  · have outside : (dottedQuad a b c d ++ [0]).length ≤ 9 := by
      rw [List.length_append, List.length_singleton]
      exact Nat.lt_of_not_le long
    rw [if_neg long, getIPAccesses, List.getElem?_eq_none outside, Option.bind_eq_bind,
      Option.bind_none]

/-- The parsers agree, without reading past the end, on addresses of nine characters or more. -/
theorem parsersAgree_iff (a b c d : UInt8) :
    ParsersAgree a b c d ↔ 9 ≤ (dottedQuad a b c d).length := by
  have parsed := getIPAccesses_dottedQuad a b c d
  have other := (getIpAccesses_eq (dottedQuad a b c d)).trans (getIp_dottedQuad a b c d)
  constructor
  · rintro ⟨⟨address, found, -⟩, -, -, -⟩
    by_contra short
    rw [parsed, if_neg short] at found
    cases found
  · intro long
    rw [if_pos long] at parsed
    refine ⟨⟨_, parsed, addressOf_toNat a b c d⟩, ⟨_, parsed, ?_⟩, ⟨_, parsed, ?_⟩, ⟨_, other, ?_⟩⟩
    · rw [other, htonl_addressOf]
    · intro buf k room
      rw [fillbuf_eq buf k _ 4 room]
      change (buf.write k.toNat (beBytes (addressOf a b c d).toUInt64 4)).read k.toNat 4 = _
      rw [beBytes_address]
      exact buf.read_write_same k.toNat [a, b, c, d]
    · intro eth field
      rw [Memory.store, leBytes_address]
      exact eth.read_write_same field [a, b, c, d]

/-- `icmptest` asks for `10.0.2.2`, which ends at `sIP[8]`. -/
theorem parsersAgree_short : ¬ParsersAgree 10 0 2 2 := by
  rintro ⟨⟨address, found, -⟩, -, -, -⟩
  have outside : getIPAccesses (dottedQuad 10 0 2 2) = none := by decide
  rw [outside] at found
  cases found

end Xv6.Net
