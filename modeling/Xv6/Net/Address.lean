import Mathlib.Algebra.Order.Ring.Nat
import Mathlib.Data.List.Basic
import Mathlib.Tactic.Common

/-!
# Dotted-quad addresses

`getIP` of `sysfile.c`, on C strings given as their bytes before the
terminating NUL.
-/

namespace Xv6.Net

/-- A `char` in 32-bit unsigned arithmetic: sign extension wraps around. -/
def charToUInt32 (c : UInt8) : UInt32 :=
  if c < 128 then c.toUInt32 else c.toUInt32 - 256

/-- The digit loop of `getIP`, up to the character that ends it; `none` when the
loop would run past the end of the string. -/
def octetLoop (stop : UInt8) : List UInt8 → UInt32 → Option (UInt32 × List UInt8)
  | [], v => if stop = 0 then some (v, []) else none
  | c :: rest, v =>
      if c = stop then some (v, rest)
      else octetLoop stop rest (v * 10 + charToUInt32 c - 48)

/-- `getIP`. -/
def getIP (sIP : List UInt8) : Option UInt32 := do
  let (v1, rest) ← octetLoop 46 sIP 0
  let (v2, rest) ← octetLoop 46 rest 0
  let (v3, rest) ← octetLoop 46 rest 0
  let (v4, _) ← octetLoop 0 rest 0
  return (v1 <<< 24) + (v2 <<< 16) + (v3 <<< 8) + v4

/-- The decimal digits of an octet, without leading zeros. -/
def decimal (octet : UInt8) : List UInt8 :=
  if octet < 10 then [48 + octet]
  else if octet < 100 then [48 + octet / 10, 48 + octet % 10]
  else [48 + octet / 100, 48 + octet / 10 % 10, 48 + octet % 10]

/-- The canonical dotted-quad string of four octets. -/
def dottedQuad (a b c d : UInt8) : List UInt8 :=
  decimal a ++ 46 :: (decimal b ++ 46 :: (decimal c ++ 46 :: decimal d))

/-- Characters other than the stop character are folded into the value. -/
theorem octetLoop_append {stop : UInt8} {digits : List UInt8}
    (other : ∀ c ∈ digits, c ≠ stop) (rest : List UInt8) (v : UInt32) :
    octetLoop stop (digits ++ rest) v =
      octetLoop stop rest (digits.foldl (fun v c => v * 10 + charToUInt32 c - 48) v) := by
  induction digits generalizing v with
  | nil => rfl
  | cons c digits inductionHypothesis =>
      have different : c ≠ stop := other c List.mem_cons_self
      simp only [List.cons_append, octetLoop, different, if_false, List.foldl_cons]
      exact inductionHypothesis (fun c member => other c (List.mem_cons_of_mem _ member)) _

theorem forall_octet {P : UInt8 → Prop} (checked : ∀ index : Fin 256, P (UInt8.ofFin index)) :
    ∀ octet, P octet := by
  intro octet
  exact checked octet.toFin

theorem decimal_digit (octet : UInt8) : ∀ c ∈ decimal octet, c ≠ 46 ∧ c ≠ 0 := by
  have digits : ∀ octet, (decimal octet).all (fun c => c != 46 && c != 0) = true :=
    forall_octet (by decide +kernel)
  intro c member
  simpa using List.all_eq_true.mp (digits octet) c member

theorem decimal_value : ∀ octet : UInt8,
    (decimal octet).foldl (fun v c => v * 10 + charToUInt32 c - 48) 0 = octet.toUInt32 :=
  forall_octet (by decide +kernel)

theorem octetLoop_decimal_dot (octet : UInt8) (rest : List UInt8) :
    octetLoop 46 (decimal octet ++ 46 :: rest) 0 = some (octet.toUInt32, rest) := by
  rw [octetLoop_append fun c member => (decimal_digit octet c member).1, decimal_value]
  simp [octetLoop]

theorem octetLoop_decimal_end (octet : UInt8) :
    octetLoop 0 (decimal octet) 0 = some (octet.toUInt32, []) := by
  have ended := octetLoop_append (fun c member => (decimal_digit octet c member).2) [] 0
  rw [List.append_nil, decimal_value] at ended
  simpa [octetLoop] using ended

/-- The four octets of an address, most significant first. -/
def addressOf (a b c d : UInt8) : UInt32 :=
  (a.toUInt32 <<< 24) + (b.toUInt32 <<< 16) + (c.toUInt32 <<< 8) + d.toUInt32

theorem addressOf_toNat (a b c d : UInt8) : (addressOf a b c d).toNat =
    a.toNat * 2 ^ 24 + b.toNat * 2 ^ 16 + c.toNat * 2 ^ 8 + d.toNat := by
  have := a.toNat_lt
  have := b.toNat_lt
  have := c.toNat_lt
  have := d.toNat_lt
  simp only [addressOf, UInt32.toNat_add, UInt32.toNat_shiftLeft, UInt8.toNat_toUInt32,
    Nat.shiftLeft_eq, UInt32.reduceToNat, Nat.reduceMod, Nat.reducePow]
  omega

theorem getIP_dottedQuad (a b c d : UInt8) :
    getIP (dottedQuad a b c d) = some (addressOf a b c d) := by
  simp [getIP, dottedQuad, octetLoop_decimal_dot, octetLoop_decimal_end, addressOf]

end Xv6.Net
