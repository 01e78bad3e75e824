import Mathlib.Data.List.Basic
import Mathlib.Logic.Function.Basic
import Mathlib.Tactic.Common

/-!
# Byte-addressed memory

Reading and writing consecutive bytes, with the three facts every client
needs: what was just written is read back, what lies elsewhere is unchanged,
and equal ranges read equal.
-/

namespace Xv6.Library

/-- A memory gives a byte for every address. -/
abbrev Memory := Nat → UInt8

namespace Memory

/-- The `count` bytes from `address` on. -/
def read (memory : Memory) (address count : Nat) : List UInt8 :=
  (List.range count).map fun offset => memory (address + offset)

/-- Store the bytes at `address` and after. -/
def write (memory : Memory) (address : Nat) (bytes : List UInt8) : Memory :=
  fun location =>
    if address ≤ location ∧ location < address + bytes.length then
      bytes.getD (location - address) 0
    else memory location

@[simp]
theorem length_read (memory : Memory) (address count : Nat) :
    (memory.read address count).length = count := by
  simp [read]

theorem read_append (memory : Memory) (address first second : Nat) :
    memory.read address (first + second) =
      memory.read address first ++ memory.read (address + first) second := by
  simp only [read, List.range_add, List.map_append, List.map_map, Function.comp_def,
    Nat.add_assoc]

theorem read_congr {first second : Memory} {address count : Nat}
    (agree : ∀ offset < count, first (address + offset) = second (address + offset)) :
    first.read address count = second.read address count := by
  simp only [read, List.map_inj_left, List.mem_range]
  exact agree

theorem write_inside (memory : Memory) (address : Nat) {offset : Nat} {bytes : List UInt8}
    (inside : offset < bytes.length) :
    memory.write address bytes (address + offset) = bytes[offset] := by
  have range : address ≤ address + offset ∧ address + offset < address + bytes.length := by
    omega
  simp [write, range, inside]

theorem write_outside (memory : Memory) {address location : Nat} (bytes : List UInt8)
    (outside : location < address ∨ address + bytes.length ≤ location) :
    memory.write address bytes location = memory location := by
  have range : ¬(address ≤ location ∧ location < address + bytes.length) := by
    omega
  simp only [write, range, if_false]

theorem read_write_same (memory : Memory) (address : Nat) (bytes : List UInt8) :
    (memory.write address bytes).read address bytes.length = bytes := by
  apply List.ext_getElem
  · simp
  · intro offset _ inside
    simpa [read] using memory.write_inside address inside

/-- Reading a part of what was just written. -/
theorem read_write_inside (memory : Memory) (address : Nat) {offset count : Nat}
    {bytes : List UInt8} (inside : offset + count ≤ bytes.length) :
    (memory.write address bytes).read (address + offset) count =
      (bytes.drop offset).take count := by
  apply List.ext_getElem
  · simp
    omega
  · intro index below _
    have position : offset + index < bytes.length := by
      rw [length_read] at below
      omega
    simpa [read, Nat.add_assoc] using memory.write_inside address position

theorem read_write_disjoint (memory : Memory) {source address count : Nat}
    {bytes : List UInt8}
    (disjoint : source + count ≤ address ∨ address + bytes.length ≤ source) :
    (memory.write address bytes).read source count = memory.read source count := by
  apply read_congr
  intro offset below
  exact memory.write_outside bytes (by omega)

theorem write_nil (memory : Memory) (address : Nat) : memory.write address [] = memory := by
  funext location
  exact memory.write_outside [] (by simp only [List.length_nil]; omega)

/-- Storing one byte and then the bytes after it. -/
theorem write_cons (memory : Memory) (address : Nat) (byte : UInt8) (bytes : List UInt8) :
    write (Function.update memory address byte) (address + 1) bytes =
      memory.write address (byte :: bytes) := by
  funext location
  have length : (byte :: bytes).length = bytes.length + 1 := rfl
  rcases Nat.lt_trichotomy location address with before | rfl | after
  · rw [write_outside _ bytes (by omega), write_outside _ (byte :: bytes) (by omega),
      Function.update_of_ne (by omega)]
  · have first : 0 < (byte :: bytes).length := by simp
    have right := memory.write_inside location first
    rw [write_outside _ bytes (by omega), Function.update_self]
    simpa using right.symm
  · obtain ⟨offset, rfl⟩ : ∃ offset, location = address + 1 + offset :=
      ⟨location - address - 1, by omega⟩
    by_cases inside : offset < bytes.length
    · have later : offset + 1 < (byte :: bytes).length := by omega
      have right := memory.write_inside address later
      rw [show address + (offset + 1) = address + 1 + offset by omega] at right
      rw [write_inside _ (address + 1) inside, right, List.getElem_cons_succ]
    · rw [write_outside _ bytes (by omega), write_outside _ (byte :: bytes) (by omega),
        Function.update_of_ne (by omega)]

/-- Storing bytes and then more bytes right after them. -/
theorem write_append (memory : Memory) (address : Nat) (first second : List UInt8) :
    (memory.write address first).write (address + first.length) second =
      memory.write address (first ++ second) := by
  induction first generalizing memory address with
  | nil => simp [write_nil]
  | cons byte rest inductionHypothesis =>
      rw [← write_cons memory, List.length_cons,
        show address + (rest.length + 1) = address + 1 + rest.length by omega,
        inductionHypothesis, write_cons, List.cons_append]

theorem write_next (memory : Memory) {address next : Nat} {first : List UInt8}
    (adjacent : next = address + first.length) (second : List UInt8) :
    (memory.write address first).write next second = memory.write address (first ++ second) := by
  rw [adjacent, write_append]

/-- Stores to disjoint ranges commute. -/
theorem write_comm (memory : Memory) {first second : Nat} {bytes others : List UInt8}
    (disjoint : first + bytes.length ≤ second ∨ second + others.length ≤ first) :
    (memory.write first bytes).write second others =
      (memory.write second others).write first bytes := by
  funext location
  simp only [write]
  split <;> split <;> first | rfl | omega

/-- A store hides an earlier one to the same range. -/
theorem write_write_same (memory : Memory) (address : Nat) {old new : List UInt8}
    (same : new.length = old.length) :
    (memory.write address old).write address new = memory.write address new := by
  funext location
  simp only [write, same]
  split <;> rfl

theorem write_congr {first second : Memory} {location : Nat} (agree : first location = second location)
    (address : Nat) (bytes : List UInt8) :
    first.write address bytes location = second.write address bytes location := by
  rw [write, write, agree]

/-- Store one range after the other. -/
def writeAll (memory : Memory) (ranges : List (Nat × List UInt8)) : Memory :=
  ranges.foldl (fun memory range => memory.write range.1 range.2) memory

theorem writeAll_outside {memory : Memory} {ranges : List (Nat × List UInt8)} {location : Nat}
    (outside : ∀ range ∈ ranges, location < range.1 ∨ range.1 + range.2.length ≤ location) :
    memory.writeAll ranges location = memory location := by
  induction ranges generalizing memory with
  | nil => rfl
  | cons range rest inductionHypothesis =>
      have rests : ∀ other ∈ rest, location < other.1 ∨ other.1 + other.2.length ≤ location :=
        fun other member => outside other (List.mem_cons_of_mem _ member)
      calc memory.writeAll (range :: rest) location
          = memory.write range.1 range.2 location := inductionHypothesis rests
        _ = memory location := memory.write_outside range.2 (outside range (List.mem_cons_self ..))

/-- A range keeps what was stored in it if the ranges after it lie elsewhere. -/
theorem writeAll_middle (memory : Memory) (before after : List (Nat × List UInt8)) (address : Nat)
    (bytes : List UInt8) {location : Nat}
    (outside : ∀ range ∈ after, location < range.1 ∨ range.1 + range.2.length ≤ location) :
    memory.writeAll (before ++ (address, bytes) :: after) location =
      (memory.writeAll before).write address bytes location := by
  rw [writeAll, List.foldl_append, List.foldl_cons]
  exact writeAll_outside outside

/-- Overwriting the middle of what was stored. -/
theorem write_middle (memory : Memory) (address : Nat) (first last : List UInt8)
    (old new : List UInt8) (same : new.length = old.length) :
    (memory.write address (first ++ (old ++ last))).write (address + first.length) new =
      memory.write address (first ++ (new ++ last)) := by
  rw [← write_append, ← write_append, ← write_append, ← write_append, same,
    write_comm _ (Or.inr (by omega)), write_write_same _ _ same]

/-! ## Scanning -/

/-- The first of `count` addresses whose byte fails the test, or the address after them. -/
def scan (memory : Memory) (test : UInt8 → Bool) : Nat → Nat → Nat
  | 0, address => address
  | count + 1, address =>
      if test (memory address) then scan memory test count (address + 1) else address

theorem read_succ (memory : Memory) (address count : Nat) :
    memory.read address (count + 1) = memory address :: memory.read (address + 1) count := by
  rw [Nat.add_comm, read_append]
  rfl

/-- Scanning takes what satisfies the test from the front of the bytes. -/
theorem read_scan (memory : Memory) (test : UInt8 → Bool) (count address : Nat) :
    ∃ passed ≤ count, memory.scan test count address = address + passed ∧
      memory.read address passed = (memory.read address count).takeWhile test ∧
      memory.read (address + passed) (count - passed) =
        (memory.read address count).dropWhile test := by
  induction count generalizing address with
  | zero => exact ⟨0, Nat.le_refl 0, rfl, rfl, rfl⟩
  | succ count inductionHypothesis =>
      by_cases pass : test (memory address)
      · obtain ⟨passed, within, stops, taken, rest⟩ := inductionHypothesis (address + 1)
        refine ⟨passed + 1, by omega, ?_, ?_, ?_⟩
        · rw [scan, if_pos pass, stops]
          omega
        · rw [read_succ, read_succ, List.takeWhile_cons_of_pos pass, taken]
        · rw [read_succ, List.dropWhile_cons_of_pos pass, ← rest, Nat.add_sub_add_right,
            Nat.add_assoc, Nat.add_comm 1]
      · refine ⟨0, Nat.zero_le _, ?_, ?_, ?_⟩
        · rw [scan, if_neg pass]
          rfl
        · rw [read_succ, List.takeWhile_cons_of_neg pass]
          rfl
        · rw [read_succ, List.dropWhile_cons_of_neg pass]
          exact read_succ ..

end Memory

end Xv6.Library
