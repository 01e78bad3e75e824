import Xv6.Library.Copying

/-!
# memmove

`string.c` and `ulib.c` each have a `memmove`. The kernel's looks at how the
regions lie and copies from the end where it has to; the one of the user library
always copies from the start.
-/

namespace Xv6.Memmove

open Xv6.Library

/-! ## The functions -/

/-- `while(n-- > 0) *d++ = *s++;` -/
def copyUp : Nat → UInt32 → UInt32 → Memory → Memory
  | 0, _, _, memory => memory
  | n + 1, d, s, memory =>
      copyUp n (d + 1) (s + 1) (Function.update memory d.toNat (memory s.toNat))

/-- `while(n-- > 0) *--d = *--s;` -/
def copyDown : Nat → UInt32 → UInt32 → Memory → Memory
  | 0, _, _, memory => memory
  | n + 1, d, s, memory =>
      copyDown n (d - 1) (s - 1) (Function.update memory (d - 1).toNat (memory (s - 1).toNat))

/-- `memmove` of `string.c` -/
def kernelMemmove (dst src n : UInt32) (memory : Memory) : Memory :=
  if src < dst ∧ dst < src + n then copyDown n.toNat (dst + n) (src + n) memory
  else copyUp n.toNat dst src memory

/-- `memmove` of `ulib.c`, where `n` is an `int`. -/
def ulibMemmove (dst src : UInt32) (n : Int32) (memory : Memory) : Memory :=
  copyUp n.toNatClampNeg dst src memory

/-! ## The loops -/

theorem copyUp_eq {n : Nat} {d s : UInt32} {memory : Memory}
    (target : d.toNat + n ≤ 4294967296) (source : s.toNat + n ≤ 4294967296) :
    copyUp n d s memory = Memory.copyUp n d.toNat s.toNat memory := by
  induction n generalizing d s memory with
  | zero => rfl
  | succ n inductionHypothesis =>
      rw [copyUp, Memory.copyUp]
      cases n with
      | zero => rfl
      | succ n =>
          have next {p : UInt32} (room : p.toNat + (n + 1 + 1) ≤ 4294967296) :
              (p + 1).toNat = p.toNat + 1 := by
            rw [UInt32.toNat_add, UInt32.toNat_one]
            omega
          have here := next target
          have there := next source
          rw [inductionHypothesis (by omega) (by omega), here, there]

/-- The pointers start behind the regions, where they may be 0. -/
theorem copyDown_eq {n dst src : Nat} {d s : UInt32} {memory : Memory}
    (target : dst + n ≤ 4294967296) (source : src + n ≤ 4294967296)
    (atEnd : d.toNat = (dst + n) % 4294967296) (fromEnd : s.toNat = (src + n) % 4294967296) :
    copyDown n d s memory = Memory.copyDown n dst src memory := by
  induction n generalizing d s memory with
  | zero => rfl
  | succ n inductionHypothesis =>
      have previous {p : UInt32} {start : Nat} (room : start + (n + 1) ≤ 4294967296)
          (behind : p.toNat = (start + (n + 1)) % 4294967296) : (p - 1).toNat = start + n := by
        rw [UInt32.toNat_sub, UInt32.toNat_one]
        omega
      have here := previous target atEnd
      have there := previous source fromEnd
      rw [copyDown, Memory.copyDown, here, there]
      exact inductionHypothesis (by omega) (by omega) (by omega) (by omega)

/-! ## Both functions -/

variable {dst src n : UInt32} {memory : Memory}

/-- The kernel's `memmove` is right for all regions. -/
theorem kernelMemmove_moved (target : dst.toNat + n.toNat ≤ 4294967296)
    (source : src.toNat + n.toNat ≤ 4294967296) :
    Moved dst.toNat src.toNat n.toNat memory (kernelMemmove dst src n memory) := by
  rw [kernelMemmove]
  by_cases inside : src < dst ∧ dst < src + n
  · rw [if_pos inside, copyDown_eq target source (UInt32.toNat_add ..) (UInt32.toNat_add ..)]
    exact Memory.copyDown_moved (Nat.le_of_lt (UInt32.lt_iff_toNat_lt.mp inside.1))
  · rw [if_neg inside, copyUp_eq target source]
    apply Memory.copyUp_moved
    rw [UInt32.lt_iff_toNat_lt, UInt32.lt_iff_toNat_lt, UInt32.toNat_add] at inside
    omega

/-- Where the source and the target must agree already for the user library's `memmove` to
be right: where the target overlaps the source before it, and everywhere if `n` is
negative as an `int`. -/
def Repeats (dst src n : UInt32) (memory : Memory) : Prop :=
  ∀ i < n.toNat, 0x80000000 ≤ n ∨ src < dst ∧ dst.toNat + i < src.toNat + n.toNat →
    memory (dst.toNat + i) = memory (src.toNat + i)

theorem toInt_toInt32 (n : UInt32) :
    n.toInt32.toInt = if n.toNat < 0x80000000 then (n.toNat : Int) else n.toNat - 4294967296 := by
  have signed := BitVec.toInt_eq_toNat_cond n.toBitVec
  change n.toBitVec.toInt = _
  rw [signed, UInt32.toNat_toBitVec]
  split
  · rw [if_pos (by omega)]
  · rw [if_neg (by omega)]
    rfl

theorem ulibMemmove_moved_iff (target : dst.toNat + n.toNat ≤ 4294967296)
    (source : src.toNat + n.toNat ≤ 4294967296) :
    Moved dst.toNat src.toNat n.toNat memory (ulibMemmove dst src n.toInt32 memory) ↔
      Repeats dst src n memory := by
  by_cases large : 0x80000000 ≤ n
  · have negative : n.toInt32.toNatClampNeg = 0 := by
      have order : 0x80000000 ≤ n.toNat := UInt32.le_iff_toNat_le.mp large
      rw [Int32.toNatClampNeg, toInt_toInt32, if_neg (Nat.not_lt.mpr order)]
      have bound := n.toNat_lt
      omega
    rw [ulibMemmove, negative, copyUp]
    exact ⟨fun moved i inside _ => moved.copied i inside,
      fun same => ⟨fun i inside => same i inside (Or.inl large), fun _ _ => rfl⟩⟩
  · have positive : n.toInt32.toNatClampNeg = n.toNat := by
      have order : n.toNat < 0x80000000 := UInt32.lt_iff_toNat_lt.mp (UInt32.not_le.mp large)
      rw [Int32.toNatClampNeg, toInt_toInt32, if_pos order, Int.toNat_natCast]
    rw [ulibMemmove, positive, copyUp_eq target source, Memory.copyUp_moved_iff]
    constructor
    · intro periodic i inside overlap
      obtain ⟨order, below⟩ := overlap.resolve_left large
      exact periodic (UInt32.lt_iff_toNat_lt.mp order) i below
    · intro repeats order i below
      exact repeats i (by omega) (Or.inr ⟨UInt32.lt_iff_toNat_lt.mpr order, below⟩)

/-- Both functions copy the bytes, and so they agree, exactly if the user library's can copy
from the start. -/
theorem memmove_moves_iff (dst src n : UInt32) (memory : Memory)
    (target : dst.toNat + n.toNat ≤ 4294967296) (source : src.toNat + n.toNat ≤ 4294967296) :
    (Moved dst.toNat src.toNat n.toNat memory (kernelMemmove dst src n memory) ∧
      Moved dst.toNat src.toNat n.toNat memory (ulibMemmove dst src n.toInt32 memory)) ↔
    Repeats dst src n memory :=
  ⟨fun both => (ulibMemmove_moved_iff target source).mp both.2,
    fun repeats => ⟨kernelMemmove_moved target source,
      (ulibMemmove_moved_iff target source).mpr repeats⟩⟩

/-- Two bytes moved up by one. -/
theorem ulibMemmove_overwrites :
    ¬(Moved 1 0 2 (fun a => UInt8.ofNat a) (kernelMemmove 1 0 2 fun a => UInt8.ofNat a) ∧
      Moved 1 0 2 (fun a => UInt8.ofNat a)
        (ulibMemmove 1 0 (2 : UInt32).toInt32 fun a => UInt8.ofNat a)) := by
  rintro ⟨-, moved⟩
  have second := moved.copied 1 (by decide)
  revert second
  decide

theorem memmove_moves_iff_down :
    (Moved 8 10 4 (fun a => UInt8.ofNat a) (kernelMemmove 8 10 4 fun a => UInt8.ofNat a) ∧
      Moved 8 10 4 (fun a => UInt8.ofNat a)
        (ulibMemmove 8 10 (4 : UInt32).toInt32 fun a => UInt8.ofNat a)) ↔
    Repeats 8 10 4 fun a => UInt8.ofNat a :=
  memmove_moves_iff 8 10 4 (fun a => UInt8.ofNat a) (by decide) (by decide)

end Xv6.Memmove
