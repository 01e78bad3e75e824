import Xv6.Library.Masks
import Xv6.Pci.Scan

/-!
# Base address registers

`pci_func_enable` of `pci.c`. It finds the size of a region by writing ones to
the base address register of the device and reading back which of them stay, and
has to put the old value back every time.
-/

namespace Xv6.Pci

open Xv6.Library

/-! ## The probe -/

/-- The configuration space of a function: what each register holds, and its writable bits. -/
structure ConfigSpace where
  value : Nat → BitVec 32
  writable : Nat → BitVec 32

/-- `pci_conf_write` -/
def ConfigSpace.write (config : ConfigSpace) (offset : Nat) (v : BitVec 32) : ConfigSpace :=
  { config with
    value := Function.update config.value offset
      (writeMasked (config.writable offset) (config.value offset) v) }

/-- The function, with the base addresses and sizes of its `struct pci_func`. -/
structure FuncRegs where
  config : ConfigSpace
  regBase : Nat → BitVec 32
  regSize : Nat → BitVec 32

def pciCommandStatusReg : Nat := 0x04

def pciCommandIoEnable : BitVec 32 := 0x00000001

def pciCommandMemEnable : BitVec 32 := 0x00000002

def pciCommandMasterEnable : BitVec 32 := 0x00000004

def pciMapregStart : Nat := 0x10

def pciMapregEnd : Nat := 0x28

def pciMapregNum (offset : Nat) : Nat := (offset - pciMapregStart) / 4

def pciMapregType (mr : BitVec 32) : BitVec 32 := mr &&& 0x00000001

def pciMapregTypeMem : BitVec 32 := 0x00000000

def pciMapregMemType (mr : BitVec 32) : BitVec 32 := mr &&& 0x00000006

def pciMapregMemType64bit : BitVec 32 := 0x00000004

def pciMapregMemAddr (mr : BitVec 32) : BitVec 32 := mr &&& 0xfffffff0

def pciMapregMemSize (mr : BitVec 32) : BitVec 32 := pciMapregMemAddr mr &&& -pciMapregMemAddr mr

def pciMapregIoAddr (mr : BitVec 32) : BitVec 32 := mr &&& 0xfffffffc

def pciMapregIoSize (mr : BitVec 32) : BitVec 32 := pciMapregIoAddr mr &&& -pciMapregIoAddr mr

/-- `bar_width`, the size and the base, as the value read back says. -/
def decodeBar (oldv rv : BitVec 32) : Nat × BitVec 32 × BitVec 32 :=
  if pciMapregType rv = pciMapregTypeMem then
    (if pciMapregMemType rv = pciMapregMemType64bit then 8 else 4,
      pciMapregMemSize rv, pciMapregMemAddr oldv)
  else (4, pciMapregIoSize rv, pciMapregIoAddr oldv)

/-- The body of the loop of `pci_func_enable`: the function afterwards, and `bar_width`. -/
def probeBar (bar : Nat) (f : FuncRegs) : FuncRegs × Nat :=
  let oldv := f.config.value bar
  let config := f.config.write bar 0xffffffff
  let rv := config.value bar
  if rv = 0 then ({ f with config := config }, 4)
  else
    let (barWidth, size, base) := decodeBar oldv rv
    ({ config := config.write bar oldv
       regBase := Function.update f.regBase (pciMapregNum bar) base
       regSize := Function.update f.regSize (pciMapregNum bar) size }, barWidth)

theorem probeBar_width (bar : Nat) (f : FuncRegs) : 0 < (probeBar bar f).2 := by
  have decoded (oldv rv : BitVec 32) : 0 < (decodeBar oldv rv).1 := by
    unfold decodeBar
    split_ifs <;> exact Nat.zero_lt_succ _
  unfold probeBar
  dsimp only
  split_ifs
  · exact Nat.zero_lt_succ 3
  · exact decoded _ _

/-- `for (bar = PCI_MAPREG_START; bar < PCI_MAPREG_END; bar += bar_width)` -/
def probeBars (bar : Nat) (f : FuncRegs) : FuncRegs :=
  if bar < pciMapregEnd then probeBars (bar + (probeBar bar f).2) (probeBar bar f).1 else f
termination_by pciMapregEnd - bar
decreasing_by
  have positive := probeBar_width bar f
  omega

def pciFuncEnable (f : FuncRegs) : FuncRegs :=
  let command := pciCommandIoEnable ||| pciCommandMemEnable ||| pciCommandMasterEnable
  probeBars pciMapregStart { f with config := f.config.write pciCommandStatusReg command }

/-! ## The registers of a device -/

/-- The bits a region of size `2 ^ k` decodes. -/
def sizeMask (k : Nat) : BitVec 32 := ~~~(1#32 <<< k - 1)

/-- A base address register, or a pair of them. The bits below the size are no part of a base. -/
inductive BaseRegister where
  | unimplemented
  | memory (k : Nat) (base : BitVec 32) (below1M prefetchable : Bool) (least : 4 ≤ k) (most : k ≤ 31)
      (aligned : base &&& ~~~sizeMask k = 0#32)
  | io (k : Nat) (base : BitVec 32) (least : 2 ≤ k) (most : k ≤ 31)
      (aligned : base &&& ~~~sizeMask k = 0#32)
  | memory64 (k : Nat) (low high : BitVec 32) (prefetchable : Bool) (least : 4 ≤ k) (most : k ≤ 31)
      (aligned : low &&& ~~~sizeMask k = 0#32)

namespace BaseRegister

/-- The type bits of a memory register. -/
def memoryFlags (below1M is64 prefetchable : Bool) : BitVec 32 :=
  (if below1M then 0x2#32 else 0) ||| (if is64 then 0x4 else 0) ||| (if prefetchable then 0x8 else 0)

/-- What the registers hold, and their writable bits. -/
def registers : BaseRegister → List (BitVec 32 × BitVec 32)
  | unimplemented => [(0, 0)]
  | memory k base below1M prefetchable _ _ _ =>
      [(base ||| memoryFlags below1M false prefetchable, sizeMask k)]
  | io k base _ _ _ => [(base ||| 0x1, sizeMask k)]
  | memory64 k low high prefetchable _ _ _ =>
      [(low ||| memoryFlags false true prefetchable, sizeMask k), (high, BitVec.allOnes 32)]

/-- What is to be recorded for each register: the low 32 bits of the base, and the size. -/
def recorded : BaseRegister → List (Option (BitVec 32 × BitVec 32))
  | unimplemented => [none]
  | memory k base _ _ _ _ _ | io k base _ _ _ => [some (base, 1#32 <<< k)]
  | memory64 k low _ _ _ _ _ => [some (low, 1#32 <<< k), none]

end BaseRegister

/-- The function has these registers, from the base address register `first` on. -/
def Presents (config : ConfigSpace) (first : Nat) (bars : List BaseRegister) : Prop :=
  ∀ index register, (bars.flatMap BaseRegister.registers)[index]? = some register →
    (config.value (pciMapregStart + 4 * (first + index)),
      config.writable (pciMapregStart + 4 * (first + index))) = register

/-- What is recorded of a register, if it has an entry. -/
def Recorded (before after : FuncRegs) (first : Nat) (bars : List BaseRegister) : Prop :=
  ∀ index entry, (bars.flatMap BaseRegister.recorded)[index]? = some entry →
    (after.regBase (first + index), after.regSize (first + index)) =
      entry.getD (before.regBase (first + index), before.regSize (first + index))

/-! ## One probe -/

theorem ConfigSpace.write_restore (config : ConfigSpace) (offset : Nat) (v : BitVec 32) :
    (config.write offset v).write offset (config.value offset) = config := by
  have back : writeMasked (config.writable offset)
      (writeMasked (config.writable offset) (config.value offset) v) (config.value offset) =
      config.value offset := writeMasked_restore _ _ _
  unfold ConfigSpace.write
  simp only [Function.update_self, Function.update_idem, back, Function.update_eq_self]

/-- What is read back: the writable bits, and the others as they are. -/
def readBack (config : ConfigSpace) (bar : Nat) : BitVec 32 :=
  config.writable bar ||| (config.value bar &&& ~~~config.writable bar)

/-- A register with an entry: the old value is back, and the entry is recorded. -/
theorem probeBar_implemented {bar : Nat} {f : FuncRegs} (some : readBack f.config bar ≠ 0) :
    probeBar bar f =
      ({ f with
          regBase := Function.update f.regBase (pciMapregNum bar)
            (decodeBar (f.config.value bar) (readBack f.config bar)).2.2
          regSize := Function.update f.regSize (pciMapregNum bar)
            (decodeBar (f.config.value bar) (readBack f.config bar)).2.1 },
        (decodeBar (f.config.value bar) (readBack f.config bar)).1) := by
  have read : (f.config.write bar 0xffffffff).value bar = readBack f.config bar :=
    (Function.update_self _ _ _).trans (writeMasked_allOnes _ _)
  have back := f.config.write_restore bar 0xffffffff
  simp only [probeBar, read, if_neg some, back]

/-- A register hard-wired to 0 is left alone. -/
theorem probeBar_unimplemented {bar : Nat} {f : FuncRegs} (value : f.config.value bar = 0)
    (writable : f.config.writable bar = 0) : probeBar bar f = (f, 4) := by
  have stays : f.config.write bar 0xffffffff = f.config := by
    rw [ConfigSpace.write, writable, writeMasked_zero, Function.update_eq_self]
  simp only [probeBar, stays, value, if_true]

/-! ## The formats -/

/-- What a register of size `2 ^ k` reads back, with its fixed bits `flags`. -/
theorem readBack_eq {config : ConfigSpace} {bar k : Nat} {base flags : BitVec 32}
    (register : (config.value bar, config.writable bar) = (base ||| flags, sizeMask k))
    (aligned : base &&& ~~~sizeMask k = 0#32) (inside : flags &&& ~~~sizeMask k = flags) :
    readBack config bar = sizeMask k ||| flags := by
  obtain ⟨value, writable⟩ := Prod.mk.inj register
  rw [readBack, value, writable, or_and_low aligned inside]

/-- The base is what lies above the low bits. -/
theorem base_eq {k : Nat} {base flags low : BitVec 32} (aligned : base &&& ~~~sizeMask k = 0#32)
    (lowInside : ~~~sizeMask k &&& low = low) (inside : flags &&& low = flags) :
    (base ||| flags) &&& ~~~low = base := by
  refine or_and_not ?_ inside
  rw [← lowInside, ← BitVec.and_assoc, aligned, BitVec.zero_and]

theorem memoryFlags_inside (below1M is64 prefetchable : Bool) {k : Nat} (least : 4 ≤ k)
    (most : k ≤ 31) : BaseRegister.memoryFlags below1M is64 prefetchable &&& ~~~sizeMask k =
      BaseRegister.memoryFlags below1M is64 prefetchable ∧ ~~~sizeMask k &&& 0xf#32 = 0xf#32 := by
  have checked : ∀ (k : Fin 32) (below1M is64 prefetchable : Bool), 4 ≤ k.val →
      BaseRegister.memoryFlags below1M is64 prefetchable &&& ~~~sizeMask k =
        BaseRegister.memoryFlags below1M is64 prefetchable ∧
      ~~~sizeMask k &&& 0xf#32 = 0xf#32 := by decide +kernel
  exact checked ⟨k, Nat.lt_succ_of_le most⟩ below1M is64 prefetchable least

/-- A memory register is recognised, and the lowest writable bit is the size. -/
theorem decodeBar_memory {k : Nat} {base : BitVec 32} (below1M is64 prefetchable : Bool)
    (least : 4 ≤ k) (most : k ≤ 31) (single : ¬(below1M = true ∧ is64 = true))
    (aligned : base &&& ~~~sizeMask k = 0#32) :
    sizeMask k ||| BaseRegister.memoryFlags below1M is64 prefetchable ≠ 0 ∧
      decodeBar (base ||| BaseRegister.memoryFlags below1M is64 prefetchable)
        (sizeMask k ||| BaseRegister.memoryFlags below1M is64 prefetchable) =
          (if is64 then 8 else 4, 1#32 <<< k, base) := by
  have checked : ∀ (k : Fin 32) (below1M is64 prefetchable : Bool), 4 ≤ k.val →
      ¬(below1M = true ∧ is64 = true) →
      sizeMask k ||| BaseRegister.memoryFlags below1M is64 prefetchable ≠ 0 ∧
        pciMapregType (sizeMask k ||| BaseRegister.memoryFlags below1M is64 prefetchable) =
          pciMapregTypeMem ∧
        (pciMapregMemType (sizeMask k ||| BaseRegister.memoryFlags below1M is64 prefetchable) =
          pciMapregMemType64bit ↔ is64 = true) ∧
        pciMapregMemSize (sizeMask k ||| BaseRegister.memoryFlags below1M is64 prefetchable) =
          1#32 <<< k.val := by decide +kernel
  obtain ⟨nonzero, type, memType, size⟩ :=
    checked ⟨k, Nat.lt_succ_of_le most⟩ below1M is64 prefetchable least single
  obtain ⟨-, lowInside⟩ := memoryFlags_inside below1M is64 prefetchable least most
  have inside : ∀ below1M is64 prefetchable : Bool,
      BaseRegister.memoryFlags below1M is64 prefetchable &&& 0xf#32 =
        BaseRegister.memoryFlags below1M is64 prefetchable := by decide
  have address : pciMapregMemAddr (base ||| BaseRegister.memoryFlags below1M is64 prefetchable) =
      base := base_eq aligned lowInside (inside below1M is64 prefetchable)
  refine ⟨nonzero, ?_⟩
  rw [decodeBar, if_pos type, address, size]
  simp only [memType]

theorem decodeBar_io {k : Nat} {base : BitVec 32} (least : 2 ≤ k) (most : k ≤ 31)
    (aligned : base &&& ~~~sizeMask k = 0#32) :
    sizeMask k ||| 0x1 ≠ 0 ∧ 0x1#32 &&& ~~~sizeMask k = 0x1 ∧
      decodeBar (base ||| 0x1) (sizeMask k ||| 0x1) = (4, 1#32 <<< k, base) := by
  have checked : ∀ k : Fin 32, 2 ≤ k.val →
      sizeMask k ||| 0x1 ≠ 0 ∧ 0x1#32 &&& ~~~sizeMask k = 0x1 ∧
        ~~~sizeMask k &&& 0x3#32 = 0x3#32 ∧ pciMapregType (sizeMask k ||| 0x1) ≠ pciMapregTypeMem ∧
        pciMapregIoSize (sizeMask k ||| 0x1) = 1#32 <<< k.val := by decide +kernel
  obtain ⟨nonzero, flag, lowInside, type, size⟩ := checked ⟨k, Nat.lt_succ_of_le most⟩ least
  have address : pciMapregIoAddr (base ||| 0x1) = base := base_eq aligned lowInside (by decide)
  refine ⟨nonzero, flag, ?_⟩
  rw [decodeBar, if_neg type, address, size]

/-! ## The loop -/

/-- The entries of a register that is not at `index` are as they were. -/
def KeepsEntry (before after : FuncRegs) (index : Nat) : Prop :=
  after.regBase index = before.regBase index ∧ after.regSize index = before.regSize index

theorem length_recorded (bar : BaseRegister) : bar.recorded.length = bar.registers.length := by
  cases bar <;> rfl

theorem pciMapregNum_start (first : Nat) : pciMapregNum (pciMapregStart + 4 * first) = first := by
  rw [pciMapregNum, Nat.add_sub_cancel_left, Nat.mul_div_cancel_left first (by decide)]

/-- The entry of the register that was probed. -/
theorem probeBar_entry {first width : Nat} {size base : BitVec 32} {f : FuncRegs}
    (some : readBack f.config (pciMapregStart + 4 * first) ≠ 0)
    (decoded : decodeBar (f.config.value (pciMapregStart + 4 * first))
      (readBack f.config (pciMapregStart + 4 * first)) = (width, size, base)) :
    ∃ after, probeBar (pciMapregStart + 4 * first) f = (after, width) ∧
      after.config = f.config ∧ after.regBase first = base ∧ after.regSize first = size ∧
      ∀ index ≠ first, KeepsEntry f after index := by
  refine ⟨_, (probeBar_implemented some).trans (congrArg (Prod.mk _) ?_), rfl, ?_, ?_, ?_⟩
  · rw [decoded]
  · rw [pciMapregNum_start, decoded]
    exact Function.update_self _ _ _
  · rw [pciMapregNum_start, decoded]
    exact Function.update_self _ _ _
  · intro index other
    rw [pciMapregNum_start]
    exact ⟨Function.update_of_ne other _ _, Function.update_of_ne other _ _⟩

theorem recorded_single {bar : BaseRegister} {first : Nat} {before after : FuncRegs}
    {size base : BitVec 32} {upper : List (Option (BitVec 32 × BitVec 32))}
    (entries : bar.recorded = some (base, size) :: upper) (blank : ∀ entry ∈ upper, entry = none)
    (ofBase : after.regBase first = base) (ofSize : after.regSize first = size)
    (others : ∀ index ≠ first, KeepsEntry before after index) :
    Recorded before after first [bar] := by
  intro index entry found
  rw [List.flatMap_cons, List.flatMap_nil, List.append_nil, entries] at found
  cases index with
  | zero =>
      cases found
      rw [Nat.add_zero, ofBase, ofSize, Option.getD_some]
  | succ index =>
      rw [List.getElem?_cons_succ] at found
      obtain ⟨sameBase, sameSize⟩ := others (first + (index + 1)) (by omega)
      rw [blank entry (List.mem_of_getElem? found), Option.getD_none, sameBase, sameSize]

/-- What a probe does to a register that the function implements, of which `decodeBar` makes the
entry. -/
theorem probeBar_region {first k width : Nat} {f : FuncRegs} {bar : BaseRegister}
    {base flags : BitVec 32} {upper : List (BitVec 32 × BitVec 32)}
    (registers : bar.registers = (base ||| flags, sizeMask k) :: upper)
    {blanks : List (Option (BitVec 32 × BitVec 32))}
    (entries : bar.recorded = some (base, 1#32 <<< k) :: blanks)
    (blank : ∀ entry ∈ blanks, entry = none) (presents : Presents f.config first [bar])
    (aligned : base &&& ~~~sizeMask k = 0#32) (inside : flags &&& ~~~sizeMask k = flags)
    (nonzero : sizeMask k ||| flags ≠ 0)
    (decoded : decodeBar (base ||| flags) (sizeMask k ||| flags) = (width, 1#32 <<< k, base)) :
    ∃ after, probeBar (pciMapregStart + 4 * first) f = (after, width) ∧
      after.config = f.config ∧ Recorded f after first [bar] ∧
      ∀ index, index < first ∨ first + bar.registers.length ≤ index → KeepsEntry f after index := by
  have register := presents 0
  simp only [List.flatMap_cons, List.flatMap_nil, List.append_nil, Nat.add_zero, registers] at register
  have read := readBack_eq (register _ rfl) aligned inside
  obtain ⟨value, -⟩ := Prod.mk.inj (register _ rfl)
  rw [← value, ← read] at decoded
  obtain ⟨after, probed, config, ofBase, ofSize, others⟩ := probeBar_entry (read ▸ nonzero) decoded
  refine ⟨after, probed, config, recorded_single entries blank ofBase ofSize others, ?_⟩
  intro index outside
  refine others index ?_
  rw [registers, List.length_cons] at outside
  omega

/-- What a probe does, for every kind of register: it steps over the register, puts the value
back and makes the entry. -/
theorem probeBar_step {first : Nat} {f : FuncRegs} (bar : BaseRegister)
    (presents : Presents f.config first [bar]) :
    ∃ after, probeBar (pciMapregStart + 4 * first) f = (after, 4 * bar.registers.length) ∧
      after.config = f.config ∧ Recorded f after first [bar] ∧
      ∀ index, index < first ∨ first + bar.registers.length ≤ index → KeepsEntry f after index := by
  cases bar with
  | unimplemented =>
      obtain ⟨value, writable⟩ := Prod.mk.inj (presents 0 _ rfl)
      refine ⟨f, probeBar_unimplemented value writable, rfl, ?_, fun _ _ => ⟨rfl, rfl⟩⟩
      intro index entry found
      rw [List.mem_singleton.mp (List.mem_of_getElem? found), Option.getD_none]
  | memory k base below1M prefetchable least most aligned =>
      obtain ⟨inside, -⟩ := memoryFlags_inside below1M false prefetchable least most
      obtain ⟨nonzero, decoded⟩ :=
        decodeBar_memory below1M false prefetchable least most (fun both => Bool.false_ne_true both.2) aligned
      exact probeBar_region rfl rfl (fun _ member => absurd member List.not_mem_nil) presents aligned
        inside nonzero decoded
  | io k base least most aligned =>
      obtain ⟨nonzero, inside, decoded⟩ := decodeBar_io least most aligned
      exact probeBar_region rfl rfl (fun _ member => absurd member List.not_mem_nil) presents aligned
        inside nonzero decoded
  | memory64 k low high prefetchable least most aligned =>
      obtain ⟨inside, -⟩ := memoryFlags_inside false true prefetchable least most
      obtain ⟨nonzero, decoded⟩ :=
        decodeBar_memory false true prefetchable least most (fun both => Bool.false_ne_true both.1) aligned
      exact probeBar_region rfl rfl (fun _ member => List.mem_singleton.mp member) presents aligned
        inside nonzero decoded

/-- The loop puts every register back, and makes the entries of all. -/
theorem probeBars_spec (bars : List BaseRegister) {first : Nat} {f : FuncRegs}
    (total : first + (bars.flatMap BaseRegister.registers).length = 6)
    (presents : Presents f.config first bars) :
    (probeBars (pciMapregStart + 4 * first) f).config = f.config ∧
      Recorded f (probeBars (pciMapregStart + 4 * first) f) first bars ∧
      ∀ index < first, KeepsEntry f (probeBars (pciMapregStart + 4 * first) f) index := by
  induction bars generalizing first f with
  | nil =>
      have ended : first = 6 := total
      subst ended
      rw [probeBars, if_neg (by decide)]
      refine ⟨rfl, ?_, fun _ _ => ⟨rfl, rfl⟩⟩
      intro index entry found
      cases found
  | cons bar rest inductionHypothesis =>
      rw [List.flatMap_cons, List.length_append] at total
      have positive : 0 < bar.registers.length := by cases bar <;> exact Nat.zero_lt_succ _
      have here : Presents f.config first [bar] := by
        intro index register found
        rw [List.flatMap_cons, List.flatMap_nil, List.append_nil] at found
        refine presents index register ?_
        rw [List.flatMap_cons, List.getElem?_append_left (List.getElem?_eq_some_iff.mp found).1, found]
      have later : Presents f.config (first + bar.registers.length) rest := by
        intro index register found
        rw [Nat.add_assoc]
        refine presents _ register ?_
        rw [List.flatMap_cons, List.getElem?_append_right (Nat.le_add_right _ _),
          Nat.add_sub_cancel_left, found]
      obtain ⟨after, probed, config, recorded, others⟩ := probeBar_step bar here
      have inside : pciMapregStart + 4 * first < pciMapregEnd := by
        simp only [pciMapregStart, pciMapregEnd]
        omega
      have next : pciMapregStart + 4 * first + 4 * bar.registers.length =
          pciMapregStart + 4 * (first + bar.registers.length) := by omega
      rw [probeBars, if_pos inside, probed, next]
      obtain ⟨configRest, recordedRest, before⟩ :=
        @inductionHypothesis (first + bar.registers.length) after (by omega) (config ▸ later)
      generalize probeBars (pciMapregStart + 4 * (first + bar.registers.length)) after = last at *
      refine ⟨configRest.trans config, ?_, ?_⟩
      · intro index entry found
        rw [List.flatMap_cons] at found
        by_cases inHere : index < bar.registers.length
        · rw [List.getElem?_append_left (length_recorded bar ▸ inHere)] at found
          obtain ⟨base, size⟩ := before (first + index) (Nat.add_lt_add_left inHere first)
          rw [base, size]
          refine recorded index entry ?_
          rwa [List.flatMap_cons, List.flatMap_nil, List.append_nil]
        · obtain ⟨offset, rfl⟩ := Nat.exists_eq_add_of_le (Nat.le_of_not_lt inHere)
          rw [← length_recorded, List.getElem?_append_right (Nat.le_add_right _ _),
            Nat.add_sub_cancel_left] at found
          obtain ⟨base, size⟩ :=
            others (first + (bar.registers.length + offset)) (Or.inr (by omega))
          rw [← base, ← size, ← Nat.add_assoc]
          exact recordedRest offset entry found
      · intro index below
        obtain ⟨base, size⟩ := before index (by omega)
        obtain ⟨base', size'⟩ := others index (Or.inl below)
        exact ⟨base.trans base', size.trans size'⟩

/-- Every register holds what it held, and the size and the base of every region are recorded. -/
theorem pciFuncEnable_probes (bars : List BaseRegister) (f : FuncRegs)
    (six : (bars.flatMap BaseRegister.registers).length = 6) (presents : Presents f.config 0 bars) :
    (∀ index < 6, (pciFuncEnable f).config.value (pciMapregStart + 4 * index) =
      f.config.value (pciMapregStart + 4 * index)) ∧
      Recorded f (pciFuncEnable f) 0 bars := by
  let command := pciCommandIoEnable ||| pciCommandMemEnable ||| pciCommandMasterEnable
  let enabled : FuncRegs := { f with config := f.config.write pciCommandStatusReg command }
  have apart (index : Nat) : pciMapregStart + 4 * index ≠ pciCommandStatusReg := by
    simp only [pciMapregStart, pciCommandStatusReg]
    omega
  have same (index : Nat) : enabled.config.value (pciMapregStart + 4 * index) =
      f.config.value (pciMapregStart + 4 * index) := Function.update_of_ne (apart index) _ _
  have presented : Presents enabled.config 0 bars := by
    intro index register found
    rw [same]
    exact presents index register found
  obtain ⟨config, recorded, -⟩ :=
    probeBars_spec bars ((Nat.zero_add _).trans six) presented
  refine ⟨fun index _ => ?_, recorded⟩
  exact (congrArg (fun config => config.value (pciMapregStart + 4 * index)) config).trans (same index)

/-- A function with a pair of registers for 16K of memory, one for 128K and 64 ports. -/
def exampleBars : List BaseRegister :=
  [.memory64 14 0xfe000000 0x1 true (by decide) (by decide) (by decide +kernel),
    .memory 17 0xfebc0000 false false (by decide) (by decide) (by decide +kernel),
    .unimplemented, .io 6 0xc000 (by decide) (by decide) (by decide +kernel), .unimplemented]

def exampleRegs : FuncRegs where
  config :=
    { value := fun offset =>
        ((exampleBars.flatMap BaseRegister.registers).getD (pciMapregNum offset) (0, 0)).1
      writable := fun offset =>
        ((exampleBars.flatMap BaseRegister.registers).getD (pciMapregNum offset) (0, 0)).2 }
  regBase _ := 0
  regSize _ := 0

theorem exampleRegs_presents : Presents exampleRegs.config 0 exampleBars := by
  intro index register found
  have place : pciMapregNum (pciMapregStart + 4 * (0 + index)) = index := by
    rw [pciMapregNum_start, Nat.zero_add]
  simp only [exampleRegs, place, List.getD_eq_getElem?_getD, found, Option.getD_some]

theorem pciFuncEnable_probes_example :
    (∀ index < 6, (pciFuncEnable exampleRegs).config.value (pciMapregStart + 4 * index) =
      exampleRegs.config.value (pciMapregStart + 4 * index)) ∧
      Recorded exampleRegs (pciFuncEnable exampleRegs) 0 exampleBars :=
  pciFuncEnable_probes exampleBars exampleRegs rfl exampleRegs_presents

end Xv6.Pci
