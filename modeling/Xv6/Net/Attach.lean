import Xv6.Library.LittleEndian
import Xv6.Net.Icmp
import Xv6.Net.Init

/-!
# Attaching the card

`e1000_attach` of `pci.c`, from the base address registers `pci_func_enable` has
recorded to the registered interface. `e1000_init` takes its base addresses from
a page that is not cleared, and reprograms the receive filter with a constant.
-/

namespace Xv6.Net

open Xv6.Library

/-! ## Base address registers -/

/-- What `pci_func_enable` records of one base address register. -/
inductive Bar where
  | absent
  | memory (base size : UInt32) (above : 0xffff < base)
  | io (base size : UInt32) (below : base ≤ 0xffff)

namespace Bar

def base : Bar → UInt32
  | absent => 0
  | memory base _ _ => base
  | io base _ _ => base

def size : Bar → UInt32
  | absent => 0
  | memory _ size _ => size
  | io _ size _ => size

def IsMemory (bar : Bar) (base size : UInt32) : Prop := ∃ above, bar = memory base size above

def IsIo (bar : Bar) (base size : UInt32) : Prop := ∃ below, bar = io base size below

end Bar

/-- The size of a memory register that passes the check. -/
abbrev csrSize : UInt32 := (1 : UInt32) <<< 17

/-- The `struct pci_func` of an arrangement of registers. -/
def barFunc (bars : Fin 6 → Bar) (irqLine : UInt8) : PciFunc where
  regBase index := (bars index).base
  regSize index := (bars index).size
  irqLine := irqLine

/-- Both base addresses are those of registers of the right kind and size. -/
structure BasesFound (bars : Fin 6 → Bar) (drv : E1000) : Prop where
  membase : ∃ index, (bars index).IsMemory drv.membase csrSize
  iobase : ∃ index, (bars index).IsIo drv.iobase 64

theorem bars_pos : 0 < 6 := by decide

/-- The loop ends without a memory base or without an I/O base, and the page holds another
value where it would have gone. -/
def BaseUnset (bars : Fin 6 → Bar) (page : E1000) : Prop :=
  ((∃ base, (bars ⟨0, bars_pos⟩).IsIo base 64 ∧ base ≠ 0) ∧ page.membase ≠ 0 ∧
      ∀ index, ¬(bars index).IsMemory page.membase csrSize) ∨
    (∀ index, ∃ base, (bars index).IsMemory base csrSize) ∧ page.iobase ≠ 0

section Scan

variable {bars : Fin 6 → Bar} {irqLine : UInt8} {indices : List (Fin 6)} {drv : E1000}

/-- A memory register is passed if its size is right. -/
theorem scanBars_memory {index : Fin 6} {base : UInt32}
    (bar : (bars index).IsMemory base csrSize) :
    scanBars (barFunc bars irqLine) (index :: indices) drv =
      scanBars (barFunc bars irqLine) indices { drv with membase := base } := by
  obtain ⟨above, bar⟩ := bar
  have positive : (0 : UInt32) < base := UInt32.lt_trans (by decide) above
  have recorded : (barFunc bars irqLine).regBase index = base ∧
      (barFunc bars irqLine).regSize index = csrSize := by
    simp only [barFunc, bar, Bar.base, Bar.size, and_self]
  rw [scanBars, recorded.1, recorded.2, if_neg (UInt32.not_le.mpr above), if_pos positive,
    if_neg (not_not.mpr rfl)]

/-- An I/O register of the right size ends the loop. -/
theorem scanBars_io {index : Fin 6} {base : UInt32} (bar : (bars index).IsIo base 64) :
    scanBars (barFunc bars irqLine) (index :: indices) drv = .ok { drv with iobase := base } := by
  obtain ⟨below, bar⟩ := bar
  have recorded : (barFunc bars irqLine).regBase index = base ∧
      (barFunc bars irqLine).regSize index = 64 := by
    simp only [barFunc, bar, Bar.base, Bar.size, and_self]
  rw [scanBars, recorded.1, recorded.2, if_pos below, if_neg (not_not.mpr rfl)]

/-- The loop goes on over memory registers, and an I/O register ends it. -/
theorem scanBars_cases {index : Fin 6} {after : E1000}
    (scanned : scanBars (barFunc bars irqLine) (index :: indices) drv = .ok after) :
    (∃ base, (bars index).IsMemory base csrSize) ∨ ∃ base, (bars index).IsIo base 64 := by
  cases bar : bars index with
  | absent =>
      exfalso
      simp [scanBars, barFunc, bar, Bar.base, Bar.size] at scanned
  | memory base size above =>
      by_cases right : size = csrSize
      · exact Or.inl ⟨base, above, right ▸ rfl⟩
      · exfalso
        have positive : (0 : UInt32) < base := UInt32.lt_trans (by decide) above
        simp [scanBars, barFunc, bar, Bar.base, Bar.size, UInt32.not_le.mpr above, positive,
          right] at scanned
  | io base size below =>
      by_cases right : size = 64
      · exact Or.inr ⟨base, below, right ▸ rfl⟩
      · exfalso
        simp [scanBars, barFunc, bar, Bar.base, Bar.size, below, right] at scanned

/-- The memory base is found or the one before, and so is the I/O base, which is not found only
if every register is a memory register. -/
theorem scanBars_found {after : E1000}
    (scanned : scanBars (barFunc bars irqLine) indices drv = .ok after) :
    (after.membase = drv.membase ∨ ∃ index, (bars index).IsMemory after.membase csrSize) ∧
      ((∃ index, (bars index).IsIo after.iobase 64) ∨ after.iobase = drv.iobase ∧
        ∀ index ∈ indices, ∃ base, (bars index).IsMemory base csrSize) := by
  induction indices generalizing drv with
  | nil =>
      cases scanned
      exact ⟨Or.inl rfl, Or.inr ⟨rfl, fun index member => absurd member List.not_mem_nil⟩⟩
  | cons index rest inductionHypothesis =>
      obtain ⟨base, bar⟩ | ⟨base, bar⟩ := scanBars_cases scanned
      · rw [scanBars_memory bar] at scanned
        obtain ⟨memory, io⟩ := inductionHypothesis scanned
        refine ⟨Or.inr ?_, ?_⟩
        · obtain same | found := memory
          · exact ⟨index, same ▸ bar⟩
          · exact found
        · obtain found | ⟨same, all⟩ := io
          · exact Or.inl found
          · exact Or.inr ⟨same, List.forall_mem_cons.mpr ⟨⟨base, bar⟩, all⟩⟩
      · rw [scanBars_io bar, Except.ok.injEq] at scanned
        subst scanned
        exact ⟨Or.inl rfl, Or.inl ⟨index, bar⟩⟩

/-- Memory registers only: the I/O base stays as it was. -/
theorem scanBars_all (all : ∀ index ∈ indices, ∃ base, (bars index).IsMemory base csrSize)
    (mem : drv.membase ≠ 0 ∨ indices ≠ []) :
    ∃ after, scanBars (barFunc bars irqLine) indices drv = .ok after ∧
      after.iobase = drv.iobase ∧ after.membase ≠ 0 := by
  induction indices generalizing drv with
  | nil => exact ⟨drv, rfl, rfl, mem.resolve_right (not_not.mpr rfl)⟩
  | cons index rest inductionHypothesis =>
      obtain ⟨⟨base, bar⟩, others⟩ := List.forall_mem_cons.mp all
      rw [scanBars_memory bar]
      obtain ⟨above, -⟩ := bar
      have nonzero : base ≠ 0 := by
        rintro rfl
        exact absurd above (by decide)
      exact inductionHypothesis others (Or.inl nonzero)

end Scan

/-! ## What is left of the registers and the addresses -/

theorem initDevice_ok {pcif : PciFunc} {boot device : Boot}
    (found : initDevice pcif boot = .ok device) :
    ∃ drv, scanBars pcif (List.finRange 6) boot.nic.drv = .ok drv ∧ drv.iobase ≠ 0 ∧
      drv.membase ≠ 0 ∧ device = { boot with nic := { boot.nic with drv := { drv with
        irqLine := pcif.irqLine, tbdHead := 0, tbdTail := 0, rbdHead := 0, rbdTail := 0
        macAddr := macOfRegs (boot.nic.regRead regRAL0) (boot.nic.regRead regRAH0) } } } := by
  unfold initDevice at found
  cases scanned : scanBars pcif (List.finRange 6) boot.nic.drv with
  | error message =>
      rw [scanned] at found
      cases found
  | ok drv =>
      rw [scanned] at found
      by_cases io : drv.iobase = 0
      · simp [bind, Except.bind, io] at found
      · by_cases mem : drv.membase = 0
        · simp [bind, Except.bind, io, mem] at found
        · simp only [bind, Except.bind, io, mem, if_false, Except.ok.injEq] at found
          exact ⟨drv, rfl, io, mem, found.symm⟩

/-- What the driver and the card hold of the addresses at the end. -/
structure Addresses (device after : Nic) : Prop where
  membase : after.drv.membase = device.drv.membase
  iobase : after.drv.iobase = device.drv.iobase
  macAddr : after.drv.macAddr = device.drv.macAddr
  ral0 : after.regRead regRAL0 = 0x12005452
  rah0 : after.regRead regRAH0 = 0x5634 ||| 0x80000000

/-- The rest of the initialisation fails only on a ring page that is not aligned. -/
theorem e1000Init_cases {pcif : PciFunc} {boot device : Boot}
    (found : initDevice pcif { boot with freelist := boot.freelist.drop 1 } = .ok device) :
    ((∃ index, v2p (boot.page index) % 16 ≠ 0) ∧ ∃ message, e1000Init pcif boot = .error message) ∨
      ∃ after, e1000Init pcif boot = .ok after ∧ Addresses device.nic after.nic := by
  have free : device.freelist = boot.freelist.drop 1 := by
    obtain ⟨drv, -, -, -, rfl⟩ := initDevice_ok found
    rfl
  by_cases tbdPage : v2p (boot.freelist.getD 1 0) % 16 = 0
  · by_cases rbdPage : v2p (boot.freelist.getD 2 0) % 16 = 0
    · refine Or.inr ?_
      cases result : e1000Init pcif boot with
      | error message =>
          simp only [e1000Init, kalloc_eq, found, bind, Except.bind, initTbdRing_eq, initRbdRing_eq,
            initTxBufs_eq, initRxBufs_eq, Boot.page, free, getD_drop, List.drop_drop, Nat.reduceAdd,
            tbdPage, rbdPage, ne_eq, not_true_eq_false, if_false, reduceCtorEq] at result
      | ok after =>
          refine ⟨after, rfl, ?_⟩
          simp only [e1000Init, kalloc_eq, found, bind, Except.bind, initTbdRing_eq, initRbdRing_eq,
            initTxBufs_eq, initRxBufs_eq, Boot.page, free, getD_drop, List.drop_drop, Nat.reduceAdd,
            tbdPage, rbdPage, ne_eq, not_true_eq_false, if_false, Except.ok.injEq] at result
          subst result
          refine ⟨rfl, rfl, rfl, ?_, ?_⟩
          all_goals
            simp [Nic.regRead, startRx, initRxRegs, initTxRegs, Nic.regWrite, Function.update,
              regRAL0, regRAH0, regRDBAL, regRDBAH, regRDLEN, regRDH, regRDT, regRCTL]
    · refine Or.inl ⟨⟨2, rbdPage⟩, "kfree", ?_⟩
      simp only [e1000Init, kalloc_eq, found, bind, Except.bind, initTbdRing_eq, initRbdRing_eq,
        Boot.page, free, getD_drop, List.drop_drop, Nat.reduceAdd, tbdPage, rbdPage, ne_eq,
        not_true_eq_false, not_false_eq_true, if_false, if_true]
  · refine Or.inl ⟨⟨1, tbdPage⟩, "kfree", ?_⟩
    simp only [e1000Init, kalloc_eq, found, bind, Except.bind, initTbdRing_eq, Boot.page, free,
      getD_drop, Nat.reduceAdd, tbdPage, ne_eq, not_false_eq_true, if_true]

/-- `e1000_init` goes through the search for the base addresses. -/
theorem e1000Init_ok {pcif : PciFunc} {boot after : Boot}
    (init : e1000Init pcif boot = .ok after) :
    ∃ device, initDevice pcif { boot with freelist := boot.freelist.drop 1 } = .ok device ∧
      Addresses device.nic after.nic := by
  cases found : initDevice pcif { boot with freelist := boot.freelist.drop 1 } with
  | error message =>
      simp only [e1000Init, kalloc_eq, found, bind, Except.bind, reduceCtorEq] at init
  | ok device =>
      obtain ⟨-, message, failed⟩ | ⟨result, ended, addresses⟩ := e1000Init_cases found
      · rw [failed] at init
        cases init
      · rw [init, Except.ok.injEq] at ended
        exact ⟨device, rfl, ended ▸ addresses⟩

/-- Both base addresses make `e1000_init` succeed, whatever they are. -/
theorem e1000Init_of_scan {pcif : PciFunc} {boot : Boot} {drv : E1000}
    (aligned : ∀ index, v2p (boot.page index) % 16 = 0)
    (scanned : scanBars pcif (List.finRange 6) boot.nic.drv = .ok drv) (io : drv.iobase ≠ 0)
    (mem : drv.membase ≠ 0) :
    ∃ after, e1000Init pcif boot = .ok after ∧ after.nic.drv.membase = drv.membase ∧
      after.nic.drv.iobase = drv.iobase := by
  have found : ∃ device,
      initDevice pcif { boot with freelist := boot.freelist.drop 1 } = .ok device ∧
        device.nic.drv.membase = drv.membase ∧ device.nic.drv.iobase = drv.iobase := by
    simp [initDevice, scanned, bind, Except.bind, io, mem]
  obtain ⟨device, found, membase, iobase⟩ := found
  obtain ⟨⟨index, odd⟩, -⟩ | ⟨after, init, addresses⟩ := e1000Init_cases found
  · exact absurd (aligned index) odd
  · exact ⟨after, init, addresses.membase.trans membase, addresses.iobase.trans iobase⟩

/-! ## The base addresses -/

theorem aligned_page {boot : Boot} (pages : ∀ page ∈ boot.freelist, page % pgSize = 0)
    (index : Nat) : v2p (boot.page index) % 16 = 0 := by
  have whole : boot.page index % pgSize = 0 := by
    by_cases inside : index < boot.freelist.length
    · rw [Boot.page, List.getD_eq_getElem?_getD, List.getElem?_eq_getElem inside]
      exact pages _ (List.getElem_mem inside)
    · rw [Boot.page, List.getD_eq_getElem?_getD, List.getElem?_eq_none (Nat.le_of_not_lt inside)]
      rfl
  simp only [v2p, kernBase, pgSize] at *
  omega

/-- Without a panic both base addresses have been found, unless the page supplies one. -/
theorem e1000Init_bases (bars : Fin 6 → Bar) (irqLine : UInt8) (boot : Boot)
    (pages : ∀ page ∈ boot.freelist, page % pgSize = 0) :
    (∀ after, e1000Init (barFunc bars irqLine) boot = .ok after →
        BasesFound bars after.nic.drv) ↔ ¬BaseUnset bars boot.nic.drv := by
  have aligned := aligned_page pages
  have six : List.finRange 6 = 0 :: (List.finRange 5).map Fin.succ := List.finRange_succ
  constructor
  · rintro right (⟨⟨base, bar, nonzero⟩, mem, others⟩ | ⟨all, io⟩)
    · have scanned : scanBars (barFunc bars irqLine) (List.finRange 6) boot.nic.drv =
          .ok { boot.nic.drv with iobase := base } := by
        rw [six]
        exact scanBars_io bar
      obtain ⟨after, init, membase, -⟩ := e1000Init_of_scan aligned scanned nonzero mem
      obtain ⟨index, found⟩ := (right after init).membase
      rw [membase] at found
      exact others index found
    · have some : boot.nic.drv.membase ≠ 0 ∨ List.finRange 6 ≠ [] := Or.inr (by decide)
      obtain ⟨drv, scanned, iobase, mem⟩ :=
        @scanBars_all bars irqLine _ _ (fun index _ => all index) some
      rw [← iobase] at io
      obtain ⟨after, init, -, -⟩ := e1000Init_of_scan aligned scanned io mem
      obtain ⟨index, below, found⟩ := (right after init).iobase
      obtain ⟨base, above, other⟩ := all index
      rw [found] at other
      cases other
  · intro supplied after init
    obtain ⟨device, found, addresses⟩ := e1000Init_ok init
    obtain ⟨drv, scanned, io, mem, rfl⟩ := initDevice_ok found
    obtain ⟨memory, port⟩ := scanBars_found scanned
    have portFound : ∃ index, (bars index).IsIo drv.iobase 64 := by
      obtain found | ⟨same, all⟩ := port
      · exact found
      · refine absurd (Or.inr ⟨fun index => all index (List.mem_finRange index), ?_⟩) supplied
        rw [same] at io
        exact io
    have memoryFound : ∃ index, (bars index).IsMemory drv.membase csrSize := by
      obtain same | found := memory
      · by_contra none
        -- the first register is no memory register, whose base would have been found
        rw [six] at scanned
        obtain ⟨base, bar⟩ | ⟨base, bar⟩ := scanBars_cases scanned
        · rw [scanBars_memory bar] at scanned
          obtain kept | found := (scanBars_found scanned).1
          · exact none ⟨0, kept ▸ bar⟩
          · exact none found
        · rw [scanBars_io bar, Except.ok.injEq] at scanned
          subst scanned
          exact supplied (Or.inl ⟨⟨base, bar, io⟩, mem, not_exists.mp none⟩)
      · exact found
    constructor
    · rw [addresses.membase]
      exact memoryFound
    · rw [addresses.iobase]
      exact portFound

/-- A device with I/O registers only. -/
def portBars : Fin 6 → Bar := fun index =>
  if index.val = 0 then .io 0xc000 64 (by decide) else .absent

/-- `kfree` has filled the page with ones. -/
def junkBoot : Boot :=
  { emulatedCard.boot with nic := { emulatedCard.boot.nic with
      drv := { emulatedCard.boot.nic.drv with iobase := 0x01010101, membase := 0x01010101 } } }

theorem junkBoot_pages : ∀ page ∈ junkBoot.freelist, page % pgSize = 0 :=
  fun page member => (emulatedCard.pages page member).2.1

/-- The card is driven through the address `0x01010101`. -/
theorem e1000Init_junk : ¬∀ after, e1000Init (barFunc portBars 11) junkBoot = .ok after →
    BasesFound portBars after.nic.drv := by
  intro right
  have bar : (portBars 0).IsIo 0xc000 64 := ⟨by decide, rfl⟩
  have scanned : scanBars (barFunc portBars 11) (List.finRange 6) junkBoot.nic.drv =
      .ok { junkBoot.nic.drv with iobase := 0xc000 } := by
    rw [List.finRange_succ]
    exact scanBars_io bar
  obtain ⟨after, init, -, -⟩ :=
    e1000Init_of_scan (aligned_page junkBoot_pages) scanned (by decide) (by decide)
  obtain ⟨index, above, found⟩ := (right after init).membase
  by_cases first : index.val = 0
  · rw [portBars, if_pos first] at found
    cases found
  · rw [portBars, if_neg first] at found
    cases found

/-- The registers of the emulated card. -/
def emulatedBars : Fin 6 → Bar := fun index =>
  if index.val = 0 then .memory 0xfebc0000 0x20000 (by decide)
  else if index.val = 1 then .io 0xc000 64 (by decide) else .absent

theorem e1000Init_bases_emulated : ∃ after,
    e1000Init (barFunc emulatedBars 11) junkBoot = .ok after ∧
      BasesFound emulatedBars after.nic.drv := by
  have memory : (emulatedBars 0).IsMemory 0xfebc0000 csrSize := ⟨by decide, rfl⟩
  have port : (emulatedBars 1).IsIo 0xc000 64 := ⟨by decide, rfl⟩
  have scanned : scanBars (barFunc emulatedBars 11) (List.finRange 6) junkBoot.nic.drv =
      .ok { junkBoot.nic.drv with membase := 0xfebc0000, iobase := 0xc000 } := by
    rw [List.finRange_succ, scanBars_memory memory, List.finRange_succ, List.map_cons]
    exact scanBars_io port
  obtain ⟨after, init, -, -⟩ :=
    e1000Init_of_scan (aligned_page junkBoot_pages) scanned (by decide) (by decide)
  refine ⟨after, init, (e1000Init_bases emulatedBars 11 junkBoot junkBoot_pages).mpr ?_ after init⟩
  rintro (⟨⟨base, ⟨below, bar⟩, -⟩, -⟩ | ⟨all, -⟩)
  · cases bar
  · obtain ⟨base, above, bar⟩ := all 1
    cases bar

/-! ## The hardware address -/

/-- What `e1000_init` stores through its argument `mac_addr`: six bytes and two of padding. -/
def storeMac (macAddr : Memory) (low high : UInt32) : Memory :=
  let macAddr := macAddr.store 0 4 low.toNat
  macAddr.store 4 4 high.toUInt16.toNat

/-- `e1000_attach`, with what `pci_func_enable` leaves in `pcif` and any content of the stack
where `nd.mac_addr` comes to lie. The second component is `nic_devices[0]`. -/
def e1000Attach (pcif : PciFunc) (stack : Memory) (boot : Boot) :
    Except String (Boot × NicDevice) := do
  let (macAddr, _) := fillbuf stack 0 0x563412005452 6
  let after ← e1000Init pcif boot
  let macAddr := storeMac macAddr (boot.nic.regRead regRAL0) (boot.nic.regRead regRAH0)
  return (after, {
    macAddr := fun index => macAddr index.val
    sendPacket := true
    recvPacket := true })

/-- The receive filter, the driver and the registered interface have the same address. -/
structure MacAgree (nic : Nic) (nd : NicDevice) : Prop where
  filter : macOfRegs (nic.regRead regRAL0) (nic.regRead regRAH0) = nic.drv.macAddr
  registered : nd.macAddr = nic.drv.macAddr

/-- The bytes of the address, in arithmetic. -/
theorem macOfRegs_eq (low high : UInt32) (index : Fin 6) : macOfRegs low high index =
    if index.val < 4 then UInt8.ofNat (low.toNat / 256 ^ index.val)
    else UInt8.ofNat (high.toUInt16.toNat / 256 ^ (index.val - 4)) := by
  have below := index.isLt
  have power (count : Nat) : 2 ^ (8 * count) = 256 ^ count := by rw [Nat.pow_mul]
  by_cases first : index.val < 4
  · have amount : (8 * index.val).toUInt32.toNat % 32 = 8 * index.val := by
      simp only [Nat.toUInt32_eq, UInt32.toNat_ofNat']
      omega
    rw [macOfRegs, if_pos first, if_pos first, ← UInt8.toNat_inj, UInt32.toNat_toUInt8,
      UInt32.toNat_shiftRight, amount, Nat.shiftRight_eq_div_pow, power, UInt8.toNat_ofNat']
  · have amount : (8 * (index.val - 4)).toUInt16.toNat % 16 = 8 * (index.val - 4) := by
      simp only [Nat.toUInt16_eq, UInt16.toNat_ofNat']
      omega
    rw [macOfRegs, if_neg first, if_neg first, ← UInt8.toNat_inj, UInt16.toNat_toUInt8,
      UInt16.toNat_shiftRight, amount, Nat.shiftRight_eq_div_pow, power, UInt8.toNat_ofNat']

theorem storeMac_eq (memory : Memory) (low high : UInt32) (index : Fin 6) :
    storeMac memory low high index.val = macOfRegs low high index := by
  have below := index.isLt
  rw [macOfRegs_eq, storeMac]
  by_cases first : index.val < 4
  · have inside : index.val < (leBytes low.toNat 4).length := by rwa [length_leBytes]
    have stored := memory.write_inside 0 inside
    rw [Nat.zero_add] at stored
    rw [if_pos first, Memory.store_outside _ _ (Or.inl first), Memory.store, stored,
      getElem_leBytes]
  · obtain ⟨offset, position⟩ := Nat.exists_eq_add_of_le (Nat.le_of_not_lt first)
    have inside : offset < (leBytes high.toUInt16.toNat 4).length := by
      rw [length_leBytes]
      omega
    rw [if_neg first, Memory.store, position, Memory.write_inside _ 4 inside, getElem_leBytes,
      Nat.add_sub_cancel_left]

theorem macOfRegs_inj {low low' high high' : UInt32}
    (same : macOfRegs low high = macOfRegs low' high') :
    low = low' ∧ high.toUInt16 = high'.toUInt16 := by
  constructor
  · refine UInt32.toNat_inj.mp (@eq_of_bytes _ _ 4 low.toNat_lt low'.toNat_lt ?_)
    intro index first
    have byte := congrFun same ⟨index, Nat.lt_trans first (by decide)⟩
    rwa [macOfRegs_eq, macOfRegs_eq, if_pos first, if_pos first] at byte
  · refine UInt16.toNat_inj.mp
      (@eq_of_bytes _ _ 2 high.toUInt16.toNat_lt high'.toUInt16.toNat_lt ?_)
    intro index below
    have last : ¬4 + index < 4 := Nat.not_lt.mpr (Nat.le_add_right 4 index)
    have byte := congrFun same ⟨4 + index, Nat.add_lt_add_left below 4⟩
    rwa [macOfRegs_eq, macOfRegs_eq, if_neg last, if_neg last, Nat.add_sub_cancel_left] at byte

/-- The addresses agree exactly if the card has the address the driver programs. -/
theorem e1000Attach_macAgree (pcif : PciFunc) (stack : Memory) (boot after : Boot)
    (nd : NicDevice) (attached : e1000Attach pcif stack boot = .ok (after, nd)) :
    MacAgree after.nic nd ↔
      boot.nic.regRead regRAL0 = 0x12005452 ∧ (boot.nic.regRead regRAH0).toUInt16 = 0x5634 := by
  cases init : e1000Init pcif boot with
  | error message =>
      simp only [e1000Attach, init, bind, Except.bind, reduceCtorEq] at attached
  | ok result =>
      simp only [e1000Attach, init, bind, Except.bind, pure, Except.pure, Except.ok.injEq,
        Prod.mk.injEq] at attached
      obtain ⟨rfl, rfl⟩ := attached
      obtain ⟨device, found, addresses⟩ := e1000Init_ok init
      obtain ⟨drv, -, -, -, rfl⟩ := initDevice_ok found
      have driver : result.nic.drv.macAddr =
          macOfRegs (boot.nic.regRead regRAL0) (boot.nic.regRead regRAH0) := addresses.macAddr
      have programmed : (0x5634 ||| 0x80000000 : UInt32).toUInt16 = 0x5634 := by decide
      constructor
      · rintro ⟨filter, -⟩
        rw [addresses.ral0, addresses.rah0, driver] at filter
        obtain ⟨low, high⟩ := macOfRegs_inj filter
        exact ⟨low.symm, high.symm.trans programmed⟩
      · rintro ⟨low, high⟩
        constructor
        · rw [addresses.ral0, addresses.rah0, driver, low]
          funext index
          rw [macOfRegs_eq, macOfRegs_eq, high, programmed]
        · rw [driver]
          funext index
          exact storeMac_eq _ _ _ index

/-- The emulated card with an address of its own. -/
def addressedBoot (low high : UInt32) : Boot :=
  { emulatedCard.boot with nic :=
      (emulatedCard.boot.nic.regWrite regRAL0 low).regWrite regRAH0 high }

theorem e1000Attach_addressed (low high : UInt32) : ∃ after nd,
    e1000Attach emulatedCard.pcif (fun _ => 0) (addressedBoot low high) = .ok (after, nd) ∧
      macOfRegs (after.nic.regRead regRAL0) (after.nic.regRead regRAH0) =
        macOfRegs 0x12005452 0x80005634 ∧ after.nic.drv.macAddr = macOfRegs low high := by
  obtain ⟨drv, scanned, io, mem⟩ := emulatedCard.bars
  have pages : ∀ page ∈ (addressedBoot low high).freelist, page % pgSize = 0 :=
    fun page member => (emulatedCard.pages page member).2.1
  obtain ⟨after, init, -, -⟩ :=
    @e1000Init_of_scan _ (addressedBoot low high) _ (aligned_page pages) scanned io mem
  obtain ⟨device, found, addresses⟩ := e1000Init_ok init
  obtain ⟨drv, -, -, -, rfl⟩ := initDevice_ok found
  have attached : ∃ nd,
      e1000Attach emulatedCard.pcif (fun _ => 0) (addressedBoot low high) = .ok (after, nd) := by
    simp only [e1000Attach, init, bind, Except.bind, pure, Except.pure]
    exact ⟨_, rfl⟩
  obtain ⟨nd, attached⟩ := attached
  refine ⟨after, nd, attached, ?_, addresses.macAddr⟩
  rw [addresses.ral0, addresses.rah0]
  rfl

/-- A card with another address, `52:54:00:12:34:57`, does not keep it. -/
theorem e1000Attach_other : ¬∀ after nd,
    e1000Attach emulatedCard.pcif (fun _ => 0) (addressedBoot 0x12005452 0x80005734) =
      .ok (after, nd) → MacAgree after.nic nd := by
  intro right
  obtain ⟨after, nd, attached, filter, driver⟩ := e1000Attach_addressed 0x12005452 0x80005734
  have same := (right after nd attached).filter
  rw [filter, driver] at same
  obtain ⟨-, high⟩ := macOfRegs_inj same
  revert high
  decide

theorem e1000Attach_macAgree_programmed : ∃ after nd,
    e1000Attach emulatedCard.pcif (fun _ => 0) (addressedBoot 0x12005452 0x80005634) =
      .ok (after, nd) ∧ MacAgree after.nic nd := by
  obtain ⟨after, nd, attached, -, -⟩ := e1000Attach_addressed 0x12005452 0x80005634
  refine ⟨after, nd, attached, ?_⟩
  exact (e1000Attach_macAgree _ _ _ after nd attached).mpr ⟨rfl, by decide⟩

end Xv6.Net
