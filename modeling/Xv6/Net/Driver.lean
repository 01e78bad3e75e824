import Mathlib.Data.Fin.Basic
import Mathlib.Logic.Function.Basic
import Xv6.Library.Loop
import Xv6.Library.Memory

/-!
# The E1000 driver

The data structures of `e1000.h` and the functions of `e1000.c`.  Descriptors
are kept as records, one per ring slot; packet buffers live in byte memory at
the physical addresses the descriptors name; the device registers are a
register file that driver and device both write.
-/

namespace Xv6.Net

open Xv6.Library

/-! ## Addresses and pages -/

def kernBase : Nat := 0x80000000

def physTop : Nat := 0xE000000

def pgSize : Nat := 4096

/-- `V2P`: the physical address behind a kernel virtual address. -/
def v2p (address : Nat) : Nat := address - kernBase

/-- `P2V`: the kernel virtual address of a physical address. -/
def p2v (address : Nat) : Nat := address + kernBase

/-! ## Constants of `e1000.h` -/

def rbdSlots : Nat := 128

def tbdSlots : Nat := 128

def regRAL0 : Nat := 0x05400
def regRAH0 : Nat := 0x05404
def regTDBAL : Nat := 0x03800
def regTDBAH : Nat := 0x03804
def regTDLEN : Nat := 0x03808
def regTDH : Nat := 0x03810
def regTDT : Nat := 0x03818
def regRDBAL : Nat := 0x02800
def regRDBAH : Nat := 0x02804
def regRDLEN : Nat := 0x02808
def regRDH : Nat := 0x02810
def regRDT : Nat := 0x02818
def regTCTL : Nat := 0x00400
def regTIPG : Nat := 0x00410
def regRCTL : Nat := 0x00100

def tctlEN : UInt32 := 0x00000002
def tctlPSP : UInt32 := 0x00000008
def tctlCTSet (value : UInt32) : UInt32 := (value <<< 4) &&& 0x00000ff0
def tctlCOLDSet (value : UInt32) : UInt32 := (value <<< 12) &&& 0x003ff000
def tipgIPGTSet (value : UInt32) : UInt32 := (value <<< 0) &&& 0x000003ff
def tipgIPGR1Set (value : UInt32) : UInt32 := (value <<< 10) &&& 0x000ffc00
def tipgIPGR2Set (value : UInt32) : UInt32 := (value <<< 20) &&& 0x3ff00000
def rctlEN : UInt32 := 0x00000002
def rctlBAM : UInt32 := 0x00008000
def rctlSECRC : UInt32 := 0x04000000

def tdescCmdRS : UInt8 := 0x08
def txdStatDD : UInt8 := 0x01
def rxdStatDD : UInt8 := 0x01
def rxdStatEOP : UInt8 := 0x02

/-- `sizeof(struct packet_buf)`. -/
def packetBufSize : Nat := 2046

/-! ## Descriptors and driver state -/

/-- `struct e1000_tbd`. -/
structure Tbd where
  addr : Nat
  length : UInt16
  cso : UInt8
  cmd : UInt8
  status : UInt8
  css : UInt8
  special : UInt16
  deriving DecidableEq

/-- A transmit descriptor after `memset(.., 0, sizeof(struct e1000_tbd))`. -/
def Tbd.zero : Tbd := ⟨0, 0, 0, 0, 0, 0, 0⟩

/-- `struct e1000_rbd`. -/
structure Rbd where
  addr : Nat
  length : UInt16
  checksum : UInt16
  status : UInt8
  errors : UInt8
  special : UInt16
  deriving DecidableEq

/-- An index into one of the rings; both have 128 slots. -/
abbrev Slot := Fin 128

/-- The slot an `int` index selects, after the reduction modulo the ring size. -/
def slot (index : Nat) : Slot := ⟨index % 128, Nat.mod_lt _ (by decide)⟩

theorem slot_eq_iff {first second : Nat} :
    slot first = slot second ↔ first % 128 = second % 128 := by
  simp [slot, Fin.ext_iff]

@[simp]
theorem slot_val (index : Slot) : slot index.val = index := by
  simp [slot, Nat.mod_eq_of_lt index.isLt]

@[simp]
theorem slot_mod (index : Nat) : slot (index % 128) = slot index := by
  simp [slot]

/-- `struct e1000`.  `tbd` and `rbd` are the descriptors behind the pointers of
the same names; `tbdRing` and `rbdRing` are the pages that hold them. -/
structure E1000 where
  tbdRing : Nat
  rbdRing : Nat
  tbd : Slot → Tbd
  rbd : Slot → Rbd
  txBuf : Slot → Nat
  rxBuf : Slot → Nat
  tbdHead : Nat
  tbdTail : Nat
  rbdHead : Nat
  rbdTail : Nat
  iobase : UInt32
  membase : UInt32
  irqLine : UInt8
  macAddr : Fin 6 → UInt8

/-- The driver structure together with the memory and the registers it shares
with the device. -/
structure Nic where
  drv : E1000
  regs : Nat → UInt32
  mem : Memory

namespace Nic

/-- `e1000_reg_write`. -/
def regWrite (nic : Nic) (register : Nat) (value : UInt32) : Nic :=
  { nic with regs := Function.update nic.regs register value }

/-- `e1000_reg_read`. -/
def regRead (nic : Nic) (register : Nat) : UInt32 := nic.regs register

/-- Store bytes at a physical address. -/
def writeMem (nic : Nic) (address : Nat) (bytes : List UInt8) : Nic :=
  { nic with mem := nic.mem.write address bytes }

/-- Replace one transmit descriptor. -/
def setTbd (nic : Nic) (index : Slot) (descriptor : Tbd) : Nic :=
  { nic with drv := { nic.drv with tbd := Function.update nic.drv.tbd index descriptor } }

/-- Replace one receive descriptor. -/
def setRbd (nic : Nic) (index : Slot) (descriptor : Rbd) : Nic :=
  { nic with drv := { nic.drv with rbd := Function.update nic.drv.rbd index descriptor } }

theorem regRead_regWrite (nic : Nic) (written register : Nat) (value : UInt32) :
    (nic.regWrite written value).regRead register =
      if register = written then value else nic.regRead register := by
  simp [regRead, regWrite, Function.update_apply]

@[simp]
theorem regWrite_drv (nic : Nic) (register : Nat) (value : UInt32) :
    (nic.regWrite register value).drv = nic.drv := rfl

@[simp]
theorem regWrite_mem (nic : Nic) (register : Nat) (value : UInt32) :
    (nic.regWrite register value).mem = nic.mem := rfl

@[simp]
theorem writeMem_drv (nic : Nic) (address : Nat) (bytes : List UInt8) :
    (nic.writeMem address bytes).drv = nic.drv := rfl

@[simp]
theorem writeMem_mem (nic : Nic) (address : Nat) (bytes : List UInt8) :
    (nic.writeMem address bytes).mem = nic.mem.write address bytes := rfl

@[simp]
theorem writeMem_regRead (nic : Nic) (address : Nat) (bytes : List UInt8) (register : Nat) :
    (nic.writeMem address bytes).regRead register = nic.regRead register := rfl

@[simp]
theorem setTbd_mem (nic : Nic) (index : Slot) (descriptor : Tbd) :
    (nic.setTbd index descriptor).mem = nic.mem := rfl

@[simp]
theorem setTbd_regRead (nic : Nic) (index : Slot) (descriptor : Tbd) (register : Nat) :
    (nic.setTbd index descriptor).regRead register = nic.regRead register := rfl

@[simp]
theorem setTbd_tbdTail (nic : Nic) (index : Slot) (descriptor : Tbd) :
    (nic.setTbd index descriptor).drv.tbdTail = nic.drv.tbdTail := rfl

@[simp]
theorem setRbd_mem (nic : Nic) (index : Slot) (descriptor : Rbd) :
    (nic.setRbd index descriptor).mem = nic.mem := rfl

@[simp]
theorem setRbd_regRead (nic : Nic) (index : Slot) (descriptor : Rbd) (register : Nat) :
    (nic.setRbd index descriptor).regRead register = nic.regRead register := rfl

theorem setRbd_rbd (nic : Nic) (changed index : Slot) (descriptor : Rbd) :
    (nic.setRbd changed descriptor).drv.rbd index =
      if index = changed then descriptor else nic.drv.rbd index := by
  simp [setRbd, Function.update_apply]

theorem setTbd_tbd (nic : Nic) (changed index : Slot) (descriptor : Tbd) :
    (nic.setTbd changed descriptor).drv.tbd index =
      if index = changed then descriptor else nic.drv.tbd index := by
  simp [setTbd, Function.update_apply]

end Nic

/-! ## Initialisation -/

/-- What `e1000_init` reads of `struct pci_func`. -/
structure PciFunc where
  regBase : Fin 6 → UInt32
  regSize : Fin 6 → UInt32
  irqLine : UInt8

/-- The machine while the driver is being set up: the card and the free pages. -/
structure Boot where
  nic : Nic
  freelist : List Nat

/-- `kalloc`: the first free page, or 0. -/
def kalloc (boot : Boot) : Nat × Boot :=
  match boot.freelist with
  | [] => (0, boot)
  | page :: rest => (page, { boot with freelist := rest })

/-- The loop over the base address registers: memory bases are recorded on the
way, the first base below 64K ends it as the I/O base. -/
def scanBars (pcif : PciFunc) : List (Fin 6) → E1000 → Except String E1000
  | [], drv => .ok drv
  | index :: rest, drv =>
      if pcif.regBase index ≤ 0xffff then
        if pcif.regSize index ≠ 64 then .error "I/O space BAR size != 64"
        else .ok { drv with iobase := pcif.regBase index }
      else if pcif.regBase index > 0 then
        if pcif.regSize index ≠ (1 : UInt32) <<< 17 then .error "Mem space BAR size != 128KB"
        else scanBars pcif rest { drv with membase := pcif.regBase index }
      else scanBars pcif rest drv

/-- The six bytes the driver takes out of RAL0 and RAH0. -/
def macOfRegs (low high : UInt32) : Fin 6 → UInt8 := fun index =>
  if index.val < 4 then (low >>> (8 * index.val).toUInt32).toUInt8
  else (high.toUInt16 >>> (8 * (index.val - 4)).toUInt16).toUInt8

/-- Everything up to the ring pages: base addresses, indices, hardware address. -/
def initDevice (pcif : PciFunc) (boot : Boot) : Except String Boot := do
  let drv ← scanBars pcif (List.finRange 6) boot.nic.drv
  if drv.iobase = 0 then .error "Fail to find a valid I/O port base for E1000."
  else if drv.membase = 0 then .error "Fail to find a valid Mem I/O base for E1000."
  else
    let mac := macOfRegs (boot.nic.regRead regRAL0) (boot.nic.regRead regRAH0)
    let drv := { drv with
      irqLine := pcif.irqLine, tbdHead := 0, tbdTail := 0, rbdHead := 0, rbdTail := 0,
      macAddr := mac }
    .ok { boot with nic := { boot.nic with drv := drv } }

/-- The transmit descriptor ring, on a page of its own. -/
def initTbdRing (boot : Boot) : Boot :=
  let (ttmp, boot) := kalloc boot
  let boot := { boot with nic := { boot.nic with drv := { boot.nic.drv with tbdRing := ttmp } } }
  forLoop tbdSlots (fun index boot =>
    let descriptor : Tbd :=
      { addr := 0, length := 0, cso := 0, cmd := (tdescCmdRS.toUInt32 >>> 24).toUInt8,
        status := txdStatDD, css := 0, special := 0 }
    { boot with nic := boot.nic.setTbd (slot index) descriptor }) boot

/-- The receive descriptor ring, on a page of its own. -/
def initRbdRing (boot : Boot) : Boot :=
  let (rtmp, boot) := kalloc boot
  let boot := { boot with nic := { boot.nic with drv := { boot.nic.drv with rbdRing := rtmp } } }
  forLoop rbdSlots (fun index boot =>
    let descriptor :=
      { boot.nic.drv.rbd (slot index) with status := 0, errors := 0, checksum := 0 }
    { boot with nic := boot.nic.setRbd (slot index) descriptor }) boot

/-- Transmit buffers, two to a page. -/
def initTxBufs (boot : Boot) : Boot :=
  forLoop (tbdSlots / 2) (fun pair boot =>
    let (tmp, boot) := kalloc boot
    let txBuf := Function.update boot.nic.drv.txBuf (slot (2 * pair)) tmp
    let txBuf := Function.update txBuf (slot (2 * pair + 1)) (tmp + packetBufSize)
    { boot with nic := { boot.nic with drv := { boot.nic.drv with txBuf := txBuf } } }) boot

/-- Receive buffers, one to a page; the device is given the page from byte 4 on. -/
def initRxBufs (boot : Boot) : Boot :=
  forLoop rbdSlots (fun index boot =>
    let (tmp, boot) := kalloc boot
    let boot := { boot with nic := { boot.nic with drv :=
      { boot.nic.drv with rxBuf := Function.update boot.nic.drv.rxBuf (slot index) tmp } } }
    let descriptor := { boot.nic.drv.rbd (slot index) with
      addr := v2p (boot.nic.drv.rxBuf (slot index) + 4) }
    { boot with nic := boot.nic.setRbd (slot index) descriptor }) boot

/-- The transmit registers, in the order they are written. -/
def initTxRegs (nic : Nic) : Nic :=
  let nic := nic.regWrite regTDBAL (v2p nic.drv.tbdRing).toUInt32
  let nic := nic.regWrite regTDBAH 0
  let nic := nic.regWrite regTDLEN (tbdSlots * 16).toUInt32
  let nic := nic.regWrite regTDH 0
  let nic := nic.regWrite regTCTL
    (tctlEN ||| tctlPSP ||| tctlCTSet 0x0f ||| tctlCOLDSet 0x200)
  let nic := nic.regWrite regTDT 0
  nic.regWrite regTIPG (tipgIPGTSet 10 ||| tipgIPGR1Set 10 ||| tipgIPGR2Set 10)

/-- The software indices and the receive filter and ring registers. -/
def initRxRegs (nic : Nic) : Nic :=
  let nic := { nic with drv := { nic.drv with
    tbdTail := 0, tbdHead := 0, rbdTail := rbdSlots - 1, rbdHead := 0 } }
  let nic := nic.regWrite regRAL0 0x12005452
  let nic := nic.regWrite regRAH0 (0x5634 ||| 0x80000000)
  let nic := nic.regWrite regRDBAL (v2p nic.drv.rbdRing).toUInt32
  let nic := nic.regWrite regRDBAH 0
  nic.regWrite regRDLEN (rbdSlots * 16).toUInt32

/-- The last register writes: the receive ring is handed to the device. -/
def startRx (nic : Nic) : Nic :=
  let nic := nic.regWrite regRDT (rbdSlots - 1).toUInt32
  let nic := nic.regWrite regRDH 0
  nic.regWrite regRCTL (((rctlEN &&& ~~~0x00000C00) ||| rctlBAM) ||| rctlSECRC)

/-- `e1000_init`.  The page `kalloc` gives for `struct e1000` is not cleared, so
the structure starts with whatever `boot.nic.drv` holds.  When a ring page is
not on a paragraph boundary the code gives back the page pointer it has already
moved to the end of the ring, which is not a page address: `kfree` panics. -/
def e1000Init (pcif : PciFunc) (boot : Boot) : Except String Boot := do
  let (_, boot) := kalloc boot
  let boot ← initDevice pcif boot
  let boot := initTbdRing boot
  if v2p boot.nic.drv.tbdRing % 16 ≠ 0 then .error "kfree"
  else
    let boot := initRbdRing boot
    if v2p boot.nic.drv.rbdRing % 16 ≠ 0 then .error "kfree"
    else
      let boot := initTxBufs boot
      let boot := { boot with nic := initRxRegs (initTxRegs boot.nic) }
      let boot := initRxBufs boot
      .ok { boot with nic := startRx boot.nic }

/-! ## Sending and receiving -/

namespace Nic

/-- The descriptor `e1000_send` is filling. -/
def txSlot (nic : Nic) : Slot := slot nic.drv.tbdTail

/-- `e1000_send` up to the last descriptor field: clear the descriptor, copy the
packet into the slot's buffer, describe it. -/
def fillDescriptor (nic : Nic) (pkt : List UInt8) : Nic :=
  let buffer := v2p (nic.drv.txBuf nic.txSlot)
  (nic.writeMem buffer pkt).setTbd nic.txSlot
    { Tbd.zero with addr := buffer, length := pkt.length.toUInt16, cmd := 9, cso := 0 }

@[simp]
theorem fillDescriptor_regRead (nic : Nic) (pkt : List UInt8) (register : Nat) :
    (nic.fillDescriptor pkt).regRead register = nic.regRead register := by
  rw [fillDescriptor, setTbd_regRead, writeMem_regRead]

@[simp]
theorem fillDescriptor_tbdTail (nic : Nic) (pkt : List UInt8) :
    (nic.fillDescriptor pkt).drv.tbdTail = nic.drv.tbdTail := by
  rw [fillDescriptor, setTbd_tbdTail, writeMem_drv]

/-- `tbd_tail = (tbd_tail + 1) % E1000_TBD_SLOTS`. -/
def advanceTail (nic : Nic) : Nic :=
  { nic with drv := { nic.drv with tbdTail := (nic.drv.tbdTail + 1) % tbdSlots } }

/-- `e1000_reg_write(E1000_TDT, tbd_tail)`. -/
def writeTDT (nic : Nic) : Nic := nic.regWrite regTDT nic.drv.tbdTail.toUInt32

/-- The test of the wait loop of `e1000_send`. -/
def txDone (nic : Nic) (oldtail : Slot) : Bool :=
  (nic.drv.tbd oldtail).status &&& txdStatDD ≠ 0

/-- The end of `e1000_recv`: clear the status, move the software tail. -/
def releaseRbd (nic : Nic) (i : Slot) : Nic :=
  let cleared := nic.setRbd i { nic.drv.rbd i with status := 0 }
  { cleared with drv := { cleared.drv with rbdTail := i.val } }

/-- `e1000_recv`: the bytes copied to the caller, none when `*length` is set to 0
because the next descriptor is not done. -/
def e1000Recv (nic : Nic) : Nic × Option (List UInt8) :=
  let i := slot (nic.drv.rbdTail + 1)
  let descriptor := nic.drv.rbd i
  if descriptor.status &&& rxdStatDD = 0 ∨ descriptor.status &&& rxdStatEOP = 0 then
    (nic, none)
  else
    let pkt := nic.mem.read (v2p (p2v descriptor.addr)) descriptor.length.toNat
    (nic.releaseRbd i, some pkt)

end Nic

end Xv6.Net
