import Mathlib.Tactic.Common

/-!
# PCI enumeration

The scan of `pci.c`, for a machine given by the value of every configuration
read. What is printed is left out, and `e1000_attach` is noted as an event.
-/

namespace Xv6.Pci

/-- The value of a configuration read: of the bus, the device, the function and
the register. -/
abbrev Config := BitVec 32 → Nat → Nat → Nat → BitVec 32

/-! ## Registers -/

def pciIdReg : Nat := 0x00

def pciVendor (id : BitVec 32) : BitVec 32 := id &&& 0xffff

def pciProduct (id : BitVec 32) : BitVec 32 := (id >>> 16) &&& 0xffff

def pciClassReg : Nat := 0x08

def pciClass (cr : BitVec 32) : BitVec 32 := (cr >>> 24) &&& 0xff

def pciSubclass (cr : BitVec 32) : BitVec 32 := (cr >>> 16) &&& 0xff

def pciBhlcReg : Nat := 0x0c

def pciHdrtype (bhlcr : BitVec 32) : BitVec 32 := (bhlcr >>> 16) &&& 0xff

def pciHdrtypeType (bhlcr : BitVec 32) : BitVec 32 := pciHdrtype bhlcr &&& 0x7f

def pciHdrtypeMultifn (bhlcr : BitVec 32) : Bool := pciHdrtype bhlcr &&& 0x80 != 0

def pciInterruptReg : Nat := 0x3c

def pciInterruptLine (icr : BitVec 32) : BitVec 32 := icr &&& 0xff

def pciBridgeBusReg : Nat := 0x18

def pciBridgeStatioReg : Nat := 0x1c

def pciBridgeIo32bits (reg : BitVec 32) : Bool := reg &&& 0xf == 1

def pciClassBridge : BitVec 32 := 0x06

def pciSubclassBridgePci : BitVec 32 := 0x04

def e1000Vendor : BitVec 32 := 0x8086

def e1000Device : BitVec 32 := 0x100e

/-! ## The scan -/

/-- `struct pci_func`, without the base addresses, which only `e1000_attach`
fills in; of the bus, its number. -/
structure PciFunc where
  busno : BitVec 32
  dev : Nat
  func : Nat
  devId : BitVec 32
  devClass : BitVec 32
  irqLine : BitVec 8
  deriving DecidableEq

inductive PciEvent where
  /-- `pci_attach` is called. -/
  | attach (f : PciFunc)
  /-- `e1000_attach` is called. -/
  | e1000 (f : PciFunc)
  deriving DecidableEq

/-- What a call returns and the events on the way; `none` if it does not return
within the depth of recursion that is allowed. -/
def Scan (Value : Type) := Option (Value × List PciEvent)

namespace Scan

variable {First Second : Type}

def bind (scan : Scan First) (next : First → Scan Second) : Scan Second :=
  match scan with
  | none => none
  | some (value, events) =>
      match next value with
      | none => none
      | some (result, later) => some (result, events ++ later)

instance : Monad Scan where
  pure value := some (value, [])
  bind := bind

def event (event : PciEvent) : Scan Unit := some ((), [event])

end Scan

/-- `pci_conf_read` -/
def pciConfRead (config : Config) (f : PciFunc) (offset : Nat) : BitVec 32 :=
  config f.busno f.dev f.func offset

structure PciDriver where
  key1 : BitVec 32
  key2 : BitVec 32
  attachfn : PciFunc → Scan Int

def e1000Attach (f : PciFunc) : Scan Int := do
  Scan.event (.e1000 f)
  return 0

/-- The bus behind a bridge: `PCI_BRIDGE_BUS_SECONDARY_SHIFT`. -/
def secondary (busreg : BitVec 32) : BitVec 32 := (busreg >>> 8) &&& 0xff

/-- `pci_bridge_attach`, with the scan of the bus behind the bridge. -/
def pciBridgeAttach (config : Config) (scanBus : BitVec 32 → Scan Nat) (f : PciFunc) : Scan Int := do
  let ioreg := pciConfRead config f pciBridgeStatioReg
  let busreg := pciConfRead config f pciBridgeBusReg
  -- 32-bit bridge IO not supported
  if pciBridgeIo32bits ioreg then return 0
  let _ ← scanBus (secondary busreg)
  return 1

def pciAttachMatch (key1 key2 : BitVec 32) : List PciDriver → PciFunc → Scan Int
  | [], _ => return 0
  | driver :: list, f =>
      if driver.key1 = key1 ∧ driver.key2 = key2 then do
        let r ← driver.attachfn f
        if r > 0 then return r
        pciAttachMatch key1 key2 list f
      else pciAttachMatch key1 key2 list f

def pciAttachClass (config : Config) (scanBus : BitVec 32 → Scan Nat) : List PciDriver :=
  [⟨pciClassBridge, pciSubclassBridgePci, pciBridgeAttach config scanBus⟩]

def pciAttachVendor : List PciDriver := [⟨e1000Vendor, e1000Device, e1000Attach⟩]

def pciAttach (config : Config) (scanBus : BitVec 32 → Scan Nat) (f : PciFunc) : Scan Bool := do
  let r ← pciAttachMatch (pciClass f.devClass) (pciSubclass f.devClass)
    (pciAttachClass config scanBus) f
  if r ≠ 0 then return true
  let r ← pciAttachMatch (pciVendor f.devId) (pciProduct f.devId) pciAttachVendor f
  return r ≠ 0

/-- What the scan reads of a function. -/
def pciFunc (config : Config) (busno : BitVec 32) (dev func : Nat) : PciFunc where
  busno := busno
  dev := dev
  func := func
  devId := config busno dev func pciIdReg
  devClass := config busno dev func pciClassReg
  irqLine := (pciInterruptLine (config busno dev func pciInterruptReg)).setWidth 8

/-- The loop of `pci_scan_bus` over the functions of a device. -/
def scanFuncs (config : Config) (attach : PciFunc → Scan Bool) (busno : BitVec 32) (dev : Nat) :
    List Nat → Scan Unit
  | [] => return ()
  | func :: rest =>
      let af := pciFunc config busno dev func
      if pciVendor af.devId = 0xffff then scanFuncs config attach busno dev rest
      else do
        Scan.event (.attach af)
        let _ ← attach af
        scanFuncs config attach busno dev rest

/-- The loop of `pci_scan_bus` over the devices. -/
def scanDevs (config : Config) (attach : PciFunc → Scan Bool) (busno : BitVec 32) :
    List Nat → Scan Nat
  | [] => return 0
  | dev :: rest =>
      let bhlc := config busno dev 0 pciBhlcReg
      -- Unsupported or no device
      if pciHdrtypeType bhlc > 1 then scanDevs config attach busno rest
      else do
        scanFuncs config attach busno dev (List.range (if pciHdrtypeMultifn bhlc then 8 else 1))
        let totaldev ← scanDevs config attach busno rest
        return totaldev + 1

/-- `pci_scan_bus`; the depth bounds the recursion through `pci_bridge_attach`. -/
def pciScanBus (config : Config) : Nat → BitVec 32 → Scan Nat
  | 0, _ => none
  | depth + 1, busno =>
      scanDevs config (pciAttach config (pciScanBus config depth)) busno (List.range 32)

def pciInit (config : Config) (depth : Nat) : Scan Nat := pciScanBus config depth 0

end Xv6.Pci
