import Mathlib.Data.List.Nodup
import Xv6.Net.Driver

/-!
# What `e1000_init` leaves behind

Each loop of the initialisation is summed up by one equation, and the whole
by `Ready`: indices and registers at their starting values, every receive
status clear, and packet buffers that never overlap because the pages the
allocator hands out are distinct.
-/

namespace Xv6.Net

open Xv6.Library

/-- Page number `index` of the free list, 0 beyond its end. -/
def Boot.page (boot : Boot) (index : Nat) : Nat := boot.freelist.getD index 0

theorem kalloc_eq (boot : Boot) :
    kalloc boot = (boot.page 0, { boot with freelist := boot.freelist.drop 1 }) := by
  unfold kalloc Boot.page
  cases boot with
  | mk nic freelist => cases freelist <;> simp

theorem getD_drop (pages : List Nat) (first second : Nat) :
    (pages.drop first).getD second 0 = pages.getD (first + second) 0 := by
  simp [List.getD_eq_getElem?_getD]

/-! ## The loops -/

/-- The value `initTbdRing` gives to every transmit descriptor. -/
def idleTbd : Tbd :=
  { addr := 0, length := 0, cso := 0, cmd := (tdescCmdRS.toUInt32 >>> 24).toUInt8,
    status := txdStatDD, css := 0, special := 0 }

/-- `current` if the slot has been visited by the first `count` iterations. -/
def visited {Value : Type} (count : Nat) (current previous : Slot → Value) : Slot → Value :=
  fun index => if index.val < count then current index else previous index

theorem visited_zero {Value : Type} (current previous : Slot → Value) :
    visited 0 current previous = previous := by
  funext index
  simp [visited]

theorem visited_all {Value : Type} (current previous : Slot → Value) :
    visited 128 current previous = current := by
  funext index
  simp [visited, index.isLt]

theorem visited_update {Value : Type} (count : Nat) (below : count < 128)
    (current previous : Slot → Value) :
    Function.update (visited count current previous) (slot count) (current (slot count)) =
      visited (count + 1) current previous := by
  funext index
  have position : (slot count).val = count := Nat.mod_eq_of_lt below
  by_cases here : index = slot count
  · subst here
    simp [visited, position]
  · have apart : index.val ≠ count := fun same => here (Fin.ext (same.trans position.symm))
    simp only [Function.update_of_ne here, visited]
    split <;> split <;> first | rfl | omega

theorem visited_self {Value : Type} {count : Nat} (below : count < 128)
    (current previous : Slot → Value) :
    visited count current previous (slot count) = previous (slot count) := by
  have position : (slot count).val = count := Nat.mod_eq_of_lt below
  simp [visited, position]

theorem initTbdRing_eq (boot : Boot) :
    initTbdRing boot =
      { freelist := boot.freelist.drop 1
        nic := { boot.nic with drv := { boot.nic.drv with
          tbdRing := boot.page 0, tbd := fun _ => idleTbd } } } := by
  unfold initTbdRing
  rw [kalloc_eq]
  refine (forLoop_invariant (fun index current => current =
      { freelist := boot.freelist.drop 1
        nic := { boot.nic with drv := { boot.nic.drv with
          tbdRing := boot.page 0
          tbd := visited index (fun _ => idleTbd) boot.nic.drv.tbd } } })
    (by simp [visited_zero]) ?_).trans ?_
  · rintro index current below rfl
    rw [← visited_update index below (fun _ => idleTbd) boot.nic.drv.tbd]
    simp only [Nic.setTbd, idleTbd]
  · simp only [tbdSlots, visited_all]

/-- A receive descriptor as `initRbdRing` leaves it. -/
def clearedRbd (descriptor : Rbd) : Rbd :=
  { descriptor with status := 0, errors := 0, checksum := 0 }

theorem initRbdRing_eq (boot : Boot) :
    initRbdRing boot =
      { freelist := boot.freelist.drop 1
        nic := { boot.nic with drv := { boot.nic.drv with
          rbdRing := boot.page 0, rbd := fun index => clearedRbd (boot.nic.drv.rbd index) } } } := by
  unfold initRbdRing
  rw [kalloc_eq]
  refine (forLoop_invariant (fun index current => current =
      { freelist := boot.freelist.drop 1
        nic := { boot.nic with drv := { boot.nic.drv with
          rbdRing := boot.page 0
          rbd := visited index (fun index => clearedRbd (boot.nic.drv.rbd index))
            boot.nic.drv.rbd } } })
    (by simp [visited_zero]) ?_).trans ?_
  · rintro index current below rfl
    have updated := visited_update index below
      (fun index => clearedRbd (boot.nic.drv.rbd index)) boot.nic.drv.rbd
    have cleared := visited_self below (fun index => clearedRbd (boot.nic.drv.rbd index))
      boot.nic.drv.rbd
    simp only [clearedRbd] at updated cleared ⊢
    simp only [Nic.setRbd, cleared, updated]
  · simp only [rbdSlots, visited_all]

/-- Two transmit buffers share a page, the odd one after the even one. -/
def txBufAt (boot : Boot) (index : Slot) : Nat :=
  boot.page (index.val / 2) + (index.val % 2) * packetBufSize

theorem initTxBufs_eq (boot : Boot) :
    initTxBufs boot =
      { freelist := boot.freelist.drop 64
        nic := { boot.nic with drv := { boot.nic.drv with txBuf := txBufAt boot } } } := by
  unfold initTxBufs
  refine (forLoop_invariant (fun pair current => current =
      { freelist := boot.freelist.drop pair
        nic := { boot.nic with drv := { boot.nic.drv with
          txBuf := visited (2 * pair) (txBufAt boot) boot.nic.drv.txBuf } } })
    (by simp [visited_zero]) ?_).trans ?_
  · rintro pair current below rfl
    have inRing : pair < 64 := below
    have even : txBufAt boot (slot (2 * pair)) = boot.page pair := by
      have position : (slot (2 * pair)).val = 2 * pair := Nat.mod_eq_of_lt (by omega)
      simp [txBufAt, position]
    have odd : txBufAt boot (slot (2 * pair + 1)) = boot.page pair + packetBufSize := by
      have position : (slot (2 * pair + 1)).val = 2 * pair + 1 := Nat.mod_eq_of_lt (by omega)
      have half : (2 * pair + 1) / 2 = pair := by omega
      have parity : (2 * pair + 1) % 2 = 1 := by omega
      simp [txBufAt, position, half, parity]
    have head : (boot.freelist.drop pair).getD 0 0 = boot.page pair := getD_drop _ _ _
    have first := visited_update (2 * pair) (by omega) (txBufAt boot) boot.nic.drv.txBuf
    have second := visited_update (2 * pair + 1) (by omega) (txBufAt boot)
      boot.nic.drv.txBuf
    rw [even] at first
    rw [odd] at second
    simp only [kalloc_eq, Boot.page] at *
    simp only [head, first, second, List.drop_drop, Nat.mul_add, Nat.mul_one]
  · simp only [tbdSlots]
    simp only [Nat.reduceDiv, Nat.reduceMul, visited_all]

/-- A receive descriptor that points four bytes into its page. -/
def pointedRbd (boot : Boot) (index : Slot) : Rbd :=
  { boot.nic.drv.rbd index with addr := v2p (boot.page index.val + 4) }

theorem initRxBufs_eq (boot : Boot) :
    initRxBufs boot =
      { freelist := boot.freelist.drop 128
        nic := { boot.nic with drv := { boot.nic.drv with
          rxBuf := fun index => boot.page index.val, rbd := pointedRbd boot } } } := by
  unfold initRxBufs
  refine (forLoop_invariant (fun index current => current =
      { freelist := boot.freelist.drop index
        nic := { boot.nic with drv := { boot.nic.drv with
          rxBuf := visited index (fun index => boot.page index.val) boot.nic.drv.rxBuf
          rbd := visited index (pointedRbd boot) boot.nic.drv.rbd } } })
    (by simp [visited_zero]) ?_).trans ?_
  · rintro index current below rfl
    have position : (slot index).val = index := Nat.mod_eq_of_lt below
    have head : (boot.freelist.drop index).getD 0 0 = boot.page index := getD_drop _ _ _
    have buffers := visited_update index below
      (fun index => boot.page index.val) boot.nic.drv.rxBuf
    have descriptors := visited_update index below (pointedRbd boot) boot.nic.drv.rbd
    simp only [position] at buffers
    simp only [pointedRbd, position] at descriptors
    simp only [kalloc_eq, Boot.page, head] at *
    simp only [Nic.setRbd, Function.update_self, visited_self below, buffers, List.drop_drop]
    rw [← descriptors]
  · simp only [rbdSlots, visited_all]

/-! ## The state of the card after initialisation -/

/-- Indices, registers and buffers as `e1000_init` leaves them. -/
structure Ready (nic : Nic) : Prop where
  tbdTail : nic.drv.tbdTail = 0
  rbdTail : nic.drv.rbdTail = 127
  tdh : nic.regRead regTDH = 0
  tdt : nic.regRead regTDT = 0
  rdh : nic.regRead regRDH = 0
  rdt : nic.regRead regRDT = 127
  rbdStatus : ∀ index, (nic.drv.rbd index).status = 0
  /-- Two receive buffers are at least a page apart. -/
  rbdApart : ∀ first second, first ≠ second →
    (nic.drv.rbd first).addr + pgSize ≤ (nic.drv.rbd second).addr ∨
      (nic.drv.rbd second).addr + pgSize ≤ (nic.drv.rbd first).addr
  /-- Two transmit buffers do not overlap. -/
  txBufApart : ∀ first second, first ≠ second →
    v2p (nic.drv.txBuf first) + packetBufSize ≤ v2p (nic.drv.txBuf second) ∨
      v2p (nic.drv.txBuf second) + packetBufSize ≤ v2p (nic.drv.txBuf first)

/-- The pages `e1000_init` asks for: the structure, two rings, 64 pages of
transmit and 128 of receive buffers. -/
def initPages : Nat := 195

/-- A machine on which `e1000_init` can succeed: the card has its two base
address registers and the allocator has enough pages. -/
structure PoweredCard where
  pcif : PciFunc
  boot : Boot
  /-- The registers pass the checks of `scanBars`. -/
  bars : ∃ drv, scanBars pcif (List.finRange 6) boot.nic.drv = .ok drv ∧
    drv.iobase ≠ 0 ∧ drv.membase ≠ 0
  enough : initPages ≤ boot.freelist.length
  distinct : boot.freelist.Nodup
  /-- The allocator only ever holds pages of kernel memory. -/
  pages : ∀ page ∈ boot.freelist, kernBase ≤ page ∧ page % pgSize = 0 ∧ v2p page < physTop

namespace PoweredCard

variable (card : PoweredCard)

theorem page_mem {index : Nat} (below : index < initPages) :
    card.boot.page index ∈ card.boot.freelist := by
  have inside : index < card.boot.freelist.length := lt_of_lt_of_le below card.enough
  simp [Boot.page, List.getD_eq_getElem?_getD, List.getElem?_eq_getElem inside]

theorem page_inj {first second : Nat} (belowFirst : first < initPages)
    (belowSecond : second < initPages)
    (same : card.boot.page first = card.boot.page second) : first = second := by
  have insideFirst : first < card.boot.freelist.length := lt_of_lt_of_le belowFirst card.enough
  have insideSecond : second < card.boot.freelist.length := lt_of_lt_of_le belowSecond card.enough
  simp only [Boot.page, List.getD_eq_getElem?_getD, List.getElem?_eq_getElem insideFirst,
    List.getElem?_eq_getElem insideSecond, Option.getD_some] at same
  exact (List.Nodup.getElem_inj_iff card.distinct).mp same

/-- Distinct pages are disjoint: both are page aligned. -/
theorem page_apart {first second : Nat} (belowFirst : first < initPages)
    (belowSecond : second < initPages) (different : first ≠ second) :
    card.boot.page first + pgSize ≤ card.boot.page second ∨
      card.boot.page second + pgSize ≤ card.boot.page first := by
  have unequal : card.boot.page first ≠ card.boot.page second :=
    fun same => different (card.page_inj belowFirst belowSecond same)
  have alignedFirst := (card.pages _ (card.page_mem belowFirst)).2.1
  have alignedSecond := (card.pages _ (card.page_mem belowSecond)).2.1
  simp only [pgSize] at *
  omega

theorem page_ge {index : Nat} (below : index < initPages) :
    kernBase ≤ card.boot.page index :=
  (card.pages _ (card.page_mem below)).1

theorem page_paragraph (index : Nat) (below : index < initPages) :
    v2p (card.boot.page index) % 16 = 0 := by
  have aligned := (card.pages _ (card.page_mem below)).2.1
  have above := card.page_ge below
  simp only [v2p, kernBase, pgSize] at *
  omega

/-- Receive buffers start on pages 67 to 194, four bytes in. -/
theorem rxBufs_apart (first second : Slot) (different : first ≠ second) :
    v2p ((card.boot.freelist.drop 67).getD first.val 0 + 4) + pgSize ≤
        v2p ((card.boot.freelist.drop 67).getD second.val 0 + 4) ∨
      v2p ((card.boot.freelist.drop 67).getD second.val 0 + 4) + pgSize ≤
        v2p ((card.boot.freelist.drop 67).getD first.val 0 + 4) := by
  have belowFirst : 67 + first.val < initPages := by simp only [initPages]; omega
  have belowSecond : 67 + second.val < initPages := by simp only [initPages]; omega
  have apart := card.page_apart belowFirst belowSecond
    (fun same => different (Fin.ext (by omega)))
  have aboveFirst := card.page_ge belowFirst
  have aboveSecond := card.page_ge belowSecond
  simp only [getD_drop]
  simp only [Boot.page, v2p] at *
  omega

/-- Transmit buffers lie on pages 3 to 66, the two of one page side by side. -/
theorem txBufs_apart (first second : Slot) (different : first ≠ second) :
    v2p ((card.boot.freelist.drop 3).getD (first.val / 2) 0 + first.val % 2 * packetBufSize) +
          packetBufSize ≤
        v2p ((card.boot.freelist.drop 3).getD (second.val / 2) 0 +
          second.val % 2 * packetBufSize) ∨
      v2p ((card.boot.freelist.drop 3).getD (second.val / 2) 0 +
          second.val % 2 * packetBufSize) + packetBufSize ≤
        v2p ((card.boot.freelist.drop 3).getD (first.val / 2) 0 +
          first.val % 2 * packetBufSize) := by
  have belowFirst : 3 + first.val / 2 < initPages := by simp only [initPages]; omega
  have belowSecond : 3 + second.val / 2 < initPages := by simp only [initPages]; omega
  have aboveFirst := card.page_ge belowFirst
  have aboveSecond := card.page_ge belowSecond
  simp only [getD_drop]
  have unequal : first.val ≠ second.val := fun same => different (Fin.ext same)
  by_cases samePage : first.val / 2 = second.val / 2
  · rw [samePage] at aboveFirst ⊢
    simp only [Boot.page, v2p, packetBufSize] at *
    omega
  · have apart := card.page_apart belowFirst belowSecond (by omega)
    simp only [Boot.page, v2p, packetBufSize, pgSize] at *
    omega

/-- The driver structure once the base address registers are found. -/
theorem initDevice_eq : ∃ drv, initDevice card.pcif
      { card.boot with freelist := card.boot.freelist.drop 1 } =
    .ok { freelist := card.boot.freelist.drop 1, nic := { card.boot.nic with drv := drv } } := by
  obtain ⟨drv, scanned, io, mem⟩ := card.bars
  refine ⟨{ drv with
      irqLine := card.pcif.irqLine, tbdHead := 0, tbdTail := 0, rbdHead := 0, rbdTail := 0
      macAddr := macOfRegs (card.boot.nic.regRead regRAL0) (card.boot.nic.regRead regRAH0) }, ?_⟩
  simp [initDevice, scanned, bind, Except.bind, io, mem]

/-- `e1000_init` succeeds and the card is ready. -/
theorem e1000Init_ready : ∃ boot, e1000Init card.pcif card.boot = .ok boot ∧ Ready boot.nic := by
  obtain ⟨drv, device⟩ := card.initDevice_eq
  have tbdPage : v2p (card.boot.freelist.getD 1 0) % 16 = 0 :=
    card.page_paragraph 1 (by decide)
  have rbdPage : v2p (card.boot.freelist.getD 2 0) % 16 = 0 :=
    card.page_paragraph 2 (by decide)
  cases result : e1000Init card.pcif card.boot with
  | error message =>
      simp only [e1000Init, kalloc_eq, device, bind, Except.bind, initTbdRing_eq, initRbdRing_eq,
        initTxBufs_eq, initRxBufs_eq, Boot.page, getD_drop, List.drop_drop, Nat.reduceAdd,
        tbdPage, rbdPage, ne_eq, not_true_eq_false, if_false, reduceCtorEq] at result
  | ok boot =>
      refine ⟨boot, rfl, ?_⟩
      simp only [e1000Init, kalloc_eq, device, bind, Except.bind, initTbdRing_eq, initRbdRing_eq,
        initTxBufs_eq, initRxBufs_eq, Boot.page, getD_drop, List.drop_drop, Nat.reduceAdd,
        tbdPage, rbdPage, ne_eq, not_true_eq_false, if_false, Except.ok.injEq] at result
      subst result
      refine ⟨rfl, rfl, ?_, ?_, ?_, ?_, fun _ => rfl, card.rxBufs_apart, card.txBufs_apart⟩
      all_goals
        simp [Nic.regRead, startRx, initRxRegs, initTxRegs, Nic.regWrite, Function.update,
          regRAL0, regRAH0, regTDBAL, regTDBAH, regTDLEN, regTDH, regTDT, regRDBAL, regRDBAH,
          regRDLEN, regRDH, regRDT, regTCTL, regTIPG, regRCTL, rbdSlots]

/-- The card as `e1000_init` leaves it. -/
def nic : Nic :=
  match e1000Init card.pcif card.boot with
  | .ok boot => boot.nic
  | .error _ => card.boot.nic

theorem nic_ready : Ready card.nic := by
  obtain ⟨boot, init, ready⟩ := card.e1000Init_ready
  simpa [nic, init] using ready

end PoweredCard

/-- A card as the emulator presents it: 128K of registers, 64 I/O ports, and
195 pages free from 4M of physical memory on. -/
def emulatedCard : PoweredCard where
  pcif :=
    { regBase := fun index => if index = 0 then 0xfebc0000 else if index = 1 then 0xc000 else 0
      regSize := fun index => if index = 0 then 0x20000 else if index = 1 then 64 else 0
      irqLine := 11 }
  boot :=
    { freelist := (List.range initPages).map fun index => 0x80400000 + pgSize * index
      nic :=
        { regs := fun _ => 0
          mem := fun _ => 0
          drv :=
            { tbdRing := 0, rbdRing := 0, tbd := fun _ => Tbd.zero
              rbd := fun _ => ⟨0, 0, 0, 0, 0, 0⟩, txBuf := fun _ => 0, rxBuf := fun _ => 0
              tbdHead := 0, tbdTail := 0, rbdHead := 0, rbdTail := 0, iobase := 0, membase := 0
              irqLine := 0, macAddr := fun _ => 0 } } }
  bars := ⟨_, rfl, by decide, by decide⟩
  enough := by simp
  distinct := by
    refine List.Nodup.map ?_ List.nodup_range
    intro first second same
    simp only [pgSize] at same
    omega
  pages := by
    intro page member
    obtain ⟨index, below, rfl⟩ := List.mem_map.mp member
    have small : index < 195 := List.mem_range.mp below
    simp only [kernBase, pgSize, v2p, physTop]
    omega

end Xv6.Net
