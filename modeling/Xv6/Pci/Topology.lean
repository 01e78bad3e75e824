import Mathlib.Data.Fintype.EquivFin
import Xv6.Library.Graph
import Xv6.Pci.Scan

/-!
# Which functions are attached

The scan returns exactly if no bus that is reached lies on a cycle of bridges. In
a tree of bridges it attaches every function that is there once.
-/

namespace Xv6.Pci

open Relation Xv6.Library

namespace Scan

variable {First Second : Type}

theorem pure_bind (value : First) (next : First → Scan Second) :
    (pure value >>= next) = next value := by
  change bind (some (value, [])) next = next value
  unfold bind
  dsimp only
  cases next value with
  | none => rfl
  | some pair => rfl

theorem bind_assoc {Third : Type} (scan : Scan First) (middle : First → Scan Second)
    (last : Second → Scan Third) :
    (scan >>= middle >>= last) = scan >>= fun value => middle value >>= last := by
  change bind (bind scan middle) last = bind scan fun value => bind (middle value) last
  cases scan with
  | none => rfl
  | some pair =>
      unfold bind
      dsimp only
      cases middle pair.1 with
      | none => rfl
      | some second =>
          dsimp only
          cases last second.1 with
          | none => rfl
          | some third =>
              dsimp only
              rw [List.append_assoc]

instance : LawfulMonad Scan :=
  LawfulMonad.mk' Scan
    (fun scan => by
      cases scan with
      | none => rfl
      | some pair => exact congrArg some (Prod.ext rfl (List.append_nil pair.2)))
    pure_bind bind_assoc

/-- The events of a call that returns. -/
def events? (scan : Scan First) : Option (List PciEvent) := Option.map Prod.snd scan

theorem events?_bind (scan : Scan First) (next : Scan Second) :
    (scan >>= fun _ => next).events? =
      scan.events?.bind fun first => next.events?.map (first ++ ·) := by
  change (bind scan fun _ => next).events? = _
  cases scan with
  | none => rfl
  | some pair =>
      unfold bind
      dsimp only
      cases next with
      | none => rfl
      | some second => rfl

theorem events?_map (scan : Scan First) (change : First → Second) :
    (scan >>= fun value => pure (change value)).events? = scan.events? := by
  cases scan with
  | none => rfl
  | some pair => exact congrArg some (List.append_nil pair.2)

theorem isSome_events? (scan : Scan First) : scan.events?.isSome = Option.isSome scan :=
  Option.isSome_map

end Scan

/-! ## The functions on a bus -/

/-- The machine has the function: the device is of a known type, and the function
is the first one or one of several. -/
def Present (config : Config) (busno : BitVec 32) (dev func : Nat) : Prop :=
  dev < 32 ∧ pciHdrtypeType (config busno dev 0 pciBhlcReg) ≤ 1 ∧
    func < (if pciHdrtypeMultifn (config busno dev 0 pciBhlcReg) then 8 else 1) ∧
    pciVendor (config busno dev func pciIdReg) ≠ 0xffff

def PciFunc.Bridge (f : PciFunc) : Prop :=
  pciClass f.devClass = pciClassBridge ∧ pciSubclass f.devClass = pciSubclassBridgePci

instance (f : PciFunc) : Decidable f.Bridge := inferInstanceAs (Decidable (_ ∧ _))

/-- Its ids are those of the network card. -/
def PciFunc.E1000 (f : PciFunc) : Prop :=
  pciVendor f.devId = e1000Vendor ∧ pciProduct f.devId = e1000Device

instance (f : PciFunc) : Decidable f.E1000 := inferInstanceAs (Decidable (_ ∧ _))

/-- The bus that the scan goes on with behind a function. -/
def leads (config : Config) (f : PciFunc) : Option (BitVec 32) :=
  if f.Bridge ∧ pciBridgeIo32bits (pciConfRead config f pciBridgeStatioReg) = false then
    some (secondary (pciConfRead config f pciBridgeBusReg))
  else none

/-- What the scan attaches on one device. -/
def deviceFuncs (config : Config) (busno : BitVec 32) (dev : Nat) (funcs : List Nat) : List PciFunc :=
  (funcs.map (pciFunc config busno dev)).filter fun f => pciVendor f.devId ≠ 0xffff

/-- What the scan attaches on some devices of a bus. -/
def busFuncs (config : Config) (busno : BitVec 32) (devs : List Nat) : List PciFunc :=
  devs.flatMap fun dev =>
    if pciHdrtypeType (config busno dev 0 pciBhlcReg) > 1 then []
    else deviceFuncs config busno dev
      (List.range (if pciHdrtypeMultifn (config busno dev 0 pciBhlcReg) then 8 else 1))

/-- What the scan attaches on a bus. -/
def present (config : Config) (busno : BitVec 32) : List PciFunc :=
  busFuncs config busno (List.range 32)

variable {config : Config}

theorem mem_deviceFuncs {busno : BitVec 32} {dev : Nat} {funcs : List Nat} {f : PciFunc} :
    f ∈ deviceFuncs config busno dev funcs ↔
      ∃ func ∈ funcs, pciVendor (config busno dev func pciIdReg) ≠ 0xffff ∧
        f = pciFunc config busno dev func := by
  simp only [deviceFuncs, List.mem_filter, List.mem_map, decide_eq_true_eq]
  constructor
  · rintro ⟨⟨func, member, rfl⟩, vendor⟩
    exact ⟨func, member, vendor, rfl⟩
  · rintro ⟨func, member, vendor, rfl⟩
    exact ⟨⟨func, member, rfl⟩, vendor⟩

theorem mem_present {busno : BitVec 32} {f : PciFunc} : f ∈ present config busno ↔
    ∃ dev func, Present config busno dev func ∧ f = pciFunc config busno dev func := by
  simp only [present, busFuncs, List.mem_flatMap, List.mem_range]
  constructor
  · rintro ⟨dev, below, member⟩
    split at member
    · cases member
    · rename_i known
      rcases mem_deviceFuncs.mp member with ⟨func, inside, vendor, rfl⟩
      exact ⟨dev, func, ⟨below, BitVec.not_lt.mp known, List.mem_range.mp inside, vendor⟩, rfl⟩
  · rintro ⟨dev, func, ⟨below, known, inside, vendor⟩, rfl⟩
    refine ⟨dev, below, ?_⟩
    rw [if_neg (BitVec.not_lt.mpr known)]
    exact mem_deviceFuncs.mpr ⟨func, List.mem_range.mpr inside, vendor, rfl⟩

/-! ## The events of a scan -/

/-- The events of a loop whose body has some of its own for every function. -/
def collect (body : PciFunc → Option (List PciEvent)) : List PciFunc → Option (List PciEvent)
  | [] => some []
  | f :: rest => (body f).bind fun first => (collect body rest).map (first ++ ·)

theorem collect_append (body : PciFunc → Option (List PciEvent)) (first second : List PciFunc) :
    collect body (first ++ second) =
      (collect body first).bind fun events => (collect body second).map (events ++ ·) := by
  induction first with
  | nil =>
      rw [List.nil_append, collect, Option.bind_some]
      cases collect body second with
      | none => rfl
      | some events => rfl
  | cons f rest inductionHypothesis =>
      rw [List.cons_append, collect, inductionHypothesis, collect]
      cases body f with
      | none => rfl
      | some events =>
          cases collect body rest with
          | none => rfl
          | some later =>
              cases collect body second with
              | none => rfl
              | some last => simp

theorem collect_of_some {body : PciFunc → Option (List PciEvent)} {funcs : List PciFunc}
    (all : ∀ f ∈ funcs, (body f).isSome = true) :
    collect body funcs = some (funcs.flatMap fun f => (body f).getD []) := by
  induction funcs with
  | nil => rfl
  | cons f rest inductionHypothesis =>
      rcases Option.isSome_iff_exists.mp (all f List.mem_cons_self) with ⟨events, ends⟩
      rw [collect, ends, inductionHypothesis fun g member => all g (List.mem_cons_of_mem f member),
        List.flatMap_cons, ends]
      rfl

theorem some_of_collect {body : PciFunc → Option (List PciEvent)} {funcs : List PciFunc}
    (ends : (collect body funcs).isSome = true) : ∀ f ∈ funcs, (body f).isSome = true := by
  induction funcs with
  | nil => nofun
  | cons f rest inductionHypothesis =>
      rw [collect] at ends
      cases first : body f with
      | none =>
          rw [first] at ends
          cases ends
      | some events =>
          rw [first, Option.bind_some, Option.isSome_map] at ends
          intro g member
          rcases List.mem_cons.mp member with rfl | later
          · rw [first]
            rfl
          · exact inductionHypothesis ends g later

/-- The events of `pci_attach`, given those of the scan behind a bridge. -/
def attachEvents (config : Config) (scan : BitVec 32 → Option (List PciEvent)) (f : PciFunc) :
    Option (List PciEvent) :=
  match leads config f with
  | some busno => scan busno
  | none => some (if f.E1000 then [.e1000 f] else [])

theorem pciAttach_events (scanBus : BitVec 32 → Scan Nat) (f : PciFunc) :
    (pciAttach config scanBus f).events? =
      attachEvents config (fun busno => (scanBus busno).events?) f := by
  have card : (do
      let r ← pciAttachMatch (pciVendor f.devId) (pciProduct f.devId) pciAttachVendor f
      return r ≠ 0 : Scan Bool).events? = some (if f.E1000 then [.e1000 f] else []) := by
    by_cases ids : f.E1000
    · have keys : e1000Vendor = pciVendor f.devId ∧ e1000Device = pciProduct f.devId :=
        ⟨ids.1.symm, ids.2.symm⟩
      simp only [pciAttachVendor, pciAttachMatch, if_pos keys, if_pos ids]
      rfl
    · have keys : ¬(e1000Vendor = pciVendor f.devId ∧ e1000Device = pciProduct f.devId) :=
        fun keys => ids ⟨keys.1.symm, keys.2.symm⟩
      simp only [pciAttachVendor, pciAttachMatch, if_neg keys, if_neg ids]
      rfl
  unfold pciAttach
  by_cases bridge : f.Bridge
  · have keys : pciClassBridge = pciClass f.devClass ∧
        pciSubclassBridgePci = pciSubclass f.devClass := ⟨bridge.1.symm, bridge.2.symm⟩
    simp only [pciAttachClass, pciAttachMatch, if_pos keys]
    cases io : pciBridgeIo32bits (pciConfRead config f pciBridgeStatioReg) with
    | true =>
        have away : leads config f = none := by
          rw [leads, if_neg]
          rintro ⟨-, narrow⟩
          rw [io] at narrow
          cases narrow
        rw [attachEvents, away]
        simp only [pciBridgeAttach, io, if_pos, Scan.pure_bind, ite_self, ne_eq,
          not_true_eq_false, if_false]
        exact card
    | false =>
        have through : leads config f =
            some (secondary (pciConfRead config f pciBridgeBusReg)) := if_pos ⟨bridge, io⟩
        rw [attachEvents, through]
        simp only [pciBridgeAttach, io, Bool.false_eq_true, if_false, Scan.bind_assoc,
          Scan.pure_bind]
        exact Scan.events?_map _ fun _ => true
  · have keys : ¬(pciClassBridge = pciClass f.devClass ∧
        pciSubclassBridgePci = pciSubclass f.devClass) :=
      fun keys => bridge ⟨keys.1.symm, keys.2.symm⟩
    have away : leads config f = none := by
      rw [leads, if_neg]
      rintro ⟨is, -⟩
      exact bridge is
    rw [attachEvents, away]
    simp only [pciAttachClass, pciAttachMatch, if_neg keys, Scan.pure_bind]
    exact card

/-- The events of one function in the loops of the scan. -/
def visitEvents (attach : PciFunc → Scan Bool) (f : PciFunc) : Option (List PciEvent) :=
  (attach f).events?.map (.attach f :: ·)

theorem scanFuncs_events (attach : PciFunc → Scan Bool) (busno : BitVec 32) (dev : Nat)
    (funcs : List Nat) : (scanFuncs config attach busno dev funcs).events? =
      collect (visitEvents attach) (deviceFuncs config busno dev funcs) := by
  induction funcs with
  | nil => rfl
  | cons func rest inductionHypothesis =>
      rw [scanFuncs, deviceFuncs, List.map_cons, List.filter_cons]
      by_cases vendor : pciVendor (pciFunc config busno dev func).devId = 0xffff
      · simp only [vendor, if_true, ne_eq, not_true_eq_false, decide_false, Bool.false_eq_true,
          if_false]
        exact inductionHypothesis
      · simp only [vendor, if_false, ne_eq, not_false_eq_true, decide_true, if_true, collect,
          visitEvents]
        rw [Scan.events?_bind, Scan.events?_bind, inductionHypothesis]
        change ((attach _).events?.bind _).map _ = _
        cases (attach (pciFunc config busno dev func)).events? with
        | none => rfl
        | some first =>
            change ((collect (visitEvents attach) (deviceFuncs config busno dev rest)).map _).map _ =
              (collect (visitEvents attach) (deviceFuncs config busno dev rest)).map _
            cases collect (visitEvents attach) (deviceFuncs config busno dev rest) with
            | none => rfl
            | some later => rfl

theorem scanDevs_events (attach : PciFunc → Scan Bool) (busno : BitVec 32) (devs : List Nat) :
    (scanDevs config attach busno devs).events? =
      collect (visitEvents attach) (busFuncs config busno devs) := by
  induction devs with
  | nil => rfl
  | cons dev rest inductionHypothesis =>
      rw [scanDevs, busFuncs, List.flatMap_cons]
      by_cases unknown : pciHdrtypeType (config busno dev 0 pciBhlcReg) > 1
      · simp only [unknown, if_true, List.nil_append]
        exact inductionHypothesis
      · simp only [unknown, if_false]
        rw [collect_append, Scan.events?_bind, Scan.events?_map, scanFuncs_events,
          inductionHypothesis]
        rfl

/-- The events of the scan of a bus. -/
def scanEvents (config : Config) (depth : Nat) (busno : BitVec 32) : Option (List PciEvent) :=
  (pciScanBus config depth busno).events?

/-- The events of one function on a bus, when the scan behind it has those given. -/
def funcEvents (config : Config) (scan : BitVec 32 → Option (List PciEvent)) (f : PciFunc) :
    Option (List PciEvent) :=
  (attachEvents config scan f).map (.attach f :: ·)

theorem scanEvents_succ (depth : Nat) (busno : BitVec 32) :
    scanEvents config (depth + 1) busno =
      collect (funcEvents config (scanEvents config depth)) (present config busno) := by
  have same : visitEvents (pciAttach config (pciScanBus config depth)) =
      funcEvents config (scanEvents config depth) := by
    funext f
    rw [visitEvents, pciAttach_events]
    rfl
  rw [scanEvents, pciScanBus, scanDevs_events, same]
  rfl

/-! ## When the scan returns -/

/-- The scan of a bus goes on with another one. -/
def Leads (config : Config) (busno next : BitVec 32) : Prop :=
  ∃ f ∈ present config busno, leads config f = some next

theorem isSome_funcEvents {scan : BitVec 32 → Option (List PciEvent)} {f : PciFunc} :
    (funcEvents config scan f).isSome = true ↔
      ∀ next, leads config f = some next → (scan next).isSome = true := by
  rw [funcEvents, Option.isSome_map, attachEvents]
  cases leads config f with
  | none => simp
  | some next => simp

theorem isSome_scanEvents_succ {depth : Nat} {busno : BitVec 32} :
    (scanEvents config (depth + 1) busno).isSome = true ↔
      ∀ next, Leads config busno next → (scanEvents config depth next).isSome = true := by
  rw [scanEvents_succ]
  constructor
  · rintro ends next ⟨f, member, goes⟩
    exact isSome_funcEvents.mp (some_of_collect ends f member) next goes
  · intro ends
    have all : ∀ f ∈ present config busno,
        (funcEvents config (scanEvents config depth) f).isSome = true :=
      fun f member => isSome_funcEvents.mpr fun next goes => ends next ⟨f, member, goes⟩
    rw [collect_of_some all]
    rfl

/-- More depth does no harm. -/
theorem isSome_scanEvents_mono {depth : Nat} {busno : BitVec 32}
    (ends : (scanEvents config depth busno).isSome = true) :
    (scanEvents config (depth + 1) busno).isSome = true := by
  induction depth generalizing busno with
  | zero => cases ends
  | succ depth inductionHypothesis =>
      rw [isSome_scanEvents_succ] at ends ⊢
      exact fun next goes => inductionHypothesis (ends next goes)

theorem isSome_scanEvents_le {depth later : Nat} {busno : BitVec 32} (le : depth ≤ later)
    (ends : (scanEvents config depth busno).isSome = true) :
    (scanEvents config later busno).isSome = true := by
  induction le with
  | refl => exact ends
  | step _ inductionHypothesis => exact isSome_scanEvents_mono inductionHypothesis

theorem Leads.mem_next {busno next : BitVec 32} (goes : Leads config busno next) :
    next ∈ (present config busno).filterMap (leads config) :=
  List.mem_filterMap.mpr goes

theorem returns_iff_acc {busno : BitVec 32} :
    (∃ depth, (scanEvents config depth busno).isSome = true) ↔
      Acc (fun next busno => Leads config busno next) busno := by
  constructor
  · rintro ⟨depth, ends⟩
    induction depth generalizing busno with
    | zero => cases ends
    | succ depth inductionHypothesis =>
        rw [isSome_scanEvents_succ] at ends
        exact ⟨busno, fun next goes => inductionHypothesis (ends next goes)⟩
  · intro accessible
    induction accessible with
    | intro busno _ inductionHypothesis =>
        -- One depth is enough for all the buses behind this one.
        have enough : ∀ nexts : List (BitVec 32), (∀ next ∈ nexts, Leads config busno next) →
            ∃ depth, ∀ next ∈ nexts, (scanEvents config depth next).isSome = true := by
          intro nexts
          induction nexts with
          | nil => exact fun _ => ⟨0, nofun⟩
          | cons next rest others =>
              intro all
              rcases inductionHypothesis next (all next List.mem_cons_self) with ⟨first, ends⟩
              rcases others fun later member => all later (List.mem_cons_of_mem next member) with
                ⟨second, end'⟩
              refine ⟨max first second, fun later member => ?_⟩
              rcases List.mem_cons.mp member with rfl | member
              · exact isSome_scanEvents_le (le_max_left first second) ends
              · exact isSome_scanEvents_le (le_max_right first second) (end' later member)
        rcases enough ((present config busno).filterMap (leads config))
          (fun next member => List.mem_filterMap.mp member) with ⟨depth, ends⟩
        exact ⟨depth + 1, isSome_scanEvents_succ.mpr fun next goes => ends next goes.mem_next⟩

theorem finite_busno : Finite (BitVec 32) :=
  Finite.of_injective BitVec.toFin fun _ _ => BitVec.eq_of_toFin_eq

theorem returns_iff_acyclic {busno : BitVec 32} :
    (∃ depth, (scanEvents config depth busno).isSome = true) ↔
      Acyclic (Leads config) busno :=
  haveI := finite_busno
  returns_iff_acc.trans ⟨acyclic_of_acc, fun acyclic => acyclic.acc⟩

/-- `pci_init` returns exactly on the machines where no bus that is reached from bus
0 lies on a cycle of bridges. -/
theorem pciInit_returns_iff (config : Config) :
    (∃ depth total events, pciInit config depth = some (total, events)) ↔
      Acyclic (Leads config) 0 := by
  rw [← returns_iff_acyclic]
  constructor
  · rintro ⟨depth, total, events, ends⟩
    refine ⟨depth, ?_⟩
    rw [scanEvents, Scan.isSome_events?, show pciScanBus config depth 0 = _ from ends]
    rfl
  · rintro ⟨depth, ends⟩
    rw [scanEvents, Scan.isSome_events?] at ends
    rcases Option.isSome_iff_exists.mp ends with ⟨⟨total, events⟩, same⟩
    exact ⟨depth, total, events, same⟩

/-- One bridge on bus 0, whose secondary bus number is still 0. -/
def unconfigured : Config := fun busno dev func offset =>
  if busno = 0 ∧ dev = 0 ∧ func = 0 then
    if offset = pciClassReg then 0x06040000
    else if offset = pciBhlcReg then 0x00010000
    else if offset = pciIdReg then 0x12378086
    else 0
  else 0xffffffff

/-- The scan of bus 0 finds the bridge and scans bus 0 again, without end. -/
theorem pciInit_unconfigured :
    ¬∃ depth total events, pciInit unconfigured depth = some (total, events) := by
  have goes : Leads unconfigured 0 0 := by
    refine ⟨pciFunc unconfigured 0 0 0, mem_present.mpr ⟨0, 0, ?_, rfl⟩, ?_⟩
    · exact ⟨by decide, by decide, by decide, by decide⟩
    · decide
  rintro ⟨depth, total, events, ends⟩
  have acyclic : Acyclic (Leads unconfigured) 0 := by
    refine returns_iff_acyclic.mp ⟨depth, ?_⟩
    rw [scanEvents, Scan.isSome_events?, show pciScanBus unconfigured depth 0 = _ from ends]
    rfl
  exact acyclic 0 ReflTransGen.refl (TransGen.single goes)

/-! ## A tree of bridges -/

/-- A function on bus 0 or behind an attached bridge. -/
inductive Attached (config : Config) : BitVec 32 → Nat → Nat → Prop where
  | root {dev func : Nat} (here : Present config 0 dev func) : Attached config 0 dev func
  | behind {busno : BitVec 32} {dev func child below : Nat} (up : Attached config busno dev func)
      (bridge : (pciFunc config busno dev func).Bridge)
      (here : Present config
        (secondary (pciConfRead config (pciFunc config busno dev func) pciBridgeBusReg)) child below) :
      Attached config
        (secondary (pciConfRead config (pciFunc config busno dev func) pciBridgeBusReg)) child below

/-- Every attached bridge has a bus behind it that is not bus 0 and not behind
another bridge, and no 32-bit I/O. -/
structure TreeOfBridges (config : Config) : Prop where
  io : ∀ busno dev func, Attached config busno dev func → (pciFunc config busno dev func).Bridge →
    pciBridgeIo32bits (config busno dev func pciBridgeStatioReg) = false
  root : ∀ busno dev func, Attached config busno dev func → (pciFunc config busno dev func).Bridge →
    secondary (config busno dev func pciBridgeBusReg) ≠ 0
  once : ∀ busno dev func other child below, Attached config busno dev func →
    (pciFunc config busno dev func).Bridge → Attached config other child below →
    (pciFunc config other child below).Bridge →
    secondary (config busno dev func pciBridgeBusReg) =
      secondary (config other child below pciBridgeBusReg) →
    busno = other ∧ dev = child ∧ func = below

theorem Attached.present {busno : BitVec 32} {dev func : Nat}
    (attached : Attached config busno dev func) : Present config busno dev func := by
  cases attached with
  | root here => exact here
  | behind up bridge here => exact here

/-- The buses of attached functions are those that the scan reaches. -/
theorem attached_iff (tree : TreeOfBridges config) {busno : BitVec 32} {dev func : Nat} :
    Attached config busno dev func ↔
      ReflTransGen (Leads config) 0 busno ∧ Present config busno dev func := by
  constructor
  · intro attached
    refine ⟨?_, attached.present⟩
    induction attached with
    | root here => exact ReflTransGen.refl
    | @behind busno dev func child below up bridge here inductionHypothesis =>
        refine inductionHypothesis.tail ⟨pciFunc config busno dev func,
          mem_present.mpr ⟨dev, func, up.present, rfl⟩, ?_⟩
        exact if_pos ⟨bridge, tree.io busno dev func up bridge⟩
  · rintro ⟨path, here⟩
    induction path generalizing dev func with
    | refl => exact .root here
    | @tail parent child _ edge inductionHypothesis =>
        rcases edge with ⟨f, member, goes⟩
        rcases mem_present.mp member with ⟨dev', func', there, rfl⟩
        rw [leads] at goes
        split at goes
        · rename_i bridge
          cases goes
          exact .behind (inductionHypothesis there) bridge.1 here
        · cases goes

theorem leads_eq_some {f : PciFunc} {next : BitVec 32} (goes : leads config f = some next) :
    f.Bridge ∧ secondary (pciConfRead config f pciBridgeBusReg) = next := by
  rw [leads] at goes
  split at goes
  · rename_i bridge
    cases goes
    exact ⟨bridge.1, rfl⟩
  · cases goes

/-- Two functions that lead to the same bus are the same. -/
theorem TreeOfBridges.func_eq (tree : TreeOfBridges config) {first second next : BitVec 32}
    {f g : PciFunc} (one : ReflTransGen (Leads config) 0 first) (former : f ∈ present config first)
    (goes : leads config f = some next) (other : ReflTransGen (Leads config) 0 second)
    (latter : g ∈ present config second) (goes' : leads config g = some next) : f = g := by
  rcases mem_present.mp former with ⟨dev, func, here, rfl⟩
  rcases mem_present.mp latter with ⟨child, below, there, rfl⟩
  rcases leads_eq_some goes with ⟨bridge, rfl⟩
  rcases leads_eq_some goes' with ⟨bridge', same⟩
  rcases tree.once first dev func second child below ((attached_iff tree).mpr ⟨one, here⟩) bridge
    ((attached_iff tree).mpr ⟨other, there⟩) bridge' same.symm with ⟨rfl, rfl, rfl⟩
  rfl

theorem busno_of_mem {busno : BitVec 32} {f : PciFunc} (member : f ∈ present config busno) :
    f.busno = busno := by
  rcases mem_present.mp member with ⟨dev, func, -, rfl⟩
  rfl

theorem TreeOfBridges.tree (tree : TreeOfBridges config) : Tree (Leads config) 0 where
  top busno path := by
    rintro ⟨f, member, goes⟩
    rcases mem_present.mp member with ⟨dev, func, here, rfl⟩
    rcases leads_eq_some goes with ⟨bridge, zero⟩
    exact tree.root busno dev func ((attached_iff tree).mpr ⟨path, here⟩) bridge zero
  once first second next one other := by
    rintro ⟨f, former, goes⟩ ⟨g, latter, goes'⟩
    have same := tree.func_eq one former goes other latter goes'
    subst same
    exact (busno_of_mem former).symm.trans (busno_of_mem latter)

/-! ## The events of a scan that returns -/

/-- The function that an event is about. -/
def PciEvent.source : PciEvent → PciFunc
  | .attach f | .e1000 f => f

/-- The event belongs to a function of the bus: it is attached, and if it is a
network card and no way to another bus, `e1000_attach` is called. -/
def Happens (config : Config) (busno : BitVec 32) (event : PciEvent) : Prop :=
  event.source ∈ present config busno ∧
    (event = .attach event.source ∨ leads config event.source = none ∧ event.source.E1000)

theorem scanEvents_flatMap {depth : Nat} {busno : BitVec 32} {events : List PciEvent}
    (ends : scanEvents config (depth + 1) busno = some events) :
    (∀ f ∈ present config busno, ∃ rest, attachEvents config (scanEvents config depth) f = some rest ∧
      (funcEvents config (scanEvents config depth) f).getD [] = .attach f :: rest) ∧
    events = (present config busno).flatMap fun f =>
      (funcEvents config (scanEvents config depth) f).getD [] := by
  rw [scanEvents_succ] at ends
  have all := some_of_collect (by rw [ends]; rfl)
  constructor
  · intro f member
    have some := all f member
    rw [funcEvents, Option.isSome_map] at some
    rcases Option.isSome_iff_exists.mp some with ⟨rest, same⟩
    exact ⟨rest, same, by rw [funcEvents, same]; rfl⟩
  · rw [collect_of_some all] at ends
    cases ends
    rfl

/-- The events behind one function: its own, and those of the bus it leads to. -/
theorem mem_attachEvents {scan : BitVec 32 → Option (List PciEvent)} {f : PciFunc}
    {rest : List PciEvent} {event : PciEvent} (ends : attachEvents config scan f = some rest) :
    event ∈ rest ↔ (event = .e1000 f ∧ leads config f = none ∧ f.E1000) ∨
      ∃ next events, leads config f = some next ∧ scan next = some events ∧ event ∈ events := by
  rw [attachEvents] at ends
  cases goes : leads config f with
  | none =>
      rw [goes] at ends
      cases ends
      by_cases card : f.E1000
      · simp [card]
      · simp [card]
  | some next =>
      rw [goes] at ends
      dsimp only at ends
      constructor
      · exact fun member => Or.inr ⟨next, rest, rfl, ends, member⟩
      · rintro (⟨-, away, -⟩ | ⟨other, events, same, scanned, member⟩)
        · cases away
        · cases same
          rw [ends] at scanned
          cases scanned
          exact member

theorem mem_scanEvents {depth : Nat} {busno : BitVec 32} {events : List PciEvent}
    (ends : scanEvents config depth busno = some events) (event : PciEvent) :
    event ∈ events ↔ ∃ later, ReflTransGen (Leads config) busno later ∧
      Happens config later event := by
  induction depth generalizing busno events with
  | zero => cases ends
  | succ depth inductionHypothesis =>
      rcases scanEvents_flatMap ends with ⟨all, rfl⟩
      rw [List.mem_flatMap]
      constructor
      · rintro ⟨f, member, inside⟩
        rcases all f member with ⟨rest, attached, whole⟩
        rw [whole] at inside
        rcases List.mem_cons.mp inside with rfl | behind
        · exact ⟨busno, ReflTransGen.refl, member, Or.inl rfl⟩
        · rcases (mem_attachEvents attached).mp behind with ⟨rfl, away, card⟩ |
            ⟨next, events, goes, scanned, there⟩
          · exact ⟨busno, ReflTransGen.refl, member, Or.inr ⟨away, card⟩⟩
          · rcases (inductionHypothesis scanned).mp there with ⟨later, path, happens⟩
            exact ⟨later, ReflTransGen.head ⟨f, member, goes⟩ path, happens⟩
      · rintro ⟨later, path, happens⟩
        rcases ReflTransGen.cases_head path with rfl | ⟨next, ⟨f, member, goes⟩, path⟩
        · rcases happens with ⟨member, is⟩
          rcases all event.source member with ⟨rest, attached, whole⟩
          refine ⟨event.source, member, ?_⟩
          rw [whole]
          rcases is with same | ⟨away, card⟩
          · rw [same]
            exact List.mem_cons_self
          · cases event with
            | attach f => exact List.mem_cons_self
            | e1000 f =>
                exact List.mem_cons_of_mem _
                  ((mem_attachEvents attached).mpr (Or.inl ⟨rfl, away, card⟩))
        · rcases all f member with ⟨rest, attached, whole⟩
          refine ⟨f, member, ?_⟩
          rw [whole]
          have scanned : scanEvents config depth next = some rest := by
            rw [attachEvents, goes] at attached
            exact attached
          exact List.mem_cons_of_mem _ ((inductionHypothesis scanned).mpr ⟨later, path, happens⟩)

theorem nodup_present (config : Config) (busno : BitVec 32) : (present config busno).Nodup := by
  have device : ∀ dev count, (deviceFuncs config busno dev (List.range count)).Nodup := by
    intro dev count
    refine List.Nodup.filter _ (List.Nodup.map ?_ List.nodup_range)
    intro first second same
    exact congrArg PciFunc.func same
  rw [present, busFuncs, List.nodup_flatMap]
  constructor
  · intro dev _
    split
    · exact List.nodup_nil
    · exact device dev _
  · refine List.nodup_range.imp fun {first second} different => ?_
    refine List.disjoint_left.mpr fun f one other => ?_
    have number : ∀ dev, (f ∈ if pciHdrtypeType (config busno dev 0 pciBhlcReg) > 1 then []
        else deviceFuncs config busno dev
          (List.range (if pciHdrtypeMultifn (config busno dev 0 pciBhlcReg) then 8 else 1))) →
        f.dev = dev := by
      intro dev member
      split at member
      · cases member
      · rcases mem_deviceFuncs.mp member with ⟨func, -, -, rfl⟩
        rfl
    exact different ((number first one).symm.trans (number second other))

/-- In a tree no event happens twice. -/
theorem TreeOfBridges.nodup (tree : TreeOfBridges config) {depth : Nat} {busno : BitVec 32}
    {events : List PciEvent} (path : ReflTransGen (Leads config) 0 busno)
    (ends : scanEvents config depth busno = some events) : events.Nodup := by
  induction depth generalizing busno events with
  | zero => cases ends
  | succ depth inductionHypothesis =>
      rcases scanEvents_flatMap ends with ⟨all, rfl⟩
      -- What happens behind a bridge of this bus is not about a function of this bus.
      have below : ∀ f ∈ present config busno, ∀ next, leads config f = some next →
          ∀ later, ReflTransGen (Leads config) next later → later ≠ busno := by
        rintro f member next goes later around rfl
        exact tree.tree.acyclic _ path (TransGen.head' ⟨f, member, goes⟩ around)
      have source : ∀ f ∈ present config busno, ∀ event rest,
          attachEvents config (scanEvents config depth) f = some rest → event ∈ rest →
          event.source = f ∧ event = .e1000 f ∨ ∃ next, leads config f = some next ∧
            ReflTransGen (Leads config) next event.source.busno ∧
            event.source.busno ≠ busno := by
        intro f member event rest attached inside
        rcases (mem_attachEvents attached).mp inside with ⟨rfl, -, -⟩ |
          ⟨next, events, goes, scanned, there⟩
        · exact Or.inl ⟨rfl, rfl⟩
        · rcases (mem_scanEvents scanned event).mp there with ⟨later, around, happens⟩
          have number : event.source.busno = later := busno_of_mem happens.1
          rw [number]
          exact Or.inr ⟨next, goes, around, below f member next goes later around⟩
      rw [List.nodup_flatMap]
      constructor
      · intro f member
        rcases all f member with ⟨rest, attached, whole⟩
        rw [whole, List.nodup_cons]
        constructor
        · intro inside
          rcases source f member _ rest attached inside with ⟨-, same⟩ | ⟨next, -, -, away⟩
          · cases same
          · exact away (busno_of_mem member)
        · cases goes : leads config f with
          | none =>
              rw [attachEvents, goes] at attached
              cases attached
              split
              · exact List.nodup_singleton _
              · exact List.nodup_nil
          | some next =>
              rw [attachEvents, goes] at attached
              exact inductionHypothesis (path.tail ⟨f, member, goes⟩) attached
      · refine (nodup_present config busno).imp_of_mem fun {f g} one other different => ?_
        refine List.disjoint_left.mpr fun event inFirst inSecond => ?_
        have about : ∀ h ∈ present config busno,
            event ∈ (funcEvents config (scanEvents config depth) h).getD [] →
            event.source = h ∨ ∃ next, leads config h = some next ∧
              ReflTransGen (Leads config) next event.source.busno ∧
              event.source.busno ≠ busno := by
          intro h member inside
          rcases all h member with ⟨rest, attached, whole⟩
          rw [whole] at inside
          rcases List.mem_cons.mp inside with rfl | behind
          · exact Or.inl rfl
          · rcases source h member event rest attached behind with ⟨same, -⟩ | far
            · exact Or.inl same
            · exact Or.inr far
        rcases about f one inFirst with here | ⟨first, goes, around, away⟩
        · rcases about g other inSecond with there | ⟨second, goes, around, away⟩
          · exact different (here.symm.trans there)
          · rw [here] at away
            exact away (busno_of_mem one)
        · rcases about g other inSecond with there | ⟨second, goes', around', -⟩
          · rw [there] at away
            exact away (busno_of_mem other)
          · have same : first = second :=
              tree.tree.child_eq path ⟨f, one, goes⟩ ⟨g, other, goes'⟩ around around'
            subst same
            exact different (tree.func_eq path one goes path other goes')

theorem TreeOfBridges.leads_none (tree : TreeOfBridges config) {busno : BitVec 32} {dev func : Nat}
    (attached : Attached config busno dev func) :
    leads config (pciFunc config busno dev func) = none ↔
      ¬(pciFunc config busno dev func).Bridge := by
  rw [leads]
  constructor
  · intro away bridge
    rw [if_pos ⟨bridge, tree.io busno dev func attached bridge⟩] at away
    cases away
  · intro other
    exact if_neg fun both => other both.1

/-- In a tree of bridges `pci_init` returns; it attaches every function on bus 0 or
behind an attached bridge once, with what was read of it, and no other; and it
calls `e1000_attach` once for each network card among them. -/
theorem pciInit_attaches_once (config : Config) (tree : TreeOfBridges config) :
    ∃ depth total events, pciInit config depth = some (total, events) ∧
      (∀ busno dev func, Attached config busno dev func →
        events.count (.attach (pciFunc config busno dev func)) = 1) ∧
      (∀ f, .attach f ∈ events → ∃ busno dev func, Attached config busno dev func ∧
        f = pciFunc config busno dev func) ∧
      (∀ busno dev func, Attached config busno dev func →
        ¬(pciFunc config busno dev func).Bridge → (pciFunc config busno dev func).E1000 →
        events.count (.e1000 (pciFunc config busno dev func)) = 1) ∧
      ∀ f, .e1000 f ∈ events → ∃ busno dev func, Attached config busno dev func ∧
        ¬f.Bridge ∧ f.E1000 ∧ f = pciFunc config busno dev func := by
  rcases returns_iff_acyclic.mpr tree.tree.acyclic with ⟨depth, ends⟩
  rw [scanEvents, Scan.isSome_events?] at ends
  rcases Option.isSome_iff_exists.mp ends with ⟨⟨total, events⟩, same⟩
  have scanned : scanEvents config depth 0 = some events := by
    rw [scanEvents, same]
    rfl
  have once := tree.nodup ReflTransGen.refl scanned
  have mem := mem_scanEvents scanned
  refine ⟨depth, total, events, same, ?_, ?_, ?_, ?_⟩
  · intro busno dev func attached
    rcases (attached_iff tree).mp attached with ⟨path, here⟩
    exact List.count_eq_one_of_mem once ((mem _).mpr
      ⟨busno, path, mem_present.mpr ⟨dev, func, here, rfl⟩, Or.inl rfl⟩)
  · intro f member
    rcases (mem _).mp member with ⟨busno, path, inside, -⟩
    rcases mem_present.mp inside with ⟨dev, func, here, rfl⟩
    exact ⟨busno, dev, func, (attached_iff tree).mpr ⟨path, here⟩, rfl⟩
  · intro busno dev func attached other card
    rcases (attached_iff tree).mp attached with ⟨path, here⟩
    exact List.count_eq_one_of_mem once ((mem _).mpr
      ⟨busno, path, mem_present.mpr ⟨dev, func, here, rfl⟩,
        Or.inr ⟨(tree.leads_none attached).mpr other, card⟩⟩)
  · intro f member
    rcases (mem _).mp member with ⟨busno, path, inside, same | ⟨away, card⟩⟩
    · cases same
    · rcases mem_present.mp inside with ⟨dev, func, here, source⟩
      have attached : Attached config busno dev func := (attached_iff tree).mpr ⟨path, here⟩
      rw [source] at away
      have is : f = pciFunc config busno dev func := source
      refine ⟨busno, dev, func, attached, ?_, card, is⟩
      rw [is]
      exact (tree.leads_none attached).mp away

/-- A bridge on bus 0 and a network card behind it, on bus 1. -/
def cardBehindBridge : Config := fun busno dev func offset =>
  if dev = 0 ∧ func = 0 then
    if busno = 0 then
      if offset = pciClassReg then 0x06040000
      else if offset = pciBhlcReg then 0x00010000
      else if offset = pciIdReg then 0x12378086
      else if offset = pciBridgeBusReg then 0x00010100
      else 0
    else if busno = 1 then
      if offset = pciClassReg then 0x02000000
      else if offset = pciIdReg then 0x100e8086
      else if offset = pciInterruptReg then 0x0b
      else 0
    else 0xffffffff
  else 0xffffffff

theorem pciInit_attaches_once_behind : ∃ depth total events,
    pciInit cardBehindBridge depth = some (total, events) ∧
    events.count (.e1000 (pciFunc cardBehindBridge 1 0 0)) = 1 := by
  have only : ∀ busno dev func, (pciFunc cardBehindBridge busno dev func).Bridge →
      busno = 0 ∧ dev = 0 ∧ func = 0 := by
    intro busno dev func bridge
    have key := bridge.1
    rw [show (pciFunc cardBehindBridge busno dev func).devClass =
      cardBehindBridge busno dev func pciClassReg from rfl] at key
    unfold cardBehindBridge at key
    split at key
    · rename_i first
      split at key
      · rename_i root
        exact ⟨root, first⟩
      · split at key
        · exact absurd key (by decide)
        · exact absurd key (by decide)
    · exact absurd key (by decide)
  have tree : TreeOfBridges cardBehindBridge := by
    refine ⟨?_, ?_, ?_⟩
    · intro busno dev func _ bridge
      rcases only busno dev func bridge with ⟨rfl, rfl, rfl⟩
      decide
    · intro busno dev func _ bridge
      rcases only busno dev func bridge with ⟨rfl, rfl, rfl⟩
      decide
    · intro busno dev func other child below _ bridge _ bridge' _
      rcases only busno dev func bridge with ⟨rfl, rfl, rfl⟩
      rcases only other child below bridge' with ⟨rfl, rfl, rfl⟩
      exact ⟨rfl, rfl, rfl⟩
  have root : Attached cardBehindBridge 0 0 0 :=
    .root ⟨by decide, by decide, by decide, by decide⟩
  have card : Attached cardBehindBridge 1 0 0 :=
    .behind root (by decide) ⟨by decide, by decide, by decide, by decide⟩
  rcases pciInit_attaches_once cardBehindBridge tree with ⟨depth, total, events, ends, -, -, cards, -⟩
  exact ⟨depth, total, events, ends, cards 1 0 0 card (by decide) (by decide)⟩

end Xv6.Pci
