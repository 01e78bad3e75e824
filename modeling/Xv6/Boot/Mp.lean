import Mathlib.Data.UInt
import Xv6.Library.Action
import Xv6.Library.LittleEndian
import Xv6.Vm.Layout

/-!
# The MP configuration table

`mp.c`: `mpinit` finds the table that the firmware left in memory and walks over its
entries. At an entry of an unknown type the `break` leaves the `switch`, not the
loop, and the cursor stays where it is.
-/

namespace Xv6.Mp

open Xv6.Library Xv6.Vm

/-! ## The functions -/

/-- `NCPU` -/
def ncpuMax : Nat := 8

/-- The memory by kernel addresses, and what `mpinit` sets; `cpus` are the APIC ids of the
first `ncpu` processors. The port 0x23 gives `imcr`, and `ports` is what was written. -/
structure Kernel where
  memory : Memory
  lapic : UInt32
  cpus : List UInt8
  ioapicid : UInt8
  imcr : UInt8
  ports : List (UInt16 × UInt8)

def mpproc : UInt8 := 0
def mpbus : UInt8 := 1
def mpioapic : UInt8 := 2
def mpiointr : UInt8 := 3
def mplintr : UInt8 := 4

def sum (memory : Memory) (addr : UInt32) (len : Nat) : UInt8 :=
  (memory.read addr.toNat len).sum

def word (memory : Memory) (addr : UInt32) : UInt32 :=
  UInt32.ofNat (memory.load addr.toNat 4)

/-- The loop of `mpsearch1`, with `count` places left. -/
def searchFrom (memory : Memory) : Nat → UInt32 → Option UInt32
  | 0, _ => none
  | count + 1, p =>
      if memory.read p.toNat 4 = [0x5F, 0x4D, 0x50, 0x5F] ∧ sum memory p 16 = 0 then some p
      else searchFrom memory count (p + 16)

/-- Look for an MP structure in the `len` bytes at `a`. -/
def mpsearch1 (memory : Memory) (a : UInt32) (len : Nat) : Option UInt32 :=
  searchFrom memory (len / 16) (p2v a)

/-- Search for the MP floating pointer structure in the EBDA or the last KB of system
base memory, and then in the BIOS ROM. -/
def mpsearch (memory : Memory) : Option UInt32 :=
  let bda (i : UInt32) : UInt32 := (memory (p2v 0x400 + i).toNat).toUInt32
  let p := ((bda 0x0F <<< 8) ||| bda 0x0E) <<< 4
  let first :=
    if p ≠ 0 then mpsearch1 memory p 1024
    else mpsearch1 memory (((bda 0x14 <<< 8) ||| bda 0x13) * 1024 - 1024) 1024
  first <|> mpsearch1 memory 0xF0000 0x10000

/-- `conf->length` -/
def tableLength (memory : Memory) (conf : UInt32) : Nat := memory.load (conf + 4).toNat 2

/-- The floating pointer structure, and a table with the right signature, version and checksum. -/
def mpconfig (memory : Memory) : Option (UInt32 × UInt32) :=
  match mpsearch memory with
  | none => none
  | some mp =>
      let physaddr := word memory (mp + 4)
      if physaddr = 0 then none
      else
        let conf := p2v physaddr
        let version := memory (conf + 6).toNat
        if memory.read conf.toNat 4 ≠ [0x50, 0x43, 0x4D, 0x50] then none
        else if version ≠ 1 ∧ version ≠ 4 then none
        else if sum memory conf (tableLength memory conf) ≠ 0 then none
        else some (mp, conf)

/-- `sizeof(struct mpproc)` -/
def mpprocSize : UInt32 := 20

/-- `sizeof(struct mpioapic)`, and what the cursor moves by for the other entries -/
def mpioapicSize : UInt32 := 8

/-- A processor. -/
def addCpu (p : UInt32) (k : Kernel) : Kernel :=
  if k.cpus.length < ncpuMax then { k with cpus := k.cpus ++ [k.memory (p + 1).toNat] } else k

def setIoapic (p : UInt32) (k : Kernel) : Kernel :=
  { k with ioapicid := k.memory (p + 1).toNat }

/-- The loop over the entries up to `e`; it returns `ismp`. -/
def mpFrom (e : UInt32) : Nat → UInt32 → Bool → Action Kernel Bool
  | 0, _, _ => Action.never
  | fuel + 1, p, ismp =>
      if p < e then do
        let type ← Action.get fun k : Kernel => k.memory p.toNat
        if type = mpproc then
          Action.modify (addCpu p)
          mpFrom e fuel (p + mpprocSize) ismp
        else if type = mpioapic then
          Action.modify (setIoapic p)
          mpFrom e fuel (p + mpioapicSize) ismp
        else if type = mpbus ∨ type = mpiointr ∨ type = mplintr then
          mpFrom e fuel (p + mpioapicSize) ismp
        else
          -- `break` leaves the `switch` only, and `p` is the same at the next turn
          mpFrom e fuel p false
      else return ismp

/-- `sizeof(struct mpconf)` -/
def mpconfSize : UInt32 := 44

/-- The loop gets `fuel` turns. -/
def mpinit (fuel : Nat) : Action Kernel Unit := do
  let found ← Action.get fun k : Kernel => mpconfig k.memory
  match found with
  | none => Action.panic "Expect to run on an SMP"
  | some (mp, conf) =>
      Action.modify fun k => { k with lapic := word k.memory (conf + 36) }
      let length ← Action.get fun k : Kernel => tableLength k.memory conf
      let ismp ← mpFrom (conf + UInt32.ofNat length) fuel (conf + mpconfSize) true
      if ismp = false then Action.panic "Didn't find a suitable machine"
      else
        let imcrp ← Action.get fun k : Kernel => k.memory (mp + 12).toNat
        Action.ifThen (imcrp ≠ 0)
          (Action.modify fun k => { k with
            ports := k.ports ++ [(0x22, 0x70), (0x23, k.imcr ||| 1)] })

/-! ## The walk over the entries -/

/-- How far the cursor moves, nothing for an unknown type. -/
def width (type : UInt8) : Option UInt32 :=
  if type = mpproc then some mpprocSize
  else if type = mpbus ∨ type = mpioapic ∨ type = mpiointr ∨ type = mplintr then some mpioapicSize
  else none

theorem width_known (type : UInt8) : width type ≠ none ↔ type ≤ mplintr := by
  have all : ∀ i : Fin 256, width (UInt8.ofNat i) ≠ none ↔ UInt8.ofNat i ≤ mplintr := by
    decide +kernel
  have here := all ⟨type.toNat, type.toNat_lt⟩
  rwa [UInt8.ofNat_toNat] at here

/-- The cursor comes from `p` to `q`. -/
inductive Meets (memory : Memory) (e : UInt32) : UInt32 → UInt32 → Prop
  | here (p : UInt32) : Meets memory e p p
  | later {p q w : UInt32} (inside : p < e) (known : width (memory p.toNat) = some w)
      (rest : Meets memory e (p + w) q) : Meets memory e p q

/-- The entries from `p` to the end of the table. -/
inductive Walk (memory : Memory) (e : UInt32) : UInt32 → List UInt32 → Prop
  | stop {p : UInt32} (past : ¬p < e) : Walk memory e p []
  | entry {p w : UInt32} {rest : List UInt32} (inside : p < e)
      (known : width (memory p.toNat) = some w) (walk : Walk memory e (p + w) rest) :
      Walk memory e p (p :: rest)

/-- What is done for the entry at `p`. -/
def process (k : Kernel) (p : UInt32) : Kernel :=
  if k.memory p.toNat = mpproc then addCpu p k
  else if k.memory p.toNat = mpioapic then setIoapic p k
  else k

theorem process_memory (k : Kernel) (p : UInt32) : (process k p).memory = k.memory := by
  unfold process addCpu setIoapic
  split
  · split
    · rfl
    · rfl
  · split
    · rfl
    · rfl

variable {k : Kernel} {e p : UInt32}

/-- One turn at an entry of a known type. -/
theorem mpFrom_known {w : UInt32} (inside : p < e) (known : width (k.memory p.toNat) = some w)
    (fuel : Nat) (ismp : Bool) :
    mpFrom e (fuel + 1) p ismp k = mpFrom e fuel (p + w) ismp (process k p) := by
  rw [mpFrom, if_pos inside, Action.get_bind, process]
  rw [width] at known
  by_cases proc : k.memory p.toNat = mpproc
  · rw [if_pos proc] at known
    cases known
    rw [if_pos proc, if_pos proc, Action.modify_bind]
  · rw [if_neg proc] at known
    rw [if_neg proc, if_neg proc]
    by_cases ioapic : k.memory p.toNat = mpioapic
    · rw [if_pos (Or.inr (Or.inl ioapic))] at known
      cases known
      rw [if_pos ioapic, if_pos ioapic, Action.modify_bind]
    · rw [if_neg ioapic, if_neg ioapic]
      by_cases other : k.memory p.toNat = mpbus ∨ k.memory p.toNat = mpiointr ∨
          k.memory p.toNat = mplintr
      · rw [if_pos (by tauto)] at known
        cases known
        rw [if_pos other]
      · rw [if_neg (by tauto)] at known
        cases known

/-- At an unknown type the loop does not go on. -/
theorem mpFrom_unknown (inside : p < e) (unknown : width (k.memory p.toNat) = none) (fuel : Nat)
    (ismp : Bool) : mpFrom e fuel p ismp k = .blocked := by
  induction fuel generalizing ismp with
  | zero => rfl
  | succ fuel inductionHypothesis =>
      rw [width] at unknown
      have proc : k.memory p.toNat ≠ mpproc := by
        intro same
        rw [if_pos same] at unknown
        cases unknown
      rw [if_neg proc] at unknown
      have others : ¬(k.memory p.toNat = mpbus ∨ k.memory p.toNat = mpioapic ∨
          k.memory p.toNat = mpiointr ∨ k.memory p.toNat = mplintr) := by
        intro same
        rw [if_pos same] at unknown
        cases unknown
      rw [mpFrom, if_pos inside, Action.get_bind, if_neg proc, if_neg (by tauto),
        if_neg (by tauto)]
      exact inductionHypothesis false

theorem mpFrom_meets {memory : Memory} {start : UInt32} (meets : Meets memory e start p)
    (inside : p < e) (unknown : width (memory p.toNat) = none) {k : Kernel}
    (same : k.memory = memory) (fuel : Nat) (ismp : Bool) :
    mpFrom e fuel start ismp k = .blocked := by
  subst same
  generalize kept : k.memory = memory at meets unknown
  induction meets generalizing k fuel with
  | here p => exact mpFrom_unknown inside (kept ▸ unknown) fuel ismp
  | later here known rest inductionHypothesis =>
      cases fuel with
      | zero => rfl
      | succ fuel =>
          rw [mpFrom_known here (kept ▸ known)]
          exact inductionHypothesis inside fuel ((process_memory _ _).trans kept) unknown

theorem mpFrom_walk {memory : Memory} {entries : List UInt32} (walk : Walk memory e p entries)
    {k : Kernel} (same : k.memory = memory) {fuel : Nat} (enough : entries.length < fuel)
    (ismp : Bool) : mpFrom e fuel p ismp k = .done ismp (entries.foldl process k) := by
  induction walk generalizing k fuel with
  | stop past =>
      cases fuel with
      | zero => cases enough
      | succ fuel =>
          rw [mpFrom, if_neg past]
          rfl
  | entry inside known walk inductionHypothesis =>
      cases fuel with
      | zero => cases enough
      | succ fuel =>
          rw [mpFrom_known inside (same ▸ known)]
          exact inductionHypothesis ((process_memory _ _).trans same)
            (Nat.lt_of_succ_lt_succ enough)

/-! ## Every table -/

/-- The end of the table. -/
def tableEnd (memory : Memory) (conf : UInt32) : UInt32 :=
  conf + UInt32.ofNat (tableLength memory conf)

/-- What `mpinit` does after the loop. -/
def finish (mp : UInt32) (k : Kernel) : Kernel :=
  if k.memory (mp + 12).toNat ≠ 0 then
    { k with ports := k.ports ++ [(0x22, 0x70), (0x23, k.imcr ||| 1)] }
  else k

/-- The kernel with the address of the local APIC. -/
def setLapic (conf : UInt32) (k : Kernel) : Kernel :=
  { k with lapic := word k.memory (conf + 36) }

/-- The loop comes to the end of the table, every entry of it processed, or to an entry of an
unknown type, at which `mpinit` panics. -/
def Handled (mp conf : UInt32) (k : Kernel) (outcome : Outcome Kernel Unit) : Prop :=
  (∃ entries, Walk k.memory (tableEnd k.memory conf) (conf + mpconfSize) entries ∧
    outcome = .done () (finish mp (entries.foldl process (setLapic conf k)))) ∨
  (∃ p, Meets k.memory (tableEnd k.memory conf) (conf + mpconfSize) p ∧
    p < tableEnd k.memory conf ∧ mplintr < k.memory p.toNat ∧
    outcome = .panic "Didn't find a suitable machine")

theorem Walk.known {memory : Memory} {entries : List UInt32} {start : UInt32}
    (walk : Walk memory e start entries) (meets : Meets memory e start p) (inside : p < e) :
    memory p.toNat ≤ mplintr := by
  induction walk with
  | stop past =>
      cases meets with
      | here => exact absurd inside past
      | later early _ _ => exact absurd early past
  | entry early known walk inductionHypothesis =>
      cases meets with
      | here =>
          apply (width_known _).mp
          rw [known]
          exact Option.some_ne_none _
      | later _ same rest =>
          cases known.symm.trans same
          exact inductionHypothesis rest

/-- No entry has an unknown type. -/
def AllKnown (memory : Memory) (conf : UInt32) : Prop :=
  ∀ p, Meets memory (tableEnd memory conf) (conf + mpconfSize) p → p < tableEnd memory conf →
    memory p.toNat ≤ mplintr

theorem width_positive {type : UInt8} {w : UInt32} (known : width type = some w) :
    8 ≤ w.toNat ∧ w.toNat ≤ 20 := by
  rw [width] at known
  split at known
  · cases known
    decide
  · split at known
    · cases known
      decide
    · cases known

/-- Each known entry moves the cursor on. -/
theorem exists_walk {memory : Memory} (low : e.toNat ≤ 4294967276)
    (all : ∀ q, Meets memory e p q → q < e → memory q.toNat ≤ mplintr) :
    ∃ entries, Walk memory e p entries := by
  induction left : e.toNat - p.toNat using Nat.strongRecOn generalizing p with
  | _ left inductionHypothesis =>
      by_cases inside : p < e
      · obtain ⟨w, known⟩ := Option.ne_none_iff_exists'.mp
          ((width_known _).mpr (all p (.here p) inside))
        have moves := width_positive known
        have order := UInt32.lt_iff_toNat_lt.mp inside
        have next : (p + w).toNat = p.toNat + w.toNat := by
          rw [UInt32.toNat_add]
          omega
        obtain ⟨rest, walk⟩ := inductionHypothesis (e.toNat - (p + w).toNat) (by omega)
          (fun q meets => all q (.later inside known meets)) rfl
        exact ⟨p :: rest, .entry inside known walk⟩
      · exact ⟨[], .stop inside⟩

theorem mpinit_eq {mp conf : UInt32} (found : mpconfig k.memory = some (mp, conf)) (fuel : Nat) :
    mpinit fuel k = (do
      let ismp ← mpFrom (tableEnd k.memory conf) fuel (conf + mpconfSize) true
      if ismp = false then Action.panic "Didn't find a suitable machine"
      else
        let imcrp ← Action.get fun k : Kernel => k.memory (mp + 12).toNat
        Action.ifThen (imcrp ≠ 0)
          (Action.modify fun k => { k with
            ports := k.ports ++ [(0x22, 0x70), (0x23, k.imcr ||| 1)] }))
      (setLapic conf k) := by
  rw [mpinit, Action.get_bind, found]
  rfl

/-- `mpinit` does not get past an entry of an unknown type. -/
theorem mpinit_meets {mp conf : UInt32} (found : mpconfig k.memory = some (mp, conf))
    (meets : Meets k.memory (tableEnd k.memory conf) (conf + mpconfSize) p)
    (inside : p < tableEnd k.memory conf) (unknown : width (k.memory p.toNat) = none) (fuel : Nat) :
    ¬Handled mp conf k (mpinit fuel k) := by
  have stuck : mpinit fuel k = .blocked := by
    rw [mpinit_eq found]
    exact Action.bind_blocked
      (mpFrom_meets meets inside unknown (k := setLapic conf k) rfl fuel true)
  rw [stuck]
  rintro (⟨entries, -, done⟩ | ⟨q, -, -, -, panics⟩)
  · cases done
  · cases panics

/-- For every table in memory that is accepted, `mpinit` comes to an end as it should exactly if no
entry has an unknown type. -/
theorem mpinit_handles_iff (k : Kernel) (mp conf : UInt32)
    (found : mpconfig k.memory = some (mp, conf))
    (inMemory : conf.toNat + tableLength k.memory conf ≤ 0x8E000000) :
    (∃ fuel, Handled mp conf k (mpinit fuel k)) ↔ AllKnown k.memory conf := by
  constructor
  · rintro ⟨fuel, handled⟩ p meets inside
    by_contra unknown
    have none : width (k.memory p.toNat) = none := by
      by_contra known
      exact unknown ((width_known _).mp known)
    exact mpinit_meets found meets inside none fuel handled
  · intro all
    have ends : (tableEnd k.memory conf).toNat ≤ 4294967276 := by
      rw [tableEnd, UInt32.toNat_add, UInt32.toNat_ofNat']
      omega
    obtain ⟨entries, walk⟩ := exists_walk ends all
    refine ⟨entries.length + 1, Or.inl ⟨entries, walk, ?_⟩⟩
    have done := mpFrom_walk walk (k := setLapic conf k) rfl (Nat.lt_succ_self _) true
    rw [mpinit_eq found, Action.bind_done done, if_neg (by decide), Action.get_bind, finish]
    by_cases imcrp : (entries.foldl process (setLapic conf k)).memory (mp + 12).toNat ≠ 0
    · rw [if_pos imcrp, Action.ifThen, if_pos imcrp]
      rfl
    · rw [if_neg imcrp, Action.ifThen, if_neg imcrp]
      rfl

/-! ## Two tables -/

/-- A kernel in whose EBDA the firmware has left a table with these entries, in fewer than 212
bytes. -/
def firmware (checksum : UInt8) (entries : List UInt8) : Kernel where
  memory := (Memory.write (fun _ => 0) 0x8000040E [0xC0, 0x9F]).write 0x8009FC00
    ([0x5F, 0x4D, 0x50, 0x5F, 0x10, 0xFC, 0x09, 0x00, 1, 4, 0x8B, 0, 0, 0, 0, 0] ++
      [0x50, 0x43, 0x4D, 0x50, UInt8.ofNat (44 + entries.length), 0, 4, checksum] ++
      List.replicate 36 0 ++ entries)
  lapic := 0
  cpus := []
  ioapicid := 0
  imcr := 0
  ports := []

/-- With one entry, of type 5, `mpinit` does not come to an end. -/
theorem mpinit_stuck : ∃ k mp conf, mpconfig k.memory = some (mp, conf) ∧
    conf.toNat + tableLength k.memory conf ≤ 0x8E000000 ∧
    ¬∃ fuel, Handled mp conf k (mpinit fuel k) := by
  have facts : mpconfig (firmware 0x9A [5]).memory = some (0x8009FC00, 0x8009FC10) ∧
      (0x8009FC10 : UInt32).toNat + tableLength (firmware 0x9A [5]).memory 0x8009FC10 ≤
        0x8E000000 ∧
      (0x8009FC10 : UInt32) + mpconfSize < tableEnd (firmware 0x9A [5]).memory 0x8009FC10 ∧
      width ((firmware 0x9A [5]).memory ((0x8009FC10 : UInt32) + mpconfSize).toNat) = none := by
    decide +kernel
  generalize firmware 0x9A [5] = k at facts
  obtain ⟨found, inMemory, inside, unknown⟩ := facts
  refine ⟨k, _, _, found, inMemory, ?_⟩
  rintro ⟨fuel, handled⟩
  exact mpinit_meets found (.here _) inside unknown fuel handled

/-- Two processors, a bus, an I/O APIC and two interrupt assignments. -/
def sixEntries : Kernel :=
  firmware 0x4B ([0, 0] ++ List.replicate 18 0 ++ [0, 1] ++ List.replicate 18 0 ++
    [1] ++ List.replicate 7 0 ++ [2, 2] ++ List.replicate 6 0 ++ [3] ++ List.replicate 7 0 ++
    [4] ++ List.replicate 7 0)

theorem sixEntries_walk : Walk sixEntries.memory (tableEnd sixEntries.memory 0x8009FC10)
    ((0x8009FC10 : UInt32) + mpconfSize)
    [0x8009FC3C, 0x8009FC50, 0x8009FC64, 0x8009FC6C, 0x8009FC74, 0x8009FC7C] := by
  have ends : tableEnd sixEntries.memory 0x8009FC10 = 0x8009FC84 := by decide +kernel
  have types : width (sixEntries.memory 0x8009FC3C) = some mpprocSize ∧
      width (sixEntries.memory 0x8009FC50) = some mpprocSize ∧
      width (sixEntries.memory 0x8009FC64) = some mpioapicSize ∧
      width (sixEntries.memory 0x8009FC6C) = some mpioapicSize ∧
      width (sixEntries.memory 0x8009FC74) = some mpioapicSize ∧
      width (sixEntries.memory 0x8009FC7C) = some mpioapicSize := by decide +kernel
  obtain ⟨one, two, three, four, five, six⟩ := types
  rw [ends]
  exact .entry (by decide) one (.entry (by decide) two (.entry (by decide) three
    (.entry (by decide) four (.entry (by decide) five (.entry (by decide) six
      (.stop (by decide)))))))

theorem mpinit_handles_iff_six : ∃ mp conf, mpconfig sixEntries.memory = some (mp, conf) ∧
    (∃ fuel, Handled mp conf sixEntries (mpinit fuel sixEntries)) ∧
    (mpinit 7 sixEntries).state?.map (fun k => (k.cpus, k.ioapicid)) = some ([0, 1], 2) := by
  have found : mpconfig sixEntries.memory = some (0x8009FC00, 0x8009FC10) := by decide +kernel
  have inMemory : (0x8009FC10 : UInt32).toNat + tableLength sixEntries.memory 0x8009FC10 ≤
      0x8E000000 := by decide +kernel
  refine ⟨_, _, found, (mpinit_handles_iff sixEntries _ _ found inMemory).mpr ?_, ?_⟩
  · exact fun p meets inside => sixEntries_walk.known meets inside
  · decide +kernel

end Xv6.Mp
