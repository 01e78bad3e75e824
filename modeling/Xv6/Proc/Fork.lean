import Xv6.Fs.Blocks
import Xv6.Sched.Table
import Xv6.Vm.Exhausted

/-!
# Forking

`fork` in `proc.c`, with everything that it takes: an entry of the process
table, pages for the kernel stack and the address space, and references to the
open files and the current directory.
-/

namespace Xv6.Fork

open Xv6.Library Xv6.Vm
open Xv6.Fs (InodePtr)
open Xv6.Sched (ProcPtr ProcState nproc)

/-- NOFILE: open files per process -/
def nofile : Nat := 16
/-- NFILE: open files per system -/
def nfile : Nat := 100
/-- KSTACKSIZE: size of per-process kernel stack -/
def kstackSize : UInt32 := 4096
/-- sizeof(struct trapframe), and where %eax is in it. -/
def trapframeSize : UInt32 := 76
def eaxOffset : UInt32 := 28
/-- sizeof(struct context), and where `eip` is in it. -/
def contextSize : UInt32 := 20
def eipOffset : UInt32 := 16

abbrev FilePtr := Fin nfile

/-- `struct proc`, but for what `fork` leaves alone. -/
structure Proc where
  sz : UInt32
  pgdir : UInt32
  kstack : UInt32
  state : ProcState
  pid : BitVec 32
  parent : Option ProcPtr
  tf : UInt32
  context : UInt32
  ofile : Fin nofile → Option FilePtr
  cwd : InodePtr
  name : Memory

/-- `fileRef` and `inodeRef` are the reference counts in the tables of files and inodes. -/
structure Kernel where
  machine : Machine
  proc : ProcPtr → Proc
  nextpid : BitVec 32
  fileRef : FilePtr → Int
  inodeRef : InodePtr → Int

def Kernel.setProc (k : Kernel) (p : ProcPtr) (proc : Proc) : Kernel :=
  { k with proc := Function.update k.proc p proc }

def Kernel.setMachine (k : Kernel) (machine : Machine) : Kernel := { k with machine := machine }

def onMachine {Value : Type} (action : Action Machine Value) : Action Kernel Value :=
  Action.focus Kernel.machine Kernel.setMachine action

/-- Assignments to the fields of `p`. -/
def setFields (p : ProcPtr) (change : Proc → Proc) : Action Kernel Unit :=
  Action.modify fun k => k.setProc p (change (k.proc p))

section Model

variable (symbols : Symbols) (trapret forkret : UInt32)

/-- The part of `allocproc` after the release of the table. -/
def allocKstack (p : ProcPtr) : Action Kernel (Option ProcPtr) := do
  -- Allocate kernel stack.
  let kstack ← onMachine kalloc
  setFields p fun proc => { proc with kstack := kstack }
  if kstack = 0 then
    setFields p fun proc => { proc with state := .unused }
    return none
  else
    let sp := kstack + kstackSize
    -- Leave room for trap frame.
    let sp := sp - trapframeSize
    setFields p fun proc => { proc with tf := sp }
    -- Set up new context to start executing at forkret, which returns to trapret.
    let sp := sp - 4
    onMachine (storeWord sp trapret)
    let sp := sp - contextSize
    setFields p fun proc => { proc with context := sp }
    onMachine (memset sp 0 contextSize)
    onMachine (storeWord (sp + eipOffset) forkret)
    return some p

/-- Look in the process table for an UNUSED proc. If found, change state to EMBRYO
and initialize state required to run in the kernel. -/
def allocproc : Action Kernel (Option ProcPtr) := do
  let proc ← Action.get Kernel.proc
  match (List.finRange nproc).find? fun p => decide ((proc p).state = .unused) with
  | none => return none
  | some p =>
      Action.modify fun k =>
        { k.setProc p { k.proc p with state := .embryo, pid := k.nextpid } with
          nextpid := k.nextpid + 1 }
      allocKstack trapret forkret p

/-- Increment ref count for file `f`. -/
def filedup (f : FilePtr) : Action Kernel FilePtr := do
  let ref ← Action.get fun k : Kernel => k.fileRef f
  if ref < 1 then Action.panic "filedup"
  else
    Action.modify fun k => { k with fileRef := Function.update k.fileRef f (k.fileRef f + 1) }
    return f

/-- Increment reference count for `ip`. -/
def idup (ip : InodePtr) : Action Kernel InodePtr := do
  Action.modify fun k => { k with inodeRef := Function.update k.inodeRef ip (k.inodeRef ip + 1) }
  return ip

/-- The loop over the open files. -/
def dupFiles (curproc np : ProcPtr) : List (Fin nofile) → Action Kernel Unit
  | [] => return ()
  | i :: rest => do
      let file ← Action.get fun k : Kernel => (k.proc curproc).ofile i
      match file with
      | none => dupFiles curproc np rest
      | some f =>
          let f ← filedup f
          setFields np fun proc => { proc with ofile := Function.update proc.ofile i (some f) }
          dupFiles curproc np rest

/-- The loop of `safestrcpy`, with `n` more characters to copy. -/
def safestrcpyFrom (t : Memory) : Nat → Nat → Memory → Memory
  | 0, i, s => Function.update s i 0
  | n + 1, i, s =>
      let s := Function.update s i (t i)
      if t i ≠ 0 then safestrcpyFrom t n (i + 1) s else Function.update s (i + 1) 0

/-- Like strncpy but guaranteed to NUL-terminate. -/
def safestrcpy (s t : Memory) (n : Nat) : Memory :=
  if n = 0 then s else safestrcpyFrom t (n - 1) 0 s

/-- Create a new process copying `curproc` as the parent. -/
def fork (curproc : ProcPtr) : Action Kernel Int := do
  -- Allocate process.
  match ← allocproc trapret forkret with
  | none => return -1
  | some np =>
      -- Copy process state from proc.
      let parent ← Action.get fun k : Kernel => k.proc curproc
      let pgdir ← onMachine (copyuvm symbols parent.pgdir parent.sz)
      setFields np fun proc => { proc with pgdir := pgdir }
      if pgdir = 0 then
        let kstack ← Action.get fun k : Kernel => (k.proc np).kstack
        onMachine (kfree symbols kstack)
        setFields np fun proc => { proc with kstack := 0, state := .unused }
        return -1
      else
        let parent ← Action.get fun k : Kernel => k.proc curproc
        setFields np fun proc => { proc with sz := parent.sz, parent := some curproc }
        let tf ← Action.get fun k : Kernel => (k.proc np).tf
        onMachine (memmove tf parent.tf trapframeSize)
        -- Clear %eax so that fork returns 0 in the child.
        onMachine (storeWord (tf + eaxOffset) 0)
        dupFiles curproc np (List.finRange nofile)
        let cwd ← idup parent.cwd
        setFields np fun proc =>
          { proc with cwd := cwd, name := safestrcpy proc.name parent.name 16 }
        let pid ← Action.get fun k : Kernel => (k.proc np).pid
        setFields np fun proc => { proc with state := .runnable }
        return pid.toInt

end Model

/-! ## What fork takes -/

section Steps

variable {symbols : Symbols} {trapret forkret : UInt32} {k : Kernel} {np : ProcPtr}
  {free : List (Page symbols)}

@[simp]
theorem Kernel.setProc_self (k : Kernel) (p : ProcPtr) (proc : Proc) :
    (k.setProc p proc).proc p = proc := Function.update_self ..

theorem Kernel.setProc_of_ne (k : Kernel) {p other : ProcPtr} (different : other ≠ p)
    (proc : Proc) : (k.setProc p proc).proc other = k.proc other :=
  Function.update_of_ne different ..

@[simp]
theorem Kernel.setMachine_proc (k : Kernel) (machine : Machine) :
    (k.setMachine machine).proc = k.proc := rfl

/-- Only entry `np` and the memory are not as before. -/
structure Touches (k : Kernel) (np : ProcPtr) (later : Kernel) : Prop where
  others : ∀ p, p ≠ np → later.proc p = k.proc p
  files : later.fileRef = k.fileRef
  inodes : later.inodeRef = k.inodeRef

theorem Touches.trans {middle later : Kernel} (first : Touches k np middle)
    (second : Touches middle np later) : Touches k np later where
  others p different := (second.others p different).trans (first.others p different)
  files := second.files.trans first.files
  inodes := second.inodes.trans first.inodes

theorem Touches.setProc {later : Kernel} (touches : Touches k np later) (proc : Proc) :
    Touches k np (later.setProc np proc) where
  others p different := (later.setProc_of_ne different proc).trans (touches.others p different)
  files := touches.files
  inodes := touches.inodes

theorem Touches.setMachine {later : Kernel} (touches : Touches k np later) (machine : Machine) :
    Touches k np (later.setMachine machine) :=
  ⟨touches.others, touches.files, touches.inodes⟩

@[simp]
theorem ends_setFields {panics : String → Prop} {post : Unit → Kernel → Prop}
    (change : Proc → Proc) : (setFields np change k).Ends panics post ↔
      post () (k.setProc np (change (k.proc np))) := Iff.rfl

theorem onMachine_done {Value : Type} {action : Action Machine Value} {value : Value}
    {later : Machine} (done : action k.machine = .done value later) :
    onMachine action k = .done value (k.setMachine later) := Action.focus_done done

/-- A write inside of a page leaves the other pages alone. -/
theorem same_write {m : Machine} {page other : Page symbols} (different : other ≠ page) {a : Nat}
    {bytes : List UInt8} (start : page.addr.toNat ≤ a)
    (fits : a + bytes.length ≤ page.addr.toNat + 4096) :
    m.Same { m with memory := m.memory.write a bytes } other := by
  intro offset below
  have apart := Page.apart different
  apply Memory.write_outside
  omega

/-- The entry is taken and has the page for a kernel stack. -/
structure Allocated (k : Kernel) (np : ProcPtr) (page : Page symbols) (later : Kernel) : Prop where
  touches : Touches k np later
  kstack : (later.proc np).kstack = page.addr
  freelist : later.machine.freelist = (k.machine.take page).freelist
  same : ∀ other, other ≠ page → (k.machine.take page).Same later.machine other

/-- Where the return address, the context and its `eip` are. -/
theorem toNat_stack (page : Page symbols) :
    (page.addr + kstackSize - trapframeSize - 4).toNat = page.addr.toNat + 4016 ∧
      (page.addr + kstackSize - trapframeSize - 4 - contextSize).toNat =
        page.addr.toNat + 3996 ∧
      (page.addr + kstackSize - trapframeSize - 4 - contextSize + eipOffset).toNat =
        page.addr.toNat + 4012 := by
  have below := page.below
  have frame : (page.addr + kstackSize - trapframeSize - 4).toNat = page.addr.toNat + 4016 := by
    rw [UInt32.toNat_sub, UInt32.toNat_sub, UInt32.toNat_add,
      show kstackSize.toNat = 4096 by rfl, show trapframeSize.toNat = 76 by rfl,
      show (4 : UInt32).toNat = 4 by rfl]
    omega
  have context : (page.addr + kstackSize - trapframeSize - 4 - contextSize).toNat =
      page.addr.toNat + 3996 := by
    rw [UInt32.toNat_sub, frame, show contextSize.toNat = 20 by rfl]
    omega
  refine ⟨frame, context, ?_⟩
  rw [UInt32.toNat_add, context, show eipOffset.toNat = 16 by rfl]
  omega

/-- All entries are in the states that they were in, and no reference was taken. -/
structure Returned (k later : Kernel) : Prop where
  states : ∀ p, (later.proc p).state = (k.proc p).state
  files : later.fileRef = k.fileRef
  inodes : later.inodeRef = k.inodeRef

theorem Touches.returned {later : Kernel} (touches : Touches k np later)
    (free : (k.proc np).state = .unused) (again : (later.proc np).state = .unused) :
    Returned k later where
  states p := by
    by_cases same : p = np
    · rw [same, again, free]
    · rw [touches.others p same]
  files := touches.files
  inodes := touches.inodes

theorem allocKstack_fails (frees : k.machine.Free ([] : List (Page symbols))) :
    (allocKstack trapret forkret np k).Ends (fun _ => False) fun result later =>
      result = none ∧ Touches k np later ∧ later.machine = k.machine ∧
        (later.proc np).state = .unused := by
  have first : Touches k np k := ⟨fun _ _ => rfl, rfl, rfl⟩
  rw [allocKstack, Action.bind_done (onMachine_done frees.kalloc_nil), Action.ends_bind,
    ends_setFields, if_pos rfl, Action.ends_bind, ends_setFields]
  refine ⟨rfl, ((first.setMachine k.machine).setProc _).setProc _, rfl, ?_⟩
  rw [Kernel.setProc_self]

theorem allocKstack_allocates {page : Page symbols} (frees : k.machine.Free (page :: free)) :
    (allocKstack trapret forkret np k).Ends (fun _ => False) fun result later =>
      result = some np ∧ (later.proc np).pid = (k.proc np).pid ∧ Allocated k np page later := by
  have first : Touches k np k := ⟨fun _ _ => rfl, rfl, rfl⟩
  rw [allocKstack, Action.bind_done (onMachine_done frees.kalloc_cons), Action.ends_bind,
    ends_setFields, if_neg page.addr_ne_zero, Action.ends_bind, ends_setFields]
  simp only [Action.ends_bind, ends_setFields, onMachine, Action.ends_focus, storeWord, memset,
    Action.ends_modify]
  obtain ⟨trap, context, eip⟩ := toNat_stack page
  refine ⟨rfl, ?_, ?_, ?_, rfl, ?_⟩
  · simp [Kernel.setMachine, Kernel.setProc]
  · exact ((((((first.setMachine _).setProc _).setProc _).setMachine _).setProc _).setMachine
      _).setMachine _
  · simp [Kernel.setMachine, Kernel.setProc]
  · intro other different
    have blank : (List.replicate contextSize.toNat (0 : UInt8)).length = 20 :=
      List.length_replicate ..
    exact ((same_write different (by rw [trap]; omega) (by rw [trap, length_leBytes]; omega)).trans
      (same_write different (by rw [context]; omega) (by rw [context, blank]; omega))).trans
        (same_write different (by rw [eip]; omega) (by rw [eip, length_leBytes]; omega))

/-- Without a page for the kernel stack, the entry is free again. -/
theorem allocproc_ends (frees : k.machine.Free free) (slot : ∃ p, (k.proc p).state = .unused) :
    (allocproc trapret forkret k).Ends (fun _ => False) fun result later =>
      (free = [] ∧ result = none ∧ later.machine = k.machine ∧ Returned k later) ∨
        ∃ page rest np, free = page :: rest ∧ result = some np ∧ (k.proc np).state = .unused ∧
          (later.proc np).pid = k.nextpid ∧ Allocated k np page later := by
  rw [allocproc, Action.ends_bind, Action.ends_get]
  cases found : (List.finRange nproc).find? fun p => decide ((k.proc p).state = .unused) with
  | none =>
      obtain ⟨p, unused⟩ := slot
      have other := List.find?_eq_none.mp found p (List.mem_finRange p)
      exact absurd (decide_eq_true unused) other
  | some np =>
      have unused : (k.proc np).state = .unused := by
        simpa using List.find?_some found
      simp only [Action.ends_bind, Action.ends_modify]
      generalize entry : ({ k.setProc np { k.proc np with state := .embryo, pid := k.nextpid } with
        nextpid := k.nextpid + 1 } : Kernel) = taken
      have machine : taken.machine = k.machine := by
        rw [← entry]
        rfl
      have first : Touches k np taken := by
        rw [← entry]
        exact ⟨fun p different => k.setProc_of_ne different _, rfl, rfl⟩
      have number : (taken.proc np).pid = k.nextpid := by
        rw [← entry]
        exact congrArg Proc.pid (k.setProc_self np _)
      rw [← machine] at frees
      cases free with
      | nil =>
          refine (allocKstack_fails frees).mono ?_
          rintro result later ⟨none, touches, same, again⟩
          refine Or.inl ⟨rfl, none, same.trans machine, ?_⟩
          exact (first.trans touches).returned unused again
      | cons page rest =>
          refine (allocKstack_allocates frees).mono ?_
          rintro result later ⟨some, pid, touches, kstack, head, same⟩
          rw [machine] at head same
          exact Or.inr ⟨page, rest, np, rfl, some, unused, pid.trans number, first.trans touches,
            kstack, head, same⟩

/-- The kernel with one more reference to the file. -/
def Kernel.moreFile (k : Kernel) (f : FilePtr) : Kernel :=
  { k with fileRef := Function.update k.fileRef f (k.fileRef f + 1) }

theorem filedup_done {f : FilePtr} (opened : 0 < k.fileRef f) :
    filedup f k = .done f (k.moreFile f) := by
  rw [filedup, Action.get_bind, if_neg (by omega)]
  rfl

/-- The files of a process are open, and `fork` opens them once more. -/
theorem dupFiles_ends {curproc : ProcPtr} (different : curproc ≠ np) (files : List (Fin nofile))
    (opened : ∀ i f, (k.proc curproc).ofile i = some f → 0 < k.fileRef f) :
    (dupFiles curproc np files k).Ends (fun _ => False) fun _ later =>
      (later.proc np).pid = (k.proc np).pid := by
  induction files generalizing k with
  | nil => exact rfl
  | cons i rest inductionHypothesis =>
      rw [dupFiles, Action.get_bind]
      cases file : (k.proc curproc).ofile i with
      | none => exact inductionHypothesis opened
      | some f =>
          simp only [Action.bind_done (filedup_done (opened i f file)), Action.ends_bind,
            ends_setFields]
          refine (inductionHypothesis ?_).mono ?_
          · intro j other held
            rw [Kernel.setProc_of_ne _ different] at held
            have positive := opened j other held
            change 0 < Function.update k.fileRef f (k.fileRef f + 1) other
            by_cases same : other = f
            · rw [same, Function.update_self]
              have more := opened i f file
              omega
            · rw [Function.update_of_ne same]
              exact positive
          · rintro - later same
            rw [same, Kernel.setProc_self]
            rfl

/-- The same after changes to the new entry. -/
theorem Touches.dupFiles_ends {middle : Kernel} (touches : Touches k np middle) {curproc : ProcPtr}
    (different : curproc ≠ np) (files : List (Fin nofile))
    (opened : ∀ i f, (k.proc curproc).ofile i = some f → 0 < k.fileRef f) :
    (dupFiles curproc np files middle).Ends (fun _ => False) fun _ later =>
      (later.proc np).pid = (middle.proc np).pid := by
  apply Fork.dupFiles_ends different
  intro i f held
  rw [touches.others curproc different] at held
  rw [touches.files]
  exact opened i f held

end Steps

/-! ## Forks -/

section Forks

variable {symbols : Symbols} {trapret forkret : UInt32} {k : Kernel} {curproc : ProcPtr}
  {all : Set (Page symbols)} {parent : Space symbols} {free : List (Page symbols)}

/-- The process runs in an address space of its size, and its files are open. -/
structure Runs (all : Set (Page symbols)) (k : Kernel) (curproc : ProcPtr) (parent : Space symbols)
    (free : List (Page symbols)) : Prop where
  world : World all k.machine parent free
  state : (k.proc curproc).state = .running
  pgdir : (k.proc curproc).pgdir = parent.dir.addr
  user : (k.proc curproc).sz ≤ kernbase
  present : ∀ n < pages (k.proc curproc).sz, Present (parent.pte n)
  files : ∀ i f, (k.proc curproc).ofile i = some f → 0 < k.fileRef f

theorem Runs.pages_le (runs : Runs all k curproc parent free) :
    pages (k.proc curproc).sz ≤ userPages := by
  have bound : (k.proc curproc).sz.toNat ≤ 0x80000000 := UInt32.le_iff_toNat_le.mp runs.user
  unfold pages userPages
  omega

/-- With the kernel stack, the pages that `fork` takes. -/
def forkNeeds (count : Nat) : Nat := copyNeeds count + 1

/-- The last free page is the one for a copy that needs another page table. -/
def LastForCopy (count length : Nat) : Prop := ∃ j, 1024 * j < count ∧ length = 67 + 1025 * j

theorem losesPage_iff (count length : Nat) :
    LosesPage count length ↔ LastForCopy count (length + 1) := by
  constructor
  · rintro ⟨j, below, exact⟩
    exact ⟨j, below, by omega⟩
  · rintro ⟨j, below, exact⟩
    exact ⟨j, below, by omega⟩

/-- `fork` succeeds exactly when there are enough free pages. If there are not, everything is as
before, but the page that was for a copy may be lost. -/
theorem fork_ends (trapret forkret : UInt32) (runs : Runs all k curproc parent free)
    (slot : ∃ p, (k.proc p).state = .unused) :
    (fork symbols trapret forkret curproc k).Ends (fun _ => False) fun result later =>
      forkNeeds (pages (k.proc curproc).sz) ≤ free.length ∧ result = k.nextpid.toInt ∨
        free.length < forkNeeds (pages (k.proc curproc).sz) ∧ result = -1 ∧ Returned k later ∧
          ∃ freed, later.machine.Free freed ∧
            (¬LastForCopy (pages (k.proc curproc).sz) free.length ∧
                (∀ page, page ∈ freed ↔ page ∈ free) ∨
              LastForCopy (pages (k.proc curproc).sz) free.length ∧ ∃ lost ∈ free, lost ∉ freed) := by
  have small := runs.pages_le
  rw [fork, Action.ends_bind]
  refine (allocproc_ends runs.world.frees slot).mono ?_
  rintro result later (⟨rfl, rfl, machine, returned⟩ |
    ⟨page, rest, np, rfl, rfl, unused, pid, allocated⟩)
  · refine Or.inr ⟨?_, rfl, returned, [], ?_, Or.inl ⟨?_, fun _ => Iff.rfl⟩⟩
    · exact Nat.succ_pos _
    · rw [machine]
      exact runs.world.frees
    · rintro ⟨j, -, exact⟩
      rw [List.length_nil] at exact
      omega
  have different : curproc ≠ np := by
    rintro rfl
    rw [runs.state] at unused
    cases unused
  have same : later.proc curproc = k.proc curproc := allocated.touches.others curproc different
  have holding := runs.world.takeWrite allocated.same allocated.freelist
  have source : Parent {other | other ∈ rest} later.machine parent (pages (k.proc curproc).sz) :=
    ⟨holding.holds, fun _ _ held => holding.has_used held, runs.present,
      fun n below => holding.backed n (Nat.lt_of_lt_of_le below small) (runs.present n below)⟩
  obtain ⟨d, machine, copied, ends⟩ := copyuvm_ends holding.frees source small
  have ran : copyuvm symbols (later.proc curproc).pgdir (later.proc curproc).sz later.machine =
      .done d machine := by
    rw [same, runs.pgdir]
    exact copied
  simp only [Action.get_bind, Action.bind_done (onMachine_done ran), Action.ends_bind,
    ends_setFields]
  generalize parted : (later.setMachine machine).setProc np
    { (later.setMachine machine).proc np with pgdir := d } = joined
  have touches : Touches k np joined := by
    rw [← parted]
    exact (allocated.touches.setMachine machine).setProc _
  have memory : joined.machine = machine := by
    rw [← parted]
    rfl
  have number : (joined.proc np).pid = k.nextpid := by
    rw [← parted, Kernel.setProc_self]
    exact pid
  have stack : (joined.proc np).kstack = page.addr := by
    rw [← parted, Kernel.setProc_self]
    exact allocated.kstack
  obtain ⟨enough, success⟩ | ⟨short, rfl, freed, frees, lost⟩ := ends
  · rw [if_neg success]
    simp only [Action.get_bind, Action.ends_bind, ends_setFields, onMachine, Action.ends_focus,
      memmove, storeWord, Action.ends_modify]
    refine (Touches.dupFiles_ends ?_ different _ runs.files).mono ?_
    · exact ((touches.setProc _).setMachine _).setMachine _
    · rintro - last kept
      have entry : (last.proc np).pid = k.nextpid := by
        rw [kept, Kernel.setMachine_proc, Kernel.setMachine_proc, Kernel.setProc_self, ← number]
      simp only [idup, Action.ends_bind, Action.ends_modify, Action.ends_pure]
      rw [Kernel.setProc_self]
      exact Or.inl ⟨Nat.succ_le_succ enough, congrArg BitVec.toInt entry⟩
  · rw [if_pos rfl, Action.get_bind, stack]
    have kfreed : onMachine (kfree symbols page.addr) joined =
        .done () (joined.setMachine (machine.release page)) := by
      apply onMachine_done
      rw [memory]
      exact Machine.kfree_page machine page
    rw [Action.bind_done kfreed, Action.ends_bind, ends_setFields, Action.ends_pure]
    have outside : page ∉ rest := (List.nodup_cons.mp runs.world.frees.nodup).1
    have fresh : page ∉ freed := by
      intro member
      obtain ⟨-, same⟩ | ⟨-, lost, -, same⟩ := lost
      · exact outside ((same page).mp member)
      · exact outside ((same page).mp member).1
    refine Or.inr ⟨?_, rfl, ?_, page :: freed, frees.release fresh, ?_⟩
    · exact Nat.succ_lt_succ short
    · apply ((touches.setMachine _).setProc _).returned unused
      rw [Kernel.setProc_self]
    · rw [List.length_cons, ← losesPage_iff]
      obtain ⟨none, same⟩ | ⟨one, lost, held, same⟩ := lost
      · refine Or.inl ⟨none, fun other => ?_⟩
        rw [List.mem_cons, List.mem_cons, same]
      · refine Or.inr ⟨one, lost, List.mem_cons_of_mem _ held, fun member => ?_⟩
        obtain rfl | member := List.mem_cons.mp member
        · exact outside held
        · exact ((same lost).mp member).2 rfl

/-- `fork` returned -1 and left nothing behind. -/
structure Restored (symbols : Symbols) (k : Kernel) (result : Int) (later : Kernel) : Prop where
  failed : result = -1
  returned : Returned k later
  free : ∀ page : Page symbols, later.machine.IsFree page ↔ k.machine.IsFree page

/-- Up to `forkNeeds` free pages, the call of `kalloc` after the last of them fails. Then `fork`
leaves nothing behind exactly when the last page was not for a copy without a page table. -/
theorem fork_restores_iff (runs : Runs all k curproc parent free)
    (slot : ∃ p, (k.proc p).state = .unused) :
    ∃ result later, fork symbols trapret forkret curproc k = .done result later ∧
      (forkNeeds (pages (k.proc curproc).sz) ≤ free.length → result = k.nextpid.toInt) ∧
      (free.length < forkNeeds (pages (k.proc curproc).sz) →
        (Restored symbols k result later ↔
          ¬LastForCopy (pages (k.proc curproc).sz) free.length)) := by
  obtain ⟨result, later, ran, ends⟩ :=
    (fork_ends trapret forkret runs slot).exists_done
  refine ⟨result, later, ran, ?_⟩
  obtain ⟨enough, pid⟩ | ⟨short, failed, returned, freed, frees, pages⟩ := ends
  · exact ⟨fun _ => pid, fun short => absurd short (Nat.not_lt.mpr enough)⟩
  · refine ⟨fun enough => absurd short (Nat.not_lt.mpr enough), fun _ => ?_⟩
    obtain ⟨other, same⟩ | ⟨last, lost, held, missing⟩ := pages
    · refine ⟨fun _ => other, fun _ => ⟨failed, returned, fun page => ?_⟩⟩
      rw [frees.isFree, runs.world.frees.isFree, same]
    · constructor
      · intro restored
        have again := (restored.free lost).mpr ((runs.world.frees.isFree lost).mpr held)
        exact absurd ((frees.isFree lost).mp again) missing
      · exact fun other => absurd last other

end Forks

/-! ## A process with one page -/

theorem zero_lt_ninode : 0 < Fs.ninode := by decide

theorem zero_lt_nproc : 0 < nproc := by decide

/-- An entry that is not in use. -/
def blank : Proc where
  sz := 0
  pgdir := 0
  kstack := 0
  state := .unused
  pid := 0
  parent := none
  tf := 0
  context := 0
  ofile _ := none
  cwd := ⟨0, zero_lt_ninode⟩
  name _ := 0

def initproc : ProcPtr := ⟨0, zero_lt_nproc⟩

/-- The first process, with one page. -/
def onePage (pgdir : UInt32) : Proc :=
  { blank with sz := 4096, pgdir := pgdir, state := .running, pid := 1 }

/-- The kernel before there are processes. -/
def noProcs (machine : Machine) : Kernel where
  machine := machine
  proc _ := blank
  nextpid := 2
  fileRef _ := 0
  inodeRef _ := 1

/-- The kernel while only the first process exists. -/
def alone (machine : Machine) (pgdir : UInt32) : Kernel :=
  (noProcs machine).setProc initproc (onePage pgdir)

theorem few_free {symbols : Symbols} {all : Set (Page symbols)} {m : Machine} {s : Space symbols}
    {free : List (Page symbols)} (world : World all m s free) {count : Nat}
    (enough : count ≤ free.length) :
    ∃ fewer taken rest, World fewer taken s rest ∧ rest.length = count := by
  induction free generalizing all m with
  | nil => exact ⟨all, m, [], world, (Nat.le_zero.mp enough).symm⟩
  | cons page rest inductionHypothesis =>
      by_cases all : count = (page :: rest).length
      · exact ⟨_, m, page :: rest, world, all.symm⟩
      · apply inductionHypothesis world.take
        rw [List.length_cons] at enough all
        omega

/-- There may be any number of free pages up to 1000. -/
theorem runs_alone {count : Nat} (few : count ≤ 1000) :
    ∃ machine pgdir parent, ∃ all : Set (Page smallKernel), ∃ free,
      Runs all (alone machine pgdir) initproc parent free ∧
      (∃ p, ((alone machine pgdir).proc p).state = .unused) ∧
      pages ((alone machine pgdir).proc initproc).sz = 1 ∧ free.length = count := by
  obtain ⟨m, parent, everything, free, page, nodup, enough, world, entry, above, -⟩ := booted_page
  obtain ⟨counted, covers, most⟩ := world.few_pages above
  have total := length_le_of_subset nodup covers
  obtain ⟨fewer, taken, rest, holding, length⟩ :=
    few_free world (show count ≤ free.length by omega)
  have first := (noProcs taken).setProc_self initproc (onePage parent.dir.addr)
  rw [← alone] at first
  have one : pages (onePage parent.dir.addr).sz = 1 := show pages 4096 = 1 by rfl
  obtain ⟨other, different⟩ : ∃ other, other ≠ initproc := ⟨⟨1, by decide⟩, by decide⟩
  refine ⟨taken, parent.dir.addr, parent, fewer, rest, ⟨holding, ?_, ?_, ?_, ?_, ?_⟩,
    ⟨other, ?_⟩, ?_, length⟩
  · rw [first, onePage]
  · rw [first, onePage]
  · rw [first]
    exact show 4096 ≤ kernbase by decide
  · rw [first, one]
    intro n below
    rw [Nat.lt_one_iff.mp below, entry]
    exact userEntry_present page
  · rw [first]
    intro i f held
    cases held
  · exact congrArg Proc.state (Kernel.setProc_of_ne _ different _)
  · rw [first, one]

theorem fork_restores_iff_alone :
    ∃ k result later, (∃ page : Page smallKernel, k.machine.IsFree page) ∧
      fork smallKernel 0 0 initproc k = .done result later ∧ Restored smallKernel k result later := by
  obtain ⟨machine, pgdir, parent, all, free, runs, slot, one, length⟩ :=
    runs_alone (show 10 ≤ 1000 by decide)
  obtain ⟨result, later, ran, -, restores⟩ :=
    @fork_restores_iff smallKernel 0 0 _ initproc all parent free runs slot
  obtain ⟨page, held⟩ := List.exists_mem_of_length_pos (show 0 < free.length by omega)
  refine ⟨_, result, later, ⟨page, (runs.world.frees.isFree page).mpr held⟩, ran, ?_⟩
  rw [one, length] at restores
  apply (restores (by decide)).mpr
  rintro ⟨j, -, exact⟩
  omega

/-- The first process has one page and 67 pages are free: `fork` fails, and the page that it took
for the copy is not free again. -/
theorem fork_loses_page :
    ∃ machine pgdir parent later, ∃ all : Set (Page smallKernel), ∃ free lost,
      Runs all (alone machine pgdir) initproc parent free ∧ free.length = 67 ∧
      (∃ p, ((alone machine pgdir).proc p).state = .unused) ∧
      free.length < forkNeeds (pages ((alone machine pgdir).proc initproc).sz) ∧
      fork smallKernel 0 0 initproc (alone machine pgdir) = .done (-1) later ∧
      lost ∈ free ∧ ¬later.machine.IsFree lost ∧
      ¬Restored smallKernel (alone machine pgdir) (-1) later := by
  obtain ⟨machine, pgdir, parent, all, free, runs, slot, one, length⟩ :=
    runs_alone (show 67 ≤ 1000 by decide)
  have short : free.length < forkNeeds (pages ((alone machine pgdir).proc initproc).sz) := by
    rw [one, length]
    decide
  obtain ⟨result, later, ran, ends⟩ := (fork_ends 0 0 runs slot).exists_done
  obtain ⟨enough, -⟩ | ⟨-, failed, -, freed, frees, ⟨other, -⟩ | ⟨-, lost, held, missing⟩⟩ := ends
  · exact absurd short (Nat.not_lt.mpr enough)
  · rw [one, length] at other
    exact absurd ⟨0, by decide, rfl⟩ other
  · have gone : ¬later.machine.IsFree lost := fun again => missing ((frees.isFree lost).mp again)
    rw [failed] at ran
    refine ⟨machine, pgdir, parent, later, all, free, lost, runs, length, slot, short, ran, held,
      gone, ?_⟩
    exact fun restored => gone ((restored.free lost).mpr ((runs.world.frees.isFree lost).mpr held))

end Xv6.Fork
