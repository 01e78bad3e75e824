import Xv6.Proc.Ftable
import Xv6.Proc.SyscallArgs

/-!
# Making a pipe

`sys_pipe` with everything that it takes: two files, a page and two
descriptors. The locks and `wakeup` change none of these.
-/

namespace Xv6.Files

open Xv6.Library Xv6.Vm Xv6.Syscall
open Xv6.Fs (InodePtr)
open Xv6.Fork (nofile nfile FilePtr)

/-- The pages, the open files, and the memory of the calling process. `iputs` has
the inodes that were handed to `iput`. -/
structure Kernel where
  machine : Machine
  table : Ftable
  caller : Caller
  iputs : List (Option InodePtr)

def onMachine {Value : Type} (action : Action Machine Value) : Action Kernel Value :=
  Action.focus Kernel.machine (fun k machine => { k with machine := machine }) action

def onTable {Value : Type} (action : Action Ftable Value) : Action Kernel Value :=
  Action.focus Kernel.table (fun k table => { k with table := table }) action

def onCaller {Value : Type} (action : Action Caller Value) : Action Kernel Value :=
  Action.focus Kernel.caller (fun k caller => { k with caller := caller }) action

/-- Assignments to the fields of `f`. -/
def setFields (f : FilePtr) (change : File → File) : Action Kernel Unit :=
  onTable (Action.modify fun table => table.setFile f (change (table.file f)))

/-! ## The functions -/

/-- Where the fields of `struct pipe` are; its lock is in front of the data. -/
def nreadOffset : UInt32 := 564
def nwriteOffset : UInt32 := 568
def readopenOffset : UInt32 := 572
def writeopenOffset : UInt32 := 576

/-- `lk->name`, `lk->locked` and `lk->cpu` -/
def initlock (lk name : UInt32) : Action Machine Unit := do
  storeWord (lk + 4) name
  storeWord lk 0
  storeWord (lk + 8) 0

section Model

variable (symbols : Symbols) (pipeName : UInt32)

def pipeclose (p : UInt32) (writable : Bool) : Action Machine Unit := do
  storeWord (if writable = true then p + writeopenOffset else p + readopenOffset) 0
  let readopen ← loadWord (p + readopenOffset)
  let writeopen ← loadWord (p + writeopenOffset)
  if readopen = 0 ∧ writeopen = 0 then kfree symbols p else return ()

/-- Close file `f`. -/
def fileclose (f : FilePtr) : Action Kernel Unit := do
  match ← onTable (fileput f) with
  | none => return ()
  | some ff =>
      match ff.type with
      | .pipe => onMachine (pipeclose symbols ff.pipe ff.writable)
      | .inode => Action.modify fun k => { k with iputs := k.iputs ++ [ff.ip] }
      | .none => return ()

/-- `if(f) fileclose(f)` -/
def filecloseIf : Option FilePtr → Action Kernel Unit
  | some f => fileclose symbols f
  | none => return ()

/-- The label `bad` of `pipealloc`. -/
def pipeallocBad (p : UInt32) (f0 f1 : Option FilePtr) :
    Action Kernel (Option (FilePtr × FilePtr)) := do
  Action.ifThen (p ≠ 0) (onMachine (kfree symbols p))
  filecloseIf symbols f0
  filecloseIf symbols f1
  return none

/-- The pipe and its two files. -/
def pipeallocInit (p : UInt32) (f0 f1 : FilePtr) : Action Kernel (Option (FilePtr × FilePtr)) := do
  onMachine (storeWord (p + readopenOffset) 1)
  onMachine (storeWord (p + writeopenOffset) 1)
  onMachine (storeWord (p + nwriteOffset) 0)
  onMachine (storeWord (p + nreadOffset) 0)
  onMachine (initlock p pipeName)
  setFields f0 fun file =>
    { file with type := .pipe, readable := true, writable := false, pipe := p }
  setFields f1 fun file =>
    { file with type := .pipe, readable := false, writable := true, pipe := p }
  return some (f0, f1)

/-- The two files of a new pipe; nothing for -1. -/
def pipealloc : Action Kernel (Option (FilePtr × FilePtr)) := do
  match ← onTable filealloc with
  | none => pipeallocBad symbols 0 none none
  | some f0 =>
      match ← onTable filealloc with
      | none => pipeallocBad symbols 0 (some f0) none
      | some f1 =>
          let p ← onMachine kalloc
          if p = 0 then pipeallocBad symbols 0 (some f0) (some f1)
          else pipeallocInit pipeName p f0 f1

/-- `if(fd0 >= 0) myproc()->ofile[fd0] = 0;` -/
def clearFd : Option (Fin nofile) → Action Kernel Unit
  | some fd0 => onTable (Action.modify fun table => table.setOfile fd0 none)
  | none => return ()

/-- A descriptor is missing. -/
def pipeBad (fd0 : Option (Fin nofile)) (rf wf : FilePtr) : Action Kernel Int := do
  clearFd fd0
  fileclose symbols rf
  fileclose symbols wf
  return -1

/-- `*(int*)addr = fd` -/
def storeFd (addr : UInt32) (fd : Fin nofile) : Action Caller Unit :=
  Action.modify fun c => { c with memory := c.memory.store addr.toNat 4 fd.val }

def sysPipe : Action Kernel Int := do
  match ← onCaller (argptr 0 8) with
  | none => return -1
  | some fd =>
      match ← pipealloc symbols pipeName with
      | none => return -1
      | some (rf, wf) =>
          match ← onTable (fdalloc rf) with
          | none => pipeBad symbols none rf wf
          | some fd0 =>
              match ← onTable (fdalloc wf) with
              | none => pipeBad symbols (some fd0) rf wf
              | some fd1 =>
                  onCaller (storeFd fd fd0)
                  onCaller (storeFd (fd + 4) fd1)
                  return 0

end Model

section Parts

variable {k : Kernel} {Value Result : Type} {value : Value}

theorem onMachine_bind {action : Action Machine Value} {next : Value → Action Kernel Result}
    {machine : Machine} (done : action k.machine = .done value machine) :
    (onMachine action >>= next) k = next value { k with machine := machine } :=
  Action.bind_done (Action.focus_done done)

theorem onTable_bind {action : Action Ftable Value} {next : Value → Action Kernel Result}
    {table : Ftable} (done : action k.table = .done value table) :
    (onTable action >>= next) k = next value { k with table := table } :=
  Action.bind_done (Action.focus_done done)

theorem ends_onTable {action : Action Ftable Value} {panics : String → Prop}
    {post : Value → Kernel → Prop} : (onTable action k).Ends panics post ↔
      (action k.table).Ends panics fun value table => post value { k with table := table } :=
  Action.ends_focus

end Parts

/-! ## The page of a pipe -/

section Pages

variable {symbols : Symbols} {pipeName : UInt32} {m later : Machine} {page : Page symbols}
  {free rest : List (Page symbols)}

theorem toNat_field {offset : UInt32} (inside : offset.toNat < 4096) :
    (page.addr + offset).toNat = page.addr.toNat + offset.toNat := by
  have below := page.below
  rw [UInt32.toNat_add]
  omega

theorem storeWord_at {a : UInt32} {i : Nat} (here : a.toNat = page.addr.toNat + 4 * i)
    (value : UInt32) : storeWord a value m = .done () (m.setWord page i value) := by
  rw [storeWord, here]
  rfl

theorem loadWord_at {a : UInt32} {i : Nat} (here : a.toNat = page.addr.toNat + 4 * i) :
    loadWord a m = .done (m.word page i) m := by
  rw [loadWord, here]
  rfl

theorem toNat_readopen (page : Page symbols) :
    (page.addr + readopenOffset).toNat = page.addr.toNat + 4 * 143 := toNat_field (by decide)

theorem toNat_writeopen (page : Page symbols) :
    (page.addr + writeopenOffset).toNat = page.addr.toNat + 4 * 144 := toNat_field (by decide)

/-- Only the page is not as before. -/
structure Within (page : Page symbols) (m later : Machine) : Prop where
  freelist : later.freelist = m.freelist
  same : ∀ other, other ≠ page → m.Same later other

theorem Within.refl (page : Page symbols) (m : Machine) : Within page m m :=
  ⟨rfl, fun other _ => Machine.Same.refl m other⟩

theorem Within.setWord (within : Within page m later) {i : Nat} (inside : i < 1024)
    (value : UInt32) : Within page m (later.setWord page i value) where
  freelist := within.freelist
  same other different :=
    (within.same other different).trans (Machine.same_setWord different inside value)

/-- The page is not on the free list, so the list is as before. -/
theorem Within.keeps_free (within : Within page m later) (frees : m.Free free)
    (fresh : page ∉ free) : later.Free free := by
  refine frees.congr (fun other member => within.same other ?_) within.freelist
  rintro rfl
  exact fresh member

/-- A pipe with both ends open and nothing in it. -/
structure EmptyPipe (m : Machine) (page : Page symbols) : Prop where
  nread : m.word page 141 = 0
  nwrite : m.word page 142 = 0
  readopen : m.word page 143 = 1
  writeopen : m.word page 144 = 1

/-- The read end goes first. -/
theorem pipeclose_readopen (other : m.word page 144 ≠ 0) :
    pipeclose symbols page.addr false m = .done () (m.setWord page 143 0) := by
  have opened : (m.setWord page 143 0).word page 144 ≠ 0 := by
    rw [Machine.word_setWord_other (by decide)]
    exact other
  rw [pipeclose, if_neg Bool.false_ne_true, Action.bind_done (storeWord_at (toNat_readopen page) 0),
    Action.bind_done (loadWord_at (toNat_readopen page)),
    Action.bind_done (loadWord_at (toNat_writeopen page)), if_neg fun closed => opened closed.2]
  rfl

/-- The second end that is closed frees the page. -/
theorem pipeclose_writeopen (closed : m.word page 143 = 0) :
    pipeclose symbols page.addr true m = .done () ((m.setWord page 144 0).release page) := by
  have both : (m.setWord page 144 0).word page 143 = 0 ∧ (m.setWord page 144 0).word page 144 = 0 := by
    refine ⟨?_, Machine.word_setWord 144 0⟩
    rw [Machine.word_setWord_other (by decide)]
    exact closed
  rw [pipeclose, if_pos rfl, Action.bind_done (storeWord_at (toNat_writeopen page) 0),
    Action.bind_done (loadWord_at (toNat_readopen page)),
    Action.bind_done (loadWord_at (toNat_writeopen page)), if_pos both]
  exact Machine.kfree_page _ page

end Pages

/-! ## Closing files that were not handed out -/

section Files

variable {symbols : Symbols} {pipeName : UInt32} {k : Kernel} {f : FilePtr}

theorem fileclose_unused (only : (k.table.file f).ref = 1) (type : (k.table.file f).type = .none) :
    fileclose symbols f k = .done () { k with table := k.table.drop f } := by
  rw [fileclose, onTable_bind (fileput_last only)]
  simp only [type]
  rfl

theorem fileclose_pipe (only : (k.table.file f).ref = 1) (type : (k.table.file f).type = .pipe)
    {machine : Machine}
    (closed : pipeclose symbols (k.table.file f).pipe (k.table.file f).writable k.machine =
      .done () machine) :
    fileclose symbols f k = .done () { k with table := k.table.drop f, machine := machine } := by
  rw [fileclose, onTable_bind (fileput_last only)]
  simp only [type]
  exact Action.focus_done closed

/-- What `pipealloc` makes of the two files. -/
def File.readEnd (file : File) (p : UInt32) : File :=
  { file with type := .pipe, readable := true, writable := false, pipe := p }

def File.writeEnd (file : File) (p : UInt32) : File :=
  { file with type := .pipe, readable := false, writable := true, pipe := p }

def Ftable.connect (table : Ftable) (f0 f1 : FilePtr) (p : UInt32) : Ftable :=
  let first := table.setFile f0 ((table.file f0).readEnd p)
  first.setFile f1 ((first.file f1).writeEnd p)

theorem initlock_page (m : Machine) (page : Page symbols) (name : UInt32) :
    initlock page.addr name m =
      .done () (((m.setWord page 1 name).setWord page 0 0).setWord page 2 0) := by
  have first : (page.addr + 4).toNat = page.addr.toNat + 4 * 1 := toNat_field (by decide)
  have third : (page.addr + 8).toNat = page.addr.toNat + 4 * 2 := toNat_field (by decide)
  rw [initlock, Action.bind_done (storeWord_at first name),
    Action.bind_done (storeWord_at (show page.addr.toNat = page.addr.toNat + 4 * 0 from rfl) 0)]
  exact storeWord_at third 0

theorem pipeallocInit_done (k : Kernel) (page : Page symbols) (f0 f1 : FilePtr) :
    ∃ machine, pipeallocInit pipeName page.addr f0 f1 k =
        .done (some (f0, f1))
          { k with machine := machine, table := k.table.connect f0 f1 page.addr } ∧
      Within page k.machine machine ∧ EmptyPipe machine page := by
  have nwrite : (page.addr + nwriteOffset).toNat = page.addr.toNat + 4 * 142 :=
    toNat_field (by decide)
  have nread : (page.addr + nreadOffset).toNat = page.addr.toNat + 4 * 141 :=
    toNat_field (by decide)
  have within : Within page k.machine (((((((k.machine.setWord page 143 1).setWord page 144
      1).setWord page 142 0).setWord page 141 0).setWord page 1 pipeName).setWord page 0
        0).setWord page 2 0) := by
    apply Within.setWord _ (by decide)
    apply Within.setWord _ (by decide)
    apply Within.setWord _ (by decide)
    apply Within.setWord _ (by decide)
    apply Within.setWord _ (by decide)
    apply Within.setWord _ (by decide)
    exact (Within.refl page k.machine).setWord (by decide) 1
  refine ⟨_, ?_, within, ?_⟩
  · rw [pipeallocInit, onMachine_bind (storeWord_at (toNat_readopen page) 1),
      onMachine_bind (storeWord_at (toNat_writeopen page) 1), onMachine_bind (storeWord_at nwrite 0),
      onMachine_bind (storeWord_at nread 0), onMachine_bind (initlock_page _ page pipeName)]
    rfl
  · constructor
    · simp only [Machine.word_setWord_other (show 141 ≠ 2 by decide),
        Machine.word_setWord_other (show 141 ≠ 0 by decide),
        Machine.word_setWord_other (show 141 ≠ 1 by decide), Machine.word_setWord]
    · simp only [Machine.word_setWord_other (show 142 ≠ 2 by decide),
        Machine.word_setWord_other (show 142 ≠ 0 by decide),
        Machine.word_setWord_other (show 142 ≠ 1 by decide),
        Machine.word_setWord_other (show 142 ≠ 141 by decide), Machine.word_setWord]
    · simp only [Machine.word_setWord_other (show 143 ≠ 2 by decide),
        Machine.word_setWord_other (show 143 ≠ 0 by decide),
        Machine.word_setWord_other (show 143 ≠ 1 by decide),
        Machine.word_setWord_other (show 143 ≠ 141 by decide),
        Machine.word_setWord_other (show 143 ≠ 142 by decide),
        Machine.word_setWord_other (show 143 ≠ 144 by decide), Machine.word_setWord]
    · simp only [Machine.word_setWord_other (show 144 ≠ 2 by decide),
        Machine.word_setWord_other (show 144 ≠ 0 by decide),
        Machine.word_setWord_other (show 144 ≠ 1 by decide),
        Machine.word_setWord_other (show 144 ≠ 141 by decide),
        Machine.word_setWord_other (show 144 ≠ 142 by decide), Machine.word_setWord]

/-! ## What a failure leaves -/

/-- The descriptors, the references and the free pages are as before, in the free
list's order. -/
structure Undone (k later : Kernel) (free : List (Page symbols)) : Prop where
  ofile : later.table.ofile = k.table.ofile
  refs : ∀ f, (later.table.file f).ref = (k.table.file f).ref
  closed : later.table.Closed
  frees : later.machine.Free free
  same : ∀ page, page ∉ free → k.machine.Same later.machine page
  memory : later.caller.memory = k.caller.memory

theorem Undone.refl {free : List (Page symbols)} (closed : k.table.Closed)
    (frees : k.machine.Free free) : Undone k k free :=
  ⟨rfl, fun _ => rfl, closed, frees, fun page _ => Machine.Same.refl _ page, rfl⟩

/-- `pipealloc` has its two files, which nobody had, and the first free page. -/
structure Made (k later : Kernel) (f0 f1 : FilePtr) (page : Page symbols) : Prop where
  different : f0 ≠ f1
  unused : (k.table.file f0).ref = 0 ∧ (k.table.file f1).ref = 0
  table : later.table = ((k.table.use f0).use f1).connect f0 f1 page.addr
  pipe : EmptyPipe later.machine page
  within : Within page (k.machine.take page) later.machine
  caller : later.caller = k.caller

theorem pipeallocBad_one {f0 : FilePtr} (closed : k.table.Closed)
    (unused : (k.table.file f0).ref = 0) :
    pipeallocBad symbols 0 (some f0) none { k with table := k.table.use f0 } = .done none k := by
  have put : fileclose symbols f0 { k with table := k.table.use f0 } = .done () k := by
    rw [fileclose_unused]
    · dsimp only
      rw [Ftable.drop_use closed unused]
    · exact congrArg File.ref (Ftable.use_file k.table f0)
    · exact (congrArg File.type (Ftable.use_file k.table f0)).trans (closed f0 unused)
  rw [pipeallocBad, Action.ifThen_neg (by simp), filecloseIf, Action.bind_done put]
  rfl

theorem pipeallocBad_two {f0 f1 : FilePtr} (closed : k.table.Closed)
    (unused : (k.table.file f0).ref = 0) (more : ((k.table.use f0).file f1).ref = 0) :
    pipeallocBad symbols 0 (some f0) (some f1)
      { k with table := (k.table.use f0).use f1 } = .done none k := by
  have different := Ftable.ne_of_use more
  have second : (k.table.file f1).ref = 0 := by
    rw [← Ftable.use_of_ne k.table different]
    exact more
  have first : fileclose symbols f0 { k with table := (k.table.use f0).use f1 } =
      .done () { k with table := k.table.use f1 } := by
    have file : ((k.table.use f0).use f1).file f0 = { k.table.file f0 with ref := 1 } := by
      rw [Ftable.use_of_ne _ different.symm, Ftable.use_file]
    have table : ((k.table.use f0).use f1).drop f0 = k.table.use f1 := by
      rw [Ftable.use_comm k.table different]
      apply Ftable.drop_use
      · exact closed.setFile nofun
      · rw [Ftable.use_of_ne _ different.symm]
        exact unused
    rw [fileclose_unused]
    · dsimp only
      rw [table]
    · exact congrArg File.ref file
    · exact (congrArg File.type file).trans (closed f0 unused)
  have last : fileclose symbols f1 { k with table := k.table.use f1 } = .done () k := by
    rw [fileclose_unused]
    · dsimp only
      rw [Ftable.drop_use closed second]
    · exact congrArg File.ref (Ftable.use_file k.table f1)
    · exact (congrArg File.type (Ftable.use_file k.table f1)).trans (closed f1 second)
  rw [pipeallocBad, Action.ifThen_neg (by simp), filecloseIf, Action.bind_done first, filecloseIf,
    Action.bind_done last]
  rfl

theorem pipealloc_ends {free : List (Page symbols)} (closed : k.table.Closed)
    (frees : k.machine.Free free) :
    (pipealloc symbols pipeName k).Ends (fun _ => False) fun result later =>
      (result = none ∧ later = k) ∨ ∃ f0 f1 page rest, free = page :: rest ∧
        result = some (f0, f1) ∧ Made k later f0 f1 page := by
  rw [pipealloc, Action.ends_bind, ends_onTable]
  refine (filealloc_ends k.table).mono ?_
  rintro first table (⟨rfl, rfl, -⟩ | ⟨f0, rfl, unused, rfl⟩)
  · exact Or.inl ⟨rfl, rfl⟩
  dsimp only
  rw [Action.ends_bind, ends_onTable]
  refine (filealloc_ends (k.table.use f0)).mono ?_
  rintro second table (⟨rfl, rfl, -⟩ | ⟨f1, rfl, more, rfl⟩)
  · dsimp only
    rw [pipeallocBad_one closed unused]
    exact Or.inl ⟨rfl, rfl⟩
  dsimp only
  cases free with
  | nil =>
      rw [onMachine_bind (k := { k with table := (k.table.use f0).use f1 }) frees.kalloc_nil,
        if_pos rfl]
      rw [pipeallocBad_two closed unused more]
      exact Or.inl ⟨rfl, rfl⟩
  | cons page rest =>
      rw [onMachine_bind (k := { k with table := (k.table.use f0).use f1 }) frees.kalloc_cons,
        if_neg page.addr_ne_zero]
      have different := Ftable.ne_of_use more
      have second : (k.table.file f1).ref = 0 := by
        rw [← Ftable.use_of_ne k.table different]
        exact more
      obtain ⟨machine, made, within, pipe⟩ := @pipeallocInit_done _ pipeName
        { k with table := (k.table.use f0).use f1, machine := k.machine.take page } page f0 f1
      rw [made]
      exact Or.inr ⟨f0, f1, page, rest, rfl, rfl, different.symm, ⟨unused, second⟩, rfl, pipe,
        within, rfl⟩

theorem Made.files {middle : Kernel} {f0 f1 : FilePtr} {page : Page symbols}
    (made : Made k middle f0 f1 page) :
    middle.table.file f0 = { k.table.file f0 with ref := 1 }.readEnd page.addr ∧
      middle.table.file f1 = { k.table.file f1 with ref := 1 }.writeEnd page.addr ∧
      ∀ f, f ≠ f0 → f ≠ f1 → middle.table.file f = k.table.file f := by
  have first : ((k.table.use f0).use f1).file f0 = { k.table.file f0 with ref := 1 } := by
    rw [Ftable.use_of_ne _ made.different, Ftable.use_file]
  have second : ((k.table.use f0).use f1).file f1 = { k.table.file f1 with ref := 1 } := by
    rw [Ftable.use_file, Ftable.use_of_ne _ made.different.symm]
  rw [made.table, Ftable.connect]
  refine ⟨?_, ?_, ?_⟩
  · rw [Ftable.setFile_of_ne _ made.different, Ftable.setFile_file, first]
  · rw [Ftable.setFile_file, Ftable.setFile_of_ne _ made.different.symm, second]
  · intro f one other
    rw [Ftable.setFile_of_ne _ other, Ftable.setFile_of_ne _ one, Ftable.use_of_ne _ other,
      Ftable.use_of_ne _ one]

/-- Closing both files frees the page. -/
theorem Made.undo {middle : Kernel} {f0 f1 : FilePtr} {page : Page symbols}
    {rest : List (Page symbols)} (made : Made k middle f0 f1 page) (closed : k.table.Closed)
    (frees : k.machine.Free (page :: rest)) (ofile : middle.table.ofile = k.table.ofile) :
    ∃ later, (fileclose symbols f0 >>= fun _ => fileclose symbols f1 >>= fun _ =>
        pure (-1 : Int)) middle = .done (-1) later ∧ Undone k later (page :: rest) := by
  obtain ⟨first, second, others⟩ := made.files
  obtain ⟨fresh, -⟩ := List.nodup_cons.mp frees.nodup
  have openEnd : middle.machine.word page 144 ≠ 0 := by
    rw [made.pipe.writeopen]
    decide
  have read : fileclose symbols f0 middle = .done () { middle with
      table := middle.table.drop f0, machine := middle.machine.setWord page 143 0 } := by
    apply fileclose_pipe
    · rw [first]
      rfl
    · rw [first]
      rfl
    · rw [first]
      exact pipeclose_readopen openEnd
  have file : (middle.table.drop f0).file f1 = middle.table.file f1 :=
    Ftable.setFile_of_ne _ made.different.symm _
  have write : fileclose symbols f1 { middle with
      table := middle.table.drop f0, machine := middle.machine.setWord page 143 0 } =
        .done () { middle with
          table := (middle.table.drop f0).drop f1
          machine := ((middle.machine.setWord page 143 0).setWord page 144 0).release page } := by
    apply fileclose_pipe
    · rw [file, second]
      rfl
    · rw [file, second]
      rfl
    · rw [file, second]
      exact pipeclose_writeopen (Machine.word_setWord 143 0)
  rw [Action.bind_done read, Action.bind_done write]
  refine ⟨_, rfl, ofile, ?_, ?_, ?_, ?_, ?_⟩
  · intro f
    change (((middle.table.drop f0).drop f1).file f).ref = _
    by_cases other : f = f1
    · rw [other, Ftable.drop, Ftable.setFile_file]
      exact made.unused.2.symm
    · by_cases one : f = f0
      · rw [one, Ftable.drop, Ftable.setFile_of_ne _ made.different, Ftable.drop,
          Ftable.setFile_file]
        exact made.unused.1.symm
      · rw [Ftable.drop, Ftable.setFile_of_ne _ other, Ftable.drop, Ftable.setFile_of_ne _ one,
          others f one other]
  · intro f
    change (((middle.table.drop f0).drop f1).file f).ref = 0 →
      (((middle.table.drop f0).drop f1).file f).type = .none
    by_cases other : f = f1
    · rw [other, Ftable.drop, Ftable.setFile_file]
      exact fun _ => rfl
    · by_cases one : f = f0
      · rw [one, Ftable.drop, Ftable.setFile_of_ne _ made.different, Ftable.drop,
          Ftable.setFile_file]
        exact fun _ => rfl
      · rw [Ftable.drop, Ftable.setFile_of_ne _ other, Ftable.drop, Ftable.setFile_of_ne _ one,
          others f one other]
        exact closed f
  · have within := (made.within.setWord (show 143 < 1024 by decide) 0).setWord
      (show 144 < 1024 by decide) 0
    exact (within.keeps_free frees.take fresh).release fresh
  · intro other away
    have different : other ≠ page := by
      rintro rfl
      exact away (List.mem_cons_self ..)
    have within := (made.within.setWord (show 143 < 1024 by decide) 0).setWord
      (show 144 < 1024 by decide) 0
    exact (within.same other different).trans (Machine.same_release different)
  · change middle.caller.memory = _
    rw [made.caller]

/-! ## The system call -/

/-- Two new descriptors, for the two ends of an empty pipe in a page that was free. -/
structure Piped (k later : Kernel) (fd0 fd1 : Fin nofile) (rf wf : FilePtr) (page : Page symbols)
    (rest : List (Page symbols)) : Prop where
  fds : fd0 ≠ fd1 ∧ k.table.ofile fd0 = none ∧ k.table.ofile fd1 = none
  ofile : later.table.ofile =
    Function.update (Function.update k.table.ofile fd0 (some rf)) fd1 (some wf)
  unused : rf ≠ wf ∧ (k.table.file rf).ref = 0 ∧ (k.table.file wf).ref = 0
  readEnd : later.table.file rf = { k.table.file rf with ref := 1 }.readEnd page.addr
  writeEnd : later.table.file wf = { k.table.file wf with ref := 1 }.writeEnd page.addr
  others : ∀ f, f ≠ rf → f ≠ wf → later.table.file f = k.table.file f
  pipe : EmptyPipe later.machine page
  frees : later.machine.Free rest
  array : ∃ fd, IsBlock k.caller 0 8 fd ∧ later.caller.memory =
    (k.caller.memory.store fd.toNat 4 fd0.val).store (fd.toNat + 4) 4 fd1.val

theorem sysPipe_ends {free : List (Page symbols)} (closed : k.table.Closed)
    (frees : k.machine.Free free) (small : k.caller.sz < kernbase) :
    (sysPipe symbols pipeName k).Ends (fun _ => False) fun result later =>
      (result = 0 ∧ ∃ fd0 fd1 rf wf page rest, free = page :: rest ∧
        Piped k later fd0 fd1 rf wf page rest) ∨
      (result = -1 ∧ Undone k later free) := by
  have bound : k.caller.sz.toNat < 0x80000000 := UInt32.lt_iff_toNat_lt.mp small
  rw [sysPipe, Action.ends_bind, onCaller, Action.ends_focus]
  refine (argptr_ends bound 0 8).mono ?_
  rintro pointer caller ⟨looked, block⟩
  cases pointer with
  | none =>
      exact Or.inr ⟨rfl, rfl, fun _ => rfl, closed, frees, fun page _ => Machine.Same.refl _ page,
        looked.memory⟩
  | some fd =>
      have looks : ∀ {later : Kernel}, Undone { k with caller := caller } later free →
          Undone k later free := fun undone =>
        ⟨undone.ofile, undone.refs, undone.closed, undone.frees, undone.same,
          undone.memory.trans looked.memory⟩
      dsimp only
      rw [Action.ends_bind]
      refine (pipealloc_ends (k := { k with caller := caller }) closed frees).mono ?_
      rintro files middle (⟨rfl, rfl⟩ | ⟨rf, wf, page, rest, rfl, rfl, made⟩)
      · exact Or.inr ⟨rfl, looks (Undone.refl closed frees)⟩
      have same : middle.table.ofile = k.table.ofile := by
        rw [made.table]
        rfl
      obtain ⟨later, undo, undone⟩ := made.undo closed frees same
      dsimp only
      rw [Action.ends_bind, ends_onTable]
      refine (fdalloc_ends rf middle.table).mono ?_
      rintro first table (⟨rfl, rfl, -⟩ | ⟨fd0, rfl, free0, rfl⟩)
      · dsimp only
        have bad : pipeBad symbols none rf wf middle = .done (-1) later := undo
        rw [bad]
        exact Or.inr ⟨rfl, looks undone⟩
      dsimp only
      rw [Action.ends_bind, ends_onTable]
      refine (fdalloc_ends wf (middle.table.setOfile fd0 (some rf))).mono ?_
      rintro second table (⟨rfl, rfl, -⟩ | ⟨fd1, rfl, free1, rfl⟩)
      · dsimp only
        have cleared : (middle.table.setOfile fd0 (some rf)).setOfile fd0 none = middle.table := by
          simp only [Ftable.setOfile, Function.update_idem]
          rw [← free0, Function.update_eq_self]
        have bad : pipeBad symbols (some fd0) rf wf
            { middle with table := middle.table.setOfile fd0 (some rf) } = .done (-1) later := by
          have clear : clearFd (some fd0)
              { middle with table := middle.table.setOfile fd0 (some rf) } = .done () middle := by
            change Outcome.done () { middle with
              table := (middle.table.setOfile fd0 (some rf)).setOfile fd0 none } = _
            rw [cleared]
          rw [pipeBad, Action.bind_done clear]
          exact undo
        rw [bad]
        exact Or.inr ⟨rfl, looks undone⟩
      · obtain ⟨readEnd, writeEnd, others⟩ := made.files
        obtain ⟨word, start, -, inside⟩ := block fd rfl
        have different : fd1 ≠ fd0 := by
          rintro rfl
          rw [Ftable.setOfile] at free1
          simp at free1
        refine Or.inl ⟨rfl, fd0, fd1, rf, wf, page, rest, rfl, ?_⟩
        refine ⟨⟨different.symm, ?_, ?_⟩, ?_, ⟨made.different, made.unused⟩, readEnd, writeEnd, others,
          made.pipe, ?_, fd, block fd rfl, ?_⟩
        · rw [← same]
          exact free0
        · rw [← same]
          exact (Function.update_of_ne different _ _).symm.trans free1
        · rw [← same]
          rfl
        · exact made.within.keeps_free frees.take (List.nodup_cons.mp frees.nodup).1
        · have next : (fd + 4).toNat = fd.toNat + 4 :=
            toNat_add_small (by omega) (show (4 : UInt32).toNat < 0x80000000 by decide)
          change (middle.caller.memory.store fd.toNat 4 fd0.val).store (fd + 4).toNat 4 fd1.val = _
          rw [next, made.caller]
          change (caller.memory.store fd.toNat 4 fd0.val).store (fd.toNat + 4) 4 fd1.val = _
          rw [looked.memory]

/-- In every state that the calls of `file.c` can reach, with any free pages, a pipe
is made or nothing is taken. -/
theorem sysPipe_all_or_nothing {free : List (Page symbols)} {events : List TableEvent}
    (ran : runs Ftable.next fileinit events = some k.table) (frees : k.machine.Free free)
    (small : k.caller.sz < kernbase) :
    (sysPipe symbols pipeName k).Ends (fun _ => False) fun result later =>
      (result = 0 ∧ ∃ fd0 fd1 rf wf page rest, free = page :: rest ∧
        Piped k later fd0 fd1 rf wf page rest) ∨
      (result = -1 ∧ Undone k later free) :=
  sysPipe_ends (closed_run ran) frees small

/-- The only free page, and an array for the descriptors behind the stack. -/
def lastPage : Page smallKernel where
  addr := 0x80400000
  aligned := by decide
  after := by decide
  before := by decide

def onePage : Kernel where
  machine := ⟨fun _ => 0, 0x80400000⟩
  table := fileinit
  caller := ⟨24, 4, Memory.write (fun _ => 0) 8 [16, 0, 0, 0], []⟩
  iputs := []

theorem sysPipe_all_or_nothing_onePage :
    ∃ later fd0 fd1 rf wf, sysPipe smallKernel 0 onePage = .done 0 later ∧
      Piped onePage later fd0 fd1 rf wf lastPage [] := by
  have frees : onePage.machine.Free [lastPage] := by
    refine ⟨⟨rfl, ?_⟩, List.nodup_singleton lastPage⟩
    exact congrArg UInt32.ofNat (Memory.load_zero _ 4)
  have start : runs Ftable.next fileinit [] = some onePage.table := rfl
  have made : ∃ later, sysPipe smallKernel 0 onePage = .done 0 later := ⟨_, rfl⟩
  obtain ⟨later, done⟩ := made
  obtain ⟨-, fd0, fd1, rf, wf, page, rest, same, piped⟩ | ⟨failed, -⟩ :=
    (sysPipe_all_or_nothing start frees (by decide)).of_done done
  · cases same
    exact ⟨later, fd0, fd1, rf, wf, done, piped⟩
  · cases failed

end Files

end Xv6.Files
