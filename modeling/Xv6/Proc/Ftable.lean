import Xv6.Library.Runs
import Xv6.Proc.Fork

/-!
# Open files

The table of open files in `file.c`, with the descriptors of the calling process.
What a function does under `ftable.lock` is one action.
-/

namespace Xv6.Files

open Xv6.Library
open Xv6.Fs (InodePtr)
open Xv6.Fork (nofile nfile FilePtr)

inductive FileType where
  | none
  | pipe
  | inode
deriving DecidableEq

/-- `struct file`; a pointer to a pipe is the address of its page. -/
structure File where
  type : FileType
  ref : Int
  readable : Bool
  writable : Bool
  pipe : UInt32
  ip : Option InodePtr
  off : UInt32

/-- `ftable`, and `ofile` of the calling process. -/
structure Ftable where
  file : FilePtr → File
  ofile : Fin nofile → Option FilePtr

def Ftable.setFile (table : Ftable) (f : FilePtr) (file : File) : Ftable :=
  { table with file := Function.update table.file f file }

def Ftable.setOfile (table : Ftable) (fd : Fin nofile) (file : Option FilePtr) : Ftable :=
  { table with ofile := Function.update table.ofile fd file }

/-- Allocate a file structure. -/
def filealloc : Action Ftable (Option FilePtr) := do
  let file ← Action.get Ftable.file
  match (List.finRange nfile).find? fun f => decide ((file f).ref = 0) with
  | none => return none
  | some f =>
      Action.modify fun table => table.setFile f { table.file f with ref := 1 }
      return some f

/-- Increment ref count for file `f`. -/
def filedup (f : FilePtr) : Action Ftable FilePtr := do
  let ref ← Action.get fun table : Ftable => (table.file f).ref
  if ref < 1 then Action.panic "filedup"
  else
    Action.modify fun table => table.setFile f { table.file f with ref := (table.file f).ref + 1 }
    return f

/-- The part of `fileclose` under the lock, with a copy of the file when that was
its last reference. -/
def fileput (f : FilePtr) : Action Ftable (Option File) := do
  let ff ← Action.get fun table : Ftable => table.file f
  if ff.ref < 1 then Action.panic "fileclose"
  else if 0 < ff.ref - 1 then
    Action.modify fun table => table.setFile f { ff with ref := ff.ref - 1 }
    return none
  else
    Action.modify fun table => table.setFile f { ff with ref := 0, type := .none }
    return some ff

/-- Allocate a file descriptor for the given file. -/
def fdalloc (f : FilePtr) : Action Ftable (Option (Fin nofile)) := do
  let ofile ← Action.get Ftable.ofile
  match (List.finRange nofile).find? fun fd => decide (ofile fd = none) with
  | none => return none
  | some fd =>
      Action.modify fun table => table.setOfile fd (some f)
      return some fd

/-! ## Every table that a run reaches -/

inductive TableEvent where
  | filealloc
  | filedup (f : FilePtr)
  | fileput (f : FilePtr)
  | fdalloc (f : FilePtr)
  /-- The fields of a file that is in use, but for the reference count. -/
  | fields (f : FilePtr) (file : File)
  /-- `ofile[fd] = 0`, and another process with descriptors of its own. -/
  | clear (fd : Fin nofile)
  | switch (ofile : Fin nofile → Option FilePtr)

def Ftable.next (table : Ftable) : TableEvent → Option Ftable
  | .filealloc => (filealloc table).state?
  | .filedup f => (filedup f table).state?
  | .fileput f => (fileput f table).state?
  | .fdalloc f => (fdalloc f table).state?
  | .fields f file =>
      if (table.file f).ref ≠ 0 then
        some (table.setFile f { file with ref := (table.file f).ref })
      else none
  | .clear fd => some (table.setOfile fd none)
  | .switch ofile => some { table with ofile := ofile }

/-- The tables at boot; the memory is zero. -/
def fileinit : Ftable where
  file := fun _ =>
    { type := .none, ref := 0, readable := false, writable := false, pipe := 0, ip := none, off := 0 }
  ofile := fun _ => none

/-! ## What the functions do -/

variable {table : Ftable} {f : FilePtr} {fd : Fin nofile}

@[simp]
theorem Ftable.setFile_file (table : Ftable) (f : FilePtr) (file : File) :
    (table.setFile f file).file f = file := Function.update_self ..

theorem Ftable.setFile_of_ne (table : Ftable) {other : FilePtr} (different : other ≠ f)
    (file : File) : (table.setFile f file).file other = table.file other :=
  Function.update_of_ne different ..

@[simp]
theorem Ftable.setFile_ofile (table : Ftable) (f : FilePtr) (file : File) :
    (table.setFile f file).ofile = table.ofile := rfl

@[simp]
theorem Ftable.setOfile_file (table : Ftable) (fd : Fin nofile) (file : Option FilePtr) :
    (table.setOfile fd file).file = table.file := rfl

/-- The table when a file is in use. -/
def Ftable.use (table : Ftable) (f : FilePtr) : Ftable :=
  table.setFile f { table.file f with ref := 1 }

/-- The table when a file is not in use any more. -/
def Ftable.drop (table : Ftable) (f : FilePtr) : Ftable :=
  table.setFile f { table.file f with ref := 0, type := .none }

theorem Ftable.use_file (table : Ftable) (f : FilePtr) :
    (table.use f).file f = { table.file f with ref := 1 } := Ftable.setFile_file ..

theorem Ftable.use_of_ne (table : Ftable) {other : FilePtr} (different : other ≠ f) :
    (table.use f).file other = table.file other := Ftable.setFile_of_ne table different _

/-- A file that was handed out twice would be in use the second time. -/
theorem Ftable.ne_of_use {table : Ftable} {other : FilePtr}
    (unused : ((table.use f).file other).ref = 0) : other ≠ f := by
  rintro rfl
  rw [Ftable.use_file] at unused
  cases unused

theorem Ftable.use_comm (table : Ftable) {other : FilePtr} (different : other ≠ f) :
    (table.use f).use other = (table.use other).use f := by
  simp only [Ftable.use, Ftable.setFile, Function.update_of_ne different,
    Function.update_of_ne different.symm]
  rw [Function.update_comm different.symm]

/-- A struct file that is not in use has type FD_NONE. -/
def Ftable.Closed (table : Ftable) : Prop := ∀ f, (table.file f).ref = 0 → (table.file f).type = .none

theorem Ftable.Closed.setFile (closed : table.Closed) {file : File}
    (unused : file.ref = 0 → file.type = .none) : (table.setFile f file).Closed := by
  intro other
  by_cases same : other = f
  · subst same
    rw [Ftable.setFile_file]
    exact unused
  · rw [Ftable.setFile_of_ne table same]
    exact closed other

theorem Ftable.drop_use {table : Ftable} (closed : table.Closed) (unused : (table.file f).ref = 0) :
    (table.use f).drop f = table := by
  have same : { { table.file f with ref := 1 } with ref := 0, type := .none } = table.file f := by
    rw [← unused, ← closed f unused]
  simp only [Ftable.drop, Ftable.use, Ftable.setFile_file]
  simp only [Ftable.setFile, Function.update_idem]
  rw [same, Function.update_eq_self]

theorem filealloc_ends (table : Ftable) :
    (filealloc table).Ends (fun _ => False) fun result later =>
      (result = none ∧ later = table ∧ ∀ f, (table.file f).ref ≠ 0) ∨
        ∃ f, result = some f ∧ (table.file f).ref = 0 ∧
          later = table.use f := by
  rw [filealloc, Action.get_bind]
  cases found : (List.finRange nfile).find? fun f => decide ((table.file f).ref = 0) with
  | none =>
      refine Or.inl ⟨rfl, rfl, fun f unused => ?_⟩
      have used := List.find?_eq_none.mp found f (List.mem_finRange f)
      exact used (decide_eq_true unused)
  | some f =>
      refine Or.inr ⟨f, rfl, ?_, rfl⟩
      simpa using List.find?_some found

/-- The only reference to a file goes. -/
theorem fileput_last (only : (table.file f).ref = 1) : fileput f table =
    .done (some (table.file f)) (table.drop f) := by
  rw [fileput, Action.get_bind, if_neg (by omega), if_neg (by omega)]
  rfl

theorem fdalloc_ends (f : FilePtr) (table : Ftable) :
    (fdalloc f table).Ends (fun _ => False) fun result later =>
      (result = none ∧ later = table ∧ ∀ fd, table.ofile fd ≠ none) ∨
        ∃ fd, result = some fd ∧ table.ofile fd = none ∧ later = table.setOfile fd (some f) := by
  rw [fdalloc, Action.get_bind]
  cases found : (List.finRange nofile).find? fun fd => decide (table.ofile fd = none) with
  | none =>
      refine Or.inl ⟨rfl, rfl, fun fd free => ?_⟩
      have used := List.find?_eq_none.mp found fd (List.mem_finRange fd)
      exact used (decide_eq_true free)
  | some fd =>
      refine Or.inr ⟨fd, rfl, ?_, rfl⟩
      simpa using List.find?_some found

/-- `fileclose` clears the type with the last reference. -/
theorem Ftable.Closed.fileput (closed : table.Closed) :
    (Files.fileput f table).Ends (fun message => message = "fileclose") fun _ later =>
      later.Closed := by
  rw [Files.fileput, Action.get_bind]
  split
  · exact rfl
  · split
    · rename_i more
      refine closed.setFile fun unused => ?_
      change (table.file f).ref - 1 = 0 at unused
      omega
    · exact closed.setFile fun _ => rfl

theorem Ftable.Closed.filedup (closed : table.Closed) :
    (Files.filedup f table).Ends (fun message => message = "filedup") fun _ later =>
      later.Closed := by
  rw [Files.filedup, Action.get_bind]
  split
  · exact rfl
  · rename_i more
    refine closed.setFile fun unused => ?_
    change (table.file f).ref + 1 = 0 at unused
    omega

theorem Ftable.Closed.next (closed : table.Closed) {event : TableEvent} {later : Ftable}
    (stepped : table.next event = some later) : later.Closed := by
  cases event with
  | filealloc =>
      have ends := filealloc_ends table
      obtain ⟨result, next, done, kept⟩ := ends.exists_done
      rw [Ftable.next, done] at stepped
      cases stepped
      obtain ⟨-, rfl, -⟩ | ⟨f, -, -, rfl⟩ := kept
      · exact closed
      · exact closed.setFile nofun
  | filedup f => exact closed.filedup.of_state stepped
  | fileput f => exact closed.fileput.of_state stepped
  | fdalloc f =>
      have ends := fdalloc_ends f table
      obtain ⟨result, next, done, kept⟩ := ends.exists_done
      rw [Ftable.next, done] at stepped
      cases stepped
      obtain ⟨-, rfl, -⟩ | ⟨fd, -, -, rfl⟩ := kept
      · exact closed
      · exact closed
  | fields f file =>
      rw [Ftable.next] at stepped
      split at stepped
      · rename_i used
        cases stepped
        exact closed.setFile fun unused => absurd unused used
      · cases stepped
  | clear fd =>
      cases stepped
      exact closed
  | switch ofile =>
      cases stepped
      exact closed

theorem closed_run {events : List TableEvent} (ran : runs Ftable.next fileinit events = some table) :
    table.Closed := by
  apply runs_invariant (fun _ => Ftable.Closed) (fun _ _ => rfl) ?_ ran
  intro _ before event after closed stepped
  exact closed.next stepped

end Xv6.Files
