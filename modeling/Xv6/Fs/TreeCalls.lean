import Xv6.Fs.OpenNode
import Xv6.Library.Shares

/-!
# The tree of files under system calls

Processes with their current directories, and open files, on one file system. A
call does to the tree what its paths say, and the file system shows the tree
again when it returns.
-/

namespace Xv6.Tree

open Xv6.Library Xv6.Fs Xv6.Path
open Xv6.Fork (FilePtr)
open Xv6.Sched (ProcPtr)

/-! ## The system -/

/-- A process refers to its current directory, and an open file to its inode. -/
abbrev Holder := ProcPtr ⊕ FilePtr

structure System where
  fs : FsState
  handle : Holder → Option InodePtr

/-- A call with its arguments. `room` is the file that `filealloc` finds for an inode, if there are
a file and a descriptor. The last descriptor of a file closes it. -/
inductive Call where
  | open_ (p : ProcPtr) (path : List UInt8) (omode : UInt32) (room : Option FilePtr)
  | mkdir (p : ProcPtr) (path : List UInt8)
  | mknod (p : ProcPtr) (path : List UInt8) (major minor : UInt32)
  | link (p : ProcPtr) (old new : List UInt8)
  | unlink (p : ProcPtr) (path : List UInt8)
  | chdir (p : ProcPtr) (path : List UInt8)
  | close (f : FilePtr)
  | fork (p child : ProcPtr)
  | exit (p : ProcPtr)

/-- A process with the current directory `cwd` runs, and has no lock before. -/
def onKernel {Value : Type} (cwd : InodePtr) (action : Action Kernel Value) :
    Action System (Value × InodePtr) := fun s =>
  match action ⟨s.fs, unlocked, cwd⟩ with
  | .blocked => .blocked
  | .panic message => .panic message
  | .done value k => .done (value, k.cwd) { s with fs := k.fs }

def setHandle (holder : Holder) (handle : Option InodePtr) : Action System Unit :=
  Action.modify fun s => { s with handle := Function.update s.handle holder handle }

/-- What the holder refers to; without that there is no such process or file. -/
def withHandle (holder : Holder) (action : InodePtr → Action System Int) : Action System Int :=
  fun s =>
    match s.handle holder with
    | none => .blocked
    | some ip => action ip s

/-- The process or file is unused. -/
def unusedThen (holder : Holder) (action : Action System Int) : Action System Int := fun s =>
  if s.handle holder = none then action s else .blocked

/-- The file keeps the inode. -/
def keepOpen (opened : Option InodePtr) (room : Option FilePtr) : Action System Int :=
  match opened, room with
  | some ip, some f => do
      setHandle (.inr f) (some ip)
      return 0
  | _, _ => return -1

def openCall (consoleread : Int → Int × List UInt8) (cwd : InodePtr) (path : List UInt8)
    (omode : UInt32) (room : Option FilePtr) : Action System Int := do
  let opened ← onKernel cwd (openNode consoleread path omode room.isSome)
  keepOpen opened.1 room

def Call.run (consoleread : Int → Int × List UInt8) : Call → Action System Int
  | .open_ p path omode none =>
      withHandle (.inl p) fun cwd => openCall consoleread cwd path omode none
  | .open_ p path omode (some f) =>
      unusedThen (.inr f) (withHandle (.inl p) fun cwd =>
        openCall consoleread cwd path omode (some f))
  | .mkdir p path => withHandle (.inl p) fun cwd => do
      let made ← onKernel cwd (sysMkdir consoleread path)
      return made.1
  | .mknod p path major minor => withHandle (.inl p) fun cwd => do
      let made ← onKernel cwd (sysMknod consoleread path major minor)
      return made.1
  | .link p old new => withHandle (.inl p) fun cwd => do
      let linked ← onKernel cwd (sysLink consoleread old new)
      return linked.1
  | .unlink p path => withHandle (.inl p) fun cwd => do
      let unlinked ← onKernel cwd (sysUnlink consoleread path)
      return unlinked.1
  | .chdir p path => withHandle (.inl p) fun cwd => do
      let changed ← onKernel cwd (sysChdir consoleread path)
      setHandle (.inl p) (some changed.2)
      return changed.1
  | .close f => withHandle (.inr f) fun ip => do
      let _ ← onKernel ip (iput ip)
      setHandle (.inr f) none
      return 0
  | .fork p child => unusedThen (.inl child) (withHandle (.inl p) fun cwd => do
      let copied ← onKernel cwd (onInodes (idup cwd))
      setHandle (.inl child) (some copied.1)
      return 0)
  | .exit p => withHandle (.inl p) fun cwd => do
      let _ ← onKernel cwd (iput cwd)
      setHandle (.inl p) none
      return 0

/-! ## What the calls do to the tree -/

/-- The tree with its files, and the nodes that processes and open files refer to. -/
structure Model where
  volume : Volume
  node : Holder → Option Nat

/-- The node where a path of process `p` begins. -/
def Model.start (model : Model) (p : ProcPtr) (path : List UInt8) : Nat :=
  if path.head? = some slash then rootino else (model.node (.inl p)).getD 0

/-- What a call answers, and what it does. -/
inductive Does (model : Model) : Call → Int → Model → Prop where
  | opened {p : ProcPtr} {path : List UInt8} {omode : UInt32} {f : FilePtr} {i : Nat}
      {after : Volume}
      (opens : Opens model.volume (model.start p path) (elements path) omode (some i) after) :
      Does model (.open_ p path omode (some f)) 0
        ⟨after, Function.update model.node (.inr f) (some i)⟩
  | notOpened {p : ProcPtr} {path : List UInt8} {omode : UInt32} {room : Option FilePtr}
      {target : Option Nat} {after : Volume}
      (opens : Opens model.volume (model.start p path) (elements path) omode target after)
      (nothing : target = none ∨ room = none) :
      Does model (.open_ p path omode room) (-1) ⟨after, model.node⟩
  | mkdir {p : ProcPtr} {path : List UInt8} {target : Option Nat} {after : Volume}
      (creates : Creates model.volume (model.start p path) (elements path) tDir target after) :
      Does model (.mkdir p path) (if target = none then -1 else 0) ⟨after, model.node⟩
  | mknod {p : ProcPtr} {path : List UInt8} {major minor : UInt32} {target : Option Nat}
      {after : Volume}
      (creates : Creates model.volume (model.start p path) (elements path) tDev target after) :
      Does model (.mknod p path major minor) (if target = none then -1 else 0) ⟨after, model.node⟩
  | link {p : ProcPtr} {old new : List UInt8} {result : Int} {after : Volume}
      (links : Links model.volume (model.start p old) (elements old) (model.start p new)
        (elements new) result after) :
      Does model (.link p old new) result ⟨after, model.node⟩
  | unlinked {p : ProcPtr} {path : List UInt8} {d i : Nat} {name : List UInt8} {after : Volume}
      (removable : model.volume.Removable (model.start p path) (elements path) d name i)
      (puts : (model.volume.unlink d name i).Puts i after) :
      Does model (.unlink p path) 0 ⟨after, model.node⟩
  | notUnlinked {p : ProcPtr} {path : List UInt8}
      (refused : ∀ d name i,
        ¬model.volume.Removable (model.start p path) (elements path) d name i) :
      Does model (.unlink p path) (-1) model
  | entered {p : ProcPtr} {path : List UInt8} {i left : Nat} {after : Volume}
      (leads : scheme.walk model.volume.naming (model.start p path) (elements path) = some i)
      (directory : model.volume.naming.kind i = tDir) (before : model.node (.inl p) = some left)
      (puts : model.volume.Puts left after) :
      Does model (.chdir p path) 0 ⟨after, Function.update model.node (.inl p) (some i)⟩
  | notEntered {p : ProcPtr} {path : List UInt8}
      (refused : ∀ i, scheme.walk model.volume.naming (model.start p path) (elements path) =
        some i → model.volume.naming.kind i ≠ tDir) :
      Does model (.chdir p path) (-1) model
  | close {f : FilePtr} {i : Nat} {after : Volume} (before : model.node (.inr f) = some i)
      (puts : model.volume.Puts i after) :
      Does model (.close f) 0 ⟨after, Function.update model.node (.inr f) none⟩
  | fork {p child : ProcPtr} {i : Nat} (parent : model.node (.inl p) = some i) :
      Does model (.fork p child) 0
        ⟨model.volume, Function.update model.node (.inl child) (some i)⟩
  | exit {p : ProcPtr} {i : Nat} {after : Volume} (before : model.node (.inl p) = some i)
      (puts : model.volume.Puts i after) :
      Does model (.exit p) 0 ⟨after, Function.update model.node (.inl p) none⟩

/-- The nodes that are referred to. -/
def System.node (s : System) (holder : Holder) : Option Nat :=
  (s.handle holder).map fun ip => (s.fs.inode ip).inum

/-- The system shows the model: the tree is consistent, and every reference is a holder's. -/
structure Good (model : Model) (s : System) : Prop where
  shows : Shows model.volume s.fs
  tree : scheme.Consistent model.volume.naming
  refs : ∀ ip, (s.fs.inode ip).ref = shares s.handle ip
  node : model.node = s.node

/-- The process may walk along the path: a string, which starts in a directory with names. -/
def System.Named (s : System) (p : ProcPtr) (path : List UInt8) : Prop :=
  0 ∉ path ∧ (path.head? ≠ some slash → ∃ cwd, s.handle (.inl p) = some cwd ∧
    (s.fs.stat (s.fs.inode cwd).inum).nlink ≠ 0)

/-- The process and the paths of a call. -/
def Call.walks : Call → List (ProcPtr × List UInt8)
  | .open_ p path _ _ => [(p, path)]
  | .mkdir p path => [(p, path)]
  | .mknod p path _ _ => [(p, path)]
  | .link p old new => [(p, old), (p, new)]
  | .unlink p path => [(p, path)]
  | .chdir p path => [(p, path)]
  | .close _ => []
  | .fork _ _ => []
  | .exit _ => []

def Call.Named (s : System) (call : Call) : Prop :=
  ∀ walk ∈ call.walks, s.Named walk.1 walk.2

/-- What the call uses is there, and what it makes is not. -/
def Call.Ready (s : System) : Call → Prop
  | .open_ p _ _ room => s.handle (.inl p) ≠ none ∧ ∀ f, room = some f → s.handle (.inr f) = none
  | .mkdir p _ => s.handle (.inl p) ≠ none
  | .mknod p _ _ _ => s.handle (.inl p) ≠ none
  | .link p _ _ => s.handle (.inl p) ≠ none
  | .unlink p _ => s.handle (.inl p) ≠ none
  | .chdir p _ => s.handle (.inl p) ≠ none
  | .close f => s.handle (.inr f) ≠ none
  | .fork p child => s.handle (.inl p) ≠ none ∧ s.handle (.inl child) = none
  | .exit p => s.handle (.inl p) ≠ none

/-- Link waits for itself when the new name is bound to its own directory. -/
def Call.Stuck (model : Model) : Call → Prop
  | .link p old new =>
      model.volume.Stuck (model.start p old) (elements old) (model.start p new) (elements new)
  | _ => False

end Xv6.Tree
