import Xv6.Fs.Borrowed
import Xv6.Fs.Directory
import Xv6.Library.Components

/-!
# Path names

`skipelem`, `namex`, `namei` and `nameiparent` in `fs.c`. While the tree of
directories stays as it is, a path leads where its elements lead one after the
other, and every lock and every other reference that was taken is given back.
-/

namespace Xv6.Path

open Xv6.Library Xv6.Fs

/-! ## The functions -/

/-- The file system, the sleep locks of inodes that the process holds, and `cwd`. -/
structure Kernel where
  fs : FsState
  held : InodePtr → Bool
  cwd : InodePtr

def onInodes {Value : Type} (action : Action FsState Value) : Action Kernel Value :=
  Action.focus Kernel.fs (fun k fs => { k with fs := fs }) action

/-- Lock the inode. A process that holds the lock already waits for itself. -/
def ilock (ip : InodePtr) : Action Kernel Unit := do
  let k ← Action.get fun k : Kernel => k
  if (k.fs.inode ip).ref < 1 then Action.panic "ilock"
  else if k.held ip = true then Action.never
  else
    Action.modify fun k => { k with held := Function.update k.held ip true }
    onInodes (Fs.ilock ip)

def iunlock (ip : InodePtr) : Action Kernel Unit := do
  let k ← Action.get fun k : Kernel => k
  if k.held ip = false ∨ (k.fs.inode ip).ref < 1 then Action.panic "iunlock"
  else Action.modify fun k => { k with held := Function.update k.held ip false }

/-- Drop a reference to the inode, which is locked meanwhile. -/
def iput (ip : InodePtr) : Action Kernel Unit := do
  let k ← Action.get fun k : Kernel => k
  if k.held ip = true then Action.never else onInodes (Fs.iput ip)

/-- Unlock, then drop the reference. -/
def iunlockput (ip : InodePtr) : Action Kernel Unit := do
  iunlock ip
  iput ip

def slash : UInt8 := 47

/-- Copy the next path element from `path` into `name`, and return what follows it. A path is a
string: the bytes before its terminator. -/
def skipelem (path : List UInt8) (name : Memory) : Option (List UInt8 × Memory) :=
  let s := skip slash path
  if s = [] then none
  else
    let elem := s.takeWhile (· ≠ slash)
    let len := elem.length
    let name :=
      if dirsiz ≤ len then name.write 0 (elem.take dirsiz)
      else Function.update (name.write 0 elem) len 0
    some (skip slash (s.dropWhile (· ≠ slash)), name)

variable (consoleread : Int → Int × List UInt8)

/-- The loop of `namex`, which takes at most `fuel` turns: the inode, and what `name` holds. -/
def namexFrom (nameiparent : Bool) :
    Nat → List UInt8 → Memory → InodePtr → Action Kernel (Option InodePtr × Memory)
  | 0, _, _, _ => Action.never
  | fuel + 1, path, name, ip =>
      match skipelem path name with
      | none =>
          if nameiparent = true then do
            iput ip
            return (none, name)
          else return (some ip, name)
      | some (path, name) => do
          ilock ip
          let inode ← Action.get fun k : Kernel => k.fs.inode ip
          if inode.type ≠ tDir then
            iunlockput ip
            return (none, name)
          else if nameiparent = true ∧ path = [] then
            -- Stop one level early.
            iunlock ip
            return (some ip, name)
          else
            let next ← onInodes (dirlookup consoleread ip name)
            match next with
            | none =>
                iunlockput ip
                return (none, name)
            | some (next, _) =>
                iunlockput ip
                namexFrom nameiparent fuel path name next

/-- Where the walk begins. -/
def origin (path : List UInt8) : Action Kernel InodePtr :=
  if path.head? = some slash then onInodes (iget rootino)
  else do
    let k ← Action.get fun k : Kernel => k
    onInodes (idup k.cwd)

/-- Look up and return the inode for a path name, or for the parent and copy the final path
element into `name`. -/
def namex (path : List UInt8) (nameiparent : Bool) (name : Memory) :
    Action Kernel (Option InodePtr × Memory) := do
  let ip ← origin path
  namexFrom consoleread nameiparent (path.length + 1) path name ip

/-- The memory of `name` may hold anything before. -/
def namei (path : List UInt8) : Action Kernel (Option InodePtr) := do
  let found ← namex consoleread path false fun _ => 0
  return found.1

def nameiparent (path : List UInt8) (name : Memory) : Action Kernel (Option InodePtr × Memory) :=
  namex consoleread path true name

/-! ## The tree -/

/-- The elements of a path, truncated as entries truncate them. -/
def elements (path : List UInt8) : List (List UInt8) :=
  (components slash path).map (·.take dirsiz)

/-- The inode that a name leads to from inode `i`. Directory `i` has the content `content i`. -/
def child (fs : FileSystem) (content : Nat → List UInt8) (i : Nat) (name : List UInt8) :
    Option Nat :=
  if (fs.stat i).type = tDir then bindings (content i) name else none

/-- The inode that the names lead to, one after the other. -/
def walk (fs : FileSystem) (content : Nat → List UInt8) (i : Nat) (names : List (List UInt8)) :
    Option Nat :=
  names.foldlM (child fs content) i

/-- The directory before the last name, and the last name. -/
def walkParent (fs : FileSystem) (content : Nat → List UInt8) (i : Nat)
    (names : List (List UInt8)) : Option (Nat × List UInt8) :=
  names.getLast?.bind fun last => (walk fs content i names.dropLast).bind fun d =>
    if (fs.stat d).type = tDir then some (d, last) else none

/-- The inode where the walk along a path begins. -/
def Kernel.start (k : Kernel) (path : List UInt8) : Nat :=
  if path.head? = some slash then rootino else (k.fs.inode k.cwd).inum

/-- The inodes `nodes` are a tree of files and directories, whose entries stay in it. Each has
links, or a reference that keeps it. -/
structure Tree (fs : FsState) (nodes : Nat → Prop) (content : Nat → List UInt8) : Prop where
  sound : Sound fs
  counted : ∀ ip, 0 ≤ (fs.inode ip).ref
  inside : ∀ i, nodes i → i < fs.sb.ninodes
  allocated : ∀ i, nodes i → (fs.stat i).type ≠ 0
  kept : ∀ i, nodes i →
    (fs.stat i).nlink ≠ 0 ∨ ∃ ip, 0 < (fs.inode ip).ref ∧ (fs.inode ip).inum = i
  directory : ∀ i, nodes i → (fs.stat i).type = tDir →
    Directory fs.toFileSystem i (content i)
  closed : ∀ i, nodes i → (fs.stat i).type = tDir → ∀ j name target,
    entries (content i) j = some (name, target) → nodes target

theorem Tree.child_node {fs : FsState} {nodes : Nat → Prop} {content : Nat → List UInt8} {i j : Nat}
    {name : List UInt8} (tree : Tree fs nodes content) (node : nodes i)
    (leads : child fs.toFileSystem content i name = some j) : nodes j := by
  rw [child] at leads
  by_cases isDirectory : (fs.stat i).type = tDir
  · rw [if_pos isDirectory] at leads
    have directory := tree.directory i node isDirectory
    obtain ⟨slot, entry⟩ := (directory.distinct.lookup_iff directory.within).mp leads
    exact tree.closed i node isDirectory slot name j entry
  · rw [if_neg isDirectory] at leads
    cases leads

/-- A walk stays in the tree. -/
theorem Tree.walk_node {fs : FsState} {nodes : Nat → Prop} {content : Nat → List UInt8} {i j : Nat}
    {names : List (List UInt8)} (tree : Tree fs nodes content) (node : nodes i)
    (leads : walk fs.toFileSystem content i names = some j) : nodes j := by
  induction names generalizing i with
  | nil =>
      cases leads
      exact node
  | cons name rest inductionHypothesis =>
      rw [walk, List.foldlM_cons] at leads
      obtain ⟨next, first, further⟩ := Option.bind_eq_some_iff.mp leads
      exact inductionHypothesis (tree.child_node node first) further

/-! ## Elements of a path -/

/-- What counts of the name that `skipelem` has copied. -/
theorem nameOf_copied {elem : List UInt8} (string : 0 ∉ elem) (name : Memory) :
    nameOf (if dirsiz ≤ elem.length then name.write 0 (elem.take dirsiz)
      else Function.update (name.write 0 elem) elem.length 0) = elem.take dirsiz := by
  have nonzero : ∀ part : List UInt8, part ⊆ elem → part.takeWhile (· ≠ 0) = part := by
    intro part within
    rw [List.takeWhile_eq_self_iff]
    intro byte member
    have other : byte ≠ 0 := fun zero => string (zero ▸ within member)
    simpa using other
  by_cases long : dirsiz ≤ elem.length
  · have whole := Memory.read_write_same name 0 (elem.take dirsiz)
    rw [List.length_take, Nat.min_eq_left long] at whole
    rw [if_pos long, nameOf, whole]
    exact nonzero _ (List.take_subset ..)
  · obtain ⟨rest, total⟩ := Nat.exists_eq_add_of_lt (Nat.lt_of_not_le long)
    generalize copied : Function.update (name.write 0 elem) elem.length 0 = copy
    have front : Memory.read copy 0 elem.length = elem := by
      have stored := Memory.read_write_same name 0 elem
      rw [← copied]
      refine Eq.trans ?_ stored
      apply Memory.read_congr
      intro offset below
      exact Function.update_of_ne (by omega) ..
    have terminator : copy elem.length = 0 := by
      rw [← copied, Function.update_self]
    rw [if_neg long, nameOf, total, Nat.add_assoc, Memory.read_append, front, Nat.zero_add,
      Memory.read_succ, terminator, List.takeWhile_append_of_pos, List.takeWhile_cons_of_neg,
      List.append_nil, List.take_of_length_le]
    · omega
    · simp
    · intro byte member
      have other : byte ≠ 0 := fun zero => string (zero ▸ member)
      simpa using other

theorem skipelem_none_iff (path : List UInt8) (name : Memory) :
    skipelem path name = none ↔ components slash path = [] := by
  rw [components_eq_nil_iff, skipelem]
  by_cases none : skip slash path = []
  · simp only [none, if_true]
  · simp only [none, if_false, reduceCtorEq]

theorem skipelem_some {path rest : List UInt8} {name after : Memory} (string : 0 ∉ path)
    (element : skipelem path name = some (rest, after)) :
    elements path = nameOf after :: elements rest ∧ (rest = [] ↔ elements rest = []) ∧
      rest.length < path.length ∧ 0 ∉ rest := by
  rw [skipelem] at element
  by_cases none : skip slash path = []
  · simp only [none, if_true, reduceCtorEq] at element
  · simp only [none, if_false, Option.some.injEq, Prod.mk.injEq] at element
    obtain ⟨later, copied⟩ := element
    have skipped : skip slash path ⊆ path := List.dropWhile_subset _
    have whole := components_next none
    rw [← components_skip slash (List.dropWhile _ _), later] at whole
    have copy := @nameOf_copied ((skip slash path).takeWhile (· ≠ slash))
      (fun member => string (skipped (List.takeWhile_subset _ member))) name
    rw [copied] at copy
    refine ⟨?_, ?_, ?_, ?_⟩
    · rw [elements, whole, List.map_cons, copy, elements]
    · rw [elements, List.map_eq_nil_iff, ← later, components_skip, components_eq_nil_iff]
    · obtain ⟨byte, tail, shape⟩ := List.exists_cons_of_ne_nil none
      have total : (skip slash path).length ≤ path.length := (List.dropWhile_sublist _).length_le
      have after : rest.length ≤ tail.length := by
        rw [← later, shape, List.dropWhile_cons_of_pos (by simpa using skip_head shape)]
        exact ((List.dropWhile_sublist _).trans (List.dropWhile_sublist _)).length_le
      rw [shape, List.length_cons] at total
      omega
    · rw [← later]
      exact fun member => string (skipped (List.dropWhile_subset _ (List.dropWhile_subset _ member)))

/-! ## Locks and references -/

/-- Since `start` the process has taken `extra` references, and it holds the locks of
`locked`. -/
structure Carrying (start : Kernel) (extra : InodePtr → Nat) (locked : InodePtr → Bool)
    (k : Kernel) : Prop where
  fs : Borrowed start.fs extra k.fs
  held : k.held = locked
  cwd : k.cwd = start.cwd

/-- `ip` is an entry of the inode cache for node `i` of the tree. -/
structure Node (nodes : Nat → Prop) (k : Kernel) (ip : InodePtr) (i : Nat) : Prop where
  node : nodes i
  number : (k.fs.inode ip).inum = i

theorem onInodes_done {Value : Type} {action : Action FsState Value} {k : Kernel} {value : Value}
    {next : FsState} (done : action k.fs = .done value next) :
    onInodes action k = .done value { k with fs := next } :=
  Action.focus_done done

theorem onInodes_panic {Value : Type} {action : Action FsState Value} {k : Kernel}
    {message : String} (panic : action k.fs = .panic message) :
    onInodes action k = .panic message :=
  Action.focus_panic panic

section Locks

variable {k : Kernel} {ip : InodePtr} {fs : FsState}

theorem iput_done (free : k.held ip = false) (put : Fs.iput ip k.fs = .done () fs) :
    iput ip k = .done () { k with fs := fs } := by
  have unlocked : k.held ip ≠ true := by
    rw [free]
    decide
  rw [iput, Action.get_bind, if_neg unlocked]
  exact onInodes_done put

theorem ilock_done (referenced : 0 < (k.fs.inode ip).ref) (free : k.held ip = false)
    (locks : Fs.ilock ip k.fs = .done () fs) :
    ilock ip k = .done () { k with fs := fs, held := Function.update k.held ip true } := by
  have unlocked : k.held ip ≠ true := by
    rw [free]
    decide
  rw [ilock, Action.get_bind, if_neg (by omega), if_neg unlocked, Action.modify_bind]
  exact onInodes_done locks

theorem iunlock_done (referenced : 0 < (k.fs.inode ip).ref) (held : k.held ip = true) :
    iunlock ip k = .done () { k with held := Function.update k.held ip false } := by
  have holds : ¬(k.held ip = false ∨ (k.fs.inode ip).ref < 1) := by
    rw [held]
    rintro (unlocked | unused)
    · cases unlocked
    · omega
  rw [iunlock, Action.get_bind, if_neg holds]
  rfl

theorem iunlockput_done (referenced : 0 < (k.fs.inode ip).ref) (held : k.held ip = true)
    (put : Fs.iput ip k.fs = .done () fs) :
    iunlockput ip k = .done () { k with fs := fs, held := Function.update k.held ip false } := by
  rw [iunlockput, Action.bind_done (iunlock_done referenced held)]
  exact iput_done (Function.update_self ..) put

end Locks

namespace Carrying

variable {start k : Kernel} {nodes : Nat → Prop} {content : Nat → List UInt8}
  {extra : InodePtr → Nat} {locked : InodePtr → Bool} {ip : InodePtr} {i : Nat}

theorem referenced (carrying : Carrying start extra locked k) (taken : 0 < extra ip) :
    0 < (k.fs.inode ip).ref := by
  have counted := carrying.fs.counted ip
  have refs := carrying.fs.refs ip
  omega

theorem ilock (carrying : Carrying start extra locked k) (tree : Tree start.fs nodes content)
    (node : Node nodes k ip i) (referenced : 0 < (k.fs.inode ip).ref) (free : locked ip = false) :
    ∃ next, Path.ilock ip k = .done () next ∧
      Carrying start extra (Function.update locked ip true) next ∧ Node nodes next ip i ∧
      next.fs.live i ip = true := by
  obtain ⟨fs, done, borrowed, live⟩ := carrying.fs.ilock referenced (by
    rw [node.number]
    exact tree.allocated i node.node)
  rw [node.number] at live
  exact ⟨_, ilock_done referenced (carrying.held ▸ free) done,
    ⟨borrowed, congrArg (Function.update · ip true) carrying.held, carrying.cwd⟩,
    ⟨node.node, (live_iff.mp live).2.2⟩, live⟩

theorem iunlock (carrying : Carrying start extra (Function.update locked ip true) k)
    (node : Node nodes k ip i) (referenced : 0 < (k.fs.inode ip).ref) (free : locked ip = false) :
    ∃ next, Path.iunlock ip k = .done () next ∧ Carrying start extra locked next ∧
      Node nodes next ip i ∧ ∀ other, next.fs.inode other = k.fs.inode other := by
  have held : k.held ip = true := by rw [carrying.held, Function.update_self]
  refine ⟨_, iunlock_done referenced held, ⟨carrying.fs, ?_, carrying.cwd⟩,
    ⟨node.node, node.number⟩, fun _ => rfl⟩
  change Function.update k.held ip false = locked
  rw [carrying.held, Function.update_idem, ← free, Function.update_eq_self]

/-- A reference to a node is dropped. -/
theorem drops (carrying : Carrying start extra locked k) (tree : Tree start.fs nodes content)
    (node : Node nodes k ip i) (taken : 0 < extra ip) :
    ∃ fs, Fs.iput ip k.fs = .done () fs ∧
      Carrying start (Function.update extra ip (extra ip - 1)) locked { k with fs := fs } ∧
      ∀ other, (fs.inode other).inum = (k.fs.inode other).inum := by
  have referenced := carrying.referenced taken
  obtain ⟨fs, done, borrowed, numbers⟩ := carrying.fs.iput taken (by
    rw [node.number]
    obtain linked | ⟨other, used, same⟩ := tree.kept i node.node
    · exact Or.inl linked
    · have refs := carrying.fs.refs other
      have equal : other = ip := by
        apply carrying.fs.sound.consistent.once other ip (by omega) referenced
        rw [carrying.fs.number other used, same, node.number]
      exact Or.inr (equal ▸ used))
  exact ⟨fs, done, ⟨borrowed, carrying.held, carrying.cwd⟩, numbers⟩

theorem iput (carrying : Carrying start extra locked k) (tree : Tree start.fs nodes content)
    (node : Node nodes k ip i) (taken : 0 < extra ip) (free : locked ip = false) :
    ∃ next, Path.iput ip k = .done () next ∧
      Carrying start (Function.update extra ip (extra ip - 1)) locked next ∧
      ∀ other, (next.fs.inode other).inum = (k.fs.inode other).inum := by
  obtain ⟨fs, done, last, numbers⟩ := carrying.drops tree node taken
  exact ⟨{ k with fs := fs }, iput_done (carrying.held ▸ free) done, last, numbers⟩

theorem iunlockput (carrying : Carrying start extra (Function.update locked ip true) k)
    (tree : Tree start.fs nodes content) (node : Node nodes k ip i) (taken : 0 < extra ip)
    (free : locked ip = false) :
    ∃ next, Path.iunlockput ip k = .done () next ∧
      Carrying start (Function.update extra ip (extra ip - 1)) locked next ∧
      ∀ other, (next.fs.inode other).inum = (k.fs.inode other).inum := by
  obtain ⟨middle, unlocked, after, still, same⟩ := carrying.iunlock node (carrying.referenced taken) free
  obtain ⟨next, dropped, last, numbers⟩ := after.iput tree still taken free
  refine ⟨next, ?_, last, fun other => (numbers other).trans (congrArg Inode.inum (same other))⟩
  rw [Path.iunlockput, Action.bind_done unlocked]
  exact dropped

/-- A node that is a locked directory. -/
theorem opened (carrying : Carrying start extra locked k) (tree : Tree start.fs nodes content)
    (node : Node nodes k ip i) (live : k.fs.live i ip = true)
    (directory : (start.fs.stat i).type = tDir) : Opened k.fs ip i (content i) where
  sound := carrying.fs.sound
  live := live
  directory := (tree.directory i node.node directory).congr carrying.fs.stat carrying.fs.block
    carrying.fs.sb

end Carrying

/-! ## The walk -/

/-- Two entries of the inode cache are free. -/
def Spare (fs : FileSystem) : Prop :=
  ∃ a b, a ≠ b ∧ (fs.inode a).ref = 0 ∧ (fs.inode b).ref = 0

/-- The inode cache runs out of entries. -/
def lacksInodes (start : Kernel) (message : String) : Prop :=
  message = "iget: no inodes" ∧ ¬Spare start.fs.toFileSystem

def unlocked : InodePtr → Bool := fun _ => false

def nothing : InodePtr → Nat := fun _ => 0

/-- One reference, to `ip`. -/
def one (ip : InodePtr) : InodePtr → Nat := Function.update nothing ip 1

theorem one_self (ip : InodePtr) : one ip ip = 1 := Function.update_self ..

theorem one_pos (ip : InodePtr) : 0 < one ip ip := by
  rw [one_self]
  exact Nat.zero_lt_one

/-- One more reference leaves the first one. -/
theorem one_added (ip entry : InodePtr) :
    0 < Function.update (one ip) entry (one ip entry + 1) ip := by
  rw [Function.update_apply]
  split
  · exact Nat.succ_pos _
  · exact one_pos ip

theorem one_released (ip : InodePtr) : Function.update (one ip) ip (one ip ip - 1) = nothing := by
  rw [one_self, one, Function.update_idem]
  exact Function.update_eq_self ip nothing

/-- The reference moves from `ip` to `next`. -/
theorem one_passed (ip next : InodePtr) :
    Function.update (Function.update (one ip) next (one ip next + 1)) ip
      (Function.update (one ip) next (one ip next + 1) ip - 1) = one next := by
  funext other
  by_cases here : other = ip
  · rw [here, Function.update_self]
    by_cases same : ip = next
    · rw [← same, Function.update_self, one_self]
    · rw [Function.update_of_ne same, one_self, one, Function.update_of_ne same, nothing]
  · rw [Function.update_of_ne here]
    by_cases there : other = next
    · rw [there] at here
      rw [there, Function.update_self, one_self, one, Function.update_of_ne here, nothing]
    · rw [Function.update_of_ne there, one, one, Function.update_of_ne here,
        Function.update_of_ne there]

section Walk

variable {start k : Kernel} {nodes : Nat → Prop} {content : Nat → List UInt8}
  {locked : InodePtr → Bool} {ip : InodePtr} {i : Nat}
  {consoleread : Int → Int × List UInt8}

theorem Carrying.not_spare {extra : InodePtr → Nat} (carrying : Carrying start extra locked k)
    (few : ∀ other, other ≠ ip → extra other = 0) {target : Nat} (full : k.fs.CacheFull target) :
    ¬Spare start.fs.toFileSystem := by
  rintro ⟨a, b, different, free, also⟩
  have used : ∀ other, other ≠ ip → (start.fs.inode other).ref = 0 → False := by
    intro other away unused
    have refs := carrying.fs.refs other
    rw [few other away, unused] at refs
    exact (full other).1 refs
  by_cases same : a = ip
  · exact used b (fun equal => different (same.trans equal.symm)) also
  · exact used a same free

theorem Carrying.dirlookup (carrying : Carrying start (one ip) locked k)
    (tree : Tree start.fs nodes content) (node : Node nodes k ip i)
    (live : k.fs.live i ip = true) (directory : (start.fs.stat i).type = tDir) (name : Memory) :
    (onInodes (Fs.dirlookup consoleread ip name) k).Ends (lacksInodes start) fun found next =>
      (found = none ∧ child start.fs.toFileSystem content i (nameOf name) = none ∧ next = k) ∨
      ∃ entry off j, found = some (entry, off) ∧
        child start.fs.toFileSystem content i (nameOf name) = some j ∧
        Carrying start (Function.update (one ip) entry (one ip entry + 1)) locked next ∧
        Node nodes next entry j ∧ Node nodes next ip i := by
  have opened := carrying.opened tree node live directory
  have leads : child start.fs.toFileSystem content i (nameOf name) =
      bindings (content i) (nameOf name) := if_pos directory
  rw [leads, onInodes, Action.ends_focus, opened.dirlookup]
  obtain ⟨j, target, found, bound⟩ | ⟨missing, -, none⟩ :=
    opened.directory.find_cases (nameOf name)
  · have entry := (SlotTable.find_some found).2
    have inside := opened.directory.numbers j _ target entry
    rw [found, bound, Fs.found, Action.ends_bind]
    refine (iget_ends target k.fs).imp ?_ ?_
    · rintro message ⟨rfl, full⟩
      have few : ∀ other, other ≠ ip → one ip other = 0 :=
        fun _ away => Function.update_of_ne away ..
      exact ⟨rfl, carrying.not_spare few full⟩
    · intro found next got
      obtain ⟨borrowed, number⟩ := carrying.fs.iget (carrying.fs.sb ▸ inside) got
      have still := (opened.iget inside got).1.live
      exact Or.inr ⟨found, offsetOf j, target, rfl, rfl, ⟨borrowed, carrying.held, carrying.cwd⟩,
        ⟨tree.closed i node.node directory j _ target entry, number⟩,
        ⟨node.node, (live_iff.mp still).2.2⟩⟩
  · rw [missing, none]
    exact Or.inl ⟨rfl, rfl, rfl⟩

/-- The node that `namex` leads to. -/
def target (fs : FileSystem) (content : Nat → List UInt8) (nameiparent : Bool) :
    Nat → List (List UInt8) → Option Nat
  | i, [] => if nameiparent = true then none else some i
  | i, name :: rest =>
      if (fs.stat i).type ≠ tDir then none
      else if nameiparent = true ∧ rest = [] then some i
      else (child fs content i name).bind fun j => target fs content nameiparent j rest

/-- `namex` returned an inode with one more reference, or nothing. -/
def Returned (start next : Kernel) (target : Option Nat) : Option InodePtr → Prop
  | none => target = none ∧ Carrying start nothing unlocked next
  | some ip => target = some (next.fs.inode ip).inum ∧ Carrying start (one ip) unlocked next

theorem namexFrom_ends (tree : Tree start.fs nodes content) {path : List UInt8} {fuel : Nat}
    (carrying : Carrying start (one ip) unlocked k) (node : Node nodes k ip i)
    (string : 0 ∉ path) (fueled : path.length < fuel) (name : Memory) (parent : Bool) :
    (namexFrom consoleread parent fuel path name ip k).Ends (lacksInodes start)
      fun result next =>
        Returned start next (target start.fs.toFileSystem content parent i (elements path))
          result.1 ∧
        (parent = true → result.1 ≠ none → (elements path).getLast? = some (nameOf result.2)) := by
  induction fuel generalizing path name ip i k with
  | zero => exact absurd fueled (Nat.not_lt_zero _)
  | succ fuel inductionHypothesis =>
      rw [namexFrom]
      cases element : skipelem path name with
      | none =>
          have ended : elements path = [] := by
            rw [elements, (skipelem_none_iff path name).mp element, List.map_nil]
          dsimp only
          rw [ended, target]
          by_cases stop : parent = true
          · obtain ⟨next, dropped, last, -⟩ := carrying.iput tree node (one_pos ip) rfl
            rw [one_released] at last
            rw [if_pos stop, if_pos stop, Action.bind_done dropped]
            exact ⟨⟨rfl, last⟩, fun _ some => absurd rfl some⟩
          · rw [if_neg stop, if_neg stop]
            exact ⟨⟨by rw [node.number], carrying⟩, fun parent => absurd parent stop⟩
      | some next =>
          obtain ⟨rest, copied⟩ := next
          obtain ⟨split, ended, shorter, strings⟩ := skipelem_some string element
          have taken := one_pos ip
          obtain ⟨locking, done, held, still, live⟩ := carrying.ilock tree node (carrying.referenced taken) rfl
          have type : (locking.fs.inode ip).type = (start.fs.stat i).type := by
            rw [← held.fs.stat, stat_of_live held.fs.sound.consistent.once live]
          dsimp only
          rw [split, target, Action.bind_done done, Action.get_bind, type]
          by_cases directory : (start.fs.stat i).type = tDir
          · rw [if_neg (not_not.mpr directory), if_neg (not_not.mpr directory)]
            by_cases stop : parent = true ∧ rest = []
            · have last : elements rest = [] := ended.mp stop.2
              obtain ⟨later, unlocked, free, there, -⟩ := held.iunlock still (held.referenced taken) rfl
              rw [if_pos stop, if_pos ⟨stop.1, last⟩, Action.bind_done unlocked, last]
              exact ⟨⟨by rw [there.number], free⟩, fun _ _ => rfl⟩
            · have more : ¬(parent = true ∧ elements rest = []) := fun both =>
                stop ⟨both.1, ended.mpr both.2⟩
              rw [if_neg stop, if_neg more, Action.ends_bind]
              refine (held.dirlookup tree still live directory copied).mono ?_
              rintro found next (⟨rfl, missing, rfl⟩ | ⟨entry, off, j, rfl, leads, both, new, old⟩)
              · obtain ⟨later, unlocked, last, -⟩ := held.iunlockput tree still taken rfl
                rw [one_released] at last
                rw [missing]
                dsimp only
                rw [Action.bind_done unlocked]
                exact ⟨⟨rfl, last⟩, fun _ some => absurd rfl some⟩
              · obtain ⟨later, unlocked, last, numbers⟩ :=
                  both.iunlockput tree old (one_added ip entry) rfl
                rw [one_passed] at last
                have walked := inductionHypothesis last
                  ⟨new.node, (numbers entry).trans new.number⟩ strings
                  (Nat.lt_of_lt_of_le shorter (Nat.le_of_lt_succ fueled)) copied
                rw [leads]
                dsimp only
                rw [Action.bind_done unlocked]
                refine walked.mono ?_
                rintro result finish ⟨returned, last⟩
                refine ⟨returned, fun parent some => ?_⟩
                rw [List.getLast?_cons, last parent some]
                rfl
          · obtain ⟨later, unlocked, last, -⟩ := held.iunlockput tree still taken rfl
            rw [one_released] at last
            rw [if_pos directory, if_pos directory, Action.bind_done unlocked]
            exact ⟨⟨rfl, last⟩, fun _ some => absurd rfl some⟩

theorem target_false (fs : FileSystem) (content : Nat → List UInt8) (i : Nat)
    (names : List (List UInt8)) : target fs content false i names = walk fs content i names := by
  induction names generalizing i with
  | nil => rfl
  | cons name rest inductionHypothesis =>
      rw [target, walk, List.foldlM_cons, child]
      by_cases directory : (fs.stat i).type = tDir
      · rw [if_neg (not_not.mpr directory), if_neg (by simp), if_pos directory]
        exact congrArg _ (funext inductionHypothesis)
      · rw [if_pos directory, if_neg directory]
        rfl

theorem target_true (fs : FileSystem) (content : Nat → List UInt8) (i : Nat)
    (names : List (List UInt8)) :
    target fs content true i names = (walkParent fs content i names).map Prod.fst := by
  induction names generalizing i with
  | nil => rfl
  | cons name rest inductionHypothesis =>
      cases rest with
      | nil =>
          by_cases directory : (fs.stat i).type = tDir <;>
            simp [target, walkParent, walk, directory]
      | cons next rest =>
          have step : target fs content true i (name :: next :: rest) =
              (child fs content i name).bind fun j => target fs content true j (next :: rest) := by
            rw [target, child]
            by_cases directory : (fs.stat i).type = tDir <;> simp [directory]
          have first : walk fs content i (name :: next :: rest).dropLast =
              (child fs content i name).bind fun j =>
                walk fs content j (next :: rest).dropLast := by
            rw [List.dropLast_cons_cons, walk, List.foldlM_cons]
            rfl
          rw [step, walkParent, List.getLast?_cons_cons, first]
          simp only [inductionHypothesis, walkParent]
          cases child fs content i name with
          | none =>
              cases (next :: rest).getLast? with
              | none => rfl
              | some last => rfl
          | some j => rfl

theorem walkParent_last {fs : FileSystem} {names : List (List UInt8)} {parent : Nat × List UInt8}
    (found : walkParent fs content i names = some parent) : names.getLast? = some parent.2 := by
  obtain ⟨last, listed, found⟩ := Option.bind_eq_some_iff.mp found
  obtain ⟨d, -, found⟩ := Option.bind_eq_some_iff.mp found
  split at found
  · cases found
    exact listed
  · cases found

/-! ## namei and nameiparent -/

/-- The tree, with the root and the current directory in it. The process holds no lock. -/
structure Ready (k : Kernel) (nodes : Nat → Prop) (content : Nat → List UInt8) : Prop where
  tree : Tree k.fs nodes content
  root : nodes rootino
  cwd : nodes (k.fs.inode k.cwd).inum
  referenced : 0 < (k.fs.inode k.cwd).ref
  free : k.held = unlocked

theorem Ready.begins (ready : Ready k nodes content) (path : List UInt8) :
    nodes (k.start path) := by
  rw [Kernel.start]
  split
  · exact ready.root
  · exact ready.cwd

theorem Ready.carrying (ready : Ready k nodes content) : Carrying k nothing unlocked k :=
  ⟨Borrowed.refl ready.tree.sound ready.tree.counted, ready.free, rfl⟩

theorem origin_ends (ready : Ready k nodes content) (path : List UInt8) :
    (origin path k).Ends (lacksInodes k) fun ip next =>
      Carrying k (one ip) unlocked next ∧ Node nodes next ip (k.start path) := by
  rw [origin, Kernel.start]
  by_cases absolute : path.head? = some slash
  · have inside := ready.tree.inside rootino ready.root
    rw [if_pos absolute, if_pos absolute, onInodes, Action.ends_focus]
    refine (iget_ends rootino k.fs).imp ?_ ?_
    · rintro message ⟨rfl, full⟩
      have few : ∀ other, other ≠ k.cwd → nothing other = 0 := fun _ _ => rfl
      exact ⟨rfl, ready.carrying.not_spare few full⟩
    · intro ip fs got
      obtain ⟨borrowed, number⟩ := ready.carrying.fs.iget inside got
      exact ⟨⟨borrowed, ready.free, rfl⟩, ready.root, number⟩
  · obtain ⟨fs, done, borrowed, number⟩ := ready.carrying.fs.idup ready.referenced
    rw [if_neg absolute, if_neg absolute, Action.get_bind, onInodes_done done]
    exact ⟨⟨borrowed, ready.free, rfl⟩, ready.cwd, number⟩

theorem namex_ends (ready : Ready k nodes content) {path : List UInt8} (string : 0 ∉ path)
    (parent : Bool) (name : Memory) :
    (namex consoleread path parent name k).Ends (lacksInodes k) fun result next =>
      Returned k next (target k.fs.toFileSystem content parent (k.start path) (elements path))
        result.1 ∧
      (parent = true → result.1 ≠ none → (elements path).getLast? = some (nameOf result.2)) := by
  rw [namex, Action.ends_bind]
  refine (origin_ends ready path).mono ?_
  rintro ip next ⟨carrying, node⟩
  exact namexFrom_ends ready.tree carrying node string (Nat.lt_succ_self _) name parent

theorem namei_returns (ready : Ready k nodes content) {path : List UInt8} (string : 0 ∉ path) :
    (namei consoleread path k).Ends (lacksInodes k) fun result next =>
      Returned k next (walk k.fs.toFileSystem content (k.start path) (elements path)) result := by
  rw [namei, Action.ends_bind]
  refine (namex_ends ready string false fun _ => 0).mono ?_
  rintro result next ⟨returned, -⟩
  rw [target_false] at returned
  exact returned

/-- No lock is held, and nothing has changed but one more reference to what is returned. -/
structure Balanced (before after : Kernel) (result : Option InodePtr) : Prop where
  unlocked : ∀ ip, after.held ip = false
  refs : ∀ ip, (after.fs.inode ip).ref =
    (before.fs.inode ip).ref + if result = some ip then 1 else 0
  number : ∀ ip, 0 < (before.fs.inode ip).ref → (after.fs.inode ip).inum = (before.fs.inode ip).inum
  block : after.fs.block = before.fs.block
  stat : ∀ i, after.fs.stat i = before.fs.stat i

theorem Returned.balanced {next : Kernel} {target : Option Nat} {result : Option InodePtr}
    (returned : Returned k next target result) :
    Balanced k next result ∧ result.map (fun ip => (next.fs.inode ip).inum) = target := by
  cases result with
  | none =>
      obtain ⟨rfl, carrying⟩ := returned
      exact ⟨⟨fun ip => congrFun carrying.held ip, carrying.fs.refs, carrying.fs.number,
        carrying.fs.block, carrying.fs.stat⟩, rfl⟩
  | some ip =>
      obtain ⟨rfl, carrying⟩ := returned
      refine ⟨⟨fun ip => congrFun carrying.held ip, ?_, carrying.fs.number, carrying.fs.block,
        carrying.fs.stat⟩, rfl⟩
      intro other
      rw [carrying.fs.refs other, one, Function.update_apply]
      by_cases same : other = ip
      · simp [same]
      · have away : ¬ip = other := fun equal => same equal.symm
        simp [same, away, nothing]

end Walk

/-- A path leads where its elements lead, unless the inode cache runs out of entries. -/
theorem namei_walks (consoleread : Int → Int × List UInt8) (k : Kernel) (nodes : Nat → Prop)
    (content : Nat → List UInt8) (ready : Ready k nodes content) (path : List UInt8)
    (string : 0 ∉ path) :
    ((namei consoleread path k).Ends (lacksInodes k) fun result next =>
      Balanced k next result ∧ result.map (fun ip => (next.fs.inode ip).inum) =
        walk k.fs.toFileSystem content (k.start path) (elements path)) ∧
    ∀ name, (nameiparent consoleread path name k).Ends (lacksInodes k) fun result next =>
      Balanced k next result.1 ∧
      result.1.map (fun ip => ((next.fs.inode ip).inum, nameOf result.2)) =
        walkParent k.fs.toFileSystem content (k.start path) (elements path) := by
  constructor
  · refine (namei_returns ready string).mono ?_
    rintro result next returned
    exact returned.balanced
  · intro name
    refine (namex_ends ready string true name).mono ?_
    rintro result next ⟨returned, last⟩
    obtain ⟨balanced, leads⟩ := returned.balanced
    refine ⟨balanced, ?_⟩
    rw [target_true] at leads
    cases found : walkParent k.fs.toFileSystem content (k.start path) (elements path) with
    | none =>
        rw [found, Option.map_none, Option.map_eq_none_iff] at leads
        rw [leads]
        rfl
    | some parent =>
        rw [found, Option.map_some, Option.map_eq_some_iff] at leads
        obtain ⟨ip, returned, number⟩ := leads
        have name := (walkParent_last found).symm.trans
          (last rfl (by rw [returned]; exact Option.some_ne_none ip))
        rw [returned, Option.map_some, number, ← Option.some.inj name]

/-! ## A file in the root directory -/

/-- A root directory, which stays referenced, and a file with one link. -/
def rootAndFile : List FsOp :=
  let root : InodePtr := ⟨0, ninode_pos⟩
  let file : InodePtr := ⟨1, by decide⟩
  [.ialloc tDir, .ilock root, .relink root 0 0 1, .ialloc tFile, .ilock file, .relink file 0 0 1,
    .iput file]

/-- The path "/a". -/
def pathA : List UInt8 := [47, 97]

/-- The root directory is open and empty, and inode 2 is a file with one link. -/
def Made (start : FsState) : Prop :=
  start.sb.ninodes = 200 ∧ (start.stat 1).type = tDir ∧ (start.stat 1).size = 0 ∧
    (start.stat 2).type = tFile ∧ (start.stat 2).nlink = 1 ∧ (∀ ip, 0 ≤ (start.inode ip).ref) ∧
    (0 < (start.inode ⟨0, ninode_pos⟩).ref ∧ (start.inode ⟨0, ninode_pos⟩).valid = true ∧
      (start.inode ⟨0, ninode_pos⟩).inum = 1) ∧ start.needed 1 0 direntSize ≤ start.free

instance (start : FsState) : Decidable (Made start) := by
  unfold Made
  infer_instance

/-- The file is linked as "a", and keeps its bytes. -/
theorem ready_made {start : FsState} (sound : Sound start) (made : Made start) :
    ∃ next content, KeepsOpen start.toFileSystem next.toFileSystem ∧
      (∀ array, File start.toFileSystem 2 array → File next.toFileSystem 2 array) ∧
      Ready ⟨next, unlocked, ⟨0, ninode_pos⟩⟩ (fun i => i = 1 ∨ i = 2) content ∧
      walk next.toFileSystem content rootino (elements pathA) = some 2 := by
  obtain ⟨ninodes, type, size, file, linked, counted, ⟨referenced, valid, number⟩, enough⟩ := made
  have opened := opened_empty sound (live_iff.mpr ⟨referenced, valid, number⟩) type size
  obtain ⟨next, after, -, relisted, -, changed⟩ := @Opened.dirlink_room _ _ _ _
    (fun n => (n, [])) opened nameA 2 rfl (by decide) (by decide)
    (by rw [ninodes]; decide) (Or.inr ⟨by decide, enough⟩)
  have directory := relisted.opened.directory
  have live := live_iff.mp relisted.opened.live
  have kind := relisted.kinds.kinds 2 (by rw [ninodes]; decide)
  refine ⟨next, fun _ => after, relisted.keeps, relisted.others 2 (by decide),
    ⟨⟨relisted.opened.sound, ?_, ?_, ?_, ?_, ?_, ?_⟩, Or.inl rfl, Or.inl live.2.2, live.1, rfl⟩, ?_⟩
  · intro ip
    rw [(relisted.keeps ip).1]
    exact counted ip
  · rintro i (rfl | rfl)
    · exact directory.file.inside
    · rw [relisted.kinds.sb, ninodes]
      decide
  · rintro i (rfl | rfl)
    · rw [directory.type]
      decide
    · rw [kind.type, file]
      decide
  · rintro i (rfl | rfl)
    · exact Or.inr ⟨_, live.1, live.2.2⟩
    · refine Or.inl ?_
      rw [kind.nlink, linked]
      decide
  · rintro i (rfl | rfl) isDirectory
    · exact directory
    · rw [kind.type, file] at isDirectory
      cases isDirectory
  · rintro i - - j name target entry
    have bound := (directory.distinct.lookup_iff directory.within).mpr ⟨j, entry⟩
    change bindings after name = some target at bound
    rw [changed, Function.update_apply] at bound
    split at bound
    · cases bound
      exact Or.inr rfl
    · cases bound
  · have path : elements pathA = [nameOf nameA] := by decide
    have bound : bindings after (nameOf nameA) = some 2 := by
      rw [changed, Function.update_self]
    have root : (next.stat rootino).type = tDir := directory.type
    rw [path, walk, List.foldlM_cons, child, if_pos root, bound]
    rfl

theorem namei_walks_pathA : ∃ k content result next,
    namei (fun n => (n, [])) pathA k = .done result next ∧ Balanced k next result ∧
      walk k.fs.toFileSystem content (k.start pathA) (elements pathA) = some 2 ∧
      result.map (fun ip => (next.fs.inode ip).inum) = some 2 := by
  have facts : (runs FsState.next blankDisk rootAndFile).map (fun start => decide (Made start ∧
      (start.inode ⟨1, by decide⟩).ref = 0 ∧ (start.inode ⟨2, by decide⟩).ref = 0)) =
        some true := by decide +kernel
  obtain ⟨start, ran, holds⟩ := Option.map_eq_some_iff.mp facts
  obtain ⟨made, free, also⟩ := of_decide_eq_true holds
  obtain ⟨fs, content, keeps, -, ready, leads⟩ := ready_made (sound_run blankDisk_image ran) made
  have spare : ∀ message, ¬lacksInodes ⟨fs, unlocked, ⟨0, ninode_pos⟩⟩ message :=
    fun _ lacks => lacks.2 ⟨⟨1, by decide⟩, ⟨2, by decide⟩, by decide, (keeps _).1.trans free,
      (keeps _).1.trans also⟩
  obtain ⟨result, next, done, balanced, walked⟩ := ((namei_walks (fun n => (n, [])) _ _ _ ready
    pathA (by decide)).1.imp spare fun _ _ walked => walked).exists_done
  exact ⟨_, content, result, next, done, balanced, leads, walked.trans leads⟩

/-- With a full inode cache `namei` does not get to a file that is there. -/
theorem namei_panics : ∃ k nodes content path, Ready k nodes content ∧ 0 ∉ path ∧
    walk k.fs.toFileSystem content (k.start path) (elements path) = some 2 ∧
    ∀ consoleread, namei consoleread path k = .panic "iget: no inodes" := by
  have facts : (runs FsState.next blankDisk (rootAndFile ++ (List.range' 3 49).map .iget)).map
      (fun start => decide (Made start ∧ ∀ ip, 0 < (start.inode ip).ref ∧
        (start.inode ip).inum ≠ 2)) = some true := by decide +kernel
  obtain ⟨start, ran, holds⟩ := Option.map_eq_some_iff.mp facts
  obtain ⟨made, full⟩ := of_decide_eq_true holds
  obtain ⟨fs, content, keeps, -, ready, leads⟩ := ready_made (sound_run blankDisk_image ran) made
  refine ⟨_, _, content, pathA, ready, by decide, leads, ?_⟩
  intro consoleread
  have ends := (namei_walks consoleread _ _ content ready pathA (by decide)).1
  cases outcome : namei consoleread pathA ⟨fs, unlocked, ⟨0, ninode_pos⟩⟩ with
  | blocked =>
      rw [outcome] at ends
      exact ends.elim
  | panic message => rw [(ends.of_panic outcome).1]
  | done result next =>
      obtain ⟨balanced, walked⟩ := ends.of_done outcome
      obtain ⟨ip, -, number⟩ := Option.map_eq_some_iff.mp (walked.trans leads)
      obtain ⟨ref, -, same⟩ := keeps ip
      have used : 0 < (fs.inode ip).ref := by
        rw [ref]
        exact (full ip).1
      have kept := balanced.number ip used
      exact absurd (same.symm.trans (kept.symm.trans number)) (full ip).2

end Xv6.Path
