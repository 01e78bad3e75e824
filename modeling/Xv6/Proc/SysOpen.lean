import Xv6.Fs.Create
import Xv6.Proc.SysPipe

/-!
# Opening a file

`sys_open` with all that it takes: an inode, a file and a descriptor. The file is
made before the other two are there.
-/

namespace Xv6.Opening

open Xv6.Library Xv6.Fs Xv6.Syscall
open Xv6.Files (Ftable File TableEvent fileinit filealloc fdalloc fileclose onTable onCaller)
open Xv6.Fork (nofile FilePtr)
open Xv6.Path (Ready Tree Node Carrying Balanced Created Absent pathA)
open Xv6.Vm (Symbols kernbase)

/-- The open files with the memory of the caller, and the inodes. -/
structure System where
  files : Files.Kernel
  inodes : Path.Kernel

def onFiles {Value : Type} (action : Action Files.Kernel Value) : Action System Value :=
  Action.focus System.files (fun s files => { s with files := files }) action

def onInodes {Value : Type} (action : Action Path.Kernel Value) : Action System Value :=
  Action.focus System.inodes (fun s inodes => { s with inodes := inodes }) action

/-! ## The function -/

def oRdonly : UInt32 := 0x000
def oWronly : UInt32 := 0x001
def oRdwr : UInt32 := 0x002
def oCreate : UInt32 := 0x200

section Model

variable (symbols : Symbols) (consoleread : Int → Int × List UInt8)

/-- A file and a descriptor for an inode that is locked. -/
def openInode (ip : InodePtr) (omode : UInt32) : Action System Int := do
  match ← onFiles (onTable filealloc) with
  | none =>
      onInodes (Path.iunlockput ip)
      return -1
  | some f =>
      match ← onFiles (onTable (fdalloc f)) with
      | none =>
          onFiles (fileclose symbols f)
          onInodes (Path.iunlockput ip)
          return -1
      | some fd =>
          onInodes (Path.iunlock ip)
          onFiles (Files.setFields f fun file => { file with
            type := .inode, ip := some ip, off := 0, readable := decide (omode &&& oWronly = 0),
            writable := decide (omode &&& oWronly ≠ 0 ∨ omode &&& oRdwr ≠ 0) })
          return fd.val

def sysOpen : Action System Int := do
  match ← onFiles (onCaller (argstr 0)) with
  | none => return -1
  | some (path, length) =>
      match ← onFiles (onCaller (argint 1)) with
      | none => return -1
      | some omode =>
          let bytes ← Action.get fun s : System =>
            s.files.caller.memory.read path.toNat length.toNat
          if omode &&& oCreate ≠ 0 then
            match ← onInodes (Path.create consoleread bytes tFile 0 0) with
            | none => return -1
            | some ip => openInode symbols ip omode
          else
            match ← onInodes (Path.namei consoleread bytes) with
            | none => return -1
            | some ip =>
                onInodes (Path.ilock ip)
                let inode ← Action.get fun s : System => s.inodes.fs.inode ip
                if inode.type = tDir ∧ omode ≠ oRdonly then
                  onInodes (Path.iunlockput ip)
                  return -1
                else openInode symbols ip omode

end Model

/-! ## What open leaves -/

/-- The tree of directories with all inodes, the descriptors, the open files and the references
are as before. -/
structure Unchanged (before after : System) : Prop where
  table : after.files.table = before.files.table
  machine : after.files.machine = before.files.machine
  memory : after.files.caller.memory = before.files.caller.memory
  inodes : Balanced before.inodes after.inodes none

/-- No file is unused, or no descriptor. -/
def Full (table : Ftable) : Prop := (∀ f, (table.file f).ref ≠ 0) ∨ ∀ fd, table.ofile fd ≠ none

/-- The arguments of the call, a string and a word. -/
def Arguments (c : Caller) (path : List UInt8) (omode : UInt32) : Prop :=
  ∃ p length middle later, argstr 0 c = .done (some (p, length)) middle ∧
    argint 1 middle = .done (some omode) later ∧ path = later.memory.read p.toNat length.toNat

/-- `create` makes a file, and then no file or no descriptor is left for it. -/
def LeavesFile (s : System) (content : Nat → List UInt8) : Prop :=
  ∃ path omode, Arguments s.files.caller path omode ∧ omode &&& oCreate ≠ 0 ∧
    Absent s.inodes content path ∧ Full s.files.table

section Ends

variable {symbols : Symbols} {consoleread : Int → Int × List UInt8} {s : System}
  {nodes : Nat → Prop} {content : Nat → List UInt8} {ip : InodePtr} {omode : UInt32}
  {Value : Type} {value : Value}

theorem onFiles_done {action : Action Files.Kernel Value} {files : Files.Kernel}
    (done : action s.files = .done value files) :
    onFiles action s = .done value { s with files := files } := Action.focus_done done

theorem onInodes_done {action : Action Path.Kernel Value} {inodes : Path.Kernel}
    (done : action s.inodes = .done value inodes) :
    onInodes action s = .done value { s with inodes := inodes } := Action.focus_done done

/-- The inode is given back when there is no file or no descriptor for it. -/
theorem openInode_ends (closed : s.files.table.Closed) {opened back : Path.Kernel}
    (unlocks : Path.iunlock ip s.inodes = .done () opened)
    (puts : Path.iunlockput ip s.inodes = .done () back) :
    (openInode symbols ip omode s).Ends (fun _ => False) fun result next =>
      (0 ≤ result ∧ ¬Full s.files.table) ∨
        (result = -1 ∧ Full s.files.table ∧ next = { s with inodes := back }) := by
  obtain ⟨found, table, done, none⟩ := (Files.filealloc_ends s.files.table).exists_done
  have first : onFiles (onTable filealloc) s =
      .done found { s with files := { s.files with table := table } } :=
    onFiles_done (Action.focus_done done)
  rw [openInode, Action.bind_done first]
  obtain ⟨rfl, rfl, used⟩ | ⟨f, rfl, unused, rfl⟩ := none
  · dsimp only
    rw [Action.bind_done (onInodes_done puts)]
    exact Or.inr ⟨rfl, Or.inl used, rfl⟩
  · obtain ⟨found, table, done, none⟩ := (Files.fdalloc_ends f (s.files.table.use f)).exists_done
    have second : onFiles (onTable (fdalloc f))
        { s with files := { s.files with table := s.files.table.use f } } =
          .done found { s with files := { s.files with table := table } } :=
      onFiles_done (Action.focus_done done)
    dsimp only
    rw [Action.bind_done second]
    obtain ⟨rfl, rfl, used⟩ | ⟨fd, rfl, free, rfl⟩ := none
    · have only : ((s.files.table.use f).file f).ref = 1 := by rw [Ftable.use_file]
      have type : ((s.files.table.use f).file f).type = .none := by
        rw [Ftable.use_file]
        exact closed f unused
      have closes : onFiles (fileclose symbols f)
          { s with files := { s.files with table := s.files.table.use f } } = .done () s := by
        have close := @Files.fileclose_unused symbols
          { s.files with table := s.files.table.use f } f only type
        rw [onFiles_done close]
        dsimp only
        rw [Ftable.drop_use closed unused]
      dsimp only
      rw [Action.bind_done closes, Action.bind_done (onInodes_done puts)]
      exact Or.inr ⟨rfl, Or.inr used, rfl⟩
    · dsimp only
      rw [Action.ends_bind, onInodes, Action.ends_focus, unlocks]
      refine Or.inl ⟨Int.natCast_nonneg _, ?_⟩
      rintro (files | descriptors)
      · exact files f unused
      · exact descriptors fd free

/-! ## The arguments -/

theorem Arguments.unique {c : Caller} {path other : List UInt8} {omode mode : UInt32}
    (first : Arguments c path omode) (second : Arguments c other mode) :
    path = other ∧ omode = mode := by
  obtain ⟨p, length, middle, later, string, word, rfl⟩ := first
  obtain ⟨p', length', middle', later', string', word', rfl⟩ := second
  cases string.symm.trans string'
  cases word.symm.trans word'
  exact ⟨rfl, rfl⟩

/-- Without a file that was made, open leaves everything as before. -/
theorem not_leavesFile {path : List UInt8} (arguments : Arguments s.files.caller path omode)
    (fails : omode &&& oCreate ≠ 0 → Absent s.inodes content path → ¬Full s.files.table) :
    ¬LeavesFile s content := by
  rintro ⟨other, mode, same, creates, absent, full⟩
  obtain ⟨rfl, rfl⟩ := arguments.unique same
  exact fails creates absent full

/-- A string has no NUL before its end. -/
theorem string_read {c : Caller} {p : UInt32} {length : Int} (string : IsString c p length) :
    0 ∉ c.memory.read p.toNat length.toNat := by
  intro member
  rw [Memory.read, List.mem_map] at member
  obtain ⟨i, below, zero⟩ := member
  exact string.first i (List.mem_range.mp below) zero

/-! ## The system call -/

/-- The file that was made stays. -/
theorem open_created {start k : Path.Kernel} (created : Created start ip k)
    (files : Files.Kernel) (closed : files.table.Closed) :
    (openInode symbols ip omode ⟨files, k⟩).Ends (fun _ => False) fun result next =>
      (0 ≤ result ∧ ¬Full files.table) ∨
        (result = -1 ∧ Full files.table ∧ ¬Balanced start next.inodes none) := by
  obtain ⟨referenced, -, -⟩ := live_iff.mp created.live
  have held : k.held ip = true := by
    rw [created.held, Function.update_self]
  obtain ⟨fs, put, released⟩ := iput_released created.sound referenced
    (fun _ => Or.inl (by rw [created.nlink]; decide)) fun _ => created.flushed
  refine (@openInode_ends symbols ⟨files, k⟩ _ _ closed _ _ (Path.iunlock_done referenced held)
    (Path.iunlockput_done referenced held put)).mono ?_
  rintro result next (opened | ⟨failed, full, rfl⟩)
  · exact Or.inl opened
  · refine Or.inr ⟨failed, full, fun balanced => ?_⟩
    have kind := (released.stat (k.fs.inode ip).inum).kind.type
    rw [stat_of_live created.sound.consistent.once created.live, created.type] at kind
    have before := created.unused
    rw [← balanced.stat] at before
    exact absurd (kind.symm.trans before) (by decide)

/-- The file that was there is given back. -/
theorem open_found {start k : Path.Kernel} {i : Nat} (tree : Tree start.fs nodes content)
    (carrying : Carrying start (Path.one ip) (Function.update Path.unlocked ip true) k)
    (node : Node nodes k ip i) (files : Files.Kernel) (closed : files.table.Closed) :
    (openInode symbols ip omode ⟨files, k⟩).Ends (fun _ => False) fun result next =>
      (0 ≤ result ∧ ¬Full files.table) ∨
        (result = -1 ∧ Full files.table ∧ next.files = files ∧
          Carrying start Path.nothing Path.unlocked next.inodes) := by
  have taken := Path.one_pos ip
  obtain ⟨opened, unlocks, -⟩ := carrying.iunlock node (carrying.referenced taken) rfl
  obtain ⟨back, puts, last, -⟩ := carrying.iunlockput tree node taken rfl
  rw [Path.one_released] at last
  refine (@openInode_ends symbols ⟨files, k⟩ _ _ closed _ _ unlocks puts).mono ?_
  rintro result next (opened | ⟨failed, full, rfl⟩)
  · exact Or.inl opened
  · exact Or.inr ⟨failed, full, rfl, last⟩

/-- The caller's memory has been read, and no inode was taken. -/
theorem Unchanged.of_nothing {caller : Caller} {next : System}
    (looked : Looked s.files.caller caller) (same : next.files = { s.files with caller := caller })
    (carrying : Carrying s.inodes Path.nothing Path.unlocked next.inodes) : Unchanged s next where
  table := by rw [same]
  machine := by rw [same]
  memory := by
    rw [same]
    exact looked.memory
  inodes := (@Path.Returned.balanced _ _ none none ⟨rfl, carrying⟩).1

theorem sysOpen_ends (closed : s.files.table.Closed) (small : s.files.caller.sz < kernbase)
    (ready : Ready s.inodes nodes content) (settled : AtRest s.inodes.fs.toFileSystem) :
    (sysOpen symbols consoleread s).Ends (fun _ => True) fun result next =>
      (LeavesFile s content ∧ result = -1 ∧ ¬Unchanged s next) ∨
        (¬LeavesFile s content ∧ (result = -1 → Unchanged s next)) := by
  have bound : s.files.caller.sz.toNat < 0x80000000 := UInt32.lt_iff_toNat_lt.mp small
  obtain ⟨pointer, middle, string, looked, strings⟩ := (argstr_ends bound 0).exists_done
  have first : onFiles (onCaller (argstr 0)) s =
      .done pointer { s with files := { s.files with caller := middle } } :=
    onFiles_done (Action.focus_done string)
  rw [sysOpen, Action.bind_done first]
  cases pointer with
  | none =>
      refine Or.inr ⟨?_, fun _ => Unchanged.of_nothing looked rfl ready.carrying⟩
      rintro ⟨path, omode, ⟨p, length, middle, later, other, -⟩, -⟩
      cases string.symm.trans other
  | some argument =>
      obtain ⟨p, length⟩ := argument
      obtain ⟨-, terminated⟩ := strings _ rfl
      obtain ⟨number, later, word, also, -⟩ :=
        (argint_ends (c := middle) (looked.sz ▸ bound) 1).exists_done
      have second : onFiles (onCaller (argint 1))
          { s with files := { s.files with caller := middle } } =
            .done number { s with files := { s.files with caller := later } } :=
        onFiles_done (Action.focus_done word)
      have read := looked.trans also
      dsimp only
      rw [Action.bind_done second]
      cases number with
      | none =>
          refine Or.inr ⟨?_, fun _ => Unchanged.of_nothing read rfl ready.carrying⟩
          rintro ⟨path, omode, ⟨p, length, middle, later, other, more, -⟩, -⟩
          cases string.symm.trans other
          cases word.symm.trans more
      | some omode =>
          have arguments : Arguments s.files.caller
              (later.memory.read p.toNat length.toNat) omode :=
            ⟨p, length, middle, later, string, word, rfl⟩
          have plain : 0 ∉ later.memory.read p.toNat length.toNat := by
            rw [read.memory]
            exact string_read terminated
          have stays : ∀ {next : System}, next.files = { s.files with caller := later } →
              Carrying s.inodes Path.nothing Path.unlocked next.inodes → Unchanged s next :=
            fun same carrying => Unchanged.of_nothing read same carrying
          dsimp only
          rw [Action.get_bind]
          by_cases creates : omode &&& oCreate ≠ 0
          · rw [if_pos creates, Action.ends_bind, onInodes, Action.ends_focus]
            refine (Path.create_ends ready settled plain (by decide) (by decide)).mono ?_
            rintro result inodes (⟨ip, rfl, absent, created⟩ | ⟨there, found⟩)
            · refine (open_created created { s.files with caller := later } closed).imp (fun _ _ => trivial) ?_
              rintro result next (⟨opened, room⟩ | ⟨failed, full, changed⟩)
              · refine Or.inr ⟨not_leavesFile arguments fun _ _ => room, fun failed => ?_⟩
                omega
              · exact Or.inl ⟨⟨_, omode, arguments, creates, absent, full⟩, failed,
                  fun same => changed same.inodes⟩
            · have fails : ¬LeavesFile s content :=
                not_leavesFile arguments fun _ absent => absurd absent there
              obtain ⟨rfl, carrying⟩ | ⟨ip, i, rfl, carrying, node⟩ := found
              · exact Or.inr ⟨fails, fun _ => stays rfl carrying⟩
              · refine (open_found ready.tree carrying node { s.files with caller := later } closed).imp (fun _ _ => trivial) ?_
                rintro result next (⟨opened, -⟩ | ⟨-, -, same, last⟩)
                · exact Or.inr ⟨fails, fun failed => by omega⟩
                · exact Or.inr ⟨fails, fun _ => stays same last⟩
          · have fails : ¬LeavesFile s content :=
              not_leavesFile arguments fun create => absurd create creates
            rw [if_neg creates, Action.ends_bind, onInodes, Action.ends_focus]
            refine (Path.namei_ends ready plain).imp (fun _ _ => trivial) ?_
            rintro result inodes (⟨rfl, -, carrying⟩ | ⟨ip, i, rfl, -, carrying, node⟩)
            · exact Or.inr ⟨fails, fun _ => stays rfl carrying⟩
            · have taken := Path.one_pos ip
              obtain ⟨locking, locks, held, still, -⟩ :=
                carrying.ilock ready.tree node (carrying.referenced taken) rfl
              dsimp only
              rw [Action.bind_done (onInodes_done locks), Action.get_bind]
              by_cases directory : (locking.fs.inode ip).type = tDir ∧ omode ≠ oRdonly
              · obtain ⟨back, puts, last, -⟩ := held.iunlockput ready.tree still taken rfl
                rw [Path.one_released] at last
                rw [if_pos directory, Action.bind_done (onInodes_done puts)]
                exact Or.inr ⟨fails, fun _ => stays rfl last⟩
              · rw [if_neg directory]
                refine (open_found ready.tree held still { s.files with caller := later } closed).imp (fun _ _ => trivial) ?_
                rintro result next (⟨opened, -⟩ | ⟨-, -, same, last⟩)
                · exact Or.inr ⟨fails, fun failed => by omega⟩
                · exact Or.inr ⟨fails, fun _ => stays same last⟩

/-- A call that fails leaves everything as before, unless it has made a file. -/
theorem sysOpen_unchanged (symbols : Symbols) (consoleread : Int → Int × List UInt8) (s : System)
    (nodes : Nat → Prop) (content : Nat → List UInt8) (events : List TableEvent)
    (ran : runs Ftable.next fileinit events = some s.files.table)
    (small : s.files.caller.sz < kernbase) (ready : Ready s.inodes nodes content)
    (settled : AtRest s.inodes.fs.toFileSystem) (result : Int) (next : System)
    (done : sysOpen symbols consoleread s = .done result next) :
    (result = -1 → Unchanged s next) ↔ ¬LeavesFile s content := by
  obtain ⟨leaves, rfl, changed⟩ | ⟨fails, stays⟩ :=
    (sysOpen_ends (Files.closed_run ran) small ready settled).of_done done
  · exact iff_of_false (fun same => changed (same rfl)) (not_not.mpr leaves)
  · exact iff_of_true stays fails

end Ends

/-! ## A root directory with nothing in it -/

/-- A root directory, which stays referenced. -/
def rootOnly : List FsOp :=
  let root : InodePtr := ⟨0, ninode_pos⟩
  [.ialloc tDir, .ilock root, .relink root 0 0 1]

/-- The root directory is open, empty, and as on the disk, and nothing else is referenced. -/
def Rooted (start : FsState) : Prop :=
  let root := start.inode ⟨0, ninode_pos⟩
  start.sb.ninodes = 200 ∧ (0 < root.ref ∧ root.valid = true ∧ root.inum = 1) ∧
    (∀ ip, ip ≠ ⟨0, ninode_pos⟩ → (start.inode ip).ref = 0) ∧
    (root.type = tDir ∧ root.size = 0) ∧
    (root.type = (start.dinode 1).type ∧ root.major = (start.dinode 1).major ∧
      root.minor = (start.dinode 1).minor ∧ root.nlink = (start.dinode 1).nlink ∧
      root.size = (start.dinode 1).size ∧ ∀ k < 13, root.addrs k = (start.dinode 1).addrs k)

instance (start : FsState) : Decidable (Rooted start) := by
  unfold Rooted
  infer_instance

theorem rooted_type {start : FsState} (sound : Sound start) (rooted : Rooted start) :
    (start.stat 1).type = tDir := by
  obtain ⟨-, ⟨referenced, valid, number⟩, -, ⟨type, -⟩, -⟩ := rooted
  rw [stat_of_live sound.consistent.once (live_iff.mpr ⟨referenced, valid, number⟩)]
  exact type

theorem ready_rooted {start : FsState} (sound : Sound start) (rooted : Rooted start) :
    Ready ⟨start, Path.unlocked, ⟨0, ninode_pos⟩⟩ (fun i => i = 1) (fun _ => []) ∧
      AtRest start.toFileSystem := by
  obtain ⟨ninodes, ⟨referenced, valid, number⟩, others, ⟨type, size⟩, written⟩ := rooted
  have once := sound.consistent.once
  have live : start.live 1 ⟨0, ninode_pos⟩ = true := live_iff.mpr ⟨referenced, valid, number⟩
  have stat := stat_of_live once live
  have opened := opened_empty sound live (by rw [stat]; exact type) (by rw [stat]; exact size)
  have away : ∀ i ip, i ≠ 1 → start.live i ip = false := by
    intro i ip different
    apply Bool.eq_false_iff.mpr
    intro cached
    obtain ⟨used, -, same⟩ := live_iff.mp cached
    by_cases root : ip = ⟨0, ninode_pos⟩
    · rw [root, number] at same
      exact different same.symm
    · rw [others ip root] at used
      cases used
  refine ⟨⟨⟨sound, ?_, ?_, ?_, ?_, ?_, ?_⟩, rfl, number, referenced, rfl⟩, ⟨?_, ?_⟩⟩
  · intro ip
    by_cases root : ip = ⟨0, ninode_pos⟩
    · rw [root]
      exact Int.le_of_lt referenced
    · rw [others ip root]
  · rintro i rfl
    exact opened.directory.file.inside
  · rintro i rfl
    rw [opened.directory.type]
    decide
  · rintro i rfl
    exact Or.inr ⟨_, referenced, number⟩
  · rintro i rfl -
    exact opened.directory
  · rintro i rfl - j name target entry
    rw [@entries_within [] 0 rfl j (Nat.zero_le j)] at entry
    cases entry
  · intro i
    by_cases root : i = 1
    · obtain ⟨type, major, minor, nlink, size, addrs⟩ := written
      rw [root, stat]
      exact ⟨⟨type, major, minor, nlink⟩, size, fun k slot => addrs k (Nat.lt_succ_of_le slot)⟩
    · rw [stat_of_disk fun ip => away i ip root]
      exact Dinode.Alike.refl _
  · intro ip used
    by_cases root : ip = ⟨0, ninode_pos⟩
    · rw [root, number, opened.directory.type]
      decide
    · rw [others ip root] at used
      cases used

/-- The path "/a" and a mode on the stack. -/
def openA (omode : UInt8) : Caller where
  sz := 24
  esp := 4
  memory := Memory.write (fun _ => 0) 8 [16, 0, 0, 0, 0, omode, 0, 0, 47, 97, 0]
  reads := []

theorem arguments_create : Arguments (openA 2) pathA oCreate := by
  have string : argstr 0 (openA 2) =
      .done (some (16, 2)) { openA 2 with reads := [8, 9, 10, 11, 16, 17, 18] } := by rfl
  have word : argint 1 { openA 2 with reads := [8, 9, 10, 11, 16, 17, 18] } =
      .done (some oCreate)
        { openA 2 with reads := [8, 9, 10, 11, 16, 17, 18, 12, 13, 14, 15] } := by rfl
  exact ⟨16, 2, _, _, string, word, rfl⟩

def rootSystem (start : FsState) (table : Ftable) (omode : UInt8) : System where
  files := ⟨⟨fun _ => 0, 0⟩, table, openA omode, []⟩
  inodes := ⟨start, Path.unlocked, ⟨0, ninode_pos⟩⟩

/-- Every descriptor refers to one file. -/
def allDescriptors : List TableEvent :=
  let f : FilePtr := ⟨0, by decide⟩
  [.filealloc, .fdalloc f] ++ (List.replicate 15 [.filedup f, .fdalloc f]).flatten

/-- The state before a call that opens "/a". -/
structure AtRoot (s : System) (start : FsState) (table : Ftable) (omode : UInt8) : Prop where
  shape : s = rootSystem start table omode
  sound : Sound start
  rooted : Rooted start

namespace AtRoot

variable {s next : System} {start : FsState} {table : Ftable} {omode : UInt8}

theorem small (atRoot : AtRoot s start table omode) : s.files.caller.sz < kernbase := by
  have size : (24 : UInt32) < kernbase := by decide
  rw [atRoot.shape]
  exact size

theorem ready (atRoot : AtRoot s start table omode) :
    Ready s.inodes (fun i => i = 1) (fun _ => []) ∧ AtRest s.inodes.fs.toFileSystem := by
  rw [atRoot.shape]
  exact ready_rooted atRoot.sound atRoot.rooted

theorem absent (atRoot : AtRoot s start table omode) : Absent s.inodes (fun _ => []) pathA := by
  have names : Path.elements pathA = [[97]] := by decide
  have root := rooted_type atRoot.sound atRoot.rooted
  rw [atRoot.shape]
  refine ⟨1, [97], ?_, rfl⟩
  rw [names]
  exact if_pos root

end AtRoot

/-- The file "/a" is made, and then there is no descriptor for it. -/
theorem sysOpen_noDescriptor : ∃ s nodes content events next,
    runs Ftable.next fileinit events = some s.files.table ∧ s.files.caller.sz < kernbase ∧
      Ready s.inodes nodes content ∧ AtRest s.inodes.fs.toFileSystem ∧
      sysOpen Vm.smallKernel (fun n => (n, [])) s = .done (-1) next ∧ ¬Unchanged s next := by
  have facts : ((runs FsState.next blankDisk rootOnly).bind fun start =>
      (runs Ftable.next fileinit allDescriptors).map fun table =>
        decide (Rooted start ∧ (∀ fd, table.ofile fd ≠ none) ∧
          (sysOpen Vm.smallKernel (fun n => (n, [])) (rootSystem start table 2)).state?.isSome =
            true)) = some true := by decide +kernel
  obtain ⟨start, built, facts⟩ := Option.bind_eq_some_iff.mp facts
  obtain ⟨table, ran, holds⟩ := Option.map_eq_some_iff.mp facts
  obtain ⟨rooted, used, returns⟩ := of_decide_eq_true holds
  generalize shape : rootSystem start table 2 = s at returns
  have atRoot : AtRoot s start table 2 := ⟨shape.symm, sound_run blankDisk_image built, rooted⟩
  obtain ⟨ready, settled⟩ := atRoot.ready
  have tables : s.files.table = table := by rw [← shape]; rfl
  have closed : s.files.table.Closed := by
    rw [tables]
    exact Files.closed_run ran
  have leaves : LeavesFile s fun _ => [] := by
    refine ⟨pathA, oCreate, ?_, by decide, atRoot.absent, Or.inr ?_⟩
    · rw [← shape]
      exact arguments_create
    · rw [tables]
      exact used
  have ends := @sysOpen_ends Vm.smallKernel (fun n => (n, [])) s _ _ closed atRoot.small ready
    settled
  cases outcome : sysOpen Vm.smallKernel (fun n => (n, [])) s with
  | blocked =>
      rw [outcome] at returns
      cases returns
  | panic message =>
      rw [outcome] at returns
      cases returns
  | done result next =>
      obtain ⟨-, rfl, changed⟩ | ⟨fails, -⟩ := ends.of_done outcome
      · exact ⟨s, _, _, _, next, tables ▸ ran, atRoot.small, ready, settled, outcome, changed⟩
      · exact absurd leaves fails

/-- There is no file "/a" to read. -/
theorem sysOpen_unchanged_missing : ∃ s next,
    sysOpen Vm.smallKernel (fun n => (n, [])) s = .done (-1) next ∧ Unchanged s next := by
  have facts : (runs FsState.next blankDisk rootOnly).map (fun start => decide (Rooted start ∧
      ((sysOpen Vm.smallKernel (fun n => (n, [])) >>= fun result =>
        Action.ifThen (result ≠ -1) Action.never)
          (rootSystem start fileinit 0)).state?.isSome = true)) = some true := by decide +kernel
  obtain ⟨start, built, holds⟩ := Option.map_eq_some_iff.mp facts
  obtain ⟨rooted, returns⟩ := of_decide_eq_true holds
  generalize shape : rootSystem start fileinit 0 = s at returns
  have atRoot : AtRoot s start fileinit 0 := ⟨shape.symm, sound_run blankDisk_image built, rooted⟩
  obtain ⟨ready, settled⟩ := atRoot.ready
  have tables : s.files.table = fileinit := by rw [← shape]; rfl
  have ran : runs Ftable.next fileinit [] = some s.files.table := by rw [tables]; rfl
  have stays : ¬LeavesFile s fun _ => [] := by
    rintro ⟨path, omode, -, -, -, full⟩
    rw [tables] at full
    obtain files | descriptors := full
    · exact files ⟨0, by decide⟩ rfl
    · exact descriptors ⟨0, by decide⟩ rfl
  cases outcome : sysOpen Vm.smallKernel (fun n => (n, [])) s with
  | blocked =>
      rw [Action.bind_blocked outcome] at returns
      cases returns
  | panic message =>
      rw [Action.bind_panic outcome] at returns
      cases returns
  | done result next =>
      rw [Action.bind_done outcome] at returns
      by_cases failed : result = -1
      · subst failed
        exact ⟨s, next, outcome, (sysOpen_unchanged _ _ s _ _ [] ran atRoot.small ready settled _ next
          outcome).mpr stays rfl⟩
      · rw [Action.ifThen, if_pos failed] at returns
        cases returns

end Xv6.Opening
