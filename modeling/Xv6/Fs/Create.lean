import Xv6.Fs.Namei
import Xv6.Fs.WrittenBack

/-!
# Creating a file

`create` in `sysfile.c`: look up the parent directory, and open the file that is
there or make a new one.
-/

namespace Xv6.Path

open Xv6.Library Xv6.Fs

/-! ## The function -/

/-- Set fields of a locked inode and write it back. -/
def setFields (ip : InodePtr) (change : Inode → Inode) : Action FsState Unit := do
  onFs fun fs => fs.setInode ip (change (fs.inode ip))
  iupdate ip

/-- `nlink` is a short. -/
def addLink (inode : Inode) : Inode := { inode with nlink := (inode.nlink + 1) % 2 ^ 16 }

/-- The names "." and "..". -/
def dot : Memory := fun i => if i < 1 then 46 else 0
def dotdot : Memory := fun i => if i < 2 then 46 else 0

variable (consoleread : Int → Int × List UInt8)

/-- The "." and ".." entries of a new directory. -/
def createDots (dp ip : InodePtr) : Action Kernel Unit := do
  onInodes (setFields dp addLink)
  let k ← Action.get fun k : Kernel => k
  let first ← onInodes (dirlink consoleread ip dot (k.fs.inode ip).inum)
  if first < 0 then Action.panic "create dots"
  else
    let second ← onInodes (dirlink consoleread ip dotdot (k.fs.inode dp).inum)
    if second < 0 then Action.panic "create dots" else return ()

/-- The part of `create` for a name that is not there. -/
def createNew (dp : InodePtr) (name : Memory) (type major minor : Nat) :
    Action Kernel (Option InodePtr) := do
  let ip ← onInodes (ialloc type)
  ilock ip
  onInodes (setFields ip fun inode => { inode with major := major, minor := minor, nlink := 1 })
  Action.ifThen (type = tDir) (createDots consoleread dp ip)
  let inum ← Action.get fun k : Kernel => (k.fs.inode ip).inum
  let linked ← onInodes (dirlink consoleread dp name inum)
  if linked < 0 then Action.panic "create: dirlink"
  else
    iunlockput dp
    return some ip

/-- The inode at `path`, locked. The memory of `name` may hold anything before. -/
def create (path : List UInt8) (type major minor : Nat) : Action Kernel (Option InodePtr) := do
  let found ← nameiparent consoleread path fun _ => 0
  match found.1 with
  | none => return none
  | some dp =>
      ilock dp
      let entry ← onInodes (dirlookup consoleread dp found.2)
      match entry with
      | some (ip, _) =>
          iunlockput dp
          ilock ip
          let inode ← Action.get fun k : Kernel => k.fs.inode ip
          if type = tFile ∧ inode.type = tFile then return some ip
          else
            iunlockput ip
            return none
      | none => createNew consoleread dp found.2 type major minor

/-! ## Where a path leads -/

section Leads

variable {k : Kernel} {fs : FsState} {nodes : Nat → Prop} {content : Nat → List UInt8} {i j : Nat}
  {consoleread : Int → Int × List UInt8}

/-- An entry of a directory leads into the tree. -/
theorem child_node (tree : Tree fs nodes content) (node : nodes i) {name : List UInt8}
    (found : child fs.toFileSystem content i name = some j) : nodes j := by
  rw [child] at found
  by_cases directory : (fs.stat i).type = tDir
  · have whole := tree.directory i node directory
    rw [if_pos directory] at found
    obtain ⟨index, entry⟩ := (whole.distinct.lookup_iff whole.within).mp found
    exact tree.closed i node directory index name j entry
  · rw [if_neg directory] at found
    cases found

theorem target_node (tree : Tree fs nodes content) (node : nodes i) {parent : Bool}
    {names : List (List UInt8)}
    (leads : target fs.toFileSystem content parent i names = some j) : nodes j := by
  induction names generalizing i with
  | nil =>
      rw [target] at leads
      by_cases stop : parent = true
      · rw [if_pos stop] at leads
        cases leads
      · rw [if_neg stop] at leads
        cases leads
        exact node
  | cons name rest inductionHypothesis =>
      rw [target] at leads
      by_cases directory : (fs.stat i).type = tDir
      · rw [if_neg (not_not.mpr directory)] at leads
        by_cases stop : parent = true ∧ rest = []
        · rw [if_pos stop] at leads
          cases leads
          exact node
        · rw [if_neg stop] at leads
          obtain ⟨next, found, further⟩ := Option.bind_eq_some_iff.mp leads
          exact inductionHypothesis (child_node tree node found) further
      · rw [if_pos directory] at leads
        cases leads

theorem Ready.start (ready : Ready k nodes content) (path : List UInt8) : nodes (k.start path) := by
  rw [Kernel.start]
  split
  · exact ready.root
  · exact ready.cwd

/-- `namei` returned the inode where the path leads. -/
theorem namei_ends (ready : Ready k nodes content) {path : List UInt8} (string : 0 ∉ path) :
    (namei consoleread path k).Ends (lacksInodes k) fun result next =>
      (result = none ∧ walk k.fs.toFileSystem content (k.start path) (elements path) = none ∧
        Carrying k nothing unlocked next) ∨
      ∃ ip i, result = some ip ∧
        walk k.fs.toFileSystem content (k.start path) (elements path) = some i ∧
        Carrying k (one ip) unlocked next ∧ Node nodes next ip i := by
  rw [namei, Action.ends_bind]
  refine (namex_ends ready string false fun _ => 0).mono ?_
  rintro ⟨result, name⟩ next ⟨returned, -⟩
  rw [← target_false]
  cases result with
  | none => exact Or.inl ⟨rfl, returned.1, returned.2⟩
  | some ip =>
      obtain ⟨leads, carrying⟩ := returned
      exact Or.inr ⟨ip, _, rfl, leads, carrying,
        ⟨target_node ready.tree (ready.start path) leads, rfl⟩⟩

/-- `nameiparent` returned the directory before the last name, and the name. -/
theorem nameiparent_ends (ready : Ready k nodes content) {path : List UInt8} (string : 0 ∉ path)
    (name : Memory) :
    (nameiparent consoleread path name k).Ends (lacksInodes k) fun result next =>
      (result.1 = none ∧
        walkParent k.fs.toFileSystem content (k.start path) (elements path) = none ∧
        Carrying k nothing unlocked next) ∨
      ∃ dp d, result.1 = some dp ∧
        walkParent k.fs.toFileSystem content (k.start path) (elements path) =
          some (d, nameOf result.2) ∧
        Carrying k (one dp) unlocked next ∧ Node nodes next dp d := by
  refine (namex_ends ready string true name).mono ?_
  rintro ⟨result, copied⟩ next ⟨returned, last⟩
  cases found : walkParent k.fs.toFileSystem content (k.start path) (elements path) with
  | none =>
      rw [target_true, found] at returned
      cases result with
      | none => exact Or.inl ⟨rfl, rfl, returned.2⟩
      | some ip => cases returned.1
  | some parent =>
      have name := walkParent_last found
      cases result with
      | none =>
          obtain ⟨missing, -⟩ := returned
          rw [target_true, found] at missing
          cases missing
      | some ip =>
          obtain ⟨leads, carrying⟩ := returned
          have node := target_node ready.tree (ready.start path) leads
          rw [target_true, found] at leads
          have same := name.symm.trans (last rfl (Option.some_ne_none ip))
          refine Or.inr ⟨ip, parent.1, rfl, ?_, carrying, ?_⟩
          · rw [← Option.some.inj same]
          · have number : parent.1 = (next.fs.inode ip).inum := Option.some.inj leads
            exact ⟨number ▸ node, number.symm⟩

theorem walkParent_directory {fs : FileSystem} {names : List (List UInt8)} {d : Nat}
    {name : List UInt8} (found : walkParent fs content i names = some (d, name)) :
    (fs.stat d).type = tDir := by
  obtain ⟨last, -, found⟩ := Option.bind_eq_some_iff.mp found
  obtain ⟨d', -, found⟩ := Option.bind_eq_some_iff.mp found
  split at found
  · rename_i directory
    cases found
    exact directory
  · cases found

end Leads

/-! ## A new file -/

section New

variable {start k : Kernel} {nodes : Nat → Prop} {content : Nat → List UInt8} {dp ip : InodePtr}
  {d j : Nat} {locked : InodePtr → Bool} {consoleread : Int → Int × List UInt8}

theorem setFields_relinks {state : FsState} {inum : Nat} (sound : Sound state)
    (live : state.live inum ip = true) {change : Inode → Inode}
    (same : change (state.inode ip) = { state.inode ip with
      major := (change (state.inode ip)).major, minor := (change (state.inode ip)).minor,
      nlink := (change (state.inode ip)).nlink }) :
    ∃ next, setFields ip change state = .done () next ∧
      Relinked state ip (change (state.inode ip)) next :=
  iupdate_relinks sound live same

theorem Carrying.dinode {extra : InodePtr → Nat} (carrying : Carrying start extra locked k)
    (i : Nat) : k.fs.dinode i = start.fs.dinode i := by
  rw [FileSystem.dinode, carrying.fs.block, carrying.fs.sb, FileSystem.dinode]

/-- An inode that is locked is as on the disk. -/
theorem Carrying.flushed {extra : InodePtr → Nat} (carrying : Carrying start extra locked k)
    (settled : AtRest start.fs.toFileSystem) {i : Nat} (live : k.fs.live i ip = true) :
    k.fs.Flushed ip := by
  have once := carrying.fs.sound.consistent.once
  rw [FileSystem.Flushed, (live_iff.mp live).2.2, ← stat_of_live once live, carrying.fs.stat,
    carrying.dinode]
  exact settled.written i

/-- Nobody refers to an inode without a type. -/
theorem Carrying.nobody (carrying : Carrying start (one dp) locked k)
    (settled : AtRest start.fs.toFileSystem) (different : (k.fs.inode dp).inum ≠ j)
    (unused : (start.fs.stat j).type = 0) (other : InodePtr) :
    ¬(0 < (k.fs.inode other).ref ∧ (k.fs.inode other).inum = j) := by
  rintro ⟨referenced, same⟩
  by_cases here : other = dp
  · rw [here] at same
    exact different same
  · have refs := carrying.fs.refs other
    have single : one dp other = 0 := Function.update_of_ne here ..
    rw [single] at refs
    have before : 0 < (start.fs.inode other).ref := by omega
    have typed := settled.typed other before
    rw [← carrying.fs.number other before, same] at typed
    exact typed unused

/-- A node stays when a reference to it is dropped. -/
theorem Carrying.kept (carrying : Carrying start (one dp) locked k)
    (tree : Tree start.fs nodes content) (node : Node nodes k dp d) :
    (start.fs.stat d).nlink ≠ 0 ∨ 1 < (k.fs.inode dp).ref := by
  obtain linked | ⟨other, used, same⟩ := tree.kept d node.node
  · exact Or.inl linked
  · have refs := carrying.fs.refs other
    have taken := carrying.referenced (one_pos dp)
    have equal : other = dp := by
      apply carrying.fs.sound.consistent.once other dp (by omega) taken
      rw [carrying.fs.number other used, same, node.number]
    rw [equal, one_self] at refs
    rw [equal] at used
    exact Or.inr (by omega)

/-- The reference to a directory is dropped after an entry was written. -/
theorem Carrying.puts (held : Carrying start (one dp) (Function.update unlocked dp true) k)
    (tree : Tree start.fs nodes content) (node : Node nodes k dp d) (live : k.fs.live d dp = true)
    {before after : FsState} {array : List UInt8} (opened : Opened before dp d array)
    (same : before.inode dp = k.fs.inode dp) (flushed : before.Flushed dp)
    (kept : KeepsInodes before d after) :
    0 < (after.inode dp).ref ∧
      ∃ next, Fs.iput dp after = .done () next ∧ Released after dp next := by
  obtain ⟨referenced, valid, -⟩ := live_iff.mp opened.live
  obtain ⟨ref, fresh, number⟩ := kept.opens dp
  have still : after.live d dp = true := by
    rw [live_iff, ref, fresh, number]
    exact live_iff.mp opened.live
  have links := (kept.kinds.kinds d opened.directory.file.inside).nlink
  rw [stat_of_live opened.sound.consistent.once opened.live,
    stat_of_live kept.sound.consistent.once still, same] at links
  have stays : (after.inode dp).nlink ≠ 0 ∨ 1 < (after.inode dp).ref := by
    have stat := stat_of_live held.fs.sound.consistent.once live
    rw [links, ref, same, ← stat, held.fs.stat]
    exact held.kept tree node
  have used : 0 < (after.inode dp).ref := ref ▸ referenced
  exact ⟨used, iput_released kept.sound used (fun _ => stays)
    fun _ => kept.flushed dp referenced valid flushed⟩

/-- A new file, which is locked. -/
structure Created (before : Kernel) (ip : InodePtr) (after : Kernel) : Prop where
  sound : Sound after.fs
  held : after.held = Function.update unlocked ip true
  live : after.fs.live (after.fs.inode ip).inum ip = true
  flushed : after.fs.Flushed ip
  type : (after.fs.inode ip).type = tFile
  nlink : (after.fs.inode ip).nlink = 1
  unused : (before.fs.stat (after.fs.inode ip).inum).type = 0

theorem createNew_ends (tree : Tree start.fs nodes content)
    (settled : AtRest start.fs.toFileSystem)
    (held : Carrying start (one dp) (Function.update unlocked dp true) k)
    (node : Node nodes k dp d) (live : k.fs.live d dp = true)
    (directory : (start.fs.stat d).type = tDir) {name : Memory}
    (unbound : bindings (content d) (nameOf name) = none) {major minor : Nat}
    (majorFits : major < 256 ^ 2) (minorFits : minor < 256 ^ 2) :
    (createNew consoleread dp name tFile major minor k).Ends (fun _ => True) fun result next =>
      ∃ ip, result = some ip ∧ Created start ip next := by
  have opened := held.opened tree node live directory
  obtain ⟨referenced, -, number⟩ := live_iff.mp live
  rw [createNew, Action.ends_bind, onInodes, Action.ends_focus]
  refine (ialloc_ends opened.sound tFile).imp (fun _ _ => trivial) ?_
  rintro ip fs1 ⟨j, inside, free, cleared, got⟩
  -- The inode was free, so it is not the directory, and nobody refers to it.
  have unused : (start.fs.stat j).type = 0 := by
    rw [(settled.written j).kind.type, ← held.dinode]
    exact free
  have different : d ≠ j := by
    rintro rfl
    rw [directory] at unused
    cases unused
  have nobody := held.nobody settled (number ▸ different) unused
  obtain ⟨fs2, locks, used, entered⟩ :=
    ilock_enters inside (by decide) (by decide) nobody cleared got
  have away : dp ≠ ip := by
    rintro rfl
    rw [entered.free] at referenced
    cases referenced
  have unheld : k.held ip = false := by
    rw [held.held, Function.update_of_ne away.symm]
    rfl
  have live2 : fs2.live j ip = true := by
    rw [live_iff, entered.self]
    exact ⟨Int.zero_lt_one, rfl, rfl⟩
  obtain ⟨fs3, set, relinked⟩ := @setFields_relinks ip fs2 j entered.sound live2
    (fun inode => { inode with major := major, minor := minor, nlink := 1 }) rfl
  have opened3 := (opened.entered entered different inside).relinked relinked away
  rw [Action.bind_done (@ilock_done { k with fs := fs1 } ip fs2 used unheld locks),
    Action.bind_done (onInodes_done set), Action.ifThen_neg (by decide), Action.get_bind,
    Action.ends_bind, onInodes, Action.ends_focus]
  refine (opened3.dirlink_keeps unbound _).mono ?_
  intro linked fs4 kept
  have self : fs3.inode ip = { fs2.inode ip with major := major, minor := minor, nlink := 1 } := by
    rw [relinked.inodes, Function.update_self]
  have live3 : fs3.live j ip = true := by
    rw [live_iff, self]
    exact live_iff.mp live2
  obtain ⟨used3, valid3, number3⟩ := live_iff.mp live3
  have live4 : fs4.live j ip = true := by
    obtain ⟨ref, valid, same⟩ := kept.opens ip
    rw [live_iff, ref, valid, same]
    exact live_iff.mp live3
  have number4 := (live_iff.mp live4).2.2
  have kind := kept.kinds.kinds j (live_inside opened3.sound.consistent live3)
  rw [stat_of_live opened3.sound.consistent.once live3,
    stat_of_live kept.sound.consistent.once live4, self] at kind
  have written : fs3.Flushed ip := by
    apply relinked.flushed
    have disk : ((k.fs.toFileSystem.allotted j tFile).dinode j).Typed := dinodeOf_typed ..
    have one : 1 < 256 ^ 2 := by decide
    rw [entered.self]
    exact ⟨disk.type, majorFits, minorFits, one, disk.size⟩
  have flushed4 := kept.flushed ip used3 valid3 written
  -- The directory is as on the disk, too.
  have parent : fs3.inode dp = k.fs.inode dp := by
    rw [relinked.inodes, Function.update_of_ne away, entered.others dp away]
  have flushedDp : fs3.Flushed dp := by
    refine relinked.keepsFlushed away ?_ ?_
    · rw [entered.others dp away, number, entered.self]
      exact different
    · exact entered.keepsFlushed away (number ▸ different) (held.flushed settled live)
  obtain ⟨used4, fs5, put, released⟩ := held.puts tree node live opened3 parent flushedDp kept
  split
  · trivial
  · have holds : (Function.update k.held ip true) dp = true := by
      rw [Function.update_of_ne away, held.held, Function.update_self]
    rw [Action.bind_done (@iunlockput_done ⟨fs4, Function.update k.held ip true, k.cwd⟩ dp fs5
      used4 holds put)]
    have same : fs5.inode ip = fs4.inode ip := released.others away.symm
    refine ⟨ip, rfl, released.sound, ?_, ?_, released.flushed away.symm flushed4, ?_, ?_, ?_⟩
    · change Function.update (Function.update k.held ip true) dp false = _
      have off : Function.update unlocked ip true dp = false := Function.update_of_ne away ..
      rw [held.held, Function.update_comm away, Function.update_idem, ← off,
        Function.update_eq_self]
    · rw [live_iff, same]
      exact ⟨(live_iff.mp live4).1, (live_iff.mp live4).2.1, rfl⟩
    · rw [same, kind.type, entered.self]
      exact allotted_type _ _ (by decide)
    · rw [same, kind.nlink]
    · rw [same, number4]
      exact unused

/-- The parent directory has no entry with the last name of the path. -/
def Absent (k : Kernel) (content : Nat → List UInt8) (path : List UInt8) : Prop :=
  ∃ d name, walkParent k.fs.toFileSystem content (k.start path) (elements path) = some (d, name) ∧
    bindings (content d) name = none

/-- `create` makes a file, or it locks the one that is there, or it takes nothing. -/
theorem create_ends (ready : Ready k nodes content) (settled : AtRest k.fs.toFileSystem)
    {path : List UInt8} (string : 0 ∉ path) {major minor : Nat} (majorFits : major < 256 ^ 2)
    (minorFits : minor < 256 ^ 2) :
    (create consoleread path tFile major minor k).Ends (fun _ => True) fun result next =>
      (∃ ip, result = some ip ∧ Absent k content path ∧ Created k ip next) ∨
      ¬Absent k content path ∧
        (result = none ∧ Carrying k nothing unlocked next ∨
          ∃ ip i, result = some ip ∧ Carrying k (one ip) (Function.update unlocked ip true) next ∧
            Node nodes next ip i) := by
  rw [create, Action.ends_bind]
  refine (nameiparent_ends ready string _).imp (fun _ _ => trivial) ?_
  rintro ⟨result, name⟩ next (⟨found, missing, carrying⟩ | ⟨dp, d, found, leads, carrying, node⟩)
  · dsimp only at found
    subst found
    refine Or.inr ⟨?_, Or.inl ⟨rfl, carrying⟩⟩
    rintro ⟨d, last, leads, -⟩
    rw [missing] at leads
    cases leads
  · dsimp only at found
    subst found
    have directory := walkParent_directory leads
    have taken := one_pos dp
    have bound : ∀ {target}, child k.fs.toFileSystem content d (nameOf name) = some target →
        ¬Absent k content path := by
      rintro target some ⟨e, last, other, none⟩
      cases leads.symm.trans other
      rw [child, if_pos directory, none] at some
      cases some
    obtain ⟨locking, done, held, still, live⟩ :=
      carrying.ilock ready.tree node (carrying.referenced taken) rfl
    dsimp only
    rw [Action.bind_done done, Action.ends_bind]
    refine (held.dirlookup ready.tree still live directory name).imp (fun _ _ => trivial) ?_
    rintro entry looked (⟨rfl, missing, rfl⟩ | ⟨ip, off, i, rfl, some, both, new, old⟩)
    · rw [child, if_pos directory] at missing
      refine (createNew_ends ready.tree settled held still live directory missing majorFits
        minorFits).mono ?_
      rintro result finish ⟨ip, rfl, created⟩
      exact Or.inl ⟨ip, rfl, ⟨d, nameOf name, leads, missing⟩, created⟩
    · obtain ⟨later, unlocked, last, numbers⟩ :=
        both.iunlockput ready.tree old (one_added dp ip) rfl
      rw [one_passed] at last
      have there : Node nodes later ip i := ⟨new.node, (numbers ip).trans new.number⟩
      obtain ⟨opened, done, open', node, -⟩ :=
        last.ilock ready.tree there (last.referenced (one_pos ip)) rfl
      dsimp only
      rw [Action.bind_done unlocked, Action.bind_done done, Action.get_bind]
      by_cases file : tFile = tFile ∧ (opened.fs.inode ip).type = tFile
      · rw [if_pos file]
        exact Or.inr ⟨bound some, Or.inr ⟨ip, i, rfl, open', node⟩⟩
      · obtain ⟨closed, put, empty, -⟩ := open'.iunlockput ready.tree node (one_pos ip) rfl
        rw [one_released] at empty
        rw [if_neg file, Action.bind_done put]
        exact Or.inr ⟨bound some, Or.inl ⟨rfl, empty⟩⟩

end New

end Xv6.Path
