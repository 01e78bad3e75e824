import Xv6.Fs.HeldInodes

/-!
# Removing a name

`isdirempty` and `sys_unlink` in `sysfile.c`. The name is removed before the links
are counted down, and the node is freed with its last reference.
-/

namespace Xv6.Path

open Xv6.Library Xv6.Fs

section Functions

variable (consoleread : Int → Int × List UInt8)

/-- The loop of `isdirempty`, which takes at most `fuel` turns. -/
def isdiremptyFrom (dp : InodePtr) : Nat → UInt32 → Action FsState Bool
  | 0, _ => Action.never
  | fuel + 1, off => do
      let inode ← Action.get fun state : FsState => state.inode dp
      if off.toNat < inode.size then
        let read ← readi consoleread dp off sizeofDe
        if read.1 ≠ direntSize then Action.panic "isdirempty: readi"
        else if direntInum (direntOf read.2) ≠ 0 then return false
        else isdiremptyFrom dp fuel (off + sizeofDe)
      else return true

/-- Is the directory dp empty except for "." and ".." ? -/
def isdirempty (dp : InodePtr) : Action FsState Bool := do
  let inode ← Action.get fun state : FsState => state.inode dp
  isdiremptyFrom consoleread dp (inode.size / direntSize + 2) (2 * sizeofDe)

/-- `ip->type != T_DIR || isdirempty(ip)` -/
def unlinkable (ip : InodePtr) : Action Kernel Bool := do
  let inode ← Action.get fun k : Kernel => k.fs.inode ip
  if inode.type = tDir then onInodes (isdirempty consoleread ip) else return true

/-- The statements of `sys_unlink` that remove the name, with `dp` and `ip` locked. -/
def unlinkName (dp ip : InodePtr) (off : UInt32) : Action Kernel Int := do
  let inode ← Action.get fun k : Kernel => k.fs.inode ip
  onInodes (clearEntry dp off)
  Action.ifThen (inode.type = tDir) (onInodes (setFields dp dropLink))
  iunlockput dp
  onInodes (setFields ip dropLink)
  iunlockput ip
  return 0

/-- The statements after `bad`. -/
def unlinkBad (dp : InodePtr) : Action Kernel Int := do
  iunlockput dp
  return -1

def sysUnlink (path : List UInt8) : Action Kernel Int := do
  let found ← nameiparent consoleread path fun _ => 0
  match found.1 with
  | none => return -1
  | some dp =>
      ilock dp
      -- Cannot unlink "." or "..".
      if namecmp found.2 dot = 0 ∨ namecmp found.2 dotdot = 0 then unlinkBad dp
      else
        let entry ← onInodes (dirlookup consoleread dp found.2)
        match entry with
        | none => unlinkBad dp
        | some (ip, off) =>
            ilock ip
            let inode ← Action.get fun k : Kernel => k.fs.inode ip
            if short inode.nlink < 1 then Action.panic "unlink: nlink < 1"
            else
              let free ← unlinkable consoleread ip
              if free = false then
                iunlockput ip
                unlinkBad dp
              else unlinkName dp ip off

end Functions

/-! ## Empty directories -/

section Empty

variable {state : FsState} {dp : InodePtr} {inum i left fuel : Nat} {array : List UInt8}
  {volume : Volume} {consoleread : Int → Int × List UInt8}

theorem Opened.isdiremptyFrom (opened : Opened state dp inum array)
    (total : i + left = slots array) (fueled : left < fuel) :
    ∃ empty, Path.isdiremptyFrom consoleread dp fuel (offsetOf i) state = .done empty state ∧
      (empty = true ↔ ∀ j, i ≤ j → entries array j = none) := by
  induction fuel generalizing i left with
  | zero => exact absurd fueled (Nat.not_lt_zero left)
  | succ fuel inductionHypothesis =>
      have offset := opened.toNat_offsetOf (Nat.le.intro total)
      rw [Path.isdiremptyFrom, Action.get_bind, opened.size, offset]
      cases left with
      | zero =>
          have ended : ¬direntSize * i < direntSize * slots array := by
            rw [← total]
            exact Nat.lt_irrefl _
          rw [if_neg ended]
          refine ⟨true, rfl, fun _ j after => ?_, fun _ => rfl⟩
          exact opened.directory.within j (total ▸ after)
      | succ left =>
          have below : i < slots array := by omega
          rw [if_pos (Nat.mul_lt_mul_of_pos_left below (by decide)),
            Action.bind_done (opened.readi below), if_neg (not_not.mpr rfl)]
          have entry := entryOf_read array i
          by_cases free : direntInum
              (direntOf ((array.drop (direntSize * i)).take direntSize)) = 0
          · rw [entryOf, if_pos free] at entry
            obtain ⟨empty, done, iff⟩ := @inductionHypothesis (i + 1) left (by omega) (by omega)
            rw [if_neg (not_not.mpr free), offsetOf_succ]
            refine ⟨empty, done, iff.trans ⟨fun rest j after => ?_, fun all j after => ?_⟩⟩
            · obtain later | same := Nat.lt_or_eq_of_le after
              · exact rest j later
              · exact same ▸ entry.symm
            · exact all j (Nat.le_of_succ_le after)
          · rw [entryOf, if_neg free] at entry
            rw [if_pos free]
            refine ⟨false, rfl, fun fails => (Bool.false_ne_true fails).elim, fun all => ?_⟩
            rw [all i (Nat.le_refl i)] at entry
            cases entry

/-- The directory binds "." and "..", and nothing else. -/
theorem Shelf.isdirempty (shelf : Shelf volume state dp inum array) {self above : Nat}
    (first : volume.naming.entry inum (nameOf dot) = some self)
    (second : volume.naming.entry inum (nameOf dotdot) = some above) :
    ∃ empty, Path.isdirempty consoleread dp state = .done empty state ∧
      (empty = true ↔ ∀ name, scheme.Plain name → volume.naming.entry inum name = none) := by
  have within := shelf.opened.directory.within
  have lookup : ∀ name target, volume.naming.entry inum name = some target ↔
      ∃ j, entries array j = some (name, target) := by
    intro name target
    rw [← shelf.bound]
    exact shelf.opened.directory.distinct.lookup_iff within
  obtain ⟨i, one⟩ := (lookup _ _).mp first
  obtain ⟨j, two⟩ := (lookup _ _).mp second
  cases shelf.headed.first i self one
  cases shelf.headed.second j above two
  have below := within.lt two
  obtain ⟨empty, done, iff⟩ := @Opened.isdiremptyFrom _ _ _ 2 (slots array - 2) (slots array + 2) _
    consoleread shelf.opened (by omega) (by omega)
  refine ⟨empty, ?_, iff.trans ⟨fun free name plain => ?_, fun free k after => ?_⟩⟩
  · rw [Path.isdirempty, Action.get_bind, shelf.opened.turns]
    exact done
  · -- The first two entries are not plain.
    cases bound : volume.naming.entry inum name with
    | none => rfl
    | some target =>
        obtain ⟨k, here⟩ := (lookup _ _).mp bound
        match k with
        | 0 =>
            cases here.symm.trans one
            exact absurd rfl plain.1
        | 1 =>
            cases here.symm.trans two
            exact absurd rfl plain.2
        | k + 2 =>
            rw [free (k + 2) (Nat.le_add_left 2 k)] at here
            cases here
  · cases here : entries array k with
    | none => rfl
    | some entry =>
        obtain ⟨name, target⟩ := entry
        have plain : scheme.Plain name := by
          constructor
          · rintro rfl
            cases shelf.headed.first k target here
            exact absurd after (by decide)
          · rintro rfl
            cases shelf.headed.second k target here
            exact absurd after (by decide)
        have bound := (lookup name target).mpr ⟨k, here⟩
        rw [free name plain] at bound
        cases bound

end Empty

/-! ## The volume without the name -/

/-- Directory `d` loses the name `name` for node `i`; a directory counted `d` as the one above. -/
def Volume.unlink (volume : Volume) (d : Nat) (name : List UInt8) (i : Nat) : Volume :=
  let without := volume.setEntry d name none
  (if volume.naming.kind i = tDir then without.setLinks d (volume.naming.links d - 1)
    else without).setLinks i (volume.naming.links i - 1)

/-- The path leads to a plain name, and not to a directory with plain names. -/
def Volume.Removable (volume : Volume) (i : Nat) (names : List (List UInt8)) (d : Nat)
    (name : List UInt8) (target : Nat) : Prop :=
  scheme.walkParent volume.naming i names = some (d, name) ∧ scheme.Plain name ∧
    volume.naming.entry d name = some target ∧ (volume.naming.kind target = tDir →
      ∀ label, scheme.Plain label → volume.naming.entry target label = none)

theorem Volume.unlink_consistent {volume : Volume} {d i : Nat} {name : List UInt8}
    (consistent : scheme.Consistent volume.naming) (inside : scheme.IsDirectory volume.naming d)
    (plain : scheme.Plain name) (bound : volume.naming.entry d name = some i)
    (empty : volume.naming.kind i = tDir →
      ∀ label, scheme.Plain label → volume.naming.entry i label = none) :
    scheme.Consistent (volume.unlink d name i).naming := by
  have live := consistent.closed inside bound
  by_cases isDirectory : volume.naming.kind i = tDir
  · have removed := Scheme.RemovesDirectory.unlink consistent inside plain bound
      ⟨isDirectory, live.2⟩ (empty isDirectory)
    have naming : (volume.unlink d name i).naming =
        ((volume.naming.setEntry d name none).setLinks d (volume.naming.links d - 1)).setLinks i
          (volume.naming.links i - 1) := by
      rw [Volume.unlink, if_pos isDirectory]
      rfl
    rw [naming]
    exact removed.keeps consistent
  · have naming : (volume.unlink d name i).naming =
        (volume.naming.setEntry d name none).setLinks i (volume.naming.links i - 1) := by
      rw [Volume.unlink, if_neg isDirectory]
      rfl
    rw [naming]
    exact (Scheme.Removes.unlink inside plain bound isDirectory live).keeps consistent

/-- A count that is neither 0 nor negative. -/
theorem short_positive {links : Nat} (named : links ≠ 0) (bound : links < 2 ^ 15) :
    ¬short links < 1 := by
  rw [short, if_pos bound]
  omega

namespace Holding

variable {others : Others} {volume : Volume} {rest : List Hold} {k : Kernel} {ip dp : InodePtr}
  {i j d : Nat} {name : List UInt8} {consoleread : Int → Int × List UInt8}

theorem unlinkable (holding : Holding others volume (⟨ip, i, true⟩ :: rest) k)
    (consistent : scheme.Consistent volume.naming) (live : scheme.Live volume.naming i) :
    ∃ free, Path.unlinkable consoleread ip k = .done free k ∧
      (free = true ↔ (volume.naming.kind i = tDir →
        ∀ label, scheme.Plain label → volume.naming.entry i label = none)) := by
  rw [Path.unlinkable, Action.get_bind, holding.head_type]
  by_cases isDirectory : volume.naming.kind i = tDir
  · have directory : scheme.IsDirectory volume.naming i := ⟨isDirectory, live.2⟩
    obtain ⟨array, shelf⟩ := holding.shows.shelf holding.head_live isDirectory
    obtain ⟨above, up, -⟩ := consistent.up directory
    obtain ⟨empty, done, iff⟩ :=
      @Shelf.isdirempty _ _ _ _ _ consoleread shelf _ _ (consistent.self directory) up
    rw [if_pos isDirectory]
    exact ⟨empty, onInodes_done done, iff.trans ⟨fun all _ => all, fun all => all isDirectory⟩⟩
  · rw [if_neg isDirectory]
    exact ⟨true, rfl, fun _ isDir => absurd isDir isDirectory, fun _ => rfl⟩

theorem unlinkBad (holding : Holding others volume [⟨dp, d, true⟩] k)
    (named : volume.naming.links d ≠ 0) :
    ∃ next, Path.unlinkBad dp k = .done (-1) next ∧ Holding others volume [] next := by
  obtain ⟨next, dropped, given⟩ := holding.iunlockput_named (nobody d) named
  refine ⟨next, ?_, given⟩
  rw [Path.unlinkBad, Action.bind_done dropped]
  rfl

/-- A directory that loses another one is counted once less. -/
theorem unlinkCounts (consistent : scheme.Consistent volume.naming)
    (inside : scheme.IsDirectory volume.naming d) (plain : scheme.Plain name)
    (bound : volume.naming.entry d name = some i)
    (cleared : Holding others (volume.setEntry d name none) [⟨dp, d, true⟩, ⟨ip, i, true⟩] k) :
    ∃ next after, (Action.ifThen (volume.naming.kind i = tDir)
        (onInodes (Path.setFields dp Path.dropLink))) k = .done () next ∧
      Holding others after [⟨dp, d, true⟩, ⟨ip, i, true⟩] next ∧
      after.naming.links d ≠ 0 ∧ after.naming.links i = volume.naming.links i ∧
      after.setLinks i (volume.naming.links i - 1) = volume.unlink d name i := by
  have live := consistent.closed inside bound
  have different : i ≠ d := consistent.plain_other inside plain bound
  by_cases isDirectory : volume.naming.kind i = tDir
  · have above := consistent.links_above inside plain bound ⟨isDirectory, live.2⟩
    obtain ⟨next, done, counts, -⟩ := cleared.dropLink inside.2
    rw [Action.ifThen, if_pos isDirectory]
    refine ⟨next, _, done, counts, ?_, ?_, ?_⟩
    · simp only [Volume.setLinks, Volume.setEntry, Naming.setLinks_links, Naming.setEntry_links,
        Function.update_self]
      omega
    · simp [Volume.setLinks, Volume.setEntry, different]
    · rw [Volume.unlink, if_pos isDirectory]
      rfl
  · rw [Action.ifThen, if_neg isDirectory]
    refine ⟨k, _, rfl, cleared, inside.2, rfl, ?_⟩
    rw [Volume.unlink, if_neg isDirectory]

theorem unlinkName (holding : Holding others volume [⟨dp, d, true⟩, ⟨ip, i, true⟩] k)
    (consistent : scheme.Consistent volume.naming) (inside : scheme.IsDirectory volume.naming d)
    (plain : scheme.Plain name) (bound : volume.naming.entry d name = some i)
    (entry : EntryAt k.fs.toFileSystem d j name i) :
    ∃ next after, Path.unlinkName dp ip (offsetOf j) k = .done 0 next ∧
      (volume.unlink d name i).Puts i after ∧ Holding others after [] next := by
  have live := consistent.closed inside bound
  have different : i ≠ d := consistent.plain_other inside plain bound
  have type := holding.swap.head_type
  rw [Path.unlinkName, Action.get_bind]
  obtain ⟨cleared, done, holds⟩ := holding.clearEntry inside.1 entry
  rw [Action.bind_done done, type]
  obtain ⟨middle, between, done, counts, above, links, after⟩ :=
    holds.unlinkCounts consistent inside plain bound
  obtain ⟨later, dropped, left⟩ := counts.iunlockput_named (apart_one different) above
  obtain ⟨last, written, fewer, -⟩ := left.dropLink (links ▸ live.2)
  rw [links, after] at fewer
  obtain ⟨next, finish, put, puts, given⟩ := fewer.iunlockput (nobody i)
  rw [Action.bind_done done, Action.bind_done dropped, Action.bind_done written,
    Action.bind_done put]
  exact ⟨next, finish, rfl, puts, given⟩

/-- `sys_unlink` removes the name, or it changes nothing because the name may not be removed. -/
theorem sysUnlink (holding : Holding others volume [] k)
    (consistent : scheme.Consistent volume.naming) {path : List UInt8} (string : 0 ∉ path)
    (begins : others.Begins volume path) :
    (Path.sysUnlink consoleread path k).Ends OutOfSpace fun result next =>
      (result = -1 ∧ Holding others volume [] next ∧
        ∀ d name i, ¬volume.Removable (others.start path) (elements path) d name i) ∨
      result = 0 ∧ ∃ d name i after,
        volume.Removable (others.start path) (elements path) d name i ∧
          (volume.unlink d name i).Puts i after ∧ Holding others after [] next := by
  have closed := consistent.toClosed
  rw [Path.sysUnlink, Action.ends_bind]
  refine (holding.nameiparent closed unlocked_nil string begins _).mono ?_
  rintro ⟨parent, name⟩ found (⟨rfl, missing, holds⟩ | ⟨dp, d, rfl, inside, walked, holds⟩)
  · refine Or.inl ⟨rfl, holds, fun d name i removable => ?_⟩
    cases missing.symm.trans removable.1
  obtain ⟨locking, locked, holds, -⟩ := holds.ilock (nobody d)
  dsimp only
  rw [Action.bind_done locked]
  -- Whatever the reason, `bad` gives the directory back.
  have bad : ∀ {k}, Holding others volume [⟨dp, d, true⟩] k →
      (∀ i, ¬(scheme.Plain (nameOf name) ∧ volume.naming.entry d (nameOf name) = some i ∧
        (volume.naming.kind i = tDir →
          ∀ label, scheme.Plain label → volume.naming.entry i label = Option.none))) →
      (Path.unlinkBad dp k).Ends OutOfSpace fun result next =>
        (result = -1 ∧ Holding others volume [] next ∧
          ∀ d name i, ¬volume.Removable (others.start path) (elements path) d name i) ∨
        result = 0 ∧ ∃ d name i after,
          volume.Removable (others.start path) (elements path) d name i ∧
            (volume.unlink d name i).Puts i after ∧ Holding others after [] next := by
    intro k held refused
    obtain ⟨next, done, given⟩ := held.unlinkBad inside.2
    rw [done]
    refine Or.inl ⟨rfl, given, ?_⟩
    rintro d' name' i ⟨leads, removable⟩
    cases walked.symm.trans leads
    exact refused i removable
  by_cases special : namecmp name dot = 0 ∨ namecmp name dotdot = 0
  · rw [if_pos special]
    refine bad holds fun i removable => ?_
    obtain first | second := special
    · exact removable.1.1 ((namecmp_eq_zero_iff _ _).mp first)
    · exact removable.1.2 ((namecmp_eq_zero_iff _ _).mp second)
  · have plain : scheme.Plain (nameOf name) := by
      constructor
      · exact fun same => special (Or.inl ((namecmp_eq_zero_iff _ _).mpr same))
      · exact fun same => special (Or.inr ((namecmp_eq_zero_iff _ _).mpr same))
    rw [if_neg special, Action.ends_bind]
    refine (holds.dirlookup closed inside name).mono ?_
    rintro entry looked (⟨rfl, unbound, rfl⟩ | ⟨ip, i, j, rfl, bound, entry, both⟩)
    · refine bad holds fun i removable => ?_
      rw [unbound] at removable
      cases removable.2.1
    · have live := closed.closed inside bound
      have different : i ≠ d := consistent.plain_other inside plain bound
      obtain ⟨opening, locked, both, directories⟩ := both.ilock (apart_one different.symm)
      have counts := short_positive live.2 (both.shows.links_lt consistent live)
      obtain ⟨free, done, iff⟩ := @Holding.unlinkable _ _ _ _ _ _ consoleread both consistent live
      dsimp only
      rw [Action.bind_done locked, Action.get_bind, both.head_nlink, if_neg counts,
        Action.bind_done done]
      cases free with
      | false =>
          obtain ⟨later, dropped, left⟩ := both.iunlockput_named (apart_one different.symm) live.2
          rw [if_pos rfl, Action.bind_done dropped]
          refine bad left fun i' removable => ?_
          cases bound.symm.trans removable.2.1
          exact Bool.false_ne_true (iff.mpr removable.2.2)
      | true =>
          obtain ⟨next, after, done, puts, given⟩ := both.swap.unlinkName consistent inside plain
            bound (entry.keeps directories)
          rw [if_neg (by decide), done]
          exact Or.inr ⟨rfl, d, nameOf name, i, after, ⟨walked, plain, bound, iff.mp rfl⟩, puts,
            given⟩

end Holding

end Xv6.Path
