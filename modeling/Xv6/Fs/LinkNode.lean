import Xv6.Fs.MakeNode

/-!
# One more name for a node

`sys_link` in the volume. Between the count of the new name and the name itself
the counts are not the names, but no name leads to a node without names.
-/

namespace Xv6.Path

open Xv6.Library Xv6.Fs

/-- Directory `d` gets the name `name` for node `i`. -/
def Volume.link (volume : Volume) (d : Nat) (name : List UInt8) (i : Nat) : Volume :=
  (volume.setLinks i (volume.naming.links i + 1)).setEntry d name (some i)

/-- What link does, from the nodes where the two paths begin. -/
inductive Links (volume : Volume) (i : Nat) (old : List (List UInt8)) (j : Nat)
    (new : List (List UInt8)) : Int → Volume → Prop where
  | missing (nothing : scheme.walk volume.naming i old = none) : Links volume i old j new (-1) volume
  | directory {target : Nat} (leads : scheme.walk volume.naming i old = some target)
      (kind : volume.naming.kind target = tDir) : Links volume i old j new (-1) volume
  | noParent {target : Nat} (leads : scheme.walk volume.naming i old = some target)
      (nothing : scheme.walkParent volume.naming j new = none) :
      Links volume i old j new (-1) volume
  | taken {target d other : Nat} {name : List UInt8}
      (leads : scheme.walk volume.naming i old = some target)
      (parent : scheme.walkParent volume.naming j new = some (d, name))
      (bound : volume.naming.entry d name = some other) : Links volume i old j new (-1) volume
  | linked {target d : Nat} {name : List UInt8}
      (leads : scheme.walk volume.naming i old = some target)
      (leaf : volume.naming.kind target ≠ tDir)
      (parent : scheme.walkParent volume.naming j new = some (d, name))
      (unbound : volume.naming.entry d name = none) :
      Links volume i old j new 0 (volume.link d name target)

/-- The file is there, and the new name is bound to the directory itself. -/
def Volume.Stuck (volume : Volume) (i : Nat) (old : List (List UInt8)) (j : Nat)
    (new : List (List UInt8)) : Prop :=
  ∃ target d name, scheme.walk volume.naming i old = some target ∧
    volume.naming.kind target ≠ tDir ∧
    scheme.walkParent volume.naming j new = some (d, name) ∧
    volume.naming.entry d name = some d

theorem Links.consistent {volume after : Volume} {i j : Nat} {old new : List (List UInt8)}
    {result : Int} (links : Links volume i old j new result after)
    (consistent : scheme.Consistent volume.naming) (begins : scheme.Live volume.naming i)
    (live : scheme.Live volume.naming j) : scheme.Consistent after.naming := by
  cases links with
  | missing => exact consistent
  | directory => exact consistent
  | noParent => exact consistent
  | taken => exact consistent
  | linked leads leaf parent unbound =>
      have inside := Scheme.walkParent_directory consistent.toClosed live parent
      have target := Scheme.walk_live consistent.toClosed begins leads
      exact (Scheme.Adds.link inside unbound target leaf).keeps consistent

section Count

variable {volume : Volume} {i links : Nat}

/-- Names that lead to nodes with names still do, whatever the count is. -/
theorem Volume.setLinks_closed (closed : scheme.Closed volume.naming)
    (leaf : volume.naming.kind i ≠ tDir) (named : links ≠ 0) :
    scheme.Closed (volume.setLinks i links).naming := by
  have directory : ∀ {d}, scheme.IsDirectory (volume.setLinks i links).naming d →
      scheme.IsDirectory volume.naming d := by
    intro d isDirectory
    have different : d ≠ i := by
      rintro rfl
      exact leaf isDirectory.1
    exact ⟨isDirectory.1, by simpa [Volume.setLinks, different] using isDirectory.2⟩
  have live : ∀ {j}, scheme.Live volume.naming j →
      scheme.Live (volume.setLinks i links).naming j := by
    intro j live
    by_cases same : j = i
    · subst same
      exact ⟨live.1, by simpa [Volume.setLinks] using named⟩
    · exact ⟨live.1, by simpa [Volume.setLinks, same] using live.2⟩
  exact ⟨⟨closed.root.1, (live closed.root.live).2⟩,
    fun isDirectory entry => live (closed.closed (directory isDirectory) entry)⟩

/-- The count of the new name is taken back. -/
theorem Volume.setLinks_undo :
    (volume.setLinks i links).setLinks i (volume.naming.links i) = volume := by
  simp [Volume.setLinks, Naming.setLinks]

end Count

namespace Holding

variable {others : Others} {volume : Volume} {rest : List Hold} {k : Kernel} {ip dp : InodePtr}
  {i d : Nat} {name : Memory} {consoleread : Int → Int × List UInt8}

/-- The statements after `bad`. -/
theorem linkBad (holding : Holding others (volume.setLinks i (volume.naming.links i + 1))
      [⟨ip, i, false⟩] k) (named : volume.naming.links i ≠ 0) :
    ∃ next, Path.linkBad ip k = .done (-1) next ∧ Holding others volume [] next := by
  have count : (volume.setLinks i (volume.naming.links i + 1)).naming.links i =
      volume.naming.links i + 1 := Function.update_self ..
  obtain ⟨locking, locked, holds, -⟩ := holding.ilock (nobody i)
  obtain ⟨dropping, dropped, less, -⟩ := holds.dropLink (by
    rw [count]
    exact Nat.succ_ne_zero _)
  rw [count, Nat.add_sub_cancel, Volume.setLinks_undo] at less
  obtain ⟨next, put, given⟩ := less.iunlockput_named (nobody i) named
  refine ⟨next, ?_, given⟩
  rw [Path.linkBad, Action.bind_done locked, Action.bind_done dropped, Action.bind_done put]
  rfl

section Entry

variable (holding : Holding others (volume.setLinks i (volume.naming.links i + 1))
    [⟨dp, d, true⟩, ⟨ip, i, false⟩] k) (inside : scheme.IsDirectory volume.naming d)
include holding inside

/-- The name is made, or the count of it is taken back. -/
theorem linkEntry (consistent : scheme.Consistent volume.naming)
    (live : scheme.Live volume.naming i) (leaf : volume.naming.kind i ≠ tDir)
    (other : volume.naming.entry d (nameOf name) ≠ some d) :
    (Path.linkEntry consoleread ip dp name k).Ends OutOfSpace fun result next =>
      (result = 0 ∧ volume.naming.entry d (nameOf name) = none ∧
        Holding others (volume.link d (nameOf name) i) [] next) ∨
      result = -1 ∧ (∃ other, volume.naming.entry d (nameOf name) = some other) ∧
        Holding others volume [] next := by
  have different : d ≠ i := by
    rintro rfl
    exact leaf inside.1
  have closed := Volume.setLinks_closed consistent.toClosed leaf
    (Nat.succ_ne_zero (volume.naming.links i))
  have named : (volume.setLinks i (volume.naming.links i + 1)).naming.links d ≠ 0 := by
    simpa [Volume.setLinks, different] using inside.2
  have target := holding.swap.inside List.mem_cons_self
  rw [Path.linkEntry, Action.get_bind, holding.swap.head, Action.ends_bind]
  cases bound : volume.naming.entry d (nameOf name) with
  | none =>
      have plain := consistent.plain inside bound
      refine (holding.dirlink inside.1 bound target.1 target.2 (Or.inl plain)).mono ?_
      rintro linked middle ⟨rfl, made⟩
      obtain ⟨later, dropped, left⟩ :=
        made.iunlockput_named (apart_of_unlocked unlocked_one d) named
      obtain ⟨next, put, given⟩ := left.iput_named (nobody i) (by
        simp [Volume.setEntry, Volume.setLinks])
      rw [if_neg (by decide), Action.bind_done dropped, Action.bind_done put]
      exact Or.inl ⟨rfl, rfl, given⟩
  | some node =>
      have away : node ≠ d := by
        rintro rfl
        exact other bound
      refine (holding.dirlink_bound closed ⟨inside.1, named⟩ bound away).mono ?_
      rintro linked middle ⟨rfl, still⟩
      obtain ⟨later, dropped, left⟩ :=
        still.iunlockput_named (apart_of_unlocked unlocked_one d) named
      obtain ⟨next, done, given⟩ := left.linkBad live.2
      rw [if_pos (by decide), Action.bind_done dropped, done]
      exact Or.inr ⟨rfl, ⟨node, rfl⟩, given⟩

/-- `dirlink` finds its own directory under the name, and waits for the lock that it has. -/
theorem linkEntry_self (self : volume.naming.entry d (nameOf name) = some d) :
    Path.linkEntry consoleread ip dp name k = .blocked := by
  obtain ⟨array, shelf⟩ := holding.shows.shelf holding.head_live inside.1
  have bound : bindings array (nameOf name) = some d := shelf.bound ▸ self
  obtain ⟨j, node, found, here⟩ | ⟨-, -, none⟩ :=
    shelf.opened.directory.find_cases (nameOf name)
  · cases bound.symm.trans here
    have waits := @Opened.dirlink_self _ _ _ _ _ consoleread shelf.opened _ found i
    rw [Path.linkEntry, Action.get_bind, holding.swap.head, Action.bind_blocked]
    rw [onInodes]
    exact Action.focus_blocked waits
  · rw [bound] at none
    cases none

end Entry

section Call

variable (holding : Holding others volume [] k) (consistent : scheme.Consistent volume.naming)
  {old new : List UInt8} (oldString : 0 ∉ old) (newString : 0 ∉ new)
  (oldBegins : others.Begins volume old) (newBegins : others.Begins volume new)
include holding consistent oldString newString oldBegins newBegins

/-- Link fails before it gets to `dirlink`, or it gets there with the name counted. -/
theorem sysLink_reaches :
    (∃ message, Path.sysLink consoleread old new k = .panic message ∧ OutOfSpace message) ∨
    (∃ next, Path.sysLink consoleread old new k = .done (-1) next ∧
      Links volume (others.start old) (elements old) (others.start new) (elements new) (-1)
        volume ∧
      ¬volume.Stuck (others.start old) (elements old) (others.start new) (elements new) ∧
      Holding others volume [] next) ∨
    ∃ ip dp i d name opening,
      scheme.walk volume.naming (others.start old) (elements old) = some i ∧
      volume.naming.kind i ≠ tDir ∧
      scheme.walkParent volume.naming (others.start new) (elements new) = some (d, nameOf name) ∧
      Holding others (volume.setLinks i (volume.naming.links i + 1))
        [⟨dp, d, true⟩, ⟨ip, i, false⟩] opening ∧
      Path.sysLink consoleread old new k = Path.linkEntry consoleread ip dp name opening := by
  have closed := consistent.toClosed
  obtain ⟨message, panics, full⟩ | ⟨result, found, done, target⟩ :=
    (holding.namei closed unlocked_nil oldString oldBegins).cases
  · exact Or.inl ⟨message, Action.bind_panic panics, full⟩
  · rw [Path.sysLink, Action.bind_done done]
    cases result with
    | none =>
        obtain ⟨missing, holds⟩ := target
        refine Or.inr (Or.inl ⟨found, rfl, .missing missing, ?_, holds⟩)
        rintro ⟨i, d, name, leads, -⟩
        cases missing.symm.trans leads
    | some ip =>
        obtain ⟨i, leads, holds⟩ := target
        have live := Scheme.walk_live closed oldBegins.live leads
        obtain ⟨locking, locked, holds, -⟩ := holds.ilock (nobody i)
        dsimp only
        rw [Action.bind_done locked, Action.get_bind, holds.head_type]
        by_cases leaf : volume.naming.kind i = tDir
        · obtain ⟨next, dropped, given⟩ := holds.iunlockput_named (nobody i) live.2
          rw [if_pos leaf, Action.bind_done dropped]
          refine Or.inr (Or.inl ⟨next, rfl, .directory leads leaf, ?_, given⟩)
          rintro ⟨target, d, name, other, file, -⟩
          cases leads.symm.trans other
          exact file leaf
        · have bound := holds.shows.links_lt consistent live
          obtain ⟨counting, counted, more, -⟩ := holds.addLink (by omega)
          obtain ⟨unlocked, free⟩ := more.iunlock (nobody i)
          have closed := Volume.setLinks_closed closed leaf
            (Nat.succ_ne_zero (volume.naming.links i))
          have begins : others.Begins (volume.setLinks i (volume.naming.links i + 1)) new := by
            refine ⟨⟨newBegins.live.1, ?_⟩, newBegins.home⟩
            by_cases same : others.start new = i
            · simp [Volume.setLinks, same]
            · simpa [Volume.setLinks, same] using newBegins.live.2
          rw [if_neg leaf, Action.bind_done counted, Action.bind_done unlocked]
          obtain ⟨message, panics, full⟩ | ⟨⟨parent, name⟩, middle, done, found⟩ :=
            (@Holding.nameiparent _ _ _ _ consoleread free closed unlocked_one _ newString begins
              fun _ => 0).cases
          · exact Or.inl ⟨message, Action.bind_panic panics, full⟩
          · rw [Action.bind_done done]
            obtain ⟨rfl, missing, holds⟩ | ⟨dp, d, rfl, inside, walked, holds⟩ := found
            · obtain ⟨next, done, given⟩ := holds.linkBad live.2
              dsimp only
              rw [done]
              refine Or.inr (Or.inl ⟨next, rfl, .noParent leads missing, ?_, given⟩)
              rintro ⟨target, d, name, -, -, parent, -⟩
              cases missing.symm.trans parent
            · obtain ⟨opening, locked, holds, -⟩ := holds.ilock (apart_of_unlocked unlocked_one _)
              dsimp only
              rw [Action.bind_done locked]
              exact Or.inr (Or.inr ⟨ip, dp, i, d, name, opening, leads, leaf, walked, holds, rfl⟩)

/-- Link makes the name, or it fails and changes nothing, unless the new name is bound to its own
directory. -/
theorem sysLink
    (free : ¬volume.Stuck (others.start old) (elements old) (others.start new) (elements new)) :
    (Path.sysLink consoleread old new k).Ends OutOfSpace fun result next =>
      ∃ after, Links volume (others.start old) (elements old) (others.start new) (elements new)
        result after ∧ Holding others after [] next := by
  obtain ⟨message, panics, full⟩ | ⟨next, done, links, -, given⟩ |
      ⟨ip, dp, i, d, name, opening, leads, leaf, walked, holds, same⟩ :=
    @sysLink_reaches _ _ _ consoleread holding consistent _ _ oldString newString oldBegins
      newBegins
  · rw [panics]
    exact full
  · rw [done]
    exact ⟨volume, links, given⟩
  · have inside := Scheme.walkParent_directory consistent.toClosed newBegins.live walked
    have live := Scheme.walk_live consistent.toClosed oldBegins.live leads
    rw [same]
    refine (holds.linkEntry inside consistent live leaf fun self =>
      free ⟨i, d, nameOf name, leads, leaf, walked, self⟩).mono ?_
    rintro result next (⟨rfl, unbound, given⟩ | ⟨rfl, ⟨other, bound⟩, given⟩)
    · exact ⟨_, .linked leads leaf walked unbound, given⟩
    · exact ⟨volume, .taken leads walked bound, given⟩

/-- Otherwise it does not return. -/
theorem sysLink_stuck
    (stuck : volume.Stuck (others.start old) (elements old) (others.start new) (elements new))
    (result : Int) (next : Kernel) : Path.sysLink consoleread old new k ≠ .done result next := by
  intro ends
  obtain ⟨message, panics, -⟩ | ⟨next, -, -, free, -⟩ |
      ⟨ip, dp, i, d, name, opening, leads, leaf, walked, holds, same⟩ :=
    @sysLink_reaches _ _ _ consoleread holding consistent _ _ oldString newString oldBegins
      newBegins
  · cases panics.symm.trans ends
  · exact free stuck
  · have inside := Scheme.walkParent_directory consistent.toClosed newBegins.live walked
    obtain ⟨i', d', name', leads', -, walked', self⟩ := stuck
    cases walked.symm.trans walked'
    have waits := @linkEntry_self _ _ _ _ _ _ _ _ consoleread holds inside self
    cases waits.symm.trans (same.symm.trans ends)

end Call

end Holding

end Xv6.Path
