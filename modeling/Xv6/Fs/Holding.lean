import Xv6.Fs.VolumeEntries

/-!
# What a system call holds

Between its statements a system call has references, and some of the inodes are
locked. `Holding` lists what the call has, beside what the other processes and
the open files refer to; each statement takes something to the list, or gives it
back.
-/

namespace Xv6.Path

open Xv6.Library Xv6.Fs

/-- What is referenced beside the call, with its inode numbers, and the current directory. -/
structure Others where
  refs : InodePtr → Nat
  number : InodePtr → Nat
  cwd : InodePtr

/-- A reference to inode `inum`. -/
structure Hold where
  ip : InodePtr
  inum : Nat
  locked : Bool

/-- The call has the references `mine`. -/
structure Holding (others : Others) (volume : Volume) (mine : List Hold) (k : Kernel) : Prop where
  shows : Shows volume k.fs
  refs : ∀ ip, (k.fs.inode ip).ref = (others.refs ip + (mine.map Hold.ip).count ip : Nat)
  outside : ∀ ip, 0 < others.refs ip → (k.fs.inode ip).inum = others.number ip
  number : ∀ hold ∈ mine, (k.fs.inode hold.ip).inum = hold.inum
  locked : ∀ hold ∈ mine, hold.locked = true → (k.fs.inode hold.ip).valid = true
  held : ∀ ip, k.held ip = mine.any fun hold => hold.ip == ip && hold.locked
  cwd : k.cwd = others.cwd

namespace Holding

variable {others : Others} {volume after : Volume} {mine rest : List Hold} {k next : Kernel}
  {fs : FsState} {ip dp : InodePtr} {i d : Nat} {locked : Bool} {hold : Hold}

theorem perm {mine' : List Hold} (holding : Holding others volume mine k)
    (perm : mine.Perm mine') : Holding others volume mine' k where
  shows := holding.shows
  refs ip := by
    rw [holding.refs, (perm.map Hold.ip).count_eq]
  outside := holding.outside
  number hold member := holding.number hold (perm.mem_iff.mpr member)
  locked hold member := holding.locked hold (perm.mem_iff.mpr member)
  held ip := by
    rw [holding.held, perm.any_eq]
  cwd := holding.cwd

theorem swap {first second : Hold} (holding : Holding others volume (first :: second :: rest) k) :
    Holding others volume (second :: first :: rest) k :=
  holding.perm (List.Perm.swap second first rest)

section Facts

variable (holding : Holding others volume mine k)
include holding

theorem referenced (member : hold ∈ mine) : 0 < (k.fs.inode hold.ip).ref := by
  have positive : 0 < (mine.map Hold.ip).count hold.ip :=
    List.count_pos_iff.mpr (List.mem_map_of_mem member)
  rw [holding.refs]
  omega

theorem used (member : hold ∈ mine) : volume.naming.kind hold.inum ≠ 0 := by
  rw [← holding.number hold member]
  exact holding.shows.used hold.ip (holding.referenced member)

theorem inside (member : hold ∈ mine) : hold.inum ≠ 0 ∧ hold.inum < k.fs.sb.ninodes :=
  holding.shows.inside (holding.used member)

theorem live (member : hold ∈ mine) (locked : hold.locked = true) :
    k.fs.live hold.inum hold.ip = true :=
  live_iff.mpr ⟨holding.referenced member, holding.locked hold member locked,
    holding.number hold member⟩

/-- An inode whose lock the call does not have. -/
theorem free (number : (k.fs.inode ip).inum = i)
    (apart : ∀ hold ∈ mine, hold.locked = true → hold.inum ≠ i) : k.held ip = false := by
  rw [holding.held, List.any_eq_false]
  intro hold member both
  rw [Bool.and_eq_true, beq_iff_eq] at both
  obtain ⟨rfl, locked⟩ := both
  exact apart hold member locked ((holding.number hold member).symm.trans number)

/-- The inodes change, and the references stay. -/
theorem keeps (shows : Shows after fs) (entries : KeepsEntries k.fs.toFileSystem fs.toFileSystem) :
    Holding others after mine { k with fs := fs } where
  shows := shows
  refs ip := (entries ip).1.trans (holding.refs ip)
  outside ip used := (entries ip).2.1.trans (holding.outside ip used)
  number hold member := (entries hold.ip).2.1.trans (holding.number hold member)
  locked hold member locked := (entries hold.ip).2.2 (holding.locked hold member locked)
  held := holding.held
  cwd := holding.cwd

/-- One more reference. -/
theorem took (shows : Shows after fs) (took : Shows.Took k.fs ip i fs) :
    Holding others after (⟨ip, i, false⟩ :: mine) { k with fs := fs } := by
  have same : ∀ other, 0 < (k.fs.inode other).ref →
      (fs.inode other).inum = (k.fs.inode other).inum ∧
        (fs.inode other).valid = (k.fs.inode other).valid := by
    intro other referenced
    by_cases equal : other = ip
    · subst equal
      obtain ⟨number, valid⟩ := took.kept referenced
      exact ⟨took.number.trans number.symm, valid⟩
    · rw [took.others other equal]
      exact ⟨rfl, rfl⟩
  refine ⟨shows, fun other => ?_, fun other used => ?_, fun hold member => ?_,
    fun hold member locked => ?_, fun other => ?_, holding.cwd⟩
  · have before := holding.refs other
    rw [List.map_cons, List.count_cons]
    by_cases equal : ip = other
    · subst equal
      have ref := took.ref
      simp only [beq_self_eq_true, if_true]
      omega
    · have still := congrArg Inode.ref (took.others other (Ne.symm equal))
      simp only [beq_iff_eq, equal, if_false]
      exact still.trans before
  · have referenced : 0 < (k.fs.inode other).ref := by
      rw [holding.refs]
      omega
    exact (same other referenced).1.trans (holding.outside other used)
  · obtain rfl | member := List.mem_cons.mp member
    · exact took.number
    · exact (same _ (holding.referenced member)).1.trans (holding.number hold member)
  · obtain rfl | member := List.mem_cons.mp member
    · cases locked
    · exact (same _ (holding.referenced member)).2.trans (holding.locked hold member locked)
  · simp [holding.held]

end Facts

/-! ## What is locked beside an inode -/

theorem unlocked_nil : ∀ hold ∈ ([] : List Hold), hold.locked = false :=
  fun _ member => absurd member List.not_mem_nil

theorem unlocked_one : ∀ hold ∈ [(⟨ip, i, false⟩ : Hold)], hold.locked = false :=
  List.forall_mem_singleton.mpr rfl

/-- Nothing is locked, so inode `i` is not. -/
theorem apart_of_unlocked (free : ∀ hold ∈ rest, hold.locked = false) (i : Nat) :
    ∀ hold ∈ rest, hold.locked = true → hold.inum ≠ i := by
  intro hold member locked
  cases (free hold member).symm.trans locked

theorem apart_one {locked : Bool} (different : d ≠ i) :
    ∀ hold ∈ [(⟨dp, d, locked⟩ : Hold)], hold.locked = true → hold.inum ≠ i :=
  List.forall_mem_singleton.mpr fun _ => different

theorem nobody (i : Nat) : ∀ hold ∈ ([] : List Hold), hold.locked = true → hold.inum ≠ i :=
  apart_of_unlocked unlocked_nil i

/-- A reference that was outside is the call's own now. -/
theorem claim {others' : Others} (holding : Holding others volume mine k)
    (refs : ∀ other, others.refs other = others'.refs other + if ip = other then 1 else 0)
    (number : others'.number = others.number) (cwd : others'.cwd = others.cwd) :
    Holding others' volume (⟨ip, others.number ip, false⟩ :: mine) k where
  shows := holding.shows
  refs other := by
    rw [holding.refs, refs, List.map_cons, List.count_cons]
    simp only [beq_iff_eq]
    omega
  outside other used := by
    rw [number]
    apply holding.outside
    rw [refs]
    exact Nat.add_pos_left used _
  number hold member := by
    obtain rfl | member := List.mem_cons.mp member
    · apply holding.outside
      rw [refs, if_pos rfl]
      exact Nat.succ_pos _
    · exact holding.number hold member
  locked hold member locked := by
    obtain rfl | member := List.mem_cons.mp member
    · cases locked
    · exact holding.locked hold member locked
  held other := by
    simp [holding.held]
  cwd := holding.cwd.trans cwd.symm

/-! ## Locks -/

section Head

variable (holding : Holding others volume (⟨ip, i, locked⟩ :: rest) k)
include holding

theorem head : (k.fs.inode ip).inum = i := holding.number _ List.mem_cons_self

theorem head_referenced : 0 < (k.fs.inode ip).ref := holding.referenced List.mem_cons_self

theorem head_used : volume.naming.kind i ≠ 0 := holding.used List.mem_cons_self

/-- One reference less. -/
theorem gave (shows : Shows after fs) (gave : Shows.Gave k.fs ip fs) (free : locked = false) :
    Holding others after rest { k with fs := fs } := by
  have same : ∀ other, 0 < others.refs other + (rest.map Hold.ip).count other →
      (fs.inode other).inum = (k.fs.inode other).inum ∧
        (fs.inode other).valid = (k.fs.inode other).valid := by
    intro other referenced
    by_cases equal : other = ip
    · subst equal
      apply gave.kept
      rw [holding.refs, List.map_cons, List.count_cons_self]
      omega
    · rw [gave.others other equal]
      exact ⟨rfl, rfl⟩
  have counted : ∀ hold ∈ rest, 0 < others.refs hold.ip + (rest.map Hold.ip).count hold.ip := by
    intro hold member
    have positive := List.count_pos_iff.mpr (@List.mem_map_of_mem _ _ _ _ Hold.ip member)
    omega
  refine ⟨shows, fun other => ?_, fun other used => ?_, fun hold member => ?_,
    fun hold member locked => ?_, fun other => ?_, holding.cwd⟩
  · have before := holding.refs other
    rw [List.map_cons, List.count_cons] at before
    by_cases equal : ip = other
    · subst equal
      simp only [beq_self_eq_true, if_true] at before
      refine gave.ref.trans ?_
      omega
    · have still := congrArg Inode.ref (gave.others other (Ne.symm equal))
      simp only [beq_iff_eq, equal, if_false] at before
      exact still.trans before
  · exact (same other (Nat.add_pos_left used _)).1.trans (holding.outside other used)
  · exact (same _ (counted hold member)).1.trans
      (holding.number hold (List.mem_cons_of_mem _ member))
  · exact (same _ (counted hold member)).2.trans
      (holding.locked hold (List.mem_cons_of_mem _ member) locked)
  · simp [holding.held, free]

end Head

section Locked

variable (holding : Holding others volume (⟨ip, i, true⟩ :: rest) k)
include holding

theorem head_live : k.fs.live i ip = true := holding.live List.mem_cons_self rfl

theorem head_type : (k.fs.inode ip).type = volume.naming.kind i := by
  rw [← (holding.shows.inodes (holding.inside List.mem_cons_self).2).type,
    stat_of_live holding.shows.sound.consistent.once holding.head_live]

theorem head_nlink : (k.fs.inode ip).nlink = volume.naming.links i := by
  rw [← (holding.shows.inodes (holding.inside List.mem_cons_self).2).nlink holding.head_used,
    stat_of_live holding.shows.sound.consistent.once holding.head_live]

end Locked

theorem apart_cons (apart : ∀ hold ∈ rest, hold.locked = true → hold.inum ≠ i) :
    ∀ hold ∈ (⟨dp, d, false⟩ : Hold) :: rest, hold.locked = true → hold.inum ≠ i := by
  intro hold member locked
  obtain rfl | member := List.mem_cons.mp member
  · cases locked
  · exact apart hold member locked

/-- An inode that is read is locked now. -/
theorem lock (holding : Holding others volume (⟨ip, i, false⟩ :: rest) k)
    (valid : (k.fs.inode ip).valid = true) :
    Holding others volume (⟨ip, i, true⟩ :: rest)
      { k with held := Function.update k.held ip true } := by
  refine ⟨holding.shows, holding.refs, holding.outside, ?_, ?_, ?_, holding.cwd⟩
  · intro hold member
    obtain rfl | member := List.mem_cons.mp member
    · exact holding.head
    · exact holding.number hold (List.mem_cons_of_mem _ member)
  · intro hold member locked
    obtain rfl | member := List.mem_cons.mp member
    · exact valid
    · exact holding.locked hold (List.mem_cons_of_mem _ member) locked
  · intro other
    by_cases same : other = ip
    · simp [same]
    · simp [same, Ne.symm same, holding.held]

theorem ilock (holding : Holding others volume (⟨ip, i, false⟩ :: rest) k)
    (apart : ∀ hold ∈ rest, hold.locked = true → hold.inum ≠ i) :
    ∃ next, Path.ilock ip k = .done () next ∧
      Holding others volume (⟨ip, i, true⟩ :: rest) next ∧
      ∀ d array, Directory k.fs.toFileSystem d array → Directory next.fs.toFileSystem d array := by
  have referenced := holding.head_referenced
  have free : k.held ip = false := holding.free holding.head (apart_cons apart)
  obtain ⟨fs, done, shows, entries, valid, directories⟩ := holding.shows.ilock referenced
  exact ⟨_, ilock_done referenced free done, (holding.keeps shows entries).lock valid,
    directories⟩

theorem iunlock (holding : Holding others volume (⟨ip, i, true⟩ :: rest) k)
    (apart : ∀ hold ∈ rest, hold.locked = true → hold.inum ≠ i) :
    Path.iunlock ip k = .done () { k with held := Function.update k.held ip false } ∧
      Holding others volume (⟨ip, i, false⟩ :: rest)
        { k with held := Function.update k.held ip false } := by
  have held : k.held ip = true := by
    rw [holding.held]
    simp
  refine ⟨iunlock_done holding.head_referenced held, holding.shows, holding.refs, holding.outside,
    ?_, ?_, ?_, holding.cwd⟩
  · intro hold member
    obtain rfl | member := List.mem_cons.mp member
    · exact holding.head
    · exact holding.number hold (List.mem_cons_of_mem _ member)
  · intro hold member locked
    obtain rfl | member := List.mem_cons.mp member
    · cases locked
    · exact holding.locked hold (List.mem_cons_of_mem _ member) locked
  · intro other
    by_cases same : other = ip
    · subst same
      have unlocked : ∀ hold ∈ rest, hold.ip = other → hold.locked = false := by
        intro hold member equal
        apply Bool.eq_false_iff.mpr
        intro locked
        apply apart hold member locked
        rw [← holding.number hold (List.mem_cons_of_mem _ member), equal]
        exact holding.head
      simp only [Function.update_self, List.any_cons, Bool.and_false, Bool.false_or]
      symm
      rw [List.any_eq_false]
      intro hold member both
      rw [Bool.and_eq_true, beq_iff_eq] at both
      rw [unlocked hold member both.1] at both
      cases both.2
    · simp [same, Ne.symm same, holding.held]

end Holding

/-! ## Giving references back -/

/-- An inode without names may have been freed. -/
def Volume.Puts (before : Volume) (i : Nat) (after : Volume) : Prop :=
  after = before ∨ before.naming.links i = 0 ∧
    after = { before with naming := before.naming.setKind i 0 }

theorem Volume.Puts.named {before after : Volume} {i : Nat} (puts : before.Puts i after)
    (links : before.naming.links i ≠ 0) : after = before := by
  obtain same | ⟨none, -⟩ := puts
  · exact same
  · exact absurd none links

theorem Volume.Puts.consistent {before after : Volume} {i : Nat} (puts : before.Puts i after)
    (consistent : scheme.Consistent before.naming) : scheme.Consistent after.naming := by
  obtain rfl | ⟨none, rfl⟩ := puts
  · exact consistent
  · exact consistent.discard none 0

namespace Holding

variable {others : Others} {volume after : Volume} {mine rest : List Hold} {k next : Kernel}
  {fs : FsState} {ip dp : InodePtr} {i d : Nat}

theorem iput (holding : Holding others volume (⟨ip, i, false⟩ :: rest) k)
    (apart : ∀ hold ∈ rest, hold.locked = true → hold.inum ≠ i) :
    ∃ next after, Path.iput ip k = .done () next ∧ volume.Puts i after ∧
      Holding others after rest next := by
  have referenced := holding.head_referenced
  have number := holding.head
  have free : k.held ip = false := holding.free number (apart_cons apart)
  by_cases stays : volume.naming.links i ≠ 0 ∨ 1 < (k.fs.inode ip).ref
  · obtain ⟨fs, done, shows, gave⟩ := holding.shows.iput referenced (number.symm ▸ stays)
    exact ⟨_, volume, iput_done free done, Or.inl rfl, holding.gave shows gave rfl⟩
  · obtain ⟨linked, more⟩ := not_or.mp stays
    have unlinked := not_not.mp linked
    obtain ⟨fs, done, shows, gave⟩ :=
      holding.shows.iput_last (by omega) (number.symm ▸ unlinked)
    rw [number] at shows
    exact ⟨_, _, iput_done free done, Or.inr ⟨unlinked, rfl⟩, holding.gave shows gave rfl⟩

/-- A node that has names stays. -/
theorem iput_named (holding : Holding others volume (⟨ip, i, false⟩ :: rest) k)
    (apart : ∀ hold ∈ rest, hold.locked = true → hold.inum ≠ i)
    (named : volume.naming.links i ≠ 0) :
    ∃ next, Path.iput ip k = .done () next ∧ Holding others volume rest next := by
  obtain ⟨next, after, done, puts, given⟩ := holding.iput apart
  cases puts.named named
  exact ⟨next, done, given⟩

theorem iunlockput (holding : Holding others volume (⟨ip, i, true⟩ :: rest) k)
    (apart : ∀ hold ∈ rest, hold.locked = true → hold.inum ≠ i) :
    ∃ next after, Path.iunlockput ip k = .done () next ∧ volume.Puts i after ∧
      Holding others after rest next := by
  obtain ⟨unlocked, holds⟩ := holding.iunlock apart
  obtain ⟨next, after, done, puts, given⟩ := holds.iput apart
  refine ⟨next, after, ?_, puts, given⟩
  rw [Path.iunlockput, Action.bind_done unlocked]
  exact done

theorem iunlockput_named (holding : Holding others volume (⟨ip, i, true⟩ :: rest) k)
    (apart : ∀ hold ∈ rest, hold.locked = true → hold.inum ≠ i)
    (named : volume.naming.links i ≠ 0) :
    ∃ next, Path.iunlockput ip k = .done () next ∧ Holding others volume rest next := by
  obtain ⟨next, after, done, puts, given⟩ := holding.iunlockput apart
  cases puts.named named
  exact ⟨next, done, given⟩

end Holding

end Xv6.Path
