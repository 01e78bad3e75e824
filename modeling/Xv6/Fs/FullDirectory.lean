import Xv6.Fs.Directory

/-!
# Directories without room

`dirlink` with a new name works exactly when the directory has room for one more
entry. Else `writei` refuses, or `bmap` finds no free block, and the kernel
panics. A directory with 4480 entries is as large as a file can be.
-/

namespace Xv6.Fs

open Xv6.Library

variable {fs : FileSystem} {state next : FsState} {ip dp : InodePtr} {inum i : Nat}
  {array : List UInt8} {consoleread : Int → Int × List UInt8}

/-! ## The block of an entry -/

/-- An entry lies in one block. -/
theorem touched_entry (i : Nat) :
    touched (direntSize * i) direntSize = {direntSize * i / bsize} := by
  ext bn
  simp only [touched, Finset.mem_image, Finset.mem_Ico, Finset.mem_singleton]
  unfold direntSize bsize
  constructor
  · rintro ⟨o, range, rfl⟩
    omega
  · rintro rfl
    exact ⟨16 * i, by omega, rfl⟩

theorem needed_one (fs : FileSystem) (inum i : Nat) :
    fs.needed inum (direntSize * i) direntSize = fs.missing inum (direntSize * i / bsize) := by
  rw [FileSystem.needed, touched_entry, FileSystem.missing, Finset.filter_singleton]
  congr 1
  · split
    · rfl
    · rfl
  · simp

/-- `bmap` runs out of blocks exactly when fewer are free than it needs. -/
theorem bmap_starved (sound : Sound state) (live : state.live inum ip = true) {bn : Nat}
    (small : bn < maxFile) (few : state.free < state.missing inum bn) :
    bmap ip bn state = .panic "balloc: out of blocks" := by
  have ends := bmap_ends sound live bn
  cases outcome : bmap ip bn state with
  | blocked =>
      rw [outcome] at ends
      exact ends.elim
  | panic message =>
      obtain ⟨rfl, -⟩ | ⟨-, large⟩ := ends.of_panic outcome
      · rfl
      · exact absurd small (Nat.not_lt_of_le large)
  | done b next =>
      have cost := (ends.of_done outcome).2.cost
      omega

theorem writei_starved (src : Memory) {off n : UInt32} (sound : Sound state)
    (live : state.live inum ip = true) (plain : (state.inode ip).type ≠ tDev)
    (positive : 0 < n.toNat) (inside : off.toNat ≤ (state.inode ip).size)
    (fits : off.toNat + n.toNat ≤ maxFile * bsize)
    (few : state.free < state.missing inum (off.toNat / bsize)) :
    writei ip src off n state = .panic "balloc: out of blocks" := by
  have small : off.toNat / bsize < maxFile := by
    rw [Nat.div_lt_iff_lt_mul (by decide)]
    omega
  obtain ⟨fuel, count⟩ := Nat.exists_eq_add_of_lt positive
  rw [Nat.zero_add] at count
  have loop : writeiFrom ip src n.toNat n.toNat 0 off.toNat state =
      .panic "balloc: out of blocks" := by
    have split : writeiFrom ip src n.toNat n.toNat 0 off.toNat =
        writeiFrom ip src n.toNat (fuel + 1) 0 off.toNat :=
      congrArg (fun turns => writeiFrom ip src n.toNat turns 0 off.toNat) count
    rw [split, writeiFrom, if_pos positive]
    exact Action.bind_panic (bmap_starved sound live small few)
  rw [writei_loop src plain inside fits]
  exact Action.bind_panic loop

/-! ## One more entry -/

/-- A directory without room makes the kernel panic. -/
theorem Opened.dirlink_panics (opened : Opened state dp inum array) {name : Memory}
    (unbound : bindings array (nameOf name) = none) (target : Nat)
    (full : ¬Room state.toFileSystem inum array) :
    ∃ message, dirlink consoleread dp name target state = .panic message := by
  obtain ⟨j, rest, writes, within, free, -⟩ :=
    @Opened.dirlink_writes _ _ _ _ consoleread opened name unbound target
  have ended : j = slots array := by
    by_contra different
    exact full (Or.inl ⟨j, Nat.lt_of_le_of_ne within different, free⟩)
  subst ended
  have length := opened.directory.length
  have offset := opened.toNat_offsetOf (Nat.le_refl _)
  have size : sizeofDe.toNat = direntSize := rfl
  rw [writes]
  by_cases large : maxFile * bsize < array.length + direntSize
  · rw [Action.bind_done (opened.refuses large _)]
    exact ⟨_, rfl⟩
  · have fits := Nat.le_of_not_lt large
    have few : state.free < state.missing inum (direntSize * slots array / bsize) := by
      rw [← needed_one, ← length]
      exact Nat.lt_of_not_le fun enough => full (Or.inr ⟨fits, enough⟩)
    refine ⟨_, Action.bind_panic (writei_starved _ opened.sound opened.live opened.plain
      (by decide) ?_ ?_ ?_)⟩
    · rw [offset, opened.size]
    · rw [offset, size, ← length]
      exact fits
    · rw [offset]
      exact few

/-- Room depends on the blocks of files and on how many are free. -/
theorem room_congr {later : FileSystem} (number : ∀ place, later.number place = fs.number place)
    (free : later.free = fs.free) : Room later inum array ↔ Room fs inum array := by
  have needed : later.needed inum array.length direntSize =
      fs.needed inum array.length direntSize := by
    simp only [FileSystem.needed, number]
  rw [Room, Room, needed, free]

/-- The entry was added, or nothing has changed. -/
def LinkedOrNot (state : FsState) (dp : InodePtr) (inum : Nat) (array name : List UInt8)
    (target : Nat) (result : Int) (next : FsState) : Prop :=
  result = 0 ∧ (∃ after, Relisted state dp inum next after ∧
    bindings after = Function.update (bindings array) name (some target)) ∨
  result = -1 ∧ Untouched state next

/-- `dirlink` with a new name returns exactly when the directory has room. -/
theorem Opened.dirlink_iff (opened : Opened state dp inum array) {name : Memory} {target : Nat}
    (unbound : bindings array (nameOf name) = none) (nonzero : target ≠ 0)
    (short : target < 256 ^ 2) (inside : target < state.sb.ninodes) :
    (dirlink consoleread dp name target state).Ends (fun _ => False)
        (LinkedOrNot state dp inum array (nameOf name) target) ↔
      Room state.toFileSystem inum array := by
  constructor
  · intro ends
    by_contra full
    obtain ⟨message, panics⟩ :=
      @Opened.dirlink_panics _ _ _ _ consoleread opened name unbound target full
    exact ends.of_panic panics
  · intro room
    obtain ⟨next, after, done, relisted, -, changed⟩ :=
      @Opened.dirlink_room _ _ _ _ consoleread opened name target unbound nonzero short inside room
    rw [done]
    exact Or.inl ⟨rfl, after, relisted, changed⟩

/-! ## A directory of the largest size -/

/-- `writei` takes no more blocks than are needed. -/
theorem writei_free (src : Memory) {off n : UInt32} (sound : Sound state)
    (live : state.live inum ip = true) (plain : (state.inode ip).type ≠ tDev) :
    (writei ip src off n state).Ends (fun _ => True) fun _ next =>
      state.free ≤ next.free + state.needed inum off.toNat n.toNat := by
  rw [writei, Action.ends_bind, Action.ends_get, if_neg plain]
  split
  · exact Nat.le_add_right ..
  · split
    · exact Nat.le_add_right ..
    · rw [Action.ends_bind]
      refine (@writeiFrom_free state ip inum src off.toNat n.toNat 0 n.toNat sound live).mono ?_
      rintro last next ⟨after, still, few⟩
      rw [Nat.add_zero, Nat.sub_zero] at few
      split
      · obtain ⟨-, valid, number⟩ := live_iff.mp still
        obtain ⟨touched, there⟩ := after.consistent.touch still
          { next.inode ip with size := last } rfl valid number rfl
        have same := free_updated touched (touched.cached ip (live_iff.mp there).1)
        simp only [Action.ends_bind]
        change state.free ≤ FileSystem.free (FileSystem.updated (next.toFileSystem.setInode ip
          { next.inode ip with size := last }) ip) + _
        rw [same]
        exact few
      · exact few

theorem needed_le (fs : FileSystem) (inum off n : Nat) :
    fs.needed inum off n ≤ (off + n) / bsize + 2 := by
  have within : touched off n ⊆ Finset.range ((off + n) / bsize + 1) := by
    intro bn member
    obtain ⟨o, range, rfl⟩ := Finset.mem_image.mp member
    rw [Finset.mem_Ico] at range
    exact Finset.mem_range.mpr (Nat.lt_succ_of_le (Nat.div_le_div_right (Nat.le_of_lt range.2)))
  have few := Finset.card_le_card ((Finset.filter_subset
    (fun bn => fs.number (slotOf inum bn) = 0) _).trans within)
  rw [Finset.card_range] at few
  rw [FileSystem.needed]
  split
  · exact Nat.add_le_add_right few 1
  · exact Nat.le_succ_of_le few

/-- The name of entry `i`. -/
def numbered (i : Nat) : Memory := fun j =>
  if j = 0 then UInt8.ofNat (1 + i % 128)
  else if j = 1 then UInt8.ofNat (1 + i / 128)
  else 0

theorem nameOf_numbered {i : Nat} (below : i < 4480) :
    nameOf (numbered i) = [UInt8.ofNat (1 + i % 128), UInt8.ofNat (1 + i / 128)] := by
  have nonzero : ∀ byte, 1 ≤ byte → byte < 256 → UInt8.ofNat byte ≠ 0 := by
    intro byte low high zero
    have value := congrArg UInt8.toNat zero
    rw [UInt8.toNat_ofNat', Nat.mod_eq_of_lt high] at value
    exact Nat.not_lt_of_le low (value ▸ Nat.one_pos)
  have first := nonzero (1 + i % 128) (by omega) (by omega)
  have second := nonzero (1 + i / 128) (by omega) (by omega)
  have whole : (numbered i).read 0 dirsiz =
      UInt8.ofNat (1 + i % 128) :: UInt8.ofNat (1 + i / 128) :: List.replicate 12 0 := rfl
  rw [nameOf, whole, List.takeWhile_cons_of_pos (by simpa using first),
    List.takeWhile_cons_of_pos (by simpa using second)]
  rfl

/-- As many entries as a directory can have, all of them for inode 1. -/
def packed : Memory := fun o =>
  linked (fun _ => 0) (numbered (o / direntSize)) 1 (o % direntSize)

/-- `MAXFILE*BSIZE` -/
def largest : UInt32 := 71680

theorem entries_packed {i : Nat} (below : i < 4480) :
    entries (packed.read 0 71680) i = some (nameOf (numbered i), 1) := by
  have same : entries (packed.read 0 71680) i =
      entryOf (linked (fun _ => 0) (numbered i) 1) := by
    apply entryOf_congr
    intro j inside
    unfold direntSize at inside
    rw [direntOf_drop, getD_read _ (by unfold direntSize; omega), packed]
    have entry : (direntSize * i + j) / direntSize = i := by
      unfold direntSize
      omega
    have offset : (direntSize * i + j) % direntSize = j := by
      unfold direntSize
      omega
    rw [entry, offset]
  rw [same]
  exact entryOf_linked _ _ (by decide) (by decide)

theorem distinct_packed : (entries (packed.read 0 71680)).Distinct := by
  have within : (entries (packed.read 0 71680)).Within 4480 :=
    entries_within (Memory.length_read ..)
  intro i j name first second here there
  have low := within.lt here
  have high := within.lt there
  rw [entries_packed low] at here
  rw [entries_packed high] at there
  cases here
  have names := (Prod.mk.inj (Option.some.inj there)).1
  rw [nameOf_numbered low, nameOf_numbered high] at names
  have bytes := List.cons.inj names
  have low := congrArg UInt8.toNat bytes.1
  have high := congrArg UInt8.toNat (List.cons.inj bytes.2).1
  simp only [UInt8.toNat_ofNat'] at low high
  omega

/-- A new directory is opened. -/
def newDirectory : List FsOp := [.ialloc tDir, .ilock ⟨0, ninode_pos⟩]

/-- With 4480 entries there is no room for the name "a", though blocks are free. -/
theorem dirlink_crowded : ∃ state dp inum array target, Opened state dp inum array ∧
    0 < state.free ∧ array.length = maxFile * bsize ∧ bindings array (nameOf nameA) = none ∧
    (target ≠ 0 ∧ target < 256 ^ 2 ∧ target < state.sb.ninodes) ∧
    ∀ consoleread, ∃ message, dirlink consoleread dp nameA target state = .panic message := by
  let dp : InodePtr := ⟨0, ninode_pos⟩
  have facts : (runs FsState.next blankDisk newDirectory).map (fun state =>
      decide (state.sb.ninodes = 200 ∧ (state.stat 1).type = tDir ∧ (state.stat 1).size = 0 ∧
        (0 < (state.inode dp).ref ∧ (state.inode dp).valid = true ∧ (state.inode dp).inum = 1) ∧
        142 < state.free)) = some true := by decide +kernel
  obtain ⟨start, ran, holds⟩ := Option.map_eq_some_iff.mp facts
  obtain ⟨ninodes, type, size, live, blocks⟩ := of_decide_eq_true holds
  have sound := sound_run blankDisk_image ran
  have opened := opened_empty sound (live_iff.mpr live) type size
  have few : start.needed 1 0 71680 ≤ 142 := needed_le start.toFileSystem 1 0 71680
  have wrote := (@writei_wrote _ _ _ (fun _ => False) packed 0 largest sound opened.live
    opened.plain (Nat.zero_le _) (by decide) (fun less => absurd less (by
      have count : largest.toNat = 71680 := rfl
      rw [count]
      exact Nat.not_lt_of_le (Nat.le_trans few (Nat.le_of_lt blocks))))).and
    (@writei_free _ _ _ packed 0 largest sound opened.live opened.plain)
  obtain ⟨written, next, done, ⟨-, after, stored, kinds⟩, left⟩ := wrote.exists_done
  have count : largest.toNat = 71680 := rfl
  have length : (packed.read 0 71680).length = 71680 := Memory.length_read ..
  have file := stored.file [] opened.directory.file (Nat.zero_le _)
  have whole : putBytes [] (0 : UInt32).toNat (packed.read 0 largest.toNat) =
      packed.read 0 71680 := by
    rw [count, putBytes, List.take_nil, List.drop_nil, List.nil_append, List.append_nil]
  rw [whole] at file
  rw [count] at left
  have within : (entries (packed.read 0 71680)).Within 4480 := entries_within length
  have crowded : Opened next dp 1 (packed.read 0 71680) := by
    refine ⟨after, ?_, ⟨file, ?_, ?_, distinct_packed, ?_⟩⟩
    · obtain ⟨ref, valid, number⟩ := stored.opened dp
      rw [live_iff, ref, valid, number]
      exact live
    · rw [(kinds.kinds 1 opened.directory.file.inside).type]
      exact type
    · rw [length]
      decide
    · intro i name target entry
      rw [entries_packed (within.lt entry)] at entry
      cases entry
      rw [kinds.sb, ninodes]
      decide
  have total : slots (packed.read 0 71680) = 4480 := by
    rw [slots, length]
    rfl
  have unbound : bindings (packed.read 0 71680) (nameOf nameA) = none := by
    refine (SlotTable.lookup_none_iff crowded.directory.within).mpr ?_
    intro i target entry
    have below := within.lt entry
    rw [entries_packed below, nameOf_numbered below] at entry
    have names : 2 = 1 := congrArg List.length (Prod.mk.inj (Option.some.inj entry)).1
    cases names
  have full : ¬Room next.toFileSystem 1 (packed.read 0 71680) := by
    rintro (⟨i, below, free⟩ | ⟨small, -⟩)
    · rw [total] at below
      rw [entries_packed below] at free
      cases free
    · rw [length] at small
      exact absurd small (by decide)
  refine ⟨next, dp, 1, _, 2, crowded, ?_, length, unbound, ⟨by decide, by decide, ?_⟩, ?_⟩
  · change start.free ≤ next.free + start.needed 1 0 71680 at left
    omega
  · rw [kinds.sb, ninodes]
    decide
  · intro consoleread
    exact crowded.dirlink_panics unbound 2 full

end Xv6.Fs
