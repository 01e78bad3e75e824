import Xv6.Fs.Names
import Xv6.Fs.References

/-!
# Directories are finite maps

`dirlookup` and `dirlink` in `fs.c`, and the part of `sys_unlink` that clears an
entry, on a directory that the caller has locked. Through any history of these a
directory stays a finite map from names to inode numbers.
-/

namespace Xv6.Fs

open Xv6.Library

/-! ## The functions -/

section Functions

variable (consoleread : Int → Int × List UInt8) (dp : InodePtr)

/-- `sizeof(de)` -/
def sizeofDe : UInt32 := 16

/-- The loop of `dirlookup`, which takes at most `fuel` turns. -/
def dirlookupFrom (name : Memory) : Nat → UInt32 → Action FsState (Option (InodePtr × UInt32))
  | 0, _ => Action.never
  | fuel + 1, off => do
      let inode ← Action.get fun state : FsState => state.inode dp
      if off.toNat < inode.size then
        let read ← readi consoleread dp off sizeofDe
        if read.1 ≠ direntSize then Action.panic "dirlookup read"
        else
          let de := direntOf read.2
          if direntInum de = 0 then dirlookupFrom name fuel (off + sizeofDe)
          else if namecmp name (direntName de) = 0 then
            -- entry matches path element
            let ip ← iget (direntInum de)
            return some (ip, off)
          else dirlookupFrom name fuel (off + sizeofDe)
      else return none

/-- Look for a directory entry in a directory. If found, also return its byte offset. -/
def dirlookup (name : Memory) : Action FsState (Option (InodePtr × UInt32)) := do
  let inode ← Action.get fun state : FsState => state.inode dp
  if inode.type ≠ tDir then Action.panic "dirlookup not DIR"
  else dirlookupFrom consoleread dp name (inode.size / direntSize + 2) 0

/-- The loop of `dirlink` that looks for an empty entry: where it stops, and what `de` holds. -/
def emptyFrom : Nat → UInt32 → Memory → Action FsState (UInt32 × Memory)
  | 0, _, _ => Action.never
  | fuel + 1, off, de => do
      let inode ← Action.get fun state : FsState => state.inode dp
      if off.toNat < inode.size then
        let read ← readi consoleread dp off sizeofDe
        if read.1 ≠ direntSize then Action.panic "dirlink read"
        else if direntInum (direntOf read.2) = 0 then return (off, direntOf read.2)
        else emptyFrom fuel (off + sizeofDe) (direntOf read.2)
      else return (off, de)

/-- What `dirlink` does for a name that is not present. The memory of `de` may hold anything
before. -/
def dirlinkNew (name : Memory) (inum : Nat) : Action FsState Int := do
  let inode ← Action.get fun state : FsState => state.inode dp
  let slot ← emptyFrom consoleread dp (inode.size / direntSize + 2) 0 fun _ => 0
  let written ← writei dp (linked slot.2 name inum) slot.1 sizeofDe
  if written ≠ direntSize then Action.panic "dirlink" else return 0

/-- Write a new directory entry into the directory. `iput` locks the inode that is found, and the
caller has locked `dp`. -/
def dirlink (name : Memory) (inum : Nat) : Action FsState Int := do
  let found ← dirlookup consoleread dp name
  match found with
  | some (ip, _) =>
      if ip = dp then Action.never
      else
        iput ip
        return -1
  | none => dirlinkNew consoleread dp name inum

/-- The statements of `sys_unlink` that clear an entry. -/
def clearEntry (off : UInt32) : Action FsState Unit := do
  let written ← writei dp (fun _ => 0) off sizeofDe
  if written ≠ direntSize then Action.panic "unlink: writei" else return ()

/-- Clear the entry that `dirlookup` finds. The inode that is found is locked, too. -/
def unlinkEntry (name : Memory) : Action FsState Int := do
  let found ← dirlookup consoleread dp name
  match found with
  | none => return -1
  | some (ip, off) =>
      if ip = dp then Action.never
      else
        clearEntry dp off
        iput ip
        return 0

end Functions

/-- A call for the directory. -/
inductive DirCall where
  | dirlink (name : Memory) (inum : Nat)
  | unlink (name : Memory)

namespace DirCall

def run (consoleread : Int → Int × List UInt8) (dp : InodePtr) : DirCall → Action FsState Int
  | .dirlink name inum => Fs.dirlink consoleread dp name inum
  | .unlink name => Fs.unlinkEntry consoleread dp name

/-- The state in which the call returns, if it does not panic. -/
def next (consoleread : Int → Int × List UInt8) (dp : InodePtr) (state : FsState)
    (call : DirCall) : Option FsState :=
  (call.run consoleread dp state).state?

/-- An inode number of the file system, which fits into an entry. -/
def Valid (sb : Superblock) : DirCall → Prop
  | .dirlink _ inum => inum ≠ 0 ∧ inum < 256 ^ 2 ∧ inum < sb.ninodes
  | .unlink _ => True

/-- What the call does to a finite map. -/
def apply (map : List UInt8 → Option Nat) : DirCall → List UInt8 → Option Nat
  | .dirlink name inum =>
      if map (nameOf name) = none then Function.update map (nameOf name) (some inum) else map
  | .unlink name => Function.update map (nameOf name) none

end DirCall

/-! ## The map -/

/-- Inode `inum` is a directory with the entries in `array`. -/
structure Directory (fs : FileSystem) (inum : Nat) (array : List UInt8) : Prop where
  file : File fs inum array
  type : (fs.stat inum).type = tDir
  whole : direntSize ∣ array.length
  distinct : (entries array).Distinct
  numbers : ∀ i name target, entries array i = some (name, target) → target < fs.sb.ninodes

/-- The number of entries, in use or not. -/
def slots (array : List UInt8) : Nat := array.length / direntSize

/-- The finite map that a directory is. -/
def bindings (array : List UInt8) : List UInt8 → Option Nat := (entries array).lookup (slots array)

variable {fs later : FileSystem} {state next : FsState} {dp : InodePtr} {inum i left fuel : Nat}
  {array : List UInt8} {consoleread : Int → Int × List UInt8}

theorem Directory.length (directory : Directory fs inum array) :
    array.length = direntSize * slots array := (Nat.mul_div_cancel' directory.whole).symm

theorem Directory.within (directory : Directory fs inum array) :
    (entries array).Within (slots array) := entries_within directory.length

theorem Directory.congr (directory : Directory fs inum array)
    (stat : ∀ inum, later.stat inum = fs.stat inum) (block : later.block = fs.block)
    (sb : later.sb = fs.sb) : Directory later inum array where
  file := directory.file.congr stat block sb
  type := by
    rw [stat]
    exact directory.type
  whole := directory.whole
  distinct := directory.distinct
  numbers := by
    rw [sb]
    exact directory.numbers

/-- A directory that the caller has locked. -/
structure Opened (state : FsState) (dp : InodePtr) (inum : Nat) (array : List UInt8) : Prop where
  sound : Sound state
  live : state.live inum dp = true
  directory : Directory state.toFileSystem inum array

namespace Opened

theorem type (opened : Opened state dp inum array) : (state.inode dp).type = tDir := by
  have kind := opened.directory.type
  rw [stat_of_live opened.sound.consistent.once opened.live] at kind
  exact kind

theorem size (opened : Opened state dp inum array) :
    (state.inode dp).size = direntSize * slots array := by
  have whole := opened.directory.file.size
  rw [stat_of_live opened.sound.consistent.once opened.live, opened.directory.length] at whole
  exact whole

theorem bounded (opened : Opened state dp inum array) :
    direntSize * slots array ≤ 71680 := by
  have bound := opened.directory.file.bounded
  rw [opened.directory.length] at bound
  exact bound

theorem plain (opened : Opened state dp inum array) : (state.inode dp).type ≠ tDev := by
  rw [opened.type]
  decide

end Opened

/-! ## Looking for a name -/

/-- Where entry `i` starts. -/
def offsetOf (i : Nat) : UInt32 := UInt32.ofNat (direntSize * i)

theorem offsetOf_succ (i : Nat) : offsetOf i + sizeofDe = offsetOf (i + 1) := by
  rw [offsetOf, offsetOf, Nat.mul_succ, UInt32.ofNat_add]
  rfl

theorem Opened.toNat_offsetOf (opened : Opened state dp inum array) (inside : i ≤ slots array) :
    (offsetOf i).toNat = direntSize * i := by
  have bounded := opened.bounded
  have below := Nat.mul_le_mul_left direntSize inside
  apply UInt32.toNat_ofNat_of_lt'
  unfold UInt32.size
  omega

/-- One entry is read. -/
theorem Opened.readi (opened : Opened state dp inum array) (below : i < slots array) :
    Fs.readi consoleread dp (offsetOf i) sizeofDe state =
      .done ((direntSize : Int), (array.drop (direntSize * i)).take direntSize) state := by
  have offset := opened.toNat_offsetOf (Nat.le_of_lt below)
  have length := opened.directory.length
  have room : direntSize * i + direntSize ≤ direntSize * slots array := by
    rw [← Nat.mul_succ]
    exact Nat.mul_le_mul_left direntSize below
  have bounded := opened.bounded
  have size : sizeofDe.toNat = direntSize := rfl
  have read := @readi_eq _ _ _ consoleread (offsetOf i) sizeofDe _ opened.sound opened.live
    opened.directory.file
  rw [offset, size] at read
  rw [read (by omega) (by omega), Nat.min_eq_left (by omega)]

/-- What `dirlookup` does with what it finds. -/
def found : Option (Nat × Nat) → Action FsState (Option (InodePtr × UInt32))
  | none => return none
  | some (i, target) => do
      let ip ← iget target
      return some (ip, offsetOf i)

theorem Opened.dirlookupFrom (opened : Opened state dp inum array) (name : Memory)
    (total : i + left = slots array) (fueled : left < fuel) :
    Fs.dirlookupFrom consoleread dp name fuel (offsetOf i) state =
      found ((entries array).find (nameOf name) left i) state := by
  induction fuel generalizing i left with
  | zero => exact absurd fueled (Nat.not_lt_zero left)
  | succ fuel inductionHypothesis =>
      have offset := opened.toNat_offsetOf (Nat.le.intro total)
      rw [Fs.dirlookupFrom, Action.get_bind, opened.size, offset]
      cases left with
      | zero =>
          have ended : ¬direntSize * i < direntSize * slots array := by
            rw [← total]
            exact Nat.lt_irrefl _
          rw [if_neg ended]
          rfl
      | succ left =>
          have below : i < slots array := by omega
          have rest := @inductionHypothesis (i + 1) left (by omega) (by omega)
          rw [if_pos (Nat.mul_lt_mul_of_pos_left below (by decide)),
            Action.bind_done (opened.readi below), if_neg (not_not.mpr rfl)]
          have entry := entryOf_read array i
          rw [SlotTable.find]
          by_cases free : direntInum
              (direntOf ((array.drop (direntSize * i)).take direntSize)) = 0
          · rw [entryOf, if_pos free] at entry
            rw [if_pos free, offsetOf_succ, ← entry]
            exact rest
          · rw [entryOf, if_neg free] at entry
            rw [if_neg free, ← entry]
            by_cases same : namecmp name
                (direntName (direntOf ((array.drop (direntSize * i)).take direntSize))) = 0
            · have key := (namecmp_eq_zero_iff _ _).mp same
              rw [if_pos same]
              dsimp only
              rw [if_pos key.symm]
              rfl
            · have key := fun equal => same ((namecmp_eq_zero_iff _ _).mpr (Eq.symm equal))
              rw [if_neg same, offsetOf_succ]
              dsimp only
              rw [if_neg key]
              exact rest

theorem offsetOf_zero : offsetOf 0 = 0 := rfl

theorem Opened.turns (opened : Opened state dp inum array) :
    (state.inode dp).size / direntSize + 2 = slots array + 2 := by
  rw [opened.size, Nat.mul_div_cancel_left _ (by decide)]

/-- `dirlookup` finds the first entry with the name, and takes a reference to its inode. -/
theorem Opened.dirlookup (opened : Opened state dp inum array) (name : Memory) :
    Fs.dirlookup consoleread dp name state =
      found ((entries array).find (nameOf name) (slots array) 0) state := by
  rw [Fs.dirlookup, Action.get_bind, if_neg (not_not.mpr opened.type), opened.turns]
  exact opened.dirlookupFrom name (Nat.zero_add _) (by omega)

/-- The second loop stops at the first free entry, or at the end. -/
theorem Opened.emptyFrom (opened : Opened state dp inum array) (total : i + left = slots array)
    (fueled : left < fuel) (used : ∀ j < i, entries array j ≠ none) (de : Memory) :
    ∃ j rest, Fs.emptyFrom consoleread dp fuel (offsetOf i) de state =
        .done (offsetOf j, rest) state ∧ j ≤ slots array ∧ entries array j = none ∧
      ∀ k < j, entries array k ≠ none := by
  induction fuel generalizing i left de with
  | zero => exact absurd fueled (Nat.not_lt_zero left)
  | succ fuel inductionHypothesis =>
      have offset := opened.toNat_offsetOf (Nat.le.intro total)
      rw [Fs.emptyFrom, Action.get_bind, opened.size, offset]
      cases left with
      | zero =>
          have ended : ¬direntSize * i < direntSize * slots array := by
            rw [← total]
            exact Nat.lt_irrefl _
          rw [if_neg ended]
          exact ⟨i, de, rfl, Nat.le.intro total, opened.directory.within i (Nat.le_of_eq total.symm),
            used⟩
      | succ left =>
          have below : i < slots array := by omega
          rw [if_pos (Nat.mul_lt_mul_of_pos_left below (by decide)),
            Action.bind_done (opened.readi below), if_neg (not_not.mpr rfl)]
          have entry := entryOf_read array i
          by_cases free : direntInum
              (direntOf ((array.drop (direntSize * i)).take direntSize)) = 0
          · rw [entryOf, if_pos free] at entry
            rw [if_pos free]
            exact ⟨i, _, rfl, Nat.le_of_lt below, entry.symm, used⟩
          · rw [entryOf, if_neg free] at entry
            rw [if_neg free, offsetOf_succ]
            refine @inductionHypothesis (i + 1) left (by omega) (by omega) ?_ _
            intro j before
            obtain earlier | here := Nat.lt_or_eq_of_le (Nat.le_of_lt_succ before)
            · exact used j earlier
            · rw [here, ← entry]
              exact Option.some_ne_none _

/-! ## Writing an entry -/

theorem slots_putBytes (opened : Opened state dp inum array) (inside : i ≤ slots array)
    (de : Memory) :
    (putBytes array (direntSize * i) (de.read 0 direntSize)).length =
      direntSize * max (slots array) (i + 1) := by
  have length := opened.directory.length
  rw [length_putBytes, Memory.length_read, length, ← Nat.mul_succ, Nat.mul_max_mul_left]
  rw [length]
  exact Nat.mul_le_mul_left _ inside

/-- Directory `inum` has changed from `array` to `after`, and nothing else has. -/
structure Relisted (state : FsState) (dp : InodePtr) (inum : Nat) (next : FsState)
    (after : List UInt8) : Prop where
  opened : Opened next dp inum after
  keeps : KeepsOpen state.toFileSystem next.toFileSystem
  kinds : KeepsKinds state.toFileSystem inum next.toFileSystem
  others : ∀ other, other ≠ inum → ∀ content, File state.toFileSystem other content →
    File next.toFileSystem other content

/-- Entry `i` is written over, or a new one is added at the end. -/
theorem Opened.writeEntry {panics : String → Prop} (opened : Opened state dp inum array)
    (inside : i ≤ slots array) (de : Memory)
    (fits : direntSize * i + direntSize ≤ maxFile * bsize)
    (full : state.free < state.needed inum (direntSize * i) direntSize →
      panics "balloc: out of blocks")
    (distinct : SlotTable.Distinct (Function.update (entries array) i (entryOf de)))
    (numbers : ∀ name target, entryOf de = some (name, target) → target < state.sb.ninodes) :
    (writei dp de (offsetOf i) sizeofDe state).Ends panics fun written next =>
      written = (direntSize : Int) ∧ ∃ after, Relisted state dp inum next after ∧
        slots after = max (slots array) (i + 1) ∧
        entries after = Function.update (entries array) i (entryOf de) := by
  have offset := opened.toNat_offsetOf inside
  have size : sizeofDe.toNat = direntSize := rfl
  have length := opened.directory.length
  have start : direntSize * i ≤ array.length := by
    rw [length]
    exact Nat.mul_le_mul_left _ inside
  have wrote := @writei_wrote _ _ _ panics de (offsetOf i) sizeofDe
    opened.sound opened.live opened.plain (by rw [offset, opened.size, ← length]; exact start)
    (by rw [offset, size]; exact fits) (by rw [offset, size]; exact full)
  refine wrote.mono ?_
  rintro written next ⟨rfl, sound, stored, kinds⟩
  rw [offset, size] at stored
  have total := slots_putBytes opened inside de
  have changed := entries_putBytes start de
  refine ⟨rfl, putBytes array (direntSize * i) (de.read 0 direntSize),
    ⟨⟨sound, ?_, stored.file array opened.directory.file start, ?_, ?_, ?_, ?_⟩,
      stored.opened, kinds, stored.others⟩, ?_, changed⟩
  · obtain ⟨ref, valid, number⟩ := stored.opened dp
    have live := live_iff.mp opened.live
    rw [live_iff, ref, valid, number]
    exact live
  · rw [(kinds.kinds inum opened.directory.file.inside).type]
    exact opened.directory.type
  · rw [total]
    exact Nat.dvd_mul_right ..
  · rw [changed]
    exact distinct
  · intro j name target entry
    rw [kinds.sb]
    rw [changed, Function.update_apply] at entry
    split at entry
    · exact numbers name target entry
    · exact opened.directory.numbers j name target entry
  · rw [slots, total, Nat.mul_div_cancel_left _ (by decide)]

/-- Writing where all blocks are there takes no block. -/
theorem needed_allocated {off n : Nat}
    (there : ∀ o, off ≤ o → o < off + n → fs.number (slotOf inum (o / bsize)) ≠ 0) :
    fs.needed inum off n = 0 := by
  have present : ∀ bn ∈ touched off n, fs.number (slotOf inum bn) ≠ 0 := by
    intro bn member
    obtain ⟨o, range, rfl⟩ := Finset.mem_image.mp member
    rw [Finset.mem_Ico] at range
    exact there o range.1 range.2
  have direct : ((touched off n).filter fun bn => fs.number (slotOf inum bn) = 0) = ∅ :=
    Finset.filter_eq_empty_iff.mpr present
  have indirect : ¬((∃ bn ∈ touched off n, ndirect ≤ bn) ∧ fs.number (.addr inum ndirect) = 0) := by
    rintro ⟨⟨bn, member, large⟩, empty⟩
    exact number_indirect (present bn member) large empty
  rw [FileSystem.needed, direct, if_neg indirect]
  rfl

/-- There is a free entry, or the directory can grow and its new blocks are free. -/
def Room (fs : FileSystem) (inum : Nat) (array : List UInt8) : Prop :=
  (∃ i < slots array, entries array i = none) ∨
    array.length + direntSize ≤ maxFile * bsize ∧
      fs.needed inum array.length direntSize ≤ fs.free

theorem Opened.entry_fits (opened : Opened state dp inum array) (below : i < slots array) :
    direntSize * i + direntSize ≤ array.length := by
  rw [opened.directory.length, ← Nat.mul_succ]
  exact Nat.mul_le_mul_left _ below

/-- An entry that is there already is written without a new block. -/
theorem Opened.needed_entry (opened : Opened state dp inum array) (below : i < slots array) :
    state.needed inum (direntSize * i) direntSize = 0 := by
  have fits := opened.entry_fits below
  apply needed_allocated
  intro o _ before
  exact opened.directory.file.allocated o (Nat.lt_of_lt_of_le before fits)

/-- No entry is free, and a directory of the largest size cannot get one more. -/
def Crowded (array : List UInt8) : Prop :=
  (∀ i < slots array, entries array i ≠ none) ∧ maxFile * bsize < array.length + direntSize

/-- `writei` refuses to write beyond the largest size. -/
theorem Opened.refuses (opened : Opened state dp inum array)
    (large : maxFile * bsize < array.length + direntSize) (de : Memory) :
    writei dp de (offsetOf (slots array)) sizeofDe state = .done (-1) state := by
  have offset := opened.toNat_offsetOf (Nat.le_refl _)
  have size : sizeofDe.toNat = direntSize := rfl
  apply writei_refuses de opened.plain
  rw [offset, size, ← opened.directory.length]
  rintro ⟨-, -, fits⟩
  exact Nat.not_lt_of_le fits large

theorem Opened.untouched (opened : Opened state dp inum array) (sound : Sound next)
    (untouched : Untouched state next) : Opened next dp inum array where
  sound := sound
  live := by
    rw [untouched.live]
    exact opened.live
  directory := opened.directory.congr untouched.stat untouched.block untouched.sb

/-- The inode cache has no room for inode `target`. -/
def igetPanics (state : FsState) (target : Nat) (message : String) : Prop :=
  message = "iget: no inodes" ∧ state.CacheFull target

theorem iget_ends (inum : Nat) (state : FsState) :
    (iget inum state).Ends (igetPanics state inum) fun ip next =>
      iget inum state = .done ip next := by
  obtain ⟨ip, -, -, cached⟩ | ⟨ip, -, -, recycled⟩ | ⟨full, panics⟩ := iget_cases inum state
  · rw [cached]
    rfl
  · rw [recycled]
    rfl
  · rw [panics]
    exact ⟨rfl, full⟩

/-- The directory stays open when a reference is taken. -/
theorem Opened.iget (opened : Opened state dp inum array) {ip : InodePtr} {target : Nat}
    (inside : target < state.sb.ninodes) (got : Fs.iget target state = .done ip next) :
    Opened next dp inum array ∧ next.sb = state.sb ∧ 0 < (next.inode ip).ref ∧
      (1 < (next.inode ip).ref ∨ ip ≠ dp ∧ (next.inode ip).valid = false) := by
  have taken := iget_gets opened.sound inside got
  obtain ⟨referenced, valid, number⟩ := live_iff.mp opened.live
  obtain ⟨other, used, -, cached⟩ | ⟨other, free, -, recycled⟩ | ⟨-, full⟩ :=
    iget_cases target state
  · cases cached.symm.trans got
    refine ⟨⟨taken.sound, ?_, opened.directory.congr taken.stat rfl rfl⟩, rfl, taken.referenced,
      Or.inl ?_⟩
    · by_cases same : dp = ip
      · rw [same] at referenced valid number ⊢
        rw [live_iff, setInode_self]
        exact ⟨Int.lt_add_one_of_le (Int.le_of_lt referenced), valid, number⟩
      · rw [live_iff, setInode_of_ne _ same]
        exact ⟨referenced, valid, number⟩
    · rw [setInode_self]
      dsimp only
      omega
  · cases recycled.symm.trans got
    have different : ip ≠ dp := by
      rintro rfl
      omega
    refine ⟨⟨taken.sound, ?_, opened.directory.congr taken.stat rfl rfl⟩, rfl, taken.referenced,
      Or.inr ⟨different, ?_⟩⟩
    · rw [live_iff, setInode_of_ne _ different.symm]
      exact ⟨referenced, valid, number⟩
    · rw [setInode_self]
  · cases full.symm.trans got

/-- The directory has one entry in the inode cache. -/
theorem Opened.dirlookup_self (opened : Opened state dp inum array) {name : Memory}
    (found : (entries array).find (nameOf name) (slots array) 0 = some (i, inum)) :
    ∃ next, Fs.dirlookup consoleread dp name state = .done (some (dp, offsetOf i)) next := by
  obtain ⟨referenced, -, number⟩ := live_iff.mp opened.live
  have got : ∃ next, Fs.iget inum state = .done dp next := by
    obtain ⟨ip, used, same, cached⟩ | ⟨-, -, nobody, -⟩ | ⟨full, -⟩ := iget_cases inum state
    · have equal := opened.sound.consistent.once ip dp used referenced (same.trans number.symm)
      rw [equal] at cached
      exact ⟨_, cached⟩
    · exact absurd ⟨referenced, number⟩ (nobody dp)
    · exact absurd ⟨referenced, number⟩ (full dp).2
  obtain ⟨next, got⟩ := got
  refine ⟨next, ?_⟩
  rw [opened.dirlookup, found, Fs.found, Action.bind_done got]
  rfl

theorem Opened.iget_other (opened : Opened state dp inum array) {ip : InodePtr} {target : Nat}
    (inside : target < state.sb.ninodes) (different : target ≠ inum)
    (got : Fs.iget target state = .done ip next) : ip ≠ dp := by
  rintro rfl
  have taken := iget_gets opened.sound inside got
  obtain ⟨-, -, number⟩ := live_iff.mp (opened.iget inside got).1.live
  exact different (taken.number.symm.trans number)

/-- A name that is bound to another inode is refused. -/
theorem Opened.dirlink_bound (opened : Opened state dp inum array) {name : Memory} {target : Nat}
    (found : (entries array).find (nameOf name) (slots array) 0 = some (i, target))
    (different : target ≠ inum) (given : Nat) :
    (dirlink consoleread dp name given state).Ends (igetPanics state target) fun result next =>
      result = -1 ∧ Sound next ∧ Untouched state next := by
  have inside := opened.directory.numbers i _ target (SlotTable.find_some found).2
  rw [dirlink, Action.ends_bind, opened.dirlookup, found, Fs.found, Action.ends_bind]
  refine (iget_ends target state).mono ?_
  intro ip middle got
  obtain ⟨next, dropped, sound, untouched⟩ := iput_iget opened.sound inside got
  rw [Action.ends_pure]
  dsimp only
  rw [if_neg (opened.iget_other inside different got), Action.bind_done dropped]
  exact ⟨rfl, sound, untouched⟩

/-- For a name that is bound to the directory itself `dirlink` waits for the lock of its caller. -/
theorem Opened.dirlink_self (opened : Opened state dp inum array) {name : Memory}
    (found : (entries array).find (nameOf name) (slots array) 0 = some (i, inum)) (given : Nat) :
    dirlink consoleread dp name given state = .blocked := by
  obtain ⟨middle, looked⟩ := @Opened.dirlookup_self _ _ _ _ _ consoleread opened _ found
  rw [dirlink, Action.bind_done looked]
  dsimp only
  rw [if_pos rfl]
  rfl

/-- With a new name `dirlink` writes the first free entry, or the one after the last. -/
theorem Opened.dirlink_writes (opened : Opened state dp inum array) {name : Memory}
    (unbound : bindings array (nameOf name) = none) (target : Nat) :
    ∃ j rest, dirlink consoleread dp name target state =
        (do
          let written ← writei dp (linked rest name target) (offsetOf j) sizeofDe
          if written ≠ direntSize then Action.panic "dirlink" else return 0) state ∧
      j ≤ slots array ∧ entries array j = none ∧ ∀ k < j, entries array k ≠ none := by
  have missing : (entries array).find (nameOf name) (slots array) 0 = none :=
    Option.map_eq_none_iff.mp unbound
  have looked : Fs.dirlookup consoleread dp name state = .done none state := by
    rw [opened.dirlookup, missing]
    rfl
  obtain ⟨j, rest, stops, within, free, first⟩ :=
    @Opened.emptyFrom _ _ _ _ _ _ _ consoleread opened (Nat.zero_add _)
      (Nat.lt_add_of_pos_right (Nat.succ_pos 1)) (fun j before => absurd before (Nat.not_lt_zero j))
      (fun _ => 0)
  refine ⟨j, rest, ?_, within, free, first⟩
  rw [dirlink, Action.bind_done looked]
  dsimp only
  rw [Fs.dirlinkNew, Action.get_bind, opened.turns, ← offsetOf_zero, Action.bind_done stops]

/-- A name that is not bound is added. -/
theorem Opened.dirlink_unbound {panics : String → Prop} (opened : Opened state dp inum array)
    {name : Memory} {target : Nat} (unbound : (entries array).Unbound (nameOf name))
    (nonzero : target ≠ 0) (short : target < 256 ^ 2) (inside : target < state.sb.ninodes)
    (crowded : Crowded array → panics "dirlink")
    (full : (∀ i < slots array, entries array i ≠ none) →
      state.free < state.needed inum array.length direntSize → panics "balloc: out of blocks") :
    (dirlink consoleread dp name target state).Ends panics fun result next =>
      result = 0 ∧ ∃ after, Relisted state dp inum next after ∧ slots after ≤ slots array + 1 ∧
        bindings after = Function.update (bindings array) (nameOf name) (some target) := by
  have length := opened.directory.length
  have absent := (SlotTable.lookup_none_iff opened.directory.within).mpr unbound
  obtain ⟨j, rest, writes, within, free, first⟩ :=
    @Opened.dirlink_writes _ _ _ _ consoleread opened name absent target
  have entry := entryOf_linked rest name nonzero short
  rw [writes, Action.ends_bind]
  -- A free entry comes first, else the directory grows.
  by_cases fits : direntSize * j + direntSize ≤ maxFile * bsize
  · refine (@Opened.writeEntry _ _ _ _ _ panics opened within (linked rest name target) fits ?_ ?_
      ?_).mono ?_
    · intro few
      obtain below | rfl := Nat.lt_or_eq_of_le within
      · rw [opened.needed_entry below] at few
        exact absurd few (Nat.not_lt_zero _)
      · rw [← length] at few
        exact full first few
    · rw [entry]
      exact opened.directory.distinct.put unbound j target
    · intro other found same
      rw [entry] at same
      cases same
      exact inside
    · rintro written next ⟨rfl, after, relisted, count, changed⟩
      rw [if_neg (not_not.mpr rfl)]
      refine ⟨rfl, after, relisted, by omega, ?_⟩
      rw [entry] at changed
      rw [bindings, changed, bindings]
      exact opened.directory.distinct.lookup_put opened.directory.within unbound free
        (by omega) (by omega) target
  · have ended : j = slots array := by
      refine Nat.le_antisymm within (Nat.le_of_not_lt fun below => fits ?_)
      exact Nat.le_trans (opened.entry_fits below) opened.directory.file.bounded
    subst ended
    have large : maxFile * bsize < array.length + direntSize := by
      rw [length]
      exact Nat.lt_of_not_le fits
    rw [opened.refuses large]
    exact crowded ⟨first, large⟩

theorem Opened.dirlink_room (opened : Opened state dp inum array) {name : Memory} {target : Nat}
    (unbound : bindings array (nameOf name) = none) (nonzero : target ≠ 0)
    (short : target < 256 ^ 2) (inside : target < state.sb.ninodes)
    (room : Room state.toFileSystem inum array) :
    ∃ next after, dirlink consoleread dp name target state = .done 0 next ∧
      Relisted state dp inum next after ∧ slots after ≤ slots array + 1 ∧
      bindings after = Function.update (bindings array) (nameOf name) (some target) := by
  have absent := (SlotTable.lookup_none_iff opened.directory.within).mp unbound
  have added := @Opened.dirlink_unbound _ _ _ _ consoleread (fun _ => False) opened _ _
    absent nonzero short inside ?_ ?_
  · obtain ⟨result, next, done, rfl, after, added⟩ := added.exists_done
    exact ⟨next, after, done, added⟩
  · rintro ⟨used, large⟩
    obtain ⟨i, below, free⟩ | ⟨small, -⟩ := room
    · exact used i below free
    · exact Nat.not_lt_of_le small large
  · intro used few
    obtain ⟨i, below, free⟩ | ⟨-, enough⟩ := room
    · exact used i below free
    · exact Nat.not_lt_of_le enough few

/-! ## Clearing an entry -/

theorem Opened.clearEntry (opened : Opened state dp inum array) {name : List UInt8} {target : Nat}
    (here : entries array i = some (name, target)) :
    ∃ next after, Fs.clearEntry dp (offsetOf i) state = .done () next ∧
      Relisted state dp inum next after ∧
      bindings after = Function.update (bindings array) name none := by
  have below := opened.directory.within.lt here
  have cleared : Function.update (entries array) i (entryOf fun _ => 0) =
      (entries array).clear i := by
    rw [entryOf_zero]
    rfl
  have wrote := @Opened.writeEntry _ _ _ _ _ (fun _ => False) opened (Nat.le_of_lt below)
    (fun _ => 0)
    (Nat.le_trans (opened.entry_fits below) opened.directory.file.bounded)
    (fun few => by
      rw [opened.needed_entry below] at few
      exact Nat.not_lt_zero _ few)
    (by
      rw [cleared]
      exact opened.directory.distinct.clear i)
    (by
      intro other found same
      rw [entryOf_zero] at same
      cases same)
  obtain ⟨written, next, done, rfl, after, relisted, count, changed⟩ := wrote.exists_done
  refine ⟨next, after, ?_, relisted, ?_⟩
  · rw [Fs.clearEntry, Action.bind_done done, if_neg (not_not.mpr rfl)]
    rfl
  · rw [Nat.max_eq_left below] at count
    rw [bindings, changed, cleared, count, bindings]
    exact opened.directory.distinct.lookup_clear opened.directory.within here

/-- The directory stays open when a reference is dropped that is not the last one. -/
theorem Opened.iput (opened : Opened state dp inum array) {ip : InodePtr}
    (referenced : 0 < (state.inode ip).ref)
    (kept : 1 < (state.inode ip).ref ∨ ip ≠ dp ∧ (state.inode ip).valid = false) :
    ∃ next, Fs.iput ip state = .done () next ∧ Opened next dp inum array ∧
      next.sb = state.sb := by
  obtain ⟨used, valid, number⟩ := live_iff.mp opened.live
  obtain ⟨next, done, dropped⟩ := iput_dropped opened.sound referenced
    (kept.symm.imp_left And.right)
  refine ⟨next, done, ⟨dropped.sound, ?_,
    opened.directory.congr dropped.stat dropped.block dropped.sb⟩, dropped.sb⟩
  by_cases same : dp = ip
  · rw [← same] at kept
    obtain more | ⟨different, -⟩ := kept
    · rw [live_iff, same, dropped.self, ← same]
      exact ⟨by dsimp only; omega, valid, number⟩
    · exact absurd rfl different
  · rw [live_iff, dropped.others dp same]
    exact ⟨used, valid, number⟩

/-- The name that is unlinked is bound no more. -/
theorem Opened.unlinkEntry (opened : Opened state dp inum array) {name : Memory} {target : Nat}
    (found : (entries array).find (nameOf name) (slots array) 0 = some (i, target))
    (different : target ≠ inum) :
    (Fs.unlinkEntry consoleread dp name state).Ends (igetPanics state target) fun result next =>
      result = 0 ∧ next.sb = state.sb ∧ ∃ after, Opened next dp inum after ∧
        bindings after = Function.update (bindings array) (nameOf name) none := by
  have here := (SlotTable.find_some found).2
  have inside := opened.directory.numbers i _ target here
  rw [Fs.unlinkEntry, Action.ends_bind, opened.dirlookup, found, Fs.found, Action.ends_bind]
  refine (iget_ends target state).mono ?_
  intro ip middle got
  obtain ⟨still, sb, referenced, kept⟩ := opened.iget inside got
  obtain ⟨cleared, after, done, relisted, changed⟩ := still.clearEntry here
  obtain ⟨ref, valid, -⟩ := relisted.keeps ip
  rw [← ref] at referenced
  rw [← ref, ← valid] at kept
  obtain ⟨next, dropped, last, same⟩ := relisted.opened.iput referenced kept
  rw [Action.ends_pure]
  dsimp only
  rw [if_neg (opened.iget_other inside different got), Action.bind_done done,
    Action.bind_done dropped]
  exact ⟨rfl, same.trans (relisted.kinds.sb.trans sb), after, last, changed⟩

theorem Opened.unlink_self (opened : Opened state dp inum array) {name : Memory}
    (found : (entries array).find (nameOf name) (slots array) 0 = some (i, inum)) :
    Fs.unlinkEntry consoleread dp name state = .blocked := by
  obtain ⟨middle, looked⟩ := @Opened.dirlookup_self _ _ _ _ _ consoleread opened _ found
  rw [Fs.unlinkEntry, Action.bind_done looked]
  dsimp only
  rw [if_pos rfl]
  rfl

/-! ## Histories of a directory -/

/-- The entry for a name, if there is one. -/
theorem Directory.find_cases (directory : Directory fs inum array) (name : List UInt8) :
    (∃ i target, (entries array).find name (slots array) 0 = some (i, target) ∧
      bindings array name = some target) ∨
    ((entries array).find name (slots array) 0 = none ∧ (entries array).Unbound name ∧
      bindings array name = none) := by
  cases found : (entries array).find name (slots array) 0 with
  | none =>
      have absent : bindings array name = none := by
        rw [bindings, SlotTable.lookup, found]
        rfl
      exact Or.inr ⟨rfl, (SlotTable.lookup_none_iff directory.within).mp absent, absent⟩
  | some entry =>
      refine Or.inl ⟨entry.1, entry.2, rfl, ?_⟩
      rw [bindings, SlotTable.lookup, found]
      rfl

/-- One call keeps a directory and does to the map what it says, unless it waits for a lock that
the caller has. -/
theorem Opened.call (opened : Opened state dp inum array) {call : DirCall}
    (valid : call.Valid state.sb) :
    call.run consoleread dp state = .blocked ∨
      (call.run consoleread dp state).Ends (fun _ => True) fun _ next =>
        next.sb = state.sb ∧ ∃ after, Opened next dp inum after ∧
          bindings after = call.apply (bindings array) := by
  cases call with
  | dirlink name target =>
      obtain ⟨nonzero, short, inside⟩ := valid
      rw [DirCall.run, DirCall.apply]
      obtain ⟨i, bound, found, some⟩ | ⟨-, unbound, none⟩ :=
        opened.directory.find_cases (nameOf name)
      · by_cases self : bound = inum
        · rw [self] at found
          exact Or.inl (opened.dirlink_self found target)
        · refine Or.inr ((opened.dirlink_bound found self target).imp (fun _ _ => trivial) ?_)
          rintro result next ⟨-, sound, untouched⟩
          rw [some, if_neg (Option.some_ne_none bound)]
          exact ⟨untouched.sb, array, opened.untouched sound untouched, rfl⟩
      · refine Or.inr ((@Opened.dirlink_unbound _ _ _ _ _ (fun _ => True) opened _ _ unbound nonzero
          short inside (fun _ => trivial) fun _ _ => trivial).mono ?_)
        rintro result next ⟨-, after, relisted, -, changed⟩
        rw [if_pos none]
        exact ⟨relisted.kinds.sb, after, relisted.opened, changed⟩
  | unlink name =>
      rw [DirCall.run, DirCall.apply]
      obtain ⟨i, bound, found, -⟩ | ⟨missing, -, none⟩ :=
        opened.directory.find_cases (nameOf name)
      · by_cases self : bound = inum
        · rw [self] at found
          exact Or.inl (opened.unlink_self found)
        · refine Or.inr ((opened.unlinkEntry found self).imp (fun _ _ => trivial) ?_)
          rintro result next ⟨-, sb, after, still, changed⟩
          exact ⟨sb, after, still, changed⟩
      · rw [Fs.unlinkEntry, Action.ends_bind, opened.dirlookup, missing]
        refine Or.inr ⟨rfl, array, opened, ?_⟩
        rw [← none, Function.update_eq_self]

/-- Through any history a directory stays a directory, with the bindings that the calls leave. -/
theorem Opened.history {start : FsState} (opened : Opened start dp inum array)
    {calls : List DirCall} (valid : ∀ call ∈ calls, call.Valid start.sb) {finish : FsState}
    (ran : runs (DirCall.next consoleread dp) start calls = some finish) :
    finish.sb = start.sb ∧ ∃ after, Opened finish dp inum after ∧
      bindings after = calls.foldl DirCall.apply (bindings array) := by
  have whole := runs_invariant (fun past (state : FsState) =>
    (∀ call ∈ past, call.Valid start.sb) → state.sb = start.sb ∧
      ∃ after, Opened state dp inum after ∧
        bindings after = past.foldl DirCall.apply (bindings array))
    (fun _ => ⟨rfl, array, opened, rfl⟩) ?_ ran
  · exact whole valid
  · intro past state call next holds stepped allowed
    obtain ⟨sb, before, current, map⟩ := holds fun other member =>
      allowed other (List.mem_append_left _ member)
    have this := allowed call (List.mem_append_right _ (List.mem_singleton_self call))
    rw [← sb] at this
    obtain waits | ends := @Opened.call _ _ _ _ consoleread current call this
    · rw [DirCall.next, waits] at stepped
      cases stepped
    · obtain ⟨same, after, later, changed⟩ := ends.of_state stepped
      refine ⟨same.trans sb, after, later, ?_⟩
      rw [List.foldl_append, changed, map]
      rfl

/-- The functions treat the directory as the finite map `bindings array`. -/
structure FiniteMap (consoleread : Int → Int × List UInt8) (dp : InodePtr) (inum : Nat)
    (state : FsState) (array : List UInt8) : Prop where
  /-- A name that is not bound is not found. -/
  missing : ∀ name, bindings array (nameOf name) = none →
    dirlookup consoleread dp name state = .done none state
  /-- A bound name yields its inode, and the offset of its entry. -/
  found : ∀ name target, bindings array (nameOf name) = some target →
    ∃ i, entries array i = some (nameOf name, target) ∧
      dirlookup consoleread dp name state = (do
        let ip ← iget target
        return some (ip, offsetOf i)) state
  refuse : ∀ name target given, bindings array (nameOf name) = some target → target ≠ inum →
    (dirlink consoleread dp name given state).Ends (igetPanics state target) fun result next =>
      result = -1 ∧ Untouched state next
  add : ∀ name target, bindings array (nameOf name) = none → target ≠ 0 → target < 256 ^ 2 →
    target < state.sb.ninodes → Room state.toFileSystem inum array →
      ∃ next after, dirlink consoleread dp name target state = .done 0 next ∧
        Opened next dp inum after ∧
        bindings after = Function.update (bindings array) (nameOf name) (some target)
  clear : ∀ name i target, entries array i = some (name, target) →
    ∃ next after, clearEntry dp (offsetOf i) state = .done () next ∧ Opened next dp inum after ∧
      bindings after = Function.update (bindings array) name none

theorem Opened.finiteMap (opened : Opened state dp inum array) :
    FiniteMap consoleread dp inum state array where
  missing name unbound := by
    obtain ⟨i, bound, -, some⟩ | ⟨missing, -, -⟩ := opened.directory.find_cases (nameOf name)
    · rw [unbound] at some
      cases some
    · rw [opened.dirlookup, missing]
      rfl
  found name target bound := by
    obtain ⟨i, other, found, some⟩ | ⟨-, -, none⟩ := opened.directory.find_cases (nameOf name)
    · cases bound.symm.trans some
      exact ⟨i, (SlotTable.find_some found).2, by rw [opened.dirlookup, found]; rfl⟩
    · rw [bound] at none
      cases none
  refuse name target given bound different := by
    obtain ⟨i, other, found, some⟩ | ⟨-, -, none⟩ := opened.directory.find_cases (nameOf name)
    · cases bound.symm.trans some
      refine (opened.dirlink_bound found different given).mono ?_
      rintro result next ⟨rfl, -, untouched⟩
      exact ⟨rfl, untouched⟩
    · rw [bound] at none
      cases none
  add name target unbound nonzero short inside room := by
    obtain ⟨next, after, done, relisted, -, changed⟩ :=
      opened.dirlink_room unbound nonzero short inside room
    exact ⟨next, after, done, relisted.opened, changed⟩
  clear name i target here := by
    obtain ⟨next, after, done, relisted, changed⟩ := opened.clearEntry here
    exact ⟨next, after, done, relisted.opened, changed⟩

/-- A directory is a finite map, through any history of links and unlinks. -/
theorem directory_finite_map (consoleread : Int → Int × List UInt8) (dp : InodePtr) (inum : Nat)
    (array : List UInt8) (start finish : FsState) (opened : Opened start dp inum array)
    (calls : List DirCall) (valid : ∀ call ∈ calls, call.Valid start.sb)
    (ran : runs (DirCall.next consoleread dp) start calls = some finish) :
    ∃ after, FiniteMap consoleread dp inum finish after ∧
      bindings after = calls.foldl DirCall.apply (bindings array) ∧
      Opened finish dp inum after ∧ (entries after).Distinct ∧
      direntSize ∣ (finish.stat inum).size := by
  obtain ⟨-, after, still, map⟩ := opened.history valid ran
  refine ⟨after, still.finiteMap, map, still, still.directory.distinct, ?_⟩
  rw [still.directory.file.size]
  exact still.directory.whole

/-! ## A directory in a full inode cache -/

/-- A new directory has no entries. -/
theorem opened_empty (sound : Sound state) (live : state.live inum dp = true)
    (type : (state.stat inum).type = tDir) (size : (state.stat inum).size = 0) :
    Opened state dp inum [] := by
  have free : ∀ i, entries [] i = none := fun i =>
    @entries_within [] 0 rfl i (Nat.zero_le i)
  refine ⟨sound, live, ⟨⟨live_inside sound.consistent live, ?_, size, fun _ below =>
    absurd below (Nat.not_lt_zero _), fun _ below => absurd below (Nat.not_lt_zero _)⟩, type,
    Nat.dvd_zero _, ?_, ?_⟩⟩
  · rw [type]
    decide
  · intro i j name first second here
    rw [free i] at here
    cases here
  · intro i name target here
    rw [free i] at here
    cases here

/-- A new directory is opened, and all the other entries of the inode cache are taken. -/
def fullCache : List FsOp :=
  [.ialloc tDir, .ilock ⟨0, ninode_pos⟩] ++ (List.range' 2 49).map .iget

theorem fullCache_opened : ∃ start, runs FsState.next blankDisk fullCache = some start ∧
    Opened start ⟨0, ninode_pos⟩ 1 [] ∧ start.sb.ninodes = 200 ∧ start.CacheFull 60 ∧
    Room start.toFileSystem 1 [] := by
  let ip : InodePtr := ⟨0, ninode_pos⟩
  have facts : (runs FsState.next blankDisk fullCache).map (fun state =>
      decide (state.sb.ninodes = 200 ∧ (state.stat 1).type = tDir ∧ (state.stat 1).size = 0 ∧
        (∀ ip, 0 < (state.inode ip).ref ∧ (state.inode ip).inum ≠ 60) ∧
        (state.inode ip).valid = true ∧ (state.inode ip).inum = 1 ∧
        state.needed 1 0 direntSize ≤ state.free)) = some true := by decide +kernel
  obtain ⟨start, ran, holds⟩ := Option.map_eq_some_iff.mp facts
  obtain ⟨ninodes, type, size, full, valid, number, enough⟩ := of_decide_eq_true holds
  refine ⟨start, ran, opened_empty (sound_run blankDisk_image ran)
    (live_iff.mpr ⟨(full ip).1, valid, number⟩) type size, ninodes, ?_, Or.inr ⟨by decide, enough⟩⟩
  intro other
  exact ⟨Int.ne_of_gt (full other).1, fun cached => (full other).2 cached.2⟩

/-- The name "a". -/
def nameA : Memory := fun i => if i = 0 then 97 else 0

/-- With a full inode cache `dirlink` cannot look at the inode of a bound name. -/
theorem dirlink_iget_panics : ∃ state dp inum array target,
    Opened state dp inum array ∧ Room state.toFileSystem inum array ∧
      bindings array (nameOf nameA) = some target ∧ ∀ consoleread given,
        dirlink consoleread dp nameA given state = .panic "iget: no inodes" := by
  obtain ⟨start, -, opened, ninodes, full, room⟩ := fullCache_opened
  obtain ⟨next, after, -, relisted, few, changed⟩ := @Opened.dirlink_room _ _ _ _
    (fun n => (n, [])) opened nameA 60 rfl (by decide) (by decide)
    (by rw [ninodes]; decide) room
  have bound : bindings after (nameOf nameA) = some 60 := by
    rw [changed, Function.update_self]
  have crowd : next.CacheFull 60 := by
    intro ip
    obtain ⟨ref, -, number⟩ := relisted.keeps ip
    rw [ref, number]
    exact full ip
  obtain ⟨i, target, found, some⟩ | ⟨-, -, none⟩ :=
    relisted.opened.directory.find_cases (nameOf nameA)
  · cases bound.symm.trans some
    have below := relisted.opened.directory.within.lt (SlotTable.find_some found).2
    have one : slots after = 1 := Nat.le_antisymm few (Nat.succ_le_of_lt (Nat.zero_lt_of_lt below))
    have length := relisted.opened.directory.length
    rw [one] at length
    refine ⟨next, _, 1, after, 60, relisted.opened, Or.inr ⟨?_, ?_⟩, bound, ?_⟩
    · rw [length]
      decide
    · rw [length, needed_allocated]
      · exact Nat.zero_le _
      · intro o low high
        have first := relisted.opened.directory.file.allocated 0 (by rw [length]; decide)
        have block : o / bsize = 0 / bsize := by
          unfold direntSize at high
          unfold bsize
          omega
        rw [block]
        exact first
    · intro consoleread given
      obtain ⟨ip, used, same, -⟩ | ⟨ip, free, -⟩ | ⟨-, panics⟩ := iget_cases 60 next
      · exact absurd ⟨used, same⟩ (crowd ip).2
      · exact absurd free (crowd ip).1
      · rw [dirlink, Action.bind_panic]
        rw [relisted.opened.dirlookup, found, Fs.found, Action.bind_panic panics]
  · rw [bound] at none
    cases none

theorem directory_finite_map_linkA : ∃ finish after,
    FiniteMap (fun n => (n, [])) ⟨0, ninode_pos⟩ 1 finish after ∧
      bindings after (nameOf nameA) = some 60 := by
  obtain ⟨start, -, opened, ninodes, -, room⟩ := fullCache_opened
  have valid : ∀ call ∈ [DirCall.dirlink nameA 60], call.Valid start.sb := by
    intro call member
    rw [List.mem_singleton.mp member]
    exact ⟨by decide, by decide, by rw [ninodes]; decide⟩
  obtain ⟨next, -, done, -⟩ := (@Opened.finiteMap _ _ _ _ (fun n => (n, []))
    opened).add nameA 60 rfl (by decide) (by decide) (by rw [ninodes]; decide) room
  have ran : runs (DirCall.next (fun n => (n, [])) ⟨0, ninode_pos⟩) start
      [DirCall.dirlink nameA 60] = some next := by
    rw [runs_cons, DirCall.next, DirCall.run, done]
    rfl
  obtain ⟨after, map, bound, -⟩ := directory_finite_map (fun n => (n, [])) ⟨0, ninode_pos⟩ 1 []
    start next opened _ valid ran
  refine ⟨next, after, map, ?_⟩
  rw [bound]
  rfl

end Xv6.Fs
