import Mathlib.Data.Finset.Image
import Mathlib.Order.Interval.Finset.Nat
import Xv6.Fs.OwnershipRuns

/-!
# Files are byte arrays

`writei` and `readi` seen through the bytes of an inode: a write sets exactly
the bytes it names, a read returns them, and no other file changes.
-/

namespace Xv6.Fs

open Xv6.Library

variable {fs later first : FileSystem} {state : FsState} {ip : InodePtr} {inum : Nat}

/-! ## The bytes of an inode -/

/-- Inode `inum`: the in-memory copy if there is a valid one, else the disk's. -/
def FileSystem.stat (fs : FileSystem) (inum : Nat) : Dinode :=
  match (List.finRange ninode).find? (fs.live inum) with
  | some ip => (fs.inode ip).toDinode
  | none => fs.dinode inum

/-- Byte `o` of the content of inode `inum`. -/
def FileSystem.byte (fs : FileSystem) (inum o : Nat) : UInt8 :=
  fs.block (fs.number (slotOf inum (o / bsize))) (o % bsize)

theorem stat_of_live (once : fs.CachedOnce) (live : fs.live inum ip = true) :
    fs.stat inum = (fs.inode ip).toDinode := by
  unfold FileSystem.stat
  cases found : (List.finRange ninode).find? (fs.live inum) with
  | none => exact absurd live (by simpa using List.find?_eq_none.mp found ip (List.mem_finRange ip))
  | some other =>
      rcases live_iff.mp (List.find?_some found) with ⟨referenced, -, same⟩
      rcases live_iff.mp live with ⟨used, -, number⟩
      rw [once other ip referenced used (same.trans number.symm)]

theorem stat_of_disk (none : ∀ ip, fs.live inum ip = false) : fs.stat inum = fs.dinode inum := by
  unfold FileSystem.stat
  rw [List.find?_eq_none.mpr (by simpa using fun ip => none ip)]

/-- Another inode than the one cached at `ip` is what it was, in the cache or on the disk. -/
theorem stat_other (once : fs.CachedOnce) (onceAfter : later.CachedOnce)
    (live : fs.live inum ip = true) (liveAfter : later.live inum ip = true)
    (others : ∀ b, b ≠ ip → later.inode b = fs.inode b) {other : Nat} (different : other ≠ inum) :
    later.stat other = fs.stat other ∨
      later.stat other = later.dinode other ∧ fs.stat other = fs.dinode other := by
  have apart : ∀ b, fs.live other b = true ∨ later.live other b = true → b ≠ ip := by
    rintro b both rfl
    rcases live_iff.mp live with ⟨-, -, same⟩
    rcases live_iff.mp liveAfter with ⟨-, -, again⟩
    rcases both with here | here
    · exact different ((live_iff.mp here).2.2.symm.trans same)
    · exact different ((live_iff.mp here).2.2.symm.trans again)
  have away : ∀ b, b ≠ ip → later.live other b = fs.live other b := by
    intro b distinct
    simp only [FileSystem.live, others b distinct]
  by_cases cached : ∃ b, fs.live other b = true
  · rcases cached with ⟨b, here⟩
    have distinct := apart b (Or.inl here)
    rw [stat_of_live once here, stat_of_live onceAfter ((away b distinct).trans here),
      others b distinct]
    exact Or.inl rfl
  · have nobody : ∀ b, fs.live other b = false := fun b =>
      Bool.eq_false_iff.mpr fun here => cached ⟨b, here⟩
    have nobodyAfter : ∀ b, later.live other b = false := by
      intro b
      apply Bool.eq_false_iff.mpr
      intro here
      have distinct := apart b (Or.inr here)
      exact cached ⟨b, (away b distinct).symm.trans here⟩
    exact Or.inr ⟨stat_of_disk nobodyAfter, stat_of_disk nobody⟩

theorem slotOf_inj {a b x y : Nat} (same : slotOf a x = slotOf b y) : a = b ∧ x = y := by
  unfold slotOf at same
  split at same <;> split at same
  · injection same with inums slots
    exact ⟨inums, slots⟩
  · cases same
  · cases same
  · injection same with inums slots
    exact ⟨inums, by omega⟩

/-! ## Writing some bytes -/

/-- The state after `tot` bytes from `src` were written from `start` on. -/
structure Writing (first : FileSystem) (ip : InodePtr) (inum : Nat) (src : Memory)
    (start tot : Nat) (fs : FileSystem) : Prop where
  sb : fs.sb = first.sb
  others : ∀ other, other ≠ ip → fs.inode other = first.inode other
  self : fs.inode ip = { first.inode ip with addrs := (fs.inode ip).addrs }
  kept : ∀ place, first.number place ≠ 0 → fs.number place = first.number place
  disk : ∀ i < first.sb.ninodes, fs.dinode i = first.dinode i
  written : ∀ o, start ≤ o → o < start + tot →
    fs.number (slotOf inum (o / bsize)) ≠ 0 ∧ fs.byte inum o = src (o - start)
  unwritten : ∀ other o, first.number (slotOf other (o / bsize)) ≠ 0 →
    ¬(other = inum ∧ start ≤ o ∧ o < start + tot) → fs.byte other o = first.byte other o

theorem Writing.refl (src : Memory) (start : Nat) : Writing fs ip inum src start 0 fs where
  sb := rfl
  others _ _ := rfl
  self := rfl
  kept _ _ := rfl
  disk _ _ := rfl
  written _ after before := absurd before (Nat.not_lt_of_le after)
  unwritten _ _ _ _ := rfl

/-- `bmap` changes no byte of a block that was there. -/
theorem Mapped.byte (consistent : Consistent none nowhere fs) (inside : inum < fs.sb.ninodes)
    {bn b : Nat} (mapped : Mapped fs ip inum bn b later) {other o : Nat}
    (there : fs.number (slotOf other (o / bsize)) ≠ 0) :
    later.byte other o = fs.byte other o := by
  have given := consistent.owned.given _ _ ⟨⟨there, rfl⟩, fun gone => gone⟩
  have content : fs.number (slotOf other (o / bsize)) ≠ fs.addrs inum ndirect := by
    intro same
    have nonzero : fs.addrs inum ndirect ≠ 0 := same ▸ there
    have held := holds_addr inside (Nat.le_refl _) nonzero
    have place := consistent.owned.once _ _ _ ⟨⟨there, rfl⟩, fun gone => gone⟩
      ⟨same ▸ held, fun gone => gone⟩
    exact slotOf_content _ _ place
  unfold FileSystem.byte
  rw [mapped.kept _ there, mapped.block _ given content]

/-- One turn of the loop of `writei`. -/
theorem Writing.turn {src : Memory} {start tot m b : Nat} {middle : FileSystem}
    (consistent : Consistent none nowhere fs) (after : Consistent none nowhere middle)
    (inside : inum < fs.sb.ninodes) (writing : Writing first ip inum src start tot fs)
    (mapped : Mapped fs ip inum ((start + tot) / bsize) b middle)
    (fits : (start + tot) % bsize + m ≤ bsize) :
    Writing first ip inum src start (tot + m)
      (middle.setBlock b ((middle.block b).write ((start + tot) % bsize) (src.read tot m))) := by
  have held : middle.Holds (slotOf inum ((start + tot) / bsize)) b :=
    ⟨mapped.nonzero, mapped.here⟩
  have positive : 0 < bsize := by decide
  generalize content : (middle.block b).write ((start + tot) % bsize) (src.read tot m) = data
  have wrote := after.write_data held (slotOf_content _) data
  -- A byte of the block just written, or of another one.
  have bytes : ∀ other o, middle.number (slotOf other (o / bsize)) ≠ 0 →
      (middle.setBlock b data).byte other o =
        if other = inum ∧ start + tot ≤ o ∧ o < start + tot + m then src (o - start)
        else middle.byte other o := by
    intro other o there
    have number := wrote.2 (slotOf other (o / bsize))
    have place := Nat.div_add_mod o bsize
    have base := Nat.div_add_mod (start + tot) bsize
    have offset := Nat.mod_lt o positive
    unfold FileSystem.byte
    rw [number]
    simp only [FileSystem.setBlock]
    by_cases same : middle.number (slotOf other (o / bsize)) = b
    · have slot := after.owned.once _ _ b ⟨⟨held.1, same⟩, fun gone => gone⟩
        ⟨held, fun gone => gone⟩
      rcases slotOf_inj slot with ⟨equal, quotient⟩
      rw [same, Function.update_self, ← content]
      by_cases range : start + tot ≤ o ∧ o < start + tot + m
      · rw [if_pos ⟨equal, range⟩]
        rw [quotient] at place
        have index : o % bsize = (start + tot) % bsize + (o - (start + tot)) := by omega
        have within : o - (start + tot) < (src.read tot m).length := by
          rw [Memory.length_read]
          omega
        rw [index, Memory.write_inside _ _ within]
        simp only [Memory.read, List.getElem_map, List.getElem_range]
        congr 1
        omega
      · rw [if_neg fun all => range all.2, Memory.write_outside]
        rw [quotient] at place
        rw [Memory.length_read]
        omega
    · rw [Function.update_of_ne same, if_neg]
      rintro ⟨rfl, low, high⟩
      apply same
      have quotient : o / bsize = (start + tot) / bsize := by
        apply Nat.div_eq_of_lt_le
        · rw [Nat.mul_comm]
          omega
        · rw [Nat.succ_mul, Nat.mul_comm]
          omega
      rw [quotient]
      exact mapped.here
  constructor
  · exact mapped.sb.trans writing.sb
  · intro other different
    exact (mapped.others other different).trans (writing.others other different)
  · change middle.inode ip = { first.inode ip with addrs := (middle.inode ip).addrs }
    rw [mapped.self, writing.self]
  · intro place there
    have before := writing.kept place there
    rw [wrote.2, mapped.kept place (before ▸ there), before]
  · intro i small
    have region := (after.owned.given _ b ⟨held, fun gone => gone⟩).start
    have map := Nat.le_trans (Nat.le_of_lt (bmapstart_lt_dataStart middle.sb)) region
    have here : i < fs.sb.ninodes := by rw [writing.sb]; exact small
    rw [after.layout.dinode_setBlock map (by rw [mapped.sb]; exact here), mapped.disk i here,
      writing.disk i small]
  · intro o low high
    by_cases old : o < start + tot
    · rcases writing.written o low old with ⟨there, value⟩
      have still : middle.number (slotOf inum (o / bsize)) ≠ 0 := by
        rw [mapped.kept _ there]
        exact there
      refine ⟨by rw [wrote.2]; exact still, ?_⟩
      rw [bytes inum o still, if_neg fun all => Nat.not_le_of_lt old all.2.1,
        mapped.byte consistent inside there, value]
    · have quotient : o / bsize = (start + tot) / bsize := by
        have base := Nat.div_add_mod (start + tot) bsize
        apply Nat.div_eq_of_lt_le
        · rw [Nat.mul_comm]
          omega
        · rw [Nat.succ_mul, Nat.mul_comm]
          omega
      have here : middle.number (slotOf inum (o / bsize)) ≠ 0 := by
        rw [quotient, mapped.here]
        exact mapped.nonzero
      refine ⟨by rw [wrote.2]; exact here, ?_⟩
      rw [bytes inum o here, if_pos ⟨rfl, Nat.le_of_not_lt old, by omega⟩]
  · intro other o there outside
    have before : fs.number (slotOf other (o / bsize)) ≠ 0 := by
      rw [writing.kept _ there]
      exact there
    have still : middle.number (slotOf other (o / bsize)) ≠ 0 := by
      rw [mapped.kept _ before]
      exact before
    rw [bytes other o still, if_neg fun all => outside ⟨all.1, by omega, by omega⟩,
      mapped.byte consistent inside before]
    exact writing.unwritten other o there fun all => outside ⟨all.1, all.2.1, by omega⟩

/-! ## Enough free blocks -/

/-- The blocks of a file that hold its bytes from `off` to `off + n`. -/
def touched (off n : Nat) : Finset Nat := (Finset.Ico off (off + n)).image (· / bsize)

/-- How many blocks a write of `n` bytes at `off` allocates. -/
def FileSystem.needed (fs : FileSystem) (inum off n : Nat) : Nat :=
  ((touched off n).filter fun bn => fs.number (slotOf inum bn) = 0).card +
    if (∃ bn ∈ touched off n, ndirect ≤ bn) ∧ fs.number (.addr inum ndirect) = 0 then 1 else 0

theorem number_indirect {bn : Nat} (there : fs.number (slotOf inum bn) ≠ 0)
    (indirect : ndirect ≤ bn) : fs.number (.addr inum ndirect) ≠ 0 := by
  have place : slotOf inum bn = .entry inum (bn - ndirect) := by
    simp [slotOf, Nat.not_lt_of_le indirect]
  rw [place] at there
  have held : fs.Holds (.entry inum (bn - ndirect)) _ := ⟨there, rfl⟩
  rcases held.entry_cases with ⟨inside, -, nonzero, -⟩
  simp only [FileSystem.number]
  rw [if_pos ⟨inside, Nat.le_refl _⟩]
  exact nonzero

theorem missing_le_needed {off n bn : Nat} (member : bn ∈ touched off n) :
    fs.missing inum bn ≤ fs.needed inum off n := by
  apply Nat.add_le_add
  · by_cases empty : fs.number (slotOf inum bn) = 0
    · rw [if_pos empty]
      exact Finset.card_pos.mpr ⟨bn, Finset.mem_filter.mpr ⟨member, empty⟩⟩
    · rw [if_neg empty]
      exact Nat.zero_le _
  · by_cases both : ndirect ≤ bn ∧ fs.number (.addr inum ndirect) = 0
    · rw [if_pos both, if_pos ⟨⟨bn, member, both.1⟩, both.2⟩]
    · rw [if_neg both]
      exact Nat.zero_le _

/-- What one `bmap` allocates is needed no more. -/
theorem needed_turn {off n offset count bn : Nat}
    (kept : ∀ place, fs.number place ≠ 0 → later.number place ≠ 0)
    (here : later.number (slotOf inum bn) ≠ 0) (rest : touched offset count ⊆ touched off n)
    (member : bn ∈ touched off n) :
    later.needed inum offset count + fs.missing inum bn ≤ fs.needed inum off n := by
  have slots : ((touched offset count).filter fun b => later.number (slotOf inum b) = 0).card +
      (if fs.number (slotOf inum bn) = 0 then 1 else 0) ≤
      ((touched off n).filter fun b => fs.number (slotOf inum b) = 0).card := by
    have sub : ((touched offset count).filter fun b => later.number (slotOf inum b) = 0) ⊆
        ((touched off n).filter fun b => fs.number (slotOf inum b) = 0).erase bn := by
      intro b still
      rcases Finset.mem_filter.mp still with ⟨touch, empty⟩
      refine Finset.mem_erase.mpr ⟨?_, Finset.mem_filter.mpr ⟨rest touch, ?_⟩⟩
      · rintro rfl
        exact here empty
      · by_contra nonzero
        exact kept _ nonzero empty
    have few := Finset.card_le_card sub
    by_cases empty : fs.number (slotOf inum bn) = 0
    · rw [if_pos empty]
      have inside : bn ∈ (touched off n).filter fun b => fs.number (slotOf inum b) = 0 :=
        Finset.mem_filter.mpr ⟨member, empty⟩
      have erased := Finset.card_erase_add_one inside
      omega
    · rw [if_neg empty]
      exact Nat.le_trans few (Finset.card_le_card (Finset.erase_subset _ _))
  have indirect : (if (∃ b ∈ touched offset count, ndirect ≤ b) ∧
        later.number (.addr inum ndirect) = 0 then 1 else 0) +
      (if ndirect ≤ bn ∧ fs.number (.addr inum ndirect) = 0 then 1 else 0) ≤
      if (∃ b ∈ touched off n, ndirect ≤ b) ∧ fs.number (.addr inum ndirect) = 0 then 1 else 0 := by
    by_cases large : ndirect ≤ bn
    · have slot := number_indirect here large
      rw [if_neg fun both => slot both.2]
      by_cases empty : fs.number (.addr inum ndirect) = 0
      · rw [if_pos ⟨large, empty⟩, if_pos ⟨⟨bn, member, large⟩, empty⟩]
      · rw [if_neg fun both => empty both.2]
        exact Nat.zero_le _
    · have direct : ¬(ndirect ≤ bn ∧ fs.number (.addr inum ndirect) = 0) := fun both => large both.1
      rw [if_neg direct, Nat.add_zero]
      by_cases still : (∃ b ∈ touched offset count, ndirect ≤ b) ∧
          later.number (.addr inum ndirect) = 0
      · rcases still with ⟨⟨b, touch, bound⟩, empty⟩
        have before : fs.number (.addr inum ndirect) = 0 := by
          by_contra nonzero
          exact kept _ nonzero empty
        rw [if_pos ⟨⟨b, touch, bound⟩, empty⟩, if_pos ⟨⟨b, rest touch, bound⟩, before⟩]
      · rw [if_neg still]
        exact Nat.zero_le _
  unfold FileSystem.needed FileSystem.missing
  omega

theorem touched_next {start n tot m : Nat} :
    touched (start + (tot + m)) (n - (tot + m)) ⊆ touched (start + tot) (n - tot) := by
  apply Finset.image_subset_image
  intro o range
  rw [Finset.mem_Ico] at range ⊢
  omega

/-- After `bmap` bytes are put into the block. What was allocated is needed no more. -/
theorem Mapped.put {middle : FsState} {bn b off n offset count : Nat} (after : Sound middle)
    (mapped : Mapped state.toFileSystem ip inum bn b middle.toFileSystem) (data : Block)
    (rest : touched offset count ⊆ touched off n) (member : bn ∈ touched off n) :
    Sound { middle with toFileSystem := middle.setBlock b data } ∧
      (middle.setBlock b data).free + state.missing inum bn = state.free ∧
      (middle.setBlock b data).needed inum offset count + state.missing inum bn ≤
        state.needed inum off n := by
  have held : middle.Holds (slotOf inum bn) b := ⟨mapped.nonzero, mapped.here⟩
  have wrote := after.consistent.write_data held (slotOf_content _) data
  have given := after.consistent.owned.given _ b ⟨held, fun gone => gone⟩
  have free : (middle.setBlock b data).free = middle.free :=
    free_congr rfl fun c small => used_setData _ given.start small
  refine ⟨⟨wrote.1, after.calls⟩, ?_, ?_⟩
  · rw [free]
    exact mapped.cost
  · refine needed_turn ?_ ?_ rest member
    · intro place there
      rw [wrote.2, mapped.kept place there]
      exact there
    · rw [wrote.2, mapped.here]
      exact mapped.nonzero

theorem touched_first {start n tot : Nat} (more : tot < n) :
    (start + tot) / bsize ∈ touched (start + tot) (n - tot) := by
  apply Finset.mem_image_of_mem
  rw [Finset.mem_Ico]
  omega

/-- The loop of `writei` writes all the bytes, unless there are not enough blocks. -/
theorem writeiFrom_ends {panics : String → Prop} {src : Memory} {start n tot fuel : Nat}
    (sound : Sound state)
    (live : state.live inum ip = true)
    (writing : Writing first ip inum src start tot state.toFileSystem)
    (limit : start + n ≤ maxFile * bsize) (bounded : tot ≤ n) (fueled : n - tot ≤ fuel)
    (full : state.free < state.needed inum (start + tot) (n - tot) →
      panics "balloc: out of blocks") :
    (writeiFrom ip src n fuel tot (start + tot) state).Ends panics fun last next =>
      last = start + n ∧ Sound next ∧ next.live inum ip = true ∧
        Writing first ip inum src start n next.toFileSystem := by
  induction fuel generalizing tot state with
  | zero =>
      have done : tot = n := by omega
      subst done
      exact ⟨rfl, sound, live, writing⟩
  | succ fuel inductionHypothesis =>
      unfold writeiFrom
      by_cases more : tot < n
      · rw [if_pos more, Action.ends_bind]
        have positive : 0 < bsize := by decide
        have inside := live_inside sound.consistent live
        have offset := Nat.mod_lt (start + tot) positive
        have member := @touched_first start n tot more
        refine (bmap_ends sound live _).imp ?_ ?_
        · rintro message (⟨rfl, few⟩ | ⟨-, large⟩)
          · exact full (Nat.lt_of_lt_of_le few (missing_le_needed member))
          · have small : (start + tot) / bsize < maxFile := by
              rw [Nat.div_lt_iff_lt_mul positive]
              omega
            exact absurd small (Nat.not_lt_of_le large)
        · rintro b middle ⟨after, mapped⟩
          generalize size : min (n - tot) (bsize - (start + tot) % bsize) = m
          have turned := writing.turn sound.consistent after.consistent inside mapped
            (m := m) (by omega)
          obtain ⟨still, cost, needed⟩ := mapped.put after
            ((middle.block b).write ((start + tot) % bsize) (src.read tot m))
            (@touched_next start n tot m) member
          rw [Action.ends_bind, Nat.add_assoc]
          apply inductionHypothesis
          · exact still
          · exact mapped.live live
          · exact turned
          · omega
          · omega
          · intro few
            change FileSystem.free (middle.setBlock b _) < FileSystem.needed
              (middle.setBlock b _) inum _ _ at few
            exact full (by omega)
      · have done : tot = n := by omega
        subst done
        rw [if_neg more]
        exact ⟨rfl, sound, live, writing⟩

/-- The loop takes no more blocks than are needed. -/
theorem writeiFrom_free {src : Memory} {start n tot fuel : Nat} (sound : Sound state)
    (live : state.live inum ip = true) :
    (writeiFrom ip src n fuel tot (start + tot) state).Ends (fun _ => True) fun _ next =>
      Sound next ∧ next.live inum ip = true ∧
        state.free ≤ next.free + state.needed inum (start + tot) (n - tot) := by
  induction fuel generalizing tot state with
  | zero => exact ⟨sound, live, Nat.le_add_right ..⟩
  | succ fuel inductionHypothesis =>
      unfold writeiFrom
      by_cases more : tot < n
      · rw [if_pos more, Action.ends_bind]
        refine (bmap_ends sound live _).imp (fun _ _ => trivial) ?_
        rintro b middle ⟨after, mapped⟩
        generalize size : min (n - tot) (bsize - (start + tot) % bsize) = m
        obtain ⟨still, cost, needed⟩ := mapped.put after
          ((middle.block b).write ((start + tot) % bsize) (src.read tot m))
          (@touched_next start n tot m) (touched_first more)
        rw [Action.ends_bind, Nat.add_assoc]
        refine (inductionHypothesis still (mapped.live live)).mono ?_
        rintro last next ⟨sound, live, few⟩
        refine ⟨sound, live, ?_⟩
        change FileSystem.free (middle.setBlock b _) ≤ next.free + FileSystem.needed
          (middle.setBlock b _) inum _ _ at few
        omega
      · rw [if_neg more]
        exact ⟨sound, live, Nat.le_add_right ..⟩

/-! ## One file -/

/-- Inode `inum` is no device, all blocks below its size are allocated, and its
bytes are `array`. -/
structure File (fs : FileSystem) (inum : Nat) (array : List UInt8) : Prop where
  inside : inum < fs.sb.ninodes
  plain : (fs.stat inum).type ≠ tDev
  size : (fs.stat inum).size = array.length
  allocated : ∀ o < array.length, fs.number (slotOf inum (o / bsize)) ≠ 0
  bytes : ∀ o < array.length, fs.byte inum o = array.getD o 0

/-- A file is never longer than `maxFile` blocks. -/
theorem File.bounded {array : List UInt8} (file : File fs inum array) :
    array.length ≤ maxFile * bsize := by
  by_contra long
  have positive : 0 < bsize := by decide
  have there := file.allocated (maxFile * bsize) (Nat.lt_of_not_le long)
  rw [Nat.mul_div_cancel _ positive] at there
  have place : slotOf inum maxFile = .entry inum nindirect := by
    simp [slotOf, maxFile]
  rw [place] at there
  have held : fs.Holds (.entry inum nindirect) _ := ⟨there, rfl⟩
  exact Nat.lt_irrefl _ held.entry_cases.2.1

/-- The bytes `bytes` stored at `off`. -/
def putBytes (array : List UInt8) (off : Nat) (bytes : List UInt8) : List UInt8 :=
  array.take off ++ bytes ++ array.drop (off + bytes.length)

theorem length_putBytes {array bytes : List UInt8} {off : Nat} (inside : off ≤ array.length) :
    (putBytes array off bytes).length = max array.length (off + bytes.length) := by
  simp only [putBytes, List.length_append, List.length_take, List.length_drop]
  omega

theorem getD_putBytes {array bytes : List UInt8} {off : Nat} (inside : off ≤ array.length)
    (o : Nat) :
    (putBytes array off bytes).getD o 0 =
      if off ≤ o ∧ o < off + bytes.length then bytes.getD (o - off) 0 else array.getD o 0 := by
  have taken : (array.take off).length = off := by
    rw [List.length_take]
    omega
  simp only [putBytes, List.append_assoc, List.getD_eq_getElem?_getD]
  rcases Nat.lt_or_ge o off with before | after
  · rw [List.getElem?_append_left (by omega), List.getElem?_take_of_lt before,
      if_neg fun both => Nat.not_lt_of_le both.1 before]
  · rw [List.getElem?_append_right (by omega), taken]
    by_cases within : o < off + bytes.length
    · rw [List.getElem?_append_left (by omega), if_pos ⟨after, within⟩]
    · rw [List.getElem?_append_right (by omega), List.getElem?_drop,
        if_neg fun both => within both.2]
      congr 2
      omega

/-- Bytes of data blocks survive `iupdate` and a change of other fields. -/
theorem byte_touch_updated (consistent : Consistent none nowhere fs)
    (live : fs.live inum ip = true) (inode : Inode) (ref : inode.ref = (fs.inode ip).ref)
    (valid : inode.valid = true) (number : inode.inum = inum)
    (addrs : inode.addrs = (fs.inode ip).addrs) (touched : Consistent none nowhere
      (fs.setInode ip inode)) (still : (fs.setInode ip inode).live inum ip = true)
    {other o : Nat} (there : fs.number (slotOf other (o / bsize)) ≠ 0) :
    ((fs.setInode ip inode).updated ip).byte other o = fs.byte other o := by
  have same : ((fs.setInode ip inode).updated ip).number (slotOf other (o / bsize)) =
      fs.number (slotOf other (o / bsize)) := by
    rw [number_updated touched still, number_touch consistent.once live ref valid number addrs]
  have given := consistent.owned.given _ _ ⟨⟨there, rfl⟩, fun gone => gone⟩
  rcases live_iff.mp still with ⟨referenced, -, -⟩
  have region := touched.layout.iblock_region (touched.cached ip referenced)
  have bitmap := bmapstart_lt_dataStart fs.sb
  have start := given.start
  have below : (fs.setInode ip inode).sb.iblock ((fs.setInode ip inode).inode ip).inum <
      fs.sb.bmapstart := region.2
  unfold FileSystem.byte
  rw [same]
  apply congrFun
  apply Function.update_of_ne
  omega

/-- `iupdate` takes no block. -/
theorem free_updated (consistent : Consistent none nowhere fs)
    (inside : (fs.inode ip).inum < fs.sb.ninodes) : (fs.updated ip).free = fs.free := by
  refine @free_congr fs _ rfl fun c small => ?_
  have region := consistent.layout.iblock_region inside
  have map := bblock_region fs.sb small
  exact used_setBlock _ (Nat.ne_of_gt (Nat.lt_of_lt_of_le region.2 map.1))

/-- An open inode stays open. -/
def KeepsOpen (before after : FileSystem) : Prop :=
  ∀ ip, (after.inode ip).ref = (before.inode ip).ref ∧
    (after.inode ip).valid = (before.inode ip).valid ∧
    (after.inode ip).inum = (before.inode ip).inum

/-- `writei` did this to inode `inum`. -/
structure Written (before : FileSystem) (inum : Nat) (src : Memory) (off n : Nat)
    (after : FileSystem) : Prop where
  opened : KeepsOpen before after
  file : ∀ array, File before inum array → off ≤ array.length →
    File after inum (putBytes array off (src.read 0 n))
  others : ∀ other, other ≠ inum → ∀ array, File before other array → File after other array

theorem getD_read (src : Memory) {n i : Nat} (below : i < n) : (src.read 0 n).getD i 0 = src i := by
  have inside : i < (src.read 0 n).length := by
    rw [Memory.length_read]
    exact below
  rw [List.getD_eq_getElem _ _ inside]
  simp [Memory.read]

/-- The bytes after the loop, and the size after it. -/
theorem Writing.finish {src : Memory} {off n : Nat} (writing : Writing first ip inum src off n fs)
    (once : first.CachedOnce) (onceAfter : later.CachedOnce) (live : first.live inum ip = true)
    (liveAfter : later.live inum ip = true) (opened : KeepsOpen first later)
    (sb : later.sb = fs.sb) (others : ∀ b, b ≠ ip → later.inode b = fs.inode b)
    (number : ∀ place, later.number place = fs.number place)
    (byte : ∀ other o, fs.number (slotOf other (o / bsize)) ≠ 0 →
      later.byte other o = fs.byte other o)
    (type : (later.inode ip).type = (first.inode ip).type)
    (size : (later.inode ip).size = max (first.inode ip).size (off + n))
    (disk : ∀ i < first.sb.ninodes, i ≠ inum → (later.dinode i).type = (fs.dinode i).type ∧
      (later.dinode i).size = (fs.dinode i).size) :
    Written first inum src off n later := by
  have length : (src.read 0 n).length = n := Memory.length_read src 0 n
  refine ⟨opened, ?_, ?_⟩
  · intro array file inside
    have fileSize := file.size
    have plain := file.plain
    rw [stat_of_live once live] at fileSize plain
    have total := @length_putBytes array (src.read 0 n) off inside
    rw [length] at total
    constructor
    · rw [sb, writing.sb]
      exact file.inside
    · rw [stat_of_live onceAfter liveAfter, type]
      exact plain
    · rw [stat_of_live onceAfter liveAfter, size, total, ← fileSize]
    · intro o below
      rw [total] at below
      rw [number]
      by_cases old : o < array.length
      · rw [writing.kept _ (file.allocated o old)]
        exact file.allocated o old
      · exact (writing.written o (by omega) (by omega)).1
    · intro o below
      rw [total] at below
      rw [getD_putBytes inside, length]
      by_cases range : off ≤ o ∧ o < off + n
      · rcases writing.written o range.1 range.2 with ⟨there, value⟩
        rw [if_pos range, byte inum o there, value, getD_read src (by omega)]
      · have old : o < array.length := by omega
        have there := file.allocated o old
        have still : fs.number (slotOf inum (o / bsize)) ≠ 0 := by
          rw [writing.kept _ there]
          exact there
        rw [if_neg range, byte inum o still,
          writing.unwritten inum o there fun all => range all.2, file.bytes o old]
  · intro other different array file
    have stat : (later.stat other).type = (first.stat other).type ∧
        (later.stat other).size = (first.stat other).size := by
      rcases stat_other once onceAfter live liveAfter
        (fun b away => (others b away).trans (writing.others b away)) different with
        same | ⟨after, before⟩
      · rw [same]
        exact ⟨rfl, rfl⟩
      · rw [after, before, ← writing.disk other file.inside]
        exact disk other file.inside different
    have still : ∀ o < array.length, fs.number (slotOf other (o / bsize)) ≠ 0 := by
      intro o below
      rw [writing.kept _ (file.allocated o below)]
      exact file.allocated o below
    constructor
    · rw [sb, writing.sb]
      exact file.inside
    · rw [stat.1]
      exact file.plain
    · rw [stat.2]
      exact file.size
    · intro o below
      rw [number]
      exact still o below
    · intro o below
      rw [byte other o (still o below), writing.unwritten other o (file.allocated o below)
        fun all => different all.1]
      exact file.bytes o below

/-- What else stays when inode `inum` is written. -/
structure KeepsKinds (before : FileSystem) (inum : Nat) (after : FileSystem) : Prop where
  sb : after.sb = before.sb
  kinds : ∀ number < before.sb.ninodes, (after.stat number).SameKind (before.stat number)
  sizes : ∀ number < before.sb.ninodes, number ≠ inum →
    (after.stat number).size = (before.stat number).size

theorem Writing.keepsKinds {src : Memory} {off n : Nat} (writing : Writing first ip inum src off n fs)
    (once : first.CachedOnce) (onceAfter : later.CachedOnce) (live : first.live inum ip = true)
    (liveAfter : later.live inum ip = true) (sb : later.sb = fs.sb)
    (others : ∀ b, b ≠ ip → later.inode b = fs.inode b)
    (kind : (later.inode ip).SameKind (first.inode ip).toDinode)
    (disk : ∀ i, i ≠ inum → (later.dinode i).SameKind (fs.dinode i) ∧
      (later.dinode i).size = (fs.dinode i).size) :
    KeepsKinds first inum later := by
  have away : ∀ number < first.sb.ninodes, number ≠ inum →
      (later.stat number).SameKind (first.stat number) ∧
        (later.stat number).size = (first.stat number).size := by
    intro number small different
    rcases stat_other once onceAfter live liveAfter
      (fun b away => (others b away).trans (writing.others b away)) different with
      same | ⟨after, before⟩
    · rw [same]
      exact ⟨Dinode.SameKind.refl _, rfl⟩
    · rw [after, before, ← writing.disk number small]
      exact disk number different
  refine ⟨sb.trans writing.sb, ?_, fun number small different => (away number small different).2⟩
  intro number small
  by_cases same : number = inum
  · rw [same, stat_of_live once live, stat_of_live onceAfter liveAfter]
    exact kind
  · exact (away number small same).1

/-- Adding the length did not wrap. -/
theorem not_lt_of_no_wrap {off n : UInt32} (fits : off.toNat + n.toNat < 2 ^ 32) :
    ¬off + n < off ∧ (off + n).toNat = off.toNat + n.toNat := by
  have total : (off + n).toNat = off.toNat + n.toNat := by
    rw [UInt32.toNat_add, Nat.mod_eq_of_lt fits]
  refine ⟨?_, total⟩
  rw [UInt32.lt_iff_toNat_lt, total]
  omega

theorem lt_of_wrap {off n : UInt32} (wraps : 2 ^ 32 ≤ off.toNat + n.toNat) : off + n < off := by
  have first := off.toNat_lt
  have second := n.toNat_lt
  rw [UInt32.lt_iff_toNat_lt, UInt32.toNat_add]
  omega

/-- A count of bytes of a file is the same number as a signed result. -/
theorem toInt_count {n : UInt32} (small : n.toNat ≤ maxFile * bsize) :
    n.toInt32.toInt = n.toNat := by
  have bound : n.toNat ≤ 71680 := small
  have low : 2 * n.toBitVec.toNat < 2 ^ 32 := by
    change 2 * n.toNat < 2 ^ 32
    omega
  exact BitVec.toInt_eq_toNat_of_lt low

/-- Within the largest size `writei` gets to its loop. -/
theorem writei_loop (src : Memory) {off n : UInt32} (plain : (state.inode ip).type ≠ tDev)
    (inside : off.toNat ≤ (state.inode ip).size) (fits : off.toNat + n.toNat ≤ maxFile * bsize) :
    writei ip src off n state = (do
      let last ← writeiFrom ip src n.toNat n.toNat 0 off.toNat
      if 0 < n ∧ (state.inode ip).size < last then
        onFs fun fs => fs.setInode ip { fs.inode ip with size := last }
        iupdate ip
      return (n.toNat : Int)) state := by
  have large : maxFile * bsize < 2 ^ 32 := by decide
  obtain ⟨wraps, total⟩ := not_lt_of_no_wrap (by omega : off.toNat + n.toNat < 2 ^ 32)
  have allowed : ¬((state.inode ip).size < off.toNat ∨ off + n < off) := by
    rintro (beyond | wrapped)
    · exact Nat.not_lt_of_le inside beyond
    · exact wraps wrapped
  have small : ¬maxFile * bsize < (off + n).toNat := by
    rw [total]
    exact Nat.not_lt_of_le fits
  rw [writei, Action.get_bind, if_neg plain, if_neg allowed, if_neg small, toInt_count (by omega)]

/-- `writei` writes all of it, and no other file changes, unless there are not enough blocks. -/
theorem writei_wrote {panics : String → Prop} (src : Memory) {off n : UInt32} (sound : Sound state)
    (live : state.live inum ip = true) (plain : (state.inode ip).type ≠ tDev)
    (inside : off.toNat ≤ (state.inode ip).size) (fits : off.toNat + n.toNat ≤ maxFile * bsize)
    (full : state.free < state.needed inum off.toNat n.toNat → panics "balloc: out of blocks") :
    (writei ip src off n state).Ends panics fun result next =>
      result = (n.toNat : Int) ∧ Sound next ∧
        Written state.toFileSystem inum src off.toNat n.toNat next.toFileSystem ∧
        KeepsKinds state.toFileSystem inum next.toFileSystem := by
  have loop := @writeiFrom_ends state.toFileSystem state ip inum panics src off.toNat n.toNat 0
    n.toNat sound live (Writing.refl src off.toNat) fits (Nat.zero_le _) (Nat.sub_le _ _) full
  rw [writei_loop src plain inside fits, Action.ends_bind]
  refine loop.mono ?_
  rintro last next ⟨rfl, after, still, writing⟩
  have size : (next.inode ip).size = (state.inode ip).size := by rw [writing.self]
  have type : (next.inode ip).type = (state.inode ip).type := by rw [writing.self]
  have kind : (next.inode ip).SameKind (state.inode ip).toDinode := by
    rw [writing.self]
    exact ⟨rfl, rfl, rfl, rfl⟩
  have same : ∀ other, (next.inode other).ref = (state.inode other).ref ∧
      (next.inode other).valid = (state.inode other).valid ∧
      (next.inode other).inum = (state.inode other).inum := by
    intro other
    by_cases here : other = ip
    · subst here
      rw [writing.self]
      exact ⟨rfl, rfl, rfl⟩
    · rw [writing.others other here]
      exact ⟨rfl, rfl, rfl⟩
  by_cases longer : 0 < n ∧ (state.inode ip).size < off.toNat + n.toNat
  · rw [if_pos longer]
    rcases live_iff.mp still with ⟨-, valid, number⟩
    generalize grown : ({ next.inode ip with size := off.toNat + n.toNat } : Inode) = inode
    have addrs : inode.addrs = (next.inode ip).addrs := by rw [← grown]
    have ref : inode.ref = (next.inode ip).ref := by rw [← grown]
    have fresh : inode.valid = true := by
      rw [← grown]
      exact valid
    have inumber : inode.inum = inum := by
      rw [← grown]
      exact number
    have touched := after.consistent.touch still inode ref fresh inumber addrs
    have updated := touched.1.updated touched.2 (by simp)
    have at_ip : ((next.toFileSystem.setInode ip inode).updated ip).inode ip = inode :=
      Function.update_self _ _ _
    have away : ∀ other, other ≠ ip →
        ((next.toFileSystem.setInode ip inode).updated ip).inode other = next.inode other :=
      fun other different => Function.update_of_ne different _ _
    have liveAfter : ((next.toFileSystem.setInode ip inode).updated ip).live inum ip = true :=
      touched.2
    have elsewhere : ∀ {i}, i ≠ inum →
        i ≠ ((next.toFileSystem.setInode ip inode).inode ip).inum := by
      intro i different
      have here : ((next.toFileSystem.setInode ip inode).inode ip).inum = inum :=
        (congrArg Inode.inum at_ip).trans inumber
      rw [here]
      exact different
    have finished : Written state.toFileSystem inum src off.toNat n.toNat
        ((next.toFileSystem.setInode ip inode).updated ip) := by
      apply writing.finish sound.consistent.once updated.once live liveAfter
      · intro other
        by_cases here : other = ip
        · subst here
          rw [at_ip, ref, inumber, fresh, (same other).1]
          rcases live_iff.mp live with ⟨-, stateValid, stateNumber⟩
          exact ⟨rfl, stateValid.symm, stateNumber.symm⟩
        · rw [away other here]
          exact same other
      · rfl
      · exact away
      · intro place
        rw [number_updated touched.1 touched.2,
          number_touch after.consistent.once still ref fresh inumber addrs]
      · intro other o there
        exact byte_touch_updated after.consistent still inode ref fresh inumber addrs touched.1
          touched.2 there
      · rw [at_ip, ← grown]
        exact type
      · rw [at_ip, ← grown]
        change off.toNat + n.toNat = _
        omega
      · intro i _ different
        exact dinode_stat_setBlock (fun location outside => putDinode_outside _ _ _ outside)
          (elsewhere different)
    have unmoved : KeepsKinds state.toFileSystem inum
        ((next.toFileSystem.setInode ip inode).updated ip) := by
      apply writing.keepsKinds sound.consistent.once updated.once live liveAfter
      · rfl
      · exact away
      · rw [at_ip, ← grown]
        exact ⟨kind.type, kind.major, kind.minor, kind.nlink⟩
      · intro i different
        exact ⟨dinode_kind_setBlock (fun location outside => putDinode_outside _ _ _ outside)
          (elsewhere different), (dinode_stat_setBlock (fun location outside =>
            putDinode_outside _ _ _ outside) (elsewhere different)).2⟩
    simp only [Action.ends_bind]
    subst grown
    exact ⟨rfl, ⟨updated, after.calls⟩, finished, unmoved⟩
  · rw [if_neg longer]
    refine ⟨rfl, after, ?_, writing.keepsKinds sound.consistent.once after.consistent.once live
      still rfl (fun _ _ => rfl) kind fun _ _ => ⟨Dinode.SameKind.refl _, rfl⟩⟩
    apply writing.finish sound.consistent.once after.consistent.once live still same
    · rfl
    · intro _ _
      rfl
    · intro _
      rfl
    · intro _ _ _
      rfl
    · exact type
    · rw [size]
      by_cases none : n = 0
      · subst none
        have zero : (0 : UInt32).toNat = 0 := rfl
        omega
      · have positive : 0 < n := by
          rw [UInt32.lt_iff_toNat_lt]
          have nonzero : n.toNat ≠ 0 := fun zero => none (UInt32.toNat_inj.mp zero)
          exact Nat.pos_of_ne_zero nonzero
        have enough : ¬(state.inode ip).size < off.toNat + n.toNat := fun less =>
          longer ⟨positive, less⟩
        omega
    · intro _ _ _
      exact ⟨rfl, rfl⟩

theorem writei_ends {panics : String → Prop} (src : Memory) {off n : UInt32} (sound : Sound state)
    (live : state.live inum ip = true) (plain : (state.inode ip).type ≠ tDev)
    (inside : off.toNat ≤ (state.inode ip).size) (fits : off.toNat + n.toNat ≤ maxFile * bsize)
    (full : state.free < state.needed inum off.toNat n.toNat → panics "balloc: out of blocks") :
    (writei ip src off n state).Ends panics fun result next =>
      result = (n.toNat : Int) ∧ Sound next ∧
        Written state.toFileSystem inum src off.toNat n.toNat next.toFileSystem := by
  refine (writei_wrote src sound live plain inside fits full).mono ?_
  rintro result next ⟨whole, after, written, -⟩
  exact ⟨whole, after, written⟩

/-- `writei` refuses, and changes nothing. -/
theorem writei_refuses (src : Memory) {off n : UInt32} (plain : (state.inode ip).type ≠ tDev)
    (refused : ¬(off.toNat ≤ (state.inode ip).size ∧ off.toNat + n.toNat < 2 ^ 32 ∧
      off.toNat + n.toNat ≤ maxFile * bsize)) :
    writei ip src off n state = .done (-1) state := by
  rw [writei, Action.get_bind, if_neg plain]
  by_cases beyond : (state.inode ip).size < off.toNat ∨ off + n < off
  · rw [if_pos beyond]
    rfl
  · rw [if_neg beyond]
    have wraps : off.toNat + n.toNat < 2 ^ 32 := by
      by_contra wrap
      exact beyond (Or.inr (lt_of_wrap (Nat.le_of_not_lt wrap)))
    have total := (not_lt_of_no_wrap wraps).2
    have large : maxFile * bsize < (off + n).toNat := by
      rw [total]
      by_contra small
      refine refused ⟨?_, wraps, Nat.le_of_not_lt small⟩
      exact Nat.le_of_not_lt fun less => beyond (Or.inl less)
    rw [if_pos large]
    rfl

/-! ## Reading -/

/-- A block that is there is found, and nothing changes. -/
theorem bmap_found (sound : Sound state) (live : state.live inum ip = true) {bn : Nat}
    (there : state.number (slotOf inum bn) ≠ 0) :
    bmap ip bn state = .done (state.number (slotOf inum bn)) state := by
  have consistent := sound.consistent
  have inside := live_inside consistent live
  have addrs := addrs_of_live consistent.once live
  rw [bmap, Action.get_bind]
  by_cases direct : bn < ndirect
  · have place : slotOf inum bn = .addr inum bn := by simp [slotOf, direct]
    have number := number_addr consistent.once live inside (Nat.le_of_lt direct)
    rw [place, number] at there ⊢
    rw [if_pos direct, if_neg there]
    rfl
  · have indirect := Nat.le_of_not_lt direct
    have place : slotOf inum bn = .entry inum (bn - ndirect) := by simp [slotOf, direct]
    have slot := number_indirect there indirect
    rw [number_addr consistent.once live inside (Nat.le_refl _)] at slot
    rw [place] at there ⊢
    have held : state.Holds (.entry inum (bn - ndirect)) _ := ⟨there, rfl⟩
    rcases held.entry_cases with ⟨-, index, -, value⟩
    rw [addrs] at value
    rw [if_neg direct, if_pos index, if_neg slot, bmapEntry, Action.get_bind, Action.get_bind,
      value, if_neg there]
    rfl

/-- The loop of `readi` collects the bytes of the file. -/
theorem readiFrom_eq (sound : Sound state) (live : state.live inum ip = true) {start n tot fuel : Nat}
    (there : ∀ o, start ≤ o → o < start + n → state.number (slotOf inum (o / bsize)) ≠ 0)
    (bounded : tot ≤ n) (fueled : n - tot ≤ fuel) (dst : List UInt8) :
    readiFrom ip n fuel tot (start + tot) dst state =
      .done (dst ++ (List.range (n - tot)).map fun i => state.byte inum (start + tot + i)) state := by
  induction fuel generalizing tot dst with
  | zero =>
      have done : tot = n := by omega
      subst done
      rw [Nat.sub_self]
      simp only [List.range_zero, List.map_nil, List.append_nil]
      rfl
  | succ fuel inductionHypothesis =>
      unfold readiFrom
      by_cases more : tot < n
      · have positive : 0 < bsize := by decide
        have offset := Nat.mod_lt (start + tot) positive
        have base := Nat.div_add_mod (start + tot) bsize
        generalize size : min (n - tot) (bsize - (start + tot) % bsize) = m
        have found := bmap_found sound live (there (start + tot) (by omega) (by omega))
        have chunk : (state.block (state.number (slotOf inum ((start + tot) / bsize)))).read
            ((start + tot) % bsize) m =
            (List.range m).map fun i => state.byte inum (start + tot + i) := by
          unfold Memory.read
          apply List.map_congr_left
          intro i member
          have below := List.mem_range.mp member
          have quotient : (start + tot + i) / bsize = (start + tot) / bsize := by
            apply Nat.div_eq_of_lt_le
            · rw [Nat.mul_comm]
              omega
            · rw [Nat.succ_mul, Nat.mul_comm]
              omega
          have remainder : (start + tot + i) % bsize = (start + tot) % bsize + i := by
            have whole := Nat.div_add_mod (start + tot + i) bsize
            rw [quotient] at whole
            omega
          rw [FileSystem.byte, quotient, remainder]
        have rest : n - tot = m + (n - (tot + m)) := by omega
        rw [if_pos more, Action.bind_done found, Action.get_bind, Nat.add_assoc start tot,
          inductionHypothesis (by omega) (by omega), chunk, rest, List.range_add, List.map_append,
          List.map_map, List.append_assoc]
        simp only [Function.comp_def, Nat.add_assoc]
      · have done : tot = n := by omega
        subst done
        rw [if_neg more, Nat.sub_self]
        simp only [List.range_zero, List.map_nil, List.append_nil]
        rfl

/-- The bytes of a file that lie in a range. -/
theorem File.bytes_range {array : List UInt8} (file : File fs inum array) {off count : Nat}
    (within : off + count ≤ array.length) :
    ((List.range count).map fun i => fs.byte inum (off + i)) = (array.drop off).take count := by
  apply List.ext_getElem
  · rw [List.length_map, List.length_range, List.length_take, List.length_drop]
    omega
  · intro i left right
    rw [List.length_map, List.length_range] at left
    rw [List.getElem_map, List.getElem_range, List.getElem_take, List.getElem_drop,
      file.bytes _ (by omega), List.getD_eq_getElem]

/-- `readi` returns the bytes of the file from `off` on. -/
theorem readi_eq (consoleread : Int → Int × List UInt8) {off n : UInt32} {array : List UInt8}
    (sound : Sound state) (live : state.live inum ip = true)
    (file : File state.toFileSystem inum array) (inside : off.toNat ≤ array.length)
    (wraps : off.toNat + n.toNat < 2 ^ 32) :
    readi consoleread ip off n state =
      .done ((min n.toNat (array.length - off.toNat) : Nat), (array.drop off.toNat).take n.toNat)
        state := by
  have plain := file.plain
  have size := file.size
  rw [stat_of_live sound.consistent.once live] at plain size
  rcases not_lt_of_no_wrap wraps with ⟨fits, total⟩
  have within : ¬((state.inode ip).size < off.toNat ∨ off + n < off) := by
    rw [size, not_or]
    exact ⟨Nat.not_lt_of_le inside, fits⟩
  have bounded : array.length ≤ 71680 := file.bounded
  have clipped : (if (state.inode ip).size < (off + n).toNat then
      (state.inode ip).size - off.toNat else n.toNat) = min n.toNat (array.length - off.toNat) := by
    rw [size, total]
    split <;> omega
  generalize length : min n.toNat (array.length - off.toNat) = count at clipped ⊢
  have range : off.toNat + count ≤ array.length := by omega
  have loop := @readiFrom_eq state ip inum sound live off.toNat count 0 count
    (fun o _ below => file.allocated o (Nat.lt_of_lt_of_le below range)) (Nat.zero_le _)
    (Nat.sub_le _ _) []
  rw [Nat.sub_zero, Nat.add_zero, List.nil_append, file.bytes_range range] at loop
  have result : (UInt32.ofNat count).toInt32.toInt = count := by
    have small : (UInt32.ofNat count).toNat = count :=
      UInt32.toNat_ofNat_of_lt' (Nat.lt_of_le_of_lt (by omega : count ≤ 71680) (by decide))
    rw [toInt_count, small]
    rw [small]
    exact Nat.le_trans (by omega) bounded
  have taken : (array.drop off.toNat).take count = (array.drop off.toNat).take n.toNat := by
    rw [List.take_eq_take_iff, List.length_drop]
    omega
  rw [readi, Action.get_bind, if_neg plain, if_neg within]
  simp only [clipped]
  rw [Action.bind_done loop, result, taken]
  rfl

/-- `readi` refuses, and changes nothing. -/
theorem readi_refuses (consoleread : Int → Int × List UInt8) {off n : UInt32}
    (plain : (state.inode ip).type ≠ tDev)
    (refused : ¬(off.toNat ≤ (state.inode ip).size ∧ off.toNat + n.toNat < 2 ^ 32)) :
    readi consoleread ip off n state = .done (-1, []) state := by
  have beyond : (state.inode ip).size < off.toNat ∨ off + n < off := by
    by_cases inside : off.toNat ≤ (state.inode ip).size
    · exact Or.inr (lt_of_wrap (Nat.le_of_not_lt fun less => refused ⟨inside, less⟩))
    · exact Or.inl (Nat.lt_of_not_le inside)
  rw [readi, Action.get_bind, if_neg plain, if_pos beyond]
  rfl

/-! ## Sequences of calls -/

/-- A call on an inode that the caller has locked. -/
inductive FileCall where
  | writei (ip : InodePtr) (src : Memory) (off n : UInt32)
  | readi (ip : InodePtr) (off n : UInt32)

def FileCall.target : FileCall → InodePtr
  | .writei ip _ _ _ => ip
  | .readi ip _ _ => ip

/-- The result of the call and, for `readi`, the bytes at `dst`. -/
def FileCall.run (consoleread : Int → Int × List UInt8) : FileCall →
    Action FsState (Int × List UInt8)
  | .writei ip src off n => do
      let result ← Fs.writei ip src off n
      return (result, [])
  | .readi ip off n => Fs.readi consoleread ip off n

def runCalls (consoleread : Int → Int × List UInt8) : List FileCall →
    Action FsState (List (Int × List UInt8))
  | [] => return []
  | call :: calls => do
      let result ← call.run consoleread
      let results ← runCalls consoleread calls
      return result :: results

/-- What an array of bytes for every inode returns for a call, and becomes. -/
def FileCall.expected (number : InodePtr → Nat) (contents : Nat → List UInt8) :
    FileCall → (Int × List UInt8) × (Nat → List UInt8)
  | .writei ip src off n =>
      let array := contents (number ip)
      if off.toNat ≤ array.length ∧ off.toNat + n.toNat < 2 ^ 32 ∧
          off.toNat + n.toNat ≤ maxFile * bsize then
        ((n.toNat, []),
          Function.update contents (number ip) (putBytes array off.toNat (src.read 0 n.toNat)))
      else ((-1, []), contents)
  | .readi ip off n =>
      let array := contents (number ip)
      if off.toNat ≤ array.length ∧ off.toNat + n.toNat < 2 ^ 32 then
        (((min n.toNat (array.length - off.toNat) : Nat),
          (array.drop off.toNat).take n.toNat), contents)
      else ((-1, []), contents)

def expectedCalls (number : InodePtr → Nat) (contents : Nat → List UInt8) :
    List FileCall → List (Int × List UInt8) × (Nat → List UInt8)
  | [] => ([], contents)
  | call :: calls =>
      let first := call.expected number contents
      let rest := expectedCalls number first.2 calls
      (first.1 :: rest.1, rest.2)

/-- The blocks that the call has to allocate are free. -/
def FileCall.Covered (state : FsState) : FileCall → Prop
  | .writei ip _ off n =>
      off.toNat ≤ (state.inode ip).size → off.toNat + n.toNat ≤ maxFile * bsize →
        state.needed (state.inode ip).inum off.toNat n.toNat ≤ state.free
  | .readi _ _ _ => True

/-- There are enough free blocks at every call. -/
def Enough (consoleread : Int → Int × List UInt8) : FsState → List FileCall → Prop
  | _, [] => True
  | state, call :: calls => call.Covered state ∧
      ∀ result next, call.run consoleread state = .done result next → Enough consoleread next calls

/-- `ip` is a referenced and read entry for one of `files`. -/
def FileSystem.Opens (fs : FileSystem) (files : Nat → Prop) (ip : InodePtr) : Prop :=
  0 < (fs.inode ip).ref ∧ (fs.inode ip).valid = true ∧ files (fs.inode ip).inum

theorem KeepsOpen.opens {before after : FileSystem} {files : Nat → Prop}
    (opened : KeepsOpen before after) (opens : before.Opens files ip) : after.Opens files ip := by
  rcases opened ip with ⟨ref, valid, number⟩
  rw [FileSystem.Opens, ref, valid, number]
  exact opens

/-- One call does what the arrays say, and they stay the contents of the files. -/
theorem FileCall.run_ends (consoleread : Int → Int × List UInt8) {files : Nat → Prop}
    {contents : Nat → List UInt8} {number : InodePtr → Nat} (call : FileCall)
    (sound : Sound state) (opens : state.Opens files call.target)
    (numbers : ∀ ip, (state.inode ip).inum = number ip)
    (holds : ∀ inum, files inum → File state.toFileSystem inum (contents inum))
    (covered : call.Covered state) :
    (call.run consoleread state).Ends (fun _ => False) fun result next =>
      result = (call.expected number contents).1 ∧ Sound next ∧
        KeepsOpen state.toFileSystem next.toFileSystem ∧
        ∀ inum, files inum →
          File next.toFileSystem inum ((call.expected number contents).2 inum) := by
  rcases opens with ⟨referenced, valid, member⟩
  have live : state.live (state.inode call.target).inum call.target = true :=
    live_iff.mpr ⟨referenced, valid, rfl⟩
  have file := holds _ member
  have plain := file.plain
  have size := file.size
  rw [stat_of_live sound.consistent.once live] at plain size
  have unchanged : KeepsOpen state.toFileSystem state.toFileSystem :=
    fun _ => ⟨rfl, rfl, rfl⟩
  cases call with
  | writei ip src off n =>
      simp only [FileCall.target] at *
      rw [numbers ip] at live file size member
      simp only [FileCall.run, FileCall.expected, Action.ends_bind]
      by_cases accepted : off.toNat ≤ (contents (number ip)).length ∧
          off.toNat + n.toNat < 2 ^ 32 ∧ off.toNat + n.toNat ≤ maxFile * bsize
      · rw [if_pos accepted]
        rcases accepted with ⟨inside, -, fits⟩
        have enough := covered (by rw [size]; exact inside) fits
        rw [numbers ip] at enough
        refine (writei_ends src sound live plain (by rw [size]; exact inside) fits
          fun few => absurd enough (Nat.not_le_of_lt few)).mono ?_
        rintro result next ⟨rfl, after, written⟩
        refine ⟨rfl, after, written.opened, ?_⟩
        intro inum chosen
        by_cases same : inum = number ip
        · subst same
          simp only [Function.update_self]
          exact written.file _ file inside
        · simp only [Function.update_of_ne same]
          exact written.others inum same _ (holds inum chosen)
      · rw [if_neg accepted]
        rw [← size] at accepted
        rw [writei_refuses src plain accepted]
        exact ⟨rfl, sound, unchanged, holds⟩
  | readi ip off n =>
      simp only [FileCall.target] at *
      rw [numbers ip] at live file size
      simp only [FileCall.run, FileCall.expected]
      by_cases accepted : off.toNat ≤ (contents (number ip)).length ∧
          off.toNat + n.toNat < 2 ^ 32
      · rw [if_pos accepted, readi_eq consoleread sound live file accepted.1 accepted.2]
        exact ⟨rfl, sound, unchanged, holds⟩
      · rw [if_neg accepted]
        rw [← size] at accepted
        rw [readi_refuses consoleread plain accepted]
        exact ⟨rfl, sound, unchanged, holds⟩

theorem runCalls_ends (consoleread : Int → Int × List UInt8) {files : Nat → Prop}
    {number : InodePtr → Nat} (calls : List FileCall) {contents : Nat → List UInt8}
    (sound : Sound state) (opens : ∀ call ∈ calls, state.Opens files call.target)
    (numbers : ∀ ip, (state.inode ip).inum = number ip)
    (holds : ∀ inum, files inum → File state.toFileSystem inum (contents inum))
    (enough : Enough consoleread state calls) :
    (runCalls consoleread calls state).Ends (fun _ => False) fun results next =>
      results = (expectedCalls number contents calls).1 ∧
        ∀ inum, files inum →
          File next.toFileSystem inum ((expectedCalls number contents calls).2 inum) := by
  induction calls generalizing state contents with
  | nil => exact ⟨rfl, holds⟩
  | cons call calls inductionHypothesis =>
      have ends := call.run_ends consoleread sound (opens call (List.mem_cons_self ..)) numbers
        holds enough.1
      rcases ends.exists_done with ⟨result, middle, done, rfl, after, opened, kept⟩
      rw [runCalls, Action.bind_done done, Action.ends_bind]
      have rest := inductionHypothesis after
        (fun other member => opened.opens (opens other (List.mem_cons_of_mem _ member)))
        (fun ip => ((opened ip).2.2).trans (numbers ip)) kept (enough.2 _ _ done)
      refine rest.mono ?_
      rintro results next ⟨rfl, finished⟩
      exact ⟨rfl, finished⟩

/-- Files behave as byte arrays: every sequence of calls returns what the arrays
say, and leaves the contents they say in every file. -/
theorem fileContents (consoleread : Int → Int × List UInt8) (files : Nat → Prop)
    (contents : Nat → List UInt8) (start : FsState) (sound : Sound start)
    (holds : ∀ inum, files inum → File start.toFileSystem inum (contents inum))
    (calls : List FileCall) (opens : ∀ call ∈ calls, start.Opens files call.target)
    (enough : Enough consoleread start calls) :
    let expected := expectedCalls (fun ip => (start.inode ip).inum) contents calls
    ∃ finish, runCalls consoleread calls start = .done expected.1 finish ∧
      ∀ inum, files inum → File finish.toFileSystem inum (expected.2 inum) := by
  have ends := runCalls_ends consoleread calls sound opens (fun _ => rfl) holds enough
  rcases ends.exists_done with ⟨results, finish, done, rfl, kept⟩
  exact ⟨finish, done, kept⟩

theorem ninode_pos : 0 < ninode := by decide

/-- A new file is opened. -/
def newFile : List FsOp := [.ialloc tFile, .ilock ⟨0, ninode_pos⟩]

/-- 600 bytes are written to it, and read back from byte 500 on and beyond its end. -/
def writeAndRead : List FileCall :=
  let ip : InodePtr := ⟨0, ninode_pos⟩
  [.writei ip (fun _ => 7) 0 600, .readi ip 500 200, .readi ip 601 1]

theorem fileContents_once : ∃ start finish, runs FsState.next blankDisk newFile = some start ∧
    runCalls (fun n => (n, [])) writeAndRead start =
      .done [(600, []), (100, List.replicate 100 7), (-1, [])] finish ∧
    File finish.toFileSystem 1 (List.replicate 600 7) := by
  let ip : InodePtr := ⟨0, ninode_pos⟩
  have facts : (runs FsState.next blankDisk newFile).map (fun state =>
      decide (1 < state.sb.ninodes ∧ (state.stat 1).type ≠ tDev ∧ (state.stat 1).size = 0 ∧
        0 < (state.inode ip).ref ∧ (state.inode ip).valid = true ∧ (state.inode ip).inum = 1 ∧
        state.needed 1 0 600 ≤ state.free)) = some true := by decide +kernel
  rcases Option.map_eq_some_iff.mp facts with ⟨start, ran, holds⟩
  rcases of_decide_eq_true holds with ⟨inside, plain, size, referenced, valid, number, covered⟩
  have opens : ∀ call ∈ writeAndRead, start.Opens (· = 1) call.target := by
    intro call member
    have same : call.target = ip := by
      revert call
      decide
    rw [same]
    exact ⟨referenced, valid, number⟩
  have enough : Enough (fun n => (n, [])) start writeAndRead := by
    refine ⟨?_, fun _ _ _ => ⟨trivial, fun _ _ _ => ⟨trivial, fun _ _ _ => trivial⟩⟩⟩
    intro _ _
    rw [number]
    exact covered
  have contents := fileContents (fun n => (n, [])) (· = 1) (fun _ => []) start
    (sound_run blankDisk_image ran)
    (by
      rintro _ rfl
      exact ⟨inside, plain, size, fun _ below => absurd below (Nat.not_lt_zero _),
        fun _ below => absurd below (Nat.not_lt_zero _)⟩)
    writeAndRead opens enough
  have results : ∀ inum : InodePtr → Nat, inum ip = 1 →
      (expectedCalls inum (fun _ => []) writeAndRead).1 =
          [(600, []), (100, List.replicate 100 7), (-1, [])] ∧
        (expectedCalls inum (fun _ => []) writeAndRead).2 1 = List.replicate 600 7 := by
    intro inum same
    simp only [writeAndRead, expectedCalls, FileCall.expected]
    rw [show inum ⟨0, ninode_pos⟩ = 1 from same]
    decide +kernel
  rcases contents with ⟨finish, done, kept⟩
  have expected := results (fun ip => (start.inode ip).inum) number
  rw [expected.1] at done
  have file := kept 1 rfl
  rw [expected.2] at file
  exact ⟨start, finish, ran, done, file⟩

end Xv6.Fs
