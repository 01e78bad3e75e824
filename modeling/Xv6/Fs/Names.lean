import Mathlib.Data.List.TakeWhile
import Xv6.Fs.FileContents
import Xv6.Library.SlotTable

/-!
# Directory entries

`struct dirent`, and the functions of `string.c` that compare and copy names. A
name of 14 bytes has no terminator. What counts of a name are its first 14 bytes
up to the terminator, if there is one.
-/

namespace Xv6.Fs

open Xv6.Library

/-- `sizeof(struct dirent)` -/
def direntSize : Nat := 16

/-! ## string.c -/

/-- The loop of `strncmp`, which has passed `i` bytes and has `n` left. -/
def strncmpFrom (p q : Memory) : Nat → Nat → Int
  | 0, _ => 0
  | n + 1, i =>
      if p i ≠ 0 ∧ p i = q i then strncmpFrom p q n (i + 1) else (p i).toNat - (q i).toNat

def strncmp (p q : Memory) (n : Nat) : Int := strncmpFrom p q n 0

/-- The second loop of `strncpy`. -/
def zeroFrom (s : Nat) : Nat → Nat → Memory → Memory
  | 0, _, memory => memory
  | n + 1, i, memory => zeroFrom s n (i + 1) (Function.update memory (s + i) 0)

/-- The first loop of `strncpy`. -/
def strncpyFrom (s : Nat) (t : Memory) : Nat → Nat → Memory → Memory
  | 0, _, memory => memory
  | n + 1, i, memory =>
      let memory := Function.update memory (s + i) (t i)
      if t i ≠ 0 then strncpyFrom s t n (i + 1) memory else zeroFrom s n (i + 1) memory

/-- Copy the string `t` to `s` in `memory`. -/
def strncpy (memory : Memory) (s : Nat) (t : Memory) (n : Nat) : Memory :=
  strncpyFrom s t n 0 memory

def namecmp (s t : Memory) : Int := strncmp s t dirsiz

/-- What counts of a name. -/
def nameOf (name : Memory) : List UInt8 := (name.read 0 dirsiz).takeWhile (· ≠ 0)

theorem nameOf_congr {first second : Memory} (agree : ∀ i < dirsiz, first i = second i) :
    nameOf first = nameOf second := by
  rw [nameOf, nameOf]
  congr 1
  apply Memory.read_congr
  intro offset below
  rw [Nat.zero_add]
  exact agree offset below

theorem sub_toNat_eq_zero_iff (a b : UInt8) : (a.toNat : Int) - b.toNat = 0 ↔ a = b := by
  rw [Int.sub_eq_zero, Int.natCast_inj, UInt8.toNat_inj]

theorem strncmpFrom_eq_zero_iff (p q : Memory) (n i : Nat) :
    strncmpFrom p q n i = 0 ↔
      (p.read i n).takeWhile (· ≠ 0) = (q.read i n).takeWhile (· ≠ 0) := by
  induction n generalizing i with
  | zero => exact iff_of_true rfl rfl
  | succ n inductionHypothesis =>
      rw [strncmpFrom, Memory.read_succ, Memory.read_succ, List.takeWhile_cons,
        List.takeWhile_cons]
      by_cases ended : p i = 0
      · rw [if_neg fun both => both.1 ended, sub_toNat_eq_zero_iff, ended]
        by_cases too : q i = 0
        · simp [too]
        · simp [too, Ne.symm too]
      · by_cases same : p i = q i
        · rw [if_pos ⟨ended, same⟩, inductionHypothesis]
          rw [same] at ended ⊢
          simp [ended]
        · rw [if_neg fun both => same both.2, sub_toNat_eq_zero_iff]
          by_cases too : q i = 0
          · simp [ended, too]
          · simp [ended, too, same]

/-- Names are equal if they agree on what counts. -/
theorem namecmp_eq_zero_iff (s t : Memory) : namecmp s t = 0 ↔ nameOf s = nameOf t :=
  strncmpFrom_eq_zero_iff s t dirsiz 0

theorem zeroFrom_eq (s n i : Nat) (memory : Memory) :
    zeroFrom s n i memory = memory.write (s + i) (List.replicate n 0) := by
  induction n generalizing i memory with
  | zero => exact (Memory.write_nil memory (s + i)).symm
  | succ n inductionHypothesis =>
      rw [zeroFrom, inductionHypothesis, List.replicate_succ, ← Memory.write_cons, Nat.add_assoc]

/-- The bytes up to the terminator, then zeros. -/
theorem strncpyFrom_eq (s : Nat) (t : Memory) (n i : Nat) (memory : Memory) :
    strncpyFrom s t n i memory = memory.write (s + i) ((t.read i n).takeWhile (· ≠ 0) ++
      List.replicate (n - ((t.read i n).takeWhile (· ≠ 0)).length) 0) := by
  induction n generalizing i memory with
  | zero => exact (Memory.write_nil memory (s + i)).symm
  | succ n inductionHypothesis =>
      rw [strncpyFrom, Memory.read_succ]
      by_cases ended : t i = 0
      · rw [if_neg (not_not.mpr ended), zeroFrom_eq, List.takeWhile_cons_of_neg (by simp [ended]),
          ended]
        exact Memory.write_cons ..
      · rw [if_pos ended, inductionHypothesis, List.takeWhile_cons_of_pos (by simp [ended]),
          List.length_cons, Nat.add_sub_add_right, List.cons_append]
        exact Memory.write_cons ..

theorem length_nameOf_le (name : Memory) : (nameOf name).length ≤ dirsiz := by
  have bound := (List.takeWhile_sublist (p := (· ≠ 0)) (l := name.read 0 dirsiz)).length_le
  rw [Memory.length_read] at bound
  exact bound

/-- A copied name counts as the name itself. -/
theorem nameOf_strncpy (memory : Memory) (s : Nat) (name : Memory) {copy : Memory}
    (bytes : ∀ i < dirsiz, copy i = strncpy memory s name dirsiz (s + i)) :
    nameOf copy = nameOf name := by
  have short := length_nameOf_le name
  have copied : copy.read 0 dirsiz =
      nameOf name ++ List.replicate (dirsiz - (nameOf name).length) 0 := by
    have whole : (nameOf name ++ List.replicate (dirsiz - (nameOf name).length) 0).length =
        dirsiz := by
      rw [List.length_append, List.length_replicate]
      omega
    have stored := Memory.read_write_same memory s
      (nameOf name ++ List.replicate (dirsiz - (nameOf name).length) 0)
    rw [whole] at stored
    rw [← stored, Memory.read, Memory.read, List.map_inj_left]
    intro i below
    rw [Nat.zero_add, bytes i (List.mem_range.mp below), strncpy, strncpyFrom_eq]
    rfl
  have nonzero : ∀ byte ∈ nameOf name, (byte != 0) = true := fun byte member => by
    simpa using List.mem_takeWhile_imp member
  rw [nameOf, copied, List.takeWhile_append_of_pos (by simpa using nonzero)]
  cases dirsiz - (nameOf name).length <;> simp [List.replicate_succ]

/-! ## struct dirent -/

/-- The bytes of `de`. -/
def direntOf (bytes : List UInt8) : Memory := fun i => bytes.getD i 0

/-- `de.inum` -/
def direntInum (de : Memory) : Nat := de.load 0 2

/-- `de.name` -/
def direntName (de : Memory) : Memory := fun i => de (2 + i)

/-- The name and the inode number, unless the entry is free. -/
def entryOf (de : Memory) : Option (List UInt8 × Nat) :=
  if direntInum de = 0 then none else some (nameOf (direntName de), direntInum de)

theorem entryOf_congr {first second : Memory} (agree : ∀ i < direntSize, first i = second i) :
    entryOf first = entryOf second := by
  have inum : direntInum first = direntInum second := by
    apply Memory.load_congr
    intro offset below
    exact agree _ (by unfold direntSize; omega)
  have name : nameOf (direntName first) = nameOf (direntName second) := by
    apply nameOf_congr
    intro offset below
    exact agree _ (by unfold dirsiz at below; unfold direntSize; omega)
  rw [entryOf, entryOf, inum, name]

theorem entryOf_some {de : Memory} {name : List UInt8} {inum : Nat}
    (entry : entryOf de = some (name, inum)) :
    direntInum de ≠ 0 ∧ nameOf (direntName de) = name ∧ direntInum de = inum := by
  rw [entryOf] at entry
  split at entry
  · cases entry
  · cases entry
    exact ⟨‹_›, rfl, rfl⟩

/-- `strncpy(de.name, name, DIRSIZ); de.inum = inum;` -/
def linked (de name : Memory) (inum : Nat) : Memory :=
  (strncpy de 2 name dirsiz).store 0 2 inum

theorem entryOf_linked (de name : Memory) {inum : Nat} (nonzero : inum ≠ 0)
    (fits : inum < 256 ^ 2) : entryOf (linked de name inum) = some (nameOf name, inum) := by
  have number : direntInum (linked de name inum) = inum := Memory.load_store_fits _ _ fits
  have copied : nameOf (direntName (linked de name inum)) = nameOf name := by
    apply nameOf_strncpy de 2
    intro i _
    exact Memory.store_outside _ _ (by omega)
  rw [entryOf, number, if_neg nonzero, copied]

/-- The entry after `memset(&de, 0, sizeof(de))`. -/
theorem entryOf_zero : entryOf (fun _ => 0) = none := by
  rw [entryOf, direntInum, Memory.load_zero, if_pos rfl]

/-! ## The entries of a directory -/

/-- The entries in the content of a directory. -/
def entries (array : List UInt8) : SlotTable (List UInt8) Nat :=
  fun i => entryOf (direntOf (array.drop (direntSize * i)))

theorem direntOf_drop (array : List UInt8) (off i : Nat) :
    direntOf (array.drop off) i = array.getD (off + i) 0 := by
  simp only [direntOf, List.getD_eq_getElem?_getD, List.getElem?_drop]

/-- What `readi` put into `de`. -/
theorem entryOf_read (array : List UInt8) (i : Nat) :
    entryOf (direntOf ((array.drop (direntSize * i)).take direntSize)) = entries array i := by
  apply entryOf_congr
  intro j below
  simp only [direntOf, List.getD_eq_getElem?_getD]
  rw [List.getElem?_take_of_lt below, List.getElem?_drop]

theorem entries_within {array : List UInt8} {count : Nat}
    (whole : array.length = direntSize * count) : (entries array).Within count := by
  intro i beyond
  rw [entries, ← entryOf_zero]
  congr 1
  funext j
  rw [direntOf_drop, List.getD_eq_default]
  rw [whole]
  exact Nat.le_add_right_of_le (Nat.mul_le_mul_left _ beyond)

/-- One entry is written. -/
theorem entries_putBytes {array : List UInt8} {i : Nat} (inside : direntSize * i ≤ array.length)
    (de : Memory) :
    entries (putBytes array (direntSize * i) (de.read 0 direntSize)) =
      Function.update (entries array) i (entryOf de) := by
  funext j
  by_cases same : j = i
  · rw [same, Function.update_self]
    apply entryOf_congr
    intro k below
    rw [direntOf_drop, getD_putBytes inside, Memory.length_read, if_pos (by omega),
      Nat.add_sub_cancel_left, getD_read de below]
  · rw [Function.update_of_ne same]
    apply entryOf_congr
    intro k below
    rw [direntOf_drop, direntOf_drop, getD_putBytes inside, Memory.length_read, if_neg]
    unfold direntSize at below ⊢
    omega

end Xv6.Fs
