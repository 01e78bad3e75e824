import Mathlib.Data.List.Pairwise
import Xv6.Library.LittleEndian

/-!
# The boot loader

`bootmain.c`: the segments of the kernel are read from the disk in whole sectors, and so
each of them also takes bytes before and behind it from the file. What comes behind is
loaded over by the next segment; what comes before may have been loaded already.
-/

namespace Xv6.Bootmain

open Xv6.Library

/-! ## The functions -/

/-- `SECTSIZE` -/
def sectsize : Nat := 512

/-- The bytes of every sector. -/
abbrev Disk := Nat → Nat → UInt8

def elfMagic : UInt32 := 0x464C457F

/-- The scratch space for the first page of the kernel. -/
def scratch : UInt32 := 0x10000

/-- The fields of `struct proghdr` that `bootmain` uses. -/
structure Proghdr where
  off : UInt32
  paddr : UInt32
  filesz : UInt32
  memsz : UInt32
  deriving DecidableEq

/-- `sizeof(struct proghdr)` -/
def proghdrSize : UInt32 := 32

def word (memory : Memory) (addr : UInt32) : UInt32 :=
  UInt32.ofNat (memory.load addr.toNat 4)

def proghdr (memory : Memory) (ph : UInt32) : Proghdr where
  off := word memory (ph + 4)
  paddr := word memory (ph + 12)
  filesz := word memory (ph + 16)
  memsz := word memory (ph + 20)

/-- `elf->phnum`, an `ushort` -/
def phnum (memory : Memory) (elf : UInt32) : UInt32 :=
  UInt32.ofNat (memory.load (elf + 44).toNat 2)

def stosb (addr : UInt32) (data : UInt8) (cnt : UInt32) (memory : Memory) : Memory :=
  memory.write addr.toNat (List.replicate cnt.toNat data)

/-- Read a single sector. -/
def readsect (disk : Disk) (dst offset : UInt32) (memory : Memory) : Memory :=
  memory.write dst.toNat ((List.range sectsize).map (disk offset.toNat))

/-- The loop of `readseg`, which gets `fuel` turns. -/
def readsects (disk : Disk) (epa : UInt32) : Nat → UInt32 → UInt32 → Memory → Option Memory
  | 0, _, _, _ => none
  | fuel + 1, pa, offset, memory =>
      if pa < epa then
        readsects disk epa fuel (pa + 512) (offset + 1) (readsect disk pa offset memory)
      else some memory

/-- Read `count` bytes at `offset` from the kernel into physical address `pa`. -/
def readseg (disk : Disk) (fuel : Nat) (pa count offset : UInt32) (memory : Memory) :
    Option Memory :=
  readsects disk (pa + count) fuel (pa - offset % 512) (offset / 512 + 1) memory

/-- The loop over the program headers up to `eph`. -/
def loadSegments (disk : Disk) (fuel : Nat) (eph : UInt32) :
    Nat → UInt32 → Memory → Option Memory
  | 0, _, _ => none
  | turns + 1, ph, memory =>
      if ph < eph then do
        let header := proghdr memory ph
        let read ← readseg disk fuel header.paddr header.filesz header.off memory
        -- the sizes are read once more, after the sectors
        let again := proghdr read ph
        let filled :=
          if again.memsz > again.filesz then
            stosb (header.paddr + again.filesz) 0 (again.memsz - again.filesz) read
          else read
        loadSegments disk fuel eph turns (ph + proghdrSize) filled
      else some memory

/-- `bootmain` returns to `bootasm.S` or calls the entry point. -/
inductive Left where
  | returned
  | entered (entry : UInt32) (memory : Memory)

/-- Every loop gets `fuel` turns. -/
def bootmain (disk : Disk) (fuel : Nat) (memory : Memory) : Option Left := do
  let page ← readseg disk fuel scratch 4096 0 memory
  if word page scratch ≠ elfMagic then return .returned
  else
    let ph := scratch + word page (scratch + 28)
    let loaded ← loadSegments disk fuel (ph + phnum page scratch * proghdrSize) fuel ph page
    return .entered (word loaded (scratch + 24)) loaded

/-! ## What is loaded -/

/-- The file, which starts at sector 1. -/
def kernelFile (disk : Disk) : Memory := fun x => disk (x / sectsize + 1) (x % sectsize)

/-- The headers in the file. -/
def segments (disk : Disk) : List Proghdr :=
  (List.range (phnum (kernelFile disk) 0).toNat).map fun k =>
    proghdr (kernelFile disk) (word (kernelFile disk) 28 + UInt32.ofNat (32 * k))

/-- Each segment's memory holds its bytes from the file and then zeros. -/
def Loads (disk : Disk) (memory : Memory) : Prop :=
  ∀ ph ∈ segments disk, ∀ i < ph.memsz.toNat,
    memory (ph.paddr.toNat + i) =
      if i < ph.filesz.toNat then kernelFile disk (ph.off.toNat + i) else 0

/-- The loader's code with `stack` bytes of stack below it, and the scratch space. -/
def Loader (stack a : Nat) : Prop :=
  31744 ≤ a + stack ∧ a < 32256 ∨ 65536 ≤ a ∧ a < 69632

/-- A kernel with its headers in the first page, and with segments in increasing order that lie
clear of each other and of the loader. -/
structure Kernel (stack : Nat) (disk : Disk) : Prop where
  magic : word (kernelFile disk) 0 = elfMagic
  headers : (word (kernelFile disk) 28).toNat + 32 * (phnum (kernelFile disk) 0).toNat ≤ 4096
  sizes : ∀ ph ∈ segments disk, ph.filesz ≤ ph.memsz
  inside : ∀ ph ∈ segments disk, ph.paddr.toNat + ph.memsz.toNat ≤ 4294967296
  increasing : (segments disk).Pairwise fun ph later => ph.memsz = 0 ∨ later.memsz = 0 ∨
    ph.paddr.toNat + ph.memsz.toNat ≤ later.paddr.toNat
  clear : ∀ ph ∈ segments disk, ∀ i < ph.memsz.toNat, ¬Loader stack (ph.paddr.toNat + i)

namespace Proghdr

/-- Where the first sector of the segment goes. -/
def first (ph : Proghdr) : Nat := (ph.paddr - ph.off % 512).toNat

/-- How many sectors are read for the segment. -/
def count (ph : Proghdr) : Nat := ((ph.paddr + ph.filesz).toNat - ph.first + 511) / sectsize

/-- The sectors of the segment cover the address. -/
abbrev Covers (ph : Proghdr) (a : Nat) : Prop :=
  ph.first ≤ a ∧ a < ph.first + sectsize * ph.count

/-- Which byte of the file the sectors have for the address. -/
def position (ph : Proghdr) (a : Nat) : Nat := sectsize * (ph.off.toNat / 512) + (a - ph.first)

/-- The sectors end in the address space and stay clear of the loader. -/
structure Apart (stack : Nat) (ph : Proghdr) : Prop where
  ends : ph.first + sectsize * ph.count < 4294967296
  clear : ∀ a, ph.Covers a → ¬Loader stack a

/-- What loading the segment does to the memory. -/
def load (disk : Disk) (memory : Memory) (ph : Proghdr) : Memory :=
  (memory.write ph.first
    ((kernelFile disk).read (sectsize * (ph.off.toNat / 512)) (sectsize * ph.count))).write
      (ph.paddr.toNat + ph.filesz.toNat) (List.replicate (ph.memsz.toNat - ph.filesz.toNat) 0)

end Proghdr

/-- The last of the segments whose sectors cover the address. -/
def latest : List Proghdr → Nat → Option Proghdr
  | [], _ => none
  | ph :: later, a => (latest later a).or (if ph.Covers a then some ph else none)

/-- For every byte of the segment the last sector that is read over it has the byte that belongs
there; for a byte behind the segment's part of the file this is about the segments after it. -/
def Spared (disk : Disk) (all : List Proghdr) (ph : Proghdr) (later : List Proghdr) : Prop :=
  (∀ i < ph.filesz.toNat, ∃ last, latest all (ph.paddr.toNat + i) = some last ∧
    kernelFile disk (last.position (ph.paddr.toNat + i)) = kernelFile disk (ph.off.toNat + i)) ∧
  ∀ i, ph.filesz.toNat ≤ i → i < ph.memsz.toNat →
    ∀ last, latest later (ph.paddr.toNat + i) = some last →
      kernelFile disk (last.position (ph.paddr.toNat + i)) = 0

/-! ## Sectors -/

variable {disk : Disk} {memory : Memory}

theorem readsect_eq {dst offset : UInt32} {q : Nat} (number : offset.toNat = q + 1) :
    readsect disk dst offset memory =
      memory.write dst.toNat ((kernelFile disk).read (sectsize * q) sectsize) := by
  have bytes : (List.range sectsize).map (disk offset.toNat) =
      (kernelFile disk).read (sectsize * q) sectsize := by
    rw [Memory.read, List.map_inj_left]
    intro i inside
    have below : i < sectsize := List.mem_range.mp inside
    rw [kernelFile, number, Nat.mul_add_div (by decide), Nat.div_eq_of_lt below, Nat.mul_add_mod,
      Nat.mod_eq_of_lt below, Nat.add_zero]
  rw [readsect, bytes]

theorem readsects_eq {epa pa offset : UInt32} {count fuel q : Nat}
    (sectors : (epa.toNat - pa.toNat + 511) / sectsize = count)
    (ends : pa.toNat + sectsize * count < 4294967296)
    (number : offset.toNat = q + 1) (low : q + count < 4294967295) (enough : count < fuel) :
    readsects disk epa fuel pa offset memory =
      some (memory.write pa.toNat
        ((kernelFile disk).read (sectsize * q) (sectsize * count))) := by
  have size : sectsize = 512 := rfl
  induction count generalizing fuel q pa offset memory with
  | zero =>
      obtain ⟨fuel, rfl⟩ : ∃ turns, fuel = turns + 1 := ⟨fuel - 1, by omega⟩
      have behind : ¬pa < epa := by
        rw [UInt32.lt_iff_toNat_lt]
        rw [size] at sectors
        omega
      rw [readsects, if_neg behind, Nat.mul_zero]
      exact congrArg some (memory.write_nil _).symm
  | succ count inductionHypothesis =>
      obtain ⟨fuel, rfl⟩ : ∃ turns, fuel = turns + 1 := ⟨fuel - 1, by omega⟩
      rw [size] at sectors ends
      have before : pa < epa := by
        rw [UInt32.lt_iff_toNat_lt]
        omega
      have next : (pa + 512).toNat = pa.toNat + 512 := by
        rw [UInt32.toNat_add, show (512 : UInt32).toNat = 512 by rfl]
        omega
      have following : (offset + 1).toNat = q + 1 + 1 := by
        rw [UInt32.toNat_add, UInt32.toNat_one]
        omega
      rw [readsects, if_pos before,
        inductionHypothesis (by rw [size]; omega) (by rw [size]; omega) following (by omega)
          (by omega),
        readsect_eq number, next, Memory.write_next _ (by rw [Memory.length_read, size])]
      rw [Nat.mul_add sectsize q 1, Nat.mul_one, ← Memory.read_append, Nat.mul_succ,
        Nat.add_comm (sectsize * count)]

/-- No segment has more sectors than this. -/
def mostSectors : Nat := 8388608

theorem Proghdr.count_le {stack : Nat} {ph : Proghdr} (apart : ph.Apart stack) :
    ph.count ≤ mostSectors := by
  have ends := apart.ends
  rw [show sectsize = 512 by rfl] at ends
  rw [mostSectors]
  omega

theorem readseg_eq {stack fuel : Nat} {ph : Proghdr} (apart : ph.Apart stack)
    (enough : mostSectors < fuel) :
    readseg disk fuel ph.paddr ph.filesz ph.off memory =
      some (memory.write ph.first
        ((kernelFile disk).read (sectsize * (ph.off.toNat / 512)) (sectsize * ph.count))) := by
  have few := Proghdr.count_le apart
  have many : mostSectors = 8388608 := rfl
  have bound := ph.off.toNat_lt
  have number : (ph.off / 512 + 1).toNat = ph.off.toNat / 512 + 1 := by
    rw [UInt32.toNat_add, UInt32.toNat_div, show (512 : UInt32).toNat = 512 by rfl,
      UInt32.toNat_one]
    omega
  exact readsects_eq rfl apart.ends number (by omega) (by omega)

/-! ## Segments -/

/-- The scratch space holds the first page of the file. -/
def Scratch (disk : Disk) (memory : Memory) : Prop :=
  ∀ x < 4096, memory (65536 + x) = kernelFile disk x

variable {stack : Nat} {ph : Proghdr} {a : Nat}

theorem add_toNat {address : UInt32} {less : Nat} (c : UInt32)
    (inside : address.toNat = less) (low : less + c.toNat < 4294967296) :
    (address + c).toNat = less + c.toNat := by
  rw [UInt32.toNat_add, inside]
  omega

theorem field_scratch (holds : Scratch disk memory) {x width : Nat} (inside : x + width ≤ 4096) :
    memory.load (65536 + x) width = (kernelFile disk).load x width := by
  have bytes : memory.read (65536 + x) width = (kernelFile disk).read x width := by
    rw [Memory.read, Memory.read, List.map_inj_left]
    intro offset member
    have below : offset < width := List.mem_range.mp member
    rw [Nat.add_assoc]
    exact holds _ (by omega)
  rw [Memory.load, bytes]
  rfl

theorem word_scratch (holds : Scratch disk memory) {addr x : UInt32}
    (place : addr.toNat = 65536 + x.toNat) (inside : x.toNat + 4 ≤ 4096) :
    word memory addr = word (kernelFile disk) x := by
  rw [word, place, field_scratch holds inside]
  rfl

theorem proghdr_scratch (holds : Scratch disk memory) {addr x : UInt32}
    (place : addr.toNat = 65536 + x.toNat) (inside : x.toNat + 32 ≤ 4096) :
    proghdr memory addr = proghdr (kernelFile disk) x := by
  have field (c : UInt32) (low : c.toNat ≤ 20) :
      word memory (addr + c) = word (kernelFile disk) (x + c) := by
    have inFile := add_toNat c rfl (show x.toNat + c.toNat < 4294967296 by omega)
    have inScratch := add_toNat c place (by omega)
    exact word_scratch holds (by omega) (by omega)
  rw [proghdr, field 4 (by decide), field 12 (by decide), field 16 (by decide),
    field 20 (by decide), proghdr]

/-- The address is behind the segment's part of the file. -/
abbrev Proghdr.Zeroed (ph : Proghdr) (a : Nat) : Prop :=
  ph.paddr.toNat + ph.filesz.toNat ≤ a ∧ a < ph.paddr.toNat + ph.memsz.toNat

theorem read_covers (covered : ph.Covers a) :
    memory.write ph.first ((kernelFile disk).read (sectsize * (ph.off.toNat / 512))
      (sectsize * ph.count)) a = kernelFile disk (ph.position a) := by
  obtain ⟨offset, rfl⟩ : ∃ offset, a = ph.first + offset := ⟨a - ph.first, by omega⟩
  have below : offset < ((kernelFile disk).read (sectsize * (ph.off.toNat / 512))
      (sectsize * ph.count)).length := by
    rw [Memory.length_read]
    exact Nat.lt_of_add_lt_add_left covered.2
  rw [Memory.write_inside _ _ below, Proghdr.position, Nat.add_sub_cancel_left]
  simp [Memory.read]

theorem read_outside (outside : ¬ph.Covers a) :
    memory.write ph.first ((kernelFile disk).read (sectsize * (ph.off.toNat / 512))
      (sectsize * ph.count)) a = memory a := by
  refine memory.write_outside _ ?_
  rw [Memory.length_read]
  exact (not_and_or.mp outside).imp Nat.lt_of_not_le Nat.le_of_not_lt

theorem load_zeroed (zeroed : ph.Zeroed a) : ph.load disk memory a = 0 := by
  obtain ⟨offset, rfl⟩ : ∃ offset, a = ph.paddr.toNat + ph.filesz.toNat + offset :=
    ⟨a - (ph.paddr.toNat + ph.filesz.toNat), by omega⟩
  have below : offset < (List.replicate (ph.memsz.toNat - ph.filesz.toNat) (0 : UInt8)).length := by
    rw [List.length_replicate]
    omega
  rw [Proghdr.load, Memory.write_inside _ _ below, List.getElem_replicate]

theorem load_kept (kept : ¬ph.Zeroed a) :
    ph.load disk memory a = if ph.Covers a then kernelFile disk (ph.position a) else memory a := by
  have outside : a < ph.paddr.toNat + ph.filesz.toNat ∨ ph.paddr.toNat + ph.filesz.toNat +
      (List.replicate (ph.memsz.toNat - ph.filesz.toNat) (0 : UInt8)).length ≤ a := by
    rw [List.length_replicate]
    omega
  rw [Proghdr.load, Memory.write_outside _ _ outside]
  split
  · next covered => exact read_covers covered
  · next apart => exact read_outside apart

theorem load_scratch (apart : ph.Apart stack)
    (clear : ∀ i < ph.memsz.toNat, ¬Loader stack (ph.paddr.toNat + i))
    (holds : Scratch disk memory) : Scratch disk (ph.load disk memory) := by
  intro x below
  have own : Loader stack (65536 + x) := Or.inr ⟨by omega, by omega⟩
  have kept : ¬ph.Zeroed (65536 + x) := by
    rintro ⟨behind, within⟩
    refine clear (65536 + x - ph.paddr.toNat) (by omega) ?_
    rwa [Nat.add_sub_cancel' (by omega)]
  rw [load_kept kept, if_neg fun covered => apart.clear _ covered own]
  exact holds x below

theorem read_scratch (apart : ph.Apart stack) (holds : Scratch disk memory) :
    Scratch disk (memory.write ph.first ((kernelFile disk).read
      (sectsize * (ph.off.toNat / 512)) (sectsize * ph.count))) := by
  intro x below
  have own : Loader stack (65536 + x) := Or.inr ⟨by omega, by omega⟩
  rw [read_outside fun covered => apart.clear _ covered own]
  exact holds x below

/-- Behind the sectors the loader puts the zeros. -/
theorem stosb_load (inside : ph.paddr.toNat + ph.memsz.toNat ≤ 4294967296) :
    (if ph.memsz > ph.filesz then
      stosb (ph.paddr + ph.filesz) 0 (ph.memsz - ph.filesz) (memory.write ph.first
        ((kernelFile disk).read (sectsize * (ph.off.toNat / 512)) (sectsize * ph.count)))
    else memory.write ph.first ((kernelFile disk).read (sectsize * (ph.off.toNat / 512))
      (sectsize * ph.count))) = ph.load disk memory := by
  rw [Proghdr.load]
  split
  · next more =>
      have longer := UInt32.lt_iff_toNat_lt.mp more
      rw [stosb, add_toNat ph.filesz rfl (by omega),
        UInt32.toNat_sub_of_le _ _ (UInt32.le_of_lt more)]
  · next fewer =>
      have shorter := UInt32.le_iff_toNat_le.mp (UInt32.not_lt.mp fewer)
      rw [Nat.sub_eq_zero_of_le shorter]
      exact (Memory.write_nil _ _).symm

/-- The header of this number. -/
def header (disk : Disk) (k : Nat) : Proghdr :=
  proghdr (kernelFile disk) (word (kernelFile disk) 28 + UInt32.ofNat (32 * k))

theorem loadSegments_eq (kernel : Kernel stack disk) (apart : ∀ ph ∈ segments disk, ph.Apart stack)
    {done rest turns fuel : Nat} {eph addr : UInt32}
    (all : done + rest = (phnum (kernelFile disk) 0).toNat)
    (last : eph.toNat = 65536 + (word (kernelFile disk) 28).toNat + 32 * (done + rest))
    (place : addr.toNat = 65536 + (word (kernelFile disk) 28).toNat + 32 * done)
    (enough : mostSectors < fuel) (left : rest < turns) (holds : Scratch disk memory) :
    loadSegments disk fuel eph turns addr memory =
        some (((List.range' done rest).map (header disk)).foldl (Proghdr.load disk) memory) ∧
      Scratch disk
        (((List.range' done rest).map (header disk)).foldl (Proghdr.load disk) memory) := by
  have headers := kernel.headers
  obtain ⟨turns, rfl⟩ : ∃ few, turns = few + 1 := ⟨turns - 1, by omega⟩
  induction rest generalizing done turns addr memory with
  | zero =>
      have ended : ¬addr < eph := by
        rw [UInt32.lt_iff_toNat_lt]
        omega
      exact ⟨by rw [loadSegments, if_neg ended]; rfl, holds⟩
  | succ rest inductionHypothesis =>
      have more : addr < eph := by
        rw [UInt32.lt_iff_toNat_lt]
        omega
      have inFile : (word (kernelFile disk) 28 + UInt32.ofNat (32 * done)).toNat =
          (word (kernelFile disk) 28).toNat + 32 * done := by
        rw [UInt32.toNat_add, UInt32.toNat_ofNat']
        omega
      have same {between : Memory} (holds : Scratch disk between) :
          proghdr between addr = header disk done :=
        proghdr_scratch holds (by omega) (by omega)
      have next : (addr + proghdrSize).toNat =
          65536 + (word (kernelFile disk) 28).toNat + 32 * (done + 1) := by
        rw [add_toNat proghdrSize place (by rw [show proghdrSize.toNat = 32 by rfl]; omega),
          show proghdrSize.toNat = 32 by rfl]
        omega
      have member : header disk done ∈ segments disk :=
        List.mem_map.mpr ⟨done, List.mem_range.mpr (by omega), rfl⟩
      obtain ⟨rests, kept⟩ := inductionHypothesis (by omega) (by omega) next
        (load_scratch (apart _ member) (kernel.clear _ member) holds) (turns - 1) (by omega)
      obtain ⟨turns, rfl⟩ : ∃ few, turns = few + 1 := ⟨turns - 1, by omega⟩
      rw [List.range'_succ, List.map_cons, List.foldl_cons]
      refine ⟨?_, kept⟩
      rw [loadSegments, if_pos more, same holds]
      simp only [bind, Option.bind, readseg_eq (apart _ member) enough,
        same (read_scratch (apart _ member) holds), stosb_load (kernel.inside _ member)]
      exact rests

/-- The memory at the entry point. -/
def loaded (disk : Disk) (memory : Memory) : Memory :=
  (segments disk).foldl (Proghdr.load disk) (memory.write 65536 ((kernelFile disk).read 0 4096))

theorem phnum_lt (memory : Memory) (elf : UInt32) : (phnum memory elf).toNat < 65536 := by
  rw [phnum, UInt32.toNat_ofNat']
  exact Nat.lt_of_le_of_lt (Nat.mod_le _ _) (memory.load_lt (elf + 44).toNat 2)

/-- The first page of the file is read to the scratch area. -/
theorem readseg_page {fuel : Nat} (enough : mostSectors < fuel) (memory : Memory) :
    readseg disk fuel scratch 4096 0 memory =
      some (memory.write 65536 ((kernelFile disk).read 0 4096)) := by
  have many : mostSectors = 8388608 := rfl
  have sectors : ((scratch + 4096).toNat - scratch.toNat + 511) / sectsize = 8 := by decide
  have aligned : scratch - 0 % 512 = scratch := by decide
  have number : ((0 : UInt32) / 512 + 1).toNat = 0 + 1 := by decide
  have place : scratch.toNat = 65536 := rfl
  have size : sectsize = 512 := rfl
  have read := @readsects_eq disk memory _ _ _ _ fuel _ sectors
    (by rw [place, size]; omega) number (by omega) (by omega)
  rw [place, size] at read
  rw [readseg, aligned]
  exact read

theorem scratch_page (memory : Memory) :
    Scratch disk (memory.write 65536 ((kernelFile disk).read 0 4096)) := by
  intro x below
  have inside : x < ((kernelFile disk).read 0 4096).length := by
    rw [Memory.length_read]
    exact below
  rw [Memory.write_inside _ _ inside]
  simp [Memory.read]

theorem bootmain_eq (kernel : Kernel stack disk) (apart : ∀ ph ∈ segments disk, ph.Apart stack)
    {fuel : Nat} (enough : mostSectors < fuel) (memory : Memory) :
    bootmain disk fuel memory =
      some (.entered (word (kernelFile disk) 24) (loaded disk memory)) := by
  have headers := kernel.headers
  have many : mostSectors = 8388608 := rfl
  have few := phnum_lt (kernelFile disk) 0
  have holds := @scratch_page disk memory
  have start : (scratch + word (kernelFile disk) 28).toNat =
      65536 + (word (kernelFile disk) 28).toNat :=
    add_toNat _ rfl (by omega)
  have finish : (scratch + word (kernelFile disk) 28 +
      phnum (kernelFile disk) 0 * proghdrSize).toNat =
        65536 + (word (kernelFile disk) 28).toNat + 32 * (phnum (kernelFile disk) 0).toNat := by
    rw [UInt32.toNat_add, UInt32.toNat_mul, start, show proghdrSize.toNat = 32 by rfl]
    omega
  have count : phnum (memory.write 65536 ((kernelFile disk).read 0 4096)) scratch =
      phnum (kernelFile disk) 0 := by
    rw [phnum, show (scratch + 44).toNat = 65536 + 44 by decide,
      field_scratch holds (show 44 + 2 ≤ 4096 by decide), phnum,
      show ((0 : UInt32) + 44).toNat = 44 by decide]
  obtain ⟨all, kept⟩ := loadSegments_eq kernel apart (Nat.zero_add _) (by rw [finish, Nat.zero_add])
    start enough (show _ < fuel by omega) holds
  rw [← List.range_eq_range'] at all kept
  rw [bootmain, readseg_page enough]
  simp only [bind, Option.bind, pure]
  rw [word_scratch holds (show scratch.toNat = 65536 + (0 : UInt32).toNat by rfl) (by decide),
    if_neg (fun other => other kernel.magic), count,
    word_scratch holds (show (scratch + 28).toNat = 65536 + (28 : UInt32).toNat by rfl) (by decide),
    all]
  simp only
  rw [word_scratch kept (show (scratch + 24).toNat = 65536 + (24 : UInt32).toNat by rfl)
    (by decide)]
  rfl

/-! ## When every segment is as in the file -/

/-- Where no segment puts a zero, the last sector decides. -/
theorem foldl_load {segs : List Proghdr} (kept : ∀ ph ∈ segs, ¬ph.Zeroed a) (memory : Memory) :
    segs.foldl (Proghdr.load disk) memory a =
      match latest segs a with
      | some last => kernelFile disk (last.position a)
      | none => memory a := by
  induction segs generalizing memory with
  | nil => rfl
  | cons ph later inductionHypothesis =>
      rw [List.foldl_cons,
        inductionHypothesis fun q member => kept q (List.mem_cons_of_mem _ member), latest]
      cases latest later a with
      | some last => rfl
      | none =>
          rw [Option.none_or, load_kept (kept ph List.mem_cons_self)]
          by_cases covered : ph.Covers a
          · rw [if_pos covered, if_pos covered]
          · rw [if_neg covered, if_neg covered]

/-- No other segment puts a zero into the memory of a segment. -/
theorem zeroed_apart (kernel : Kernel stack disk) {before later : List Proghdr}
    (split : segments disk = before ++ ph :: later) {i : Nat} (inside : i < ph.memsz.toNat) :
    (∀ q ∈ before, ¬q.Zeroed (ph.paddr.toNat + i)) ∧
      ∀ q ∈ later, ¬q.Zeroed (ph.paddr.toNat + i) := by
  have increasing := kernel.increasing
  rw [split, List.pairwise_append, List.pairwise_cons] at increasing
  obtain ⟨-, ⟨behind, -⟩, ahead⟩ := increasing
  have some_memory : ph.memsz ≠ 0 := by
    intro none
    rw [none] at inside
    exact absurd inside (Nat.not_lt_zero _)
  have none_zeroed {q : Proghdr} (none : q.memsz = 0) : ¬q.Zeroed (ph.paddr.toNat + i) := by
    rintro ⟨low, high⟩
    rw [none, UInt32.toNat_zero] at high
    omega
  constructor
  · intro q member
    rcases ahead q member ph List.mem_cons_self with none | none | order
    · exact none_zeroed none
    · exact absurd none some_memory
    · exact fun zeroed => absurd zeroed.2 (by omega)
  · intro q member
    rcases behind q member with none | none | order
    · exact absurd none some_memory
    · exact none_zeroed none
    · exact fun zeroed => absurd zeroed.1 (by omega)

/-- No segment puts a zero over what a segment has from the file. -/
theorem kept_inFile (kernel : Kernel stack disk) {before later : List Proghdr}
    (split : segments disk = before ++ ph :: later) {i : Nat} (inFile : i < ph.filesz.toNat)
    (inside : i < ph.memsz.toNat) : ∀ q ∈ segments disk, ¬q.Zeroed (ph.paddr.toNat + i) := by
  obtain ⟨ahead, after⟩ := zeroed_apart kernel split inside
  intro q listed
  rw [split, List.mem_append, List.mem_cons] at listed
  rcases listed with earlier | rfl | later
  · exact ahead q earlier
  · exact fun zeroed => absurd zeroed.1 (by omega)
  · exact after q later

theorem loaded_outside (clear : ¬Loader stack a) (kept : ∀ ph ∈ segments disk, ¬ph.Zeroed a) :
    loaded disk memory a =
      match latest (segments disk) a with
      | some last => kernelFile disk (last.position a)
      | none => memory a := by
  have outside : a < 65536 ∨ 65536 + ((kernelFile disk).read 0 4096).length ≤ a := by
    rw [Memory.length_read]
    by_contra within
    exact clear (Or.inr ⟨by omega, by omega⟩)
  rw [loaded, foldl_load kept, Memory.write_outside _ _ outside]

theorem loads_iff (kernel : Kernel stack disk) :
    (∀ memory, Loads disk (loaded disk memory)) ↔
      ∀ before ph later, segments disk = before ++ ph :: later →
        Spared disk (segments disk) ph later := by
  constructor
  · intro loads before ph later split
    have member : ph ∈ segments disk := by
      rw [split]
      exact List.mem_append_right _ List.mem_cons_self
    have sizes := UInt32.le_iff_toNat_le.mp (kernel.sizes ph member)
    refine ⟨fun i inside => ?_, fun i behind inside last found => ?_⟩
    · have within : i < ph.memsz.toNat := by omega
      -- a memory with another byte everywhere
      have right := loads (fun _ => kernelFile disk (ph.off.toNat + i) + 1) ph member i within
      rw [loaded_outside (kernel.clear ph member i within) (kept_inFile kernel split inside within),
        if_pos inside] at right
      cases found : latest (segments disk) (ph.paddr.toNat + i) with
      | some last =>
          rw [found] at right
          exact ⟨last, rfl, right⟩
      | none =>
          rw [found] at right
          exact absurd right (by simp)
    · obtain ⟨-, after⟩ := zeroed_apart kernel split inside
      have right := loads (fun _ => 0) ph member i inside
      rw [if_neg (by omega), loaded, split, List.foldl_append, List.foldl_cons, foldl_load after,
        found] at right
      exact right
  · intro spared memory ph member i inside
    obtain ⟨before, later, split⟩ := List.append_of_mem member
    obtain ⟨filled, zeros⟩ := spared before ph later split
    obtain ⟨-, after⟩ := zeroed_apart kernel split inside
    by_cases inFile : i < ph.filesz.toNat
    · obtain ⟨last, found, same⟩ := filled i inFile
      rw [loaded_outside (kernel.clear ph member i inside) (kept_inFile kernel split inFile inside),
        found, if_pos inFile]
      exact same
    · have zeroed : ph.Zeroed (ph.paddr.toNat + i) := ⟨by omega, by omega⟩
      rw [if_neg inFile, loaded, split, List.foldl_append, List.foldl_cons, foldl_load after,
        load_zeroed zeroed]
      cases found : latest later (ph.paddr.toNat + i) with
      | some last => exact zeros i (by omega) inside last found
      | none => rfl

/-- With all sectors in the address space and clear of the loader, `bootmain` enters a kernel as
it is in the file exactly if no sector that is read later spoils a byte. -/
theorem bootmain_loads_iff (kernel : Kernel stack disk)
    (apart : ∀ ph ∈ segments disk, ph.Apart stack) :
    (∀ memory, ∃ enough, ∀ fuel > enough, ∃ final,
      bootmain disk fuel memory = some (.entered (word (kernelFile disk) 24) final) ∧
        Loads disk final) ↔
      ∀ before ph later, segments disk = before ++ ph :: later →
        Spared disk (segments disk) ph later := by
  rw [← loads_iff kernel]
  constructor
  · intro boots memory
    obtain ⟨enough, all⟩ := boots memory
    obtain ⟨final, run, loads⟩ := all (enough + mostSectors + 1) (by omega)
    rw [bootmain_eq kernel apart (by omega)] at run
    cases run
    exact loads
  · intro loads memory
    exact ⟨mostSectors, fun fuel enough =>
      ⟨_, bootmain_eq kernel apart enough memory, loads memory⟩⟩

/-- Two segments of 16 bytes at 1 MB, the second at the offset 0x400 or a little later. The file
has ones in its second sector. -/
def neighbours (off : UInt8) : Disk := fun sector i =>
  if sector = 1 then
    ([0x7F, 0x45, 0x4C, 0x46] ++ List.replicate 20 0 ++ [0, 0, 0x10, 0, 52, 0, 0, 0] ++
      List.replicate 12 0 ++ [2, 0] ++ List.replicate 6 0 ++
      [1, 0, 0, 0, 0, 2, 0, 0] ++ List.replicate 4 0 ++ [0, 0, 0x10, 0, 16, 0, 0, 0, 16, 0, 0, 0] ++
      List.replicate 8 0 ++
      [1, 0, 0, 0, off, 4, 0, 0] ++ List.replicate 4 0 ++
      [16, 0, 0x10, 0, 16, 0, 0, 0, 16, 0, 0, 0] ++ List.replicate 8 0).getD i 0
  else if sector = 2 then 1
  else 0

theorem kernel_neighbours {off : UInt8} {second : UInt32}
    (magic : word (kernelFile (neighbours off)) 0 = elfMagic)
    (headers : (word (kernelFile (neighbours off)) 28).toNat +
      32 * (phnum (kernelFile (neighbours off)) 0).toNat ≤ 4096)
    (listed : segments (neighbours off) =
      [⟨0x200, 0x100000, 16, 16⟩, ⟨second, 0x100010, 16, 16⟩]) :
    Kernel 256 (neighbours off) where
  magic := magic
  headers := headers
  sizes := by
    rw [listed]
    simp
  inside := by
    rw [listed]
    simp
  increasing := by
    rw [listed]
    simp
  clear := by
    rw [listed]
    intro ph member i inside
    have high : 1048576 ≤ ph.paddr.toNat := by
      rcases List.mem_cons.mp member with rfl | last
      · decide
      · rw [List.mem_singleton.mp last]
        exact show 1048576 ≤ (0x100010 : UInt32).toNat by decide
    rintro (⟨-, low⟩ | ⟨-, low⟩)
    · omega
    · omega

theorem apart_high {disk : Disk} (high : ∀ ph ∈ segments disk, 1048576 ≤ ph.first)
    (ends : ∀ ph ∈ segments disk, ph.first + sectsize * ph.count < 4294967296) :
    ∀ ph ∈ segments disk, ph.Apart 256 := by
  intro ph member
  have start := high ph member
  refine ⟨ends ph member, fun a covered => ?_⟩
  rintro (⟨-, low⟩ | ⟨-, low⟩)
  · omega
  · omega

theorem bootmain_loads_iff_aligned :
    ∃ disk, Kernel 256 disk ∧
      ((∀ memory, ∃ enough, ∀ fuel > enough, ∃ final,
        bootmain disk fuel memory = some (.entered (word (kernelFile disk) 24) final) ∧
          Loads disk final) ↔
        ∀ before ph later, segments disk = before ++ ph :: later →
          Spared disk (segments disk) ph later) := by
  have listed : segments (neighbours 0) =
      [⟨0x200, 0x100000, 16, 16⟩, ⟨0x400, 0x100010, 16, 16⟩] := by decide +kernel
  have kernel : Kernel 256 (neighbours 0) :=
    kernel_neighbours (by decide +kernel) (by decide +kernel) listed
  refine ⟨neighbours 0, kernel, bootmain_loads_iff kernel (apart_high ?_ ?_)⟩
  · rw [listed]
    decide
  · rw [listed]
    decide

/-- The second segment is loaded with 16 bytes in front of it, over the first one. -/
theorem bootmain_spoils :
    ∃ disk, Kernel 256 disk ∧ ∀ memory, ∃ enough, ∀ fuel > enough, ∃ final,
      bootmain disk fuel memory = some (.entered (word (kernelFile disk) 24) final) ∧
        ¬Loads disk final := by
  have listed : segments (neighbours 16) =
      [⟨0x200, 0x100000, 16, 16⟩, ⟨0x410, 0x100010, 16, 16⟩] := by decide +kernel
  have kernel : Kernel 256 (neighbours 16) :=
    kernel_neighbours (by decide +kernel) (by decide +kernel) listed
  have apart : ∀ ph ∈ segments (neighbours 16), ph.Apart 256 := by
    refine apart_high ?_ ?_
    · rw [listed]
      decide
    · rw [listed]
      decide
  have member : ⟨0x200, 0x100000, 16, 16⟩ ∈ segments (neighbours 16) := by
    rw [listed]
    exact List.mem_cons_self
  refine ⟨neighbours 16, kernel, fun memory => ⟨mostSectors, fun fuel enough =>
    ⟨_, bootmain_eq kernel apart enough memory, fun loads => ?_⟩⟩⟩
  have wrong : ∃ last, latest (segments (neighbours 16)) 0x100000 = some last ∧
      kernelFile (neighbours 16) (last.position 0x100000) ≠ kernelFile (neighbours 16) 0x200 := by
    rw [listed]
    exact ⟨⟨0x410, 0x100010, 16, 16⟩, by decide, by decide +kernel⟩
  obtain ⟨last, found, differs⟩ := wrong
  have right : loaded (neighbours 16) memory 0x100000 = kernelFile (neighbours 16) 0x200 :=
    loads _ member 0 (by decide)
  have clear : ¬Loader 256 0x100000 := by
    rintro (⟨-, low⟩ | ⟨-, low⟩) <;> omega
  rw [loaded_outside clear (by rw [listed]; decide), found] at right
  exact differs right

end Xv6.Bootmain
