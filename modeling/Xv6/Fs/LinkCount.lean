import Xv6.Fs.Walks

/-!
# How many names a node can have

Each name takes an entry of some block, and no two names take the same. So a
count of links that is the number of names fits into a short.
-/

namespace Xv6.Path

open Xv6.Library Xv6.Fs

/-- Block `code.1` has the name at the place `code.2`. -/
structure NamedAt (fs : FileSystem) (place : Nat × List UInt8) (i : Nat) (code : Nat × Nat) :
    Prop where
  block : fs.sb.dataStart ≤ code.1 ∧ code.1 < fs.sb.size
  index : code.2 < 32
  entry : ∃ array bn, Directory fs place.1 array ∧
    entries array (32 * bn + code.2) = some (place.2, i) ∧
      fs.number (slotOf place.1 bn) = code.1

section Names

variable {volume : Volume} {fs : FsState} {i d : Nat} {first second place : Nat × List UInt8}
  {code : Nat × Nat}

theorem NamedAt.unique {fs : FileSystem} (consistent : Consistent none nowhere fs)
    (one : NamedAt fs first i code) (two : NamedAt fs second i code) : first = second := by
  obtain ⟨array, bn, directory, entry, number⟩ := one.entry
  obtain ⟨array', bn', directory', entry', number'⟩ := two.entry
  have nonzero : code.1 ≠ 0 := by
    have start := consistent.layout.start
    have order := consistent.layout.order
    have map := bmapstart_lt_dataStart fs.sb
    have above := one.block.1
    omega
  have same := consistent.owned.once _ _ code.1 ⟨⟨nonzero, number⟩, fun gone => gone⟩
    ⟨⟨nonzero, number'⟩, fun gone => gone⟩
  obtain ⟨inums, slots⟩ := slotOf_inj same
  subst slots
  rw [← inums] at directory'
  cases file_unique directory.file directory'.file
  rw [entry] at entry'
  exact Prod.ext inums (congrArg Prod.fst (Option.some.inj entry'))

theorem Shows.namedAt (shows : Shows volume fs) (member : place ∈ scheme.places volume.naming i) :
    ∃ code, NamedAt fs.toFileSystem place i code := by
  obtain ⟨d, name⟩ := place
  obtain ⟨isDirectory, -, bound⟩ := member
  have inside := (shows.inside isDirectory.live.1).2
  obtain ⟨array, directory, -, bindings⟩ := (shows.inodes inside).directory isDirectory.1
  rw [← bindings] at bound
  obtain ⟨j, entry⟩ := (directory.distinct.lookup_iff directory.within).mp bound
  have below := directory.within.lt entry
  have allocated := directory.file.allocated (direntSize * j) (by
    rw [directory.length]
    exact Nat.mul_lt_mul_of_pos_left below (by decide))
  have block : direntSize * j / bsize = j / 32 := by
    simp only [direntSize, bsize]
    omega
  rw [block] at allocated
  have given := shows.sound.consistent.owned.given _ _
    ⟨⟨allocated, rfl⟩, fun gone => gone⟩
  refine ⟨(fs.number (slotOf d (j / 32)), j % 32), ⟨given.start, given.size⟩,
    Nat.mod_lt _ (by decide), array, j / 32, directory, ?_, rfl⟩
  rw [Nat.div_add_mod]
  exact entry

/-- A block has 32 entries. -/
theorem Shows.links_le (shows : Shows volume fs) (consistent : scheme.Consistent volume.naming)
    (live : scheme.Live volume.naming i) : volume.naming.links i ≤ 32 * fs.sb.size := by
  classical
  choose! code named using fun place => @Shows.namedAt volume fs i place shows
  have injective : Set.InjOn code (scheme.places volume.naming i) := by
    intro first member second member' same
    exact (named first member).unique shows.sound.consistent (same ▸ named second member')
  have into : Set.MapsTo code (scheme.places volume.naming i)
      (Finset.range fs.sb.size ×ˢ Finset.range 32 : Finset (Nat × Nat)) := by
    intro place member
    have known := named place member
    simp only [Finset.coe_product, Set.mem_prod, Finset.mem_coe, Finset.mem_range]
    exact ⟨known.block.2, known.index⟩
  have count := Set.encard_le_encard_of_injOn into injective
  rw [Set.encard_coe_eq_coe_finsetCard, Finset.card_product, Finset.card_range, Finset.card_range,
    consistent.counted live] at count
  rw [Nat.mul_comm]
  exact_mod_cast count

/-- No count of links is negative, and one more still fits. -/
theorem Shows.links_lt (shows : Shows volume fs) (consistent : scheme.Consistent volume.naming)
    (live : scheme.Live volume.naming i) : volume.naming.links i < 2 ^ 15 :=
  Nat.lt_of_le_of_lt (shows.links_le consistent live) shows.small

end Names

end Xv6.Path
