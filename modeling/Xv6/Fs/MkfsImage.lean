import Xv6.Fs.MkfsAppend

/-!
# What `mkfs` builds

Every inode of the image has the blocks of its content, and no other block. But
the size of the root directory is rounded up to the block after the last entry,
and that block is missing when the entries fill their blocks.
-/

namespace Xv6.Fs.Mkfs

open Xv6.Library

/-! ## Inodes on the image -/

/-- The inodes as the image has them. -/
def table (m : Mkfs) (inum : Nat) : Dinode := dinodeOf (m.image (sb.iblock inum)) inum

theorem iblock_region {inum : Nat} (inside : inum < ninodes) :
    1 < sb.iblock inum ∧ sb.iblock inum < sb.bmapstart := by
  have quotient : inum / ipb < ninodeblocks := by
    rw [Nat.div_lt_iff_lt_mul (by decide)]
    exact Nat.lt_of_lt_of_le inside (by decide)
  have start : sb.inodestart = 32 := by decide
  have map : sb.bmapstart = sb.inodestart + ninodeblocks := by decide
  have positive := Nat.zero_le (inum / ipb)
  rw [Superblock.iblock]
  omega

theorem bmapstart_lt : sb.bmapstart < nmeta ∧ nmeta < fsSize := by decide

/-- The disk as the kernel finds it, with an empty inode cache. -/
def disk (m : Mkfs) : FileSystem where
  block := m.image
  sb := sb
  inode := fun _ =>
    { type := 0, major := 0, minor := 0, nlink := 0, size := 0, addrs := fun _ => 0, inum := 0,
      ref := 0, valid := false }

theorem putDinode_stat (data : Block) (i : Nat) {dinode : Dinode} (type : dinode.type < 2 ^ 16)
    (size : dinode.size < 2 ^ 32) :
    (dinodeOf (putDinode data i dinode) i).type = dinode.type ∧
      (dinodeOf (putDinode data i dinode) i).size = dinode.size := by
  unfold putDinode
  refine forLoop_invariant (fun _ (current : Block) =>
    current.load (dinodeOffset i) 2 = dinode.type ∧
      current.load (dinodeOffset i + 8) 4 = dinode.size) ⟨?_, ?_⟩ ?_
  · rw [Memory.load_store_disjoint _ _ (by omega), Memory.load_store_disjoint _ _ (by omega),
      Memory.load_store_disjoint _ _ (by omega), Memory.load_store_disjoint _ _ (by omega),
      Memory.load_store_fits _ _ (by simpa using type)]
  · rw [Memory.load_store_fits _ _ (by simpa using size)]
  · intro k current _ same
    rw [Memory.load_store_disjoint _ _ (by omega), Memory.load_store_disjoint _ _ (by omega)]
    exact same

/-- After `winode`: the inode is `din`, and everything else is as before. -/
structure Wrote (inum : Nat) (din : Dinode) (m next : Mkfs) : Prop where
  addrs : ∀ i < ninodes, ∀ k ≤ ndirect,
    (table next i).addrs k = (Function.update (table m) inum din i).addrs k
  type : ∀ i < ninodes, (table next i).type = (Function.update (table m) inum din i).type
  size : ∀ i < ninodes, (table next i).size = (Function.update (table m) inum din i).size
  image : ∀ b, b ≤ 1 ∨ sb.bmapstart ≤ b → next.image b = m.image b
  freeblock : next.freeblock = m.freeblock
  freeinode : next.freeinode = m.freeinode

theorem winode_wrote {inum : Nat} (inside : inum < ninodes) (din : Dinode) (m : Mkfs)
    (type : din.type < 2 ^ 16) (size : din.size < 2 ^ 32)
    (addrs : ∀ k ≤ ndirect, din.addrs k < 2 ^ 32) :
    ∃ next, winode inum din m = .done () next ∧ Wrote inum din m next := by
  have region := iblock_region inside
  have bitmap := bmapstart_lt
  obtain ⟨next, ran, image, freeblock, freeinode⟩ : ∃ next, winode inum din m = .done () next ∧
      next.image = Function.update m.image (sb.iblock inum)
        (putDinode (m.image (sb.iblock inum)) inum din) ∧
      next.freeblock = m.freeblock ∧ next.freeinode = m.freeinode := by
    rw [winode, Action.bind_done (rsect_eq (by omega) m)]
    exact ⟨_, wsect_eq _ _ m, rfl, rfl, rfl⟩
  have here : table next inum = dinodeOf (putDinode (m.image (sb.iblock inum)) inum din) inum := by
    rw [table, image, Function.update_self]
  have written : ∀ i, table next i = ((disk m).setBlock ((disk m).sb.iblock inum)
      (putDinode (m.image (sb.iblock inum)) inum din)).dinode i := by
    intro i
    rw [table, image]
    rfl
  have outside : ∀ location, location < dinodeOffset inum ∨ dinodeOffset inum + 64 ≤ location →
      putDinode (m.image (sb.iblock inum)) inum din location =
        (disk m).block ((disk m).sb.iblock inum) location := fun location =>
    putDinode_outside _ _ _
  have stat := putDinode_stat (m.image (sb.iblock inum)) inum type size
  refine ⟨next, ran, ?_, ?_, ?_, ?_, freeblock, freeinode⟩
  · intro i below k slot
    by_cases mine : i = inum
    · subst mine
      rw [Function.update_self, here]
      exact putDinode_addrs _ _ addrs slot
    · rw [Function.update_of_ne mine, written]
      exact dinode_addrs_setBlock outside mine slot
  · intro i below
    by_cases mine : i = inum
    · subst mine
      rw [Function.update_self, here]
      exact stat.1
    · rw [Function.update_of_ne mine, written]
      exact (dinode_stat_setBlock outside mine).1
  · intro i below
    by_cases mine : i = inum
    · subst mine
      rw [Function.update_self, here]
      exact stat.2
    · rw [Function.update_of_ne mine, written]
      exact (dinode_stat_setBlock outside mine).2
  · intro b away
    rw [image]
    exact Function.update_of_ne (by omega) ..

theorem rinode_eq {inum : Nat} (inside : inum < ninodes) (m : Mkfs) :
    rinode inum m = .done (table m inum) m := by
  have region := iblock_region inside
  have bitmap := bmapstart_lt
  rw [rinode, Action.bind_done (rsect_eq (by omega) m)]
  rfl

theorem Filled.congr {first second : Nat → Dinode} {image after : Nat → Block} {freeblock : Nat}
    {count : Nat → Nat} {contents : Nat → List UInt8}
    (filled : Filled first image freeblock count contents)
    (addrs : ∀ i < ninodes, ∀ k ≤ ndirect, (second i).addrs k = (first i).addrs k)
    (data : ∀ b, nmeta ≤ b → after b = image b) :
    Filled second after freeblock count contents := by
  have numbers : number second after = number first image := by
    funext place
    refine number_congr addrs (fun i below indirect => data _ ?_) place
    have there : number first image (.addr i ndirect) = (first i).addrs ndirect :=
      if_pos ⟨below, Nat.le_refl _⟩
    rw [← there]
    exact (filled.distinct.region _ (by rw [there]; exact indirect)).1
  refine ⟨filled.start, ?_, ?_, ?_, ?_, filled.within, ?_, filled.total⟩
  · intro b free below
    rw [data b (Nat.le_trans filled.start free)]
    exact filled.fresh b free below
  · rw [numbers]
    exact filled.distinct
  · rw [numbers]
    exact filled.covered
  · rw [numbers]
    exact filled.indirect
  · intro i below o covered
    have there := (filled.covered i below _).mpr covered
    rw [numbers, data _ (filled.distinct.region _ there).1]
    exact filled.bytes i below o covered

/-! ## Between two calls -/

/-- Every inode has its type, its size, and the blocks of its content. -/
structure AtRest (types : Nat → Nat) (contents : Nat → List UInt8) (m : Mkfs) : Prop where
  filled : Filled (table m) m.image m.freeblock (fun i => needed (contents i).length) contents
  size : ∀ i < ninodes, (table m i).size = (contents i).length
  type : ∀ i < ninodes, (table m i).type = types i
  super : superblockOf (m.image 1) = sb

section AtRest

variable {types budget : Nat → Nat} {contents : Nat → List UInt8} {inum : Nat} {m : Mkfs}

/-- The slots of an inode hold blocks of the image. -/
theorem Filled.addrs_lt {table : Nat → Dinode} {image : Nat → Block} {freeblock : Nat}
    {count : Nat → Nat} (filled : Filled table image freeblock count contents)
    (full : freeblock ≤ fsSize) (inside : inum < ninodes) :
    ∀ k ≤ ndirect, (table inum).addrs k < 2 ^ 32 := by
  intro k slot
  by_cases empty : (table inum).addrs k = 0
  · rw [empty]
    decide
  · have there : number table image (.addr inum k) = (table inum).addrs k := if_pos ⟨inside, slot⟩
    have region := filled.distinct.region (.addr inum k) (by rw [there]; exact empty)
    rw [there] at region
    have small : fsSize < 2 ^ 32 := by decide
    omega

theorem iappend_appends (affordable : Affordable budget) (limit : ∀ i, budget i ≤ maxFile)
    (named : ∀ i, types i < 2 ^ 16) (atRest : AtRest types contents m) (inside : inum < ninodes)
    (within : ∀ i < ninodes, needed (contents i).length ≤ budget i) {p : List UInt8}
    (room : needed ((contents inum).length + p.length) ≤ budget inum) :
    ∃ next, iappend inum p m = .done () next ∧
      AtRest types (Function.update contents inum (contents inum ++ p)) next ∧
      next.freeinode = m.freeinode := by
  have filled := atRest.filled
  rw [← Function.update_eq_self inum (table m)] at filled
  obtain ⟨later, middle, ran, grown, appends⟩ :=
    iappendFrom_fills affordable inside (limit inum) (Nat.le_refl p.length) filled within rfl room
  have counts : Function.update (fun i => needed (contents i).length) inum
      (needed ((contents inum).length + p.length)) =
        fun i => needed (Function.update contents inum (contents inum ++ p) i).length := by
    funext i
    by_cases mine : i = inum
    · subst mine
      rw [Function.update_self, Function.update_self, List.length_append]
    · rw [Function.update_of_ne mine, Function.update_of_ne mine]
  have more := within_update within room
  have full := grown.freeblock_le (affordable.mono more)
  have type : later.type = (table m inum).type := by rw [appends.inode]
  have length := length_le_of_needed (Nat.le_trans room (limit inum))
  have bitmap := bmapstart_lt
  have same : ∀ i < ninodes, table middle i = table m i := by
    intro i below
    have region := iblock_region below
    rw [table, table, appends.metadata _ (by omega)]
  obtain ⟨next, stored, wrote⟩ := winode_wrote inside
    { later with size := (contents inum).length + p.length } middle
    (by
      change later.type < 2 ^ 16
      rw [type, atRest.type inum inside]
      exact named inum)
    (Nat.lt_of_le_of_lt length (by decide))
    (by
      have fits := grown.addrs_lt full inside
      rw [Function.update_self] at fits
      exact fits)
  rw [counts] at grown
  refine ⟨next, ?_, ⟨?_, ?_, ?_, ?_⟩, wrote.freeinode.trans appends.freeinode⟩
  · rw [iappend, Action.bind_done (rinode_eq inside m), atRest.size inum inside,
      Action.bind_done ran]
    exact stored
  · rw [wrote.freeblock]
    refine grown.congr (fun i below k slot => ?_) fun b data => wrote.image b (Or.inr (by omega))
    rw [wrote.addrs i below k slot]
    by_cases mine : i = inum
    · subst mine
      rw [Function.update_self, Function.update_self]
    · rw [Function.update_of_ne mine, Function.update_of_ne mine, same i below]
  · intro i below
    rw [wrote.size i below]
    by_cases mine : i = inum
    · subst mine
      rw [Function.update_self, Function.update_self, List.length_append]
    · rw [Function.update_of_ne mine, Function.update_of_ne mine, same i below, atRest.size i below]
  · intro i below
    rw [wrote.type i below]
    by_cases mine : i = inum
    · subst mine
      rw [Function.update_self]
      exact type.trans (atRest.type i below)
    · rw [Function.update_of_ne mine, same i below, atRest.type i below]
  · rw [wrote.image 1 (Or.inl (Nat.le_refl _)), appends.metadata 1 (by decide), atRest.super]

/-- The next inode is given a type, and is empty. -/
theorem ialloc_allocates {type : Nat} (named : type < 2 ^ 16) (atRest : AtRest types contents m)
    (inside : m.freeinode < ninodes)
    (empty : contents m.freeinode = []) :
    ∃ next, ialloc type m = .done m.freeinode next ∧
      AtRest (Function.update types m.freeinode type) contents next ∧
      next.freeinode = m.freeinode + 1 := by
  have bitmap := bmapstart_lt
  obtain ⟨next, stored, wrote⟩ := winode_wrote inside
    { type := type, major := 0, minor := 0, nlink := 1, size := 0, addrs := fun _ => 0 }
    { m with freeinode := m.freeinode + 1 } named (Nat.two_pow_pos 32)
    (fun _ _ => Nat.two_pow_pos 32)
  have blank : ∀ k ≤ ndirect, (table m m.freeinode).addrs k = 0 := by
    intro k slot
    have none : needed (contents m.freeinode).length = 0 := by
      rw [empty]
      rfl
    by_cases direct : k < ndirect
    · have absent := (atRest.filled.covered _ inside k).mp.mt (by rw [none]; exact Nat.not_lt_zero _)
      rw [number_slot _ _ direct inside] at absent
      exact of_not_not absent
    · obtain rfl : k = ndirect := by omega
      have absent := (atRest.filled.indirect _ inside).mp.mt (by rw [none]; exact Nat.not_lt_zero _)
      rw [number, if_pos ⟨inside, slot⟩] at absent
      exact of_not_not absent
  refine ⟨next, ?_, ⟨?_, ?_, ?_, ?_⟩, wrote.freeinode⟩
  · rw [ialloc, Action.get_bind, Action.modify_bind, Action.bind_done stored]
    rfl
  · rw [wrote.freeblock]
    refine atRest.filled.congr (fun i below k slot => ?_) fun b data =>
      wrote.image b (Or.inr (by omega))
    rw [wrote.addrs i below k slot]
    by_cases mine : i = m.freeinode
    · subst mine
      rw [Function.update_self, blank k slot]
    · rw [Function.update_of_ne mine]
      rfl
  · intro i below
    rw [wrote.size i below]
    by_cases mine : i = m.freeinode
    · subst mine
      rw [Function.update_self, empty]
      rfl
    · rw [Function.update_of_ne mine]
      exact atRest.size i below
  · intro i below
    rw [wrote.type i below]
    by_cases mine : i = m.freeinode
    · subst mine
      rw [Function.update_self, Function.update_self]
    · rw [Function.update_of_ne mine, Function.update_of_ne mine]
      exact atRest.type i below
  · rw [wrote.image 1 (Or.inl (Nat.le_refl _))]
    exact atRest.super

/-- The chunks that `read` gives are appended one after the other. -/
theorem appendContents_appends (affordable : Affordable budget) (limit : ∀ i, budget i ≤ maxFile)
    (named : ∀ i, types i < 2 ^ 16) (inside : inum < ninodes) {fuel : Nat} {p : List UInt8}
    (fueled : p.length < fuel) (atRest : AtRest types contents m)
    (within : ∀ i < ninodes, needed (contents i).length ≤ budget i)
    (room : needed ((contents inum).length + p.length) ≤ budget inum) :
    ∃ next, appendContents inum fuel p m = .done () next ∧
      AtRest types (Function.update contents inum (contents inum ++ p)) next ∧
      next.freeinode = m.freeinode := by
  induction fuel generalizing p m contents with
  | zero => exact absurd fueled (Nat.not_lt_zero _)
  | succ fuel inductionHypothesis =>
      have size : bsize = 512 := rfl
      by_cases empty : p = []
      · subst empty
        refine ⟨m, rfl, ?_, rfl⟩
        rw [List.append_nil, Function.update_eq_self]
        exact atRest
      have some : 0 < p.length := List.length_pos_iff.mpr empty
      have chunk : 0 < (p.take bsize).length := by
        rw [List.length_take]
        omega
      have part : needed ((contents inum).length + (p.take bsize).length) ≤ budget inum := by
        refine Nat.le_trans (needed_mono ?_) room
        rw [List.length_take]
        omega
      obtain ⟨middle, first, kept, counter⟩ :=
        iappend_appends affordable limit named atRest inside within part
      have more : ∀ i < ninodes,
          needed (Function.update contents inum (contents inum ++ p.take bsize) i).length ≤
            budget i := by
        intro i below
        by_cases mine : i = inum
        · subst mine
          rw [Function.update_self, List.length_append]
          exact part
        · rw [Function.update_of_ne mine]
          exact within i below
      have again := inductionHypothesis (p := p.drop bsize) (by rw [List.length_drop]; omega) kept
        more
      rw [Function.update_self, Function.update_idem, List.append_assoc, List.take_append_drop,
        List.length_append, Nat.add_assoc, ← List.length_append, List.take_append_drop] at again
      obtain ⟨next, rest, last, counters⟩ := again room
      refine ⟨next, ?_, last, counters.trans counter⟩
      rw [appendContents]
      simp only [if_pos chunk]
      rw [Action.bind_done first]
      exact rest

end AtRest

/-! ## The directory and the files -/

/-- The entries of the root directory, after some of the files. -/
def entries (files : List InputFile) : List (Nat × List UInt8) :=
  (rootino, [UInt8.ofNat 46]) :: (rootino, [UInt8.ofNat 46, UInt8.ofNat 46]) ::
    files.mapIdx fun k file => (k + 2, InputFile.name file)

def entryBytes (entries : List (Nat × List UInt8)) : List UInt8 :=
  entries.flatMap fun entry => dirent entry.1 entry.2

/-- The content of every inode, after some of the files. -/
def contentsOf (files : List InputFile) (inum : Nat) : List UInt8 :=
  if inum = rootino then entryBytes (entries files)
  else if 2 ≤ inum then ((files[inum - 2]?).map InputFile.contents).getD []
  else []

def typesOf (files : List InputFile) (inum : Nat) : Nat :=
  if inum = rootino then tDir else if 2 ≤ inum ∧ inum < files.length + 2 then tFile else 0

theorem length_dirent (inum : Nat) (name : List UInt8) : (dirent inum name).length = 16 := by
  simp only [dirent, List.length_append, length_leBytes, List.length_take, List.length_replicate,
    dirsiz]
  omega

theorem length_entryBytes (entries : List (Nat × List UInt8)) :
    (entryBytes entries).length = 16 * entries.length := by
  induction entries with
  | nil => rfl
  | cons entry rest inductionHypothesis =>
      rw [entryBytes, List.flatMap_cons, List.length_append, length_dirent, List.length_cons]
      rw [entryBytes] at inductionHypothesis
      omega

theorem typesOf_lt (files : List InputFile) (inum : Nat) : typesOf files inum < 2 ^ 16 := by
  unfold typesOf
  split
  · decide
  · split <;> decide

theorem entries_concat (files : List InputFile) (file : InputFile) :
    entries (files ++ [file]) =
      entries files ++ [(files.length + 2, InputFile.name file)] := by
  simp [entries, List.mapIdx_append]

theorem typesOf_concat (files : List InputFile) (file : InputFile) :
    typesOf (files ++ [file]) = Function.update (typesOf files) (files.length + 2) tFile := by
  funext inum
  have root : rootino = 1 := rfl
  rw [typesOf, List.length_append, List.length_singleton]
  by_cases new : inum = files.length + 2
  · rw [new, Function.update_self, if_neg (by omega), if_pos (by omega)]
  · rw [Function.update_of_ne new, typesOf]
    by_cases first : inum = rootino
    · rw [if_pos first, if_pos first]
    · rw [if_neg first, if_neg first]
      by_cases old : 2 ≤ inum ∧ inum < files.length + 2
      · rw [if_pos old, if_pos (by omega)]
      · rw [if_neg old, if_neg (by omega)]

theorem contentsOf_root (files : List InputFile) :
    contentsOf files rootino = entryBytes (entries files) := if_pos rfl

theorem contentsOf_new (files : List InputFile) : contentsOf files (files.length + 2) = [] := by
  have root : rootino = 1 := rfl
  rw [contentsOf, if_neg (by omega), if_pos (by omega), Nat.add_sub_cancel,
    List.getElem?_eq_none (Nat.le_refl _)]
  rfl

theorem contentsOf_concat (files : List InputFile) (file : InputFile) :
    contentsOf (files ++ [file]) =
      Function.update
        (Function.update (contentsOf files) rootino
          (contentsOf files rootino ++ dirent (files.length + 2) (InputFile.name file)))
        (files.length + 2) file.contents := by
  funext inum
  have root : rootino = 1 := rfl
  by_cases new : inum = files.length + 2
  · rw [new, Function.update_self, contentsOf, if_neg (by omega), if_pos (by omega),
      Nat.add_sub_cancel, List.getElem?_concat_length]
    rfl
  · rw [Function.update_of_ne new]
    by_cases first : inum = rootino
    · rw [first, Function.update_self, contentsOf_root, contentsOf_root, entries_concat, entryBytes,
        entryBytes, List.flatMap_append, List.flatMap_singleton]
    · rw [Function.update_of_ne first, contentsOf, contentsOf, if_neg first, if_neg first]
      by_cases file : 2 ≤ inum
      · rw [if_pos file, if_pos file]
        by_cases old : inum - 2 < files.length
        · rw [List.getElem?_append_left old]
        · rw [List.getElem?_eq_none (by rw [List.length_append, List.length_singleton]; omega),
            List.getElem?_eq_none (by omega)]
      · rw [if_neg file, if_neg file]

/-- No content gets shorter. -/
theorem length_contentsOf_concat (files : List InputFile) (file : InputFile) (inum : Nat) :
    (contentsOf files inum).length ≤ (contentsOf (files ++ [file]) inum).length := by
  have root : rootino = 1 := rfl
  rw [contentsOf_concat]
  by_cases new : inum = files.length + 2
  · rw [new, contentsOf_new]
    exact Nat.zero_le _
  · rw [Function.update_of_ne new]
    by_cases first : inum = rootino
    · rw [first, Function.update_self, List.length_append]
      exact Nat.le_add_right _ _
    · rw [Function.update_of_ne first]

theorem length_contentsOf_append (files rest : List InputFile) (inum : Nat) :
    (contentsOf files inum).length ≤ (contentsOf (files ++ rest) inum).length := by
  induction rest generalizing files with
  | nil => rw [List.append_nil]
  | cons file rest inductionHypothesis =>
      have regroup : files ++ file :: rest = files ++ [file] ++ rest := by simp
      rw [regroup]
      exact Nat.le_trans (length_contentsOf_concat files file inum) (inductionHypothesis _)

section Files

variable {budget : Nat → Nat} {m : Mkfs}

theorem addFile_adds (affordable : Affordable budget) (limit : ∀ i, budget i ≤ maxFile)
    {files : List InputFile} {file : InputFile}
    (atRest : AtRest (typesOf files) (contentsOf files) m)
    (counter : m.freeinode = files.length + 2) (plain : UInt8.ofNat 47 ∉ file.path)
    (inside : files.length + 2 < ninodes)
    (within : ∀ i < ninodes, needed (contentsOf (files ++ [file]) i).length ≤ budget i) :
    ∃ next, addFile file m = .done () next ∧
      AtRest (typesOf (files ++ [file])) (contentsOf (files ++ [file])) next ∧
      next.freeinode = (files ++ [file]).length + 2 := by
  have root : rootino = 1 := rfl
  have before : ∀ i < ninodes, needed (contentsOf files i).length ≤ budget i := fun i below =>
    Nat.le_trans (needed_mono (length_contentsOf_concat files file i)) (within i below)
  have entry := within rootino (by decide)
  have content := within (files.length + 2) inside
  rw [contentsOf_concat, Function.update_of_ne (by omega), Function.update_self,
    List.length_append] at entry
  rw [contentsOf_concat, Function.update_self] at content
  have named := typesOf_lt (files ++ [file])
  rw [typesOf_concat] at named
  obtain ⟨first, allocated, typed, counters⟩ := ialloc_allocates
    (show tFile < 2 ^ 16 by decide) atRest (by rw [counter]; exact inside)
    (by rw [counter]; exact contentsOf_new files)
  rw [counter] at typed allocated
  obtain ⟨second, appended, listed, kept⟩ :=
    iappend_appends affordable limit named typed (show rootino < ninodes by decide) before entry
  have blank : Function.update (contentsOf files) rootino
      (contentsOf files rootino ++ dirent (files.length + 2) (InputFile.name file))
        (files.length + 2) = [] := by
    rw [Function.update_of_ne (by omega), contentsOf_new]
  have between : ∀ i < ninodes, needed (Function.update (contentsOf files) rootino
      (contentsOf files rootino ++ dirent (files.length + 2) (InputFile.name file)) i).length ≤
        budget i := by
    intro i below
    by_cases mine : i = rootino
    · rw [mine, Function.update_self, List.length_append]
      exact entry
    · rw [Function.update_of_ne mine]
      exact before i below
  have copied := appendContents_appends affordable limit named inside
    (Nat.lt_succ_self file.contents.length) listed between
  rw [blank, List.length_nil, Nat.zero_add, List.nil_append, ← contentsOf_concat,
    ← typesOf_concat] at copied
  obtain ⟨next, ran, last, unchanged⟩ := copied content
  refine ⟨next, ?_, last, ?_⟩
  · rw [addFile, if_neg plain, Action.bind_done allocated, Action.bind_done appended]
    exact ran
  · rw [unchanged, kept, counters, counter, List.length_append, List.length_singleton]

theorem addFiles_adds (affordable : Affordable budget) (limit : ∀ i, budget i ≤ maxFile)
    {files rest : List InputFile} (atRest : AtRest (typesOf files) (contentsOf files) m)
    (counter : m.freeinode = files.length + 2) (plain : ∀ file ∈ rest, UInt8.ofNat 47 ∉ file.path)
    (inside : (files ++ rest).length + 1 < ninodes)
    (within : ∀ i < ninodes, needed (contentsOf (files ++ rest) i).length ≤ budget i) :
    ∃ next, addFiles rest m = .done () next ∧
      AtRest (typesOf (files ++ rest)) (contentsOf (files ++ rest)) next := by
  induction rest generalizing files m with
  | nil =>
      rw [List.append_nil]
      exact ⟨m, rfl, atRest⟩
  | cons file rest inductionHypothesis =>
      have regroup : files ++ file :: rest = files ++ [file] ++ rest := by simp
      rw [regroup] at inside within ⊢
      obtain ⟨middle, added, kept, counters⟩ := addFile_adds affordable limit atRest counter
        (plain file (List.mem_cons_self ..))
        (by simp only [List.length_append, List.length_singleton] at inside; omega)
        fun i below => Nat.le_trans (needed_mono (length_contentsOf_append _ rest i)) (within i below)
      obtain ⟨next, ran, last⟩ := inductionHypothesis kept counters
        (fun other listed => plain other (List.mem_cons_of_mem _ listed)) inside within
      refine ⟨next, ?_, last⟩
      rw [addFiles, Action.bind_done added]
      exact ran

end Files

/-! ## From the blank image to the last file -/

/-- The files are in the working directory, and there is room for what they take: the metadata,
the root directory, and the blocks of each file. -/
structure Fits (files : List InputFile) : Prop where
  plain : ∀ file ∈ files, UInt8.ofNat 47 ∉ file.path
  sizes : ∀ file ∈ files, file.contents.length ≤ maxFile * bsize
  inodes : files.length + 1 < ninodes
  blocks : nmeta + blocks (needed (16 * (files.length + 2))) +
    (files.map fun file => blocks (needed file.contents.length)).sum ≤ fsSize

theorem length_contentsOf_root (files : List InputFile) :
    (contentsOf files rootino).length = 16 * (files.length + 2) := by
  rw [contentsOf_root, length_entryBytes, entries, List.length_cons, List.length_cons,
    List.length_mapIdx]

theorem needed_update (contents : Nat → List UInt8) (inum : Nat) (bytes : List UInt8) :
    (fun i => needed (Function.update contents inum bytes i).length) =
      Function.update (fun i => needed (contents i).length) inum (needed bytes.length) := by
  funext i
  by_cases mine : i = inum
  · rw [mine, Function.update_self, Function.update_self]
  · rw [Function.update_of_ne mine, Function.update_of_ne mine]

/-- The sum over the inodes is the sum over the files. -/
theorem sum_blocks_files (files : List InputFile) (inodes : files.length + 1 < ninodes) :
    ((Finset.range ninodes).sum fun i => blocks (needed (contentsOf files i).length)) =
      blocks (needed (16 * (files.length + 2))) +
        (files.map fun file => blocks (needed file.contents.length)).sum := by
  have root : rootino = 1 := rfl
  have none : blocks (needed 0) = 0 := by decide
  induction files using List.reverseRecOn with
  | nil =>
      have first : contentsOf [] = Function.update (fun _ => []) rootino (contentsOf [] rootino) := by
        funext i
        by_cases mine : i = rootino
        · rw [mine, Function.update_self]
        · rw [Function.update_of_ne mine, contentsOf, if_neg mine]
          split <;> rfl
      have updated := sum_blocks_update (fun _ => needed 0) (show rootino < ninodes by decide)
        (needed (contentsOf [] rootino).length)
      have spread := needed_update (fun _ => []) rootino (contentsOf [] rootino)
      rw [← first] at spread
      rw [← List.length_nil (α := UInt8), ← spread] at updated
      simp only [List.length_nil, none, Finset.sum_const_zero] at updated
      rw [length_contentsOf_root] at updated
      simpa using updated
  | append_singleton files file inductionHypothesis =>
      rw [List.length_append, List.length_singleton] at inodes
      have earlier := inductionHypothesis (by omega)
      have counts : (fun i => needed (contentsOf (files ++ [file]) i).length) =
          Function.update (Function.update (fun i => needed (contentsOf files i).length) rootino
            (needed (16 * (files.length + 1 + 2)))) (files.length + 2)
            (needed file.contents.length) := by
        rw [contentsOf_concat, needed_update, needed_update, List.length_append, length_dirent,
          length_contentsOf_root]
        rfl
      have entry := sum_blocks_update (fun i => needed (contentsOf files i).length)
        (show rootino < ninodes by decide) (needed (16 * (files.length + 1 + 2)))
      have content := sum_blocks_update
        (Function.update (fun i => needed (contentsOf files i).length) rootino
          (needed (16 * (files.length + 1 + 2))))
        (show files.length + 2 < ninodes by omega) (needed file.contents.length)
      rw [← counts, Function.update_of_ne (by omega), contentsOf_new, List.length_nil, none]
        at content
      rw [length_contentsOf_root] at entry
      beta_reduce at entry content
      rw [List.map_append, List.sum_append, List.map_singleton, List.sum_singleton,
        List.length_append, List.length_singleton]
      omega

theorem Fits.affordable {files : List InputFile} (fits : Fits files) :
    Affordable fun i => needed (contentsOf files i).length := by
  have enough := fits.blocks
  simp only [Affordable, sum_blocks_files files fits.inodes]
  omega

theorem Fits.limit {files : List InputFile} (fits : Fits files) (inum : Nat) :
    needed (contentsOf files inum).length ≤ maxFile := by
  have small : (contentsOf files inum).length ≤ maxFile * bsize := by
    have inodes := fits.inodes
    by_cases first : inum = rootino
    · rw [first, length_contentsOf_root]
      have table : ninodes = 200 := rfl
      have room : maxFile * bsize = 71680 := rfl
      omega
    · rw [contentsOf, if_neg first]
      split
      · cases found : files[inum - 2]? with
        | none => exact Nat.zero_le _
        | some file => exact fits.sizes file (List.mem_of_getElem? found)
      · exact Nat.zero_le _
  have size : bsize = 512 := rfl
  rw [needed, ← Nat.lt_succ_iff, Nat.div_lt_iff_lt_mul (by decide), Nat.succ_mul]
  omega

/-- The image with only the superblock. -/
theorem atRest_blank : ∃ next, wsect 1 (Memory.write (fun _ => 0) 0 superblockBytes) blank =
      .done () next ∧
    AtRest (fun _ => 0) (fun _ => []) next ∧ next.freeinode = 1 := by
  refine ⟨_, wsect_eq _ _ blank, ?_, rfl⟩
  generalize written : { blank with
    image := Function.update blank.image 1 (Memory.write (fun _ => 0) 0 superblockBytes) } = m
  have image : ∀ b, b ≠ 1 → m.image b = fun _ => 0 := by
    intro b other
    rw [← written]
    exact Function.update_of_ne other ..
  have zero : ∀ i < ninodes, table m i = dinodeOf (fun _ => 0) i := by
    intro i below
    have region := iblock_region below
    rw [table, image _ (by omega)]
  have numbers : ∀ place, number (table m) m.image place = 0 := by
    intro place
    cases place with
    | addr inum k =>
        rw [number]
        split
        · next inside =>
            rw [zero inum inside.1]
            exact Memory.load_zero _ _
        · rfl
    | entry inum j =>
        rw [number, if_neg]
        rintro ⟨inside, -, indirect⟩
        rw [zero inum inside] at indirect
        exact indirect (Memory.load_zero _ _)
  have none : needed (List.length ([] : List UInt8)) = 0 := by decide
  have counters : m.freeblock = nmeta := by rw [← written]; rfl
  refine ⟨⟨?_, ?_, ⟨?_, ?_⟩, ?_, ?_, ?_, ?_, ?_⟩, ?_, ?_, ?_⟩
  · rw [counters]
  · intro b free below
    have bitmap := bmapstart_lt
    have region := iblock_region (show 0 < ninodes by decide)
    exact image b (by omega)
  · intro place taken
    exact absurd (numbers place) taken
  · intro first second taken
    exact absurd (numbers first) taken
  · intro i below bn
    rw [numbers, none]
    simp
  · intro i below
    rw [numbers, none]
    simp
  · intro i below
    exact Nat.zero_le _
  · intro i below o covered
    rw [none] at covered
    exact absurd covered (Nat.not_lt_zero _)
  · rw [counters, none]
    simp [blocks]
  · intro i below
    rw [zero i below]
    exact Memory.load_zero _ _
  · intro i below
    rw [zero i below]
    exact Memory.load_zero _ _
  · rw [← written]
    decide +kernel

/-- Everything up to the first file. -/
theorem main_starts {budget : Nat → Nat} (affordable : Affordable budget)
    (limit : ∀ i, budget i ≤ maxFile) (entries : needed 32 ≤ budget rootino) :
    ∃ m, AtRest (typesOf []) (contentsOf []) m ∧ m.freeinode = 2 ∧
      ∀ files, main files blank = (do
        addFiles files
        fixRoot
        let used ← Action.get Mkfs.freeblock
        balloc used) m := by
  have root : rootino = 1 := rfl
  have rootInside : rootino < ninodes := by decide
  have types : typesOf [] = Function.update (fun _ => 0) rootino tDir := by
    funext i
    by_cases mine : i = rootino
    · rw [mine, Function.update_self]
      rfl
    · rw [Function.update_of_ne mine, typesOf, if_neg mine, if_neg]
      intro both
      have below := both.2
      rw [List.length_nil] at below
      omega
  have contents : contentsOf [] = Function.update (Function.update (fun _ => []) rootino
      (dirent rootino [UInt8.ofNat 46])) rootino
        (dirent rootino [UInt8.ofNat 46] ++ dirent rootino [UInt8.ofNat 46, UInt8.ofNat 46]) := by
    funext i
    by_cases mine : i = rootino
    · rw [mine, Function.update_self]
      rfl
    · rw [Function.update_of_ne mine, Function.update_of_ne mine, contentsOf, if_neg mine]
      split <;> rfl
  have named := typesOf_lt []
  rw [types] at named
  have nothing : ∀ i < ninodes, needed ((fun _ => []) i : List UInt8).length ≤ budget i :=
    fun i _ => Nat.le_trans (Nat.le_of_eq (show needed 0 = 0 by decide)) (Nat.zero_le _)
  obtain ⟨first, super, blankRest, start⟩ := atRest_blank
  rw [← root] at start
  obtain ⟨second, allocated, typed, counter⟩ := ialloc_allocates (show tDir < 2 ^ 16 by decide)
    blankRest (by rw [start]; exact rootInside) rfl
  rw [start] at allocated typed counter
  obtain ⟨third, dot, listed, kept⟩ := iappend_appends affordable limit named typed rootInside
    nothing (p := dirent rootino [UInt8.ofNat 46])
    (Nat.le_trans (needed_mono (by rw [length_dirent, List.length_nil]; omega)) entries)
  rw [List.nil_append] at listed
  have between : ∀ i < ninodes, needed (Function.update (fun _ => []) rootino
      (dirent rootino [UInt8.ofNat 46]) i).length ≤ budget i := by
    intro i below
    by_cases mine : i = rootino
    · rw [mine, Function.update_self, length_dirent]
      exact Nat.le_trans (needed_mono (by omega)) entries
    · rw [Function.update_of_ne mine]
      exact nothing i below
  obtain ⟨fourth, dots, both, same⟩ := iappend_appends affordable limit named listed rootInside
    between (p := dirent rootino [UInt8.ofNat 46, UInt8.ofNat 46])
    (Nat.le_trans (needed_mono (by rw [Function.update_self, length_dirent, length_dirent]))
      entries)
  rw [Function.update_self, ← contents, ← types] at both
  refine ⟨fourth, both, by rw [same, kept, counter, root], fun files => ?_⟩
  rw [main, Action.bind_done super, Action.bind_done allocated, if_neg fun differs => differs rfl,
    Action.bind_done dot, Action.bind_done dots]

/-- Everything up to the last file. -/
theorem main_appends {files : List InputFile} (fits : Fits files) :
    ∃ m, AtRest (typesOf files) (contentsOf files) m ∧
      main files blank = (do
        fixRoot
        let used ← Action.get Mkfs.freeblock
        balloc used) m := by
  have affordable := fits.affordable
  have limit := fits.limit
  have entries : needed 32 ≤ needed (contentsOf files rootino).length :=
    needed_mono (by rw [length_contentsOf_root]; omega)
  obtain ⟨first, both, counter, starts⟩ := main_starts affordable limit entries
  obtain ⟨last, added, final⟩ :=
    addFiles_adds affordable limit both counter fits.plain fits.inodes fun i _ => Nat.le_refl _
  refine ⟨last, final, ?_⟩
  rw [starts, Action.bind_done added]

/-! ## The finished image -/

/-- The kernel before it has cached anything. -/
def start (m : Mkfs) : FsState where
  toFileSystem := disk m
  calls := []

/-- A consistent file system with these entries in its root directory. -/
structure Consistent (start : FsState) (entries : List (Nat × List UInt8)) : Prop where
  image : Image start
  covered : ∀ inum < start.sb.ninodes, ∀ bn, bn * bsize < (start.dinode inum).size →
    start.number (slotOf inum bn) ≠ 0
  allocated : ∀ entry ∈ entries, 0 < entry.1 ∧ entry.1 < start.sb.ninodes ∧
    (start.dinode entry.1).type ≠ 0
  rootType : (start.dinode rootino).type = tDir
  rootSize : (entryBytes entries).length ≤ (start.dinode rootino).size
  rootBytes : ∀ o < (start.dinode rootino).size,
    start.byte rootino o = (entryBytes entries).getD o 0
  /-- `readi` on an inode as `ilock` reads it ends, and allocates nothing. -/
  reads : ∀ (consoleread : Int → Int × List UInt8) (state : FsState) (ip : InodePtr) (inum : Nat)
    (off n : UInt32), Sound state → state.block = start.block → state.sb = start.sb →
      state.live inum ip = true → (state.inode ip).toDinode = start.dinode inum →
      ∃ result, readi consoleread ip off n state = .done result state

theorem bitmap_set {used k : Nat} (below : k < used) :
    bitClear (forLoop used (fun i buf => setBit buf i) fun _ => 0) k = false := by
  have all : ∀ k < used,
      bitClear (forLoop used (fun i buf => setBit buf i) fun _ => 0) k = false := by
    refine forLoop_invariant (fun count (buf : Block) => ∀ k < count, bitClear buf k = false) ?_ ?_
    · intro k none
      exact absurd none (Nat.not_lt_zero _)
    · intro count buf _ earlier k inside
      rw [← Bool.not_eq_true, bitClear_setBit]
      by_cases last : k = count
      · exact fun both => both.2 last
      · rw [earlier k (by omega)]
        exact fun both => absurd both.1 (by decide)
  exact all k below

theorem disk_number (m : Mkfs) : (disk m).number = number (table m) m.image := by
  have slots : ∀ inum, (disk m).addrs inum = (table m inum).addrs := fun inum =>
    addrs_of_disk fun ip => by simp [FileSystem.live, disk]
  funext place
  cases place with
  | addr inum k => rw [FileSystem.number, slots, number]; rfl
  | entry inum j => rw [FileSystem.number, slots, number]; rfl

section Finished

variable {files : List InputFile} {m : Mkfs} {contents : Nat → List UInt8} {count : Nat → Nat}

/-- The blocks up to the last one taken are marked. -/
theorem used_of_bitmap (full : m.freeblock ≤ fsSize)
    (bitmap : m.image sb.bmapstart = forLoop m.freeblock (fun i buf => setBit buf i) fun _ => 0)
    {b : Nat} (below : b < m.freeblock) : (disk m).Used b := by
  have small : fsSize < bpb := by decide
  have first : b / bpb = 0 := Nat.div_eq_of_lt (by omega)
  have place : b % bpb = b := Nat.mod_eq_of_lt (by omega)
  rw [FileSystem.Used, Superblock.bblock, first, place, Nat.zero_add]
  change bitClear (m.image sb.bmapstart) b = false
  rw [bitmap]
  exact bitmap_set below

/-- Block ownership holds on the image. -/
theorem Filled.image (filled : Filled (table m) m.image m.freeblock count contents)
    (full : m.freeblock ≤ fsSize) (super : superblockOf (m.image 1) = sb)
    (bitmap : m.image sb.bmapstart = forLoop m.freeblock (fun i buf => setBit buf i) fun _ => 0) :
    Image (Mkfs.start m) where
  layout :=
    { super := super
      start := show 1 < sb.inodestart by decide
      order := show sb.inodestart ≤ sb.bmapstart by decide
      inodes := fun inum inside => (iblock_region inside).2
      size := show sb.size < 2 ^ 31 by decide
      metadata := fun b before _ => used_of_bitmap full bitmap
        (Nat.lt_of_lt_of_le (show b < nmeta from before) filled.start) }
  owned :=
    { given := by
        rintro place b ⟨nonzero, held⟩
        change (disk m).number place = b at held
        rw [disk_number] at held
        have region := filled.distinct.region place (by rw [held]; exact nonzero)
        rw [held] at region
        exact ⟨region.1, Nat.lt_of_lt_of_le region.2 full, used_of_bitmap full bitmap region.2⟩
      once := by
        rintro first second b ⟨nonzero, one⟩ ⟨-, two⟩
        change (disk m).number first = b at one
        change (disk m).number second = b at two
        rw [disk_number] at one two
        exact filled.distinct.once first second (by rw [one]; exact nonzero) (one.trans two.symm) }
  uncached ip := rfl
  calls := rfl

/-- When every block below the size is there, `readi` finds it. -/
theorem readi_ends {begin state : FsState} {ip : InodePtr} {inum : Nat}
    (covered : ∀ inum < begin.sb.ninodes, ∀ bn, bn * bsize < (begin.dinode inum).size →
      begin.number (slotOf inum bn) ≠ 0)
    (uncached : ∀ ip, (begin.inode ip).ref = 0)
    (plain : ∀ inum < begin.sb.ninodes, (begin.dinode inum).type ≠ tDev)
    (consoleread : Int → Int × List UInt8) (off n : UInt32) (sound : Sound state)
    (blocks : state.block = begin.block) (super : state.sb = begin.sb)
    (live : state.live inum ip = true) (copy : (state.inode ip).toDinode = begin.dinode inum) :
    ∃ result, readi consoleread ip off n state = .done result state := by
  have inside := live_inside sound.consistent live
  have slots : state.addrs inum = begin.addrs inum := by
    have cold : ∀ ip, begin.live inum ip = false := fun ip => by
      simp [FileSystem.live, uncached ip]
    rw [addrs_of_live sound.consistent.once live, addrs_of_disk cold, ← copy]
  have numbers : ∀ bn, state.number (slotOf inum bn) = begin.number (slotOf inum bn) := by
    intro bn
    unfold slotOf
    split
    · rw [FileSystem.number, FileSystem.number, slots, super]
    · rw [FileSystem.number, FileSystem.number, slots, super, blocks]
  rw [super] at inside
  have file : File state.toFileSystem inum
      ((List.range (begin.dinode inum).size).map (state.byte inum)) :=
    { inside := by rw [super]; exact inside
      plain := by
        rw [stat_of_live sound.consistent.once live, copy]
        exact plain inum inside
      size := by
        rw [stat_of_live sound.consistent.once live, copy, List.length_map, List.length_range]
      allocated := by
        intro o below
        rw [List.length_map, List.length_range] at below
        rw [numbers]
        exact covered inum inside _ (Nat.lt_of_le_of_lt (Nat.div_mul_le_self o bsize) below)
      bytes := by
        intro o below
        rw [List.getD_eq_getElem _ _ below, List.getElem_map, List.getElem_range] }
  by_cases within : off.toNat ≤ (state.inode ip).size ∧ off.toNat + n.toNat < 2 ^ 32
  · have size : (state.inode ip).size = (begin.dinode inum).size := by rw [copy]
    refine ⟨_, readi_eq consoleread sound live file ?_ within.2⟩
    rw [List.length_map, List.length_range, ← size]
    exact within.1
  · refine ⟨_, readi_refuses consoleread ?_ within⟩
    rw [copy]
    exact plain inum inside

end Finished

/-- The image as it is left: the content of every inode in its blocks, and the size of the
root directory rounded up. -/
structure Finished (files : List InputFile) (m : Mkfs) : Prop where
  filled : Filled (table m) m.image m.freeblock (fun i => needed (contentsOf files i).length)
    (contentsOf files)
  full : m.freeblock ≤ fsSize
  super : superblockOf (m.image 1) = sb
  bitmap : m.image sb.bmapstart = forLoop m.freeblock (fun i buf => setBit buf i) fun _ => 0
  type : ∀ i < ninodes, (table m i).type = typesOf files i
  size : ∀ i < ninodes, i ≠ rootino → (table m i).size = (contentsOf files i).length
  rootSize : (table m rootino).size = (16 * (files.length + 2) / bsize + 1) * bsize

theorem main_finished {files : List InputFile} (fits : Fits files) :
    ∃ m, main files blank = .done () m ∧ Finished files m := by
  have inside : rootino < ninodes := by decide
  have place := bmapstart_lt
  obtain ⟨first, atRest, run⟩ := main_appends fits
  have full := atRest.filled.freeblock_le fits.affordable
  have rootLength := (atRest.size rootino inside).trans (length_contentsOf_root files)
  have short := Nat.div_mul_le_self (16 * (files.length + 2)) bsize
  have inodes := fits.inodes
  have few : ninodes = 200 := rfl
  have size : bsize = 512 := rfl
  obtain ⟨second, fixed, wrote⟩ := winode_wrote inside
    { table first rootino with size := ((table first rootino).size / bsize + 1) * bsize } first
    (by rw [atRest.type rootino inside]; exact typesOf_lt files rootino)
    (by dsimp only; rw [rootLength, Nat.succ_mul]; omega)
    (atRest.filled.addrs_lt full inside)
  obtain ⟨third, marked, image, freeblock⟩ : ∃ third,
      balloc second.freeblock second = .done () third ∧
      third.image = Function.update second.image sb.bmapstart
        (forLoop second.freeblock (fun i buf => setBit buf i) fun _ => 0) ∧
      third.freeblock = second.freeblock := by
    have bits : fsSize < bsize * 8 := by decide
    rw [balloc, if_neg (by rw [wrote.freeblock]; omega)]
    exact ⟨_, wsect_eq _ _ second, rfl, rfl⟩
  have same : ∀ i < ninodes, table third i = table second i := by
    intro i below
    have region := iblock_region below
    rw [table, image, Function.update_of_ne (by omega), table]
  refine ⟨third, ?_, ?_, ?_, ?_, ?_, ?_, ?_, ?_⟩
  · rw [run, fixRoot]
    change ((rinode rootino >>= fun din => winode rootino
      { din with size := (din.size / bsize + 1) * bsize }) >>= fun _ =>
        Action.get Mkfs.freeblock >>= balloc) first = _
    have fixing : (rinode rootino >>= fun din => winode rootino
        { din with size := (din.size / bsize + 1) * bsize }) first = .done () second := by
      rw [Action.bind_done (rinode_eq inside first)]
      exact fixed
    rw [Action.bind_done fixing, Action.get_bind]
    exact marked
  · rw [freeblock, wrote.freeblock]
    refine atRest.filled.congr (fun i below k slot => ?_) fun b data => ?_
    · rw [same i below, wrote.addrs i below k slot]
      by_cases mine : i = rootino
      · rw [mine, Function.update_self]
      · rw [Function.update_of_ne mine]
    · rw [image, Function.update_of_ne (by omega), wrote.image b (Or.inr (by omega))]
  · rw [freeblock, wrote.freeblock]
    exact full
  · rw [image, Function.update_of_ne (by decide), wrote.image 1 (Or.inl (Nat.le_refl _)),
      atRest.super]
  · rw [image, Function.update_self, freeblock]
  · intro i below
    rw [same i below, wrote.type i below]
    by_cases mine : i = rootino
    · rw [mine, Function.update_self]
      exact atRest.type rootino inside
    · rw [Function.update_of_ne mine, atRest.type i below]
  · intro i below other
    rw [same i below, wrote.size i below, Function.update_of_ne other, atRest.size i below]
  · rw [same _ inside, wrote.size _ inside, Function.update_self]
    dsimp only
    rw [rootLength]

theorem lt_needed {bn length : Nat} (below : bn * bsize < length) : bn < needed length := by
  have positive : 1 ≤ bsize := by decide
  have least := needed_mono (Nat.succ_le_of_lt below)
  rw [needed_eq (Nat.lt_succ_self _) (by rw [Nat.succ_mul]; exact Nat.add_le_add_left positive _)]
    at least
  exact least

/-- The blocks that the size of the root directory covers are there if the entries do not fill
theirs. -/
theorem Finished.covered {files : List InputFile} {m : Mkfs} (finished : Finished files m)
    (partly : (files.length + 2) % 32 ≠ 0) {inum : Nat} (inside : inum < ninodes) {bn : Nat}
    (below : bn * bsize < (table m inum).size) :
    bn < needed (contentsOf files inum).length := by
  have size : bsize = 512 := rfl
  by_cases root : inum = rootino
  · subst root
    rw [finished.rootSize] at below
    rw [length_contentsOf_root]
    refine lt_needed ?_
    rw [size] at below ⊢
    omega
  · rw [finished.size inum inside root] at below
    exact lt_needed below

theorem entry_cases {files : List InputFile} {entry : Nat × List UInt8}
    (member : entry ∈ entries files) :
    entry.1 = rootino ∨ 2 ≤ entry.1 ∧ entry.1 < files.length + 2 := by
  rw [entries, List.mem_cons, List.mem_cons, List.mem_mapIdx] at member
  rcases member with rfl | rfl | ⟨k, below, rfl⟩
  · exact Or.inl rfl
  · exact Or.inl rfl
  · exact Or.inr ⟨Nat.le_add_left _ _, Nat.add_lt_add_right below 2⟩

theorem Finished.consistent {files : List InputFile} {m : Mkfs} (finished : Finished files m)
    (fits : Fits files) (partly : (files.length + 2) % 32 ≠ 0) :
    Consistent (start m) (entries files) := by
  have root : rootino = 1 := rfl
  have inside : rootino < ninodes := by decide
  have inodes := fits.inodes
  have image := finished.filled.image finished.full finished.super finished.bitmap
  have numbers : (start m).number = number (table m) m.image := disk_number m
  have covered : ∀ inum < ninodes, ∀ bn, bn * bsize < (table m inum).size →
      number (table m) m.image (slotOf inum bn) ≠ 0 := fun inum below bn within =>
    (finished.filled.covered inum below bn).mpr (finished.covered partly below within)
  have typed : ∀ inum < ninodes, (table m inum).type = typesOf files inum := finished.type
  refine ⟨image, ?_, ?_, ?_, ?_, ?_, ?_⟩
  · rw [numbers]
    exact covered
  · intro entry member
    rcases entry_cases member with same | ⟨first, last⟩
    · rw [same]
      refine ⟨by decide, inside, ?_⟩
      change (table m rootino).type ≠ 0
      rw [typed rootino inside]
      exact show tDir ≠ 0 by decide
    · have below : entry.1 < ninodes := by omega
      refine ⟨by omega, below, ?_⟩
      change (table m entry.1).type ≠ 0
      rw [typed _ below, typesOf, if_neg (by omega), if_pos ⟨first, last⟩]
      decide
  · exact typed rootino inside
  · change _ ≤ (table m rootino).size
    rw [finished.rootSize, ← contentsOf_root, length_contentsOf_root]
    exact Nat.le_of_lt (Nat.lt_mul_of_div_lt (Nat.lt_succ_self _) (by decide))
  · intro o below
    have block := finished.covered partly inside
      (Nat.lt_of_le_of_lt (Nat.div_mul_le_self o bsize) below)
    rw [FileSystem.byte, numbers, ← contentsOf_root]
    exact finished.filled.bytes rootino inside o block
  · intro consoleread state ip inum off n sound blocks super live copy
    refine readi_ends ?_ (fun _ => rfl) ?_ consoleread off n sound blocks super live copy
    · rw [numbers]
      exact covered
    · intro i below
      change (table m i).type ≠ tDev
      rw [typed i below, typesOf]
      split
      · decide
      · split <;> decide

/-- When the entries fill their blocks, the size covers a block that nobody took. -/
theorem Finished.inconsistent {files : List InputFile} {m : Mkfs} (finished : Finished files m)
    (full : (files.length + 2) % 32 = 0) : ¬Consistent (start m) (entries files) := by
  intro consistent
  have inside : rootino < ninodes := by decide
  have size : bsize = 512 := rfl
  have last := consistent.covered rootino inside (16 * (files.length + 2) / bsize) (by
    change _ < (table m rootino).size
    rw [finished.rootSize]
    exact Nat.mul_lt_mul_of_pos_right (Nat.lt_succ_self _) (by decide))
  rw [show (start m).number = number (table m) m.image from disk_number m,
    finished.filled.covered rootino inside, length_contentsOf_root, needed, size] at last
  omega

/-- **The image builder.** For all files that fit, the image is consistent, and `readi` allocates
nothing on it, exactly when the entries of the root directory do not fill their blocks. -/
theorem mkfs_consistent_iff {files : List InputFile} (fits : Fits files) :
    ∃ m, main files blank = .done () m ∧
      (Consistent (start m) (entries files) ↔ (files.length + 2) % 32 ≠ 0) := by
  obtain ⟨m, run, finished⟩ := main_finished fits
  exact ⟨m, run, fun consistent full => finished.inconsistent full consistent,
    finished.consistent fits⟩

theorem letter_plain : ∀ i : Fin 30, UInt8.ofNat 47 ∉ [UInt8.ofNat (65 + i.val)] := by
  decide

/-- Empty files with the names `A`, `B` and so on. -/
def letters (count : Nat) : List InputFile :=
  List.ofFn fun i : Fin count => ⟨[UInt8.ofNat (65 + i.val)], []⟩

theorem letters_fit {count : Nat} (few : count ≤ 30) : Fits (letters count) where
  plain := by
    intro file member
    obtain ⟨i, rfl⟩ := List.mem_ofFn.mp member
    exact letter_plain ⟨i.val, Nat.lt_of_lt_of_le i.isLt few⟩
  sizes := by
    intro file member
    obtain ⟨i, rfl⟩ := List.mem_ofFn.mp member
    exact Nat.zero_le _
  inodes := by
    rw [letters, List.length_ofFn]
    exact Nat.lt_of_le_of_lt (Nat.succ_le_succ few) (by decide)
  blocks := by
    have none :
        ((letters count).map fun file => blocks (needed file.contents.length)).sum = 0 := by
      refine List.sum_eq_zero fun cost member => ?_
      obtain ⟨file, listed, rfl⟩ := List.mem_map.mp member
      obtain ⟨i, rfl⟩ := List.mem_ofFn.mp listed
      exact show blocks (needed 0) = 0 by decide
    have root : blocks (needed (16 * (count + 2))) ≤ blocks (needed (16 * (30 + 2))) :=
      blocks_mono (needed_mono (by omega))
    have room : nmeta + blocks (needed (16 * (30 + 2))) ≤ fsSize := by decide
    rw [none, letters, List.length_ofFn]
    omega

/-- Three files, and so five entries. -/
theorem mkfs_consistent_three :
    ∃ m, main (letters 3) blank = .done () m ∧
      Consistent (start m) (entries (letters 3)) := by
  obtain ⟨m, run, decides⟩ := mkfs_consistent_iff (letters_fit (show 3 ≤ 30 by decide))
  exact ⟨m, run, decides.mpr (by rw [letters, List.length_ofFn]; decide)⟩

/-- Thirty files with different names fill a block with their entries. -/
theorem mkfs_inconsistent_thirty :
    ((letters 30).map fun file => (InputFile.name file).take dirsiz).Nodup ∧
      Fits (letters 30) ∧
      ∃ m, main (letters 30) blank = .done () m ∧
        ¬Consistent (start m) (entries (letters 30)) := by
  obtain ⟨m, run, finished⟩ := main_finished (letters_fit (Nat.le_refl 30))
  refine ⟨by decide, letters_fit (Nat.le_refl _), m, run, finished.inconsistent ?_⟩
  rw [letters, List.length_ofFn]

end Xv6.Fs.Mkfs
