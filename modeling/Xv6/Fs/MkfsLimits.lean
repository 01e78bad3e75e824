import Xv6.Fs.MkfsImage

/-!
# The limits of the image

`ialloc` hands out one inode number after the other and compares none with NINODES,
while every block that `iappend` takes is read before it is written, which fails behind
the end of the image.
-/

namespace Xv6.Fs.Mkfs

open Xv6.Library

/-! ## What the functions do to the counters -/

/-- The action ends with a failure, or as `post` says. -/
abbrev Mayfail {Value : Type} (post : Value → Mkfs → Prop) (outcome : Outcome Mkfs Value) : Prop :=
  outcome.Ends (fun _ => True) post

variable {m : Mkfs}

theorem rsect_ends (sec : Nat) (m : Mkfs) :
    Mayfail (fun _ next => next = m ∧ sec < fsSize) (rsect sec m) := by
  rw [rsect]
  split
  · next inside => exact ⟨rfl, inside⟩
  · trivial

theorem wsect_ends (sec : Nat) (buf : Block) (m : Mkfs) :
    Mayfail (fun _ next => next.freeinode = m.freeinode ∧ next.freeblock = m.freeblock)
      (wsect sec buf m) :=
  ⟨rfl, rfl⟩

theorem winode_ends (inum : Nat) (ip : Dinode) (m : Mkfs) :
    Mayfail (fun _ next => next.freeinode = m.freeinode ∧ next.freeblock = m.freeblock)
      (winode inum ip m) := by
  rw [winode, Mayfail, Action.ends_bind]
  refine (rsect_ends _ m).mono ?_
  rintro buf next ⟨rfl, -⟩
  exact wsect_ends _ _ next

theorem rinode_ends (inum : Nat) (m : Mkfs) : Mayfail (fun _ next => next = m) (rinode inum m) := by
  rw [rinode, Mayfail, Action.ends_bind]
  refine (rsect_ends _ m).mono ?_
  rintro buf next ⟨rfl, -⟩
  rfl

/-- If a block is taken it is the one in the slot. -/
theorem fillSlot_ends (din : Dinode) (k : Nat) (m : Mkfs) :
    Mayfail (fun later next => next.freeinode = m.freeinode ∧
      (next.freeblock = m.freeblock ∨ next.freeblock = later.addrs k + 1)) (fillSlot din k m) := by
  rw [fillSlot]
  split
  · refine ⟨rfl, .inr ?_⟩
    rw [setSlot_same]
  · exact ⟨rfl, .inl rfl⟩

/-- Only the block that is returned may be outside the image. -/
theorem appendBlock_ends (din : Dinode) (fbn : Nat) (full : m.freeblock ≤ fsSize) :
    Mayfail (fun result next => next.freeinode = m.freeinode ∧
      (next.freeblock ≤ fsSize ∨ next.freeblock = result.2 + 1)) (appendBlock din fbn m) := by
  rw [appendBlock]
  split
  · rw [Mayfail, Action.ends_bind]
    refine (fillSlot_ends din fbn m).mono ?_
    rintro later next ⟨inodes, same | taken⟩
    · exact ⟨inodes, .inl (same ▸ full)⟩
    · exact ⟨inodes, .inr taken⟩
  · rw [Mayfail, Action.ends_bind]
    refine (fillSlot_ends din ndirect m).mono ?_
    rintro later middle ⟨inodes, blocks⟩
    rw [Action.ends_bind]
    refine (rsect_ends _ middle).mono ?_
    rintro indirect next ⟨rfl, inside⟩
    have room : next.freeblock ≤ fsSize := by
      obtain same | taken := blocks
      · exact same ▸ full
      · exact taken ▸ inside
    dsimp only
    split
    · rw [takeBlock, Action.ends_bind]
      refine ⟨inodes, .inr ?_⟩
      have small : next.freeblock < 256 ^ 4 := Nat.lt_of_le_of_lt room (by decide)
      dsimp only
      rw [Memory.load_store_fits _ _ small]
    · exact ⟨inodes, .inl room⟩

theorem iappendFrom_ends (fuel : Nat) (din : Dinode) (off : Nat) (p : List UInt8) (m : Mkfs)
    (full : m.freeblock ≤ fsSize) :
    Mayfail (fun _ next => next.freeinode = m.freeinode ∧ next.freeblock ≤ fsSize)
      (iappendFrom fuel din off p m) := by
  induction fuel generalizing din off p m with
  | zero => exact ⟨rfl, full⟩
  | succ fuel inductionHypothesis =>
      rw [iappendFrom]
      split
      · dsimp only
        split
        · trivial
        · rw [Mayfail, Action.ends_bind]
          refine (appendBlock_ends din _ full).mono ?_
          rintro ⟨later, x⟩ middle ⟨inodes, blocks⟩
          rw [Action.ends_bind]
          refine (rsect_ends x middle).mono ?_
          rintro buf next ⟨rfl, inside⟩
          rw [Action.ends_bind]
          refine (wsect_ends x _ next).mono ?_
          rintro _ written ⟨same, also⟩
          have room : written.freeblock ≤ fsSize := by
            rw [also]
            obtain below | taken := blocks
            · exact below
            · exact taken ▸ inside
          rw [← inodes, ← same]
          exact inductionHypothesis later _ _ written room
      · exact ⟨rfl, full⟩

theorem iappend_ends (inum : Nat) (xp : List UInt8) (m : Mkfs) (full : m.freeblock ≤ fsSize) :
    Mayfail (fun _ next => next.freeinode = m.freeinode ∧ next.freeblock ≤ fsSize)
      (iappend inum xp m) := by
  rw [iappend, Mayfail, Action.ends_bind]
  refine (rinode_ends inum m).mono ?_
  rintro din _ rfl
  rw [Action.ends_bind]
  refine (iappendFrom_ends _ din _ xp _ full).mono ?_
  rintro ⟨later, off⟩ middle ⟨inodes, room⟩
  refine (winode_ends inum _ middle).mono ?_
  rintro _ next ⟨same, also⟩
  exact ⟨same.trans inodes, also ▸ room⟩

theorem ialloc_ends (type : Nat) (m : Mkfs) :
    Mayfail (fun inum next => inum = m.freeinode ∧ next.freeinode = m.freeinode + 1 ∧
      next.freeblock = m.freeblock) (ialloc type m) := by
  rw [ialloc, Action.get_bind, Action.modify_bind, Mayfail, Action.ends_bind]
  exact (winode_ends _ _ _).mono fun _ next kept => ⟨rfl, kept⟩

theorem appendContents_ends (inum fuel : Nat) (contents : List UInt8) (m : Mkfs)
    (full : m.freeblock ≤ fsSize) :
    Mayfail (fun _ next => next.freeinode = m.freeinode ∧ next.freeblock ≤ fsSize)
      (appendContents inum fuel contents m) := by
  induction fuel generalizing contents m with
  | zero => exact ⟨rfl, full⟩
  | succ fuel inductionHypothesis =>
      rw [appendContents]
      split
      · rw [Mayfail, Action.ends_bind]
        refine (iappend_ends inum _ m full).mono ?_
        rintro _ middle ⟨inodes, room⟩
        rw [← inodes]
        exact inductionHypothesis _ middle room
      · exact ⟨rfl, full⟩

/-- A file takes one inode. -/
theorem addFile_ends (file : InputFile) (m : Mkfs) (full : m.freeblock ≤ fsSize) :
    Mayfail (fun _ next => next.freeinode = m.freeinode + 1 ∧ next.freeblock ≤ fsSize)
      (addFile file m) := by
  rw [addFile]
  split
  · trivial
  · rw [Mayfail, Action.ends_bind]
    refine (ialloc_ends _ m).mono ?_
    rintro inum first ⟨-, taken, same⟩
    rw [Action.ends_bind]
    refine (iappend_ends _ _ first (same ▸ full)).mono ?_
    rintro _ second ⟨kept, room⟩
    rw [← taken, ← kept]
    exact appendContents_ends inum _ _ second room

theorem addFiles_ends (files : List InputFile) (m : Mkfs) (full : m.freeblock ≤ fsSize) :
    Mayfail (fun _ next => next.freeinode = m.freeinode + files.length ∧ next.freeblock ≤ fsSize)
      (addFiles files m) := by
  induction files generalizing m with
  | nil => exact ⟨rfl, full⟩
  | cons file rest inductionHypothesis =>
      rw [addFiles, Mayfail, Action.ends_bind]
      refine (addFile_ends file m full).mono ?_
      rintro _ middle ⟨taken, room⟩
      refine (inductionHypothesis middle room).mono ?_
      rintro _ next ⟨inodes, room⟩
      refine ⟨?_, room⟩
      rw [inodes, taken, List.length_cons]
      omega

theorem fixRoot_ends (m : Mkfs) :
    Mayfail (fun _ next => next.freeinode = m.freeinode ∧ next.freeblock = m.freeblock)
      (fixRoot m) := by
  rw [fixRoot, Mayfail, Action.ends_bind]
  refine (rinode_ends _ m).mono ?_
  rintro din _ rfl
  exact winode_ends _ _ _

theorem balloc_ends (used : Nat) (m : Mkfs) :
    Mayfail (fun _ next => next.freeinode = m.freeinode ∧ next.freeblock = m.freeblock)
      (balloc used m) := by
  rw [balloc]
  split
  · trivial
  · exact wsect_ends _ _ m

/-- There is an inode for the root and for every file, and no block outside the image. -/
theorem main_ends (files : List InputFile) :
    Mayfail (fun _ m => m.freeinode = files.length + 2 ∧ m.freeblock ≤ fsSize)
      (main files blank) := by
  rw [main, Mayfail, Action.ends_bind]
  refine (wsect_ends 1 _ blank).mono ?_
  rintro _ first ⟨inodes, blocks⟩
  have start : first.freeblock ≤ fsSize := by
    rw [blocks]
    decide
  rw [Action.ends_bind]
  refine (ialloc_ends _ first).mono ?_
  rintro inum second ⟨-, taken, same⟩
  split
  · trivial
  · rw [Action.ends_bind]
    refine (iappend_ends _ _ second (same ▸ start)).mono ?_
    rintro _ third ⟨dot, room⟩
    rw [Action.ends_bind]
    refine (iappend_ends _ _ third room).mono ?_
    rintro _ fourth ⟨dots, room⟩
    rw [Action.ends_bind]
    refine (addFiles_ends files fourth room).mono ?_
    rintro _ fifth ⟨added, room⟩
    rw [Action.ends_bind]
    refine (fixRoot_ends fifth).mono ?_
    rintro _ sixth ⟨fixed, also⟩
    rw [Action.get_bind]
    refine (balloc_ends _ sixth).mono ?_
    rintro _ last ⟨marked, kept⟩
    have begins : blank.freeinode = 1 := rfl
    exact ⟨by omega, by omega⟩

/-! ## When mkfs stays within its limits -/

/-- What `ialloc` has given out are inode numbers below NINODES with their place between the log
and the bitmap, and what `freeblock` has given out are blocks of the image. -/
structure Within (m : Mkfs) : Prop where
  inodes : ∀ inum, 1 ≤ inum → inum < m.freeinode → inum < ninodes
  region : ∀ inum, 1 ≤ inum → inum < m.freeinode →
    sb.inodestart ≤ sb.iblock inum ∧ sb.iblock inum < sb.bmapstart
  blocks : ∀ b, nmeta ≤ b → b < m.freeblock → b < fsSize

/-- When `mkfs` exits with 0 it has stayed within its limits exactly if there were at most 198
files. -/
theorem mkfs_within_iff (files : List InputFile) (m : Mkfs)
    (built : main files blank = .done () m) : Within m ↔ files.length ≤ 198 := by
  obtain ⟨inodes, blocks⟩ := (main_ends files).of_done built
  have table : ninodes = 200 := rfl
  constructor
  · intro within
    have last := within.inodes (files.length + 1) (by omega) (by omega)
    omega
  · intro few
    refine ⟨fun inum _ used => by omega, fun inum _ used => ?_, fun b _ used => by omega⟩
    have place := iblock_region (show inum < ninodes by omega)
    refine ⟨?_, place.2⟩
    rw [Superblock.iblock]
    exact Nat.le_add_left _ _

theorem mkfs_within_iff_three :
    ∃ m, main (letters 3) blank = .done () m ∧
      (Within m ↔ (letters 3).length ≤ 198) := by
  obtain ⟨m, run, -⟩ := main_finished (letters_fit (show 3 ≤ 30 by decide))
  exact ⟨m, run, mkfs_within_iff _ m run⟩

/-! ## A file too many -/

theorem winode_done {inum : Nat} (inImage : sb.iblock inum < fsSize) (ip : Dinode) (m : Mkfs) :
    winode inum ip m = .done () { m with
      image := Function.update m.image (sb.iblock inum)
        (putDinode (m.image (sb.iblock inum)) inum ip) } := by
  rw [winode, Action.bind_done (rsect_eq inImage m)]
  exact wsect_eq _ _ m

/-- A metadata block that is not of the first NINODES inodes changes. -/
theorem AtRest.elsewhere {types : Nat → Nat} {contents : Nat → List UInt8} {next : Mkfs} {sec : Nat}
    (atRest : AtRest types contents m) (super : sec ≠ 1) (metadata : sec < nmeta)
    (others : ∀ i < ninodes, sb.iblock i ≠ sec)
    (image : ∀ b, b ≠ sec → next.image b = m.image b) (freeblock : next.freeblock = m.freeblock) :
    AtRest types contents next := by
  have same : ∀ i < ninodes, table next i = table m i := by
    intro i below
    rw [table, image _ (others i below), table]
  refine ⟨?_, fun i below => ?_, fun i below => ?_, ?_⟩
  · rw [freeblock]
    refine atRest.filled.congr (fun i below k _ => by rw [same i below]) fun b data => image b ?_
    omega
  · rw [same i below]
    exact atRest.size i below
  · rw [same i below]
    exact atRest.type i below
  · rw [image 1 super.symm]
    exact atRest.super

/-- `mkfs` with 198 files and one more, all of them empty. -/
theorem addFile_exceeds {files : List InputFile} (fits : Fits files) (count : files.length = 198)
    {file : InputFile} (plain : UInt8.ofNat 47 ∉ file.path) (empty : file.contents = [])
    (atRest : AtRest (typesOf files) (contentsOf files) m) (counter : m.freeinode = 200) :
    ∃ next, addFile file m = .done () next := by
  have root := length_contentsOf_root files
  rw [count] at root
  obtain ⟨middle, allocated, image, freeblock⟩ : ∃ middle, ialloc tFile m = .done 200 middle ∧
      (∀ b, b ≠ 57 → middle.image b = m.image b) ∧ middle.freeblock = m.freeblock := by
    have place : sb.iblock 200 = 57 := by decide
    rw [ialloc, Action.get_bind, Action.modify_bind, counter,
      Action.bind_done (winode_done (show sb.iblock 200 < fsSize by decide) _ _), place]
    exact ⟨_, rfl, fun b other => Function.update_of_ne other .., rfl⟩
  have kept : AtRest (typesOf files) (contentsOf files) middle := by
    refine atRest.elsewhere (by decide) (by decide) (fun i below => ?_) image freeblock
    have start : sb.inodestart = 32 := by decide
    have perBlock : ipb = 8 := by decide
    have table : ninodes = 200 := rfl
    rw [Superblock.iblock, start, perBlock]
    omega
  obtain ⟨next, appended, -, -⟩ :=
    iappend_appends fits.affordable fits.limit (typesOf_lt files) kept
      (show rootino < ninodes by decide) (fun i _ => Nat.le_refl _)
      (p := dirent 200 (InputFile.name file)) (by rw [root, length_dirent]; decide)
  refine ⟨next, ?_⟩
  rw [addFile, if_neg plain, Action.bind_done allocated, Action.bind_done appended, empty]
  rfl

theorem fixRoot_balloc_done (full : m.freeblock ≤ fsSize) :
    ∃ last, (do
      fixRoot
      let used ← Action.get Mkfs.freeblock
      balloc used) m = .done () last := by
  have inside : rootino < ninodes := by decide
  have few : fsSize < bsize * 8 := by decide
  obtain ⟨fixed, fixing, same⟩ : ∃ fixed, fixRoot m = .done () fixed ∧
      fixed.freeblock = m.freeblock := by
    rw [fixRoot, Action.bind_done (rinode_eq inside m)]
    exact ⟨_, winode_done (by decide) _ m, rfl⟩
  obtain ⟨last, marked⟩ : ∃ last, balloc fixed.freeblock fixed = .done () last := by
    rw [balloc, if_neg (by omega)]
    exact ⟨_, wsect_eq _ _ fixed⟩
  refine ⟨last, ?_⟩
  rw [Action.bind_done fixing, Action.get_bind]
  exact marked

theorem addFiles_append {first : List InputFile} (second : List InputFile) {middle : Mkfs}
    (added : addFiles first m = .done () middle) :
    addFiles (first ++ second) m = addFiles second middle := by
  induction first generalizing m with
  | nil =>
      cases added
      rfl
  | cons file first inductionHypothesis =>
      rw [addFiles] at added
      rw [List.cons_append, addFiles]
      cases ran : addFile file m with
      | blocked => cases (Action.bind_blocked ran).symm.trans added
      | panic message => cases (Action.bind_panic ran).symm.trans added
      | done value next =>
          rw [Action.bind_done ran] at added ⊢
          exact inductionHypothesis added

/-- With one empty file more than there are inodes for, `mkfs` still exits with 0. -/
theorem main_exceeds {files : List InputFile} (fits : Fits files) (count : files.length = 198)
    {file : InputFile} (plain : UInt8.ofNat 47 ∉ file.path) (empty : file.contents = []) :
    ∃ m, main (files ++ [file]) blank = .done () m := by
  have entries : needed 32 ≤ needed (contentsOf files rootino).length :=
    needed_mono (by rw [length_contentsOf_root, count]; decide)
  obtain ⟨first, both, counter, starts⟩ := main_starts fits.affordable fits.limit entries
  obtain ⟨second, added, kept⟩ := addFiles_adds fits.affordable fits.limit both counter
    fits.plain fits.inodes fun i _ => Nat.le_refl _
  rw [List.nil_append] at kept
  have room : first.freeblock ≤ fsSize :=
    both.filled.freeblock_le (fits.affordable.mono fun i _ =>
      needed_mono (length_contentsOf_append [] files i))
  obtain ⟨inodes, full⟩ := (addFiles_ends files first room).of_done added
  rw [counter, count] at inodes
  obtain ⟨third, exceeds⟩ := addFile_exceeds fits count plain empty kept inodes
  obtain ⟨-, also⟩ := (addFile_ends _ second full).of_done exceeds
  obtain ⟨last, ended⟩ := fixRoot_balloc_done also
  have all : addFiles (files ++ [file]) first = .done () third := by
    rw [addFiles_append _ added, addFiles, Action.bind_done exceeds]
    rfl
  refine ⟨last, ?_⟩
  rw [starts, Action.bind_done all]
  exact ended

theorem numbered_plain : ∀ i : Fin 199, UInt8.ofNat 47 ∉
    [UInt8.ofNat (48 + i.val / 100), UInt8.ofNat (48 + i.val / 10 % 10),
      UInt8.ofNat (48 + i.val % 10)] := by
  decide +kernel

/-- An empty file with the three digits of a number as its name. -/
def numbered (i : Fin 199) : InputFile where
  path := [UInt8.ofNat (48 + i.val / 100), UInt8.ofNat (48 + i.val / 10 % 10),
    UInt8.ofNat (48 + i.val % 10)]
  contents := []

/-- As many files as there are inodes for. -/
def enough : List InputFile :=
  List.ofFn fun i : Fin 198 => numbered i.castSucc

theorem length_enough : enough.length = 198 := List.length_ofFn

theorem enough_fits : Fits enough where
  plain := by
    intro file member
    obtain ⟨i, rfl⟩ := List.mem_ofFn.mp member
    exact numbered_plain i.castSucc
  sizes := by
    intro file member
    obtain ⟨i, rfl⟩ := List.mem_ofFn.mp member
    exact Nat.zero_le _
  inodes := by
    rw [length_enough]
    decide
  blocks := by
    have none : (enough.map fun file => blocks (needed file.contents.length)).sum = 0 := by
      refine List.sum_eq_zero fun cost member => ?_
      obtain ⟨file, listed, rfl⟩ := List.mem_map.mp member
      obtain ⟨i, rfl⟩ := List.mem_ofFn.mp listed
      exact show blocks (needed 0) = 0 by decide
    rw [none, length_enough]
    decide

/-- 199 files with different names: `mkfs` exits with 0 and has used the inode number 200. -/
theorem mkfs_exceeds : ∃ files m, main files blank = .done () m ∧ ¬Within m := by
  obtain ⟨last, built⟩ := main_exceeds enough_fits length_enough
    (numbered_plain (Fin.last 198)) (show (numbered (Fin.last 198)).contents = [] from rfl)
  refine ⟨enough ++ [numbered (Fin.last 198)], last, built, fun within => ?_⟩
  have counter := ((main_ends _).of_done built).1
  rw [List.length_append, length_enough] at counter
  have used := within.inodes 200 (by decide) (by rw [counter]; decide)
  exact absurd used (by decide)

end Xv6.Fs.Mkfs
