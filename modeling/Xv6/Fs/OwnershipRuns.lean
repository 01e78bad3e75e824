import Xv6.Fs.InodeOps

/-!
# Block ownership over whole runs

The operations of the inode layer in any order, on any inodes, keep block
ownership.
-/

namespace Xv6.Fs

open Xv6.Library

variable {fs : FileSystem} {state start : FsState} {ip : InodePtr} {inum : Nat}

/-! ## References and the inode cache -/

/-- An entry that was referenced before keeps its inode number. -/
theorem FileSystem.CachedOnce.setInode (once : fs.CachedOnce) {inode : Inode}
    (kept : 0 < inode.ref → 0 < (fs.inode ip).ref ∧ inode.inum = (fs.inode ip).inum) :
    (fs.setInode ip inode).CachedOnce := by
  have refs : ∀ other, 0 < ((fs.setInode ip inode).inode other).ref →
      0 < (fs.inode other).ref ∧
        ((fs.setInode ip inode).inode other).inum = (fs.inode other).inum := by
    intro other positive
    by_cases here : other = ip
    · subst here
      simp only [FileSystem.setInode, Function.update_self] at positive ⊢
      exact kept positive
    · simp only [FileSystem.setInode, Function.update_of_ne here] at positive ⊢
      exact ⟨positive, trivial⟩
  intro a b first second same
  rcases refs a first with ⟨usedA, numberA⟩
  rcases refs b second with ⟨usedB, numberB⟩
  rw [numberA, numberB] at same
  exact once a b usedA usedB same

/-- The reference count of an entry changes, but no entry becomes referenced. -/
theorem Consistent.recount (consistent : Consistent none nowhere fs) (count : Int)
    (referenced : 0 < count → 0 < (fs.inode ip).ref) :
    Consistent none nowhere (fs.setInode ip { fs.inode ip with ref := count }) := by
  apply consistent.replace
  · exact consistent.once.setInode fun positive => ⟨referenced positive, rfl⟩
  · intro positive
    exact consistent.cached ip (referenced positive)
  · intro positive valid _ slot bound
    have live : fs.live (fs.inode ip).inum ip = true :=
      live_iff.mpr ⟨referenced positive, valid, rfl⟩
    refine ⟨(congrFun (addrs_of_live consistent.once live) slot).symm, ?_⟩
    exact consistent.behind ip (by simp) (referenced positive) valid slot bound

/-- `ip->ref--` -/
theorem Consistent.release (consistent : Consistent none nowhere fs) (ip : InodePtr) :
    Consistent none nowhere
      (fs.setInode ip { fs.inode ip with ref := (fs.inode ip).ref - 1 }) := by
  apply consistent.recount
  omega

/-- The in-memory copy of an inode is dropped. -/
theorem Consistent.invalidate (consistent : Consistent none nowhere fs) (ip : InodePtr) :
    Consistent none nowhere (fs.setInode ip { fs.inode ip with valid := false }) := by
  apply consistent.replace
  · exact consistent.once.setInode fun positive => ⟨positive, rfl⟩
  · exact consistent.cached ip
  · intro _ valid
    cases valid

theorem iget_sound (sound : Sound state) (inside : inum < state.sb.ninodes) :
    (iget inum state).Ends (fun message => message = "iget: no inodes") fun _ next =>
      Sound next := by
  have consistent := sound.consistent
  rw [iget, Action.ends_bind, Action.ends_get]
  cases cached : (List.finRange ninode).find? fun ip =>
      decide (0 < (state.inode ip).ref) && (state.inode ip).inum == inum with
  | some ip =>
      have found := List.find?_some cached
      simp only [Bool.and_eq_true, decide_eq_true_eq, beq_iff_eq] at found
      rw [Action.ends_bind]
      exact ⟨consistent.recount _ fun _ => found.1, sound.calls⟩
  | none =>
      have absent : ∀ other, 0 < (state.inode other).ref → (state.inode other).inum ≠ inum := by
        intro other referenced same
        have missing := List.find?_eq_none.mp cached other (List.mem_finRange other)
        simp [referenced, same] at missing
      cases recycled : (List.finRange ninode).find? fun ip => (state.inode ip).ref == 0 with
      | none => rfl
      | some empty =>
          have free := List.find?_some recycled
          simp only [beq_iff_eq] at free
          rw [Action.ends_bind]
          refine ⟨?_, sound.calls⟩
          apply consistent.replace
          · intro a b first second same
            by_cases here : a = empty
            · by_cases there : b = empty
              · rw [here, there]
              · subst here
                simp only [FileSystem.setInode, Function.update_self,
                  Function.update_of_ne there] at second same
                exact absurd same.symm (absent b second)
            · by_cases there : b = empty
              · subst there
                simp only [FileSystem.setInode, Function.update_self,
                  Function.update_of_ne here] at first same
                exact absurd same (absent a first)
              · simp only [FileSystem.setInode, Function.update_of_ne here,
                  Function.update_of_ne there] at first second same
                exact consistent.once a b first second same
          · intro _
            exact inside
          · intro _ valid
            cases valid

theorem idup_sound (sound : Sound state) (referenced : 0 < (state.inode ip).ref) :
    (idup ip state).Ends (fun _ => False) fun _ next => Sound next := by
  rw [idup, Action.ends_bind]
  exact ⟨sound.consistent.recount _ fun _ => referenced, sound.calls⟩

theorem ilock_sound (sound : Sound state) :
    (ilock ip state).Ends (fun message => message = "ilock" ∨ message = "ilock: no type")
      fun _ next => Sound next := by
  have consistent := sound.consistent
  rw [ilock, Action.ends_bind, Action.ends_get]
  by_cases unused : (state.inode ip).ref < 1
  · rw [if_pos unused]
    exact Or.inl rfl
  · rw [if_neg unused]
    have referenced : 0 < (state.inode ip).ref := by omega
    by_cases stale : (state.inode ip).valid = false
    · rw [if_pos stale, Action.ends_bind]
      have loaded : Consistent none nowhere (state.toFileSystem.setInode ip
          { state.inode ip with
            toDinode := state.dinode (state.inode ip).inum, valid := true }) := by
        apply consistent.replace
        · exact consistent.once.setInode fun positive => ⟨positive, rfl⟩
        · exact consistent.cached ip
        · intro _ _ _ slot _
          have nobody : ∀ other, state.live (state.inode ip).inum other = false := by
            intro other
            cases live : state.live (state.inode ip).inum other with
            | false => rfl
            | true =>
                rcases live_iff.mp live with ⟨used, valid, same⟩
                rw [consistent.once other ip used referenced same, stale] at valid
                cases valid
          exact ⟨(congrFun (addrs_of_disk nobody) slot).symm, fun _ => rfl⟩
      rw [onFs, Action.ends_modify, Action.ends_bind, Action.ends_get]
      split
      · exact Or.inr rfl
      · exact ⟨loaded, sound.calls⟩
    · rw [if_neg stale]
      exact sound

theorem iput_sound (sound : Sound state) (referenced : 0 < (state.inode ip).ref) :
    (iput ip state).Ends (fun _ => False) fun _ next => Sound next := by
  rw [iput, Action.ends_bind, Action.ends_get]
  by_cases last : (state.inode ip).valid = true ∧ (state.inode ip).nlink = 0 ∧
      (state.inode ip).ref = 1
  · rw [if_pos last, Action.ends_bind]
    have live : state.live (state.inode ip).inum ip = true :=
      live_iff.mpr ⟨referenced, last.1, rfl⟩
    refine (itrunc_ends sound live).mono ?_
    rintro - middle ⟨after, still, -⟩
    rcases live_iff.mp still with ⟨used, valid, number⟩
    have touched := after.consistent.touch still { middle.inode ip with type := 0 }
      rfl valid number rfl
    have updated := touched.1.updated touched.2 (by simp)
    simp only [Action.ends_bind]
    exact ⟨(updated.invalidate ip).release ip, after.calls⟩
  · rw [if_neg last]
    exact ⟨sound.consistent.release ip, sound.calls⟩

/-- The operations of the inode layer. -/
inductive FsOp where
  | balloc
  | bmap (ip : InodePtr) (bn : Nat)
  | writei (ip : InodePtr) (src : Memory) (off n : UInt32)
  | itrunc (ip : InodePtr)
  | iput (ip : InodePtr)
  | iget (inum : Nat)
  | idup (ip : InodePtr)
  | ilock (ip : InodePtr)
  | ialloc (type : Nat)
  /-- `create`, `sys_link` and `sys_unlink` set fields of a locked inode and
  call `iupdate`. -/
  | relink (ip : InodePtr) (major minor nlink : Nat)

/-- The caller holds a reference to the inode it passes, and has locked it for
the functions that read or change its content. -/
def FsOp.Callable (state : FsState) : FsOp → Prop
  | .balloc => True
  | .bmap ip _ => 0 < (state.inode ip).ref ∧ (state.inode ip).valid = true
  | .writei ip _ _ _ => 0 < (state.inode ip).ref ∧ (state.inode ip).valid = true
  | .itrunc ip => 0 < (state.inode ip).ref ∧ (state.inode ip).valid = true
  | .iput ip => 0 < (state.inode ip).ref
  | .iget inum => inum < state.sb.ninodes
  | .idup ip => 0 < (state.inode ip).ref
  | .ilock _ => True
  | .ialloc _ => True
  | .relink ip _ _ _ => 0 < (state.inode ip).ref ∧ (state.inode ip).valid = true

instance (state : FsState) (op : FsOp) : Decidable (op.Callable state) := by
  cases op <;> unfold FsOp.Callable <;> infer_instance

def FsOp.run : FsOp → Action FsState Unit
  | .balloc => do
      let _ ← Fs.balloc
  | .bmap ip bn => do
      let _ ← Fs.bmap ip bn
  | .writei ip src off n => do
      let _ ← Fs.writei ip src off n
  | .itrunc ip => Fs.itrunc ip
  | .iput ip => Fs.iput ip
  | .iget inum => do
      let _ ← Fs.iget inum
  | .idup ip => do
      let _ ← Fs.idup ip
  | .ilock ip => Fs.ilock ip
  | .ialloc type => do
      let _ ← Fs.ialloc type
  | .relink ip major minor nlink => do
      onFs fun fs =>
        fs.setInode ip { fs.inode ip with major := major, minor := minor, nlink := nlink }
      iupdate ip

def FsState.step (state : FsState) (op : FsOp) : Outcome FsState Unit :=
  if op.Callable state then op.run state else .blocked

def FsState.next (state : FsState) (op : FsOp) : Option FsState := (state.step op).state?

/-- The panics of the inode layer. -/
def FsPanic (message : String) : Prop :=
  FilePanic message ∨ message = "iget: no inodes" ∨ message = "ialloc: no inodes" ∨
    message = "ilock" ∨ message = "ilock: no type"

/-- The dinode of a free inode is cleared on the disk. -/
theorem Consistent.erase (consistent : Consistent none nowhere fs) (inside : inum < fs.sb.ninodes)
    (type : Nat) :
    Consistent none nowhere (fs.setBlock (fs.sb.iblock inum)
      (((fs.block (fs.sb.iblock inum)).write (dinodeOffset inum) (List.replicate 64 0)).store
        (dinodeOffset inum) 2 type)) := by
  generalize written : ((fs.block (fs.sb.iblock inum)).write (dinodeOffset inum)
    (List.replicate 64 0)).store (dinodeOffset inum) 2 type = data
  have others : ∀ other slot, other ≠ inum → slot ≤ ndirect →
      ((fs.setBlock (fs.sb.iblock inum) data).dinode other).addrs slot =
        (fs.dinode other).addrs slot := by
    intro other slot different bound
    apply dinode_addrs_setBlock _ different bound
    intro location outside
    rw [← written, Memory.store_outside _ _ (by omega), Memory.write_outside]
    simpa using outside
  have cleared : ∀ slot ≤ ndirect,
      ((fs.setBlock (fs.sb.iblock inum) data).dinode inum).addrs slot = 0 := by
    intro slot bound
    have twelve : slot ≤ 12 := bound
    simp only [FileSystem.dinode, FileSystem.setBlock, Function.update_self, dinodeOf]
    have zero : data.load (dinodeOffset inum + 12 + 4 * slot) 4 =
        Memory.load (fun _ => 0) (dinodeOffset inum + 12 + 4 * slot) 4 := by
      apply Memory.load_congr
      intro offset below
      rw [← written, Memory.store_outside _ _ (Or.inr (by omega)),
        show dinodeOffset inum + 12 + 4 * slot + offset =
          dinodeOffset inum + (12 + 4 * slot + offset) by omega,
        Memory.write_inside _ _ (by simp only [List.length_replicate]; omega),
        List.getElem_replicate]
    rw [zero]
    rfl
  have region := consistent.layout.iblock_region inside
  have addrs : ∀ other, ∀ slot ≤ ndirect,
      (fs.setBlock (fs.sb.iblock inum) data).addrs other slot ≠ 0 →
        (fs.setBlock (fs.sb.iblock inum) data).addrs other slot = fs.addrs other slot := by
    intro other slot bound nonzero
    by_cases same : other = inum
    · subst same
      by_cases live : ∃ ip, fs.live other ip = true
      · rcases live with ⟨ip, live⟩
        have once : (fs.setBlock (fs.sb.iblock other) data).CachedOnce := consistent.once
        have still : (fs.setBlock (fs.sb.iblock other) data).live other ip = true := live
        rw [addrs_of_live once still, addrs_of_live consistent.once live]
        rfl
      · have nobody : ∀ ip, (fs.setBlock (fs.sb.iblock other) data).live other ip = false := by
          intro ip
          exact Bool.eq_false_iff.mpr fun cached => live ⟨ip, cached⟩
        rw [addrs_of_disk nobody, cleared slot bound] at nonzero
        exact absurd rfl nonzero
    · apply addrs_congr
      · rfl
      · exact others other slot same bound
  have used : ∀ c, fs.DataBlock c → (fs.setBlock (fs.sb.iblock inum) data).DataBlock c := by
    intro c old
    have map := bblock_region fs.sb old.size
    refine ⟨old.start, old.size, (used_setBlock data ?_).mpr old.used⟩
    omega
  refine ⟨consistent.layout.setDinode data inside, ?_, consistent.once, consistent.cached, ?_⟩
  · refine consistent.owned.restrict (fun place c held => ⟨?_, held.2⟩) fun place c _ => used c
    refine holds_of_addrs ?_ ?_ ?_ held.1
    · rfl
    · intro other _ slot bound
      exact addrs other slot bound
    · intro other within nonzero
      have kept := addrs other ndirect (Nat.le_refl _) nonzero
      rw [kept] at nonzero ⊢
      rcases consistent.addrs_fit within (Nat.le_refl _) with zero | data
      · exact absurd zero nonzero
      · have bitmap := bmapstart_lt_dataStart fs.sb
        have start := data.start
        have different : fs.addrs other ndirect ≠ fs.sb.iblock inum := by omega
        simp only [FileSystem.setBlock, Function.update_of_ne different]
  · intro ip tight referenced valid slot bound
    by_cases same : (fs.inode ip).inum = inum
    · intro nonzero
      change ((fs.setBlock (fs.sb.iblock inum) data).dinode (fs.inode ip).inum).addrs slot ≠ 0
        at nonzero
      rw [same, cleared slot bound] at nonzero
      exact absurd rfl nonzero
    · change ((fs.setBlock (fs.sb.iblock inum) data).dinode (fs.inode ip).inum).addrs slot ≠ 0 →
        ((fs.setBlock (fs.sb.iblock inum) data).dinode (fs.inode ip).inum).addrs slot =
          (fs.inode ip).addrs slot
      rw [others _ slot same bound]
      exact consistent.behind ip tight referenced valid slot bound

theorem ialloc_sound (sound : Sound state) (type : Nat) :
    (ialloc type state).Ends FsPanic fun _ next => Sound next := by
  rw [ialloc, Action.ends_bind, Action.ends_get]
  cases found : (List.range' 1 (state.sb.ninodes - 1)).find? fun inum =>
      (state.dinode inum).type == 0 with
  | none => exact Or.inr (Or.inr (Or.inl rfl))
  | some inum =>
      have member := List.mem_range'_1.mp (List.mem_of_find?_eq_some found)
      have inside : inum < state.sb.ninodes := by omega
      have erased := sound.consistent.erase inside type
      have cleared : Sound ⟨_, state.calls⟩ := ⟨erased, sound.calls⟩
      rw [Action.ends_bind]
      refine (iget_sound cleared inside).imp ?_ fun _ _ done => done
      exact fun _ full => Or.inr (Or.inl full)

/-- Every operation keeps ownership, and only these panics are possible. -/
theorem step_sound (sound : Sound state) (op : FsOp) (callable : op.Callable state) :
    (state.step op).Ends FsPanic fun _ next => Sound next := by
  have live : ∀ ip : InodePtr, 0 < (state.inode ip).ref ∧ (state.inode ip).valid = true →
      state.live (state.inode ip).inum ip = true := by
    rintro ip ⟨referenced, valid⟩
    exact live_iff.mpr ⟨referenced, valid, rfl⟩
  rw [FsState.step, if_pos callable]
  cases op with
  | balloc =>
      rw [FsOp.run, Action.ends_bind]
      exact (balloc_sound sound).imp (fun _ full => Or.inl (Or.inl full.1)) fun _ _ done => done.1
  | bmap ip bn =>
      rw [FsOp.run, Action.ends_bind]
      exact (bmap_ends sound (live ip callable) bn).imp (fun _ wrong => Or.inl wrong.filePanic)
        fun _ _ done => done.1
  | writei ip src off n =>
      rw [FsOp.run, Action.ends_bind]
      exact (writei_sound src off n sound (live ip callable)).imp (fun _ full => Or.inl full)
        fun _ _ done => done
  | itrunc ip =>
      exact (itrunc_ends sound (live ip callable)).imp (fun _ never => never.elim)
        fun _ _ done => done.1
  | iput ip =>
      exact (iput_sound sound callable).imp (fun _ never => never.elim) fun _ _ done => done
  | iget inum =>
      rw [FsOp.run, Action.ends_bind]
      exact (iget_sound sound callable).imp (fun _ full => Or.inr (Or.inl full))
        fun _ _ done => done
  | idup ip =>
      rw [FsOp.run, Action.ends_bind]
      exact (idup_sound sound callable).imp (fun _ never => never.elim) fun _ _ done => done
  | ilock ip =>
      exact (ilock_sound sound).imp (fun _ wrong => Or.inr (Or.inr (Or.inr wrong)))
        fun _ _ done => done
  | ialloc type =>
      rw [FsOp.run, Action.ends_bind]
      exact (ialloc_sound sound type).mono fun _ _ done => done
  | relink ip major minor nlink =>
      have touched := sound.consistent.touch (live ip callable)
        { state.inode ip with major := major, minor := minor, nlink := nlink }
        rfl callable.2 rfl rfl
      rw [FsOp.run, Action.ends_bind]
      exact ⟨touched.1.updated touched.2 (by simp), sound.calls⟩

/-! ## Runs -/

/-- A disk on which block ownership holds, before any inode is cached. -/
structure Image (start : FsState) : Prop where
  layout : Layout start.toFileSystem
  owned : start.BlocksOwned
  uncached : ∀ ip, (start.inode ip).ref = 0
  calls : start.calls = []

theorem Image.sound (image : Image start) : Sound start where
  consistent := by
    refine ⟨image.layout, ?_, ?_, ?_, ?_⟩
    · exact image.owned.restrict (fun place c held => held.1) fun place c _ given => given
    · intro a b referenced
      rw [image.uncached a] at referenced
      exact absurd referenced (by decide)
    · intro ip referenced
      rw [image.uncached ip] at referenced
      exact absurd referenced (by decide)
    · intro ip _ referenced
      rw [image.uncached ip] at referenced
      exact absurd referenced (by decide)
  calls := by
    rw [image.calls]
    simp

theorem sound_run (image : Image start) {ops : List FsOp}
    (ran : runs FsState.next start ops = some state) : Sound state := by
  refine runs_invariant (fun _ current => Sound current) image.sound ?_ ran
  intro past current op after sound stepped
  unfold FsState.next at stepped
  cases outcome : current.step op with
  | blocked => simp [outcome, Outcome.state?] at stepped
  | panic message => simp [outcome, Outcome.state?] at stepped
  | done value next =>
      have callable : op.Callable current := by
        by_contra refused
        rw [FsState.step, if_neg refused] at outcome
        cases outcome
      have ends := step_sound sound op callable
      rw [outcome] at ends stepped
      cases stepped
      exact ends

/-- After every sequence of operations all held block numbers are distinct used
blocks of the data region, `bfree` never finds its block free, and every call
of `balloc` returned a zeroed block that nobody used. -/
theorem blockOwnership (start : FsState) (image : Image start) (ops : List FsOp) (state : FsState)
    (ran : runs FsState.next start ops = some state) :
    state.BlocksOwned ∧ (∀ op, state.step op ≠ .panic "freeing free block") ∧
      ∀ call ∈ state.calls, call.Fresh := by
  have sound := sound_run image ran
  refine ⟨?_, ?_, sound.calls⟩
  · exact sound.consistent.owned.restrict (fun place c held => ⟨held, fun gone => gone⟩)
      fun place c _ given => given
  · intro op panics
    have callable : op.Callable state := by
      by_contra refused
      rw [FsState.step, if_neg refused] at panics
      cases panics
    have possible := (step_sound sound op callable).of_panic panics
    revert possible
    unfold FsPanic FilePanic
    decide

/-- The superblock that `mkfs` writes. -/
def mkfsSuperblock : Superblock where
  size := 1000
  nblocks := 941
  ninodes := 200
  nlog := 30
  logstart := 2
  inodestart := 32
  bmapstart := 58

/-- A disk with no files: the superblock, and the bits of the first 59 blocks. -/
def blankDisk : FsState where
  block b :=
    if b = 1 then
      ((((((Memory.store (fun _ => 0) 0 4 1000).store 4 4 941).store 8 4 200).store 12 4 30).store
        16 4 2).store 20 4 32).store 24 4 58
    else if b = 58 then fun offset => if offset < 7 then 255 else if offset = 7 then 7 else 0
    else fun _ => 0
  sb := mkfsSuperblock
  inode _ :=
    { type := 0, major := 0, minor := 0, nlink := 0, size := 0, addrs := fun _ => 0, inum := 0,
      ref := 0, valid := false }
  calls := []

theorem blankDisk_image : Image blankDisk where
  layout := by
    constructor
    · decide +kernel
    · decide
    · decide
    · decide +kernel
    · decide
    · decide +kernel
  owned := by
    have region : ∀ inum < 200, mkfsSuperblock.iblock inum ≠ 1 ∧ mkfsSuperblock.iblock inum ≠ 58 := by
      decide +kernel
    have empty : ∀ inum < 200, ∀ k, blankDisk.addrs inum k = 0 := by
      intro inum inside k
      have zero : blankDisk.block (blankDisk.sb.iblock inum) = fun _ => 0 := by
        rcases region inum inside with ⟨super, map⟩
        simp only [blankDisk]
        rw [if_neg super, if_neg map]
      rw [addrs_of_disk fun _ => rfl, FileSystem.dinode, zero]
      rfl
    have none : ∀ place b, ¬blankDisk.Holds place b := by
      intro place b held
      cases place with
      | addr inum k =>
          rcases held.addr_cases with ⟨inside, -, value⟩
          rw [empty inum inside k] at value
          exact held.1 value.symm
      | entry inum j =>
          rcases held.entry_cases with ⟨inside, -, nonzero, -⟩
          exact nonzero (empty inum inside ndirect)
    exact ⟨fun place b held => absurd held (none place b),
      fun first _ b held => absurd held (none first b)⟩
  uncached _ := rfl
  calls := rfl

/-- A file is made, gets two blocks, and is freed. -/
def oneFile : List FsOp :=
  let ip : InodePtr := ⟨0, by decide⟩
  [.ialloc tFile, .ilock ip, .bmap ip 0, .bmap ip 3, .iput ip]

theorem blockOwnership_once : ∃ state, runs FsState.next blankDisk oneFile = some state ∧
    state.BlocksOwned ∧ state.calls.map Allocation.result = [60, 59] ∧
    ∀ call ∈ state.calls, call.Fresh := by
  have results : (runs FsState.next blankDisk oneFile).map
      (fun state => state.calls.map Allocation.result) = some [60, 59] := by decide +kernel
  rcases Option.map_eq_some_iff.mp results with ⟨state, ran, numbers⟩
  rcases blockOwnership blankDisk blankDisk_image oneFile state ran with ⟨owned, -, fresh⟩
  exact ⟨state, ran, owned, numbers, fresh⟩

end Xv6.Fs
