import Xv6.Fs.SharedFile
import Xv6.Library.Ghost

/-!
# The blocks of one transaction

`writei` once more, with the blocks for which it and its callees call
`log_write`. One chunk of `filewrite` fits what `begin_op` reserved.
-/

namespace Xv6.Fs

open Xv6.Library

/-! ## What is logged -/

/-- The file system, and the blocks that have been logged, oldest first. -/
structure Traced where
  fs : FsState
  logged : List Nat

namespace Traced

/-- A part of a function that logs nothing. -/
def quiet {Value : Type} (action : Action FsState Value) : Action Traced Value :=
  Action.focus Traced.fs (fun trace fs => { trace with fs := fs }) action

/-- Caller has modified the data of block `bno` and is done with the buffer. -/
def logWrite (bno : Nat) : Action Traced Unit :=
  Action.modify fun trace => { trace with logged := trace.logged ++ [bno] }

def bzero (bno : Nat) : Action Traced Unit := do
  quiet (Fs.bzero bno)
  logWrite bno

def balloc : Action Traced Nat := do
  let before ← Action.get fun trace : Traced => trace.fs.toFileSystem
  match before.freeBlock with
  | some (b, bi) =>
      quiet (onFs fun fs => fs.setBlock (fs.sb.bblock b) (setBit (fs.block (fs.sb.bblock b)) bi))
      logWrite (before.sb.bblock b)
      bzero (b + bi)
      quiet (Action.modify fun state =>
        { state with calls := ⟨before, b + bi, state.toFileSystem⟩ :: state.calls })
      return b + bi
  | none => Action.panic "balloc: out of blocks"

def iupdate (ip : InodePtr) : Action Traced Unit := do
  let bno ← Action.get fun trace : Traced =>
    trace.fs.sb.iblock (trace.fs.inode ip).inum
  quiet (Fs.iupdate ip)
  logWrite bno

def bmapEntry (ip : InodePtr) (bn : Nat) : Action Traced Nat := do
  let bp ← Action.get fun trace : Traced => (trace.fs.inode ip).addrs ndirect
  let addr ← Action.get fun trace : Traced =>
    (trace.fs.block bp).load (4 * bn) 4
  if addr = 0 then
    let addr ← balloc
    quiet (onFs fun fs => fs.setBlock bp ((fs.block bp).store (4 * bn) 4 addr))
    logWrite bp
    return addr
  else return addr

def bmap (ip : InodePtr) (bn : Nat) : Action Traced Nat := do
  let inode ← Action.get fun trace : Traced => trace.fs.inode ip
  if bn < ndirect then
    if inode.addrs bn = 0 then
      let addr ← balloc
      quiet (onFs fun fs =>
        fs.setInode ip { fs.inode ip with addrs := Function.update (fs.inode ip).addrs bn addr })
      return addr
    else return inode.addrs bn
  else if bn - ndirect < nindirect then
    if inode.addrs ndirect = 0 then
      let addr ← balloc
      quiet (onFs fun fs =>
        fs.setInode ip
          { fs.inode ip with addrs := Function.update (fs.inode ip).addrs ndirect addr })
      bmapEntry ip (bn - ndirect)
    else bmapEntry ip (bn - ndirect)
  else Action.panic "bmap: out of range"

def writeiFrom (ip : InodePtr) (src : Memory) (n : Nat) : Nat → Nat → Nat → Action Traced Nat
  | 0, _, off => return off
  | fuel + 1, tot, off =>
      if tot < n then do
        let bp ← bmap ip (off / bsize)
        let m := min (n - tot) (bsize - off % bsize)
        quiet (onFs fun fs =>
          fs.setBlock bp ((fs.block bp).write (off % bsize) (src.read tot m)))
        logWrite bp
        writeiFrom ip src n fuel (tot + m) (off + m)
      else return off

def writei (ip : InodePtr) (src : Memory) (off n : UInt32) : Action Traced Int := do
  let inode ← Action.get fun trace : Traced => trace.fs.inode ip
  if inode.type = tDev then
    if short inode.major < 0 ∨ ndev ≤ short inode.major then return -1
    else
      match devswWrite (short inode.major) with
      | none => return -1
      | some write => return write n.toInt32.toInt
  else if inode.size < off.toNat ∨ off + n < off then return -1
  else if maxFile * bsize < (off + n).toNat then return -1
  else
    let off ← writeiFrom ip src n.toNat n.toNat 0 off.toNat
    if 0 < n ∧ inode.size < off then
      quiet (onFs fun fs => fs.setInode ip { fs.inode ip with size := off })
      iupdate ip
    return n.toInt32.toInt

/-! ## The same functions -/

variable {ip : InodePtr} {Value : Type}

theorem quiet_follows (action : Action FsState Value) :
    Follows Traced.fs (quiet action) action :=
  follows_focus (fun _ _ => rfl) action

/-- `log_write` leaves the file system alone. -/
theorem logWrite_note (bno : Nat) (trace : Traced) :
    ∃ later, logWrite bno trace = .done () later ∧ later.fs = trace.fs :=
  ⟨_, rfl, rfl⟩

theorem bzero_follows (bno : Nat) : Follows Traced.fs (bzero bno) (Fs.bzero bno) := by
  intro trace
  rfl

theorem balloc_follows : Follows Traced.fs balloc Fs.balloc := by
  apply Follows.bind (follows_get _)
  intro before
  cases before.freeBlock with
  | none => exact follows_panic _
  | some found =>
      apply (quiet_follows _).bind
      intro _
      apply Follows.note (logWrite_note _)
      apply (bzero_follows _).bind
      intro _
      apply (quiet_follows _).bind
      intro _
      exact follows_pure _

theorem iupdate_follows (ip : InodePtr) :
    Follows Traced.fs (iupdate ip) (Fs.iupdate ip) := by
  intro trace
  rfl

theorem bmapEntry_follows (ip : InodePtr) (bn : Nat) :
    Follows Traced.fs (bmapEntry ip bn) (Fs.bmapEntry ip bn) := by
  apply Follows.bind (follows_get fun state : FsState => (state.inode ip).addrs ndirect)
  intro bp
  apply Follows.bind (follows_get fun state : FsState => (state.block bp).load (4 * bn) 4)
  intro addr
  apply Follows.ite
  · apply balloc_follows.bind
    intro addr
    apply (quiet_follows _).bind
    intro _
    exact Follows.note (logWrite_note _) (follows_pure _)
  · exact follows_pure _

theorem bmap_follows (ip : InodePtr) (bn : Nat) :
    Follows Traced.fs (bmap ip bn) (Fs.bmap ip bn) := by
  apply Follows.bind (follows_get fun state : FsState => state.inode ip)
  intro inode
  apply Follows.ite
  · apply Follows.ite
    · apply balloc_follows.bind
      intro addr
      apply (quiet_follows _).bind
      intro _
      exact follows_pure _
    · exact follows_pure _
  · apply Follows.ite
    · apply Follows.ite
      · apply balloc_follows.bind
        intro addr
        apply (quiet_follows _).bind
        intro _
        exact bmapEntry_follows ip _
      · exact bmapEntry_follows ip _
    · exact follows_panic _

theorem writeiFrom_follows (ip : InodePtr) (src : Memory) (n fuel tot off : Nat) :
    Follows Traced.fs (writeiFrom ip src n fuel tot off)
      (Fs.writeiFrom ip src n fuel tot off) := by
  induction fuel generalizing tot off with
  | zero => exact follows_pure _
  | succ fuel inductionHypothesis =>
      unfold writeiFrom Fs.writeiFrom
      apply Follows.ite
      · apply (bmap_follows ip _).bind
        intro bp
        apply (quiet_follows _).bind
        intro _
        exact Follows.note (logWrite_note _) (inductionHypothesis _ _)
      · exact follows_pure _

/-- Apart from the list of blocks it is `writei`. -/
theorem writei_follows (ip : InodePtr) (src : Memory) (off n : UInt32) :
    Follows Traced.fs (writei ip src off n) (Fs.writei ip src off n) := by
  apply Follows.bind (follows_get fun state : FsState => state.inode ip)
  intro inode
  apply Follows.ite
  · apply Follows.ite
    · exact follows_pure _
    · cases devswWrite (short inode.major) with
      | none => exact follows_pure _
      | some write => exact follows_pure _
  · apply Follows.ite
    · exact follows_pure _
    · apply Follows.ite
      · exact follows_pure _
      · apply (writeiFrom_follows ip src _ _ _ _).bind
        intro last
        apply Follows.ite
        · apply (quiet_follows _).bind
          intro _
          apply (iupdate_follows ip).bind
          intro _
          exact follows_pure _
        · exact follows_pure _

/-! ## How many blocks -/

variable {inum : Nat} {trace : Traced}

/-- The bitmap block with the new block's bit, and the new block. -/
theorem balloc_logs (trace : Traced) :
    (balloc trace).Ends (fun _ => True) fun b next =>
      next.fs.inode = trace.fs.inode ∧
        ∃ map, next.logged = trace.logged ++ [map, b] := by
  rw [balloc, Action.get_bind]
  cases trace.fs.freeBlock with
  | none => trivial
  | some found =>
      refine ⟨rfl, trace.fs.sb.bblock found.1, ?_⟩
      exact List.append_assoc _ [_] [_]

theorem bmapEntry_logs (trace : Traced) (bn : Nat) :
    (bmapEntry ip bn trace).Ends (fun _ => True) fun b next =>
      next.fs.inode = trace.fs.inode ∧
        (next.logged = trace.logged ∨
          (trace.fs.block ((trace.fs.inode ip).addrs ndirect)).load (4 * bn) 4 = 0 ∧
            ∃ map, next.logged =
              trace.logged ++ [map, b, (trace.fs.inode ip).addrs ndirect]) := by
  rw [bmapEntry, Action.get_bind, Action.get_bind]
  split
  · next empty =>
      rw [Action.ends_bind]
      apply (balloc_logs trace).mono
      rintro b middle ⟨inode, map, appended⟩
      refine ⟨inode, Or.inr ⟨empty, map, ?_⟩⟩
      change middle.logged ++ [_] = _
      rw [appended, List.append_assoc]
      rfl
  · exact ⟨rfl, Or.inl rfl⟩

/-- `bmap(ip, bn)` logs the block it returns, the indirect block, and the bitmap block of each
block it allocates. -/
structure Looked (inum : Nat) (ip : InodePtr) (bn b : Nat) (before after : Traced) :
    Prop where
  maps : ∃ maps more : List Nat, maps.length ≤ before.fs.missing inum bn ∧
    after.logged = before.logged ++ more ∧ ∀ x ∈ more,
      x = b ∨ x ∈ maps ∨ ndirect ≤ bn ∧ x = (after.fs.inode ip).addrs ndirect

theorem Looked.found {bn b : Nat} {next : Traced} (same : next.logged = trace.logged) :
    Looked inum ip bn b trace next :=
  ⟨[], [], Nat.zero_le _, by rw [same, List.append_nil], nofun⟩

/-- The indirect block is there. -/
theorem bmapEntry_looks {bn : Nat} (indirect : ndirect ≤ bn)
    (entry : (trace.fs.block ((trace.fs.inode ip).addrs ndirect)).load
      (4 * (bn - ndirect)) 4 = 0 → 1 ≤ trace.fs.missing inum bn) :
    (bmapEntry ip (bn - ndirect) trace).Ends (fun _ => True) fun b next =>
      Looked inum ip bn b trace next := by
  apply (bmapEntry_logs trace (bn - ndirect)).mono
  rintro b next ⟨kept, same | ⟨zero, map, appended⟩⟩
  · exact Looked.found same
  · refine ⟨[map], _, entry zero, appended, ?_⟩
    rw [kept]
    simp [indirect]

/-- The indirect block `c` was just allocated. -/
theorem bmapEntry_looks_new {bn c map : Nat} {middle : Traced} (indirect : ndirect ≤ bn)
    (missing : trace.fs.missing inum bn = 2)
    (new : (middle.fs.inode ip).addrs ndirect = c)
    (appended : middle.logged = trace.logged ++ [map, c]) :
    (bmapEntry ip (bn - ndirect) middle).Ends (fun _ => True) fun b next =>
      Looked inum ip bn b trace next := by
  apply (bmapEntry_logs middle (bn - ndirect)).mono
  rintro b next ⟨kept, same | ⟨-, other, more⟩⟩
  · refine ⟨[map], [map, c], ?_, same.trans appended, ?_⟩
    · rw [missing]
      exact Nat.le_succ 1
    · rw [kept, new]
      simp [indirect]
  · refine ⟨[map, other], [map, c, other, b, c], missing.symm.le, ?_, ?_⟩
    · rw [more, appended, new, List.append_assoc]
      rfl
    · rw [kept, new]
      simp [indirect]

theorem bmap_logs (once : trace.fs.CachedOnce)
    (live : trace.fs.live inum ip = true) (inside : inum < trace.fs.sb.ninodes)
    (bn : Nat) :
    (bmap ip bn trace).Ends (fun _ => True) fun b next =>
      Looked inum ip bn b trace next := by
  have addrs := addrs_of_live once live
  rw [bmap, Action.get_bind]
  by_cases direct : bn < ndirect
  · rw [if_pos direct]
    by_cases empty : (trace.fs.inode ip).addrs bn = 0
    · have missing : 1 ≤ trace.fs.missing inum bn := by
        have place : slotOf inum bn = .addr inum bn := if_pos direct
        have zero : trace.fs.number (slotOf inum bn) = 0 := by
          rw [place, number_addr once live inside (Nat.le_of_lt direct), empty]
        rw [FileSystem.missing, if_pos zero]
        exact Nat.le_add_right _ _
      rw [if_pos empty, Action.ends_bind]
      apply (balloc_logs trace).mono
      rintro b next ⟨-, map, appended⟩
      refine ⟨[map], [map, b], missing, appended, ?_⟩
      simp
    · rw [if_neg empty]
      exact Looked.found rfl
  · rw [if_neg direct]
    have indirect := Nat.le_of_not_lt direct
    have place : slotOf inum bn = .entry inum (bn - ndirect) := if_neg direct
    by_cases index : bn - ndirect < nindirect
    · rw [if_pos index]
      have slot := number_addr once live inside (Nat.le_refl ndirect)
      by_cases empty : (trace.fs.inode ip).addrs ndirect = 0
      · have missing : trace.fs.missing inum bn = 2 := by
          have zero : trace.fs.number (slotOf inum bn) = 0 := by
            rw [place]
            exact if_neg fun all => all.2.2 (addrs ▸ empty)
          rw [FileSystem.missing, if_pos zero, if_pos ⟨indirect, slot.trans empty⟩]
        rw [if_pos empty, Action.ends_bind]
        apply (balloc_logs trace).mono
        rintro c middle ⟨-, map, appended⟩
        have new : ((middle.fs.withAddr ip ndirect c).inode ip).addrs ndirect = c := by
          simp [FileSystem.withAddr, FileSystem.setInode]
        rw [Action.ends_bind]
        exact bmapEntry_looks_new indirect missing new appended
      · rw [if_neg empty]
        apply bmapEntry_looks indirect
        intro zero
        have number : trace.fs.number (slotOf inum bn) = 0 := by
          rw [place, ← zero, ← addrs]
          exact if_pos ⟨inside, index, addrs ▸ empty⟩
        rw [FileSystem.missing, if_pos number]
        exact Nat.le_add_right _ _
    · rw [if_neg index]
      trivial

/-- Each turn of the loop is at a block of its own. -/
theorem touched_turn {off n m : Nat} (some : 0 < n) (full : m = min n (bsize - off % bsize)) :
    off / bsize ∈ touched off n ∧ touched (off + m) (n - m) ⊆ touched off n ∧
      (touched (off + m) (n - m)).card + 1 ≤ (touched off n).card := by
  have positive : 0 < bsize := by decide
  have base := Nat.div_add_mod off bsize
  have offset := Nat.mod_lt off positive
  have member : off / bsize ∈ touched off n := by
    apply Finset.mem_image_of_mem
    rw [Finset.mem_Ico]
    omega
  have rest : touched (off + m) (n - m) ⊆ touched off n := by
    apply Finset.image_subset_image
    intro o range
    rw [Finset.mem_Ico] at range ⊢
    omega
  have behind : off / bsize ∉ touched (off + m) (n - m) := by
    intro again
    obtain ⟨o, range, same⟩ := Finset.mem_image.mp again
    rw [Finset.mem_Ico] at range
    have after : (off / bsize + 1) * bsize ≤ o := by
      rw [Nat.succ_mul, Nat.mul_comm]
      omega
    have beyond := (Nat.le_div_iff_mul_le positive).mpr after
    omega
  refine ⟨member, rest, ?_⟩
  rw [← Finset.card_insert_of_notMem behind]
  apply Finset.card_le_card
  exact Finset.insert_subset member rest

/-- What writing `n` bytes at `off` logs; `bp` is the indirect block. -/
structure Spent (fs : FileSystem) (inum off n : Nat) (before after : List Nat) (bp : Nat) :
    Prop where
  blocks : ∃ data maps more : List Nat, data.length ≤ (touched off n).card ∧
    maps.length ≤ fs.needed inum off n ∧ after = before ++ more ∧
    ∀ x ∈ more, x ∈ data ∨ x ∈ maps ∨ (∃ bn ∈ touched off n, ndirect ≤ bn) ∧ x = bp

theorem Spent.nothing {fs : FileSystem} {off n bp : Nat} {list : List Nat} :
    Spent fs inum off n list list bp :=
  ⟨[], [], [], Nat.zero_le _, Nat.zero_le _, (List.append_nil _).symm, nofun⟩

theorem writeiFrom_logs {src : Memory} {n fuel tot off : Nat} (sound : Sound trace.fs)
    (live : trace.fs.live inum ip = true) (fueled : n - tot ≤ fuel) :
    (writeiFrom ip src n fuel tot off trace).Ends (fun _ => True) fun _ next =>
      Spent trace.fs.toFileSystem inum off (n - tot) trace.logged next.logged
          ((next.fs.inode ip).addrs ndirect) ∧
        ((trace.fs.inode ip).addrs ndirect ≠ 0 →
          (next.fs.inode ip).addrs ndirect = (trace.fs.inode ip).addrs ndirect) := by
  induction fuel generalizing tot off trace with
  | zero => exact ⟨Spent.nothing, fun _ => rfl⟩
  | succ fuel inductionHypothesis =>
      unfold writeiFrom
      by_cases more : tot < n
      · rw [if_pos more, Action.ends_bind]
        have consistent := sound.consistent
        have inside := live_inside consistent live
        have mapped := (bmap_follows ip (off / bsize)).ends (bmap_ends sound live _)
        have looked := bmap_logs consistent.once live inside (off / bsize)
        apply (mapped.and looked).imp fun _ _ => trivial
        rintro b middle ⟨⟨after, mapped⟩, ⟨maps, first, few, early, each⟩⟩
        obtain ⟨m, full⟩ : ∃ m, m = min (n - tot) (bsize - off % bsize) := ⟨_, rfl⟩
        obtain ⟨member, rest, card⟩ := touched_turn (Nat.sub_pos_of_lt more) full
        have held : middle.fs.Holds (slotOf inum (off / bsize)) b :=
          ⟨mapped.nonzero, mapped.here⟩
        have wrote := after.consistent.write_data held (slotOf_content _)
          ((middle.fs.block b).write (off % bsize) (src.read tot m))
        have slot := number_addr after.consistent.once (mapped.live live)
          (by rw [mapped.sb]; exact inside) (Nat.le_refl ndirect)
        have kept : ∀ place, trace.fs.number place ≠ 0 →
            (middle.fs.setBlock b ((middle.fs.block b).write (off % bsize)
              (src.read tot m))).number place ≠ 0 := by
          intro place there
          rw [wrote.2, mapped.kept place there]
          exact there
        have here : (middle.fs.setBlock b ((middle.fs.block b).write (off % bsize)
            (src.read tot m))).number (slotOf inum (off / bsize)) ≠ 0 := by
          rw [wrote.2, mapped.here]
          exact mapped.nonzero
        have needed := needed_turn kept here rest member
        rw [Action.ends_bind]
        change (writeiFrom ip src n fuel _ _ ⟨⟨middle.fs.setBlock b _, middle.fs.calls⟩,
          middle.logged ++ [b]⟩).Ends _ _
        rw [← full]
        have positive : 0 < m := by
          have offset := Nat.mod_lt off (show 0 < bsize by decide)
          omega
        have left : n - (tot + m) = n - tot - m := by omega
        apply (@inductionHypothesis ⟨⟨middle.fs.setBlock b _, middle.fs.calls⟩,
          middle.logged ++ [b]⟩ _ _ ⟨wrote.1, after.calls⟩ (mapped.live live) (by omega)).mono
        rintro last next ⟨⟨data, others, second, blocks, allocated, appended, spent⟩, still⟩
        rw [left] at blocks allocated spent
        refine ⟨⟨b :: data, maps ++ others, first ++ [b] ++ second, ?_, ?_, ?_, ?_⟩, ?_⟩
        · exact Nat.le_trans (Nat.succ_le_succ blocks) card
        · have room : others.length ≤ (middle.fs.setBlock b ((middle.fs.block b).write
            (off % bsize) (src.read tot m))).needed inum (off + m) (n - tot - m) := allocated
          rw [List.length_append]
          omega
        · rw [appended, early]
          simp only [List.append_assoc]
        · intro x added
          rw [List.append_assoc] at added
          obtain early | late := List.mem_append.mp added
          · obtain same | map | ⟨indirect, same⟩ := each x early
            · exact Or.inl (same ▸ List.mem_cons_self ..)
            · exact Or.inr (Or.inl (List.mem_append_left _ map))
            · have there : (middle.fs.inode ip).addrs ndirect ≠ 0 := by
                rw [← slot]
                exact number_indirect (mapped.here ▸ mapped.nonzero) indirect
              exact Or.inr (Or.inr ⟨⟨_, member, indirect⟩, same.trans (still there).symm⟩)
          · obtain same | later := List.mem_cons.mp late
            · exact Or.inl (same ▸ List.mem_cons_self ..)
            · obtain block | map | ⟨⟨bn, touch, indirect⟩, same⟩ := spent x later
              · exact Or.inl (List.mem_cons_of_mem _ block)
              · exact Or.inr (Or.inl (List.mem_append_right _ map))
              · exact Or.inr (Or.inr ⟨⟨bn, rest touch, indirect⟩, same⟩)
        · intro there
          have first := number_addr consistent.once live inside (Nat.le_refl ndirect)
          have same := mapped.kept (.addr inum ndirect) (first ▸ there)
          rw [slot, first] at same
          rw [← same] at there ⊢
          exact still there
      · rw [if_neg more]
        exact ⟨Spent.nothing, fun _ => rfl⟩

/-- A chunk touches four blocks, and when it touches four the first is there. -/
theorem touched_chunk {fs : FileSystem} {size off n : Nat} (inside : off ≤ size)
    (allocated : ∀ bn, bn * bsize < size → fs.number (slotOf inum bn) ≠ 0)
    (chunk : n ≤ chunkMax) :
    (touched off n).card ≤ 4 ∧
      ((touched off n).filter fun bn => fs.number (slotOf inum bn) = 0).card ≤ 3 := by
  have block : bsize = 512 := rfl
  have limit : chunkMax = 1536 := rfl
  by_cases none : n = 0
  · rw [none, touched, Nat.add_zero, Finset.Ico_self]
    exact ⟨Nat.zero_le _, Nat.zero_le _⟩
  · have range : touched off n ⊆ Finset.Icc (off / bsize) ((off + n - 1) / bsize) := by
      intro bn touch
      obtain ⟨o, between, rfl⟩ := Finset.mem_image.mp touch
      rw [Finset.mem_Ico] at between
      exact Finset.mem_Icc.mpr ⟨Nat.div_le_div_right between.1,
        Nat.div_le_div_right (by omega)⟩
    have few := Finset.card_le_card range
    rw [Nat.card_Icc] at few
    have four : (touched off n).card ≤ 4 := by
      rw [block] at few
      omega
    refine ⟨four, ?_⟩
    by_cases aligned : off % bsize = 0
    · have three : (touched off n).card ≤ 3 := by
        rw [block] at few aligned
        omega
      exact Nat.le_trans (Finset.card_filter_le _ _) three
    · have member : off / bsize ∈ touched off n := by
        apply Finset.mem_image_of_mem
        rw [Finset.mem_Ico]
        omega
      have before : off / bsize * bsize < size := by
        rw [block] at aligned ⊢
        omega
      have there : fs.number (slotOf inum (off / bsize)) ≠ 0 := allocated _ before
      have missing : ((touched off n).filter fun bn => fs.number (slotOf inum bn) = 0) ⊆
          (touched off n).erase (off / bsize) := by
        intro bn member
        obtain ⟨touch, zero⟩ := Finset.mem_filter.mp member
        refine Finset.mem_erase.mpr ⟨?_, touch⟩
        rintro rfl
        exact there zero
      have fewer := Finset.card_le_card missing
      rw [Finset.card_erase_of_mem member] at fewer
      exact Nat.le_trans fewer (Nat.sub_le_sub_right four 1)

/-- Data blocks, bitmap blocks, the indirect block and one more. -/
theorem Spent.card {fs : FileSystem} {off n bp : Nat} {list : List Nat}
    (spent : Spent fs inum off n [] list bp) (last : Nat) (data : (touched off n).card ≤ 4)
    (missing : ((touched off n).filter fun bn => fs.number (slotOf inum bn) = 0).card ≤ 3) :
    (list ++ [last]).toFinset.card ≤ maxOpBlocks := by
  obtain ⟨blocks, maps, more, few, allocated, appended, each⟩ := spent
  have limit : maxOpBlocks = 10 := rfl
  rw [List.nil_append] at appended
  subst appended
  have dataCard := List.toFinset_card_le blocks
  have mapCard := List.toFinset_card_le maps
  unfold FileSystem.needed at allocated
  by_cases indirect : ∃ bn ∈ touched off n, ndirect ≤ bn
  · have all : (list ++ [last]).toFinset ⊆
        blocks.toFinset ∪ maps.toFinset ∪ {bp, last} := by
      intro x member
      simp only [List.mem_toFinset, List.mem_append, List.mem_singleton, Finset.mem_union,
        Finset.mem_insert, Finset.mem_singleton] at member ⊢
      obtain early | same := member
      · obtain block | map | ⟨-, same⟩ := each x early
        · exact Or.inl (Or.inl block)
        · exact Or.inl (Or.inr map)
        · exact Or.inr (Or.inl same)
      · exact Or.inr (Or.inr same)
    have sum := Nat.le_trans (Finset.card_le_card all) (Finset.card_union_le _ _)
    have both := Finset.card_union_le blocks.toFinset maps.toFinset
    have two := Finset.card_le_two (a := bp) (b := last)
    split at allocated <;> omega
  · have all : (list ++ [last]).toFinset ⊆ blocks.toFinset ∪ maps.toFinset ∪ {last} := by
      intro x member
      simp only [List.mem_toFinset, List.mem_append, List.mem_singleton, Finset.mem_union,
        Finset.mem_singleton] at member ⊢
      obtain early | same := member
      · obtain block | map | ⟨large, -⟩ := each x early
        · exact Or.inl (Or.inl block)
        · exact Or.inl (Or.inr map)
        · exact absurd large indirect
      · exact Or.inr same
    have sum := Nat.le_trans (Finset.card_le_card all) (Finset.card_union_le _ _)
    have both := Finset.card_union_le blocks.toFinset maps.toFinset
    rw [Finset.card_singleton] at sum
    rw [if_neg fun both => indirect both.1] at allocated
    omega

end Traced

/-- The `writei` of one chunk, of which `Traced.writei` lists the logged blocks, logs no more
blocks than `begin_op` reserves. -/
theorem filewrite_chunk_fits (ip : InodePtr) (src : Memory) (off n : UInt32) {inum : Nat}
    {fs : FsState} (sound : Sound fs) (live : fs.live inum ip = true)
    (allocated : ∀ bn, bn * bsize < (fs.inode ip).size → fs.number (slotOf inum bn) ≠ 0)
    (chunk : n.toNat ≤ chunkMax) :
    writei ip src off n fs = (Traced.writei ip src off n ⟨fs, []⟩).mapState Traced.fs ∧
      (Traced.writei ip src off n ⟨fs, []⟩).Ends (fun _ => True) fun _ next =>
        next.logged.toFinset.card ≤ maxOpBlocks := by
  refine ⟨(Traced.writei_follows ip src off n ⟨fs, []⟩).symm, ?_⟩
  rw [Traced.writei, Action.get_bind]
  by_cases device : (fs.inode ip).type = tDev
  · rw [if_pos device]
    split
    · exact Nat.zero_le _
    · cases devswWrite (short (fs.inode ip).major) with
      | none => exact Nat.zero_le _
      | some write => exact Nat.zero_le _
  · rw [if_neg device]
    by_cases beyond : (fs.inode ip).size < off.toNat ∨ off + n < off
    · rw [if_pos beyond]
      exact Nat.zero_le _
    · rw [if_neg beyond]
      by_cases large : maxFile * bsize < (off + n).toNat
      · rw [if_pos large]
        exact Nat.zero_le _
      · have inside : off.toNat ≤ (fs.inode ip).size := by omega
        obtain ⟨data, missing⟩ := Traced.touched_chunk inside allocated chunk
        rw [if_neg large, Action.ends_bind]
        have loop := @Traced.writeiFrom_logs ip inum ⟨fs, []⟩ src n.toNat n.toNat 0
          off.toNat sound live (Nat.le_refl _)
        apply loop.mono
        rintro last next ⟨spent, -⟩
        split
        · exact spent.card _ data missing
        · have counted := spent.card 0 data missing
          have fewer : next.logged.toFinset ⊆ (next.logged ++ [0]).toFinset := by
            rw [List.toFinset_append]
            exact Finset.subset_union_left
          exact Nat.le_trans (Finset.card_le_card fewer) counted

theorem filewrite_chunk_fits_newFile : ∃ fs result next,
    runs FsState.next blankDisk newFile = some fs ∧
    writei ⟨0, ninode_pos⟩ (fun _ => 7) 0 600 fs = .done result next.fs ∧
    Traced.writei ⟨0, ninode_pos⟩ (fun _ => 7) 0 600 ⟨fs, []⟩ = .done result next ∧
    next.logged.toFinset.card ≤ maxOpBlocks := by
  let ip : InodePtr := ⟨0, ninode_pos⟩
  have facts : (runs FsState.next blankDisk newFile).map (fun fs =>
      decide (fs.live 1 ip = true ∧ (fs.inode ip).size = 0 ∧
        (Traced.writei ip (fun _ => 7) 0 600 ⟨fs, []⟩).state?.isSome)) = some true := by
    decide +kernel
  obtain ⟨fs, ran, holds⟩ := Option.map_eq_some_iff.mp facts
  obtain ⟨live, size, done⟩ := of_decide_eq_true holds
  obtain ⟨same, ends⟩ := filewrite_chunk_fits ip (fun _ => 7) 0 600
    (sound_run blankDisk_image ran) live
    (by
      rw [size]
      exact fun _ below => absurd below (Nat.not_lt_zero _))
    (by decide)
  cases wrote : Traced.writei ip (fun _ => 7) 0 600 ⟨fs, []⟩ with
  | blocked =>
      rw [wrote] at done
      cases done
  | panic message =>
      rw [wrote] at done
      cases done
  | done result next =>
      rw [wrote] at same
      exact ⟨fs, result, next, ran, same, wrote, ends.of_done wrote⟩

end Xv6.Fs
