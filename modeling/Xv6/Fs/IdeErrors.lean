import Xv6.Fs.Bcache
import Xv6.Fs.Cache
import Xv6.Fs.IdeQueue

/-!
# Disk errors

`bio.c` over the queue of `ide.c`, with a disk that may complete any command
with the DF or the ERR bit set. `ideintr` asks `idewait` for these bits only to
decide whether it reads the data; it sets the flags of the buffer in any case.
-/

namespace Xv6.Fs

open Xv6.Library

/-- The driver, where each process is in `bio.c`, and whether the status
register has the DF or the ERR bit set. A process in `iderw` is in `ide.inside`. -/
structure FaultyDisk where
  ide : Ide
  stage : Pid → BioStage
  failed : Bool

inductive FaultyEvent where
  /-- `bread` until the block is found or a buffer is recycled. -/
  | bget (p : Pid) (blockno : Nat)
  /-- The rest of `bget`, and `bread` until it returns or waits for the disk. -/
  | acquiresleep (p : Pid)
  /-- The holder of a buffer changes the data and calls `bwrite`. -/
  | bwrite (p : Pid) (b : BufPtr) (data : Block)
  /-- The holder changes the data, which `log_write` marks dirty. -/
  | logWrite (p : Pid) (b : BufPtr) (data : Block)
  | brelse (p : Pid) (b : BufPtr)
  | bput (p : Pid)
  | retest (p : Pid)
  | kill (p : Pid)
  /-- The disk completes its command, or fails and sets DF or ERR. -/
  | device (failed : Bool)
  | ideintr

namespace FaultyDisk

def store (disk : FaultyDisk) : Store := disk.ide.store

def buf (disk : FaultyDisk) (b : BufPtr) : Buf := disk.ide.store.buf b

def setIde (disk : FaultyDisk) (ide : Ide) : FaultyDisk := { disk with ide := ide }

def setStore (disk : FaultyDisk) (store : Store) : FaultyDisk :=
  { disk with ide := { disk.ide with store := store } }

def setStage (disk : FaultyDisk) (p : Pid) (stage : BioStage) : FaultyDisk :=
  { disk with stage := Function.update disk.stage p stage }

/-- The caller holds the lock of the buffer, and is in no call. -/
def Holds (disk : FaultyDisk) (p : Pid) (b : BufPtr) : Prop :=
  disk.stage p = .idle ∧ disk.ide.inside p = none ∧ (disk.buf b).lock = some p

instance (disk : FaultyDisk) (p : Pid) (b : BufPtr) : Decidable (disk.Holds p b) :=
  inferInstanceAs (Decidable (_ ∧ _))

def bget (p : Pid) (blockno : Nat) (disk : FaultyDisk) : Outcome FaultyDisk Unit :=
  match bgetScan p rootDev blockno disk.store with
  | .done b store => .done () ((disk.setStore store).setStage p (.waiting b))
  | .panic message => .panic message
  | .blocked => .blocked

/-- `bread` has the lock of the buffer. -/
def bread (p : Pid) (b : BufPtr) (disk : FaultyDisk) : Outcome FaultyDisk Unit :=
  if (disk.buf b).valid = false then (Ide.iderw p b disk.ide).mapState disk.setIde
  else .done () disk

def bwrite (p : Pid) (b : BufPtr) (disk : FaultyDisk) : Outcome FaultyDisk Unit :=
  if (disk.buf b).lock = none then .panic "bwrite"
  else
    let dirty := disk.setStore (disk.store.setBuf b { disk.buf b with dirty := true })
    (Ide.iderw p b dirty.ide).mapState dirty.setIde

def brelse (p : Pid) (b : BufPtr) (disk : FaultyDisk) : Outcome FaultyDisk Unit :=
  if (disk.buf b).lock = none then .panic "brelse"
  else
    (releasesleep b disk.store).mapState fun store =>
      (disk.setStore store).setStage p (.putting b)

/-- What the buffer at the head of the queue has after a read: `insl` is not
reached when `idewait(1)` returns -1. -/
def insl (read : Block) (disk : FaultyDisk) : Block :=
  match disk.ide.idequeue with
  | some b => if disk.failed = true then (disk.buf b).data else read
  | none => read

def ideintr (read : Block) (disk : FaultyDisk) : Outcome FaultyDisk Unit :=
  (Ide.ideintr (disk.insl read) disk.ide).mapState disk.setIde

/-- The disk gives up its command; the block stays as it was. -/
def fail (command : Command) (ide : Ide) : Ide :=
  { ide with device := .raised command (ide.store.disk command.sector) }

def step (disk : FaultyDisk) : FaultyEvent → Outcome FaultyDisk Unit
  | .bget p blockno =>
      -- The caller asks for a block of the file system.
      if disk.stage p = .idle ∧ disk.ide.inside p = none ∧ blockno < fsSize then
        disk.bget p blockno
      else .blocked
  | .acquiresleep p =>
      match disk.stage p with
      | .waiting b =>
          match acquiresleep p b disk.store with
          | .done () store => ((disk.setStore store).setStage p .idle).bread p b
          | .panic message => .panic message
          | .blocked => .blocked
      | _ => .blocked
  | .bwrite p b data =>
      if disk.Holds p b then
        (disk.setStore (disk.store.setBuf b { disk.buf b with data := data })).bwrite p b
      else .blocked
  | .logWrite p b data =>
      if disk.Holds p b then
        .done ()
          (disk.setStore (disk.store.setBuf b { disk.buf b with data := data, dirty := true }))
      else .blocked
  | .brelse p b => if disk.Holds p b then disk.brelse p b else .blocked
  | .bput p =>
      match disk.stage p with
      | .putting b =>
          (bput p b disk.store).mapState fun store => (disk.setStore store).setStage p .idle
      | _ => .blocked
  | .retest p => (disk.ide.step (.retest p)).mapState disk.setIde
  | .kill p => (disk.ide.step (.kill p)).mapState disk.setIde
  | .device false =>
      (disk.ide.step .device).mapState fun ide => { disk with ide := ide, failed := false }
  | .device true =>
      match disk.ide.device with
      | .busy command => .done () { disk with ide := fail command disk.ide, failed := true }
      | _ => .blocked
  | .ideintr =>
      match disk.ide.device with
      | .raised _ read => disk.ideintr read
      | _ => .blocked

def next (disk : FaultyDisk) (event : FaultyEvent) : Option FaultyDisk := (disk.step event).state?

/-! ## What every run keeps, with and without errors -/

variable {disk after : FaultyDisk}

/-- The queue, and who has a reference to a buffer. -/
structure Sane (disk : FaultyDisk) : Prop where
  queued : ∃ queue, disk.ide.Queued queue
  unique : ∀ a b, (disk.buf a).dev = rootDev → (disk.buf b).dev = rootDev →
    (disk.buf a).blockno = (disk.buf b).blockno → a = b
  holder : ∀ q b, (disk.buf b).lock = some q → q ∈ (disk.buf b).refs
  waiting : ∀ q b, disk.stage q = .waiting b → q ∈ (disk.buf b).refs
  putting : ∀ q b, disk.stage q = .putting b → (disk.buf b).lock ≠ some q
  known : ∀ b, (disk.buf b).refs ≠ [] ∨ (disk.buf b).valid = true →
    (disk.buf b).dev = rootDev ∧ (disk.buf b).blockno < fsSize
  outside : ∀ q, disk.stage q ≠ .idle → disk.ide.inside q = none

/-- One buffer changes, and the stage of a process. -/
theorem Sane.touch (sane : disk.Sane) {b : BufPtr} {buffer : Buf}
    (store : after.store.buf = (disk.store.setBuf b buffer).buf)
    (queued : ∃ queue, after.ide.Queued queue)
    (stages : ∀ q a, a ≠ b → after.stage q = .waiting a ∨ after.stage q = .putting a →
      after.stage q = disk.stage q)
    (outside : ∀ q, after.stage q ≠ .idle → after.ide.inside q = none)
    (unique : buffer.dev = rootDev →
      ∀ a, a ≠ b → (disk.buf a).dev = rootDev → (disk.buf a).blockno ≠ buffer.blockno)
    (holder : ∀ q, buffer.lock = some q → q ∈ buffer.refs)
    (waiting : ∀ q, after.stage q = .waiting b → q ∈ buffer.refs)
    (putting : ∀ q, after.stage q = .putting b → buffer.lock ≠ some q)
    (known : buffer.refs ≠ [] ∨ buffer.valid = true →
      buffer.dev = rootDev ∧ buffer.blockno < fsSize) : after.Sane := by
  have here : after.buf b = buffer := by
    apply (congrFun store b).trans
    exact Store.setBuf_same _ _ _
  have others : ∀ a, a ≠ b → after.buf a = disk.buf a := by
    intro a different
    apply (congrFun store a).trans
    exact Store.setBuf_of_ne _ _ different
  rw [← here] at unique holder waiting putting known
  refine ⟨queued, ?_, ?_, ?_, ?_, ?_, outside⟩
  · intro a c first second same
    by_cases left : a = b
    · subst left
      by_cases right : c = a
      · exact right.symm
      · rw [others c right] at second same
        exact absurd same.symm (unique first c right second)
    · rw [others a left] at first same
      by_cases right : c = b
      · subst right
        exact absurd same (unique second a left first)
      · rw [others c right] at second same
        exact sane.unique a c first second same
  · intro q a
    by_cases same : a = b
    · subst same
      exact holder q
    · rw [others a same]
      exact sane.holder q a
  · intro q a waits
    by_cases same : a = b
    · subst same
      exact waiting q waits
    · rw [others a same]
      exact sane.waiting q a ((stages q a same (Or.inl waits)).symm.trans waits)
  · intro q a puts
    by_cases same : a = b
    · subst same
      exact putting q puts
    · rw [others a same]
      exact sane.putting q a ((stages q a same (Or.inr puts)).symm.trans puts)
  · intro a
    by_cases same : a = b
    · subst same
      exact known
    · rw [others a same]
      exact sane.known a

/-- The flags and the data of one buffer change. -/
theorem Sane.refill (sane : disk.Sane) {b : BufPtr} {valid dirty : Bool} {data : Block}
    (used : (disk.buf b).refs ≠ [])
    (store : after.store.buf = (disk.store.setBuf b
      { disk.buf b with valid := valid, dirty := dirty, data := data }).buf)
    (queued : ∃ queue, after.ide.Queued queue) (stage : after.stage = disk.stage)
    (outside : ∀ q, after.stage q ≠ .idle → after.ide.inside q = none) : after.Sane := by
  apply sane.touch store queued (fun q a _ _ => congrFun stage q) outside
  · intro device a different other same
    exact different (sane.unique a b other device same)
  · exact fun q => sane.holder q b
  · intro q waits
    rw [stage] at waits
    exact sane.waiting q b waits
  · intro q puts
    rw [stage] at puts
    exact sane.putting q b puts
  · exact fun _ => sane.known b (Or.inl used)

/-- No buffer changes. -/
theorem Sane.keep (sane : disk.Sane) (queued : ∃ queue, after.ide.Queued queue)
    (store : after.store.buf = disk.store.buf) (stage : after.stage = disk.stage)
    (outside : ∀ q, after.stage q ≠ .idle → after.ide.inside q = none) : after.Sane := by
  have same : after.buf = disk.buf := store
  refine ⟨queued, ?_, ?_, ?_, ?_, ?_, outside⟩
  all_goals
    rw [same]
  · exact sane.unique
  · exact sane.holder
  · rw [stage]
    exact sane.waiting
  · rw [stage]
    exact sane.putting
  · exact sane.known

/-- All a step can do. -/
inductive Changes (disk : FaultyDisk) : FaultyEvent → FaultyDisk → Prop where
  | found {p : Pid} {b : BufPtr} {blockno : Nat} :
      disk.stage p = .idle → disk.ide.inside p = none → blockno < fsSize →
      (disk.buf b).dev = rootDev → (disk.buf b).blockno = blockno →
      Changes disk (.bget p blockno)
        ((disk.setStore (disk.store.setBuf b
          { disk.buf b with refs := p :: (disk.buf b).refs })).setStage p (.waiting b))
  | recycled {p : Pid} {b : BufPtr} {blockno : Nat} :
      disk.stage p = .idle → disk.ide.inside p = none → blockno < fsSize →
      (∀ a, (disk.buf a).dev = rootDev → (disk.buf a).blockno ≠ blockno) →
      (disk.buf b).refs = [] → (disk.buf b).dirty = false →
      Changes disk (.bget p blockno)
        ((disk.setStore (disk.store.setBuf b
          { disk.buf b with
            dev := rootDev, blockno := blockno, valid := false, dirty := false,
            refs := [p] })).setStage p (.waiting b))
  | hit {p : Pid} {b : BufPtr} :
      disk.stage p = .waiting b → (disk.buf b).lock = none → (disk.buf b).valid = true →
      Changes disk (.acquiresleep p)
        ((disk.setStore (disk.store.setBuf b
          { disk.buf b with lock := some p })).setStage p .idle)
  | missed {p : Pid} {b : BufPtr} {ide : Ide} :
      disk.stage p = .waiting b → (disk.buf b).lock = none → (disk.buf b).valid = false →
      Ide.iderw p b
        (disk.setStore (disk.store.setBuf b { disk.buf b with lock := some p })).ide =
          .done () ide →
      Changes disk (.acquiresleep p) ((disk.setIde ide).setStage p .idle)
  | wrote {p : Pid} {b : BufPtr} {data : Block} {ide : Ide} :
      disk.Holds p b →
      Ide.iderw p b
        (disk.setStore (disk.store.setBuf b
          { disk.buf b with data := data, dirty := true })).ide = .done () ide →
      Changes disk (.bwrite p b data) (disk.setIde ide)
  | logged {p : Pid} {b : BufPtr} {data : Block} :
      disk.Holds p b →
      Changes disk (.logWrite p b data)
        (disk.setStore (disk.store.setBuf b { disk.buf b with data := data, dirty := true }))
  | released {p : Pid} {b : BufPtr} :
      disk.Holds p b →
      Changes disk (.brelse p b)
        ((disk.setStore (disk.store.setBuf b
          { disk.buf b with lock := none })).setStage p (.putting b))
  | put {p : Pid} {b : BufPtr} {mru : Mru} :
      disk.stage p = .putting b →
      Changes disk (.bput p)
        ((disk.setStore
          { disk.store.setBuf b { disk.buf b with refs := (disk.buf b).refs.erase p } with
            mru := mru }).setStage p .idle)
  | tested {p : Pid} {b : BufPtr} :
      disk.ide.inside p = some b →
      Changes disk (.retest p) (disk.setIde (Ide.wait p b disk.ide))
  | killed {p : Pid} {sleeping : Pid → Bool} :
      Changes disk (.kill p) (disk.setIde { disk.ide with sleeping := sleeping })
  | completed {command : Command} :
      disk.ide.device = .busy command →
      Changes disk (.device false)
        { disk with
          ide :=
            { disk.ide with
              store := Ide.execute command disk.store
              device := .raised command (disk.store.disk command.sector) }
          failed := false }
  | failed {command : Command} :
      disk.ide.device = .busy command →
      Changes disk (.device true) { disk with ide := fail command disk.ide, failed := true }
  | served {command : Command} {read : Block} {ide : Ide} :
      disk.ide.device = .raised command read →
      Ide.ideintr (disk.insl read) disk.ide = .done () ide →
      Changes disk .ideintr (disk.setIde ide)

theorem changes_bget {p : Pid} {blockno : Nat} (stepped : disk.next (.bget p blockno) = some after) :
    disk.Changes (.bget p blockno) after := by
  rw [next, step] at stepped
  split at stepped
  · rename_i guard
    obtain ⟨idle, outside, small⟩ := guard
    rw [bget] at stepped
    split at stepped
    · rename_i b store found
      cases stepped
      rcases bgetScan_cases found with ⟨device, same, rfl⟩ | ⟨fresh, unused, clean, rfl⟩
      · exact .found idle outside small device same
      · exact .recycled idle outside small fresh unused clean
    · cases stepped
    · cases stepped
  · cases stepped

theorem changes_acquiresleep {p : Pid} (stepped : disk.next (.acquiresleep p) = some after) :
    disk.Changes (.acquiresleep p) after := by
  rw [next, step] at stepped
  split at stepped
  · rename_i b waits
    split at stepped
    · rename_i store locked
      obtain ⟨free, rfl⟩ := acquiresleep_cases locked
      have same : (((disk.setStore (disk.store.setBuf b
          { disk.store.buf b with lock := some p })).setStage p .idle).buf b).valid =
            (disk.buf b).valid := by
        change ((disk.store.setBuf b _).buf b).valid = _
        rw [Store.setBuf_same]
        rfl
      rw [bread, same] at stepped
      split at stepped
      · rename_i invalid
        obtain ⟨⟨⟩, ide, ended, rfl⟩ := Outcome.mapState_state stepped
        exact .missed waits free invalid ended
      · rename_i valid
        cases stepped
        exact .hit waits free (by simpa using valid)
    · cases stepped
    · cases stepped
  · cases stepped

theorem changes_bwrite {p : Pid} {b : BufPtr} {data : Block}
    (stepped : disk.next (.bwrite p b data) = some after) :
    disk.Changes (.bwrite p b data) after := by
  rw [next, step] at stepped
  split at stepped
  · rename_i holds
    have here : (disk.setStore (disk.store.setBuf b { disk.buf b with data := data })).buf b =
        { disk.buf b with data := data } := Store.setBuf_same _ _ _
    have locked : ¬(disk.buf b).lock = none := by
      rw [holds.2.2]
      simp
    rw [bwrite, here, if_neg locked] at stepped
    obtain ⟨⟨⟩, ide, ended, rfl⟩ := Outcome.mapState_state stepped
    have twice : (disk.setStore (disk.store.setBuf b { disk.buf b with data := data })).store.setBuf b
        { disk.buf b with data := data, dirty := true } =
          disk.store.setBuf b { disk.buf b with data := data, dirty := true } :=
      Store.setBuf_setBuf _ _ _ _
    rw [twice] at ended
    exact .wrote holds ended
  · cases stepped

theorem changes_brelse {p : Pid} {b : BufPtr} (stepped : disk.next (.brelse p b) = some after) :
    disk.Changes (.brelse p b) after := by
  rw [next, step] at stepped
  split at stepped
  · rename_i holds
    have locked : ¬(disk.buf b).lock = none := by
      rw [holds.2.2]
      simp
    rw [brelse, if_neg locked] at stepped
    cases stepped
    exact .released holds
  · cases stepped

theorem next_changes {event : FaultyEvent} (stepped : disk.next event = some after) :
    disk.Changes event after := by
  cases event with
  | bget p blockno => exact changes_bget stepped
  | acquiresleep p => exact changes_acquiresleep stepped
  | bwrite p b data => exact changes_bwrite stepped
  | logWrite p b data =>
      rw [next, step] at stepped
      split at stepped
      · rename_i holds
        cases stepped
        exact .logged holds
      · cases stepped
  | brelse p b => exact changes_brelse stepped
  | bput p =>
      rw [next, step] at stepped
      split at stepped
      · rename_i b puts
        cases stepped
        exact .put puts
      · cases stepped
  | retest p =>
      rw [next, step, Ide.step] at stepped
      split at stepped
      · rename_i b waits
        split at stepped
        · cases stepped
          exact .tested waits
        · cases stepped
      · cases stepped
  | kill p =>
      cases stepped
      exact .killed
  | device failed =>
      cases failed with
      | false =>
          rw [next, step, Ide.step] at stepped
          split at stepped
          · rename_i command busy
            cases stepped
            exact .completed busy
          · cases stepped
      | true =>
          rw [next, step] at stepped
          split at stepped
          · rename_i command busy
            cases stepped
            exact .failed busy
          · cases stepped
  | ideintr =>
      rw [next, step] at stepped
      split at stepped
      · rename_i command read raised
        obtain ⟨⟨⟩, ide, ended, rfl⟩ := Outcome.mapState_state stepped
        exact .served raised ended
      · cases stepped

/-- The queue does not depend on the references. -/
theorem queued_refs {ide : Ide} {queue : List BufPtr} (queued : ide.Queued queue) {store : Store}
    (buf : ∀ b, store.buf b = { ide.store.buf b with refs := (store.buf b).refs })
    (blocks : store.disk = ide.store.disk) : Ide.Queued { ide with store := store } queue := by
  have lock : ∀ b, (store.buf b).lock = (ide.store.buf b).lock := fun b => by rw [buf b]
  have valid : ∀ b, (store.buf b).valid = (ide.store.buf b).valid := fun b => by rw [buf b]
  have dirty : ∀ b, (store.buf b).dirty = (ide.store.buf b).dirty := fun b => by rw [buf b]
  have dev : ∀ b, (store.buf b).dev = (ide.store.buf b).dev := fun b => by rw [buf b]
  have blockno : ∀ b, (store.buf b).blockno = (ide.store.buf b).blockno := fun b => by rw [buf b]
  have command : ∀ b, Ide.command (store.buf b) = Ide.command (ide.store.buf b) := by
    intro b
    rw [buf b]
    rfl
  refine ⟨queued.disk1, queued.chain, queued.nodup, queued.arrived, ?_, queued.rests, ?_, ?_⟩
  · simpa only [Ide.Works, Ide.buf, command, dirty, blockno, blocks] using queued.works
  · simpa only [Ide.Clean, Ide.buf, valid, dirty, dev, blockno] using queued.queued
  · simpa only [Ide.Clean, Ide.buf, valid, dirty, lock] using queued.inside

theorem stages_update {stage : Pid → BioStage} {p : Pid} {now : BioStage} {b : BufPtr}
    (mine : now = .idle ∨ now = .waiting b ∨ now = .putting b) (q : Pid) (a : BufPtr)
    (different : a ≠ b)
    (other : Function.update stage p now q = .waiting a ∨
      Function.update stage p now q = .putting a) :
    Function.update stage p now q = stage q := by
  by_cases same : q = p
  · subst same
    rw [Function.update_self] at other
    rcases mine with rfl | rfl | rfl
    all_goals
      rcases other with here | here
      all_goals
        cases here
        try exact absurd rfl different
  · rw [Function.update_of_ne same]

theorem Sane.outside_update (sane : disk.Sane) {p : Pid} (free : disk.ide.inside p = none)
    {now : BioStage} (q : Pid) (_ : Function.update disk.stage p now q ≠ .idle) :
    disk.ide.inside q = none := by
  by_cases same : q = p
  · rw [same]
    exact free
  · rename_i stage
    rw [Function.update_of_ne same] at stage
    exact sane.outside q stage

/-- The holder of a buffer or a process that takes a free one changes it. -/
theorem Sane.queue_touch (sane : disk.Sane) {p : Pid} {b : BufPtr}
    (outside : disk.ide.inside p = none)
    (lock : (disk.buf b).lock = some p ∨ (disk.buf b).lock = none) (buffer : Buf) :
    ∃ queue, (disk.setStore (disk.store.setBuf b buffer)).ide.Queued queue := by
  obtain ⟨queue, queued⟩ := sane.queued
  obtain ⟨nobody, away⟩ := queued.free outside lock
  exact ⟨queue, queued.touch nobody away buffer _⟩

theorem Sane.queue_refs (sane : disk.Sane) {b : BufPtr} (refs : List Pid) (mru : Mru) :
    ∃ queue, (disk.setStore
      { disk.store.setBuf b { disk.buf b with refs := refs } with mru := mru }).ide.Queued queue := by
  obtain ⟨queue, queued⟩ := sane.queued
  have buf : ∀ a, (disk.store.setBuf b { disk.buf b with refs := refs }).buf a =
      { disk.store.buf a with
        refs := ((disk.store.setBuf b { disk.buf b with refs := refs }).buf a).refs } := by
    intro a
    by_cases same : a = b
    · subst same
      rw [Store.setBuf_same]
      rfl
    · rw [Store.setBuf_of_ne _ _ same]
  exact ⟨queue, queued_refs queued buf rfl⟩

theorem Sane.unlocked (sane : disk.Sane) {b : BufPtr} (unused : (disk.buf b).refs = []) :
    (disk.buf b).lock = none := by
  cases lock : (disk.buf b).lock with
  | none => rfl
  | some q =>
      have member := sane.holder q b lock
      rw [unused] at member
      cases member

/-- A process takes a step of `bio.c` on one buffer. -/
theorem Sane.move (sane : disk.Sane) {p : Pid} {now : BioStage} {b : BufPtr} {buffer : Buf}
    (mine : now = .idle ∨ now = .waiting b ∨ now = .putting b)
    (outside : disk.ide.inside p = none)
    (store : after.store.buf = (disk.store.setBuf b buffer).buf)
    (stage : after.stage = Function.update disk.stage p now)
    (inside : after.ide.inside = disk.ide.inside)
    (queued : ∃ queue, after.ide.Queued queue)
    (unique : buffer.dev = rootDev →
      ∀ a, a ≠ b → (disk.buf a).dev = rootDev → (disk.buf a).blockno ≠ buffer.blockno)
    (holder : ∀ q, buffer.lock = some q → q ∈ buffer.refs)
    (kept : ∀ q, q ≠ p → q ∈ (disk.buf b).refs → q ∈ buffer.refs)
    (locks : ∀ q, q ≠ p → buffer.lock = some q → (disk.buf b).lock = some q)
    (waits : now = .waiting b → p ∈ buffer.refs)
    (puts : now = .putting b → buffer.lock ≠ some p)
    (known : buffer.refs ≠ [] ∨ buffer.valid = true →
      buffer.dev = rootDev ∧ buffer.blockno < fsSize) : after.Sane := by
  have stages : ∀ q a, a ≠ b → after.stage q = .waiting a ∨ after.stage q = .putting a →
      after.stage q = disk.stage q := by
    rw [stage]
    exact stages_update mine
  have outsides : ∀ q, after.stage q ≠ .idle → after.ide.inside q = none := by
    rw [stage, inside]
    exact sane.outside_update outside
  apply sane.touch store queued stages outsides unique holder ?_ ?_ known
  · intro q waiting
    rw [stage] at waiting
    by_cases same : q = p
    · subst same
      rw [Function.update_self] at waiting
      exact waits waiting
    · rw [Function.update_of_ne same] at waiting
      exact kept q same (sane.waiting q b waiting)
  · intro q putting lock
    rw [stage] at putting
    by_cases same : q = p
    · subst same
      rw [Function.update_self] at putting
      exact puts putting lock
    · rw [Function.update_of_ne same] at putting
      exact sane.putting q b putting (locks q same lock)

theorem Sane.found (sane : disk.Sane) {p : Pid} {b : BufPtr}
    (outside : disk.ide.inside p = none) (small : (disk.buf b).blockno < fsSize)
    (device : (disk.buf b).dev = rootDev) :
    ((disk.setStore (disk.store.setBuf b
      { disk.buf b with refs := p :: (disk.buf b).refs })).setStage p (.waiting b)).Sane := by
  apply sane.move (Or.inr (Or.inl rfl)) outside
  · rfl
  · rfl
  · rfl
  · exact sane.queue_refs _ _
  · intro device a different other same
    exact different (sane.unique a b other device same)
  · exact fun q lock => List.mem_cons_of_mem p (sane.holder q b lock)
  · exact fun q _ member => List.mem_cons_of_mem p member
  · exact fun q _ lock => lock
  · exact fun _ => List.mem_cons_self ..
  · exact nofun
  · exact fun _ => ⟨device, small⟩

theorem Sane.recycled (sane : disk.Sane) {p : Pid} {b : BufPtr} {blockno : Nat}
    (outside : disk.ide.inside p = none) (small : blockno < fsSize)
    (fresh : ∀ a, (disk.buf a).dev = rootDev → (disk.buf a).blockno ≠ blockno)
    (unused : (disk.buf b).refs = []) :
    ((disk.setStore (disk.store.setBuf b
      { disk.buf b with
        dev := rootDev, blockno := blockno, valid := false, dirty := false,
        refs := [p] })).setStage p (.waiting b)).Sane := by
  have lock := sane.unlocked unused
  apply sane.move (Or.inr (Or.inl rfl)) outside
  · rfl
  · rfl
  · rfl
  · exact sane.queue_touch outside (Or.inr lock) _
  · exact fun _ a _ device => fresh a device
  · intro q held
    rw [show (disk.buf b).lock = some q from held] at lock
    cases lock
  · intro q _ member
    rw [unused] at member
    cases member
  · exact fun q _ held => held
  · exact fun _ => List.mem_singleton_self p
  · exact nofun
  · exact fun _ => ⟨rfl, small⟩

/-- `bget` ends with the lock of the buffer. -/
theorem Sane.locked (sane : disk.Sane) {p : Pid} {b : BufPtr} (waits : disk.stage p = .waiting b)
    (free : (disk.buf b).lock = none) :
    ((disk.setStore (disk.store.setBuf b
      { disk.buf b with lock := some p })).setStage p .idle).Sane := by
  have outside : disk.ide.inside p = none := by
    apply sane.outside p
    rw [waits]
    simp
  apply sane.move (Or.inl rfl) outside
  · rfl
  · rfl
  · rfl
  · exact sane.queue_touch outside (Or.inr free) _
  · intro device a different other same
    exact different (sane.unique a b other device same)
  · intro q held
    cases held
    exact sane.waiting p b waits
  · exact fun q _ member => member
  · intro q different held
    cases held
    exact absurd rfl different
  · exact nofun
  · exact nofun
  · exact sane.known b

theorem Sane.iderw (sane : disk.Sane) {p : Pid} {b : BufPtr} {ide : Ide}
    (idle : disk.stage p = .idle) (outside : disk.ide.inside p = none)
    (lock : (disk.buf b).lock = some p) (stale : ¬disk.ide.Clean b)
    (ended : Ide.iderw p b disk.ide = .done () ide) : (disk.setIde ide).Sane := by
  obtain ⟨queue, queued⟩ := sane.queued
  have used : (disk.buf b).refs ≠ [] := List.ne_nil_of_mem (sane.holder p b lock)
  obtain ⟨device, small⟩ := sane.known b (Or.inl used)
  obtain ⟨next, done, appended, -⟩ := queued.iderw outside lock stale device small
  rw [ended] at done
  cases done
  obtain ⟨state, shape⟩ := Ide.iderw_state stale (congrArg Outcome.state? ended)
  apply sane.keep ⟨_, appended⟩
  · change ide.store.buf = _
    rw [shape]
    rfl
  · rfl
  · intro q busy
    have different : q ≠ p := by
      rintro rfl
      exact busy idle
    change ide.inside q = none
    rw [shape]
    exact (Function.update_of_ne different _ _).trans (sane.outside q busy)

/-- The holder of a buffer writes to it. -/
theorem Sane.filled (sane : disk.Sane) {p : Pid} {b : BufPtr} (holds : disk.Holds p b)
    (data : Block) :
    (disk.setStore (disk.store.setBuf b
      { disk.buf b with data := data, dirty := true })).Sane := by
  obtain ⟨idle, outside, lock⟩ := holds
  have used : (disk.buf b).refs ≠ [] := List.ne_nil_of_mem (sane.holder p b lock)
  apply sane.refill used
  · rfl
  · exact sane.queue_touch outside (Or.inl lock) _
  · rfl
  · exact sane.outside

theorem Sane.released (sane : disk.Sane) {p : Pid} {b : BufPtr} (holds : disk.Holds p b) :
    ((disk.setStore (disk.store.setBuf b
      { disk.buf b with lock := none })).setStage p (.putting b)).Sane := by
  obtain ⟨idle, outside, lock⟩ := holds
  apply sane.move (Or.inr (Or.inr rfl)) outside
  · rfl
  · rfl
  · rfl
  · exact sane.queue_touch outside (Or.inl lock) _
  · intro device a different other same
    exact different (sane.unique a b other device same)
  · exact nofun
  · exact fun q _ member => member
  · exact nofun
  · exact nofun
  · exact fun _ => nofun
  · exact sane.known b

theorem Sane.put (sane : disk.Sane) {p : Pid} {b : BufPtr} {mru : Mru}
    (puts : disk.stage p = .putting b) :
    ((disk.setStore
      { disk.store.setBuf b { disk.buf b with refs := (disk.buf b).refs.erase p } with
        mru := mru }).setStage p .idle).Sane := by
  have outside : disk.ide.inside p = none := by
    apply sane.outside p
    rw [puts]
    simp
  have kept : ∀ q, q ≠ p → q ∈ (disk.buf b).refs → q ∈ (disk.buf b).refs.erase p :=
    fun q different member => (List.mem_erase_of_ne different).mpr member
  apply sane.move (Or.inl rfl) outside
  · rfl
  · rfl
  · rfl
  · exact sane.queue_refs _ _
  · intro device a different other same
    exact different (sane.unique a b other device same)
  · intro q lock
    have different : q ≠ p := by
      rintro rfl
      exact sane.putting q b puts lock
    exact kept q different (sane.holder q b lock)
  · exact kept
  · exact fun q _ lock => lock
  · exact nofun
  · exact nofun
  · rintro (used | valid)
    · apply sane.known b (Or.inl _)
      intro none
      simp only [none, List.erase_nil, ne_eq, not_true] at used
    · exact sane.known b (Or.inr valid)

/-- While the disk is not idle, a process waits for the head of the queue. -/
theorem Sane.head (sane : disk.Sane) (active : disk.ide.device ≠ .idle) :
    ∃ b rest, disk.ide.Queued (b :: rest) ∧ disk.ide.idequeue = some b ∧
      (disk.buf b).refs ≠ [] := by
  obtain ⟨queue, queued⟩ := sane.queued
  obtain ⟨b, rest, rfl, first, -, -⟩ := queued.head active
  obtain ⟨-, -, -, q, waits⟩ := queued.queued b (List.mem_cons_self ..)
  exact ⟨b, rest, queued, first, List.ne_nil_of_mem (sane.holder q b (queued.inside q b waits).1)⟩

theorem Sane.served (sane : disk.Sane) {command : Command} {read : Block} {ide : Ide}
    (raised : disk.ide.device = .raised command read) {data : Block}
    (ended : Ide.ideintr data disk.ide = .done () ide) : (disk.setIde ide).Sane := by
  obtain ⟨b, rest, queued, -, used⟩ := sane.head (by rw [raised]; simp)
  obtain ⟨next, done, kept, store, inside, -, -⟩ := queued.ideintr data
  rw [ended] at done
  cases done
  apply sane.refill used
  · exact congrArg Store.buf store
  · exact ⟨rest, kept⟩
  · rfl
  · intro q busy
    change ide.inside q = none
    rw [inside]
    exact sane.outside q busy

theorem setBuf_read {Field : Type} (field : Buf → Field) {store : Store} {b : BufPtr} {buffer : Buf}
    {value : Field} (reads : field ((store.setBuf b buffer).buf b) = value) :
    field buffer = value := by
  rwa [Store.setBuf_same] at reads

theorem wait_keeps (p : Pid) (b : BufPtr) (ide : Ide) :
    (Ide.wait p b ide).store = ide.store ∧ (Ide.wait p b ide).device = ide.device ∧
      (Ide.wait p b ide).idequeue = ide.idequeue := by
  unfold Ide.wait
  split <;> exact ⟨rfl, rfl, rfl⟩

theorem Sane.changes (sane : disk.Sane) {event : FaultyEvent} (changes : disk.Changes event after) :
    after.Sane := by
  cases changes with
  | found idle outside small device same =>
      subst same
      exact sane.found outside small device
  | recycled idle outside small fresh unused clean => exact sane.recycled outside small fresh unused
  | hit waits free valid => exact sane.locked waits free
  | missed waits free invalid ended =>
      have outside := sane.outside _ (by rw [waits]; simp)
      refine (sane.locked waits free).iderw ?_ outside ?_ ?_ ended
      · exact Function.update_self _ _ _
      · exact congrArg Buf.lock (Store.setBuf_same _ _ _)
      · rintro ⟨valid, -⟩
        have same := setBuf_read Buf.valid valid
        cases invalid.symm.trans same
  | wrote holds ended =>
      refine (sane.filled holds _).iderw holds.1 holds.2.1 ?_ ?_ ended
      · exact (congrArg Buf.lock (Store.setBuf_same _ _ _)).trans holds.2.2
      · rintro ⟨-, clean⟩
        cases setBuf_read Buf.dirty clean
  | logged holds => exact sane.filled holds _
  | released holds => exact sane.released holds
  | put puts => exact sane.put puts
  | @tested p b waits =>
      obtain ⟨queue, queued⟩ := sane.queued
      apply sane.keep ⟨queue, queued.wait waits⟩
      · exact congrArg Store.buf (wait_keeps p b disk.ide).1
      · rfl
      · intro q busy
        have outside := sane.outside q busy
        have different : q ≠ p := by
          rintro rfl
          rw [waits] at outside
          cases outside
        change (Ide.wait p b disk.ide).inside q = none
        unfold Ide.wait
        split
        all_goals exact (Function.update_of_ne different _ _).trans outside
  | killed =>
      obtain ⟨queue, queued⟩ := sane.queued
      exact sane.keep ⟨queue, queued.wake _⟩ rfl rfl sane.outside
  | @completed command busy =>
      obtain ⟨queue, queued⟩ := sane.queued
      refine sane.keep ⟨queue, queued.complete busy (Ide.execute_buf command disk.ide.store) ?_⟩
        (Ide.execute_buf command disk.ide.store) rfl sane.outside
      intro write
      rw [Ide.execute, if_neg (by simp [write])]
      rfl
  | failed busy =>
      obtain ⟨queue, queued⟩ := sane.queued
      exact sane.keep ⟨queue, queued.complete busy rfl fun _ => rfl⟩ rfl rfl sane.outside
  | served raised ended => exact sane.served raised ended

/-! ## What the runs without errors keep -/

/-- A buffer in sync has the block, and a command that was not refused has
written the block before its interrupt is handled. -/
structure Coherent (disk : FaultyDisk) : Prop where
  same : ∀ b, (disk.buf b).valid = true → (disk.buf b).dirty = false →
    (disk.buf b).data = disk.store.disk (disk.buf b).blockno
  written : disk.failed = false → ∀ command read b, disk.ide.device = .raised command read →
    disk.ide.idequeue = some b → (disk.buf b).dirty = true →
    disk.store.disk (disk.buf b).blockno = (disk.buf b).data

theorem Coherent.touch (coherent : disk.Coherent) {b : BufPtr} {buffer : Buf}
    (store : after.store.buf = (disk.store.setBuf b buffer).buf)
    (blocks : after.store.disk = disk.store.disk) (failed : after.failed = disk.failed)
    (device : after.ide.device = disk.ide.device)
    (idequeue : after.ide.idequeue = disk.ide.idequeue)
    (same : buffer.valid = true → buffer.dirty = false →
      buffer.data = disk.store.disk buffer.blockno)
    (head : disk.ide.idequeue = some b → buffer.dirty = true → (disk.buf b).dirty = true ∧
      buffer.blockno = (disk.buf b).blockno ∧ buffer.data = (disk.buf b).data) :
    after.Coherent := by
  have here : after.buf b = buffer := by
    apply (congrFun store b).trans
    exact Store.setBuf_same _ _ _
  have others : ∀ a, a ≠ b → after.buf a = disk.buf a := by
    intro a different
    apply (congrFun store a).trans
    exact Store.setBuf_of_ne _ _ different
  constructor
  · intro a
    by_cases equal : a = b
    · subst equal
      rw [here, blocks]
      exact same
    · rw [others a equal, blocks]
      exact coherent.same a
  · intro quiet command read a raised first
    rw [failed] at quiet
    rw [device] at raised
    rw [idequeue] at first
    by_cases equal : a = b
    · subst equal
      rw [here, blocks]
      intro dirty
      obtain ⟨old, blockno, data⟩ := head first dirty
      rw [blockno, data]
      exact coherent.written quiet command read a raised first old
    · rw [others a equal, blocks]
      exact coherent.written quiet command read a raised first

/-- The references and the lock of a buffer do not matter. -/
theorem Coherent.relabel (coherent : disk.Coherent) {b : BufPtr} {lock : Option Pid}
    {refs : List Pid}
    (store : after.store.buf = (disk.store.setBuf b
      { disk.buf b with lock := lock, refs := refs }).buf)
    (blocks : after.store.disk = disk.store.disk) (failed : after.failed = disk.failed)
    (device : after.ide.device = disk.ide.device)
    (idequeue : after.ide.idequeue = disk.ide.idequeue) : after.Coherent :=
  coherent.touch store blocks failed device idequeue (coherent.same b) fun _ dirty =>
    ⟨dirty, rfl, rfl⟩

/-- No buffer changes, and no command completes. -/
theorem Coherent.keep (coherent : disk.Coherent) (store : after.store = disk.store)
    (failed : after.failed = disk.failed)
    (raised : ∀ command read a, after.ide.device = .raised command read →
      after.ide.idequeue = some a →
      disk.ide.device = .raised command read ∧ disk.ide.idequeue = some a) : after.Coherent := by
  have buf : after.buf = disk.buf := congrArg Store.buf store
  constructor
  · rw [buf, store]
    exact coherent.same
  · rw [buf, store, failed]
    intro quiet command read a here first
    obtain ⟨before, head⟩ := raised command read a here first
    exact coherent.written quiet command read a before head

theorem Coherent.iderw (coherent : disk.Coherent) (sane : disk.Sane) {p : Pid} {b : BufPtr}
    {ide : Ide} (outside : disk.ide.inside p = none) (lock : (disk.buf b).lock = some p)
    (stale : ¬disk.ide.Clean b) (ended : Ide.iderw p b disk.ide = .done () ide) :
    (disk.setIde ide).Coherent := by
  obtain ⟨queue, queued⟩ := sane.queued
  obtain ⟨dev, small⟩ := sane.known b (Or.inl (List.ne_nil_of_mem (sane.holder p b lock)))
  obtain ⟨next, done, -, moved⟩ := queued.iderw outside lock stale dev small
  rw [ended] at done
  cases done
  obtain ⟨state, shape⟩ := Ide.iderw_state stale (congrArg Outcome.state? ended)
  apply coherent.keep
  · change ide.store = _
    rw [shape]
    rfl
  · rfl
  · intro command read a raised first
    change ide.device = _ at raised
    change ide.idequeue = _ at first
    rcases moved with same | ⟨-, busy⟩
    · rw [same] at raised
      obtain ⟨head, -, -, front, -, -⟩ := queued.head (by rw [raised]; simp)
      refine ⟨raised, ?_⟩
      rw [shape] at first
      simpa only [Ide.enqueue, front] using first
    · rw [raised] at busy
      cases busy

theorem Coherent.filled (coherent : disk.Coherent) (sane : disk.Sane) {p : Pid} {b : BufPtr}
    (holds : disk.Holds p b) (data : Block) :
    (disk.setStore (disk.store.setBuf b
      { disk.buf b with data := data, dirty := true })).Coherent := by
  apply coherent.touch
  · rfl
  · rfl
  · rfl
  · rfl
  · rfl
  · intro _ clean
    cases clean
  · intro first
    obtain ⟨queue, queued⟩ := sane.queued
    have away := (queued.free holds.2.1 (Or.inl holds.2.2)).2
    have chain := queued.chain
    rw [first] at chain
    obtain ⟨rest, rfl, -⟩ := chain.cons_of_some
    exact absurd (List.mem_cons_self ..) away

theorem Coherent.completed (coherent : disk.Coherent) (sane : disk.Sane) {command : Command}
    (busy : disk.ide.device = .busy command) :
    Coherent
      { disk with
        ide :=
          { disk.ide with
            store := Ide.execute command disk.store
            device := .raised command (disk.store.disk command.sector) }
        failed := false } := by
  obtain ⟨b, rest, queued, first, used⟩ := sane.head (by rw [busy]; simp)
  have now := queued.executes busy first
  obtain ⟨device, small⟩ := sane.known b (Or.inl used)
  have sector : command.sector = (disk.buf b).blockno := by
    rw [now]
    exact Ide.sectorRegisters_eq small
  have buf : (Ide.execute command disk.store).buf = disk.store.buf := Ide.execute_buf _ _
  constructor
  · intro a valid clean
    change ((Ide.execute command disk.store).buf a).data =
      (Ide.execute command disk.store).disk ((Ide.execute command disk.store).buf a).blockno
    change ((Ide.execute command disk.store).buf a).valid = true at valid
    change ((Ide.execute command disk.store).buf a).dirty = false at clean
    rw [buf] at valid clean ⊢
    have before := coherent.same a valid clean
    rw [Ide.execute]
    split
    · rename_i writes
      have dirty : (disk.buf b).dirty = true := by
        rw [now] at writes
        exact writes.1
      -- The block that is written is cached in the head of the queue only.
      have elsewhere : (disk.buf a).blockno ≠ command.sector := by
        intro same
        have equal := sane.unique a b (sane.known a (Or.inr valid)).1 device (same.trans sector)
        subst equal
        rw [show (disk.buf a).dirty = false from clean] at dirty
        cases dirty
      exact before.trans (Function.update_of_ne elsewhere _ _).symm
    · exact before
  · intro _ raised read a _ head dirty
    rw [show disk.ide.idequeue = some a from head] at first
    cases first
    change (Ide.execute command disk.store).disk ((Ide.execute command disk.store).buf b).blockno =
      ((Ide.execute command disk.store).buf b).data
    change ((Ide.execute command disk.store).buf b).dirty = true at dirty
    rw [buf] at dirty ⊢
    have dev : command.dev = 1 := by
      rw [now]
      change (disk.buf b).dev % 2 = 1
      rw [device]
      rfl
    have write : command.write = true := by
      rw [now]
      exact dirty
    have data : command.data = (disk.buf b).data := by
      rw [now]
      rfl
    rw [Ide.execute, if_pos ⟨write, dev⟩]
    change Function.update disk.store.disk command.sector command.data (disk.buf b).blockno = _
    rw [sector, Function.update_self]
    exact data

/-- What `ideintr` does with the head of the queue. -/
theorem Sane.serves (sane : disk.Sane) {command : Command} {read : Block} {ide : Ide}
    (raised : disk.ide.device = .raised command read)
    (ended : Ide.ideintr (disk.insl read) disk.ide = .done () ide) :
    ∃ b, disk.ide.idequeue = some b ∧
      ((disk.buf b).dirty = false → read = disk.store.disk (disk.buf b).blockno) ∧
      ide.store = disk.store.setBuf b
        { disk.buf b with
          data :=
            if (disk.buf b).dirty = true ∨ disk.failed = true then (disk.buf b).data else read
          valid := true
          dirty := false } ∧
      (ide.device = .idle ∨ ∃ command, ide.device = .busy command) := by
  obtain ⟨b, rest, queued, first, -⟩ := sane.head (by rw [raised]; simp)
  obtain ⟨next, done, -, store, -, -, quiet⟩ := queued.ideintr (disk.insl read)
  rw [ended] at done
  cases done
  refine ⟨b, first, ?_, ?_, quiet⟩
  · rcases queued.works b first with busy | ⟨other, here, reads⟩
    · rw [raised] at busy
      cases busy
    · rw [raised] at here
      cases here
      exact reads
  · have data : (if (disk.buf b).dirty = true then (disk.buf b).data else disk.insl read) =
        if (disk.buf b).dirty = true ∨ disk.failed = true then (disk.buf b).data else read := by
      simp only [insl, first]
      by_cases dirty : (disk.buf b).dirty = true
      · rw [if_pos dirty, if_pos (Or.inl dirty)]
      · simp only [dirty, Bool.false_eq_true, false_or, if_false]
    rw [store]
    exact congrArg (fun data => disk.store.setBuf b
      { disk.buf b with data := data, valid := true, dirty := false }) data

theorem Coherent.served (coherent : disk.Coherent) (sane : disk.Sane) {command : Command}
    {read : Block} {ide : Ide} (quiet : disk.failed = false)
    (raised : disk.ide.device = .raised command read)
    (ended : Ide.ideintr (disk.insl read) disk.ide = .done () ide) :
    (disk.setIde ide).Coherent := by
  obtain ⟨b, first, reads, store, rests⟩ := sane.serves raised ended
  constructor
  · intro a
    change (ide.store.buf a).valid = true → (ide.store.buf a).dirty = false →
      (ide.store.buf a).data = ide.store.disk (ide.store.buf a).blockno
    rw [store]
    by_cases same : a = b
    · subst same
      rw [Store.setBuf_same]
      intro _ _
      change (if _ then _ else _) = disk.store.disk (disk.buf a).blockno
      by_cases dirty : (disk.buf a).dirty = true
      · rw [if_pos (Or.inl dirty)]
        exact (coherent.written quiet command read a raised first dirty).symm
      · rw [if_neg (by simp [dirty, quiet])]
        exact reads (by simpa using dirty)
    · rw [Store.setBuf_of_ne _ _ same]
      exact coherent.same a
  · intro _ command read a here
    change ide.device = _ at here
    rcases rests with idle | ⟨_, busy⟩
    · rw [idle] at here
      cases here
    · rw [busy] at here
      cases here

theorem Coherent.changes (coherent : disk.Coherent) (sane : disk.Sane) {event : FaultyEvent}
    (quiet : event = .ideintr → disk.failed = false) (changes : disk.Changes event after) :
    after.Coherent := by
  cases changes with
  | found idle outside small device same => exact coherent.relabel rfl rfl rfl rfl rfl
  | recycled idle outside small fresh unused clean =>
      exact coherent.touch rfl rfl rfl rfl rfl nofun fun _ => nofun
  | hit waits free valid => exact coherent.relabel rfl rfl rfl rfl rfl
  | @missed p b ide waits free invalid ended =>
      have outside := sane.outside _ (by rw [waits]; simp)
      have locked : ((disk.setStore (disk.store.setBuf b
          { disk.buf b with lock := some p })).setStage p .idle).Coherent :=
        coherent.relabel rfl rfl rfl rfl rfl
      refine locked.iderw (sane.locked waits free) outside ?_ ?_ ended
      · exact congrArg Buf.lock (Store.setBuf_same _ _ _)
      · rintro ⟨valid, -⟩
        have same := setBuf_read Buf.valid valid
        cases invalid.symm.trans same
  | wrote holds ended =>
      refine (coherent.filled sane holds _).iderw (sane.filled holds _) holds.2.1 ?_ ?_ ended
      · exact (congrArg Buf.lock (Store.setBuf_same _ _ _)).trans holds.2.2
      · rintro ⟨-, clean⟩
        cases setBuf_read Buf.dirty clean
  | logged holds => exact coherent.filled sane holds _
  | released holds => exact coherent.relabel rfl rfl rfl rfl rfl
  | put puts => exact coherent.relabel rfl rfl rfl rfl rfl
  | tested waits =>
      apply coherent.keep
      · exact (wait_keeps _ _ _).1
      · rfl
      · intro command read a raised first
        obtain ⟨-, device, idequeue⟩ := wait_keeps _ _ disk.ide
        exact ⟨device.symm.trans raised, idequeue.symm.trans first⟩
  | killed => exact coherent.keep rfl rfl fun _ _ _ raised first => ⟨raised, first⟩
  | completed busy => exact coherent.completed sane busy
  | failed busy => exact ⟨coherent.same, nofun⟩
  | served raised ended => exact coherent.served sane (quiet rfl) raised ended

/-! ## What is reported to the callers -/

/-- `p` returns from `bread` or `bwrite` with the buffer. -/
def Returns (disk after : FaultyDisk) (p : Pid) (b : BufPtr) : Prop :=
  (disk.stage p = .waiting b ∨ disk.ide.inside p = some b) ∧ after.Holds p b

/-- A step that reports nothing to a caller that is not so. -/
structure Honest (disk : FaultyDisk) (event : FaultyEvent) (after : FaultyDisk) : Prop where
  returned : ∀ p b, disk.Returns after p b → (after.buf b).valid = true →
    (after.buf b).dirty = false → (after.buf b).data = after.store.disk (after.buf b).blockno
  cleared : ∀ b, (disk.buf b).dirty = true → (after.buf b).dirty = false →
    after.store.disk (disk.buf b).blockno = (disk.buf b).data
  reported : event = .ideintr → disk.failed = true →
    ∀ b, disk.ide.idequeue = some b → ¬after.ide.Clean b

/-- All steps of the run are honest. -/
def HonestRun (start : FaultyDisk) (events : List FaultyEvent) : Prop :=
  ∀ past event rest before after, events = past ++ event :: rest →
    runs next start past = some before → before.next event = some after →
    before.Honest event after

/-- No interrupt of the run is handled with the DF or the ERR bit set. -/
def Unfailed (start : FaultyDisk) (events : List FaultyEvent) : Prop :=
  ∀ past rest before after, events = past ++ .ideintr :: rest →
    runs next start past = some before → before.next .ideintr = some after →
    before.failed = false

/-- The machine before the first process runs. -/
def attach (log : Log) (blocks : Nat → Block) : FaultyDisk where
  ide := Ide.ideinit (boot log blocks)
  stage := fun _ => .idle
  failed := false

theorem attach_sane (log : Log) (blocks : Nat → Block) : (attach log blocks).Sane := by
  have boot : Ide.Boot (attach log blocks).ide := ⟨rfl, rfl, rfl, fun _ => rfl, rfl, rfl, rfl⟩
  refine ⟨boot.served_start.1, ?_, nofun, nofun, nofun, ?_, fun _ _ => rfl⟩
  · intro a b device
    cases device
  · rintro b (used | valid)
    · exact absurd rfl used
    · cases valid

theorem attach_coherent (log : Log) (blocks : Nat → Block) : (attach log blocks).Coherent :=
  ⟨nofun, nofun⟩

theorem sane_run {log : Log} {blocks : Nat → Block} {events : List FaultyEvent} {final : FaultyDisk}
    (ran : runs next (attach log blocks) events = some final) : final.Sane := by
  apply runs_invariant (fun _ => Sane) (attach_sane log blocks) ?_ ran
  intro _ before event after sane stepped
  exact sane.changes (next_changes stepped)

theorem coherent_run {log : Log} {blocks : Nat → Block} {events : List FaultyEvent}
    {final : FaultyDisk} (ran : runs next (attach log blocks) events = some final)
    (unfailed : Unfailed (attach log blocks) events) : final.Coherent := by
  induction events using List.reverseRecOn generalizing final with
  | nil =>
      cases ran
      exact attach_coherent log blocks
  | append_singleton past event inductionHypothesis =>
      rw [runs_concat] at ran
      obtain ⟨before, earlier, stepped⟩ := Option.bind_eq_some_iff.mp ran
      have coherent := by
        apply inductionHypothesis earlier
        intro first rest middle after split
        apply unfailed first (rest ++ [event])
        rw [split, List.append_assoc]
        rfl
      apply coherent.changes (sane_run earlier) ?_ (next_changes stepped)
      rintro rfl
      exact unfailed past [] before final rfl earlier stepped

theorem iderw_store {ide ended : Ide} {p : Pid} {b : BufPtr}
    (ends : Ide.iderw p b ide = .done () ended) : ended.store = ide.store := by
  by_cases clean : ide.Clean b
  · rw [Ide.iderw] at ends
    split at ends
    all_goals cases ends
  · obtain ⟨_, shape⟩ := Ide.iderw_state clean (congrArg Outcome.state? ends)
    rw [shape]

theorem dirty_setBuf {store : Store} {a b : BufPtr} {buffer : Buf}
    (dirty : (store.buf b).dirty = true) (kept : a = b → buffer.dirty = true) :
    ((store.setBuf a buffer).buf b).dirty = true := by
  by_cases same : b = a
  · subst same
    rw [Store.setBuf_same]
    exact kept rfl
  · rw [Store.setBuf_of_ne _ _ same]
    exact dirty

/-- Only the handler clears B_DIRTY. -/
theorem Changes.dirty {event : FaultyEvent} (changes : disk.Changes event after) {b : BufPtr}
    (dirty : (disk.buf b).dirty = true) : event = .ideintr ∨ (after.buf b).dirty = true := by
  cases changes with
  | served raised ended => exact Or.inl rfl
  | recycled idle outside small fresh unused clean =>
      refine Or.inr (dirty_setBuf dirty ?_)
      rintro rfl
      exact absurd dirty (by simp [clean])
  | @missed p a ide waits free invalid ended =>
      right
      change (ide.store.buf b).dirty = true
      rw [iderw_store ended]
      apply dirty_setBuf dirty
      rintro rfl
      exact dirty
  | @wrote p a data ide holds ended =>
      right
      change (ide.store.buf b).dirty = true
      rw [iderw_store ended]
      exact dirty_setBuf dirty fun _ => rfl
  | logged holds => exact Or.inr (dirty_setBuf dirty fun _ => rfl)
  | tested waits =>
      right
      change ((Ide.wait _ _ disk.ide).store.buf b).dirty = true
      rw [(wait_keeps _ _ _).1]
      exact dirty
  | killed => exact Or.inr dirty
  | completed busy =>
      right
      change ((Ide.execute _ disk.store).buf b).dirty = true
      rw [Ide.execute_buf]
      exact dirty
  | failed busy => exact Or.inr dirty
  | _ =>
      -- The flags are those of before.
      refine Or.inr (dirty_setBuf dirty ?_)
      rintro rfl
      exact dirty

theorem Coherent.honest (coherent : disk.Coherent) (sane : disk.Sane) {event : FaultyEvent}
    (quiet : event = .ideintr → disk.failed = false) (stepped : disk.next event = some after) :
    disk.Honest event after := by
  have changes := next_changes stepped
  constructor
  · intro p b _
    exact (coherent.changes sane quiet changes).same b
  · intro b dirty clean
    rcases changes.dirty dirty with rfl | set
    · cases changes with
      | @served command read ide raised ended =>
          obtain ⟨head, first, -, store, -⟩ := sane.serves raised ended
          by_cases same : b = head
          · subst same
            change ide.store.disk _ = _
            rw [store]
            exact coherent.written (quiet rfl) command read b raised first dirty
          · change (ide.store.buf b).dirty = false at clean
            rw [store, Store.setBuf_of_ne _ _ same] at clean
            cases clean.symm.trans dirty
    · rw [clean] at set
      cases set
  · rintro rfl failed
    rw [quiet rfl] at failed
    cases failed

/-- `ideintr` reports the buffer of any command as valid and in sync. -/
theorem Sane.reports (sane : disk.Sane) (stepped : disk.next .ideintr = some after) :
    ∃ b, disk.ide.idequeue = some b ∧ after.ide.Clean b := by
  cases next_changes stepped with
  | @served command read ide raised ended =>
      obtain ⟨b, first, -, store, -⟩ := sane.serves raised ended
      refine ⟨b, first, ?_⟩
      change (ide.store.buf b).valid = true ∧ (ide.store.buf b).dirty = false
      rw [store, Store.setBuf_same]
      exact ⟨rfl, rfl⟩

/-- What the callers are told is so in exactly the runs in which no interrupt is
handled with the DF or the ERR bit set. -/
theorem diskErrors_honest_iff (log : Log) (blocks : Nat → Block) (events : List FaultyEvent) :
    HonestRun (attach log blocks) events ↔ Unfailed (attach log blocks) events := by
  constructor
  · intro honest past rest before after split ran stepped
    by_contra failed
    obtain ⟨b, first, clean⟩ := (sane_run ran).reports stepped
    have step := honest past .ideintr rest before after split ran stepped
    exact step.reported rfl (by simpa using failed) b first clean
  · intro unfailed past event rest before after split ran stepped
    have earlier : Unfailed (attach log blocks) past := by
      intro first others middle next same
      apply unfailed first (others ++ event :: rest)
      rw [split, same, List.append_assoc]
      rfl
    apply (coherent_run ran earlier).honest (sane_run ran) ?_ stepped
    rintro rfl
    exact unfailed past rest before after split ran stepped

/-- The disk fails to read block 7. -/
def failingRead : List FaultyEvent :=
  [.bget 1 7, .acquiresleep 1, .device true, .ideintr]

def fives : FaultyDisk := attach ⟨2, 30, 0, false, 1, ⟨0, fun _ => 0⟩⟩ fun _ _ => 5

/-- `bread` returns a buffer that is valid and has not what the disk has. -/
theorem diskErrors_stale_read : ¬HonestRun fives (failingRead ++ [.retest 1]) := by
  intro honest
  have facts : (runs next fives failingRead).bind (fun before =>
      (before.next (.retest 1)).map fun after =>
        decide (before.ide.inside 1 = some Ide.firstBuf ∧ after.Holds 1 Ide.firstBuf ∧
          (after.buf Ide.firstBuf).valid = true ∧ (after.buf Ide.firstBuf).dirty = false ∧
          (after.buf Ide.firstBuf).data 0 ≠
            after.store.disk (after.buf Ide.firstBuf).blockno 0)) = some true := by
    decide +kernel
  obtain ⟨before, ran, stepped⟩ := Option.bind_eq_some_iff.mp facts
  obtain ⟨after, stepped, holds⟩ := Option.map_eq_some_iff.mp stepped
  obtain ⟨waits, held, valid, clean, stale⟩ := of_decide_eq_true holds
  have step := honest failingRead (.retest 1) [] before after rfl ran stepped
  have same := step.returned 1 Ide.firstBuf ⟨Or.inr waits, held⟩ valid clean
  exact stale (congrFun same 0)

end FaultyDisk

end Xv6.Fs
