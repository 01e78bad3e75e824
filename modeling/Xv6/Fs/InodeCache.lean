import Xv6.Fs.Inode
import Xv6.Library.Runs

/-!
# The inode cache under any interleaving

Any number of processes look up, lock, change, allocate and release inodes. A
section under `icache.lock`, a block read or written with its buffer locked, and
an assignment to a locked inode are one step each; `iput` and `ialloc` let the
others in between their steps.
-/

namespace Xv6.Fs.Icache

open Xv6.Library

/-- `struct inode` with its device and its sleep lock. -/
structure Entry extends Inode where
  dev : Nat
  lock : Option Pid

/-- Who a reference belongs to: a process, for a local variable or its current
directory, or an open file. -/
inductive Owner where
  | process (p : Pid)
  | file (f : Nat)
deriving DecidableEq

/-- Where a process is in `iput`. -/
inductive PutStage where
  /-- before the test of `valid` and `nlink` -/
  | locked
  /-- before it reads the reference count -/
  | unlinked
  /-- before `itrunc` -/
  | freeing
  /-- in `itrunc`, before its `iupdate` -/
  | truncated
  /-- before `ip->type = 0` -/
  | emptied
  /-- before the `iupdate` after it -/
  | typeless
  /-- before `ip->valid = 0` -/
  | freed
  /-- before `releasesleep` -/
  | kept
  /-- before the count goes down -/
  | released
deriving DecidableEq

/-- Where a process is. -/
inductive Pc where
  /-- in no function of the inode cache -/
  | idle
  /-- in `ilock`, past `acquiresleep` -/
  | loading (ip : InodePtr)
  /-- it has changed a field, and calls `iupdate` next -/
  | modified (ip : InodePtr)
  /-- in the loop of `ialloc` -/
  | scanning (dev type inum : Nat)
  /-- in `ialloc`, before `iget` -/
  | marked (dev inum : Nat)
  | putting (ip : InodePtr) (stage : PutStage)
deriving DecidableEq

/-- The cache and the inodes of each device. The rest is history: the
references that are out, and the calls under way on open files. -/
structure State where
  entry : InodePtr → Entry
  dinode : Nat → Nat → Dinode
  ninodes : Nat
  pc : Pid → Pc
  refs : List (Owner × InodePtr)
  calls : List (Pid × Nat)

inductive Event where
  | iget (p : Pid) (dev inum : Nat)
  | idup (p : Pid) (ip : InodePtr)
  /-- the reference goes to a new process or an open file -/
  | give (p : Pid) (ip : InodePtr) (owner : Owner)
  /-- `p` enters and leaves a call on an open file -/
  | enter (p : Pid) (f : Nat)
  | leave (p : Pid) (f : Nat)
  /-- the last `fileclose` takes the reference of the file over -/
  | close (p : Pid) (f : Nat) (ip : InodePtr)
  | ilock (p : Pid) (ip : InodePtr)
  | modify (p : Pid) (ip : InodePtr) (fields : Dinode)
  | iunlock (p : Pid) (ip : InodePtr)
  | ialloc (p : Pid) (dev type : Nat)
  | iput (p : Pid) (ip : InodePtr)
  /-- the next step of the function `p` is in -/
  | go (p : Pid)

namespace State

def setEntry (state : State) (ip : InodePtr) (entry : Entry) : State :=
  { state with entry := Function.update state.entry ip entry }

def setPc (state : State) (p : Pid) (pc : Pc) : State :=
  { state with pc := Function.update state.pc p pc }

def setDinode (state : State) (dev inum : Nat) (dinode : Dinode) : State :=
  { state with
    dinode := Function.update state.dinode dev (Function.update (state.dinode dev) inum dinode) }

/-- One more reference. -/
def addRef (state : State) (owner : Owner) (ip : InodePtr) : State :=
  { state.setEntry ip { state.entry ip with ref := (state.entry ip).ref + 1 } with
    refs := (owner, ip) :: state.refs }

/-- Recycle an inode cache entry. -/
def recycle (state : State) (owner : Owner) (ip : InodePtr) (dev inum : Nat) : State :=
  { state.setEntry ip
      { state.entry ip with dev := dev, inum := inum, ref := 1, valid := false } with
    refs := (owner, ip) :: state.refs }

/-- The inode on disk that an entry is a copy of. -/
def copied (state : State) (ip : InodePtr) : Dinode :=
  state.dinode (state.entry ip).dev (state.entry ip).inum

/-- Find the inode with number `inum` on device `dev` and return the in-memory
copy. -/
def iget (p : Pid) (dev inum : Nat) (state : State) : Outcome State InodePtr :=
  match (List.finRange ninode).find? fun ip =>
      decide (0 < (state.entry ip).ref) && (state.entry ip).dev == dev &&
        (state.entry ip).inum == inum with
  | some ip => .done ip (state.addRef (.process p) ip)
  | none =>
      match (List.finRange ninode).find? fun ip => (state.entry ip).ref == 0 with
      | some empty => .done empty (state.recycle (.process p) empty dev inum)
      | none => .panic "iget: no inodes"

/-- `p` may lock the inode: the reference is its own, or that of an open file it
is in a call on. -/
def Uses (state : State) (p : Pid) (ip : InodePtr) : Prop :=
  (Owner.process p, ip) ∈ state.refs ∨
    ∃ call ∈ state.calls, call.1 = p ∧ (Owner.file call.2, ip) ∈ state.refs

instance (state : State) (p : Pid) (ip : InodePtr) : Decidable (state.Uses p ip) :=
  inferInstanceAs (Decidable (_ ∨ ∃ call ∈ state.calls, _))

/-- The rest of `ilock`, once it has the lock. -/
def load (p : Pid) (ip : InodePtr) (state : State) : Outcome State Unit :=
  let entry := state.entry ip
  if entry.valid = false then
    if (state.copied ip).type = 0 then .panic "ilock: no type"
    else
      .done () ((state.setEntry ip
        { entry with toDinode := state.copied ip, valid := true }).setPc p .idle)
  else .done () (state.setPc p .idle)

/-- Copy a modified in-memory inode to disk. -/
def iupdate (ip : InodePtr) (state : State) : State :=
  state.setDinode (state.entry ip).dev (state.entry ip).inum (state.entry ip).toDinode

/-- One inode of the loop of `ialloc`. -/
def scan (p : Pid) (dev type inum : Nat) (state : State) : Outcome State Unit :=
  if inum < state.ninodes then
    if (state.dinode dev inum).type = 0 then
      .done () ((state.setDinode dev inum
        { type := type, major := 0, minor := 0, nlink := 0, size := 0, addrs := fun _ => 0 }).setPc
          p (.marked dev inum))
    else .done () (state.setPc p (.scanning dev type (inum + 1)))
  else .panic "ialloc: no inodes"

/-- The steps of `iput` after `acquiresleep`. -/
def put (p : Pid) (ip : InodePtr) (state : State) : PutStage → State
  | .locked =>
      state.setPc p (.putting ip
        (if (state.entry ip).valid = true ∧ (state.entry ip).nlink = 0 then .unlinked else .kept))
  | .unlinked => state.setPc p (.putting ip (if (state.entry ip).ref = 1 then .freeing else .kept))
  | .freeing =>
      (state.setEntry ip
        { state.entry ip with
          size := 0
          addrs := fun k => if k ≤ ndirect then 0 else (state.entry ip).addrs k }).setPc p
        (.putting ip .truncated)
  | .truncated => (state.iupdate ip).setPc p (.putting ip .emptied)
  | .emptied =>
      (state.setEntry ip { state.entry ip with type := 0 }).setPc p (.putting ip .typeless)
  | .typeless => (state.iupdate ip).setPc p (.putting ip .freed)
  | .freed =>
      (state.setEntry ip { state.entry ip with valid := false }).setPc p (.putting ip .kept)
  | .kept => (state.setEntry ip { state.entry ip with lock := none }).setPc p (.putting ip .released)
  | .released =>
      { (state.setEntry ip { state.entry ip with ref := (state.entry ip).ref - 1 }).setPc p .idle with
        refs := state.refs.erase (.process p, ip) }

def go (p : Pid) (state : State) : Outcome State Unit :=
  match state.pc p with
  | .idle => .blocked
  | .loading ip => state.load p ip
  | .modified ip => .done () ((state.iupdate ip).setPc p .idle)
  | .scanning dev type inum => state.scan p dev type inum
  | .marked dev inum =>
      match state.iget p dev inum with
      | .blocked => .blocked
      | .panic message => .panic message
      | .done _ next => .done () (next.setPc p .idle)
  | .putting ip stage => .done () (state.put p ip stage)

def step (state : State) : Event → Outcome State Unit
  | .iget p dev inum =>
      if state.pc p = .idle then
        match state.iget p dev inum with
        | .blocked => .blocked
        | .panic message => .panic message
        | .done _ next => .done () next
      else .blocked
  | .idup p ip =>
      if state.pc p = .idle ∧ (Owner.process p, ip) ∈ state.refs then
        .done () (state.addRef (.process p) ip)
      else .blocked
  | .give p ip owner =>
      if state.pc p = .idle ∧ (Owner.process p, ip) ∈ state.refs ∧ (state.entry ip).lock ≠ some p then
        .done () { state with refs := (owner, ip) :: state.refs.erase (.process p, ip) }
      else .blocked
  | .enter p f =>
      if state.pc p = .idle then .done () { state with calls := (p, f) :: state.calls } else .blocked
  | .leave p f =>
      if state.pc p = .idle ∧
          ∀ ip, (Owner.file f, ip) ∈ state.refs → (state.entry ip).lock ≠ some p then
        .done () { state with calls := state.calls.erase (p, f) }
      else .blocked
  | .close p f ip =>
      if state.pc p = .idle ∧ (Owner.file f, ip) ∈ state.refs ∧ ∀ call ∈ state.calls, call.2 ≠ f then
        .done () { state with refs := (.process p, ip) :: state.refs.erase (.file f, ip) }
      else .blocked
  | .ilock p ip =>
      if state.pc p = .idle ∧ state.Uses p ip then
        if (state.entry ip).ref < 1 then .panic "ilock"
        else if (state.entry ip).lock = none then
          .done () ((state.setEntry ip { state.entry ip with lock := some p }).setPc p (.loading ip))
        else .blocked
      else .blocked
  | .modify p ip fields =>
      -- no assignment changes the type of a locked inode, but the one in `iput`
      if (state.pc p = .idle ∨ state.pc p = .modified ip) ∧ (state.entry ip).lock = some p ∧
          (state.entry ip).valid = true ∧ fields.type = (state.entry ip).type then
        .done () ((state.setEntry ip { state.entry ip with toDinode := fields }).setPc p (.modified ip))
      else .blocked
  | .iunlock p ip =>
      if state.pc p = .idle then
        if (state.entry ip).lock ≠ some p ∨ (state.entry ip).ref < 1 then .panic "iunlock"
        else .done () (state.setEntry ip { state.entry ip with lock := none })
      else .blocked
  | .ialloc p dev type =>
      if state.pc p = .idle then .done () (state.setPc p (.scanning dev type 1)) else .blocked
  | .iput p ip =>
      if state.pc p = .idle ∧ (Owner.process p, ip) ∈ state.refs ∧ (state.entry ip).lock = none then
        .done () ((state.setEntry ip { state.entry ip with lock := some p }).setPc p
          (.putting ip .locked))
      else .blocked
  | .go p => state.go p

def next (state : State) (event : Event) : Option State := (state.step event).state?

end State

/-! ## The invariant -/

variable {state next : State} {p q : Pid} {ip a b : InodePtr} {owner : Owner} {event : Event}

/-- What the holder of an inode's lock is doing with it. -/
inductive Phase where
  /-- the copy and the disk agree -/
  | settled
  /-- the copy has changed, but not its type -/
  | changing
  /-- the type is 0 in the copy only -/
  | erasing
  /-- the type is 0 on disk, where another process may allocate the inode -/
  | freed

def Pc.phase (ip : InodePtr) : Pc → Phase
  | .modified a => if a = ip then .changing else .settled
  | .putting a .truncated => if a = ip then .changing else .settled
  | .putting a .typeless => if a = ip then .erasing else .settled
  | .putting a .freed => if a = ip then .freed else .settled
  | _ => .settled

def State.phase (state : State) (ip : InodePtr) : Phase :=
  match (state.entry ip).lock with
  | some p => (state.pc p).phase ip
  | none => .settled

def Phase.Holds (fields disk : Dinode) : Phase → Prop
  | .settled => fields = disk ∧ disk.type ≠ 0
  | .changing => fields.type = disk.type ∧ disk.type ≠ 0
  | .erasing => disk.type ≠ 0 ∧ disk.nlink = 0
  | .freed => True

/-- `iput` has seen that the inode has no links, and still has it as it was. -/
def PutStage.Unlinked : PutStage → Prop
  | .unlinked | .freeing | .truncated | .emptied | .typeless => True
  | .locked | .freed | .kept | .released => False

def State.Placed (state : State) (p : Pid) : Pc → Prop
  | .idle | .scanning _ _ _ | .marked _ _ => True
  | .loading ip => (state.entry ip).lock = some p
  | .modified ip => (state.entry ip).lock = some p ∧ (state.entry ip).valid = true
  | .putting ip .released =>
      (Owner.process p, ip) ∈ state.refs ∧ (state.entry ip).lock ≠ some p
  | .putting ip stage =>
      (Owner.process p, ip) ∈ state.refs ∧ (state.entry ip).lock = some p ∧
        (stage.Unlinked → (state.entry ip).valid = true ∧ (state.entry ip).nlink = 0)

/-- The references to an entry that are out. -/
def State.outstanding (state : State) (ip : InodePtr) : List (Owner × InodePtr) :=
  state.refs.filter fun ref => ref.2 == ip

structure Good (state : State) : Prop where
  unique : ∀ a b, 0 < (state.entry a).ref → 0 < (state.entry b).ref →
    (state.entry a).dev = (state.entry b).dev → (state.entry a).inum = (state.entry b).inum → a = b
  counted : ∀ ip, (state.entry ip).ref = (state.outstanding ip).length
  holder : ∀ ip p, (state.entry ip).lock = some p → state.Uses p ip
  placed : ∀ p, state.Placed p (state.pc p)
  coherent : ∀ ip, 0 < (state.entry ip).ref → (state.entry ip).valid = true →
    (state.phase ip).Holds (state.entry ip).toDinode (state.copied ip)

theorem Good.positive_of_mem (good : Good state) (member : (owner, ip) ∈ state.refs) :
    0 < (state.entry ip).ref := by
  have found : (owner, ip) ∈ state.outstanding ip := by simp [State.outstanding, member]
  have some := List.length_pos_of_mem found
  rw [good.counted]
  exact Int.natCast_pos.mpr some

theorem Good.positive (good : Good state) (uses : state.Uses p ip) :
    0 < (state.entry ip).ref := by
  rcases uses with member | ⟨call, -, -, member⟩
  · exact good.positive_of_mem member
  · exact good.positive_of_mem member

/-- Nobody has the lock of an entry without references. -/
theorem Good.unlocked (good : Good state) (unused : (state.entry ip).ref = 0) :
    (state.entry ip).lock = none := by
  cases held : (state.entry ip).lock with
  | none => rfl
  | some p =>
      have positive := good.positive (good.holder ip p held)
      omega

/-- The process is not in a function on another entry. -/
def Pc.On (ip : InodePtr) : Pc → Prop
  | .idle => True
  | .loading a | .modified a | .putting a _ => a = ip
  | .scanning _ _ _ | .marked _ _ => False

theorem Pc.On.phase_other {pc : Pc} (on : pc.On ip) (different : a ≠ ip) :
    pc.phase a = .settled := by
  cases pc with
  | idle => rfl
  | loading other => rfl
  | modified other =>
      cases on
      exact if_neg different.symm
  | scanning dev type inum => rfl
  | marked dev inum => rfl
  | putting other stage =>
      cases on
      cases stage <;> first | rfl | exact if_neg different.symm

/-- A step of `p` that touches the entry `ip` only. -/
structure Local (p : Pid) (ip : InodePtr) (state next : State) : Prop where
  entry : ∀ a, a ≠ ip → next.entry a = state.entry a
  dev : (next.entry ip).dev = (state.entry ip).dev
  inum : (next.entry ip).inum = (state.entry ip).inum
  ref : (next.entry ip).ref = (state.entry ip).ref
  before : (state.entry ip).lock = none ∨ (state.entry ip).lock = some p
  after : (next.entry ip).lock = none ∨ (next.entry ip).lock = some p
  dinode : ∀ dev inum, dev = (state.entry ip).dev ∧ inum = (state.entry ip).inum ∨
    next.dinode dev inum = state.dinode dev inum
  pc : ∀ q, q ≠ p → next.pc q = state.pc q
  was : (state.pc p).On ip
  goes : (next.pc p).On ip
  refs : next.refs = state.refs
  calls : next.calls = state.calls

theorem Local.outstanding (step : Local p ip state next) (a : InodePtr) :
    next.outstanding a = state.outstanding a := by
  rw [State.outstanding, step.refs]
  rfl

theorem Local.uses (step : Local p ip state next) (q : Pid) (a : InodePtr) :
    next.Uses q a ↔ state.Uses q a := by
  rw [State.Uses, step.refs, step.calls]
  rfl

/-- The entries other than `ip` keep their dev, number and count. -/
theorem Local.same (step : Local p ip state next) (a : InodePtr) :
    (next.entry a).dev = (state.entry a).dev ∧ (next.entry a).inum = (state.entry a).inum ∧
      (next.entry a).ref = (state.entry a).ref := by
  by_cases here : a = ip
  · rw [here]
    exact ⟨step.dev, step.inum, step.ref⟩
  · rw [step.entry a here]
    exact ⟨rfl, rfl, rfl⟩

theorem Local.phase (step : Local p ip state next) (different : a ≠ ip) :
    next.phase a = state.phase a := by
  unfold State.phase
  rw [step.entry a different]
  cases (state.entry a).lock with
  | none => rfl
  | some q =>
      by_cases here : q = p
      · rw [here]
        exact (step.goes.phase_other different).trans (step.was.phase_other different).symm
      · simp only [step.pc q here]

/-- The other processes stay where they may be. -/
theorem Local.placed (step : Local p ip state next) (different : q ≠ p)
    (placed : state.Placed q (state.pc q)) : next.Placed q (next.pc q) := by
  have here : ∀ a, (state.entry a).lock = some q → next.entry a = state.entry a := by
    intro a held
    refine step.entry a ?_
    rintro rfl
    rcases step.before with free | mine
    · simp [free] at held
    · rw [mine, Option.some.injEq] at held
      exact different held.symm
  rw [step.pc q different]
  cases place : state.pc q with
  | idle => trivial
  | scanning dev type inum => trivial
  | marked dev inum => trivial
  | loading a =>
      rw [place] at placed
      simp only [State.Placed] at placed ⊢
      rw [here a placed]
      exact placed
  | modified a =>
      rw [place] at placed
      simp only [State.Placed] at placed ⊢
      rw [here a placed.1]
      exact placed
  | putting a stage =>
      rw [place] at placed
      by_cases last : stage = .released
      · subst last
        simp only [State.Placed, step.refs] at placed ⊢
        refine ⟨placed.1, fun held => ?_⟩
        by_cases same : a = ip
        · rcases step.after with free | mine
          · simp [same, free] at held
          · rw [same, mine, Option.some.injEq] at held
            exact different held.symm
        · rw [step.entry a same] at held
          exact placed.2 held
      · cases stage with
        | released => exact absurd rfl last
        | _ =>
            simp only [State.Placed, step.refs] at placed ⊢
            rw [here a placed.2.1]
            exact placed

theorem Good.local (good : Good state) (step : Local p ip state next) (uses : state.Uses p ip)
    (placed : next.Placed p (next.pc p))
    (coherent : (next.entry ip).valid = true →
      (next.phase ip).Holds (next.entry ip).toDinode (next.copied ip)) : Good next where
  unique := by
    intro a b
    rcases step.same a with ⟨dev, inum, ref⟩
    rcases step.same b with ⟨dev', inum', ref'⟩
    rw [dev, inum, ref, dev', inum', ref']
    exact good.unique a b
  counted := by
    intro a
    rw [(step.same a).2.2, step.outstanding]
    exact good.counted a
  holder := by
    intro a q held
    rw [step.uses]
    by_cases here : a = ip
    · subst here
      rcases step.after with free | mine
      · simp [free] at held
      · rw [mine, Option.some.injEq] at held
        exact held ▸ uses
    · rw [step.entry a here] at held
      exact good.holder a q held
  placed := by
    intro q
    by_cases here : q = p
    · exact here ▸ placed
    · exact step.placed here (good.placed q)
  coherent := by
    intro a positive valid
    by_cases here : a = ip
    · subst here
      exact coherent valid
    · rw [step.entry a here] at positive valid ⊢
      have disk : next.copied a = state.copied a := by
        simp only [State.copied, step.entry a here]
        refine (step.dinode _ _).resolve_left ?_
        rintro ⟨dev, inum⟩
        exact here (good.unique a ip positive (good.positive uses) dev inum)
      rw [disk, step.phase here]
      exact good.coherent a positive valid

/-! ## References -/

/-- A step that changes who has references, and how many. A process may leave a
function on the way. -/
structure Recounts (state next : State) : Prop where
  entry : ∀ a, next.entry a = { state.entry a with ref := (next.entry a).ref }
  used : ∀ a, 0 < (next.entry a).ref → 0 < (state.entry a).ref
  dinode : next.dinode = state.dinode
  pc : ∀ q, next.pc q = state.pc q ∨ next.pc q = .idle ∧ ∀ a, (state.pc q).phase a = .settled
  counted : ∀ a, (next.entry a).ref = (next.outstanding a).length
  uses : ∀ a q, (state.entry a).lock = some q → state.Uses q a → next.Uses q a
  putting : ∀ q a stage, next.pc q = .putting a stage → (Owner.process q, a) ∈ state.refs →
    (Owner.process q, a) ∈ next.refs

theorem Recounts.phase (recounts : Recounts state next) (a : InodePtr) :
    next.phase a = state.phase a := by
  simp only [State.phase]
  rw [recounts.entry a]
  simp only
  cases (state.entry a).lock with
  | none => rfl
  | some q =>
      rcases recounts.pc q with same | ⟨idle, settled⟩
      · simp only [same]
      · simp only [idle]
        exact (settled a).symm

theorem Recounts.placed (recounts : Recounts state next) (placed : state.Placed q (state.pc q)) :
    next.Placed q (next.pc q) := by
  rcases recounts.pc q with same | ⟨idle, -⟩
  · have member := recounts.putting q
    rw [same] at member ⊢
    cases place : state.pc q with
    | idle => trivial
    | scanning dev type inum => trivial
    | marked dev inum => trivial
    | loading a =>
        rw [place] at placed
        simp only [State.Placed] at placed ⊢
        rw [recounts.entry a]
        exact placed
    | modified a =>
        rw [place] at placed
        simp only [State.Placed] at placed ⊢
        rw [recounts.entry a]
        exact placed
    | putting a stage =>
        have mine := member a stage place
        rw [place] at placed
        cases stage <;> simp only [State.Placed] at placed ⊢ <;> rw [recounts.entry a] <;>
          exact ⟨mine placed.1, placed.2⟩
  · rw [idle]
    trivial

theorem Good.recount (good : Good state) (recounts : Recounts state next) : Good next where
  unique a b first second := by
    rw [recounts.entry a, recounts.entry b]
    exact good.unique a b (recounts.used a first) (recounts.used b second)
  counted := recounts.counted
  holder a q held := by
    rw [recounts.entry a] at held
    exact recounts.uses a q held (good.holder a q held)
  placed q := recounts.placed (good.placed q)
  coherent a used valid := by
    rw [recounts.entry a] at valid
    have disk : next.copied a = state.copied a := by
      simp only [State.copied, recounts.dinode]
      rw [recounts.entry a]
    rw [recounts.phase, disk, recounts.entry a]
    exact good.coherent a (recounts.used a used) valid

theorem Good.addRef (good : Good state) (positive : 0 < (state.entry ip).ref) (owner : Owner) :
    Good (state.addRef owner ip) := by
  refine good.recount ⟨fun a => ?_, fun a used => ?_, rfl, fun q => Or.inl rfl, fun a => ?_, ?_,
    fun q a stage _ mine => List.mem_cons_of_mem _ mine⟩
  · by_cases here : a = ip
    · subst here
      simp [State.addRef, State.setEntry]
    · simp [State.addRef, State.setEntry, here]
  · by_cases here : a = ip
    · exact here ▸ positive
    · simpa [State.addRef, State.setEntry, here] using used
  · have count := good.counted a
    simp only [State.outstanding] at count
    by_cases here : a = ip
    · subst here
      simp [State.addRef, State.setEntry, State.outstanding, count]
    · simp [State.addRef, State.setEntry, State.outstanding, here, Ne.symm here, count]
  · rintro a q - (member | ⟨call, inside, who, member⟩)
    · exact Or.inl (List.mem_cons_of_mem _ member)
    · exact Or.inr ⟨call, inside, who, List.mem_cons_of_mem _ member⟩

theorem Good.recycle (good : Good state) (unused : (state.entry ip).ref = 0) (owner : Owner)
    (dev inum : Nat) (fresh : ∀ a, 0 < (state.entry a).ref → (state.entry a).dev = dev →
      (state.entry a).inum ≠ inum) : Good (state.recycle owner ip dev inum) := by
  have here : (state.recycle owner ip dev inum).entry ip =
      { state.entry ip with dev := dev, inum := inum, ref := 1, valid := false } := by
    simp [State.recycle, State.setEntry]
  have away : ∀ a, a ≠ ip → (state.recycle owner ip dev inum).entry a = state.entry a := by
    intro a different
    simp [State.recycle, State.setEntry, different]
  have free := good.unlocked unused
  have empty : state.outstanding ip = [] := by
    have count := good.counted ip
    rw [unused] at count
    exact List.length_eq_zero_iff.mp (by omega)
  have uses : ∀ q a, state.Uses q a → (state.recycle owner ip dev inum).Uses q a := by
    rintro q a (member | ⟨call, inside, who, member⟩)
    · exact Or.inl (List.mem_cons_of_mem _ member)
    · exact Or.inr ⟨call, inside, who, List.mem_cons_of_mem _ member⟩
  constructor
  · intro a b first second dev' inum'
    by_cases isA : a = ip
    · by_cases isB : b = ip
      · rw [isA, isB]
      · rw [isA, here, away b isB] at dev' inum'
        rw [away b isB] at second
        exact absurd inum'.symm (fresh b second dev'.symm)
    · rw [away a isA] at first dev' inum'
      by_cases isB : b = ip
      · rw [isB, here] at dev' inum'
        exact absurd inum' (fresh a first dev')
      · rw [away b isB] at second dev' inum'
        exact good.unique a b first second dev' inum'
  · intro a
    by_cases isA : a = ip
    · subst isA
      simp only [State.outstanding] at empty
      simp only [State.outstanding]
      rw [here]
      simp [State.recycle, empty]
    · have count := good.counted a
      simp only [State.outstanding] at count ⊢
      rw [away a isA, count]
      simp [State.recycle, Ne.symm isA]
  · intro a q held
    by_cases isA : a = ip
    · rw [isA, here] at held
      simp [free] at held
    · rw [away a isA] at held
      exact uses q a (good.holder a q held)
  · intro q
    have placed := good.placed q
    have elsewhere : ∀ a, (state.entry a).lock = some q → a ≠ ip := by
      rintro a held rfl
      simp [free] at held
    rw [show (state.recycle owner ip dev inum).pc q = state.pc q from rfl]
    cases place : state.pc q with
    | idle => trivial
    | scanning dev type inum => trivial
    | marked dev inum => trivial
    | loading a =>
        rw [place] at placed
        simp only [State.Placed] at placed ⊢
        rw [away a (elsewhere a placed)]
        exact placed
    | modified a =>
        rw [place] at placed
        simp only [State.Placed] at placed ⊢
        rw [away a (elsewhere a placed.1)]
        exact placed
    | putting a stage =>
        rw [place] at placed
        have member : (Owner.process q, a) ∈ state.refs →
            (Owner.process q, a) ∈ (state.recycle owner ip dev inum).refs :=
          List.mem_cons_of_mem _
        have other : (Owner.process q, a) ∈ state.refs → a ≠ ip := by
          rintro referenced rfl
          have positive := good.positive_of_mem referenced
          omega
        cases stage <;> simp only [State.Placed] at placed ⊢ <;>
          rw [away a (other placed.1)] <;> exact ⟨member placed.1, placed.2⟩
  · intro a used valid
    by_cases isA : a = ip
    · rw [isA, here] at valid
      cases valid
    · have disk : (state.recycle owner ip dev inum).copied a = state.copied a := by
        simp only [State.copied, away a isA]
        rfl
      have phase : (state.recycle owner ip dev inum).phase a = state.phase a := by
        simp only [State.phase, away a isA]
        rfl
      rw [away a isA] at used valid ⊢
      rw [disk, phase]
      exact good.coherent a used valid

/-- References change hands, or a call on an open file starts or ends. -/
theorem Good.reassign (good : Good state) (refs : List (Owner × InodePtr)) (calls : List (Pid × Nat))
    (count : ∀ a, (refs.filter fun ref => ref.2 == a).length = (state.outstanding a).length)
    (uses : ∀ a q, (state.entry a).lock = some q → state.Uses q a →
      State.Uses { state with refs := refs, calls := calls } q a)
    (putting : ∀ q a stage, state.pc q = .putting a stage → (Owner.process q, a) ∈ state.refs →
      (Owner.process q, a) ∈ refs) :
    Good { state with refs := refs, calls := calls } :=
  good.recount
    { entry := fun _ => rfl
      used := fun _ => id
      dinode := rfl
      pc := fun _ => Or.inl rfl
      counted := fun a => (good.counted a).trans (congrArg Nat.cast (count a).symm)
      uses := uses
      putting := putting }

theorem length_transfer {refs : List (Owner × InodePtr)} (member : (owner, ip) ∈ refs)
    (other : Owner) (a : InodePtr) :
    (((other, ip) :: refs.erase (owner, ip)).filter fun ref => ref.2 == a).length =
      (refs.filter fun ref => ref.2 == a).length := by
  have permuted := (List.perm_cons_erase member).filter fun ref => ref.2 == a
  rw [permuted.length_eq]
  simp only [List.filter_cons]
  split <;> simp

/-- A process that does not use the entry otherwise hands a reference over. -/
theorem Good.transfer (good : Good state) (member : (owner, ip) ∈ state.refs) (other : Owner)
    (process : ∀ q, owner = .process q → state.pc q = .idle ∧ (state.entry ip).lock ≠ some q)
    (file : ∀ f, owner = .file f → ∀ call ∈ state.calls, call.2 ≠ f) :
    Good { state with refs := (other, ip) :: state.refs.erase (owner, ip) } := by
  refine good.reassign _ state.calls (length_transfer member other) ?_ ?_
  · rintro a q held (mine | ⟨call, inside, who, theirs⟩)
    · refine Or.inl (List.mem_cons_of_mem _ ((List.mem_erase_of_ne ?_).mpr mine))
      intro same
      rw [Prod.mk.injEq] at same
      rw [same.2] at held
      exact (process q same.1.symm).2 held
    · refine Or.inr ⟨call, inside, who, List.mem_cons_of_mem _ ((List.mem_erase_of_ne ?_).mpr theirs)⟩
      intro same
      rw [Prod.mk.injEq] at same
      exact file call.2 same.1.symm call inside rfl
  · intro q a stage place mine
    refine List.mem_cons_of_mem _ ((List.mem_erase_of_ne ?_).mpr mine)
    intro same
    rw [Prod.mk.injEq] at same
    rw [(process q same.1.symm).1] at place
    cases place

/-! ## Steps away from any entry -/

/-- A process goes from one place at which it is in no function on an entry to
another, and possibly writes an inode that is free on disk. -/
theorem Good.away (good : Good state) {pc : Pc} (dinode : Nat → Nat → Dinode)
    (was : ∀ a, (state.pc p).phase a = .settled) (goes : ∀ a, pc.phase a = .settled)
    (placed : state.Placed p pc)
    (free : ∀ dev inum, (state.dinode dev inum).type ≠ 0 →
      dinode dev inum = state.dinode dev inum) :
    Good { state.setPc p pc with dinode := dinode } where
  unique := good.unique
  counted := good.counted
  holder := good.holder
  placed := by
    intro q
    simp only [State.setPc, Function.update_apply]
    split
    · rename_i here
      rw [here]
      cases pc <;> exact placed
    · have others := good.placed q
      revert others
      cases state.pc q <;> exact id
  coherent := by
    intro a positive valid
    have held := good.coherent a positive valid
    have phase : State.phase { state.setPc p pc with dinode := dinode } a = state.phase a := by
      simp only [State.phase, State.setPc]
      cases (state.entry a).lock with
      | none => rfl
      | some q =>
          simp only [Function.update_apply]
          split
          · rename_i here
            rw [here, was a, goes a]
          · rfl
    rw [phase]
    have kept : (state.copied a).type ≠ 0 →
        State.copied { state.setPc p pc with dinode := dinode } a = state.copied a :=
      free _ _
    simp only [State.setPc] at kept ⊢
    cases at' : state.phase a with
    | settled =>
        rw [at'] at held
        rw [kept held.2]
        exact held
    | changing =>
        rw [at'] at held
        rw [kept held.2]
        exact held
    | erasing =>
        rw [at'] at held
        rw [kept held.1]
        exact held
    | freed => trivial

/-- The last step of `iput`. -/
theorem Good.drop (good : Good state) (place : state.pc p = .putting ip .released) :
    Good (state.put p ip .released) := by
  have placed := good.placed p
  rw [place] at placed
  rcases placed with ⟨member, unheld⟩
  have kept : ∀ q a, q ≠ p ∨ a ≠ ip → (Owner.process q, a) ∈ state.refs →
      (Owner.process q, a) ∈ state.refs.erase (.process p, ip) := by
    intro q a different mine
    refine (List.mem_erase_of_ne ?_).mpr mine
    intro same
    simp only [Prod.mk.injEq, Owner.process.injEq] at same
    rcases different with different | different
    · exact different same.1
    · exact different same.2
  refine good.recount ⟨fun a => ?_, fun a used => ?_, rfl, fun q => ?_, fun a => ?_, ?_, ?_⟩
  · by_cases here : a = ip
    · subst here
      simp [State.put, State.setPc, State.setEntry]
    · simp [State.put, State.setPc, State.setEntry, here]
  · by_cases here : a = ip
    · exact here ▸ good.positive_of_mem member
    · simpa [State.put, State.setPc, State.setEntry, here] using used
  · by_cases here : q = p
    · refine Or.inr ⟨by simp [State.put, State.setPc, here], fun a => ?_⟩
      rw [here, place]
      rfl
    · exact Or.inl (by simp [State.put, State.setPc, State.setEntry, here])
  · have count := good.counted a
    have length := ((List.perm_cons_erase member).filter fun ref => ref.2 == a).length_eq
    simp only [State.outstanding] at count ⊢
    simp only [List.filter_cons] at length
    by_cases here : a = ip
    · subst here
      simp only [State.put, State.setPc, State.setEntry, Function.update_self]
      simp only [beq_self_eq_true, if_true, List.length_cons] at length
      omega
    · simp only [State.put, State.setPc, State.setEntry, Function.update_of_ne here]
      simp only [beq_iff_eq, Ne.symm here, if_false] at length
      omega
  · rintro a q held (mine | ⟨call, inside, who, theirs⟩)
    · refine Or.inl (kept q a ?_ mine)
      by_contra same
      rw [not_or, not_not, not_not] at same
      rw [same.1, same.2] at held
      exact unheld held
    · exact Or.inr ⟨call, inside, who, (List.mem_erase_of_ne (by simp)).mpr theirs⟩
  · intro q a stage inside mine
    refine kept q a (Or.inl ?_) mine
    rintro rfl
    simp [State.put, State.setPc] at inside

end Xv6.Fs.Icache
