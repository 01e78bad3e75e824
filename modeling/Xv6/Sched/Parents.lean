import Xv6.Sched.Current

/-!
# Parents and children

A process has a parent that is alive, nobody waits for a child that is dead, and
each entry of the table goes through allocation, exit and one report in turn.
-/

namespace Xv6.Sched

open Xv6.Library

/-- It is neither free, nor in the making, nor dead. -/
def ProcState.Alive : ProcState → Prop
  | .sleeping | .runnable | .running => True
  | .unused | .embryo | .zombie => False

/-- The two states are equal, or both alive. -/
def ProcState.Same (first second : ProcState) : Prop := first = second ∨ first.Alive ∧ second.Alive

/-- The entry of a `fork` that has not set the parent yet. -/
def Place.fresh : Place → Option ProcPtr
  | .allocated np | .stacked np | .copied np => some np
  | .elsewhere | .parented _ | .exiting => none

/-- The entry of a `fork` that has set the parent. -/
def Place.made : Place → Option ProcPtr
  | .parented np => some np
  | _ => none

theorem ProcState.Same.alive {first second : ProcState} (same : first.Same second) :
    first.Alive ↔ second.Alive := by
  rcases same with rfl | ⟨former, latter⟩
  · exact Iff.rfl
  · exact ⟨fun _ => latter, fun _ => former⟩

theorem ProcState.Same.dead {first second : ProcState} (same : first.Same second)
    (state : ProcState) (dead : ¬state.Alive) : first = state ↔ second = state := by
  rcases same with rfl | ⟨former, latter⟩
  · exact Iff.rfl
  · constructor
    · rintro rfl
      exact absurd former dead
    · rintro rfl
      exact absurd latter dead

/-- What is known where the thread of a process is. -/
structure Fits (init : ProcPtr) (parent : ProcPtr → Option ProcPtr) (chan : ProcPtr → Option Chan)
    (p : ProcPtr) (thread : Thread) : Prop where
  fresh : ∀ np, thread.place.fresh = some np → parent np = none
  made : ∀ np, thread.place.made = some np → parent np = some p
  exiting : thread.place = .exiting → p ≠ init
  waits : thread = .waiting → chan p = some (.proc p)

structure Family (init : ProcPtr) (state : ProcPtr → ProcState) (parent : ProcPtr → Option ProcPtr)
    (thread : ProcPtr → Thread) (chan : ProcPtr → Option Chan) : Prop where
  alive : (state init).Alive
  root : parent init = none
  parents : ∀ p, p ≠ init → state p ≠ .unused → state p ≠ .embryo →
    ∃ q, parent p = some q ∧ (state q).Alive
  self : ∀ p, parent p ≠ some p
  orphan : ∀ p, state p = .unused → parent p = none
  fits : ∀ p, Fits init parent chan p (thread p)
  zombie : ∀ q, thread q = .waiting → state q = .sleeping → ∀ z, parent z = some q →
    state z ≠ .zombie

namespace Family

variable {init : ProcPtr} {state after : ProcPtr → ProcState} {parent : ProcPtr → Option ProcPtr}
  {thread later : ProcPtr → Thread} {chan next : ProcPtr → Option Chan} {p np : ProcPtr}

/-- The first process is alive. -/
theorem ne_init (family : Family init state parent thread chan) (dead : ¬(state np).Alive) :
    np ≠ init := by
  rintro rfl
  exact dead family.alive

/-- Nobody is born and nobody dies. -/
theorem stir (family : Family init state parent thread chan) (same : ∀ q, (state q).Same (after q))
    (fits : ∀ q, Fits init parent next q (later q))
    (waits : ∀ q, later q = .waiting → after q = .sleeping →
      thread q = .waiting ∧ state q = .sleeping ∨ ∀ z, parent z = some q → state z ≠ .zombie) :
    Family init after parent later next := by
  refine ⟨(same init).alive.mp family.alive, family.root, ?_, family.self, ?_, fits, ?_⟩
  · intro p other used grown
    rcases family.parents p other (fun free => used (((same p).dead .unused nofun).mp free))
      (fun young => grown (((same p).dead .embryo nofun).mp young)) with ⟨q, child, alive⟩
    exact ⟨q, child, (same q).alive.mp alive⟩
  · intro p free
    exact family.orphan p (((same p).dead .unused nofun).mpr free)
  · intro q here sleeps z child dead
    have before := ((same z).dead .zombie nofun).mpr dead
    rcases waits q here sleeps with ⟨waited, slept⟩ | alive
    · exact family.zombie q waited slept z child before
    · exact alive z child before

/-- One thread moves on, and its process stays alive. -/
theorem step (family : Family init state parent thread chan) {stage : ProcState} {moved : Thread}
    {channel : Option Chan} (same : (state p).Same stage)
    (fits : Fits init parent (Function.update chan p channel) p moved)
    (waits : moved = .waiting → ∀ z, parent z = some p → state z ≠ .zombie) :
    Family init (Function.update state p stage) parent (Function.update thread p moved)
      (Function.update chan p channel) := by
  apply family.stir
  · intro q
    by_cases equal : q = p
    · rw [equal, Function.update_self]
      exact same
    · rw [Function.update_of_ne equal]
      exact Or.inl rfl
  · refine (Function.forall_update_iff thread fun q t =>
      Fits init parent (Function.update chan p channel) q t).mpr ⟨fits, fun q different => ?_⟩
    have before := family.fits q
    refine ⟨before.fresh, before.made, before.exiting, fun waits => ?_⟩
    rw [Function.update_of_ne different]
    exact before.waits waits
  · intro q here sleeps
    by_cases equal : q = p
    · subst equal
      rw [Function.update_self] at here
      exact Or.inr (waits here)
    · rw [Function.update_of_ne equal] at here sleeps
      exact Or.inl ⟨here, sleeps⟩

/-- The states change, and nobody is born or dies. -/
theorem shift (family : Family init state parent thread chan) (same : ∀ q, (state q).Same (after q))
    (sleeps : ∀ q, after q = .sleeping → state q = .sleeping) :
    Family init after parent thread chan :=
  family.stir same family.fits fun q waits slept => Or.inl ⟨waits, sleeps q slept⟩

/-- One thread moves on, and does not wait. -/
theorem move (family : Family init state parent thread chan) {moved : Thread}
    (fits : Fits init parent chan p moved) (goes : moved ≠ .waiting) :
    Family init state parent (Function.update thread p moved) chan := by
  apply family.stir fun _ => Or.inl rfl
  · exact (Function.forall_update_iff thread fun q t => Fits init parent chan q t).mpr
      ⟨fits, fun q _ => family.fits q⟩
  · intro q waits sleeps
    by_cases same : q = p
    · rw [same, Function.update_self] at waits
      exact absurd waits goes
    · rw [Function.update_of_ne same] at waits
      exact Or.inl ⟨waits, sleeps⟩

/-- An embryo appears or disappears, or starts to live with a parent. -/
theorem grow (family : Family init state parent thread chan) (other : np ≠ init) {stage : ProcState}
    (dead : ¬(state np).Alive) (ends : stage ≠ .zombie)
    (born : stage.Alive → ∃ q, parent np = some q ∧ (state q).Alive ∧ q ≠ np)
    (wakes : stage ≠ .sleeping) (orphan : stage = .unused → parent np = none) :
    Family init (Function.update state np stage) parent thread chan := by
  have alive : ∀ q, (state q).Alive → (Function.update state np stage q).Alive := by
    intro q lives
    rw [Function.update_of_ne]
    · exact lives
    · rintro rfl
      exact dead lives
  refine ⟨alive init family.alive, family.root, ?_, family.self, ?_, family.fits, ?_⟩
  · intro q different used grown
    by_cases same : q = np
    · subst same
      rw [Function.update_self] at used grown
      have living : stage.Alive := by
        cases stage with
        | unused => exact absurd rfl used
        | embryo => exact absurd rfl grown
        | zombie => exact absurd rfl ends
        | _ => trivial
      rcases born living with ⟨r, child, lives, -⟩
      exact ⟨r, child, alive r lives⟩
    · rw [Function.update_of_ne same] at used grown
      rcases family.parents q different used grown with ⟨r, child, lives⟩
      exact ⟨r, child, alive r lives⟩
  · intro q free
    by_cases same : q = np
    · subst same
      rw [Function.update_self] at free
      exact orphan free
    · rw [Function.update_of_ne same] at free
      exact family.orphan q free
  · intro q waits sleeps z child now
    by_cases same : q = np
    · rw [same, Function.update_self] at sleeps
      exact wakes sleeps
    · rw [Function.update_of_ne same] at sleeps
      by_cases equal : z = np
      · subst equal
        rw [Function.update_self] at now
        exact ends now
      · rw [Function.update_of_ne equal] at now
        exact family.zombie q waits sleeps z child now

/-- `fork` sets the parent. -/
theorem adopt (family : Family init state parent thread chan) (embryo : state np = .embryo)
    (fresh : (thread p).place.fresh = some np) (only : ∀ q, (thread q).place.fresh = some np → q = p)
    (unmade : ∀ q, (thread q).place.made ≠ some np) (different : p ≠ np) :
    Family init state (Function.update parent np (some p))
      (Function.update thread p (.runs (.parented np))) chan := by
  have other : np ≠ init := by
    rintro rfl
    have alive := family.alive
    rw [embryo] at alive
    exact alive
  refine ⟨family.alive, ?_, ?_, ?_, ?_, ?_, ?_⟩
  · rw [Function.update_of_ne other.symm]
    exact family.root
  · intro q apart used grown
    have same : q ≠ np := by
      rintro rfl
      exact grown embryo
    rw [Function.update_of_ne same]
    exact family.parents q apart used grown
  · intro q
    by_cases same : q = np
    · subst same
      rw [Function.update_self]
      rintro equal
      cases equal
      exact different rfl
    · rw [Function.update_of_ne same]
      exact family.self q
  · intro q free
    have same : q ≠ np := by
      rintro rfl
      rw [embryo] at free
      cases free
    rw [Function.update_of_ne same]
    exact family.orphan q free
  · refine (Function.forall_update_iff thread fun q t =>
      Fits init (Function.update parent np (some p)) chan q t).mpr ⟨?_, fun q apart => ?_⟩
    · refine ⟨nofun, fun made here => ?_, nofun, nofun⟩
      cases here
      exact Function.update_self _ _ _
    · refine ⟨?_, ?_, (family.fits q).exiting, (family.fits q).waits⟩
      · intro child here
        have same : child ≠ np := by
          rintro rfl
          exact apart (only q here)
        rw [Function.update_of_ne same]
        exact (family.fits q).fresh child here
      · intro child here
        have same : child ≠ np := by
          rintro rfl
          exact unmade q here
        rw [Function.update_of_ne same]
        exact (family.fits q).made child here
  · intro q waits sleeps z child
    have same : q ≠ p := by
      rintro rfl
      rw [Function.update_self] at waits
      cases waits
    rw [Function.update_of_ne same] at waits
    by_cases equal : z = np
    · rw [equal, embryo]
      exact nofun
    · rw [Function.update_of_ne equal] at child
      exact family.zombie q waits sleeps z child

/-- `wait` reaps a child. -/
theorem reap (family : Family init state parent thread chan) {z : ProcPtr} (dead : state z = .zombie)
    (unmade : ∀ q, (thread q).place.made ≠ some z) :
    Family init (Function.update state z .unused) (Function.update parent z none) thread chan := by
  have alive : ∀ q, (state q).Alive → (Function.update state z .unused q).Alive := by
    intro q lives
    rw [Function.update_of_ne]
    · exact lives
    · rintro rfl
      rw [dead] at lives
      exact lives
  have parents : ∀ q r, Function.update parent z none q = some r → parent q = some r := by
    intro q r child
    by_cases same : q = z
    · rw [same, Function.update_self] at child
      cases child
    · rwa [Function.update_of_ne same] at child
  have nobody : ∀ q, parent q = none → Function.update parent z none q = none := by
    intro q orphan
    by_cases same : q = z
    · rw [same, Function.update_self]
    · rw [Function.update_of_ne same]
      exact orphan
  refine ⟨alive init family.alive, nobody init family.root, ?_, ?_, ?_, ?_, ?_⟩
  · intro q different used grown
    have same : q ≠ z := by
      rintro rfl
      exact used (Function.update_self _ _ _)
    rw [Function.update_of_ne same] at used grown ⊢
    rcases family.parents q different used grown with ⟨r, child, lives⟩
    exact ⟨r, child, alive r lives⟩
  · exact fun q child => family.self q (parents q q child)
  · intro q free
    by_cases same : q = z
    · rw [same, Function.update_self]
    · rw [Function.update_of_ne same] at free
      exact nobody q (family.orphan q free)
  · intro q
    refine ⟨fun np here => nobody np ((family.fits q).fresh np here), ?_, (family.fits q).exiting,
      (family.fits q).waits⟩
    intro np here
    rw [Function.update_of_ne]
    · exact (family.fits q).made np here
    · rintro rfl
      exact unmade q here
  · intro q waits sleeps child mine now
    have same : q ≠ z := by
      rintro rfl
      rw [Function.update_self] at sleeps
      cases sleeps
    have apart : child ≠ z := by
      rintro rfl
      rw [Function.update_self] at now
      cases now
    rw [Function.update_of_ne same] at sleeps
    rw [Function.update_of_ne apart] at now
    exact family.zombie q waits sleeps child (parents child q mine) now

/-- `exit`: the children are passed to init, and the process is dead. -/
theorem leave (family : Family init state parent thread chan)
    (lives : (state p).Alive) (exits : (thread p).place = .exiting)
    (woken : ∀ q, after q = state q ∨ (state q = .sleeping ∧ after q = .runnable))
    (parentAwake : ∀ q, parent p = some q → after q = .sleeping → chan q ≠ some (.proc q))
    (initAwake : ∀ z, parent z = some p → state z = .zombie → after init = .sleeping →
      chan init ≠ some (.proc init))
    {passed : ProcPtr → Option ProcPtr}
    (passes : ∀ q, passed q = if parent q = some p then some init else parent q) :
    Family init (Function.update after p .zombie) passed (Function.update thread p .exited)
      chan := by
  have other : p ≠ init := (family.fits p).exiting exits
  have same : ∀ q, (state q).Same (after q) := by
    intro q
    rcases woken q with equal | ⟨sleeps, wakes⟩
    · exact Or.inl equal.symm
    · rw [sleeps, wakes]
      exact Or.inr ⟨trivial, trivial⟩
  have mine : Function.update after p .zombie p = .zombie := Function.update_self _ _ _
  have others : ∀ q, q ≠ p → Function.update after p .zombie q = after q :=
    fun q different => Function.update_of_ne different _ _
  have initAlive : (Function.update after p .zombie init).Alive := by
    rw [others init other.symm]
    exact (same init).alive.mp family.alive
  have mineOr : ∀ q r, passed q = some r → (parent q = some p ∧ r = init) ∨ parent q = some r := by
    intro q r child
    rw [passes] at child
    split at child
    · rename_i abandoned
      cases child
      exact Or.inl ⟨abandoned, rfl⟩
    · exact Or.inr child
  have orphans : ∀ q, parent q = none → passed q = none := by
    intro q orphan
    rw [passes, orphan]
    rfl
  refine ⟨initAlive, orphans init family.root, ?_, ?_, ?_, ?_, ?_⟩
  · intro q apart used grown
    by_cases child : parent q = some p
    · exact ⟨init, by rw [passes, if_pos child], initAlive⟩
    · rw [passes, if_neg child]
      have before : state q ≠ .unused ∧ state q ≠ .embryo := by
        by_cases equal : q = p
        · rw [equal]
          exact ⟨fun free => by rw [free] at lives; exact lives,
            fun young => by rw [young] at lives; exact lives⟩
        · rw [others q equal] at used grown
          exact ⟨fun free => used (((same q).dead .unused nofun).mp free),
            fun young => grown (((same q).dead .embryo nofun).mp young)⟩
      rcases family.parents q apart before.1 before.2 with ⟨r, mother, alive⟩
      have different : r ≠ p := by
        rintro rfl
        exact child mother
      refine ⟨r, mother, ?_⟩
      rw [others r different]
      exact (same r).alive.mp alive
  · intro q child
    rcases mineOr q q child with ⟨abandoned, rfl⟩ | own
    · rw [family.root] at abandoned
      cases abandoned
    · exact family.self q own
  · intro q free
    have different : q ≠ p := by
      rintro rfl
      rw [mine] at free
      cases free
    rw [others q different] at free
    exact orphans q (family.orphan q (((same q).dead .unused nofun).mpr free))
  · refine (Function.forall_update_iff thread fun q t => Fits init passed chan q t).mpr
      ⟨⟨nofun, nofun, nofun, nofun⟩, fun q different => ?_⟩
    refine ⟨fun np here => orphans np ((family.fits q).fresh np here), ?_, (family.fits q).exiting,
      (family.fits q).waits⟩
    intro np here
    have child := (family.fits q).made np here
    rw [passes, if_neg, child]
    rw [child]
    rintro equal
    cases equal
    exact different rfl
  · intro q waits sleeps z child dead
    have different : q ≠ p := by
      rintro rfl
      rw [Function.update_self] at waits
      cases waits
    rw [Function.update_of_ne different] at waits
    rw [others q different] at sleeps
    have channel := (family.fits q).waits waits
    have slept : state q = .sleeping := by
      rcases woken q with equal | ⟨slept, -⟩
      · rw [← equal]
        exact sleeps
      · exact slept
    by_cases equal : z = p
    · subst equal
      rcases mineOr z q child with ⟨abandoned, -⟩ | own
      · exact family.self z abandoned
      · exact parentAwake q own sleeps channel
    · rw [others z equal] at dead
      have before := ((same z).dead .zombie nofun).mpr dead
      rcases mineOr z q child with ⟨abandoned, rfl⟩ | own
      · exact initAwake z abandoned before sleeps channel
      · exact family.zombie q waits slept z own before

end Family

/-- Where a thread goes on is where it was. -/
theorem Fits.runs {init p : ProcPtr} {parent : ProcPtr → Option ProcPtr}
    {chan next : ProcPtr → Option Chan} {thread moved : Thread} (fits : Fits init parent chan p thread)
    (same : moved.place = thread.place) (goes : moved ≠ .waiting) :
    Fits init parent next p moved := by
  refine ⟨?_, ?_, ?_, fun waits => absurd waits goes⟩
  · rw [same]
    exact fits.fresh
  · rw [same]
    exact fits.made
  · rw [same]
    exact fits.exiting

theorem Fits.elsewhere {init p : ProcPtr} {parent : ProcPtr → Option ProcPtr}
    {chan : ProcPtr → Option Chan} {thread : Thread} (same : thread.place = .elsewhere)
    (goes : thread ≠ .waiting) : Fits init parent chan p thread := by
  refine ⟨?_, ?_, ?_, fun waits => absurd waits goes⟩
  all_goals
    rw [same]
    exact nofun

theorem Place.fresh_child {place : Place} {np : ProcPtr} (fresh : place.fresh = some np) :
    place.child = some np := by
  cases place <;> first | exact fresh | cases fresh

theorem Place.made_child {place : Place} {np : ProcPtr} (made : place.made = some np) :
    place.child = some np := by
  cases place <;> first | exact made | cases made

namespace Ptable

variable {Cpu : Type} {table after : Ptable Cpu} {c : Cpu} {p : ProcPtr}

def parent (table : Ptable Cpu) (p : ProcPtr) : Option ProcPtr := (table.proc p).parent

def chan (table : Ptable Cpu) (p : ProcPtr) : Option Chan := (table.proc p).chan

/-- The family of a table. -/
abbrev FamilyOf (table : Ptable Cpu) : Prop :=
  Family table.initproc table.state table.parent table.thread table.chan

/-- The family, with what is known of the processors. -/
structure Kin (table : Ptable Cpu) : Prop where
  ok : table.Ok
  family : table.FamilyOf

theorem field_setProc {Field : Type} (field : Proc → Field) (table : Ptable Cpu) (p : ProcPtr)
    (proc : Proc) : (fun q => field ((table.setProc p proc).proc q)) =
      Function.update (fun q => field (table.proc q)) p (field proc) := by
  funext q
  by_cases same : q = p
  · rw [same, Function.update_self, setProc_proc_same]
  · rw [Function.update_of_ne same, setProc_proc_of_ne table same]

section Fields

variable {thread : ProcPtr → Thread} (table : Ptable Cpu) (p : ProcPtr) (proc : Proc)
  (procs : after.proc = Function.update table.proc p proc) (threads : after.thread = thread)
  (init : after.initproc = table.initproc)

include procs threads init

/-- The family when one entry of the table changes. -/
theorem family_setProc (family : Family table.initproc (Function.update table.state p proc.state)
    (Function.update table.parent p proc.parent) thread
    (Function.update table.chan p proc.chan)) : after.FamilyOf := by
  have states : after.state = Function.update table.state p proc.state := by
    funext q
    rw [Ptable.state, procs]
    exact congrFun (field_setProc Proc.state table p proc) q
  have parents : after.parent = Function.update table.parent p proc.parent := by
    funext q
    rw [Ptable.parent, procs]
    exact congrFun (field_setProc Proc.parent table p proc) q
  have chans : after.chan = Function.update table.chan p proc.chan := by
    funext q
    rw [Ptable.chan, procs]
    exact congrFun (field_setProc Proc.chan table p proc) q
  rw [FamilyOf, init, states, parents, threads, chans]
  exact family

/-- Only the state and the channel change. -/
theorem family_setSleep (parent : proc.parent = table.parent p)
    (family : Family table.initproc (Function.update table.state p proc.state) table.parent thread
      (Function.update table.chan p proc.chan)) : after.FamilyOf := by
  apply family_setProc table p proc procs threads init
  rw [parent, Function.update_eq_self]
  exact family

/-- Only the state changes. -/
theorem family_setState (parent : proc.parent = table.parent p) (chan : proc.chan = table.chan p)
    (family : Family table.initproc (Function.update table.state p proc.state) table.parent thread
      table.chan) : after.FamilyOf := by
  apply family_setSleep table p proc procs threads init parent
  rw [chan, Function.update_eq_self]
  exact family

/-- Neither the state nor the channel changes. -/
theorem family_same (state : proc.state = table.state p) (parent : proc.parent = table.parent p)
    (chan : proc.chan = table.chan p)
    (family : Family table.initproc table.state table.parent thread table.chan) :
    after.FamilyOf := by
  apply family_setState table p proc procs threads init parent chan
  rw [state, Function.update_eq_self]
  exact family

end Fields

/-- A process gets another state of the same kind. -/
theorem Kin.setState (kin : table.Kin) (p : ProcPtr) (proc : Proc)
    (same : (table.state p).Same proc.state)
    (sleeps : proc.state = .sleeping → table.state p = .sleeping)
    (parent : proc.parent = table.parent p) (chan : proc.chan = table.chan p)
    (procs : after.proc = Function.update table.proc p proc) (threads : after.thread = table.thread)
    (init : after.initproc = table.initproc) : after.FamilyOf := by
  apply family_setState table p proc procs threads init parent chan
  apply kin.family.shift
  · intro q
    by_cases equal : q = p
    · rw [equal, Function.update_self]
      exact same
    · rw [Function.update_of_ne equal]
      exact Or.inl rfl
  · intro q slept
    by_cases equal : q = p
    · rw [equal, Function.update_self] at slept
      rw [equal]
      exact sleeps slept
    · rwa [Function.update_of_ne equal] at slept

/-- No entry in the making is dead or alive. -/
theorem Ok.unmade (ok : table.Ok) {z : ProcPtr} (grown : table.state z ≠ .embryo) (q : ProcPtr) :
    (table.thread q).place.made ≠ some z :=
  fun made => grown (ok.forking.embryo q z (Place.made_child made))

theorem boot_kin (initproc : ProcPtr) : (boot initproc : Ptable Cpu).Kin := by
  have states : ∀ p, (boot initproc : Ptable Cpu).state p =
      if p = initproc then .runnable else .unused := by
    intro p
    simp only [boot, Ptable.state]
    split <;> rfl
  have orphans : ∀ p, (boot initproc : Ptable Cpu).parent p = none := by
    intro p
    simp only [boot, Ptable.parent]
    split <;> rfl
  refine ⟨boot_ok initproc, ?_, orphans initproc, ?_, ?_, fun p _ => orphans p, ?_, ?_⟩
  · change ((boot initproc : Ptable Cpu).state initproc).Alive
    rw [states, if_pos rfl]
    trivial
  · intro p other used _
    rw [states, if_neg (show p ≠ initproc from other)] at used
    exact absurd rfl used
  · intro p child
    rw [orphans] at child
    cases child
  · intro p
    apply Fits.elsewhere rfl
    intro waits
    cases waits
  · intro q waits
    cases waits

theorem Kin.wakeup (kin : table.Kin) (address : Nat) :
    (table.wakeup1 (some (.other address))).FamilyOf := by
  have fields := wakeup1_proc (some (.other address)) table
  have parents : (table.wakeup1 (some (.other address))).parent = table.parent := by
    funext q
    rw [Ptable.parent, fields]
    rfl
  have chans : (table.wakeup1 (some (.other address))).chan = table.chan := by
    funext q
    rw [Ptable.chan, fields]
    rfl
  rw [FamilyOf, parents, chans]
  apply kin.family.shift
  · intro q
    rcases wakeup1_state (some (.other address)) table q with same | ⟨sleeps, wakes⟩
    · exact Or.inl same.symm
    · rw [sleeps, wakes]
      exact Or.inr ⟨trivial, trivial⟩
  · intro q sleeps
    rcases wakeup1_state (some (.other address)) table q with same | ⟨slept, -⟩
    · rw [← same]
      exact sleeps
    · exact slept

theorem Kin.kill (kin : table.Kin) (pid : BitVec 32) : (table.kill pid).1.FamilyOf := by
  unfold Ptable.kill
  split
  · rename_i p found
    refine kin.setState p
      { table.proc p with
        killed := true
        state := if table.state p = .sleeping then .runnable else table.state p }
      ?_ ?_ rfl rfl rfl rfl rfl
    · dsimp only
      split
      · rename_i sleeps
        rw [sleeps]
        exact Or.inr ⟨trivial, trivial⟩
      · exact Or.inl rfl
    · dsimp only
      split
      · exact nofun
      · exact id
  · exact kin.family

theorem Kin.allocproc (kin : table.Kin) (p : ProcPtr) : (table.allocproc p).FamilyOf := by
  have family := kin.family
  unfold Ptable.allocproc
  split
  · rename_i np found
    have unused : table.state np = .unused := by simpa using List.find?_some found
    have dead : ¬(table.state np).Alive := by
      rw [unused]
      exact id
    have other : np ≠ table.initproc := family.ne_init dead
    have grown : Family table.initproc (Function.update table.state np .embryo) table.parent
        table.thread table.chan := family.grow other dead nofun nofun nofun nofun
    have fits : Fits table.initproc table.parent table.chan p (.runs (.allocated np)) := by
      refine ⟨fun child fresh => ?_, nofun, nofun, nofun⟩
      cases fresh
      exact family.orphan np unused
    exact family_setState table np
      { table.proc np with state := .embryo, pid := table.nextpid } rfl rfl rfl rfl rfl
      (grown.move fits nofun)
  · exact family

theorem Kin.fork (kin : table.Kin) {np : ProcPtr} (runs : table.Runs c p (.parented np)) :
    ((table.setState np .runnable).setThread p (.runs .elsewhere)).FamilyOf := by
  have family := kin.family
  have ok := kin.ok
  have child : (table.thread p).place.child = some np := by rw [runs.2]; rfl
  have embryo := ok.forking.embryo p np child
  have parent := (family.fits p).made np (by rw [runs.2]; rfl)
  have running := ok.scheduled.running c p (Or.inr runs.1)
  have dead : ¬(table.state np).Alive := by
    rw [embryo]
    exact id
  have other : np ≠ table.initproc := family.ne_init dead
  have born : Family table.initproc (Function.update table.state np .runnable) table.parent
      table.thread table.chan :=
    family.grow other dead nofun
      (fun _ => ⟨p, parent, by rw [running]; trivial, ok.parent_ne runs rfl⟩) nofun nofun
  exact family_setState table np { table.proc np with state := .runnable } rfl rfl rfl rfl rfl
    (born.move (Fits.elsewhere rfl nofun) nofun)

theorem Kin.discard (kin : table.Kin) {np : ProcPtr} {place : Place} (runs : table.Runs c p place)
    (made : place = .allocated np ∨ place = .stacked np) : (table.discard p np).FamilyOf := by
  have family := kin.family
  have ok := kin.ok
  have fresh : (table.thread p).place.fresh = some np := by
    rw [runs.2]
    rcases made with rfl | rfl <;> rfl
  have embryo := ok.forking.embryo p np (Place.fresh_child fresh)
  have dead : ¬(table.state np).Alive := by
    rw [embryo]
    exact id
  have other : np ≠ table.initproc := family.ne_init dead
  have gone : Family table.initproc (Function.update table.state np .unused) table.parent
      table.thread table.chan :=
    family.grow other dead nofun nofun nofun fun _ => (family.fits p).fresh np fresh
  exact family_setState table np { table.proc np with kstack := false, state := .unused }
    rfl rfl rfl rfl rfl (gone.move (Fits.elsewhere rfl nofun) nofun)

variable [DecidableEq Cpu]

theorem Kin.dispatch (kin : table.Kin) (c : Cpu) (first : Nat)
    (current : Cpu → Option ProcPtr) :
    ({ table with current := current }.dispatch c first).FamilyOf := by
  rcases dispatch_cases c first { table with current := current } with ⟨p, runnable, same⟩ | same
  · rw [same]
    refine kin.setState p { table.proc p with state := .running } ?_ nofun rfl rfl rfl rfl rfl
    rw [show table.state p = .runnable from runnable]
    exact Or.inr ⟨trivial, trivial⟩
  · rw [same]
    exact kin.family

/-- `wait` up to its end or to its `sleep`. -/
theorem Ok.waitLoop_family (ok : table.Ok)
    (active : table.core c = .entering p ∨ table.core c = .running p)
    (family : Family table.initproc table.state table.parent
      (Function.update table.thread p (.runs .elsewhere)) table.chan) :
    (table.waitLoop c p).FamilyOf := by
  rcases waitLoop_cases c p table with ⟨z, child, dead, same⟩ | ⟨none, same | same⟩
  · rw [same]
    let freed : Proc :=
      { table.proc z with
        kstack := false, pgdir := false, pid := 0, parent := none, killed := false
        state := .unused }
    have unmade : ∀ q, (Function.update table.thread p (.runs .elsewhere) q).place.made ≠ some z := by
      intro q made
      by_cases equal : q = p
      · rw [equal, Function.update_self] at made
        cases made
      · rw [Function.update_of_ne equal] at made
        refine ok.unmade ?_ q made
        rw [dead]
        exact nofun
    have reaped := family.reap dead unmade
    refine family_setProc table z freed rfl rfl rfl ?_
    rw [show freed.chan = table.chan z from rfl, Function.update_eq_self]
    exact reaped
  · rw [same]
    exact family
  · rw [same]
    have running := ok.scheduled.running c p active
    have fits : Fits table.initproc table.parent (Function.update table.chan p (some (.proc p))) p
        .waiting := ⟨nofun, nofun, nofun, fun _ => Function.update_self _ _ _⟩
    have alive : (table.state p).Same .sleeping := by
      rw [running]
      exact Or.inr ⟨trivial, trivial⟩
    have waits := family.step alive fits fun _ => none
    rw [Function.update_idem] at waits
    exact family_setSleep table p { table.proc p with chan := some (.proc p), state := .sleeping }
      rfl rfl rfl rfl waits

theorem Kin.exit (kin : table.Kin) (runs : table.Runs c p .exiting) : (table.exit c p).FamilyOf := by
  have family := kin.family
  have ok := kin.ok
  rcases exit_left c p table with ⟨passed, left, same⟩
  have running := ok.scheduled.running c p (Or.inr runs.1)
  have alive : (table.state p).Alive := by
    rw [running]
    trivial
  have init : passed.initproc = table.initproc := by rw [left.frame]
  have threads : passed.thread = table.thread := by rw [left.frame]
  have chans : passed.chan = table.chan := by
    funext q
    rw [Ptable.chan, left.fields]
    rfl
  have parents : ∀ q, passed.parent q = if table.parent q = some p then some table.initproc
      else table.parent q := by
    intro q
    rw [Ptable.parent, left.fields]
    rfl
  have place : (table.thread p).place = .exiting := by rw [runs.2]; rfl
  have gone := family.leave alive place left.state left.parent left.init parents
  rw [same]
  refine family_setState passed p { passed.proc p with state := .zombie } rfl rfl rfl rfl rfl ?_
  rw [init, chans]
  change Family table.initproc _ _ (Function.update passed.thread p .exited) _
  rw [threads]
  exact gone

theorem Kin.moves (kin : table.Kin) (moves : table.Moves after) : after.Kin := by
  refine ⟨kin.ok.moves moves, ?_⟩
  have family := kin.family
  have ok := kin.ok
  cases moves with
  | schedule idle free => exact kin.dispatch _ _ table.current
  | @loop c p loops => exact kin.dispatch c _ (Function.update table.current c none)
  | @enter c p place enters resumes chan =>
      have fits : Fits table.initproc table.parent (Function.update table.chan p chan) p
          (.runs place) := (family.fits p).runs (Thread.resume_place resumes).symm nofun
      have same : (table.state p).Same (table.state p) := Or.inl rfl
      exact family_setSleep table p { table.proc p with chan := chan } rfl rfl rfl rfl
        (family.step same fits nofun)
  | @enterWait c p enters waits =>
      have fits : Fits table.initproc table.parent (Function.update table.chan p none) p
          (.runs .elsewhere) := Fits.elsewhere rfl nofun
      have same : (table.state p).Same (table.state p) := Or.inl rfl
      have tidy := family.step same fits nofun
      apply (ok.tidy p none).waitLoop_family (Or.inl enters)
      have entered : FamilyOf ((table.setProc p { table.proc p with chan := none }).setThread p
          (.runs .elsewhere)) :=
        family_setSleep table p { table.proc p with chan := none } rfl rfl rfl rfl tidy
      exact entered
  | wakeup address free => exact kin.wakeup address
  | kill pid free => exact kin.kill pid
  | @yield c p place runs free =>
      have fits : Fits table.initproc table.parent (Function.update table.chan p (table.chan p)) p
          (.yielded place) := (family.fits p).runs (by rw [runs.2]; rfl) nofun
      have same : (table.state p).Same .runnable := by
        rw [ok.scheduled.running c p (Or.inr runs.1)]
        exact Or.inr ⟨trivial, trivial⟩
      exact family_setSleep table p { table.proc p with state := .runnable } rfl rfl rfl rfl
        (family.step same fits nofun)
  | @sleep c p place address runs free =>
      have fits : Fits table.initproc table.parent
          (Function.update table.chan p (some (.other address))) p (.slept place) :=
        (family.fits p).runs (by rw [runs.2]; rfl) nofun
      have same : (table.state p).Same .sleeping := by
        rw [ok.scheduled.running c p (Or.inr runs.1)]
        exact Or.inr ⟨trivial, trivial⟩
      exact family_setSleep table p
        { table.proc p with chan := some (.other address), state := .sleeping } rfl rfl rfl rfl
        (family.step same fits nofun)
  | @wait c p runs free =>
      apply ok.waitLoop_family (Or.inr runs.1)
      rw [← runs.2, Function.update_eq_self]
      exact family
  | @allocproc c p runs free => exact kin.allocproc p
  | @kalloc c p np runs =>
      have fits : Fits table.initproc table.parent table.chan p (.runs (.stacked np)) := by
        refine ⟨fun child fresh => ?_, nofun, nofun, nofun⟩
        cases fresh
        exact (family.fits p).fresh np (by rw [runs.2]; rfl)
      have new : Family table.initproc table.state table.parent
          (Function.update table.thread np .forkret) table.chan :=
        family.move (Fits.elsewhere rfl nofun) nofun
      exact family_same table np { table.proc np with kstack := true } rfl rfl rfl rfl rfl rfl
        (new.move fits nofun)
  | @copyuvm c p np runs =>
      have fits : Fits table.initproc table.parent table.chan p (.runs (.copied np)) := by
        refine ⟨fun child fresh => ?_, nofun, nofun, nofun⟩
        cases fresh
        exact (family.fits p).fresh np (by rw [runs.2]; rfl)
      exact family_same table np { table.proc np with pgdir := true } rfl rfl rfl rfl rfl rfl
        (family.move fits nofun)
  | @parent c p np runs =>
      have child : (table.thread p).place.child = some np := by rw [runs.2]; rfl
      have embryo := ok.forking.embryo p np child
      have fresh : (table.thread p).place.fresh = some np := by rw [runs.2]; rfl
      have adopted := family.adopt embryo fresh
        (fun q fresh => ok.forking.alone q p np (Place.fresh_child fresh) child)
        (fun q made => by
          have same := ok.forking.alone q p np (Place.made_child made) child
          rw [same, runs.2] at made
          cases made)
        (ok.parent_ne runs rfl)
      have whole : Family table.initproc (Function.update table.state np (table.state np))
          (Function.update table.parent np (some p))
          (Function.update table.thread p (.runs (.parented np)))
          (Function.update table.chan np (table.chan np)) := by
        rw [Function.update_eq_self, Function.update_eq_self]
        exact adopted
      exact family_setProc table np { table.proc np with parent := some p } rfl rfl rfl whole
  | fork runs free => exact kin.fork runs
  | discard runs made => exact kin.discard runs made
  | @exiting c p runs other => exact family.move ⟨nofun, nofun, fun _ => other, nofun⟩ nofun
  | exit runs free => exact kin.exit runs

end Ptable

/-- How far an entry of the table is. -/
inductive Phase where
  | free
  | used (pid : BitVec 32)
  | dead (pid : BitVec 32)
  deriving DecidableEq

/-- The phase after the events, if they follow each other as they should: an
entry is free, allocated, and then discarded, or exited and reported. -/
def phase : List EntryEvent → Option Phase
  | [] => some .free
  | .allocated pid :: rest => if phase rest = some .free then some (.used pid) else none
  | .discarded :: rest =>
      match phase rest with
      | some (.used _) => some .free
      | _ => none
  | .exited pid :: rest => if phase rest = some (.used pid) then some (.dead pid) else none
  | .reported _ pid :: rest => if phase rest = some (.dead pid) then some .free else none

def Proc.phase (proc : Proc) : Phase :=
  match proc.state with
  | .unused => .free
  | .zombie => .dead proc.pid
  | .embryo | .sleeping | .runnable | .running => .used proc.pid

theorem Proc.phase_alive {proc : Proc} (alive : proc.state.Alive) : proc.phase = .used proc.pid := by
  unfold Proc.phase
  cases state : proc.state with
  | sleeping => rfl
  | runnable => rfl
  | running => rfl
  | _ => exact absurd alive (by rw [state]; exact id)

theorem Proc.phase_same {first second : Proc} (same : first.state.Same second.state)
    (pid : second.pid = first.pid) : second.phase = first.phase := by
  rcases same with equal | ⟨former, latter⟩
  · rw [Proc.phase, Proc.phase, equal, pid]
  · rw [Proc.phase_alive former, Proc.phase_alive latter, pid]

theorem Proc.phase_zombie {proc : Proc} {pid : BitVec 32} :
    proc.phase = .dead pid ↔ proc.state = .zombie ∧ proc.pid = pid := by
  unfold Proc.phase
  cases proc.state <;> simp

/-- After an exit comes a report. -/
theorem phase_dead {log : List EntryEvent} {event : EntryEvent} {pid : BitVec 32} {after : Phase}
    (dead : phase log = some (.dead pid)) (leads : phase (event :: log) = some after) :
    after = .free ∧ ∃ q, event = .reported q pid := by
  cases event <;> simp_all [phase]

/-- The events of each entry have led to its state. -/
def Tracks (log : ProcPtr → List EntryEvent) (proc : ProcPtr → Proc) : Prop :=
  ∀ p, phase (log p) = some (proc p).phase

theorem Tracks.update {log : ProcPtr → List EntryEvent} {procs : ProcPtr → Proc}
    (tracks : Tracks log procs) {p : ProcPtr} {proc : Proc} (same : proc.phase = (procs p).phase) :
    Tracks log (Function.update procs p proc) := by
  intro q
  by_cases equal : q = p
  · rw [equal, Function.update_self, same]
    exact tracks p
  · rw [Function.update_of_ne equal]
    exact tracks q

theorem Tracks.move {log : ProcPtr → List EntryEvent} {procs : ProcPtr → Proc}
    (tracks : Tracks log procs) {p : ProcPtr} {proc : Proc} (same : (procs p).state.Same proc.state)
    (pid : proc.pid = (procs p).pid) : Tracks log (Function.update procs p proc) :=
  tracks.update (Proc.phase_same same pid)

theorem Tracks.record {log : ProcPtr → List EntryEvent} {procs : ProcPtr → Proc}
    (tracks : Tracks log procs) {p : ProcPtr} {proc : Proc} {event : EntryEvent}
    (leads : phase (log p) = some (procs p).phase → phase (event :: log p) = some proc.phase) :
    Tracks (Function.update log p (event :: log p)) (Function.update procs p proc) := by
  intro q
  by_cases equal : q = p
  · rw [equal, Function.update_self, Function.update_self]
    exact leads (tracks p)
  · rw [Function.update_of_ne equal, Function.update_of_ne equal]
    exact tracks q

theorem Tracks.same {log : ProcPtr → List EntryEvent} {before after : ProcPtr → Proc}
    (tracks : Tracks log before) (same : ∀ q, (after q).phase = (before q).phase) :
    Tracks log after := by
  intro q
  rw [same]
  exact tracks q

/-- A report is of a dead child, to its parent, and frees the entry. -/
def Reports (before : Proc) (after : Proc) (event : EntryEvent) : Prop :=
  ∀ q pid, event = .reported q pid →
    before.parent = some q ∧ before.state = .zombie ∧ pid = before.pid ∧ after.state = .unused

/-- At most one event happens to an entry. -/
def Logged (before after : List EntryEvent) (reports : EntryEvent → Prop) : Prop :=
  after = before ∨ ∃ event, after = event :: before ∧ reports event

theorem Logged.record {log : ProcPtr → List EntryEvent} {p : ProcPtr} {event : EntryEvent}
    (reports : ProcPtr → EntryEvent → Prop) (holds : reports p event) (q : ProcPtr) :
    Logged (log q) (Function.update log p (event :: log p) q) (reports q) := by
  by_cases same : q = p
  · subst same
    rw [Function.update_self]
    exact Or.inr ⟨event, rfl, holds⟩
  · rw [Function.update_of_ne same]
    exact Or.inl rfl

theorem Ptable.boot_tracks {Cpu : Type} (initproc : ProcPtr) :
    Tracks (Ptable.boot initproc : Ptable Cpu).log (Ptable.boot initproc : Ptable Cpu).proc := by
  intro p
  simp only [Ptable.boot]
  split <;> rfl

namespace Ptable

variable {Cpu : Type} [DecidableEq Cpu] {table after : Ptable Cpu} {c : Cpu} {p : ProcPtr}

theorem Tracks.dispatch (tracks : Tracks table.log table.proc) (c : Cpu) (first : Nat) :
    Tracks (table.dispatch c first).log (table.dispatch c first).proc := by
  rcases dispatch_cases c first table with ⟨p, runnable, same⟩ | same
  · rw [same]
    refine tracks.move ?_ rfl
    rw [show (table.proc p).state = .runnable from runnable]
    exact Or.inr ⟨trivial, trivial⟩
  · rw [same]
    exact tracks

theorem Tracks.waitLoop (tracks : Tracks table.log table.proc)
    (running : table.state p = .running) :
    Tracks (table.waitLoop c p).log (table.waitLoop c p).proc := by
  rcases waitLoop_cases c p table with ⟨z, child, dead, same⟩ | ⟨none, same | same⟩
  · rw [same]
    apply tracks.record
    intro before
    rw [Proc.phase, show (table.proc z).state = .zombie from dead] at before
    rw [phase, before]
    exact if_pos rfl
  · rw [same]
    exact tracks
  · rw [same]
    refine tracks.move ?_ rfl
    rw [show (table.proc p).state = .running from running]
    exact Or.inr ⟨trivial, trivial⟩

/-- The events of a step lead to the states after it. -/
theorem Ok.tracks (ok : table.Ok) (moves : table.Moves after)
    (tracks : Tracks table.log table.proc) : Tracks after.log after.proc := by
  cases moves with
  | schedule idle free => exact Tracks.dispatch tracks _ _
  | @loop c p loops =>
      have before : Tracks { table with current := Function.update table.current c none }.log
          table.proc := tracks
      exact Tracks.dispatch before c _
  | enter enters resumes chan => exact tracks.update rfl
  | @enterWait c p enters waits =>
      have same : (table.setProc p { table.proc p with chan := none }).state = table.state :=
        state_setProc_same rfl
      refine Tracks.waitLoop (tracks.update rfl) ?_
      exact (congrFun same p).trans (ok.scheduled.running c p (Or.inl enters))
  | wakeup address free =>
      apply tracks.same
      intro q
      rw [wakeup1_proc]
      refine Proc.phase_same ?_ rfl
      rcases wakeup1_state (some (.other address)) table q with same | ⟨sleeps, wakes⟩
      · exact Or.inl same.symm
      · rw [show (table.proc q).state = .sleeping from sleeps]
        exact Or.inr ⟨trivial, by rw [wakes]; trivial⟩
  | kill pid free =>
      unfold kill
      split
      · refine tracks.move ?_ rfl
        dsimp only
        split
        · rename_i sleeps
          rw [show (table.proc _).state = .sleeping from sleeps]
          exact Or.inr ⟨trivial, trivial⟩
        · exact Or.inl rfl
      · exact tracks
  | @yield c p place runs free =>
      refine tracks.move ?_ rfl
      rw [show (table.proc p).state = .running from ok.scheduled.running c p (Or.inr runs.1)]
      exact Or.inr ⟨trivial, trivial⟩
  | @sleep c p place address runs free =>
      refine tracks.move ?_ rfl
      rw [show (table.proc p).state = .running from ok.scheduled.running c p (Or.inr runs.1)]
      exact Or.inr ⟨trivial, trivial⟩
  | @wait c p runs free =>
      exact Tracks.waitLoop tracks (ok.scheduled.running c p (Or.inr runs.1))
  | @allocproc c p runs free =>
      unfold Ptable.allocproc
      split
      · rename_i np found
        have unused : table.state np = .unused := by simpa using List.find?_some found
        apply tracks.record
        intro before
        rw [Proc.phase, show (table.proc np).state = .unused from unused] at before
        rw [phase, before]
        exact if_pos rfl
      · exact tracks
  | kalloc runs => exact tracks.update rfl
  | copyuvm runs => exact tracks.update rfl
  | parent runs => exact tracks.update rfl
  | @fork c p np runs free =>
      have embryo : table.state np = .embryo :=
        ok.forking.embryo p np (by rw [runs.2]; rfl)
      apply tracks.update
      rw [Proc.phase, Proc.phase, show (table.proc np).state = .embryo from embryo]
  | @discard c p np place runs made =>
      have embryo : table.state np = .embryo := by
        apply ok.forking.embryo p np
        rw [runs.2]
        rcases made with rfl | rfl <;> rfl
      apply tracks.record
      intro before
      rw [Proc.phase, show (table.proc np).state = .embryo from embryo] at before
      rw [phase, before]
      rfl
  | exiting runs other => exact tracks
  | @exit c p runs free =>
      rcases exit_left c p table with ⟨passed, left, same⟩
      have running := ok.scheduled.running c p (Or.inr runs.1)
      have logs : passed.log = table.log := by rw [left.frame]
      have pids : ∀ q, (passed.proc q).pid = (table.proc q).pid := by
        intro q
        rw [left.fields]
      have before : Tracks passed.log passed.proc := by
        rw [logs]
        apply tracks.same
        intro q
        refine Proc.phase_same ?_ (pids q)
        rcases left.state q with equal | ⟨sleeps, wakes⟩
        · exact Or.inl equal.symm
        · rw [show (table.proc q).state = .sleeping from sleeps]
          exact Or.inr ⟨trivial, by rw [show (passed.proc q).state = .runnable from wakes]; trivial⟩
      have alive : (passed.proc p).state.Alive := by
        rcases left.state p with equal | ⟨sleeps, -⟩
        · rw [show (passed.proc p).state = .running from equal.trans running]
          trivial
        · rw [running] at sleeps
          cases sleeps
      rw [same, ← pids]
      apply before.record
      intro leads
      rw [Proc.phase_alive alive] at leads
      rw [phase, leads]
      exact if_pos rfl

/-- What `wait` writes down of its child. -/
theorem waitLoop_logged (c : Cpu) (p : ProcPtr) (table : Ptable Cpu) (z : ProcPtr) :
    Logged (table.log z) ((table.waitLoop c p).log z)
      (Reports (table.proc z) ((table.waitLoop c p).proc z)) := by
  rcases waitLoop_cases c p table with ⟨child, parent, dead, same⟩ | ⟨none, same | same⟩
  · rw [same]
    refine Logged.record (fun z => Reports (table.proc z) ((table.setProc child _).proc z)) ?_ z
    rintro q pid equal
    cases equal
    exact ⟨parent, dead, rfl, congrArg Proc.state (setProc_proc_same table child _)⟩
  · rw [same]
    exact Or.inl rfl
  · rw [same]
    exact Or.inl rfl

/-- A step records at most one event of each entry. -/
theorem Moves.logged (moves : table.Moves after) (z : ProcPtr) :
    Logged (table.log z) (after.log z) (Reports (table.proc z) (after.proc z)) := by
  cases moves with
  | schedule idle free =>
      rcases dispatch_cases _ _ table with ⟨p, -, same⟩ | same <;>
      · rw [same]
        exact Or.inl rfl
  | @loop c p loops =>
      rcases dispatch_cases c (p.val + 1)
        { table with current := Function.update table.current c none } with ⟨q, -, same⟩ | same <;>
      · rw [same]
        exact Or.inl rfl
  | @enterWait c p enters waits =>
      let tidy := table.setProc p { table.proc p with chan := none }
      rcases waitLoop_logged c p tidy z with same | ⟨event, same, reports⟩
      · exact Or.inl same
      · refine Or.inr ⟨event, same, fun q pid equal => ?_⟩
        have parents := congrFun (field_setProc Proc.parent table p
          { table.proc p with chan := none }) z
        have states := congrFun (field_setProc Proc.state table p
          { table.proc p with chan := none }) z
        have pids := congrFun (field_setProc Proc.pid table p { table.proc p with chan := none }) z
        simp only [Function.update_eq_self] at parents states pids
        rcases reports q pid equal with ⟨parent, dead, named, freed⟩
        exact ⟨parents.symm.trans parent, states.symm.trans dead, named.trans pids, freed⟩
  | kill pid free =>
      unfold Ptable.kill
      split <;> exact Or.inl rfl
  | wait runs free => exact waitLoop_logged _ _ table z
  | allocproc runs free =>
      unfold Ptable.allocproc
      split
      · refine Logged.record (fun z => Reports (table.proc z) _) ?_ z
        intro q pid equal
        cases equal
      · exact Or.inl rfl
  | discard runs child =>
      refine Logged.record (fun z => Reports (table.proc z) _) ?_ z
      intro q pid equal
      cases equal
  | @exit c p runs free =>
      rcases exit_left c p table with ⟨passed, left, same⟩
      have logs : passed.log = table.log := by rw [left.frame]
      rw [same, ← logs]
      refine Logged.record (fun z => Reports (table.proc z) _) ?_ z
      intro q pid equal
      cases equal
  | _ => exact Or.inl rfl

/-- A dead process stays as it is until it is reported. -/
theorem Moves.dead (moves : table.Moves after) (before : Tracks table.log table.proc)
    (leads : Tracks after.log after.proc) {z : ProcPtr} (dead : table.state z = .zombie) :
    (after.log z = table.log z ∧ after.state z = .zombie ∧
      (after.proc z).pid = (table.proc z).pid) ∨
    ∃ q, table.parent z = some q ∧ after.state z = .unused ∧
      after.log z = .reported q (table.proc z).pid :: table.log z := by
  have former : phase (table.log z) = some (.dead (table.proc z).pid) := by
    rw [before z, Proc.phase_zombie.mpr ⟨dead, rfl⟩]
  have latter := leads z
  rcases moves.logged z with same | ⟨event, logged, reports⟩
  · rw [same, former] at latter
    cases latter' : (after.proc z).phase with
    | dead pid =>
        rw [latter'] at latter
        cases latter
        exact Or.inl ⟨same, Proc.phase_zombie.mp latter'⟩
    | _ =>
        rw [latter'] at latter
        cases latter
  · rw [logged] at latter
    rcases phase_dead former latter with ⟨-, q, rfl⟩
    rcases reports q _ rfl with ⟨parent, -, -, freed⟩
    exact Or.inr ⟨q, parent, freed, logged⟩

theorem kin_run {initproc : ProcPtr} {events : List (TableEvent Cpu)}
    (ran : runs next (boot initproc) events = some table) :
    table.Kin ∧ Tracks table.log table.proc :=
  runs_invariant (fun _ table => table.Kin ∧ Tracks table.log table.proc)
    ⟨boot_kin initproc, boot_tracks initproc⟩
    (fun _ _ _ _ before stepped =>
      have moves := next_moves stepped
      ⟨before.1.moves moves, before.1.ok.tracks moves before.2⟩) ran

/-- In every run a process other than init has a parent that is alive, nobody
waits for a dead child, and an entry is allocated, exits and is reported once, to
the parent of that time, before it is allocated again. -/
theorem parents_and_reports (initproc : ProcPtr) (events : List (TableEvent Cpu))
    (table : Ptable Cpu) (ran : runs next (boot initproc) events = some table) :
    (∀ p, p ≠ table.initproc → table.state p ≠ .unused → table.state p ≠ .embryo →
      ∃ q, table.parent p = some q ∧ table.state q ≠ .unused ∧ table.state q ≠ .zombie) ∧
    (∀ q, table.thread q = .waiting → table.state q = .sleeping →
      ∀ z, table.parent z = some q → table.state z ≠ .zombie) ∧
    (∀ p, phase (table.log p) = some (table.proc p).phase) ∧
    ∀ event after, table.next event = some after → ∀ z,
      (table.state z = .zombie →
        (after.log z = table.log z ∧ after.state z = .zombie ∧
          (after.proc z).pid = (table.proc z).pid) ∨
        ∃ q, table.parent z = some q ∧ after.state z = .unused ∧
          after.log z = .reported q (table.proc z).pid :: table.log z) ∧
      ∀ q pid, after.log z = .reported q pid :: table.log z →
        table.state z = .zombie ∧ table.parent z = some q ∧ (table.proc z).pid = pid := by
  rcases kin_run ran with ⟨kin, tracks⟩
  refine ⟨?_, kin.family.zombie, tracks, ?_⟩
  · intro p other used grown
    rcases kin.family.parents p other used grown with ⟨q, parent, alive⟩
    refine ⟨q, parent, fun free => ?_, fun dead => ?_⟩
    · rw [free] at alive
      exact alive
    · rw [dead] at alive
      exact alive
  · intro event after stepped z
    have moves := next_moves stepped
    have leads := kin.ok.tracks moves tracks
    refine ⟨moves.dead tracks leads, fun q pid logged => ?_⟩
    rcases moves.logged z with same | ⟨event, other, reports⟩
    · rw [logged] at same
      exact absurd same (List.cons_ne_self _ _)
    · rw [logged] at other
      cases other
      rcases reports q pid rfl with ⟨parent, dead, named, -⟩
      exact ⟨dead, parent, named.symm⟩

theorem parents_and_reports_once : ∃ table after : Ptable Bool,
    runs next (boot firstProc) forkAndExit = some table ∧
    table.next (.enter false) = some after ∧
    table.state secondProc = .zombie ∧ after.state secondProc = .unused ∧
    after.log secondProc = .reported firstProc 2 :: table.log secondProc ∧
    table.parent secondProc = some firstProc := by
  have facts : (runs next (boot firstProc) forkAndExit).map (fun table =>
      decide (table.state secondProc = .zombie ∧
        (table.next (.enter false)).map (fun after =>
          (after.state secondProc, after.log secondProc)) =
            some (.unused, .reported firstProc 2 :: table.log secondProc))) = some true := by
    decide +kernel
  rcases Option.map_eq_some_iff.mp facts with ⟨table, ran, holds⟩
  rcases of_decide_eq_true holds with ⟨dead, reported⟩
  rcases Option.map_eq_some_iff.mp reported with ⟨after, stepped, pair⟩
  rcases Prod.mk.injEq .. ▸ pair with ⟨freed, logged⟩
  rcases parents_and_reports firstProc forkAndExit table ran with ⟨-, -, -, steps⟩
  exact ⟨table, after, ran, stepped, dead, freed, logged,
    ((steps _ after stepped secondProc).2 firstProc 2 logged).2.1⟩

end Ptable

end Xv6.Sched
