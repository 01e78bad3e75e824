import Xv6.Proc.FileKinds

/-!
# Files of a child

`fork` fills in the entry of a process that does not run yet, `exit` leaves an
entry with nothing in it, and `wait` frees it.
-/

namespace Xv6.OpenFiles

open Xv6.Library
open Xv6.Fs (InodePtr)
open Xv6.Fork (nofile nfile FilePtr)
open Xv6.Sched (ProcPtr nproc)
open Xv6.Files (File FileType)

variable {home : Set UInt32} {s s' : State} {p q np : ProcPtr} {proc proc' entry : Proc}
  {child : Option Proc} {f : FilePtr} {i : Fin nofile} {ip : InodePtr}

/-- An action that changes the entries of its process and of one that does not run,
which is its child before, or after, or neither. -/
structure WithChild (p np : ProcPtr) (proc' entry : Proc) (s s' : State) : Prop where
  proc : s'.proc = Function.update (Function.update s.proc np entry) p proc'
  before : (s.proc p).status = .live
  live : proc'.status = .live
  stopped : (s.proc np).status ≠ .live
  orphan : ∀ q, q ≠ p → (s.proc np).status ≠ .embryo q
  only : ∀ q, (s.proc p).child = some q → q = np
  entry : entry = blank .unused ∧ proc'.child = none ∨
    entry.status = .embryo p ∧ Calm entry ∧ proc'.child = some np ∨
    Idle entry ∧ proc'.child = none

namespace WithChild

variable (change : WithChild p np proc' entry s s')

include change

theorem apart : np ≠ p := by
  rintro rfl
  exact change.stopped change.before

theorem self : s'.proc p = proc' := by
  rw [change.proc, Function.update_self]

theorem kid : s'.proc np = entry := by
  rw [change.proc, Function.update_of_ne change.apart, Function.update_self]

theorem other (first : q ≠ p) (second : q ≠ np) : s'.proc q = s.proc q := by
  rw [change.proc, Function.update_of_ne first, Function.update_of_ne second]

theorem keeps {Part : Type} (part : Proc → Part) (first : part proc' = part (s.proc p))
    (second : part entry = part (s.proc np)) (q : ProcPtr) : part (s'.proc q) = part (s.proc q) := by
  by_cases here : q = p
  · rw [here, change.self, first]
  · by_cases there : q = np
    · rw [there, change.kid, second]
    · rw [change.other here there]

/-- A process that is somebody else's child is not touched. -/
theorem elsewhere (family : Family s) {r : ProcPtr} (different : q ≠ p)
    (is : (s.proc q).child = some r) : r ≠ p ∧ r ≠ np := by
  constructor
  · rintro rfl
    exact family.not_child change.before is
  · rintro rfl
    exact change.orphan q different (family.child q r is).1

theorem childless : entry.child = none := by
  rcases change.entry with ⟨rfl, -⟩ | ⟨-, calm, -⟩ | ⟨idle, -⟩
  · rfl
  · exact calm.child
  · exact idle.calm.child

theorem family (family : Family s) : Family s' where
  blank := by
    intro q stopped
    by_cases here : q = p
    · subst here
      rw [change.self, change.live] at stopped
      simp at stopped
    · by_cases there : q = np
      · subst there
        rw [change.kid] at stopped ⊢
        rcases change.entry with ⟨rfl, -⟩ | ⟨unborn, -⟩ | ⟨idle, -⟩
        · rfl
        · simp [unborn] at stopped
        · simp [idle.live] at stopped
      · rw [change.other here there] at stopped ⊢
        exact family.blank q stopped
  embryo := by
    intro r q unborn
    by_cases here : q = p
    · subst here
      rw [change.self, change.live] at unborn
      cases unborn
    · by_cases there : q = np
      · subst there
        rw [change.kid] at unborn ⊢
        rcases change.entry with ⟨rfl, -⟩ | ⟨status, calm, parent⟩ | ⟨idle, -⟩
        · cases unborn
        · rw [status, Status.embryo.injEq] at unborn
          subst unborn
          rw [change.self]
          exact ⟨parent, calm⟩
        · rw [idle.live] at unborn
          cases unborn
      · rw [change.other here there] at unborn ⊢
        rcases family.embryo r q unborn with ⟨parent, calm⟩
        have first : r ≠ p := by
          rintro rfl
          exact there (change.only q parent)
        have second : r ≠ np := by
          rintro rfl
          exact change.stopped (family.child r q parent).2
        rw [change.other first second]
        exact ⟨parent, calm⟩
  child := by
    intro r q is
    by_cases here : r = p
    · subst here
      rw [change.self] at is ⊢
      rcases change.entry with ⟨-, none⟩ | ⟨status, -, parent⟩ | ⟨-, none⟩
      · rw [none] at is
        cases is
      · rw [parent, Option.some.injEq] at is
        subst is
        rw [change.kid]
        exact ⟨status, change.live⟩
      · rw [none] at is
        cases is
    · by_cases there : r = np
      · subst there
        rw [change.kid, change.childless] at is
        cases is
      · rw [change.other here there] at is ⊢
        rcases change.elsewhere family here is with ⟨first, second⟩
        rw [change.other first second]
        exact family.child r q is

theorem views (family : Family s) : (∀ q, q ≠ p → Rely (s.view q) (s'.view q)) ∧
    s'.view p = some (proc', proc'.child.map fun _ => entry) := by
  constructor
  · intro q different
    by_cases there : q = np
    · subst there
      simp only [State.view, change.kid, if_neg change.stopped]
      rcases change.entry with ⟨rfl, -⟩ | ⟨unborn, -⟩ | ⟨idle, -⟩
      · exact Or.inl rfl
      · rw [if_neg (by simp [unborn])]
        exact Or.inl rfl
      · rw [if_pos idle.live, change.childless]
        exact Or.inr ⟨rfl, entry, rfl, idle⟩
    · refine Or.inl ?_
      simp only [State.view, change.other different there]
      split
      · congr 2
        cases is : (s.proc q).child with
        | none => rfl
        | some r =>
            rcases change.elsewhere family different is with ⟨first, second⟩
            simp only [Option.map_some, change.other first second]
      · rfl
  · simp only [State.view, change.self, if_pos change.live]
    congr 2
    rcases change.entry with ⟨-, none⟩ | ⟨-, -, parent⟩ | ⟨-, none⟩
    · rw [none]
      rfl
    · rw [parent, Option.map_some, change.kid, Option.map_some]
    · rw [none]
      rfl

/-- Neither of the two is making a file. -/
theorem passed (file : s'.file = s.file) (pipe : s'.pipe = s.pipe)
    (owners : Rearranged s.fileOwner s'.fileOwner)
    (inodes : ∀ ip, s'.inodeRef ip = shares s'.inodeOwner ip)
    (first : proc'.ff = (s.proc p).ff) (second : entry.ff = (s.proc np).ff)
    (unmade : (s.proc p).made = fun _ => none) (unmade' : proc'.made = fun _ => none)
    (idle : (s.proc np).made = fun _ => none) (idle' : entry.made = fun _ => none)
    (filled : Filled s) : Passed s s' where
  file := file
  pipe := pipe
  owners := owners
  inodes := inodes
  ends := endOwner_same (fun f => by rw [file]) (change.keeps Proc.ff first second)
  made := change.keeps Proc.made (unmade'.trans unmade.symm) (idle'.trans idle.symm)
  makers := by
    intro q k f making
    have here : q ≠ p := by
      rintro rfl
      rw [unmade] at making
      cases making
    have there : q ≠ np := by
      rintro rfl
      rw [idle] at making
      cases making
    rw [change.other here there]
    exact (filled.made q k f making).2.2

end WithChild

theorem WithChild.secured (change : WithChild p np proc' entry s s') (ok : Ok home s)
    (passed : Passed s s') (pages : Pages home s') : Ok home s' ∧
      (∀ q, q ≠ p → Rely (s.view q) (s'.view q)) ∧
      s'.view p = some (proc', proc'.child.map fun _ => entry) :=
  ⟨⟨passed.counts ok.counts, passed.filled ok.filled, pages, change.family ok.family⟩,
    change.views ok.family⟩

/-- The child of a process, in the state. -/
theorem Ok.kid (ok : Ok home s) (seen : s.view p = some (proc, some entry))
    (parent : proc.child = some np) : s.proc np = entry ∧ (s.proc np).status = .embryo p ∧
      Calm entry ∧ s.proc p = proc ∧ proc.status = .live := by
  rcases view_cases seen with ⟨here, live, kid⟩
  rw [parent, Option.map_some, Option.some.injEq] at kid
  have unborn := (ok.family.child p np (here ▸ parent)).1
  exact ⟨kid, unborn, kid ▸ (ok.family.embryo p np unborn).2, here, live⟩

end Xv6.OpenFiles
