import Mathlib.Data.Fintype.Prod
import Mathlib.Data.Fintype.Sum
import Xv6.Proc.OpenFiles

/-!
# Counting the references to open files

The reference counts of files and inodes are the numbers of owners, and a pipe
end is open while it has its one owner. Every action keeps this.
-/

namespace Xv6.OpenFiles

open Xv6.Library
open Xv6.Fs (InodePtr)
open Xv6.Fork (nofile nfile FilePtr)
open Xv6.Sched (ProcPtr nproc)
open Xv6.Files (File FileType)

/-! ## Who owns what -/

/-- The descriptors with a reference behind them, and the variables. -/
def Proc.owns (proc : Proc) : Fin nofile ⊕ Bool → Option FilePtr
  | .inl fd => if proc.unpaid = some fd then none else proc.ofile fd
  | .inr k => proc.file k

/-- The places of a process that may own a reference to an inode. -/
inductive InodeVar where
  | ip
  | ff
  | cwd
deriving DecidableEq

instance : Fintype InodeVar where
  elems := {.ip, .ff, .cwd}
  complete var := by cases var <;> decide

def inodeOf (file : File) : Option InodePtr := if file.type = .inode then file.ip else none

/-- The end of a pipe that a file is: the page, and whether it is the write end. -/
def endOf (file : File) : Option (UInt32 × Bool) :=
  if file.type = .pipe then some (file.pipe, file.writable) else none

def Proc.inode (proc : Proc) : InodeVar → Option InodePtr
  | .ip => proc.ip
  | .ff => proc.ff.bind inodeOf
  | .cwd => if proc.cwdGone = true then none else proc.cwd

def State.fileOwner (s : State) (owner : ProcPtr × (Fin nofile ⊕ Bool)) : Option FilePtr :=
  (s.proc owner.1).owns owner.2

def State.inodeOwner (s : State) : FilePtr ⊕ ProcPtr × InodeVar → Option InodePtr
  | .inl f => inodeOf (s.file f)
  | .inr (p, var) => (s.proc p).inode var

def State.endOwner (s : State) : FilePtr ⊕ ProcPtr → Option (UInt32 × Bool)
  | .inl f => endOf (s.file f)
  | .inr p => (s.proc p).ff.bind endOf

def State.isOpen (s : State) (pipeEnd : UInt32 × Bool) : Bool :=
  match s.pipe pipeEnd.1 with
  | some ends => if pipeEnd.2 = true then ends.writeopen else ends.readopen
  | none => false

/-! ## The invariant -/

/-- Counts and owners agree. -/
structure Counts (s : State) : Prop where
  files : ∀ f, (s.file f).ref = shares s.fileOwner f
  inodes : ∀ ip, s.inodeRef ip = shares s.inodeOwner ip
  ends : ∀ pipeEnd, shares s.endOwner pipeEnd = if s.isOpen pipeEnd = true then 1 else 0

/-- A file without type is free, or somebody is about to fill it in. -/
structure Filled (s : State) : Prop where
  closed : ∀ f, (s.file f).ref = 0 → (s.file f).type = .none
  made : ∀ p k f, (s.proc p).made k = some f → (s.file f).type = .none ∧ (s.file f).ref = 1 ∧
    ∃ x, (s.proc p).owns x = some f
  typed : ∀ f, (s.file f).type = .none → (s.file f).ref ≠ 0 → ∃ p k, (s.proc p).made k = some f
  inode : ∀ f, (s.file f).type = .inode → (s.file f).ip ≠ none

/-- A page of `home` is free, or has a pipe with an open end, or one process is
about to fill it in or to free it. -/
structure Pages (home : Set UInt32) (s : State) : Prop where
  nodup : s.free.Nodup
  free : ∀ page ∈ s.free, s.pipe page = none
  alive : ∀ page ends, s.pipe page = some ends → ends.readopen = true ∨ ends.writeopen = true
  page : ∀ p page, (s.proc p).page = some page → page ∉ s.free ∧ s.pipe page = none
  single : ∀ p q page, (s.proc p).page = some page → (s.proc q).page = some page → q = p
  known : ∀ page, page ∈ home ↔
    page ∈ s.free ∨ s.pipe page ≠ none ∨ ∃ p, (s.proc p).page = some page

/-- In no call, apart from the files and the current directory. -/
structure Calm (proc : Proc) : Prop where
  unpaid : proc.unpaid = none
  cwdGone : proc.cwdGone = false
  file : proc.file = fun _ => none
  made : proc.made = fun _ => none
  ip : proc.ip = none
  ff : proc.ff = none
  page : proc.page = none
  child : proc.child = none

/-- The processes that are not running. -/
structure Family (s : State) : Prop where
  blank : ∀ p, (s.proc p).status = .unused ∨ (s.proc p).status = .zombie →
    s.proc p = blank (s.proc p).status
  embryo : ∀ p q, (s.proc q).status = .embryo p → (s.proc p).child = some q ∧ Calm (s.proc q)
  child : ∀ p q, (s.proc p).child = some q →
    (s.proc q).status = .embryo p ∧ (s.proc p).status = .live

structure Ok (home : Set UInt32) (s : State) : Prop where
  counts : Counts s
  filled : Filled s
  pages : Pages home s
  family : Family s

/-! ## Views -/

/-- What a running process knows: its own entry, and that of a child that does not
run yet. -/
def State.view (s : State) (p : ProcPtr) : Option (Proc × Option Proc) :=
  if (s.proc p).status = .live then some (s.proc p, (s.proc p).child.map s.proc) else none

/-- Between system calls. -/
structure Idle (proc : Proc) : Prop where
  live : proc.status = .live
  calm : Calm proc
  cwd : proc.cwd ≠ none

/-- A process starts to run between two steps. -/
def Rely (before after : Option (Proc × Option Proc)) : Prop :=
  after = before ∨ before = none ∧ ∃ proc, after = some (proc, none) ∧ Idle proc

def sharing (home : Set UInt32) : Sharing ProcPtr State (Option (Proc × Option Proc)) where
  invariant := Ok home
  view := fun p s => s.view p
  rely := Rely
  rely_refl := fun _ => Or.inl rfl
  rely_trans := by
    rintro first second third (rfl | ⟨rfl, proc, rfl, idle⟩) (rfl | ⟨same, other, rfl, idle'⟩)
    · exact Or.inl rfl
    · exact Or.inr ⟨same, other, rfl, idle'⟩
    · exact Or.inr ⟨rfl, proc, rfl, idle⟩
    · cases same
  mayPanic := fun message => message = "init exiting"

theorem steady {home : Set UInt32} (view : Proc × Option Proc) : (sharing home).Steady (some view) := by
  rintro later (same | ⟨absurd, -⟩)
  · exact same
  · cases absurd

variable {home : Set UInt32} {s s' : State} {p q : ProcPtr} {proc proc' : Proc}
  {child : Option Proc} {f : FilePtr} {x : Fin nofile ⊕ Bool} {k : Bool} {fd : Fin nofile}
  {ip : InodePtr} {page : UInt32}

theorem view_cases (seen : s.view p = some (proc, child)) :
    s.proc p = proc ∧ proc.status = .live ∧ proc.child.map s.proc = child := by
  unfold State.view at seen
  split at seen
  · rename_i live
    simp only [Option.some.injEq, Prod.mk.injEq] at seen
    rcases seen with ⟨rfl, same⟩
    exact ⟨rfl, live, same⟩
  · cases seen

/-- An action that changes the entry of its process only. -/
structure Own (p : ProcPtr) (proc' : Proc) (s s' : State) : Prop where
  proc : s'.proc = Function.update s.proc p proc'
  before : (s.proc p).status = .live
  live : proc'.status = .live
  child : proc'.child = (s.proc p).child

theorem Own.self (own : Own p proc' s s') : s'.proc p = proc' := by
  rw [own.proc, Function.update_self]

theorem Own.other (own : Own p proc' s s') (different : q ≠ p) : s'.proc q = s.proc q := by
  rw [own.proc, Function.update_of_ne different]

/-- A running process is nobody's child. -/
theorem Family.not_child (family : Family s) (live : (s.proc p).status = .live) :
    (s.proc q).child ≠ some p := by
  intro is
  rw [(family.child q p is).1] at live
  cases live

theorem Own.family (own : Own p proc' s s') (family : Family s) : Family s' where
  blank := by
    intro q stopped
    by_cases here : q = p
    · subst here
      rw [own.self, own.live] at stopped
      simp at stopped
    · rw [own.other here] at stopped ⊢
      exact family.blank q stopped
  embryo := by
    intro r q unborn
    by_cases here : q = p
    · subst here
      rw [own.self, own.live] at unborn
      cases unborn
    · rw [own.other here] at unborn ⊢
      rcases family.embryo r q unborn with ⟨parent, calm⟩
      refine ⟨?_, calm⟩
      by_cases same : r = p
      · subst same
        rw [own.self, own.child]
        exact parent
      · rw [own.other same]
        exact parent
  child := by
    intro r q is
    have before : (s.proc r).child = some q := by
      by_cases same : r = p
      · subst same
        rw [own.self, own.child] at is
        exact is
      · rw [own.other same] at is
        exact is
    rcases family.child r q before with ⟨unborn, live⟩
    have different : q ≠ p := by
      rintro rfl
      exact family.not_child own.before before
    rw [own.other different]
    refine ⟨unborn, ?_⟩
    by_cases same : r = p
    · rw [same, own.self]
      exact own.live
    · rw [own.other same]
      exact live

/-- What the processes see of such an action. -/
theorem Own.views (own : Own p proc' s s') (family : Family s) :
    (∀ q, q ≠ p → Rely (s.view q) (s'.view q)) ∧
      s'.view p = some (proc', (s.proc p).child.map s.proc) := by
  have others : ∀ q, q ≠ p → ∀ r, (s.proc r).child = some q → s'.proc q = s.proc q :=
    fun q different r _ => own.other different
  constructor
  · intro q different
    refine Or.inl ?_
    simp only [State.view, own.other different]
    split
    · congr 2
      cases is : (s.proc q).child with
      | none => rfl
      | some r =>
          have apart : r ≠ p := by
            rintro rfl
            exact family.not_child own.before is
          simp only [Option.map_some, own.other apart]
    · rfl
  · simp only [State.view, own.self, own.live, if_true, own.child]
    congr 2
    cases is : (s.proc p).child with
    | none => rfl
    | some r =>
        have apart : r ≠ p := by
          rintro rfl
          exact family.not_child own.before is
        simp only [Option.map_some, own.other apart]

/-! ## What an action leaves alone -/

/-- A part of the entry that the action does not change. -/
theorem Own.keeps {Part : Type} (own : Own p proc' s s') (part : Proc → Part)
    (same : part proc' = part (s.proc p)) (q : ProcPtr) : part (s'.proc q) = part (s.proc q) := by
  by_cases here : q = p
  · rw [here, own.self, same]
  · rw [own.other here]

theorem Pages.of_same (pages : Pages home s) (free : s'.free = s.free) (pipe : s'.pipe = s.pipe)
    (page : ∀ q, (s'.proc q).page = (s.proc q).page) : Pages home s' where
  nodup := free ▸ pages.nodup
  free := by
    rw [free, pipe]
    exact pages.free
  alive := by
    rw [pipe]
    exact pages.alive
  page q := by
    rw [page, free, pipe]
    exact pages.page q
  single q r := by
    rw [page, page]
    exact pages.single q r
  known other := by
    simp only [free, pipe, page]
    exact pages.known other

/-- Who has a page: one process, or another. -/
theorem page_split (s : State) (p : ProcPtr) (page : UInt32) :
    (∃ q, (s.proc q).page = some page) ↔
      (s.proc p).page = some page ∨ ∃ q, q ≠ p ∧ (s.proc q).page = some page := by
  constructor
  · rintro ⟨q, has⟩
    by_cases here : q = p
    · exact Or.inl (here ▸ has)
    · exact Or.inr ⟨q, here, has⟩
  · rintro (has | ⟨q, -, has⟩)
    · exact ⟨p, has⟩
    · exact ⟨q, has⟩

theorem Own.page_split (own : Own p proc' s s') (page : UInt32) :
    (∃ q, (s'.proc q).page = some page) ↔
      proc'.page = some page ∨ ∃ q, q ≠ p ∧ (s.proc q).page = some page := by
  rw [OpenFiles.page_split s' p, own.self]
  have others : ∀ q, q ≠ p ∧ (s'.proc q).page = some page ↔ q ≠ p ∧ (s.proc q).page = some page := by
    intro q
    by_cases here : q = p
    · simp [here]
    · rw [own.other here]
  simp only [others]

theorem fileOwner_same (owns : ∀ q, (s'.proc q).owns = (s.proc q).owns) :
    s'.fileOwner = s.fileOwner := by
  funext owner
  exact congrFun (owns owner.1) owner.2

theorem fileOwner_update (procs : s'.proc = Function.update s.proc p proc')
    {held : Option FilePtr} (owns : proc'.owns = Function.update (s.proc p).owns x held) :
    s'.fileOwner = Function.update s.fileOwner (p, x) held := by
  funext owner
  rcases owner with ⟨q, y⟩
  simp only [State.fileOwner, procs]
  by_cases here : q = p
  · subst here
    rw [Function.update_self, owns]
    by_cases same : y = x
    · subst same
      simp
    · rw [Function.update_of_ne same, Function.update_of_ne (by simp [same])]
      rfl
  · rw [Function.update_of_ne here, Function.update_of_ne (by simp [here])]
    rfl

theorem inodeOwner_same (files : ∀ f, inodeOf (s'.file f) = inodeOf (s.file f))
    (procs : ∀ q, (s'.proc q).inode = (s.proc q).inode) : s'.inodeOwner = s.inodeOwner := by
  funext owner
  cases owner with
  | inl f => exact files f
  | inr place => exact congrFun (procs place.1) place.2

theorem inodeOwner_update (files : ∀ f, inodeOf (s'.file f) = inodeOf (s.file f))
    (procs : s'.proc = Function.update s.proc p proc') {var : InodeVar} {held : Option InodePtr}
    (inode : proc'.inode = Function.update (s.proc p).inode var held) :
    s'.inodeOwner = Function.update s.inodeOwner (.inr (p, var)) held := by
  funext owner
  cases owner with
  | inl f =>
      rw [Function.update_of_ne (by simp)]
      exact files f
  | inr place =>
      rcases place with ⟨q, other⟩
      simp only [State.inodeOwner, procs]
      by_cases here : q = p
      · subst here
        rw [Function.update_self, inode]
        by_cases same : other = var
        · subst same
          simp
        · rw [Function.update_of_ne same, Function.update_of_ne (by simp [same])]
          rfl
      · rw [Function.update_of_ne here, Function.update_of_ne (by simp [here])]
        rfl

theorem inodeOwner_file {file : File} (files : s'.file = Function.update s.file f file)
    (procs : ∀ q, (s'.proc q).inode = (s.proc q).inode) :
    s'.inodeOwner = Function.update s.inodeOwner (.inl f) (inodeOf file) := by
  funext owner
  cases owner with
  | inl g =>
      simp only [State.inodeOwner, files]
      by_cases here : g = f
      · subst here
        simp
      · rw [Function.update_of_ne here, Function.update_of_ne (by simp [here])]
        rfl
  | inr place =>
      rw [Function.update_of_ne (by simp)]
      exact congrFun (procs place.1) place.2

theorem endOwner_same (files : ∀ f, endOf (s'.file f) = endOf (s.file f))
    (procs : ∀ q, (s'.proc q).ff = (s.proc q).ff) : s'.endOwner = s.endOwner := by
  funext owner
  cases owner with
  | inl f => exact files f
  | inr q => exact congrArg (Option.bind · endOf) (procs q)

theorem endOwner_proc (files : ∀ f, endOf (s'.file f) = endOf (s.file f))
    (procs : s'.proc = Function.update s.proc p proc') :
    s'.endOwner = Function.update s.endOwner (.inr p) (proc'.ff.bind endOf) := by
  funext owner
  cases owner with
  | inl f =>
      rw [Function.update_of_ne (by simp)]
      exact files f
  | inr q =>
      simp only [State.endOwner, procs]
      by_cases here : q = p
      · subst here
        simp
      · rw [Function.update_of_ne here, Function.update_of_ne (by simp [here])]
        rfl

theorem endOwner_file {file : File} (files : s'.file = Function.update s.file f file)
    (procs : ∀ q, (s'.proc q).ff = (s.proc q).ff) :
    s'.endOwner = Function.update s.endOwner (.inl f) (endOf file) := by
  funext owner
  cases owner with
  | inl g =>
      simp only [State.endOwner, files]
      by_cases here : g = f
      · subst here
        simp
      · rw [Function.update_of_ne here, Function.update_of_ne (by simp [here])]
        rfl
  | inr q =>
      rw [Function.update_of_ne (by simp)]
      exact congrArg (Option.bind · endOf) (procs q)

theorem setFile_inodeOwner (s : State) (f : FilePtr) (file : File) :
    (s.setFile f file).inodeOwner = Function.update s.inodeOwner (.inl f) (inodeOf file) := by
  apply inodeOwner_file rfl
  exact fun _ => rfl

theorem setFile_endOwner (s : State) (f : FilePtr) (file : File) :
    (s.setFile f file).endOwner = Function.update s.endOwner (.inl f) (endOf file) := by
  apply endOwner_file rfl
  exact fun _ => rfl

theorem setProc_inodeOwner {var : InodeVar} {held : Option InodePtr}
    (inode : proc'.inode = Function.update (s.proc p).inode var held) :
    (s.setProc p proc').inodeOwner = Function.update s.inodeOwner (.inr (p, var)) held := by
  apply inodeOwner_update _ rfl inode
  exact fun _ => rfl

theorem setProc_endOwner (s : State) (p : ProcPtr) (proc : Proc) :
    (s.setProc p proc).endOwner = Function.update s.endOwner (.inr p) (proc.ff.bind endOf) := by
  apply endOwner_proc _ rfl
  exact fun _ => rfl

theorem isOpen_same (pipe : s'.pipe = s.pipe) : s'.isOpen = s.isOpen := by
  funext pipeEnd
  simp only [State.isOpen, pipe]

/-- The fields of files and the owners of inodes and pipe ends are as before; only
the count of one file, and one of its owners, changes. -/
theorem Counts.of_files (counts : Counts s)
    (files : ∀ f, inodeOf (s'.file f) = inodeOf (s.file f) ∧ endOf (s'.file f) = endOf (s.file f))
    (inodes : ∀ q, (s'.proc q).inode = (s.proc q).inode) (ff : ∀ q, (s'.proc q).ff = (s.proc q).ff)
    (inodeRef : s'.inodeRef = s.inodeRef) (pipe : s'.pipe = s.pipe)
    (count : ∀ f, (s'.file f).ref = shares s'.fileOwner f) : Counts s' where
  files := count
  inodes := by
    rw [inodeRef, inodeOwner_same (fun f => (files f).1) inodes]
    exact counts.inodes
  ends := by
    rw [endOwner_same (fun f => (files f).2) ff, isOpen_same pipe]
    exact counts.ends

/-- A file of which `p` has the only reference belongs to no other process. -/
theorem Counts.alone (counts : Counts s) (one : (s.file f).ref = 1)
    (mine : (s.proc p).owns x = some f) {y : Fin nofile ⊕ Bool} (theirs : (s.proc q).owns y = some f) :
    q = p ∧ y = x := by
  have count := counts.files f
  have first : s.fileOwner (q, y) = some f := theirs
  have second : s.fileOwner (p, x) = some f := mine
  exact Prod.mk.inj (owner_unique (by omega) first second)

theorem Counts.positive (counts : Counts s) (mine : (s.proc p).owns x = some f) :
    0 < (s.file f).ref := by
  have count := counts.files f
  have owner : s.fileOwner (p, x) = some f := mine
  have some := shares_pos owner
  omega

end Xv6.OpenFiles
