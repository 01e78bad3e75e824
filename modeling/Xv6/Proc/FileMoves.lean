import Xv6.Proc.FileActions

/-!
# Passing references on

Actions that leave all files alone: a reference goes from one place of a process to
another, or the process takes or drops a reference to an inode, or a page.
-/

namespace Xv6.OpenFiles

open Xv6.Library
open Xv6.Fs (InodePtr)
open Xv6.Fork (nofile nfile FilePtr)
open Xv6.Sched (ProcPtr nproc)
open Xv6.Files (File FileType)

variable {home : Set UInt32} {s s' : State} {p q : ProcPtr} {proc proc' : Proc}
  {child : Option Proc} {f : FilePtr} {x : Fin nofile ⊕ Bool} {k : Bool} {fd : Fin nofile}
  {ip : InodePtr} {page : UInt32} {Value : Type}

/-- No file and no pipe changes, and the references to files only change owners. -/
structure Passed (s s' : State) : Prop where
  file : s'.file = s.file
  pipe : s'.pipe = s.pipe
  owners : Rearranged s.fileOwner s'.fileOwner
  inodes : ∀ ip, s'.inodeRef ip = shares s'.inodeOwner ip
  ends : s'.endOwner = s.endOwner
  made : ∀ q, (s'.proc q).made = (s.proc q).made
  makers : ∀ q k f, (s.proc q).made k = some f → ∃ x, (s'.proc q).owns x = some f

theorem Passed.counts (passed : Passed s s') (counts : Counts s) : Counts s' where
  files f := by
    rw [passed.file, passed.owners.shares]
    exact counts.files f
  inodes := passed.inodes
  ends := by
    rw [passed.ends, isOpen_same passed.pipe]
    exact counts.ends

theorem Passed.filled (passed : Passed s s') (filled : Filled s) : Filled s' where
  closed := by
    rw [passed.file]
    exact filled.closed
  made q k f made := by
    rw [passed.made] at made
    rw [passed.file]
    rcases filled.made q k f made with ⟨untyped, one, -⟩
    exact ⟨untyped, one, passed.makers q k f made⟩
  typed f untyped used := by
    rw [passed.file] at untyped used
    rcases filled.typed f untyped used with ⟨q, k, made⟩
    refine ⟨q, k, ?_⟩
    rw [passed.made]
    exact made
  inode := by
    rw [passed.file]
    exact filled.inode

/-- What one process does to its own places. -/
structure Moves (p : ProcPtr) (proc' : Proc) (s s' : State) : Prop where
  file : s'.file = s.file
  pipe : s'.pipe = s.pipe
  proc : s'.proc = Function.update s.proc p proc'
  owns : Rearranged (s.proc p).owns proc'.owns
  made : proc'.made = (s.proc p).made
  ends : proc'.ff.bind endOf = (s.proc p).ff.bind endOf

theorem Moves.self (moves : Moves p proc' s s') : s'.proc p = proc' := by
  rw [moves.proc, Function.update_self]

theorem Moves.other (moves : Moves p proc' s s') (different : q ≠ p) : s'.proc q = s.proc q := by
  rw [moves.proc, Function.update_of_ne different]

theorem Moves.owners (moves : Moves p proc' s s') : Rearranged s.fileOwner s'.fileOwner := by
  refine moves.owns.embed (Prod.mk_right_injective p) (fun _ => rfl) (fun x => ?_) ?_
  · simp only [State.fileOwner, moves.self]
  · rintro ⟨q, y⟩ outside
    have different : q ≠ p := by
      rintro rfl
      exact outside y rfl
    simp only [State.fileOwner, moves.other different]

theorem Moves.passed (moves : Moves p proc' s s') (filled : Filled s)
    (inodes : ∀ ip, s'.inodeRef ip = shares s'.inodeOwner ip) : Passed s s' where
  file := moves.file
  pipe := moves.pipe
  owners := moves.owners
  inodes := inodes
  ends := by
    rw [endOwner_proc (fun f => by rw [moves.file]) moves.proc, moves.ends]
    exact Function.update_eq_self (Sum.inr p) s.endOwner
  made := by
    intro q
    by_cases here : q = p
    · rw [here, moves.self, moves.made]
    · rw [moves.other here]
  makers := by
    intro q k f made
    rcases filled.made q k f made with ⟨-, -, x, mine⟩
    by_cases here : q = p
    · subst here
      rw [moves.self]
      exact moves.owns.exists_owner mine
    · rw [moves.other here]
      exact ⟨x, mine⟩

theorem Moves.inodes (moves : Moves p proc' s s') (inode : Rearranged (s.proc p).inode proc'.inode) :
    Rearranged s.inodeOwner s'.inodeOwner := by
  have injective : Function.Injective fun var : InodeVar =>
      (Sum.inr (p, var) : FilePtr ⊕ ProcPtr × InodeVar) := by
    intro first second same
    simpa using same
  refine inode.embed injective (fun _ => rfl) (fun var => ?_) ?_
  · simp only [State.inodeOwner, moves.self]
  · rintro (f | ⟨q, var⟩) outside
    · simp only [State.inodeOwner, moves.file]
    · have different : q ≠ p := by
        rintro rfl
        exact outside var rfl
      simp only [State.inodeOwner, moves.other different]

theorem Moves.inode_update {var : InodeVar} {held : Option InodePtr} (moves : Moves p proc' s s')
    (inode : proc'.inode = Function.update (s.proc p).inode var held) :
    s'.inodeOwner = Function.update s.inodeOwner (.inr (p, var)) held :=
  inodeOwner_update (fun f => by rw [moves.file]) moves.proc inode

/-! ## Within a process -/

/-- The references of the entry are the same, perhaps in other places. -/
structure Reseated (proc proc' : Proc) : Prop where
  status : proc'.status = proc.status
  child : proc'.child = proc.child
  made : proc'.made = proc.made
  ff : proc'.ff = proc.ff
  page : proc'.page = proc.page
  owns : Rearranged proc.owns proc'.owns
  inode : Rearranged proc.inode proc'.inode

theorem Alike.reseated (alike : Alike proc proc') (made : proc'.made = proc.made)
    (owns : Rearranged proc.owns proc'.owns) : Reseated proc proc' where
  status := alike.status
  child := alike.child
  made := made
  ff := alike.ff
  page := alike.page
  owns := owns
  inode := Or.inl alike.inode

theorem Reseated.kept (reseated : Reseated proc proc') (ok : Ok home s) (here : s.proc p = proc)
    (live : proc.status = .live) :
    Own p proc' s (s.setProc p proc') ∧ Counts (s.setProc p proc') ∧ Filled (s.setProc p proc') ∧
      Pages home (s.setProc p proc') := by
  subst here
  have moves : Moves p proc' s (s.setProc p proc') :=
    ⟨rfl, rfl, rfl, reseated.owns, reseated.made, by rw [reseated.ff]⟩
  have inodes : ∀ ip, s.inodeRef ip = shares (s.setProc p proc').inodeOwner ip := by
    intro ip
    rw [(moves.inodes reseated.inode).shares]
    exact ok.counts.inodes ip
  have passed := moves.passed ok.filled inodes
  have own : Own p proc' s (s.setProc p proc') :=
    ⟨rfl, live, reseated.status.trans live, reseated.child⟩
  exact ⟨own, passed.counts ok.counts, passed.filled ok.filled,
    ok.pages.of_same rfl rfl (own.keeps Proc.page reseated.page)⟩

/-- One place for an inode changes, and nothing else. -/
structure Refers (proc proc' : Proc) (var : InodeVar) (held : Option InodePtr) : Prop where
  status : proc'.status = proc.status
  child : proc'.child = proc.child
  made : proc'.made = proc.made
  ends : proc'.ff.bind endOf = proc.ff.bind endOf
  page : proc'.page = proc.page
  owns : proc'.owns = proc.owns
  inode : proc'.inode = Function.update proc.inode var held

theorem addInode_ref (s : State) (ip other : InodePtr) (change : Int) :
    (s.addInode ip change).inodeRef other = s.inodeRef other + if other = ip then change else 0 := by
  by_cases same : other = ip
  · subst same
    simp [State.addInode]
  · simp [State.addInode, same]

/-- A place that had nothing has an inode. -/
theorem Counts.take (counts : Counts s) {owner : FilePtr ⊕ ProcPtr × InodeVar}
    (vacant : s.inodeOwner owner = none) (ip other : InodePtr) :
    s.inodeRef other + (if other = ip then 1 else 0) =
      shares (Function.update s.inodeOwner owner (some ip)) other := by
  rw [shares_take vacant, counts.inodes other]
  generalize shares s.inodeOwner other = count
  by_cases same : other = ip
  · simp [same]
  · simp [same, Ne.symm same]

theorem Refers.kept {var : InodeVar} {held : Option InodePtr} {change : Int}
    (refers : Refers proc proc' var held) (ok : Ok home s) (here : s.proc p = proc)
    (live : proc.status = .live)
    (paid : ∀ other, s.inodeRef other + (if other = ip then change else 0) =
      shares (Function.update s.inodeOwner (.inr (p, var)) held) other) :
    Own p proc' s ((s.addInode ip change).setProc p proc') ∧
      Counts ((s.addInode ip change).setProc p proc') ∧
      Filled ((s.addInode ip change).setProc p proc') ∧
      Pages home ((s.addInode ip change).setProc p proc') := by
  subst here
  have moves : Moves p proc' s ((s.addInode ip change).setProc p proc') :=
    ⟨rfl, rfl, rfl, Or.inl refers.owns, refers.made, refers.ends⟩
  have inodes : ∀ other, ((s.addInode ip change).setProc p proc').inodeRef other =
      shares ((s.addInode ip change).setProc p proc').inodeOwner other := by
    intro other
    rw [moves.inode_update refers.inode, ← paid other]
    exact addInode_ref s ip other change
  have passed := moves.passed ok.filled inodes
  have own : Own p proc' s ((s.addInode ip change).setProc p proc') :=
    ⟨rfl, live, refers.status.trans live, refers.child⟩
  exact ⟨own, passed.counts ok.counts, passed.filled ok.filled,
    ok.pages.of_same rfl rfl (own.keeps Proc.page refers.page)⟩

theorem iput_secured {change : Proc → Proc} {var : InodeVar} (holds : proc.inode var = some ip)
    (refers : Refers proc (change proc) var none) :
    (sharing home).Action p (fun _ view => view = some (change proc, child)) (iput p ip change)
      (some (proc, child)) := by
  apply secured_own
  · intro s message ok here panics
    cases panics
  · intro s value s' ok here live done
    cases done
    rw [here]
    have owner : s.inodeOwner (.inr (p, var)) = some ip := by
      simp only [State.inodeOwner, here, holds]
    have paid : ∀ other, s.inodeRef other + (if other = ip then -1 else 0) =
        shares (Function.update s.inodeOwner (.inr (p, var)) none) other := by
      intro other
      have give := shares_give owner other
      rw [ok.counts.inodes other]
      by_cases same : other = ip
      · subst same
        simp only [if_true] at give ⊢
        omega
      · simp only [same, Ne.symm same, if_false] at give ⊢
        omega
    rcases refers.kept ok here live paid with ⟨own, counts, filled, pages⟩
    exact ⟨_, own, counts, filled, pages, rfl⟩

/-! ## Pages -/

/-- Only a page changes hands. -/
theorem Ok.page_moves (ok : Ok home s) (live : (s.proc p).status = .live) (held : Option UInt32)
    (free : List UInt32) :
    Own p { s.proc p with page := held } s
        ({ s with free := free }.setProc p { s.proc p with page := held }) ∧
      Counts ({ s with free := free }.setProc p { s.proc p with page := held }) ∧
      Filled ({ s with free := free }.setProc p { s.proc p with page := held }) := by
  have moves : Moves p { s.proc p with page := held } s
      ({ s with free := free }.setProc p { s.proc p with page := held }) :=
    ⟨rfl, rfl, rfl, Or.inl rfl, rfl, rfl⟩
  have inodes : ∀ ip, s.inodeRef ip =
      shares ({ s with free := free }.setProc p { s.proc p with page := held }).inodeOwner ip := by
    intro ip
    rw [(moves.inodes (Or.inl rfl)).shares]
    exact ok.counts.inodes ip
  have passed := moves.passed ok.filled inodes
  exact ⟨⟨rfl, live, live, rfl⟩, passed.counts ok.counts, passed.filled ok.filled⟩

theorem kfree_secured (mine : proc.page = some page) :
    (sharing home).Action p (fun _ view => view = some ({ proc with page := none }, child)) (kfree p page)
      (some (proc, child)) := by
  apply secured_own
  · intro s message ok here panics
    cases panics
  · intro s value s' ok here live done
    subst here
    cases done
    rcases ok.page_moves live none (page :: s.free) with ⟨own, counts, filled⟩
    refine ⟨_, own, counts, filled, ?_, rfl⟩
    rcases ok.pages.page p page mine with ⟨outside, unused⟩
    have pages : ∀ q other, (({ s with free := page :: s.free }.setProc p
        { s.proc p with page := none }).proc q).page = some other →
        q ≠ p ∧ (s.proc q).page = some other := by
      intro q other has
      by_cases self : q = p
      · subst self
        simp [State.setProc] at has
      · simp only [State.setProc, Function.update_of_ne self] at has
        exact ⟨self, has⟩
    refine ⟨List.nodup_cons.mpr ⟨outside, ok.pages.nodup⟩, ?_, ok.pages.alive, ?_, ?_, ?_⟩
    · intro other inside
      rcases List.mem_cons.mp inside with rfl | inside
      · exact unused
      · exact ok.pages.free other inside
    · intro q other has
      rcases pages q other has with ⟨different, old⟩
      rcases ok.pages.page q other old with ⟨away, empty⟩
      refine ⟨fun inside => ?_, empty⟩
      rcases List.mem_cons.mp inside with rfl | inside
      · exact different (ok.pages.single p q other mine old)
      · exact away inside
    · intro q r other has has'
      exact ok.pages.single q r other (pages q other has).2 (pages r other has').2
    · intro other
      rw [ok.pages.known other, own.page_split, page_split s p, mine]
      simp only [List.mem_cons, reduceCtorEq, false_or, Option.some.injEq, State.setProc]
      rw [eq_comm (a := page)]
      tauto

/-! ## Using a file -/

/-- A file behind a descriptor has a type when its process is making none. -/
theorem Ok.typed (ok : Ok home s) (mine : (s.proc p).owns x = some f)
    (made : (s.proc p).made = fun _ => none) : (s.file f).type ≠ .none := by
  intro untyped
  have positive := ok.counts.positive mine
  rcases ok.filled.typed f untyped (by omega) with ⟨q, k, making⟩
  by_cases here : q = p
  · subst here
    rw [made] at making
    cases making
  · exact ok.filled.apart ok.counts making mine here rfl

end Xv6.OpenFiles
