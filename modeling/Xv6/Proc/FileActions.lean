import Xv6.Proc.FileCounts

/-!
# The actions on open files

What each action does to the view of its process, and that it keeps the counts.
-/

namespace Xv6.OpenFiles

open Xv6.Library
open Xv6.Fs (InodePtr)
open Xv6.Fork (nofile nfile FilePtr)
open Xv6.Sched (ProcPtr nproc)
open Xv6.Files (File FileType)

variable {home : Set UInt32} {s s' : State} {p q np : ProcPtr} {proc proc' entry : Proc}
  {child : Option Proc} {f : FilePtr} {x : Fin nofile ⊕ Bool} {k : Bool} {fd : Fin nofile}
  {ip : InodePtr} {page : UInt32} {Value : Type}

/-- An action that changes no entry but that of its process. -/
theorem secured_own {action : State → Outcome State Value}
    {post : Value → Option (Proc × Option Proc) → Prop}
    (panics : ∀ s message, Ok home s → s.proc p = proc → action s ≠ .panic message)
    (ends : ∀ s value s', Ok home s → s.proc p = proc → proc.status = .live →
      action s = .done value s' → ∃ proc', Own p proc' s s' ∧ Counts s' ∧ Filled s' ∧ Pages home s' ∧
        post value (some (proc', child))) :
    (sharing home).Action p post action (some (proc, child)) := by
  intro s ok seen
  rcases view_cases seen with ⟨here, live, kid⟩
  refine ⟨fun message done => absurd done (panics s message ok here), fun value s' done => ?_⟩
  rcases ends s value s' ok here live done with ⟨proc', own, counts, filled, pages, reached⟩
  rcases own.views ok.family with ⟨others, mine⟩
  refine ⟨⟨counts, filled, pages, own.family ok.family⟩, others, ?_⟩
  have view : (sharing home).view p s' = some (proc', child) := by
    rw [← kid, ← here]
    exact mine
  rw [view]
  exact reached

/-! ## Changing a count -/

/-- Only the count of one file changes, and one owner of a process. -/
structure Recount (p : ProcPtr) (proc' : Proc) (f : FilePtr) (ref : Int) (s s' : State) : Prop where
  file : s'.file = Function.update s.file f { s.file f with ref := ref }
  proc : s'.proc = Function.update s.proc p proc'
  inode : proc'.inode = (s.proc p).inode
  ff : proc'.ff = (s.proc p).ff
  page : proc'.page = (s.proc p).page
  inodeRef : s'.inodeRef = s.inodeRef
  pipe : s'.pipe = s.pipe
  free : s'.free = s.free

theorem Recount.self (recount : Recount p proc' f ref s s') :
    s'.file f = { s.file f with ref := ref } := by
  rw [recount.file, Function.update_self]

theorem Recount.other {g : FilePtr} (recount : Recount p proc' f ref s s') (different : g ≠ f) :
    s'.file g = s.file g := by
  rw [recount.file, Function.update_of_ne different]

theorem Recount.fields (recount : Recount p proc' f ref s s') (g : FilePtr) :
    s'.file g = { s.file g with ref := (s'.file g).ref } := by
  by_cases same : g = f
  · subst same
    rw [recount.self]
  · rw [recount.other same]

theorem Recount.keeps {Part : Type} (recount : Recount p proc' f ref s s') (part : Proc → Part)
    (same : part proc' = part (s.proc p)) (q : ProcPtr) : part (s'.proc q) = part (s.proc q) := by
  rw [recount.proc]
  by_cases here : q = p
  · rw [here, Function.update_self, same]
  · rw [Function.update_of_ne here]

theorem Recount.counts {held : Option FilePtr} (recount : Recount p proc' f ref s s')
    (counts : Counts s) (owns : proc'.owns = Function.update (s.proc p).owns x held)
    (here : ref + (if (s.proc p).owns x = some f then 1 else 0) =
      (s.file f).ref + if held = some f then 1 else 0)
    (away : ∀ g, g ≠ f → ((s.proc p).owns x = some g ↔ held = some g)) : Counts s' := by
  have files : ∀ g, inodeOf (s'.file g) = inodeOf (s.file g) ∧ endOf (s'.file g) = endOf (s.file g) := by
    intro g
    rw [recount.fields g]
    exact ⟨rfl, rfl⟩
  refine counts.of_files files (recount.keeps Proc.inode recount.inode)
    (recount.keeps Proc.ff recount.ff) recount.inodeRef recount.pipe fun g => ?_
  have count := counts.files g
  have update := shares_update s.fileOwner (p, x) held g
  rw [← fileOwner_update recount.proc owns] at update
  simp only [State.fileOwner] at update
  by_cases same : g = f
  · subst same
    rw [recount.self]
    by_cases old : (s.proc p).owns x = some g <;> by_cases new : held = some g <;>
      simp only [old, new, if_true, if_false] at update here ⊢ <;> omega
  · rw [recount.other same]
    have both := away g same
    by_cases new : held = some g
    · simp only [both.mpr new, new, if_true] at update
      omega
    · have old : ¬(s.proc p).owns x = some g := fun is => new (both.mp is)
      simp only [old, new, if_false] at update
      omega

theorem Recount.pages (recount : Recount p proc' f ref s s') (pages : Pages home s) : Pages home s' :=
  pages.of_same recount.free recount.pipe (recount.keeps Proc.page recount.page)

/-- A file that another process is about to fill in is not that of `p`. -/
theorem Filled.apart {g : FilePtr} (filled : Filled s) (counts : Counts s) {k : Bool}
    (made : (s.proc q).made k = some g) (mine : (s.proc p).owns x = some f) (different : q ≠ p) :
    g ≠ f := by
  rintro rfl
  rcases filled.made q k g made with ⟨-, one, y, theirs⟩
  exact different (counts.alone one mine theirs).1

theorem Recount.filled (recount : Recount p proc' f ref s s') (filled : Filled s)
    (used : ref ≠ 0) (typed : (s.file f).ref ≠ 0 ∨ ∃ k, proc'.made k = some f)
    (others : ∀ q k, q ≠ p → (s.proc q).made k ≠ some f)
    (kept : ∀ k g, (s.proc p).made k = some g → proc'.made k = some g)
    (mine : ∀ k g, proc'.made k = some g → (s.file g).type = .none ∧ (s'.file g).ref = 1 ∧
      ∃ x, proc'.owns x = some g) : Filled s' where
  closed := by
    intro g zero
    by_cases same : g = f
    · subst same
      rw [recount.self] at zero
      exact absurd zero used
    · rw [recount.other same] at zero ⊢
      exact filled.closed g zero
  made := by
    intro q k g made
    rw [recount.fields g]
    rw [recount.proc] at made ⊢
    by_cases here : q = p
    · subst here
      rw [Function.update_self] at made ⊢
      exact mine k g made
    · rw [Function.update_of_ne here] at made ⊢
      have different : g ≠ f := by
        rintro rfl
        exact others q k here made
      rw [recount.other different]
      exact filled.made q k g made
  typed := by
    intro g untyped inUse
    rw [recount.fields g] at untyped
    have maker : ∀ q k, (s.proc q).made k = some g → (s'.proc q).made k = some g := by
      intro q k made
      rw [recount.proc]
      by_cases here : q = p
      · subst here
        rw [Function.update_self]
        exact kept k g made
      · rw [Function.update_of_ne here]
        exact made
    by_cases same : g = f
    · subst same
      rcases typed with old | ⟨k, made⟩
      · rcases filled.typed g untyped old with ⟨q, k, made⟩
        exact ⟨q, k, maker q k made⟩
      · refine ⟨p, k, ?_⟩
        rw [recount.proc, Function.update_self]
        exact made
    · rw [recount.other same] at inUse
      rcases filled.typed g untyped inUse with ⟨q, k, made⟩
      exact ⟨q, k, maker q k made⟩
  inode := by
    intro g
    rw [recount.fields g]
    exact filled.inode g

/-! ## Allocating and closing files -/

/-- The entry with a new file in a variable. -/
def Proc.hold (proc : Proc) (k : Bool) (f : FilePtr) : Proc :=
  { proc with
    file := Function.update proc.file k (some f)
    made := Function.update proc.made k (some f) }

theorem owns_file {owns : Option FilePtr} (file : proc'.file = Function.update proc.file k owns)
    (ofile : proc'.ofile = proc.ofile) (unpaid : proc'.unpaid = proc.unpaid) :
    proc'.owns = Function.update proc.owns (.inr k) owns := by
  funext y
  cases y with
  | inl fd =>
      rw [Function.update_of_ne (by simp)]
      simp only [Proc.owns, ofile, unpaid]
  | inr other =>
      simp only [Proc.owns, file]
      by_cases same : other = k
      · subst same
        simp
      · rw [Function.update_of_ne same, Function.update_of_ne (by simp [same])]
        rfl

/-- The entries agree but for files and descriptors. -/
structure Alike (proc proc' : Proc) : Prop where
  status : proc'.status = proc.status
  cwd : proc'.cwd = proc.cwd
  cwdGone : proc'.cwdGone = proc.cwdGone
  ip : proc'.ip = proc.ip
  ff : proc'.ff = proc.ff
  page : proc'.page = proc.page
  child : proc'.child = proc.child

theorem Alike.inode (alike : Alike proc proc') : proc'.inode = proc.inode := by
  funext var
  cases var with
  | ip => exact alike.ip
  | ff => exact congrArg (Option.bind · inodeOf) alike.ff
  | cwd => simp only [Proc.inode, alike.cwd, alike.cwdGone]

theorem Alike.own (alike : Alike proc proc') (here : s.proc p = proc) (live : proc.status = .live)
    (procs : s'.proc = Function.update s.proc p proc') : Own p proc' s s' :=
  ⟨procs, here ▸ live, alike.status.trans live, alike.child.trans (here ▸ rfl)⟩

theorem Alike.recount {ref : Int} (alike : Alike proc proc') (here : s.proc p = proc) :
    Recount p proc' f ref s ((s.setFile f { s.file f with ref := ref }).setProc p proc') where
  file := rfl
  proc := rfl
  inode := here ▸ alike.inode
  ff := here ▸ alike.ff
  page := here ▸ alike.page
  inodeRef := rfl
  pipe := rfl
  free := rfl

/-- Where a file is in a variable, it may be one that is not filled in. -/
def Tidy (proc : Proc) : Prop := ∀ k f, proc.made k = some f → proc.file k = some f

theorem release_alike (proc : Proc) (x : Fin nofile ⊕ Bool) : Alike proc (proc.release x) := by
  cases x <;> exact ⟨rfl, rfl, rfl, rfl, rfl, rfl, rfl⟩

theorem release_owns (paid : proc.unpaid = none) :
    (proc.release x).owns = Function.update proc.owns x none := by
  cases x with
  | inr k => exact owns_file rfl rfl rfl
  | inl fd =>
      funext y
      cases y with
      | inr k =>
          rw [Function.update_of_ne (by simp)]
          rfl
      | inl other =>
          by_cases same : other = fd
          · subst same
            simp [Proc.release, Proc.owns]
          · rw [Function.update_of_ne (by simp [same])]
            simp [Proc.release, Proc.owns, Ne.symm same, paid]

theorem release_made {g : FilePtr} (made : (proc.release x).made k = some g) :
    proc.made k = some g ∧ x ≠ .inr k := by
  cases x with
  | inl fd => exact ⟨made, by simp⟩
  | inr other =>
      by_cases same : k = other
      · subst same
        simp [Proc.release] at made
      · simp only [Proc.release, Function.update_of_ne same] at made
        exact ⟨made, fun is => same (Sum.inr.inj is).symm⟩

/-- What `fileclose` still has to close. -/
def Proc.ending (proc : Proc) (x : Fin nofile ⊕ Bool) (ff : File) : Proc :=
  { proc.release x with ff := if ff.type = .none then none else some ff }

theorem ending_bind {Value : Type} (part : File → Option Value) (ff : File)
    (untyped : ff.type = .none → part ff = none) :
    (if ff.type = .none then none else some ff : Option File).bind part = part ff := by
  split
  · rename_i none
    exact (untyped none).symm
  · rfl

theorem inodeOf_untyped {file : File} (untyped : file.type = .none) : inodeOf file = none := by
  simp [inodeOf, untyped]

theorem endOf_untyped {file : File} (untyped : file.type = .none) : endOf file = none := by
  simp [endOf, untyped]

/-- The state when a file has lost its last reference. -/
def State.fileDropped (s : State) (p : ProcPtr) (x : Fin nofile ⊕ Bool) (f : FilePtr) : State :=
  (s.setFile f { s.file f with ref := 0, type := .none }).setProc p
    ((s.proc p).ending x (s.file f))

theorem Counts.fileDropped (counts : Counts s) (paid : (s.proc p).unpaid = none)
    (idle : (s.proc p).ff = none) (mine : (s.proc p).owns x = some f) (one : (s.file f).ref = 1) :
    Counts (s.fileDropped p x f) where
  files := by
    intro g
    have count := counts.files g
    have owns : ((s.proc p).ending x (s.file f)).owns = Function.update (s.proc p).owns x none :=
      release_owns paid
    have owner : (s.fileDropped p x f).fileOwner = Function.update s.fileOwner (p, x) none :=
      fileOwner_update rfl owns
    have give := shares_give (show s.fileOwner (p, x) = some f from mine) g
    rw [owner]
    by_cases same : g = f
    · subst same
      simp only [if_true] at give
      simp only [State.fileDropped, State.setProc, State.setFile, Function.update_self]
      omega
    · simp only [Ne.symm same, if_false] at give
      simp only [State.fileDropped, State.setProc, State.setFile, Function.update_of_ne same]
      omega
  inodes := by
    intro ip
    have first : (s.setFile f { s.file f with ref := 0, type := .none }).inodeOwner =
        Function.update s.inodeOwner (.inl f) none := by
      rw [setFile_inodeOwner, inodeOf_untyped rfl]
    have second : (s.fileDropped p x f).inodeOwner =
        Function.update (s.setFile f { s.file f with ref := 0, type := .none }).inodeOwner
          (.inr (p, .ff)) (s.inodeOwner (.inl f)) := by
      refine setProc_inodeOwner ?_
      funext var
      cases var with
      | ff =>
          rw [Function.update_self]
          exact ending_bind inodeOf _ inodeOf_untyped
      | ip => exact (release_alike (s.proc p) x).ip
      | cwd =>
          rw [Function.update_of_ne (by simp)]
          have alike := release_alike (s.proc p) x
          simp only [Proc.inode, Proc.ending, alike.cwd, alike.cwdGone]
          rfl
    have nothing : s.inodeOwner (.inr (p, .ff)) = none := by
      simp only [State.inodeOwner, Proc.inode, idle]
      rfl
    rw [second, first, shares_pass nothing]
    exact counts.inodes ip
  ends := by
    intro pipeEnd
    have first : (s.setFile f { s.file f with ref := 0, type := .none }).endOwner =
        Function.update s.endOwner (.inl f) none := by
      rw [setFile_endOwner, endOf_untyped rfl]
    have second : (s.fileDropped p x f).endOwner =
        Function.update (s.setFile f { s.file f with ref := 0, type := .none }).endOwner
          (.inr p) (s.endOwner (.inl f)) := by
      rw [← show (if (s.file f).type = .none then none else some (s.file f) : Option File).bind endOf =
        s.endOwner (.inl f) from ending_bind endOf _ endOf_untyped]
      exact setProc_endOwner _ p _
    have nothing : s.endOwner (.inr p) = none := by
      simp only [State.endOwner, idle]
      rfl
    rw [second, first, shares_pass nothing, isOpen_same (show (s.fileDropped p x f).pipe = s.pipe from rfl)]
    exact counts.ends pipeEnd

theorem Filled.fileDropped (filled : Filled s) (counts : Counts s) (paid : (s.proc p).unpaid = none)
    (tidy : Tidy (s.proc p)) (mine : (s.proc p).owns x = some f) (one : (s.file f).ref = 1) :
    Filled (s.fileDropped p x f) where
  closed := by
    intro g zero
    by_cases same : g = f
    · subst same
      simp [State.fileDropped, State.setProc, State.setFile]
    · simp only [State.fileDropped, State.setProc, State.setFile, Function.update_of_ne same] at zero ⊢
      exact filled.closed g zero
  made := by
    intro q k g made
    have other : g ≠ f ∧ ∃ y, ((s.fileDropped p x f).proc q).owns y = some g ∧
        (s.proc q).made k = some g := by
      by_cases here : q = p
      · subst here
        simp only [State.fileDropped, State.setProc, Function.update_self] at made ⊢
        rcases release_made made with ⟨old, apart⟩
        have file : (s.proc q).owns (.inr k) = some g := tidy k g old
        refine ⟨?_, .inr k, ?_, old⟩
        · rintro rfl
          exact apart (counts.alone one file mine).2
        · have owns : ((s.proc q).ending x (s.file f)).owns =
              Function.update (s.proc q).owns x none := release_owns paid
          rw [owns, Function.update_of_ne apart.symm]
          exact file
      · simp only [State.fileDropped, State.setProc, Function.update_of_ne here] at made ⊢
        rcases filled.made q k g made with ⟨-, -, y, owner⟩
        exact ⟨filled.apart counts made mine here, y, owner, made⟩
    rcases other with ⟨different, y, owner, old⟩
    rcases filled.made q k g old with ⟨untyped, only, -⟩
    simp only [State.fileDropped, State.setProc, State.setFile, Function.update_of_ne different]
    exact ⟨untyped, only, y, owner⟩
  typed := by
    intro g untyped used
    by_cases same : g = f
    · subst same
      simp [State.fileDropped, State.setProc, State.setFile] at used
    · simp only [State.fileDropped, State.setProc, State.setFile, Function.update_of_ne same]
        at untyped used
      rcases filled.typed g untyped used with ⟨q, k, made⟩
      refine ⟨q, k, ?_⟩
      by_cases here : q = p
      · subst here
        simp only [State.fileDropped, State.setProc, Function.update_self]
        cases x with
        | inl fd => exact made
        | inr other =>
            have different : k ≠ other := by
              rintro rfl
              have file : (s.proc q).file k = some f := mine
              have again := tidy k g made
              rw [file, Option.some.injEq] at again
              exact same again.symm
            simpa [Proc.ending, Proc.release, different] using made
      · simp only [State.fileDropped, State.setProc, Function.update_of_ne here]
        exact made
  inode := by
    intro g
    by_cases same : g = f
    · subst same
      simp [State.fileDropped, State.setProc, State.setFile]
    · simp only [State.fileDropped, State.setProc, State.setFile, Function.update_of_ne same]
      exact filled.inode g

theorem fileput_secured (paid : proc.unpaid = none) (idle : proc.ff = none) (tidy : Tidy proc)
    (mine : proc.owns x = some f) :
    (sharing home).Action p
      (fun result view => match result with
        | none => view = some (proc.release x, child)
        | some ff => view = some (proc.ending x ff, child) ∧ (ff.type = .inode → ff.ip ≠ none))
      (fileput p x f) (some (proc, child)) := by
  apply secured_own
  · intro s message ok here panics
    have positive := ok.counts.positive (x := x) (f := f) (p := p) (here ▸ mine)
    simp only [fileput] at panics
    rw [if_neg (by omega)] at panics
    split at panics <;> cases panics
  · intro s value s' ok here live done
    have mine' : (s.proc p).owns x = some f := here ▸ mine
    have positive := ok.counts.positive mine'
    simp only [fileput] at done
    rw [if_neg (by omega), here] at done
    have alike := release_alike proc x
    have owns := release_owns (x := x) paid
    -- a variable with a file that is not filled in has the only reference to it
    have only : ∀ k, proc.made k = some f → x = .inr k := by
      intro k made
      have made' : (s.proc p).made k = some f := here ▸ made
      have file : (s.proc p).owns (.inr k) = some f := by
        rw [here]
        exact tidy k f made
      exact (ok.counts.alone (ok.filled.made p k f made').2.1 file mine').2
    split at done
    · rename_i more
      cases done
      have recount : Recount p (proc.release x) f ((s.file f).ref - 1) s _ := alike.recount here
      refine ⟨proc.release x, alike.own here live rfl,
        recount.counts ok.counts (by rw [here]; exact owns) ?_ ?_, recount.filled ok.filled (by omega)
          (Or.inl (by omega)) ?_ ?_ ?_, recount.pages ok.pages, rfl⟩
      · rw [mine']
        simp
      · intro g different
        rw [mine']
        simp [Ne.symm different]
      · intro q k different made
        exact ok.filled.apart ok.counts made mine' different rfl
      · intro k g made
        rw [here] at made
        have apart : x ≠ .inr k := by
          rintro rfl
          have file : proc.file k = some f := mine
          have same := tidy k g made
          rw [file, Option.some.injEq] at same
          subst same
          have one := (ok.filled.made p k f (here ▸ made)).2.1
          omega
        cases x with
        | inl fd => exact made
        | inr other =>
            have different : k ≠ other := fun is => apart (is ▸ rfl)
            simpa [Proc.release, different] using made
      · intro k g made
        rcases release_made made with ⟨old, apart⟩
        have file := tidy k g old
        rcases ok.filled.made p k g (here ▸ old) with ⟨untyped, one, -⟩
        have different : g ≠ f := by
          rintro rfl
          exact apart (only k old)
        refine ⟨untyped, by rw [recount.other different]; exact one, .inr k, ?_⟩
        rw [owns, Function.update_of_ne apart.symm]
        exact file
    · rename_i last
      have one : (s.file f).ref = 1 := by omega
      cases done
      have same : s.fileDropped p x f =
          (s.setFile f { s.file f with ref := 0, type := .none }).setProc p
            (proc.ending x (s.file f)) := by
        rw [State.fileDropped, here]
      have counts := ok.counts.fileDropped (p := p) (x := x) (f := f) (by rw [here]; exact paid)
        (by rw [here]; exact idle) mine' one
      have filled := ok.filled.fileDropped (p := p) (x := x) (f := f) ok.counts (by rw [here]; exact paid)
        (by rw [here]; exact tidy) mine' one
      rw [same] at counts filled
      have own : Own p (proc.ending x (s.file f)) s
          ((s.setFile f { s.file f with ref := 0, type := .none }).setProc p
            (proc.ending x (s.file f))) :=
        ⟨rfl, here ▸ live, alike.status.trans live, alike.child.trans (here ▸ rfl)⟩
      refine ⟨_, own, counts, filled, ok.pages.of_same rfl rfl ?_, rfl, ok.filled.inode f⟩
      exact own.keeps Proc.page (alike.page.trans (here ▸ rfl))

end Xv6.OpenFiles
