import Xv6.Proc.FileMoves

/-!
# What a file becomes

`sys_open` and `pipealloc` fill a file in, and `pipeclose` closes an end of a pipe.
-/

namespace Xv6.OpenFiles

open Xv6.Library
open Xv6.Fs (InodePtr)
open Xv6.Fork (nofile nfile FilePtr)
open Xv6.Sched (ProcPtr nproc)
open Xv6.Files (File FileType)

variable {home : Set UInt32} {s s' : State} {p q : ProcPtr} {proc proc' : Proc}
  {child : Option Proc} {f f0 f1 : FilePtr} {x : Fin nofile ⊕ Bool} {k : Bool} {fd : Fin nofile}
  {ip : InodePtr} {page : UInt32} {Value : Type}

/-- The end that a process is about to close is open. -/
theorem Counts.end_open (counts : Counts s) {ff : File} (closing : (s.proc p).ff = some ff)
    (pipe : ff.type = .pipe) : s.isOpen (ff.pipe, ff.writable) = true := by
  have owner : s.endOwner (.inr p) = some (ff.pipe, ff.writable) := by
    simp [State.endOwner, closing, endOf, pipe]
  have count := counts.ends (ff.pipe, ff.writable)
  have positive := shares_pos owner
  by_contra shut
  rw [if_neg shut] at count
  omega

/-- What is left of a pipe when one end is closed, and who has its page then. -/
structure Closed (p : ProcPtr) (ff : File) (left : Option PipeEnds) (s s' : State) : Prop where
  own : Own p { s.proc p with ff := none, page := if left = none then some ff.pipe else none } s s'
  file : s'.file = s.file
  inodeRef : s'.inodeRef = s.inodeRef
  free : s'.free = s.free
  pipe : s'.pipe = Function.update s.pipe ff.pipe left
  isOpen : ∀ writable, s'.isOpen (ff.pipe, writable) =
    if writable = ff.writable then false else s.isOpen (ff.pipe, writable)
  alive : ∀ ends, left = some ends → ends.readopen = true ∨ ends.writeopen = true

theorem Closed.counts {ff : File} {left : Option PipeEnds} (closed : Closed p ff left s s')
    (counts : Counts s) (closing : (s.proc p).ff = some ff) (kind : ff.type = .pipe) : Counts s' where
  files := by
    intro f
    rw [closed.file, fileOwner_same (closed.own.keeps Proc.owns rfl)]
    exact counts.files f
  inodes := by
    intro ip
    rw [closed.inodeRef, inodeOwner_same (fun f => by rw [closed.file]) (closed.own.keeps Proc.inode ?_)]
    · exact counts.inodes ip
    · funext var
      cases var with
      | ip => rfl
      | ff => simp [Proc.inode, closing, inodeOf, kind]
      | cwd => rfl
  ends := by
    intro pipeEnd
    have owner : s.endOwner (.inr p) = some (ff.pipe, ff.writable) := by
      simp [State.endOwner, closing, endOf, kind]
    have give := shares_give owner pipeEnd
    have opened := counts.end_open closing kind
    rw [counts.ends pipeEnd] at give
    rw [endOwner_proc (fun f => by rw [closed.file]) closed.own.proc]
    simp only [Option.bind_none]
    rcases pipeEnd with ⟨page, writable⟩
    by_cases same : page = ff.pipe
    · subst same
      rw [closed.isOpen]
      by_cases mine : writable = ff.writable
      · subst mine
        simp only [if_true, opened] at give
        simp only [if_true, Bool.false_eq_true, if_false]
        omega
      · simp only [Prod.mk.injEq, true_and, Ne.symm mine, if_false] at give
        simp only [mine, if_false]
        exact give
    · have kept : s'.isOpen (page, writable) = s.isOpen (page, writable) := by
        simp [State.isOpen, closed.pipe, same]
      simp only [Prod.mk.injEq, Ne.symm same, false_and, if_false] at give
      rw [kept]
      exact give

theorem Closed.filled {ff : File} {left : Option PipeEnds} (closed : Closed p ff left s s')
    (filled : Filled s) : Filled s' where
  closed := by
    rw [closed.file]
    exact filled.closed
  made q k f making := by
    rw [closed.own.keeps Proc.made rfl] at making
    rw [closed.file, closed.own.keeps Proc.owns rfl]
    exact filled.made q k f making
  typed f untyped used := by
    rw [closed.file] at untyped used
    rcases filled.typed f untyped used with ⟨q, k, making⟩
    refine ⟨q, k, ?_⟩
    rw [closed.own.keeps Proc.made rfl]
    exact making
  inode := by
    rw [closed.file]
    exact filled.inode

theorem Closed.pages {ff : File} {left : Option PipeEnds} {ends : PipeEnds}
    (closed : Closed p ff left s s') (pages : Pages home s) (found : s.pipe ff.pipe = some ends)
    (empty : (s.proc p).page = none) : Pages home s' := by
  have used : ∀ page, s.pipe page = none → page ≠ ff.pipe := by
    rintro page unused rfl
    rw [found] at unused
    cases unused
  have held : ∀ q page, (s'.proc q).page = some page →
      (q = p ∧ page = ff.pipe ∧ left = none) ∨ q ≠ p ∧ (s.proc q).page = some page := by
    intro q page has
    by_cases here : q = p
    · subst here
      rw [closed.own.self] at has
      cases left with
      | none =>
          simp only [if_true, Option.some.injEq] at has
          exact Or.inl ⟨rfl, has.symm, rfl⟩
      | some rest => simp at has
    · rw [closed.own.other here] at has
      exact Or.inr ⟨here, has⟩
  refine ⟨closed.free ▸ pages.nodup, ?_, ?_, ?_, ?_, ?_⟩
  · intro page inside
    rw [closed.free] at inside
    have unused := pages.free page inside
    rw [closed.pipe, Function.update_of_ne (used page unused)]
    exact unused
  · intro page rest is
    rw [closed.pipe] at is
    by_cases same : page = ff.pipe
    · subst same
      rw [Function.update_self] at is
      exact closed.alive rest is
    · rw [Function.update_of_ne same] at is
      exact pages.alive page rest is
  · intro q page has
    rw [closed.free, closed.pipe]
    rcases held q page has with ⟨-, rfl, rfl⟩ | ⟨-, old⟩
    · refine ⟨fun inside => used _ (pages.free _ inside) rfl, ?_⟩
      rw [Function.update_self]
    · rcases pages.page q page old with ⟨outside, unused⟩
      rw [Function.update_of_ne (used page unused)]
      exact ⟨outside, unused⟩
  · intro q r page has has'
    rcases held q page has with ⟨rfl, rfl, -⟩ | ⟨-, old⟩ <;>
      rcases held r _ has' with ⟨rfl, same, -⟩ | ⟨-, old'⟩
    · rfl
    · exact absurd rfl (used _ (pages.page r _ old').2)
    · exact absurd same (used _ (pages.page q _ old).2)
    · exact pages.single q r page old old'
  · intro page
    rw [pages.known page, closed.own.page_split, page_split s p, closed.free, closed.pipe, empty]
    by_cases same : page = ff.pipe
    · subst same
      cases left with
      | none => simp [found]
      | some rest => simp [found]
    · cases left with
      | none => simp [same, Ne.symm same]
      | some rest => simp [same]

/-- The ends that are left when one is closed. -/
def PipeEnds.close (ends : PipeEnds) (writable : Bool) : PipeEnds :=
  if writable = true then { ends with writeopen := false } else { ends with readopen := false }

theorem closeEnd_eq {ends : PipeEnds} (p : ProcPtr) (writable : Bool)
    (found : s.pipe page = some ends) :
    closeEnd p page writable s =
      if (ends.close writable).readopen = false ∧ (ends.close writable).writeopen = false then
        .done true ({ s with pipe := Function.update s.pipe page none }.setProc p
          { s.proc p with ff := none, page := some page })
      else
        .done false
          ({ s with pipe := Function.update s.pipe page (some (ends.close writable)) }.setProc p
            { s.proc p with ff := none }) := by
  simp only [closeEnd, found]
  rfl

theorem closeEnd_closed {ff : File} {ends : PipeEnds} {value : Bool}
    (found : s.pipe ff.pipe = some ends) (empty : (s.proc p).page = none)
    (live : (s.proc p).status = .live)
    (done : closeEnd p ff.pipe ff.writable s = .done value s') :
    ∃ left, Closed p ff left s s' ∧ value = decide (left = none) := by
  have before : ∀ writable, s.isOpen (ff.pipe, writable) =
      if writable = true then ends.writeopen else ends.readopen := by
    intro writable
    simp [State.isOpen, found]
  rw [closeEnd_eq p ff.writable found] at done
  split at done
  · rename_i shut
    cases done
    refine ⟨none, ⟨⟨rfl, live, live, rfl⟩, rfl, rfl, rfl, rfl, fun writable => ?_, by simp⟩, rfl⟩
    have after : ({ s with pipe := Function.update s.pipe ff.pipe none }.setProc p
        { s.proc p with ff := none, page := some ff.pipe }).isOpen (ff.pipe, writable) = false := by
      simp [State.isOpen, State.setProc]
    rw [after, before]
    cases writable <;> cases side : ff.writable <;> simp_all [PipeEnds.close]
  · rename_i opened
    cases done
    refine ⟨some (ends.close ff.writable), ⟨⟨?_, live, live, rfl⟩, rfl, rfl, rfl, rfl,
      fun writable => ?_, fun rest is => ?_⟩, rfl⟩
    · simp [State.setProc, empty]
    · rw [before]
      simp only [State.isOpen, State.setProc, Function.update_self]
      cases writable <;> cases side : ff.writable <;> simp [PipeEnds.close]
    · cases is
      rw [not_and_or, Bool.not_eq_false, Bool.not_eq_false] at opened
      exact opened

theorem closeEnd_secured {ff : File} (closing : proc.ff = some ff) (kind : ff.type = .pipe)
    (empty : proc.page = none) :
    (sharing home).Action p
      (fun last view => view = some
        ({ proc with ff := none, page := if last = true then some ff.pipe else none }, child))
      (closeEnd p ff.pipe ff.writable) (some (proc, child)) := by
  apply secured_own
  · intro s message ok here panics
    subst here
    have opened := ok.counts.end_open closing kind
    cases found : s.pipe ff.pipe with
    | none => simp [State.isOpen, found] at opened
    | some ends =>
        rw [closeEnd_eq p ff.writable found] at panics
        split at panics <;> cases panics
  · intro s value s' ok here live done
    subst here
    have opened := ok.counts.end_open closing kind
    cases found : s.pipe ff.pipe with
    | none => simp [State.isOpen, found] at opened
    | some ends =>
        rcases closeEnd_closed found empty live done with ⟨left, closed, rfl⟩
        refine ⟨_, closed.own, closed.counts ok.counts closing kind, closed.filled ok.filled,
          closed.pages ok.pages found empty, ?_⟩
        simp

end Xv6.OpenFiles
