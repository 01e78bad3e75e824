import Xv6.Proc.FileChildren

/-!
# The system calls on open files

What each of them leaves behind, on every path through it.
-/

namespace Xv6.OpenFiles

open Xv6.Library
open Xv6.Fs (InodePtr)
open Xv6.Fork (nofile nfile FilePtr)
open Xv6.Sched (ProcPtr nproc)
open Xv6.Files (File FileType)

variable {home : Set UInt32} {s s' : State} {p q np : ProcPtr} {proc proc' entry : Proc}
  {child : Option Proc} {f f0 f1 : FilePtr} {x : Fin nofile ⊕ Bool} {k : Bool} {fd : Fin nofile}
  {i : Fin nofile} {ip : InodePtr} {page : UInt32} {Value : Type}

/-- In no call, or not running. -/
def Ready (view : Option (Proc × Option Proc)) : Prop :=
  view = none ∨ ∃ proc, view = some (proc, none) ∧ Idle proc

theorem Ready.idle (idle : Idle proc) : Ready (some (proc, none)) :=
  Or.inr ⟨proc, rfl, idle⟩

theorem Ready.later {view later : Option (Proc × Option Proc)} (ready : Ready view)
    (others : Rely view later) : Ready later := by
  rcases others with rfl | ⟨rfl, proc, rfl, idle⟩
  · exact ready
  · exact Ready.idle idle

theorem pipeclose_secures {ff : File} (closing : proc.ff = some ff) (kind : ff.type = .pipe)
    (empty : proc.page = none) :
    (sharing home).Secures p (fun _ view => view = some ({ proc with ff := none }, child))
      (pipeclose p ff.pipe ff.writable) (some (proc, child)) := by
  refine Sharing.Secures.act (steady _) (closeEnd_secured closing kind empty) fun last later is => ?_
  subst is
  cases last with
  | false =>
      refine Sharing.Secures.ret (steady _) ?_
      rw [← empty]
      rfl
  | true =>
      refine Sharing.Secures.mono (Sharing.Secures.atom (steady _) (kfree_secured rfl) ?_)
        fun _ later is => ?_
      · rintro _ later rfl
        exact steady _
      · rw [is, ← empty]

theorem ending_closed (idle : proc.ff = none) (ff : File) :
    ({ proc.ending x ff with ff := none } : Proc) = proc.release x := by
  cases x <;> simp [Proc.ending, Proc.release, idle]

theorem fileclose_secures (paid : proc.unpaid = none) (idle : proc.ff = none)
    (empty : proc.page = none) (tidy : Tidy proc) (mine : proc.owns x = some f) :
    (sharing home).Secures p (fun _ view => view = some (proc.release x, child)) (fileclose p x f)
      (some (proc, child)) := by
  refine Sharing.Secures.act (steady _) (fileput_secured paid idle tidy mine) fun result later is => ?_
  cases result with
  | none =>
      dsimp only at is
      subst is
      exact Sharing.Secures.ret (steady _) rfl
  | some ff =>
      rcases is with ⟨rfl, found⟩
      have alike := release_alike proc x
      have closed := ending_closed (x := x) idle ff
      cases kind : ff.type with
      | none =>
          simp only [kind]
          refine Sharing.Secures.ret (steady _) ?_
          rw [← closed]
          simp [Proc.ending, kind]
      | pipe =>
          have closing : (proc.ending x ff).ff = some ff := by simp [Proc.ending, kind]
          have secured : (sharing home).Secures p
              (fun _ view => view = some (({ proc.ending x ff with ff := none } : Proc), child))
              (pipeclose p ff.pipe ff.writable) (some (proc.ending x ff, child)) :=
            pipeclose_secures closing kind (alike.page.trans empty)
          rw [closed] at secured
          simpa only [kind] using secured
      | inode =>
          cases holds : ff.ip with
          | none => exact absurd holds (found kind)
          | some ip =>
              have owned : (proc.ending x ff).inode .ff = some ip := by
                simp [Proc.ending, Proc.inode, inodeOf, kind, holds]
              have refers : Refers (proc.ending x ff) { proc.ending x ff with ff := none } .ff none := by
                refine ⟨rfl, rfl, rfl, ?_, rfl, rfl, ?_⟩
                · simp [Proc.ending, endOf, kind]
                · funext var
                  cases var <;> rfl
              have secured : (sharing home).Action p
                  (fun _ view => view = some (({ proc.ending x ff with ff := none } : Proc), child))
                  (iput p ip fun proc => { proc with ff := none }) (some (proc.ending x ff, child)) :=
                iput_secured owned refers
              rw [closed] at secured
              simp only [kind, holds]
              refine Sharing.Secures.atom (steady _) secured ?_
              rintro _ later rfl
              exact steady _

/-! ## System calls -/

/-- In a call, with these variables. -/
structure InCall (proc : Proc) (file made : Bool → Option FilePtr) (ip : Option InodePtr)
    (page : Option UInt32) : Prop where
  live : proc.status = .live
  cwd : proc.cwd ≠ none
  unpaid : proc.unpaid = none
  cwdGone : proc.cwdGone = false
  ff : proc.ff = none
  child : proc.child = none
  file : proc.file = file
  made : proc.made = made
  ip : proc.ip = ip
  page : proc.page = page

namespace InCall

variable {file made : Bool → Option FilePtr} {found : Option InodePtr} {held : Option UInt32}

theorem idle (call : InCall proc file made none none) (nothing : ∀ k, file k = none)
    (none : ∀ k, made k = none) : Idle proc :=
  ⟨call.live, ⟨call.unpaid, call.cwdGone, call.file.trans (funext nothing),
    call.made.trans (funext none), call.ip, call.ff, call.page, call.child⟩, call.cwd⟩

theorem release (call : InCall proc file made found held) (k : Bool) :
    InCall (proc.release (.inr k)) (Function.update file k none) (Function.update made k none)
      found held :=
  ⟨call.live, call.cwd, call.unpaid, call.cwdGone, call.ff, call.child, by rw [← call.file]; rfl,
    by rw [← call.made]; rfl, call.ip, call.page⟩

theorem hold (call : InCall proc file made found held) (k : Bool) (f : FilePtr) :
    InCall (proc.hold k f) (Function.update file k (some f)) (Function.update made k (some f))
      found held :=
  ⟨call.live, call.cwd, call.unpaid, call.cwdGone, call.ff, call.child, by rw [← call.file]; rfl,
    by rw [← call.made]; rfl, call.ip, call.page⟩

theorem install (call : InCall proc file made found held) (k : Bool)
    (ofile : Fin nofile → Option FilePtr) :
    InCall (install k { proc with ofile := ofile }) (Function.update file k none) made found held :=
  ⟨call.live, call.cwd, call.unpaid, call.cwdGone, call.ff, call.child, by rw [← call.file]; rfl,
    call.made, call.ip, call.page⟩

theorem take (call : InCall proc file made found held) (k : Bool) (f : FilePtr)
    (ofile : Fin nofile → Option FilePtr) :
    InCall { proc with ofile := ofile, file := Function.update proc.file k (some f) }
      (Function.update file k (some f)) made found held :=
  ⟨call.live, call.cwd, call.unpaid, call.cwdGone, call.ff, call.child, by rw [← call.file],
    call.made, call.ip, call.page⟩

theorem tidy (call : InCall proc file made found held)
    (same : ∀ k f, made k = some f → file k = some f) : Tidy proc := by
  intro k f
  rw [call.made, call.file]
  exact same k f

theorem fileclose (call : InCall proc file made found none)
    (same : ∀ k f, made k = some f → file k = some f) (mine : file k = some f) :
    (sharing home).Secures p (fun _ view => view = some (proc.release (.inr k), child))
      (fileclose p (.inr k) f) (some (proc, child)) := by
  refine fileclose_secures call.unpaid call.ff call.page (call.tidy same) ?_
  rw [Proc.owns, call.file]
  exact mine

end InCall

end Xv6.OpenFiles
