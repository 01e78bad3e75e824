import Xv6.Proc.FileCalls

/-!
# Open files in every run

Whatever calls the processes make, and in whatever order their actions come.
-/

namespace Xv6.OpenFiles

open Xv6.Library
open Xv6.Fs (InodePtr)
open Xv6.Fork (nofile nfile FilePtr)
open Xv6.Sched (ProcPtr nproc)
open Xv6.Files (File FileType)

variable {home : Set UInt32} {s : State} {initproc : ProcPtr} {root : InodePtr}

/-- After `userinit`: the first process, with a current directory and no files. -/
structure Booted (initproc : ProcPtr) (root : InodePtr) (s : State) : Prop where
  file : ∀ f, (s.file f).ref = 0 ∧ (s.file f).type = .none
  first : s.proc initproc = { blank .live with cwd := some root }
  others : ∀ p, p ≠ initproc → s.proc p = blank .unused
  inodeRef : ∀ ip, s.inodeRef ip = if ip = root then 1 else 0
  pipe : ∀ page, s.pipe page = none
  free : s.free.Nodup

theorem Booted.entries (booted : Booted initproc root s) (p : ProcPtr) :
    s.proc p = { blank .live with cwd := some root } ∧ p = initproc ∨ s.proc p = blank .unused := by
  by_cases first : p = initproc
  · exact Or.inl ⟨first ▸ booted.first, first⟩
  · exact Or.inr (booted.others p first)

theorem Booted.ready (booted : Booted initproc root s) (p : ProcPtr) : Ready (s.view p) := by
  rcases booted.entries p with ⟨entry, -⟩ | entry
  · refine Or.inr ⟨s.proc p, ?_, ?_⟩
    · simp only [State.view, entry]
      rfl
    · rw [entry]
      exact ⟨rfl, ⟨rfl, rfl, rfl, rfl, rfl, rfl, rfl, rfl⟩, by simp⟩
  · refine Or.inl ?_
    simp only [State.view, entry]
    rfl

theorem Booted.counts (booted : Booted initproc root s) : Counts s where
  files := by
    intro f
    rw [(booted.file f).1, shares_eq_zero]
    · rfl
    · rintro ⟨p, x⟩
      rw [State.fileOwner]
      rcases booted.entries p with ⟨entry, -⟩ | entry <;> simp only [entry] <;>
        cases x <;> simp [Proc.owns, blank]
  inodes := by
    intro ip
    have owners : s.inodeOwner =
        Function.update (fun _ => none) (.inr (initproc, .cwd)) (some root) := by
      funext owner
      cases owner with
      | inl f =>
          rw [Function.update_of_ne (by simp)]
          exact inodeOf_untyped (booted.file f).2
      | inr place =>
          rcases place with ⟨p, var⟩
          rw [State.inodeOwner]
          rcases booted.entries p with ⟨entry, rfl⟩ | entry
          · rw [entry]
            cases var with
            | ip => simp [Proc.inode, blank]
            | ff => simp [Proc.inode, blank]
            | cwd => simp [Proc.inode, blank]
          · have different : p ≠ initproc := by
              rintro rfl
              rw [booted.first] at entry
              cases congrArg Proc.status entry
            rw [entry, Function.update_of_ne (by simp [different])]
            cases var <;> simp [Proc.inode, blank]
    rw [booted.inodeRef, owners, shares_take rfl, shares_eq_zero (by simp)]
    by_cases same : ip = root
    · simp [same]
    · simp [same, Ne.symm same]
  ends := by
    intro pipeEnd
    have shut : s.isOpen pipeEnd = false := by simp [State.isOpen, booted.pipe]
    rw [shut, shares_eq_zero]
    · rfl
    · rintro (f | p)
      · simp [State.endOwner, endOf_untyped (booted.file f).2]
      · rw [State.endOwner]
        rcases booted.entries p with ⟨entry, -⟩ | entry <;> simp [entry, blank]

theorem Booted.ok (booted : Booted initproc root s) : Ok {page | page ∈ s.free} s := by
  have calm : ∀ p, (s.proc p).made = (fun _ => none) ∧ (s.proc p).page = none ∧
      (s.proc p).child = none := by
    intro p
    rcases booted.entries p with ⟨entry, -⟩ | entry <;> simp only [entry] <;> exact ⟨rfl, rfl, rfl⟩
  refine ⟨booted.counts, ⟨fun f _ => (booted.file f).2, ?_, ?_, ?_⟩,
    ⟨booted.free, fun page _ => booted.pipe page, ?_, ?_, ?_, ?_⟩, ⟨?_, ?_, ?_⟩⟩
  · intro p k f making
    rw [(calm p).1] at making
    cases making
  · intro f _ used
    exact absurd (booted.file f).1 used
  · intro f typed
    rw [(booted.file f).2] at typed
    cases typed
  · intro page ends found
    rw [booted.pipe] at found
    cases found
  · intro p page has
    rw [(calm p).2.1] at has
    cases has
  · intro p q page has
    rw [(calm p).2.1] at has
    cases has
  · intro page
    simp [booted.pipe, (calm _).2.1]
  · intro p stopped
    rcases booted.entries p with ⟨entry, -⟩ | entry <;> rw [entry] at stopped ⊢
    · simp [blank] at stopped
    · rfl
  · intro p q unborn
    rcases booted.entries q with ⟨entry, -⟩ | entry <;> rw [entry] at unborn <;> cases unborn
  · intro p q is
    rw [(calm p).2.2] at is
    cases is

variable {start system : Parallel ProcPtr State}
  {events : List (Parallel.Event ProcPtr Call)}

theorem files_pos : 0 < nofile := by decide

theorem files_two : 1 < nofile := by decide

def readEnd : Fin nofile := ⟨0, files_pos⟩

def writeEnd : Fin nofile := ⟨1, files_two⟩

end Xv6.OpenFiles
