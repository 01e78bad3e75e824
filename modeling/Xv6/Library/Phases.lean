import Mathlib.Data.List.Nodup
import Mathlib.Logic.Function.Basic
import Mathlib.Tactic.Common

/-!
# Locks that are taken in two steps

Taking a lock and noting who took it are two steps, and so are striking the
name out and giving the lock back. Between them a lock is neither free nor held.
-/

namespace Xv6.Library

variable {Lock Owner : Type}

inductive Phase (Owner : Type) where
  | free
  /-- Taken, but without the name of its owner. -/
  | taken (owner : Owner)
  | held (owner : Owner)

/-- Nobody else has to do with the lock. -/
def Phase.Of (owner : Owner) : Phase Owner → Prop
  | .free => True
  | .taken other => other = owner
  | .held other => other = owner

@[simp]
theorem Phase.of_free (owner : Owner) : Phase.Of owner .free := trivial

@[simp]
theorem Phase.of_taken {owner other : Owner} : Phase.Of owner (.taken other) ↔ other = owner :=
  Iff.rfl

@[simp]
theorem Phase.of_held {owner other : Owner} : Phase.Of owner (.held other) ↔ other = owner :=
  Iff.rfl

/-- The locks that an owner holds, and the one that it has taken. -/
structure Tracks (phase : Lock → Phase Owner) (owner : Owner) (locks : List Lock)
    (pending : Option Lock) : Prop where
  held : ∀ lock, lock ∈ locks ↔ phase lock = .held owner
  taking : ∀ lock, pending = some lock ↔ phase lock = .taken owner
  nodup : locks.Nodup

/-- Only the locks that are free or belong to the owner change. -/
def Moves (owner : Owner) (phase later : Lock → Phase Owner) : Prop :=
  ∀ lock, later lock = phase lock ∨ (phase lock).Of owner ∧ (later lock).Of owner

theorem Moves.refl (owner : Owner) (phase : Lock → Phase Owner) : Moves owner phase phase :=
  fun _ => Or.inl rfl

theorem Moves.update [DecidableEq Lock] {owner : Owner} {phase : Lock → Phase Owner} {lock : Lock}
    {next : Phase Owner} (old : (phase lock).Of owner) (new : next.Of owner) :
    Moves owner phase (Function.update phase lock next) := by
  intro other
  by_cases same : other = lock
  · subst same
    simp [old, new]
  · simp [same]

/-- A phase that the owner cannot bring about is there after the move if it was there before. -/
theorem Moves.iff {owner : Owner} {phase later : Lock → Phase Owner} {here : Phase Owner}
    (moves : Moves owner phase later) (foreign : ¬here.Of owner) (lock : Lock) :
    phase lock = here ↔ later lock = here := by
  rcases moves lock with same | ⟨old, new⟩
  · rw [same]
  · constructor
    · rintro rfl
      exact absurd old foreign
    · rintro rfl
      exact absurd new foreign

namespace Tracks

variable {phase later : Lock → Phase Owner} {owner other : Owner} {locks : List Lock}
  {pending : Option Lock} {lock : Lock}

/-- Another owner's locks stay as they are. -/
theorem others (tracks : Tracks phase other locks pending) (different : other ≠ owner)
    (moves : Moves owner phase later) : Tracks later other locks pending where
  held := by
    intro lock
    rw [tracks.held]
    exact moves.iff (by simpa using different) lock
  taking := by
    intro lock
    rw [tracks.taking]
    exact moves.iff (by simpa using different) lock
  nodup := tracks.nodup

theorem untaken (tracks : Tracks phase owner locks pending) (different : pending ≠ some lock) :
    phase lock ≠ .taken owner :=
  fun taken => different ((tracks.taking lock).mpr taken)

variable [DecidableEq Lock]

/-- A free lock is taken. -/
theorem take (tracks : Tracks phase owner locks none) (free : phase lock = .free) :
    Tracks (Function.update phase lock (.taken owner)) owner locks (some lock) where
  held := by
    intro other
    by_cases same : other = lock
    · subst same
      simp [tracks.held, free]
    · simp [same, tracks.held]
  taking := by
    intro other
    by_cases same : other = lock
    · simp [same]
    · have nothing : phase other ≠ .taken owner := tracks.untaken nofun
      simp [same, Ne.symm same, nothing]
  nodup := tracks.nodup

/-- The owner of a lock that it has taken is noted. -/
theorem record (tracks : Tracks phase owner locks (some lock)) :
    Tracks (Function.update phase lock (.held owner)) owner (lock :: locks) none where
  held := by
    intro other
    by_cases same : other = lock
    · simp [same]
    · simp [same, tracks.held]
  taking := by
    intro other
    by_cases same : other = lock
    · simp [same]
    · have nothing := tracks.untaken fun here => same (Option.some.inj here).symm
      simp [same, nothing]
  nodup := by
    have taken := (tracks.taking lock).mp rfl
    simp [tracks.held, taken, tracks.nodup]

/-- The name of the owner is struck out. -/
theorem clear (tracks : Tracks phase owner locks none) :
    Tracks (Function.update phase lock (.taken owner)) owner (locks.erase lock) (some lock) where
  held := by
    intro other
    by_cases same : other = lock
    · subst same
      simp [tracks.nodup.not_mem_erase]
    · simp [same, List.mem_erase_of_ne, tracks.held]
  taking := by
    intro other
    by_cases same : other = lock
    · simp [same]
    · have nothing : phase other ≠ .taken owner := tracks.untaken nofun
      simp [same, Ne.symm same, nothing]
  nodup := tracks.nodup.erase lock

/-- A lock without a name is given back. -/
theorem give (tracks : Tracks phase owner locks (some lock)) :
    Tracks (Function.update phase lock .free) owner locks none where
  held := by
    intro other
    by_cases same : other = lock
    · subst same
      simp [tracks.held, (tracks.taking other).mp rfl]
    · simp [same, tracks.held]
  taking := by
    intro other
    by_cases same : other = lock
    · simp [same]
    · have nothing := tracks.untaken fun here => same (Option.some.inj here).symm
      simp [same, nothing]
  nodup := tracks.nodup

end Tracks

end Xv6.Library
