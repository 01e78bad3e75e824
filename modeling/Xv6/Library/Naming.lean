import Mathlib.Data.Set.Card
import Mathlib.Logic.Relation
import Mathlib.Tactic.Common

/-!
# Trees of names

Directories bind names to nodes. A directory has a name for itself and one for
the directory above it, and a node counts the names that it has, but for the one
that a directory has for itself. A node that counts no names is in nobody's way:
what it binds does not matter any more.
-/

namespace Xv6.Library

variable {Kind Node Name : Type}

/-- The kinds and names that mean something, and the directory at the top. -/
structure Scheme (Kind Node Name : Type) where
  free : Kind
  directory : Kind
  self : Name
  up : Name
  root : Node
  kinds : directory ≠ free
  names : self ≠ up

/-- What every node is, how many names it counts, and what it binds if it is a directory. -/
structure Naming (Kind Node Name : Type) where
  kind : Node → Kind
  links : Node → Nat
  entry : Node → Name → Option Node

namespace Scheme

variable (scheme : Scheme Kind Node Name) (naming : Naming Kind Node Name)

/-- The node is in use and has names. -/
def Live (i : Node) : Prop := naming.kind i ≠ scheme.free ∧ naming.links i ≠ 0

/-- A directory that has names. -/
def IsDirectory (d : Node) : Prop := naming.kind d = scheme.directory ∧ naming.links d ≠ 0

/-- A name that a directory does not have from the beginning. -/
def Plain (name : Name) : Prop := name ≠ scheme.self ∧ name ≠ scheme.up

/-- The names of a node that count. -/
def places (i : Node) : Set (Node × Name) :=
  {place | scheme.IsDirectory naming place.1 ∧ place.2 ≠ scheme.self ∧
    naming.entry place.1 place.2 = some i}

/-- Directory `d` has a plain name for node `i`. -/
def Below (d i : Node) : Prop :=
  scheme.IsDirectory naming d ∧ ∃ name, scheme.Plain name ∧ naming.entry d name = some i

/-- The node is reached from the root by plain names. -/
def Reached (i : Node) : Prop := Relation.ReflTransGen (scheme.Below naming) scheme.root i

/-- No name leads to a node that counts no names. -/
structure Closed : Prop where
  root : scheme.IsDirectory naming scheme.root
  closed : ∀ {d name i}, scheme.IsDirectory naming d → naming.entry d name = some i →
    scheme.Live naming i

/-- The directories are a tree below the root, and the nodes count the names they have. -/
structure Consistent : Prop extends scheme.Closed naming where
  self : ∀ {d}, scheme.IsDirectory naming d → naming.entry d scheme.self = some d
  up : ∀ {d}, scheme.IsDirectory naming d → ∃ above, naming.entry d scheme.up = some above ∧
    scheme.IsDirectory naming above
  top : naming.entry scheme.root scheme.up = some scheme.root
  above : ∀ {d name c}, scheme.IsDirectory naming d → scheme.Plain name →
    naming.entry d name = some c → scheme.IsDirectory naming c →
      c ≠ scheme.root ∧ naming.entry c scheme.up = some d
  once : ∀ {d first second c}, scheme.IsDirectory naming d → scheme.Plain first →
    scheme.Plain second → naming.entry d first = some c → naming.entry d second = some c →
      scheme.IsDirectory naming c → first = second
  counted : ∀ {i}, scheme.Live naming i → (scheme.places naming i).encard = naming.links i
  reached : ∀ {i}, scheme.Live naming i → scheme.Reached naming i

variable {scheme naming}

theorem IsDirectory.live {d : Node} (directory : scheme.IsDirectory naming d) :
    scheme.Live naming d := ⟨directory.1 ▸ scheme.kinds, directory.2⟩

theorem mem_places {i d : Node} {name : Name} :
    (d, name) ∈ scheme.places naming i ↔ scheme.IsDirectory naming d ∧ name ≠ scheme.self ∧
      naming.entry d name = some i := Iff.rfl

theorem Plain.mem_places {i d : Node} {name : Name} (plain : scheme.Plain name)
    (directory : scheme.IsDirectory naming d) (entry : naming.entry d name = some i) :
    (d, name) ∈ scheme.places naming i := ⟨directory, plain.1, entry⟩

namespace Consistent

variable (consistent : scheme.Consistent naming) {d i : Node} {name : Name}
include consistent

/-- A name that is not bound is plain. -/
theorem plain (directory : scheme.IsDirectory naming d) (unbound : naming.entry d name = none) :
    scheme.Plain name := by
  constructor
  · rintro rfl
    rw [consistent.self directory] at unbound
    cases unbound
  · rintro rfl
    obtain ⟨above, bound, -⟩ := consistent.up directory
    rw [bound] at unbound
    cases unbound

/-- A directory other than the root has a plain name in the directory above it. -/
theorem named (directory : scheme.IsDirectory naming d) (other : d ≠ scheme.root) :
    ∃ above name, scheme.IsDirectory naming above ∧ scheme.Plain name ∧
      naming.entry above name = some d ∧ naming.entry d scheme.up = some above := by
  obtain same | ⟨above, -, isDirectory, name, plain, entry⟩ :=
    Relation.ReflTransGen.cases_tail (consistent.reached directory.live)
  · exact absurd same other
  · exact ⟨above, name, isDirectory, plain, entry,
      (consistent.above isDirectory plain entry directory).2⟩

/-- Only the root is above itself. -/
theorem plain_other (directory : scheme.IsDirectory naming d) (plain : scheme.Plain name)
    (entry : naming.entry d name = some i) : i ≠ d := by
  rintro rfl
  -- Nothing reaches a directory that only it names.
  have apart : ∀ {j}, scheme.Reached naming j → j ≠ i := by
    intro j reached
    induction reached with
    | refl => exact fun same => (consistent.above directory plain entry directory).1 same.symm
    | tail _ below inductionHypothesis =>
        obtain ⟨isDirectory, other, plain', entry'⟩ := below
        rintro rfl
        have first := (consistent.above directory plain entry directory).2
        have second := (consistent.above isDirectory plain' entry' directory).2
        exact inductionHypothesis (Option.some.inj (second.symm.trans first))
  exact apart (consistent.reached directory.live) rfl

/-- A directory that binds plain names to nothing has no directory below it. -/
theorem not_up (other : i ≠ scheme.root)
    (empty : ∀ name, scheme.Plain name → naming.entry i name = none)
    (inside : scheme.IsDirectory naming d) : naming.entry d scheme.up ≠ some i := by
  intro entry
  by_cases top : d = scheme.root
  · subst top
    rw [consistent.top] at entry
    exact other (Option.some.inj entry).symm
  · obtain ⟨above, name, -, plain, named, same⟩ := consistent.named inside top
    cases entry.symm.trans same
    rw [empty name plain] at named
    cases named

/-- Such a directory counts its one plain name only. -/
theorem links_empty (directory : scheme.IsDirectory naming i) (inside : scheme.IsDirectory naming d)
    (plain : scheme.Plain name) (entry : naming.entry d name = some i)
    (empty : ∀ name, scheme.Plain name → naming.entry i name = none) : naming.links i = 1 := by
  have single : scheme.places naming i = {(d, name)} := by
    ext ⟨other, label⟩
    rw [Scheme.mem_places, Set.mem_singleton_iff, Prod.mk.injEq]
    constructor
    · rintro ⟨isDirectory, unlike, bound⟩
      by_cases upward : label = scheme.up
      · subst upward
        have root := (consistent.above inside plain entry directory).1
        exact absurd bound (consistent.not_up root empty isDirectory)
      · have first := (consistent.above inside plain entry directory).2
        have second := (consistent.above isDirectory ⟨unlike, upward⟩ bound directory).2
        cases first.symm.trans second
        exact ⟨rfl, consistent.once isDirectory ⟨unlike, upward⟩ plain bound entry directory⟩
    · rintro ⟨rfl, rfl⟩
      exact plain.mem_places inside entry
  have counted := consistent.counted directory.live
  rw [single, Set.encard_singleton] at counted
  exact_mod_cast counted.symm

/-- The directory above another one counts both its own name and the other's. -/
theorem links_above (inside : scheme.IsDirectory naming d) (plain : scheme.Plain name)
    (entry : naming.entry d name = some i) (directory : scheme.IsDirectory naming i) :
    2 ≤ naming.links d := by
  obtain ⟨other, above⟩ := consistent.above inside plain entry directory
  have upward : (i, scheme.up) ∈ scheme.places naming d :=
    ⟨directory, scheme.names.symm, above⟩
  -- The root is above itself, any other directory has a plain name.
  have second : ∃ place ∈ scheme.places naming d, place ≠ (i, scheme.up) := by
    by_cases top : d = scheme.root
    · subst top
      exact ⟨(scheme.root, scheme.up), ⟨inside, scheme.names.symm, consistent.top⟩,
        fun same => other (congrArg Prod.fst same).symm⟩
    · obtain ⟨above, label, isDirectory, plain', bound, -⟩ := consistent.named inside top
      exact ⟨(above, label), plain'.mem_places isDirectory bound,
        fun same => plain'.2 (congrArg Prod.snd same)⟩
  obtain ⟨place, member, different⟩ := second
  have pair : ({(i, scheme.up), place} : Set (Node × Name)) ⊆ scheme.places naming d :=
    Set.insert_subset upward (Set.singleton_subset_iff.mpr member)
  have two := Set.encard_le_encard pair
  rw [Set.encard_pair different.symm, consistent.counted inside.live] at two
  exact_mod_cast two

end Consistent

/-! ## One more name, or one less -/

/-- Directory `d` gets the name `name` for node `i`, which is no directory. -/
structure Adds (scheme : Scheme Kind Node Name) (before : Naming Kind Node Name) (d : Node)
    (name : Name) (i : Node) (after : Naming Kind Node Name) : Prop where
  inside : scheme.IsDirectory before d
  unbound : before.entry d name = none
  leaf : ¬scheme.IsDirectory before i
  directories : ∀ x, scheme.IsDirectory after x ↔ scheme.IsDirectory before x
  live : ∀ x, scheme.Live after x ↔ scheme.Live before x ∨ x = i
  here : after.entry d name = some i
  entries : ∀ x, scheme.IsDirectory before x → ∀ label, (x, label) ≠ (d, name) →
    after.entry x label = before.entry x label
  others : ∀ x, scheme.Live before x → x ≠ i → after.links x = before.links x
  more : scheme.Live before i → after.links i = before.links i + 1
  first : ¬scheme.Live before i → after.links i = 1

/-- Directory `d` loses its plain name `name` for node `i`, which is no directory. -/
structure Removes (scheme : Scheme Kind Node Name) (before : Naming Kind Node Name) (d : Node)
    (name : Name) (i : Node) (after : Naming Kind Node Name) : Prop where
  inside : scheme.IsDirectory before d
  plain : scheme.Plain name
  bound : before.entry d name = some i
  leaf : ¬scheme.IsDirectory before i
  directories : ∀ x, scheme.IsDirectory after x ↔ scheme.IsDirectory before x
  live : ∀ x, scheme.Live after x ↔ scheme.Live before x ∧ (x = i → after.links i ≠ 0)
  here : after.entry d name = none
  entries : ∀ x, scheme.IsDirectory before x → ∀ label, (x, label) ≠ (d, name) →
    after.entry x label = before.entry x label
  others : ∀ x, x ≠ i → after.links x = before.links x
  less : after.links i + 1 = before.links i

section Change

variable {before after : Naming Kind Node Name} {d i : Node} {name : Name}

/-- Names that stay still reach what they reached. -/
theorem Reached.mono {j : Node} (reached : scheme.Reached before j)
    (kept : ∀ x y, scheme.Below before x y → scheme.Below after x y) : scheme.Reached after j :=
  Relation.ReflTransGen.mono kept _ _ reached

namespace Adds

variable (adds : scheme.Adds before d name i after)
include adds

/-- An entry was there before or is the new one. -/
theorem entry_cases {x y : Node} {label : Name} (directory : scheme.IsDirectory before x)
    (entry : after.entry x label = some y) :
    before.entry x label = some y ∧ (x, label) ≠ (d, name) ∨ x = d ∧ label = name ∧ y = i := by
  by_cases same : (x, label) = (d, name)
  · obtain ⟨rfl, rfl⟩ := Prod.mk.inj same
    rw [adds.here] at entry
    exact Or.inr ⟨rfl, rfl, (Option.some.inj entry).symm⟩
  · rw [adds.entries x directory label same] at entry
    exact Or.inl ⟨entry, same⟩

theorem entry_old {x y : Node} {label : Name} (directory : scheme.IsDirectory before x)
    (entry : before.entry x label = some y) : after.entry x label = some y := by
  rw [adds.entries x directory label, entry]
  intro same
  obtain ⟨rfl, rfl⟩ := Prod.mk.inj same
  rw [adds.unbound] at entry
  cases entry

theorem below {x y : Node} (below : scheme.Below before x y) : scheme.Below after x y := by
  obtain ⟨directory, label, plain, entry⟩ := below
  exact ⟨(adds.directories x).mpr directory, label, plain,
    adds.entry_old directory entry⟩

theorem places_other {j : Node} (different : j ≠ i) :
    scheme.places after j = scheme.places before j := by
  ext ⟨x, label⟩
  rw [Scheme.mem_places, Scheme.mem_places, adds.directories]
  constructor
  · rintro ⟨directory, unlike, entry⟩
    obtain ⟨old, -⟩ | ⟨-, -, same⟩ := adds.entry_cases directory entry
    · exact ⟨directory, unlike, old⟩
    · exact absurd same different
  · rintro ⟨directory, unlike, entry⟩
    exact ⟨directory, unlike, adds.entry_old directory entry⟩

variable (consistent : scheme.Consistent before)
include consistent

theorem plain : scheme.Plain name := consistent.plain adds.inside adds.unbound

theorem places_self : scheme.places after i = insert (d, name) (scheme.places before i) := by
  ext ⟨x, label⟩
  rw [Set.mem_insert_iff, Scheme.mem_places, Scheme.mem_places, adds.directories]
  constructor
  · rintro ⟨directory, unlike, entry⟩
    obtain ⟨old, -⟩ | ⟨rfl, rfl, -⟩ := adds.entry_cases directory entry
    · exact Or.inr ⟨directory, unlike, old⟩
    · exact Or.inl rfl
  · rintro (same | ⟨directory, unlike, entry⟩)
    · obtain ⟨rfl, rfl⟩ := Prod.mk.inj same
      exact ⟨adds.inside, (adds.plain consistent).1, adds.here⟩
    · exact ⟨directory, unlike, adds.entry_old directory entry⟩

theorem counted {j : Node} (live : scheme.Live after j) :
    (scheme.places after j).encard = after.links j := by
  by_cases same : j = i
  · subst same
    have absent : (d, name) ∉ scheme.places before j := by
      rintro ⟨-, -, entry⟩
      dsimp only at entry
      rw [adds.unbound] at entry
      cases entry
    rw [adds.places_self consistent, Set.encard_insert_of_notMem absent]
    by_cases used : scheme.Live before j
    · rw [consistent.counted used, adds.more used]
      rfl
    · have none : scheme.places before j = ∅ := by
        apply Set.eq_empty_iff_forall_notMem.mpr
        rintro place ⟨directory, -, entry⟩
        exact used (consistent.closed directory entry)
      rw [none, Set.encard_empty, adds.first used]
      rfl
  · have used := ((adds.live j).mp live).resolve_right same
    rw [adds.places_other same, consistent.counted used, adds.others j used same]

theorem keeps : scheme.Consistent after where
  root := (adds.directories _).mpr consistent.root
  closed directory entry := by
    rw [adds.live]
    obtain ⟨old, -⟩ | ⟨-, -, same⟩ :=
      adds.entry_cases ((adds.directories _).mp directory) entry
    · exact Or.inl (consistent.closed ((adds.directories _).mp directory) old)
    · exact Or.inr same
  self directory := by
    have old := (adds.directories _).mp directory
    exact adds.entry_old old (consistent.self old)
  up directory := by
    have old := (adds.directories _).mp directory
    obtain ⟨above, entry, isDirectory⟩ := consistent.up old
    exact ⟨above, adds.entry_old old entry, (adds.directories _).mpr isDirectory⟩
  top := adds.entry_old consistent.root consistent.top
  above directory plain entry isDirectory := by
    have old := (adds.directories _).mp directory
    have inner := (adds.directories _).mp isDirectory
    obtain ⟨entry, -⟩ | ⟨-, -, rfl⟩ := adds.entry_cases old entry
    · obtain ⟨other, upward⟩ := consistent.above old plain entry inner
      exact ⟨other, adds.entry_old inner upward⟩
    · exact absurd inner adds.leaf
  once directory first second entry entry' isDirectory := by
    have old := (adds.directories _).mp directory
    have inner := (adds.directories _).mp isDirectory
    obtain ⟨entry, -⟩ | ⟨-, -, rfl⟩ := adds.entry_cases old entry
    · obtain ⟨entry', -⟩ | ⟨-, -, rfl⟩ := adds.entry_cases old entry'
      · exact consistent.once old first second entry entry' inner
      · exact absurd inner adds.leaf
    · exact absurd inner adds.leaf
  counted := adds.counted consistent
  reached live := by
    obtain used | rfl := (adds.live _).mp live
    · exact (consistent.reached used).mono fun _ _ => adds.below
    · refine ((consistent.reached adds.inside.live).mono fun _ _ => adds.below).tail ?_
      exact ⟨(adds.directories _).mpr adds.inside, name, adds.plain consistent, adds.here⟩

end Adds

namespace Removes

variable (removes : scheme.Removes before d name i after)
include removes

/-- An entry was there before, and is another one. -/
theorem entry_old {x y : Node} {label : Name} (directory : scheme.IsDirectory before x)
    (entry : after.entry x label = some y) :
    before.entry x label = some y ∧ (x, label) ≠ (d, name) := by
  by_cases same : (x, label) = (d, name)
  · obtain ⟨rfl, rfl⟩ := Prod.mk.inj same
    rw [removes.here] at entry
    cases entry
  · rw [removes.entries x directory label same] at entry
    exact ⟨entry, same⟩

theorem entry_kept {x y : Node} {label : Name} (directory : scheme.IsDirectory before x)
    (entry : before.entry x label = some y) (different : (x, label) ≠ (d, name)) :
    after.entry x label = some y := by
  rw [removes.entries x directory label different, entry]

theorem places_self : scheme.places after i = scheme.places before i \ {(d, name)} := by
  ext ⟨x, label⟩
  rw [Set.mem_sdiff, Set.mem_singleton_iff, Scheme.mem_places, Scheme.mem_places,
    removes.directories]
  constructor
  · rintro ⟨directory, unlike, entry⟩
    obtain ⟨old, different⟩ := removes.entry_old directory entry
    exact ⟨⟨directory, unlike, old⟩, different⟩
  · rintro ⟨⟨directory, unlike, entry⟩, different⟩
    exact ⟨directory, unlike, removes.entry_kept directory entry different⟩

theorem places_other {j : Node} (different : j ≠ i) :
    scheme.places after j = scheme.places before j := by
  ext ⟨x, label⟩
  rw [Scheme.mem_places, Scheme.mem_places, removes.directories]
  constructor
  · rintro ⟨directory, unlike, entry⟩
    exact ⟨directory, unlike, (removes.entry_old directory entry).1⟩
  · rintro ⟨directory, unlike, entry⟩
    refine ⟨directory, unlike, removes.entry_kept directory entry ?_⟩
    intro same
    obtain ⟨rfl, rfl⟩ := Prod.mk.inj same
    exact different (Option.some.inj (entry.symm.trans removes.bound))

theorem entry_directory {x y : Node} {label : Name} (directory : scheme.IsDirectory before x)
    (entry : before.entry x label = some y) (isDirectory : scheme.IsDirectory before y) :
    after.entry x label = some y := by
  refine removes.entry_kept directory entry ?_
  intro same
  obtain ⟨rfl, rfl⟩ := Prod.mk.inj same
  cases entry.symm.trans removes.bound
  exact removes.leaf isDirectory

/-- What is reached past node `i` would be reached through a directory. -/
theorem reached_other {j : Node} (reached : scheme.Reached before j) (other : j ≠ i) :
    scheme.Reached after j := by
  induction reached with
  | refl => exact Relation.ReflTransGen.refl
  | tail _ below inductionHypothesis =>
      obtain ⟨directory, label, plain, entry⟩ := below
      refine (inductionHypothesis ?_).tail ⟨(removes.directories _).mpr directory, label, plain,
        removes.entry_kept directory entry ?_⟩
      · rintro rfl
        exact removes.leaf directory
      · intro same
        obtain ⟨rfl, rfl⟩ := Prod.mk.inj same
        exact other (Option.some.inj (entry.symm.trans removes.bound))

variable (consistent : scheme.Consistent before)
include consistent

theorem counted_self : (scheme.places after i).encard = after.links i := by
  have member := removes.plain.mem_places removes.inside removes.bound
  have total := Set.encard_sdiff_singleton_add_one member
  rw [consistent.counted (consistent.closed removes.inside removes.bound), ← removes.less,
    ← removes.places_self] at total
  push_cast at total
  exact WithTop.add_right_cancel WithTop.one_ne_top total

theorem counted {j : Node} (live : scheme.Live after j) :
    (scheme.places after j).encard = after.links j := by
  by_cases same : j = i
  · rw [same, removes.counted_self consistent]
  · rw [removes.places_other same, consistent.counted ((removes.live j).mp live).1,
      removes.others j same]

/-- A node that counts another name is still reached. -/
theorem reached {j : Node} (live : scheme.Live after j) : scheme.Reached after j := by
  have used := ((removes.live j).mp live).1
  by_cases same : j = i
  · subst same
    have some : (scheme.places after j).Nonempty := by
      rw [← Set.encard_ne_zero, removes.counted consistent live]
      exact_mod_cast live.2
    obtain ⟨⟨x, label⟩, isDirectory, unlike, entry⟩ := some
    have directory := (removes.directories x).mp isDirectory
    have plain : scheme.Plain label := by
      refine ⟨unlike, ?_⟩
      rintro rfl
      obtain ⟨above, upward, inner⟩ := consistent.up directory
      cases upward.symm.trans (removes.entry_old directory entry).1
      exact removes.leaf inner
    refine (removes.reached_other (consistent.reached directory.live) ?_).tail
      ⟨isDirectory, label, plain, entry⟩
    rintro rfl
    exact removes.leaf directory
  · exact removes.reached_other (consistent.reached used) same

theorem keeps : scheme.Consistent after where
  root := (removes.directories _).mpr consistent.root
  closed directory entry := by
    have old := (removes.directories _).mp directory
    have live := consistent.closed old (removes.entry_old old entry).1
    refine (removes.live _).mpr ⟨live, ?_⟩
    rintro rfl none
    have counted := removes.counted_self consistent
    rw [none, Nat.cast_zero, Set.encard_eq_zero] at counted
    refine Set.eq_empty_iff_forall_notMem.mp counted (_, _) ⟨directory, ?_, entry⟩
    rintro rfl
    cases (removes.entry_old old entry).1.symm.trans (consistent.self old)
    exact removes.leaf old
  self directory := by
    have old := (removes.directories _).mp directory
    exact removes.entry_directory old (consistent.self old) old
  up directory := by
    have old := (removes.directories _).mp directory
    obtain ⟨above, entry, isDirectory⟩ := consistent.up old
    exact ⟨above, removes.entry_directory old entry isDirectory,
      (removes.directories _).mpr isDirectory⟩
  top := removes.entry_directory consistent.root consistent.top consistent.root
  above directory plain entry isDirectory := by
    have old := (removes.directories _).mp directory
    have inner := (removes.directories _).mp isDirectory
    obtain ⟨other, upward⟩ := consistent.above old plain (removes.entry_old old entry).1 inner
    exact ⟨other, removes.entry_directory inner upward old⟩
  once directory first second entry entry' isDirectory := by
    have old := (removes.directories _).mp directory
    exact consistent.once old first second (removes.entry_old old entry).1
      (removes.entry_old old entry').1 ((removes.directories _).mp isDirectory)
  counted := removes.counted consistent
  reached := removes.reached consistent

end Removes

/-! ## One more directory, or one less -/

/-- Directory `d` gets the name `name` for the new directory `i`, which has no plain names. -/
structure AddsDirectory (scheme : Scheme Kind Node Name) (before : Naming Kind Node Name) (d : Node)
    (name : Name) (i : Node) (after : Naming Kind Node Name) : Prop where
  inside : scheme.IsDirectory before d
  unbound : before.entry d name = none
  fresh : ¬scheme.Live before i
  directories : ∀ x, scheme.IsDirectory after x ↔ scheme.IsDirectory before x ∨ x = i
  live : ∀ x, scheme.Live after x ↔ scheme.Live before x ∨ x = i
  here : after.entry d name = some i
  self : after.entry i scheme.self = some i
  up : after.entry i scheme.up = some d
  empty : ∀ label, scheme.Plain label → after.entry i label = none
  entries : ∀ x, scheme.IsDirectory before x → ∀ label, (x, label) ≠ (d, name) →
    after.entry x label = before.entry x label
  one : after.links i = 1
  more : after.links d = before.links d + 1
  others : ∀ x, scheme.Live before x → x ≠ d → after.links x = before.links x

/-- Directory `d` loses its plain name `name` for directory `i`, which has no plain names. -/
structure RemovesDirectory (scheme : Scheme Kind Node Name) (before : Naming Kind Node Name)
    (d : Node) (name : Name) (i : Node) (after : Naming Kind Node Name) : Prop where
  inside : scheme.IsDirectory before d
  plain : scheme.Plain name
  bound : before.entry d name = some i
  directory : scheme.IsDirectory before i
  empty : ∀ label, scheme.Plain label → before.entry i label = none
  directories : ∀ x, scheme.IsDirectory after x ↔ scheme.IsDirectory before x ∧ x ≠ i
  live : ∀ x, scheme.Live after x ↔ scheme.Live before x ∧ x ≠ i
  here : after.entry d name = none
  entries : ∀ x, scheme.IsDirectory before x → x ≠ i → ∀ label, (x, label) ≠ (d, name) →
    after.entry x label = before.entry x label
  less : after.links d + 1 = before.links d
  others : ∀ x, x ≠ d → x ≠ i → after.links x = before.links x

namespace AddsDirectory

variable (adds : scheme.AddsDirectory before d name i after)
include adds

theorem other {x : Node} (directory : scheme.IsDirectory before x) : x ≠ i := by
  rintro rfl
  exact adds.fresh directory.live

theorem entry_cases {x y : Node} {label : Name} (directory : scheme.IsDirectory before x)
    (entry : after.entry x label = some y) :
    before.entry x label = some y ∨ x = d ∧ label = name ∧ y = i := by
  by_cases same : (x, label) = (d, name)
  · obtain ⟨rfl, rfl⟩ := Prod.mk.inj same
    rw [adds.here] at entry
    exact Or.inr ⟨rfl, rfl, (Option.some.inj entry).symm⟩
  · rw [adds.entries x directory label same] at entry
    exact Or.inl entry

/-- The new directory binds the two names that every directory has. -/
theorem entry_new {y : Node} {label : Name} (entry : after.entry i label = some y) :
    label = scheme.self ∧ y = i ∨ label = scheme.up ∧ y = d := by
  by_cases first : label = scheme.self
  · subst first
    rw [adds.self] at entry
    exact Or.inl ⟨rfl, (Option.some.inj entry).symm⟩
  · by_cases second : label = scheme.up
    · subst second
      rw [adds.up] at entry
      exact Or.inr ⟨rfl, (Option.some.inj entry).symm⟩
    · rw [adds.empty label ⟨first, second⟩] at entry
      cases entry

theorem entry_old {x y : Node} {label : Name} (directory : scheme.IsDirectory before x)
    (entry : before.entry x label = some y) : after.entry x label = some y := by
  rw [adds.entries x directory label, entry]
  intro same
  obtain ⟨rfl, rfl⟩ := Prod.mk.inj same
  rw [adds.unbound] at entry
  cases entry

theorem below {x y : Node} (below : scheme.Below before x y) : scheme.Below after x y := by
  obtain ⟨directory, label, plain, entry⟩ := below
  exact ⟨(adds.directories x).mpr (Or.inl directory), label, plain,
    adds.entry_old directory entry⟩

theorem places_above :
    scheme.places after d = insert (i, scheme.up) (scheme.places before d) := by
  ext ⟨x, label⟩
  rw [Set.mem_insert_iff, Scheme.mem_places, Scheme.mem_places, adds.directories]
  constructor
  · rintro ⟨directory | rfl, unlike, entry⟩
    · obtain old | ⟨-, -, same⟩ := adds.entry_cases directory entry
      · exact Or.inr ⟨directory, unlike, old⟩
      · exact absurd same (adds.other adds.inside)
    · obtain ⟨same, -⟩ | ⟨rfl, -⟩ := adds.entry_new entry
      · exact absurd same unlike
      · exact Or.inl rfl
  · rintro (same | ⟨directory, unlike, entry⟩)
    · obtain ⟨rfl, rfl⟩ := Prod.mk.inj same
      exact ⟨Or.inr rfl, scheme.names.symm, adds.up⟩
    · exact ⟨Or.inl directory, unlike, adds.entry_old directory entry⟩

theorem places_other {j : Node} (first : j ≠ d) (second : j ≠ i) :
    scheme.places after j = scheme.places before j := by
  ext ⟨x, label⟩
  rw [Scheme.mem_places, Scheme.mem_places, adds.directories]
  constructor
  · rintro ⟨directory | rfl, unlike, entry⟩
    · obtain old | ⟨-, -, same⟩ := adds.entry_cases directory entry
      · exact ⟨directory, unlike, old⟩
      · exact absurd same second
    · obtain ⟨-, same⟩ | ⟨-, same⟩ := adds.entry_new entry
      · exact absurd same second
      · exact absurd same first
  · rintro ⟨directory, unlike, entry⟩
    exact ⟨Or.inl directory, unlike, adds.entry_old directory entry⟩

variable (consistent : scheme.Consistent before)
include consistent

theorem plain : scheme.Plain name := consistent.plain adds.inside adds.unbound

/-- Nothing was bound to the new directory. -/
theorem unnamed {x : Node} {label : Name} (directory : scheme.IsDirectory before x) :
    before.entry x label ≠ some i := fun entry =>
  adds.fresh (consistent.closed directory entry)

theorem places_new : scheme.places after i = {(d, name)} := by
  ext ⟨x, label⟩
  rw [Set.mem_singleton_iff, Scheme.mem_places, adds.directories]
  constructor
  · rintro ⟨directory | rfl, unlike, entry⟩
    · obtain old | ⟨rfl, rfl, -⟩ := adds.entry_cases directory entry
      · exact absurd old (adds.unnamed consistent directory)
      · rfl
    · obtain ⟨same, -⟩ | ⟨-, same⟩ := adds.entry_new entry
      · exact absurd same unlike
      · exact absurd same.symm (adds.other adds.inside)
  · intro same
    obtain ⟨rfl, rfl⟩ := Prod.mk.inj same
    exact ⟨Or.inl adds.inside, (adds.plain consistent).1, adds.here⟩

theorem counted {j : Node} (live : scheme.Live after j) :
    (scheme.places after j).encard = after.links j := by
  by_cases new : j = i
  · rw [new, adds.places_new consistent, Set.encard_singleton, adds.one]
    rfl
  · have used := ((adds.live j).mp live).resolve_right new
    by_cases here : j = d
    · subst here
      have absent : (i, scheme.up) ∉ scheme.places before j := fun member =>
        adds.fresh member.1.live
      rw [adds.places_above, Set.encard_insert_of_notMem absent,
        consistent.counted used, adds.more]
      rfl
    · rw [adds.places_other here new, consistent.counted used, adds.others j used here]

theorem keeps : scheme.Consistent after where
  root := (adds.directories _).mpr (Or.inl consistent.root)
  closed directory entry := by
    rw [adds.live]
    obtain old | rfl := (adds.directories _).mp directory
    · obtain entry | ⟨-, -, same⟩ := adds.entry_cases old entry
      · exact Or.inl (consistent.closed old entry)
      · exact Or.inr same
    · obtain ⟨-, same⟩ | ⟨-, rfl⟩ := adds.entry_new entry
      · exact Or.inr same
      · exact Or.inl adds.inside.live
  self directory := by
    obtain old | rfl := (adds.directories _).mp directory
    · exact adds.entry_old old (consistent.self old)
    · exact adds.self
  up directory := by
    obtain old | rfl := (adds.directories _).mp directory
    · obtain ⟨above, entry, isDirectory⟩ := consistent.up old
      exact ⟨above, adds.entry_old old entry, (adds.directories _).mpr (Or.inl isDirectory)⟩
    · exact ⟨d, adds.up, (adds.directories _).mpr (Or.inl adds.inside)⟩
  top := adds.entry_old consistent.root consistent.top
  above directory plain entry isDirectory := by
    obtain old | rfl := (adds.directories _).mp directory
    · obtain entry | ⟨rfl, rfl, rfl⟩ := adds.entry_cases old entry
      · obtain inner | rfl := (adds.directories _).mp isDirectory
        · obtain ⟨other, upward⟩ := consistent.above old plain entry inner
          exact ⟨other, adds.entry_old inner upward⟩
        · exact absurd entry (adds.unnamed consistent old)
      · exact ⟨(adds.other consistent.root).symm, adds.up⟩
    · rw [adds.empty _ plain] at entry
      cases entry
  once directory first second entry entry' isDirectory := by
    obtain old | rfl := (adds.directories _).mp directory
    · obtain entry | ⟨-, rfl, rfl⟩ := adds.entry_cases old entry
      · obtain entry' | ⟨-, -, rfl⟩ := adds.entry_cases old entry'
        · obtain inner | rfl := (adds.directories _).mp isDirectory
          · exact consistent.once old first second entry entry' inner
          · exact absurd entry (adds.unnamed consistent old)
        · exact absurd entry (adds.unnamed consistent old)
      · obtain entry' | ⟨-, rfl, -⟩ := adds.entry_cases old entry'
        · exact absurd entry' (adds.unnamed consistent old)
        · rfl
    · rw [adds.empty _ first] at entry
      cases entry
  counted := adds.counted consistent
  reached live := by
    obtain used | rfl := (adds.live _).mp live
    · exact (consistent.reached used).mono fun _ _ => adds.below
    · refine ((consistent.reached adds.inside.live).mono fun _ _ => adds.below).tail ?_
      exact ⟨(adds.directories _).mpr (Or.inl adds.inside), name, adds.plain consistent, adds.here⟩

end AddsDirectory

namespace RemovesDirectory

variable (removes : scheme.RemovesDirectory before d name i after)
include removes

theorem entry_old {x y : Node} {label : Name} (directory : scheme.IsDirectory before x)
    (other : x ≠ i) (entry : after.entry x label = some y) :
    before.entry x label = some y ∧ (x, label) ≠ (d, name) := by
  by_cases same : (x, label) = (d, name)
  · obtain ⟨rfl, rfl⟩ := Prod.mk.inj same
    rw [removes.here] at entry
    cases entry
  · rw [removes.entries x directory other label same] at entry
    exact ⟨entry, same⟩

/-- Only one name led to the directory that was removed. -/
theorem entry_kept {x y : Node} {label : Name} (directory : scheme.IsDirectory before x)
    (other : x ≠ i) (entry : before.entry x label = some y) (different : y ≠ i) :
    after.entry x label = some y := by
  rw [removes.entries x directory other label, entry]
  intro same
  obtain ⟨rfl, rfl⟩ := Prod.mk.inj same
  exact different (Option.some.inj (entry.symm.trans removes.bound))

/-- Nothing below the directory was reached through it. -/
theorem reached {j : Node} (reached : scheme.Reached before j) (other : j ≠ i) :
    scheme.Reached after j := by
  induction reached with
  | refl => exact Relation.ReflTransGen.refl
  | tail _ below inductionHypothesis =>
      obtain ⟨directory, label, plain, entry⟩ := below
      have away : ∀ {x y}, before.entry x label = some y → x ≠ i := by
        rintro x y entry rfl
        rw [removes.empty label plain] at entry
        cases entry
      exact (inductionHypothesis (away entry)).tail
        ⟨(removes.directories _).mpr ⟨directory, away entry⟩, label, plain,
          removes.entry_kept directory (away entry) entry other⟩

variable (consistent : scheme.Consistent before)
include consistent

theorem inner : i ≠ scheme.root ∧ before.entry i scheme.up = some d :=
  consistent.above removes.inside removes.plain removes.bound removes.directory

theorem unnamed {x : Node} {label : Name} (directory : scheme.IsDirectory before x)
    (other : x ≠ i) (different : (x, label) ≠ (d, name)) : before.entry x label ≠ some i := by
  intro entry
  by_cases first : label = scheme.self
  · subst first
    cases entry.symm.trans (consistent.self directory)
    exact other rfl
  · by_cases second : label = scheme.up
    · subst second
      exact consistent.not_up (removes.inner consistent).1 removes.empty directory entry
    · have upward := (consistent.above directory ⟨first, second⟩ entry removes.directory).2
      cases (removes.inner consistent).2.symm.trans upward
      exact different (Prod.ext rfl (consistent.once directory ⟨first, second⟩ removes.plain entry
        removes.bound removes.directory))

theorem places_above : scheme.places after d = scheme.places before d \ {(i, scheme.up)} := by
  have other : d ≠ i := (consistent.plain_other removes.inside removes.plain removes.bound).symm
  ext ⟨x, label⟩
  rw [Set.mem_sdiff, Set.mem_singleton_iff, Scheme.mem_places, Scheme.mem_places,
    removes.directories]
  constructor
  · rintro ⟨⟨directory, away⟩, unlike, entry⟩
    exact ⟨⟨directory, unlike, (removes.entry_old directory away entry).1⟩,
      fun same => away (congrArg Prod.fst same)⟩
  · rintro ⟨⟨directory, unlike, entry⟩, different⟩
    have away : x ≠ i := by
      rintro rfl
      by_cases upward : label = scheme.up
      · exact different (Prod.ext rfl upward)
      · rw [removes.empty label ⟨unlike, upward⟩] at entry
        cases entry
    exact ⟨⟨directory, away⟩, unlike, removes.entry_kept directory away entry other⟩

theorem places_other {j : Node} (first : j ≠ d) (second : j ≠ i) :
    scheme.places after j = scheme.places before j := by
  ext ⟨x, label⟩
  rw [Scheme.mem_places, Scheme.mem_places, removes.directories]
  constructor
  · rintro ⟨⟨directory, away⟩, unlike, entry⟩
    exact ⟨directory, unlike, (removes.entry_old directory away entry).1⟩
  · rintro ⟨directory, unlike, entry⟩
    have away : x ≠ i := by
      rintro rfl
      by_cases upward : label = scheme.up
      · subst upward
        exact first (Option.some.inj (entry.symm.trans (removes.inner consistent).2))
      · rw [removes.empty label ⟨unlike, upward⟩] at entry
        cases entry
    exact ⟨⟨directory, away⟩, unlike, removes.entry_kept directory away entry second⟩

theorem counted {j : Node} (live : scheme.Live after j) :
    (scheme.places after j).encard = after.links j := by
  obtain ⟨used, away⟩ := (removes.live j).mp live
  by_cases here : j = d
  · subst here
    have member : (i, scheme.up) ∈ scheme.places before j :=
      ⟨removes.directory, scheme.names.symm, (removes.inner consistent).2⟩
    have total := Set.encard_sdiff_singleton_add_one member
    rw [consistent.counted used, ← removes.less, ← removes.places_above consistent] at total
    push_cast at total
    exact WithTop.add_right_cancel WithTop.one_ne_top total
  · rw [removes.places_other consistent here away, consistent.counted used,
      removes.others j here away]

theorem keeps : scheme.Consistent after where
  root := (removes.directories _).mpr ⟨consistent.root, (removes.inner consistent).1.symm⟩
  closed directory entry := by
    obtain ⟨old, away⟩ := (removes.directories _).mp directory
    obtain ⟨entry, different⟩ := removes.entry_old old away entry
    refine (removes.live _).mpr ⟨consistent.closed old entry, ?_⟩
    rintro rfl
    exact removes.unnamed consistent old away different entry
  self directory := by
    obtain ⟨old, away⟩ := (removes.directories _).mp directory
    exact removes.entry_kept old away (consistent.self old) away
  up directory := by
    obtain ⟨old, away⟩ := (removes.directories _).mp directory
    obtain ⟨above, entry, isDirectory⟩ := consistent.up old
    have other : above ≠ i := by
      rintro rfl
      exact consistent.not_up (removes.inner consistent).1 removes.empty old entry
    exact ⟨above, removes.entry_kept old away entry other,
      (removes.directories _).mpr ⟨isDirectory, other⟩⟩
  top := removes.entry_kept consistent.root (removes.inner consistent).1.symm consistent.top
    (removes.inner consistent).1.symm
  above directory plain entry isDirectory := by
    obtain ⟨old, away⟩ := (removes.directories _).mp directory
    obtain ⟨inner, other⟩ := (removes.directories _).mp isDirectory
    obtain ⟨below, upward⟩ := consistent.above old plain (removes.entry_old old away entry).1 inner
    exact ⟨below, removes.entry_kept inner other upward away⟩
  once directory first second entry entry' isDirectory := by
    obtain ⟨old, away⟩ := (removes.directories _).mp directory
    exact consistent.once old first second (removes.entry_old old away entry).1
      (removes.entry_old old away entry').1 ((removes.directories _).mp isDirectory).1
  counted := removes.counted consistent
  reached live := by
    obtain ⟨used, away⟩ := (removes.live _).mp live
    exact removes.reached (consistent.reached used) away

end RemovesDirectory

end Change

end Scheme

end Xv6.Library
