import Xv6.Library.Naming

/-!
# Changing a tree of names

The single updates from which the changes of `Naming` are made, and walks along
names.
-/

namespace Xv6.Library

variable {Kind Node Name : Type}

namespace Naming

variable [DecidableEq Node]

/-- Node `i` is given a kind. It counts no names yet, and binds none. -/
def allocate (naming : Naming Kind Node Name) (i : Node) (kind : Kind) : Naming Kind Node Name where
  kind := Function.update naming.kind i kind
  links := Function.update naming.links i 0
  entry := Function.update naming.entry i fun _ => none

def setKind (naming : Naming Kind Node Name) (i : Node) (kind : Kind) : Naming Kind Node Name :=
  { naming with kind := Function.update naming.kind i kind }

def setLinks (naming : Naming Kind Node Name) (i : Node) (count : Nat) : Naming Kind Node Name :=
  { naming with links := Function.update naming.links i count }

section Fields

variable (naming : Naming Kind Node Name) (i d : Node) (kind : Kind) (count : Nat)

@[simp]
theorem allocate_kind : (naming.allocate i kind).kind = Function.update naming.kind i kind := rfl

@[simp]
theorem allocate_links : (naming.allocate i kind).links = Function.update naming.links i 0 := rfl

@[simp]
theorem setKind_kind : (naming.setKind i kind).kind = Function.update naming.kind i kind := rfl

@[simp]
theorem setKind_links : (naming.setKind i kind).links = naming.links := rfl

@[simp]
theorem setKind_entry : (naming.setKind i kind).entry = naming.entry := rfl

@[simp]
theorem setLinks_kind : (naming.setLinks i count).kind = naming.kind := rfl

@[simp]
theorem setLinks_links :
    (naming.setLinks i count).links = Function.update naming.links i count := rfl

@[simp]
theorem setLinks_entry : (naming.setLinks i count).entry = naming.entry := rfl

theorem allocate_entry_self : (naming.allocate i kind).entry i = fun _ => none :=
  Function.update_self ..

theorem allocate_entry_of_ne {i d : Node} (different : d ≠ i) :
    (naming.allocate i kind).entry d = naming.entry d := Function.update_of_ne different ..

end Fields

section Entries

variable [DecidableEq Name]

def setEntry (naming : Naming Kind Node Name) (d : Node) (name : Name) (target : Option Node) :
    Naming Kind Node Name :=
  { naming with
    entry := Function.update naming.entry d (Function.update (naming.entry d) name target) }

variable (naming : Naming Kind Node Name) (d : Node) (name : Name) (target : Option Node)

@[simp]
theorem setEntry_kind : (naming.setEntry d name target).kind = naming.kind := rfl

@[simp]
theorem setEntry_links : (naming.setEntry d name target).links = naming.links := rfl

theorem setEntry_self : (naming.setEntry d name target).entry d name = target := by
  simp [setEntry]

theorem setEntry_of_ne {x : Node} {label : Name} (different : (x, label) ≠ (d, name)) :
    (naming.setEntry d name target).entry x label = naming.entry x label := by
  rw [setEntry]
  by_cases same : x = d
  · subst same
    dsimp only
    rw [Function.update_self, Function.update_of_ne]
    rintro rfl
    exact different rfl
  · exact congrFun (Function.update_of_ne same ..) label

end Entries

end Naming

namespace Scheme

variable [DecidableEq Node] [DecidableEq Name] {scheme : Scheme Kind Node Name}
  {naming : Naming Kind Node Name} {d i : Node} {name : Name} {kind : Kind}

/-- A node in use gets another name. -/
theorem Adds.link (inside : scheme.IsDirectory naming d) (unbound : naming.entry d name = none)
    (live : scheme.Live naming i) (leaf : naming.kind i ≠ scheme.directory) :
    scheme.Adds naming d name i
      ((naming.setLinks i (naming.links i + 1)).setEntry d name (some i)) where
  inside := inside
  unbound := unbound
  leaf directory := leaf directory.1
  directories x := by
    by_cases same : x = i
    · subst same
      simp [IsDirectory, leaf]
    · simp [IsDirectory, same]
  live x := by
    by_cases same : x = i
    · subst same
      simp [Live, live.1]
    · simp [Live, same]
  here := Naming.setEntry_self ..
  entries _ _ _ different := Naming.setEntry_of_ne _ _ _ _ different
  others x _ different := by simp [different]
  more _ := by simp
  first free := absurd live free

/-- A free node becomes something other than a directory, and gets its first name. -/
theorem Adds.leaf_new (inside : scheme.IsDirectory naming d) (unbound : naming.entry d name = none)
    (free : naming.kind i = scheme.free) (leaf : kind ≠ scheme.directory)
    (used : kind ≠ scheme.free) :
    scheme.Adds naming d name i
      (((naming.allocate i kind).setLinks i 1).setEntry d name (some i)) where
  inside := inside
  unbound := unbound
  leaf directory := scheme.kinds (directory.1.symm.trans free)
  directories x := by
    by_cases same : x = i
    · subst same
      simp [IsDirectory, leaf, free, scheme.kinds.symm]
    · simp [IsDirectory, same]
  live x := by
    by_cases same : x = i
    · subst same
      simp [Live, used]
    · simp [Live, same]
  here := Naming.setEntry_self ..
  entries x directory label different := by
    have other : x ≠ i := by
      rintro rfl
      exact scheme.kinds (directory.1.symm.trans free)
    rw [Naming.setEntry_of_ne _ _ _ _ different, Naming.setLinks_entry,
      Naming.allocate_entry_of_ne _ _ other]
  others x _ different := by simp [different]
  more live := absurd free live.1
  first _ := by simp

/-- A free node becomes a directory below another one. -/
theorem AddsDirectory.new (inside : scheme.IsDirectory naming d)
    (unbound : naming.entry d name = none) (free : naming.kind i = scheme.free) :
    scheme.AddsDirectory naming d name i
      ((((((naming.allocate i scheme.directory).setLinks i 1).setLinks d
        (naming.links d + 1)).setEntry i scheme.self (some i)).setEntry i scheme.up
          (some d)).setEntry d name (some i)) := by
  have other : d ≠ i := by
    rintro rfl
    exact scheme.kinds (inside.1.symm.trans free)
  have apart : ∀ x label : Name, (i, x) ≠ (d, label) := by
    intro x label same
    exact other (congrArg Prod.fst same).symm
  refine ⟨inside, unbound, fun live => live.1 free, ?_, ?_, Naming.setEntry_self .., ?_, ?_, ?_, ?_,
    ?_, ?_, ?_⟩
  · intro x
    by_cases same : x = i
    · subst same
      simp [IsDirectory, other.symm]
    · by_cases above : x = d
      · subst above
        simp [IsDirectory, other, inside.1, inside.2]
      · simp [IsDirectory, same, above]
  · intro x
    by_cases same : x = i
    · subst same
      simp [Live, other.symm, scheme.kinds]
    · by_cases above : x = d
      · subst above
        simp [Live, other, inside.live.1, inside.2]
      · simp [Live, same, above]
  · rw [Naming.setEntry_of_ne _ _ _ _ (apart _ _), Naming.setEntry_of_ne _ _ _ _ ?_,
      Naming.setEntry_self]
    exact fun same => scheme.names (congrArg Prod.snd same)
  · rw [Naming.setEntry_of_ne _ _ _ _ (apart _ _), Naming.setEntry_self]
  · rintro label ⟨first, second⟩
    rw [Naming.setEntry_of_ne _ _ _ _ (apart _ _), Naming.setEntry_of_ne _ _ _ _ ?_,
      Naming.setEntry_of_ne _ _ _ _ ?_]
    · exact congrFun (naming.allocate_entry_self i scheme.directory) label
    · exact fun same => first (congrArg Prod.snd same)
    · exact fun same => second (congrArg Prod.snd same)
  · intro x directory label different
    have away : x ≠ i := by
      rintro rfl
      exact scheme.kinds (directory.1.symm.trans free)
    have unlike : ∀ label' : Name, (x, label) ≠ (i, label') := fun label' same =>
      away (congrArg Prod.fst same)
    rw [Naming.setEntry_of_ne _ _ _ _ different, Naming.setEntry_of_ne _ _ _ _ (unlike _),
      Naming.setEntry_of_ne _ _ _ _ (unlike _), Naming.setLinks_entry, Naming.setLinks_entry,
      Naming.allocate_entry_of_ne _ _ away]
  · simp [other.symm]
  · simp
  · intro x live different
    have away : x ≠ i := by
      rintro rfl
      exact live.1 free
    simp [away, different]

theorem Removes.unlink (inside : scheme.IsDirectory naming d) (plain : scheme.Plain name)
    (bound : naming.entry d name = some i) (leaf : naming.kind i ≠ scheme.directory)
    (live : scheme.Live naming i) :
    scheme.Removes naming d name i
      ((naming.setEntry d name none).setLinks i (naming.links i - 1)) where
  inside := inside
  plain := plain
  bound := bound
  leaf directory := leaf directory.1
  directories x := by
    by_cases same : x = i
    · subst same
      simp [IsDirectory, leaf]
    · simp [IsDirectory, same]
  live x := by
    by_cases same : x = i
    · subst same
      simp [Live, live.1, live.2]
    · simp [Live, same]
  here := Naming.setEntry_self ..
  entries _ _ _ different := Naming.setEntry_of_ne _ _ _ _ different
  others x different := by simp [different]
  less := by
    have positive := Nat.pos_of_ne_zero live.2
    simp only [Naming.setLinks_links, Function.update_self]
    omega

theorem RemovesDirectory.unlink (consistent : scheme.Consistent naming)
    (inside : scheme.IsDirectory naming d) (plain : scheme.Plain name)
    (bound : naming.entry d name = some i) (directory : scheme.IsDirectory naming i)
    (empty : ∀ label, scheme.Plain label → naming.entry i label = none) :
    scheme.RemovesDirectory naming d name i
      (((naming.setEntry d name none).setLinks d (naming.links d - 1)).setLinks i
        (naming.links i - 1)) := by
  have other : i ≠ d := consistent.plain_other inside plain bound
  have above := consistent.links_above inside plain bound directory
  have one := consistent.links_empty directory inside plain bound empty
  have left : naming.links d - 1 ≠ 0 := by omega
  refine ⟨inside, plain, bound, directory, empty, ?_, ?_, Naming.setEntry_self .., ?_, ?_, ?_⟩
  · intro x
    by_cases same : x = i
    · subst same
      simp [IsDirectory, one]
    · by_cases here : x = d
      · subst here
        simp [IsDirectory, same, inside.1, inside.2, left]
      · simp [IsDirectory, same, here]
  · intro x
    by_cases same : x = i
    · subst same
      simp [Live, one]
    · by_cases here : x = d
      · subst here
        simp [Live, same, inside.live.1, inside.2, left]
      · simp [Live, same, here]
  · intro x _ _ label different
    exact Naming.setEntry_of_ne _ _ _ _ different
  · simp only [Naming.setLinks_links, Function.update_of_ne other.symm, Function.update_self]
    omega
  · intro x first second
    simp [first, second]

section Discard

omit [DecidableEq Name]

variable (unnamed : naming.links i = 0) (kind : Kind)
include unnamed

theorem discard_directory (x : Node) :
    scheme.IsDirectory (naming.setKind i kind) x ↔ scheme.IsDirectory naming x := by
  by_cases same : x = i
  · subst same
    simp [IsDirectory, unnamed]
  · simp [IsDirectory, same]

theorem discard_live (x : Node) :
    scheme.Live (naming.setKind i kind) x ↔ scheme.Live naming x := by
  by_cases same : x = i
  · subst same
    simp [Live, unnamed]
  · simp [Live, same]

theorem discard_places (x : Node) :
    scheme.places (naming.setKind i kind) x = scheme.places naming x := by
  ext place
  simp only [Scheme.places, Set.mem_ofPred_eq, discard_directory unnamed kind, Naming.setKind_entry]

/-- A node without names may change its kind. -/
theorem Consistent.discard (consistent : scheme.Consistent naming) :
    scheme.Consistent (naming.setKind i kind) where
  root := (discard_directory unnamed kind _).mpr consistent.root
  closed directory entry := (discard_live unnamed kind _).mpr
    (consistent.closed ((discard_directory unnamed kind _).mp directory) entry)
  self directory := consistent.self ((discard_directory unnamed kind _).mp directory)
  up directory := by
    obtain ⟨above, entry, isDirectory⟩ :=
      consistent.up ((discard_directory unnamed kind _).mp directory)
    exact ⟨above, entry, (discard_directory unnamed kind _).mpr isDirectory⟩
  top := consistent.top
  above directory plain entry isDirectory :=
    consistent.above ((discard_directory unnamed kind _).mp directory) plain entry
      ((discard_directory unnamed kind _).mp isDirectory)
  once directory first second entry entry' isDirectory :=
    consistent.once ((discard_directory unnamed kind _).mp directory) first second entry entry'
      ((discard_directory unnamed kind _).mp isDirectory)
  counted used := by
    rw [discard_places unnamed, consistent.counted ((discard_live unnamed kind _).mp used)]
    rfl
  reached used := (consistent.reached ((discard_live unnamed kind _).mp used)).mono
    fun x _ below => ⟨(discard_directory unnamed kind x).mpr below.1, below.2⟩

end Discard

end Scheme

/-- A root without plain names is a tree. -/
theorem Scheme.Consistent.alone {scheme : Scheme Kind Node Name} {naming : Naming Kind Node Name}
    (root : scheme.IsDirectory naming scheme.root)
    (only : ∀ {i}, scheme.Live naming i → i = scheme.root)
    (self : naming.entry scheme.root scheme.self = some scheme.root)
    (up : naming.entry scheme.root scheme.up = some scheme.root)
    (empty : ∀ name, scheme.Plain name → naming.entry scheme.root name = none)
    (links : naming.links scheme.root = 1) : scheme.Consistent naming := by
  have directories : ∀ {d}, scheme.IsDirectory naming d → d = scheme.root :=
    fun directory => only directory.live
  have bound : ∀ {name i}, naming.entry scheme.root name = some i → i = scheme.root ∧
      ¬scheme.Plain name := by
    intro name i entry
    have special : ¬scheme.Plain name := by
      intro plain
      rw [empty name plain] at entry
      cases entry
    by_cases same : name = scheme.self
    · rw [same, self] at entry
      exact ⟨(Option.some.inj entry).symm, special⟩
    · by_cases upward : name = scheme.up
      · rw [upward, up] at entry
        exact ⟨(Option.some.inj entry).symm, special⟩
      · exact absurd ⟨same, upward⟩ special
  refine ⟨⟨root, ?_⟩, ?_, ?_, up, ?_, ?_, ?_, ?_⟩
  · intro d name i directory entry
    cases directories directory
    exact (bound entry).1 ▸ root.live
  · intro d directory
    cases directories directory
    exact self
  · intro d directory
    cases directories directory
    exact ⟨_, up, root⟩
  · intro d name c directory plain entry
    cases directories directory
    exact absurd plain (bound entry).2
  · intro d first second c directory plain _ entry
    cases directories directory
    exact absurd plain (bound entry).2
  · intro i live
    cases only live
    have single : scheme.places naming scheme.root = {(scheme.root, scheme.up)} := by
      ext ⟨d, name⟩
      rw [Scheme.mem_places, Set.mem_singleton_iff, Prod.mk.injEq]
      constructor
      · rintro ⟨directory, unlike, entry⟩
        cases directories directory
        by_contra other
        exact (bound entry).2 ⟨unlike, fun same => other ⟨rfl, same⟩⟩
      · rintro ⟨rfl, rfl⟩
        exact ⟨root, scheme.names.symm, up⟩
    rw [single, Set.encard_singleton, links]
    rfl
  · intro i live
    cases only live
    exact Relation.ReflTransGen.refl

/-! ## Walks -/

namespace Scheme

section Walk

variable [DecidableEq Kind] (scheme : Scheme Kind Node Name) (naming : Naming Kind Node Name)

/-- The node that a name leads to. -/
def child (d : Node) (name : Name) : Option Node :=
  if naming.kind d = scheme.directory then naming.entry d name else none

/-- The node that the names lead to, one after the other. -/
def walk (i : Node) (names : List Name) : Option Node := names.foldlM (scheme.child naming) i

/-- The directory before the last name, and the last name. -/
def walkParent (i : Node) (names : List Name) : Option (Node × Name) :=
  names.getLast?.bind fun last => (scheme.walk naming i names.dropLast).bind fun d =>
    if naming.kind d = scheme.directory then some (d, last) else none

/-- Where the names lead, or all of them but the last one. -/
def leads (parent : Bool) (i : Node) (names : List Name) : Option Node :=
  if parent = true then (scheme.walkParent naming i names).map Prod.fst
  else scheme.walk naming i names

variable {scheme naming} {d i j : Node} {name : Name} {names : List Name} {parent : Bool}

theorem leads_nil : scheme.leads naming parent i [] = if parent = true then none else some i := by
  cases parent with
  | false => rfl
  | true => rfl

theorem walk_cons : scheme.walk naming i (name :: names) =
    (scheme.child naming i name).bind fun j => scheme.walk naming j names := by
  rw [walk, List.foldlM_cons]
  rfl

theorem walkParent_cons (more : names ≠ []) : scheme.walkParent naming i (name :: names) =
    (scheme.child naming i name).bind fun j => scheme.walkParent naming j names := by
  obtain ⟨next, rest, rfl⟩ := List.exists_cons_of_ne_nil more
  simp only [walkParent, List.getLast?_cons_cons, List.dropLast_cons_cons, walk_cons]
  cases (next :: rest).getLast? with
  | none => simp
  | some last => simp [Option.bind_assoc]

/-- The directory that holds the last name is not looked into. -/
theorem leads_cons : scheme.leads naming parent i (name :: names) =
    if naming.kind i ≠ scheme.directory then none
    else if parent = true ∧ names = [] then some i
    else (scheme.child naming i name).bind fun j => scheme.leads naming parent j names := by
  by_cases directory : naming.kind i = scheme.directory
  · rw [if_neg (not_not.mpr directory)]
    cases parent with
    | false => simp [leads, walk_cons]
    | true =>
        by_cases last : names = []
        · simp [leads, walkParent, walk, last, directory]
        · simp [leads, walkParent_cons last, last, Option.map_bind]
  · have missing : scheme.child naming i name = none := if_neg directory
    rw [if_pos directory]
    cases parent with
    | false => simp [leads, walk_cons, missing]
    | true =>
        by_cases last : names = []
        · simp [leads, walkParent, walk, last, directory]
        · simp [leads, walkParent_cons last, missing]

theorem walkParent_last {last : Name} (found : scheme.walkParent naming i names = some (d, last)) :
    names.getLast? = some last := by
  obtain ⟨name, listed, found⟩ := Option.bind_eq_some_iff.mp found
  obtain ⟨x, -, found⟩ := Option.bind_eq_some_iff.mp found
  split at found
  · cases found
    exact listed
  · cases found

section Closed

variable (closed : scheme.Closed naming)
include closed

theorem child_live (live : scheme.Live naming i) (found : scheme.child naming i name = some j) :
    scheme.Live naming j := by
  rw [child] at found
  split at found
  · rename_i directory
    exact closed.closed ⟨directory, live.2⟩ found
  · cases found

/-- Names lead from live nodes to live nodes. -/
theorem walk_live (live : scheme.Live naming i) (found : scheme.walk naming i names = some j) :
    scheme.Live naming j := by
  induction names generalizing i with
  | nil =>
      cases found
      exact live
  | cons name rest inductionHypothesis =>
      rw [walk_cons] at found
      obtain ⟨next, first, further⟩ := Option.bind_eq_some_iff.mp found
      exact inductionHypothesis (child_live closed live first) further

theorem walkParent_directory (live : scheme.Live naming i)
    (found : scheme.walkParent naming i names = some (d, name)) : scheme.IsDirectory naming d := by
  obtain ⟨last, -, found⟩ := Option.bind_eq_some_iff.mp found
  obtain ⟨x, walked, found⟩ := Option.bind_eq_some_iff.mp found
  split at found
  · rename_i directory
    cases found
    exact ⟨directory, (walk_live closed live walked).2⟩
  · cases found

end Closed

end Walk

end Scheme

end Xv6.Library
