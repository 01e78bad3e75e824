import Mathlib.Data.Fintype.Card
import Mathlib.Logic.Relation

/-!
# Walks from a start node

What a search from one node of a directed graph needs: it ends if no node that it
reaches is on a cycle, and in a tree it reaches every node on one way only.
-/

namespace Xv6.Library

open Relation

universe u

variable {Node : Type u} (leads : Node → Node → Prop)

/-- No node that can be reached is on a cycle. -/
def Acyclic (start : Node) : Prop :=
  ∀ node, ReflTransGen leads start node → ¬TransGen leads node node

/-- Every node that can be reached has at most one predecessor, and the root none. -/
structure Tree (root : Node) : Prop where
  top : ∀ node, ReflTransGen leads root node → ¬leads node root
  once : ∀ first second node, ReflTransGen leads root first → ReflTransGen leads root second →
    leads first node → leads second node → first = second

variable {leads} {start node : Node}

/-- A search that may only go on where it comes closer to an end is finite. -/
theorem Acyclic.acc [Finite Node] (acyclic : Acyclic leads start) :
    Acc (fun later earlier => leads earlier later) start := by
  let below : Node → Node → Prop :=
    fun later earlier => ReflTransGen leads start earlier ∧ TransGen leads earlier later
  have trans : IsTrans Node below := by
    constructor
    intro first second third former latter
    exact ⟨latter.1, latter.2.trans former.2⟩
  have irrefl : Std.Irrefl below := by
    constructor
    intro node cycle
    exact acyclic node cycle.1 cycle.2
  have wellFounded := Finite.wellFounded_of_trans_of_irrefl below
  have reached : ∀ node, Acc below node → ReflTransGen leads start node →
      Acc (fun later earlier => leads earlier later) node := by
    intro node accessible
    induction accessible with
    | intro node _ inductionHypothesis =>
        intro path
        constructor
        intro later edge
        exact inductionHypothesis later ⟨path, TransGen.single edge⟩ (path.tail edge)
  exact reached start (wellFounded.apply start) ReflTransGen.refl

theorem no_cycle_of_acc (accessible : Acc (fun later earlier => leads earlier later) node) :
    ¬TransGen leads node node := by
  induction accessible with
  | intro node _ inductionHypothesis =>
      intro cycle
      rcases TransGen.head'_iff.mp cycle with ⟨next, edge, path⟩
      exact inductionHypothesis next edge (TransGen.tail' path edge)

theorem acyclic_of_acc (accessible : Acc (fun later earlier => leads earlier later) start) :
    Acyclic leads start := by
  intro node path
  have later : Acc (fun later earlier => leads earlier later) node := by
    induction path with
    | refl => exact accessible
    | tail _ edge inductionHypothesis => exact inductionHypothesis.inv edge
  exact no_cycle_of_acc later

theorem Tree.acyclic (tree : Tree leads start) : Acyclic leads start := by
  intro node path
  induction path with
  | refl =>
      intro cycle
      rcases TransGen.tail'_iff.mp cycle with ⟨last, path, edge⟩
      exact tree.top last path edge
  | @tail parent child path edge inductionHypothesis =>
      intro cycle
      rcases TransGen.tail'_iff.mp cycle with ⟨last, around, back⟩
      -- The last step of the cycle comes from the parent, which is then on it too.
      have same : last = parent := tree.once last parent child
        ((path.tail edge).trans around) path back edge
      subst same
      exact inductionHypothesis (TransGen.head' edge around)

/-- Two ways into one node go through the same child. -/
theorem Tree.child_eq (tree : Tree leads start) {first second : Node}
    (path : ReflTransGen leads start node) (former : leads node first) (latter : leads node second)
    {target : Node} (one : ReflTransGen leads first target)
    (other : ReflTransGen leads second target) : first = second := by
  have acyclic := tree.acyclic
  have climb : ∀ target, ReflTransGen leads first target → ReflTransGen leads second target →
      first = second ∨ ReflTransGen leads first node ∨ ReflTransGen leads second node := by
    intro target one
    induction one with
    | refl =>
        intro other
        rcases ReflTransGen.cases_tail other with same | ⟨last, around, edge⟩
        · exact Or.inl same
        · have back : last = node := tree.once last node first
            ((path.tail latter).trans around) path edge former
          subst back
          exact Or.inr (Or.inr around)
    | @tail parent child way edge inductionHypothesis =>
        intro other
        rcases ReflTransGen.cases_tail other with same | ⟨last, around, back⟩
        · subst same
          have last : parent = node := tree.once parent node child
            ((path.tail former).trans way) path edge latter
          subst last
          exact Or.inr (Or.inl way)
        · have same : last = parent := tree.once last parent child
            ((path.tail latter).trans around) ((path.tail former).trans way) back edge
          subst same
          exact inductionHypothesis around
  rcases climb target one other with same | back | back
  · exact same
  · exact absurd (TransGen.head' former back) (acyclic node path)
  · exact absurd (TransGen.head' latter back) (acyclic node path)

end Xv6.Library
