import Xv6.Library.Chain

/-!
# Circular doubly linked lists

A circular list with a head that is not an element. A pointer is an element, or
the head, `none`. The elements are given as the list that `next` visits from the
head; unlinking one and pushing one at the front change four pointers each.
-/

namespace Xv6.Library

variable {Cell : Type}

structure Links (Cell : Type) where
  next : Option Cell → Option Cell
  prev : Option Cell → Option Cell

/-- From `start` on, the elements are linked in both directions, and the last
one to the head. -/
def Linked (links : Links Cell) : Option Cell → List Cell → Prop
  | start, [] => links.next start = none ∧ links.prev none = start
  | start, cell :: rest =>
      links.next start = some cell ∧ links.prev (some cell) = start ∧
        Linked links (some cell) rest

/-- The elements of a circular list, from the head on. -/
structure Circle (links : Links Cell) (cells : List Cell) : Prop where
  linked : Linked links none cells
  nodup : cells.Nodup

/-- `for(b = …; b != &head; b = follow(b)) if(test(b)) return b;` -/
def search (follow : Cell → Option Cell) (test : Cell → Bool) : Nat → Option Cell → Option Cell
  | 0, _ => none
  | _ + 1, none => none
  | fuel + 1, some cell =>
      if test cell then some cell else search follow test fuel (follow cell)

theorem Chain.search_eq {follow : Cell → Option Cell} {start : Option Cell} {cells : List Cell}
    (chain : Chain follow start cells) (test : Cell → Bool) {fuel : Nat}
    (enough : cells.length < fuel) : search follow test fuel start = cells.find? test := by
  induction cells generalizing start fuel with
  | nil =>
      have ends : start = none := chain
      subst ends
      cases fuel with
      | zero => rfl
      | succ fuel => rfl
  | cons cell rest inductionHypothesis =>
      rcases chain with ⟨rfl, chain⟩
      cases fuel with
      | zero => cases enough
      | succ fuel =>
          have again := inductionHypothesis chain (Nat.lt_of_succ_lt_succ enough)
          cases found : test cell with
          | true => simp [search, found]
          | false => simp [search, found, again]

namespace Linked

variable {links other : Links Cell} {start : Option Cell} {cells : List Cell}

/-- Only the pointers between the elements matter. -/
theorem congr (linked : Linked links start cells)
    (next : ∀ place, place = start ∨ (∃ cell ∈ cells, place = some cell) →
      other.next place = links.next place)
    (prev : ∀ place, place = none ∨ (∃ cell ∈ cells, place = some cell) →
      other.prev place = links.prev place) : Linked other start cells := by
  induction cells generalizing start with
  | nil =>
      rcases linked with ⟨forward, backward⟩
      exact ⟨(next start (Or.inl rfl)).trans forward, (prev none (Or.inl rfl)).trans backward⟩
  | cons cell rest inductionHypothesis =>
      rcases linked with ⟨forward, backward, linked⟩
      refine ⟨(next start (Or.inl rfl)).trans forward, ?_, ?_⟩
      · exact (prev (some cell) (Or.inr ⟨cell, List.mem_cons_self .., rfl⟩)).trans backward
      · apply inductionHypothesis linked
        · intro place here
          apply next
          rcases here with rfl | ⟨inner, member, rfl⟩
          · exact Or.inr ⟨cell, List.mem_cons_self .., rfl⟩
          · exact Or.inr ⟨inner, List.mem_cons_of_mem _ member, rfl⟩
        · intro place here
          apply prev
          rcases here with rfl | ⟨inner, member, rfl⟩
          · exact Or.inl rfl
          · exact Or.inr ⟨inner, List.mem_cons_of_mem _ member, rfl⟩

/-- Following `next` from the head visits the elements. -/
theorem chain (linked : Linked links start cells) :
    Chain (fun cell => links.next (some cell)) (links.next start) cells := by
  induction cells generalizing start with
  | nil => exact linked.1
  | cons cell rest inductionHypothesis =>
      exact ⟨linked.1, inductionHypothesis linked.2.2⟩

/-- Following `prev` visits the elements after `start` from the last one on. -/
theorem chain_prev (linked : Linked links start cells) {before : List Cell}
    (visited : Chain (fun cell => links.prev (some cell)) start before) :
    Chain (fun cell => links.prev (some cell)) (links.prev none) (cells.reverse ++ before) := by
  induction cells generalizing start before with
  | nil =>
      rw [linked.2]
      exact visited
  | cons cell rest inductionHypothesis =>
      rcases linked with ⟨-, backward, linked⟩
      rw [List.reverse_cons, List.append_assoc]
      apply inductionHypothesis linked
      refine ⟨rfl, ?_⟩
      change Chain _ (links.prev (some cell)) before
      rw [backward]
      exact visited

/-- The two directions are inverse to each other. -/
theorem inverse (linked : Linked links start cells) :
    (∀ place, place = start ∨ (∃ cell ∈ cells, place = some cell) →
      links.prev (links.next place) = place) ∧
    ∀ place, place = none ∨ (∃ cell ∈ cells, place = some cell) →
      links.next (links.prev place) = place := by
  induction cells generalizing start with
  | nil =>
      rcases linked with ⟨forward, backward⟩
      constructor
      · rintro place (rfl | ⟨_, member, _⟩)
        · rw [forward, backward]
        · cases member
      · rintro place (rfl | ⟨_, member, _⟩)
        · rw [backward, forward]
        · cases member
  | cons cell rest inductionHypothesis =>
      rcases linked with ⟨forward, backward, linked⟩
      rcases inductionHypothesis linked with ⟨there, back⟩
      constructor
      · intro place here
        rcases here with rfl | ⟨inner, member, rfl⟩
        · rw [forward, backward]
        · apply there
          rcases List.mem_cons.mp member with rfl | later
          · exact Or.inl rfl
          · exact Or.inr ⟨inner, later, rfl⟩
      · intro place here
        rcases here with rfl | ⟨inner, member, rfl⟩
        · exact back none (Or.inl rfl)
        · rcases List.mem_cons.mp member with rfl | later
          · rw [backward, forward]
          · exact back _ (Or.inr ⟨inner, later, rfl⟩)

/-- What is before an element is `start` or an element before it. -/
theorem prev_mem {cell : Cell} {front back : List Cell}
    (linked : Linked links start (front ++ cell :: back)) :
    links.prev (some cell) = start ∨ ∃ inner ∈ front, links.prev (some cell) = some inner := by
  induction front generalizing start with
  | nil => exact Or.inl linked.2.1
  | cons first front inductionHypothesis =>
      rcases inductionHypothesis linked.2.2 with here | ⟨inner, member, same⟩
      · exact Or.inr ⟨first, List.mem_cons_self .., here⟩
      · exact Or.inr ⟨inner, List.mem_cons_of_mem _ member, same⟩

/-- What is after an element is an element after it, or the head. -/
theorem next_mem {cell : Cell} {front back : List Cell}
    (linked : Linked links start (front ++ cell :: back)) :
    links.next (some cell) = none ∨ ∃ inner ∈ back, links.next (some cell) = some inner := by
  induction front generalizing start with
  | nil =>
      have rest : Linked links (some cell) back := linked.2.2
      cases back with
      | nil => exact Or.inl rest.1
      | cons following back => exact Or.inr ⟨following, List.mem_cons_self .., rest.1⟩
  | cons first front inductionHypothesis => exact inductionHypothesis linked.2.2

end Linked

namespace Circle

variable {links : Links Cell} {cells : List Cell}

theorem chain (circle : Circle links cells) :
    Chain (fun cell => links.next (some cell)) (links.next none) cells :=
  circle.linked.chain

theorem chain_prev (circle : Circle links cells) :
    Chain (fun cell => links.prev (some cell)) (links.prev none) cells.reverse := by
  have nothing : Chain (fun cell => links.prev (some cell)) none [] := rfl
  have visited := circle.linked.chain_prev nothing
  rwa [List.append_nil] at visited

/-- When all cells are elements, `prev` is the inverse of `next`. -/
theorem inverse (circle : Circle links cells) (complete : ∀ cell, cell ∈ cells) :
    Function.LeftInverse links.prev links.next ∧ Function.RightInverse links.prev links.next := by
  have here : ∀ place, place = none ∨ ∃ cell ∈ cells, place = some cell := by
    intro place
    cases place with
    | none => exact Or.inl rfl
    | some cell => exact Or.inr ⟨cell, complete cell, rfl⟩
  rcases circle.linked.inverse with ⟨there, back⟩
  exact ⟨fun place => there place (here place), fun place => back place (here place)⟩

end Circle

namespace Links

variable [DecidableEq Cell]

/-- `b->next->prev = b->prev; b->prev->next = b->next;` -/
def unlink (b : Cell) (links : Links Cell) : Links Cell :=
  let links := { links with
    prev := Function.update links.prev (links.next (some b)) (links.prev (some b)) }
  { links with next := Function.update links.next (links.prev (some b)) (links.next (some b)) }

/-- `b->next = head.next; b->prev = &head; head.next->prev = b; head.next = b;` -/
def pushFront (b : Cell) (links : Links Cell) : Links Cell :=
  let links := { links with next := Function.update links.next (some b) (links.next none) }
  let links := { links with prev := Function.update links.prev (some b) none }
  let links := { links with prev := Function.update links.prev (links.next none) (some b) }
  { links with next := Function.update links.next none (some b) }

variable {links : Links Cell} {b : Cell}

theorem unlink_next : (links.unlink b).next =
    Function.update links.next (links.prev (some b)) (links.next (some b)) := by
  have same : Function.update links.prev (links.next (some b)) (links.prev (some b)) (some b) =
      links.prev (some b) := by
    by_cases self : some b = links.next (some b)
    · rw [← self, Function.update_self]
    · exact Function.update_of_ne self _ _
  simp only [unlink, same]

theorem unlink_prev : (links.unlink b).prev =
    Function.update links.prev (links.next (some b)) (links.prev (some b)) := rfl

theorem pushFront_next : (links.pushFront b).next =
    Function.update (Function.update links.next (some b) (links.next none)) none (some b) := rfl

theorem pushFront_prev : (links.pushFront b).prev =
    Function.update (Function.update links.prev (some b) none) (links.next none) (some b) := rfl

end Links

variable [DecidableEq Cell] {links : Links Cell} {b : Cell}

theorem Linked.unlink {start : Option Cell} {front back : List Cell}
    (linked : Linked links start (front ++ b :: back)) (nodup : (front ++ b :: back).Nodup)
    (apart : ∀ cell ∈ front ++ b :: back, start ≠ some cell) :
    Linked (links.unlink b) start (front ++ back) := by
  induction front generalizing start with
  | nil =>
      rcases linked with ⟨-, backward, linked⟩
      cases back with
      | nil =>
          rcases linked with ⟨forward, -⟩
          refine ⟨?_, ?_⟩
          · rw [Links.unlink_next, backward, Function.update_self, forward]
          · rw [Links.unlink_prev, forward, Function.update_self, backward]
      | cons following back =>
          rcases linked with ⟨forward, -, linked⟩
          refine ⟨?_, ?_, linked.congr ?_ ?_⟩
          · rw [Links.unlink_next, backward, Function.update_self, forward]
          · rw [Links.unlink_prev, forward, Function.update_self, backward]
          · intro place here
            rw [Links.unlink_next, backward]
            apply Function.update_of_ne
            rcases here with rfl | ⟨inner, member, rfl⟩
            · exact (apart following (by simp)).symm
            · exact (apart inner (by simp [member])).symm
          · intro place here
            rw [Links.unlink_prev, forward]
            apply Function.update_of_ne
            rcases here with rfl | ⟨inner, member, rfl⟩
            · exact nofun
            · intro same
              cases same
              exact (List.nodup_cons.mp (List.nodup_cons.mp nodup).2).1 member
  | cons first front inductionHypothesis =>
      have before := Linked.prev_mem linked.2.2
      have after := Linked.next_mem linked.2.2
      rcases linked with ⟨forward, backward, linked⟩
      have alone := List.nodup_cons.mp nodup
      refine ⟨?_, ?_, ?_⟩
      · rw [Links.unlink_next, Function.update_of_ne, forward]
        rcases before with same | ⟨inner, member, same⟩
        · rw [same]
          exact apart first (List.mem_cons_self ..)
        · rw [same]
          exact apart inner (by simp [member])
      · rw [Links.unlink_prev, Function.update_of_ne, backward]
        rcases after with same | ⟨inner, member, same⟩
        · rw [same]
          exact nofun
        · rw [same]
          intro equal
          cases equal
          exact alone.1 (by simp [member])
      · apply inductionHypothesis linked alone.2
        rintro cell member same
        cases same
        exact alone.1 member

theorem Linked.pushFront {cells : List Cell} (linked : Linked links none cells)
    (nodup : cells.Nodup) (fresh : b ∉ cells) :
    Linked (links.pushFront b) none (b :: cells) := by
  have outside : links.next none ≠ some b := by
    cases cells with
    | nil =>
        rw [linked.1]
        exact nofun
    | cons first rest =>
        rw [linked.1]
        rintro same
        cases same
        exact fresh (List.mem_cons_self ..)
  refine ⟨?_, ?_, ?_⟩
  · rw [Links.pushFront_next, Function.update_self]
  · rw [Links.pushFront_prev, Function.update_of_ne outside.symm, Function.update_self]
  · cases cells with
    | nil =>
        rcases linked with ⟨forward, -⟩
        refine ⟨?_, ?_⟩
        · rw [Links.pushFront_next, Function.update_of_ne (Option.some_ne_none b), Function.update_self, forward]
        · rw [Links.pushFront_prev, forward, Function.update_self]
    | cons first rest =>
        rcases linked with ⟨forward, -, linked⟩
        refine ⟨?_, ?_, linked.congr ?_ ?_⟩
        · rw [Links.pushFront_next, Function.update_of_ne (Option.some_ne_none b), Function.update_self, forward]
        · rw [Links.pushFront_prev, forward, Function.update_self]
        · intro place here
          have element : ∃ cell ∈ first :: rest, place = some cell := by
            rcases here with rfl | ⟨inner, member, rfl⟩
            · exact ⟨first, List.mem_cons_self .., rfl⟩
            · exact ⟨inner, List.mem_cons_of_mem _ member, rfl⟩
          rcases element with ⟨cell, member, rfl⟩
          have different : some cell ≠ some b := by
            rintro same
            cases same
            exact fresh member
          rw [Links.pushFront_next, Function.update_of_ne (Option.some_ne_none cell),
            Function.update_of_ne different]
        · intro place here
          rw [Links.pushFront_prev, forward]
          rcases here with rfl | ⟨inner, member, rfl⟩
          · rw [Function.update_of_ne (Option.some_ne_none first).symm,
              Function.update_of_ne (Option.some_ne_none b).symm]
          · have different : some inner ≠ some b := by
              rintro same
              cases same
              exact fresh (List.mem_cons_of_mem _ member)
            have later : some inner ≠ some first := by
              rintro same
              cases same
              exact (List.nodup_cons.mp nodup).1 member
            rw [Function.update_of_ne later, Function.update_of_ne different]

namespace Circle

variable {cells : List Cell}

theorem unlink (circle : Circle links cells) (member : b ∈ cells) :
    Circle (links.unlink b) (cells.erase b) := by
  rcases List.append_of_mem member with ⟨front, back, rfl⟩
  have away : b ∉ front := by
    intro here
    have disjoint := (List.nodup_append.mp circle.nodup).2.2
    exact disjoint b here b (List.mem_cons_self ..) rfl
  refine ⟨?_, circle.nodup.erase b⟩
  rw [List.erase_append_right _ away, List.erase_cons_head]
  exact circle.linked.unlink circle.nodup fun _ _ => nofun

theorem pushFront (circle : Circle links cells) (fresh : b ∉ cells) :
    Circle (links.pushFront b) (b :: cells) :=
  ⟨circle.linked.pushFront circle.nodup fresh, List.nodup_cons.mpr ⟨fresh, circle.nodup⟩⟩

end Circle

end Xv6.Library
