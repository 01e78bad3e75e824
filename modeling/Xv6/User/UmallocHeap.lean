import Mathlib.Data.List.Chain
import Mathlib.Data.List.Pairwise
import Mathlib.Order.CompletePartialOrder
import Xv6.User.Umalloc

/-!
# The heap

Every unit that `sbrk` has given is in one live or free block, and the free blocks
are in one circle in the order of their addresses. Both loops go around the circle once.
-/

namespace Xv6.Umalloc

open Xv6.Library

/-! ## Blocks -/

/-- The bytes of a block, with its header. -/
def extent (headers : Headers) (p : UInt32) : Set Nat :=
  {a | p.toNat ≤ a ∧ a < p.toNat + 8 * (headers p).size.toNat}

/-- The bytes of some blocks. -/
def cover (headers : Headers) (ps : List UInt32) : Set Nat :=
  {a | ∃ p ∈ ps, a ∈ extent headers p}

/-- The pointers lead from `x` through the blocks and then to `base`. -/
abbrev Linked (headers : Headers) (base x : UInt32) (ts : List UInt32) : Prop :=
  (x :: ts ++ [base]).IsChain fun p q => (headers p).ptr = q

/-- The list from `x` on: each block ends before the next one begins, with something between. -/
structure Onward (headers : Headers) (base x : UInt32) (ts : List UInt32) : Prop where
  linked : Linked headers base x ts
  spaced : (x :: ts).Pairwise fun p q => p.toNat + 8 * (headers p).size.toNat < q.toNat
  filled : ∀ p ∈ ts, 0 < (headers p).size.toNat
  inside : ∀ p ∈ x :: ts, p.toNat + 8 * (headers p).size.toNat < 4294967296

variable {headers later : Headers} {base x y bp p q : UInt32} {ts pre post blocks : List UInt32}

theorem mem_extent (positive : 0 < (headers p).size.toNat) : p.toNat ∈ extent headers p :=
  ⟨Nat.le_refl _, by omega⟩

theorem extent_of_size (same : (later p).size = (headers p).size) :
    extent later p = extent headers p := by
  rw [extent, same]
  rfl

theorem extent_congr (same : later p = headers p) : extent later p = extent headers p :=
  extent_of_size (by rw [same])

theorem cover_congr {ps : List UInt32} (same : ∀ p ∈ ps, later p = headers p) :
    cover later ps = cover headers ps := by
  ext a
  constructor
  · rintro ⟨p, member, inside⟩
    exact ⟨p, member, extent_congr (same p member) ▸ inside⟩
  · rintro ⟨p, member, inside⟩
    exact ⟨p, member, (extent_congr (same p member)).symm ▸ inside⟩

@[simp]
theorem cover_nil : cover headers [] = ∅ := by
  ext a
  simp [cover]

@[simp]
theorem cover_cons {ps : List UInt32} :
    cover headers (p :: ps) = extent headers p ∪ cover headers ps := by
  ext a
  simp [cover]

@[simp]
theorem cover_append {ps qs : List UInt32} :
    cover headers (ps ++ qs) = cover headers ps ∪ cover headers qs := by
  ext a
  simp [cover, or_and_right, exists_or]

theorem toNat_after (inside : p.toNat + 8 * (headers p).size.toNat < 4294967296) :
    (headers.after p).toNat = p.toNat + 8 * (headers p).size.toNat := by
  rw [Headers.after, UInt32.toNat_add, UInt32.toNat_mul, toNat_headerSize]
  omega

/-! ## The links -/

theorem Linked.next (linked : Linked headers base x ts) : (headers x).ptr = ts.headD base := by
  cases ts with
  | nil => exact (List.isChain_cons_cons.mp linked).1
  | cons t rest => exact (List.isChain_cons_cons.mp linked).1

theorem Linked.tail {t : UInt32} (linked : Linked headers base x (t :: ts)) :
    Linked headers base t ts :=
  (List.isChain_cons_cons.mp linked).2

theorem Linked.congr (linked : Linked headers base x ts)
    (same : ∀ p ∈ x :: ts, (later p).ptr = (headers p).ptr) : Linked later base x ts := by
  induction ts generalizing x with
  | nil =>
      refine List.isChain_cons_cons.mpr ⟨?_, List.isChain_singleton _⟩
      rw [same x List.mem_cons_self]
      exact linked.next
  | cons t rest inductionHypothesis =>
      refine List.isChain_cons_cons.mpr ⟨?_, inductionHypothesis linked.tail fun p member =>
        same p (List.mem_cons_of_mem _ member)⟩
      rw [same x List.mem_cons_self]
      exact linked.next

/-- `x` gets the pointer of `y`. -/
theorem Linked.relink (linked : Linked headers base y ts) (ptr : (later x).ptr = (headers y).ptr)
    (same : ∀ p ∈ ts, (later p).ptr = (headers p).ptr) : Linked later base x ts := by
  cases ts with
  | nil =>
      refine List.isChain_cons_cons.mpr ⟨?_, List.isChain_singleton _⟩
      rw [ptr]
      exact linked.next
  | cons t rest =>
      refine List.isChain_cons_cons.mpr ⟨?_, linked.tail.congr same⟩
      rw [ptr]
      exact linked.next

/-- `x` points to `y`. -/
theorem Linked.cons (linked : Linked headers base y ts) (ptr : (later x).ptr = y)
    (same : ∀ p ∈ y :: ts, (later p).ptr = (headers p).ptr) : Linked later base x (y :: ts) :=
  List.isChain_cons_cons.mpr ⟨ptr, linked.congr same⟩

namespace Onward

theorem tail {t : UInt32} (onward : Onward headers base x (t :: ts)) :
    Onward headers base t ts where
  linked := onward.linked.tail
  spaced := (List.pairwise_cons.mp onward.spaced).2
  filled p member := onward.filled p (List.mem_cons_of_mem _ member)
  inside p member := onward.inside p (List.mem_cons_of_mem _ member)

theorem before (onward : Onward headers base x ts) (member : q ∈ ts) :
    x.toNat + 8 * (headers x).size.toNat < q.toNat :=
  (List.pairwise_cons.mp onward.spaced).1 q member

/-- Blocks may get smaller. -/
theorem mono (onward : Onward headers base x ts)
    (ptr : ∀ p ∈ x :: ts, (later p).ptr = (headers p).ptr)
    (size : ∀ p ∈ x :: ts, (later p).size.toNat ≤ (headers p).size.toNat)
    (filled : ∀ p ∈ ts, 0 < (later p).size.toNat) : Onward later base x ts where
  linked := onward.linked.congr ptr
  spaced := onward.spaced.imp_of_mem fun member _ order => by
    have smaller := size _ member
    omega
  filled := filled
  inside p member := by
    have smaller := size p member
    have low := onward.inside p member
    omega

/-- Two blocks of the list. -/
theorem ordered (onward : Onward headers base x ts) (first : p ∈ x :: ts) (second : q ∈ x :: ts)
    (different : p ≠ q) : p.toNat + 8 * (headers p).size.toNat < q.toNat ∨
      q.toNat + 8 * (headers q).size.toNat < p.toNat := by
  have spaced := onward.spaced
  obtain ⟨before, after, split⟩ := List.append_of_mem first
  rw [split, List.mem_append, List.mem_cons] at second
  rw [split, List.pairwise_append, List.pairwise_cons] at spaced
  rcases second with ahead | rfl | behind
  · exact Or.inr (spaced.2.2 q ahead p List.mem_cons_self)
  · exact absurd rfl different
  · exact Or.inl (spaced.2.1.1 q behind)

/-- A block in front of the list. -/
theorem cons (onward : Onward headers base y ts) (ptr : (later x).ptr = y)
    (same : ∀ p ∈ y :: ts, later p = headers p) (positive : 0 < (headers y).size.toNat)
    (apart : x.toNat + 8 * (later x).size.toNat < y.toNat) : Onward later base x (y :: ts) where
  linked := onward.linked.cons ptr fun p member => by rw [same p member]
  spaced := by
    refine List.pairwise_cons.mpr ⟨fun q member => ?_,
      onward.spaced.imp_of_mem fun member _ order => by rwa [same _ member]⟩
    rcases List.mem_cons.mp member with rfl | after
    · exact apart
    · have further := onward.before after
      omega
  filled := by
    intro p member
    rw [same p member]
    rcases List.mem_cons.mp member with rfl | after
    · exact positive
    · exact onward.filled p after
  inside := by
    intro p member
    rcases List.mem_cons.mp member with rfl | after
    · have low := onward.inside y List.mem_cons_self
      omega
    · rw [same p after]
      exact onward.inside p after

/-- `x` takes the place of `y`. -/
theorem relink (onward : Onward headers base y ts) (ptr : (later x).ptr = (headers y).ptr)
    (same : ∀ p ∈ ts, later p = headers p)
    (ends : x.toNat + 8 * (later x).size.toNat ≤ y.toNat + 8 * (headers y).size.toNat) :
    Onward later base x ts where
  linked := onward.linked.relink ptr fun p member => by rw [same p member]
  spaced := by
    refine List.pairwise_cons.mpr ⟨fun q member => ?_,
      (List.pairwise_cons.mp onward.spaced).2.imp_of_mem fun member _ order => by
        rwa [same _ member]⟩
    have further := onward.before member
    omega
  filled := by
    intro p member
    rw [same p member]
    exact onward.filled p member
  inside := by
    intro p member
    rcases List.mem_cons.mp member with rfl | after
    · have low := onward.inside y List.mem_cons_self
      omega
    · rw [same p after]
      exact onward.inside p (List.mem_cons_of_mem _ after)

theorem behind (onward : Onward headers base x ts) (split : x :: ts = pre ++ p :: post) :
    ∀ q ∈ post, p.toNat + 8 * (headers p).size.toNat < q.toNat := by
  have spaced := onward.spaced
  rw [split, List.pairwise_append, List.pairwise_cons] at spaced
  exact spaced.2.1.1

theorem ahead (onward : Onward headers base x ts) (split : x :: ts = pre ++ p :: post) :
    ∀ q ∈ pre, q.toNat + 8 * (headers q).size.toNat < p.toNat := by
  have spaced := onward.spaced
  rw [split, List.pairwise_append] at spaced
  exact fun q member => spaced.2.2 q member p List.mem_cons_self

/-- Only the first block may be empty. -/
theorem filled_of_split (onward : Onward headers base x ts) (split : x :: ts = pre ++ p :: post) :
    pre = [] ∨ 0 < (headers p).size.toNat := by
  cases pre with
  | nil => exact Or.inl rfl
  | cons first rest =>
      refine Or.inr (onward.filled p ?_)
      rw [(List.cons.inj split).2]
      exact List.mem_append_right _ List.mem_cons_self

theorem mem_of_behind (split : x :: ts = pre ++ p :: post) (member : q ∈ post) : q ∈ ts := by
  cases pre with
  | nil =>
      rw [(List.cons.inj split).2]
      exact member
  | cons first rest =>
      rw [(List.cons.inj split).2]
      exact List.mem_append_right _ (List.mem_cons_of_mem _ member)

theorem suffix (whole : Onward headers base x blocks) (split : x :: blocks = pre ++ p :: post) :
    Onward headers base p post := by
  induction pre generalizing x blocks with
  | nil =>
      cases split
      exact whole
  | cons first pre inductionHypothesis =>
      cases blocks with
      | nil => simp at split
      | cons b bs => exact inductionHypothesis whole.tail (List.cons.inj split).2

/-- The rest of a list is replaced. -/
theorem replace {ts' : List UInt32} (whole : Onward headers base x blocks)
    (split : x :: blocks = pre ++ p :: post) (rest : Onward later base p ts')
    (same : ∀ q ∈ pre, later q = headers q) (positive : pre = [] ∨ 0 < (later p).size.toNat) :
    ∃ blocks', x :: blocks' = pre ++ p :: ts' ∧ Onward later base x blocks' := by
  induction pre generalizing x blocks with
  | nil =>
      cases split
      exact ⟨ts', rfl, rest⟩
  | cons first pre inductionHypothesis =>
      obtain ⟨rfl, behindFirst⟩ := List.cons.inj split
      have full : 0 < (later p).size.toNat := positive.resolve_left (List.cons_ne_nil _ _)
      have behind : ∀ q ∈ pre ++ p :: post, x.toNat + 8 * (headers x).size.toNat < q.toNat :=
        fun q member => whole.before (behindFirst ▸ member)
      cases blocks with
      | nil => simp at behindFirst
      | cons b bs =>
          obtain ⟨blocks', arranged, onward⟩ := inductionHypothesis whole.tail behindFirst
            (fun q member => same q (List.mem_cons_of_mem _ member)) (Or.inr full)
          refine ⟨b :: blocks', by rw [arranged]; rfl, ?_⟩
          have own := same x List.mem_cons_self
          refine onward.cons (by rw [own]; exact whole.linked.next) (fun _ _ => rfl) ?_ ?_
          · cases pre with
            | nil =>
                obtain ⟨rfl, -⟩ := List.cons.inj arranged
                exact full
            | cons second pre =>
                obtain ⟨rfl, -⟩ := List.cons.inj arranged
                rw [same b (List.mem_cons_of_mem _ List.mem_cons_self)]
                exact whole.filled b List.mem_cons_self
          · rw [own]
            exact whole.before List.mem_cons_self

/-- The list without the block after `x`. -/
theorem unlink (onward : Onward headers base base blocks)
    (split : base :: blocks = pre ++ x :: p :: post) :
    ∃ blocks', base :: blocks' = pre ++ x :: post ∧
      Onward (headers.setPtr x (headers p).ptr) base base blocks' := by
  have further : base :: blocks = (pre ++ [x]) ++ p :: post := by
    rw [split, List.append_assoc]
    rfl
  have low := onward.behind split p List.mem_cons_self
  have relinked : Onward (headers.setPtr x (headers p).ptr) base x post := by
    refine (onward.suffix further).relink (by rw [Headers.setPtr_self])
      (fun q member => Headers.setPtr_of_ne ?_) (by rw [Headers.size_setPtr]; omega)
    rintro rfl
    exact absurd (onward.behind split q (List.mem_cons_of_mem _ member)) (by omega)
  refine onward.replace split relinked (fun q member => Headers.setPtr_of_ne ?_) ?_
  · rintro rfl
    exact absurd (onward.ahead split q member) (by omega)
  · rw [Headers.size_setPtr]
    exact onward.filled_of_split split

end Onward

/-! ## Putting a block into the list -/

/-- `x` takes in `y` if it adjoins it, and points to it otherwise. -/
def absorb (headers : Headers) (x y : UInt32) : Headers :=
  if headers.after x = y then
    Function.update headers x ⟨(headers y).ptr, (headers x).size + (headers y).size⟩
  else headers.setPtr x y

theorem joinUpper_eq :
    joinUpper headers bp p = absorb headers bp (headers p).ptr := by
  rw [joinUpper, absorb]
  simp only [Headers.ptr_setSize, Headers.setPtr]
  rw [Headers.setSize, Function.update_self, Function.update_idem]

theorem joinLower_eq (different : bp ≠ p) : joinLower headers bp p = absorb headers p bp := by
  rw [joinLower, absorb]
  simp only [Headers.setPtr, Headers.setSize, Function.update_self, Function.update_idem,
    Function.update_of_ne different]

theorem absorb_of_ne (different : q ≠ x) : absorb headers x y q = headers q := by
  rw [absorb]
  split
  · exact Function.update_of_ne different ..
  · exact Function.update_of_ne different ..

/-- An empty block takes in nothing. -/
theorem size_absorb_empty (empty : (headers x).size = 0) (different : x ≠ y) :
    (absorb headers x y x).size = 0 := by
  have apart : headers.after x ≠ y := by
    rw [Headers.after, empty, UInt32.mul_zero, UInt32.add_zero]
    exact different
  rw [absorb, if_neg apart, Headers.size_setPtr]
  exact empty

/-- What has become of `x`: the list goes on from it, over the same bytes. -/
structure Absorbed (headers later : Headers) (base x y : UInt32) (ts ts' : List UInt32) : Prop where
  onward : Onward later base x ts'
  kept : ∀ q ∈ ts', q ∈ y :: ts
  bytes : cover later (x :: ts') = cover headers (x :: y :: ts)
  larger : (headers x).size.toNat ≤ (later x).size.toNat
  large : y ∈ ts' ∨ (headers y).size.toNat ≤ (later x).size.toNat

theorem absorb_absorbs (onward : Onward headers base y ts) (positive : 0 < (headers y).size.toNat)
    (order : x.toNat < y.toNat) (apart : x.toNat + 8 * (headers x).size.toNat ≤ y.toNat) :
    ∃ ts', Absorbed headers (absorb headers x y) base x y ts ts' := by
  have low := onward.inside y List.mem_cons_self
  have end_eq := @toNat_after headers x (by omega)
  have behind : ∀ q ∈ y :: ts, q ≠ x := by
    rintro q member rfl
    rcases List.mem_cons.mp member with rfl | after
    · omega
    · have further := onward.before after
      omega
  have same : ∀ q ∈ y :: ts, absorb headers x y q = headers q :=
    fun q member => absorb_of_ne (behind q member)
  by_cases adjoins : headers.after x = y
  · have place : x.toNat + 8 * (headers x).size.toNat = y.toNat := by rw [← end_eq, adjoins]
    have own : absorb headers x y x =
        ⟨(headers y).ptr, (headers x).size + (headers y).size⟩ := by
      rw [absorb, if_pos adjoins, Function.update_self]
    have size : (absorb headers x y x).size.toNat =
        (headers x).size.toNat + (headers y).size.toNat := by
      rw [own, UInt32.toNat_add]
      omega
    refine ⟨ts, onward.relink (by rw [own])
      (fun q member => same q (List.mem_cons_of_mem _ member)) (by omega),
      fun q member => List.mem_cons_of_mem _ member, ?_, by omega, Or.inr (by omega)⟩
    rw [cover_cons, cover_cons, cover_cons,
      cover_congr fun q member => same q (List.mem_cons_of_mem _ member), ← Set.union_assoc]
    congr 1
    ext a
    simp only [extent, Set.mem_ofPred_eq, Set.mem_union, size]
    omega
  · have own : absorb headers x y x = ⟨y, (headers x).size⟩ := by
      rw [absorb, if_neg adjoins, Headers.setPtr_self]
    have size : (absorb headers x y x).size = (headers x).size := by rw [own]
    have between : x.toNat + 8 * (headers x).size.toNat ≠ y.toNat := by
      intro place
      exact adjoins (UInt32.toNat_inj.mp (end_eq.trans place))
    refine ⟨y :: ts, onward.cons (by rw [own]) same positive (by rw [size]; omega),
      fun q member => member, ?_, by rw [size], Or.inl List.mem_cons_self⟩
    rw [@cover_cons _ x, @cover_cons headers x, cover_congr same, extent, size, extent]

/-- The block `bp` has been put into the list behind `p`. -/
structure Inserted (headers later : Headers) (base bp p : UInt32) (blocks blocks' : List UInt32) :
    Prop where
  onward : Onward later base base blocks'
  member : p ∈ base :: blocks'
  kept : ∀ q ∈ blocks', q ∈ bp :: blocks
  bytes : cover later (base :: blocks') = cover headers (bp :: base :: blocks)
  others : ∀ q, q ≠ p → q ≠ bp → later q = headers q
  empty : (later base).size = 0
  large : ∃ q ∈ blocks', (headers bp).size.toNat ≤ (later q).size.toNat

/-- The first `if` of `free`. -/
theorem joinUpper_absorbs (onward : Onward headers base p post) (above : base.toNat < bp.toNat)
    (high : ∀ q ∈ post, bp.toNat + 8 * (headers bp).size.toNat ≤ q.toNat)
    (positive : 0 < (headers bp).size.toNat)
    (inside : bp.toNat + 8 * (headers bp).size.toNat < 4294967296) :
    ∃ ts, Onward (joinUpper headers bp p) base bp ts ∧ (∀ q ∈ ts, q ∈ post) ∧
      cover (joinUpper headers bp p) (bp :: ts) = cover headers (bp :: post) ∧
      (headers bp).size.toNat ≤ (joinUpper headers bp p bp).size.toNat := by
  rw [joinUpper_eq, onward.linked.next]
  cases post with
  | nil =>
      have apart : headers.after bp ≠ base := by
        intro same
        have place := toNat_after inside
        rw [same] at place
        omega
      have own : absorb headers bp base bp = ⟨base, (headers bp).size⟩ := by
        rw [absorb, if_neg apart, Headers.setPtr_self]
      refine ⟨[], ⟨?_, List.pairwise_singleton .., nofun, ?_⟩, nofun, ?_, ?_⟩
      · exact List.isChain_cons_cons.mpr ⟨by rw [List.headD_nil, own], List.isChain_singleton _⟩
      · intro q member
        rw [List.mem_singleton.mp member, List.headD_nil, own]
        exact inside
      · rw [List.headD_nil, cover_cons, cover_cons, extent, own, extent]
        simp
      · rw [List.headD_nil, own]
  | cons t rest =>
      have full := onward.filled t List.mem_cons_self
      have after := high t List.mem_cons_self
      obtain ⟨ts, absorbed⟩ := absorb_absorbs onward.tail full (by omega) after
      exact ⟨ts, absorbed.onward, absorbed.kept, absorbed.bytes, absorbed.larger⟩

theorem joins (onward : Onward headers base base blocks) (empty : (headers base).size = 0)
    (split : base :: blocks = pre ++ p :: post)
    (low : p.toNat + 8 * (headers p).size.toNat ≤ bp.toNat)
    (order : p.toNat < bp.toNat) (above : base.toNat < bp.toNat)
    (high : ∀ q ∈ post, bp.toNat + 8 * (headers bp).size.toNat ≤ q.toNat)
    (positive : 0 < (headers bp).size.toNat)
    (inside : bp.toNat + 8 * (headers bp).size.toNat < 4294967296) :
    ∃ blocks', Inserted headers (joinLower (joinUpper headers bp p) bp p) base bp p blocks
      blocks' := by
  have fresh : bp ≠ p := by
    rintro rfl
    omega
  obtain ⟨ts, upper, fromPost, upperBytes, upperLarge⟩ :=
    joinUpper_absorbs (onward.suffix split) above high positive inside
  have upperOthers : ∀ q, q ≠ bp → joinUpper headers bp p q = headers q := by
    intro q different
    rw [joinUpper_eq, absorb_of_ne different]
  obtain ⟨ts', absorbed⟩ := absorb_absorbs upper (by omega) order (by
    rw [upperOthers p fresh.symm]
    exact low)
  rw [joinLower_eq fresh]
  have others : ∀ q, q ≠ p → q ≠ bp → absorb (joinUpper headers bp p) p bp q = headers q :=
    fun q first second => (absorb_of_ne first).trans (upperOthers q second)
  have front : ∀ q ∈ pre, absorb (joinUpper headers bp p) p bp q = headers q := by
    intro q member
    have before := onward.ahead split q member
    refine others q ?_ ?_
    · rintro rfl
      omega
    · rintro rfl
      omega
  have grown : (headers p).size.toNat ≤ (absorb (joinUpper headers bp p) p bp p).size.toNat := by
    rw [← upperOthers p fresh.symm]
    exact absorbed.larger
  obtain ⟨blocks', arranged, whole⟩ := onward.replace split absorbed.onward front
    ((onward.filled_of_split split).imp_right fun full => Nat.lt_of_lt_of_le full grown)
  have baseFresh : base ≠ bp := by
    rintro rfl
    omega
  have empty' : (absorb (joinUpper headers bp p) p bp base).size = 0 := by
    by_cases same : base = p
    · subst same
      exact size_absorb_empty (by rw [upperOthers base baseFresh]; exact empty) baseFresh
    · rw [others base same baseFresh]
      exact empty
  have behind : ∀ q ∈ blocks', q ≠ base := by
    rintro q member rfl
    have further := whole.before member
    omega
  refine ⟨blocks', whole, ?_, ?_, ?_, others, empty', ?_⟩
  · rw [arranged]
    exact List.mem_append_right _ List.mem_cons_self
  · intro q member
    have old : q ∈ base :: blocks → q ∈ bp :: blocks := by
      intro there
      exact List.mem_cons_of_mem _ ((List.mem_cons.mp there).resolve_left (behind q member))
    have placed : q ∈ pre ++ p :: ts' := arranged ▸ List.mem_cons_of_mem _ member
    rcases List.mem_append.mp placed with front | back
    · exact old (split ▸ List.mem_append_left _ front)
    rcases List.mem_cons.mp back with rfl | back
    · exact old (split ▸ List.mem_append_right _ List.mem_cons_self)
    rcases List.mem_cons.mp (absorbed.kept q back) with rfl | back
    · exact List.mem_cons_self
    · exact old (split ▸ List.mem_append_right _ (List.mem_cons_of_mem _ (fromPost q back)))
  · rw [arranged, cover_append, cover_congr front, absorbed.bytes, @cover_cons _ p, upperBytes,
      extent_congr (upperOthers p fresh.symm), @cover_cons _ bp, @cover_cons _ bp, split,
      cover_append, cover_cons]
    ac_rfl
  · rcases absorbed.large with there | larger
    · have placed : bp ∈ base :: blocks' := by
        rw [arranged]
        exact List.mem_append_right _ (List.mem_cons_of_mem _ there)
      refine ⟨bp, (List.mem_cons.mp placed).resolve_left baseFresh.symm, ?_⟩
      rw [absorb_of_ne fresh]
      exact upperLarge
    · have placed : p ∈ base :: blocks' := by
        rw [arranged]
        exact List.mem_append_right _ List.mem_cons_self
      have notBase : p ≠ base := by
        rintro rfl
        rw [empty', UInt32.toNat_zero] at larger
        omega
      exact ⟨p, (List.mem_cons.mp placed).resolve_left notBase, Nat.le_trans upperLarge larger⟩

/-! ## The loop of free -/

theorem Onward.order (onward : Onward headers base x ts) (member : q ∈ ts) : x.toNat < q.toNat := by
  have before := onward.before member
  omega

/-- Once below `bp`, the loop ends on the way up. -/
theorem findPlace_upwards (onward : Onward headers base p post) (above : base.toNat ≤ p.toNat)
    (low : p.toNat < bp.toNat) (fresh : bp ∉ post) :
    ∃ front last back, p :: post = front ++ last :: back ∧ last.toNat < bp.toNat ∧
      (∀ q ∈ back, bp.toNat < q.toNat) ∧
      ∀ fuel > post.length, findPlace headers bp fuel p = some last := by
  have greater : bp > p := UInt32.lt_iff_toNat_lt.mpr low
  induction post generalizing p with
  | nil =>
      refine ⟨[], p, [], rfl, low, nofun, fun fuel enough => ?_⟩
      obtain ⟨fuel, rfl⟩ : ∃ turns, fuel = turns + 1 := ⟨fuel - 1, by omega⟩
      have wraps : p ≥ base := UInt32.le_iff_toNat_le.mpr above
      simp only [findPlace, onward.linked.next, List.headD_nil]
      split
      · rfl
      · rw [if_pos ⟨wraps, Or.inl greater⟩]
  | cons t rest inductionHypothesis =>
      have up := onward.order List.mem_cons_self
      by_cases here : bp.toNat < t.toNat
      · refine ⟨[], p, t :: rest, rfl, low, fun q member => ?_, fun fuel enough => ?_⟩
        · rcases List.mem_cons.mp member with rfl | later
          · exact here
          · exact Nat.lt_trans here (onward.tail.order later)
        · obtain ⟨fuel, rfl⟩ : ∃ turns, fuel = turns + 1 := ⟨fuel - 1, by omega⟩
          simp only [findPlace, onward.linked.next, List.headD_cons]
          rw [if_pos ⟨greater, UInt32.lt_iff_toNat_lt.mpr here⟩]
      · have different : t.toNat ≠ bp.toNat := by
          intro same
          exact fresh (UInt32.toNat_inj.mp same ▸ List.mem_cons_self)
        have further : t.toNat < bp.toNat := by omega
        obtain ⟨front, last, back, split, below, high, ends⟩ := inductionHypothesis onward.tail
          (by omega) further (fun member => fresh (List.mem_cons_of_mem _ member))
          (UInt32.lt_iff_toNat_lt.mpr further)
        refine ⟨p :: front, last, back, by rw [split]; rfl, below, high, fun fuel enough => ?_⟩
        obtain ⟨fuel, rfl⟩ : ∃ turns, fuel = turns + 1 := ⟨fuel - 1, by omega⟩
        simp only [findPlace, onward.linked.next, List.headD_cons]
        rw [if_neg fun both => here (UInt32.lt_iff_toNat_lt.mp both.2),
          if_neg fun both => absurd (UInt32.le_iff_toNat_le.mp both.1) (by omega)]
        exact ends fuel (by rw [List.length_cons] at enough; omega)

/-- Above `bp` the loop goes on to `base`. -/
theorem findPlace_wraps (onward : Onward headers base p post) (above : base.toNat < bp.toNat)
    (high : bp.toNat < p.toNat) (fuel : Nat) :
    findPlace headers bp (fuel + post.length + 1) p = findPlace headers bp fuel base := by
  induction post generalizing p with
  | nil =>
      simp only [findPlace, onward.linked.next, List.headD_nil, List.length_nil, Nat.add_zero]
      rw [if_neg fun both => absurd (UInt32.lt_iff_toNat_lt.mp both.1) (by omega),
        if_neg]
      rintro ⟨-, greater | less⟩
      · exact absurd (UInt32.lt_iff_toNat_lt.mp greater) (by omega)
      · exact absurd (UInt32.lt_iff_toNat_lt.mp less) (by omega)
  | cons t rest inductionHypothesis =>
      have up := onward.order List.mem_cons_self
      rw [List.length_cons, ← Nat.add_assoc, findPlace]
      simp only [onward.linked.next, List.headD_cons]
      rw [if_neg fun both => absurd (UInt32.lt_iff_toNat_lt.mp both.1) (by omega),
        if_neg fun both => absurd (UInt32.le_iff_toNat_le.mp both.1) (by omega)]
      exact inductionHypothesis onward.tail (by omega)

/-- The loop ends at the block below `bp`, wherever it starts. -/
theorem findPlace_ends (onward : Onward headers base base blocks) (start : p ∈ base :: blocks)
    (above : base.toNat < bp.toNat) (fresh : bp ∉ base :: blocks) :
    ∃ pre last post, base :: blocks = pre ++ last :: post ∧ last.toNat < bp.toNat ∧
      (∀ q ∈ post, bp.toNat < q.toNat) ∧
      ∀ fuel > 2 * blocks.length + 2, findPlace headers bp fuel p = some last := by
  obtain ⟨before, after, split⟩ := List.append_of_mem start
  have onwards := onward.suffix split
  have length : blocks.length + 1 = before.length + (after.length + 1) := by
    have both := congrArg List.length split
    rwa [List.length_cons, List.length_append, List.length_cons] at both
  have different : p.toNat ≠ bp.toNat := by
    intro same
    rw [UInt32.toNat_inj.mp same] at start
    exact fresh start
  rcases Nat.lt_or_gt_of_ne different with low | high
  · have least : base.toNat ≤ p.toNat := by
      rcases List.mem_cons.mp start with rfl | member
      · exact Nat.le_refl _
      · exact Nat.le_of_lt (onward.order member)
    obtain ⟨front, last, back, further, below, rest, ends⟩ :=
      findPlace_upwards onwards least low fun member =>
        fresh (split ▸ List.mem_append_right _ (List.mem_cons_of_mem _ member))
    refine ⟨before ++ front, last, back, ?_, below, rest, fun fuel enough => ends fuel (by omega)⟩
    rw [split, further, List.append_assoc]
  · obtain ⟨front, last, back, further, below, rest, ends⟩ :=
      findPlace_upwards onward (Nat.le_refl _) above fun member =>
        fresh (List.mem_cons_of_mem _ member)
    refine ⟨front, last, back, further, below, rest, fun fuel enough => ?_⟩
    obtain ⟨turns, rfl⟩ : ∃ turns, fuel = turns + after.length + 1 :=
      ⟨fuel - after.length - 1, by omega⟩
    rw [findPlace_wraps onwards above high]
    exact ends turns (by omega)

/-! ## Cutting a block -/

/-- The block `p` has given its last `n` units to a block at `r`. -/
structure Cut (headers later : Headers) (p r n : UInt32) : Prop where
  large : n.toNat < (headers p).size.toNat
  place : r.toNat = p.toNat + 8 * ((headers p).size.toNat - n.toNat)
  ptr : (later p).ptr = (headers p).ptr
  size : (later p).size.toNat = (headers p).size.toNat - n.toNat
  rest : (later r).size = n
  others : ∀ q, q ≠ p → q ≠ r → later q = headers q

theorem cut_of_setSize {n : UInt32} (positive : 0 < n.toNat)
    (large : n.toNat < (headers p).size.toNat)
    (inside : p.toNat + 8 * (headers p).size.toNat < 4294967296) :
    Cut headers ((headers.setSize p ((headers p).size - n)).setSize
      ((headers.setSize p ((headers p).size - n)).after p) n) p
      ((headers.setSize p ((headers p).size - n)).after p) n := by
  have less : ((headers p).size - n).toNat = (headers p).size.toNat - n.toNat :=
    UInt32.toNat_sub_of_le _ _ (UInt32.le_iff_toNat_le.mpr (Nat.le_of_lt large))
  have place : ((headers.setSize p ((headers p).size - n)).after p).toNat =
      p.toNat + 8 * ((headers p).size.toNat - n.toNat) := by
    rw [toNat_after (by rw [Headers.setSize_self, less]; omega), Headers.setSize_self, less]
  generalize (headers.setSize p ((headers p).size - n)).after p = r at place
  have different : p ≠ r := by
    rintro rfl
    omega
  refine ⟨large, place, ?_, ?_, ?_, fun q first second => ?_⟩
  · rw [Headers.ptr_setSize, Headers.ptr_setSize]
  · rw [Headers.setSize_of_ne different, Headers.setSize_self]
    exact less
  · rw [Headers.setSize_self]
  · rw [Headers.setSize_of_ne second, Headers.setSize_of_ne first]

namespace Cut

variable {r n : UInt32}

theorem bytes (cut : Cut headers later p r n) :
    extent later p ∪ extent later r = extent headers p := by
  have large := cut.large
  ext a
  simp only [extent, Set.mem_union, Set.mem_ofPred_eq, cut.size, cut.rest, cut.place]
  omega

theorem apart (cut : Cut headers later p r n) : Disjoint (extent later r) (extent later p) := by
  refine Set.disjoint_left.mpr fun a here there => ?_
  obtain ⟨low, -⟩ := here
  obtain ⟨-, high⟩ := there
  rw [cut.size] at high
  rw [cut.place] at low
  omega

end Cut

/-! ## The whole heap -/

/-- The bytes of the live blocks. -/
def liveBytes (headers : Headers) (live : Set UInt32) : Set Nat :=
  {a | ∃ p ∈ live, a ∈ extent headers p}

theorem liveBytes_congr {live : Set UInt32} (same : ∀ p ∈ live, later p = headers p) :
    liveBytes later live = liveBytes headers live := by
  ext a
  constructor
  · rintro ⟨p, member, inside⟩
    exact ⟨p, member, extent_congr (same p member) ▸ inside⟩
  · rintro ⟨p, member, inside⟩
    exact ⟨p, member, (extent_congr (same p member)).symm ▸ inside⟩

/-- The bytes that `sbrk` has given are those of the live blocks and of the free blocks, each of
one block only. -/
structure Heap (given : Set Nat) (base : UInt32) (headers : Headers) (live : Set UInt32)
    (blocks : List UInt32) : Prop where
  onward : Onward headers base base blocks
  empty : (headers base).size = 0
  full : ∀ p ∈ live, 0 < (headers p).size.toNat
  within : ∀ p ∈ live, p.toNat + 8 * (headers p).size.toNat < 4294967296
  apart : ∀ p ∈ live, ∀ q ∈ live, p ≠ q → Disjoint (extent headers p) (extent headers q)
  free : ∀ p ∈ live, Disjoint (extent headers p) (cover headers blocks)
  tiled : given = cover headers blocks ∪ liveBytes headers live
  above : ∀ a ∈ given, base.toNat + 8 ≤ a
  aligned : ∀ p, p ∈ blocks ∨ p ∈ live → p.toNat % 8 = 0

namespace Heap

variable {given : Set Nat} {live : Set UInt32}

theorem live_given (heap : Heap given base headers live blocks) (member : p ∈ live) :
    extent headers p ⊆ given := by
  rw [heap.tiled]
  exact fun a inside => Or.inr ⟨p, member, inside⟩

theorem block_given (heap : Heap given base headers live blocks) (member : p ∈ blocks) :
    extent headers p ⊆ given := by
  rw [heap.tiled]
  exact fun a inside => Or.inl ⟨p, member, inside⟩

theorem extent_base (heap : Heap given base headers live blocks) : extent headers base = ∅ := by
  ext a
  rw [extent, heap.empty, UInt32.toNat_zero]
  simp

theorem cover_ring (heap : Heap given base headers live blocks) :
    cover headers (base :: blocks) = cover headers blocks := by
  rw [cover_cons, heap.extent_base, Set.empty_union]

theorem block_above (heap : Heap given base headers live blocks) (member : p ∈ blocks) :
    base.toNat + 8 ≤ p.toNat :=
  heap.above _ (heap.block_given member (mem_extent (heap.onward.filled p member)))

theorem live_above (heap : Heap given base headers live blocks) (member : p ∈ live) :
    base.toNat + 8 ≤ p.toNat :=
  heap.above _ (heap.live_given member (mem_extent (heap.full p member)))

theorem live_not_free (heap : Heap given base headers live blocks) (member : p ∈ live) :
    p ∉ base :: blocks := by
  intro listed
  rcases List.mem_cons.mp listed with rfl | inner
  · have low := heap.live_above member
    omega
  · have own := mem_extent (heap.full p member)
    exact Set.disjoint_left.mp (heap.free p member) own ⟨p, inner, own⟩

/-- Only the headers of the blocks matter. -/
theorem congr (heap : Heap given base headers live blocks)
    (same : ∀ q, q ∈ base :: blocks ∨ q ∈ live → later q = headers q) :
    Heap given base later live blocks := by
  have ring : ∀ q ∈ base :: blocks, later q = headers q := fun q member => same q (Or.inl member)
  have rest : ∀ q ∈ live, later q = headers q := fun q member => same q (Or.inr member)
  have covered : cover later blocks = cover headers blocks :=
    cover_congr fun q member => ring q (List.mem_cons_of_mem _ member)
  have lived := liveBytes_congr rest
  refine ⟨heap.onward.mono ?_ ?_ ?_, ?_, ?_, ?_, ?_, ?_, ?_, heap.above, heap.aligned⟩
  · intro q member
    rw [ring q member]
  · intro q member
    rw [ring q member]
  · intro q member
    rw [ring q (List.mem_cons_of_mem _ member)]
    exact heap.onward.filled q member
  · rw [ring base List.mem_cons_self]
    exact heap.empty
  · intro q member
    rw [rest q member]
    exact heap.full q member
  · intro q member
    rw [rest q member]
    exact heap.within q member
  · intro first left second right different
    rw [extent_congr (rest first left), extent_congr (rest second right)]
    exact heap.apart first left second right different
  · intro q member
    rw [extent_congr (rest q member), covered]
    exact heap.free q member
  · rw [covered, lived]
    exact heap.tiled

/-- A header is written behind all memory. -/
theorem setSize_behind (heap : Heap given base headers live blocks)
    (above : base.toNat + 8 ≤ p.toNat) (higher : ∀ a ∈ given, a < p.toNat) (size : UInt32) :
    Heap given base (headers.setSize p size) live blocks := by
  refine heap.congr fun q member => Headers.setSize_of_ne ?_
  rintro rfl
  have outside : q.toNat ∉ given := fun inside => absurd (higher _ inside) (Nat.lt_irrefl _)
  rcases member with listed | alive
  · rcases List.mem_cons.mp listed with rfl | block
    · omega
    · exact outside (heap.block_given block (mem_extent (heap.onward.filled q block)))
  · exact outside (heap.live_given alive (mem_extent (heap.full q alive)))

/-- A live block is left out. -/
theorem drop (heap : Heap given base headers live blocks) (member : p ∈ live) :
    Heap (given \ extent headers p) base headers (live \ {p}) blocks where
  onward := heap.onward
  empty := heap.empty
  full q rest := heap.full q rest.1
  within q rest := heap.within q rest.1
  apart first left second right := heap.apart first left.1 second right.1
  free q rest := heap.free q rest.1
  tiled := by
    have away := Set.disjoint_left.mp (heap.free p member)
    rw [heap.tiled]
    ext a
    constructor
    · rintro ⟨free | ⟨q, there, inside⟩, outside⟩
      · exact Or.inl free
      · refine Or.inr ⟨q, ⟨there, ?_⟩, inside⟩
        rintro rfl
        exact outside inside
    · rintro (free | ⟨q, ⟨there, different⟩, inside⟩)
      · exact ⟨Or.inl free, fun own => away own free⟩
      · exact ⟨Or.inr ⟨q, there, inside⟩, fun own =>
          Set.disjoint_left.mp (heap.apart q there p member different) inside own⟩
  above a inside := heap.above a inside.1
  aligned q rest := heap.aligned q (rest.imp_right And.left)

theorem inserted (heap : Heap given base headers live blocks) {blocks' : List UInt32}
    (inserted : Inserted headers later base bp p blocks blocks') (listed : p ∈ base :: blocks)
    (positive : 0 < (headers bp).size.toNat) (aligned : bp.toNat % 8 = 0)
    (above : base.toNat + 8 ≤ bp.toNat) (fresh : Disjoint (extent headers bp) given) :
    Heap (given ∪ extent headers bp) base later live blocks' := by
  have away := Set.disjoint_left.mp fresh
  have rest : ∀ q ∈ live, later q = headers q := by
    intro q member
    refine inserted.others q ?_ ?_
    · rintro rfl
      exact heap.live_not_free member listed
    · rintro rfl
      exact away (mem_extent positive) (heap.live_given member (mem_extent positive))
  have lived := liveBytes_congr rest
  have bytes : cover later blocks' = extent headers bp ∪ cover headers blocks := by
    have none : extent later base = ∅ := by
      ext a
      rw [extent, inserted.empty, UInt32.toNat_zero]
      simp
    have all := inserted.bytes
    rw [cover_cons, cover_cons, cover_cons, none, heap.extent_base, Set.empty_union,
      Set.empty_union] at all
    exact all
  refine ⟨inserted.onward, inserted.empty, ?_, ?_, ?_, ?_, ?_, ?_, ?_⟩
  · intro q member
    rw [rest q member]
    exact heap.full q member
  · intro q member
    rw [rest q member]
    exact heap.within q member
  · intro first left second right different
    rw [extent_congr (rest first left), extent_congr (rest second right)]
    exact heap.apart first left second right different
  · intro q member
    rw [extent_congr (rest q member), bytes, Set.disjoint_union_right]
    exact ⟨(fresh.mono_right (heap.live_given member)).symm, heap.free q member⟩
  · rw [bytes, lived, heap.tiled]
    ac_rfl
  · rintro a (old | new)
    · exact heap.above a old
    · exact Nat.le_trans above new.1
  · rintro q (block | member)
    · rcases List.mem_cons.mp (inserted.kept q block) with rfl | old
      · exact aligned
      · exact heap.aligned q (Or.inl old)
    · exact heap.aligned q (Or.inr member)

/-- `free` on a block that is not in the heap. -/
theorem inserts {s : Process Os} (heap : Heap given base s.headers live blocks)
    (roving : s.freep ∈ base :: blocks) (positive : 0 < (s.headers bp).size.toNat)
    (inside : bp.toNat + 8 * (s.headers bp).size.toNat < 4294967296) (aligned : bp.toNat % 8 = 0)
    (above : base.toNat + 8 ≤ bp.toNat) (fresh : Disjoint (extent s.headers bp) given) :
    ∃ next blocks', (∀ fuel > 2 * blocks.length + 2,
        Umalloc.free fuel (bp + headerSize) s = .done () next) ∧
      next.os = s.os ∧ next.freep ∈ base :: blocks' ∧
      Heap (given ∪ extent s.headers bp) base next.headers live blocks' ∧
      ∃ q ∈ blocks', (s.headers bp).size.toNat ≤ (next.headers q).size.toNat := by
  have away := Set.disjoint_left.mp fresh
  have own := mem_extent positive
  have notListed : bp ∉ base :: blocks := by
    intro listed
    rcases List.mem_cons.mp listed with rfl | inner
    · omega
    · exact away own (heap.block_given inner own)
  obtain ⟨pre, last, post, split, low, high, ends⟩ :=
    findPlace_ends heap.onward roving (by omega) notListed
  have lastListed : last ∈ base :: blocks := split ▸ List.mem_append_right _ List.mem_cons_self
  have lower : last.toNat + 8 * (s.headers last).size.toNat ≤ bp.toNat := by
    by_contra into
    rcases List.mem_cons.mp lastListed with rfl | inner
    · rw [heap.empty, UInt32.toNat_zero] at into
      omega
    · exact away own (heap.block_given inner ⟨by omega, by omega⟩)
  have higher : ∀ q ∈ post, bp.toNat + 8 * (s.headers bp).size.toNat ≤ q.toNat := by
    intro q member
    have upper := high q member
    have inner : q ∈ blocks := Onward.mem_of_behind split member
    by_contra into
    exact away ⟨by omega, by omega⟩
      (heap.block_given inner (mem_extent (heap.onward.filled q inner)))
  obtain ⟨blocks', inserted⟩ := joins heap.onward heap.empty split lower low (by omega) higher
    positive inside
  have pointer : bp + headerSize - headerSize = bp := UInt32.add_sub_cancel ..
  refine ⟨{ s with headers := joinLower (joinUpper s.headers bp last) bp last, freep := last },
    blocks', fun fuel enough => ?_, rfl, inserted.member,
    heap.inserted inserted lastListed positive aligned above fresh, inserted.large⟩
  rw [Umalloc.free, pointer]
  simp only [ends fuel enough]

/-- A part of the free memory becomes a live block. -/
theorem splitOff (heap : Heap given base headers live blocks) {blocks' : List UInt32}
    (onward : Onward later base base blocks') (empty : (later base).size = 0)
    (rest : ∀ q ∈ live, later q = headers q) (positive : 0 < (later p).size.toNat)
    (inside : p.toNat + 8 * (later p).size.toNat < 4294967296) (aligned : p.toNat % 8 = 0)
    (apart : Disjoint (extent later p) (cover later blocks'))
    (bytes : cover later blocks' ∪ extent later p = cover headers blocks)
    (kept : ∀ q ∈ blocks', q ∈ blocks) : Heap given base later (insert p live) blocks' := by
  have part : extent later p ⊆ cover headers blocks := bytes ▸ Set.subset_union_right
  have left : cover later blocks' ⊆ cover headers blocks := bytes ▸ Set.subset_union_left
  have away : ∀ q ∈ live, Disjoint (extent later p) (extent later q) := by
    intro q member
    rw [extent_congr (rest q member)]
    exact ((heap.free q member).mono_right part).symm
  refine ⟨onward, empty, ?_, ?_, ?_, ?_, ?_, heap.above, ?_⟩
  · rintro q (rfl | member)
    · exact positive
    · rw [rest q member]
      exact heap.full q member
  · rintro q (rfl | member)
    · exact inside
    · rw [rest q member]
      exact heap.within q member
  · rintro first (rfl | old) second (rfl | also) different
    · exact absurd rfl different
    · exact away second also
    · exact (away first old).symm
    · rw [extent_congr (rest first old), extent_congr (rest second also)]
      exact heap.apart first old second also different
  · rintro q (rfl | member)
    · exact apart
    · rw [extent_congr (rest q member)]
      exact (heap.free q member).mono_right left
  · have lived : liveBytes later (insert p live) = extent later p ∪ liveBytes headers live := by
      rw [← liveBytes_congr rest]
      ext a
      simp [liveBytes]
    rw [lived, ← Set.union_assoc, bytes]
    exact heap.tiled
  · rintro q (block | rfl | member)
    · exact heap.aligned q (Or.inl (kept q block))
    · exact aligned
    · exact heap.aligned q (Or.inr member)

theorem blocks_disjoint (heap : Heap given base headers live blocks) (first : p ∈ base :: blocks)
    (second : q ∈ base :: blocks) (different : p ≠ q) :
    Disjoint (extent headers p) (extent headers q) := by
  refine Set.disjoint_left.mpr fun a here there => ?_
  obtain ⟨low, high⟩ := here
  obtain ⟨lower, higher⟩ := there
  rcases heap.onward.ordered first second different with before | behind
  · omega
  · omega

/-- The whole block is taken out of the list. -/
theorem unlink (heap : Heap given base headers live blocks) {prevp : UInt32}
    (split : base :: blocks = pre ++ prevp :: p :: post) :
    ∃ blocks', prevp ∈ base :: blocks' ∧
      Heap given base (headers.setPtr prevp (headers p).ptr) (insert p live) blocks' := by
  have inner : p ∈ blocks := Onward.mem_of_behind split List.mem_cons_self
  obtain ⟨blocks', arranged, whole⟩ := heap.onward.unlink split
  have extents (q : UInt32) : extent (headers.setPtr prevp (headers p).ptr) q = extent headers q :=
    extent_of_size Headers.size_setPtr
  have covers (qs : List UInt32) : cover (headers.setPtr prevp (headers p).ptr) qs =
      cover headers qs := by
    simp only [cover, extents]
  have further : base :: blocks = (pre ++ [prevp]) ++ p :: post := by
    rw [split, List.append_assoc]
    rfl
  have old : ∀ q ∈ base :: blocks', q ∈ base :: blocks ∧ q ≠ p := by
    intro q member
    have placed : q ∈ pre ++ [prevp] ∨ q ∈ post := by
      rw [arranged] at member
      simpa [or_assoc] using member
    rcases placed with front | back
    · refine ⟨further ▸ List.mem_append_left _ front, ?_⟩
      rintro rfl
      exact absurd (heap.onward.ahead further q front) (by omega)
    · refine ⟨further ▸ List.mem_append_right _ (List.mem_cons_of_mem _ back), ?_⟩
      rintro rfl
      exact absurd (heap.onward.behind further q back) (by omega)
  refine ⟨blocks', ?_, heap.splitOff whole ?_ ?_ ?_ ?_ ?_ ?_ ?_ ?_⟩
  · rw [arranged]
    exact List.mem_append_right _ List.mem_cons_self
  · rw [Headers.size_setPtr]
    exact heap.empty
  · intro q member
    refine Headers.setPtr_of_ne ?_
    rintro rfl
    refine heap.live_not_free member ?_
    rw [split]
    exact List.mem_append_right _ List.mem_cons_self
  · rw [Headers.size_setPtr]
    exact heap.onward.filled p inner
  · rw [Headers.size_setPtr]
    exact heap.onward.inside p (List.mem_cons_of_mem _ inner)
  · exact heap.aligned p (Or.inl inner)
  · rw [extents, covers]
    refine Set.disjoint_left.mpr fun a here there => ?_
    obtain ⟨q, member, inside⟩ := there
    obtain ⟨block, different⟩ := old q (List.mem_cons_of_mem _ member)
    exact Set.disjoint_left.mp (heap.blocks_disjoint (List.mem_cons_of_mem _ inner) block
      different.symm) here inside
  · rw [extents, covers]
    have after : cover headers (base :: blocks') = cover headers blocks' := by
      rw [cover_cons, heap.extent_base, Set.empty_union]
    rw [← heap.cover_ring, ← after, arranged, split]
    simp only [cover_append, cover_cons]
    ac_rfl
  · intro q member
    obtain ⟨block, -⟩ := old q (List.mem_cons_of_mem _ member)
    refine (List.mem_cons.mp block).resolve_left ?_
    rintro rfl
    exact absurd (whole.before member) (by omega)

/-- The end of a block is taken. -/
theorem shrink (heap : Heap given base headers live blocks) (inner : p ∈ blocks) {n : UInt32}
    (positive : 0 < n.toNat) (large : n.toNat < (headers p).size.toNat) {shorter : Headers}
    (cut : headers.setSize p ((headers p).size - n) = shorter) :
    Heap given base (shorter.setSize (shorter.after p) n) (insert (shorter.after p) live) blocks ∧
      shorter.after p ∉ live := by
  have end_lt := heap.onward.inside p (List.mem_cons_of_mem _ inner)
  have start := heap.aligned p (Or.inl inner)
  have parts := cut ▸ cut_of_setSize positive large end_lt
  generalize shorter.after p = rest at parts
  generalize shorter.setSize rest n = later at parts
  have place := parts.place
  have inP : rest.toNat ∈ extent headers p := ⟨by omega, by omega⟩
  have restFresh : ∀ q ∈ base :: blocks, q ≠ rest := by
    rintro q member rfl
    by_cases same : q = p
    · rw [same] at place
      omega
    · rcases List.mem_cons.mp member with rfl | block
      · exact absurd (heap.onward.before inner) (by omega)
      · have apart := heap.blocks_disjoint member (List.mem_cons_of_mem _ inner) same
        exact Set.disjoint_left.mp apart (mem_extent (heap.onward.filled q block)) inP
  have notLive : rest ∉ live := by
    intro member
    have own := mem_extent (heap.full rest member)
    exact Set.disjoint_left.mp (heap.free rest member) own ⟨p, inner, inP⟩
  have others : ∀ q ∈ base :: blocks, q ≠ p → later q = headers q :=
    fun q member different => parts.others q different (restFresh q member)
  have smaller : ∀ q ∈ base :: blocks, (later q).ptr = (headers q).ptr ∧
      (later q).size.toNat ≤ (headers q).size.toNat := by
    intro q member
    by_cases same : q = p
    · rw [same, parts.size]
      exact ⟨parts.ptr, Nat.sub_le _ _⟩
    · rw [others q member same]
      exact ⟨rfl, Nat.le_refl _⟩
  have kept : ∀ q ∈ blocks, q ≠ p → extent later q = extent headers q := fun q member different =>
    extent_congr (others q (List.mem_cons_of_mem _ member) different)
  have bytes := parts.bytes
  refine ⟨heap.splitOff ?_ ?_ ?_ ?_ ?_ ?_ ?_ ?_ fun q member => member, notLive⟩
  · refine heap.onward.mono (fun q member => (smaller q member).1)
      (fun q member => (smaller q member).2) fun q member => ?_
    by_cases same : q = p
    · rw [same, parts.size]
      omega
    · rw [others q (List.mem_cons_of_mem _ member) same]
      exact heap.onward.filled q member
  · have different : base ≠ p := by
      rintro rfl
      exact absurd (heap.onward.before inner) (by omega)
    rw [others base List.mem_cons_self different]
    exact heap.empty
  · intro q member
    refine parts.others q ?_ ?_
    · rintro rfl
      exact heap.live_not_free member (List.mem_cons_of_mem _ inner)
    · rintro rfl
      exact notLive member
  · rw [parts.rest]
    exact positive
  · rw [parts.rest]
    omega
  · omega
  · refine Set.disjoint_left.mpr fun a here there => ?_
    obtain ⟨q, member, inside⟩ := there
    by_cases same : q = p
    · rw [same] at inside
      exact Set.disjoint_left.mp parts.apart here inside
    · rw [kept q member same] at inside
      exact Set.disjoint_left.mp (heap.blocks_disjoint (List.mem_cons_of_mem _ inner)
        (List.mem_cons_of_mem _ member) (Ne.symm same)) (bytes.subset (Or.inr here)) inside
  · ext a
    constructor
    · rintro (⟨q, member, inside⟩ | inside)
      · by_cases same : q = p
        · rw [same] at inside
          exact ⟨p, inner, bytes.subset (Or.inl inside)⟩
        · rw [kept q member same] at inside
          exact ⟨q, member, inside⟩
      · exact ⟨p, inner, bytes.subset (Or.inr inside)⟩
    · rintro ⟨q, member, inside⟩
      by_cases same : q = p
      · rw [same] at inside
        exact (bytes.superset inside).imp_left fun front => ⟨p, inner, front⟩
      · rw [← kept q member same] at inside
        exact Or.inl ⟨q, member, inside⟩

end Heap

/-- A block of `n` units at `r` has become live. -/
structure Allocated (given : Set Nat) (base : UInt32) (live : Set UInt32) (n r : UInt32)
    (later : Process Os) (blocks : List UInt32) : Prop where
  heap : Heap given base later.headers (insert r live) blocks
  roving : later.freep ∈ base :: blocks
  size : (later.headers r).size = n
  fresh : r ∉ live

variable {given : Set Nat} {live : Set UInt32} {s : Process Os}

theorem Heap.takes (heap : Heap given base s.headers live blocks) {prevp n : UInt32}
    (listed : prevp ∈ base :: blocks) (next : (s.headers prevp).ptr = p) (positive : 0 < n.toNat)
    (large : n.toNat ≤ (s.headers p).size.toNat) :
    ∃ r later blocks', take prevp p n s = .done (r + headerSize) later ∧ later.os = s.os ∧
      Allocated given base live n r later blocks' := by
  obtain ⟨pre, post, split⟩ := List.append_of_mem listed
  obtain ⟨rest, rfl⟩ : ∃ rest, post = p :: rest := by
    have follows := (heap.onward.suffix split).linked.next
    rw [next] at follows
    cases post with
    | nil =>
        rw [follows, List.headD_nil, heap.empty, UInt32.toNat_zero] at large
        omega
    | cons t rest => exact ⟨rest, by rw [follows, List.headD_cons]⟩
  have inner : p ∈ blocks := Onward.mem_of_behind split List.mem_cons_self
  by_cases whole : (s.headers p).size = n
  · obtain ⟨blocks', roving, after⟩ := heap.unlink split
    refine ⟨p, { s with headers := s.headers.setPtr prevp (s.headers p).ptr, freep := prevp },
      blocks', ?_, rfl, after, roving, ?_, fun member =>
        heap.live_not_free member (List.mem_cons_of_mem _ inner)⟩
    · rw [take, if_pos whole]
    · rw [Headers.size_setPtr]
      exact whole
  · have less : n.toNat < (s.headers p).size.toNat :=
      Nat.lt_of_le_of_ne large fun same => whole (UInt32.toNat_inj.mp same).symm
    obtain ⟨after, fresh⟩ := heap.shrink inner positive less rfl
    refine ⟨_, { s with
      headers := (s.headers.setSize p ((s.headers p).size - n)).setSize
        ((s.headers.setSize p ((s.headers p).size - n)).after p) n, freep := prevp },
      blocks, ?_, rfl, after, listed, ?_, fresh⟩
    · rw [take, if_neg whole]
    · simp only [Headers.setSize_self]

/-! ## The loop of malloc -/

/-- Around the circle from `p`. -/
theorem Onward.around (onward : Onward headers base base blocks) (start : p ∈ base :: blocks) :
    ∃ front, (p :: front ++ [p]).IsChain (fun a b => (headers a).ptr = b) ∧ p ∉ front ∧
      (∀ q, q ∈ front ++ [p] ↔ q ∈ base :: blocks) ∧ front.length = blocks.length := by
  obtain ⟨before, after, split⟩ := List.append_of_mem start
  have length := congrArg List.length split
  rw [List.length_cons, List.length_append, List.length_cons] at length
  have linked := (onward.suffix split).linked
  have absent : p ∉ after ++ before := by
    intro member
    rcases List.mem_append.mp member with later | earlier
    · exact absurd (onward.behind split p later) (by omega)
    · exact absurd (onward.ahead split p earlier) (by omega)
  refine ⟨after ++ before, ?_, absent, fun q => ?_, by rw [List.length_append]; omega⟩
  · cases before with
    | nil =>
        obtain ⟨rfl, -⟩ := List.cons.inj split
        rw [List.append_nil]
        exact linked
    | cons first rest =>
        obtain ⟨rfl, -⟩ := List.cons.inj split
        have all := onward.linked
        rw [Linked, split] at all
        have front : (base :: rest ++ [p]).IsChain fun a b => (headers a).ptr = b := by
          rw [List.append_assoc, List.cons_append] at all
          exact (List.isChain_split.mp all).1
        have joined := List.isChain_split.mpr ⟨linked, front⟩
        simpa using joined
  · rw [split]
    simp only [List.mem_append, List.mem_cons, List.not_mem_nil, or_false]
    tauto

/-- The search finds a block that is large enough before it is at `freep` again. -/
theorem search_hit (sbrk : Int32 → Action Os UInt32) {n prevp : UInt32}
    {front : List UInt32}
    (linked : (prevp :: front ++ [s.freep]).IsChain fun a b => (s.headers a).ptr = b)
    (away : s.freep ∉ front)
    (large : ∃ x ∈ front ++ [s.freep], n.toNat ≤ (s.headers x).size.toNat) :
    ∃ before x, before ∈ prevp :: front ∧ (s.headers before).ptr = x ∧
      n.toNat ≤ (s.headers x).size.toNat ∧
      ∀ turns, ∀ fuel > front.length,
        search sbrk turns n fuel prevp (s.headers prevp).ptr s = take before x n s := by
  have takes {prevp p : UInt32} (fits : n.toNat ≤ (s.headers p).size.toNat) (turns fuel : Nat) :
      search sbrk turns n (fuel + 1) prevp p s = take prevp p n s := by
    rw [search, Action.get_bind, if_pos (UInt32.le_iff_toNat_le.mpr fits)]
  induction front generalizing prevp with
  | nil =>
      have next : (s.headers prevp).ptr = s.freep := (List.isChain_cons_cons.mp linked).1
      obtain ⟨x, member, fits⟩ := large
      rw [List.nil_append, List.mem_singleton] at member
      rw [next, ← member]
      refine ⟨prevp, x, List.mem_cons_self, by rw [next, member], fits, fun turns fuel some => ?_⟩
      obtain ⟨fuel, rfl⟩ : ∃ few, fuel = few + 1 := ⟨fuel - 1, by omega⟩
      exact takes fits turns fuel
  | cons first rest inductionHypothesis =>
      have next : (s.headers prevp).ptr = first := (List.isChain_cons_cons.mp linked).1
      have further := (List.isChain_cons_cons.mp linked).2
      rw [next]
      by_cases enough : n.toNat ≤ (s.headers first).size.toNat
      · refine ⟨prevp, first, List.mem_cons_self, next, enough, fun turns fuel some => ?_⟩
        obtain ⟨fuel, rfl⟩ : ∃ few, fuel = few + 1 := ⟨fuel - 1, by omega⟩
        exact takes enough turns fuel
      · have different : first ≠ s.freep := by
          rintro rfl
          exact away List.mem_cons_self
        have larger : ∃ x ∈ rest ++ [s.freep], n.toNat ≤ (s.headers x).size.toNat := by
          obtain ⟨x, member, fits⟩ := large
          rcases List.mem_cons.mp member with rfl | behind
          · exact absurd fits enough
          · exact ⟨x, behind, fits⟩
        obtain ⟨before, x, member, pointer, fits, ends⟩ := inductionHypothesis further
          (fun member => away (List.mem_cons_of_mem _ member)) larger
        refine ⟨before, x, List.mem_cons_of_mem _ member, pointer, fits, fun turns fuel some => ?_⟩
        obtain ⟨fuel, rfl⟩ : ∃ few, fuel = few + 1 := ⟨fuel - 1, by omega⟩
        rw [search, Action.get_bind, if_neg fun fits => enough (UInt32.le_iff_toNat_le.mp fits),
          if_neg different]
        exact ends turns fuel (by rw [List.length_cons] at some; omega)

/-- Without such a block it asks for more memory once. -/
theorem search_miss {sbrk : Int32 → Action Os UInt32} {turns : Nat} {n prevp : UInt32}
    {front : List UInt32}
    (linked : (prevp :: front ++ [s.freep]).IsChain fun a b => (s.headers a).ptr = b)
    (away : s.freep ∉ front)
    (small : ∀ x ∈ front ++ [s.freep], (s.headers x).size.toNat < n.toNat) (fuel : Nat) :
    search sbrk turns n (fuel + front.length + 1) prevp (s.headers prevp).ptr s = (do
      let q ← morecore sbrk turns n
      if q = 0 then return 0
      else
        let next ← Action.get fun s : Process Os => (s.headers q).ptr
        search sbrk turns n fuel q next) s := by
  induction front generalizing prevp with
  | nil =>
      have next : (s.headers prevp).ptr = s.freep := (List.isChain_cons_cons.mp linked).1
      have short := small s.freep (by simp)
      rw [next, List.length_nil, Nat.add_zero, search, Action.get_bind,
        if_neg fun fits => absurd (UInt32.le_iff_toNat_le.mp fits) (by omega), if_pos rfl]
  | cons first rest inductionHypothesis =>
      have next : (s.headers prevp).ptr = first := (List.isChain_cons_cons.mp linked).1
      have short := small first (by simp)
      have different : first ≠ s.freep := by
        rintro rfl
        exact away List.mem_cons_self
      rw [next, List.length_cons, ← Nat.add_assoc, search, Action.get_bind,
        if_neg fun fits => absurd (UInt32.le_iff_toNat_le.mp fits) (by omega), if_neg different]
      exact inductionHypothesis (List.isChain_cons_cons.mp linked).2
        (fun member => away (List.mem_cons_of_mem _ member))
        (fun x member => small x (List.mem_cons_of_mem _ member))

end Xv6.Umalloc
