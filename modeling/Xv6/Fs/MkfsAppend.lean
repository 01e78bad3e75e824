import Mathlib.Algebra.BigOperators.Group.Finset.Basic
import Mathlib.Algebra.Order.BigOperators.Group.Finset
import Xv6.Fs.FileContents
import Xv6.Fs.Mkfs

/-!
# What `iappend` does to the blocks

Every inode has as many blocks as its content needs, all different, and they
hold the content. A block that is taken goes to the next place of one inode, and
bytes are stored behind the content; the loop of `iappend` does one after the
other.
-/

namespace Xv6.Fs.Mkfs

open Xv6.Library

/-! ## Block numbers -/

deriving instance DecidableEq for Place

/-- The block number at a place, with the inodes as `table` has them. -/
def number (table : Nat → Dinode) (image : Nat → Block) : Place → Nat
  | .addr inum k => if inum < ninodes ∧ k ≤ ndirect then (table inum).addrs k else 0
  | .entry inum j =>
      if inum < ninodes ∧ j < nindirect ∧ (table inum).addrs ndirect ≠ 0 then
        (image ((table inum).addrs ndirect)).load (4 * j) 4
      else 0

/-- The numbers held are different blocks that have been taken. -/
structure Distinct (number : Place → Nat) (freeblock : Nat) : Prop where
  region : ∀ place, number place ≠ 0 → nmeta ≤ number place ∧ number place < freeblock
  once : ∀ first second, number first ≠ 0 → number first = number second → first = second

theorem nmeta_pos : 0 < nmeta := by decide

/-- The next block goes to an empty place. -/
theorem Distinct.acquire {number : Place → Nat} {freeblock : Nat}
    (distinct : Distinct number freeblock) (start : nmeta ≤ freeblock) (place : Place) :
    Distinct (Function.update number place freeblock) (freeblock + 1) where
  region other taken := by
    by_cases here : other = place
    · subst here
      rw [Function.update_self]
      exact ⟨start, Nat.lt_succ_self _⟩
    · rw [Function.update_of_ne here] at taken ⊢
      obtain ⟨after, before⟩ := distinct.region other taken
      exact ⟨after, Nat.lt_succ_of_lt before⟩
  once first second taken same := by
    have new : ∀ other, number other ≠ freeblock := by
      intro other equal
      have positive := nmeta_pos
      have below := (distinct.region other (by omega)).2
      omega
    by_cases one : first = place
    · by_cases two : second = place
      · rw [one, two]
      · rw [one, Function.update_self, Function.update_of_ne two] at same
        exact absurd same.symm (new second)
    · rw [Function.update_of_ne one] at taken same
      by_cases two : second = place
      · rw [two, Function.update_self] at same
        exact absurd same (new first)
      · rw [Function.update_of_ne two] at same
        exact distinct.once first second taken same

theorem number_slot (table : Nat → Dinode) (image : Nat → Block) {inum bn : Nat}
    (direct : bn < ndirect) (inside : inum < ninodes) :
    number table image (slotOf inum bn) = (table inum).addrs bn := by
  rw [slotOf, if_pos direct, number, if_pos ⟨inside, Nat.le_of_lt direct⟩]

/-- Other slots of the inodes do not matter. -/
theorem number_congr {table other : Nat → Dinode} {image later : Nat → Block}
    (addrs : ∀ inum < ninodes, ∀ k ≤ ndirect, (other inum).addrs k = (table inum).addrs k)
    (blocks : ∀ inum < ninodes, (table inum).addrs ndirect ≠ 0 →
      later ((table inum).addrs ndirect) = image ((table inum).addrs ndirect)) (place : Place) :
    number other later place = number table image place := by
  cases place with
  | addr inum k =>
      rw [number, number]
      by_cases both : inum < ninodes ∧ k ≤ ndirect
      · rw [if_pos both, if_pos both, addrs inum both.1 k both.2]
      · rw [if_neg both, if_neg both]
  | entry inum j =>
      rw [number, number]
      by_cases inside : inum < ninodes
      · rw [addrs inum inside ndirect (Nat.le_refl _)]
        by_cases there : inum < ninodes ∧ j < nindirect ∧ (table inum).addrs ndirect ≠ 0
        · rw [if_pos there, if_pos there, blocks inum inside there.2.2]
        · rw [if_neg there, if_neg there]
      · rw [if_neg fun all => inside all.1, if_neg fun all => inside all.1]

@[simp]
theorem setSlot_same (din : Dinode) (k b : Nat) : (setSlot din k b).addrs k = b :=
  Function.update_self ..

theorem setSlot_other (din : Dinode) {k other : Nat} (different : other ≠ k) (b : Nat) :
    (setSlot din k b).addrs other = din.addrs other :=
  Function.update_of_ne different ..

/-- A slot of an inode is filled. -/
theorem number_addr {table : Nat → Dinode} {image : Nat → Block} {inum k b : Nat}
    (inside : inum < ninodes) (slot : k ≤ ndirect) (blank : k = ndirect → image b = fun _ => 0)
    (empty : (table inum).addrs k = 0) :
    number (Function.update table inum (setSlot (table inum) k b)) image =
      Function.update (number table image) (.addr inum k) b := by
  funext place
  cases place with
  | addr other slot =>
      by_cases same : other = inum
      · subst same
        by_cases here : slot = k
        · subst here
          rw [Function.update_self, number, if_pos ⟨inside, ‹_›⟩, Function.update_self,
            setSlot_same]
        · rw [Function.update_of_ne (by simp [here]), number, number, Function.update_self,
            setSlot_other _ here]
      · rw [Function.update_of_ne (by simp [same]), number, number, Function.update_of_ne same]
  | entry other j =>
      rw [Function.update_of_ne (by simp)]
      by_cases same : other = inum
      · subst same
        rw [number, number, Function.update_self]
        by_cases indirect : k = ndirect
        · subst indirect
          rw [setSlot_same, blank rfl, Memory.load_zero, ite_self, if_neg fun all => all.2.2 empty]
        · rw [setSlot_other _ (Ne.symm indirect)]
      · rw [number, number, Function.update_of_ne same]

/-- An entry of an indirect block is filled. -/
theorem number_entry {table : Nat → Dinode} {image : Nat → Block} {freeblock inum j b : Nat}
    (distinct : Distinct (number table image) freeblock) (inside : inum < ninodes)
    (index : j < nindirect) (there : (table inum).addrs ndirect ≠ 0) (fits : b < 2 ^ 32) :
    number table (Function.update image ((table inum).addrs ndirect)
        ((image ((table inum).addrs ndirect)).store (4 * j) 4 b)) =
      Function.update (number table image) (.entry inum j) b := by
  funext place
  cases place with
  | addr other slot => rw [Function.update_of_ne (by simp), number, number]
  | entry other i =>
      by_cases same : other = inum
      · subst same
        by_cases here : i = j
        · subst here
          rw [Function.update_self, number, if_pos ⟨inside, index, there⟩, Function.update_self,
            Memory.load_store_fits _ _ (by simpa using fits)]
        · rw [Function.update_of_ne (by simp [here]), number, number, Function.update_self,
            Memory.load_store_disjoint _ _ (by omega)]
      · rw [Function.update_of_ne (by simp [same]), number, number]
        by_cases held : other < ninodes ∧ i < nindirect ∧ (table other).addrs ndirect ≠ 0
        · have apart : (table other).addrs ndirect ≠ (table inum).addrs ndirect := by
            intro equal
            have one : number table image (.addr other ndirect) = (table other).addrs ndirect :=
              if_pos ⟨held.1, Nat.le_refl _⟩
            have two : number table image (.addr inum ndirect) = (table inum).addrs ndirect :=
              if_pos ⟨inside, Nat.le_refl _⟩
            have places := distinct.once (.addr other ndirect) (.addr inum ndirect)
              (by rw [one]; exact held.2.2) (by rw [one, two, equal])
            injection places with equal
            exact same equal
          rw [if_pos held, if_pos held, Function.update_of_ne apart]
        · rw [if_neg held, if_neg held]

/-! ## What has been appended -/

/-- The blocks that `count` blocks of content take. -/
def blocks (count : Nat) : Nat := count + if ndirect < count then 1 else 0

/-- Every inode has its first `count` blocks, which hold its content and zeros after it. -/
structure Filled (table : Nat → Dinode) (image : Nat → Block) (freeblock : Nat)
    (count : Nat → Nat) (contents : Nat → List UInt8) : Prop where
  start : nmeta ≤ freeblock
  fresh : ∀ b, freeblock ≤ b → b < fsSize → image b = fun _ => 0
  distinct : Distinct (number table image) freeblock
  covered : ∀ inum < ninodes, ∀ bn, number table image (slotOf inum bn) ≠ 0 ↔ bn < count inum
  indirect : ∀ inum < ninodes, number table image (.addr inum ndirect) ≠ 0 ↔ ndirect < count inum
  within : ∀ inum < ninodes, (contents inum).length ≤ count inum * bsize
  bytes : ∀ inum < ninodes, ∀ o, o / bsize < count inum →
    image (number table image (slotOf inum (o / bsize))) (o % bsize) = (contents inum).getD o 0
  total : freeblock = nmeta + (Finset.range ninodes).sum fun inum => blocks (count inum)

section Filled

variable {table later : Nat → Dinode} {image after : Nat → Block} {freeblock next : Nat}
  {count : Nat → Nat} {contents : Nat → List UInt8} {inum : Nat}

/-- What the blocks of all inodes cost when one of them gets another block. -/
theorem sum_blocks_update (count : Nat → Nat) (inside : inum < ninodes) (more : Nat) :
    ((Finset.range ninodes).sum fun i => blocks (Function.update count inum more i)) +
        blocks (count inum) =
      ((Finset.range ninodes).sum fun i => blocks (count i)) + blocks more := by
  have member : inum ∈ Finset.range ninodes := Finset.mem_range.mpr inside
  have others : ((Finset.range ninodes).erase inum).sum
        (fun i => blocks (Function.update count inum more i)) =
      ((Finset.range ninodes).erase inum).sum fun i => blocks (count i) := by
    refine Finset.sum_congr rfl fun i erased => ?_
    rw [Function.update_of_ne (Finset.ne_of_mem_erase erased)]
  rw [← Finset.add_sum_erase _ _ member,
    ← Finset.add_sum_erase _ (fun i => blocks (count i)) member, others, Function.update_self]
  omega

theorem blocks_mono {few many : Nat} (le : few ≤ many) : blocks few ≤ blocks many := by
  unfold blocks
  split <;> split <;> omega

/-- A block of content is not an indirect block. -/
theorem Distinct.content_ne (distinct : Distinct (number table image) freeblock) {other bn : Nat}
    (there : number table image (slotOf other bn) ≠ 0) (inum : Nat) :
    number table image (slotOf other bn) ≠ number table image (.addr inum ndirect) := by
  intro same
  exact slotOf_content _ _ (distinct.once _ _ there same)

/-- One inode gets the next block of its content. -/
theorem Filled.grown (filled : Filled table image freeblock count contents)
    (inside : inum < ninodes) {b : Nat}
    (distinct : Distinct (number later after) next)
    (here : number later after (slotOf inum (count inum)) = b) (nonzero : b ≠ 0)
    (zeroed : after b = fun _ => 0)
    (kept : ∀ place, number table image place ≠ 0 →
      number later after place = number table image place)
    (changed : ∀ place, number later after place ≠ number table image place →
      place = slotOf inum (count inum) ∨ place = .addr inum ndirect ∧ ndirect ≤ count inum)
    (indirect : ndirect ≤ count inum → number later after (.addr inum ndirect) ≠ 0)
    (data : ∀ other bn, number table image (slotOf other bn) ≠ 0 →
      after (number table image (slotOf other bn)) = image (number table image (slotOf other bn)))
    (fresh : ∀ b, next ≤ b → b < fsSize → after b = fun _ => 0)
    (cost : next + blocks (count inum) = freeblock + blocks (count inum + 1)) :
    Filled later after next (Function.update count inum (count inum + 1)) contents := by
  have same : ∀ place, place ≠ slotOf inum (count inum) →
      (place = .addr inum ndirect → ¬ndirect ≤ count inum) →
      number later after place = number table image place := by
    intro place other free
    by_contra differs
    rcases changed place differs with equal | ⟨equal, below⟩
    · exact other equal
    · exact free equal below
  refine ⟨?_, fresh, distinct, ?_, ?_, ?_, ?_, ?_⟩
  · have start := filled.start
    have more := blocks_mono (Nat.le_add_right (count inum) 1)
    omega
  · intro i below bn
    by_cases mine : i = inum
    · subst mine
      rw [Function.update_self]
      by_cases last : bn = count i
      · subst last
        rw [here]
        exact iff_of_true nonzero (Nat.lt_succ_self _)
      · rw [same _ (fun equal => last (slotOf_inj equal).2)
          fun equal => absurd equal (slotOf_content _ _), filled.covered i below]
        omega
    · rw [Function.update_of_ne mine, same _ (fun equal => mine (slotOf_inj equal).1)
        fun equal => absurd equal (slotOf_content _ _), filled.covered i below]
  · intro i below
    by_cases mine : i = inum
    · subst mine
      rw [Function.update_self]
      by_cases needed : ndirect ≤ count i
      · exact iff_of_true (indirect needed) (Nat.lt_succ_of_le needed)
      · rw [same _ (fun equal => slotOf_content _ _ equal.symm) fun _ => needed,
          filled.indirect i below]
        omega
    · rw [Function.update_of_ne mine, same _ (fun equal => slotOf_content _ _ equal.symm) ?_,
        filled.indirect i below]
      intro equal
      injection equal with equal
      exact absurd equal mine
  · intro i below
    have short := filled.within i below
    by_cases mine : i = inum
    · subst mine
      rw [Function.update_self, Nat.succ_mul]
      omega
    · rw [Function.update_of_ne mine]
      exact short
  · intro i below o covered
    by_cases old : o / bsize < count i
    · have there := (filled.covered i below _).mpr old
      rw [kept _ there, data _ _ there]
      exact filled.bytes i below o old
    · have mine : i = inum := by
        by_contra different
        rw [Function.update_of_ne different] at covered
        exact old covered
      subst mine
      rw [Function.update_self] at covered
      have last : o / bsize = count i := by omega
      have short := filled.within i below
      have beyond : (contents i).length ≤ o := by
        have base := Nat.div_mul_le_self o bsize
        rw [last] at base
        omega
      rw [last, here, zeroed, List.getD_eq_default _ _ beyond]
  · have updated := sum_blocks_update count inside (count inum + 1)
    have total := filled.total
    omega

end Filled

/-! ## Taking a block -/

theorem fillSlot_empty {din : Dinode} {k : Nat} (empty : din.addrs k = 0) (m : Mkfs) :
    fillSlot din k m =
      .done (setSlot din k m.freeblock) { m with freeblock := m.freeblock + 1 } := by
  rw [fillSlot, if_pos empty]
  rfl

theorem fillSlot_full {din : Dinode} {k : Nat} (full : din.addrs k ≠ 0) (m : Mkfs) :
    fillSlot din k m = .done din m := by
  rw [fillSlot, if_neg full]
  rfl

theorem rsect_eq {sec : Nat} (below : sec < fsSize) (m : Mkfs) :
    rsect sec m = .done (m.image sec) m := by
  rw [rsect, if_pos below]
  rfl

theorem wsect_eq (sec : Nat) (buf : Block) (m : Mkfs) :
    wsect sec buf m = .done () { m with image := Function.update m.image sec buf } := rfl

/-- The metadata and the inode counter stay, and so does all of the inode but its slots. -/
structure Appends (din : Dinode) (m : Mkfs) (later : Dinode) (next : Mkfs) : Prop where
  inode : later = { din with addrs := later.addrs }
  metadata : ∀ b < nmeta, next.image b = m.image b
  freeinode : next.freeinode = m.freeinode

theorem Appends.refl (din : Dinode) (m : Mkfs) : Appends din m din m := ⟨rfl, fun _ _ => rfl, rfl⟩

theorem Appends.trans {din middle later : Dinode} {m between next : Mkfs}
    (first : Appends din m middle between) (second : Appends middle between later next) :
    Appends din m later next where
  inode := by rw [second.inode, first.inode]
  metadata b below := (second.metadata b below).trans (first.metadata b below)
  freeinode := second.freeinode.trans first.freeinode

section Append

variable {table : Nat → Dinode} {count : Nat → Nat} {contents : Nat → List UInt8} {inum : Nat}
  {din : Dinode} {m : Mkfs}

/-- A block that is there is found, and nothing changes. -/
theorem appendBlock_found
    (filled : Filled (Function.update table inum din) m.image m.freeblock count contents)
    (inside : inum < ninodes) (full : m.freeblock ≤ fsSize) {bn : Nat} (there : bn < count inum) :
    appendBlock din bn m =
      .done (din, number (Function.update table inum din) m.image (slotOf inum bn)) m := by
  have nonzero := (filled.covered inum inside bn).mpr there
  rw [appendBlock]
  by_cases direct : bn < ndirect
  · rw [if_pos direct]
    rw [number_slot _ _ direct inside, Function.update_self] at nonzero ⊢
    rw [Action.bind_done (fillSlot_full nonzero m)]
    rfl
  · have indirect := (filled.indirect inum inside).mpr (by omega)
    have region := filled.distinct.region _ indirect
    have place : slotOf inum bn = .entry inum (bn - ndirect) := by simp [slotOf, direct]
    rw [place, number, Function.update_self] at nonzero ⊢
    rw [number, Function.update_self, if_pos ⟨inside, Nat.le_refl _⟩] at indirect region
    split at nonzero
    case isFalse => exact absurd rfl nonzero
    case isTrue all =>
      rw [if_neg direct, Action.bind_done (fillSlot_full indirect m),
        Action.bind_done (rsect_eq (by omega) m), if_pos all]
      simp only [if_neg nonzero]
      rfl

theorem Filled.append_direct
    (filled : Filled (Function.update table inum din) m.image m.freeblock count contents)
    (inside : inum < ninodes) (direct : count inum < ndirect)
    (afford : m.freeblock + blocks (count inum + 1) ≤ fsSize + blocks (count inum)) :
    ∃ later x next, appendBlock din (count inum) m = .done (later, x) next ∧
      Filled (Function.update table inum later) next.image next.freeblock
        (Function.update count inum (count inum + 1)) contents ∧
      x = number (Function.update table inum later) next.image (slotOf inum (count inum)) ∧
      Appends din m later next := by
  have start := filled.start
  have positive := nmeta_pos
  have empty : din.addrs (count inum) = 0 := by
    have absent := (filled.covered inum inside (count inum)).mp.mt (Nat.lt_irrefl _)
    rw [number_slot _ _ direct inside, Function.update_self] at absent
    exact of_not_not absent
  have cost : blocks (count inum + 1) = blocks (count inum) + 1 := by
    unfold blocks
    rw [if_neg (by omega), if_neg (by omega)]
  have place : slotOf inum (count inum) = .addr inum (count inum) := by simp [slotOf, direct]
  have numbers : number (Function.update table inum (setSlot din (count inum) m.freeblock)) m.image =
      Function.update (number (Function.update table inum din) m.image)
        (.addr inum (count inum)) m.freeblock := by
    have filling := @number_addr (Function.update table inum din) m.image inum (count inum)
      m.freeblock inside (Nat.le_of_lt direct) (fun same => absurd same (Nat.ne_of_lt direct))
    rw [Function.update_self, Function.update_idem] at filling
    exact filling empty
  have here : number (Function.update table inum (setSlot din (count inum) m.freeblock)) m.image
      (slotOf inum (count inum)) = m.freeblock := by
    rw [numbers, place, Function.update_self]
  have run : appendBlock din (count inum) m =
      .done (setSlot din (count inum) m.freeblock, m.freeblock)
        { m with freeblock := m.freeblock + 1 } := by
    rw [appendBlock, if_pos direct, Action.bind_done (fillSlot_empty empty m), setSlot_same]
    rfl
  refine ⟨_, _, _, run, ?_, here.symm, ⟨rfl, fun _ _ => rfl, rfl⟩⟩
  refine filled.grown inside ?_ here (by omega) (filled.fresh _ (Nat.le_refl _) (by omega)) ?_ ?_
    (fun needed => absurd direct (Nat.not_lt_of_le needed)) (fun _ _ _ => rfl) ?_ ?_
  · rw [numbers]
    exact filled.distinct.acquire start _
  · intro other there
    rw [numbers]
    refine Function.update_of_ne ?_ ..
    rintro rfl
    rw [number, if_pos ⟨inside, Nat.le_of_lt direct⟩, Function.update_self] at there
    exact there empty
  · intro other differs
    rw [numbers] at differs
    by_contra away
    rw [not_or, place] at away
    exact differs (Function.update_of_ne away.1 ..)
  · intro b after below
    exact filled.fresh b (Nat.le_of_succ_le after) below
  · change m.freeblock + 1 + blocks (count inum) = m.freeblock + blocks (count inum + 1)
    omega

/-- The inode has an indirect block, which is the block after the last if it had none. -/
structure Indirect (table : Nat → Dinode) (inum : Nat) (din : Dinode) (m : Mkfs) (later : Dinode)
    (next : Mkfs) : Prop where
  appends : Appends din m later next
  image : next.image = m.image
  distinct : Distinct (number (Function.update table inum later) m.image) next.freeblock
  nonzero : later.addrs ndirect ≠ 0
  kept : ∀ place, number (Function.update table inum din) m.image place ≠ 0 →
    number (Function.update table inum later) m.image place =
      number (Function.update table inum din) m.image place
  changed : ∀ place, place ≠ .addr inum ndirect →
    number (Function.update table inum later) m.image place =
      number (Function.update table inum din) m.image place
  freeblock : m.freeblock ≤ next.freeblock

theorem Filled.indirectBlock
    (filled : Filled (Function.update table inum din) m.image m.freeblock count contents)
    (inside : inum < ninodes) (indirect : ndirect ≤ count inum)
    (afford : m.freeblock + blocks (count inum + 1) ≤ fsSize + blocks (count inum)) :
    ∃ later next, fillSlot din ndirect m = .done later next ∧
      Indirect table inum din m later next ∧
      next.freeblock + 1 + blocks (count inum) = m.freeblock + blocks (count inum + 1) := by
  have start := filled.start
  have slot : number (Function.update table inum din) m.image (.addr inum ndirect) =
      din.addrs ndirect := by
    rw [number, if_pos ⟨inside, Nat.le_refl _⟩, Function.update_self]
  have there := filled.indirect inum inside
  rw [slot] at there
  by_cases first : count inum = ndirect
  · have empty : din.addrs ndirect = 0 := of_not_not (there.mp.mt (by omega))
    have cost : blocks (count inum + 1) = blocks (count inum) + 2 := by
      unfold blocks
      rw [if_pos (by omega), if_neg (by omega)]
    have numbers : number (Function.update table inum (setSlot din ndirect m.freeblock)) m.image =
        Function.update (number (Function.update table inum din) m.image)
          (.addr inum ndirect) m.freeblock := by
      have filling := @number_addr (Function.update table inum din) m.image inum ndirect
        m.freeblock inside (Nat.le_refl _)
        (fun _ => filled.fresh _ (Nat.le_refl _) (by omega))
      rw [Function.update_self, Function.update_idem] at filling
      exact filling empty
    refine ⟨_, _, fillSlot_empty empty m, ⟨⟨rfl, fun _ _ => rfl, rfl⟩, rfl, ?_, ?_, ?_, ?_,
      Nat.le_add_right _ _⟩, ?_⟩
    · rw [numbers]
      exact filled.distinct.acquire start _
    · rw [setSlot_same]
      have positive := nmeta_pos
      omega
    · intro other taken
      rw [numbers]
      refine Function.update_of_ne ?_ ..
      rintro rfl
      rw [slot] at taken
      exact taken empty
    · intro other away
      rw [numbers]
      exact Function.update_of_ne away ..
    · change m.freeblock + 1 + 1 + blocks (count inum) = m.freeblock + blocks (count inum + 1)
      omega
  · have full : din.addrs ndirect ≠ 0 := there.mpr (by omega)
    have cost : blocks (count inum + 1) = blocks (count inum) + 1 := by
      unfold blocks
      rw [if_pos (by omega), if_pos (by omega)]
    exact ⟨din, m, fillSlot_full full m, ⟨Appends.refl din m, rfl, filled.distinct, full,
      fun _ _ => rfl, fun _ _ => rfl, Nat.le_refl _⟩, by omega⟩

theorem Filled.append_indirect
    (filled : Filled (Function.update table inum din) m.image m.freeblock count contents)
    (inside : inum < ninodes) (indirect : ndirect ≤ count inum) (bounded : count inum < maxFile)
    (afford : m.freeblock + blocks (count inum + 1) ≤ fsSize + blocks (count inum)) :
    ∃ later x next, appendBlock din (count inum) m = .done (later, x) next ∧
      Filled (Function.update table inum later) next.image next.freeblock
        (Function.update count inum (count inum + 1)) contents ∧
      x = number (Function.update table inum later) next.image (slotOf inum (count inum)) ∧
      Appends din m later next := by
  have positive := nmeta_pos
  have start := filled.start
  obtain ⟨later, next, slots, ready, cost⟩ := filled.indirectBlock inside indirect afford
  have grows := ready.freeblock
  have index : count inum - ndirect < nindirect := by
    simp only [maxFile] at bounded
    omega
  have place : slotOf inum (count inum) = .entry inum (count inum - ndirect) := by
    rw [slotOf, if_neg (Nat.not_lt_of_le indirect)]
  have slot : number (Function.update table inum later) m.image (.addr inum ndirect) =
      later.addrs ndirect := by
    rw [number, if_pos ⟨inside, Nat.le_refl _⟩, Function.update_self]
  have region := ready.distinct.region (.addr inum ndirect) (by rw [slot]; exact ready.nonzero)
  rw [slot] at region
  have fits : next.freeblock < 2 ^ 32 := by
    refine Nat.lt_of_le_of_lt (show next.freeblock ≤ fsSize by omega) ?_
    decide
  have numbers : number (Function.update table inum later)
      (Function.update m.image (later.addrs ndirect)
        ((m.image (later.addrs ndirect)).store (4 * (count inum - ndirect)) 4 next.freeblock)) =
      Function.update (number (Function.update table inum later) m.image)
        (.entry inum (count inum - ndirect)) next.freeblock := by
    have filling := @number_entry (Function.update table inum later) m.image next.freeblock inum
      (count inum - ndirect) next.freeblock ready.distinct inside index
    rw [Function.update_self] at filling
    exact filling ready.nonzero fits
  have empty : (m.image (later.addrs ndirect)).load (4 * (count inum - ndirect)) 4 = 0 := by
    have absent := (filled.covered inum inside (count inum)).mp.mt (Nat.lt_irrefl _)
    rw [place, ← ready.changed _ (by simp), number, Function.update_self,
      if_pos ⟨inside, index, ready.nonzero⟩] at absent
    exact of_not_not absent
  have run : appendBlock din (count inum) m = .done (later, next.freeblock)
      { next with
        image := Function.update m.image (later.addrs ndirect)
          ((m.image (later.addrs ndirect)).store (4 * (count inum - ndirect)) 4 next.freeblock)
        freeblock := next.freeblock + 1 } := by
    cases next with
    | mk image freeinode freeblock =>
        obtain rfl : image = m.image := ready.image
        have loaded := Memory.load_store_fits (m.image (later.addrs ndirect))
          (4 * (count inum - ndirect)) (show freeblock < 256 ^ 4 by simpa using fits)
        rw [appendBlock, if_neg (Nat.not_lt_of_le indirect), Action.bind_done slots,
          Action.bind_done (rsect_eq (by omega) _)]
        simp only [if_pos empty]
        change Outcome.done (later, ((m.image (later.addrs ndirect)).store
          (4 * (count inum - ndirect)) 4 freeblock).load (4 * (count inum - ndirect)) 4) _ = _
        rw [loaded]
  have here : number (Function.update table inum later)
      (Function.update m.image (later.addrs ndirect)
        ((m.image (later.addrs ndirect)).store (4 * (count inum - ndirect)) 4 next.freeblock))
      (slotOf inum (count inum)) = next.freeblock := by
    rw [numbers, place, Function.update_self]
  have entryAbsent : number (Function.update table inum later) m.image
      (.entry inum (count inum - ndirect)) = 0 := by
    rw [number, Function.update_self, if_pos ⟨inside, index, ready.nonzero⟩, empty]
  refine ⟨_, _, _, run, ?_, here.symm, ⟨ready.appends.inode, ?_, ready.appends.freeinode⟩⟩
  · refine filled.grown inside ?_ here (by omega) ?_ ?_ ?_ (fun _ => ?_) ?_ ?_ ?_
    · rw [numbers]
      exact ready.distinct.acquire (by omega) _
    · dsimp only
      rw [Function.update_of_ne (by omega)]
      exact filled.fresh _ grows (by omega)
    · intro other there
      rw [numbers, Function.update_of_ne ?_, ready.kept other there]
      rintro rfl
      rw [← ready.kept _ there, entryAbsent] at there
      exact there rfl
    · intro other differs
      by_contra away
      rw [not_or, place] at away
      rw [numbers, Function.update_of_ne away.1] at differs
      exact differs (ready.changed other fun same => away.2 ⟨same, indirect⟩)
    · rw [numbers, Function.update_of_ne (by simp), slot]
      exact ready.nonzero
    · intro other bn there
      have same := ready.kept _ there
      have apart := ready.distinct.content_ne (by rw [same]; exact there) inum
      rw [same, slot] at apart
      exact Function.update_of_ne apart ..
    · intro b after below
      dsimp only at after ⊢
      rw [Function.update_of_ne (by omega)]
      exact filled.fresh b (by omega) below
    · change next.freeblock + 1 + blocks (count inum) = m.freeblock + blocks (count inum + 1)
      exact cost
  · intro b below
    dsimp only
    rw [Function.update_of_ne (by omega)]

/-- The next block of the content is taken. -/
theorem appendBlock_grows
    (filled : Filled (Function.update table inum din) m.image m.freeblock count contents)
    (inside : inum < ninodes) (bounded : count inum < maxFile)
    (afford : m.freeblock + blocks (count inum + 1) ≤ fsSize + blocks (count inum)) :
    ∃ later x next, appendBlock din (count inum) m = .done (later, x) next ∧
      Filled (Function.update table inum later) next.image next.freeblock
        (Function.update count inum (count inum + 1)) contents ∧
      x = number (Function.update table inum later) next.image (slotOf inum (count inum)) ∧
      Appends din m later next := by
  by_cases direct : count inum < ndirect
  · exact filled.append_direct inside direct afford
  · exact filled.append_indirect inside (Nat.le_of_not_lt direct) bounded afford

end Append

/-! ## Appending bytes -/

section Written

variable {table : Nat → Dinode} {image : Nat → Block} {freeblock : Nat} {count : Nat → Nat}
  {contents : Nat → List UInt8} {inum : Nat}

theorem getD_append (first second : List UInt8) (o : Nat) :
    (first ++ second).getD o 0 =
      if first.length ≤ o then second.getD (o - first.length) 0 else first.getD o 0 := by
  split
  · next after => exact List.getD_append_right _ _ _ _ after
  · next before => exact List.getD_append _ _ _ _ (Nat.lt_of_not_le before)

/-- Bytes are stored behind the content, in a block that is there. -/
theorem Filled.written (filled : Filled table image freeblock count contents)
    (inside : inum < ninodes) {x bn : Nat} (there : bn < count inum)
    (here : x = number table image (slotOf inum bn)) {bytes : List UInt8}
    (after : bn * bsize ≤ (contents inum).length)
    (before : (contents inum).length + bytes.length ≤ (bn + 1) * bsize) :
    Filled table
      (Function.update image x ((image x).write ((contents inum).length - bn * bsize) bytes))
      freeblock count (Function.update contents inum (contents inum ++ bytes)) := by
  have nonzero := (filled.covered inum inside bn).mpr there
  have region := filled.distinct.region _ nonzero
  rw [← here] at nonzero region
  have numbers : number table
      (Function.update image x ((image x).write ((contents inum).length - bn * bsize) bytes)) =
        number table image := by
    funext place
    refine number_congr (fun _ _ _ _ => rfl) (fun i below indirect => ?_) place
    have apart := filled.distinct.content_ne (by rw [← here]; exact nonzero) i
    rw [← here, number, if_pos ⟨below, Nat.le_refl _⟩] at apart
    exact Function.update_of_ne apart.symm ..
  refine ⟨filled.start, ?_, ?_, ?_, ?_, ?_, ?_, filled.total⟩
  · intro b free below
    rw [Function.update_of_ne (by omega)]
    exact filled.fresh b free below
  · rw [numbers]
    exact filled.distinct
  · rw [numbers]
    exact filled.covered
  · rw [numbers]
    exact filled.indirect
  · intro i below
    by_cases mine : i = inum
    · subst mine
      have enough := Nat.mul_le_mul_right bsize (Nat.succ_le_of_lt there)
      rw [Function.update_self, List.length_append]
      exact Nat.le_trans before enough
    · rw [Function.update_of_ne mine]
      exact filled.within i below
  · intro i below o covered
    have old := filled.bytes i below o covered
    have taken := (filled.covered i below _).mpr covered
    rw [numbers]
    by_cases target : i = inum ∧ o / bsize = bn
    · obtain ⟨rfl, rfl⟩ := target
      have position := Nat.div_add_mod' o bsize
      rw [← here] at old ⊢
      rw [Function.update_self, Function.update_self, getD_append, Memory.write]
      split
      case isTrue range =>
        rw [if_pos (by omega)]
        congr 1
        omega
      case isFalse range =>
        rw [old]
        split
        case isTrue beyond =>
          rw [List.getD_eq_default _ _ beyond, List.getD_eq_default _ _ (by omega)]
        case isFalse => rfl
    · have apart : number table image (slotOf i (o / bsize)) ≠ x := by
        intro same
        have places := filled.distinct.once _ _ taken (same.trans here)
        exact target (slotOf_inj places)
      rw [Function.update_of_ne apart, old]
      by_cases mine : i = inum
      · subst mine
        have other : o / bsize ≠ bn := fun same => target ⟨rfl, same⟩
        rw [Function.update_self, getD_append]
        split
        case isTrue beyond =>
          have later : (bn + 1) * bsize ≤ o := by
            have above : bn ≤ o / bsize := by
              rw [Nat.le_div_iff_mul_le (by decide)]
              omega
            exact (Nat.le_div_iff_mul_le (by decide)).mp (by omega)
          rw [List.getD_eq_default _ _ beyond, List.getD_eq_default _ _ (by omega)]
        case isFalse => rfl
      · rw [Function.update_of_ne mine]

end Written

/-- How many blocks so many bytes need. -/
def needed (length : Nat) : Nat := (length + bsize - 1) / bsize

theorem needed_eq {length bn : Nat} (after : bn * bsize < length)
    (before : length ≤ (bn + 1) * bsize) : needed length = bn + 1 := by
  rw [needed, Nat.div_eq_iff (by decide)]
  rw [Nat.succ_mul] at before ⊢
  have size : bsize = 512 := rfl
  omega

theorem needed_mono {few many : Nat} (le : few ≤ many) : needed few ≤ needed many :=
  Nat.div_le_div_right (by omega)

/-- The block of the next byte is one that more bytes need. -/
theorem div_lt_needed {length total : Nat} (more : length < total) :
    length / bsize < needed total := by
  have base := Nat.div_add_mod' length bsize
  have offset := Nat.mod_lt length (show 0 < bsize by decide)
  have least := needed_mono (show length / bsize * bsize + 1 ≤ total by omega)
  rw [needed_eq (Nat.lt_succ_self _) (by rw [Nat.succ_mul]; omega)] at least
  exact least

theorem length_le_of_needed {length count : Nat} (le : needed length ≤ count) :
    length ≤ count * bsize := by
  rw [needed, ← Nat.lt_succ_iff, Nat.div_lt_iff_lt_mul (by decide), Nat.succ_mul] at le
  have size : bsize = 512 := rfl
  omega

/-- The image is large enough for so many blocks of every inode. -/
def Affordable (budget : Nat → Nat) : Prop :=
  nmeta + (Finset.range ninodes).sum (fun inum => blocks (budget inum)) ≤ fsSize

section Loop

variable {table : Nat → Dinode} {count budget : Nat → Nat} {contents : Nat → List UInt8}
  {inum : Nat} {din : Dinode} {m : Mkfs}

theorem Affordable.mono (affordable : Affordable budget)
    (within : ∀ i < ninodes, count i ≤ budget i) : Affordable count := by
  have less : (Finset.range ninodes).sum (fun i => blocks (count i)) ≤
      (Finset.range ninodes).sum fun i => blocks (budget i) :=
    Finset.sum_le_sum fun i member => blocks_mono (within i (Finset.mem_range.mp member))
  unfold Affordable at affordable ⊢
  omega

theorem Filled.freeblock_le {image : Nat → Block} {freeblock : Nat}
    (filled : Filled table image freeblock count contents) (affordable : Affordable count) :
    freeblock ≤ fsSize := by
  have total := filled.total
  unfold Affordable at affordable
  omega

theorem within_update (within : ∀ i < ninodes, count i ≤ budget i) {more : Nat}
    (room : more ≤ budget inum) : ∀ i < ninodes, Function.update count inum more i ≤ budget i := by
  intro i below
  by_cases mine : i = inum
  · subst mine
    rw [Function.update_self]
    exact room
  · rw [Function.update_of_ne mine]
    exact within i below

/-- The block that the next byte goes to, found or taken. -/
theorem appendBlock_next (affordable : Affordable budget)
    (filled : Filled (Function.update table inum din) m.image m.freeblock count contents)
    (within : ∀ i < ninodes, count i ≤ budget i) (inside : inum < ninodes)
    (counted : count inum = needed (contents inum).length)
    (room : (contents inum).length / bsize < budget inum) (limit : budget inum ≤ maxFile) :
    ∃ later x next, appendBlock din ((contents inum).length / bsize) m = .done (later, x) next ∧
      Filled (Function.update table inum later) next.image next.freeblock
        (Function.update count inum ((contents inum).length / bsize + 1)) contents ∧
      x = number (Function.update table inum later) next.image
        (slotOf inum ((contents inum).length / bsize)) ∧
      Appends din m later next := by
  have full := filled.freeblock_le (affordable.mono within)
  have base := Nat.div_add_mod' (contents inum).length bsize
  have offset := Nat.mod_lt (contents inum).length (show 0 < bsize by decide)
  generalize (contents inum).length / bsize = bn at base room
  by_cases start : (contents inum).length % bsize = 0
  · have last : count inum = bn := by
      rw [counted, needed, Nat.div_eq_iff (by decide)]
      omega
    have afford : Affordable (Function.update count inum (bn + 1)) :=
      affordable.mono (within_update within room)
    have updated := sum_blocks_update count inside (bn + 1)
    have total := filled.total
    unfold Affordable at afford
    have grown := appendBlock_grows filled inside (by omega) (by rw [last] at updated ⊢; omega)
    rw [last] at grown
    exact grown
  · have there : count inum = bn + 1 := by
      rw [counted]
      refine needed_eq (by omega) ?_
      rw [Nat.succ_mul]
      omega
    have same : Function.update count inum (bn + 1) = count := by
      rw [← there, Function.update_eq_self]
    rw [same]
    exact ⟨din, _, m, appendBlock_found filled inside full (by omega), filled, rfl,
      Appends.refl din m⟩

theorem iappendFrom_nil (fuel : Nat) (din : Dinode) (off : Nat) (m : Mkfs) :
    iappendFrom fuel din off [] m = .done (din, off) m := by
  cases fuel <;> rfl

theorem iappendFrom_cons (fuel : Nat) {off : Nat} {p : List UInt8} {later : Dinode} {x : Nat} {next : Mkfs}
    (some : 0 < p.length) (below : off / bsize < maxFile)
    (found : appendBlock din (off / bsize) m = .done (later, x) next) (sector : x < fsSize) :
    iappendFrom (fuel + 1) din off p m =
      iappendFrom fuel later (off + min p.length ((off / bsize + 1) * bsize - off))
        (p.drop (min p.length ((off / bsize + 1) * bsize - off)))
        { next with image := Function.update next.image x ((next.image x).write
          (off - off / bsize * bsize)
          (p.take (min p.length ((off / bsize + 1) * bsize - off)))) } := by
  rw [iappendFrom, if_pos some]
  simp only [if_neg (Nat.not_le_of_lt below)]
  rw [Action.bind_done found]
  simp only [Action.bind_done (rsect_eq sector next)]
  rfl

/-- One turn of the loop of `iappend`: as many bytes as fit in the block. -/
theorem iappendFrom_turn (affordable : Affordable budget) (inside : inum < ninodes)
    (limit : budget inum ≤ maxFile) (fuel : Nat) {p : List UInt8} (some : 0 < p.length)
    (filled : Filled (Function.update table inum din) m.image m.freeblock count contents)
    (within : ∀ i < ninodes, count i ≤ budget i)
    (counted : count inum = needed (contents inum).length)
    (room : (contents inum).length / bsize < budget inum) :
    ∃ later next n1, 0 < n1 ∧ n1 ≤ p.length ∧
      iappendFrom (fuel + 1) din (contents inum).length p m =
        iappendFrom fuel later ((contents inum).length + n1) (p.drop n1) next ∧
      needed ((contents inum).length + n1) = (contents inum).length / bsize + 1 ∧
      Filled (Function.update table inum later) next.image next.freeblock
        (Function.update count inum ((contents inum).length / bsize + 1))
        (Function.update contents inum (contents inum ++ p.take n1)) ∧
      Appends din m later next := by
  have base := Nat.div_add_mod' (contents inum).length bsize
  have offset := Nat.mod_lt (contents inum).length (show 0 < bsize by decide)
  obtain ⟨later, x, between, found, grown, here, appends⟩ :=
    appendBlock_next affordable filled within inside counted room limit
  have span : ((contents inum).length / bsize + 1) * bsize =
      (contents inum).length / bsize * bsize + bsize := Nat.succ_mul _ _
  have more : ∀ i < ninodes,
      Function.update count inum ((contents inum).length / bsize + 1) i ≤ budget i :=
    within_update within room
  have taken := (grown.covered inum inside ((contents inum).length / bsize)).mpr
    (by rw [Function.update_self]; exact Nat.lt_succ_self _)
  have sector : x < fsSize := by
    rw [here]
    exact Nat.lt_of_lt_of_le (grown.distinct.region _ taken).2
      (grown.freeblock_le (affordable.mono more))
  have turn := iappendFrom_cons fuel some (by omega) found sector
  generalize size : min p.length
    (((contents inum).length / bsize + 1) * bsize - (contents inum).length) = n1 at turn
  have length : (p.take n1).length = n1 := by
    rw [List.length_take]
    omega
  have written := grown.written inside (by rw [Function.update_self]; exact Nat.lt_succ_self _)
    here (by omega) (show (contents inum).length + (p.take n1).length ≤
      ((contents inum).length / bsize + 1) * bsize by rw [length]; omega)
  refine ⟨later, _, n1, by omega, by omega, turn, needed_eq (by omega) (by omega), written,
    ⟨appends.inode, ?_, appends.freeinode⟩⟩
  intro b below
  have region := (grown.distinct.region _ taken).1
  rw [← appends.metadata b below]
  exact Function.update_of_ne (by omega) ..

/-- The loop of `iappend` appends all bytes. -/
theorem iappendFrom_fills (affordable : Affordable budget) (inside : inum < ninodes)
    (limit : budget inum ≤ maxFile) {fuel : Nat} {p : List UInt8} (fueled : p.length ≤ fuel)
    (filled : Filled (Function.update table inum din) m.image m.freeblock count contents)
    (within : ∀ i < ninodes, count i ≤ budget i)
    (counted : count inum = needed (contents inum).length)
    (room : needed ((contents inum).length + p.length) ≤ budget inum) :
    ∃ later next, iappendFrom fuel din (contents inum).length p m =
        .done (later, (contents inum).length + p.length) next ∧
      Filled (Function.update table inum later) next.image next.freeblock
        (Function.update count inum (needed ((contents inum).length + p.length)))
        (Function.update contents inum (contents inum ++ p)) ∧
      Appends din m later next := by
  induction fuel generalizing p din m count contents with
  | zero =>
      obtain rfl : p = [] := List.eq_nil_of_length_eq_zero (Nat.le_zero.mp fueled)
      refine ⟨din, m, iappendFrom_nil 0 _ _ m, ?_, Appends.refl din m⟩
      rw [List.length_nil, Nat.add_zero, List.append_nil, ← counted, Function.update_eq_self,
        Function.update_eq_self]
      exact filled
  | succ fuel inductionHypothesis =>
      by_cases empty : p = []
      · subst empty
        refine ⟨din, m, iappendFrom_nil _ _ _ m, ?_, Appends.refl din m⟩
        rw [List.length_nil, Nat.add_zero, List.append_nil, ← counted, Function.update_eq_self,
          Function.update_eq_self]
        exact filled
      have some : 0 < p.length := List.length_pos_iff.mpr empty
      have first : (contents inum).length / bsize < budget inum :=
        Nat.lt_of_lt_of_le (div_lt_needed (by omega)) room
      obtain ⟨middle, between, n1, positive, short, turn, reached, written, appends⟩ :=
        iappendFrom_turn affordable inside limit fuel some filled within counted first
      have rest : (contents inum).length + n1 + (p.drop n1).length =
          (contents inum).length + p.length := by
        rw [List.length_drop]
        omega
      have total : (contents inum ++ p.take n1).length = (contents inum).length + n1 := by
        rw [List.length_append, List.length_take]
        omega
      have again := inductionHypothesis (p := p.drop n1) (by rw [List.length_drop]; omega) written
        (within_update within first)
      rw [Function.update_self, Function.update_self, total, rest, Function.update_idem,
        Function.update_idem, List.append_assoc, List.take_append_drop] at again
      obtain ⟨later, next, ran, last, follows⟩ := again reached.symm room
      exact ⟨later, next, turn.trans ran, last, appends.trans follows⟩

end Loop

end Xv6.Fs.Mkfs
