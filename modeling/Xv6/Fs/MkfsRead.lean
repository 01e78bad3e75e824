import Xv6.Fs.MkfsImage
import Xv6.Fs.References

/-!
# The kernel reads what `mkfs` appended

The image builder makes any number of inodes and appends to them in any order
and in pieces of any size. When the kernel opens one of them, `readi` finds the
pieces one behind the other, and changes nothing.
-/

namespace Xv6.Fs.Mkfs

open Xv6.Library

/-! ## Appending what there is no room for -/

section Overflow

variable {table : Nat → Dinode} {count : Nat → Nat} {contents : Nat → List UInt8} {inum : Nat}
  {din : Dinode} {m : Mkfs}

theorem rsect_fails {sec : Nat} (beyond : fsSize ≤ sec) (m : Mkfs) :
    rsect sec m = .panic "read" := by
  rw [rsect, if_neg (Nat.not_lt_of_le beyond)]
  rfl

/-- A block past the end of the image cannot be read. -/
theorem appendBlock_exceeds
    (filled : Filled (Function.update table inum din) m.image m.freeblock count contents)
    (inside : inum < ninodes) (full : m.freeblock ≤ fsSize) (bounded : count inum < maxFile)
    (exceeds : fsSize + blocks (count inum) < m.freeblock + blocks (count inum + 1)) :
    appendBlock din (count inum) m = .panic "read" ∨
      ∃ later x next, appendBlock din (count inum) m = .done (later, x) next ∧ fsSize ≤ x := by
  by_cases direct : count inum < ndirect
  · have empty : din.addrs (count inum) = 0 := by
      have absent := (filled.covered inum inside (count inum)).mp.mt (Nat.lt_irrefl _)
      rw [number_slot _ _ direct inside, Function.update_self] at absent
      exact of_not_not absent
    have cost : blocks (count inum + 1) = blocks (count inum) + 1 := by
      unfold blocks
      rw [if_neg (by omega), if_neg (by omega)]
    refine Or.inr ⟨setSlot din (count inum) m.freeblock, m.freeblock,
      { m with freeblock := m.freeblock + 1 }, ?_, by omega⟩
    rw [appendBlock, if_pos direct, Action.bind_done (fillSlot_empty empty m), setSlot_same]
    rfl
  · have fits : fsSize + 1 < 256 ^ 4 := by decide
    have slot : number (Function.update table inum din) m.image (.addr inum ndirect) =
        din.addrs ndirect := by
      rw [number, if_pos ⟨inside, Nat.le_refl _⟩, Function.update_self]
    have there := filled.indirect inum inside
    rw [slot] at there
    by_cases first : count inum = ndirect
    · have empty : din.addrs ndirect = 0 := of_not_not (there.mp.mt (by omega))
      have cost : blocks (count inum + 1) = blocks (count inum) + 2 := by
        unfold blocks
        rw [if_pos (by omega), if_neg (by omega)]
      rw [appendBlock, if_neg direct, Action.bind_done (fillSlot_empty empty m), setSlot_same]
      by_cases last : m.freeblock < fsSize
      · right
        have blank := filled.fresh _ (Nat.le_refl _) last
        rw [Action.bind_done (rsect_eq last _)]
        simp only [blank, if_pos (Memory.load_zero _ _)]
        refine ⟨_, _, _, rfl, ?_⟩
        rw [Memory.load_store_fits _ _ (by change m.freeblock + 1 < _; omega)]
        change fsSize ≤ m.freeblock + 1
        omega
      · exact Or.inl (Action.bind_panic (rsect_fails (Nat.le_of_not_lt last) _))
    · have taken : din.addrs ndirect ≠ 0 := there.mpr (by omega)
      have cost : blocks (count inum + 1) = blocks (count inum) + 1 := by
        unfold blocks
        rw [if_pos (by omega), if_pos (by omega)]
      have region := filled.distinct.region (.addr inum ndirect) (by rw [slot]; exact taken)
      rw [slot] at region
      have empty : (m.image (din.addrs ndirect)).load (4 * (count inum - ndirect)) 4 = 0 := by
        have index : count inum - ndirect < nindirect := by
          simp only [maxFile] at bounded
          omega
        have absent := (filled.covered inum inside (count inum)).mp.mt (Nat.lt_irrefl _)
        rw [slotOf, if_neg direct, number, Function.update_self, if_pos ⟨inside, index, taken⟩]
          at absent
        exact of_not_not absent
      right
      rw [appendBlock, if_neg direct, Action.bind_done (fillSlot_full taken m),
        Action.bind_done (rsect_eq (by omega) m)]
      simp only [if_pos empty]
      refine ⟨_, _, _, rfl, ?_⟩
      rw [Memory.load_store_fits _ _ (by omega)]
      omega

/-- The contents fit, block by block. -/
structure Fitting (count : Nat → Nat) (inum : Nat) : Prop where
  affordable : Affordable count
  limit : count inum ≤ maxFile

/-- The loop of `iappend` does not get to its end when the bytes do not fit. -/
theorem iappendFrom_overflows (inside : inum < ninodes) {fuel : Nat} {p : List UInt8}
    (fueled : p.length ≤ fuel)
    (filled : Filled (Function.update table inum din) m.image m.freeblock count contents)
    (counted : count inum = needed (contents inum).length) (fitting : Fitting count inum)
    (overflows : ¬Fitting (Function.update count inum (needed ((contents inum).length + p.length)))
      inum) :
    ∃ message, iappendFrom fuel din (contents inum).length p m = .panic message := by
  induction fuel generalizing p din m count contents with
  | zero =>
      rw [Nat.le_zero.mp fueled, Nat.add_zero, ← counted, Function.update_eq_self] at overflows
      exact absurd fitting overflows
  | succ fuel inductionHypothesis =>
      by_cases empty : p = []
      · rw [empty, List.length_nil, Nat.add_zero, ← counted, Function.update_eq_self] at overflows
        exact absurd fitting overflows
      have some : 0 < p.length := List.length_pos_iff.mpr empty
      have base := Nat.div_add_mod' (contents inum).length bsize
      have offset := Nat.mod_lt (contents inum).length (show 0 < bsize by decide)
      have reached : needed ((contents inum).length + 1) = (contents inum).length / bsize + 1 :=
        needed_eq (by omega) (by rw [Nat.succ_mul]; omega)
      have few : count inum ≤ (contents inum).length / bsize + 1 := by
        rw [counted, ← reached]
        exact needed_mono (Nat.le_succ _)
      by_cases next : Fitting (Function.update count inum ((contents inum).length / bsize + 1)) inum
      · have limit := next.limit
        have within : ∀ i < ninodes, count i ≤
            Function.update count inum ((contents inum).length / bsize + 1) i := by
          intro i _
          by_cases mine : i = inum
          · rw [mine, Function.update_self]
            exact few
          · rw [Function.update_of_ne mine]
        obtain ⟨later, between, n1, positive, short, turn, grown, written, -⟩ :=
          iappendFrom_turn next.affordable inside limit fuel some filled within counted
            (by rw [Function.update_self]; exact Nat.lt_succ_self _)
        have rest : (contents inum).length + n1 + (p.drop n1).length =
            (contents inum).length + p.length := by
          rw [List.length_drop]
          omega
        have total : (contents inum ++ p.take n1).length = (contents inum).length + n1 := by
          rw [List.length_append, List.length_take]
          omega
        have again := inductionHypothesis (p := p.drop n1) (by rw [List.length_drop]; omega) written
        rw [Function.update_self, Function.update_self, total, rest, Function.update_idem] at again
        obtain ⟨message, fails⟩ := again grown.symm next overflows
        exact ⟨message, turn.trans fails⟩
      · rw [iappendFrom, if_pos some]
        by_cases large : maxFile ≤ (contents inum).length / bsize
        · exact ⟨_, by simp only [if_pos large]; rfl⟩
        have bounded : (contents inum).length / bsize < maxFile := Nat.lt_of_not_le large
        have short : ¬Affordable (Function.update count inum ((contents inum).length / bsize + 1)) :=
          fun affordable => next ⟨affordable, by rw [Function.update_self]; exact bounded⟩
        have last : count inum = (contents inum).length / bsize := by
          have least : (contents inum).length / bsize ≤ count inum := by
            rw [counted, needed, Nat.le_div_iff_mul_le (by decide)]
            omega
          by_contra different
          have same : (contents inum).length / bsize + 1 = count inum := by omega
          rw [same, Function.update_eq_self] at short
          exact short fitting.affordable
        have exceeds : fsSize + blocks (count inum) < m.freeblock + blocks (count inum + 1) := by
          have updated := sum_blocks_update count inside (count inum + 1)
          have sum := filled.total
          rw [← last] at short
          unfold Affordable at short
          omega
        simp only [if_neg large]
        rw [← last]
        rcases appendBlock_exceeds filled inside (filled.freeblock_le fitting.affordable)
            (last ▸ bounded) exceeds with fails | ⟨later, x, next, found, beyond⟩
        · exact ⟨_, Action.bind_panic fails⟩
        · refine ⟨"read", ?_⟩
          rw [Action.bind_done found]
          exact Action.bind_panic (rsect_fails beyond next)

end Overflow

/-! ## Calls of the image builder -/

/-- What `main` does to the inodes of the image. -/
inductive Call where
  | ialloc (type : Nat)
  | iappend (inum : Nat) (xp : List UInt8)

def Call.run : Call → Action Mkfs Unit
  | .ialloc type => do
      let _ ← Mkfs.ialloc type
      return ()
  | .iappend inum xp => Mkfs.iappend inum xp

def runCalls : List Call → Action Mkfs Unit
  | [] => return ()
  | call :: rest => do
      call.run
      runCalls rest

/-- `main` with these calls in place of the directory and the files. -/
def build (calls : List Call) : Action Mkfs Unit := do
  wsect 1 (Memory.write (fun _ => 0) 0 superblockBytes)
  runCalls calls
  let used ← Action.get Mkfs.freeblock
  balloc used

/-- The kernel reads an inode of this type from its blocks. -/
def Stored (type : Nat) : Prop := type < 2 ^ 16 ∧ type ≠ 0 ∧ type ≠ tDev

instance (type : Nat) : Decidable (Stored type) := inferInstanceAs (Decidable (_ ∧ _))

/-- Inode `freeinode` is next: the calls append to inodes that are there. -/
def Proper : Nat → List Call → Prop
  | _, [] => True
  | freeinode, .ialloc type :: rest =>
      freeinode < ninodes ∧ Stored type ∧ Proper (freeinode + 1) rest
  | freeinode, .iappend inum _ :: rest => 0 < inum ∧ inum < freeinode ∧ Proper freeinode rest

/-- How many inodes the calls make. -/
def inodes : List Call → Nat
  | [] => 0
  | .ialloc _ :: rest => inodes rest + 1
  | .iappend _ _ :: rest => inodes rest

/-- The bytes that the calls append to an inode. -/
def appended : List Call → Nat → List UInt8
  | [], _ => []
  | .ialloc _ :: rest, inum => appended rest inum
  | .iappend other xp :: rest, inum => (if other = inum then xp else []) ++ appended rest inum

/-- No file is too long, and the blocks of all of them are on the image. -/
structure Room (contents : Nat → List UInt8) : Prop where
  sizes : ∀ inum, (contents inum).length ≤ maxFile * bsize
  blocks : nmeta +
    (Finset.range ninodes).sum (fun inum => blocks (needed (contents inum).length)) ≤ fsSize

theorem needed_le_maxFile {length : Nat} (le : length ≤ maxFile * bsize) :
    needed length ≤ maxFile := by
  have size : bsize = 512 := rfl
  rw [needed, ← Nat.lt_succ_iff, Nat.div_lt_iff_lt_mul (by decide), Nat.succ_mul]
  omega

theorem Room.affordable {contents : Nat → List UInt8} (room : Room contents) :
    Affordable fun inum => needed (contents inum).length := room.blocks

theorem Room.limit {contents : Nat → List UInt8} (room : Room contents) (inum : Nat) :
    needed (contents inum).length ≤ maxFile := needed_le_maxFile (room.sizes inum)

theorem Room.mono {contents more : Nat → List UInt8} (room : Room more)
    (le : ∀ inum, (contents inum).length ≤ (more inum).length) : Room contents where
  sizes inum := Nat.le_trans (le inum) (room.sizes inum)
  blocks := room.affordable.mono fun inum _ => needed_mono (le inum)

/-! ## The calls, one after the other -/

section Calls

variable {types budget : Nat → Nat} {contents : Nat → List UInt8} {inum : Nat} {m : Mkfs}

/-- The inodes so far have types that the kernel reads, and the others are blank. -/
structure Typed (freeinode : Nat) (types : Nat → Nat) (contents : Nat → List UInt8) : Prop where
  small : ∀ i, types i < 2 ^ 16
  stored : ∀ i, 0 < i → i < freeinode → Stored (types i)
  blank : ∀ i, freeinode ≤ i → contents i = []

theorem Typed.ialloc {freeinode type : Nat} (typed : Typed freeinode types contents)
    (stored : Stored type) :
    Typed (freeinode + 1) (Function.update types freeinode type) contents where
  small i := by
    by_cases new : i = freeinode
    · rw [new, Function.update_self]
      exact stored.1
    · rw [Function.update_of_ne new]
      exact typed.small i
  stored i positive below := by
    by_cases new : i = freeinode
    · rw [new, Function.update_self]
      exact stored
    · rw [Function.update_of_ne new]
      exact typed.stored i positive (by omega)
  blank i beyond := typed.blank i (by omega)

theorem Typed.iappend {freeinode : Nat} (typed : Typed freeinode types contents)
    (below : inum < freeinode) (bytes : List UInt8) :
    Typed freeinode types (Function.update contents inum bytes) where
  small := typed.small
  stored := typed.stored
  blank i beyond := by
    rw [Function.update_of_ne (by omega)]
    exact typed.blank i beyond

theorem update_append (contents : Nat → List UInt8) (inum : Nat) (xp : List UInt8)
    (rest : List Call) (i : Nat) :
    Function.update contents inum (contents inum ++ xp) i ++ appended rest i =
      contents i ++ appended (.iappend inum xp :: rest) i := by
  rw [appended]
  by_cases mine : i = inum
  · subst mine
    rw [Function.update_self, if_pos rfl, List.append_assoc]
  · rw [Function.update_of_ne mine, if_neg (Ne.symm mine), List.nil_append]

theorem needed_append (contents : Nat → List UInt8) (inum : Nat) (xp : List UInt8) :
    Function.update (fun i => needed (contents i).length) inum
        (needed ((contents inum).length + xp.length)) =
      fun i => needed (Function.update contents inum (contents inum ++ xp) i).length := by
  rw [needed_update, List.length_append]

/-- Bytes that do not fit are not appended. -/
theorem iappend_overflows (atRest : AtRest types contents m) (inside : inum < ninodes)
    (room : Room contents) {xp : List UInt8}
    (overflows : ¬Room (Function.update contents inum (contents inum ++ xp))) :
    ∃ message, Mkfs.iappend inum xp m = .panic message := by
  have filled := atRest.filled
  rw [← Function.update_eq_self inum (table m)] at filled
  have large : ¬Fitting (Function.update (fun i => needed (contents i).length) inum
      (needed ((contents inum).length + xp.length))) inum := by
    rintro ⟨affordable, limit⟩
    apply overflows
    rw [needed_append] at affordable limit
    refine ⟨fun i => ?_, affordable⟩
    by_cases mine : i = inum
    · rw [mine]
      exact length_le_of_needed limit
    · rw [Function.update_of_ne mine]
      exact room.sizes i
  obtain ⟨message, fails⟩ := iappendFrom_overflows inside (Nat.le_refl xp.length) filled rfl
    ⟨room.affordable, room.limit inum⟩ large
  refine ⟨message, ?_⟩
  rw [Mkfs.iappend, Action.bind_done (rinode_eq inside m), atRest.size inum inside]
  exact Action.bind_panic fails

/-- The calls run to their end, and every inode has the bytes appended to it, unless there is no
room for them. -/
theorem runCalls_appends (calls : List Call) (proper : Proper m.freeinode calls)
    (room : Room contents) (atRest : AtRest types contents m)
    (typed : Typed m.freeinode types contents) (inside : m.freeinode ≤ ninodes) :
    (∃ later next, runCalls calls m = .done () next ∧
      Room (fun i => contents i ++ appended calls i) ∧
      AtRest later (fun i => contents i ++ appended calls i) next ∧
      Typed next.freeinode later (fun i => contents i ++ appended calls i) ∧
      next.freeinode = m.freeinode + inodes calls ∧ next.freeinode ≤ ninodes) ∨
    ¬Room (fun i => contents i ++ appended calls i) ∧
      ∃ message, runCalls calls m = .panic message := by
  induction calls generalizing types contents m with
  | nil =>
      simp only [appended, List.append_nil]
      exact Or.inl ⟨types, m, rfl, room, atRest, typed, rfl, inside⟩
  | cons call rest inductionHypothesis =>
      cases call with
      | ialloc type =>
          obtain ⟨below, stored, follows⟩ := proper
          obtain ⟨middle, ran, kept, counter⟩ := ialloc_allocates stored.1 atRest below
            (typed.blank _ (Nat.le_refl _))
          have first : (Call.ialloc type).run m = .done () middle := by
            rw [Call.run, Action.bind_done ran]
            rfl
          have known := typed.ialloc stored
          rw [← counter] at known follows
          rw [runCalls, Action.bind_done first]
          refine (inductionHypothesis follows room kept known (by omega)).imp ?_ id
          rintro ⟨later, next, ended, fits, finished, last, count, bounded⟩
          refine ⟨later, next, ended, fits, finished, last, ?_, bounded⟩
          rw [count, counter, inodes]
          omega
      | iappend inum xp =>
          obtain ⟨positive, below, follows⟩ := proper
          have number := Nat.lt_of_lt_of_le below inside
          rw [runCalls, Call.run]
          by_cases fits : Room (Function.update contents inum (contents inum ++ xp))
          · have within : ∀ i < ninodes, needed (contents i).length ≤
                needed (Function.update contents inum (contents inum ++ xp) i).length := by
              intro i _
              by_cases mine : i = inum
              · rw [mine, Function.update_self, List.length_append]
                exact needed_mono (Nat.le_add_right _ _)
              · rw [Function.update_of_ne mine]
            obtain ⟨middle, ran, kept, counter⟩ := iappend_appends (p := xp) fits.affordable
              fits.limit typed.small atRest number within
              (by rw [Function.update_self, List.length_append])
            have known := typed.iappend below (contents inum ++ xp)
            rw [← counter] at known follows
            have again := inductionHypothesis follows fits kept known (by omega)
            simp only [update_append, counter] at again
            rw [Action.bind_done ran]
            exact again
          · right
            obtain ⟨message, fails⟩ := iappend_overflows atRest number room fits
            refine ⟨fun larger => fits (larger.mono fun i => ?_), message,
              Action.bind_panic fails⟩
            rw [← update_append, List.length_append]
            exact Nat.le_add_right _ _

end Calls

/-! ## The finished image -/

/-- The image with every inode in its blocks, and the bitmap. -/
structure Built (calls : List Call) (m : Mkfs) : Prop where
  image : Image (start m)
  files : ∀ inum, 0 < inum → inum ≤ inodes calls →
    File (start m).toFileSystem inum (appended calls inum) ∧ ((start m).stat inum).type ≠ 0

theorem room_nil : Room fun _ => [] where
  sizes _ := Nat.zero_le _
  blocks := by
    have none : blocks (needed 0) = 0 := by decide
    have start := bmapstart_lt
    simp only [List.length_nil, none, Finset.sum_const_zero]
    omega

/-- Whatever is appended, the image is built if there is room, and the files are on it. -/
theorem build_ends {calls : List Call} (proper : Proper 1 calls) :
    (∃ m, build calls blank = .done () m ∧ Room (appended calls) ∧ Built calls m) ∨
      ¬Room (appended calls) ∧ ∃ message, build calls blank = .panic message := by
  have bits : fsSize < bsize * 8 := by decide
  have places := bmapstart_lt
  obtain ⟨first, super, empty, counter⟩ := atRest_blank
  rw [← counter] at proper
  have typed : Typed first.freeinode (fun _ => 0) fun _ => [] := by
    refine ⟨fun _ => by decide, ?_, fun _ _ => rfl⟩
    intro i positive below
    omega
  have ends := runCalls_appends calls proper room_nil empty typed (by rw [counter]; decide)
  simp only [List.nil_append] at ends
  rw [build, Action.bind_done super]
  rcases ends with ⟨types, second, ran, room, atRest, known, count, bounded⟩ |
    ⟨overflows, message, fails⟩
  · left
    have full := atRest.filled.freeblock_le room.affordable
    obtain ⟨m, marked, image, freeblock⟩ : ∃ m, balloc second.freeblock second = .done () m ∧
        m.image = Function.update second.image sb.bmapstart
          (forLoop second.freeblock (fun i buf => setBit buf i) fun _ => 0) ∧
        m.freeblock = second.freeblock := by
      rw [balloc, if_neg (by omega)]
      exact ⟨_, wsect_eq _ _ second, rfl, rfl⟩
    have same : ∀ i < ninodes, table m i = table second i := by
      intro i below
      have region := iblock_region below
      rw [table, image, Function.update_of_ne (by omega), table]
    have filled : Filled (table m) m.image m.freeblock
        (fun i => needed (appended calls i).length) (appended calls) := by
      rw [freeblock]
      refine atRest.filled.congr (fun i below k slot => by rw [same i below]) fun b data => ?_
      rw [image, Function.update_of_ne (by omega)]
    have numbers : (start m).number = number (table m) m.image := disk_number m
    refine ⟨m, ?_, room, filled.image (by omega) ?_ ?_, ?_⟩
    · rw [Action.bind_done ran, Action.get_bind]
      exact marked
    · rw [image, Function.update_of_ne (by decide)]
      exact atRest.super
    · rw [image, Function.update_self, freeblock]
    · intro inum positive below
      have inside : inum < ninodes := by omega
      have stored := known.stored inum positive (by omega)
      have stat : (start m).stat inum = table second inum := by
        rw [stat_of_disk fun ip => by simp [FileSystem.live, start, disk]]
        exact same inum inside
      have covered : ∀ o < (appended calls inum).length,
          o / bsize < needed (appended calls inum).length := fun o before =>
        lt_needed (Nat.lt_of_le_of_lt (Nat.div_mul_le_self o bsize) before)
      refine ⟨⟨inside, ?_, ?_, ?_, ?_⟩, ?_⟩
      · rw [stat, atRest.type inum inside]
        exact stored.2.2
      · rw [stat, atRest.size inum inside]
      · intro o before
        rw [numbers]
        exact (filled.covered inum inside _).mpr (covered o before)
      · intro o before
        rw [FileSystem.byte, numbers]
        exact filled.bytes inum inside o (covered o before)
      · rw [stat, atRest.type inum inside]
        exact stored.2.1
  · exact Or.inr ⟨overflows, message, Action.bind_panic fails⟩

/-! ## Opening -/

/-- The kernel runs on the image and has written nothing. -/
structure Unwritten (m : Mkfs) (state : FsState) : Prop where
  sound : Sound state
  block : state.block = m.image
  super : state.sb = sb
  copies : ∀ inum ip, state.live inum ip = true → (state.inode ip).toDinode = table m inum

section Reading

variable {calls : List Call} {m : Mkfs} {state : FsState} {ip : InodePtr} {inum : Nat}

theorem Unwritten.stat (unwritten : Unwritten m state) (inum : Nat) :
    state.stat inum = table m inum := by
  by_cases cached : ∃ ip, state.live inum ip = true
  · obtain ⟨ip, live⟩ := cached
    rw [stat_of_live unwritten.sound.consistent.once live, unwritten.copies inum ip live]
  · have nobody : ∀ ip, state.live inum ip = false := fun ip =>
      Bool.eq_false_iff.mpr fun live => cached ⟨ip, live⟩
    rw [stat_of_disk nobody, FileSystem.dinode, unwritten.block, unwritten.super]
    rfl

theorem Built.unwritten (built : Built calls m) : Unwritten m (start m) where
  sound := built.image.sound
  block := rfl
  super := rfl
  copies inum ip live := by simp [FileSystem.live, start, disk] at live

/-- The files of the image are the files that the kernel sees. -/
theorem Built.file (built : Built calls m) (unwritten : Unwritten m state) (positive : 0 < inum)
    (made : inum ≤ inodes calls) : File state.toFileSystem inum (appended calls inum) := by
  refine (built.files inum positive made).1.congr (fun i => ?_) unwritten.block unwritten.super
  rw [unwritten.stat, built.unwritten.stat]

/-- The kernel takes a reference to an inode and locks it. -/
def openInode (inum : Nat) : Action FsState InodePtr := do
  let ip ← iget inum
  ilock ip
  return ip

/-- The cache with only inode `inum`. -/
def cached (m : Mkfs) (ip : InodePtr) (inum : Nat) (valid : Bool) (copy : Dinode) : FsState where
  toFileSystem := (disk m).setInode ip
    { toDinode := copy, inum := inum, ref := 1, valid := valid }
  calls := []

theorem cached_self (ip : InodePtr) (inum : Nat) (valid : Bool) (copy : Dinode) :
    (cached m ip inum valid copy).inode ip =
      { toDinode := copy, inum := inum, ref := 1, valid := valid } :=
  setInode_self ..

theorem cached_setInode (ip : InodePtr) (inum : Nat) (valid : Bool) (copy : Dinode)
    (inode : Inode) : (cached m ip inum valid copy).toFileSystem.setInode ip inode =
      (disk m).setInode ip inode := by
  simp only [cached, FileSystem.setInode, Function.update_idem]

theorem cached_live {other : InodePtr} {i : Nat} {valid : Bool} {copy : Dinode}
    (live : (cached m ip inum valid copy).live i other = true) : other = ip ∧ inum = i := by
  rw [live_iff] at live
  by_cases same : other = ip
  · rw [same, cached_self] at live
    exact ⟨same, live.2.2⟩
  · obtain ⟨referenced, -, -⟩ := live
    rw [cached, setInode_of_ne _ same] at referenced
    exact absurd referenced (Int.lt_irrefl 0)

/-- The first inode is opened. -/
theorem Built.opens (built : Built calls m) (positive : 0 < inum) (made : inum ≤ inodes calls) :
    ∃ ip state, openInode inum (start m) = .done ip state ∧ Unwritten m state ∧
      state.live inum ip = true := by
  obtain ⟨file, allocated⟩ := built.files inum positive made
  have absent : (List.finRange ninode).find? (fun ip =>
      decide (0 < ((start m).inode ip).ref) && ((start m).inode ip).inum == inum) = none := by
    rw [List.find?_eq_none]
    intro ip _
    simp [start, disk]
  cases free : (List.finRange ninode).find? fun ip => ((start m).inode ip).ref == 0 with
  | none =>
      have first := List.find?_eq_none.mp free ⟨0, by decide⟩ (List.mem_finRange _)
      simp [start, disk] at first
  | some ip =>
      have got : iget inum (start m) =
          .done ip (cached m ip inum false ((start m).inode ip).toDinode) := by
        rw [iget, Action.get_bind, absent]
        simp only [free]
        rfl
      have sound := (iget_sound built.image.sound file.inside).of_done got
      have type : ((cached m ip inum true (table m inum)).inode ip).type ≠ 0 := by
        rw [cached_self, ← built.unwritten.stat]
        exact allocated
      have locked : ilock ip (cached m ip inum false ((start m).inode ip).toDinode) =
          .done () (cached m ip inum true (table m inum)) := by
        have fresh : ¬(1 : Int) < 1 := Int.lt_irrefl 1
        have number : ((cached m ip inum false ((start m).inode ip).toDinode).inode ip).inum =
            inum := by rw [cached_self]
        have disk : (cached m ip inum false ((start m).inode ip).toDinode).dinode inum =
            table m inum := rfl
        rw [ilock, Action.get_bind, cached_self, if_neg fresh, if_pos rfl, onFs,
          Action.modify_bind, Action.get_bind]
        have referenced : ((cached m ip inum false ((start m).inode ip).toDinode).inode ip).ref =
            1 := by rw [cached_self]
        simp only [number, disk, referenced, cached_setInode]
        exact congrFun (if_neg type) _
      refine ⟨ip, cached m ip inum true (table m inum), ?_, ⟨(ilock_sound sound).of_done locked,
        rfl, rfl, ?_⟩, ?_⟩
      · rw [openInode, Action.bind_done got, Action.bind_done locked]
        rfl
      · intro i other live
        obtain ⟨rfl, rfl⟩ := cached_live live
        rw [cached_self]
      · rw [live_iff, cached_self]
        exact ⟨Int.one_pos, rfl, rfl⟩

/-! ## Reading -/

/-- What `readi` returns for a file with these bytes, and stores at `dst`. -/
def readOf (bytes : List UInt8) (off n : UInt32) : Int × List UInt8 :=
  if off.toNat ≤ bytes.length ∧ off.toNat + n.toNat < 2 ^ 32 then
    ((min n.toNat (bytes.length - off.toNat) : Nat), (bytes.drop off.toNat).take n.toNat)
  else (-1, [])

theorem Built.reads (built : Built calls m) (unwritten : Unwritten m state)
    (live : state.live inum ip = true) (positive : 0 < inum) (made : inum ≤ inodes calls)
    (consoleread : Int → Int × List UInt8) (off n : UInt32) :
    readi consoleread ip off n state = .done (readOf (appended calls inum) off n) state := by
  have file := built.file unwritten positive made
  have plain := file.plain
  have size := file.size
  rw [stat_of_live unwritten.sound.consistent.once live] at plain size
  rw [readOf]
  by_cases accepted : off.toNat ≤ (appended calls inum).length ∧ off.toNat + n.toNat < 2 ^ 32
  · rw [if_pos accepted]
    exact readi_eq consoleread unwritten.sound live file accepted.1 accepted.2
  · rw [if_neg accepted]
    rw [← size] at accepted
    exact readi_refuses consoleread plain accepted

end Reading

/-- **The image builder and the kernel.** Whatever is appended in whatever pieces, the image is
built exactly when there is room. On it the kernel can open every inode, and whenever an inode is
open, `readi` returns the bytes that were appended to it, and leaves every block, every inode and
the calls of `balloc` as they are. -/
theorem mkfs_readi {calls : List Call} (proper : Proper 1 calls) :
    ((∃ m, build calls blank = .done () m) ↔ Room (appended calls)) ∧
      ∀ m, build calls blank = .done () m → ∀ inum, 0 < inum → inum ≤ inodes calls →
        (∃ ip state, openInode inum (start m) = .done ip state ∧ Unwritten m state ∧
          state.live inum ip = true) ∧
        ∀ state ip, Unwritten m state → state.live inum ip = true →
          ∀ consoleread off n, readi consoleread ip off n state =
            .done (readOf (appended calls inum) off n) state := by
  rcases build_ends proper with ⟨m, ran, room, built⟩ | ⟨overflows, message, fails⟩
  · refine ⟨iff_of_true ⟨m, ran⟩ room, ?_⟩
    intro other finished inum positive made
    obtain rfl : m = other := (Outcome.done.inj (ran.symm.trans finished)).2
    refine ⟨built.opens positive made, ?_⟩
    intro state ip unwritten live consoleread off n
    exact built.reads unwritten live positive made consoleread off n
  · refine ⟨iff_of_false ?_ overflows, ?_⟩
    · rintro ⟨m, finished⟩
      cases fails.symm.trans finished
    · intro m finished
      cases fails.symm.trans finished

/-- Two files that grow in turn. -/
def twoFiles : List Call :=
  [.ialloc tFile, .ialloc tFile, .iappend 1 (List.replicate 600 7), .iappend 2 [1, 2, 3],
    .iappend 1 (List.replicate 100 8)]

theorem mkfs_readi_twoFiles : ∃ m ip state, build twoFiles blank = .done () m ∧
    openInode 1 (start m) = .done ip state ∧ readi (fun n => (n, [])) ip 590 200 state =
      .done (110, List.replicate 10 7 ++ List.replicate 100 8) state := by
  have proper : Proper 1 twoFiles :=
    ⟨by decide, by decide, by decide, by decide, by decide, by decide, by decide, by decide,
      by decide, by decide, trivial⟩
  have room : Room (appended twoFiles) := by
    constructor
    · intro inum
      have limit : maxFile * bsize = 71680 := rfl
      simp only [twoFiles, appended, List.length_append, apply_ite List.length,
        List.length_replicate, List.length_cons, List.length_nil]
      split <;> split <;> omega
    · decide +kernel
  obtain ⟨built, reads⟩ := mkfs_readi proper
  obtain ⟨m, ran⟩ := built.mpr room
  obtain ⟨⟨ip, state, opened, unwritten, live⟩, all⟩ := reads m ran 1 (by decide) (by decide)
  have bytes := all state ip unwritten live (fun n => (n, [])) 590 200
  rw [show readOf (appended twoFiles 1) 590 200 =
    (110, List.replicate 10 7 ++ List.replicate 100 8) by decide +kernel] at bytes
  exact ⟨m, ip, state, ran, opened, bytes⟩

end Xv6.Fs.Mkfs
