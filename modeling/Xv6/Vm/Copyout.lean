import Xv6.Vm.Copy

/-!
# Copying to user memory

`copyout` copies bytes to a range of user addresses, page by page. It asks
`uva2ka` for each page, which reads the entry that `walkpgdir` found without
looking whether it found one.
-/

namespace Xv6.Vm

open Xv6.Library

variable {symbols : Symbols} {all : Set (Page symbols)} {m middle later : Machine}
  {s : Space symbols} {free : List (Page symbols)}

/-! ## The functions -/

/-- The user can use what the entry maps. -/
def Accessible (pte : UInt32) : Prop := Present pte ∧ pte &&& pteU ≠ 0

instance (pte : UInt32) : Decidable (Accessible pte) := inferInstanceAs (Decidable (_ ∧ _))

/-- Map user virtual address to kernel address, 0 if the user cannot use it. Gives also
the address from which the entry was read. -/
def uva2ka (pgdir uva : UInt32) : Action Machine (UInt32 × UInt32) := do
  let pte ← walkpgdir pgdir uva false
  let entry ← loadWord pte
  if ¬Present entry then return (0, pte)
  else if entry &&& pteU = 0 then return (0, pte)
  else return (p2v (pteAddr entry), pte)

/-- A `memmove` from outside of the memory of the model. -/
def storeBytes (dst : UInt32) (bytes : List UInt8) : Action Machine Unit :=
  Action.modify fun m => { m with memory := m.memory.write dst.toNat bytes }

/-- The loop of `copyout`; `reads` are the addresses from which entries were read. -/
def copyoutFrom (pgdir : UInt32) :
    Nat → UInt32 → List UInt8 → List UInt32 → Action Machine (Int × List UInt32)
  | 0, _, _, _ => Action.never
  | fuel + 1, va, buf, reads =>
      if 0 < buf.length then do
        let va0 := pgRoundDown va
        let found ← uva2ka pgdir va0
        let pa0 := found.1
        let reads := reads ++ [found.2]
        if pa0 = 0 then return (-1, reads)
        else
          let n := min (pgsize - (va - va0)).toNat buf.length
          storeBytes (pa0 + (va - va0)) (buf.take n)
          copyoutFrom pgdir fuel (va0 + pgsize) (buf.drop n) reads
      else return (0, reads)

/-- Copy the bytes of `p` to user address `va` in page table `pgdir`; each turn copies at
least one. Gives what is returned and the addresses from which entries were read. -/
def copyout (pgdir va : UInt32) (p : List UInt8) : Action Machine (Int × List UInt32) :=
  copyoutFrom pgdir (p.length + 1) va p []

/-! ## User bytes -/

namespace Space

/-- The kernel address of a user byte. -/
def place (s : Space symbols) (u : Nat) : Nat := (s.frame (u / 4096)).toNat + u % 4096

/-- The user can use the page. -/
def Open (s : Space symbols) (n : Nat) : Prop := n < userPages ∧ Accessible (s.pte n)

end Space

/-- The bytes have been written to the user addresses from `start` on, and nothing else. -/
structure Wrote (s : Space symbols) (m : Machine) (start : Nat) (bytes : List UInt8)
    (later : Machine) : Prop where
  written : ∀ i (inside : i < bytes.length), later.memory (s.place (start + i)) = bytes[i]
  others : ∀ a, (∀ i < bytes.length, a ≠ s.place (start + i)) → later.memory a = m.memory a
  freelist : later.freelist = m.freelist

namespace World

theorem open_backed (world : World all m s free) {n : Nat} (able : s.Open n) :
    ∃ page : Page symbols, s.Has (.user n) page := by
  obtain ⟨page, frame⟩ := world.backed n able.1 able.2.1
  exact ⟨page, able.1, able.2.1, frame⟩

/-- User bytes at different addresses are different bytes. -/
theorem place_injective (world : World all m s free) {u v : Nat} (first : s.Open (u / 4096))
    (second : s.Open (v / 4096)) (same : s.place u = s.place v) : u = v := by
  obtain ⟨page, held⟩ := world.open_backed first
  obtain ⟨other, also⟩ := world.open_backed second
  rw [Space.place, Space.place, held.2.2, also.2.2] at same
  by_cases equal : page = other
  · subst equal
    have places := world.accounts.owned.once (.user (u / 4096)) (.user (v / 4096)) page held also
    injection places with number
    omega
  · have apart := Page.apart equal
    omega

/-- Pages that the user cannot reach are not written. -/
theorem place_ne (world : World all m s free) {u offset : Nat} (able : s.Open (u / 4096))
    {page : Page symbols} (kernel : page ∈ free ∨ s.Structural page) (inside : offset < 4096) :
    page.addr.toNat + offset ≠ s.place u := by
  obtain ⟨other, held⟩ := world.open_backed able
  have different : page ≠ other := by
    rintro rfl
    obtain listed | entries := kernel
    · exact world.has_used held listed
    · exact world.user_data held entries
  have apart := Page.apart different
  rw [Space.place, held.2.2]
  omega

end World

namespace Wrote

variable {start : Nat} {bytes first second : List UInt8}

theorem nil (s : Space symbols) (m : Machine) (start : Nat) : Wrote s m start [] m where
  written := fun _ inside => absurd inside (Nat.not_lt_zero _)
  others := fun _ _ => rfl
  freelist := rfl

/-- The user's bytes are neither free pages nor page tables. -/
theorem world (wrote : Wrote s m start bytes later) (world : World all m s free)
    (able : ∀ i < bytes.length, s.Open ((start + i) / 4096)) : World all later s free := by
  apply world.congr
  · intro page kernel offset below
    apply wrote.others
    intro i inside
    exact world.place_ne (able i inside) kernel below
  · exact wrote.freelist

theorem append (wrote : Wrote s m start first middle)
    (more : Wrote s middle (start + first.length) second later) (world : World all m s free)
    (able : ∀ i < (first ++ second).length, s.Open ((start + i) / 4096)) :
    Wrote s m start (first ++ second) later := by
  rw [List.length_append] at able
  refine ⟨?_, ?_, more.freelist.trans wrote.freelist⟩
  · intro i inside
    rw [List.length_append] at inside
    by_cases before : i < first.length
    · rw [List.getElem_append_left before, more.others, wrote.written i before]
      intro j below same
      have addresses := world.place_injective (able i inside)
        (show s.Open ((start + first.length + j) / 4096) by
          rw [Nat.add_assoc]
          exact able _ (by omega)) same
      omega
    · have after := more.written (i - first.length) (by omega)
      rw [show start + first.length + (i - first.length) = start + i by omega] at after
      rw [after, List.getElem_append_right (Nat.le_of_not_lt before)]
  · intro a outside
    rw [List.length_append] at outside
    rw [more.others, wrote.others]
    · exact fun i inside => outside i (by omega)
    · intro i inside
      rw [Nat.add_assoc]
      exact outside _ (by omega)

/-- A part of one page is written. -/
theorem storeBytes {n offset : Nat} {page : Page symbols} (frame : s.frame n = page.addr)
    (inside : offset + bytes.length ≤ 4096) :
    Wrote s m (4096 * n + offset) bytes
      { m with memory := m.memory.write (page.addr.toNat + offset) bytes } := by
  have places : ∀ i < bytes.length,
      s.place (4096 * n + offset + i) = page.addr.toNat + offset + i := by
    intro i below
    rw [Space.place, show (4096 * n + offset + i) / 4096 = n by omega, frame]
    omega
  refine ⟨?_, ?_, rfl⟩
  · intro i below
    rw [places i below]
    exact m.memory.write_inside _ below
  · intro a outside
    apply Memory.write_outside
    by_contra within
    apply outside (a - (page.addr.toNat + offset)) (by omega)
    rw [places _ (by omega)]
    omega

end Wrote

/-! ## uva2ka -/

/-- The user can use no page of the kernel's part. -/
def Space.Supervised (s : Space symbols) : Prop :=
  ∀ n, userPages ≤ n → ¬Accessible (s.pte n)

/-- The address is one of the entry for a user address in its page table. -/
def Space.Slot (s : Space symbols) (pte : UInt32) : Prop :=
  ∃ uva page, s.table (vpn uva / 1024) = some page ∧ pte = page.addr + 4 * ptx uva

namespace World

variable {uva : UInt32} {page : Page symbols}

theorem uva2ka_open (world : World all m s free) (uva : UInt32) (able : s.Open (vpn uva))
    (frame : s.frame (vpn uva) = page.addr) :
    ∃ pte, s.Slot pte ∧ uva2ka s.dir.addr uva m = .done (page.addr, pte) m := by
  obtain ⟨user, present, usable⟩ := able
  obtain ⟨table, there⟩ : ∃ table, s.table (vpn uva / 1024) = some table := by
    apply Option.ne_none_iff_exists'.mp
    intro none
    rw [s.absent _ none] at present
    exact not_present_zero present
  refine ⟨_, ⟨uva, table, there, rfl⟩, ?_⟩
  have address : p2v (pteAddr (s.pte (vpn uva))) = page.addr := frame
  rw [uva2ka, Action.bind_done (world.holds.walkpgdir_table there false),
    Machine.loadWord_page (toNat_ptx_lt uva), toNat_ptx_eq, world.holds.entries _ table there,
    if_neg (not_not.mpr present), if_neg usable, address]
  rfl

theorem uva2ka_closed (world : World all m s free) (uva : UInt32)
    (unable : ¬Accessible (s.pte (vpn uva)))
    (there : s.table (vpn uva / 1024) = some page) :
    ∃ pte, s.Slot pte ∧ uva2ka s.dir.addr uva m = .done (0, pte) m := by
  refine ⟨_, ⟨uva, page, there, rfl⟩, ?_⟩
  rw [uva2ka, Action.bind_done (world.holds.walkpgdir_table there false),
    Machine.loadWord_page (toNat_ptx_lt uva), toNat_ptx_eq, world.holds.entries _ page there]
  by_cases present : Present (s.pte (vpn uva))
  · have supervisor : s.pte (vpn uva) &&& pteU = 0 := by
      by_contra usable
      exact unable ⟨present, usable⟩
    rw [if_neg (not_not.mpr present), if_pos supervisor]
    rfl
  · rw [if_pos present]
    rfl

/-- Without a page table the entry is read from address 0. -/
theorem uva2ka_none (world : World all m s free) (uva : UInt32)
    (none : s.table (vpn uva / 1024) = none) :
    ∃ found, uva2ka s.dir.addr uva m = .done (found, 0) m := by
  rw [uva2ka, Action.bind_done (world.holds.walkpgdir_none none), loadWord, Action.get_bind]
  generalize UInt32.ofNat (m.memory.load (0 : UInt32).toNat 4) = entry
  by_cases present : Present entry
  · by_cases supervisor : entry &&& pteU = 0
    · exact ⟨0, by
        rw [if_neg (not_not.mpr present), if_pos supervisor]
        rfl⟩
    · exact ⟨p2v (pteAddr entry), by
        rw [if_neg (not_not.mpr present), if_neg supervisor]
        rfl⟩
  · exact ⟨0, by
      rw [if_pos present]
      rfl⟩

end World

/-! ## The loop of copyout -/

theorem toNat_page_offset (va : UInt32) : (va - pgRoundDown va).toNat = va.toNat % 4096 := by
  have down := toNat_pgRoundDown va
  have below : pgRoundDown va ≤ va := by
    rw [UInt32.le_iff_toNat_le]
    omega
  rw [UInt32.toNat_sub_of_le va _ below]
  omega

theorem toNat_page_rest (va : UInt32) :
    (pgsize - (va - pgRoundDown va)).toNat = 4096 - va.toNat % 4096 := by
  have offset := toNat_page_offset va
  have below : va - pgRoundDown va ≤ pgsize := by
    rw [UInt32.le_iff_toNat_le, toNat_pgsize]
    omega
  rw [UInt32.toNat_sub_of_le pgsize _ below, offset]
  rfl

theorem vpn_pgRoundDown (va : UInt32) : vpn (pgRoundDown va) = vpn va := by
  rw [vpn, vpn, toNat_pgRoundDown]
  omega

/-- What was read stays in the list. -/
theorem copyoutFrom_reads {pgdir va : UInt32} {fuel : Nat} {buf : List UInt8}
    {reads seen : List UInt32} {result : Int}
    (ran : copyoutFrom pgdir fuel va buf reads m = .done (result, seen) later) :
    ∀ pte ∈ reads, pte ∈ seen := by
  induction fuel generalizing va buf reads m with
  | zero => cases ran
  | succ fuel inductionHypothesis =>
      by_cases more : 0 < buf.length
      · rw [copyoutFrom, if_pos more] at ran
        cases found : uva2ka pgdir (pgRoundDown va) m with
        | blocked =>
            rw [Action.bind_blocked found] at ran
            cases ran
        | panic message =>
            rw [Action.bind_panic found] at ran
            cases ran
        | done value middle =>
            rw [Action.bind_done found] at ran
            intro pte member
            have kept : pte ∈ reads ++ [value.2] := List.mem_append_left _ member
            by_cases zero : value.1 = 0
            · rw [if_pos zero] at ran
              cases ran
              exact kept
            · rw [if_neg zero, storeBytes, Action.modify_bind] at ran
              exact inductionHypothesis ran pte kept
      · rw [copyoutFrom, if_neg more] at ran
        cases ran
        exact fun _ member => member

theorem uva2ka_returns (pgdir uva : UInt32) (m : Machine) :
    ∃ found, uva2ka pgdir uva m = .done found m := by
  obtain ⟨pte, walked⟩ : ∃ pte, walkpgdir pgdir uva false m = .done pte m := by
    rw [walkpgdir, loadWord, Action.get_bind]
    split
    · exact ⟨_, rfl⟩
    · exact ⟨0, rfl⟩
  rw [uva2ka, Action.bind_done walked, loadWord, Action.get_bind]
  split
  · exact ⟨_, rfl⟩
  · split
    · exact ⟨_, rfl⟩
    · exact ⟨_, rfl⟩

theorem copyoutFrom_returns (pgdir : UInt32) {fuel : Nat} {buf : List UInt8}
    (enough : buf.length < fuel) (va : UInt32) (reads : List UInt32) (m : Machine) :
    ∃ result seen later, copyoutFrom pgdir fuel va buf reads m = .done (result, seen) later := by
  induction fuel generalizing va buf reads m with
  | zero => cases enough
  | succ fuel inductionHypothesis =>
      by_cases more : 0 < buf.length
      · obtain ⟨found, read⟩ := uva2ka_returns pgdir (pgRoundDown va) m
        rw [copyoutFrom, if_pos more, Action.bind_done read]
        by_cases zero : found.1 = 0
        · rw [if_pos zero]
          exact ⟨_, _, _, rfl⟩
        · rw [if_neg zero, storeBytes, Action.modify_bind, toNat_page_rest]
          apply inductionHypothesis
          rw [List.length_drop]
          omega
      · rw [copyoutFrom, if_neg more]
        exact ⟨_, _, _, rfl⟩

namespace World

/-- The user has the page at hand: the part of the bytes that lies in it is stored. -/
theorem copyoutFrom_turn (world : World all m s free) {va : UInt32} {buf : List UInt8}
    (reads : List UInt32) (more : 0 < buf.length) (able : s.Open (vpn va)) (fuel : Nat) :
    ∃ pte stored n, s.Slot pte ∧ 0 < n ∧ n ≤ buf.length ∧
      copyoutFrom s.dir.addr (fuel + 1) va buf reads m =
        copyoutFrom s.dir.addr fuel (pgRoundDown va + pgsize) (buf.drop n) (reads ++ [pte]) stored ∧
      (∀ i < n, (va.toNat + i) / 4096 = vpn va) ∧
      Wrote s m va.toNat (buf.take n) stored ∧
      (n < buf.length → (pgRoundDown va + pgsize).toNat = va.toNat + n) := by
  obtain ⟨page, held⟩ := world.open_backed able
  have down := vpn_pgRoundDown va
  obtain ⟨pte, slot, found⟩ := world.uva2ka_open (pgRoundDown va) (by rw [down]; exact able)
    (by rw [down]; exact held.2.2)
  have offset := toNat_page_offset va
  have user : va.toNat / 4096 < 524288 := able.1
  have below := page.below
  have target : (page.addr + (va - pgRoundDown va)).toNat = page.addr.toNat + va.toNat % 4096 := by
    rw [UInt32.toNat_add, offset]
    omega
  have start : va.toNat = 4096 * vpn va + va.toNat % 4096 := by
    unfold vpn
    omega
  obtain ⟨n, number⟩ : ∃ n, n = min (4096 - va.toNat % 4096) buf.length := ⟨_, rfl⟩
  refine ⟨pte, { m with
      memory := m.memory.write (page.addr.toNat + va.toNat % 4096) (buf.take n) },
    n, slot, by omega, by omega, ?_, ?_, ?_, ?_⟩
  · rw [copyoutFrom, if_pos more, Action.bind_done found, if_neg page.addr_ne_zero,
      toNat_page_rest, ← number, Vm.storeBytes, Action.modify_bind, target]
  · intro i inside
    unfold vpn
    omega
  · have wrote := Wrote.storeBytes (m := m) held.2.2 (show va.toNat % 4096 + (buf.take n).length ≤ 4096 by
      rw [List.length_take]
      omega)
    rw [← start] at wrote
    exact wrote
  · intro rest
    rw [UInt32.toNat_add, toNat_pgRoundDown, toNat_pgsize]
    omega

/-- The loop of `copyout` copies the bytes up to the first page that the user cannot use. -/
theorem copyoutFrom_ends (world : World all m s free) (supervised : s.Supervised) (va : UInt32)
    {buf : List UInt8} (reads : List UInt32) {fuel : Nat} (enough : buf.length < fuel) :
    ∃ count ≤ buf.length, (∀ i < count, s.Open ((va.toNat + i) / 4096)) ∧
      ((∃ result seen later,
          copyoutFrom s.dir.addr fuel va buf reads m = .done (result, reads ++ seen) later ∧
          (∀ pte ∈ seen, s.Slot pte) ∧ Wrote s m va.toNat (buf.take count) later ∧
          (result = 0 ∧ count = buf.length ∨
            result = -1 ∧ count < buf.length ∧ ¬Accessible (s.pte ((va.toNat + count) / 4096)) ∧
              s.table ((va.toNat + count) / 4096 / 1024) ≠ none)) ∨
        count < buf.length ∧ s.table ((va.toNat + count) / 4096 / 1024) = none ∧
          ∀ result seen later,
            copyoutFrom s.dir.addr fuel va buf reads m = .done (result, seen) later →
              (0 : UInt32) ∈ seen) := by
  induction fuel generalizing m va buf reads with
  | zero => cases enough
  | succ fuel inductionHypothesis =>
      by_cases more : 0 < buf.length
      · by_cases accessible : Accessible (s.pte (vpn va))
        · have able : s.Open (vpn va) := by
            refine ⟨?_, accessible⟩
            by_contra kernel
            exact supervised _ (Nat.le_of_not_lt kernel) accessible
          obtain ⟨pte, stored, n, slot, some, within, step, pages, wrote, next⟩ :=
            world.copyoutFrom_turn reads more able fuel
          have length : (buf.take n).length = n := List.length_take_of_le within
          have still := wrote.world world (by
            intro i inside
            rw [length] at inside
            rw [pages i inside]
            exact able)
          obtain ⟨count, most, opens, ends⟩ := inductionHypothesis still (pgRoundDown va + pgsize)
            (reads ++ [pte]) (show (buf.drop n).length < fuel by
              rw [List.length_drop]
              omega)
          rw [List.length_drop] at most
          have here : 0 < count ∨ n < buf.length →
              (pgRoundDown va + pgsize).toNat = va.toNat + n := fun _ => next (by omega)
          have all : ∀ i < n + count, s.Open ((va.toNat + i) / 4096) := by
            intro i inside
            by_cases first : i < n
            · rw [pages i first]
              exact able
            · have after := opens (i - n) (by omega)
              rw [here (by omega), show va.toNat + n + (i - n) = va.toNat + i by omega] at after
              exact after
          refine ⟨n + count, by omega, all, ?_⟩
          rw [step]
          obtain ⟨result, seen, later, ran, slots, rest, decides⟩ | ⟨short, none, stray⟩ := ends
          · refine Or.inl ⟨result, pte :: seen, later, ?_, ?_, ?_, ?_⟩
            · rw [ran, List.append_assoc]
              rfl
            · intro read member
              obtain rfl | member := List.mem_cons.mp member
              · exact slot
              · exact slots read member
            · rw [List.take_add]
              apply wrote.append _ world
              · intro i inside
                rw [← List.take_add, List.length_take] at inside
                exact all i (by omega)
              · rw [length]
                by_cases nothing : count = 0
                · rw [nothing, List.take_zero] at rest ⊢
                  exact ⟨fun _ inside => absurd inside (Nat.not_lt_zero _),
                    fun a _ => rest.others a fun _ inside => absurd inside (Nat.not_lt_zero _),
                    rest.freelist⟩
                · rw [here (by omega)] at rest
                  exact rest
            · rw [List.length_drop] at decides
              obtain ⟨zero, everything⟩ | ⟨failed, short, unable⟩ := decides
              · exact Or.inl ⟨zero, by omega⟩
              · rw [here (by omega), Nat.add_assoc] at unable
                exact Or.inr ⟨failed, by omega, unable⟩
          · rw [List.length_drop] at short
            rw [here (by omega), Nat.add_assoc] at none
            exact Or.inr ⟨by omega, none, stray⟩
        · refine ⟨0, Nat.zero_le _, fun _ inside => absurd inside (Nat.not_lt_zero _), ?_⟩
          rw [Nat.add_zero]
          have down := vpn_pgRoundDown va
          cases there : s.table (va.toNat / 4096 / 1024) with
          | none =>
              refine Or.inr ⟨more, rfl, ?_⟩
              intro result seen later ran
              obtain ⟨found, read⟩ := world.uva2ka_none (pgRoundDown va) (by rw [down]; exact there)
              rw [copyoutFrom, if_pos more, Action.bind_done read] at ran
              have member : (0 : UInt32) ∈ reads ++ [0] :=
                List.mem_append_right _ (List.mem_singleton_self _)
              by_cases zero : found = 0
              · rw [if_pos zero] at ran
                cases ran
                exact member
              · rw [if_neg zero, storeBytes, Action.modify_bind] at ran
                exact copyoutFrom_reads ran 0 member
          | some page =>
              obtain ⟨pte, slot, read⟩ := world.uva2ka_closed (pgRoundDown va)
                (by rw [down]; exact accessible) (by
                  rw [down]
                  exact there)
              refine Or.inl ⟨-1, [pte], m, ?_, ?_, Wrote.nil s m va.toNat,
                Or.inr ⟨rfl, more, accessible, Option.some_ne_none page⟩⟩
              · rw [copyoutFrom, if_pos more, Action.bind_done read, if_pos rfl]
                rfl
              · intro other member
                rw [List.mem_singleton.mp member]
                exact slot
      · have empty : buf.length = 0 := Nat.eq_zero_of_not_pos more
        refine ⟨0, Nat.zero_le _, fun _ inside => absurd inside (Nat.not_lt_zero _),
          Or.inl ⟨0, [], m, ?_, fun _ none => absurd none List.not_mem_nil,
            Wrote.nil s m va.toNat, Or.inl ⟨rfl, empty.symm⟩⟩⟩
        rw [copyoutFrom, if_neg more, List.append_nil]
        rfl

end World

/-! ## The kernel's part -/

theorem rangeEntry_supervised {pa perm : UInt32} (aligned : pa.toNat % 4096 = 0)
    (privileged : perm = 0 ∨ perm = pteW) (i : Nat) :
    ¬Accessible (World.rangeEntry pa perm i) := by
  have page : (pa + UInt32.ofNat (4096 * i)).toNat % 4096 = 0 := by
    rw [UInt32.toNat_add, UInt32.toNat_ofNat']
    omega
  have flags : pteFlags (World.rangeEntry pa perm i) = perm ||| pteP := by
    rw [World.rangeEntry, UInt32.or_assoc]
    apply pteFlags_or page
    obtain rfl | rfl := privileged
    · decide
    · decide
  have user : World.rangeEntry pa perm i &&& pteU =
      pteFlags (World.rangeEntry pa perm i) &&& pteU := by
    rw [pteFlags, UInt32.and_assoc]
    rfl
  rintro ⟨-, usable⟩
  apply usable
  rw [user, flags]
  obtain rfl | rfl := privileged
  · rfl
  · rfl

theorem kmap_privileged (symbols : Symbols) :
    ∀ k ∈ kmap symbols, k.physStart.toNat % 4096 = 0 ∧ (k.perm = 0 ∨ k.perm = pteW) := by
  have aligned := symbols.aligned
  have above : kernbase ≤ symbols.data := by
    have after := symbols.after
    rw [show kernlink.toNat = 0x80100000 by rfl] at after
    rw [UInt32.le_iff_toNat_le, toNat_kernbase]
    omega
  have physical := toNat_v2p above
  rw [toNat_kernbase] at physical
  intro k member
  simp only [kmap, List.mem_cons, List.not_mem_nil, or_false] at member
  obtain rfl | rfl | rfl | rfl := member
  · exact ⟨rfl, Or.inr rfl⟩
  · exact ⟨show (v2p kernlink).toNat % 4096 = 0 by decide, Or.inl rfl⟩
  · refine ⟨?_, Or.inr rfl⟩
    change (v2p symbols.data).toNat % 4096 = 0
    omega
  · exact ⟨rfl, Or.inr rfl⟩

/-- In a new address space the user can use nothing of the kernel's part. -/
theorem MapsKernel.supervised {dir : Page symbols}
    (maps : MapsKernel userPages (kmap symbols) (Space.empty dir) s) : s.Supervised := by
  intro n _
  obtain same | ⟨k, mapped, i, inside, rfl⟩ := maps.others n
  · rw [same]
    exact fun accessible => not_present_zero accessible.1
  · obtain ⟨aligned, privileged⟩ := kmap_privileged symbols k mapped
    rw [maps.entries k mapped i inside]
    exact rangeEntry_supervised aligned privileged i

/-! ## copyout -/

/-- The address is that of an entry in a page table of the directory. -/
def Machine.InTable (m : Machine) (pgdir pte : UInt32) : Prop :=
  ∃ uva, Present (m.pde pgdir (pdx uva)) ∧
    pte = p2v (pteAddr (m.pde pgdir (pdx uva))) + 4 * ptx uva

/-- The user address `i` bytes further on. -/
def further (va : UInt32) (i : Nat) : UInt32 := va + UInt32.ofNat i

/-- All the bytes are at the user addresses from `va` on, or the result is -1. No entry was
read outside of the page tables, and no byte written that the user cannot use. -/
structure CopiedOut (pgdir va : UInt32) (p : List UInt8) (m : Machine) (result : Int)
    (reads : List UInt32) (later : Machine) : Prop where
  copied : result = 0 ∧ (∀ i (inside : i < p.length),
      Accessible (m.lookup pgdir (further va i)) ∧
        later.userByte pgdir (further va i) = p[i]) ∨
    result = -1
  entries : ∀ pte ∈ reads, m.InTable pgdir pte
  within : ∀ a, later.memory a ≠ m.memory a → ∃ i < p.length,
    Accessible (m.lookup pgdir (further va i)) ∧ a = (m.kernelAddr pgdir (further va i)).toNat

theorem toNat_further {va : UInt32} {i : Nat} (below : va.toNat + i < 4294967296) :
    (further va i).toNat = va.toNat + i := by
  rw [further, UInt32.toNat_add, UInt32.toNat_ofNat']
  omega

theorem Space.Slot.inTable {pte : UInt32} (slot : s.Slot pte) (holds : m.Holds s) :
    m.InTable s.dir.addr pte := by
  obtain ⟨uva, page, there, rfl⟩ := slot
  obtain ⟨present, address⟩ := holds.points _ page there
  have index : m.pde s.dir.addr (pdx uva) = m.word s.dir (vpn uva / 1024) := by
    rw [Machine.pde_dir (toNat_pdx_lt uva), toNat_pdx, vpn]
  refine ⟨uva, ?_, ?_⟩
  · rw [index]
    exact present
  · rw [index, address]

theorem Machine.Holds.present_iff (holds : m.Holds s) (uva : UInt32) :
    Present (m.pde s.dir.addr (pdx uva)) ↔ s.table (vpn uva / 1024) ≠ none := by
  have index : m.pde s.dir.addr (pdx uva) = m.word s.dir (vpn uva / 1024) := by
    rw [Machine.pde_dir (toNat_pdx_lt uva), toNat_pdx, vpn]
  rw [index]
  constructor
  · intro present none
    exact holds.vacant _ (by have bound := vpn_lt uva; omega) none present
  · intro there
    obtain ⟨page, some⟩ := Option.ne_none_iff_exists'.mp there
    exact (holds.points _ page some).1

/-- Address 0 is not in a page table. -/
theorem Machine.Holds.not_inTable_zero (holds : m.Holds s) : ¬m.InTable s.dir.addr 0 := by
  rintro ⟨uva, present, zero⟩
  obtain ⟨page, there⟩ := Option.ne_none_iff_exists'.mp ((holds.present_iff uva).mp present)
  obtain ⟨-, address⟩ := holds.points _ page there
  rw [Machine.pde_dir (toNat_pdx_lt uva), toNat_pdx] at zero
  rw [vpn] at address
  rw [address] at zero
  exact slot_ne_zero page uva zero.symm

namespace World

theorem supervised (world : World all m s free)
    (kernel : ∀ uva, kernbase ≤ uva → ¬Accessible (m.lookup s.dir.addr uva)) : s.Supervised := by
  intro n above accessible
  have below : n < 1048576 := by
    by_contra outside
    cases there : s.table (n / 1024) with
    | none =>
        rw [s.absent n there] at accessible
        exact not_present_zero accessible.1
    | some page =>
        have small := s.small _ page there
        omega
  unfold userPages at above
  have address := toNat_ofNat_page below
  apply kernel (UInt32.ofNat (4096 * n))
  · rw [UInt32.le_iff_toNat_le, address, toNat_kernbase]
    omega
  · rw [world.holds.lookup, vpn_eq address]
    exact accessible

theorem kernelAddr_eq (world : World all m s free) {va : UInt32} (able : s.Open (vpn va)) :
    (m.kernelAddr s.dir.addr va).toNat = s.place va.toNat := by
  obtain ⟨page, -, -, frame⟩ := world.open_backed able
  have address : p2v (pteAddr (s.pte (vpn va))) = page.addr := frame
  rw [Machine.kernelAddr, world.holds.lookup, address, toNat_in_page, Space.place, ← vpn, frame]

/-- `copyout` reads no entry through an absent page table, and does what it should, unless it
comes to a page without a page table. -/
theorem copyout_safe_iff (world : World all m s free)
    (kernel : ∀ uva, kernbase ≤ uva → ¬Accessible (m.lookup s.dir.addr uva)) (va : UInt32)
    (p : List UInt8) :
    ∃ result reads later, copyout s.dir.addr va p m = .done (result, reads) later ∧
      (CopiedOut s.dir.addr va p m result reads later ↔
        ∀ i < p.length, (∀ j < i, Accessible (m.lookup s.dir.addr (further va j))) →
          Present (m.pde s.dir.addr (pdx (further va i)))) := by
  obtain ⟨count, most, opens, ends⟩ :=
    world.copyoutFrom_ends (world.supervised kernel) va [] (Nat.lt_succ_self p.length)
  have start := va.toNat_lt
  have address : ∀ i ≤ count, (further va i).toNat = va.toNat + i := by
    intro i inside
    apply toNat_further
    obtain rfl | positive := Nat.eq_zero_or_pos i
    · exact start
    · have last := (opens (i - 1) (by omega)).1
      unfold userPages at last
      omega
  have able : ∀ i < count, s.Open (vpn (further va i)) := by
    intro i inside
    rw [vpn, address i (Nat.le_of_lt inside)]
    exact opens i inside
  have accessible : ∀ i < count, Accessible (m.lookup s.dir.addr (further va i)) := by
    intro i inside
    rw [world.holds.lookup]
    exact (able i inside).2
  obtain ⟨result, seen, later, ran, slots, wrote, decides⟩ | ⟨short, none, stray⟩ := ends
  · have length : (p.take count).length = count := List.length_take_of_le most
    have after := wrote.world world (by
      intro i inside
      rw [length] at inside
      exact opens i inside)
    refine ⟨result, seen, later, ran, iff_of_true ⟨?_, ?_, ?_⟩ ?_⟩
    · obtain ⟨zero, everything⟩ | ⟨failed, -⟩ := decides
      · refine Or.inl ⟨zero, ?_⟩
        intro i inside
        rw [← everything] at inside
        have stored := wrote.written i (by omega)
        rw [List.getElem_take] at stored
        refine ⟨accessible i inside, ?_⟩
        rw [Machine.userByte, after.kernelAddr_eq (able i inside), address i (Nat.le_of_lt inside)]
        exact stored
      · exact Or.inr failed
    · exact fun pte member => (slots pte member).inTable world.holds
    · intro a changed
      by_contra elsewhere
      apply changed
      apply wrote.others
      rintro i inside rfl
      rw [length] at inside
      apply elsewhere
      refine ⟨i, by omega, accessible i inside, ?_⟩
      rw [world.kernelAddr_eq (able i inside), address i (Nat.le_of_lt inside)]
    · intro i inside before
      rw [world.holds.present_iff]
      obtain first | last | beyond := Nat.lt_trichotomy i count
      · intro none
        have present := (accessible i first).1
        rw [world.holds.lookup, s.absent _ none] at present
        exact not_present_zero present
      · subst last
        obtain ⟨-, everything⟩ | ⟨-, -, -, there⟩ := decides
        · omega
        · rw [vpn, address i (Nat.le_refl _)]
          exact there
      · obtain ⟨-, everything⟩ | ⟨-, -, unable, -⟩ := decides
        · omega
        · have reached := before count beyond
          rw [world.holds.lookup, vpn, address count (Nat.le_refl _)] at reached
          exact absurd reached unable
  · obtain ⟨result, seen, later, ran⟩ :=
      copyoutFrom_returns s.dir.addr (Nat.lt_succ_self p.length) va [] m
    refine ⟨result, seen, later, ran, iff_of_false ?_ ?_⟩
    · intro copied
      exact world.holds.not_inTable_zero (copied.entries 0 (stray result seen later ran))
    · intro tables
      apply (world.holds.present_iff _).mp (tables count short accessible)
      rw [vpn, address count (Nat.le_refl _)]
      exact none

/-- There is no page table between the memory and the devices. -/
theorem copyout_strays : ∃ start m pgdir, setupkvm smallKernel start = .done pgdir m ∧
    pgdir ≠ 0 ∧ ∃ result reads later,
      copyout pgdir 0xF8000000 [0] m = .done (result, reads) later ∧
      ¬CopiedOut pgdir 0xF8000000 [0] m result reads later := by
  obtain ⟨start, free, -, frees, everything⟩ := kinit_frees smallKernel (by decide) fun _ => 0
  have enough := many_pages (by decide) (show 66 ≤ 56320 by decide) everything
  obtain ⟨_, _, few, -⟩ | ⟨m, s, rest, made, world, -, only, -⟩ := setupkvm_spec frees
  · exact absurd few (by omega)
  have none : s.table (vpn (pgRoundDown 0xF8000000) / 1024) = none := by
    cases there : s.table (vpn (pgRoundDown 0xF8000000) / 1024) with
    | none => rfl
    | some page =>
        have kernel := only.table _ page there
        rw [show vpn (pgRoundDown 0xF8000000) / 1024 = 992 by decide, kernelTables,
          Finset.mem_union, Finset.mem_Ico, Finset.mem_Ico] at kernel
        omega
  obtain ⟨found, read⟩ := world.uva2ka_none _ none
  obtain ⟨result, reads, later, ran⟩ :=
    copyoutFrom_returns s.dir.addr (show [(0 : UInt8)].length < 2 by decide) 0xF8000000 [] m
  refine ⟨start, m, s.dir.addr, made, s.dir.addr_ne_zero, result, reads, later, ran, ?_⟩
  intro copied
  apply world.holds.not_inTable_zero
  apply copied.entries
  rw [copyoutFrom, if_pos (by decide), Action.bind_done read] at ran
  by_cases zero : found = 0
  · rw [if_pos zero] at ran
    cases ran
    exact List.mem_singleton_self _
  · rw [if_neg zero, storeBytes, Action.modify_bind] at ran
    exact copyoutFrom_reads ran 0 (List.mem_singleton_self _)

/-- Two pages are mapped for the user. -/
theorem booted_two_pages : ∃ m s, ∃ all : Set (Page smallKernel), ∃ free,
    ∃ first second : Page smallKernel,
    World all m s free ∧ s.pte 0 = userEntry first ∧ s.pte 1 = userEntry second ∧
      s.Supervised := by
  obtain ⟨m, s, everything, free, first, nodup, enough, world, entry, above, base, maps, kernel⟩ :=
    booted_page
  obtain ⟨counted, covers, few⟩ := world.few_pages above
  have most := length_le_of_subset nodup covers
  cases free with
  | nil =>
      rw [List.length_nil] at few
      omega
  | cons second rest =>
      have cleared := world.takeWrite (fun other different => Machine.same_fill different 0) rfl
      have unmapped : ¬Present (s.pte 1) := by
        rw [above 1 (by decide) (by decide)]
        exact not_present_zero
      obtain ⟨-, none, -⟩ | ⟨later, next, remaining, -, holding, -, entries, -⟩ :=
        cleared.mappages_user (show (4096 : UInt32).toNat = 4096 * 1 by rfl) (by decide)
          (show (pteW ||| pteU).toNat < 4096 by decide)
          (show second ∉ {page | page ∈ everything} \ {second} from fun outside => outside.2 rfl)
          unmapped
      · have absent := s.absent 0 none
        rw [entry] at absent
        exact absurd (absent ▸ userEntry_present first) not_present_zero
      refine ⟨later, next, _, remaining, first, second, holding, ?_, ?_, ?_⟩
      · rw [entries, Function.update_of_ne (by decide), entry]
      · rw [entries, Function.update_self]
        rfl
      · intro n high
        rw [entries, Function.update_of_ne (by
          unfold userPages at high
          omega), kernel n high]
        exact maps.supervised n high

/-- Four bytes go to the end of one page and the start of the next. -/
theorem copyout_safe_iff_pages : ∃ m pgdir, ∃ first second : Page smallKernel,
    m.lookup pgdir 0 = userEntry first ∧ m.lookup pgdir 4096 = userEntry second ∧
      ∃ result reads later, copyout pgdir 4094 [1, 2, 3, 4] m = .done (result, reads) later ∧
        CopiedOut pgdir 4094 [1, 2, 3, 4] m result reads later := by
  obtain ⟨m, s, all, free, first, second, world, one, two, supervised⟩ := booted_two_pages
  have kernel : ∀ uva, kernbase ≤ uva → ¬Accessible (m.lookup s.dir.addr uva) := by
    intro uva above
    rw [world.holds.lookup]
    apply supervised
    rw [UInt32.le_iff_toNat_le, toNat_kernbase] at above
    unfold vpn userPages
    omega
  have table : s.table 0 ≠ none := by
    intro none
    have absent := s.absent 0 none
    rw [one] at absent
    exact not_present_zero (absent ▸ userEntry_present first)
  obtain ⟨result, reads, later, ran, safe⟩ := world.copyout_safe_iff kernel 4094 [1, 2, 3, 4]
  refine ⟨m, s.dir.addr, first, second, ?_, ?_, result, reads, later, ran, safe.mpr ?_⟩
  · rw [world.holds.lookup]
    exact one
  · rw [world.holds.lookup]
    exact two
  · intro i inside _
    rw [world.holds.present_iff]
    have low : vpn (further 4094 i) / 1024 = 0 := by
      rw [vpn, @toNat_further 4094 i (show 4094 + i < 4294967296 by
        simp only [List.length_cons, List.length_nil] at inside
        omega)]
      simp only [List.length_cons, List.length_nil] at inside
      change (4094 + i) / 4096 / 1024 = 0
      omega
    rw [low]
    exact table

end World

end Xv6.Vm
