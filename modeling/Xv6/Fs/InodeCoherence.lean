import Xv6.Fs.InodeCache

/-!
# Coherence of the inode cache

Every step keeps the invariant, so that in every run what a process sees of a
locked inode is what is on disk, and only an inode without links is freed.
-/

namespace Xv6.Fs.Icache

open Xv6.Library

variable {state next : State} {p q : Pid} {ip a b : InodePtr} {owner : Owner} {event : Event}

/-! ## The functions -/

theorem Good.iget {dev inum : Nat} (good : Good state) (done : state.iget p dev inum = .done ip next) :
    Good next ∧ next.pc = state.pc := by
  unfold State.iget at done
  split at done
  · rename_i found hit
    cases done
    have matching := List.find?_some hit
    simp only [Bool.and_eq_true, decide_eq_true_eq] at matching
    exact ⟨good.addRef matching.1.1 _, rfl⟩
  · rename_i missing
    split at done
    · rename_i empty unused
      cases done
      have zero := List.find?_some unused
      simp only [beq_iff_eq] at zero
      refine ⟨good.recycle zero _ dev inum fun a positive sameDev sameInum => ?_, rfl⟩
      have absent := List.find?_eq_none.mp missing a (List.mem_finRange a)
      simp [positive, sameDev, sameInum] at absent
    · cases done

/-- `p` replaces an entry it may lock and its inode on disk, and moves on. -/
def State.becomes (state : State) (p : Pid) (ip : InodePtr) (entry : Entry) (disk : Dinode)
    (pc : Pc) : State :=
  ((state.setEntry ip entry).setDinode (state.entry ip).dev (state.entry ip).inum disk).setPc p pc

theorem becomes_same (entry : Entry) (pc : Pc) :
    state.becomes p ip entry (state.copied ip) pc = (state.setEntry ip entry).setPc p pc := by
  simp [State.becomes, State.setDinode, State.setEntry, State.setPc, State.copied]

theorem becomes_setPc (ip : InodePtr) (pc : Pc) :
    state.becomes p ip (state.entry ip) (state.copied ip) pc = state.setPc p pc := by
  rw [becomes_same]
  simp [State.setEntry]

theorem becomes_update (pc : Pc) :
    state.becomes p ip (state.entry ip) (state.entry ip).toDinode pc =
      (state.iupdate ip).setPc p pc := by
  simp [State.becomes, State.iupdate, State.setDinode, State.setEntry, State.setPc]

theorem becomes_entry (entry : Entry) (disk : Dinode) (pc : Pc) :
    (state.becomes p ip entry disk pc).entry ip = entry := by
  simp [State.becomes, State.setDinode, State.setEntry, State.setPc]

theorem setDinode_self (state : State) (dev inum : Nat) (disk : Dinode) :
    (state.setDinode dev inum disk).dinode dev inum = disk := by
  simp [State.setDinode]

theorem setDinode_other (state : State) {dev inum dev' inum' : Nat} (disk : Dinode)
    (different : ¬(dev' = dev ∧ inum' = inum)) :
    (state.setDinode dev inum disk).dinode dev' inum' = state.dinode dev' inum' := by
  by_cases sameDev : dev' = dev
  · subst sameDev
    have other : inum' ≠ inum := fun same => different ⟨rfl, same⟩
    simp [State.setDinode, other]
  · simp [State.setDinode, sameDev]

theorem Good.becomes {entry : Entry} {disk : Dinode} {pc : Pc} (good : Good state)
    (uses : state.Uses p ip) (was : (state.pc p).On ip)
    (before : (state.entry ip).lock = none ∨ (state.entry ip).lock = some p)
    (same : entry.dev = (state.entry ip).dev ∧ entry.inum = (state.entry ip).inum ∧
      entry.ref = (state.entry ip).ref)
    (after : entry.lock = none ∨ entry.lock = some p) (goes : pc.On ip)
    (placed : (state.becomes p ip entry disk pc).Placed p pc)
    (coherent : entry.valid = true →
      (if entry.lock = none then Phase.settled else pc.phase ip).Holds entry.toDinode disk) :
    Good (state.becomes p ip entry disk pc) := by
  have here : (state.becomes p ip entry disk pc).entry ip = entry := becomes_entry entry disk pc
  have at' : (state.becomes p ip entry disk pc).pc p = pc := by simp [State.becomes, State.setPc]
  have step : Local p ip state (state.becomes p ip entry disk pc) := by
    refine ⟨fun a different => ?_, by rw [here, same.1], by rw [here, same.2.1],
      by rw [here, same.2.2], before, by rw [here]; exact after, fun dev inum => ?_,
      fun q different => ?_, was, by rw [at']; exact goes, rfl, rfl⟩
    · simp [State.becomes, State.setPc, State.setDinode, State.setEntry, different]
    · by_cases key : dev = (state.entry ip).dev ∧ inum = (state.entry ip).inum
      · exact Or.inl key
      · exact Or.inr (setDinode_other (state.setEntry ip entry) disk key)
    · simp [State.becomes, State.setPc, State.setDinode, State.setEntry, different]
  refine good.local step uses (by rw [at']; exact placed) fun valid => ?_
  have copied : (state.becomes p ip entry disk pc).copied ip = disk := by
    rw [State.copied, here, same.1, same.2.1]
    exact setDinode_self (state.setEntry ip entry) _ _ disk
  have phase : (state.becomes p ip entry disk pc).phase ip =
      if entry.lock = none then Phase.settled else pc.phase ip := by
    rw [State.phase, here]
    rcases after with free | mine
    · simp [free]
    · simp [mine, at']
  rw [here] at valid ⊢
  rw [copied, phase]
  exact coherent valid

/-- What is known while `p` has the lock of an entry. -/
theorem Good.held (good : Good state) (mine : (state.entry ip).lock = some p)
    (valid : (state.entry ip).valid = true) :
    ((state.pc p).phase ip).Holds (state.entry ip).toDinode (state.copied ip) := by
  have holds := good.coherent ip (good.positive (good.holder ip p mine)) valid
  rw [State.phase, mine] at holds
  exact holds

/-- The stages of `iput`. -/
theorem Good.put {stage : PutStage} (good : Good state) (place : state.pc p = .putting ip stage) :
    Good (state.put p ip stage) := by
  have placed := good.placed p
  rw [place] at placed
  have was : (state.pc p).On ip := by
    rw [place]
    rfl
  by_cases last : stage = .released
  · subst last
    exact good.drop place
  have held : (Owner.process p, ip) ∈ state.refs ∧ (state.entry ip).lock = some p ∧
      (stage.Unlinked → (state.entry ip).valid = true ∧ (state.entry ip).nlink = 0) := by
    cases stage with
    | released => exact absurd rfl last
    | _ => exact placed
  rcases held with ⟨member, mine, unlinked⟩
  have holds := good.held mine
  rw [place] at holds
  have locked : ¬(state.entry ip).lock = none := by simp [mine]
  have becomes : ∀ {entry : Entry} {disk : Dinode} {next : PutStage},
      entry.dev = (state.entry ip).dev ∧ entry.inum = (state.entry ip).inum ∧
        entry.ref = (state.entry ip).ref →
      (next = .released → entry.lock = none) → (next ≠ .released → entry.lock = some p) →
      (next.Unlinked → entry.valid = true ∧ entry.nlink = 0) →
      (entry.valid = true → (Pc.phase ip (.putting ip next)).Holds entry.toDinode disk) →
      Good (state.becomes p ip entry disk (.putting ip next)) := by
    intro entry disk next same free keeps links coherent
    by_cases ends : next = .released
    · subst ends
      refine good.becomes (Or.inl member) was (Or.inr mine) same (Or.inl (free rfl)) rfl ?_ ?_
      · simp only [State.Placed, becomes_entry]
        exact ⟨member, by simp [free rfl]⟩
      · rw [if_pos (free rfl)]
        exact coherent
    · refine good.becomes (Or.inl member) was (Or.inr mine) same (Or.inr (keeps ends)) rfl ?_ ?_
      · cases next with
        | released => exact absurd rfl ends
        | _ =>
            simp only [State.Placed, becomes_entry]
            exact ⟨member, keeps ends, links⟩
      · rw [if_neg (by simp [keeps ends])]
        exact coherent
  cases stage with
  | released => exact absurd rfl last
  | locked =>
      rw [State.put, ← becomes_setPc ip]
      refine becomes ⟨rfl, rfl, rfl⟩ ?_ (fun _ => mine) ?_ fun valid => ?_
      · split <;> simp
      · split
        · rename_i both
          exact fun _ => both
        · exact False.elim
      · have same := holds valid
        split <;> exact same
  | unlinked =>
      rw [State.put, ← becomes_setPc ip]
      refine becomes ⟨rfl, rfl, rfl⟩ ?_ (fun _ => mine) ?_ fun valid => ?_
      · split <;> simp
      · exact fun _ => unlinked trivial
      · have same := holds valid
        split <;> exact same
  | freeing =>
      rw [State.put, ← becomes_same]
      refine becomes ⟨rfl, rfl, rfl⟩ (by simp) (fun _ => mine) (fun _ => unlinked trivial) fun valid => ?_
      have same := holds valid
      have type : (state.entry ip).type = (state.copied ip).type := congrArg Dinode.type same.1
      simp only [Pc.phase, if_true]
      exact ⟨type, same.2⟩
  | truncated =>
      rw [State.put, ← becomes_update]
      refine becomes ⟨rfl, rfl, rfl⟩ (by simp) (fun _ => mine) (fun _ => unlinked trivial) fun valid => ?_
      have same := holds valid
      simp only [Pc.phase, if_true] at same
      exact ⟨rfl, same.1 ▸ same.2⟩
  | emptied =>
      rw [State.put, ← becomes_same]
      refine becomes ⟨rfl, rfl, rfl⟩ (by simp) (fun _ => mine) (fun _ => unlinked trivial) fun valid => ?_
      have same := holds valid
      simp only [Pc.phase, if_true]
      exact ⟨same.2, (congrArg Dinode.nlink same.1).symm.trans (unlinked trivial).2⟩
  | typeless =>
      rw [State.put, ← becomes_update]
      refine becomes ⟨rfl, rfl, rfl⟩ (by simp) (fun _ => mine) False.elim fun valid => ?_
      simp only [Pc.phase, if_true]
      trivial
  | freed =>
      rw [State.put, ← becomes_same]
      exact becomes ⟨rfl, rfl, rfl⟩ (by simp) (fun _ => mine) False.elim
        fun valid => absurd valid (by simp)
  | kept =>
      rw [State.put, ← becomes_same]
      exact becomes ⟨rfl, rfl, rfl⟩ (fun _ => rfl) (fun more => absurd rfl more) False.elim
        fun valid => holds valid

theorem Good.go (good : Good state) (done : state.go p = .done () next) : Good next := by
  have placed := good.placed p
  unfold State.go at done
  split at done
  · cases done
  · rename_i ip place
    rw [place] at placed
    have mine : (state.entry ip).lock = some p := placed
    have was : (state.pc p).On ip := by
      rw [place]
      rfl
    have uses := good.holder ip p mine
    have holds := good.held mine
    rw [place] at holds
    simp only [State.load] at done
    split at done
    · split at done
      · cases done
      · rename_i typed
        cases done
        rw [← becomes_same]
        exact good.becomes uses was (Or.inr mine) ⟨rfl, rfl, rfl⟩ (Or.inr mine) trivial trivial
          fun _ => by
            rw [if_neg (by simp [mine])]
            exact ⟨rfl, typed⟩
    · cases done
      rw [← becomes_setPc ip]
      exact good.becomes uses was (Or.inr mine) ⟨rfl, rfl, rfl⟩ (Or.inr mine) trivial trivial
        fun valid => by
          rw [if_neg (by simp [mine])]
          exact holds valid
  · rename_i ip place
    rw [place] at placed
    rcases placed with ⟨mine, valid⟩
    have was : (state.pc p).On ip := by
      rw [place]
      rfl
    have holds := good.held mine valid
    rw [place] at holds
    simp only [Pc.phase, if_true] at holds
    cases done
    rw [← becomes_update]
    exact good.becomes (good.holder ip p mine) was (Or.inr mine) ⟨rfl, rfl, rfl⟩ (Or.inr mine) trivial
      trivial fun _ => by
        rw [if_neg (by simp [mine])]
        exact ⟨rfl, holds.1 ▸ holds.2⟩
  · rename_i dev type inum place
    have was : ∀ a, (state.pc p).phase a = .settled := by simp [place, Pc.phase]
    unfold State.scan at done
    split at done
    · split at done
      · rename_i free
        cases done
        refine good.away _ was (fun _ => rfl) trivial fun dev' inum' typed => ?_
        refine setDinode_other state _ fun key => typed ?_
        rw [key.1, key.2]
        exact free
      · cases done
        exact good.away state.dinode was (fun _ => rfl) trivial fun _ _ _ => rfl
    · cases done
  · rename_i dev inum place
    split at done
    · cases done
    · cases done
    · rename_i ip middle found
      cases done
      rcases good.iget found with ⟨kept, same⟩
      refine kept.away middle.dinode (fun a => ?_) (fun _ => rfl) trivial fun _ _ _ => rfl
      rw [same, place]
      rfl
  · rename_i ip stage place
    cases done
    exact good.put place

theorem Good.step (good : Good state) (done : state.step event = .done () next) : Good next := by
  cases event with
  | go p => exact good.go done
  | iget p dev inum =>
      simp only [State.step] at done
      split at done
      · split at done
        · cases done
        · cases done
        · rename_i ip middle found
          cases done
          exact (good.iget found).1
      · cases done
  | idup p ip =>
      simp only [State.step] at done
      split at done
      · rename_i referenced
        cases done
        exact good.addRef (good.positive_of_mem referenced.2) _
      · cases done
  | give p ip owner =>
      simp only [State.step] at done
      split at done
      · rename_i mine
        cases done
        refine good.transfer mine.2.1 owner ?_ (by simp)
        rintro q same
        cases same
        exact ⟨mine.1, mine.2.2⟩
      · cases done
  | enter p f =>
      simp only [State.step] at done
      split at done
      · cases done
        refine good.reassign state.refs _ (fun _ => rfl) ?_ fun _ _ _ _ mine => mine
        rintro a q - (member | ⟨call, inside, who, member⟩)
        · exact Or.inl member
        · exact Or.inr ⟨call, List.mem_cons_of_mem _ inside, who, member⟩
      · cases done
  | leave p f =>
      simp only [State.step] at done
      split at done
      · rename_i unused
        cases done
        refine good.reassign state.refs _ (fun _ => rfl) ?_ fun _ _ _ _ mine => mine
        rintro a q held (member | ⟨call, inside, who, member⟩)
        · exact Or.inl member
        · refine Or.inr ⟨call, (List.mem_erase_of_ne ?_).mpr inside, who, member⟩
          rintro rfl
          have same : p = q := who
          exact unused.2 a member (same ▸ held)
      · cases done
  | close p f ip =>
      simp only [State.step] at done
      split at done
      · rename_i last
        cases done
        refine good.transfer last.2.1 (.process p) (by simp) ?_
        rintro g same
        cases same
        exact last.2.2
      · cases done
  | ilock p ip =>
      simp only [State.step] at done
      split at done
      · rename_i may
        split at done
        · cases done
        · split at done
          · rename_i free
            cases done
            have holds := good.coherent ip (good.positive may.2)
            rw [State.phase, free] at holds
            rw [← becomes_same]
            refine good.becomes may.2 (by rw [may.1]; trivial) (Or.inl free) ⟨rfl, rfl, rfl⟩
              (Or.inr rfl) rfl ?_ holds
            simp only [State.Placed, becomes_entry]
          · cases done
      · cases done
  | modify p ip fields =>
      simp only [State.step] at done
      split at done
      · rename_i allowed
        rcases allowed with ⟨place, mine, valid, type⟩
        cases done
        have was : (state.pc p).On ip := by
          rcases place with place | place <;> rw [place]
          · trivial
          · rfl
        have holds := good.held mine valid
        rw [← becomes_same]
        refine good.becomes (good.holder ip p mine) was (Or.inr mine) ⟨rfl, rfl, rfl⟩ (Or.inr mine)
          rfl ?_ fun _ => ?_
        · simp only [State.Placed, becomes_entry]
          exact ⟨mine, valid⟩
        · rw [if_neg (by simp [mine])]
          simp only [Pc.phase, if_true]
          rcases place with place | place <;> rw [place] at holds
          · exact ⟨type.trans (congrArg Dinode.type holds.1), holds.2⟩
          · simp only [Pc.phase, if_true] at holds
            exact ⟨type.trans holds.1, holds.2⟩
      · cases done
  | iunlock p ip =>
      simp only [State.step] at done
      split at done
      · rename_i place
        split at done
        · cases done
        · rename_i may
          rw [not_or, not_not] at may
          cases done
          have holds := good.held may.1
          rw [place] at holds
          have same : state.setEntry ip { state.entry ip with lock := none } =
              state.becomes p ip { state.entry ip with lock := none } (state.copied ip) .idle := by
            rw [becomes_same, State.setPc, ← place]
            simp [State.setEntry]
          rw [same]
          exact good.becomes (good.holder ip p may.1) (by rw [place]; trivial) (Or.inr may.1)
            ⟨rfl, rfl, rfl⟩ (Or.inl rfl) trivial trivial holds
      · cases done
  | ialloc p dev type =>
      simp only [State.step] at done
      split at done
      · rename_i place
        cases done
        refine good.away state.dinode (fun a => ?_) (fun _ => rfl) trivial fun _ _ _ => rfl
        rw [place]
        rfl
      · cases done
  | iput p ip =>
      simp only [State.step] at done
      split at done
      · rename_i may
        rcases may with ⟨place, mine, free⟩
        cases done
        have holds := good.coherent ip (good.positive_of_mem mine)
        rw [State.phase, free] at holds
        rw [← becomes_same]
        refine good.becomes (Or.inl mine) (by rw [place]; trivial) (Or.inl free) ⟨rfl, rfl, rfl⟩
          (Or.inr rfl) rfl ?_ holds
        simp only [State.Placed, becomes_entry]
        exact ⟨mine, trivial, False.elim⟩
      · cases done

/-! ## Every run -/

/-- No entry is in use: the cache is static data, which is zero. -/
structure Booted (state : State) : Prop where
  ref : ∀ ip, (state.entry ip).ref = 0
  lock : ∀ ip, (state.entry ip).lock = none
  pc : ∀ p, state.pc p = .idle
  refs : state.refs = []

theorem Booted.good (booted : Booted state) : Good state where
  unique a b first := by
    rw [booted.ref] at first
    exact absurd first (by omega)
  counted ip := by simp [State.outstanding, booted.ref, booted.refs]
  holder ip p held := by simp [booted.lock] at held
  placed p := by
    rw [booted.pc]
    trivial
  coherent ip positive := by
    rw [booted.ref] at positive
    exact absurd positive (by omega)

theorem State.next_eq (stepped : state.next event = some next) :
    state.step event = .done () next := by
  unfold State.next at stepped
  cases outcome : state.step event with
  | blocked => simp [outcome, Outcome.state?] at stepped
  | panic message => simp [outcome, Outcome.state?] at stepped
  | done value reached =>
      simp only [outcome, Outcome.state?, Option.some.injEq] at stepped
      rw [stepped]

theorem Booted.run {start : State} {events : List Event} (booted : Booted start)
    (ran : runs State.next start events = some state) : Good state :=
  runs_invariant (fun _ current => Good current) booted.good
    (fun _ _ _ _ good stepped => good.step (State.next_eq stepped)) ran

/-- `iput` frees an inode that has no links, with the only reference to it. -/
theorem Good.sole (good : Good state) (place : state.pc p = .putting ip .unlinked)
    (one : (state.entry ip).ref = 1) :
    (state.copied ip).nlink = 0 ∧ state.outstanding ip = [(.process p, ip)] := by
  have placed := good.placed p
  rw [place] at placed
  rcases placed with ⟨member, mine, unlinked⟩
  rcases unlinked trivial with ⟨valid, links⟩
  have holds := good.held mine valid
  rw [place] at holds
  have same : (state.entry ip).nlink = (state.copied ip).nlink := congrArg Dinode.nlink holds.1
  refine ⟨same.symm.trans links, ?_⟩
  have count := good.counted ip
  have length : (state.outstanding ip).length = 1 := by omega
  rcases List.length_eq_one_iff.mp length with ⟨ref, only⟩
  have found : (Owner.process p, ip) ∈ state.outstanding ip := by
    simp [State.outstanding, member]
  rw [only, List.mem_singleton] at found
  rw [only, found]

/-- What holds of the inode cache in every state. -/
structure Coherent (state : State) : Prop where
  unique : ∀ a b, 0 < (state.entry a).ref → 0 < (state.entry b).ref →
    (state.entry a).dev = (state.entry b).dev → (state.entry a).inum = (state.entry b).inum → a = b
  counted : ∀ ip, (state.entry ip).ref = (state.outstanding ip).length
  agrees : ∀ ip, 0 < (state.entry ip).ref → (state.entry ip).valid = true →
    (∀ p, (state.entry ip).lock = some p → state.pc p = .idle) →
    (state.entry ip).toDinode = state.copied ip
  referenced : ∀ ip p, (state.entry ip).lock = some p → 0 < (state.entry ip).ref
  sole : ∀ p ip, state.pc p = .putting ip .unlinked → (state.entry ip).ref = 1 →
    (state.copied ip).nlink = 0 ∧ state.outstanding ip = [(.process p, ip)]
  frees : ∀ event next dev inum, state.step event = .done () next →
    (state.dinode dev inum).type ≠ 0 → (next.dinode dev inum).type = 0 →
    (state.dinode dev inum).nlink = 0 ∧ ∃ p ip, event = .go p ∧
      state.pc p = .putting ip .typeless ∧ (state.entry ip).dev = dev ∧ (state.entry ip).inum = inum

end Xv6.Fs.Icache
