import Xv6.Console.Input

/-!
# The line discipline of the console

Between the read index and the write index are the characters that readers may
take, and between the write index and the edit index those of the line that is
being typed. Typing changes only the latter, until a line is committed.
-/

namespace Xv6.Console

open Xv6.Library

theorem inputBuf_divides : inputBuf.toNat ∣ 4294967296 := by decide

namespace Input

variable {input : Input} {queue line : List UInt8} {c : UInt8}

/-- The committed characters that nobody has read, and the line that is being typed. -/
structure Holds (input : Input) (queue line : List UInt8) : Prop where
  write : input.w = input.r + UInt32.ofNat queue.length
  edit : input.e = input.r + UInt32.ofNat (queue ++ line).length
  room : (queue ++ line).length ≤ 128
  chars : Ring.window inputBuf input.buf input.r (queue ++ line).length = queue ++ line

theorem add_sub_left (r : UInt32) (a : Nat) : r + UInt32.ofNat a - r = UInt32.ofNat a := by
  rw [UInt32.add_comm, UInt32.add_sub_cancel]

theorem toNat_small {a : Nat} (small : a ≤ 128) : (UInt32.ofNat a).toNat = a :=
  UInt32.toNat_ofNat_of_lt' (by rw [UInt32.size]; omega)

theorem add_ofNat_inj (r : UInt32) {a b : Nat} (first : a ≤ 128) (second : b ≤ 128)
    (same : r + UInt32.ofNat a = r + UInt32.ofNat b) : a = b := by
  have gap := congrArg (fun index => (index - r).toNat) same
  simp only [add_sub_left, toNat_small first, toNat_small second] at gap
  exact gap

theorem ofNat_succ (r : UInt32) (a : Nat) :
    r + UInt32.ofNat (a + 1) = r + UInt32.ofNat a + 1 := by
  rw [UInt32.ofNat_add, UInt32.add_assoc]
  rfl

/-- The characters that erase what was typed. -/
def Erases (c : UInt8) : Prop := c = ctrlU ∨ c = ctrlH ∨ c = del

namespace Holds

theorem queue_le (holds : input.Holds queue line) : queue.length ≤ 128 := by
  have room := holds.room
  rw [List.length_append] at room
  omega

/-- The indices are in order and a buffer apart, modulo 2³². -/
theorem ordered (holds : input.Holds queue line) :
    input.w - input.r ≤ input.e - input.r ∧ input.e - input.r ≤ inputBuf := by
  have small := holds.queue_le
  have room := holds.room
  rw [holds.write, holds.edit, add_sub_left, add_sub_left, UInt32.le_iff_toNat_le,
    UInt32.le_iff_toNat_le, toNat_small small, toNat_small room,
    show inputBuf.toNat = 128 by rfl, List.length_append] at *
  omega

theorem read_eq_write (holds : input.Holds queue line) : input.r = input.w ↔ queue = [] := by
  rw [holds.write]
  constructor
  · intro same
    have zero := add_ofNat_inj input.r (Nat.zero_le _) holds.queue_le
      ((UInt32.add_zero _).trans same)
    exact List.length_eq_zero_iff.mp zero.symm
  · rintro rfl
    exact (UInt32.add_zero _).symm

theorem edit_eq_write (holds : input.Holds queue line) : input.e = input.w ↔ line = [] := by
  rw [holds.write, holds.edit]
  constructor
  · intro same
    have equal := add_ofNat_inj input.r holds.room holds.queue_le same
    rw [List.length_append] at equal
    exact List.length_eq_zero_iff.mp (by omega)
  · rintro rfl
    rw [List.append_nil]

/-- The first committed character. -/
theorem get_read {queue : List UInt8} (holds : input.Holds (c :: queue) line) :
    input.get input.r = c := by
  have chars := holds.chars
  rw [List.cons_append, List.length_cons, Ring.window_succ] at chars
  injection chars

theorem take {queue : List UInt8} (holds : input.Holds (c :: queue) line) :
    Holds { input with r := input.r + 1 } queue line := by
  have length : ∀ a : Nat, input.r + UInt32.ofNat (a + 1) = input.r + 1 + UInt32.ofNat a := by
    intro a
    rw [Nat.add_comm, UInt32.ofNat_add, ← UInt32.add_assoc]
    rfl
  have room := holds.room
  have chars := holds.chars
  rw [List.cons_append, List.length_cons, Ring.window_succ] at chars
  injection chars with _ rest
  refine ⟨?_, ?_, ?_, rest⟩
  · rw [← length]
    exact holds.write
  · rw [← length]
    exact holds.edit
  · rw [List.cons_append, List.length_cons] at room
    omega

/-- The last character of the line is erased. -/
theorem erase (holds : input.Holds queue (line ++ [c])) :
    Holds { input with e := input.e - 1 } queue line := by
  have room := holds.room
  have chars := holds.chars
  have edit := holds.edit
  rw [← List.append_assoc, List.length_append, List.length_singleton] at room edit
  rw [← List.append_assoc, List.length_append, Ring.window_append] at chars
  refine ⟨holds.write, ?_, by omega, ?_⟩
  · rw [edit, ofNat_succ, UInt32.add_sub_cancel]
  · exact (List.append_inj chars (Ring.length_window ..)).1

theorem backspace (holds : input.Holds queue line) :
    ∃ kept, input.backspace.Holds queue kept ∧ input.backspace.r = input.r := by
  rw [Input.backspace]
  by_cases empty : input.e ≠ input.w
  · rw [if_pos empty]
    have nonempty : line ≠ [] := fun nothing => empty (holds.edit_eq_write.mpr nothing)
    obtain ⟨front, last, rfl⟩ := (List.eq_nil_or_concat' line).resolve_left nonempty
    exact ⟨front, holds.erase, rfl⟩
  · rw [if_neg empty]
    exact ⟨line, holds, rfl⟩

theorem killLine (holds : input.Holds queue line) (turns : Nat) :
    ∃ kept, (input.killLine turns).Holds queue kept ∧ (input.killLine turns).r = input.r := by
  induction turns generalizing input line with
  | zero => exact ⟨line, holds, rfl⟩
  | succ turns inductionHypothesis =>
      rw [Input.killLine]
      by_cases more : input.e ≠ input.w ∧ input.get (input.e - 1) ≠ newline
      · rw [if_pos more]
        have nonempty : line ≠ [] := fun nothing => more.1 (holds.edit_eq_write.mpr nothing)
        obtain ⟨front, last, rfl⟩ := (List.eq_nil_or_concat' line).resolve_left nonempty
        obtain ⟨kept, still, same⟩ := inductionHypothesis holds.erase
        exact ⟨kept, still, same⟩
      · rw [if_neg more]
        exact ⟨line, holds, rfl⟩

/-- A character is stored at the edit index. -/
theorem store (holds : input.Holds queue line) (room : input.e - input.r < inputBuf)
    (c : UInt8) :
    Holds { input with
      buf := Function.update input.buf (Ring.slot inputBuf input.e) c
      e := input.e + 1 } queue (line ++ [c]) := by
  have fits : (queue ++ line).length < 128 := by
    rw [holds.edit, add_sub_left, UInt32.lt_iff_toNat_lt, toNat_small holds.room] at room
    exact room
  have length : (queue ++ (line ++ [c])).length = (queue ++ line).length + 1 := by
    rw [← List.append_assoc, List.length_append, List.length_singleton]
  refine ⟨holds.write, ?_, by omega, ?_⟩
  · rw [length, ofNat_succ, ← holds.edit]
  · rw [length, holds.edit, Ring.window_store inputBuf_divides input.buf input.r fits c,
      holds.chars, List.append_assoc]

/-- The line is committed. -/
theorem commit (holds : input.Holds queue line) :
    Holds { input with w := input.e } (queue ++ line) [] := by
  refine ⟨holds.edit, ?_, ?_, ?_⟩
  · rw [List.append_nil]
    exact holds.edit
  · rw [List.append_nil]
    exact holds.room
  · rw [List.append_nil]
    exact holds.chars

theorem put (holds : input.Holds queue line) (c : UInt8) :
    ∃ new kept, (input.put c).Holds (queue ++ new) kept ∧ (input.put c).r = input.r := by
  rw [Input.put]
  by_cases accepted : c ≠ 0 ∧ input.e - input.r < inputBuf
  · rw [if_pos accepted]
    have stored := holds.store accepted.2 (if c = cr then newline else c)
    generalize (if c = cr then newline else c) = d at stored ⊢
    dsimp only
    split
    · exact ⟨_, [], stored.commit, rfl⟩
    · rw [← List.append_nil queue] at stored
      exact ⟨[], _, stored, rfl⟩
  · rw [if_neg accepted]
    rw [← List.append_nil queue] at holds
    exact ⟨[], line, holds, rfl⟩

/-- What one character does. -/
theorem char (holds : input.Holds queue line) (c : UInt8) :
    ∃ new kept, (input.char c).Holds (queue ++ new) kept ∧ (input.char c).r = input.r ∧
      (c = ctrlP ∨ Erases c → new = []) := by
  rw [Input.char]
  by_cases listing : c = ctrlP
  · rw [if_pos listing]
    rw [← List.append_nil queue] at holds
    exact ⟨[], line, holds, rfl, fun _ => rfl⟩
  rw [if_neg listing]
  by_cases kills : c = ctrlU
  · rw [if_pos kills]
    obtain ⟨kept, still, same⟩ := holds.killLine (input.e - input.w).toNat
    rw [← List.append_nil queue] at still
    exact ⟨[], kept, still, same, fun _ => rfl⟩
  rw [if_neg kills]
  by_cases erases : c = ctrlH ∨ c = del
  · rw [if_pos erases]
    obtain ⟨kept, still, same⟩ := holds.backspace
    rw [← List.append_nil queue] at still
    exact ⟨[], kept, still, same, fun _ => rfl⟩
  · rw [if_neg erases]
    obtain ⟨new, kept, still, same⟩ := holds.put c
    exact ⟨new, kept, still, same, fun either => absurd either (by
      rintro (first | second | third)
      · exact listing first
      · exact kills second
      · exact erases third)⟩

theorem foldl_char (holds : input.Holds queue line) (list : List UInt8) :
    ∃ new kept, (list.foldl Input.char input).Holds (queue ++ new) kept ∧
      (list.foldl Input.char input).r = input.r := by
  induction list generalizing input queue line with
  | nil =>
      rw [← List.append_nil queue] at holds
      exact ⟨[], line, holds, rfl⟩
  | cons c rest inductionHypothesis =>
      obtain ⟨new, kept, first, same, -⟩ := holds.char c
      obtain ⟨more, last, rest, still⟩ := inductionHypothesis first
      rw [List.append_assoc] at rest
      exact ⟨new ++ more, last, rest, still.trans same⟩

/-- What is added to the queue is what lies between the two write indices. -/
theorem added {new kept : List UInt8} {after : Input} (holds : input.Holds queue line)
    (later : after.Holds (queue ++ new) kept) (same : after.r = input.r) :
    Cons.added input after = new := by
  have room := later.queue_le
  have whole := later.room
  have chars := later.chars
  rw [List.length_append] at room
  have gap : after.w - input.w = UInt32.ofNat new.length := by
    rw [later.write, holds.write, same, List.length_append, UInt32.ofNat_add, ← UInt32.add_assoc,
      add_sub_left]
  rw [List.length_append, List.length_append, Ring.window_append, Ring.window_append] at chars
  obtain ⟨committed, -⟩ := List.append_inj chars (by
    rw [List.length_append, Ring.length_window, Ring.length_window, List.length_append])
  obtain ⟨-, right⟩ := List.append_inj committed (Ring.length_window ..)
  rw [Cons.added, gap, toNat_small (by omega), holds.write, ← same]
  exact right

end Holds

end Input

/-! ## Readers -/

variable {input : Input} {queue line : List UInt8}

/-- How a reader goes on until it returns or sleeps: it takes characters from the queue
up to a line's end, a control-D, the number it asked for, or the end of the queue. A
control-D is kept after other characters, and is taken where there are none. -/
def EndsRead (killed : Bool) (queue line : List UInt8) (before : Reading)
    (ends : Input × Reading × Option Int) : Prop :=
  ∃ taken rest, queue = taken ++ rest ∧ ctrlD ∉ taken ∧ ends.2.1.dst = before.dst ++ taken ∧
    ((∃ more, rest = ctrlD :: more ∧ ends.2.2 = some ↑ends.2.1.dst.length ∧
        ends.1.Holds (if ends.2.1.dst = [] then more else rest) line) ∨
      (ends.2.2 = some ↑ends.2.1.dst.length ∧
        (ends.2.1.n = 0 ∨ taken.getLast? = some newline) ∧ ends.1.Holds rest line) ∨
      rest = [] ∧ (ends.2.2 = if killed = true then some (-1) else none) ∧ ends.1.Holds [] line)

/-- The bytes stored and those still asked for are as many as `consoleread` was called for. -/
def Reading.Fits (reading : Reading) : Prop := reading.dst.length + reading.n = reading.target

theorem readLoop_ends (holds : input.Holds queue line) (killed : Bool) {target n : Nat}
    {dst : List UInt8} (fits : dst.length + n = target) :
    (readLoop killed target n dst input).2.1.Fits ∧
      EndsRead killed queue line ⟨target, n, dst⟩ (readLoop killed target n dst input) := by
  induction n generalizing input queue dst with
  | zero =>
      refine ⟨fits, [], queue, rfl, List.not_mem_nil, (List.append_nil dst).symm, ?_⟩
      refine Or.inr (Or.inl ⟨?_, Or.inl rfl, holds⟩)
      rw [readLoop, ← fits]
      rfl
  | succ n inductionHypothesis =>
      rw [readLoop]
      by_cases empty : input.r = input.w
      · obtain rfl := holds.read_eq_write.mp empty
        rw [if_pos empty]
        cases killed with
        | true =>
            exact ⟨fits, [], [], rfl, List.not_mem_nil, (List.append_nil dst).symm,
              Or.inr (Or.inr ⟨rfl, rfl, holds⟩)⟩
        | false =>
            exact ⟨fits, [], [], rfl, List.not_mem_nil, (List.append_nil dst).symm,
              Or.inr (Or.inr ⟨rfl, rfl, holds⟩)⟩
      rw [if_neg empty]
      obtain ⟨c, rest, rfl⟩ := List.exists_cons_of_ne_nil fun nothing =>
        empty (holds.read_eq_write.mpr nothing)
      rw [holds.get_read]
      dsimp only
      by_cases eof : c = ctrlD
      · rw [if_pos eof]
        subst eof
        have count : (↑target : Int) - ↑(n + 1) = ↑dst.length := by omega
        by_cases started : n + 1 < target
        · rw [if_pos started, count]
          have some : dst ≠ [] := by
            rintro rfl
            rw [List.length_nil] at fits
            omega
          refine ⟨fits, [], _, rfl, List.not_mem_nil, (List.append_nil dst).symm,
            Or.inl ⟨rest, rfl, rfl, ?_⟩⟩
          rw [if_neg some]
          have back : { input with r := input.r + 1 - 1 } = input := by
            rw [UInt32.add_sub_cancel]
          exact back.symm ▸ holds
        · rw [if_neg started, count]
          have none : dst = [] := List.length_eq_zero_iff.mp (by omega)
          refine ⟨fits, [], _, rfl, List.not_mem_nil, (List.append_nil dst).symm,
            Or.inl ⟨rest, rfl, rfl, ?_⟩⟩
          rw [if_pos none]
          exact holds.take
      · rw [if_neg eof]
        have length : (dst ++ [c]).length + n = target := by
          rw [List.length_append, List.length_singleton]
          omega
        have other : ctrlD ∉ [c] := fun member => eof (List.mem_singleton.mp member).symm
        by_cases ends : c = newline
        · rw [if_pos ends]
          refine ⟨length, [c], rest, rfl, other, rfl, Or.inr (Or.inl ⟨?_, Or.inr ?_, holds.take⟩)⟩
          · have count : (↑target : Int) - ↑n = ↑(dst ++ [c]).length := by omega
            rw [count]
          · rw [ends]
            rfl
        · rw [if_neg ends]
          obtain ⟨later, taken, left, rfl, apart, stored, decides⟩ :=
            inductionHypothesis holds.take length
          refine ⟨later, c :: taken, left, rfl, ?_, ?_, ?_⟩
          · intro member
            obtain same | member := List.mem_cons.mp member
            · exact eof same.symm
            · exact apart member
          · rw [stored, List.append_assoc]
            rfl
          · obtain eof | ⟨value, reason, still⟩ | slept := decides
            · exact Or.inl eof
            · refine Or.inr (Or.inl ⟨value, reason.imp id ?_, still⟩)
              intro last
              cases taken with
              | nil => cases last
              | cons d taken => exact last
            · exact Or.inr (Or.inr slept)

/-! ## Runs -/

namespace Cons

variable {Proc : Type} {console after : Cons Proc}

/-- What every step keeps: a line is being typed, `consumed` has been taken from what was
committed, of which the readers got all but the control-Ds. -/
structure Disciplined (console : Cons Proc) : Prop where
  holds : ∃ queue line consumed, console.input.Holds queue line ∧
    console.committed = consumed ++ queue ∧
    console.received = consumed.filter fun c => c ≠ ctrlD
  fits : ∀ p reading, console.call p = some reading → reading.Fits

theorem boot_disciplined : (boot : Cons Proc).Disciplined where
  holds := ⟨[], [], [], ⟨rfl, rfl, Nat.zero_le _, rfl⟩, rfl, rfl⟩
  fits _ _ none := by cases none

theorem filter_taken {taken : List UInt8} (apart : ctrlD ∉ taken) :
    taken.filter (fun c => c ≠ ctrlD) = taken := by
  apply List.filter_eq_self.mpr
  intro c member
  apply decide_eq_true
  rintro rfl
  exact apart member

variable [DecidableEq Proc]

theorem Disciplined.readStep (disciplined : console.Disciplined) {reading : Reading}
    (fits : reading.Fits) (p : Proc) (killed : Bool) :
    (console.readStep p reading killed).Disciplined := by
  obtain ⟨queue, line, consumed, holds, committed, received⟩ := disciplined.holds
  obtain ⟨later, taken, rest, rfl, apart, stored, decides⟩ := readLoop_ends holds killed fits
  have got : (reading.run killed console.input).2.1.dst.drop reading.dst.length = taken := by
    rw [Reading.run, stored, List.drop_left]
  constructor
  · have keep : ∀ left extra, taken ++ rest = taken ++ extra ++ left →
        extra.filter (fun c => c ≠ ctrlD) = [] →
        (reading.run killed console.input).1.Holds left line →
        ∃ queue line consumed, (console.readStep p reading killed).input.Holds queue line ∧
          (console.readStep p reading killed).committed = consumed ++ queue ∧
          (console.readStep p reading killed).received =
            consumed.filter fun c => c ≠ ctrlD := by
      intro left extra split nothing still
      refine ⟨left, line, consumed ++ (taken ++ extra), still, ?_, ?_⟩
      · rw [List.append_assoc, ← split]
        exact committed
      · change console.received ++ _ = _
        rw [got, received, List.filter_append, List.filter_append, filter_taken apart, nothing,
          List.append_nil]
    obtain ⟨more, rfl, -, still⟩ | ⟨-, -, still⟩ | ⟨rfl, -, still⟩ := decides
    · split at still
      · refine keep more [ctrlD] ?_ rfl still
        rw [List.append_assoc]
        rfl
      · exact keep _ [] (by rw [List.append_nil]) rfl still
    · exact keep _ [] (by rw [List.append_nil]) rfl still
    · exact keep _ [] (List.append_nil _).symm rfl still
  · intro q pending waits
    change Function.update console.call p _ q = _ at waits
    by_cases same : q = p
    · subst same
      rw [Function.update_self] at waits
      split at waits
      · injection waits with equal
        rw [← equal]
        exact later
      · cases waits
    · rw [Function.update_of_ne same] at waits
      exact disciplined.fits q pending waits

theorem Disciplined.next (disciplined : console.Disciplined) {event : ConsoleEvent Proc}
    (stepped : console.next event = some after) : after.Disciplined := by
  cases event with
  | intr chars =>
      cases stepped
      obtain ⟨queue, line, consumed, holds, committed, received⟩ := disciplined.holds
      obtain ⟨new, kept, later, same⟩ := holds.foldl_char chars
      refine ⟨⟨queue ++ new, kept, consumed, later, ?_, received⟩, disciplined.fits⟩
      have grown := holds.added later same
      change console.committed ++ added console.input (chars.foldl Input.char console.input) = _
      rw [grown, committed, List.append_assoc]
  | read p n killed =>
      rw [Cons.next] at stepped
      split at stepped
      · cases stepped
        have fits : Reading.Fits ⟨n, n, []⟩ := Nat.zero_add n
        exact disciplined.readStep fits p killed
      · cases stepped
  | wake p killed =>
      rw [Cons.next] at stepped
      split at stepped
      · cases stepped
      · rename_i reading waits
        cases stepped
        exact disciplined.readStep (disciplined.fits p reading waits) p killed

/-- In every state of every run the indices are in order. What has been committed is what
was taken from the buffer, in that order, and what is still in it; the readers got what was
taken without the control-Ds. Backspace and control-U change nothing committed, and every
reader goes on as `EndsRead` says. -/
theorem console_discipline (events : List (ConsoleEvent Proc)) (console : Cons Proc)
    (ran : runs next boot events = some console) :
    (console.input.w - console.input.r ≤ console.input.e - console.input.r ∧
      console.input.e - console.input.r ≤ inputBuf) ∧
    ∃ queue line consumed, console.input.Holds queue line ∧
      console.committed = consumed ++ queue ∧
      console.received = consumed.filter (fun c => c ≠ ctrlD) ∧
      (∀ c, Input.Erases c → ∃ kept, (console.input.char c).Holds queue kept ∧
        (console.input.char c).r = console.input.r ∧
        (console.input.char c).w = console.input.w) ∧
      (∀ n killed, EndsRead killed queue line ⟨n, n, []⟩
        (Reading.run ⟨n, n, []⟩ killed console.input)) ∧
      ∀ p reading killed, console.call p = some reading →
        EndsRead killed queue line reading (reading.run killed console.input) := by
  have disciplined : console.Disciplined :=
    runs_invariant (fun _ console => console.Disciplined) boot_disciplined
      (fun _ _ _ _ before stepped => before.next stepped) ran
  obtain ⟨queue, line, consumed, holds, committed, received⟩ := disciplined.holds
  refine ⟨holds.ordered, queue, line, consumed, holds, committed, received, ?_, ?_, ?_⟩
  · intro c erases
    obtain ⟨new, kept, later, same, nothing⟩ := holds.char c
    rw [nothing (Or.inr erases), List.append_nil] at later
    refine ⟨kept, later, same, ?_⟩
    rw [later.write, same, holds.write]
  · intro n killed
    exact (readLoop_ends holds killed (Nat.zero_add n)).2
  · intro p reading killed waits
    exact (readLoop_ends holds killed (disciplined.fits p reading waits)).2

/-- A line with a correction, and a control-D in the middle of the next one. -/
def typing : List (ConsoleEvent Bool) :=
  [.intr [0x61, 0x78, del, 0x62, cr, 0x63, ctrlD], .read false 10 false, .read true 10 false]

theorem console_discipline_once : ∃ console : Cons Bool,
    runs next boot typing = some console ∧
    console.committed = [0x61, 0x62, newline, 0x63, ctrlD] ∧
    console.received = [0x61, 0x62, newline, 0x63] ∧
    ∃ queue line consumed, console.input.Holds queue line ∧
      console.committed = consumed ++ queue ∧
      console.received = consumed.filter (fun c => c ≠ ctrlD) ∧
      EndsRead false queue line ⟨5, 5, []⟩ (Reading.run ⟨5, 5, []⟩ false console.input) := by
  have facts : (runs next boot typing).map (fun console =>
      decide (console.committed = [0x61, 0x62, newline, 0x63, ctrlD] ∧
        console.received = [0x61, 0x62, newline, 0x63])) = some true := by decide +kernel
  obtain ⟨console, ran, holds⟩ := Option.map_eq_some_iff.mp facts
  obtain ⟨committed, received⟩ := of_decide_eq_true holds
  obtain ⟨-, queue, line, consumed, inside, split, got, -, reads, -⟩ :=
    console_discipline typing console ran
  exact ⟨console, ran, committed, received, queue, line, consumed, inside, split, got,
    reads 5 false⟩

end Cons

end Xv6.Console
