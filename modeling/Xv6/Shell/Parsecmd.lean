import Xv6.Shell.Completeness

/-!
# Command lines

`parsecmd` with `nulterminate`, which writes NULs behind the words of the line.
-/

namespace Xv6.Shell

open Xv6.Library

/-! ## The source -/

/-- The memory, and the variable `s` of `parsecmd` whose address is passed on. -/
structure Parser where
  memory : Memory
  s : Nat

def onMemory {Value : Type} (action : Action Memory Value) : Action Parser Value :=
  Action.focus Parser.memory (fun parser memory => { parser with memory := memory }) action

def onCursor {Value : Type} (action : Action Nat Value) : Action Parser Value :=
  Action.focus Parser.s (fun parser s => { parser with s := s }) action

/-- `for(n = 0; s[n]; n++)` -/
def strlen (s : Nat) : Nat → Nat → Action Memory Nat
  | 0, _ => Action.never
  | fuel + 1, n => do
      let c ← Action.get fun memory : Memory => memory (s + n)
      if c ≠ 0 then strlen s fuel (n + 1) else return n

/-- `*p = 0;` -/
def putNul (p : Nat) : Action Memory Unit :=
  Action.modify fun memory => Function.update memory p 0

/-- The loop over the arguments. An index out of the array and a null pointer to write to are
nothing that the program may come to. -/
def termArgs (argv eargv : Fin maxargs → Option Nat) : Nat → Nat → Action Memory Unit
  | 0, _ => Action.never
  | fuel + 1, i =>
      if inside : i < maxargs then
        match argv ⟨i, inside⟩ with
        | none => return ()
        | some _ =>
            match eargv ⟨i, inside⟩ with
            | none => Action.never
            | some eq => do
                putNul eq
                termArgs argv eargv fuel (i + 1)
      else Action.never

/-- NUL-terminate all the counted strings. -/
def nulterminate : Cmd → Action Memory Unit
  | .exec argv eargv => termArgs argv eargv (maxargs + 1) 0
  | .redir cmd _ efile _ _ => do
      nulterminate cmd
      putNul efile
  | .pipe left right => do
      nulterminate left
      nulterminate right
  | .list left right => do
      nulterminate left
      nulterminate right
  | .back cmd => nulterminate cmd

def parsecmd (fuel : Nat) : Action Parser Cmd := do
  let s ← Action.get Parser.s
  let n ← onMemory (strlen s fuel 0)
  let es := s + n
  -- The line is only read up to `nulterminate`.
  let memory ← Action.get Parser.memory
  let cmd ← onCursor (parseline memory es fuel)
  let _ ← onCursor (peek memory es [])
  let s ← Action.get Parser.s
  if s ≠ es then Action.panic "syntax"
  else
    onMemory (nulterminate cmd)
    return cmd

/-! ## Termination of the strings -/

/-- With NULs at these addresses. -/
def clear (memory : Memory) (ends : List Nat) : Memory :=
  fun location => if location ∈ ends then 0 else memory location

theorem clear_nil (memory : Memory) : clear memory [] = memory := by
  funext location
  rw [clear, if_neg List.not_mem_nil]

theorem clear_append (memory : Memory) (first second : List Nat) :
    clear (clear memory first) second = clear memory (first ++ second) := by
  funext location
  by_cases one : location ∈ first <;> by_cases two : location ∈ second <;> simp [clear, one, two]

theorem putNul_done (p : Nat) (memory : Memory) : putNul p memory = .done () (clear memory [p]) := by
  refine congrArg (Outcome.done ()) ?_
  funext location
  by_cases same : location = p <;> simp [clear, same]

section Terminate

variable {line : Memory} {es : Nat} {cmd : Cmd} {tree : Tree}

/-- The end of the line, or a byte that no word contains. -/
def Stops (line : Memory) (es location : Nat) : Prop :=
  location = es ∨ ¬isPlain (line location)

/-- A word with a NUL behind it. -/
def Ended (line : Memory) (es : Nat) (ends : List Nat) (q eq : Nat) (word : List UInt8) : Prop :=
  Spans line es q eq word ∧ eq ∈ ends

theorem Cmd.Reads.mono {isText others : Nat → Nat → List UInt8 → Prop}
    (reads : cmd.Reads isText tree)
    (implies : ∀ q eq word, isText q eq word → others q eq word) : cmd.Reads others tree := by
  induction reads with
  | exec short inside outside =>
      refine .exec short ?_ outside
      intro i word held
      obtain ⟨q, eq, first, second, text⟩ := inside i word held
      exact ⟨q, eq, first, second, implies q eq word text⟩
  | redir _ text inductionHypothesis => exact .redir inductionHypothesis (implies _ _ _ text)
  | pipe _ _ first second => exact .pipe first second
  | list _ _ first second => exact .list first second
  | back _ inductionHypothesis => exact .back inductionHypothesis

/-- The tree that a command is, is determined by its words. -/
theorem Cmd.Reads.unique {isText : Nat → Nat → List UInt8 → Prop} {other : Tree}
    (same : ∀ q eq first second, isText q eq first → isText q eq second → first = second)
    (reads : cmd.Reads isText tree) (also : cmd.Reads isText other) : tree = other := by
  induction reads generalizing other with
  | @exec argv eargv words short inside outside =>
      cases also with
      | @exec _ _ others less within without =>
          have agree : ∀ i : Fin maxargs, words[i.val]? = others[i.val]? := by
            intro i
            cases held : words[i.val]? with
            | none =>
                cases held' : others[i.val]? with
                | none => rfl
                | some word =>
                    obtain ⟨q, eq, first, -⟩ := within i word held'
                    cases (outside i held).symm.trans first
            | some word =>
                obtain ⟨q, eq, first, second, text⟩ := inside i word held
                cases held' : others[i.val]? with
                | none => cases first.symm.trans (without i held')
                | some word' =>
                    obtain ⟨q', eq', first', second', text'⟩ := within i word' held'
                    cases first.symm.trans first'
                    cases second.symm.trans second'
                    rw [same q eq word word' text text']
          refine congrArg Tree.exec (List.ext_getElem? fun i => ?_)
          by_cases below : i < maxargs
          · exact agree ⟨i, below⟩
          · rw [List.getElem?_eq_none (by omega), List.getElem?_eq_none (by omega)]
  | redir _ text inductionHypothesis =>
      cases also with
      | redir reads text' => rw [inductionHypothesis reads, same _ _ _ _ text text']
  | pipe _ _ first second =>
      cases also with
      | pipe left right => rw [first left, second right]
  | list _ _ first second =>
      cases also with
      | list left right => rw [first left, second right]
  | back _ inductionHypothesis =>
      cases also with
      | back reads => rw [inductionHypothesis reads]

theorem termArgs_done {argv eargv : Fin maxargs → Option Nat} {words : List (List UInt8)}
    (short : words.length < maxargs)
    (inside : ∀ (i : Fin maxargs) (word : List UInt8), words[i.val]? = some word →
      ∃ q eq, argv i = some q ∧ eargv i = some eq ∧ Spans line es q eq word)
    (outside : ∀ i : Fin maxargs, words[i.val]? = none → argv i = none) {i fuel : Nat}
    (within : i ≤ words.length) (enough : words.length < i + fuel) (memory : Memory) :
    ∃ ends, termArgs argv eargv fuel i memory = .done () (clear memory ends) ∧
      (∀ location ∈ ends, Stops line es location) ∧
      ∀ (j : Fin maxargs) (word : List UInt8), i ≤ j → words[j.val]? = some word →
        ∃ q eq, argv j = some q ∧ eargv j = some eq ∧ Ended line es ends q eq word := by
  induction fuel generalizing i memory with
  | zero => omega
  | succ fuel inductionHypothesis =>
      have below : i < maxargs := Nat.lt_of_le_of_lt within short
      rw [termArgs, dif_pos below]
      by_cases last : i = words.length
      · have none : argv ⟨i, below⟩ = none :=
          outside ⟨i, below⟩ (List.getElem?_eq_none (Nat.le_of_eq last.symm))
        refine ⟨[], ?_, fun _ => nofun, ?_⟩
        · rw [none, clear_nil]
          rfl
        · intro j word after held
          have bound := (List.getElem?_eq_some_iff.mp held).1
          omega
      · have more : i < words.length := Nat.lt_of_le_of_ne within last
        obtain ⟨q, eq, first, second, spans⟩ :=
          inside ⟨i, below⟩ words[i] (List.getElem?_eq_getElem more)
        obtain ⟨ends, ran, stops, texts⟩ :=
          inductionHypothesis (i := i + 1) more (by omega) (clear memory [eq])
        refine ⟨[eq] ++ ends, ?_, ?_, ?_⟩
        · rw [first, second]
          dsimp only
          rw [Action.bind_done (putNul_done eq memory), ran, clear_append]
        · intro location member
          obtain rfl | member := List.mem_cons.mp member
          · exact spans.stops
          · exact stops location member
        · intro j word after held
          obtain same | later := Nat.eq_or_lt_of_le after
          · obtain ⟨q, eq', first', second', spans'⟩ := inside j word held
            refine ⟨q, eq', first', second', spans', ?_⟩
            have index : j = ⟨i, below⟩ := Fin.ext same.symm
            rw [index, second] at second'
            rw [Option.some.inj second']
            exact List.mem_cons_self
          · obtain ⟨q, eq', first', second', spans', member⟩ := texts j word later held
            exact ⟨q, eq', first', second', spans', List.mem_append_right _ member⟩

/-- What `nulterminate` does with a command. -/
def Terminates (line : Memory) (es : Nat) (cmd : Cmd) (tree : Tree) : Prop :=
  ∀ memory, ∃ ends, nulterminate cmd memory = .done () (clear memory ends) ∧
    (∀ location ∈ ends, Stops line es location) ∧ cmd.Reads (Ended line es ends) tree

theorem Terminates.both {left right : Cmd} {first second : Tree}
    (one : Terminates line es left first) (two : Terminates line es right second)
    (memory : Memory) :
    ∃ ends, (do nulterminate left; nulterminate right : Action Memory Unit) memory =
        .done () (clear memory ends) ∧
      (∀ location ∈ ends, Stops line es location) ∧
      left.Reads (Ended line es ends) first ∧ right.Reads (Ended line es ends) second := by
  obtain ⟨lefts, ran, stops, reads⟩ := one memory
  obtain ⟨rights, went, others, also⟩ := two (clear memory lefts)
  refine ⟨lefts ++ rights, ?_, ?_, reads.mono ?_, also.mono ?_⟩
  · rw [Action.bind_done ran, went, clear_append]
  · intro location member
    obtain member | member := List.mem_append.mp member
    · exact stops location member
    · exact others location member
  · rintro q eq word ⟨spans, member⟩
    exact ⟨spans, List.mem_append_left _ member⟩
  · rintro q eq word ⟨spans, member⟩
    exact ⟨spans, List.mem_append_right _ member⟩

theorem nulterminate_done (reads : cmd.Reads (Spans line es) tree) :
    Terminates line es cmd tree := by
  induction reads with
  | exec short inside outside =>
      intro memory
      obtain ⟨ends, ran, stops, texts⟩ := termArgs_done short inside outside (Nat.zero_le _)
        (show _ < 0 + (maxargs + 1) by omega) memory
      exact ⟨ends, ran, stops,
        .exec short (fun i word held => texts i word (Nat.zero_le _) held) outside⟩
  | @redir cmd tree file efile mode fd text _ spans inductionHypothesis =>
      intro memory
      obtain ⟨ends, ran, stops, reads⟩ := inductionHypothesis memory
      refine ⟨ends ++ [efile], ?_, ?_, .redir (reads.mono ?_) ⟨spans, ?_⟩⟩
      · rw [nulterminate, Action.bind_done ran, putNul_done, clear_append]
      · intro location member
        obtain member | rfl := List.mem_append.mp member |>.imp_right List.mem_singleton.mp
        · exact stops location member
        · exact spans.stops
      · rintro q eq word ⟨spans, member⟩
        exact ⟨spans, List.mem_append_left _ member⟩
      · exact List.mem_append_right _ (List.mem_singleton_self efile)
  | pipe _ _ first second =>
      intro memory
      obtain ⟨ends, ran, stops, left, right⟩ := first.both second memory
      exact ⟨ends, ran, stops, .pipe left right⟩
  | list _ _ first second =>
      intro memory
      obtain ⟨ends, ran, stops, left, right⟩ := first.both second memory
      exact ⟨ends, ran, stops, .list left right⟩
  | back _ inductionHypothesis =>
      intro memory
      obtain ⟨ends, ran, stops, reads⟩ := inductionHypothesis memory
      exact ⟨ends, ran, stops, .back reads⟩

end Terminate

/-! ## The command and its words -/

/-- From `q` on, the memory holds the bytes of the word, none of them NUL, and then a NUL. -/
structure HoldsString (memory : Memory) (q : Nat) (word : List UInt8) : Prop where
  bytes : memory.read q word.length = word
  free : 0 ∉ word
  nul : memory (q + word.length) = 0

theorem Ended.holds {line : Memory} {es q eq : Nat} {ends : List Nat} {word : List UInt8}
    (stops : ∀ location ∈ ends, Stops line es location) (ended : Ended line es ends q eq word) :
    HoldsString (clear line ends) q word := by
  obtain ⟨spans, member⟩ := ended
  have length : word.length = eq - q := by
    rw [← spans.reads, Memory.length_read]
  have before := spans.start
  have inside := spans.inside
  refine ⟨?_, spans.free, ?_⟩
  · rw [length, ← spans.reads]
    apply Memory.read_congr
    intro offset below
    rw [clear, if_neg]
    intro stopped
    obtain last | other := stops _ stopped
    · omega
    · apply other
      apply spans.plain
      rw [← spans.reads, Memory.read]
      exact List.mem_map.mpr ⟨offset, List.mem_range.mpr below, rfl⟩
  · rw [length, Nat.add_sub_cancel' (Nat.le_of_lt before), clear, if_pos member]

theorem length_tokens_le (text : List UInt8) : (tokens text).length ≤ text.length := by
  induction text using tokens.induct with
  | case1 text found =>
      rw [tokens]
      split
      · exact Nat.zero_le _
      · next some => cases found.symm.trans some
  | case2 text token rest found inductionHypothesis =>
      rw [tokens_of_next found, List.length_cons]
      have shorter := next_shorter found
      have suffix := (List.dropWhile_suffix isWhite (l := text)).length_le
      omega

theorem strlen_done {memory : Memory} {s : Nat} {line : List UInt8} {n fuel : Nat}
    (holds : HoldsString memory s line) (within : n ≤ line.length)
    (enough : line.length < n + fuel) : strlen s fuel n memory = .done line.length memory := by
  induction fuel generalizing n with
  | zero => omega
  | succ fuel inductionHypothesis =>
      rw [strlen, Action.get_bind]
      obtain rfl | more := Nat.eq_or_lt_of_le within
      · rw [if_neg (not_not.mpr holds.nul)]
        rfl
      · have member : memory (s + n) ∈ line := by
          rw [← holds.bytes, Memory.read]
          exact List.mem_map.mpr ⟨n, List.mem_range.mpr more, rfl⟩
        have nonzero : memory (s + n) ≠ 0 := by
          intro zero
          rw [zero] at member
          exact holds.free member
        rw [if_pos nonzero]
        exact inductionHypothesis more (by omega)

theorem HoldsString.at_start {memory : Memory} {s : Nat} {line : List UInt8}
    (holds : HoldsString memory s line) :
    At memory (s + line.length) s (tokens line) := by
  have bytes : memory.read s (s + line.length - s) = line := by
    rw [Nat.add_sub_cancel_left]
    exact holds.bytes
  refine ⟨Nat.le_add_right _ _, holds.nul, ?_, ?_⟩
  · rw [bytes]
    exact holds.free
  · rw [bytes]

/-- The last call of `peek` only skips white space. -/
theorem At.peeks_nothing {memory : Memory} {es s : Nat} {ts : List Token}
    (here : At memory es s ts) :
    ∃ later, peek memory es [] s = .done false later ∧ (later = es ↔ ts = []) := by
  refine ⟨memory.scan isWhite (es - s) s, ?_, ?_⟩
  · change Outcome.done (decide (memory (memory.scan isWhite (es - s) s) ≠ 0) && false)
      (memory.scan isWhite (es - s) s) = _
    rw [Bool.and_false]
  · obtain ⟨last, none⟩ | ⟨token, rest, eq, shape, -, -, -, nonzero, -⟩ := here.cases
    · exact ⟨fun _ => none, fun _ => last⟩
    · constructor
      · intro last
        rw [last] at nonzero
        exact absurd here.ends nonzero
      · rintro rfl
        cases shape

theorem ends_onCursor {Value : Type} {panics : String → Prop} {post : Value → Parser → Prop}
    {action : Action Nat Value} {parser : Parser} :
    (onCursor action parser).Ends panics post ↔
      (action parser.s).Ends panics fun value s => post value { parser with s := s } :=
  Action.ends_focus

section Parsecmd

variable {line : List UInt8} {parser : Parser} {fuel : Nat}

/-- Up to `parseline`. -/
theorem parsecmd_starts (holds : HoldsString parser.memory parser.s line)
    (enough : line.length < fuel) :
    parsecmd fuel parser = (do
      let cmd ← onCursor (parseline parser.memory (parser.s + line.length) fuel)
      let _ ← onCursor (peek parser.memory (parser.s + line.length) [])
      let s ← Action.get Parser.s
      if s ≠ parser.s + line.length then Action.panic "syntax"
      else
        onMemory (nulterminate cmd)
        return cmd) parser := by
  have length : onMemory (strlen parser.s fuel 0) parser = .done line.length parser :=
    Action.focus_done (strlen_done holds (Nat.zero_le _) (by omega))
  rw [parsecmd, Action.get_bind, Action.bind_done length, Action.get_bind]

/-- `parsecmd` returns the tree of the only derivation of the line, with every word terminated in
the line, or panics if there is no derivation. -/
theorem parsecmd_parses (holds : HoldsString parser.memory parser.s line)
    (enough : 4 * line.length + 4 ≤ fuel) :
    (parsecmd fuel parser).Ends (fun _ => ¬∃ tree, IsLine (tokens line) tree) fun cmd later =>
      ∃ tree, IsLine (tokens line) tree ∧ (∀ other, IsLine (tokens line) other → other = tree) ∧
        cmd.Reads (fun q _ word => HoldsString later.memory q word) tree := by
  have start := holds.at_start
  have few := length_tokens_le line
  rw [parsecmd_starts holds (by omega)]
  by_cases derivable : ∃ tree, IsLine (tokens line) tree
  · obtain ⟨tree, derives⟩ := derivable
    have follows {other : Tree} (derives : IsLine (tokens line) other) :=
      (parse_complete fuel).1 parser.s (tokens line) [] other derives (fun _ => nofun)
        (by rw [List.append_nil]; exact start) (by rw [List.append_nil]; omega)
    obtain ⟨cmd, middle, went, parsed⟩ := follows derives
    obtain ⟨last, ran, stops⟩ := parsed.here.peeks_nothing
    obtain ⟨ends, wrote, places, reads⟩ := nulterminate_done parsed.reads parser.memory
    have unique (other : Tree) (also : IsLine (tokens line) other) : other = tree := by
      obtain ⟨cmd', middle', went', parsed'⟩ := follows also
      cases went.symm.trans went'
      exact parsed'.reads.unique
        (fun q eq first second one two => one.reads.symm.trans two.reads) parsed.reads
    have read : onCursor (parseline parser.memory (parser.s + line.length) fuel) parser =
        .done cmd { parser with s := middle } := Action.focus_done went
    have peeked : onCursor (peek parser.memory (parser.s + line.length) [])
        { parser with s := middle } = .done false { parser with s := last } :=
      Action.focus_done ran
    have written : onMemory (nulterminate cmd) { parser with s := last } =
        .done () ⟨clear parser.memory ends, last⟩ := Action.focus_done wrote
    rw [Action.bind_done read, Action.bind_done peeked, Action.get_bind,
      if_neg (not_not.mpr (stops.mpr rfl)), Action.bind_done written]
    exact ⟨tree, derives, unique, reads.mono fun q eq word ended => ended.holds places⟩
  · rw [Action.ends_bind, ends_onCursor]
    refine ((parse_sound fuel).1 start (by omega)).imp (fun _ _ => derivable) ?_
    rintro cmd middle ⟨used, rest, tree, shape, derives, parsed⟩
    obtain ⟨last, ran, stops⟩ := parsed.here.peeks_nothing
    have left : last ≠ parser.s + line.length := by
      intro ends
      rw [stops.mp ends, List.append_nil] at shape
      exact derivable ⟨tree, shape ▸ derives⟩
    have peeked : onCursor (peek parser.memory (parser.s + line.length) [])
        { parser with s := middle } = .done false { parser with s := last } :=
      Action.focus_done ran
    rw [Action.bind_done peeked, Action.get_bind, if_pos left]
    exact derivable

end Parsecmd

/-- `cat<f|wc&` -/
def someLine : List UInt8 := [ 'c', 'a', 't', '<', 'f', '|', 'w', 'c', '&'].map ascii

def someParser : Parser where
  memory location := someLine.getD location 0
  s := 0

theorem parsecmd_parses_someLine :
    ∃ fuel cmd later tree, parsecmd fuel someParser = .done cmd later ∧
      IsLine (tokens someLine) tree ∧
      cmd.Reads (fun q _ word => HoldsString later.memory q word) tree := by
  obtain ⟨fuel, enough, returns⟩ : ∃ fuel, 4 * someLine.length + 4 ≤ fuel ∧
      (parsecmd fuel someParser).state?.isSome = true :=
    ⟨40, Nat.le_refl 40, by decide +kernel⟩
  have holds : HoldsString someParser.memory someParser.s someLine :=
    ⟨by decide, by decide, by decide⟩
  have parses := parsecmd_parses holds enough
  cases ran : parsecmd fuel someParser with
  | blocked =>
      rw [ran] at returns
      cases returns
  | panic message =>
      rw [ran] at returns
      cases returns
  | done cmd later =>
      obtain ⟨tree, derives, -, reads⟩ := parses.of_done ran
      exact ⟨fuel, cmd, later, tree, ran, derives, reads⟩

end Xv6.Shell
