import Xv6.Shell.Parse

/-!
# Parsed lines are derivable

Each function of the parser takes tokens that its rule of the grammar derives,
and returns the tree of that derivation.
-/

namespace Xv6.Shell

open Xv6.Library

variable {memory : Memory} {es s : Nat} {ts rest : List Token} {cmd : Cmd} {tree : Tree}
  {fuel : Nat}

/-- A function has returned the command for the tree, with these tokens left. -/
structure Parsed (memory : Memory) (es : Nat) (rest : List Token) (tree : Tree) (cmd : Cmd)
    (later : Nat) : Prop where
  here : At memory es later rest
  reads : cmd.Reads (Spans memory es) tree

/-! ## The loops, one turn at a time -/

/-- No redirection is at the front. -/
def NoRedir (ts : List Token) : Prop := ∀ token ∈ ts.head?, token.redirection = none

theorem parseredirs_stops (here : At memory es s ts) (none : NoRedir ts) :
    ∃ later, parseredirs memory es (fuel + 1) cmd s = .done cmd later ∧ At memory es later ts := by
  obtain ⟨later, ran, next⟩ := here.peeks ([ '<', '>'].map ascii) (by decide)
  refine ⟨later, ?_, next⟩
  have other : starts ([ '<', '>'].map ascii) ts = false := by
    cases ts with
    | nil => rfl
    | cons token rest => rw [starts_redir, none token rfl, Option.isSome_none]
  rw [parseredirs, Action.bind_done ran, other]
  rfl

theorem parseredirs_file (fuel : Nat) (cmd : Cmd) {op : Token} {mode fd : Nat} {file : List UInt8}
    (found : op.redirection = some (mode, fd))
    (here : At memory es s (op :: .word file :: rest)) :
    ∃ q eq later, parseredirs memory es (fuel + 1) cmd s =
        parseredirs memory es fuel (.redir cmd q eq mode fd) later ∧
      At memory es later rest ∧ Spans memory es q eq file := by
  obtain ⟨first, ran, next⟩ := here.peeks ([ '<', '>'].map ascii) (by decide)
  obtain ⟨_, _, middle, took, next, -⟩ := next.takes
  obtain ⟨q, eq, later, read, next, spans⟩ := next.takes
  refine ⟨q, eq, later, ?_, next, spans file rfl⟩
  rw [starts_redir, found, Option.isSome_some] at ran
  rw [parseredirs, Action.bind_done ran, if_pos rfl, Action.bind_done took]
  dsimp only
  rw [Action.bind_done read]
  dsimp only
  rw [if_neg (show ¬(Token.word file).code ≠ ascii 'a' from not_not.mpr rfl)]
  exact congrFun (redirection_cases found
    (fun mode fd => parseredirs memory es fuel (.redir cmd q eq mode fd)) _) later

theorem parseredirs_missing {op : Token} {mode fd : Nat}
    (found : op.redirection = some (mode, fd)) (here : At memory es s (op :: rest))
    (none : ∀ token ∈ rest.head?, ∀ file, token ≠ .word file) :
    parseredirs memory es (fuel + 1) cmd s = .panic "missing file for redirection" := by
  obtain ⟨first, ran, next⟩ := here.peeks ([ '<', '>'].map ascii) (by decide)
  obtain ⟨_, _, middle, took, next, -⟩ := next.takes
  rw [starts_redir, found, Option.isSome_some] at ran
  rw [parseredirs, Action.bind_done ran, if_pos rfl, Action.bind_done took]
  dsimp only
  cases rest with
  | nil =>
      obtain ⟨q, last, read, -⟩ := next.takes_none
      rw [Action.bind_done read]
      rfl
  | cons token rest =>
      obtain ⟨q, eq, last, read, -⟩ := next.takes
      have other : token.code ≠ ascii 'a' := by
        intro word
        obtain ⟨file, same⟩ := Token.eq_word word
        exact none token rfl file same
      rw [Action.bind_done read]
      dsimp only
      rw [if_pos other]
      rfl

/-- The tokens that end a simple command. -/
def EndsArgs (ts : List Token) : Prop :=
  ∀ token ∈ ts.head?, token ∈ [Token.bar, .right, .amp, .semi]

theorem parseargs_stops (fuel : Nat) (cmd : Cmd) {argc : Nat} (here : At memory es s ts)
    (ends : EndsArgs ts) (inside : argc < maxargs) :
    ∃ later, parseargs memory es (fuel + 1) cmd argc s =
        .done (cmd.setArg ⟨argc, inside⟩ none none) later ∧ At memory es later ts := by
  obtain ⟨first, ran, next⟩ := here.peeks ([ '|', ')', '&', ';'].map ascii) (by decide)
  have stored (later : Nat) : storeArg cmd argc none none later =
      .done (cmd.setArg ⟨argc, inside⟩ none none) later := by
    rw [storeArg, dif_pos inside]
    rfl
  rw [parseargs, Action.bind_done ran]
  cases ts with
  | nil =>
      obtain ⟨q, later, read, next⟩ := next.takes_none
      refine ⟨later, ?_, next⟩
      rw [starts, if_neg (by decide), Action.bind_done read]
      dsimp only
      rw [if_pos rfl, stored]
  | cons token rest =>
      refine ⟨first, ?_, next⟩
      rw [starts_end, decide_eq_true (ends token rfl), if_pos rfl, stored]

theorem parseargs_word (fuel : Nat) (cmd : Cmd) {argc : Nat} {word : List UInt8}
    (here : At memory es s (.word word :: rest)) (inside : argc < maxargs) :
    ∃ q eq later, At memory es later rest ∧ Spans memory es q eq word ∧
      parseargs memory es (fuel + 1) cmd argc s =
        if argc + 1 ≥ maxargs then .panic "too many args"
        else (do
          let ret ← parseredirs memory es fuel
            (cmd.setArg ⟨argc, inside⟩ (some q) (some eq))
          parseargs memory es fuel ret (argc + 1)) later := by
  obtain ⟨first, ran, next⟩ := here.peeks ([ '|', ')', '&', ';'].map ascii) (by decide)
  obtain ⟨q, eq, later, read, next, spans⟩ := next.takes
  refine ⟨q, eq, later, next, spans word rfl, ?_⟩
  rw [starts_end] at ran
  rw [parseargs, Action.bind_done ran, if_neg (by simp), Action.bind_done read]
  dsimp only
  rw [if_neg (show (Token.word word).code ≠ 0 from show ascii 'a' ≠ 0 by decide),
    if_neg (show ¬(Token.word word).code ≠ ascii 'a' from not_not.mpr rfl), storeArg, dif_pos inside]
  change (if argc + 1 ≥ maxargs then Action.panic "too many args" else _) later = _
  split <;> rfl

theorem parseargs_panics {argc : Nat} {token : Token} (here : At memory es s (token :: rest))
    (goes : token ∉ [Token.bar, .right, .amp, .semi]) (other : ∀ word, token ≠ .word word) :
    parseargs memory es (fuel + 1) cmd argc s = .panic "syntax" := by
  obtain ⟨first, ran, next⟩ := here.peeks ([ '|', ')', '&', ';'].map ascii) (by decide)
  obtain ⟨q, eq, later, read, next, spans⟩ := next.takes
  have kind : token.code ≠ ascii 'a' := by
    intro word
    obtain ⟨text, same⟩ := Token.eq_word word
    exact other text same
  have nonzero : token.code ≠ 0 := by
    cases token with
    | word text => exact show ascii 'a' ≠ 0 by decide
    | _ => decide
  rw [starts_end, decide_eq_false goes] at ran
  rw [parseargs, Action.bind_done ran, if_neg Bool.false_ne_true, Action.bind_done read]
  dsimp only
  rw [if_neg nonzero, if_pos kind]
  rfl

theorem parsebacks_ends {n : Nat} (here : At memory es s (List.replicate n .amp ++ rest))
    (other : rest.head? ≠ some .amp) (reads : cmd.Reads (Spans memory es) tree)
    (enough : n < fuel) :
    ∃ ret later, parsebacks memory es fuel cmd s = .done ret later ∧
      Parsed memory es rest (tree.backs n) ret later := by
  induction n generalizing s cmd tree fuel with
  | zero =>
      obtain ⟨fuel, rfl⟩ := Nat.exists_eq_succ_of_ne_zero (Nat.ne_of_gt enough)
      obtain ⟨later, next, ⟨⟨_, shape⟩, -⟩ | ⟨-, ran⟩⟩ := here.peeks_mark .amp (by decide)
      · rw [List.replicate_zero, List.nil_append] at shape
        rw [shape] at other
        exact absurd rfl other
      · refine ⟨cmd, later, ?_, next, reads⟩
        rw [parsebacks]
        exact Action.bind_done ran
  | succ n inductionHypothesis =>
      obtain ⟨fuel, rfl⟩ := Nat.exists_eq_succ_of_ne_zero (Nat.ne_of_gt (Nat.zero_lt_of_lt enough))
      obtain ⟨later, next, ⟨-, ran⟩ | ⟨none, -⟩⟩ := here.peeks_mark .amp (by decide)
      · rw [List.replicate_succ, List.cons_append] at next
        obtain ⟨_, _, last, took, next, -⟩ := next.takes
        obtain ⟨ret, final, went, parsed⟩ :=
          inductionHypothesis next (.back reads) (Nat.lt_of_succ_lt_succ enough)
        refine ⟨ret, final, ?_, parsed⟩
        rw [parsebacks, ← went]
        refine (Action.bind_done ran).trans ?_
        exact Action.bind_done took
      · exact absurd rfl none

/-- The ampersands at the front. -/
theorem exists_amps (ts : List Token) :
    ∃ n rest, ts = List.replicate n Token.amp ++ rest ∧ rest.head? ≠ some .amp := by
  induction ts with
  | nil => exact ⟨0, [], rfl, nofun⟩
  | cons token ts inductionHypothesis =>
      by_cases amp : token = .amp
      · obtain ⟨n, rest, rfl, other⟩ := inductionHypothesis
        exact ⟨n + 1, rest, by rw [amp, List.replicate_succ, List.cons_append], other⟩
      · exact ⟨0, token :: ts, rfl, fun first => amp (Option.some.inj first)⟩

/-! ## Soundness -/

theorem parseredirs_sound (here : At memory es s ts) (reads : cmd.Reads (Spans memory es) tree)
    (enough : ts.length < fuel) :
    (parseredirs memory es fuel cmd s).Ends (fun _ => True) fun ret later =>
      ∃ used redirs rest, ts = used ++ rest ∧ IsRedirs used redirs ∧
        Parsed memory es rest (tree.redirect redirs) ret later := by
  induction fuel generalizing s ts cmd tree with
  | zero => cases enough
  | succ fuel inductionHypothesis =>
      by_cases none : NoRedir ts
      · obtain ⟨later, ran, next⟩ := parseredirs_stops here none
        rw [ran]
        exact ⟨[], [], ts, rfl, .nil, next, reads⟩
      obtain ⟨op, rest, mode, fd, rfl, found⟩ : ∃ op rest mode fd, ts = op :: rest ∧
          op.redirection = some (mode, fd) := by
        cases ts with
        | nil => exact absurd (fun _ => nofun) none
        | cons op rest =>
            cases found : op.redirection with
            | none => exact absurd (fun token first => Option.some.inj first ▸ found) none
            | some how => exact ⟨op, rest, how.1, how.2, rfl, found⟩
      by_cases missing : ∀ token ∈ rest.head?, ∀ file, token ≠ .word file
      · rw [parseredirs_missing found here missing]
        trivial
      · push Not at missing
        obtain ⟨_, first, file, rfl⟩ := missing
        obtain ⟨left, rfl⟩ : ∃ left, rest = .word file :: left := by
          cases rest with
          | nil => cases first
          | cons token left => exact ⟨left, by rw [Option.some.inj first]⟩
        obtain ⟨q, eq, later, ran, next, spans⟩ := parseredirs_file fuel cmd
          found here
        rw [ran]
        refine (inductionHypothesis next (.redir reads spans) ?_).mono ?_
        · rw [List.length_cons, List.length_cons] at enough
          omega
        · rintro ret last ⟨used, redirs, rest, rfl, derives, parsed⟩
          exact ⟨_, _, rest, rfl, .cons found derives, parsed⟩

theorem parseargs_sound {words : List (List UInt8)} {redirs : List Redirection}
    (here : At memory es s ts)
    (reads : cmd.Reads (Spans memory es) ((Tree.exec words).redirect redirs))
    (room : words.length < maxargs) (enough : ts.length < fuel) :
    (parseargs memory es fuel cmd words.length s).Ends (fun _ => True) fun ret later =>
      ∃ used more others rest, ts = used ++ rest ∧ IsArgs used more others ∧
        words.length + more.length < maxargs ∧
        Parsed memory es rest ((Tree.exec (words ++ more)).redirect (redirs ++ others)) ret
          later := by
  induction fuel generalizing s ts cmd words redirs with
  | zero => cases enough
  | succ fuel inductionHypothesis =>
      by_cases ends : EndsArgs ts
      · obtain ⟨later, ran, next⟩ := parseargs_stops fuel cmd here ends room
        rw [ran]
        refine ⟨[], [], [], ts, rfl, .nil, room, next, ?_⟩
        rw [List.append_nil, List.append_nil]
        exact reads.endArgs room
      obtain ⟨token, rest, rfl, goes⟩ : ∃ token rest, ts = token :: rest ∧
          token ∉ [Token.bar, .right, .amp, .semi] := by
        cases ts with
        | nil => exact absurd (fun _ => nofun) ends
        | cons token rest =>
            refine ⟨token, rest, rfl, fun member => ends fun other first => ?_⟩
            rw [← Option.some.inj first]
            exact member
      by_cases other : ∀ word, token ≠ .word word
      · rw [parseargs_panics here goes other]
        trivial
      push Not at other
      obtain ⟨word, rfl⟩ := other
      obtain ⟨q, eq, later, next, spans, ran⟩ :=
        parseargs_word fuel cmd here room
      rw [ran]
      by_cases many : words.length + 1 ≥ maxargs
      · rw [if_pos many]
        trivial
      rw [if_neg many, Action.ends_bind]
      have added := reads.addArg (Nat.lt_of_not_le many) spans
      rw [List.length_cons] at enough
      refine (parseredirs_sound next added (by omega)).mono ?_
      rintro ret middle ⟨first, moved, left, rfl, derives, parsed⟩
      rw [← Tree.redirect_append] at parsed
      rw [List.length_append] at enough
      have counted : (words ++ [word]).length = words.length + 1 := List.length_append
      rw [← counted]
      refine (inductionHypothesis parsed.here parsed.reads ?_ ?_).mono ?_
      · rw [counted]
        exact Nat.lt_of_not_le many
      · omega
      · rintro final last ⟨used, more, others, rest, rfl, args, few, parsed⟩
        refine ⟨_, word :: more, moved ++ others, rest, ?_, .cons derives args, ?_, ?_⟩
        · rw [List.cons_append, List.append_assoc]
        · rw [counted] at few
          rw [List.length_cons]
          omega
        · rw [List.append_assoc, List.append_assoc] at parsed
          exact parsed

/-- A function may panic. If not, it has taken what the rule derives. -/
def Sound (memory : Memory) (es : Nat) (Derives : List Token → Tree → Prop) (ts : List Token)
    (outcome : Outcome Nat Cmd) : Prop :=
  outcome.Ends (fun _ => True) fun cmd later => ∃ used rest tree, ts = used ++ rest ∧
    Derives used tree ∧ Parsed memory es rest tree cmd later

theorem parsepipe_sound
    (exec : ∀ {s ts}, At memory es s ts → 4 * ts.length + 2 ≤ fuel →
      Sound memory es IsCmd ts (parseexec memory es fuel s))
    (pipe : ∀ {s ts}, At memory es s ts → 4 * ts.length + 3 ≤ fuel →
      Sound memory es IsPipe ts (parsepipe memory es fuel s))
    (here : At memory es s ts) (enough : 4 * ts.length + 3 ≤ fuel + 1) :
    Sound memory es IsPipe ts (parsepipe memory es (fuel + 1) s) := by
  rw [Sound, parsepipe, show [ '|'].map ascii = [Token.bar.code] from rfl, Action.ends_bind]
  refine (exec here (by omega)).mono ?_
  rintro cmd middle ⟨used, rest, tree, rfl, derives, parsed⟩
  obtain ⟨later, next, ⟨⟨rest, rfl⟩, ran⟩ | ⟨-, ran⟩⟩ :=
    parsed.here.peeks_mark .bar (by decide)
  · obtain ⟨_, _, last, took, next, -⟩ := next.takes
    rw [List.length_append, List.length_cons] at enough
    rw [Action.bind_done ran, if_pos rfl, Action.bind_done took, Action.ends_bind]
    refine (pipe next (by omega)).mono ?_
    rintro right final ⟨after, rest, second, rfl, rights, others⟩
    refine ⟨used ++ .bar :: after, rest, .pipe tree second, ?_, .more derives rights, others.here,
      .pipe parsed.reads others.reads⟩
    rw [List.append_assoc, List.cons_append]
  · rw [Action.bind_done ran, if_neg Bool.false_ne_true]
    exact ⟨used, rest, tree, rfl, .last derives, next, parsed.reads⟩

theorem parseline_sound
    (pipe : ∀ {s ts}, At memory es s ts → 4 * ts.length + 3 ≤ fuel →
      Sound memory es IsPipe ts (parsepipe memory es fuel s))
    (line : ∀ {s ts}, At memory es s ts → 4 * ts.length + 4 ≤ fuel →
      Sound memory es IsLine ts (parseline memory es fuel s))
    (here : At memory es s ts) (enough : 4 * ts.length + 4 ≤ fuel + 1) :
    Sound memory es IsLine ts (parseline memory es (fuel + 1) s) := by
  rw [Sound, parseline, show [ ';'].map ascii = [Token.semi.code] from rfl, Action.ends_bind]
  refine (pipe here (by omega)).mono ?_
  rintro cmd first ⟨used, rest, tree, rfl, derives, parsed⟩
  obtain ⟨n, rest, rfl, other⟩ := exists_amps rest
  rw [List.length_append, List.length_append, List.length_replicate] at enough
  obtain ⟨ret, middle, backs, parsed⟩ :=
    parsebacks_ends parsed.here other parsed.reads (show n < fuel by omega)
  rw [Action.bind_done backs]
  obtain ⟨later, next, ⟨⟨rest, rfl⟩, ran⟩ | ⟨-, ran⟩⟩ :=
    parsed.here.peeks_mark .semi (by decide)
  · obtain ⟨_, _, last, took, next, -⟩ := next.takes
    rw [List.length_cons] at enough
    rw [Action.bind_done ran, if_pos rfl, Action.bind_done took, Action.ends_bind]
    refine (line next (by omega)).mono ?_
    rintro right final ⟨after, rest, second, rfl, rights, others⟩
    refine ⟨used ++ (List.replicate n .amp ++ .semi :: after), rest, .list (tree.backs n) second,
      ?_, .more n derives rights, others.here, .list parsed.reads others.reads⟩
    rw [List.append_assoc, List.append_assoc, List.cons_append]
  · rw [Action.bind_done ran, if_neg Bool.false_ne_true]
    refine ⟨used ++ List.replicate n .amp, rest, tree.backs n, ?_, .last n derives, next,
      parsed.reads⟩
    rw [List.append_assoc]

theorem parseblock_sound
    (line : ∀ {s ts}, At memory es s ts → 4 * ts.length + 4 ≤ fuel →
      Sound memory es IsLine ts (parseline memory es fuel s))
    (here : At memory es s ts) (enough : 4 * ts.length + 1 ≤ fuel + 1) :
    Sound memory es IsCmd ts (parseblock memory es (fuel + 1) s) := by
  rw [Sound, parseblock, show [ '('].map ascii = [Token.left.code] from rfl,
    show [ ')'].map ascii = [Token.right.code] from rfl]
  obtain ⟨later, next, ⟨⟨rest, rfl⟩, ran⟩ | ⟨-, ran⟩⟩ :=
    here.peeks_mark .left (by decide)
  · obtain ⟨_, _, last, took, next, -⟩ := next.takes
    rw [List.length_cons] at enough
    rw [Action.bind_done ran, if_pos rfl, Action.bind_done took, Action.ends_bind]
    refine (line next (by omega)).mono ?_
    rintro cmd first ⟨used, rest, tree, rfl, derives, parsed⟩
    obtain ⟨later, next, ⟨⟨rest, rfl⟩, ran⟩ | ⟨-, ran⟩⟩ :=
      parsed.here.peeks_mark .right (by decide)
    · obtain ⟨_, _, last, took, next, -⟩ := next.takes
      rw [List.length_append, List.length_cons] at enough
      rw [Action.bind_done ran, if_pos rfl, Action.bind_done took]
      refine (parseredirs_sound next parsed.reads (by omega)).mono ?_
      rintro ret final ⟨after, redirs, rest, rfl, moved, parsed⟩
      refine ⟨.left :: (used ++ .right :: after), rest, _, ?_, .block derives moved, parsed⟩
      rw [List.cons_append, List.append_assoc, List.cons_append]
    · rw [Action.bind_done ran, if_neg Bool.false_ne_true]
      trivial
  · rw [Action.bind_done ran, if_neg Bool.false_ne_true]
    trivial

theorem parseexec_sound
    (block : ∀ {s ts}, At memory es s ts → 4 * ts.length + 1 ≤ fuel →
      Sound memory es IsCmd ts (parseblock memory es fuel s))
    (here : At memory es s ts) (enough : 4 * ts.length + 2 ≤ fuel + 1) :
    Sound memory es IsCmd ts (parseexec memory es (fuel + 1) s) := by
  rw [Sound, parseexec, show [ '('].map ascii = [Token.left.code] from rfl]
  obtain ⟨later, next, ⟨-, ran⟩ | ⟨-, ran⟩⟩ := here.peeks_mark .left (by decide)
  · rw [Action.bind_done ran, if_pos rfl]
    exact block next (by omega)
  · rw [Action.bind_done ran, if_neg Bool.false_ne_true, Action.ends_bind]
    refine (parseredirs_sound next reads_execcmd (by omega)).mono ?_
    rintro ret middle ⟨first, redirs, left, rfl, moved, parsed⟩
    rw [List.length_append] at enough
    refine (parseargs_sound parsed.here parsed.reads (by decide) (by omega)).mono ?_
    rintro final last ⟨used, more, others, rest, rfl, args, few, parsed⟩
    refine ⟨first ++ used, rest, _, ?_, .simple moved args ?_, parsed⟩
    · rw [List.append_assoc]
    · rw [List.length_nil, Nat.zero_add] at few
      exact Nat.le_of_lt_succ few

/-- The recursion is on the fuel, and every call has less of it. -/
theorem parse_sound (fuel : Nat) :
    (∀ {s ts}, At memory es s ts → 4 * ts.length + 4 ≤ fuel →
      Sound memory es IsLine ts (parseline memory es fuel s)) ∧
    (∀ {s ts}, At memory es s ts → 4 * ts.length + 3 ≤ fuel →
      Sound memory es IsPipe ts (parsepipe memory es fuel s)) ∧
    (∀ {s ts}, At memory es s ts → 4 * ts.length + 2 ≤ fuel →
      Sound memory es IsCmd ts (parseexec memory es fuel s)) ∧
    ∀ {s ts}, At memory es s ts → 4 * ts.length + 1 ≤ fuel →
      Sound memory es IsCmd ts (parseblock memory es fuel s) := by
  induction fuel with
  | zero =>
      refine ⟨?_, ?_, ?_, ?_⟩ <;> intro s ts here enough <;> cases enough
  | succ fuel inductionHypothesis =>
      obtain ⟨line, pipe, exec, block⟩ := inductionHypothesis
      exact ⟨parseline_sound pipe line, parsepipe_sound exec pipe, parseexec_sound block,
        parseblock_sound line⟩

end Xv6.Shell
