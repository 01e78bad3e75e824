import Xv6.Shell.Soundness

/-!
# Derivable lines are parsed

The parser decides by one token, so it follows a derivation as long as what
comes after it cannot go on with it.
-/

namespace Xv6.Shell

open Xv6.Library

variable {memory : Memory} {es s : Nat} {used rest : List Token} {cmd : Cmd} {tree : Tree}
  {fuel : Nat}

/-- Without a panic, this tree is returned, with these tokens left. -/
def Returns (memory : Memory) (es : Nat) (rest : List Token) (tree : Tree)
    (outcome : Outcome Nat Cmd) : Prop :=
  ∃ cmd later, outcome = .done cmd later ∧ Parsed memory es rest tree cmd later

/-- At the end, or at one of the tokens. -/
def Followed (marks ts : List Token) : Prop := ∀ token ∈ ts.head?, token ∈ marks

theorem Followed.mono {marks others ts : List Token} (followed : Followed marks ts)
    (within : marks ⊆ others) : Followed others ts :=
  fun token first => within (followed token first)

theorem Followed.head_ne {marks ts : List Token} (followed : Followed marks ts) {token : Token}
    (other : token ∉ marks) : ts.head? ≠ some token :=
  fun first => other (followed token first)

theorem followed_cons {marks ts : List Token} {token : Token} (member : token ∈ marks) :
    Followed marks (token :: ts) := by
  intro other first
  rw [← Option.some.inj first]
  exact member

/-- After the redirections of a simple command. -/
theorem noRedir_args {ts : List Token} {words : List (List UInt8)} {redirs : List Redirection}
    (args : IsArgs ts words redirs) (ends : EndsArgs rest) : NoRedir (ts ++ rest) := by
  cases args with
  | nil =>
      intro token first
      have member := ends token first
      simp only [List.mem_cons, List.not_mem_nil, or_false] at member
      rcases member with rfl | rfl | rfl | rfl <;> rfl
  | cons =>
      intro token first
      rw [← Option.some.inj first]
      rfl

theorem parseredirs_complete {redirs : List Redirection} (derives : IsRedirs used redirs)
    (none : NoRedir rest) (here : At memory es s (used ++ rest))
    (reads : cmd.Reads (Spans memory es) tree) (enough : used.length < fuel) :
    Returns memory es rest (tree.redirect redirs) (parseredirs memory es fuel cmd s) := by
  induction derives generalizing s cmd tree fuel with
  | nil =>
      obtain ⟨fuel, rfl⟩ := Nat.exists_eq_add_one_of_ne_zero (Nat.ne_of_gt enough)
      obtain ⟨later, ran, next⟩ := parseredirs_stops here none
      exact ⟨cmd, later, ran, next, reads⟩
  | cons found derives inductionHypothesis =>
      obtain ⟨fuel, rfl⟩ :=
        Nat.exists_eq_add_one_of_ne_zero (Nat.ne_of_gt (Nat.zero_lt_of_lt enough))
      rw [List.cons_append, List.cons_append] at here
      obtain ⟨q, eq, later, ran, next, spans⟩ :=
        parseredirs_file fuel cmd found here
      rw [List.length_cons, List.length_cons] at enough
      rw [Returns, ran]
      exact inductionHypothesis next (.redir reads spans) (by omega)

theorem parseargs_complete {words more : List (List UInt8)} {redirs others : List Redirection}
    (derives : IsArgs used more others) (ends : EndsArgs rest)
    (here : At memory es s (used ++ rest))
    (reads : cmd.Reads (Spans memory es) ((Tree.exec words).redirect redirs))
    (few : words.length + more.length < maxargs) (enough : used.length < fuel) :
    Returns memory es rest ((Tree.exec (words ++ more)).redirect (redirs ++ others))
      (parseargs memory es fuel cmd words.length s) := by
  induction derives generalizing s cmd words redirs fuel with
  | nil =>
      obtain ⟨fuel, rfl⟩ := Nat.exists_eq_add_one_of_ne_zero (Nat.ne_of_gt enough)
      obtain ⟨later, ran, next⟩ := parseargs_stops fuel cmd here ends few
      refine ⟨_, later, ran, next, ?_⟩
      rw [List.append_nil, List.append_nil]
      exact reads.endArgs few
  | @cons word first rests moved others more derives args inductionHypothesis =>
      obtain ⟨fuel, rfl⟩ :=
        Nat.exists_eq_add_one_of_ne_zero (Nat.ne_of_gt (Nat.zero_lt_of_lt enough))
      rw [List.length_cons, List.length_append] at enough
      rw [List.length_cons] at few
      rw [List.cons_append, List.append_assoc] at here
      obtain ⟨q, eq, later, next, spans, ran⟩ :=
        parseargs_word fuel cmd here (show words.length < maxargs by omega)
      have room : words.length + 1 < maxargs := by omega
      obtain ⟨ret, middle, went, parsed⟩ := parseredirs_complete derives
        (noRedir_args args ends) next (reads.addArg room spans) (show _ < fuel by omega)
      rw [← Tree.redirect_append] at parsed
      have counted : (words ++ [word]).length = words.length + 1 := List.length_append
      rw [Returns, ran, if_neg (Nat.not_le.mpr room), Action.bind_done went, ← counted,
        show word :: more = [word] ++ more from rfl, ← List.append_assoc, ← List.append_assoc]
      exact inductionHypothesis parsed.here parsed.reads (by omega) (by omega)

/-! ## The recursive functions -/

/-- What comes after a rule. -/
def afterLine : List Token := [.right]
def afterPipe : List Token := [.amp, .semi, .right]
def afterCmd : List Token := [.bar, .right, .amp, .semi]

/-- The function follows every derivation of its rule, given the fuel. -/
def Complete (memory : Memory) (es extra fuel : Nat) (Derives : List Token → Tree → Prop)
    (after : List Token) (parse : Action Nat Cmd) : Prop :=
  ∀ s used rest tree, Derives used tree → Followed after rest → At memory es s (used ++ rest) →
    4 * (used ++ rest).length + extra ≤ fuel → Returns memory es rest tree (parse s)

theorem parsepipe_complete
    (exec : Complete memory es 2 fuel IsCmd afterCmd (parseexec memory es fuel))
    (pipe : Complete memory es 3 fuel IsPipe afterPipe (parsepipe memory es fuel)) :
    Complete memory es 3 (fuel + 1) IsPipe afterPipe (parsepipe memory es (fuel + 1)) := by
  intro s used rest tree derives followed here enough
  rw [Returns, parsepipe, show [ '|'].map ascii = [Token.bar.code] from rfl]
  cases derives with
  | last derives =>
      obtain ⟨cmd, middle, went, parsed⟩ :=
        exec s used rest tree derives (followed.mono (by decide)) here (by omega)
      obtain ⟨later, next, ⟨⟨left, rfl⟩, -⟩ | ⟨-, ran⟩⟩ :=
        parsed.here.peeks_mark .bar (by decide)
      · exact absurd rfl (followed.head_ne (by decide))
      · refine ⟨cmd, later, ?_, next, parsed.reads⟩
        rw [Action.bind_done went, Action.bind_done ran, if_neg Bool.false_ne_true]
        rfl
  | @more first others tree second derives rights =>
      rw [List.append_assoc, List.cons_append] at here enough
      obtain ⟨cmd, middle, went, parsed⟩ :=
        exec s first _ tree derives (followed_cons (by decide)) here (by omega)
      obtain ⟨later, next, ⟨-, ran⟩ | ⟨none, -⟩⟩ :=
        parsed.here.peeks_mark .bar (by decide)
      · obtain ⟨_, _, last, took, next, -⟩ := next.takes
        rw [List.length_append, List.length_cons] at enough
        obtain ⟨right, final, gone, last⟩ :=
          pipe last others rest second rights followed next (by omega)
        refine ⟨.pipe cmd right, final, ?_, last.here, .pipe parsed.reads last.reads⟩
        rw [Action.bind_done went, Action.bind_done ran, if_pos rfl, Action.bind_done took,
          Action.bind_done gone]
        rfl
      · exact absurd rfl none

theorem parseline_complete
    (pipe : Complete memory es 3 fuel IsPipe afterPipe (parsepipe memory es fuel))
    (line : Complete memory es 4 fuel IsLine afterLine (parseline memory es fuel)) :
    Complete memory es 4 (fuel + 1) IsLine afterLine (parseline memory es (fuel + 1)) := by
  intro s used rest tree derives followed here enough
  have amps (n : Nat) (left : List Token) (after : Followed [.semi, .right] left) :
      Followed afterPipe (List.replicate n .amp ++ left) := by
    cases n with
    | zero => exact after.mono (by decide)
    | succ n => exact followed_cons (by decide)
  rw [Returns, parseline, show [ ';'].map ascii = [Token.semi.code] from rfl]
  cases derives with
  | @last first tree n derives =>
      have ends : Followed [.semi, .right] rest := followed.mono (by decide)
      rw [List.append_assoc] at here enough
      obtain ⟨cmd, middle, went, parsed⟩ :=
        pipe s first _ tree derives (amps n rest ends) here (by omega)
      rw [List.length_append, List.length_append, List.length_replicate] at enough
      obtain ⟨ret, later, backs, parsed⟩ := parsebacks_ends parsed.here
        (ends.head_ne (by decide)) parsed.reads (show n < fuel by omega)
      obtain ⟨last, next, ⟨⟨left, rfl⟩, -⟩ | ⟨-, ran⟩⟩ :=
        parsed.here.peeks_mark .semi (by decide)
      · exact absurd rfl (followed.head_ne (by decide))
      · refine ⟨ret, last, ?_, next, parsed.reads⟩
        rw [Action.bind_done went, Action.bind_done backs, Action.bind_done ran,
          if_neg Bool.false_ne_true]
        rfl
  | @more first others tree second n derives rights =>
      rw [List.append_assoc, List.append_assoc, List.cons_append] at here enough
      have semi : Followed [.semi] (.semi :: (others ++ rest)) := followed_cons (by decide)
      obtain ⟨cmd, middle, went, parsed⟩ :=
        pipe s first _ tree derives (amps n _ (semi.mono (by decide))) here (by omega)
      rw [List.length_append, List.length_append, List.length_replicate,
        List.length_cons] at enough
      obtain ⟨ret, later, backs, parsed⟩ := parsebacks_ends parsed.here
        (semi.head_ne (by decide)) parsed.reads (show n < fuel by omega)
      obtain ⟨last, next, ⟨-, ran⟩ | ⟨none, -⟩⟩ :=
        parsed.here.peeks_mark .semi (by decide)
      · obtain ⟨_, _, final, took, next, -⟩ := next.takes
        obtain ⟨right, stop, gone, last⟩ :=
          line final others rest second rights followed next (by omega)
        refine ⟨.list ret right, stop, ?_, last.here, .list parsed.reads last.reads⟩
        rw [Action.bind_done went, Action.bind_done backs, Action.bind_done ran, if_pos rfl,
          Action.bind_done took, Action.bind_done gone]
        rfl
      · exact absurd rfl none

/-- `parseblock` is called at a parenthesis. -/
theorem parseblock_complete
    (line : Complete memory es 4 fuel IsLine afterLine (parseline memory es fuel)) {first : List Token}
    {redirs : List Redirection} (derives : IsLine first tree) (moved : IsRedirs used redirs)
    (followed : Followed afterCmd rest)
    (here : At memory es s (.left :: (first ++ .right :: (used ++ rest))))
    (enough : 4 * (.left :: (first ++ .right :: (used ++ rest))).length + 1 ≤ fuel + 1) :
    Returns memory es rest (tree.redirect redirs) (parseblock memory es (fuel + 1) s) := by
  rw [Returns, parseblock, show [ '('].map ascii = [Token.left.code] from rfl,
    show [ ')'].map ascii = [Token.right.code] from rfl]
  obtain ⟨start, next, ⟨-, opens⟩ | ⟨none, -⟩⟩ := here.peeks_mark .left (by decide)
  · obtain ⟨_, _, inner, left, next, -⟩ := next.takes
    rw [List.length_cons] at enough
    obtain ⟨cmd, middle, went, parsed⟩ :=
      line inner first _ tree derives (followed_cons (by decide)) next (by omega)
    obtain ⟨last, next, ⟨-, closes⟩ | ⟨none, -⟩⟩ :=
      parsed.here.peeks_mark .right (by decide)
    · obtain ⟨_, _, outer, right, next, -⟩ := next.takes
      rw [List.length_append, List.length_cons, List.length_append] at enough
      have plain : NoRedir rest := noRedir_args .nil followed
      obtain ⟨ret, final, gone, parsed⟩ :=
        parseredirs_complete moved plain next parsed.reads (show _ < fuel by omega)
      refine ⟨ret, final, ?_, parsed⟩
      rw [Action.bind_done opens, if_pos rfl, Action.bind_done left, Action.bind_done went,
        Action.bind_done closes, if_pos rfl, Action.bind_done right]
      exact gone
    · exact absurd rfl none
  · exact absurd rfl none

/-- A simple command does not begin with a parenthesis. -/
theorem simple_head_ne {first args : List Token} {words : List (List UInt8)}
    {redirs more : List Redirection} (moved : IsRedirs first redirs) (derives : IsArgs args words more)
    (followed : Followed afterCmd rest) : (first ++ (args ++ rest)).head? ≠ some .left := by
  cases moved with
  | nil =>
      cases derives with
      | nil => exact followed.head_ne (by decide)
      | cons => exact nofun
  | cons found =>
      intro left
      rw [Option.some.inj left] at found
      cases found

theorem parseexec_complete
    (block : ∀ {s first used rest tree redirs}, IsLine first tree → IsRedirs used redirs →
      Followed afterCmd rest → At memory es s (.left :: (first ++ .right :: (used ++ rest))) →
      4 * (.left :: (first ++ .right :: (used ++ rest))).length + 1 ≤ fuel →
      Returns memory es rest (tree.redirect redirs) (parseblock memory es fuel s)) :
    Complete memory es 2 (fuel + 1) IsCmd afterCmd (parseexec memory es (fuel + 1)) := by
  intro s used rest tree derives followed here enough
  rw [Returns, parseexec, show [ '('].map ascii = [Token.left.code] from rfl]
  cases derives with
  | block derives moved =>
      rw [List.cons_append, List.append_assoc, List.cons_append] at here enough
      obtain ⟨later, next, ⟨-, ran⟩ | ⟨none, -⟩⟩ := here.peeks_mark .left (by decide)
      · rw [Action.bind_done ran, if_pos rfl]
        exact block derives moved followed next (by omega)
      · exact absurd rfl none
  | @simple first args redirs more words moved derives few =>
      rw [List.append_assoc] at here enough
      obtain ⟨later, next, ⟨⟨left, shape⟩, -⟩ | ⟨-, ran⟩⟩ :=
        here.peeks_mark .left (by decide)
      · exact absurd (by rw [shape]; rfl) (simple_head_ne moved derives followed)
      · rw [List.length_append, List.length_append] at enough
        obtain ⟨ret, middle, went, parsed⟩ := parseredirs_complete moved
          (noRedir_args derives followed) next reads_execcmd (show _ < fuel by omega)
        obtain ⟨final, last, gone, parsed⟩ := parseargs_complete derives followed
          parsed.here parsed.reads (by
            rw [List.length_nil, Nat.zero_add]
            exact Nat.lt_succ_of_le few) (show _ < fuel by omega)
        refine ⟨final, last, ?_, parsed⟩
        rw [Action.bind_done ran, if_neg Bool.false_ne_true, Action.bind_done went]
        exact gone

theorem parse_complete (fuel : Nat) :
    Complete memory es 4 fuel IsLine afterLine (parseline memory es fuel) ∧
    Complete memory es 3 fuel IsPipe afterPipe (parsepipe memory es fuel) ∧
    Complete memory es 2 fuel IsCmd afterCmd (parseexec memory es fuel) ∧
    ∀ {s first used rest tree redirs}, IsLine first tree → IsRedirs used redirs →
      Followed afterCmd rest → At memory es s (.left :: (first ++ .right :: (used ++ rest))) →
      4 * (.left :: (first ++ .right :: (used ++ rest))).length + 1 ≤ fuel →
      Returns memory es rest (tree.redirect redirs) (parseblock memory es fuel s) := by
  induction fuel with
  | zero =>
      refine ⟨?_, ?_, ?_, ?_⟩
      · intro s used rest tree derives followed here enough
        cases enough
      · intro s used rest tree derives followed here enough
        cases enough
      · intro s used rest tree derives followed here enough
        cases enough
      · intro s first used rest tree redirs derives moved followed here enough
        cases enough
  | succ fuel inductionHypothesis =>
      obtain ⟨line, pipe, exec, block⟩ := inductionHypothesis
      exact ⟨parseline_complete pipe line, parsepipe_complete exec pipe, parseexec_complete block,
        parseblock_complete line⟩

end Xv6.Shell
