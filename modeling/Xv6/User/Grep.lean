import Xv6.User.GrepMatch
import Xv6.Library.Lines

/-!
# grep

`grep` reads into a buffer of 1024 bytes, writes the lines of the buffer that match
and keeps the unfinished line for the next `read`. A buffer without a newline is
thrown away, so what it finds depends on how the input arrives.

A pointer into `buf` is the list of the bytes from it to `buf + m`, where the NUL is.
-/

namespace Xv6.Grep

open Xv6.Library

/-! ## The functions -/

/-- `'\n'` -/
def newline : UInt8 := 10

/-- `strchr`, as a distance. -/
def strchr : List UInt8 → UInt8 → Option Nat
  | [], _ => none
  | s :: rest, c =>
      if s = 0 then none
      else if s = c then some 0
      else (strchr rest c).map (· + 1)

theorem strchr_lt {s : List UInt8} {c : UInt8} {k : Nat} (found : strchr s c = some k) :
    k < s.length := by
  fun_induction strchr s c generalizing k with
  | case1 => exact absurd found nofun
  | case2 => exact absurd found nofun
  | case3 => exact Option.some.inj found ▸ Nat.zero_lt_succ _
  | case4 s rest c nonzero other inductionHypothesis =>
      obtain ⟨j, isThere, rfl⟩ := Option.map_eq_some_iff.mp found
      exact Nat.succ_lt_succ (inductionHypothesis isThere)

/-- The loop over the newlines behind `p`: the last `p` and what is written. -/
def scan (pattern p : List UInt8) : List UInt8 × List UInt8 :=
  match _found : strchr p newline with
  | none => (p, [])
  | some k =>
      let rest := scan pattern (p.drop (k + 1))
      if matchText pattern (p.set k 0) then (rest.1, p.take (k + 1) ++ rest.2) else rest
termination_by p.length
decreasing_by
  have bound := strchr_lt _found
  rw [List.length_drop]
  omega

/-- What `read` returns when it is asked for `size` bytes of `input` and `arrived` bytes are
there; it waits for the first. -/
def readCount (size arrived : Nat) (input : List UInt8) : Nat :=
  min size (min input.length (max 1 arrived))

/-- The loop of `grep`, with `m` bytes in `buf` and `arrivals` for the calls of `read`. When
these are used up the whole input is there. -/
def grepLoop (pattern : List UInt8) (arrivals : List Nat) (buf input : List UInt8) : List UInt8 :=
  let n := readCount (1024 - buf.length - 1) (arrivals.headD input.length) input
  if 0 < n then
    let filled := buf ++ input.take n
    let scanned := scan pattern filled
    let kept := if scanned.1.length = filled.length then [] else scanned.1
    scanned.2 ++ grepLoop pattern arrivals.tail kept (input.drop n)
  else []
termination_by input.length
decreasing_by
  have most : n ≤ input.length := Nat.le_trans (Nat.min_le_right _ _) (Nat.min_le_left _ _)
  rw [List.length_drop]
  omega

/-- `grep` -/
def grep (pattern : List UInt8) (arrivals : List Nat) (input : List UInt8) : List UInt8 :=
  grepLoop pattern arrivals [] input

/-- A line, if it matches. -/
def matchingLine (pattern line : List UInt8) : List UInt8 :=
  if matchText pattern (content newline line) then line else []

/-- The lines of the input that match. -/
def matching (pattern input : List UInt8) : List UInt8 :=
  (lines newline input).flatMap (matchingLine pattern)

/-! ## Scanning a buffer -/

variable {pattern p input : List UInt8}

theorem strchr_none (inside : newline ∉ p) : strchr p newline = none := by
  induction p with
  | nil => rfl
  | cons s p inductionHypothesis =>
      rw [List.mem_cons, not_or] at inside
      rw [strchr, if_neg (Ne.symm inside.1), inductionHypothesis inside.2]
      exact ite_self _

/-- A NUL hides the newline behind it. -/
theorem strchr_hidden {before : List UInt8} (after : List UInt8) (inside : newline ∉ before)
    (null : 0 ∈ before) :
    strchr (before ++ after) newline = none := by
  induction before with
  | nil => exact absurd null nofun
  | cons s before inductionHypothesis =>
      rw [List.mem_cons, not_or] at inside
      rw [List.cons_append, strchr, if_neg (Ne.symm inside.1)]
      by_cases zero : s = 0
      · exact if_pos zero
      · have later : 0 ∈ before := (List.mem_cons.mp null).resolve_left (Ne.symm zero)
        rw [if_neg zero, inductionHypothesis inside.2 later]
        rfl

theorem strchr_found {before : List UInt8} (after : List UInt8) (inside : newline ∉ before)
    (plain : 0 ∉ before) :
    strchr (before ++ newline :: after) newline = some before.length := by
  induction before with
  | nil => rfl
  | cons s before inductionHypothesis =>
      rw [List.mem_cons, not_or] at inside plain
      rw [List.cons_append, strchr, if_neg (Ne.symm plain.1), if_neg (Ne.symm inside.1),
        inductionHypothesis inside.2 plain.2]
      rfl

/-- The three ways in which the loop over a buffer goes on. -/
theorem strchr_cases (p : List UInt8) :
    strchr p newline = none ∨
      ∃ before after, p = before ++ newline :: after ∧ newline ∉ before ∧ 0 ∉ before := by
  by_cases member : newline ∈ p
  · obtain ⟨before, after, rfl, inside⟩ := List.eq_append_cons_of_mem member
    by_cases null : 0 ∈ before
    · exact .inl (strchr_hidden (newline :: after) inside null)
    · exact .inr ⟨before, after, rfl, inside, null⟩
  · exact .inl (strchr_none member)

theorem scan_none (pattern : List UInt8) (hidden : strchr p newline = none) :
    scan pattern p = (p, []) := by
  rw [scan]
  split
  · rfl
  · next found => exact absurd (hidden.symm.trans found) nofun

/-- `match` reads up to the NUL. -/
theorem matchText_congr {text text' : List UInt8} (same : cstring text = cstring text') :
    matchText pattern text = matchText pattern text' := by
  rw [matchText, matchText]
  split
  · rw [Bool.eq_iff_iff, matchhere_iff, matchhere_iff, same]
  · rw [Bool.eq_iff_iff, matchLoop_iff, matchLoop_iff, same]

theorem cstring_append_zero {before after : List UInt8} (plain : 0 ∉ before) :
    cstring (before ++ 0 :: after) = before := by
  induction before with
  | nil => rfl
  | cons c before inductionHypothesis =>
      rw [List.mem_cons, not_or] at plain
      rw [List.cons_append, cstring_cons, if_neg (Ne.symm plain.1), inductionHypothesis plain.2]

theorem scan_line (pattern : List UInt8) {before : List UInt8} (after : List UInt8)
    (inside : newline ∉ before) (plain : 0 ∉ before) :
    scan pattern (before ++ newline :: after) =
      ((scan pattern after).1,
        (if matchText pattern before then before ++ [newline] else []) ++
          (scan pattern after).2) := by
  have found := strchr_found after inside plain
  have rest : (before ++ newline :: after).drop (before.length + 1) = after := by
    rw [← List.drop_drop, List.drop_left]
    rfl
  have written : (before ++ newline :: after).take (before.length + 1) = before ++ [newline] := by
    rw [List.take_length_add_append]
    rfl
  have cut : (before ++ newline :: after).set before.length 0 = before ++ 0 :: after := by
    rw [List.set_append_right _ _ (Nat.le_refl _), Nat.sub_self]
    rfl
  have seen : matchText pattern (before ++ 0 :: after) = matchText pattern before :=
    matchText_congr ((cstring_append_zero plain).trans (cstring_of_notMem plain).symm)
  rw [scan]
  split
  · next hidden => exact absurd (found.symm.trans hidden) nofun
  · next k isAt =>
      obtain rfl : before.length = k := Option.some.inj (found.symm.trans isAt)
      simp only [rest, written, cut, seen]
      split
      · rfl
      · rfl

theorem scan_suffix (pattern p : List UInt8) : (scan pattern p).1 <:+ p := by
  induction size : p.length using Nat.strongRecOn generalizing p with
  | ind bound inductionHypothesis =>
      obtain hidden | ⟨before, after, rfl, inside, plain⟩ := strchr_cases p
      · rw [scan_none _ hidden]
      · rw [scan_line pattern after inside plain]
        have shorter : after.length < bound := by
          rw [← size, List.length_append, List.length_cons]
          omega
        exact (inductionHypothesis _ shorter after rfl).trans
          ((List.suffix_cons newline after).trans (List.suffix_append before _))

/-! ## One call of read -/

variable {arrivals : List Nat} {buf : List UInt8}

theorem readCount_le {size arrived : Nat} : readCount size arrived input ≤ input.length :=
  Nat.le_trans (Nat.min_le_right _ _) (Nat.min_le_left _ _)

/-- What the buffer holds after the loop over its lines. -/
def keptOf (pattern filled : List UInt8) : List UInt8 :=
  if (scan pattern filled).1.length = filled.length then [] else (scan pattern filled).1

theorem keptOf_suffix (pattern filled : List UInt8) : keptOf pattern filled <:+ filled := by
  rw [keptOf]
  split
  · exact List.nil_suffix
  · exact scan_suffix pattern filled

theorem keptOf_length {filled : List UInt8} (fits : filled.length ≤ 1023) :
    (keptOf pattern filled).length < 1023 := by
  have most := (scan_suffix pattern filled).length_le
  rw [keptOf]
  split
  · exact Nat.zero_lt_succ _
  · omega

/-- The loop ends, or a nonempty chunk of the input comes into the buffer. -/
theorem grepLoop_cases (pattern : List UInt8) (arrivals : List Nat) (buf input : List UInt8) :
    grepLoop pattern arrivals buf input = [] ∧ (buf.length < 1023 → input = []) ∨
      ∃ chunk later, input = chunk ++ later ∧ chunk ≠ [] ∧ (buf ++ chunk).length ≤ 1023 ∧
        grepLoop pattern arrivals buf input =
          (scan pattern (buf ++ chunk)).2 ++
            grepLoop pattern arrivals.tail (keptOf pattern (buf ++ chunk)) later := by
  rw [grepLoop]
  by_cases more : 0 < readCount (1024 - buf.length - 1) (arrivals.headD input.length) input
  · have size : (input.take (readCount (1024 - buf.length - 1) (arrivals.headD input.length)
        input)).length = readCount (1024 - buf.length - 1) (arrivals.headD input.length) input := by
      rw [List.length_take, Nat.min_eq_left readCount_le]
    refine .inr ⟨input.take _, input.drop _, (List.take_append_drop _ input).symm,
      List.ne_nil_of_length_pos (Nat.lt_of_lt_of_eq more size.symm), ?_, if_pos more⟩
    rw [List.length_append, size]
    rw [readCount] at more ⊢
    omega
  · refine .inl ⟨if_neg more, fun room => List.length_eq_zero_iff.mp ?_⟩
    rw [readCount] at more
    omega

theorem grepLoop_end (pattern : List UInt8) (arrivals : List Nat) (buf : List UInt8) :
    grepLoop pattern arrivals buf [] = [] := by
  obtain ⟨ended, -⟩ | ⟨chunk, later, equal, nonempty, -, -⟩ :=
    grepLoop_cases pattern arrivals buf []
  · exact ended
  · exact absurd (List.append_eq_nil_iff.mp equal.symm).1 nonempty

/-- A chunk that comes into the empty buffer. -/
theorem grepLoop_chunk {chunk later : List UInt8} (nonempty : chunk ≠ [])
    (fits : chunk.length ≤ 1023) :
    grepLoop pattern (chunk.length :: arrivals) [] (chunk ++ later) =
      (scan pattern chunk).2 ++ grepLoop pattern arrivals (keptOf pattern chunk) later := by
  have positive := List.length_pos_iff.mpr nonempty
  have count : readCount (1024 - 0 - 1) chunk.length (chunk ++ later) = chunk.length := by
    rw [readCount, List.length_append]
    omega
  rw [grepLoop, List.headD_cons, List.length_nil, count, if_pos positive, List.take_left,
    List.drop_left, List.nil_append]
  rfl

/-! ## Inputs that arrive as they like -/

/-- No piece of the text before a newline matches. -/
def Quiet (pattern text : List UInt8) : Prop :=
  ∀ before piece after, text = before ++ piece ++ newline :: after →
    newline ∉ piece → 0 ∉ piece → matchText pattern piece = false

theorem Quiet.suffix {text later : List UInt8} (quiet : Quiet pattern text)
    (isEnd : later <:+ text) : Quiet pattern later := by
  obtain ⟨front, rfl⟩ := isEnd
  rintro before piece after rfl
  exact quiet (front ++ before) piece after (by simp)

theorem scan_quiet (quiet : Quiet pattern p) : (scan pattern p).2 = [] := by
  induction size : p.length using Nat.strongRecOn generalizing p with
  | ind bound inductionHypothesis =>
      obtain hidden | ⟨before, after, rfl, inside, plain⟩ := strchr_cases p
      · rw [scan_none _ hidden]
      · have shorter : after.length < bound := by
          rw [← size, List.length_append, List.length_cons]
          omega
        have isEnd : after <:+ before ++ newline :: after :=
          (List.suffix_cons newline after).trans (List.suffix_append before _)
        have misses : matchText pattern before = false := quiet [] before after rfl inside plain
        rw [scan_line pattern after inside plain, misses,
          inductionHypothesis _ shorter (quiet.suffix isEnd) rfl]
        rfl

theorem kept_suffix {chunk later : List UInt8} :
    keptOf pattern (buf ++ chunk) ++ later <:+ buf ++ (chunk ++ later) := by
  obtain ⟨front, equal⟩ := keptOf_suffix pattern (buf ++ chunk)
  exact ⟨front, by rw [← List.append_assoc, equal, List.append_assoc]⟩

theorem length_lt_of_chunk {chunk later : List UInt8} (nonempty : chunk ≠ []) :
    later.length < (chunk ++ later).length := by
  have positive := List.length_pos_iff.mpr nonempty
  rw [List.length_append]
  omega

theorem grepLoop_quiet (quiet : Quiet pattern (buf ++ input)) :
    grepLoop pattern arrivals buf input = [] := by
  induction size : input.length using Nat.strongRecOn generalizing buf input arrivals with
  | ind bound inductionHypothesis =>
      obtain ⟨ended, -⟩ | ⟨chunk, later, rfl, nonempty, -, goesOn⟩ :=
        grepLoop_cases pattern arrivals buf input
      · exact ended
      · have filled : Quiet pattern (buf ++ chunk) := by
          rintro before piece after equal
          exact quiet before piece (after ++ later) (by rw [← List.append_assoc, equal]; simp)
        rw [goesOn, scan_quiet filled, inductionHypothesis _ (size ▸ length_lt_of_chunk nonempty)
          (quiet.suffix kept_suffix) rfl]
        rfl

/-- Nothing stands before a newline but newlines. -/
def OnlyEmpty (text : List UInt8) : Prop :=
  ∀ before piece after, text = before ++ piece ++ newline :: after → newline ∉ piece → piece = []

theorem OnlyEmpty.suffix {text later : List UInt8} (onlyEmpty : OnlyEmpty text)
    (isEnd : later <:+ text) : OnlyEmpty later := by
  obtain ⟨front, rfl⟩ := isEnd
  rintro before piece after rfl
  exact onlyEmpty (front ++ before) piece after (by simp)

/-- Such a text starts with a newline or has none. -/
theorem OnlyEmpty.cases {text : List UInt8} (onlyEmpty : OnlyEmpty text) :
    newline ∉ text ∨ ∃ after, text = newline :: after ∧ OnlyEmpty after := by
  by_cases member : newline ∈ text
  · obtain ⟨before, after, rfl, inside⟩ := List.eq_append_cons_of_mem member
    obtain rfl := onlyEmpty [] before after rfl inside
    exact .inr ⟨after, rfl, onlyEmpty.suffix (List.suffix_cons newline after)⟩
  · exact .inl member

variable (blank : matchText pattern [] = true)
include blank

theorem scan_onlyEmpty (onlyEmpty : OnlyEmpty p) :
    newline ∉ (scan pattern p).1 ∧
      (scan pattern p).2 = List.replicate (p.count newline) newline := by
  induction p with
  | nil => exact ⟨by rw [scan_none _ rfl]; exact nofun, by rw [scan_none _ rfl]; rfl⟩
  | cons c p inductionHypothesis =>
      obtain inside | ⟨after, equal, later⟩ := onlyEmpty.cases
      · rw [scan_none _ (strchr_none inside), List.count_eq_zero.mpr inside]
        exact ⟨inside, rfl⟩
      · cases equal
        obtain ⟨rest, written⟩ := inductionHypothesis later
        have line := @scan_line pattern [] p nofun nofun
        rw [List.nil_append, if_pos blank] at line
        rw [line, List.count_cons_self, List.replicate_succ, written]
        exact ⟨rest, rfl⟩

theorem grepLoop_onlyEmpty (start : newline ∉ buf) (onlyEmpty : OnlyEmpty (buf ++ input))
    (room : buf.length < 1023) :
    grepLoop pattern arrivals buf input = List.replicate (input.count newline) newline := by
  induction size : input.length using Nat.strongRecOn generalizing buf input arrivals with
  | ind bound inductionHypothesis =>
      obtain ⟨ended, read⟩ | ⟨chunk, later, rfl, nonempty, fits, goesOn⟩ :=
        grepLoop_cases pattern arrivals buf input
      · rw [ended, read room]
        rfl
      · have filled : OnlyEmpty (buf ++ chunk) := by
          rintro before piece after equal
          exact onlyEmpty before piece (after ++ later) (by rw [← List.append_assoc, equal]; simp)
        obtain ⟨rest, written⟩ := scan_onlyEmpty blank filled
        have clean : newline ∉ keptOf pattern (buf ++ chunk) := by
          rw [keptOf]
          split
          · exact nofun
          · exact rest
        rw [goesOn, written, inductionHypothesis _ (size ▸ length_lt_of_chunk nonempty) clean
          (onlyEmpty.suffix kept_suffix) (keptOf_length fits) rfl, List.count_append,
          List.count_eq_zero.mpr start, Nat.zero_add, List.count_append,
          List.replicate_append_replicate]

omit blank

/-! ## Inputs that arrive line by line -/

/-- What `grep` writes of a line that arrives as a whole. -/
def wholeLine (pattern line : List UInt8) : List UInt8 :=
  if newline ∈ line ∧ 0 ∉ line then matchingLine pattern line else []

variable {line body later : List UInt8}

/-- A chunk without a newline is lost. -/
theorem grepLoop_lost (nonempty : p ≠ []) (fits : p.length ≤ 1023) (inside : newline ∉ p) :
    grepLoop pattern (p.length :: arrivals) [] (p ++ later) =
      grepLoop pattern arrivals [] later := by
  have hidden := scan_none pattern (strchr_none inside)
  rw [grepLoop_chunk nonempty fits, keptOf, hidden, if_pos rfl]
  rfl

theorem matchingLine_newline (inside : newline ∉ body) :
    matchingLine pattern (body ++ [newline]) =
      if matchText pattern body then body ++ [newline] else [] := by
  rw [matchingLine, content_append inside]

theorem grepLoop_line (inside : newline ∉ body) (fits : (body ++ [newline]).length ≤ 1023) :
    grepLoop pattern ((body ++ [newline]).length :: arrivals) [] (body ++ [newline] ++ later) =
      wholeLine pattern (body ++ [newline]) ++ grepLoop pattern arrivals [] later := by
  have ends : newline ∈ body ++ [newline] := List.mem_append_right _ (.head _)
  have nonempty : body ++ [newline] ≠ [] := by simp
  rw [grepLoop_chunk nonempty fits]
  by_cases null : 0 ∈ body
  · have hidden := scan_none pattern (strchr_hidden [newline] inside null)
    have nothing : wholeLine pattern (body ++ [newline]) = [] :=
      if_neg fun plain => plain.2 (List.mem_append_left _ null)
    rw [keptOf, hidden, if_pos rfl, nothing]
  · have plain : 0 ∉ body ++ [newline] := by
      rw [List.mem_append, not_or]
      exact ⟨null, by decide⟩
    have ended := @scan_none [] pattern rfl
    have scanned := scan_line pattern [] inside null
    rw [ended, List.append_nil] at scanned
    have kept : keptOf pattern (body ++ [newline]) = [] := by
      rw [keptOf, scanned]
      exact ite_self _
    rw [kept, scanned, wholeLine, if_pos (And.intro ends plain), matchingLine_newline inside]

theorem grepLoop_lines {between : List (List UInt8)}
    (short : ∀ line ∈ between, line.length ≤ 1023)
    (shape : ∀ line ∈ between, (∃ body, newline ∉ body ∧ line = body ++ [newline]) ∨
      (newline ∉ line ∧ line ≠ [])) :
    grepLoop pattern (between.map List.length ++ arrivals) [] (between.flatten ++ later) =
      between.flatMap (wholeLine pattern) ++ grepLoop pattern arrivals [] later := by
  induction between with
  | nil => rfl
  | cons line between inductionHypothesis =>
      have others := inductionHypothesis (fun other member => short other (.tail _ member))
        fun other member => shape other (.tail _ member)
      rw [List.map_cons, List.cons_append, List.flatten_cons, List.append_assoc,
        List.flatMap_cons, List.append_assoc]
      obtain ⟨body, inside, rfl⟩ | ⟨inside, nonempty⟩ := shape line (.head _)
      · rw [grepLoop_line inside (short _ (.head _)), others]
      · have nothing : wholeLine pattern line = [] := if_neg fun ends => inside ends.1
        rw [grepLoop_lost nonempty (short _ (.head _)) inside, others, nothing]
        rfl

/-- All that arrives arrives line by line. -/
theorem grepLoop_all {between : List (List UInt8)}
    (short : ∀ line ∈ between, line.length ≤ 1023)
    (shape : ∀ line ∈ between, (∃ body, newline ∉ body ∧ line = body ++ [newline]) ∨
      (newline ∉ line ∧ line ≠ [])) :
    grepLoop pattern (between.map List.length) [] between.flatten =
      between.flatMap (wholeLine pattern) := by
  have byLine := @grepLoop_lines pattern [] [] between short shape
  rw [grepLoop_end] at byLine
  simpa only [List.append_nil] using byLine

theorem matchingLine_length (pattern line : List UInt8) :
    (matchingLine pattern line).length ≤ line.length := by
  rw [matchingLine]
  split
  · exact Nat.le_refl _
  · exact Nat.zero_le _

theorem wholeLine_length :
    (wholeLine pattern line).length ≤ (matchingLine pattern line).length := by
  rw [wholeLine]
  split
  · exact Nat.le_refl _
  · exact Nat.zero_le _

/-! ## When grep is right -/

/-- Only empty lines match, and no end of another line matches, as far as it has no NUL. -/
def Undisturbed (pattern input : List UInt8) : Prop :=
  (∀ line ∈ lines newline input, matchText pattern (content newline line) = true →
    line = [newline]) ∧
  ∀ line ∈ lines newline input, newline ∈ line → line ≠ [newline] →
    ∀ ending, ending <:+ content newline line → 0 ∉ ending → matchText pattern ending = false

theorem Undisturbed.quiet (undisturbed : Undisturbed pattern input)
    (blank : matchText pattern [] = false) : Quiet pattern input := by
  rintro before piece after rfl inside plain
  obtain ⟨line, member, ends, isEnd⟩ := exists_line before after inside
  by_cases empty : line = [newline]
  · rw [empty] at isEnd
    rw [List.suffix_nil.mp isEnd]
    exact blank
  · exact undisturbed.2 line member ends empty piece isEnd plain

theorem Undisturbed.onlyEmpty (undisturbed : Undisturbed pattern input)
    (blank : matchText pattern [] = true) : OnlyEmpty input := by
  rintro before piece after rfl inside
  obtain ⟨line, member, ends, isEnd⟩ := exists_line before after inside
  by_cases empty : line = [newline]
  · rw [empty] at isEnd
    exact List.suffix_nil.mp isEnd
  · have misses := undisturbed.2 line member ends empty [] List.nil_suffix nofun
    exact absurd (blank.symm.trans misses) nofun

theorem matching_nil (blank : matchText pattern [] = false)
    (undisturbed : Undisturbed pattern input) : matching pattern input = [] := by
  refine List.flatMap_eq_nil_iff.mpr fun line member => if_neg fun matched => ?_
  rw [undisturbed.1 line member matched] at matched
  exact absurd (blank.symm.trans matched) nofun

theorem matching_onlyEmpty (blank : matchText pattern [] = true) (onlyEmpty : OnlyEmpty input)
    (others : ∀ line ∈ lines newline input, matchText pattern (content newline line) = true →
      line = [newline]) :
    matching pattern input = List.replicate (input.count newline) newline := by
  induction input with
  | nil => rfl
  | cons c input inductionHypothesis =>
      obtain inside | ⟨after, equal, later⟩ := onlyEmpty.cases
      · rw [matching, lines_of_notMem inside nofun, List.count_eq_zero.mpr inside]
        refine List.flatMap_eq_nil_iff.mpr fun line member => if_neg fun matched => inside ?_
        rw [← lines_of_notMem inside nofun] at member
        have empty := others line member matched
        rw [lines_of_notMem inside nofun, List.mem_singleton] at member
        rw [← member, empty]
        exact .head _
      · cases equal
        rw [lines_separator] at others
        have rest := inductionHypothesis later fun line member => others line (.tail _ member)
        have first : matchingLine pattern [newline] = [newline] := if_pos blank
        rw [matching] at rest
        rw [matching, lines_separator, List.flatMap_cons, rest, first, List.count_cons_self,
          List.replicate_succ]
        rfl

theorem Undisturbed.grep_eq (undisturbed : Undisturbed pattern input) :
    grep pattern arrivals input = matching pattern input := by
  cases blank : matchText pattern [] with
  | false =>
      rw [matching_nil blank undisturbed]
      exact grepLoop_quiet (undisturbed.quiet blank)
  | true =>
      have onlyEmpty := undisturbed.onlyEmpty blank
      rw [matching_onlyEmpty blank onlyEmpty undisturbed.1]
      exact grepLoop_onlyEmpty blank nofun onlyEmpty (Nat.zero_lt_succ _)

/-! ## When grep is wrong -/

/-- Two ways to write a list of lines, one of which never writes more. -/
theorem eq_of_flatMap_eq {first second : List UInt8 → List UInt8} {between : List (List UInt8)}
    (most : ∀ line, (first line).length ≤ (second line).length)
    (equal : between.flatMap first = between.flatMap second) :
    ∀ line ∈ between, (first line).length = (second line).length := by
  induction between with
  | nil => exact nofun
  | cons line between inductionHypothesis =>
      rw [List.flatMap_cons, List.flatMap_cons] at equal
      have total : ∀ rest : List (List UInt8),
          (rest.flatMap first).length ≤ (rest.flatMap second).length := by
        intro rest
        induction rest with
        | nil => exact Nat.le_refl _
        | cons other rest restHolds =>
            rw [List.flatMap_cons, List.flatMap_cons, List.length_append, List.length_append]
            exact Nat.add_le_add (most other) restHolds
      have sizes := congrArg List.length equal
      rw [List.length_append, List.length_append] at sizes
      have here := most line
      have there := total between
      have same : (first line).length = (second line).length := by omega
      have rest := inductionHypothesis (List.append_inj equal same).2
      intro other member
      obtain rfl | later := List.mem_cons.mp member
      · exact same
      · exact rest other later

section Wrong

variable {between behind : List (List UInt8)}
  (short : ∀ line ∈ lines newline input, (content newline line).length ≤ 1000)
  (right : ∀ arrivals, grep pattern arrivals input = matching pattern input)
include short

theorem length_le_of_mem (member : line ∈ lines newline input) : line.length ≤ 1001 := by
  have most := short line member
  obtain ⟨body, inside, rfl⟩ | ⟨inside, -⟩ := shape_of_mem_lines member
  · rw [content_append inside] at most
    rw [List.length_append]
    exact Nat.succ_le_succ most
  · rw [content_of_notMem inside] at most
    exact Nat.le_succ_of_le most

include right

/-- A line that matches is written when the lines arrive one by one. -/
theorem wholeLine_length_eq :
    ∀ line ∈ lines newline input,
      (wholeLine pattern line).length = (matchingLine pattern line).length := by
  refine eq_of_flatMap_eq (fun line => wholeLine_length) ?_
  have byLine := @grepLoop_all pattern (lines newline input)
    (fun line member => Nat.le_trans (length_le_of_mem short member) (by decide))
    (fun line member => shape_of_mem_lines member)
  rw [flatten_lines] at byLine
  exact byLine.symm.trans (right _)

theorem wholeLine_eq (member : line ∈ lines newline input) :
    wholeLine pattern line = matchingLine pattern line := by
  have same := wholeLine_length_eq short right line member
  by_cases written : newline ∈ line ∧ 0 ∉ line
  · exact if_pos written
  · rw [wholeLine, if_neg written] at same ⊢
    exact (List.length_eq_zero_iff.mp same.symm).symm

/-- A line whose first bytes arrive alone. -/
theorem wholeLine_cut {front rest : List UInt8}
    (member : front ++ rest ++ [newline] ∈ lines newline input)
    (nonempty : front ≠ []) (inside : newline ∉ front ++ rest) :
    wholeLine pattern (rest ++ [newline]) = matchingLine pattern (front ++ rest ++ [newline]) := by
  obtain ⟨between, behind, cut⟩ := List.append_of_mem member
  have fits := length_le_of_mem short member
  rw [List.length_append, List.length_append] at fits
  rw [List.mem_append, not_or] at inside
  have shape (line) (there : line ∈ lines newline input) := shape_of_mem_lines there
  have room (line) (there : line ∈ lines newline input) : line.length ≤ 1023 :=
    Nat.le_trans (length_le_of_mem short there) (by decide)
  have whole (line) (there : line ∈ lines newline input) := wholeLine_eq short right there
  rw [cut] at shape room whole
  have text : between.flatten ++ (front ++ (rest ++ [newline] ++ behind.flatten)) = input := by
    have rejoined := @flatten_lines _ _ newline input
    rw [cut] at rejoined
    rw [← rejoined]
    simp
  have first := @grepLoop_lines pattern
    (front.length :: (rest ++ [newline]).length :: behind.map List.length)
    (front ++ (rest ++ [newline] ++ behind.flatten)) between
    (fun line there => room line (List.mem_append_left _ there))
    (fun line there => shape line (List.mem_append_left _ there))
  have last := @grepLoop_all pattern behind
    (fun line there => room line (List.mem_append_right _ (.tail _ there)))
    (fun line there => shape line (List.mem_append_right _ (.tail _ there)))
  rw [text, grepLoop_lost nonempty (by omega) inside.1,
    grepLoop_line inside.2 (by rw [List.length_append]; omega)] at first
  rw [last] at first
  have all := first.symm.trans (right _)
  rw [matching, cut, List.flatMap_append, List.flatMap_cons,
    List.flatMap_congr (f := wholeLine pattern) (g := matchingLine pattern)
      fun line there => whole line (List.mem_append_left _ there),
    List.flatMap_congr (f := wholeLine pattern) (g := matchingLine pattern)
      fun line there => whole line (List.mem_append_right _ (.tail _ there))] at all
  exact List.append_cancel_right (List.append_cancel_left all)

/-- No end of a line matches: what comes before it may be lost. -/
theorem ending_misses {body ending : List UInt8} (inside : newline ∉ body)
    (member : body ++ [newline] ∈ lines newline input) (notEmpty : body ≠ [])
    (isEnd : ending <:+ body) (plain : 0 ∉ ending) : matchText pattern ending = false := by
  obtain ⟨front, rfl⟩ := isEnd
  by_contra matched
  rw [Bool.not_eq_false] at matched
  rw [List.mem_append, not_or] at inside
  cases front with
  | nil =>
      -- the line itself matches, and its first byte is lost
      cases ending with
      | nil => exact notEmpty rfl
      | cons c rest =>
          have lost := @wholeLine_cut _ _ short right [c] rest member nofun inside.2
          have whole : matchingLine pattern ([c] ++ rest ++ [newline]) =
              [c] ++ rest ++ [newline] :=
            (matchingLine_newline inside.2).trans (if_pos matched)
          have most := Nat.le_trans (@wholeLine_length pattern (rest ++ [newline]))
            (matchingLine_length pattern (rest ++ [newline]))
          rw [lost, whole] at most
          exact absurd most (by simp)
  | cons c front =>
      have lost := wholeLine_cut short right member nofun
        (List.mem_append.not.mpr (not_or.mpr inside))
      have written : newline ∈ ending ++ [newline] ∧ 0 ∉ ending ++ [newline] :=
        ⟨List.mem_append_right _ (.head _), List.mem_append.not.mpr (not_or.mpr ⟨plain, by decide⟩)⟩
      rw [wholeLine, if_pos written, matchingLine_newline inside.2, if_pos matched, matchingLine]
        at lost
      split at lost
      · have sizes := congrArg List.length lost
        simp only [List.length_append, List.length_cons] at sizes
        omega
      · exact absurd lost (by simp)

theorem undisturbed_of_right : Undisturbed pattern input := by
  have others : ∀ line ∈ lines newline input, newline ∈ line → line ≠ [newline] →
      ∀ ending, ending <:+ content newline line → 0 ∉ ending →
        matchText pattern ending = false := by
    intro line member ends notEmpty ending isEnd plain
    obtain ⟨body, inside, rfl⟩ | ⟨inside, -⟩ := shape_of_mem_lines member
    · rw [content_append inside] at isEnd
      exact ending_misses short right inside member (fun empty => notEmpty (by rw [empty]; rfl))
        isEnd plain
    · exact absurd ends inside
  refine ⟨fun line member matched => ?_, others⟩
  have whole := wholeLine_eq short right member
  rw [matchingLine, if_pos matched] at whole
  have written : newline ∈ line ∧ 0 ∉ line := by
    by_contra unwritten
    rw [wholeLine, if_neg unwritten] at whole
    rw [← whole] at member
    obtain ⟨body, -, equal⟩ | ⟨-, nonempty⟩ := shape_of_mem_lines member
    · exact absurd equal (by simp)
    · exact nonempty rfl
  by_contra notEmpty
  have misses := others line member written.1 notEmpty _ (List.suffix_refl _)
    fun zero => written.2 ((List.takeWhile_sublist _).mem zero)
  exact absurd (matched.symm.trans misses) nofun

end Wrong

/-- `grep` writes the lines that match, however its input arrives, if and only if no line but
an empty one matches and no end of such a line does. -/
theorem grep_right_iff (pattern input : List UInt8)
    (short : ∀ line ∈ lines newline input, (content newline line).length ≤ 1000) :
    (∀ arrivals, grep pattern arrivals input = matching pattern input) ↔
      Undisturbed pattern input :=
  ⟨undisturbed_of_right short, fun undisturbed _ => undisturbed.grep_eq⟩

/-- `a` is not found in the line `b`. -/
theorem grep_right_iff_misses :
    (∀ line ∈ lines newline [98, 10], (content newline line).length ≤ 1000) ∧
      ((∀ arrivals, grep [97] arrivals [98, 10] = matching [97] [98, 10]) ↔
        Undisturbed [97] [98, 10]) :=
  have short : ∀ line ∈ lines newline [98, 10], (content newline line).length ≤ 1000 := by decide
  ⟨short, grep_right_iff [97] [98, 10] short⟩

/-- The line `ab` matches `a`. It is lost when its first byte arrives alone. -/
theorem grep_loses :
    ∃ pattern input early late, (∀ line ∈ lines newline input,
        (content newline line).length ≤ 1000) ∧
      grep pattern early input = matching pattern input ∧
      grep pattern early input ≠ grep pattern late input := by
  have found : matchText [97] [97, 98] = true := by
    simp [matchText, matchLoop, matchhere, charAt, caret, asterisk, dollar]
  have missed : matchText [97] [98] = false := by
    simp [matchText, matchLoop, matchhere, charAt, caret, asterisk, dollar, dot]
  have early : grep [97] [3] [97, 98, 10] = [97, 98, 10] := by
    have line := @grepLoop_line [97] [] [97, 98] [] (by decide) (by decide)
    rw [grepLoop_end, wholeLine, if_pos (by decide), matchingLine_newline (by decide),
      if_pos found] at line
    exact line
  have late : grep [97] [1, 2] [97, 98, 10] = [] := by
    have line := @grepLoop_line [97] [] [98] [] (by decide) (by decide)
    rw [grepLoop_end, wholeLine, if_pos (by decide), matchingLine_newline (by decide),
      if_neg (by rw [missed]; decide)] at line
    have lost := @grepLoop_lost [97] [97] [2] [98, 10] (by decide) (by decide) (by decide)
    exact lost.trans line
  have lines : matching [97] [97, 98, 10] = [97, 98, 10] := by
    have whole := @matchingLine_newline [97] [97, 98] (by decide)
    rw [if_pos found] at whole
    rw [matching, show lines newline [97, 98, 10] = [[97, 98] ++ [newline]] by decide,
      List.flatMap_singleton, whole]
    rfl
  refine ⟨[97], [97, 98, 10], [3], [1, 2], by decide, early.trans lines.symm, ?_⟩
  rw [early, late]
  decide

end Xv6.Grep
