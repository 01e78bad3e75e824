import Mathlib.Data.List.DropRight
import Mathlib.Data.List.TakeWhile
import Xv6.Library.Action
import Xv6.Library.Memory

/-!
# Tokens of the shell

`peek` and `gettoken` in `sh.c`, which share the cursor `*ps` into the line, and
the tokens of a text.
-/

namespace Xv6.Shell

open Xv6.Library

def ascii (c : Char) : UInt8 := c.val.toUInt8

/-- `" \t\r\n\v"` -/
def whitespace : List UInt8 := [32, 9, 13, 10, 11]
/-- `"<|>&;()"` -/
def symbols : List UInt8 := [ '<', '|', '>', '&', ';', '(', ')'].map ascii

def isWhite (c : UInt8) : Bool := decide (c ∈ whitespace)
def isPlain (c : UInt8) : Bool := decide (c ∉ whitespace) && decide (c ∉ symbols)

/-! ## The source -/

section Model

variable (memory : Memory) (es : Nat)

/-- The `switch` of `gettoken`: what it returns, and where the token ends. -/
def switch (s : Nat) : UInt8 × Nat :=
  let c := memory s
  if c = 0 then (c, s)
  else if c ∈ [ '|', '(', ')', ';', '&', '<'].map ascii then (c, s + 1)
  else if c = ascii '>' then
    if memory (s + 1) = ascii '>' then (ascii '+', s + 2) else (c, s + 1)
  else (ascii 'a', memory.scan isPlain (es - s) s)

/-- It returns the kind of the token, with its start `q` and its end `eq`. -/
def gettoken : Library.Action Nat (UInt8 × Nat × Nat) := do
  let s ← Action.get id
  let q := memory.scan isWhite (es - s) s
  let (ret, eq) := switch memory es q
  Action.modify fun _ => memory.scan isWhite (es - eq) eq
  return (ret, q, eq)

def peek (toks : List UInt8) : Library.Action Nat Bool := do
  let s ← Action.get id
  let s := memory.scan isWhite (es - s) s
  Action.modify fun _ => s
  return decide (memory s ≠ 0) && decide (memory s ∈ toks)

end Model

/-! ## The tokens of a text -/

inductive Token where
  | less
  | bar
  | greater
  | append
  | amp
  | semi
  | left
  | right
  | word (text : List UInt8)
  deriving DecidableEq

/-- What `gettoken` returns for the token. -/
def Token.code : Token → UInt8
  | less => ascii '<'
  | bar => ascii '|'
  | greater => ascii '>'
  | append => ascii '+'
  | amp => ascii '&'
  | semi => ascii ';'
  | left => ascii '('
  | right => ascii ')'
  | word _ => ascii 'a'

/-- The symbol that the token begins with. -/
def Token.lead : Token → Option UInt8
  | append => some (ascii '>')
  | word _ => none
  | token => some token.code

/-- The token that a symbol is on its own. -/
def single (c : UInt8) : Option Token :=
  [Token.less, .bar, .greater, .amp, .semi, .left, .right].find? fun token => token.code = c

/-- The token at the front of a text, and the text after it. -/
def next : List UInt8 → Option (Token × List UInt8)
  | [] => none
  | c :: rest =>
      if c = ascii '>' ∧ rest.head? = some (ascii '>') then some (.append, rest.tail)
      else
        match single c with
        | some token => some (token, rest)
        | none => some (.word (c :: rest.takeWhile isPlain), rest.dropWhile isPlain)

theorem next_shorter {text rest : List UInt8} {token : Token}
    (found : next text = some (token, rest)) : rest.length < text.length := by
  cases text with
  | nil => cases found
  | cons c text =>
      rw [next] at found
      split at found
      · cases found
        rw [List.length_tail, List.length_cons]
        omega
      · split at found <;> cases found
        · exact Nat.lt_succ_self _
        · exact Nat.lt_succ_of_le (List.dropWhile_suffix isPlain).length_le

/-- The token sequence of a text. -/
def tokens (text : List UInt8) : List Token :=
  match _found : next (text.dropWhile isWhite) with
  | none => []
  | some (token, rest) => token :: tokens rest
termination_by text.length
decreasing_by
  exact Nat.lt_of_lt_of_le (next_shorter _found) (List.dropWhile_suffix isWhite).length_le

theorem tokens_of_next {text rest : List UInt8} {token : Token}
    (found : next (text.dropWhile isWhite) = some (token, rest)) :
    tokens text = token :: tokens rest := by
  rw [tokens]
  split
  · next none => cases none.symm.trans found
  · next some => cases some.symm.trans found; rfl

theorem tokens_of_white {text : List UInt8} (white : text.dropWhile isWhite = []) :
    tokens text = [] := by
  rw [tokens]
  split
  · rfl
  · next some =>
      rw [white] at some
      cases some

theorem tokens_dropWhile (text : List UInt8) : tokens (text.dropWhile isWhite) = tokens text := by
  cases found : next (text.dropWhile isWhite) with
  | none =>
      have white : text.dropWhile isWhite = [] := by
        cases shape : text.dropWhile isWhite with
        | nil => rfl
        | cons c rest =>
            rw [shape, next] at found
            split at found
            · cases found
            · split at found <;> cases found
      rw [white, tokens_of_white white]
      exact tokens_of_white rfl
  | some pair =>
      rw [tokens_of_next found, tokens_of_next]
      rw [List.dropWhile_idempotent]
      exact found

theorem single_eq_none {c : UInt8} (other : c ∉ symbols) : single c = none := by
  rw [single, List.find?_eq_none]
  intro token member
  simp only [List.mem_cons, List.not_mem_nil, or_false] at member
  rw [decide_eq_true_iff]
  rintro rfl
  rcases member with rfl | rfl | rfl | rfl | rfl | rfl | rfl <;> exact other (by decide)

theorem single_of_symbol {c : UInt8} (symbol : c ∈ symbols) :
    ∃ token, single c = some token ∧ token.code = c ∧ token.lead = some c ∧
      ∀ text, token ≠ .word text := by
  simp only [symbols, List.map_cons, List.map_nil, List.mem_cons, List.not_mem_nil,
    or_false] at symbol
  rcases symbol with rfl | rfl | rfl | rfl | rfl | rfl | rfl
  · exact ⟨.less, by decide, rfl, rfl, fun _ => nofun⟩
  · exact ⟨.bar, by decide, rfl, rfl, fun _ => nofun⟩
  · exact ⟨.greater, by decide, rfl, rfl, fun _ => nofun⟩
  · exact ⟨.amp, by decide, rfl, rfl, fun _ => nofun⟩
  · exact ⟨.semi, by decide, rfl, rfl, fun _ => nofun⟩
  · exact ⟨.left, by decide, rfl, rfl, fun _ => nofun⟩
  · exact ⟨.right, by decide, rfl, rfl, fun _ => nofun⟩

/-! ## The cursor -/

section Cursor

variable {memory : Memory} {es s : Nat} {ts : List Token}

/-- At `s` in a line that ends at `es`, what is left are these tokens. -/
structure At (memory : Memory) (es s : Nat) (ts : List Token) : Prop where
  inside : s ≤ es
  ends : memory es = 0
  free : 0 ∉ memory.read s (es - s)
  remain : tokens (memory.read s (es - s)) = ts

/-- `q` and `eq` are the start and the end of a word. -/
structure Spans (memory : Memory) (es q eq : Nat) (text : List UInt8) : Prop where
  start : q < eq
  inside : eq ≤ es
  reads : memory.read q (eq - q) = text
  plain : ∀ c ∈ text, isPlain c
  free : 0 ∉ text
  stops : eq = es ∨ ¬isPlain (memory eq)

/-- A loop `while(s < es && test(*s)) s++`. -/
theorem scan_line (memory : Memory) (inside : s ≤ es) (test : UInt8 → Bool) :
    s ≤ memory.scan test (es - s) s ∧ memory.scan test (es - s) s ≤ es ∧
      memory.read s (memory.scan test (es - s) s - s) =
        (memory.read s (es - s)).takeWhile test ∧
      memory.read (memory.scan test (es - s) s) (es - memory.scan test (es - s) s) =
        (memory.read s (es - s)).dropWhile test := by
  obtain ⟨passed, within, stops, taken, rest⟩ := memory.read_scan test (es - s) s
  rw [stops]
  refine ⟨by omega, by omega, ?_, ?_⟩
  · rw [Nat.add_sub_cancel_left]
    exact taken
  · rw [← rest, Nat.sub_sub]

/-- The first byte of what is left. -/
theorem read_line (memory : Memory) (inside : s < es) :
    memory.read s (es - s) = memory s :: memory.read (s + 1) (es - (s + 1)) := by
  rw [← Memory.read_succ, show es - (s + 1) + 1 = es - s by omega]

/-- The loop ends at the end of the line, or at a byte that fails the test. -/
theorem scan_stops (memory : Memory) (inside : s ≤ es) (test : UInt8 → Bool) :
    memory.scan test (es - s) s = es ∨
      memory.scan test (es - s) s < es ∧ ¬test (memory (memory.scan test (es - s) s)) := by
  obtain ⟨-, within, -, rest⟩ := scan_line memory inside test
  obtain same | before := Nat.eq_or_lt_of_le within
  · exact Or.inl same
  · refine Or.inr ⟨before, ?_⟩
    rw [read_line memory before] at rest
    have first := List.head?_dropWhile_not test (memory.read s (es - s))
    rw [← rest] at first
    simpa using first

/-- White space has no tokens. -/
theorem At.skip (here : At memory es s ts) :
    At memory es (memory.scan isWhite (es - s) s) ts := by
  obtain ⟨-, within, -, rest⟩ := scan_line memory here.inside isWhite
  refine ⟨within, here.ends, ?_, ?_⟩
  · rw [rest]
    exact fun zero => here.free ((List.dropWhile_suffix isWhite).subset zero)
  · rw [rest, tokens_dropWhile]
    exact here.remain

theorem At.read (here : At memory es s ts) (inside : s < es) :
    memory s ≠ 0 ∧ 0 ∉ memory.read (s + 1) (es - (s + 1)) := by
  have free := here.free
  rw [read_line memory inside, List.mem_cons, not_or] at free
  exact ⟨Ne.symm free.1, free.2⟩

/-- Behind the token at `s`. -/
theorem At.advance (here : At memory es s ts) (black : ¬isWhite (memory s)) {eq : Nat}
    (token : Token) (after : s < eq) (inside : eq ≤ es)
    (found : next (memory.read s (es - s)) = some (token, memory.read eq (es - eq))) :
    ∃ rest, ts = token :: rest ∧ At memory es eq rest := by
  refine ⟨tokens (memory.read eq (es - eq)), ?_, inside, here.ends, ?_, rfl⟩
  · rw [← here.remain]
    apply tokens_of_next
    rw [read_line memory (by omega), List.dropWhile_cons_of_neg black, ← read_line memory (by omega)]
    exact found
  · have split := memory.read_append s (eq - s) (es - eq)
    rw [show eq - s + (es - eq) = es - s by omega, show s + (eq - s) = eq by omega] at split
    have free := here.free
    rw [split, List.mem_append, not_or] at free
    exact free.2

theorem first_of_read {count : Nat} {c : UInt8} (first : (memory.read s count).head? = some c) :
    memory s = c := by
  cases count with
  | zero => cases first
  | succ count =>
      rw [Memory.read_succ] at first
      exact Option.some.inj first

/-- The `switch` of `gettoken` finds the next token. -/
theorem At.switches (here : At memory es s ts) (inside : s < es) (black : ¬isWhite (memory s)) :
    ∃ token rest eq, ts = token :: rest ∧ switch memory es s = (token.code, eq) ∧
      At memory es eq rest ∧ (∀ text, token = .word text → Spans memory es s eq text) ∧
      token.lead = if memory s ∈ symbols then some (memory s) else none := by
  obtain ⟨nonzero, free⟩ := here.read inside
  have front := read_line memory inside
  rw [switch, if_neg nonzero]
  by_cases symbol : memory s ∈ symbols
  · rw [if_pos symbol]
    obtain ⟨token, alone, code, lead, notWord⟩ := single_of_symbol symbol
    by_cases greater : memory s = ascii '>'
    · rw [if_neg (show memory s ∉ _ by rw [greater]; decide), if_pos greater]
      by_cases double : memory (s + 1) = ascii '>'
      · rw [if_pos double]
        have room : s + 1 < es := by
          obtain same | before := Nat.eq_or_lt_of_le (show s + 1 ≤ es from inside)
          · rw [same, here.ends] at double
            cases double
          · exact before
        obtain ⟨rest, rfl, later⟩ := here.advance black .append
          (show s < s + 2 by omega) room (by
            rw [front, read_line memory room, next, if_pos ⟨greater, congrArg some double⟩]
            rfl)
        exact ⟨.append, rest, s + 2, rfl, rfl, later, fun _ => nofun, by rw [greater]; rfl⟩
      · rw [if_neg double]
        obtain ⟨rest, rfl, later⟩ := here.advance black token
          (Nat.lt_succ_self s) inside (by
            rw [front, next, alone, if_neg]
            exact fun both => double (first_of_read both.2))
        exact ⟨token, rest, s + 1, rfl, by rw [code], later,
          fun text word => absurd word (notWord text), lead⟩
    · have six : memory s ∈ [ '|', '(', ')', ';', '&', '<'].map ascii := by
        simp only [symbols, List.map_cons, List.map_nil, List.mem_cons, List.not_mem_nil,
          or_false] at symbol ⊢
        tauto
      rw [if_pos six]
      obtain ⟨rest, rfl, later⟩ := here.advance black token
        (Nat.lt_succ_self s) inside (by
          rw [front, next, alone, if_neg fun both => greater both.1])
      exact ⟨token, rest, s + 1, rfl, by rw [code], later,
        fun text word => absurd word (notWord text), lead⟩
  · rw [if_neg symbol]
    have none : memory s ∉ [ '|', '(', ')', ';', '&', '<'].map ascii := by
      intro member
      apply symbol
      simp only [symbols, List.map_cons, List.map_nil, List.mem_cons, List.not_mem_nil,
        or_false] at member ⊢
      tauto
    have other : memory s ≠ ascii '>' := by
      intro greater
      rw [greater] at symbol
      exact symbol (by decide)
    have plain : isPlain (memory s) := by
      simpa [isPlain, isWhite, symbol] using black
    rw [if_neg none, if_neg other]
    obtain ⟨after, within, taken, left⟩ := scan_line memory (Nat.le_of_lt inside) isPlain
    rw [front, List.takeWhile_cons_of_pos plain] at taken
    rw [front, List.dropWhile_cons_of_pos plain] at left
    have longer : s < memory.scan isPlain (es - s) s := by
      obtain same | before := Nat.eq_or_lt_of_le after
      · rw [← same, Nat.sub_self] at taken
        cases taken
      · exact before
    obtain ⟨rest, rfl, later⟩ := here.advance black _ longer within (by
      rw [front, next, if_neg fun both => other both.1, single_eq_none symbol, left])
    refine ⟨_, rest, _, rfl, rfl, later, ?_, rfl⟩
    intro text word
    cases word
    refine ⟨longer, within, taken, ?_, ?_, ?_⟩
    · intro c member
      obtain rfl | member := List.mem_cons.mp member
      · exact plain
      · exact List.mem_takeWhile_imp member
    · rw [List.mem_cons, not_or]
      exact ⟨Ne.symm nonzero, fun zero => free ((List.takeWhile_sublist isPlain).subset zero)⟩
    · exact (scan_stops memory (Nat.le_of_lt inside) isPlain).imp_right And.right

theorem gettoken_run (memory : Memory) (es s : Nat) :
    gettoken memory es s =
      .done ((switch memory es (memory.scan isWhite (es - s) s)).1,
          memory.scan isWhite (es - s) s,
          (switch memory es (memory.scan isWhite (es - s) s)).2)
        (memory.scan isWhite (es - (switch memory es (memory.scan isWhite (es - s) s)).2)
          (switch memory es (memory.scan isWhite (es - s) s)).2) := rfl

/-- The cursor is at the end of the line or at the next token. -/
theorem At.cases (here : At memory es s ts) :
    memory.scan isWhite (es - s) s = es ∧ ts = [] ∨
      ∃ token rest eq, ts = token :: rest ∧
        switch memory es (memory.scan isWhite (es - s) s) = (token.code, eq) ∧
        At memory es eq rest ∧
        (∀ text, token = .word text → Spans memory es (memory.scan isWhite (es - s) s) eq text) ∧
        memory (memory.scan isWhite (es - s) s) ≠ 0 ∧
        token.lead = if memory (memory.scan isWhite (es - s) s) ∈ symbols then
          some (memory (memory.scan isWhite (es - s) s)) else none := by
  have skipped := here.skip
  obtain last | ⟨before, black⟩ := scan_stops memory here.inside isWhite
  · refine Or.inl ⟨last, ?_⟩
    rw [← skipped.remain, last, Nat.sub_self]
    exact tokens_of_white rfl
  · obtain ⟨token, rest, eq, shape, found, later, spans, lead⟩ := skipped.switches before black
    exact Or.inr ⟨token, rest, eq, shape, found, later, spans, (skipped.read before).1, lead⟩

theorem At.takes_none (here : At memory es s []) :
    ∃ q later, gettoken memory es s = .done (0, q, q) later ∧ At memory es later [] := by
  obtain ⟨last, -⟩ | ⟨token, rest, eq, shape, -⟩ := here.cases
  · have skipped := here.skip
    rw [gettoken_run]
    rw [last] at skipped ⊢
    have stays : switch memory es es = (0, es) := by
      rw [switch, here.ends, if_pos rfl]
    refine ⟨es, es, ?_, skipped⟩
    rw [stays, Nat.sub_self]
    rfl
  · cases shape

/-- `gettoken` takes the next token. -/
theorem At.takes {token : Token} (here : At memory es s (token :: ts)) :
    ∃ q eq later, gettoken memory es s = .done (token.code, q, eq) later ∧
      At memory es later ts ∧ ∀ text, token = .word text → Spans memory es q eq text := by
  obtain ⟨-, none⟩ | ⟨_, _, eq, shape, found, later, spans, -⟩ := here.cases
  · cases none
  · cases shape
    refine ⟨_, eq, _, ?_, later.skip, spans⟩
    rw [gettoken_run, found]

/-- Whether the next token begins with one of the symbols. -/
def starts (toks : List UInt8) : List Token → Bool
  | [] => false
  | token :: _ => token.lead.any fun c => decide (c ∈ toks)

/-- `peek` tells of symbols only. -/
theorem At.peeks (here : At memory es s ts) (toks : List UInt8) (marks : toks ⊆ symbols) :
    ∃ later, peek memory es toks s = .done (starts toks ts) later ∧ At memory es later ts := by
  refine ⟨memory.scan isWhite (es - s) s, ?_, here.skip⟩
  have ran : peek memory es toks s =
      .done (decide (memory (memory.scan isWhite (es - s) s) ≠ 0) &&
          decide (memory (memory.scan isWhite (es - s) s) ∈ toks))
        (memory.scan isWhite (es - s) s) := rfl
  rw [ran]
  congr 1
  obtain ⟨last, rfl⟩ | ⟨token, rest, eq, rfl, -, -, -, nonzero, lead⟩ := here.cases
  · rw [last, here.ends]
    rfl
  · rw [starts, lead, decide_eq_true nonzero, Bool.true_and]
    split
    · rfl
    · next plain => exact decide_eq_false fun member => plain (marks member)

end Cursor

end Xv6.Shell
