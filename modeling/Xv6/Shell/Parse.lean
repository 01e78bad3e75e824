import Mathlib.Logic.Function.Basic
import Xv6.Shell.Token

/-!
# Parsing a command line

`parsecmd` in `sh.c` and the functions under it, as far as `nulterminate`.
-/

namespace Xv6.Shell

open Xv6.Library

/-- MAXARGS -/
def maxargs : Nat := 10

/-- `O_RDONLY`, `O_WRONLY` and `O_CREATE` in `fcntl.h`. -/
def oRdonly : Nat := 0x000
def oWronly : Nat := 0x001
def oCreate : Nat := 0x200

/-- The structs that begin with a `type`. A pointer into the line is its address, or null. -/
inductive Cmd where
  | exec (argv eargv : Fin maxargs → Option Nat)
  | redir (cmd : Cmd) (file efile mode fd : Nat)
  | pipe (left right : Cmd)
  | list (left right : Cmd)
  | back (cmd : Cmd)

/-- Change argument `i` of the simple command below the redirections. -/
def Cmd.setArg (i : Fin maxargs) (q eq : Option Nat) : Cmd → Cmd
  | exec argv eargv => exec (Function.update argv i q) (Function.update eargv i eq)
  | redir cmd file efile mode fd => redir (cmd.setArg i q eq) file efile mode fd
  | other => other

/-! ## The source -/

section Model

variable (memory : Memory) (es : Nat)

def execcmd : Cmd := .exec (fun _ => none) (fun _ => none)

/-- `cmd->argv[argc] = q; cmd->eargv[argc] = eq;` where `cmd` is in `ret`, with or without
redirections around it. The program may not come to an index out of the arrays. -/
def storeArg (ret : Cmd) (argc : Nat) (q eq : Option Nat) : Action Nat Cmd :=
  if inside : argc < maxargs then pure (ret.setArg ⟨argc, inside⟩ q eq) else Action.never

/-- Loops and recursion end with the fuel. -/
def parseredirs : Nat → Cmd → Action Nat Cmd
  | 0, _ => Action.never
  | fuel + 1, cmd => do
      if ← peek memory es ([ '<', '>'].map ascii) then
        let (tok, _, _) ← gettoken memory es
        let (kind, q, eq) ← gettoken memory es
        if kind ≠ ascii 'a' then Action.panic "missing file for redirection"
        else if tok = ascii '<' then parseredirs fuel (.redir cmd q eq oRdonly 0)
        else if tok = ascii '>' then parseredirs fuel (.redir cmd q eq (oWronly ||| oCreate) 1)
        else if tok = ascii '+' then parseredirs fuel (.redir cmd q eq (oWronly ||| oCreate) 1)
        else parseredirs fuel cmd
      else return cmd

/-- The loop of `parseexec`, and what follows it. -/
def parseargs : Nat → Cmd → Nat → Action Nat Cmd
  | 0, _, _ => Action.never
  | fuel + 1, ret, argc => do
      if ← peek memory es ([ '|', ')', '&', ';'].map ascii) then storeArg ret argc none none
      else
        let (tok, q, eq) ← gettoken memory es
        if tok = 0 then storeArg ret argc none none
        else if tok ≠ ascii 'a' then Action.panic "syntax"
        else
          let ret ← storeArg ret argc (some q) (some eq)
          let argc := argc + 1
          if argc ≥ maxargs then Action.panic "too many args"
          else
            let ret ← parseredirs memory es fuel ret
            parseargs fuel ret argc

/-- The loop of `parseline`. -/
def parsebacks : Nat → Cmd → Action Nat Cmd
  | 0, _ => Action.never
  | fuel + 1, cmd => do
      if ← peek memory es ([ '&'].map ascii) then
        let _ ← gettoken memory es
        parsebacks fuel (.back cmd)
      else return cmd

mutual

def parseline : Nat → Action Nat Cmd
  | 0 => Action.never
  | fuel + 1 => do
      let cmd ← parsepipe fuel
      let cmd ← parsebacks memory es fuel cmd
      if ← peek memory es ([ ';'].map ascii) then
        let _ ← gettoken memory es
        let right ← parseline fuel
        return .list cmd right
      else return cmd

def parsepipe : Nat → Action Nat Cmd
  | 0 => Action.never
  | fuel + 1 => do
      let cmd ← parseexec fuel
      if ← peek memory es ([ '|'].map ascii) then
        let _ ← gettoken memory es
        let right ← parsepipe fuel
        return .pipe cmd right
      else return cmd

def parseblock : Nat → Action Nat Cmd
  | 0 => Action.never
  | fuel + 1 => do
      if ← peek memory es ([ '('].map ascii) then
        let _ ← gettoken memory es
        let cmd ← parseline fuel
        if ← peek memory es ([ ')'].map ascii) then
          let _ ← gettoken memory es
          parseredirs memory es fuel cmd
        else Action.panic "syntax - missing )"
      else Action.panic "parseblock"

def parseexec : Nat → Action Nat Cmd
  | 0 => Action.never
  | fuel + 1 => do
      if ← peek memory es ([ '('].map ascii) then parseblock fuel
      else
        let ret ← parseredirs memory es fuel execcmd
        parseargs memory es fuel ret 0

end

end Model

/-! ## The grammar -/

inductive Tree where
  | exec (words : List (List UInt8))
  | redir (cmd : Tree) (file : List UInt8) (mode fd : Nat)
  | pipe (left right : Tree)
  | list (left right : Tree)
  | back (cmd : Tree)

structure Redirection where
  file : List UInt8
  mode : Nat
  fd : Nat

def Tree.redirect (tree : Tree) (redirs : List Redirection) : Tree :=
  redirs.foldl (fun tree redir => .redir tree redir.file redir.mode redir.fd) tree

def Tree.backs (tree : Tree) : Nat → Tree
  | 0 => tree
  | n + 1 => (Tree.back tree).backs n

/-- How to open the file after the token, and as which descriptor. -/
def Token.redirection : Token → Option (Nat × Nat)
  | less => some (oRdonly, 0)
  | greater => some (oWronly ||| oCreate, 1)
  | append => some (oWronly ||| oCreate, 1)
  | _ => none

/-- `{redir}` -/
inductive IsRedirs : List Token → List Redirection → Prop
  | nil : IsRedirs [] []
  | cons {op : Token} {mode fd : Nat} {file : List UInt8} {ts : List Token}
      {redirs : List Redirection} : op.redirection = some (mode, fd) → IsRedirs ts redirs →
      IsRedirs (op :: .word file :: ts) (⟨file, mode, fd⟩ :: redirs)

/-- `{word {redir}}` -/
inductive IsArgs : List Token → List (List UInt8) → List Redirection → Prop
  | nil : IsArgs [] [] []
  | cons {word : List UInt8} {first rest : List Token} {redirs more : List Redirection}
      {words : List (List UInt8)} : IsRedirs first redirs → IsArgs rest words more →
      IsArgs (.word word :: (first ++ rest)) (word :: words) (redirs ++ more)

mutual

/-- `line := pipe {'&'} [';' line]` -/
inductive IsLine : List Token → Tree → Prop
  | last {ts : List Token} {tree : Tree} (n : Nat) : IsPipe ts tree →
      IsLine (ts ++ List.replicate n .amp) (tree.backs n)
  | more {ts rest : List Token} {tree right : Tree} (n : Nat) : IsPipe ts tree →
      IsLine rest right →
      IsLine (ts ++ (List.replicate n .amp ++ .semi :: rest)) (.list (tree.backs n) right)

/-- `pipe := cmd ['|' pipe]` -/
inductive IsPipe : List Token → Tree → Prop
  | last {ts : List Token} {tree : Tree} : IsCmd ts tree → IsPipe ts tree
  | more {ts rest : List Token} {tree right : Tree} : IsCmd ts tree → IsPipe rest right →
      IsPipe (ts ++ .bar :: rest) (.pipe tree right)

/-- `cmd := '(' line ')' {redir} | {redir} {word {redir}}`, with at most 9 words -/
inductive IsCmd : List Token → Tree → Prop
  | block {ts rest : List Token} {tree : Tree} {redirs : List Redirection} : IsLine ts tree →
      IsRedirs rest redirs → IsCmd (.left :: (ts ++ .right :: rest)) (tree.redirect redirs)
  | simple {first rest : List Token} {redirs more : List Redirection}
      {words : List (List UInt8)} : IsRedirs first redirs → IsArgs rest words more →
      words.length ≤ 9 →
      IsCmd (first ++ rest) ((Tree.exec words).redirect (redirs ++ more))

end

/-! ## What was parsed -/

/-- The command is the tree, where a word is given by its start and its end. -/
inductive Cmd.Reads (isText : Nat → Nat → List UInt8 → Prop) : Cmd → Tree → Prop
  | exec {argv eargv : Fin maxargs → Option Nat} {words : List (List UInt8)} :
      words.length < maxargs →
      (∀ (i : Fin maxargs) (word : List UInt8), words[i.val]? = some word →
        ∃ q eq, argv i = some q ∧ eargv i = some eq ∧ isText q eq word) →
      (∀ i : Fin maxargs, words[i.val]? = none → argv i = none) →
      Reads isText (.exec argv eargv) (.exec words)
  | redir {cmd : Cmd} {tree : Tree} {file efile mode fd : Nat} {text : List UInt8} :
      Reads isText cmd tree → isText file efile text →
      Reads isText (.redir cmd file efile mode fd) (.redir tree text mode fd)
  | pipe {left right : Cmd} {first second : Tree} : Reads isText left first →
      Reads isText right second → Reads isText (.pipe left right) (.pipe first second)
  | list {left right : Cmd} {first second : Tree} : Reads isText left first →
      Reads isText right second → Reads isText (.list left right) (.list first second)
  | back {cmd : Cmd} {tree : Tree} : Reads isText cmd tree → Reads isText (.back cmd) (.back tree)

section Reads

variable {isText : Nat → Nat → List UInt8 → Prop} {cmd : Cmd} {tree : Tree}
  {words : List (List UInt8)} {redirs : List Redirection}

theorem Tree.redirect_append (more : List Redirection) :
    tree.redirect (redirs ++ more) = (tree.redirect redirs).redirect more :=
  List.foldl_append ..

theorem reads_execcmd : execcmd.Reads isText (.exec []) :=
  .exec (by decide) (fun _ _ => nofun) fun _ _ => rfl

/-- A change of the simple command below the redirections. -/
theorem Cmd.Reads.setArg {i : Fin maxargs} {q eq : Option Nat} {changed : List (List UInt8)}
    (reads : cmd.Reads isText ((Tree.exec words).redirect redirs))
    (change : ∀ argv eargv, (Cmd.exec argv eargv).Reads isText (.exec words) →
      ((Cmd.exec argv eargv).setArg i q eq).Reads isText (.exec changed)) :
    (cmd.setArg i q eq).Reads isText ((Tree.exec changed).redirect redirs) := by
  induction redirs using List.reverseRecOn generalizing cmd with
  | nil =>
      cases reads with
      | exec short inside outside => exact change _ _ (.exec short inside outside)
  | append_singleton redirs last inductionHypothesis =>
      rw [Tree.redirect_append] at reads ⊢
      cases reads with
      | redir reads text => exact .redir (inductionHypothesis reads) text

theorem Cmd.Reads.addArg {q eq : Nat} {word : List UInt8}
    (reads : cmd.Reads isText ((Tree.exec words).redirect redirs))
    (room : words.length + 1 < maxargs) (text : isText q eq word) :
    (cmd.setArg ⟨words.length, Nat.lt_of_succ_lt room⟩ (some q) (some eq)).Reads isText
      ((Tree.exec (words ++ [word])).redirect redirs) := by
  apply reads.setArg
  intro argv eargv reads
  cases reads with
  | exec short inside outside =>
      refine .exec ?_ ?_ ?_
      · rw [List.length_append]
        exact room
      · intro i found held
        by_cases last : i = ⟨words.length, Nat.lt_of_succ_lt room⟩
        · subst last
          rw [List.getElem?_concat_length] at held
          cases held
          exact ⟨q, eq, Function.update_self .., Function.update_self .., text⟩
        · have other : i.val ≠ words.length := fun same => last (Fin.ext same)
          have bound := (List.getElem?_eq_some_iff.mp held).1
          rw [List.length_append, List.length_singleton] at bound
          rw [List.getElem?_append_left (by omega)] at held
          obtain ⟨start, stop, first, second, reads⟩ := inside i found held
          exact ⟨start, stop, (Function.update_of_ne last ..).trans first,
            (Function.update_of_ne last ..).trans second, reads⟩
      · intro i none
        rw [List.getElem?_eq_none_iff, List.length_append, List.length_singleton] at none
        rw [Function.update_of_ne]
        · exact outside i (List.getElem?_eq_none (by omega))
        · rintro rfl
          exact absurd none (by simp)

/-- The null after the last argument. -/
theorem Cmd.Reads.endArgs (reads : cmd.Reads isText ((Tree.exec words).redirect redirs))
    (room : words.length < maxargs) :
    (cmd.setArg ⟨words.length, room⟩ none none).Reads isText
      ((Tree.exec words).redirect redirs) := by
  apply reads.setArg
  intro argv eargv reads
  cases reads with
  | exec short inside outside =>
      refine .exec short ?_ ?_
      · intro i word held
        have different : i ≠ ⟨words.length, room⟩ := by
          rintro rfl
          rw [List.getElem?_eq_none (Nat.le_refl _)] at held
          cases held
        obtain ⟨start, stop, first, second, text⟩ := inside i word held
        exact ⟨start, stop, (Function.update_of_ne different ..).trans first,
          (Function.update_of_ne different ..).trans second, text⟩
      · intro i none
        by_cases last : i = ⟨words.length, room⟩
        · rw [last]
          exact Function.update_self ..
        · exact (Function.update_of_ne last ..).trans (outside i none)

end Reads

/-! ## What the functions look at -/

section Look

variable {memory : Memory} {es s : Nat} {ts : List Token}

theorem Token.eq_word {token : Token} (kind : token.code = ascii 'a') :
    ∃ text, token = .word text := by
  cases token with
  | word text => exact ⟨text, rfl⟩
  | _ => exact absurd kind (by decide)

theorem starts_redir (token : Token) (rest : List Token) :
    starts ([ '<', '>'].map ascii) (token :: rest) = token.redirection.isSome := by
  cases token <;> rfl

theorem starts_end (token : Token) (rest : List Token) :
    starts ([ '|', ')', '&', ';'].map ascii) (token :: rest) =
      decide (token ∈ [Token.bar, .right, .amp, .semi]) := by
  cases token <;> rfl

/-- The `switch` of `parseredirs`. -/
theorem redirection_cases {Value : Type} {token : Token} {mode fd : Nat}
    (found : token.redirection = some (mode, fd)) (build : Nat → Nat → Value) (other : Value) :
    (if token.code = ascii '<' then build oRdonly 0
      else if token.code = ascii '>' then build (oWronly ||| oCreate) 1
      else if token.code = ascii '+' then build (oWronly ||| oCreate) 1
      else other) = build mode fd := by
  cases token <;> cases found <;> rfl

/-- `peek` for a token that is a symbol. -/
theorem At.peeks_mark (here : At memory es s ts) (mark : Token)
    (known : mark ∈ [Token.amp, .semi, .bar, .left, .right]) :
    ∃ later, At memory es later ts ∧
      ((∃ rest, ts = mark :: rest) ∧ peek memory es [mark.code] s = .done true later ∨
        ts.head? ≠ some mark ∧ peek memory es [mark.code] s = .done false later) := by
  have marks : [mark.code] ⊆ symbols := by
    simp only [List.mem_cons, List.not_mem_nil, or_false] at known
    rcases known with rfl | rfl | rfl | rfl | rfl <;> decide
  obtain ⟨later, ran, next⟩ := here.peeks _ marks
  refine ⟨later, next, ?_⟩
  cases ts with
  | nil => exact Or.inr ⟨nofun, ran⟩
  | cons token rest =>
      have found : starts [mark.code] (token :: rest) = decide (token = mark) := by
        simp only [List.mem_cons, List.not_mem_nil, or_false] at known
        rcases known with rfl | rfl | rfl | rfl | rfl <;> cases token <;> rfl
      rw [found] at ran
      by_cases same : token = mark
      · rw [decide_eq_true same] at ran
        exact Or.inl ⟨⟨rest, by rw [same]⟩, ran⟩
      · rw [decide_eq_false same] at ran
        exact Or.inr ⟨fun first => same (Option.some.inj first), ran⟩

end Look

end Xv6.Shell
