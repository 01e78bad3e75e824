import Xv6.Shell.Parsecmd

/-!
# Redirections

`parseredirs` puts a redirection around the command it has so far, and `runcmd` opens
the file of a redirection before it goes on to the command inside. So the files are
opened from the last to the first, and the first redirection of a descriptor is the one
that lasts.
-/

namespace Xv6.Shell

open Xv6.Library

/-! ## The source -/

/-- `NOFILE` in `param.h`. -/
def nofile : Nat := 16

/-- What a descriptor refers to: a file the shell has passed on, or one that was opened by its
name. -/
inductive File where
  | inherited (file : Nat)
  | named (path : List UInt8) (mode : Nat)
  deriving DecidableEq

/-- A process as far as `close` and `open` see it, with the files it has opened. -/
structure Process where
  ofile : Fin nofile → Option File
  opened : List (List UInt8 × Nat)

/-- `fetchstr` in `syscall.c`, in a process of `sz` bytes. -/
def fetchstr (memory : Memory) (sz addr : Nat) : Option (List UInt8) :=
  let bytes := memory.read addr (sz - addr)
  if 0 ∈ bytes then some (bytes.takeWhile (· ≠ 0)) else none

/-- `close` -/
def Process.close (process : Process) (fd : Nat) : Process :=
  if inside : fd < nofile then
    { process with ofile := Function.update process.ofile ⟨fd, inside⟩ none }
  else process

/-- The descriptor that `fdalloc` returns. -/
def Process.fdalloc (process : Process) : Option (Fin nofile) :=
  (List.finRange nofile).find? fun fd => decide (process.ofile fd = none)

/-- `open`, where the file system `accepts` a path and a mode or not, after what has been opened
before. -/
def Process.open (accepts : List (List UInt8 × Nat) → List UInt8 → Nat → Bool)
    (process : Process) (path : List UInt8) (mode : Nat) : Option Process :=
  if accepts process.opened path mode then
    process.fdalloc.map fun fd =>
      { ofile := Function.update process.ofile fd (some (.named path mode))
        opened := process.opened ++ [(path, mode)] }
  else none

/-- How `runcmd` goes on: to `exec` with the path and the arguments, to `exit`, or to `fork` for
a pipe, a list or a command in the background. -/
inductive Ending where
  | exec (path : Nat) (argv : Fin maxargs → Option Nat) (process : Process)
  | exit
  | fork (cmd : Cmd) (process : Process)

/-- `runcmd` up to `exec`. -/
def runcmd (accepts : List (List UInt8 × Nat) → List UInt8 → Nat → Bool) (memory : Memory)
    (sz : Nat) : Cmd → Process → Ending
  | .exec argv _, process =>
      match argv ⟨0, by decide⟩ with
      | none => .exit
      | some path => .exec path argv process
  | .redir cmd file _ mode fd, process =>
      let process := process.close fd
      match (fetchstr memory sz file).bind fun path => process.open accepts path mode with
      | none => .exit
      | some process => runcmd accepts memory sz cmd process
  | cmd, process => .fork cmd process

/-! ## One redirection -/

variable {accepts : List (List UInt8 × Nat) → List UInt8 → Nat → Bool} {memory : Memory} {sz : Nat}

theorem fetchstr_eq {addr : Nat} {word text : List UInt8} (holds : HoldsString memory addr word)
    (fetched : fetchstr memory sz addr = some text) : text = word := by
  rw [fetchstr] at fetched
  split at fetched
  · next member =>
      rw [← Option.some.inj fetched]
      obtain short | long := Nat.lt_or_ge word.length (sz - addr)
      · obtain ⟨rest, split⟩ := Nat.exists_eq_add_of_lt short
        rw [split, Nat.add_assoc, Nat.add_comm rest 1, memory.read_append, holds.bytes,
          Nat.add_comm 1, memory.read_succ, holds.nul, List.takeWhile_append_of_pos]
        · simp
        · intro c inside
          simpa using fun zero : c = 0 => holds.free (zero ▸ inside)
      · -- the process ends inside the word
        obtain ⟨rest, split⟩ := Nat.exists_eq_add_of_le long
        have whole := holds.bytes
        rw [split, memory.read_append] at whole
        exact absurd (whole ▸ List.mem_append_left _ member) holds.free
  · cases fetched

/-- The standard input and output are open. -/
def Process.Standard (process : Process) : Prop :=
  ∀ fd : Fin nofile, fd.val ≤ 1 → process.ofile fd ≠ none

/-- The process when a file has been opened as `fd`. -/
def Process.bind (process : Process) (fd : Fin nofile) (path : List UInt8) (mode : Nat) :
    Process where
  ofile := Function.update process.ofile fd (some (.named path mode))
  opened := process.opened ++ [(path, mode)]

theorem Process.Standard.bind {process : Process} (standard : process.Standard) (fd : Fin nofile)
    (path : List UInt8) (mode : Nat) : (process.bind fd path mode).Standard := by
  intro other low
  change Function.update process.ofile fd _ other ≠ none
  by_cases same : other = fd
  · rw [same, Function.update_self]
    exact nofun
  · rw [Function.update_of_ne same]
    exact standard other low

theorem Process.close_eq (process : Process) (fd : Fin nofile) :
    process.close fd = { process with ofile := Function.update process.ofile fd none } :=
  dif_pos fd.isLt

/-- The lowest free descriptor is the one that has just been closed. -/
theorem Process.Standard.fdalloc_close {process : Process} (standard : process.Standard)
    {fd : Fin nofile} (low : fd.val ≤ 1) : (process.close fd).fdalloc = some fd := by
  have free : Function.update process.ofile fd none fd = none := Function.update_self ..
  rw [Process.close_eq, Process.fdalloc, List.find?_eq_some_iff_append]
  refine ⟨decide_eq_true free, ?_⟩
  obtain first | second := Nat.le_one_iff_eq_zero_or_eq_one.mp low
  · obtain rfl : fd = ⟨0, by decide⟩ := Fin.ext first
    exact ⟨[], (List.finRange nofile).drop 1, by decide, nofun⟩
  · obtain rfl : fd = ⟨1, by decide⟩ := Fin.ext second
    refine ⟨[⟨0, by decide⟩], (List.finRange nofile).drop 2, by decide, fun other member => ?_⟩
    have different : other ≠ ⟨1, by decide⟩ := by
      rw [List.mem_singleton.mp member]
      decide
    have taken : process.ofile other ≠ none := by
      rw [List.mem_singleton.mp member]
      exact standard _ (Nat.zero_le _)
    have still := (Function.update_of_ne different none process.ofile).symm ▸ taken
    exact congrArg not (decide_eq_false still)

theorem Process.Standard.reopen {process next : Process} (standard : process.Standard)
    {fd : Fin nofile} (low : fd.val ≤ 1) {path : List UInt8} {mode : Nat}
    (opens : (process.close fd).open accepts path mode = some next) :
    next = process.bind fd path mode := by
  rw [Process.open, standard.fdalloc_close low, Process.close_eq] at opens
  split at opens
  · cases opens
    simp only [Process.bind, Function.update_idem]
  · cases opens

/-! ## All redirections of a command -/

/-- The call of `open` that a redirection is for. -/
def Redirection.opening (redir : Redirection) : List UInt8 × Nat :=
  (redir.file, redir.mode)

def Redirection.bound (redir : Redirection) : File :=
  .named redir.file redir.mode

variable {cmd : Cmd} {words : List (List UInt8)} {redirs : List Redirection}
  {argv : Fin maxargs → Option Nat} {path : Nat}

/-- Earlier redirections of a descriptor prevail over the last one. -/
theorem Redirection.bound_append (process : Process) (last : Redirection)
    (low : last.fd < nofile) (fd : Fin nofile) :
    ((redirs.find? fun redir => redir.fd = fd.val).map bound).or
        ((process.bind ⟨last.fd, low⟩ last.file last.mode).ofile fd) =
      (((redirs ++ [last]).find? fun redir => redir.fd = fd.val).map bound).or
        (process.ofile fd) := by
  rw [List.find?_append, Process.bind]
  cases redirs.find? fun redir => redir.fd = fd.val with
  | some first => rfl
  | none =>
      by_cases same : last.fd = fd.val
      · have here : fd = ⟨last.fd, low⟩ := Fin.ext same.symm
        have self : [last].find? (fun redir => redir.fd = fd.val) = some last :=
          List.find?_cons_of_pos (decide_eq_true same)
        rw [self, here]
        exact Function.update_self ..
      · have different : fd ≠ ⟨last.fd, low⟩ := fun equal => same (congrArg Fin.val equal).symm
        have self : [last].find? (fun redir => redir.fd = fd.val) = none :=
          List.find?_cons_of_neg (decide_eq_false same ▸ nofun)
        rw [self]
        exact Function.update_of_ne different ..

/-- `runcmd` opens the files backwards, and the first redirection of a descriptor lasts. -/
theorem runcmd_redirect {process later : Process}
    (reads : cmd.Reads (fun q _ word => HoldsString memory q word)
      ((Tree.exec words).redirect redirs))
    (low : ∀ redir ∈ redirs, redir.fd ≤ 1) (standard : process.Standard)
    (reaches : runcmd accepts memory sz cmd process = .exec path argv later) :
    later.opened = process.opened ++ redirs.reverse.map Redirection.opening ∧
      ∀ fd : Fin nofile, later.ofile fd =
        ((redirs.find? fun redir => redir.fd = fd.val).map Redirection.bound).or
          (process.ofile fd) := by
  induction redirs using List.reverseRecOn generalizing cmd process with
  | nil =>
      cases reads with
      | exec _ _ _ =>
          rw [runcmd] at reaches
          split at reaches
          · cases reaches
          · cases reaches
            exact ⟨(List.append_nil _).symm, fun fd => rfl⟩
  | append_singleton redirs last inductionHypothesis =>
      rw [Tree.redirect_append] at reads
      cases reads with
      | @redir cmd _ file efile _ _ _ reads text =>
          rw [runcmd] at reaches
          have lastLow : last.fd ≤ 1 := low last (List.mem_append_right _ (.head _))
          have others : ∀ redir ∈ redirs, redir.fd ≤ 1 := fun redir member =>
            low redir (List.mem_append_left _ member)
          split at reaches
          · cases reaches
          · next next opens =>
              obtain ⟨name, fetched, opens⟩ := Option.bind_eq_some_iff.mp opens
              obtain rfl := fetchstr_eq text fetched
              have reopened := @Process.Standard.reopen accepts _ _ standard
                ⟨last.fd, Nat.lt_of_le_of_lt lastLow (by decide)⟩ lastLow _ _ opens
              subst reopened
              obtain ⟨opened, bound⟩ :=
                inductionHypothesis reads others (standard.bind _ _ _) reaches
              refine ⟨?_, fun fd => ?_⟩
              · rw [opened, Process.bind, List.append_assoc, List.reverse_append]
                rfl
              · rw [bound fd]
                exact Redirection.bound_append _ last _ fd

/-! ## The text of a command -/

/-- A simple command with its words and its redirections, in the order of the text. -/
def IsSimple (ts : List Token) (words : List (List UInt8)) (redirs : List Redirection) : Prop :=
  ∃ first rest before after, ts = first ++ rest ∧ redirs = before ++ after ∧
    IsRedirs first before ∧ IsArgs rest words after ∧ words.length ≤ 9

/-- The files are opened in the order of the text, and the last redirection of a descriptor is
the one that lasts. -/
structure FollowsText (redirs : List Redirection) (before after : Process) : Prop where
  ordered : after.opened = before.opened ++ redirs.map Redirection.opening
  last : ∀ (fd : Fin nofile) front redir rest, redirs = front ++ redir :: rest →
    redir.fd = fd.val → (∀ other ∈ rest, other.fd ≠ fd.val) → after.ofile fd = some redir.bound

/-- The mode tells which descriptor a redirection is of. -/
def Redirection.Plain (redir : Redirection) : Prop :=
  redir.fd = if redir.mode = oRdonly then 0 else 1

theorem Redirection.Plain.low {redir : Redirection} (plain : redir.Plain) : redir.fd ≤ 1 := by
  rw [plain]
  split
  · exact Nat.zero_le 1
  · exact Nat.le_refl 1

theorem IsRedirs.plain {ts : List Token} (derives : IsRedirs ts redirs) :
    ∀ redir ∈ redirs, redir.Plain := by
  induction derives with
  | nil => exact nofun
  | @cons op mode fd file ts redirs kind derives inductionHypothesis =>
      intro redir member
      obtain rfl | later := List.mem_cons.mp member
      · cases op <;> cases kind <;> rfl
      · exact inductionHypothesis redir later

theorem IsArgs.plain {ts : List Token} (derives : IsArgs ts words redirs) :
    ∀ redir ∈ redirs, redir.Plain := by
  induction derives with
  | nil => exact nofun
  | cons first rest inductionHypothesis =>
      intro redir member
      obtain before | after := List.mem_append.mp member
      · exact first.plain redir before
      · exact inductionHypothesis redir after

theorem IsSimple.plain {ts : List Token} (simple : IsSimple ts words redirs) :
    ∀ redir ∈ redirs, redir.Plain := by
  obtain ⟨first, rest, before, after, -, rfl, one, two, -⟩ := simple
  intro redir member
  obtain member | member := List.mem_append.mp member
  · exact one.plain redir member
  · exact two.plain redir member

theorem IsSimple.derives {ts : List Token} (simple : IsSimple ts words redirs) :
    IsLine ts ((Tree.exec words).redirect redirs) := by
  obtain ⟨first, rest, before, after, rfl, rfl, one, two, few⟩ := simple
  have line := IsLine.last 0 (.last (.simple one two few))
  rw [List.replicate_zero, List.append_nil] at line
  exact line

/-- Redirections are told apart by their calls of `open`. -/
theorem eq_of_opening {others : List Redirection} (plain : ∀ redir ∈ redirs, redir.Plain)
    (also : ∀ redir ∈ others, redir.Plain)
    (same : redirs.map Redirection.opening = others.map Redirection.opening) :
    redirs = others := by
  induction redirs generalizing others with
  | nil => exact (List.map_eq_nil_iff.mp same.symm).symm
  | cons redir redirs inductionHypothesis =>
      cases others with
      | nil => cases same
      | cons other others =>
          obtain ⟨equal, rest⟩ := List.cons.inj same
          obtain ⟨file, mode, fd⟩ := redir
          obtain ⟨file', mode', fd'⟩ := other
          cases equal
          have first : fd = _ := plain _ (.head _)
          have second : fd' = _ := also _ (.head _)
          rw [first, second, inductionHypothesis (fun redir member => plain redir (.tail _ member))
            (fun redir member => also redir (.tail _ member)) rest]

theorem followsText_iff {process later : Process}
    (plain : ∀ redir ∈ redirs, redir.Plain)
    (opened : later.opened = process.opened ++ redirs.reverse.map Redirection.opening)
    (bound : ∀ fd : Fin nofile, later.ofile fd =
      ((redirs.find? fun redir => redir.fd = fd.val).map Redirection.bound).or
        (process.ofile fd)) :
    FollowsText redirs process later ↔ redirs.reverse = redirs := by
  constructor
  · rintro ⟨ordered, -⟩
    have same := List.append_cancel_left (opened.symm.trans ordered)
    exact eq_of_opening (fun redir member => plain redir (List.mem_reverse.mp member)) plain same
  · intro palindrome
    refine ⟨palindrome ▸ opened, ?_⟩
    rintro fd front redir rest split here others
    have turned : redirs = rest.reverse ++ redir :: front.reverse := by
      rw [← palindrome, split]
      simp
    have none : rest.reverse.find? (fun redir => redir.fd = fd.val) = none := by
      rw [List.find?_eq_none]
      intro other member
      simpa using others other (List.mem_reverse.mp member)
    have found : (redir :: front.reverse).find? (fun redir => redir.fd = fd.val) = some redir :=
      List.find?_cons_of_pos (decide_eq_true here)
    rw [bound fd, turned, List.find?_append, none, Option.none_or, found]
    rfl

/-- For every simple command, `runcmd` has the files of the redirections as the text says when it
comes to `exec`, exactly if the redirections are the same from the last to the first. -/
theorem redirections_follow_iff {line : List UInt8} {fuel : Nat} {parser after : Parser}
    {process later : Process} (holds : HoldsString parser.memory parser.s line)
    (enough : 4 * line.length + 4 ≤ fuel) (simple : IsSimple (tokens line) words redirs)
    (parsed : parsecmd fuel parser = .done cmd after) (standard : process.Standard)
    (reaches : runcmd accepts after.memory sz cmd process = .exec path argv later) :
    FollowsText redirs process later ↔ redirs.reverse = redirs := by
  obtain ⟨tree, -, unique, reads⟩ := (parsecmd_parses holds enough).of_done parsed
  rw [← unique _ simple.derives] at reads
  obtain ⟨opened, bound⟩ :=
    runcmd_redirect reads (fun redir member => (simple.plain redir member).low) standard reaches
  exact followsText_iff simple.plain opened bound

/-- The shell with a line in its buffer. -/
def lineParser (line : List UInt8) : Parser where
  memory location := line.getD location 0
  s := 0

/-- The three descriptors that the shell opens. -/
def started : Process where
  ofile fd := if fd.val < 3 then some (.inherited 0) else none
  opened := []

theorem started_standard : started.Standard := by
  intro fd low
  have passedOn : started.ofile fd = some (.inherited 0) :=
    if_pos (Nat.lt_of_le_of_lt low (by decide))
  rw [passedOn]
  exact nofun

/-- The files that a line opens up to `exec` if they all can be opened. -/
def openings (fuel : Nat) (line : List UInt8) : Option (List (List UInt8 × Nat)) :=
  match parsecmd fuel (lineParser line) with
  | .done cmd after =>
      match runcmd (fun _ _ _ => true) after.memory 100 cmd started with
      | .exec _ _ later => some later.opened
      | _ => none
  | _ => none

theorem exists_of_openings {fuel : Nat} {line : List UInt8} {opened : List (List UInt8 × Nat)}
    (runs : openings fuel line = some opened) :
    ∃ cmd after path argv later, parsecmd fuel (lineParser line) = .done cmd after ∧
      runcmd (fun _ _ _ => true) after.memory 100 cmd started = .exec path argv later ∧
      later.opened = opened := by
  rw [openings] at runs
  split at runs
  · next cmd after parsed =>
      split at runs
      · next path argv later reaches =>
          exact ⟨cmd, after, path, argv, later, parsed, reaches, Option.some.inj runs⟩
      · cases runs
  · cases runs

/-- `x>a<b>a` -/
theorem redirections_follow_iff_palindrome :
    ∃ cmd path argv later, ∃ after : Parser,
      parsecmd 32 (lineParser ([ 'x', '>', 'a', '<', 'b', '>', 'a'].map ascii)) = .done cmd after ∧
      runcmd (fun _ _ _ => true) after.memory 100 cmd started = .exec path argv later ∧
      FollowsText [⟨[ascii 'a'], oWronly ||| oCreate, 1⟩, ⟨[ascii 'b'], oRdonly, 0⟩,
        ⟨[ascii 'a'], oWronly ||| oCreate, 1⟩] started later := by
  let line := [ 'x', '>', 'a', '<', 'b', '>', 'a'].map ascii
  have cut : tokens line = [.word [ascii 'x'], .greater, .word [ascii 'a'], .less,
      .word [ascii 'b'], .greater, .word [ascii 'a']] := by
    decide +kernel
  have simple : IsSimple (tokens line) [[ascii 'x']]
      [⟨[ascii 'a'], oWronly ||| oCreate, 1⟩, ⟨[ascii 'b'], oRdonly, 0⟩,
        ⟨[ascii 'a'], oWronly ||| oCreate, 1⟩] := by
    rw [cut]
    exact ⟨[], _, [], _, rfl, rfl, .nil, .cons (.cons rfl (.cons rfl (.cons rfl .nil))) .nil,
      by decide⟩
  have runs : openings 32 line = some [([ascii 'a'], oWronly ||| oCreate), ([ascii 'b'], oRdonly),
      ([ascii 'a'], oWronly ||| oCreate)] := by decide +kernel
  have holds : HoldsString (lineParser line).memory 0 line := ⟨by decide, by decide, by decide⟩
  obtain ⟨cmd, after, path, argv, later, parsed, reaches, -⟩ := exists_of_openings runs
  exact ⟨cmd, path, argv, later, after, parsed, reaches,
    (redirections_follow_iff holds (Nat.le_refl 32) simple parsed started_standard reaches).mpr rfl⟩

/-- `x>a>b` -/
theorem redirections_backwards :
    ∃ line words redirs fuel cmd accepts sz path argv later, ∃ parser after : Parser,
      ∃ process : Process,
      HoldsString parser.memory parser.s line ∧ IsSimple (tokens line) words redirs ∧
      parsecmd fuel parser = .done cmd after ∧ process.Standard ∧
      runcmd accepts after.memory sz cmd process = .exec path argv later ∧
      ¬FollowsText redirs process later := by
  let line := [ 'x', '>', 'a', '>', 'b'].map ascii
  let redirs : List Redirection :=
    [⟨[ascii 'a'], oWronly ||| oCreate, 1⟩, ⟨[ascii 'b'], oWronly ||| oCreate, 1⟩]
  have cut : tokens line =
      [.word [ascii 'x'], .greater, .word [ascii 'a'], .greater, .word [ascii 'b']] := by
    decide +kernel
  have simple : IsSimple (tokens line) [[ascii 'x']] redirs := by
    rw [cut]
    exact ⟨[], _, [], _, rfl, rfl, .nil, .cons (.cons rfl (.cons rfl .nil)) .nil, by decide⟩
  have runs : openings 24 line = some [([ascii 'b'], oWronly ||| oCreate),
      ([ascii 'a'], oWronly ||| oCreate)] := by decide +kernel
  have holds : HoldsString (lineParser line).memory 0 line := ⟨by decide, by decide, by decide⟩
  obtain ⟨cmd, after, path, argv, later, parsed, reaches, opened⟩ := exists_of_openings runs
  refine ⟨line, _, redirs, 24, cmd, _, _, path, argv, later, _, after, started, holds, simple,
    parsed, started_standard, reaches, fun follows => ?_⟩
  exact absurd (opened.symm.trans follows.ordered) (by decide)

end Xv6.Shell
