import Xv6.Library.Ring
import Xv6.Library.Runs

/-!
# Console input

`console.c`: characters come in through `consoleintr` and are read, a line at a
time, through `consoleread`. A step is what is done under `cons.lock`, up to its
release or to the `sleep` in `consoleread`. Echoing is left out.
-/

namespace Xv6.Console

open Xv6.Library

/-- INPUT_BUF -/
def inputBuf : UInt32 := 128

/-- `C('P')` -/
def ctrlP : UInt8 := 0x10
/-- `C('U')` -/
def ctrlU : UInt8 := 0x15
/-- `C('H')` -/
def ctrlH : UInt8 := 0x08
/-- `'\x7f'` -/
def del : UInt8 := 0x7F
/-- `C('D')` -/
def ctrlD : UInt8 := 0x04
/-- `'\r'` -/
def cr : UInt8 := 0x0D
/-- `'\n'` -/
def newline : UInt8 := 0x0A

structure Input where
  buf : Nat → UInt8
  /-- Read index -/
  r : UInt32
  /-- Write index -/
  w : UInt32
  /-- Edit index -/
  e : UInt32

namespace Input

def get (input : Input) (index : UInt32) : UInt8 := input.buf (Ring.slot inputBuf index)

/-! ## consoleintr -/

/-- The loop of `C('U')`. It ends after `input.e - input.w` turns at the latest. -/
def killLine : Nat → Input → Input
  | 0, input => input
  | turns + 1, input =>
      if input.e ≠ input.w ∧ input.get (input.e - 1) ≠ newline then
        killLine turns { input with e := input.e - 1 }
      else input

def backspace (input : Input) : Input :=
  if input.e ≠ input.w then { input with e := input.e - 1 } else input

/-- The default case of the switch in `consoleintr`. -/
def put (c : UInt8) (input : Input) : Input :=
  if c ≠ 0 ∧ input.e - input.r < inputBuf then
    let c := if c = cr then newline else c
    let input := { input with
      buf := Function.update input.buf (Ring.slot inputBuf input.e) c
      e := input.e + 1 }
    if c = newline ∨ c = ctrlD ∨ input.e = input.r + inputBuf then { input with w := input.e }
    else input
  else input

/-- One turn of the loop of `consoleintr`. -/
def char (input : Input) (c : UInt8) : Input :=
  if c = ctrlP then input
  else if c = ctrlU then input.killLine (input.e - input.w).toNat
  else if c = ctrlH ∨ c = del then input.backspace
  else input.put c

/-- The characters that `getc` gives before it gives a negative number. The second
result is `doprocdump`. -/
def consoleintr (chars : List UInt8) (input : Input) : Input × Bool :=
  (chars.foldl char input, chars.contains ctrlP)

end Input

/-! ## consoleread -/

/-- The variables of `consoleread`, and the bytes that it has stored at `dst`. -/
structure Reading where
  target : Nat
  n : Nat
  dst : List UInt8

/-- The loop of `consoleread`: with the result, or with none when it sleeps. -/
def readLoop (killed : Bool) (target : Nat) :
    Nat → List UInt8 → Input → Input × Reading × Option Int
  | 0, dst, input => (input, ⟨target, 0, dst⟩, some target)
  | n + 1, dst, input =>
      if input.r = input.w then
        if killed = true then (input, ⟨target, n + 1, dst⟩, some (-1))
        else (input, ⟨target, n + 1, dst⟩, none)
      else
        let c := input.get input.r
        let taken := { input with r := input.r + 1 }
        if c = ctrlD then
          -- Save ^D for next time, to make sure caller gets a 0-byte result.
          if n + 1 < target then
            ({ taken with r := taken.r - 1 }, ⟨target, n + 1, dst⟩, some (target - (n + 1 : Nat)))
          else (taken, ⟨target, n + 1, dst⟩, some (target - (n + 1 : Nat)))
        else if c = newline then (taken, ⟨target, n, dst ++ [c]⟩, some (target - n))
        else readLoop killed target n (dst ++ [c]) taken

/-- `consoleread` from its start or from its `sleep` on. -/
def Reading.run (reading : Reading) (killed : Bool) (input : Input) :
    Input × Reading × Option Int :=
  readLoop killed reading.target reading.n reading.dst input

/-! ## Runs -/

/-- The characters come in; a process calls `consoleread`, or goes on in it after
its `sleep`, and it may have been killed. -/
inductive ConsoleEvent (Proc : Type) where
  | intr (chars : List UInt8)
  | read (p : Proc) (n : Nat) (killed : Bool)
  | wake (p : Proc) (killed : Bool)

/-- The input, the calls of `consoleread` that sleep, the characters that have become
readable, and those that have been stored for some reader, each oldest first. -/
structure Cons (Proc : Type) where
  input : Input
  call : Proc → Option Reading
  committed : List UInt8
  received : List UInt8

namespace Cons

variable {Proc : Type} [DecidableEq Proc]

/-- After `bss` has been cleared. -/
def boot : Cons Proc where
  input := ⟨fun _ => 0, 0, 0, 0⟩
  call _ := none
  committed := []
  received := []

/-- The characters that became readable between two states. -/
def added (before after : Input) : List UInt8 :=
  Ring.window inputBuf after.buf before.w (after.w - before.w).toNat

def readStep (console : Cons Proc) (p : Proc) (reading : Reading) (killed : Bool) :
    Cons Proc :=
  let ends := reading.run killed console.input
  { console with
    input := ends.1
    call := Function.update console.call p (if ends.2.2 = none then some ends.2.1 else none)
    received := console.received ++ ends.2.1.dst.drop reading.dst.length }

def next (console : Cons Proc) : ConsoleEvent Proc → Option (Cons Proc)
  | .intr chars =>
      let input := (console.input.consoleintr chars).1
      some { console with
        input := input
        committed := console.committed ++ added console.input input }
  | .read p n killed =>
      match console.call p with
      | none => some (console.readStep p ⟨n, n, []⟩ killed)
      | some _ => none
  | .wake p killed =>
      match console.call p with
      | none => none
      | some reading => some (console.readStep p reading killed)

end Cons

end Xv6.Console
