import Mathlib.Data.Set.Lattice
import Xv6.Library.Action

/-!
# malloc and free

`umalloc.c`: the free blocks are in a circular list that starts at the empty block `base`
and is ordered by address. `malloc` takes the first block that is large enough, from where the
last search ended, and `free` joins a block with the free blocks that it adjoins.
-/

namespace Xv6.Umalloc

open Xv6.Library

/-! ## The functions -/

structure Header where
  ptr : UInt32
  size : UInt32

/-- `sizeof(Header)` -/
def headerSize : UInt32 := 8

theorem toNat_headerSize : headerSize.toNat = 8 := rfl

/-- The headers by their addresses. -/
abbrev Headers := UInt32 → Header

namespace Headers

def setPtr (headers : Headers) (p ptr : UInt32) : Headers :=
  Function.update headers p { headers p with ptr := ptr }

def setSize (headers : Headers) (p size : UInt32) : Headers :=
  Function.update headers p { headers p with size := size }

/-- `p + p->s.size` -/
def after (headers : Headers) (p : UInt32) : UInt32 := p + headerSize * (headers p).size

variable {headers : Headers} {p q ptr size : UInt32}

@[simp]
theorem setPtr_self : headers.setPtr p ptr p = ⟨ptr, (headers p).size⟩ :=
  Function.update_self ..

theorem setPtr_of_ne (different : q ≠ p) : headers.setPtr p ptr q = headers q :=
  Function.update_of_ne different ..

@[simp]
theorem size_setPtr : (headers.setPtr p ptr q).size = (headers q).size := by
  by_cases same : q = p
  · rw [same, setPtr_self]
  · rw [setPtr_of_ne same]

@[simp]
theorem setSize_self : headers.setSize p size p = ⟨(headers p).ptr, size⟩ :=
  Function.update_self ..

theorem setSize_of_ne (different : q ≠ p) : headers.setSize p size q = headers q :=
  Function.update_of_ne different ..

@[simp]
theorem ptr_setSize : (headers.setSize p size q).ptr = (headers q).ptr := by
  by_cases same : q = p
  · rw [same, setSize_self]
  · rw [setSize_of_ne same]

end Headers

/-- The memory of a process as far as `umalloc.c` uses it, and what the kernel keeps of it. -/
structure Process (Os : Type) where
  headers : Headers
  freep : UInt32
  os : Os

/-- The loop of `free`: the place of `bp` is after `p`, which is the last block for a `bp` behind
all blocks or in front of them. -/
def findPlace (headers : Headers) (bp : UInt32) : Nat → UInt32 → Option UInt32
  | 0, _ => none
  | fuel + 1, p =>
      let next := (headers p).ptr
      if bp > p ∧ bp < next then some p
      else if p ≥ next ∧ (bp > p ∨ bp < next) then some p
      else findPlace headers bp fuel next

/-- The first `if` of `free`: join `bp` with the block after it. -/
def joinUpper (headers : Headers) (bp p : UInt32) : Headers :=
  if headers.after bp = (headers p).ptr then
    let larger := headers.setSize bp ((headers bp).size + (headers (headers p).ptr).size)
    larger.setPtr bp (larger (larger p).ptr).ptr
  else headers.setPtr bp (headers p).ptr

/-- The second `if` of `free`: join `bp` with the block before it. -/
def joinLower (headers : Headers) (bp p : UInt32) : Headers :=
  if headers.after p = bp then
    let larger := headers.setSize p ((headers p).size + (headers bp).size)
    larger.setPtr p (larger bp).ptr
  else headers.setPtr p bp

variable {Os : Type}

/-- The loop gets `fuel` turns. -/
def free (fuel : Nat) (ap : UInt32) : Action (Process Os) Unit := fun s =>
  let bp := ap - headerSize
  match findPlace s.headers bp fuel s.freep with
  | none => .blocked
  | some p =>
      .done () { s with headers := joinLower (joinUpper s.headers bp p) bp p, freep := p }

/-- The system call. -/
def onOs {Value : Type} (action : Action Os Value) : Action (Process Os) Value :=
  Action.focus Process.os (fun s os => { s with os := os }) action

/-- How many units `morecore` asks for. -/
def moreUnits (nu : UInt32) : UInt32 := if nu < 4096 then 4096 else nu

/-- `sbrk` has an `int` argument. -/
def morecore (sbrk : Int32 → Action Os UInt32) (fuel : Nat) (nu : UInt32) :
    Action (Process Os) UInt32 := do
  let p ← onOs (sbrk (moreUnits nu * headerSize).toInt32)
  if p = 0xFFFFFFFF then return 0
  else
    Action.modify fun s => { s with headers := s.headers.setSize p (moreUnits nu) }
    free fuel (p + headerSize)
    Action.get Process.freep

def nunits (nbytes : UInt32) : UInt32 := (nbytes + headerSize - 1) / headerSize + 1

/-- Take the block `p` out of the list, or the end of it. -/
def take (prevp p nunits : UInt32) : Action (Process Os) UInt32 := fun s =>
  if (s.headers p).size = nunits then
    .done (p + headerSize)
      { s with headers := s.headers.setPtr prevp (s.headers p).ptr, freep := prevp }
  else
    let shorter := s.headers.setSize p ((s.headers p).size - nunits)
    let rest := shorter.after p
    .done (rest + headerSize) { s with headers := shorter.setSize rest nunits, freep := prevp }

/-- The loop of `malloc`; `turns` is for the loop of `free`. -/
def search (sbrk : Int32 → Action Os UInt32) (turns : Nat) (nunits : UInt32) :
    Nat → UInt32 → UInt32 → Action (Process Os) UInt32
  | 0, _, _ => Action.never
  | fuel + 1, prevp, p => do
      let s ← Action.get fun s : Process Os => s
      if (s.headers p).size ≥ nunits then take prevp p nunits
      else if p = s.freep then
        let q ← morecore sbrk turns nunits
        if q = 0 then return 0
        else
          let next ← Action.get fun s : Process Os => (s.headers q).ptr
          search sbrk turns nunits fuel q next
      else search sbrk turns nunits fuel p (s.headers p).ptr

/-- The list is empty before the first call. -/
def init (base : UInt32) (s : Process Os) : Process Os :=
  if s.freep = 0 then
    { s with headers := (s.headers.setPtr base base).setSize base 0, freep := base }
  else s

/-- `base` is where the variable of this name is. -/
def malloc (sbrk : Int32 → Action Os UInt32) (base : UInt32) (fuel : Nat) (nbytes : UInt32) :
    Action (Process Os) UInt32 := do
  Action.modify (init base)
  let prevp ← Action.get Process.freep
  let p ← Action.get fun s : Process Os => (s.headers prevp).ptr
  search sbrk fuel (nunits nbytes) fuel prevp p

end Xv6.Umalloc
