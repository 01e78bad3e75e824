import Xv6.Vm.Kalloc

/-!
# Page tables

The functions of `vm.c` on address spaces.
-/

namespace Xv6.Vm

open Xv6.Library

/-- The address of the PTE for `va`, 0 if there is none. -/
def walkpgdir (pgdir va : UInt32) (alloc : Bool) : Action Machine UInt32 := do
  let pde := pgdir + 4 * pdx va
  let entry ← loadWord pde
  if Present entry then
    let pgtab := p2v (pteAddr entry)
    return pgtab + 4 * ptx va
  else if alloc = false then return 0
  else
    let pgtab ← kalloc
    if pgtab = 0 then return 0
    else
      memset pgtab 0 pgsize
      storeWord pde (v2p pgtab ||| pteP ||| pteW ||| pteU)
      return pgtab + 4 * ptx va

/-- The loop of `mappages`. -/
def mapFrom (pgdir last perm : UInt32) : Nat → UInt32 → UInt32 → Action Machine Int
  | 0, _, _ => Action.never
  | fuel + 1, a, pa => do
      let pte ← walkpgdir pgdir a true
      if pte = 0 then return -1
      else
        let entry ← loadWord pte
        if Present entry then Action.panic "remap"
        else
          storeWord pte (pa ||| perm ||| pteP)
          if a = last then return 0
          else mapFrom pgdir last perm fuel (a + pgsize) (pa + pgsize)

def mappages (pgdir va size pa perm : UInt32) : Action Machine Int :=
  mapFrom pgdir (pgRoundDown (va + size - 1)) perm turns (pgRoundDown va) pa

variable (symbols : Symbols)

/-- The loop of `deallocuvm`. -/
def deallocFrom (pgdir oldsz : UInt32) : Nat → UInt32 → Action Machine Unit
  | 0, _ => Action.never
  | fuel + 1, a =>
      if a < oldsz then do
        let pte ← walkpgdir pgdir a false
        if pte = 0 then
          let a := pgAddr (pdx a + 1) 0 0 - pgsize
          deallocFrom pgdir oldsz fuel (a + pgsize)
        else
          let entry ← loadWord pte
          if Present entry then
            let pa := pteAddr entry
            if pa = 0 then Action.panic "kfree"
            else
              let v := p2v pa
              kfree symbols v
              storeWord pte 0
              deallocFrom pgdir oldsz fuel (a + pgsize)
          else deallocFrom pgdir oldsz fuel (a + pgsize)
      else return ()

def deallocuvm (pgdir oldsz newsz : UInt32) : Action Machine UInt32 := do
  if oldsz ≤ newsz then return oldsz
  else
    deallocFrom symbols pgdir oldsz turns (pgRoundUp newsz)
    return newsz

/-- One turn of the loop of `freevm`. -/
def freeTable (pgdir : UInt32) (i : Nat) : Action Machine Unit := do
  let entry ← loadWord (pgdir + 4 * UInt32.ofNat i)
  if Present entry then
    let v := p2v (pteAddr entry)
    kfree symbols v
  else return ()

/-- Free a page table and all the physical memory pages in the user part. -/
def freevm (pgdir : UInt32) : Action Machine Unit := do
  if pgdir = 0 then Action.panic "freevm: no pgdir"
  else
    let _ ← deallocuvm symbols pgdir kernbase 0
    Action.forRange npdentries (freeTable symbols pgdir)
    kfree symbols pgdir

structure Kmap where
  virt : UInt32
  physStart : UInt32
  physEnd : UInt32
  perm : UInt32

/-- The kernel's mappings, which are present in every process's page table. -/
def kmap : List Kmap :=
  [⟨kernbase, 0, extmem, pteW⟩,
   ⟨kernlink, v2p kernlink, v2p symbols.data, 0⟩,
   ⟨symbols.data, v2p symbols.data, phystop, pteW⟩,
   ⟨devspace, devspace, 0, pteW⟩]

/-- The loop of `setupkvm`. -/
def mapKernel (pgdir : UInt32) : List Kmap → Action Machine UInt32
  | [] => return pgdir
  | k :: rest => do
      let mapped ← mappages pgdir k.virt (k.physEnd - k.physStart) k.physStart k.perm
      if mapped < 0 then
        freevm symbols pgdir
        return 0
      else mapKernel pgdir rest

/-- Set up kernel part of a page table. -/
def setupkvm : Action Machine UInt32 := do
  let pgdir ← kalloc
  if pgdir = 0 then return 0
  else
    memset pgdir 0 pgsize
    if devspace < p2v phystop then Action.panic "PHYSTOP too high"
    else mapKernel symbols pgdir (kmap symbols)

/-- The loop of `allocuvm`; `newsz` and `oldsz` are its arguments. -/
def allocFrom (pgdir oldsz newsz : UInt32) : Nat → UInt32 → Action Machine UInt32
  | 0, _ => Action.never
  | fuel + 1, a =>
      if a < newsz then do
        let mem ← kalloc
        if mem = 0 then
          let _ ← deallocuvm symbols pgdir newsz oldsz
          return 0
        else
          memset mem 0 pgsize
          let mapped ← mappages pgdir a pgsize (v2p mem) (pteW ||| pteU)
          if mapped < 0 then
            let _ ← deallocuvm symbols pgdir newsz oldsz
            kfree symbols mem
            return 0
          else allocFrom pgdir oldsz newsz fuel (a + pgsize)
      else return newsz

/-- Grow a process from `oldsz` to `newsz`; 0 on error. -/
def allocuvm (pgdir oldsz newsz : UInt32) : Action Machine UInt32 := do
  if kernbase ≤ newsz then return 0
  else if newsz < oldsz then return oldsz
  else allocFrom symbols pgdir oldsz newsz turns (pgRoundUp oldsz)

/-- Clear PTE_U on a page. -/
def clearpteu (pgdir uva : UInt32) : Action Machine Unit := do
  let pte ← walkpgdir pgdir uva false
  if pte = 0 then Action.panic "clearpteu"
  else
    let entry ← loadWord pte
    storeWord pte (entry &&& ~~~pteU)

/-- The loop of `copyuvm`. -/
def copyFrom (pgdir d sz : UInt32) : Nat → UInt32 → Action Machine UInt32
  | 0, _ => Action.never
  | fuel + 1, i =>
      if i < sz then do
        let pte ← walkpgdir pgdir i false
        if pte = 0 then Action.panic "copyuvm: pte should exist"
        else
          let entry ← loadWord pte
          if ¬Present entry then Action.panic "copyuvm: page not present"
          else
            let pa := pteAddr entry
            let flags := pteFlags entry
            let mem ← kalloc
            if mem = 0 then
              freevm symbols d
              return 0
            else
              memmove mem (p2v pa) pgsize
              let mapped ← mappages d i pgsize (v2p mem) flags
              if mapped < 0 then
                freevm symbols d
                return 0
              else copyFrom pgdir d sz fuel (i + pgsize)
      else return d

/-- Given a parent process's page table, create a copy of it for a child. -/
def copyuvm (pgdir sz : UInt32) : Action Machine UInt32 := do
  let d ← setupkvm symbols
  if d = 0 then return 0
  else copyFrom symbols pgdir d sz turns 0

end Xv6.Vm
