import Xv6.Library.Masks

/-!
# The layout of memory

`mmu.h` and `memlayout.h`: addresses, their parts, and the entries of page
tables. What the macros compute is stated over the natural numbers.
-/

namespace Xv6.Vm

open Xv6.Library

/-! ## Constants and macros -/

/-- PGSIZE: bytes mapped by a page -/
def pgsize : UInt32 := 4096
/-- NPDENTRIES: directory entries per page directory -/
def npdentries : Nat := 1024
/-- NPTENTRIES: PTEs per page table -/
def nptentries : Nat := 1024

def pgRoundUp (sz : UInt32) : UInt32 := (sz + pgsize - 1) &&& ~~~(pgsize - 1)
def pgRoundDown (a : UInt32) : UInt32 := a &&& ~~~(pgsize - 1)

/-- PDX: page directory index -/
def pdx (va : UInt32) : UInt32 := (va >>> 22) &&& 0x3FF
/-- PTX: page table index -/
def ptx (va : UInt32) : UInt32 := (va >>> 12) &&& 0x3FF
/-- PGADDR: construct virtual address from indexes and offset -/
def pgAddr (d t o : UInt32) : UInt32 := (d <<< 22) ||| (t <<< 12) ||| o

/-- PTE_P: Present -/
def pteP : UInt32 := 0x001
/-- PTE_W: Writeable -/
def pteW : UInt32 := 0x002
/-- PTE_U: User -/
def pteU : UInt32 := 0x004
/-- PTE_ADDR: address in page table or page directory entry -/
def pteAddr (pte : UInt32) : UInt32 := pte &&& ~~~0xFFF
def pteFlags (pte : UInt32) : UInt32 := pte &&& 0xFFF

/-- EXTMEM: start of extended memory -/
def extmem : UInt32 := 0x100000
/-- PHYSTOP: top physical memory -/
def phystop : UInt32 := 0xE000000
/-- DEVSPACE: other devices are at high addresses -/
def devspace : UInt32 := 0xFE000000
/-- KERNBASE: first kernel virtual address -/
def kernbase : UInt32 := 0x80000000
/-- KERNLINK: address where kernel is linked -/
def kernlink : UInt32 := kernbase + extmem

def v2p (a : UInt32) : UInt32 := a - kernbase
def p2v (a : UInt32) : UInt32 := a + kernbase

theorem toNat_pgsize : pgsize.toNat = 4096 := rfl

theorem toNat_pteP : pteP.toNat = 1 := rfl

theorem toNat_kernbase : kernbase.toNat = 2147483648 := rfl

/-! ## Rounding and indices -/

/-- Clearing the twelve low bits. -/
theorem toNat_clear_low (a : UInt32) : (a &&& ~~~0xFFF).toNat = a.toNat / 4096 * 4096 := by
  have mask : (~~~0xFFF : UInt32).toNat = (2 ^ 20 - 1) <<< 12 := by decide
  rw [UInt32.toNat_and, mask]
  exact and_high_mask (show a.toNat < 2 ^ (12 + 20) from a.toNat_lt)

theorem toNat_low_ten (a : UInt32) : (a &&& 0x3FF).toNat = a.toNat % 1024 := by
  rw [UInt32.toNat_and]
  exact Nat.and_two_pow_sub_one_eq_mod a.toNat 10

theorem toNat_pgRoundDown (a : UInt32) : (pgRoundDown a).toNat = a.toNat / 4096 * 4096 :=
  toNat_clear_low a

theorem toNat_pgRoundUp {sz : UInt32} (fits : sz.toNat ≤ 2 ^ 32 - 4096) :
    (pgRoundUp sz).toNat = (sz.toNat + 4095) / 4096 * 4096 := by
  have sum : (sz + pgsize - 1).toNat = sz.toNat + 4095 := by
    rw [UInt32.toNat_sub, UInt32.toNat_add, toNat_pgsize,
      UInt32.toNat_one]
    omega
  rw [pgRoundUp, show pgsize - 1 = 0xFFF by rfl, toNat_clear_low, sum]

theorem toNat_pdx (va : UInt32) : (pdx va).toNat = va.toNat / 4096 / 1024 := by
  have bound := va.toNat_lt
  rw [pdx, toNat_low_ten, UInt32.toNat_shiftRight, show (22 : UInt32).toNat % 32 = 22 by rfl,
    Nat.shiftRight_eq_div_pow]
  omega

theorem toNat_ptx (va : UInt32) : (ptx va).toNat = va.toNat / 4096 % 1024 := by
  rw [ptx, toNat_low_ten, UInt32.toNat_shiftRight, show (12 : UInt32).toNat % 32 = 12 by rfl,
    Nat.shiftRight_eq_div_pow]

/-- The address at which a page table's range starts. -/
theorem toNat_pgAddr {d : UInt32} (below : d.toNat < 1024) :
    (pgAddr d 0 0).toNat = d.toNat * 1024 * 4096 := by
  rw [pgAddr, show (0 : UInt32) <<< 12 = 0 by rfl, UInt32.or_zero, UInt32.or_zero,
    UInt32.toNat_shiftLeft, show (22 : UInt32).toNat % 32 = 22 by rfl, Nat.shiftLeft_eq]
  omega

/-! ## Entries -/

/-- The present bit of an entry. -/
def Present (pte : UInt32) : Prop := pte &&& pteP ≠ 0

instance (pte : UInt32) : Decidable (Present pte) := inferInstanceAs (Decidable (_ ≠ _))

theorem not_present_zero : ¬Present 0 := by decide

theorem toNat_v2p {a : UInt32} (kernel : kernbase ≤ a) :
    (v2p a).toNat = a.toNat - kernbase.toNat :=
  UInt32.toNat_sub_of_le a kernbase kernel

@[simp]
theorem p2v_v2p (a : UInt32) : p2v (v2p a) = a := by
  simp [p2v, v2p]

/-- What the bits of an entry made of an address and flags say. -/
theorem pteAddr_or {pa flags : UInt32} (aligned : pa.toNat % 4096 = 0)
    (small : flags.toNat < 4096) : pteAddr (pa ||| flags) = pa := by
  rw [← UInt32.toNat_inj, pteAddr, toNat_clear_low, UInt32.toNat_or,
    or_low_bits (show pa.toNat % 2 ^ 12 = 0 from aligned) small]
  omega

theorem pteFlags_or {pa flags : UInt32} (aligned : pa.toNat % 4096 = 0)
    (small : flags.toNat < 4096) : pteFlags (pa ||| flags) = flags := by
  have mask : (pteFlags (pa ||| flags)).toNat = (pa ||| flags).toNat % 4096 := by
    rw [pteFlags, UInt32.toNat_and]
    exact Nat.and_two_pow_sub_one_eq_mod _ 12
  rw [← UInt32.toNat_inj, mask, UInt32.toNat_or, or_low_bits (show pa.toNat % 2 ^ 12 = 0 from aligned) small]
  omega

theorem present_or_pteP (a : UInt32) : Present (a ||| pteP) := by
  intro clear
  have bit := congrArg UInt32.toNat clear
  rw [UInt32.toNat_and, UInt32.toNat_or, toNat_pteP, Nat.and_one_is_mod,
    Nat.or_mod_two_eq_one.mpr (Or.inr rfl)] at bit
  cases bit

/-- The flags of a present entry have the present bit. -/
theorem pteFlags_or_pteP {pte : UInt32} (present : Present pte) :
    pteFlags pte ||| pteP = pteFlags pte := by
  have odd : (pteFlags pte).toNat % 2 = 1 := by
    by_contra even
    apply present
    have low : pteFlags pte &&& pteP = pte &&& pteP := by
      rw [pteFlags, UInt32.and_assoc]
      rfl
    rw [← low, ← UInt32.toNat_inj, UInt32.toNat_and, toNat_pteP,
      Nat.and_one_is_mod]
    exact (Nat.mod_two_eq_zero_or_one _).resolve_right even
  have split : (pteFlags pte).toNat = (pteFlags pte).toNat / 2 * 2 ||| 1 := by
    rw [or_low_bits (show (pteFlags pte).toNat / 2 * 2 % 2 ^ 1 = 0 by omega) (by decide)]
    omega
  rw [← UInt32.toNat_inj, UInt32.toNat_or, toNat_pteP, split, Nat.or_assoc,
    Nat.or_self]

/-- Clearing the user bit leaves the address and the present bit. -/
theorem pteAddr_clear_user (pte : UInt32) : pteAddr (pte &&& ~~~pteU) = pteAddr pte := by
  rw [pteAddr, pteAddr, UInt32.and_assoc]
  rfl

theorem present_clear_user (pte : UInt32) : Present (pte &&& ~~~pteU) ↔ Present pte := by
  rw [Present, Present, UInt32.and_assoc]
  exact Iff.rfl

end Xv6.Vm
