import Xv6.Library.Action
import Xv6.Library.LittleEndian
import Xv6.Vm.Layout

/-!
# The arguments of a system call

`syscall.c`: the arguments are on the user's stack, and what they point to has to
lie in the user's memory. The sums are of 32 bits.
-/

namespace Xv6.Syscall

open Xv6.Library Xv6.Vm

/-- The process that calls, with its memory. The kernel has read the bytes at `reads`. -/
structure Caller where
  sz : UInt32
  esp : UInt32
  memory : Memory
  reads : List Nat

/-! ## The functions -/

/-- `*(int*)addr` -/
def loadInt (addr : UInt32) : Action Caller UInt32 := do
  let value ← Action.get fun c : Caller => UInt32.ofNat (c.memory.load addr.toNat 4)
  Action.modify fun c => { c with reads := c.reads ++ (List.range 4).map (addr.toNat + ·) }
  return value

/-- `*s` -/
def loadChar (s : UInt32) : Action Caller UInt8 := do
  let value ← Action.get fun c : Caller => c.memory s.toNat
  Action.modify fun c => { c with reads := c.reads ++ [s.toNat] }
  return value

/-- Fetch the int at `addr` from the current process; nothing for -1. -/
def fetchint (addr : UInt32) : Action Caller (Option UInt32) := do
  let sz ← Action.get Caller.sz
  if sz ≤ addr ∨ sz < addr + 4 then return none
  else
    let value ← loadInt addr
    return some value

/-- The loop of `fetchstr`, which ends before `ep`. -/
def fetchFrom (pp ep : UInt32) : Nat → UInt32 → Action Caller (Option (UInt32 × Int))
  | 0, _ => Action.never
  | fuel + 1, s =>
      if s < ep then do
        let c ← loadChar s
        if c = 0 then return some (pp, (s - pp).toInt32.toInt)
        else fetchFrom pp ep fuel (s + 1)
      else return none

/-- Fetch the nul-terminated string at `addr` from the current process: the pointer and
the length of the string. -/
def fetchstr (addr : UInt32) : Action Caller (Option (UInt32 × Int)) := do
  let sz ← Action.get Caller.sz
  if sz ≤ addr then return none
  else fetchFrom addr sz (sz.toNat + 1) addr

/-- Fetch the nth 32-bit system call argument. -/
def argint (n : UInt32) : Action Caller (Option UInt32) := do
  let esp ← Action.get Caller.esp
  fetchint (esp + 4 + 4 * n)

/-- Fetch the nth word-sized system call argument as a pointer to a block of memory of
`size` bytes. -/
def argptr (n : UInt32) (size : Int32) : Action Caller (Option UInt32) := do
  match ← argint n with
  | none => return none
  | some i =>
      let sz ← Action.get Caller.sz
      if size < 0 ∨ sz ≤ i ∨ sz < i + size.toUInt32 then return none
      else return some i

/-- Fetch the nth word-sized system call argument as a string pointer. -/
def argstr (n : UInt32) : Action Caller (Option (UInt32 × Int)) := do
  match ← argint n with
  | none => return none
  | some addr => fetchstr addr

/-! ## Regions of user memory -/

variable {c later : Caller}

/-- The bytes of the region lie in the user's memory, and so do their addresses. -/
def Caller.Inside (c : Caller) (addr : UInt32) (count : Nat) : Prop :=
  addr.toNat + count ≤ c.sz.toNat

/-- Bytes of the user have been read, and nothing else has happened. -/
structure Looked (c later : Caller) : Prop where
  sz : later.sz = c.sz
  esp : later.esp = c.esp
  memory : later.memory = c.memory
  reads : ∀ a ∈ later.reads, a ∈ c.reads ∨ a < c.sz.toNat

theorem Looked.refl (c : Caller) : Looked c c where
  sz := rfl
  esp := rfl
  memory := rfl
  reads _ member := Or.inl member

theorem Looked.trans {middle : Caller} (first : Looked c middle) (second : Looked middle later) :
    Looked c later where
  sz := second.sz.trans first.sz
  esp := second.esp.trans first.esp
  memory := second.memory.trans first.memory
  reads a member := by
    obtain old | inside := second.reads a member
    · exact first.reads a old
    · exact Or.inr (first.sz ▸ inside)

/-- The word at `addr` is the user's. -/
structure IsWord (c : Caller) (addr value : UInt32) : Prop where
  inside : c.Inside addr 4
  value : value.toNat = c.memory.load addr.toNat 4

/-- The string at `addr` ends at its first NUL, `length` bytes further on. -/
structure IsString (c : Caller) (addr : UInt32) (length : Int) : Prop where
  positive : 0 ≤ length
  inside : c.Inside addr (length.toNat + 1)
  ends : c.memory (addr.toNat + length.toNat) = 0
  first : ∀ i < length.toNat, c.memory (addr.toNat + i) ≠ 0

/-- A 32-bit sum of addresses below KERNBASE does not wrap. -/
theorem toNat_add_small {a b : UInt32} (first : a.toNat < 0x80000000)
    (second : b.toNat < 0x80000000) : (a + b).toNat = a.toNat + b.toNat := by
  rw [UInt32.toNat_add]
  omega

theorem fetchint_ends (small : c.sz.toNat < 0x80000000) (addr : UInt32) :
    (fetchint addr c).Ends (fun _ => False) fun result later =>
      Looked c later ∧ ∀ value, result = some value → IsWord c addr value := by
  rw [fetchint, Action.get_bind]
  by_cases outside : c.sz ≤ addr ∨ c.sz < addr + 4
  · rw [if_pos outside]
    exact ⟨Looked.refl c, fun _ => nofun⟩
  · rw [if_neg outside]
    rw [not_or, UInt32.not_le, UInt32.not_lt, UInt32.lt_iff_toNat_lt,
      UInt32.le_iff_toNat_le] at outside
    obtain ⟨below, ends⟩ := outside
    have sum : (addr + 4).toNat = addr.toNat + 4 :=
      toNat_add_small (by omega) (show (4 : UInt32).toNat < 0x80000000 by decide)
    rw [sum] at ends
    refine ⟨⟨rfl, rfl, rfl, ?_⟩, ?_⟩
    · intro a member
      obtain old | new := List.mem_append.mp member
      · exact Or.inl old
      · obtain ⟨i, inside, rfl⟩ := List.mem_map.mp new
        rw [List.mem_range] at inside
        exact Or.inr (by omega)
    · rintro value ⟨⟩
      refine ⟨ends, ?_⟩
      rw [UInt32.toNat_ofNat']
      exact Nat.mod_eq_of_lt (Memory.load_lt c.memory addr.toNat 4)

/-- The bytes from `pp` to `s` have been looked at, and none of them is NUL. -/
theorem fetchFrom_ends {pp s : UInt32} {fuel : Nat} (small : c.sz.toNat < 0x80000000)
    (start : pp.toNat ≤ s.toNat) (within : s.toNat ≤ c.sz.toNat)
    (enough : c.sz.toNat < s.toNat + fuel)
    (plain : ∀ i, pp.toNat + i < s.toNat → c.memory (pp.toNat + i) ≠ 0) :
    (fetchFrom pp c.sz fuel s c).Ends (fun _ => False) fun result later =>
      Looked c later ∧ ∀ value, result = some value → value.1 = pp ∧ IsString c pp value.2 := by
  induction fuel generalizing s c with
  | zero => omega
  | succ fuel inductionHypothesis =>
      rw [fetchFrom]
      by_cases more : s < c.sz
      · have below := UInt32.lt_iff_toNat_lt.mp more
        have looked : Looked c { c with reads := c.reads ++ [s.toNat] } := by
          refine ⟨rfl, rfl, rfl, ?_⟩
          intro a member
          obtain old | new := List.mem_append.mp member
          · exact Or.inl old
          · rw [List.mem_singleton.mp new]
            exact Or.inr below
        have ran : loadChar s c =
            .done (c.memory s.toNat) { c with reads := c.reads ++ [s.toNat] } := rfl
        rw [if_pos more, Action.bind_done ran]
        by_cases nul : c.memory s.toNat = 0
        · rw [if_pos nul]
          refine ⟨looked, ?_⟩
          rintro value ⟨⟩
          have distance : (s - pp).toNat = s.toNat - pp.toNat :=
            UInt32.toNat_sub_of_le s pp (UInt32.le_iff_toNat_le.mpr start)
          have length : (s - pp).toInt32.toInt = (s.toNat - pp.toNat : Nat) := by
            rw [← distance]
            exact BitVec.toInt_eq_toNat_of_lt (by
              change 2 * (s - pp).toNat < 2 ^ 32
              omega)
          refine ⟨rfl, ?_, ?_, ?_, ?_⟩
          · rw [length]
            exact Int.natCast_nonneg _
          · rw [length, Int.toNat_natCast, Caller.Inside]
            omega
          · rw [length, Int.toNat_natCast, show pp.toNat + (s.toNat - pp.toNat) = s.toNat by omega]
            exact nul
          · rw [length, Int.toNat_natCast]
            exact fun i before => plain i (by omega)
        · rw [if_neg nul]
          have next : (s + 1).toNat = s.toNat + 1 :=
            toNat_add_small (by omega) (show (1 : UInt32).toNat < 0x80000000 by decide)
          have rest := inductionHypothesis (c := { c with reads := c.reads ++ [s.toNat] })
            (s := s + 1) small (by omega) (by dsimp only; omega) (by dsimp only; omega) (by
              intro i before
              obtain earlier | here := Nat.lt_or_ge (pp.toNat + i) s.toNat
              · exact plain i earlier
              · rw [show pp.toNat + i = s.toNat by omega]
                exact nul)
          refine rest.mono ?_
          rintro result later ⟨after, found⟩
          refine ⟨looked.trans after, fun value some => ?_⟩
          obtain ⟨same, string⟩ := found value some
          exact ⟨same, string.positive, string.inside, string.ends, string.first⟩
      · rw [if_neg more]
        exact ⟨Looked.refl c, fun _ => nofun⟩

theorem fetchstr_ends (small : c.sz.toNat < 0x80000000) (addr : UInt32) :
    (fetchstr addr c).Ends (fun _ => False) fun result later =>
      Looked c later ∧ ∀ value, result = some value → value.1 = addr ∧ IsString c addr value.2 := by
  rw [fetchstr, Action.get_bind]
  by_cases outside : c.sz ≤ addr
  · rw [if_pos outside]
    exact ⟨Looked.refl c, fun _ => nofun⟩
  · rw [if_neg outside]
    rw [UInt32.not_le, UInt32.lt_iff_toNat_lt] at outside
    exact fetchFrom_ends small (Nat.le_refl _) (Nat.le_of_lt outside) (by omega)
      fun i before => absurd before (by omega)

/-! ## The arguments -/

/-- Where the nth argument is on the stack. -/
def argAddr (c : Caller) (n : UInt32) : UInt32 := c.esp + 4 + 4 * n

theorem argint_ends (small : c.sz.toNat < 0x80000000) (n : UInt32) :
    (argint n c).Ends (fun _ => False) fun result later =>
      Looked c later ∧ ∀ value, result = some value → IsWord c (argAddr c n) value :=
  fetchint_ends small (argAddr c n)

/-- What `argptr` hands to the kernel: the argument, and `size` bytes of the user. -/
structure IsBlock (c : Caller) (n : UInt32) (size : Int32) (p : UInt32) : Prop where
  word : IsWord c (argAddr c n) p
  start : p.toNat < c.sz.toNat
  positive : 0 ≤ size.toInt
  inside : c.Inside p size.toInt.toNat

theorem argptr_ends (small : c.sz.toNat < 0x80000000) (n : UInt32) (size : Int32) :
    (argptr n size c).Ends (fun _ => False) fun result later =>
      Looked c later ∧ ∀ p, result = some p → IsBlock c n size p := by
  rw [argptr, Action.ends_bind]
  refine (argint_ends small n).mono ?_
  rintro fetched middle ⟨looked, word⟩
  cases fetched with
  | none => exact ⟨looked, fun _ => nofun⟩
  | some i =>
      dsimp only
      rw [Action.get_bind]
      by_cases outside : size < 0 ∨ middle.sz ≤ i ∨ middle.sz < i + size.toUInt32
      · rw [if_pos outside]
        exact ⟨looked, fun _ => nofun⟩
      · rw [if_neg outside]
        refine ⟨looked, ?_⟩
        rintro p ⟨⟩
        rw [not_or, not_or, looked.sz, UInt32.not_le, UInt32.not_lt, UInt32.lt_iff_toNat_lt,
          UInt32.le_iff_toNat_le, Int32.not_lt, Int32.le_iff_toInt_le] at outside
        obtain ⟨positive, below, ends⟩ := outside
        have positive : 0 ≤ size.toInt := positive
        have bytes : (size.toInt.toNat : Int) = size.toUInt32.toNat ∧
            size.toUInt32.toNat < 0x80000000 := by
          have cases : size.toInt = if 2 * size.toUInt32.toNat < 2 ^ 32 then
              (size.toUInt32.toNat : Int) else size.toUInt32.toNat - (2 ^ 32 : Nat) :=
            BitVec.toInt_eq_toNat_cond size.toBitVec
          have bound := size.toUInt32.toNat_lt
          split at cases <;> omega
        have sum : (i + size.toUInt32).toNat = i.toNat + size.toUInt32.toNat :=
          toNat_add_small (by omega) bytes.2
        refine ⟨word i rfl, below, positive, ?_⟩
        rw [Caller.Inside]
        omega

theorem argstr_ends (small : c.sz.toNat < 0x80000000) (n : UInt32) :
    (argstr n c).Ends (fun _ => False) fun result later =>
      Looked c later ∧ ∀ value, result = some value →
        IsWord c (argAddr c n) value.1 ∧ IsString c value.1 value.2 := by
  rw [argstr, Action.ends_bind]
  refine (argint_ends small n).mono ?_
  rintro fetched middle ⟨looked, word⟩
  cases fetched with
  | none => exact ⟨looked, fun _ => nofun⟩
  | some addr =>
      refine (fetchstr_ends (looked.sz ▸ small) addr).mono ?_
      rintro result later ⟨after, found⟩
      refine ⟨looked.trans after, ?_⟩
      intro value some
      obtain ⟨same, string⟩ := found value some
      rw [same]
      refine ⟨word addr rfl, string.positive, ?_, ?_, ?_⟩
      · rw [Caller.Inside, ← looked.sz]
        exact string.inside
      · rw [← looked.memory]
        exact string.ends
      · rw [← looked.memory]
        exact string.first

/-- The kernel reads bytes of the user only, and what it is handed lies below the size of
the process as unbounded integers: a word, a block of `size` bytes, or a string with its NUL. -/
theorem args_inside (small : c.sz < kernbase) (n : UInt32) (size : Int32) :
    ((argint n c).Ends (fun _ => False) fun result later =>
      Looked c later ∧ ∀ value, result = some value → IsWord c (argAddr c n) value) ∧
    ((argptr n size c).Ends (fun _ => False) fun result later =>
      Looked c later ∧ ∀ p, result = some p → IsBlock c n size p) ∧
    ((argstr n c).Ends (fun _ => False) fun result later =>
      Looked c later ∧ ∀ value, result = some value →
        IsWord c (argAddr c n) value.1 ∧ IsString c value.1 value.2) := by
  have bound : c.sz.toNat < 0x80000000 := UInt32.lt_iff_toNat_lt.mp small
  exact ⟨argint_ends bound n, argptr_ends bound n size, argstr_ends bound n⟩

/-- A stack with one argument, which points to the string after it. -/
def oneArg : Caller where
  sz := 16
  esp := 4
  memory := Memory.write (fun _ => 0) 8 [12, 0, 0, 0, 104, 105]
  reads := []

theorem args_inside_oneArg :
    (∃ later, argptr 0 4 oneArg = .done (some 12) later ∧ Looked oneArg later ∧
      IsBlock oneArg 0 4 12) ∧
    ∃ later, argstr 0 oneArg = .done (some (12, 2)) later ∧ Looked oneArg later ∧
      IsString oneArg 12 2 := by
  obtain ⟨-, pointer, string⟩ := args_inside (show oneArg.sz < kernbase by decide) 0 4
  have block : argptr 0 4 oneArg =
      .done (some 12) { oneArg with reads := [8, 9, 10, 11] } := by rfl
  have text : argstr 0 oneArg =
      .done (some (12, 2)) { oneArg with reads := [8, 9, 10, 11, 12, 13, 14] } := by rfl
  obtain ⟨looked, inside⟩ := pointer.of_done block
  obtain ⟨read, found⟩ := string.of_done text
  exact ⟨⟨_, block, looked, inside 12 rfl⟩, _, text, read, (found (12, 2) rfl).2⟩

end Xv6.Syscall
