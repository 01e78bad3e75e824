import Xv6.Net.Arp

/-!
# The arrays of `get_ip`

`get_ip` of `arp_frame.c` with every access to its two local arrays. An access
goes wrong when it leaves an array, or reads an element that was never written.
-/

namespace Xv6.Net

/-- The locals of `get_ip`. An element that was not written is `none`. -/
structure GetIpState where
  arr : Nat → Option UInt8
  n1 : Nat
  ipVals : Nat → Option UInt32
  n2 : Nat

namespace GetIpState

/-- `arr[n1++] = ch`, in an array of four -/
def pushArr (state : GetIpState) (ch : UInt8) : Option GetIpState :=
  if state.n1 < 4 then
    some { state with arr := Function.update state.arr state.n1 (some ch), n1 := state.n1 + 1 }
  else none

/-- `ip_vals[n2++] = value`, in an array of four -/
def pushVal (state : GetIpState) (value : UInt32) : Option GetIpState :=
  if state.n2 < 4 then
    some { state with
      ipVals := Function.update state.ipVals state.n2 (some value), n2 := state.n2 + 1 }
  else none

end GetIpState

/-- The loop of `util_atoi` on an array that has `left` more elements from `i` on. -/
def atoiArr (arr : Nat → Option UInt8) : Nat → Nat → UInt32 → Option UInt32
  | 0, _, _ => none
  | left + 1, i, n => do
      let c ← arr i
      if 48 ≤ c ∧ c ≤ 57 then atoiArr arr left (i + 1) (n * 10 + charToUInt32 c - 48) else some n

/-- `arr[n1++] = '\0'; n1 = 0; ip_vals[n2++] = util_atoi(arr);` -/
def GetIpState.endOctet (state : GetIpState) : Option GetIpState := do
  let state ← state.pushArr 0
  let value ← atoiArr state.arr 4 0 0
  { state with n1 := 0 }.pushVal value

def getIpFrom : List UInt8 → GetIpState → Option GetIpState
  | [], state => some state
  | ch :: rest, state => do
      let state ← if ch = 46 then state.endOctet else state.pushArr ch
      getIpFrom rest state

/-- `get_ip`; `none` when an access goes wrong. -/
def getIpAccesses (ip : List UInt8) : Option UInt32 := do
  let state ← getIpFrom ip { arr := fun _ => none, n1 := 0, ipVals := fun _ => none, n2 := 0 }
  let state ← state.endOctet
  let v3 ← state.ipVals 3
  let v2 ← state.ipVals 2
  let v1 ← state.ipVals 1
  let v0 ← state.ipVals 0
  return (v3 <<< 24) + (v2 <<< 16) + (v1 <<< 8) + v0

/-! ## The arrays and their contents -/

/-- The characters `arr` of an octet and the values `ipVals` are in the arrays. -/
structure GetIpState.Holds (state : GetIpState) (arr : List UInt8) (ipVals : List UInt32) :
    Prop where
  n1 : state.n1 = arr.length
  arr : ∀ i < arr.length, state.arr i = arr[i]?
  n2 : state.n2 = ipVals.length
  ipVals : ∀ i, state.ipVals i = ipVals[i]?

namespace GetIpState

variable {state : GetIpState} {arr : List UInt8} {ipVals : List UInt32}

theorem Holds.pushArr (holds : state.Holds arr ipVals) (room : arr.length < 4) (ch : UInt8) :
    ∃ next, state.pushArr ch = some next ∧ next.Holds (arr ++ [ch]) ipVals := by
  refine ⟨_, if_pos (holds.n1 ▸ room), ?_, ?_, holds.n2, holds.ipVals⟩
  · rw [List.length_append, List.length_singleton, ← holds.n1]
  · intro i below
    rw [List.length_append, List.length_singleton] at below
    change Function.update state.arr state.n1 (some ch) i = _
    rw [holds.n1]
    obtain before | rfl := Nat.lt_or_eq_of_le (Nat.le_of_lt_succ below)
    · rw [Function.update_of_ne (Nat.ne_of_lt before), holds.arr i before,
        List.getElem?_append_left before]
    · rw [Function.update_self, List.getElem?_concat_length]

theorem Holds.pushArr_none (holds : state.Holds arr ipVals) (full : ¬arr.length < 4) (ch : UInt8) :
    state.pushArr ch = none :=
  if_neg (holds.n1 ▸ full)

/-- A character up to the terminator is there to be read. -/
theorem Holds.read (holds : state.Holds arr ipVals) {i : Nat} {c : UInt8} {part : List UInt8}
    (rest : arr.drop i = c :: part) : state.arr i = some c ∧ arr.drop (i + 1) = part := by
  have below : i < arr.length := by
    by_contra ended
    rw [List.drop_eq_nil_of_le (Nat.not_lt.mp ended)] at rest
    cases rest
  constructor
  · rw [holds.arr i below, ← List.head?_drop, rest]
    rfl
  · rw [← List.tail_drop, rest]
    rfl

/-- The digits are read up to the terminator. -/
theorem Holds.atoi (holds : state.Holds (arr ++ [0]) ipVals) {left i : Nat} {part : List UInt8}
    (rest : (arr ++ [0]).drop i = part ++ [0]) (room : part.length < left) (n : UInt32) :
    atoiArr state.arr left i n = some (utilAtoi part n) := by
  induction part generalizing left i n with
  | nil =>
      obtain ⟨left, rfl⟩ := Nat.exists_eq_succ_of_ne_zero (Nat.ne_of_gt room)
      obtain ⟨terminator, -⟩ := holds.read rest
      simp [atoiArr, terminator, utilAtoi]
  | cons c part inductionHypothesis =>
      obtain ⟨left, rfl⟩ := Nat.exists_eq_succ_of_ne_zero (Nat.ne_of_gt (Nat.zero_lt_of_lt room))
      obtain ⟨read, later⟩ := holds.read rest
      rw [atoiArr, utilAtoi, read, Option.bind_eq_bind, Option.bind_some]
      by_cases digit : 48 ≤ c ∧ c ≤ 57
      · rw [if_pos digit, if_pos digit]
        exact inductionHypothesis later (Nat.lt_of_succ_lt_succ room) _
      · rw [if_neg digit, if_neg digit]

theorem Holds.atoi_start (holds : state.Holds (arr ++ [0]) ipVals) (short : arr.length < 4) :
    atoiArr state.arr 4 0 0 = some (utilAtoi arr 0) :=
  holds.atoi List.drop_zero short 0

theorem Holds.pushVal (holds : state.Holds arr ipVals) (room : ipVals.length < 4)
    (value : UInt32) :
    ∃ next, state.pushVal value = some next ∧ next.Holds arr (ipVals ++ [value]) := by
  refine ⟨_, if_pos (holds.n2 ▸ room), holds.n1, holds.arr, ?_, ?_⟩
  · rw [List.length_append, List.length_singleton, ← holds.n2]
  · intro i
    change Function.update state.ipVals state.n2 (some value) i = _
    rw [holds.n2]
    obtain before | rfl | after := Nat.lt_trichotomy i ipVals.length
    · rw [Function.update_of_ne (Nat.ne_of_lt before), holds.ipVals i,
        List.getElem?_append_left before]
    · rw [Function.update_self, List.getElem?_concat_length]
    · rw [Function.update_of_ne (Nat.ne_of_gt after), holds.ipVals i,
        List.getElem?_eq_none (Nat.le_of_lt after), List.getElem?_eq_none]
      rw [List.length_append, List.length_singleton]
      exact after

/-- With `n1 = 0` the next octet begins; what it finds in `arr` does not matter. -/
theorem Holds.begin (holds : state.Holds arr ipVals) :
    ({ state with n1 := 0 } : GetIpState).Holds [] ipVals :=
  ⟨rfl, fun _ below => absurd below (Nat.not_lt_zero _), holds.n2, holds.ipVals⟩

theorem Holds.endOctet (holds : state.Holds arr ipVals) (short : arr.length < 4)
    (room : ipVals.length < 4) :
    ∃ next, state.endOctet = some next ∧ next.Holds [] (ipVals ++ [utilAtoi arr 0]) := by
  obtain ⟨ended, pushed, terminated⟩ := holds.pushArr short 0
  have value := terminated.atoi_start short
  obtain ⟨next, stored, begun⟩ := terminated.begin.pushVal room (utilAtoi arr 0)
  refine ⟨next, ?_, begun⟩
  rw [GetIpState.endOctet, pushed, Option.bind_eq_bind, Option.bind_some, value,
    Option.bind_eq_bind, Option.bind_some, stored]

/-- An octet that is too long, or one too many, leaves its array. -/
theorem Holds.endOctet_none (holds : state.Holds arr ipVals)
    (full : ¬(arr.length < 4 ∧ ipVals.length < 4)) : state.endOctet = none := by
  by_cases short : arr.length < 4
  · obtain ⟨ended, pushed, terminated⟩ := holds.pushArr short 0
    have value := terminated.atoi_start short
    have beyond : ({ ended with n1 := 0 } : GetIpState).pushVal (utilAtoi arr 0) = none :=
      if_neg (terminated.n2 ▸ fun room => full ⟨short, room⟩)
    rw [GetIpState.endOctet, pushed, Option.bind_eq_bind, Option.bind_some, value,
      Option.bind_eq_bind, Option.bind_some, beyond]
  · rw [GetIpState.endOctet, holds.pushArr_none short, Option.bind_eq_bind, Option.bind_none]

end GetIpState

/-! ## The addresses that stay inside -/

/-- The loop on the arrays follows the loop on their contents. -/
theorem getIpFrom_eq (ip : List UInt8) {state : GetIpState} {arr : List UInt8}
    {ipVals : List UInt32} (holds : state.Holds arr ipVals) :
    (getIpLoop ip arr ipVals = none ∧ getIpFrom ip state = none) ∨
      ∃ last values next, getIpLoop ip arr ipVals = some (last, values) ∧
        getIpFrom ip state = some next ∧ next.Holds last values := by
  induction ip generalizing state arr ipVals with
  | nil => exact Or.inr ⟨arr, ipVals, state, rfl, rfl, holds⟩
  | cons ch rest inductionHypothesis =>
      rw [getIpLoop, getIpFrom]
      by_cases dot : ch = 46
      · rw [if_pos dot, if_pos dot]
        by_cases inside : arr.length < 4 ∧ ipVals.length < 4
        · obtain ⟨next, ended, begun⟩ := holds.endOctet inside.1 inside.2
          rw [if_pos inside, ended, Option.bind_eq_bind, Option.bind_some]
          exact inductionHypothesis begun
        · rw [if_neg inside, holds.endOctet_none inside]
          exact Or.inl ⟨rfl, rfl⟩
      · rw [if_neg dot, if_neg dot]
        by_cases short : arr.length < 4
        · obtain ⟨next, pushed, more⟩ := holds.pushArr short ch
          rw [if_pos short, pushed, Option.bind_eq_bind, Option.bind_some]
          exact inductionHypothesis more
        · rw [if_neg short, holds.pushArr_none short]
          exact Or.inl ⟨rfl, rfl⟩

/-- Every access of `get_ip` is a good one exactly if `getIp` has a value. -/
theorem getIpAccesses_eq (ip : List UInt8) : getIpAccesses ip = getIp ip := by
  have start : ({ arr := fun _ => none, n1 := 0, ipVals := fun _ => none, n2 := 0 } :
      GetIpState).Holds [] [] :=
    ⟨rfl, fun _ below => absurd below (Nat.not_lt_zero _), rfl, fun _ => rfl⟩
  obtain ⟨wrong, failed⟩ | ⟨last, values, state, looped, ran, holds⟩ := getIpFrom_eq ip start
  · rw [getIpAccesses, failed, getIp, wrong, Option.bind_eq_bind, Option.bind_none]
  · rw [getIpAccesses, ran, getIp, looped, Option.bind_eq_bind, Option.bind_some]
    by_cases inside : last.length < 4 ∧ values.length < 4
    · obtain ⟨next, ended, stored⟩ := holds.endOctet inside.1 inside.2
      rw [ended, Option.bind_eq_bind, Option.bind_some]
      simp only [stored.ipVals]
      obtain _ | ⟨v0, _ | ⟨v1, _ | ⟨v2, _ | ⟨v3, rest⟩⟩⟩⟩ := values
      · rfl
      · rfl
      · rfl
      · exact (if_pos inside.1).symm
      · exact absurd inside.2 (by simp)
    · rw [holds.endOctet_none inside, Option.bind_eq_bind, Option.bind_none]
      obtain _ | ⟨v0, _ | ⟨v1, _ | ⟨v2, _ | ⟨v3, rest⟩⟩⟩⟩ := values
      · rfl
      · rfl
      · rfl
      · exact (if_neg fun short => inside ⟨short, (by decide : 3 < 4)⟩).symm
      · rfl

theorem getIp_isSome (ip : List UInt8) : (getIp ip).isSome ↔
    ∃ last values, getIpLoop ip [] [] = some (last, values) ∧ values.length = 3 ∧
      last.length < 4 := by
  rw [getIp]
  split
  · rename_i last v0 v1 v2 looped
    by_cases short : last.length < 4
    · simp [looped, short]
    · simp [looped, short]
  · rename_i other
    constructor
    · intro some
      cases some
    · rintro ⟨last, values, looped, three, -⟩
      obtain ⟨v0, v1, v2, rfl⟩ := List.length_eq_three.mp three
      exact absurd looped (other last v0 v1 v2)

/-- The loop has a value left for each dot, and the octets are what lies between them. -/
theorem getIpLoop_three (ip arr : List UInt8) (ipVals : List UInt32) :
    (∃ last values, getIpLoop ip arr ipVals = some (last, values) ∧ values.length = 3 ∧
      last.length < 4) ↔
      ipVals.length + (ip.splitOn 46).length = 4 ∧
        ∀ part ∈ (ip.splitOn 46).modifyHead (arr ++ ·), part.length < 4 := by
  induction ip generalizing arr ipVals with
  | nil =>
      have whole : (List.splitOn 46 ([] : List UInt8)).modifyHead (arr ++ ·) = [arr] := by
        rw [List.splitOn_nil, List.modifyHead_cons, List.append_nil]
      rw [whole, List.splitOn_nil]
      simp [getIpLoop]
  | cons ch rest inductionHypothesis =>
      rw [getIpLoop, List.splitOn_eq_splitOnP, List.splitOnP_cons_eq_if_modifyHead,
        ← List.splitOn_eq_splitOnP]
      obtain ⟨first, others, parts⟩ := List.exists_cons_of_ne_nil
        (show rest.splitOn 46 ≠ [] by
          rw [List.splitOn_eq_splitOnP]
          exact List.splitOnP_ne_nil _ _)
      by_cases dot : ch = 46
      · rw [if_pos dot, if_pos (beq_iff_eq.mpr dot), List.modifyHead_cons, List.append_nil,
          List.forall_mem_cons, List.length_cons]
        by_cases inside : arr.length < 4 ∧ ipVals.length < 4
        · have same : (rest.splitOn 46).modifyHead ([] ++ ·) = rest.splitOn 46 := by
            rw [parts, List.modifyHead_cons, List.nil_append]
          rw [if_pos inside, inductionHypothesis, same, List.length_append, List.length_singleton,
            Nat.add_assoc, Nat.add_comm 1, and_iff_right inside.1]
        · rw [if_neg inside]
          constructor
          · rintro ⟨last, values, wrong, -⟩
            cases wrong
          · rintro ⟨four, short, -⟩
            have room : ipVals.length < 4 := by
              rw [parts, List.length_cons] at four
              omega
            exact absurd ⟨short, room⟩ inside
      · rw [if_neg dot, if_neg (fun same => dot (beq_iff_eq.mp same)), parts,
          List.modifyHead_cons, List.modifyHead_cons, List.forall_mem_cons]
        by_cases short : arr.length < 4
        · rw [if_pos short, inductionHypothesis, parts, List.modifyHead_cons,
            List.forall_mem_cons, List.append_assoc, List.singleton_append]
          rfl
        · rw [if_neg short]
          constructor
          · rintro ⟨last, values, wrong, -⟩
            cases wrong
          · rintro ⟨-, fits, -⟩
            rw [List.length_append] at fits
            omega

/-- The accesses of `get_ip` are good ones exactly on four parts of up to three characters. -/
theorem getIpAccesses_isSome (ip : List UInt8) : (getIpAccesses ip).isSome ↔
    (ip.splitOn 46).length = 4 ∧ ∀ part ∈ ip.splitOn 46, part.length ≤ 3 := by
  have same : (ip.splitOn 46).modifyHead ([] ++ ·) = ip.splitOn 46 := by
    cases ip.splitOn 46 with
    | nil => rfl
    | cons first others => rw [List.modifyHead_cons, List.nil_append]
  rw [getIpAccesses_eq, getIp_isSome, getIpLoop_three, same, List.length_nil, Nat.zero_add]
  exact Iff.rfl.and (forall₂_congr fun _ _ => Nat.lt_succ_iff)

/-- `arp("mynet0", "1234", ..)`: the terminator goes to `arr[4]`. -/
theorem getIpAccesses_four : ¬(getIpAccesses [49, 50, 51, 52]).isSome := by
  decide

end Xv6.Net
