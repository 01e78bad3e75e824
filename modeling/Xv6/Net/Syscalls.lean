import Xv6.Net.Arp
import Xv6.Net.Init
import Xv6.Proc.SyscallArgs

/-!
# The network system calls

`sys_arp`, `sys_icmptest` and `sys_checknic` of `sysfile.c`, with the pages they
take from the allocator and the pointers they use. None of them gives a page
back, and `sys_checknic` does not ask whether there is an interface.
-/

namespace Xv6.NetCalls

open Xv6.Library
open Xv6.Net (NicDevice Nic getDevice sendArpRequest createEthArpFrame sendIcmpRequest
  sendIcmpRequest_eq dottedQuad getIP_dottedQuad v2p emulatedCard)
open Xv6.Syscall (Caller argint argptr argstr fetchint fetchstr fetchFrom loadInt loadChar)

/-! ## The state -/

/-- The pages `kalloc` has to give. -/
structure FreePages where
  pages : List Nat
  distinct : pages.Nodup
  nonzero : ∀ page ∈ pages, page ≠ 0

/-- The first page, or 0. -/
def FreePages.take (free : FreePages) : Nat × FreePages :=
  match eq : free.pages with
  | [] => (0, free)
  | page :: rest =>
      (page,
        { pages := rest
          distinct := (List.nodup_cons.mp (eq ▸ free.distinct)).2
          nonzero := fun other member => free.nonzero other (eq ▸ List.mem_cons_of_mem page member) })

/-- What a call uses that it should not without asking. -/
inductive Use where
  /-- A store through the result 0 of `kalloc`. -/
  | nullPage
  /-- An access to `struct e1000` behind `nic_devices[0].driver`, or to a register or a
  descriptor that is found there. -/
  | driver
  /-- A call of a function pointer of `nic_devices[0]`. -/
  | function
  deriving DecidableEq

/-- The calling process, the free pages, `nic_devices[0]` and the card behind its `driver`,
the counter of `send_icmpRequest`, and what was used. -/
structure NetKernel where
  caller : Caller
  free : FreePages
  driver : Nat
  device : NicDevice
  nic : Nic
  id : UInt16
  uses : List Use

def onCaller {Value : Type} (action : Action Caller Value) : Action NetKernel Value :=
  Action.focus NetKernel.caller (fun k caller => { k with caller := caller }) action

def noteUse (use : Use) : Action NetKernel Unit :=
  Action.modify fun k => { k with uses := k.uses ++ [use] }

def kallocPage : Action NetKernel Nat := do
  let free ← Action.get NetKernel.free
  Action.modify fun k => { k with free := free.take.2 }
  return free.take.1

/-- Stores in the page at `p`. What the page holds afterwards does not matter here. -/
def storePage (p : Nat) : Action NetKernel Unit :=
  Action.ifThen (p = 0) (noteUse .nullPage)

/-! ## The card -/

/-- `nd->send_packet(nd->driver, pkt, length)`: `e1000_send` until it waits for the card. -/
def sendPacket (pkt : List UInt8) : Action NetKernel Unit := do
  noteUse .function
  noteUse .driver
  Action.modify fun k => { k with nic := (k.nic.fillDescriptor pkt).advanceTail.writeTDT }

/-- `e1000_recv(e1000p, p, &length)`; returns `length`. -/
def recvPacket (p : Nat) : Action NetKernel Nat := do
  noteUse .driver
  let nic ← Action.get NetKernel.nic
  match nic.e1000Recv with
  | (nic, none) => do
      Action.modify fun k => { k with nic := nic }
      return 0
  | (nic, some pkt) => do
      Action.modify fun k => { k with nic := nic }
      Action.ifThen (pkt ≠ []) (storePage p)
      return pkt.length

/-! ## The calls -/

section Model

-- the content of the stack, and what the card does before each poll
variable (stack : Memory) (card : Nat → Nic → Nic)

/-- `send_arpRequest`. An address that makes `get_ip` go wrong counts as a panic. -/
def sendArp (ipAddr : List UInt8) : Action NetKernel Int := do
  let device ← Action.get NetKernel.device
  match sendArpRequest stack device ipAddr with
  | none => Action.panic "get_ip"
  | some (status, none) => return status
  | some (status, some frame) => do
      sendPacket frame
      return status

/-- `send_icmpRequest` -/
def sendIcmp (tarips : List UInt8) (type code : UInt8) : Action NetKernel Int := do
  let buffer ← kallocPage
  storePage buffer
  let k ← Action.get fun k : NetKernel => k
  match sendIcmpRequest (fun offset => k.nic.mem (v2p buffer + offset)) k.id k.device tarips type
      code with
  | none => Action.panic "getIP"
  | some (id, .noDevice) => do
      Action.modify fun k => { k with id := id }
      return -1
  | some (id, .sent frame) => do
      Action.modify fun k => { k with id := id }
      sendPacket frame
      return 0

/-- The polls of `sys_arp`, with `left` to go until `cnt` is `0xffff`. -/
def arpPolls (p : Nat) : Nat → Nat → Action NetKernel Unit
  | 0, _ => return ()
  | left + 1, cnt => do
      Action.modify fun k => { k with nic := card cnt k.nic }
      let length ← recvPacket p
      if length ≠ 0 then return () else arpPolls p left (cnt + 1)

/-- The arguments of `sys_arp`: the address string, or nothing if one of the four is refused. -/
def arpArgs : Action Caller (Option (List UInt8)) := do
  match ← argstr 0 with
  | none => return none
  | some _ =>
      match ← argstr 1 with
      | none => return none
      | some (ipAddr, length) =>
          match ← argint 3 with
          | none => return none
          | some size =>
              match ← argptr 2 size.toInt32 with
              | none => return none
              | some _ => do
                  let text ← Action.get fun c : Caller =>
                    c.memory.read ipAddr.toNat length.toNat
                  return some text

def sysArp : Action NetKernel Int := do
  match ← onCaller arpArgs with
  | none => return -1
  | some ipAddr => do
      let status ← sendArp stack ipAddr
      if status < 0 then return -1
      else do
        let p ← kallocPage
        arpPolls card p 0xffff 0
        return 0

def sysIcmptest : Action NetKernel Int := do
  let status ← sendIcmp (dottedQuad 10 0 2 2) 8 0
  if status < 0 then return -1 else return 0

/-- `HEAD` and `TAIL`, which `sys_checknic` does not use. -/
def checknicArgs : Action Caller (Option (UInt32 × UInt32)) := do
  match ← argint 0 with
  | none => return none
  | some head =>
      match ← argint 1 with
      | none => return none
      | some tail => return some (head, tail)

def sysChecknic : Action NetKernel Int := do
  match ← onCaller checknicArgs with
  | none => return -1
  | some _ => do
      -- the registers RDH and RDT
      noteUse .driver
      noteUse .driver
      let p ← kallocPage
      let _ ← recvPacket p
      return 0

end Model

/-- The three system calls. -/
inductive NetCall where
  | arp
  | icmptest
  | checknic
  deriving DecidableEq

namespace NetCall

def run (stack : Memory) (card : Nat → Nic → Nic) : NetCall → Action NetKernel Int
  | arp => sysArp stack card
  | icmptest => sysIcmptest
  | checknic => sysChecknic

/-- One of the arguments is refused. -/
def Rejected : NetCall → Caller → Prop
  | arp, c => ∃ later, arpArgs c = .done none later
  | icmptest, _ => False
  | checknic, c => ∃ later, checknicArgs c = .done none later

end NetCall

/-! ## The arguments are always fetched -/

section Arguments

theorem fetchint_returns (addr : UInt32) (c : Caller) :
    (fetchint addr c).Ends (fun _ => False) fun _ _ => True := by
  rw [fetchint, Action.get_bind]
  by_cases outside : c.sz ≤ addr ∨ c.sz < addr + 4
  · rw [if_pos outside]
    trivial
  · rw [if_neg outside]
    trivial

theorem fetchFrom_returns {pp ep s : UInt32} {fuel : Nat} {c : Caller}
    (within : s.toNat ≤ ep.toNat) (enough : ep.toNat < s.toNat + fuel) :
    (fetchFrom pp ep fuel s c).Ends (fun _ => False) fun _ _ => True := by
  induction fuel generalizing s c with
  | zero => omega
  | succ fuel inductionHypothesis =>
      rw [fetchFrom]
      by_cases more : s < ep
      · have below := UInt32.lt_iff_toNat_lt.mp more
        have bound := ep.toNat_lt
        have next : (s + 1).toNat = s.toNat + 1 := by
          rw [UInt32.toNat_add, UInt32.toNat_one]
          omega
        rw [if_pos more, Action.ends_bind]
        dsimp only [loadChar, Action.ends_bind]
        by_cases nul : c.memory s.toNat = 0
        · simp only [Action.ends_bind, Action.ends_get, Action.ends_modify, Action.ends_pure, nul,
            if_true]
        · simp only [Action.ends_bind, Action.ends_get, Action.ends_modify, Action.ends_pure, nul,
            if_false]
          exact inductionHypothesis (by omega) (by omega)
      · rw [if_neg more]
        trivial

theorem argint_returns (n : UInt32) (c : Caller) :
    (argint n c).Ends (fun _ => False) fun _ _ => True :=
  fetchint_returns _ c

theorem argstr_returns (n : UInt32) (c : Caller) :
    (argstr n c).Ends (fun _ => False) fun _ _ => True := by
  rw [argstr, Action.ends_bind]
  refine (argint_returns n c).mono ?_
  rintro (rfl | addr) middle -
  · trivial
  · dsimp only
    rw [fetchstr, Action.get_bind]
    by_cases outside : middle.sz ≤ addr
    · rw [if_pos outside]
      trivial
    · rw [if_neg outside]
      have below := UInt32.lt_iff_toNat_lt.mp (UInt32.not_le.mp outside)
      exact fetchFrom_returns (Nat.le_of_lt below) (by omega)

theorem argptr_returns (n : UInt32) (size : Int32) (c : Caller) :
    (argptr n size c).Ends (fun _ => False) fun _ _ => True := by
  rw [argptr, Action.ends_bind]
  refine (argint_returns n c).mono ?_
  rintro (rfl | i) middle -
  · trivial
  · dsimp only
    rw [Action.get_bind]
    by_cases outside : size < 0 ∨ middle.sz ≤ i ∨ middle.sz < i + size.toUInt32
    · rw [if_pos outside]
      trivial
    · rw [if_neg outside]
      trivial

theorem arpArgs_returns (c : Caller) : ∃ args later, arpArgs c = .done args later := by
  have ends : (arpArgs c).Ends (fun _ => False) fun _ _ => True := by
    rw [arpArgs, Action.ends_bind]
    refine (argstr_returns 0 c).mono ?_
    rintro (rfl | interface) first -
    · trivial
    dsimp only
    rw [Action.ends_bind]
    refine (argstr_returns 1 first).mono ?_
    rintro (rfl | ⟨ipAddr, length⟩) second -
    · trivial
    dsimp only
    rw [Action.ends_bind]
    refine (argint_returns 3 second).mono ?_
    rintro (rfl | size) third -
    · trivial
    dsimp only
    rw [Action.ends_bind]
    refine (argptr_returns 2 size.toInt32 third).mono ?_
    rintro (rfl | arpResp) fourth -
    · trivial
    · trivial
  obtain ⟨args, later, done, -⟩ := ends.exists_done
  exact ⟨args, later, done⟩

theorem checknicArgs_returns (c : Caller) : ∃ args later, checknicArgs c = .done args later := by
  have ends : (checknicArgs c).Ends (fun _ => False) fun _ _ => True := by
    rw [checknicArgs, Action.ends_bind]
    refine (argint_returns 0 c).mono ?_
    rintro (rfl | head) first -
    · trivial
    dsimp only
    rw [Action.ends_bind]
    refine (argint_returns 1 first).mono ?_
    rintro (rfl | tail) second -
    · trivial
    · trivial
  obtain ⟨args, later, done, -⟩ := ends.exists_done
  exact ⟨args, later, done⟩

end Arguments

/-! ## What the calls do -/

section Steps

variable {k : NetKernel} (stack : Memory) (card : Nat → Nic → Nic)

/-- What happens on the way neither takes nor gives back a page, and is not forgotten. -/
structure Onward (k later : NetKernel) : Prop where
  free : later.free = k.free
  uses : ∀ use ∈ k.uses, use ∈ later.uses

theorem Onward.refl (k : NetKernel) : Onward k k := ⟨rfl, fun _ member => member⟩

theorem Onward.trans {middle later : NetKernel} (first : Onward k middle)
    (second : Onward middle later) : Onward k later :=
  ⟨second.free.trans first.free, fun use member => second.uses use (first.uses use member)⟩

theorem noteUse_onward (use : Use) (k : NetKernel) :
    Onward k { k with uses := k.uses ++ [use] } :=
  ⟨rfl, fun _ member => List.mem_append_left _ member⟩

theorem storePage_ends (p : Nat) : (storePage p k).Ends (fun _ => False) fun _ later =>
    Onward k later ∧ (p = 0 → Use.nullPage ∈ later.uses) ∧ later.device = k.device ∧
      ∀ use ∈ later.uses, use ∈ k.uses ∨ use = .nullPage := by
  rw [storePage, Action.ifThen]
  by_cases null : p = 0
  · rw [if_pos null, noteUse, Action.ends_modify]
    refine ⟨noteUse_onward _ k, fun _ => List.mem_append_right _ (List.mem_singleton_self _), rfl, ?_⟩
    intro use member
    exact (List.mem_append.mp member).imp_right List.mem_singleton.mp
  · rw [if_neg null, Action.ends_pure]
    exact ⟨Onward.refl k, fun zero => absurd zero null, rfl, fun use member => Or.inl member⟩

theorem sendPacket_ends (pkt : List UInt8) :
    (sendPacket pkt k).Ends (fun _ => False) fun _ later => Onward k later := by
  simp only [sendPacket, noteUse, Action.ends_bind, Action.ends_modify]
  exact ⟨rfl, fun _ member => List.mem_append_left _ (List.mem_append_left _ member)⟩

theorem recvPacket_ends (p : Nat) : (recvPacket p k).Ends (fun _ => False) fun _ later =>
    Onward k later ∧ Use.driver ∈ later.uses := by
  have noted : Use.driver ∈ k.uses ++ [.driver] :=
    List.mem_append_right _ (List.mem_singleton_self _)
  simp only [recvPacket, noteUse, Action.ends_bind, Action.ends_modify, Action.ends_get]
  rcases k.nic.e1000Recv with ⟨nic, none | pkt⟩
  · exact ⟨⟨rfl, (noteUse_onward .driver k).uses⟩, noted⟩
  · simp only [Action.ends_bind, Action.ends_modify, Action.ends_pure]
    rw [Action.ifThen]
    by_cases some : pkt ≠ []
    · rw [if_pos some]
      refine (storePage_ends p).mono ?_
      rintro ⟨⟩ later ⟨onward, -⟩
      exact ⟨⟨onward.free, fun use member => onward.uses use ((noteUse_onward .driver k).uses use member)⟩,
        onward.uses _ noted⟩
    · rw [if_neg some, Action.ends_pure]
      exact ⟨⟨rfl, (noteUse_onward .driver k).uses⟩, noted⟩

theorem arpPolls_ends (p left cnt : Nat) :
    (arpPolls card p left cnt k).Ends (fun _ => False) fun _ later => Onward k later := by
  induction left generalizing k cnt with
  | zero => exact Onward.refl k
  | succ left inductionHypothesis =>
      simp only [arpPolls, Action.ends_bind, Action.ends_modify]
      refine (recvPacket_ends p).mono ?_
      rintro length middle ⟨onward, -⟩
      have here : Onward k middle := ⟨onward.free, onward.uses⟩
      by_cases received : length ≠ 0
      · rw [if_pos received]
        exact here
      · rw [if_neg received]
        exact (inductionHypothesis (cnt + 1)).mono fun _ later rest => here.trans rest

/-- Without an interface the request fails before anything is used. -/
theorem sendArp_none (missing : getDevice k.device = none) (ipAddr : List UInt8) :
    sendArp stack ipAddr k = .done (-1) k := by
  have refused : sendArpRequest stack k.device ipAddr = some (-1, none) := by
    rw [sendArpRequest, missing]
  rw [sendArp, Action.get_bind, refused]
  rfl

theorem sendArp_some {nd : NicDevice} (ready : getDevice k.device = some nd)
    (ipAddr : List UInt8) : (sendArp stack ipAddr k).Ends (fun _ => True) fun status later =>
      status = 0 ∧ Onward k later := by
  rw [sendArp, Action.get_bind, sendArpRequest, ready]
  dsimp only
  cases createEthArpFrame (List.ofFn nd.macAddr) ipAddr stack with
  | none => trivial
  | some eth =>
      simp only [Option.bind_eq_bind, Option.bind_some, Option.pure_def, Action.ends_bind]
      refine (sendPacket_ends _).imp (fun _ never => never.elim) ?_
      exact fun _ later onward => ⟨rfl, onward⟩

/-- A page is taken; there is one, or the result is 0. -/
theorem kallocPage_ends : (kallocPage k).Ends (fun _ => False) fun p later =>
    p = k.free.take.1 ∧ later = { k with free := k.free.take.2 } := by
  simp only [kallocPage, Action.ends_bind, Action.ends_get, Action.ends_modify, Action.ends_pure,
    and_self]

theorem take_nil {free : FreePages} (none : free.pages = []) : free.take.1 = 0 := by
  unfold FreePages.take
  split
  · rfl
  · rename_i page rest eq
    rw [none] at eq
    cases eq

/-- `sys_icmptest` asks for an interface only after it has filled the page. -/
theorem sendIcmp_ends (a b c d type code : UInt8) :
    (sendIcmp (dottedQuad a b c d) type code k).Ends (fun _ => False) fun status later =>
      later.free = k.free.take.2 ∧ (k.free.pages = [] → Use.nullPage ∈ later.uses) ∧
        (getDevice k.device = none → status = -1 ∧
          ∀ use ∈ later.uses, use ∈ k.uses ∨ use = .nullPage) := by
  rw [sendIcmp, Action.ends_bind]
  refine kallocPage_ends.mono ?_
  rintro buffer taken ⟨rfl, rfl⟩
  rw [Action.ends_bind]
  refine (storePage_ends _).mono ?_
  rintro ⟨⟩ stored ⟨onward, null, device, uses⟩
  have empty : k.free.pages = [] → Use.nullPage ∈ stored.uses := fun none => null (take_nil none)
  rw [Action.get_bind,
    sendIcmpRequest_eq _ _ _ _ type code _ (getIP_dottedQuad a b c d), device]
  dsimp only
  cases getDevice k.device with
  | none =>
      simp only [Action.ends_bind, Action.ends_modify, Action.ends_pure]
      exact ⟨onward.free, empty, fun _ => ⟨trivial, uses⟩⟩
  | some nd =>
      simp only [Action.ends_bind, Action.ends_modify, Action.ends_pure]
      refine (sendPacket_ends _).mono ?_
      rintro ⟨⟩ later sent
      refine ⟨sent.free.trans onward.free, fun none => sent.uses _ (empty none), ?_⟩
      intro missing
      cases missing

theorem onCaller_done {Value : Type} {action : Action Caller Value} {value : Value}
    {caller : Caller} (fetched : action k.caller = .done value caller) :
    onCaller action k = .done value { k with caller := caller } :=
  Action.focus_done fetched

theorem sysArp_rejected {caller : Caller} (fetched : arpArgs k.caller = .done none caller) :
    sysArp stack card k = .done (-1) { k with caller := caller } := by
  rw [sysArp, Action.bind_done (onCaller_done fetched)]
  rfl

theorem sysArp_missing {caller : Caller} {ipAddr : List UInt8}
    (fetched : arpArgs k.caller = .done (some ipAddr) caller)
    (missing : getDevice k.device = none) :
    sysArp stack card k = .done (-1) { k with caller := caller } := by
  have failed : sendArp stack ipAddr { k with caller := caller } =
      .done (-1) { k with caller := caller } :=
    @sendArp_none { k with caller := caller } stack missing ipAddr
  rw [sysArp, Action.bind_done (onCaller_done fetched)]
  dsimp only
  rw [Action.bind_done failed, if_pos (by decide)]
  rfl

theorem sysArp_ready {caller : Caller} {ipAddr : List UInt8} {nd : NicDevice}
    (fetched : arpArgs k.caller = .done (some ipAddr) caller)
    (ready : getDevice k.device = some nd) :
    (sysArp stack card k).Ends (fun _ => True) fun result later =>
      result = 0 ∧ later.free = k.free.take.2 := by
  rw [sysArp, Action.bind_done (onCaller_done fetched)]
  dsimp only
  rw [Action.ends_bind]
  refine (@sendArp_some { k with caller := caller } stack nd ready ipAddr).mono ?_
  rintro status sent ⟨rfl, onward⟩
  rw [if_neg (by decide), Action.ends_bind]
  refine kallocPage_ends.imp (fun _ never => never.elim) ?_
  rintro p taken ⟨-, rfl⟩
  rw [Action.ends_bind]
  refine (arpPolls_ends card p 0xffff 0).imp (fun _ never => never.elim) ?_
  rintro ⟨⟩ later polled
  refine ⟨rfl, polled.free.trans ?_⟩
  exact congrArg (fun free => free.take.2) onward.free

theorem sysIcmptest_ends : (sysIcmptest k).Ends (fun _ => False) fun result later =>
    later.free = k.free.take.2 ∧ (k.free.pages = [] → Use.nullPage ∈ later.uses) ∧
      (getDevice k.device = none → result = -1 ∧
        ∀ use ∈ later.uses, use ∈ k.uses ∨ use = .nullPage) := by
  rw [sysIcmptest, Action.ends_bind]
  refine (sendIcmp_ends 10 0 2 2 8 0).mono ?_
  rintro status later ⟨free, null, missing⟩
  by_cases failed : status < 0
  · rw [if_pos failed]
    exact ⟨free, null, fun none => ⟨rfl, (missing none).2⟩⟩
  · rw [if_neg failed]
    refine ⟨free, null, fun none => absurd ?_ failed⟩
    rw [(missing none).1]
    decide

theorem sysChecknic_rejected {caller : Caller}
    (fetched : checknicArgs k.caller = .done none caller) :
    sysChecknic k = .done (-1) { k with caller := caller } := by
  rw [sysChecknic, Action.bind_done (onCaller_done fetched)]
  rfl

theorem sysChecknic_ends {caller : Caller} {args : UInt32 × UInt32}
    (fetched : checknicArgs k.caller = .done (some args) caller) :
    (sysChecknic k).Ends (fun _ => False) fun result later =>
      result = 0 ∧ later.free = k.free.take.2 ∧ Use.driver ∈ later.uses := by
  rw [sysChecknic, Action.bind_done (onCaller_done fetched)]
  simp only [noteUse, Action.ends_bind, Action.ends_modify]
  refine kallocPage_ends.mono ?_
  rintro p taken ⟨-, rfl⟩
  refine (recvPacket_ends p).mono ?_
  rintro length later ⟨onward, used⟩
  exact ⟨rfl, onward.free, used⟩

end Steps

/-! ## Pages -/

/-- The call has left the free pages as they were, and refused to work without one. -/
structure KeepsPages (k later : NetKernel) (result : Int) : Prop where
  free : ∀ page, page ∈ later.free.pages ↔ page ∈ k.free.pages
  refuses : k.free.pages = [] → result = -1 ∧ Use.nullPage ∉ later.uses

/-- The kernel at the start of a call. -/
def NetKernel.begin (k : NetKernel) : NetKernel := { k with uses := [] }

/-- A call that takes a page has lost it, and does not notice if there is none. -/
theorem not_keepsPages {k later : NetKernel} {result : Int} (taken : later.free = k.free.take.2)
    (unnoticed : k.free.pages = [] → result = 0 ∨ Use.nullPage ∈ later.uses) :
    ¬KeepsPages k later result := by
  rintro ⟨free, refuses⟩
  cases pages : k.free.pages with
  | nil =>
      obtain ⟨failed, clean⟩ := refuses pages
      obtain done | used := unnoticed pages
      · rw [done] at failed
        cases failed
      · exact clean used
  | cons page rest =>
      have fresh : page ∉ rest := (List.nodup_cons.mp (pages ▸ k.free.distinct)).1
      have left : later.free.pages = rest := by
        rw [taken, FreePages.take]
        split
        · rename_i none
          rw [pages] at none
          cases none
        · rename_i first others eq
          rw [pages] at eq
          cases eq
          rfl
      have back := (free page).mpr (pages ▸ List.mem_cons_self)
      rw [left] at back
      exact fresh back

/-- What was fetched is refused or not. -/
theorem rejected_iff {Value : Type} {action : Action Caller (Option Value)} {c caller : Caller}
    {args : Option Value} (fetched : action c = .done args caller) :
    (∃ later, action c = .done none later) ↔ args = none := by
  rw [fetched]
  constructor
  · rintro ⟨later, done⟩
    cases done
    rfl
  · rintro rfl
    exact ⟨caller, rfl⟩

/-- A call keeps the free pages if it ends before it takes one: an argument is refused, or
`sys_arp` finds no interface. -/
theorem netCall_keepsPages (stack : Memory) (card : Nat → Nic → Nic) (call : NetCall)
    (k : NetKernel) :
    (∃ result later, call.run stack card k.begin = .done result later ∧
        KeepsPages k later result) ↔
      call.Rejected k.caller ∨ call = .arp ∧ getDevice k.device = none := by
  have unused (caller : Caller) : KeepsPages k { k.begin with caller := caller } (-1) :=
    ⟨fun _ => Iff.rfl, fun _ => ⟨rfl, List.not_mem_nil⟩⟩
  cases call with
  | arp =>
      obtain ⟨args, caller, fetched⟩ := arpArgs_returns k.caller
      rw [NetCall.Rejected, rejected_iff fetched, NetCall.run]
      cases args with
      | none =>
          have ran := @sysArp_rejected k.begin stack card caller fetched
          exact iff_of_true ⟨-1, _, ran, unused caller⟩ (Or.inl rfl)
      | some ipAddr =>
          cases found : getDevice k.device with
          | none =>
              have ran := @sysArp_missing k.begin stack card caller ipAddr fetched found
              exact iff_of_true ⟨-1, _, ran, unused caller⟩ (Or.inr ⟨rfl, rfl⟩)
          | some nd =>
              refine iff_of_false ?_ (by simp)
              rintro ⟨result, later, ran, keeps⟩
              obtain ⟨zero, taken⟩ :=
                (@sysArp_ready k.begin stack card caller ipAddr nd fetched found).of_done ran
              exact @not_keepsPages k later result taken (fun _ => Or.inl zero) keeps
  | icmptest =>
      refine iff_of_false ?_ (by simp [NetCall.Rejected])
      rintro ⟨result, later, ran, keeps⟩
      obtain ⟨taken, null, -⟩ := (@sysIcmptest_ends k.begin).of_done ran
      exact @not_keepsPages k later result taken (fun none => Or.inr (null none)) keeps
  | checknic =>
      obtain ⟨args, caller, fetched⟩ := checknicArgs_returns k.caller
      rw [NetCall.Rejected, rejected_iff fetched, NetCall.run]
      cases args with
      | none =>
          have ran := @sysChecknic_rejected k.begin caller fetched
          exact iff_of_true ⟨-1, _, ran, unused caller⟩ (Or.inl rfl)
      | some args =>
          refine iff_of_false ?_ (by simp)
          rintro ⟨result, later, ran, keeps⟩
          obtain ⟨zero, taken, -⟩ := (@sysChecknic_ends k.begin caller args fetched).of_done ran
          exact @not_keepsPages k later result taken (fun _ => Or.inl zero) keeps

/-- A process with zeros on its stack, two free pages and no interface. -/
def plainKernel : NetKernel where
  caller := { sz := 16, esp := 0, memory := fun _ => 0, reads := [] }
  free := { pages := [0x80400000, 0x80401000], distinct := by decide, nonzero := by decide }
  driver := 0
  device := ⟨fun _ => 0, false, false⟩
  nic := emulatedCard.boot.nic
  id := 1
  uses := []

/-- `icmptest` fails, and one of the two pages is gone. -/
theorem netCall_keepsPages_icmptest :
    ¬∃ result later, NetCall.run (fun _ => 0) (fun _ nic => nic) .icmptest plainKernel.begin =
      .done result later ∧ KeepsPages plainKernel later result := by
  rintro ⟨result, later, ran, keeps⟩
  obtain ⟨taken, null, -⟩ := (@sysIcmptest_ends plainKernel.begin).of_done ran
  exact @not_keepsPages plainKernel later result taken (fun none => Or.inr (null none)) keeps

/-! ## No interface -/

/-- Nothing has been registered: `nic_devices[0]` is as the kernel was loaded. -/
def NoNic (k : NetKernel) : Prop :=
  k.driver = 0 ∧ k.device = ⟨fun _ => 0, false, false⟩

/-- The call fails without a look at what `nic_devices[0]` points to. -/
structure RefusesWithoutNic (later : NetKernel) (result : Int) : Prop where
  result : result = -1
  driver : Use.driver ∉ later.uses
  function : Use.function ∉ later.uses

/-- Without an interface the calls fail as they should, but for `sys_checknic`, which uses the
null pointer unless one of its arguments is refused. -/
theorem netCall_refuses (stack : Memory) (card : Nat → Nic → Nic) (call : NetCall)
    (k : NetKernel) (noNic : NoNic k) :
    (∃ result later, call.run stack card k.begin = .done result later ∧
        RefusesWithoutNic later result) ↔
      call ≠ .checknic ∨ call.Rejected k.caller := by
  have missing : getDevice k.device = none := by
    rw [noNic.2]
    rfl
  have unused (caller : Caller) : RefusesWithoutNic { k.begin with caller := caller } (-1) :=
    ⟨rfl, List.not_mem_nil, List.not_mem_nil⟩
  cases call with
  | arp =>
      refine iff_of_true ?_ (Or.inl (by decide))
      obtain ⟨args, caller, fetched⟩ := arpArgs_returns k.caller
      cases args with
      | none => exact ⟨-1, _, @sysArp_rejected k.begin stack card caller fetched, unused caller⟩
      | some ipAddr =>
          exact ⟨-1, _, @sysArp_missing k.begin stack card caller ipAddr fetched missing,
            unused caller⟩
  | icmptest =>
      refine iff_of_true ?_ (Or.inl (by decide))
      obtain ⟨result, later, ran, -, -, refused⟩ := (@sysIcmptest_ends k.begin).exists_done
      obtain ⟨failed, uses⟩ := refused missing
      have clean {use : Use} (other : use ≠ .nullPage) : use ∉ later.uses := by
        intro used
        obtain old | null := uses use used
        · exact List.not_mem_nil old
        · exact other null
      exact ⟨result, later, ran, failed, clean (by decide), clean (by decide)⟩
  | checknic =>
      obtain ⟨args, caller, fetched⟩ := checknicArgs_returns k.caller
      rw [NetCall.Rejected, rejected_iff fetched, NetCall.run]
      cases args with
      | none =>
          exact iff_of_true ⟨-1, _, @sysChecknic_rejected k.begin caller fetched, unused caller⟩
            (Or.inr rfl)
      | some args =>
          refine iff_of_false ?_ (by simp)
          rintro ⟨result, later, ran, refuses⟩
          obtain ⟨-, -, used⟩ := (@sysChecknic_ends k.begin caller args fetched).of_done ran
          exact refuses.driver used

theorem plainKernel_args : ∃ caller, checknicArgs plainKernel.caller =
    .done (some (0, 0)) caller :=
  ⟨_, rfl⟩

/-- `checknic(0, 0)` reads through the null pointer. -/
theorem netCall_refuses_checknic : NoNic plainKernel ∧
    ¬∃ result later, NetCall.run (fun _ => 0) (fun _ nic => nic) .checknic plainKernel.begin =
      .done result later ∧ RefusesWithoutNic later result := by
  obtain ⟨caller, fetched⟩ := plainKernel_args
  refine ⟨⟨rfl, rfl⟩, ?_⟩
  rintro ⟨result, later, ran, refuses⟩
  obtain ⟨-, -, used⟩ := (@sysChecknic_ends plainKernel.begin caller _ fetched).of_done ran
  exact refuses.driver used

theorem netCall_refuses_arp :
    ∃ result later, NetCall.run (fun _ => 0) (fun _ nic => nic) .arp plainKernel.begin =
      .done result later ∧ RefusesWithoutNic later result :=
  (netCall_refuses (fun _ => 0) (fun _ nic => nic) .arp plainKernel ⟨rfl, rfl⟩).mpr
    (Or.inl (by decide))

end Xv6.NetCalls
