import Xv6.Fs.TreeStart

/-!
# Runs of system calls on the tree

Each call does to the model what `Does` says, and the system shows the model again.
Runs of calls follow by induction.
-/

namespace Xv6.Tree

open Xv6.Library Xv6.Fs Xv6.Path
open Xv6.Fork (FilePtr)
open Xv6.Sched (ProcPtr)

section Rules

variable {panics : String → Prop} {s : System} {holder : Holder} {ip cwd : InodePtr}

theorem ends_onKernel {Value : Type} {action : Action Kernel Value}
    {post : Value × InodePtr → System → Prop} :
    (onKernel cwd action s).Ends panics post ↔
      (action ⟨s.fs, unlocked, cwd⟩).Ends panics fun value k =>
        post (value, k.cwd) { s with fs := k.fs } := by
  unfold onKernel
  cases action ⟨s.fs, unlocked, cwd⟩ with
  | blocked => exact Iff.rfl
  | panic message => exact Iff.rfl
  | done value next => exact Iff.rfl

theorem onKernel_done {Value : Type} {action : Action Kernel Value} {value : Value} {k : Kernel}
    (done : action ⟨s.fs, unlocked, cwd⟩ = .done value k) :
    onKernel cwd action s = .done (value, k.cwd) { s with fs := k.fs } := by
  rw [onKernel, done]

theorem withHandle_some {action : InodePtr → Action System Int} (here : s.handle holder = some ip) :
    withHandle holder action s = action ip s := by
  rw [withHandle, here]

theorem unusedThen_none {action : Action System Int} (unused : s.handle holder = none) :
    unusedThen holder action s = action s := if_pos unused

end Rules

/-! ## Between the calls -/

/-- What is referenced while a process with the directory `cwd` is in a call. -/
def System.others (s : System) (cwd : InodePtr) : Others where
  refs := shares s.handle
  number ip := (s.fs.inode ip).inum
  cwd := cwd

section Returns

variable {others : Others} {handle : Holder → Option InodePtr} {after : Volume} {k : Kernel}
  {holder : Holder} {ip : InodePtr} {i : Nat}

/-- The call has given everything back. -/
theorem returned (refs : ∀ ip, others.refs ip = shares handle ip)
    (holding : Holding others after [] k) (tree : scheme.Consistent after.naming) :
    Good ⟨after, fun holder => (handle holder).map others.number⟩ ⟨k.fs, handle⟩ where
  shows := holding.shows
  tree := tree
  refs ip := by
    rw [holding.refs, refs]
    rfl
  node := by
    funext holder
    dsimp only [System.node]
    cases here : handle holder with
    | none => rfl
    | some ip =>
        have positive : 0 < others.refs ip := by
          rw [refs]
          exact shares_pos here
        exact congrArg some (holding.outside ip positive).symm

/-- The call has a reference, which a process or a file keeps. -/
theorem kept (refs : ∀ ip, others.refs ip = shares handle ip) (free : handle holder = none)
    (holding : Holding others after [⟨ip, i, false⟩] k) (tree : scheme.Consistent after.naming) :
    Good ⟨after, Function.update (fun holder => (handle holder).map others.number) holder (some i)⟩
      ⟨k.fs, Function.update handle holder (some ip)⟩ where
  shows := holding.shows
  tree := tree
  refs other := by
    dsimp only
    rw [holding.refs, refs, shares_take free, List.map_singleton, List.count_singleton]
    simp only [beq_iff_eq]
  node := by
    funext other
    by_cases same : other = holder
    · subst same
      simp [System.node, holding.head]
    · simp only [System.node, Function.update_of_ne same]
      cases here : handle other with
      | none => rfl
      | some entry =>
          have positive : 0 < others.refs entry := by
            rw [refs]
            exact shares_pos here
          exact congrArg some (holding.outside entry positive).symm

end Returns

namespace Good

variable {model : Model} {s : System} {p : ProcPtr} {holder : Holder} {ip cwd : InodePtr}
  {path : List UInt8} {consoleread : Int → Int × List UInt8} (good : Good model s)
include good

theorem holding (cwd : InodePtr) :
    Holding (s.others cwd) model.volume [] ⟨s.fs, unlocked, cwd⟩ where
  shows := good.shows
  refs ip := good.refs ip
  outside _ _ := rfl
  number _ member := absurd member List.not_mem_nil
  locked _ member := absurd member List.not_mem_nil
  held _ := rfl
  cwd := rfl

theorem nodes (cwd : InodePtr) : (fun holder => (s.handle holder).map (s.others cwd).number) =
    model.node := good.node.symm

theorem node_some (here : s.handle holder = some ip) :
    model.node holder = some (s.fs.inode ip).inum := by
  rw [good.node, System.node, here]
  rfl

theorem start (here : s.handle (.inl p) = some cwd) (path : List UInt8) :
    (s.others cwd).start path = model.start p path := by
  rw [Others.start, Model.start, good.node_some here]
  rfl

theorem begins (here : s.handle (.inl p) = some cwd) (named : s.Named p path) :
    (s.others cwd).Begins model.volume path where
  live := by
    rw [Others.start]
    by_cases absolute : path.head? = some slash
    · rw [if_pos absolute]
      exact good.tree.root.live
    · obtain ⟨dir, same, nlink⟩ := named.2 absolute
      cases here.symm.trans same
      have referenced : 0 < (s.fs.inode cwd).ref := by
        rw [good.refs]
        exact_mod_cast shares_pos here
      have used := good.shows.used cwd referenced
      rw [if_neg absolute]
      rw [(good.shows.inodes (good.shows.inside used).2).nlink used] at nlink
      exact ⟨used, nlink⟩
  home _ := shares_pos here

/-- A reference of a holder is dropped by the call. -/
theorem drops (here : s.handle holder = some ip) : ∃ k after,
    Path.iput ip ⟨s.fs, unlocked, ip⟩ = .done () k ∧
      model.volume.Puts (s.fs.inode ip).inum after ∧
      Good ⟨after, Function.update model.node holder none⟩
        ⟨k.fs, Function.update s.handle holder none⟩ := by
  have refs : ∀ other, ((s.others ip).without ip).refs other =
      shares (Function.update s.handle holder none) other := by
    intro other
    rw [← Nat.add_sub_cancel (n := shares (Function.update s.handle holder none) other)
      (m := if ip = other then 1 else 0), shares_give here]
    rfl
  have claimed : Holding ((s.others ip).without ip) model.volume
      [⟨ip, (s.fs.inode ip).inum, false⟩] ⟨s.fs, unlocked, ip⟩ := by
    refine (good.holding ip).claim (fun other => ?_) rfl rfl
    rw [refs, shares_give here]
    rfl
  obtain ⟨k, after, done, puts, given⟩ := claimed.iput (Holding.nobody _)
  have last := returned refs given (puts.consistent good.tree)
  refine ⟨k, after, done, puts, ?_⟩
  have nodes : (fun other => (Function.update s.handle holder none other).map
      ((s.others ip).without ip).number) = Function.update model.node holder none := by
    funext other
    rw [good.node]
    by_cases same : other = holder
    · simp [same]
    · simp only [Function.update_of_ne same]
      rfl
  rw [nodes] at last
  exact last

/-! ## The calls -/

/-- Some of the tree has changed, and nobody refers to something else. -/
theorem settled {after : Volume} {k : Kernel} (cwd : InodePtr)
    (holding : Holding (s.others cwd) after [] k) (tree : scheme.Consistent after.naming) :
    Good ⟨after, model.node⟩ ⟨k.fs, s.handle⟩ := by
  have last := returned (fun _ => rfl) holding tree
  rw [good.nodes cwd] at last
  exact last

/-- A new holder keeps the reference. -/
theorem keeps {after : Volume} {k : Kernel} {i : Nat} (cwd : InodePtr)
    (free : s.handle holder = none) (holding : Holding (s.others cwd) after [⟨ip, i, false⟩] k)
    (tree : scheme.Consistent after.naming) :
    Good ⟨after, Function.update model.node holder (some i)⟩
      ⟨k.fs, Function.update s.handle holder (some ip)⟩ := by
  have last := kept (fun _ => rfl) free holding tree
  rw [good.nodes cwd] at last
  exact last

theorem openCall (here : s.handle (.inl p) = some cwd) (named : s.Named p path) (omode : UInt32)
    (room : Option FilePtr) (unused : ∀ f, room = some f → s.handle (.inr f) = none) :
    (Tree.openCall consoleread cwd path omode room s).Ends OutOfSpace fun result next =>
      ∃ after, Does model (.open_ p path omode room) result after ∧ Good after next := by
  have begins := good.begins here named
  have start := good.start here path
  rw [Tree.openCall, Action.ends_bind, ends_onKernel]
  refine ((good.holding cwd).openNode good.tree named.1 begins omode room.isSome).mono ?_
  rintro result k ⟨target, after, opens, ends⟩
  have tree := opens.consistent good.tree begins.live
  rw [start] at opens
  obtain ⟨rfl, nothing, holds⟩ | ⟨ip, i, rfl, rfl, some, holds⟩ := ends
  · refine ⟨_, .notOpened opens (nothing.imp_right fun none => ?_), good.settled cwd holds tree⟩
    exact Option.not_isSome_iff_eq_none.mp (Bool.eq_false_iff.mp none)
  · obtain ⟨f, rfl⟩ := Option.isSome_iff_exists.mp some
    exact ⟨_, .opened opens, good.keeps cwd (unused f rfl) holds tree⟩

theorem makeNode (here : s.handle (.inl p) = some cwd) (named : s.Named p path)
    {type major minor : Nat} (typeFits : type < 256 ^ 2) (nonzero : type ≠ 0)
    (special : type ≠ tFile) (majorFits : major < 256 ^ 2) (minorFits : minor < 256 ^ 2) :
    (Path.makeNode consoleread path type major minor ⟨s.fs, unlocked, cwd⟩).Ends OutOfSpace
      fun result k => ∃ target after,
        Creates model.volume (model.start p path) (elements path) type target after ∧
        result = (if target = none then -1 else 0) ∧
          Good ⟨after, model.node⟩ ⟨k.fs, s.handle⟩ := by
  have begins := good.begins here named
  refine ((good.holding cwd).makeNode good.tree named.1 begins typeFits nonzero special majorFits
    minorFits).mono ?_
  rintro result k ⟨target, after, creates, same, holds⟩
  have tree := creates.consistent good.tree begins.live nonzero
  rw [good.start here path] at creates
  exact ⟨target, after, creates, same, good.settled cwd holds tree⟩

theorem unlinkCall (here : s.handle (.inl p) = some cwd) (named : s.Named p path) :
    (Path.sysUnlink consoleread path ⟨s.fs, unlocked, cwd⟩).Ends OutOfSpace fun result k =>
      ∃ after, Does model (.unlink p path) result after ∧ Good after ⟨k.fs, s.handle⟩ := by
  have begins := good.begins here named
  have start := good.start here path
  have closed := good.tree.toClosed
  refine ((good.holding cwd).sysUnlink good.tree named.1 begins).mono ?_
  rintro result k (⟨rfl, holds, refused⟩ | ⟨rfl, d, name, i, after, removable, puts, holds⟩)
  · rw [start] at refused
    exact ⟨model, .notUnlinked refused, good.settled cwd holds good.tree⟩
  · have inside := Scheme.walkParent_directory closed begins.live removable.1
    have tree := Volume.unlink_consistent good.tree inside removable.2.1 removable.2.2.1
      removable.2.2.2
    rw [start] at removable
    exact ⟨_, .unlinked removable puts, good.settled cwd holds (puts.consistent tree)⟩

theorem linkCall (here : s.handle (.inl p) = some cwd) {old new : List UInt8}
    (oldNamed : s.Named p old) (newNamed : s.Named p new)
    (free : ¬(Call.link p old new).Stuck model) :
    (Path.sysLink consoleread old new ⟨s.fs, unlocked, cwd⟩).Ends OutOfSpace fun result k =>
      ∃ after, Does model (.link p old new) result after ∧ Good after ⟨k.fs, s.handle⟩ := by
  have oldBegins := good.begins here oldNamed
  have newBegins := good.begins here newNamed
  refine ((good.holding cwd).sysLink good.tree oldNamed.1 newNamed.1 oldBegins newBegins ?_).mono ?_
  · rw [good.start here, good.start here]
    exact free
  · rintro result k ⟨after, links, holds⟩
    have tree := links.consistent good.tree oldBegins.live newBegins.live
    rw [good.start here, good.start here] at links
    exact ⟨_, .link links, good.settled cwd holds tree⟩

theorem chdirCall (here : s.handle (.inl p) = some cwd) (named : s.Named p path) :
    (Path.sysChdir consoleread path ⟨s.fs, unlocked, cwd⟩).Ends OutOfSpace fun result k =>
      ∃ after, Does model (.chdir p path) result after ∧
        Good after ⟨k.fs, Function.update s.handle (.inl p) (some k.cwd)⟩ := by
  have begins := good.begins here named
  have start := good.start here path
  refine ((good.holding cwd).sysChdir good.tree named.1 begins (shares_pos here)).mono ?_
  rintro result k (⟨rfl, stays, holds, refused⟩ | ⟨rfl, i, after, leads, directory, puts, holds⟩)
  · rw [start] at refused
    refine ⟨model, .notEntered refused, ?_⟩
    have same : Function.update s.handle (.inl p) (some k.cwd) = s.handle := by
      rw [stays, ← here, Function.update_eq_self]
    rw [same]
    exact good.settled cwd holds good.tree
  · have refs : ∀ other, ((s.others cwd).without cwd).refs other =
        shares (Function.update s.handle (.inl p) none) other := by
      intro other
      rw [← Nat.add_sub_cancel (n := shares (Function.update s.handle (.inl p) none) other)
        (m := if cwd = other then 1 else 0), shares_give here]
      rfl
    have last := @kept { (s.others cwd).without cwd with cwd := k.cwd } _ after k (.inl p) k.cwd i
      refs (Function.update_self ..) holds (puts.consistent good.tree)
    rw [start] at leads
    refine ⟨_, .entered leads directory (good.node_some here) puts, ?_⟩
    have nodes : Function.update (fun holder =>
        (Function.update s.handle (.inl p) none holder).map (s.others cwd).number) (.inl p)
          (some i) = Function.update model.node (.inl p) (some i) := by
      funext other
      rw [good.node]
      by_cases same : other = .inl p
      · simp [same]
      · simp only [Function.update_of_ne same]
        rfl
    rw [Function.update_idem] at last
    rw [← nodes]
    exact last

theorem forkCall {child : ProcPtr} (here : s.handle (.inl p) = some cwd)
    (unused : s.handle (.inl child) = none) :
    (onInodes (Fs.idup cwd) ⟨s.fs, unlocked, cwd⟩).Ends OutOfSpace fun ip k =>
      ∃ after, Does model (.fork p child) 0 after ∧
        Good after ⟨k.fs, Function.update s.handle (.inl child) (some ip)⟩ := by
  have holding := good.holding cwd
  have referenced : 0 < (s.fs.inode cwd).ref := by
    rw [good.refs]
    exact_mod_cast shares_pos here
  obtain ⟨fs, done, shows, took⟩ := holding.shows.idup referenced
  rw [onInodes_done done]
  exact ⟨_, .fork (good.node_some here),
    good.keeps cwd unused (holding.took shows took) good.tree⟩

/-- A call ends, with what it does to the tree, unless there is no space or it waits for itself. -/
theorem call (call : Call) (ready : call.Ready s) (named : call.Named s)
    (free : ¬call.Stuck model) :
    (call.run consoleread s).Ends OutOfSpace fun result next =>
      ∃ after, Does model call result after ∧ Good after next := by
  cases call with
  | open_ p path omode room =>
      obtain ⟨cwd, here⟩ := Option.ne_none_iff_exists'.mp ready.1
      have walk := named (p, path) (by simp [Call.walks])
      cases room with
      | none =>
          rw [Call.run, withHandle_some here]
          exact good.openCall here walk omode none ready.2
      | some f =>
          rw [Call.run, unusedThen_none (ready.2 f rfl), withHandle_some here]
          exact good.openCall here walk omode (some f) ready.2
  | mkdir p path =>
      obtain ⟨cwd, here⟩ := Option.ne_none_iff_exists'.mp ready
      have walk := named (p, path) (by simp [Call.walks])
      rw [Call.run, withHandle_some here, Action.ends_bind, ends_onKernel]
      refine (good.makeNode here walk (by decide) (by decide) (by decide) (by decide)
        (by decide)).mono ?_
      rintro result k ⟨target, after, creates, rfl, last⟩
      exact ⟨_, .mkdir creates, last⟩
  | mknod p path major minor =>
      obtain ⟨cwd, here⟩ := Option.ne_none_iff_exists'.mp ready
      have walk := named (p, path) (by simp [Call.walks])
      rw [Call.run, withHandle_some here, Action.ends_bind, ends_onKernel]
      refine (good.makeNode here walk (by decide) (by decide) (by decide)
        (Nat.mod_lt _ (by decide)) (Nat.mod_lt _ (by decide))).mono ?_
      rintro result k ⟨target, after, creates, rfl, last⟩
      exact ⟨_, .mknod creates, last⟩
  | link p old new =>
      obtain ⟨cwd, here⟩ := Option.ne_none_iff_exists'.mp ready
      have first := named (p, old) (by simp [Call.walks])
      have second := named (p, new) (by simp [Call.walks])
      rw [Call.run, withHandle_some here, Action.ends_bind, ends_onKernel]
      exact good.linkCall here first second free
  | unlink p path =>
      obtain ⟨cwd, here⟩ := Option.ne_none_iff_exists'.mp ready
      have walk := named (p, path) (by simp [Call.walks])
      rw [Call.run, withHandle_some here, Action.ends_bind, ends_onKernel]
      exact good.unlinkCall here walk
  | chdir p path =>
      obtain ⟨cwd, here⟩ := Option.ne_none_iff_exists'.mp ready
      have walk := named (p, path) (by simp [Call.walks])
      rw [Call.run, withHandle_some here, Action.ends_bind, ends_onKernel]
      exact good.chdirCall here walk
  | close f =>
      obtain ⟨ip, here⟩ := Option.ne_none_iff_exists'.mp ready
      obtain ⟨k, after, done, puts, last⟩ := good.drops here
      rw [Call.run, withHandle_some here, Action.bind_done (onKernel_done done)]
      exact ⟨_, .close (good.node_some here) puts, last⟩
  | fork p child =>
      obtain ⟨cwd, here⟩ := Option.ne_none_iff_exists'.mp ready.1
      rw [Call.run, unusedThen_none ready.2, withHandle_some here, Action.ends_bind, ends_onKernel]
      exact good.forkCall here ready.2
  | exit p =>
      obtain ⟨cwd, here⟩ := Option.ne_none_iff_exists'.mp ready
      obtain ⟨k, after, done, puts, last⟩ := good.drops here
      rw [Call.run, withHandle_some here, Action.bind_done (onKernel_done done)]
      exact ⟨_, .exit (good.node_some here) puts, last⟩

theorem sysLink_stuck {old new : List UInt8} (here : s.handle (.inl p) = some cwd)
    (oldNamed : s.Named p old) (newNamed : s.Named p new)
    (stuck : (Call.link p old new).Stuck model) (result : Int) (k : Kernel) :
    Path.sysLink consoleread old new ⟨s.fs, unlocked, cwd⟩ ≠ .done result k := by
  refine (good.holding cwd).sysLink_stuck good.tree oldNamed.1 newNamed.1
    (good.begins here oldNamed) (good.begins here newNamed) ?_ result k
  rw [good.start here, good.start here]
  exact stuck

/-- A call that waits for itself does not return. -/
theorem stuck (call : Call) (named : call.Named s) (stuck : call.Stuck model) (result : Int)
    (next : System) : call.run consoleread s ≠ .done result next := by
  cases call with
  | link p old new =>
      intro done
      rw [Call.run, withHandle] at done
      cases here : s.handle (.inl p) with
      | none =>
          rw [here] at done
          cases done
      | some cwd =>
          have first := named (p, old) (by simp [Call.walks])
          have second := named (p, new) (by simp [Call.walks])
          have never := @sysLink_stuck _ _ _ _ consoleread good _ _ here first second stuck
          rw [here] at done
          dsimp only at done
          cases ran : Path.sysLink consoleread old new ⟨s.fs, unlocked, cwd⟩ with
          | blocked =>
              rw [Action.bind_blocked (by rw [onKernel, ran])] at done
              cases done
          | panic message =>
              rw [Action.bind_panic (by rw [onKernel, ran])] at done
              cases done
          | done value k => exact never value k ran
  | _ => exact stuck.elim

end Good

/-- A call that returned had what it uses. -/
theorem ready_of_done {consoleread : Int → Int × List UInt8} {s next : System} {call : Call}
    {result : Int} (done : call.run consoleread s = .done result next) : call.Ready s := by
  have handled : ∀ {holder action}, withHandle holder action s = .done result next →
      s.handle holder ≠ none := by
    intro holder action done none
    rw [withHandle, none] at done
    cases done
  have guarded : ∀ {holder action}, unusedThen holder action s = .done result next →
      s.handle holder = none ∧ action s = .done result next := by
    intro holder action done
    rw [unusedThen] at done
    split at done
    · rename_i unused
      exact ⟨unused, done⟩
    · cases done
  cases call with
  | open_ p path omode room =>
      cases room with
      | none => exact ⟨handled done, fun f same => absurd same (Option.some_ne_none f).symm⟩
      | some f =>
          obtain ⟨unused, done⟩ := guarded done
          refine ⟨handled done, fun other same => ?_⟩
          cases same
          exact unused
  | fork p child =>
      obtain ⟨unused, done⟩ := guarded done
      exact ⟨handled done, unused⟩
  | mkdir p path => exact handled done
  | mknod p path major minor => exact handled done
  | link p old new => exact handled done
  | unlink p path => exact handled done
  | chdir p path => exact handled done
  | close f => exact handled done
  | exit p => exact handled done

/-! ## Runs -/

/-- The call returns with the answer. -/
def System.next (consoleread : Int → Int × List UInt8) (s : System) (event : Call × Int) :
    Option System :=
  match event.1.run consoleread s with
  | .done result next => if result = event.2 then some next else none
  | _ => none

/-- The calls give their answers one after the other. -/
inductive Answers : Model → List (Call × Int) → Model → Prop where
  | nil (model : Model) : Answers model [] model
  | cons {model middle after : Model} {call : Call} {result : Int} {rest : List (Call × Int)}
      (does : Does model call result middle) (answers : Answers middle rest after) :
      Answers model ((call, result) :: rest) after

/-- One step of a run. -/
theorem Good.next {consoleread : Int → Int × List UInt8} {model : Model} {s after : System}
    {call : Call} {result : Int} (good : Good model s) (named : call.Named s)
    (stepped : s.next consoleread (call, result) = some after) :
    ∃ later, Does model call result later ∧ Good later after := by
  rw [System.next] at stepped
  split at stepped
  · rename_i value finish done
    split at stepped
    · rename_i same
      cases stepped
      cases same
      have free : ¬call.Stuck model := fun stuck =>
        good.stuck call named stuck _ _ done
      exact (good.call call (ready_of_done done) named free).of_done done
    · cases stepped
  · cases stepped

/-- The path "/d". -/
def pathD : List UInt8 := [47, 100]

/-- A directory is made and entered, loses its name, and is freed when the process exits. -/
def firstCalls : List (Call × Int) :=
  [(.mkdir firstProc pathD, 0), (.chdir firstProc pathD, 0), (.unlink firstProc pathD, 0),
    (.exit firstProc, 0)]

/-- An absolute path needs no current directory. -/
theorem named_absolute (s : System) {call : Call} {p : ProcPtr} {path : List UInt8}
    (walks : call.walks = [(p, path)]) (string : 0 ∉ path) (absolute : path.head? = some slash) :
    call.Named s := by
  intro walk member
  rw [walks] at member
  cases List.mem_singleton.mp member
  exact ⟨string, fun relative => absurd absolute relative⟩

theorem firstCalls_named (consoleread : Int → Int × List UInt8) (start : System) :
    Throughout (System.next consoleread) (fun s event => event.1.Named s) start firstCalls := by
  have named : ∀ s, ∀ call : Call, call.walks = [(firstProc, pathD)] → call.Named s :=
    fun s call walks => named_absolute s walks (by decide) rfl
  refine ⟨named _ _ rfl, fun _ _ => ⟨named _ _ rfl, fun _ _ => ⟨named _ _ rfl, fun _ _ =>
    ⟨fun walk member => ?_, fun _ _ => trivial⟩⟩⟩⟩
  exact absurd member List.not_mem_nil

theorem firstCalls_run : ∃ start finish, Good firstModel start ∧
    runs (System.next fun n => (n, [])) start firstCalls = some finish := by
  have facts : (runs FsState.next blankDisk rootEmpty).map (fun start => decide (RootMade start ∧
      (runs (System.next fun n => (n, [])) ⟨start, firstHandle⟩ firstCalls).isSome = true)) =
        some true := by decide +kernel
  obtain ⟨start, ran, holds⟩ := Option.map_eq_some_iff.mp facts
  obtain ⟨made, possible⟩ := of_decide_eq_true holds
  obtain ⟨finish, reached⟩ := Option.isSome_iff_exists.mp possible
  exact ⟨_, finish, good_first (sound_run blankDisk_image ran) made, reached⟩

/-- What a run of calls leaves. The induction is on the calls. -/
theorem Good.history {consoleread : Int → Int × List UInt8} {model : Model}
    {start finish : System} (good : Good model start) {history : List (Call × Int)}
    (named : Throughout (System.next consoleread) (fun s event => event.1.Named s) start history)
    (ran : runs (System.next consoleread) start history = some finish) :
    ∃ after, Answers model history after ∧ Good after finish := by
  induction history generalizing model start with
  | nil =>
      cases ran
      exact ⟨model, .nil model, good⟩
  | cons event rest inductionHypothesis =>
      obtain ⟨call, result⟩ := event
      rw [runs_cons] at ran
      obtain ⟨middle, stepped, ran⟩ := Option.bind_eq_some_iff.mp ran
      obtain ⟨later, does, shows⟩ := good.next named.1 stepped
      obtain ⟨after, answers, last⟩ := inductionHypothesis shows (named.2 middle stepped) ran
      exact ⟨after, .cons does answers, last⟩

/-- A node is in use exactly while it has names or somebody refers to it. -/
theorem Good.used_iff {model : Model} {s : System} (good : Good model s) (i : Nat) :
    model.volume.naming.kind i ≠ 0 ↔
      scheme.Live model.volume.naming i ∨ ∃ holder, model.node holder = some i := by
  constructor
  · intro used
    obtain linked | ⟨ip, referenced, rfl⟩ := good.shows.kept i used
    · exact Or.inl ⟨used, linked⟩
    · rw [good.refs] at referenced
      obtain ⟨holder, handle⟩ := exists_owner (Int.natCast_pos.mp referenced)
      exact Or.inr ⟨holder, good.node_some handle⟩
  · rintro (live | ⟨holder, node⟩)
    · exact live.1
    · rw [good.node] at node
      obtain ⟨ip, handle, rfl⟩ := Option.map_eq_some_iff.mp node
      refine good.shows.used ip ?_
      rw [good.refs]
      exact_mod_cast shares_pos handle

/-- In every run the calls answer and do what they do in the tree of the model, and the system shows
that tree. Paths that are not absolute start in directories with names. -/
theorem calls_refine (consoleread : Int → Int × List UInt8) (model : Model)
    (start finish : System) (good : Good model start) (history : List (Call × Int))
    (named : Throughout (System.next consoleread) (fun s event => event.1.Named s) start history)
    (ran : runs (System.next consoleread) start history = some finish) :
    ∃ after, Answers model history after ∧ Shows after.volume finish.fs ∧
      scheme.Consistent after.volume.naming ∧ after.node = finish.node ∧
      ∀ i, after.volume.naming.kind i ≠ 0 ↔
        scheme.Live after.volume.naming i ∨ ∃ holder, after.node holder = some i := by
  obtain ⟨after, answers, last⟩ := good.history named ran
  exact ⟨after, answers, last.shows, last.tree, last.node, last.used_iff⟩

theorem calls_refine_first : ∃ (start finish : System) (after : Model),
    runs (System.next fun n => (n, [])) start firstCalls = some finish ∧
      Answers firstModel firstCalls after ∧ Shows after.volume finish.fs ∧
      after.node = finish.node := by
  obtain ⟨start, finish, good, ran⟩ := firstCalls_run
  obtain ⟨after, answers, shows, -, node, -⟩ := calls_refine _ firstModel start finish good
    firstCalls (firstCalls_named _ start) ran
  exact ⟨start, finish, after, ran, answers, shows, node⟩

end Xv6.Tree
