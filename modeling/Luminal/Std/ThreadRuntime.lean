import Luminal.Lib.RefCell
import Luminal.Std.Executor

/-!
# The runtime of a thread

The global `spawn` and `block_on` run on a `Runtime` that each thread keeps in the `RefCell`
`THREAD_RUNTIME` (`thread_local_support` in `runtime/runtime.rs`).  The state is the cell and the
calls in progress on the thread, the innermost first; `advance` is one action of
`with_thread_local_runtime`.  While its closure runs a call keeps a `Ref` of the cell, and a
`block_on` polls tasks, which may call the global functions again.  Any of the calls may unwind,
out of `Runtime::new().expect(..)` too.

A call in which the closure runs means that the cell is filled, so the exclusive borrow is taken
only when there is no other call (`Consistent.below`): no borrow fails (`reentrant`).
-/

namespace Luminal.Std.ThreadRuntime

open Function Transition

inductive Call where
  | spawn
  | blockOn
  deriving DecidableEq

/-- Where a call of `with_thread_local_runtime` is.  A runtime is named by the number of calls of
`Runtime::new` before its own. -/
inductive Pc where
  /-- before `cell.borrow()` in the condition -/
  | condition
  /-- `.is_none()` -/
  | isNone
  /-- `Runtime::new().expect("Failed to initialize thread-local runtime")` -/
  | new
  /-- before `cell.borrow_mut()` -/
  | borrowMut (rt : Nat)
  /-- `*cell.borrow_mut() = Some(rt)` -/
  | assign (rt : Nat)
  /-- before `cell.borrow()` in the argument -/
  | argument
  /-- `.as_ref().unwrap()` -/
  | unwrap
  /-- `f` runs: `rt.spawn(future)` or `rt.block_on(future)` -/
  | run (rt : Nat)
  deriving DecidableEq

structure Frame where
  call : Call
  pc : Pc
  deriving DecidableEq

/-- What must not happen in a call. -/
inductive Fault where
  | borrow (e : RefCell.BorrowError)
  /-- "called `Option::unwrap()` on a `None` value" -/
  | unwrap
  deriving DecidableEq

structure State where
  /-- `THREAD_RUNTIME` -/
  cell : RefCell (Option Nat)
  stack : List Frame
  /-- the calls of `Runtime::new`: whether they returned -/
  news : List Bool
  /-- how many closures have been run -/
  ran : Nat
  faults : List Fault

namespace State

def init : State := ⟨.new none, [], [], 0, []⟩

/-- One action of the innermost call.  `ok` is whether `Runtime::new` returns or panics; the `Ref`
of a call goes whether its closure returns or unwinds. -/
def advance (s : State) (ok : Bool) : State :=
  match s.stack with
  | [] => s
  | ⟨call, pc⟩ :: fs =>
    match pc with
    | .condition =>
      match s.cell.borrow with
      | .ok cell => { s with cell, stack := ⟨call, .isNone⟩ :: fs }
      | .error e => { s with stack := fs, faults := s.faults ++ [.borrow e] }
    | .isNone =>
      { s with
        cell := s.cell.dropRef
        stack := ⟨call, if s.cell.value.isNone then .new else .argument⟩ :: fs }
    | .new =>
      { s with
        stack := if ok then ⟨call, .borrowMut s.news.length⟩ :: fs else fs
        news := s.news ++ [ok] }
    | .borrowMut rt =>
      match s.cell.borrowMut with
      | .ok cell => { s with cell, stack := ⟨call, .assign rt⟩ :: fs }
      | .error e => { s with stack := fs, faults := s.faults ++ [.borrow e] }
    | .assign rt =>
      { s with cell := (s.cell.set (some rt)).dropRefMut, stack := ⟨call, .argument⟩ :: fs }
    | .argument =>
      match s.cell.borrow with
      | .ok cell => { s with cell, stack := ⟨call, .unwrap⟩ :: fs }
      | .error e => { s with stack := fs, faults := s.faults ++ [.borrow e] }
    | .unwrap =>
      match s.cell.value with
      | some rt => { s with stack := ⟨call, .run rt⟩ :: fs, ran := s.ran + 1 }
      | none => { s with cell := s.cell.dropRef, stack := fs, faults := s.faults ++ [.unwrap] }
    | .run _ => { s with cell := s.cell.dropRef, stack := fs }

end State

/-- Who moves: user code calls a global function, or the innermost call goes on. -/
inductive Label where
  | call (call : Call)
  | advance (ok : Bool)

/-- User code runs on the thread when no call is in progress, and in the tasks that a `block_on`
polls. -/
def State.RunsUser (s : State) : Prop := ∀ f fs, s.stack = f :: fs → ∃ rt, f = ⟨.blockOn, .run rt⟩

inductive Step (s : State) : Label → State → Prop
  | call (call : Call) : s.RunsUser →
      Step s (.call call) { s with stack := ⟨call, .condition⟩ :: s.stack }
  | advance (ok : Bool) : s.stack ≠ [] → Step s (.advance ok) (s.advance ok)

/-- A call and the actions that follow it. -/
theorem run_call {s : State} {c : Call} (hs : s.RunsUser) (oks : List Bool)
    (h : (oks.foldl State.advance { s with stack := ⟨c, .condition⟩ :: s.stack }).stack ≠ []) :
    ∃ ls, Run Step always s ls
      (oks.foldl State.advance { s with stack := ⟨c, .condition⟩ :: s.stack }) := by
  induction oks using List.reverseRecOn with
  | nil => exact ⟨_, Run.single trivial (.call c hs)⟩
  | append_singleton oks ok ih =>
    rw [List.foldl_append, List.foldl_cons, List.foldl_nil] at h ⊢
    have hbusy : (oks.foldl State.advance
        { s with stack := ⟨c, .condition⟩ :: s.stack }).stack ≠ [] := by
      -- without a call nothing happens
      intro hnil
      rw [State.advance, hnil] at h
      exact h hnil
    obtain ⟨ls, hr⟩ := ih hbusy
    exact ⟨_, hr.snoc trivial (.advance ok hbusy)⟩

/-! ## What holds between the calls -/

/-- The guard that a call holds. -/
def Frame.guard (f : Frame) : Option RefCell.Guard :=
  match f.pc with
  | .isNone | .unwrap | .run _ => some .ref
  | .assign _ => some .refMut
  | .condition | .new | .borrowMut _ | .argument => none

/-- The runtime that a call has made and not yet stored. -/
def Frame.made (f : Frame) : Option Nat :=
  match f.pc with
  | .borrowMut rt | .assign rt => some rt
  | _ => none

/-- What a call knows of the cell. -/
def Frame.Agrees (value : Option Nat) (f : Frame) : Prop :=
  match f.pc with
  | .condition | .isNone => True
  | .new | .borrowMut _ | .assign _ => value = none
  | .argument | .unwrap => value ≠ none
  | .run rt => value = some rt

/-- The runtime that exists was made by the last call of `Runtime::new`; all others failed. -/
def News (news : List Bool) : Option Nat → Prop
  | some rt => news = List.replicate rt false ++ [true]
  | none => news = List.replicate news.length false

/-- The runtime that exists. -/
def State.made (s : State) : Option Nat := s.cell.value.or (s.stack.head?.bind Frame.made)

structure State.Consistent (s : State) : Prop where
  counts : s.cell.Counts (s.stack.filterMap Frame.guard)
  agrees : ∀ f ∈ s.stack, f.Agrees s.cell.value
  /-- below the innermost call there are only calls whose closure runs -/
  below : ∀ f ∈ s.stack.tail, ∃ rt, f.pc = .run rt
  news : News s.news s.made
  ran : 0 < s.ran → s.cell.value ≠ none
  faults : s.faults = []

section Steps

variable {cell cell' : RefCell (Option Nat)} {f f' : Frame} {fs : List Frame} {news : List Bool}
  {ran ran' : Nat} {faults : List Fault}

/-- **While the cell is empty there is one call.** -/
theorem alone (h : State.Consistent ⟨cell, f :: fs, news, ran, faults⟩) (hv : cell.value = none) :
    fs = [] := by
  rw [List.eq_nil_iff_forall_not_mem]
  intro g hg
  obtain ⟨rt, hrt⟩ := h.below g hg
  have hagrees := h.agrees g (List.mem_cons_of_mem _ hg)
  simp only [Frame.Agrees, hrt, hv] at hagrees
  cases hagrees

/-- The calls below hold shared guards. -/
theorem shared_below (h : State.Consistent ⟨cell, f :: fs, news, ran, faults⟩) :
    RefCell.Guard.refMut ∉ fs.filterMap Frame.guard := by
  intro hmem
  obtain ⟨g, hg, hguard⟩ := List.mem_filterMap.1 hmem
  obtain ⟨rt, hrt⟩ := h.below g hg
  rw [Frame.guard, hrt] at hguard
  cases hguard

/-- The innermost call goes on. -/
theorem State.Consistent.go (h : State.Consistent ⟨cell, f :: fs, news, ran, faults⟩)
    (hvalue : cell'.value = cell.value)
    (hcounts : cell'.Counts ((f' :: fs).filterMap Frame.guard)) (hagrees : f'.Agrees cell.value)
    (hmade : f'.made = f.made) (hran : 0 < ran' → cell.value ≠ none) :
    State.Consistent ⟨cell', f' :: fs, news, ran', faults⟩ where
  counts := hcounts
  agrees g hg := by
    show g.Agrees cell'.value
    rw [hvalue]
    rcases List.mem_cons.1 hg with rfl | hg
    · exact hagrees
    · exact h.agrees g (List.mem_cons_of_mem _ hg)
  below := h.below
  news := by
    show News news (cell'.value.or f'.made)
    rw [hvalue, hmade]
    exact h.news
  ran := by
    show 0 < ran' → cell'.value ≠ none
    rwa [hvalue]
  faults := h.faults

/-- The innermost call is over. -/
theorem State.Consistent.pop {rt : Nat}
    (h : State.Consistent ⟨cell, f :: fs, news, ran, faults⟩) (hf : f.pc = .run rt) :
    State.Consistent ⟨cell.dropRef, fs, news, ran, faults⟩ := by
  have hvalue : cell.value = some rt := by
    have hagrees := h.agrees f List.mem_cons_self
    rwa [Frame.Agrees, hf] at hagrees
  have hguard : f.guard = some .ref := by rw [Frame.guard, hf]
  refine ⟨?_, fun g hg => h.agrees g (List.mem_cons_of_mem _ hg),
    fun g hg => h.below g (List.mem_of_mem_tail hg), ?_, h.ran, h.faults⟩
  · have hcounts := h.counts
    rw [List.filterMap_cons_some hguard] at hcounts
    exact hcounts.dropRef
  · have hnews := h.news
    simp only [State.made, hvalue, Option.some_or, RefCell.dropRef_value] at hnews ⊢
    exact hnews

end Steps

theorem consistent_init : State.init.Consistent :=
  ⟨.new none, nofun, nofun, rfl, fun h => absurd h (Nat.lt_irrefl 0), rfl⟩

/-- User code calls a global function. -/
theorem State.Consistent.call {s : State} (h : s.Consistent) (hs : s.RunsUser) (call : Call) :
    State.Consistent { s with stack := ⟨call, .condition⟩ :: s.stack } := by
  have hrun : ∀ f ∈ s.stack, ∃ rt, f.pc = .run rt := by
    intro f hf
    cases hstack : s.stack with
    | nil => rw [hstack] at hf; cases hf
    | cons g gs =>
      rw [hstack] at hf
      rcases List.mem_cons.1 hf with rfl | hf
      · obtain ⟨rt, rfl⟩ := hs _ _ hstack
        exact ⟨rt, rfl⟩
      · exact h.below f (by rw [hstack]; exact hf)
  refine ⟨h.counts, ?_, hrun, ?_, h.ran, h.faults⟩
  · intro f hf
    rcases List.mem_cons.1 hf with rfl | hf
    · trivial
    · exact h.agrees f hf
  · have hnews := h.news
    have hmade : s.stack.head?.bind Frame.made = none := by
      cases hstack : s.stack with
      | nil => rfl
      | cons f fs =>
        obtain ⟨rt, hrt⟩ := hrun f (by rw [hstack]; exact List.mem_cons_self)
        simp only [List.head?_cons, Option.bind_some, Frame.made, hrt]
    rw [State.made, hmade] at hnews
    exact hnews

/-- **Every action of a call finds the cell as it needs it.** -/
theorem State.Consistent.advance {s : State} (h : s.Consistent) (ok : Bool) :
    (s.advance ok).Consistent := by
  obtain ⟨cell, stack, news, ran, faults⟩ := s
  cases stack with
  | nil => exact h
  | cons f fs =>
    obtain ⟨call, pc⟩ := f
    have hagrees := h.agrees _ List.mem_cons_self
    have hcounts := h.counts
    have hnews := h.news
    cases pc with
    | condition =>
      have hcounts : cell.Counts (fs.filterMap Frame.guard) := hcounts
      obtain ⟨hok, hc⟩ := hcounts.borrow (shared_below h)
      simp only [State.advance, hok]
      exact h.go rfl hc trivial rfl h.ran
    | isNone =>
      simp only [State.advance]
      cases hvalue : cell.value with
      | none => exact h.go rfl (RefCell.Counts.dropRef hcounts) hvalue rfl h.ran
      | some rt =>
        refine h.go rfl (RefCell.Counts.dropRef hcounts) ?_ rfl h.ran
        simp [Frame.Agrees, hvalue]
    | new =>
      have hvalue : cell.value = none := hagrees
      obtain rfl := alone h hvalue
      have hfailed : news = List.replicate news.length false := by
        rw [State.made, hvalue] at hnews
        exact hnews
      cases ok with
      | true =>
        refine ⟨hcounts, fun g hg => ?_, nofun, ?_, h.ran, h.faults⟩
        · rw [List.mem_singleton.1 hg]
          exact hvalue
        · show News (news ++ [true]) (cell.value.or (some news.length))
          rw [hvalue]
          exact congrArg (· ++ [true]) hfailed
      | false =>
        refine ⟨hcounts, nofun, nofun, ?_, h.ran, h.faults⟩
        show News (news ++ [false]) (cell.value.or none)
        rw [hvalue]
        show news ++ [false] = List.replicate (news ++ [false]).length false
        rw [List.length_append, List.length_singleton, List.replicate_succ', ← hfailed]
    | borrowMut rt =>
      obtain rfl := alone h hagrees
      obtain ⟨hok, hc⟩ := RefCell.Counts.borrowMut hcounts
      simp only [State.advance, hok]
      exact h.go rfl hc hagrees rfl h.ran
    | assign rt =>
      have hvalue : cell.value = none := hagrees
      obtain rfl := alone h hvalue
      refine ⟨(RefCell.Counts.set hcounts (some rt)).dropRefMut, fun g hg => ?_, nofun, ?_,
        fun _ => Option.some_ne_none rt, h.faults⟩
      · rw [List.mem_singleton.1 hg]
        exact Option.some_ne_none rt
      · rw [State.made, hvalue] at hnews
        exact hnews
    | argument =>
      have hcounts : cell.Counts (fs.filterMap Frame.guard) := hcounts
      obtain ⟨hok, hc⟩ := hcounts.borrow (shared_below h)
      simp only [State.advance, hok]
      exact h.go rfl hc hagrees rfl h.ran
    | unwrap =>
      have hsome : cell.value ≠ none := hagrees
      obtain ⟨rt, hvalue⟩ := Option.ne_none_iff_exists'.1 hsome
      simp only [State.advance, hvalue]
      exact h.go rfl hcounts hvalue rfl fun _ => hsome
    | run rt => exact h.pop rfl

theorem Step.consistent {s s' : State} {l : Label} (hs : Step s l s') (h : s.Consistent) :
    s'.Consistent := by
  cases hs with
  | call call hs => exact h.call hs call
  | advance ok => exact h.advance ok

theorem consistent_of_run {G : State → Label → Prop} {ls : List Label} {s : State}
    (hr : Run Step G State.init ls s) : s.Consistent :=
  hr.invariant consistent_init fun _ _ _ ha _ hs => hs.consistent ha

/-- **The global functions are re-entrant.**  In every run of calls, nested to any depth, each
of which may unwind: the cell is never borrowed exclusively and shared at once, no borrow and no
`unwrap` fails, no borrow is left when the outermost call is over, every closure gets the runtime
in the cell, and `Runtime::new` returns once, after calls of it that panicked. -/
theorem reentrant {ls : List Label} {s : State} (hr : Run Step always State.init ls s) :
    (s.cell.writing = true → s.cell.borrows = 0) ∧ s.faults = [] ∧
    (s.stack = [] → s.cell.borrows = 0 ∧ s.cell.writing = false) ∧
    (∀ call rt, ⟨call, .run rt⟩ ∈ s.stack → s.cell.value = some rt) ∧
    (∃ k, s.news = List.replicate k false ∨ s.news = List.replicate k false ++ [true]) ∧
    (0 < s.ran → true ∈ s.news) := by
  have h := consistent_of_run hr
  have hnews := h.news
  refine ⟨h.counts.exclusive, h.faults, fun hstack => ?_, fun call rt hf => h.agrees _ hf, ?_, ?_⟩
  · have hcounts := h.counts
    rw [hstack] at hcounts
    exact hcounts.free
  · cases hmade : s.made with
    | none =>
      rw [hmade] at hnews
      exact ⟨_, Or.inl hnews⟩
    | some rt =>
      rw [hmade] at hnews
      exact ⟨rt, Or.inr hnews⟩
  · intro hran
    obtain ⟨rt, hvalue⟩ := Option.ne_none_iff_exists'.1 (h.ran hran)
    rw [State.made, hvalue, Option.some_or] at hnews
    have hlast : s.news = List.replicate rt false ++ [true] := hnews
    rw [hlast]
    simp

/-- `Runtime::new` panicked in the first call and returned in the second, in which a task that is
polled called `spawn`. -/
def State.retried : State where
  cell := ⟨some 1, 2, false⟩
  stack := [⟨.spawn, .run 1⟩, ⟨.blockOn, .run 1⟩]
  news := [false, true]
  ran := 2
  faults := []

theorem run_retried : ∃ ls, Run Step always State.init ls State.retried := by
  have hpolls : State.RunsUser
      ⟨⟨some 1, 1, false⟩, [⟨.blockOn, .run 1⟩], [false, true], 1, []⟩ := by
    intro f fs hstack
    cases hstack
    exact ⟨1, rfl⟩
  obtain ⟨as, h1⟩ := run_call (s := State.init) (c := .blockOn) nofun [true, true] (by decide)
  obtain ⟨bs, h2⟩ := run_call (s := ⟨.new none, [], [false], 0, []⟩) (c := .blockOn) nofun
    [true, true, true, true, true, true, true] (by decide)
  obtain ⟨cs, h3⟩ := run_call hpolls (c := .spawn) [true, true, true, true] (by decide)
  exact ⟨_, ((h1.snoc trivial (.advance false (by decide))).append h2).append h3⟩

theorem reentrant_retried : State.retried.faults = [] ∧
    ∃ k, State.retried.news = List.replicate k false ∨
      State.retried.news = List.replicate k false ++ [true] := by
  obtain ⟨ls, hr⟩ := run_retried
  exact ⟨(reentrant hr).2.1, (reentrant hr).2.2.2.2.1⟩

/-- The runtime is not made by a single call of `Runtime::new` when the first one panics. -/
theorem not_reentrant : ¬ ∀ (ls : List Label) (s : State), Run Step always State.init ls s →
    0 < s.ran → s.news.length = 1 := by
  intro h
  obtain ⟨ls, hr⟩ := run_retried
  exact absurd (h ls _ hr (by decide)) (by decide)

/-- **A call gets to run its closure**, when `Runtime::new` returns. -/
theorem enter {s : State} (h : s.Consistent) (hs : s.RunsUser) (call : Call) :
    ∃ ls s' rt, Run Step always s ls s' ∧ s'.stack = ⟨call, .run rt⟩ :: s.stack := by
  obtain ⟨⟨value, borrows, writing⟩, stack, news, ran, faults⟩ := s
  have hcounts := h.counts
  have hw : writing = false := by
    by_contra hw
    rw [Bool.not_eq_false] at hw
    have hmem := hcounts.writing.1 hw
    cases stack with
    | nil => cases hmem
    | cons f fs =>
      obtain ⟨rt, rfl⟩ := hs f fs rfl
      rcases List.mem_cons.1 hmem with hmem | hmem
      · cases hmem
      · exact shared_below h hmem
  subst hw
  cases value with
  | some rt =>
    obtain ⟨ls, hr⟩ := run_call hs (c := call) [true, true, true, true] nofun
    exact ⟨ls, _, rt, hr, rfl⟩
  | none =>
    cases stack with
    | nil =>
      obtain rfl : borrows = 0 := hcounts.borrows
      obtain ⟨ls, hr⟩ := run_call hs (c := call) [true, true, true, true, true, true, true] nofun
      exact ⟨ls, _, _, hr, rfl⟩
    | cons f fs =>
      obtain ⟨rt, rfl⟩ := hs f fs rfl
      have hsome : none = some rt := h.agrees _ List.mem_cons_self
      cases hsome

/-! ## The calls of a thread of the executor -/

section Threads

variable {n m : Nat} {U V : Type} {poll : U → Burst U V}

/-- The frame of a call that has not returned. -/
def callOf : Std.Frame U V → Option Call
  | .spawn _ _ false => some .spawn
  | .user _ (.wait _) => some .blockOn
  | _ => none

/-- A `spawn` in progress is on top of the stack. -/
def SpawnOnTop (fs : List (Std.Frame U V)) : Prop := ∀ f ∈ fs.tail, callOf f ≠ some .spawn

theorem spawnOnTop_step {sh sh' : Shared n U V} {t : ThreadId n m} {fs fs' : List (Std.Frame U V)}
    (h : ThreadStep poll sh t fs sh' fs') (hfs : SpawnOnTop fs) : SpawnOnTop fs' := by
  have htail : ∀ {gs : List (Std.Frame U V)}, (∀ g ∈ gs, callOf g ≠ some .spawn) →
      ∀ g ∈ gs.tail, callOf g ≠ some .spawn :=
    fun hgs g hg => hgs g (List.mem_of_mem_tail hg)
  cases h with
  | unwindRun | exit => exact nofun
  | requeue | spawned | dropSelf | dropQueue | finishedRun | finishedHelp => exact htail hfs
  | resume | unwindBlockOn => exact fun g hg => hfs g (List.mem_cons_of_mem _ hg)
  | callSpawn | callBlockOn | dropLastRuntime | unwindLast | helpTask | runTask =>
    intro g hg
    rcases List.mem_cons.1 hg with rfl | hg
    · exact nofun
    · exact hfs g hg
  | _ => exact hfs

/-- **An action of the executor begins a call, ends the innermost one, or leaves the calls as
they are.** -/
theorem calls_step {sh sh' : Shared n U V} {t : ThreadId n m} {fs fs' : List (Std.Frame U V)}
    (h : ThreadStep poll sh t fs sh' fs') (hfs : SpawnOnTop fs) :
    fs'.filterMap callOf = fs.filterMap callOf ∨
    (∃ c, fs'.filterMap callOf = c :: fs.filterMap callOf ∧ .spawn ∉ fs.filterMap callOf) ∨
    ∃ c, fs.filterMap callOf = c :: fs'.filterMap callOf := by
  -- user code that calls is on top, and has no call of its own in progress
  have hnone : ∀ {task : Option (Task U)} {b : Burst U V} {gs : List (Std.Frame U V)},
      fs = .user task (.run b) :: gs → .spawn ∉ fs.filterMap callOf := by
    intro task b gs hgs hmem
    obtain ⟨g, hg, hcall⟩ := List.mem_filterMap.1 hmem
    rw [hgs] at hg hfs
    rcases List.mem_cons.1 hg with rfl | hg
    · cases hcall
    · exact hfs g hg hcall
  cases h with
  | callSpawn task u k gs => exact Or.inr (Or.inl ⟨.spawn, rfl, hnone rfl⟩)
  | callBlockOn task u k gs => exact Or.inr (Or.inl ⟨.blockOn, rfl, hnone rfl⟩)
  | spawned => exact Or.inr (Or.inr ⟨.spawn, rfl⟩)
  | resume => exact Or.inr (Or.inr ⟨.blockOn, rfl⟩)
  | helpTask ch l c sh₁ l' task gs | runTask i l c sh₁ l' task gs =>
    refine Or.inl ?_
    have hbegin : callOf (sh₁.beginPoll poll task).2 = none := by
      unfold Shared.beginPoll
      split <;> rfl
    rw [List.filterMap_cons_none hbegin]
    rfl
  | _ => exact Or.inl rfl

/-- The calls of the stack are the calls on the cell, each with its closure running. -/
structure Tracks (fs : List (Std.Frame U V)) (M : State) : Prop where
  consistent : M.Consistent
  calls : M.stack.map Frame.call = fs.filterMap callOf
  running : ∀ f ∈ M.stack, ∃ rt, f.pc = .run rt

theorem tracks_step {sh sh' : Shared n U V} {t : ThreadId n m} {fs fs' : List (Std.Frame U V)}
    {M : State} (h : ThreadStep poll sh t fs sh' fs') (hfs : SpawnOnTop fs) (hM : Tracks fs M) :
    ∃ ls M', Run Step always M ls M' ∧ Tracks fs' M' := by
  rcases calls_step h hfs with hsame | ⟨c, hpush, hnone⟩ | ⟨c, hpop⟩
  · exact ⟨[], M, Run.nil, hM.consistent, hM.calls.trans hsame.symm, hM.running⟩
  · have huser : M.RunsUser := by
      intro f gs hstack
      obtain ⟨rt, hrt⟩ := hM.running f (by rw [hstack]; exact List.mem_cons_self)
      have hcall : f.call ∈ fs.filterMap callOf := by
        rw [← hM.calls, hstack]
        exact List.mem_cons_self
      obtain ⟨call, pc⟩ := f
      obtain rfl : pc = .run rt := hrt
      cases call with
      | spawn => exact absurd hcall hnone
      | blockOn => exact ⟨rt, rfl⟩
    obtain ⟨ls, M', rt, hrun, hstack⟩ := enter hM.consistent huser c
    refine ⟨ls, M', hrun, ?_, ?_, ?_⟩
    · exact hrun.invariant hM.consistent fun _ _ _ ha _ hs => hs.consistent ha
    · rw [hstack, hpush, List.map_cons, hM.calls]
    · rw [hstack]
      exact List.forall_mem_cons.2 ⟨⟨rt, rfl⟩, hM.running⟩
  · obtain ⟨cell, stack, news, ran, faults⟩ := M
    cases stack with
    | nil =>
      have hcalls := hM.calls
      rw [hpop] at hcalls
      cases hcalls
    | cons f gs =>
      obtain ⟨call, pc⟩ := f
      obtain ⟨rt, hrt⟩ := hM.running _ List.mem_cons_self
      obtain rfl : pc = .run rt := hrt
      refine ⟨_, _, Run.single trivial (.advance true nofun), hM.consistent.advance true, ?_,
        fun g hg => hM.running g (List.mem_cons_of_mem _ hg)⟩
      have hcalls := hM.calls
      rw [hpop, List.map_cons] at hcalls
      exact (List.cons.inj hcalls).2

/-- **The calls of every thread of the executor are calls of a run of the cell.** -/
theorem tracks_reachable {G : Std.State n m U V → ThreadId n m → Prop} {s : Std.State n m U V}
    (h : Reachable poll G s) (t : ThreadId n m) :
    ∃ ls M, Run Step always State.init ls M ∧ Tracks (s.threads t) M := by
  obtain ⟨ts, hr⟩ := h
  have hinv := hr.invariant (P := fun s => ∀ t, SpawnOnTop (s.threads t) ∧
    ∃ ls M, Run Step always State.init ls M ∧ Tracks (s.threads t) M) ?_ ?_
  · exact (hinv t).2
  · rintro (i | i) <;> exact ⟨nofun, [], _, Run.nil, consistent_init, rfl, nofun⟩
  · rintro a t' b ha - ⟨hs, -⟩ t
    by_cases ht : t = t'
    · subst ht
      simp only [update_self]
      obtain ⟨htop, ls, M, hM, htracks⟩ := ha t
      obtain ⟨ls', M', hrun, htracks'⟩ := tracks_step hs htop htracks
      exact ⟨spawnOnTop_step hs htop, _, M', hM.append hrun, htracks'⟩
    · simp only [update_of_ne ht]
      exact ha t

end Threads

end Luminal.Std.ThreadRuntime
