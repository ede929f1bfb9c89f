import Luminal.Lib.Transition
import Mathlib.Algebra.GroupWithZero.Nat

/-!
# Tasks and the code of futures

`Task` is the runtime's unit of work (`runtime/task.rs`): an id and a boxed
future.  The executor only ever polls a future, so a future supplied by a user is
an arbitrary state `u : U` with an arbitrary `poll : U → Burst U V`: one call of
`Future::poll` is a *burst*, a well-founded tree of the effects the executor can
see (spawning, nested `block_on`, polling or dropping a `JoinHandle`), ending in
`Pending` with the future's next state, in `Ready`, or in a panic.  `outside` is
everything else the code may consult (clocks, input, shared memory).

`V` is the type of all task outputs.  Handles are named by the serial number of
the `spawn` call that made them, however the code came to own them.
-/

namespace Luminal

/-- `runtime/task.rs`: `TaskId(u64)`. -/
abbrev TaskId := UInt64

/-- What one call of a user future's `poll` does. -/
inductive Burst (U V : Type) where
  /-- returns `Poll::Pending`; the future is now `next` -/
  | pending (next : U)
  /-- returns `Poll::Ready(value)` -/
  | ready (value : V)
  /-- `rt.spawn(future)`, continuing with the handle -/
  | spawn (future : U) (k : Nat → Burst U V)
  /-- `rt.block_on(future)`; the continuation gets `none` when the call panics -/
  | blockOn (future : U) (k : Option V → Burst U V)
  /-- polls a `JoinHandle`; the continuation gets `none` for `Poll::Pending` -/
  | pollHandle (handle : Nat) (k : Option V → Burst U V)
  | dropHandle (handle : Nat) (k : Burst U V)
  /-- clones a `Runtime` or a `Handle` -/
  | cloneRuntime (k : Burst U V)
  /-- drops a `Runtime` or a `Handle` -/
  | dropRuntime (k : Burst U V)
  | outside (k : Nat → Burst U V)
  | panic

/-- The same burst over a larger type of futures. -/
def Burst.map {U U' V : Type} (f : U → U') : Burst U V → Burst U' V
  | .pending u => .pending (f u)
  | .ready v => .ready v
  | .spawn u k => .spawn (f u) fun h => (k h).map f
  | .blockOn u k => .blockOn (f u) fun r => (k r).map f
  | .pollHandle h k => .pollHandle h fun r => (k r).map f
  | .dropHandle h k => .dropHandle h (k.map f)
  | .cloneRuntime k => .cloneRuntime (k.map f)
  | .dropRuntime k => .dropRuntime (k.map f)
  | .outside k => .outside fun x => (k x).map f
  | .panic => .panic

/-- User code on a thread's stack: a thread outside the executor with nothing to do,
a burst being executed, or one suspended in a nested `block_on`. -/
inductive UserCode (U V : Type) where
  | idle
  | run (b : Burst U V)
  | wait (k : Option V → Burst U V)

/-- The boxed futures that exist: the `wrapped_future` of `spawn` (the user's future and
the sender of channel `ch`), and the `async {}` of `Task::default`. -/
inductive BoxFuture (U : Type) where
  | wrapped (ch : Nat) (future : U)
  | completed

/-- `runtime/task.rs`: `struct Task`. -/
structure Task (U : Type) where
  id : TaskId
  future : BoxFuture U

/-- `Task::default`: the placeholder that `mem::take` leaves behind. -/
def Task.default {U : Type} (id : TaskId) : Task U := ⟨id, .completed⟩

/-- The spawn this task comes from; none for a placeholder. -/
def Task.ch? {U : Type} (task : Task U) : Option Nat :=
  match task.future with
  | .wrapped ch _ => some ch
  | .completed => none

@[simp] theorem Task.ch?_wrapped {U : Type} (id : TaskId) (ch : Nat) (u : U) :
    (Task.mk id (.wrapped ch u)).ch? = some ch := rfl

@[simp] theorem Task.ch?_default {U : Type} (id : TaskId) :
    (Task.default id : Task U).ch? = none := rfl

/-- 1 for the task of spawn `ch`, 0 for any other task and for a placeholder. -/
def Task.isOf {U : Type} (ch : Nat) (task : Task U) : Nat := if task.ch? = some ch then 1 else 0

/-- How often the task of spawn `ch` occurs in a list of tasks. -/
def occ {U : Type} (ch : Nat) (l : List (Task U)) : Nat := (l.map (Task.isOf ch)).sum

section Occ

variable {U : Type} (ch : Nat)

@[simp] theorem isOf_wrapped (id : TaskId) (c : Nat) (u : U) :
    (Task.mk id (.wrapped c u)).isOf ch = if c = ch then 1 else 0 := by
  simp [Task.isOf]

@[simp] theorem isOf_default (id : TaskId) : (Task.default id : Task U).isOf ch = 0 := rfl

theorem isOf_pos_iff (t : Task U) : 0 < t.isOf ch ↔ t.ch? = some ch := by
  unfold Task.isOf
  split <;> simp_all

@[simp] theorem occ_nil : occ ch ([] : List (Task U)) = 0 := rfl

@[simp] theorem occ_cons (t : Task U) (l : List (Task U)) :
    occ ch (t :: l) = t.isOf ch + occ ch l := by
  simp [occ]

@[simp] theorem occ_append (l l' : List (Task U)) : occ ch (l ++ l') = occ ch l + occ ch l' := by
  simp [occ]

theorem occ_take_add_drop (k : Nat) (l : List (Task U)) :
    occ ch (l.take k) + occ ch (l.drop k) = occ ch l := by
  rw [← occ_append, List.take_append_drop]

theorem occ_pos_iff (l : List (Task U)) : 0 < occ ch l ↔ ∃ t ∈ l, t.ch? = some ch := by
  induction l with
  | nil => simp
  | cons t l ih =>
    rw [occ_cons, Nat.add_pos_iff_pos_or_pos, isOf_pos_iff, ih]
    simp

end Occ

/-- 1 once spawn `ch` has been called. -/
def born (ch spawned : Nat) : Nat := if ch < spawned then 1 else 0

theorem born_succ (ch k : Nat) : born ch (k + 1) = born ch k + if k = ch then 1 else 0 := by
  unfold born
  split <;> split <;> split <;> omega

theorem born_le_one (ch k : Nat) : born ch k ≤ 1 := by
  unfold born
  split <;> omega

/-! ## What a future can output -/

/-- Some execution of the burst, whatever the answers to its effects, ends this poll or a
later one in `Ready(v)`. -/
inductive Outputs {U V : Type} (poll : U → Burst U V) (v : V) : Burst U V → Prop
  | ready : Outputs poll v (.ready v)
  | pending {u : U} : Outputs poll v (poll u) → Outputs poll v (.pending u)
  | spawn {u : U} {k : Nat → Burst U V} (h : Nat) :
      Outputs poll v (k h) → Outputs poll v (.spawn u k)
  | blockOn {u : U} {k : Option V → Burst U V} (r : Option V) :
      Outputs poll v (k r) → Outputs poll v (.blockOn u k)
  | pollHandle {h : Nat} {k : Option V → Burst U V} (r : Option V) :
      Outputs poll v (k r) → Outputs poll v (.pollHandle h k)
  | dropHandle {h : Nat} {k : Burst U V} :
      Outputs poll v k → Outputs poll v (.dropHandle h k)
  | cloneRuntime {k : Burst U V} : Outputs poll v k → Outputs poll v (.cloneRuntime k)
  | dropRuntime {k : Burst U V} : Outputs poll v k → Outputs poll v (.dropRuntime k)
  | outside {k : Nat → Burst U V} (x : Nat) :
      Outputs poll v (k x) → Outputs poll v (.outside k)

/-- `b` can end in `x`, with the right answers to its effects and no nested call. -/
inductive Leaf {U V : Type} : Burst U V → Burst U V → Prop
  | pending (u : U) : Leaf (.pending u) (.pending u)
  | ready (v : V) : Leaf (.ready v) (.ready v)
  | spawn (u : U) {k : Nat → Burst U V} {x : Burst U V} (c : Nat) :
      Leaf (k c) x → Leaf (.spawn u k) x
  | pollHandle (c : Nat) {k : Option V → Burst U V} {x : Burst U V} (r : Option V) :
      Leaf (k r) x → Leaf (.pollHandle c k) x
  | dropHandle (c : Nat) {k x : Burst U V} : Leaf k x → Leaf (.dropHandle c k) x
  | cloneRuntime {k x : Burst U V} : Leaf k x → Leaf (.cloneRuntime k) x
  | dropRuntime {k x : Burst U V} : Leaf k x → Leaf (.dropRuntime k) x
  | outside {k : Nat → Burst U V} {x : Burst U V} (y : Nat) : Leaf (k y) x → Leaf (.outside k) x

/-- What a burst can end in, it can output. -/
theorem Leaf.outputs {U V : Type} {poll : U → Burst U V} {b x : Burst U V} {v : V} (h : Leaf b x)
    (hx : Outputs poll v x) : Outputs poll v b := by
  induction h with
  | pending u | ready w => exact hx
  | spawn u c _ ih => exact .spawn c (ih hx)
  | pollHandle c r _ ih => exact .pollHandle r (ih hx)
  | dropHandle c _ ih => exact .dropHandle (ih hx)
  | cloneRuntime _ ih => exact .cloneRuntime (ih hx)
  | dropRuntime _ ih => exact .dropRuntime (ih hx)
  | outside y _ ih => exact .outside y (ih hx)

/-! ## What can be seen of an executor -/

/-- What code got from outside, which task was polled, which output a poll ended with. -/
inductive Seen (V : Type) where
  | answered (x : Nat)
  | polled (ch : Nat)
  | finished (ch : Nat) (v : V)

end Luminal
