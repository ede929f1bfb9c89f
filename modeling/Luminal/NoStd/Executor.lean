import Luminal.Lib.Transition
import Luminal.Task
import Mathlib.Logic.Function.Basic

/-!
# The no_std executor

`SimpleExecutor` has one task queue and no threads of its own: tasks are polled inside
`block_on`, on the stack of the thread that called it.  The state is what the executor
shares and the stack of that thread, the running frame first; a task polled by
`block_on` may call `block_on` itself.  `Step` is one action of the thread.  The label of a
step is the environment's answer to it (`Answer`), which only the code of tasks can see.

The queue is a `heapless::Deque` of capacity 1024.  The capacity is a parameter, none for an
unbounded queue, and `SimpleExecutor.capacity` is the one of the source.  A panic is not
caught anywhere and the state has no step.
-/

namespace Luminal.NoStd

open Function

variable {U V : Type}

/-- What happened so far. -/
inductive Event (U V : Type) where
  /-- `spawn` pushed the task of spawn `ch` -/
  | spawned (ch : Nat) (future : U)
  /-- `spawn` found the queue full; the task was dropped while the queue was locked -/
  | refused (ch : Nat) (future : U)
  | polled (ch : Nat)
  /-- a poll returned `Pending` and the task was pushed back -/
  | requeued (ch : Nat)
  /-- a poll returned `Pending` and the queue was full; the task was dropped while the queue
  was locked -/
  | lost (ch : Nat)
  /-- the user future returned `Ready(v)`, `v` went to the result queue and the poll returned
  `Ready(())` -/
  | ready (ch : Nat) (v : V)
  /-- the handle of `ch` was polled and yielded `v`, or its `block_on` returned `v` -/
  | recv (ch : Nat) (v : V)

/-- Who holds the `JoinHandle` of a spawn. -/
inductive Holder where
  | handle
  | blockOn
  | dropped
  deriving DecidableEq

/-- `MpMcQueue<F::Output, 16>`, with the owner of its `JoinHandle`. -/
structure ResultQueue (V : Type) where
  items : List V
  holder : Holder

namespace ResultQueue

def enqueue (v : V) (q : ResultQueue V) : ResultQueue V :=
  if q.items.length < 16 then { q with items := q.items ++ [v] } else q

def dropHandle (q : ResultQueue V) : ResultQueue V := { q with holder := .dropped }

end ResultQueue

structure Shared (U V : Type) where
  globalQueue : List (Task U)
  nextTaskId : UInt64
  tasksProcessed : USize
  /-- how many calls of `spawn` were made -/
  spawned : Nat
  results : Nat → ResultQueue V
  log : List (Event U V)

/-- `Deque<Task, 1024>`. -/
def SimpleExecutor.capacity : Option Nat := some 1024

/-- `SimpleExecutor::new`. -/
def SimpleExecutor.new (U V : Type) : Shared U V where
  globalQueue := []
  nextTaskId := 1
  tasksProcessed := 0
  spawned := 0
  results := fun _ => ⟨[], .dropped⟩
  log := []

/-- `push_back` finds room. -/
def Room (cap : Option Nat) (q : List (Task U)) : Prop := ∀ c ∈ cap, q.length < c

instance (cap : Option Nat) (q : List (Task U)) : Decidable (Room cap q) :=
  inferInstanceAs (Decidable (∀ c ∈ cap, _))

@[simp] theorem room_none (q : List (Task U)) : Room none q := nofun

@[simp] theorem room_some (c : Nat) (q : List (Task U)) : Room (some c) q ↔ q.length < c := by
  simp [Room]

/-- `let _ = queue.push_back(task)`. -/
def pushBack (cap : Option Nat) (q : List (Task U)) (task : Task U) : List (Task U) :=
  if Room cap q then q ++ [task] else q

theorem pushBack_of_room {cap : Option Nat} {q : List (Task U)} (h : Room cap q) (task : Task U) :
    pushBack cap q task = q ++ [task] := if_pos h

theorem pushBack_of_full {cap : Option Nat} {q : List (Task U)} (h : ¬ Room cap q)
    (task : Task U) : pushBack cap q task = q := if_neg h

namespace Shared

/-- `SimpleExecutor::spawn`. -/
def spawn (cap : Option Nat) (sh : Shared U V) (future : U) (holder : Holder) : Shared U V :=
  { sh with
    globalQueue := pushBack cap sh.globalQueue ⟨sh.nextTaskId, .wrapped sh.spawned future⟩
    nextTaskId := sh.nextTaskId + 1
    spawned := sh.spawned + 1
    results := update sh.results sh.spawned ⟨[], holder⟩
    log := sh.log ++ [if Room cap sh.globalQueue then .spawned sh.spawned future
      else .refused sh.spawned future] }

theorem spawn_queue {cap : Option Nat} {sh : Shared U V} (h : Room cap sh.globalQueue) (future : U)
    (holder : Holder) : (sh.spawn cap future holder).globalQueue =
      sh.globalQueue ++ [⟨sh.nextTaskId, .wrapped sh.spawned future⟩] := pushBack_of_room h _

/-- The arm for `Poll::Pending`. -/
def requeue (cap : Option Nat) (sh : Shared U V) (id : TaskId) (ch : Nat) (future : U) :
    Shared U V :=
  { sh with
    globalQueue := pushBack cap sh.globalQueue ⟨id, .wrapped ch future⟩
    log := sh.log ++ [if Room cap sh.globalQueue then .requeued ch else .lost ch] }

/-- The wrapped future ends with the result `v`, and the arm for `Poll::Ready(())`. -/
def finish (sh : Shared U V) (ch : Nat) (v : V) : Shared U V :=
  { sh with
    results := update sh.results ch ((sh.results ch).enqueue v)
    tasksProcessed := sh.tasksProcessed + 1
    log := sh.log ++ [.ready ch v] }

/-- `JoinHandle::poll`: `none` is `Poll::Pending`. -/
def pollHandle (sh : Shared U V) (h : Nat) : Option V × Shared U V :=
  match (sh.results h).items with
  | v :: q =>
    (some v, { sh with
      results := update sh.results h { sh.results h with items := q }
      log := sh.log ++ [.recv h v] })
  | [] => (none, sh)

def dropHandle (sh : Shared U V) (h : Nat) : Shared U V :=
  { sh with results := update sh.results h (sh.results h).dropHandle }

/-- A handle is polled and then dropped. -/
def take (sh : Shared U V) (h : Nat) : Shared U V := (sh.pollHandle h).2.dropHandle h

section Handles

variable (sh : Shared U V) (h d : Nat)

@[simp] theorem pollHandle_queue : (sh.pollHandle h).2.globalQueue = sh.globalQueue := by
  unfold pollHandle
  split <;> rfl

@[simp] theorem pollHandle_spawned : (sh.pollHandle h).2.spawned = sh.spawned := by
  unfold pollHandle
  split <;> rfl

theorem take_holder : ((sh.take h).results h).holder = .dropped := by
  simp only [take, dropHandle]
  rw [update_self, ResultQueue.dropHandle]

/-- The result of a task that finishes is there, and nothing else changes. -/
theorem finish_items (v : V) :
    ((sh.finish h v).results d).items ≠ [] ↔ (sh.results d).items ≠ [] ∨ d = h := by
  simp only [finish, ResultQueue.enqueue]
  rcases eq_or_ne d h with rfl | hd
  · rw [update_self]
    split
    · simp
    · next hlen =>
      refine iff_of_true (fun hnil => hlen ?_) (Or.inr rfl)
      rw [hnil]
      exact Nat.succ_pos 15
  · rw [update_of_ne hd]
    exact (or_iff_left hd).symm

theorem finish_holder (v : V) : ((sh.finish h v).results d).holder = (sh.results d).holder := by
  simp only [finish, ResultQueue.enqueue]
  rcases eq_or_ne d h with rfl | hd
  · rw [update_self]
    split <;> rfl
  · rw [update_of_ne hd]

theorem dropHandle_items : ((sh.dropHandle h).results d).items = (sh.results d).items := by
  simp only [dropHandle]
  rcases eq_or_ne d h with rfl | hd
  · rw [update_self, ResultQueue.dropHandle]
  · rw [update_of_ne hd]

variable {sh h d}

theorem spawned_mem_pollHandle {ch : Nat} {u : U} (hu : .spawned ch u ∈ (sh.pollHandle h).2.log) :
    .spawned ch u ∈ sh.log := by
  unfold pollHandle at hu
  split at hu
  · simpa using hu
  · exact hu

theorem pollHandle_of_ne (hd : d ≠ h) : (sh.pollHandle h).2.results d = sh.results d := by
  unfold pollHandle
  split
  · exact update_of_ne hd _ _
  · rfl

theorem take_of_ne (hd : d ≠ h) : (sh.take h).results d = sh.results d :=
  (update_of_ne hd _ _).trans (pollHandle_of_ne hd)

theorem pollHandle_nil (hv : (sh.results h).items = []) : sh.pollHandle h = (none, sh) := by
  unfold pollHandle
  rw [hv]

theorem pollHandle_cons {v : V} {q : List V} (hv : (sh.results h).items = v :: q) :
    sh.pollHandle h = (some v, { sh with
      results := update sh.results h { sh.results h with items := q }
      log := sh.log ++ [.recv h v] }) := by
  unfold pollHandle
  rw [hv]

end Handles

end Shared

inductive BlockOnPc where
  /-- `for _ in 0..10`, before round `i` -/
  | poll (i : Nat)
  /-- `handle.receiver.dequeue()` -/
  | check
  deriving DecidableEq

inductive Frame (U V : Type) where
  /-- user code: in a poll of `task`, or on the thread itself -/
  | user (task : Option (Task U)) (code : UserCode U V)
  | blockOn (ch : Nat) (pc : BlockOnPc)

structure State (U V : Type) where
  shared : Shared U V
  stack : List (Frame U V)

/-- What the environment contributes to a step: the code an idle thread runs next, or what the
rest of the world answers to `outside`. -/
inductive Answer (U V : Type) where
  | code (b : Burst U V)
  | value (x : Nat)

/-- One action of the thread. -/
inductive Step (cap : Option Nat) (poll : U → Burst U V) :
    State U V → Answer U V → State U V → Prop
  -- the thread goes on with its own code
  | enter (sh b fs) :
      Step cap poll ⟨sh, .user none .idle :: fs⟩ (.code b) ⟨sh, .user none (.run b) :: fs⟩
  | leavePending (sh u fs a) :
      Step cap poll ⟨sh, .user none (.run (.pending u)) :: fs⟩ a ⟨sh, .user none .idle :: fs⟩
  | leaveReady (sh v fs a) :
      Step cap poll ⟨sh, .user none (.run (.ready v)) :: fs⟩ a ⟨sh, .user none .idle :: fs⟩
  -- user code
  | outside (sh task k fs x) :
      Step cap poll ⟨sh, .user task (.run (.outside k)) :: fs⟩ (.value x)
        ⟨sh, .user task (.run (k x)) :: fs⟩
  | spawn (sh task u k fs a) :
      Step cap poll ⟨sh, .user task (.run (.spawn u k)) :: fs⟩ a
        ⟨sh.spawn cap u .handle, .user task (.run (k sh.spawned)) :: fs⟩
  | blockOn (sh task u k fs a) :
      Step cap poll ⟨sh, .user task (.run (.blockOn u k)) :: fs⟩ a
        ⟨sh.spawn cap u .blockOn, .blockOn sh.spawned (.poll 0) :: .user task (.wait k) :: fs⟩
  | pollHandle (sh task h k fs a) : (sh.results h).holder = .handle →
      Step cap poll ⟨sh, .user task (.run (.pollHandle h k)) :: fs⟩ a
        ⟨(sh.pollHandle h).2, .user task (.run (k (sh.pollHandle h).1)) :: fs⟩
  | dropHandle (sh task h k fs a) : (sh.results h).holder = .handle →
      Step cap poll ⟨sh, .user task (.run (.dropHandle h k)) :: fs⟩ a
        ⟨sh.dropHandle h, .user task (.run k) :: fs⟩
  | cloneRuntime (sh task k fs a) :
      Step cap poll ⟨sh, .user task (.run (.cloneRuntime k)) :: fs⟩ a
        ⟨sh, .user task (.run k) :: fs⟩
  | dropRuntime (sh task k fs a) :
      Step cap poll ⟨sh, .user task (.run (.dropRuntime k)) :: fs⟩ a
        ⟨sh, .user task (.run k) :: fs⟩
  -- `SimpleExecutor::block_on`: a round takes a task and polls it, or breaks
  | pop (sh id ch u q c i fs a) : i < 10 → sh.globalQueue = ⟨id, .wrapped ch u⟩ :: q →
      Step cap poll ⟨sh, .blockOn c (.poll i) :: fs⟩ a
        ⟨{ sh with globalQueue := q, log := sh.log ++ [.polled ch] },
          .user (some ⟨id, .wrapped ch u⟩) (.run (poll u)) :: .blockOn c (.poll (i + 1)) :: fs⟩
  | popCompleted (sh id q c i fs a) : i < 10 → sh.globalQueue = ⟨id, .completed⟩ :: q →
      Step cap poll ⟨sh, .blockOn c (.poll i) :: fs⟩ a
        ⟨{ sh with globalQueue := q, tasksProcessed := sh.tasksProcessed + 1 },
          .blockOn c (.poll (i + 1)) :: fs⟩
  | endBatch (sh c i fs a) : (i < 10 → sh.globalQueue = []) →
      Step cap poll ⟨sh, .blockOn c (.poll i) :: fs⟩ a ⟨sh, .blockOn c .check :: fs⟩
  | pending (sh id ch u₀ u c pc fs a) :
      Step cap poll
        ⟨sh, .user (some ⟨id, .wrapped ch u₀⟩) (.run (.pending u)) :: .blockOn c pc :: fs⟩ a
        ⟨sh.requeue cap id ch u, .blockOn c pc :: fs⟩
  | ready (sh id ch u v c pc fs a) :
      Step cap poll
        ⟨sh, .user (some ⟨id, .wrapped ch u⟩) (.run (.ready v)) :: .blockOn c pc :: fs⟩ a
        ⟨sh.finish ch v, .blockOn c pc :: fs⟩
  -- the result is there, and `block_on` returns it to its caller
  | return (sh c v q task k fs a) : (sh.results c).items = v :: q →
      Step cap poll ⟨sh, .blockOn c .check :: .user task (.wait k) :: fs⟩ a
        ⟨(sh.pollHandle c).2.dropHandle c, .user task (.run (k (some v))) :: fs⟩
  | retry (sh c fs a) : (sh.results c).items = [] →
      Step cap poll ⟨sh, .blockOn c .check :: fs⟩ a ⟨sh, .blockOn c (.poll 0) :: fs⟩

/-- A fresh executor and a thread with nothing to do. -/
def State.init (U V : Type) : State U V := ⟨SimpleExecutor.new U V, [.user none .idle]⟩

/-- The states that runs from a fresh executor reach. -/
def Reachable (cap : Option Nat) (poll : U → Burst U V) (s : State U V) : Prop :=
  ∃ as, Transition.Run (Step cap poll) Transition.always (State.init U V) as s

end Luminal.NoStd
