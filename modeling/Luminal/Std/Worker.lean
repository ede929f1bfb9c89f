import Luminal.Lib.Tally
import Luminal.Std.Channel
import Mathlib.Data.List.FinRange

/-!
# The std executor's shared state and its worker loop

`Shared` is what the threads of one executor share: the global queue, the workers'
local deques, the counters, the result channels.  `log` records what happened; no
step reads it.  `WorkerThread.step` is one atomic action of `WorkerThread::run`
(with `steal_work` inlined), `Executor.help` one of the helping loop in
`Executor::block_on`.  A steal is atomic; whether it hits contention (`Retry`) and how
many tasks a batch moves is the environment's choice (`StealChoice`).
-/

namespace Luminal.Std

open Function

variable {n : Nat} {U V : Type}

/-- What happened so far. -/
inductive Event (U V : Type) where
  /-- `Executor::spawn` or `Executor::block_on` was called with `future` -/
  | created (ch : Nat) (future : U)
  /-- `Executor::spawn` pushed the task of spawn `ch` -/
  | spawned (ch : Nat) (future : U)
  | polled (ch : Nat)
  /-- a poll returned `Pending` and the task was pushed to the global queue -/
  | requeued (ch : Nat)
  /-- the user future returned `Ready(v)` and `v` was sent -/
  | sent (ch : Nat) (v : V)
  /-- the poll returned `Ready(())` -/
  | ready (ch : Nat)
  /-- the receiver of `ch` got `v`: its handle's poll was `Ready(v)`, or its `block_on`
  returned `v` -/
  | recv (ch : Nat) (v : V)
  | panicked (ch : Nat)
  /-- the future was dropped unfinished -/
  | destroyed (ch : Nat)
  deriving DecidableEq

structure Shared (n : Nat) (U V : Type) where
  globalQueue : List (Task U)
  /-- the deques behind the `Worker`/`Stealer` ends, front first (`new_fifo`) -/
  locals : Fin n → List (Task U)
  /-- the `WorkerThread` of this worker has not been dropped -/
  live : Fin n → Bool
  shutdown : Bool
  /-- a worker panicked in `ExecutorInner::drop`; only the workers keep the global queue -/
  abandoned : Bool
  nextTaskId : UInt64
  /-- the static `NEXT_ID` of `TaskId::new` -/
  newTaskId : UInt64
  tasksProcessed : UInt64
  /-- how many `Runtime`s and `Handle`s (clones of `Arc<Executor>`) exist -/
  owners : Nat
  /-- how many calls of `Executor::spawn` were made -/
  spawned : Nat
  chan : Nat → Channel V
  log : List (Event U V)

/-- `ExecutorInner::new`, the state before any worker has run. -/
def ExecutorInner.new (n : Nat) (U V : Type) : Shared n U V where
  globalQueue := []
  locals := fun _ => []
  live := fun _ => true
  shutdown := false
  abandoned := false
  nextTaskId := 1
  newTaskId := 1
  tasksProcessed := 0
  owners := 1
  spawned := 0
  chan := fun _ => .unbounded
  log := []

/-! ## The stealers each worker is given -/

/-- The construction loop of `ExecutorInner::new`: push the new worker's stealer, then hand
the worker a clone of the vector built so far. -/
def ExecutorInner.newStealers (n : Nat) : List (List (Fin n)) :=
  ((List.finRange n).foldl (fun acc i => (acc.1 ++ [i], acc.2 ++ [acc.1 ++ [i]])) ([], [])).2

/-- `WorkerThread::stealers` of worker `i`. -/
def stealers (i : Fin n) : List (Fin n) := (ExecutorInner.newStealers n)[i.val]?.getD []

theorem newStealers_fold {α : Type} (l p : List α) (o : List (List α)) :
    (l.foldl (fun acc i => (acc.1 ++ [i], acc.2 ++ [acc.1 ++ [i]])) (p, o)).2 =
      o ++ (List.range l.length).map fun k => p ++ l.take (k + 1) := by
  induction l generalizing p o with
  | nil => simp
  | cons a l ih =>
    rw [List.foldl_cons, ih, List.length_cons, List.range_succ_eq_map]
    simp [Function.comp_def]

theorem stealers_eq (i : Fin n) : stealers i = (List.finRange n).take (i.val + 1) := by
  unfold stealers ExecutorInner.newStealers
  rw [newStealers_fold]
  simp

@[simp] theorem stealers_length (i : Fin n) : (stealers i).length = i.val + 1 := by
  rw [stealers_eq, List.length_take, List.length_finRange]
  omega

/-- **A worker holds its own stealer and those of the workers built before it.** -/
theorem mem_stealers (i j : Fin n) : j ∈ stealers i ↔ j ≤ i := by
  rw [stealers_eq, List.mem_take_iff_getElem]
  simp only [List.getElem_finRange, List.length_finRange]
  constructor
  · rintro ⟨k, hk, rfl⟩
    simp only [Fin.le_def, Fin.val_cast]
    omega
  · intro h
    have := Fin.le_def.1 h
    exact ⟨j.val, by omega, by ext; simp⟩

/-! ## Tasks being destroyed -/

namespace Shared

/-- Drop unfinished tasks: their futures go, and with them the senders of their channels. -/
def destroy (tasks : List (Task U)) (sh : Shared n U V) : Shared n U V :=
  { sh with
    chan := fun ch => if 0 < occ ch tasks then (sh.chan ch).dropSender else sh.chan ch
    log := sh.log ++ (tasks.filterMap Task.ch?).map .destroyed }

/-- With the workers `live`, no `Worker` and no `Stealer` of deque `d` is left. -/
def Orphaned (live : Fin n → Bool) (d : Fin n) : Prop :=
  live d = false ∧ ∀ j, live j = true → d ∉ stealers j

instance (live : Fin n → Bool) (d : Fin n) : Decidable (Orphaned live d) :=
  inferInstanceAs (Decidable (_ ∧ _))

/-- `ExecutorInner` has given up the global queue, and none of the workers `live` holds it. -/
def Unheld (sh : Shared n U V) (live : Fin n → Bool) : Prop :=
  sh.abandoned = true ∧ ∀ j, live j = false

instance (sh : Shared n U V) (live : Fin n → Bool) : Decidable (sh.Unheld live) :=
  inferInstanceAs (Decidable (_ ∧ _))

/-- The tasks that go with the `WorkerThread` of worker `i`: those of the deques that nobody else
holds, and of the global queue if nobody else holds it. -/
def doomed (sh : Shared n U V) (i : Fin n) : List (Task U) :=
  let live := update sh.live i false
  ((List.finRange n).flatMap fun d => if Orphaned live d then sh.locals d else []) ++
    if sh.Unheld live then sh.globalQueue else []

/-- The `WorkerThread` of worker `i` is dropped, with its end of the deque and its stealers;
queues that nobody holds any more are destroyed with their tasks. -/
def dropWorker (sh : Shared n U V) (i : Fin n) : Shared n U V :=
  let live := update sh.live i false
  destroy (sh.doomed i)
    { sh with
      live := live
      globalQueue := if sh.Unheld live then [] else sh.globalQueue
      locals := fun d => if Orphaned live d then [] else sh.locals d }

end Shared

/-! ## `WorkerThread::run` and `steal_work` -/

/-- The environment's answer to a steal: contention, or success moving `k` tasks to the
thief's deque besides the one returned. -/
inductive StealChoice where
  | retry
  | batch (k : Nat)

inductive RunPc where
  | top
  /-- `while let Some(mut task) = self.worker.pop()` -/
  | drain
  /-- `self.global_queue.steal_batch_and_pop(&self.worker)` -/
  | steal
  /-- `self.global_queue.steal()` after `Retry` -/
  | stealRetry
  /-- round `k` of the loop over the stealers -/
  | peer (k : Nat)
  | peerRetry (k : Nat)
  | backoff
  deriving DecidableEq

structure RunLoop where
  pc : RunPc
  foundWork : Bool
  idleCount : UInt32
  deriving DecidableEq

def RunLoop.start : RunLoop := ⟨.top, false, 0⟩

/-- The position looked at in round `k`: `(start_idx + i) % self.stealers.len()`. -/
def WorkerThread.peerIdx (i : Fin n) (k : Nat) : Nat :=
  (i.val % (stealers i).length + k) % (stealers i).length

/-- The deque tried in round `k`; none when the round is skipped (`idx == self.id`). -/
def WorkerThread.peer (i : Fin n) (k : Nat) : Option (Fin n) :=
  if WorkerThread.peerIdx i k = i.val then none else (stealers i)[WorkerThread.peerIdx i k]?

/-- One atomic action of worker `i` in its own loop; a task it returns is polled next. -/
def WorkerThread.step (i : Fin n) (sh : Shared n U V) (l : RunLoop) (c : StealChoice) :
    Shared n U V × RunLoop × Option (Task U) :=
  match l.pc with
  | .top => (sh, { l with pc := .drain, foundWork := false }, none)
  | .drain =>
    match sh.locals i with
    | task :: q =>
      ({ sh with locals := update sh.locals i q }, { l with foundWork := true, idleCount := 0 },
        some task)
    | [] => (sh, { l with pc := if l.foundWork then .backoff else .steal }, none)
  | .steal =>
    match c, sh.globalQueue with
    | .retry, _ => (sh, { l with pc := .stealRetry }, none)
    | .batch k, task :: q =>
      ({ sh with
          globalQueue := q.drop k
          locals := update sh.locals i (sh.locals i ++ q.take k) },
        { l with pc := .backoff, foundWork := true }, some task)
    | .batch _, [] => (sh, { l with pc := .peer 0 }, none)
  | .stealRetry =>
    match c, sh.globalQueue with
    | .batch _, task :: q =>
      ({ sh with globalQueue := q }, { l with pc := .backoff, foundWork := true }, some task)
    | _, _ => (sh, { l with pc := .peer 0 }, none)
  | .peer k =>
    if k < (stealers i).length then
      match WorkerThread.peer i k, c with
      | none, _ => (sh, { l with pc := .peer (k + 1) }, none)
      | some _, .retry => (sh, { l with pc := .peerRetry k }, none)
      | some d, .batch b =>
        match sh.locals d with
        | task :: q =>
          ({ sh with locals := update (update sh.locals d (q.drop b)) i (sh.locals i ++ q.take b) },
            { l with pc := .backoff, foundWork := true }, some task)
        | [] => (sh, { l with pc := .peer (k + 1) }, none)
    else (sh, { l with pc := .backoff }, none)
  | .peerRetry k =>
    match WorkerThread.peer i k, c with
    | some d, .batch _ =>
      match sh.locals d with
      | task :: q =>
        ({ sh with locals := update sh.locals d q }, { l with pc := .backoff, foundWork := true },
          some task)
      | [] => (sh, { l with pc := .peer (k + 1) }, none)
    | _, _ => (sh, { l with pc := .peer (k + 1) }, none)
  | .backoff =>
    (sh, { l with pc := .top, idleCount := if l.foundWork then l.idleCount else l.idleCount + 1 },
      none)

end Luminal.Std
