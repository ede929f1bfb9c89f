import Luminal.Lib.Transition
import Luminal.Std.Worker

/-!
# The std executor as a transition system

A thread is a stack of frames, the running one first.  A worker's bottom frame is
`run` (`WorkerThread::run`), any other thread's is its own code (`user none`).  User
code calls `Executor::spawn` (`spawn`) and `Executor::block_on` (`spawn`, then
`blockOn`), both of which poll tasks on top of the caller's stack.  `ThreadStep` is one
atomic action of a thread on its stack and the shared state; `Step` interleaves the
threads.  There are `n` workers and any number `m` of other threads.

A panic unwinds frame by frame (`result none`): it destroys the polled task, then
either the `block_on` call below it or, at the bottom, the worker thread.  What a future
drops while it unwinds is part of its code, before `panic`; what the futures own that go
with a worker is given back as it ends.  The last `Runtime` to go runs
`ExecutorInner::drop` on its thread (`dropInner`).  On a worker it joins its own thread, and
`JoinHandle::join` panics, as it does where `pthread_join` reports the deadlock.  Here no
future keeps a clone of its waker; `Std.Wakers` adds the clones.
-/

namespace Luminal.Std

open Function

variable {n m : Nat} {U V : Type}

/-! ## `Executor::block_on` -/

inductive BlockOnPc where
  /-- `handle.receiver.try_recv()` -/
  | tryRecv
  /-- `for _ in 0..4`, before round `i` -/
  | help (i : Nat)
  | backoff
  deriving DecidableEq

structure BlockOnLoop where
  pc : BlockOnPc
  helped : Bool
  backoffCount : UInt32
  deriving DecidableEq

def BlockOnLoop.start : BlockOnLoop := ⟨.tryRecv, false, 0⟩

/-- The back-off at the end of an iteration: reset after helping, and at 1000. -/
def BlockOnLoop.backoff (l : BlockOnLoop) : BlockOnLoop :=
  { l with
    pc := .tryRecv
    backoffCount :=
      if l.helped then 0 else if 1000 < l.backoffCount + 1 then 0 else l.backoffCount + 1 }

/-- One atomic action of the helping loop; a task it returns is polled next. -/
def Executor.help (sh : Shared n U V) (l : BlockOnLoop) (c : StealChoice) :
    Shared n U V × BlockOnLoop × Option (Task U) :=
  match l.pc with
  | .tryRecv => (sh, { l with pc := .help 0, helped := false }, none)
  | .help i =>
    if i < 4 then
      match c, sh.globalQueue with
      | .retry, _ => (sh, { l with pc := .help (i + 1) }, none)
      | .batch _, task :: q =>
        ({ sh with globalQueue := q }, { l with pc := .help (i + 1), helped := true }, some task)
      | .batch _, [] => (sh, { l with pc := .backoff }, none)
    else (sh, { l with pc := .backoff }, none)
  | .backoff => (sh, l.backoff, none)

/-! ## Frames -/

inductive Frame (U V : Type) where
  /-- user code: in a poll of `task`, or on a thread of its own -/
  | user (task : Option (Task U)) (code : UserCode U V)
  /-- the wrapped future has sent its result; it ends by dropping its sender -/
  | sent (task : Task U)
  /-- the poll returned `Ready(())` -/
  | finished
  /-- the poll returned `Pending`; `left` is what `mem::take` put in the caller's variable -/
  | requeue (left : Option (Task U)) (owned : Task U)
  /-- `Executor::spawn` before the push; `blocking` when called by `block_on` -/
  | spawn (task : Task U) (ch : Nat) (blocking : Bool)
  | run (loop : RunLoop)
  | blockOn (ch : Nat) (loop : BlockOnLoop)
  /-- `block_on` returns (`some`), or the thread is unwinding (`none`) -/
  | result (r : Option V)
  /-- `ExecutorInner::drop`: the flag not yet set, or the number of workers joined -/
  | dropInner (joined : Option Nat)

namespace Shared

/-- `Executor::spawn` up to the push: the channel, the id and the wrapped future. -/
def newTask (sh : Shared n U V) (future : U) : Shared n U V × Task U :=
  ({ sh with
      nextTaskId := sh.nextTaskId + 1
      spawned := sh.spawned + 1
      chan := update sh.chan sh.spawned .unbounded
      log := sh.log ++ [.created sh.spawned future] },
    ⟨sh.nextTaskId, .wrapped sh.spawned future⟩)

/-- `self.global_queue.push(task)` in `spawn_internal`; the receiver goes to a `JoinHandle`, or
stays with `block_on`. -/
def pushSpawned (sh : Shared n U V) (task : Task U) (ch : Nat) (blocking : Bool) :
    Shared n U V :=
  { sh with
    globalQueue := sh.globalQueue ++ [task]
    chan := update sh.chan ch
      { sh.chan ch with receiver := if blocking then .blockOn else .handle }
    log := sh.log ++ (match task.future with
      | .wrapped c u => [.spawned c u]
      | .completed => []) }

/-- `Task::poll` starts; a completed future is ready at once. -/
def beginPoll (poll : U → Burst U V) (sh : Shared n U V) (task : Task U) :
    Shared n U V × Frame U V :=
  match task.future with
  | .wrapped ch u => ({ sh with log := sh.log ++ [.polled ch] }, .user (some task) (.run (poll u)))
  | .completed => (sh, .finished)

/-- `self.global_queue.push(owned_task)` after a pending poll. -/
def pushPending (sh : Shared n U V) (task : Task U) : Shared n U V :=
  { sh with
    globalQueue := sh.globalQueue ++ [task]
    log := sh.log ++ task.ch?.toList.map .requeued }

def pollHandle (sh : Shared n U V) (h : Nat) : Option V × Shared n U V :=
  match JoinHandle.poll (sh.chan h) with
  | (some v, c) => (some v, { sh with chan := update sh.chan h c, log := sh.log ++ [.recv h v] })
  | (none, _) => (none, sh)

def dropReceiver (sh : Shared n U V) (ch : Nat) : Shared n U V :=
  { sh with chan := update sh.chan ch (sh.chan ch).dropReceiver }

end Shared

abbrev ThreadId (n m : Nat) := Fin n ⊕ Fin m

/-- What is left of code on thread `t` after it drops the last `Runtime`: on a worker the drop
panics. -/
def afterDrop (t : ThreadId n m) (k : Burst U V) : Burst U V :=
  match t with
  | .inl _ => .panic
  | .inr _ => k

/-- One atomic action of thread `t`, from a shared state and its stack. -/
inductive ThreadStep (poll : U → Burst U V) (sh : Shared n U V) (t : ThreadId n m) :
    List (Frame U V) → Shared n U V → List (Frame U V) → Prop
  -- a thread outside the executor goes on with its own code
  | enter (b : Burst U V) (fs) :
      ThreadStep poll sh t (.user none .idle :: fs) sh (.user none (.run b) :: fs)
  | leavePending (u : U) (fs) :
      ThreadStep poll sh t (.user none (.run (.pending u)) :: fs) sh (.user none .idle :: fs)
  | leaveReady (v : V) (fs) :
      ThreadStep poll sh t (.user none (.run (.ready v)) :: fs) sh (.user none .idle :: fs)
  | leavePanic (fs) :
      ThreadStep poll sh t (.user none (.run .panic) :: fs) sh (.user none .idle :: fs)
  -- user code
  | outside (task k fs) (x : Nat) :
      ThreadStep poll sh t (.user task (.run (.outside k)) :: fs) sh (.user task (.run (k x)) :: fs)
  | callSpawn (task u k fs) : 0 < sh.owners →
      ThreadStep poll sh t (.user task (.run (.spawn u k)) :: fs) (sh.newTask u).1
        (.spawn (sh.newTask u).2 sh.spawned false :: .user task (.run (k sh.spawned)) :: fs)
  | callBlockOn (task u k fs) : 0 < sh.owners →
      ThreadStep poll sh t (.user task (.run (.blockOn u k)) :: fs) (sh.newTask u).1
        (.spawn (sh.newTask u).2 sh.spawned true :: .user task (.wait k) :: fs)
  | pollHandle (task h k fs) : (sh.chan h).receiver = .handle →
      ThreadStep poll sh t (.user task (.run (.pollHandle h k)) :: fs) (sh.pollHandle h).2
        (.user task (.run (k (sh.pollHandle h).1)) :: fs)
  | dropHandle (task h k fs) : (sh.chan h).receiver = .handle →
      ThreadStep poll sh t (.user task (.run (.dropHandle h k)) :: fs) (sh.dropReceiver h)
        (.user task (.run k) :: fs)
  | cloneRuntime (task k fs) : 0 < sh.owners →
      ThreadStep poll sh t (.user task (.run (.cloneRuntime k)) :: fs)
        { sh with owners := sh.owners + 1 } (.user task (.run k) :: fs)
  | dropRuntime (task k fs) : 1 < sh.owners →
      ThreadStep poll sh t (.user task (.run (.dropRuntime k)) :: fs)
        { sh with owners := sh.owners - 1 } (.user task (.run k) :: fs)
  | dropLastRuntime (task k fs) : sh.owners = 1 →
      ThreadStep poll sh t (.user task (.run (.dropRuntime k)) :: fs)
        { sh with owners := 0 } (.dropInner none :: .user task (.run (afterDrop t k)) :: fs)
  -- a poll ends: `run_task` takes the task out of the caller's variable, `block_on` moves it
  | pendingRun (id ch u₀ u l fs) :
      ThreadStep poll sh t (.user (some ⟨id, .wrapped ch u₀⟩) (.run (.pending u)) :: .run l :: fs)
        { sh with newTaskId := sh.newTaskId + 1 }
        (.requeue (some (Task.default sh.newTaskId)) ⟨id, .wrapped ch u⟩ :: .run l :: fs)
  | pendingHelp (id ch u₀ u c l fs) :
      ThreadStep poll sh t
        (.user (some ⟨id, .wrapped ch u₀⟩) (.run (.pending u)) :: .blockOn c l :: fs) sh
        (.requeue none ⟨id, .wrapped ch u⟩ :: .blockOn c l :: fs)
  | ready (id ch u v fs) :
      ThreadStep poll sh t (.user (some ⟨id, .wrapped ch u⟩) (.run (.ready v)) :: fs)
        { sh with chan := update sh.chan ch ((sh.chan ch).send v), log := sh.log ++ [.sent ch v] }
        (.sent ⟨id, .wrapped ch u⟩ :: fs)
  | panic (id ch u fs) :
      ThreadStep poll sh t (.user (some ⟨id, .wrapped ch u⟩) (.run .panic) :: fs)
        (Shared.destroy [⟨id, .wrapped ch u⟩] { sh with log := sh.log ++ [.panicked ch] })
        (.result none :: fs)
  | endWrapped (id ch u fs) :
      ThreadStep poll sh t (.sent ⟨id, .wrapped ch u⟩ :: fs)
        { sh with chan := update sh.chan ch (sh.chan ch).dropSender, log := sh.log ++ [.ready ch] }
        (.finished :: fs)
  | finishedRun (l fs) :
      ThreadStep poll sh t (.finished :: .run l :: fs)
        { sh with tasksProcessed := sh.tasksProcessed + 1 } (.run l :: fs)
  | finishedHelp (c l fs) :
      ThreadStep poll sh t (.finished :: .blockOn c l :: fs) sh (.blockOn c l :: fs)
  | requeue (left owned fs) :
      ThreadStep poll sh t (.requeue left owned :: fs) (sh.pushPending owned) fs
  -- `Executor::spawn` returns, `Executor::block_on` goes on to its loop
  | spawned (task ch fs) :
      ThreadStep poll sh t (.spawn task ch false :: fs) (sh.pushSpawned task ch false) fs
  | startBlockOn (task ch fs) :
      ThreadStep poll sh t (.spawn task ch true :: fs) (sh.pushSpawned task ch true)
        (.blockOn ch .start :: fs)
  -- `Executor::block_on`
  | recvOk (ch l v fs) : l.pc = .tryRecv → (sh.chan ch).tryRecv = .ok v →
      ThreadStep poll sh t (.blockOn ch l :: fs)
        { sh with
          chan := update sh.chan ch (sh.chan ch).dropReceiver
          log := sh.log ++ [.recv ch v] }
        (.result (some v) :: fs)
  | recvDisconnected (ch l fs) : l.pc = .tryRecv → (sh.chan ch).tryRecv = .disconnected →
      ThreadStep poll sh t (.blockOn ch l :: fs) (sh.dropReceiver ch) (.result none :: fs)
  | help (ch l c sh' l' fs) : (l.pc = .tryRecv → (sh.chan ch).tryRecv = .empty) →
      Executor.help sh l c = (sh', l', none) →
      ThreadStep poll sh t (.blockOn ch l :: fs) sh' (.blockOn ch l' :: fs)
  | helpTask (ch l c sh' l' task fs) : Executor.help sh l c = (sh', l', some task) →
      ThreadStep poll sh t (.blockOn ch l :: fs) (sh'.beginPoll poll task).1
        ((sh'.beginPoll poll task).2 :: .blockOn ch l' :: fs)
  -- a call of `block_on` hands its outcome to the caller; a panic unwinds further
  | resume (r task k fs) :
      ThreadStep poll sh t (.result r :: .user task (.wait k) :: fs) sh
        (.user task (.run (k r)) :: fs)
  | unwindBlockOn (ch l fs) :
      ThreadStep poll sh t (.result none :: .blockOn ch l :: fs) (sh.dropReceiver ch)
        (.result none :: fs)
  -- the worker thread ends; the futures that go with it give back `k` `Runtime`s
  | unwindRun (i l) (k : Nat) : t = .inl i → k = 0 ∨ sh.doomed i ≠ [] ∧ k < sh.owners →
      ThreadStep poll sh t [.result none, .run l]
        { sh.dropWorker i with owners := sh.owners - k } []
  -- they own the last one: the thread goes on in `ExecutorInner::drop`
  | unwindLast (i l) : t = .inl i → sh.doomed i ≠ [] → 0 < sh.owners →
      ThreadStep poll sh t [.result none, .run l]
        { sh.dropWorker i with live := sh.live, owners := 0 }
        [.dropInner none, .result none, .run l]
  -- `WorkerThread::run`
  | exit (i l) : t = .inl i → l.pc = .top → sh.shutdown = true →
      ThreadStep poll sh t [.run l] (sh.dropWorker i) []
  | run (i l c sh' l' fs) : t = .inl i → (l.pc = .top → sh.shutdown = false) →
      WorkerThread.step i sh l c = (sh', l', none) →
      ThreadStep poll sh t (.run l :: fs) sh' (.run l' :: fs)
  | runTask (i l c sh' l' task fs) : t = .inl i →
      WorkerThread.step i sh l c = (sh', l', some task) →
      ThreadStep poll sh t (.run l :: fs) (sh'.beginPoll poll task).1
        ((sh'.beginPoll poll task).2 :: .run l' :: fs)
  -- `ExecutorInner::drop`: set the flag, join the workers in order, drop the queue
  | dropSignal (fs) :
      ThreadStep poll sh t (.dropInner none :: fs) { sh with shutdown := true }
        (.dropInner (some 0) :: fs)
  | dropJoin (j fs) (hj : j < n) : sh.live ⟨j, hj⟩ = false →
      ThreadStep poll sh t (.dropInner (some j) :: fs) sh (.dropInner (some (j + 1)) :: fs)
  -- a worker's join of itself panics in its code; if it is unwinding already, the process aborts
  | dropSelf (i task b fs) : t = .inl i → sh.live i = true →
      ThreadStep poll sh t (.dropInner (some i.val) :: .user task (.run b) :: fs)
        { sh with abandoned := true } (.user task (.run b) :: fs)
  | dropQueue (fs) :
      ThreadStep poll sh t (.dropInner (some n) :: fs)
        (Shared.destroy sh.globalQueue { sh with globalQueue := [] }) fs

/-- The whole executor with its threads. -/
structure State (n m : Nat) (U V : Type) where
  shared : Shared n U V
  threads : ThreadId n m → List (Frame U V)

namespace State

/-- A fresh executor: every worker at the top of its loop, every other thread idle. -/
def init (n m : Nat) (U V : Type) : State n m U V where
  shared := ExecutorInner.new n U V
  threads := fun
    | .inl _ => [.run .start]
    | .inr _ => [.user none .idle]

/-- A call of `spawn` or `block_on` that borrows a `Runtime` is in progress. -/
def InCall (s : State n m U V) : Prop :=
  ∃ t f, f ∈ s.threads t ∧ ((∃ task ch b, f = .spawn task ch b) ∨ ∃ ch l, f = .blockOn ch l)

/-- The code on thread `t` is about to drop the last `Runtime`. -/
def DropsLast (s : State n m U V) (t : ThreadId n m) : Prop :=
  s.shared.owners = 1 ∧ ∃ task k fs, s.threads t = .user task (.run (.dropRuntime k)) :: fs

/-- Thread `t` is about to panic while polling a task. -/
def Panics (s : State n m U V) (t : ThreadId n m) : Prop :=
  ∃ task fs, s.threads t = .user (some task) (.run .panic) :: fs

/-- Thread `t` neither panics in a poll nor starts the shutdown. -/
def Calm (s : State n m U V) (t : ThreadId n m) : Prop := ¬ s.Panics t ∧ ¬ s.DropsLast t

end State

/-- Thread `t` moves.  A `Runtime` that a call in progress borrows cannot be dropped. -/
inductive Step (poll : U → Burst U V) (s : State n m U V) (t : ThreadId n m) :
    State n m U V → Prop
  | mk {sh' : Shared n U V} {fs' : List (Frame U V)} :
      ThreadStep poll s.shared t (s.threads t) sh' fs' →
      (0 < s.shared.owners → sh'.owners = 0 → ¬ s.InCall) →
      Step poll s t ⟨sh', update s.threads t fs'⟩

/-- Runs of a fresh executor all of whose steps meet `G`. -/
def Reachable (poll : U → Burst U V) (G : State n m U V → ThreadId n m → Prop)
    (s : State n m U V) : Prop :=
  ∃ ts, Transition.Run (Step poll) G (State.init n m U V) ts s

end Luminal.Std
