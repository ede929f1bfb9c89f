import Luminal.Lib.Tally
import Luminal.NoStd.Executor

/-!
# The lock of the no_std queue

The steps of `SimpleExecutor` with the guard of `global_queue`'s mutex: `spawn` and the
`Pending` arm of `block_on` hold it while they push and drop what a full queue refuses, the
`pop_front` and `stats` close its scope before they go on.  The mutex is not reentrant: `lock`
has no step while the thread holds it.  Futures have destructors (`drop`), which are user code
as polls are.

User code runs under the lock exactly when a push is refused (`unlocked_iff`); then a destructor
that calls `spawn` waits for ever (`run_stuck`).  Without panics and with destructors that do
nothing, this is the executor of `NoStd.Step` (`refines_reachable`).
-/

namespace Luminal.NoStd.Locked

open Function Transition

variable {U V : Type}

/-- Whose code runs: the thread's own, the poll of a task, or the destructor of a future. -/
inductive Host (U : Type) where
  | thread
  | poll (task : Task U)
  | drop

/-- The two places that push. -/
inductive Site (U : Type) where
  /-- `spawn`, called by the user or by `block_on` -/
  | spawn (holder : Holder) (future : U)
  /-- the arm for `Poll::Pending` -/
  | requeue (id : TaskId) (ch : Nat) (future : U)

/-- `let mut queue = self.global_queue.lock(); let _ = queue.push_back(task);` -/
inductive PushPc where
  | lock
  | push
  /-- the guard goes with its scope -/
  | unlock (ch : Nat)

/-- `{ let mut queue = self.global_queue.lock(); queue.pop_front() }` -/
inductive PopPc (U : Type) where
  | lock
  | pop
  | unlock (taskOpt : Option (Task U))

/-- `{ let queue = self.global_queue.lock(); queue.len() }` -/
inductive StatsPc where
  | lock
  | len
  | unlock

inductive Frame (U V : Type) where
  | user (host : Host U) (code : UserCode U V)
  | push (site : Site U) (pc : PushPc)
  | blockOn (ch : Nat) (pc : BlockOnPc)
  | pop (pc : PopPc U)
  /-- `if let Some(mut task) = task_opt` -/
  | taken (taskOpt : Option (Task U))
  | stats (pc : StatsPc)
  /-- the wrapped future has its result `v` and goes on to `enqueue` -/
  | finish (ch : Nat) (v : V)
  /-- a panic leaves the poll and its `block_on` -/
  | unwind

structure State (U V : Type) where
  shared : Shared U V
  /-- the thread holds the mutex of `global_queue` -/
  guard : Bool
  stack : List (Frame U V)

namespace Site

def future : Site U → U
  | .spawn _ u => u
  | .requeue _ _ u => u

/-- The spawn that the pushed task comes from. -/
def ch (sh : Shared U V) : Site U → Nat
  | .spawn _ _ => sh.spawned
  | .requeue _ ch _ => ch

def push (cap : Option Nat) (sh : Shared U V) : Site U → Shared U V
  | .spawn holder u => sh.spawn cap u holder
  | .requeue id ch u => sh.requeue cap id ch u

end Site

/-- One action of the thread. -/
inductive Step (cap : Option Nat) (poll drop : U → Burst U V) :
    State U V → Answer U V → State U V → Prop
  -- the thread goes on with its own code
  | enter (sh g b fs) :
      Step cap poll drop ⟨sh, g, .user .thread .idle :: fs⟩ (.code b)
        ⟨sh, g, .user .thread (.run b) :: fs⟩
  | leavePending (sh g u fs a) :
      Step cap poll drop ⟨sh, g, .user .thread (.run (.pending u)) :: fs⟩ a
        ⟨sh, g, .user .thread .idle :: fs⟩
  | leaveReady (sh g v fs a) :
      Step cap poll drop ⟨sh, g, .user .thread (.run (.ready v)) :: fs⟩ a
        ⟨sh, g, .user .thread .idle :: fs⟩
  | leavePanic (sh g fs a) :
      Step cap poll drop ⟨sh, g, .user .thread (.run .panic) :: fs⟩ a
        ⟨sh, g, .user .thread .idle :: fs⟩
  -- user code
  | outside (sh g w k fs x) :
      Step cap poll drop ⟨sh, g, .user w (.run (.outside k)) :: fs⟩ (.value x)
        ⟨sh, g, .user w (.run (k x)) :: fs⟩
  | callSpawn (sh g w u k fs a) :
      Step cap poll drop ⟨sh, g, .user w (.run (.spawn u k)) :: fs⟩ a
        ⟨sh, g, .push (.spawn .handle u) .lock :: .user w (.run (.spawn u k)) :: fs⟩
  | callBlockOn (sh g w u k fs a) :
      Step cap poll drop ⟨sh, g, .user w (.run (.blockOn u k)) :: fs⟩ a
        ⟨sh, g, .push (.spawn .blockOn u) .lock :: .user w (.run (.blockOn u k)) :: fs⟩
  | callStats (sh g w k fs a) :
      Step cap poll drop ⟨sh, g, .user w (.run (.outside k)) :: fs⟩ a
        ⟨sh, g, .stats .lock :: .user w (.run (.outside k)) :: fs⟩
  | pollHandle (sh g w h k fs a) : (sh.results h).holder = .handle →
      Step cap poll drop ⟨sh, g, .user w (.run (.pollHandle h k)) :: fs⟩ a
        ⟨(sh.pollHandle h).2, g, .user w (.run (k (sh.pollHandle h).1)) :: fs⟩
  | dropHandle (sh g w h k fs a) : (sh.results h).holder = .handle →
      Step cap poll drop ⟨sh, g, .user w (.run (.dropHandle h k)) :: fs⟩ a
        ⟨sh.dropHandle h, g, .user w (.run k) :: fs⟩
  | cloneRuntime (sh g w k fs a) :
      Step cap poll drop ⟨sh, g, .user w (.run (.cloneRuntime k)) :: fs⟩ a
        ⟨sh, g, .user w (.run k) :: fs⟩
  | dropRuntime (sh g w k fs a) :
      Step cap poll drop ⟨sh, g, .user w (.run (.dropRuntime k)) :: fs⟩ a
        ⟨sh, g, .user w (.run k) :: fs⟩
  -- the end of a destructor
  | dropReady (sh g v fs a) :
      Step cap poll drop ⟨sh, g, .user .drop (.run (.ready v)) :: fs⟩ a ⟨sh, g, fs⟩
  | dropPending (sh g u fs a) :
      Step cap poll drop ⟨sh, g, .user .drop (.run (.pending u)) :: fs⟩ a ⟨sh, g, fs⟩
  -- a push: what the full queue hands back is dropped at the end of the statement
  | lockPush (sh site fs a) :
      Step cap poll drop ⟨sh, false, .push site .lock :: fs⟩ a ⟨sh, true, .push site .push :: fs⟩
  | push (sh g site fs a) : Room cap sh.globalQueue →
      Step cap poll drop ⟨sh, g, .push site .push :: fs⟩ a
        ⟨site.push cap sh, g, .push site (.unlock (site.ch sh)) :: fs⟩
  | refused (sh g site fs a) : ¬ Room cap sh.globalQueue →
      Step cap poll drop ⟨sh, g, .push site .push :: fs⟩ a
        ⟨site.push cap sh, g,
          .user .drop (.run (drop site.future)) :: .push site (.unlock (site.ch sh)) :: fs⟩
  | spawned (sh g u₀ ch w u k fs a) :
      Step cap poll drop
        ⟨sh, g, .push (.spawn .handle u₀) (.unlock ch) :: .user w (.run (.spawn u k)) :: fs⟩ a
        ⟨sh, false, .user w (.run (k ch)) :: fs⟩
  | startBlockOn (sh g u₀ ch w u k fs a) :
      Step cap poll drop
        ⟨sh, g, .push (.spawn .blockOn u₀) (.unlock ch) :: .user w (.run (.blockOn u k)) :: fs⟩ a
        ⟨sh, false, .blockOn ch (.poll 0) :: .user w (.wait k) :: fs⟩
  | requeued (sh g id ch u ch' c pc fs a) :
      Step cap poll drop
        ⟨sh, g, .push (.requeue id ch u) (.unlock ch') :: .blockOn c pc :: fs⟩ a
        ⟨sh, false, .blockOn c pc :: fs⟩
  -- a round of `block_on`
  | round (sh g c i fs a) : i < 10 →
      Step cap poll drop ⟨sh, g, .blockOn c (.poll i) :: fs⟩ a
        ⟨sh, g, .pop .lock :: .blockOn c (.poll i) :: fs⟩
  | lockPop (sh fs a) :
      Step cap poll drop ⟨sh, false, .pop .lock :: fs⟩ a ⟨sh, true, .pop .pop :: fs⟩
  | popFront (sh g fs a) :
      Step cap poll drop ⟨sh, g, .pop .pop :: fs⟩ a
        ⟨{ sh with globalQueue := sh.globalQueue.tail }, g,
          .pop (.unlock sh.globalQueue.head?) :: fs⟩
  | unlockPop (sh g t fs a) :
      Step cap poll drop ⟨sh, g, .pop (.unlock t) :: fs⟩ a ⟨sh, false, .taken t :: fs⟩
  | poll (sh g id ch u c i fs a) :
      Step cap poll drop ⟨sh, g, .taken (some ⟨id, .wrapped ch u⟩) :: .blockOn c (.poll i) :: fs⟩ a
        ⟨{ sh with log := sh.log ++ [.polled ch] }, g,
          .user (.poll ⟨id, .wrapped ch u⟩) (.run (poll u)) :: .blockOn c (.poll (i + 1)) :: fs⟩
  | pollCompleted (sh g id c i fs a) :
      Step cap poll drop ⟨sh, g, .taken (some ⟨id, .completed⟩) :: .blockOn c (.poll i) :: fs⟩ a
        ⟨{ sh with tasksProcessed := sh.tasksProcessed + 1 }, g, .blockOn c (.poll (i + 1)) :: fs⟩
  | noTask (sh g c i fs a) :
      Step cap poll drop ⟨sh, g, .taken none :: .blockOn c (.poll i) :: fs⟩ a
        ⟨sh, g, .blockOn c .check :: fs⟩
  | endBatch (sh g c i fs a) : ¬ i < 10 →
      Step cap poll drop ⟨sh, g, .blockOn c (.poll i) :: fs⟩ a ⟨sh, g, .blockOn c .check :: fs⟩
  | pending (sh g id ch u₀ u c pc fs a) :
      Step cap poll drop
        ⟨sh, g, .user (.poll ⟨id, .wrapped ch u₀⟩) (.run (.pending u)) :: .blockOn c pc :: fs⟩ a
        ⟨sh, g, .push (.requeue id ch u) .lock :: .blockOn c pc :: fs⟩
  -- `future.await` ends with the drop of the future, in the state `u` that it has by then
  | ready (sh g id ch u₀ u v c pc fs a) :
      Step cap poll drop
        ⟨sh, g, .user (.poll ⟨id, .wrapped ch u₀⟩) (.run (.ready v)) :: .blockOn c pc :: fs⟩ a
        ⟨sh, g, .user .drop (.run (drop u)) :: .finish ch v :: .blockOn c pc :: fs⟩
  | finish (sh g ch v c pc fs a) :
      Step cap poll drop ⟨sh, g, .finish ch v :: .blockOn c pc :: fs⟩ a
        ⟨sh.finish ch v, g, .blockOn c pc :: fs⟩
  -- a panic destroys the polled future, in whatever state the poll left it; a second panic in
  -- its destructor aborts
  | panic (sh g id ch u₀ u c pc fs a) :
      Step cap poll drop
        ⟨sh, g, .user (.poll ⟨id, .wrapped ch u₀⟩) (.run .panic) :: .blockOn c pc :: fs⟩ a
        ⟨sh, g, .user .drop (.run (drop u)) :: .unwind :: .blockOn c pc :: fs⟩
  | unwind (sh g c pc w k fs a) :
      Step cap poll drop ⟨sh, g, .unwind :: .blockOn c pc :: .user w (.wait k) :: fs⟩ a
        ⟨sh.dropHandle c, g, .user w (.run (k none)) :: fs⟩
  -- a destructor panics: the guard goes with the scope that the panic leaves
  | panicSpawn (sh g u₀ ch w u k fs a) :
      Step cap poll drop
        ⟨sh, g, .user .drop (.run .panic) :: .push (.spawn .handle u₀) (.unlock ch) ::
          .user w (.run (.spawn u k)) :: fs⟩ a
        ⟨sh.dropHandle ch, false, .user w (.run .panic) :: fs⟩
  | panicBlockOn (sh g u₀ ch w u k fs a) :
      Step cap poll drop
        ⟨sh, g, .user .drop (.run .panic) :: .push (.spawn .blockOn u₀) (.unlock ch) ::
          .user w (.run (.blockOn u k)) :: fs⟩ a
        ⟨sh.dropHandle ch, false, .user w (.run (k none)) :: fs⟩
  | panicRequeue (sh g id ch u ch' c pc fs a) :
      Step cap poll drop
        ⟨sh, g, .user .drop (.run .panic) :: .push (.requeue id ch u) (.unlock ch') ::
          .blockOn c pc :: fs⟩ a
        ⟨sh, false, .unwind :: .blockOn c pc :: fs⟩
  | panicFinish (sh g ch v c pc fs a) :
      Step cap poll drop
        ⟨sh, g, .user .drop (.run .panic) :: .finish ch v :: .blockOn c pc :: fs⟩ a
        ⟨sh, g, .unwind :: .blockOn c pc :: fs⟩
  -- the result is there, and `block_on` returns it to its caller
  | return (sh g c v q w k fs a) : (sh.results c).items = v :: q →
      Step cap poll drop ⟨sh, g, .blockOn c .check :: .user w (.wait k) :: fs⟩ a
        ⟨(sh.pollHandle c).2.dropHandle c, g, .user w (.run (k (some v))) :: fs⟩
  | retry (sh g c fs a) : (sh.results c).items = [] →
      Step cap poll drop ⟨sh, g, .blockOn c .check :: fs⟩ a ⟨sh, g, .blockOn c (.poll 0) :: fs⟩
  -- `stats`
  | lockStats (sh fs a) :
      Step cap poll drop ⟨sh, false, .stats .lock :: fs⟩ a ⟨sh, true, .stats .len :: fs⟩
  | len (sh g fs a) :
      Step cap poll drop ⟨sh, g, .stats .len :: fs⟩ a ⟨sh, g, .stats .unlock :: fs⟩
  | unlockStats (sh g fs a) :
      Step cap poll drop ⟨sh, g, .stats .unlock :: fs⟩ a ⟨sh, false, fs⟩

/-- A fresh executor, and a thread with nothing to do. -/
def State.init (U V : Type) : State U V := ⟨SimpleExecutor.new U V, false, [.user .thread .idle]⟩

def Reachable (cap : Option Nat) (poll drop : U → Burst U V) (s : State U V) : Prop :=
  ∃ as, Run (Step cap poll drop) always (State.init U V) as s

/-! ## Who holds the lock -/

namespace Frame

/-- About to lock. -/
def Locks : Frame U V → Prop
  | .push _ .lock => True
  | .pop .lock => True
  | .stats .lock => True
  | _ => False

/-- A user's future is being polled or destroyed. -/
def Runs : Frame U V → Prop
  | .user (.poll _) _ => True
  | .user .drop _ => True
  | _ => False

/-- The guards whose scope the frame is in. -/
def holds : Frame U V → Nat
  | .push _ .lock => 0
  | .push _ _ => 1
  | .pop .lock => 0
  | .pop _ => 1
  | .stats .lock => 0
  | .stats _ => 1
  | _ => 0

end Frame

namespace State

/-- No future is polled or destroyed under the lock, and no call waits for the lock that its own
thread holds. -/
def Unlocked (s : State U V) : Prop :=
  ∀ f fs, s.stack = f :: fs → f.Runs ∨ f.Locks → s.guard = false

/-- The condition on a step: a push finds room. -/
def FindsRoom (cap : Option Nat) (s : State U V) : Prop :=
  ∀ site fs, s.stack = .push site .push :: fs → Room cap s.shared.globalQueue

end State

section Steps

variable {cap : Option Nat} {poll drop : U → Burst U V} {a b : State U V} {l : Answer U V}

/-- **The mutex is held by at most one scope.** -/
theorem step_holds (hs : Step cap poll drop a l b)
    (ha : weigh Frame.holds a.stack = if a.guard then 1 else 0) :
    weigh Frame.holds b.stack = if b.guard then 1 else 0 := by
  cases hs with
  | lockPush | lockPop | lockStats =>
    simp only [weigh_cons, Frame.holds, Bool.false_eq_true, if_false, if_true] at ha ⊢
    omega
  | push | refused | popFront | len =>
    simpa only [weigh_cons, Frame.holds, Nat.zero_add] using ha
  | spawned sh g | startBlockOn sh g | requeued sh g | unlockPop sh g | unlockStats sh g
  | panicSpawn sh g | panicBlockOn sh g | panicRequeue sh g =>
    cases g
    · simp only [weigh_cons, Frame.holds, Bool.false_eq_true, if_false] at ha
      omega
    · simp only [weigh_cons, Frame.holds, Bool.false_eq_true, if_false, if_true] at ha ⊢
      omega
  | _ => simpa only [weigh_cons, Frame.holds, Nat.zero_add] using ha

theorem holds_reachable (h : Reachable cap poll drop a) :
    weigh Frame.holds a.stack = if a.guard then 1 else 0 :=
  h.elim fun _ hr => hr.invariant
    (P := fun a => weigh Frame.holds a.stack = if a.guard then 1 else 0) rfl
    fun _ _ _ ha _ hs => step_holds hs ha

/-- The lock is held in the scope on top of the stack, or not at all. -/
def State.Scoped (s : State U V) : Prop :=
  ∀ f fs, s.stack = f :: fs → f.holds = 0 → s.guard = false

theorem Scoped.unlocked (h : a.Scoped) : a.Unlocked := by
  intro f fs hfs hf
  refine h f fs hfs ?_
  cases f with
  | user host code => rfl
  | push site pc => cases pc <;> simp_all [Frame.Runs, Frame.Locks, Frame.holds]
  | pop pc => cases pc <;> simp_all [Frame.Runs, Frame.Locks, Frame.holds]
  | stats pc => cases pc <;> simp_all [Frame.Runs, Frame.Locks, Frame.holds]
  | _ => rfl

/-- **A step keeps guards to their scopes**, unless a push is refused. -/
theorem step_scoped (hs : Step cap poll drop a l b) (ha : a.Scoped) (hroom : a.FindsRoom cap) :
    b.Scoped := by
  -- the top frame holds no guard, so there is none
  have hfree : ∀ {f : Frame U V} {fs : List (Frame U V)}, a.stack = f :: fs → f.holds = 0 →
      b.guard = a.guard → b.Scoped := by
    intro f fs hfs hf hg _ _ _ _
    rw [hg]
    exact ha f fs hfs hf
  have hgone : b.guard = false → b.Scoped := fun hg _ _ _ _ => hg
  cases hs with
  | lockPush | lockPop | lockStats | push | popFront | len =>
    intro f fs hfs hf
    cases hfs
    cases hf
  | refused sh g site fs a hfull => exact absurd (hroom site fs rfl) hfull
  | spawned | startBlockOn | requeued | unlockPop | unlockStats | panicSpawn | panicBlockOn
  | panicRequeue => exact hgone rfl
  | _ => exact hfree rfl rfl rfl

/-- **No user code runs under the queue lock in exactly those runs in which every push finds
room.** -/
theorem unlocked_iff (as : List (Answer U V)) (s : State U V) :
    (Run (Step cap poll drop) (fun a _ => a.Unlocked) (State.init U V) as s ∧ s.Unlocked) ↔
      Run (Step cap poll drop) (fun a _ => a.FindsRoom cap) (State.init U V) as s := by
  have h : Run (Step cap poll drop) (fun a l => always a l ∧ a.Unlocked) (State.init U V) as s ∧
      s.Unlocked ↔
      Run (Step cap poll drop) (fun a l => always a l ∧ a.FindsRoom cap) (State.init U V) as s := by
    refine Run.exact_guard (fun as a hr => Scoped.unlocked ?_) ?_
    · exact hr.invariant (fun _ _ _ _ => rfl) fun a l b ha hG hs => step_scoped hs ha hG.2
    · intro as a l b hr ha _ hs hb site fs hfs
      by_contra hfull
      have hheld := holds_reachable ⟨as, hr⟩
      cases hs with
      | refused sh g site' fs' a =>
        have hfree : g = false := hb _ _ rfl (Or.inl trivial)
        subst hfree
        simp [weigh_cons, Frame.holds] at hheld
      | push sh g site' fs' a hroom => exact hfull hroom
      | _ => cases hfs
  simpa only [always, true_and] using h

/-- A call that waits for the lock of its own thread waits for ever. -/
theorem blocked {f : Frame U V} {fs : List (Frame U V)} (hfs : a.stack = f :: fs) (hf : f.Locks)
    (hg : a.guard = true) : ¬ Step cap poll drop a l b := by
  intro hs
  cases hs with
  | lockPush | lockPop | lockStats => cases hg
  | _ =>
    cases hfs
    exact hf.elim

end Steps

/-! ## A full queue -/

section Full

variable {cap : Option Nat} (poll drop : U → Burst U V)

/-- A `spawn` that finds room. -/
theorem run_spawn {sh : Shared U V} (hroom : Room cap sh.globalQueue) (w : Host U) (u : U)
    (k : Nat → Burst U V) (fs : List (Frame U V)) :
    ∃ as, Run (Step cap poll drop) always ⟨sh, false, .user w (.run (.spawn u k)) :: fs⟩ as
      ⟨sh.spawn cap u .handle, false, .user w (.run (k sh.spawned)) :: fs⟩ :=
  ⟨_, (((Run.single trivial (.callSpawn sh false w u k fs (.value 0))).snoc trivial
    (.lockPush sh _ _ (.value 0))).snoc trivial (.push sh true _ _ (.value 0) hroom)).snoc trivial
    (.spawned _ true u _ w u k fs (.value 0))⟩

/-- The thread spawns `k` times. -/
def fill (u : U) (v : V) : Nat → Burst U V
  | 0 => .ready v
  | k + 1 => .spawn u fun _ => fill u v k

/-- `k` spawns fit into a queue of capacity `k + 1`. -/
theorem run_fill (u : U) (v : V) (c j k : Nat) {sh : Shared U V}
    (hlen : sh.globalQueue.length + k ≤ c) :
    ∃ as sh', sh'.globalQueue.length = sh.globalQueue.length + k ∧
      Run (Step (some c) poll drop) always
        ⟨sh, false, [.user .thread (.run (fill u v (k + j)))]⟩ as
        ⟨sh', false, [.user .thread (.run (fill u v j))]⟩ := by
  induction k generalizing sh with
  | zero =>
    rw [Nat.zero_add]
    exact ⟨[], sh, rfl, Run.nil⟩
  | succ k ih =>
    have hroom : Room (some c) sh.globalQueue := by
      rw [room_some]
      omega
    have hpush : (sh.spawn (some c) u .handle).globalQueue.length = sh.globalQueue.length + 1 := by
      rw [Shared.spawn_queue hroom u .handle, List.length_append, List.length_singleton]
    obtain ⟨as₁, h1⟩ := run_spawn poll drop hroom .thread u
      (fun _ => fill u v (k + j)) []
    have hnext : (sh.spawn (some c) u .handle).globalQueue.length + k ≤ c := by omega
    obtain ⟨as₂, sh', h2, h3⟩ := ih hnext
    refine ⟨as₁ ++ as₂, sh', by omega, ?_⟩
    rw [Nat.add_right_comm]
    exact h1.append h3

/-- The first spawn into a full queue destroys its future under the lock. -/
theorem run_full (c : Nat) (u : U) (v : V) : ∃ as sh fs,
    Run (Step (some c) poll drop) always (State.init U V) as
      ⟨sh, true, .user .drop (.run (drop u)) :: fs⟩ := by
  have hnew : (SimpleExecutor.new U V).globalQueue.length + c ≤ c :=
    Nat.le_of_eq (Nat.zero_add c)
  obtain ⟨as, sh, hlen, hr⟩ := run_fill poll drop u v c 1 c hnew
  have hfull : ¬ Room (some c) sh.globalQueue := by
    rw [room_some, hlen]
    show ¬ 0 + c < c
    omega
  refine ⟨_, _, _, (((Run.cons trivial (.enter _ false (fill u v (c + 1)) []) hr).snoc trivial
    (.callSpawn sh false .thread u (fun _ => fill u v 0) [] (.value 0))).snoc trivial
    (.lockPush sh (.spawn .handle u) _ (.value 0))).snoc trivial
    (.refused sh true (.spawn .handle u) _ (.value 0) hfull)⟩

end Full

/-- **A destructor that calls `spawn` stops the thread for ever** when a full queue refuses its
task. -/
theorem run_stuck {poll drop : U → Burst U V} (c : Nat) {u u' : U} {k : Nat → Burst U V}
    (hdrop : drop u = .spawn u' k) (v : V) : ∃ s, Reachable (some c) poll drop s ∧
      ∀ l b, ¬ Step (some c) poll drop s l b := by
  obtain ⟨as, sh, fs, hr⟩ := run_full poll drop c u v
  rw [hdrop] at hr
  exact ⟨_, ⟨_, hr.snoc trivial (.callSpawn sh true .drop u' k fs (.value 0))⟩,
    fun l b => blocked rfl trivial rfl⟩

/-- A queue with 1024 tasks: the next spawn destroys its future under the lock. -/
theorem not_unlocked : ¬ ∀ s : State Unit Nat,
    Reachable SimpleExecutor.capacity (fun _ => .pending ()) (fun _ => .ready 0) s →
      s.Unlocked := by
  intro h
  obtain ⟨as, sh, fs, hr⟩ := run_full (fun _ : Unit => (.pending () : Burst Unit Nat))
    (fun _ => .ready 0) 1024 () 0
  have hfree : true = false := h _ ⟨as, hr⟩ _ _ rfl (Or.inl trivial)
  cases hfree

/-! ## The executor without its lock -/

/-- The user code of a host is the user code of `task`. -/
inductive Host.Is : Host U → Option (Task U) → Prop
  | thread : Is .thread none
  | poll (task : Task U) : Is (.poll task) (some task)

/-- Stacks between the operations on the queue. -/
inductive Shows : List (Frame U V) → List (NoStd.Frame U V) → Prop
  | nil : Shows [] []
  | user {fs gs} {w : Host U} {task : Option (Task U)} (code : UserCode U V) :
      w.Is task → Shows fs gs → Shows (.user w code :: fs) (.user task code :: gs)
  | blockOn {fs gs} (c : Nat) (pc : BlockOnPc) :
      Shows fs gs → Shows (.blockOn c pc :: fs) (.blockOn c pc :: gs)

/-- What a state is to `NoStd.Step`: an operation takes place when it pushes, and when it goes
on to poll the task that it has taken. -/
inductive Refines : State U V → NoStd.State U V → Prop
  | clean {sh g fs gs} : Shows fs gs → Refines ⟨sh, g, fs⟩ ⟨sh, gs⟩
  | stats {sh g pc fs gs} : Shows fs gs → Refines ⟨sh, g, .stats pc :: fs⟩ ⟨sh, gs⟩
  | spawning {sh g pc u w k fs gs} : (∀ ch, pc ≠ .unlock ch) →
      Shows (.user w (.run (.spawn u k)) :: fs) gs →
      Refines ⟨sh, g, .push (.spawn .handle u) pc :: .user w (.run (.spawn u k)) :: fs⟩ ⟨sh, gs⟩
  | spawned {sh g u₀ u ch w k fs gs} : Shows (.user w (.run (k ch)) :: fs) gs →
      Refines ⟨sh, g, .push (.spawn .handle u₀) (.unlock ch) :: .user w (.run (.spawn u k)) :: fs⟩
        ⟨sh, gs⟩
  | calling {sh g pc u w k fs gs} : (∀ ch, pc ≠ .unlock ch) →
      Shows (.user w (.run (.blockOn u k)) :: fs) gs →
      Refines ⟨sh, g, .push (.spawn .blockOn u) pc :: .user w (.run (.blockOn u k)) :: fs⟩ ⟨sh, gs⟩
  | called {sh g u₀ u ch w k fs gs} : Shows (.user w (.wait k) :: fs) gs →
      Refines
        ⟨sh, g, .push (.spawn .blockOn u₀) (.unlock ch) :: .user w (.run (.blockOn u k)) :: fs⟩
        ⟨sh, .blockOn ch (.poll 0) :: gs⟩
  | requeueing {sh g id ch u₀ u pc c p fs gs} : (∀ ch, pc ≠ .unlock ch) → Shows fs gs →
      Refines ⟨sh, g, .push (.requeue id ch u) pc :: .blockOn c p :: fs⟩
        ⟨sh, .user (some ⟨id, .wrapped ch u₀⟩) (.run (.pending u)) :: .blockOn c p :: gs⟩
  | requeued {sh g id ch ch' u c p fs gs} : Shows fs gs →
      Refines ⟨sh, g, .push (.requeue id ch u) (.unlock ch') :: .blockOn c p :: fs⟩
        ⟨sh, .blockOn c p :: gs⟩
  | popping {sh g pc c i fs gs} : (∀ t, pc ≠ .unlock t) → i < 10 → Shows fs gs →
      Refines ⟨sh, g, .pop pc :: .blockOn c (.poll i) :: fs⟩ ⟨sh, .blockOn c (.poll i) :: gs⟩
  | popped {sh g taskOpt c i q fs gs} : i < 10 → q = taskOpt.toList ++ sh.globalQueue →
      (taskOpt = none → sh.globalQueue = []) → Shows fs gs →
      Refines ⟨sh, g, .pop (.unlock taskOpt) :: .blockOn c (.poll i) :: fs⟩
        ⟨{ sh with globalQueue := q }, .blockOn c (.poll i) :: gs⟩
  | taken {sh g taskOpt c i q fs gs} : i < 10 → q = taskOpt.toList ++ sh.globalQueue →
      (taskOpt = none → sh.globalQueue = []) → Shows fs gs →
      Refines ⟨sh, g, .taken taskOpt :: .blockOn c (.poll i) :: fs⟩
        ⟨{ sh with globalQueue := q }, .blockOn c (.poll i) :: gs⟩
  | finishing {sh g id ch u v c p fs gs} : Shows fs gs →
      Refines ⟨sh, g, .finish ch v :: .blockOn c p :: fs⟩
        ⟨sh, .user (some ⟨id, .wrapped ch u⟩) (.run (.ready v)) :: .blockOn c p :: gs⟩
  | dropping {sh g v fs t} : Refines ⟨sh, g, fs⟩ t →
      Refines ⟨sh, g, .user .drop (.run (.ready v)) :: fs⟩ t

/-- User code panics. -/
def State.Panics (s : State U V) : Prop := ∃ w fs, s.stack = .user w (.run .panic) :: fs

section Simulation

variable {cap : Option Nat} {poll drop : U → Burst U V} {s s' : State U V} {t : NoStd.State U V}
  {l : Answer U V}

/-- A step from between the operations. -/
theorem clean_step (hdrop : ∀ u, ∃ v, drop u = .ready v) {sh : Shared U V} {g : Bool}
    {fs : List (Frame U V)} {gs : List (NoStd.Frame U V)} (h : Shows fs gs)
    (hs : Step cap poll drop ⟨sh, g, fs⟩ l s') (hp : ¬ (State.mk sh g fs).Panics) :
    ∃ t', (t' = ⟨sh, gs⟩ ∨ NoStd.Step cap poll ⟨sh, gs⟩ l t') ∧ Refines s' t' := by
  cases hs with
  -- the steps of the thread and of user code are the same
  | enter sh g b fs =>
    obtain - | ⟨_, ⟨⟩, h⟩ := h
    exact ⟨_, Or.inr (.enter sh b _), .clean (.user _ .thread h)⟩
  | leavePending sh g u fs a =>
    obtain - | ⟨_, ⟨⟩, h⟩ := h
    exact ⟨_, Or.inr (.leavePending sh u _ l), .clean (.user _ .thread h)⟩
  | leaveReady sh g v fs a =>
    obtain - | ⟨_, ⟨⟩, h⟩ := h
    exact ⟨_, Or.inr (.leaveReady sh v _ l), .clean (.user _ .thread h)⟩
  | outside sh g w k fs x =>
    obtain - | ⟨_, hw, h⟩ := h
    exact ⟨_, Or.inr (.outside sh _ k _ x), .clean (.user _ hw h)⟩
  | pollHandle sh g w d k fs a hd =>
    obtain - | ⟨_, hw, h⟩ := h
    exact ⟨_, Or.inr (.pollHandle sh _ d k _ l hd), .clean (.user _ hw h)⟩
  | dropHandle sh g w d k fs a hd =>
    obtain - | ⟨_, hw, h⟩ := h
    exact ⟨_, Or.inr (.dropHandle sh _ d k _ l hd), .clean (.user _ hw h)⟩
  | cloneRuntime sh g w k fs a =>
    obtain - | ⟨_, hw, h⟩ := h
    exact ⟨_, Or.inr (.cloneRuntime sh _ k _ l), .clean (.user _ hw h)⟩
  | dropRuntime sh g w k fs a =>
    obtain - | ⟨_, hw, h⟩ := h
    exact ⟨_, Or.inr (.dropRuntime sh _ k _ l), .clean (.user _ hw h)⟩
  -- an operation begins
  | callSpawn => exact ⟨_, Or.inl rfl, .spawning nofun h⟩
  | callBlockOn => exact ⟨_, Or.inl rfl, .calling nofun h⟩
  | callStats => exact ⟨_, Or.inl rfl, .stats h⟩
  | round sh g c i fs a hi =>
    obtain - | - | ⟨_, _, h⟩ := h
    exact ⟨_, Or.inl rfl, .popping nofun hi h⟩
  | pending sh g id ch u₀ u c pc fs a =>
    obtain - | ⟨_, ⟨⟩, - | - | ⟨_, _, h⟩⟩ := h
    exact ⟨_, Or.inl rfl, .requeueing nofun h⟩
  | ready sh g id ch u₀ u v c pc fs a =>
    obtain - | ⟨_, ⟨⟩, - | - | ⟨_, _, h⟩⟩ := h
    obtain ⟨v', hv⟩ := hdrop u
    rw [hv]
    exact ⟨_, Or.inl rfl, .dropping (.finishing h)⟩
  -- `block_on` between its rounds
  | endBatch sh g c i fs a hi =>
    obtain - | - | ⟨_, _, h⟩ := h
    exact ⟨_, Or.inr (.endBatch sh c i _ l fun hlt => absurd hlt hi), .clean (.blockOn c _ h)⟩
  | «return» sh g c v q w k fs a hv =>
    obtain - | - | ⟨_, _, - | ⟨_, hw, h⟩⟩ := h
    exact ⟨_, Or.inr (.return sh c v q _ k _ l hv), .clean (.user _ hw h)⟩
  | retry sh g c fs a hnil =>
    obtain - | - | ⟨_, _, h⟩ := h
    exact ⟨_, Or.inr (.retry sh c _ l hnil), .clean (.blockOn c _ h)⟩
  -- no panics, and no frame of an operation
  | leavePanic | panic => exact absurd ⟨_, _, rfl⟩ hp
  | dropReady | dropPending | panicSpawn | panicBlockOn | panicRequeue | panicFinish =>
    obtain - | ⟨_, ⟨⟩, _⟩ := h
  | _ => cases h

/-- **A step is a step of the executor without its lock, or none.** -/
theorem refines_step (hdrop : ∀ u, ∃ v, drop u = .ready v) (h : Refines s t)
    (hs : Step cap poll drop s l s') (hp : ¬ s.Panics) :
    ∃ t', (t' = t ∨ NoStd.Step cap poll t l t') ∧ Refines s' t' := by
  cases h with
  | clean h => exact clean_step hdrop h hs hp
  | stats h =>
    cases hs with
    | lockStats | len => exact ⟨_, Or.inl rfl, .stats h⟩
    | unlockStats => exact ⟨_, Or.inl rfl, .clean h⟩
  | spawning hpc h =>
    cases hs with
    | lockPush => exact ⟨_, Or.inl rfl, .spawning nofun h⟩
    | push =>
      obtain - | ⟨_, hw, h⟩ := h
      exact ⟨_, Or.inr (.spawn ..), .spawned (.user _ hw h)⟩
    | refused =>
      obtain - | ⟨_, hw, h⟩ := h
      obtain ⟨v, hv⟩ := hdrop _
      rw [hv]
      exact ⟨_, Or.inr (.spawn ..), .dropping (.spawned (.user _ hw h))⟩
    | spawned => exact absurd rfl (hpc _)
  | spawned h =>
    cases hs with
    | spawned => exact ⟨_, Or.inl rfl, .clean h⟩
  | calling hpc h =>
    cases hs with
    | lockPush => exact ⟨_, Or.inl rfl, .calling nofun h⟩
    | push =>
      obtain - | ⟨_, hw, h⟩ := h
      exact ⟨_, Or.inr (.blockOn ..), .called (.user _ hw h)⟩
    | refused =>
      obtain - | ⟨_, hw, h⟩ := h
      obtain ⟨v, hv⟩ := hdrop _
      rw [hv]
      exact ⟨_, Or.inr (.blockOn ..), .dropping (.called (.user _ hw h))⟩
    | startBlockOn => exact absurd rfl (hpc _)
  | called h =>
    cases hs with
    | startBlockOn => exact ⟨_, Or.inl rfl, .clean (.blockOn _ _ h)⟩
  | requeueing hpc h =>
    cases hs with
    | lockPush => exact ⟨_, Or.inl rfl, .requeueing nofun h⟩
    | push => exact ⟨_, Or.inr (.pending ..), .requeued h⟩
    | refused =>
      obtain ⟨v, hv⟩ := hdrop _
      rw [hv]
      exact ⟨_, Or.inr (.pending ..), .dropping (.requeued h)⟩
    | requeued => exact absurd rfl (hpc _)
  | requeued h =>
    cases hs with
    | requeued => exact ⟨_, Or.inl rfl, .clean (.blockOn _ _ h)⟩
  | popping hpc hi h =>
    cases hs with
    | lockPop => exact ⟨_, Or.inl rfl, .popping nofun hi h⟩
    | popFront =>
      refine ⟨_, Or.inl rfl, .popped hi ?_ ?_ h⟩
      · rw [← List.take_one, ← List.drop_one]
        exact (List.take_append_drop 1 _).symm
      · intro hnil
        rw [List.head?_eq_none_iff] at hnil
        simp only [hnil, List.tail_nil]
    | unlockPop => exact absurd rfl (hpc _)
  | popped hi hq hnil h =>
    cases hs with
    | unlockPop => exact ⟨_, Or.inl rfl, .taken hi hq hnil h⟩
  | taken hi hq hnil h =>
    subst hq
    cases hs with
    | poll =>
      exact ⟨_, Or.inr (.pop _ _ _ _ _ _ _ _ _ hi rfl), .clean (.user _ (.poll _) (.blockOn _ _ h))⟩
    | pollCompleted =>
      exact ⟨_, Or.inr (.popCompleted _ _ _ _ _ _ _ hi rfl), .clean (.blockOn _ _ h)⟩
    | noTask =>
      exact ⟨_, Or.inr (.endBatch _ _ _ _ _ fun _ => hnil rfl), .clean (.blockOn _ _ h)⟩
  | finishing h =>
    cases hs with
    | finish => exact ⟨_, Or.inr (.ready ..), .clean (.blockOn _ _ h)⟩
  | dropping h =>
    cases hs with
    | dropReady => exact ⟨_, Or.inl rfl, h⟩

/-- **Where nothing panics and destructors do nothing, the executor with its lock is the executor
of `NoStd.Step`.** -/
theorem refines_reachable (hdrop : ∀ u, ∃ v, drop u = .ready v) {as : List (Answer U V)}
    (hr : Run (Step cap poll drop) (fun a _ => ¬ a.Panics) (State.init U V) as s) :
    ∃ t, NoStd.Reachable cap poll t ∧ Refines s t := by
  refine hr.invariant (P := fun s => ∃ t, NoStd.Reachable cap poll t ∧ Refines s t)
    ⟨_, ⟨[], Run.nil⟩, .clean (.user _ .thread .nil)⟩ ?_
  rintro a l b ⟨t, ⟨ls, ht⟩, hat⟩ hp hs
  obtain ⟨t', rfl | hstep, hbt⟩ := refines_step hdrop hat hs hp
  · exact ⟨t', ⟨ls, ht⟩, hbt⟩
  · exact ⟨t', ⟨_, ht.snoc trivial hstep⟩, hbt⟩

end Simulation

end Luminal.NoStd.Locked
