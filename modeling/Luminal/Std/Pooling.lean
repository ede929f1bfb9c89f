import Luminal.Std.Ownership
import Luminal.Std.Quiescence
import Luminal.Turns

/-!
# The executor is a pool of tasks

Deques, batches, steals and helping callers decide which task is polled next, by whom and when, and
nothing else: seen as the jobs that wait and the jobs in progress (`State.pool`), every action of a
thread is at most one step of a pool (`threadStep_pool`), and only a worker that leaves its loop and
the end of `ExecutorInner::drop` drop jobs (`State.Discards`).  So each task does what its future
does on its own, one turn after the other, each turn from where the last one left the future
(`pool_reachable`).
-/

namespace Luminal

open Transition

namespace Std

open Function

variable {n m : Nat} {U V : Type} {poll : U → Burst U V}

/-- A task whose poll was `Pending`, on its way back to the queue. -/
def Frame.waits : Frame U V → Multiset (Nat × U)
  | .requeue _ owned => owned.job
  | _ => 0

/-- A poll in progress. -/
def Frame.turn : Frame U V → Multiset (Nat × UserCode U V)
  | .user task code => code.turn task
  | _ => 0

def Shared.submitted (sh : Shared n U V) : Set (Nat × U) := { x | .spawned x.1 x.2 ∈ sh.log }

/-- The pool that one thread sees, where the other threads have `W` on its way back and `R` in
progress. -/
def Shared.pool (sh : Shared n U V) (fs : List (Frame U V)) (W : Multiset (Nat × U))
    (R : Multiset (Nat × UserCode U V)) : Pool Nat U (UserCode U V) where
  submitted := sh.submitted
  waiting := sh.held Task.job + (holdings Frame.waits fs + W)
  running := holdings Frame.turn fs + R

/-- The executor as a pool. -/
def State.pool (s : State n m U V) : Pool Nat U (UserCode U V) where
  submitted := s.shared.submitted
  waiting := s.shared.held Task.job + total (holdings Frame.waits) s.threads
  running := total (holdings Frame.turn) s.threads

/-! ## One action -/

/-- Only the end of a call of `spawn` submits a task. -/
theorem threadStep_submitted {sh sh' : Shared n U V} {t : ThreadId n m} {fs fs' : List (Frame U V)}
    (h : ThreadStep poll sh t fs sh' fs') (hfs : ∀ task ch b rest, fs ≠ .spawn task ch b :: rest) :
    sh'.submitted = sh.submitted := by
  obtain ⟨l, hl, hemits⟩ := threadStep_log h
  have hnone : ∀ ch u, .spawned ch u ∉ l := by
    intro ch u hmem
    cases hemits with
    | spawned id ch u c b rest heq => exact hfs _ _ _ _ heq
    | destroyed tasks =>
      obtain ⟨_, -, heq⟩ := List.mem_map.1 hmem
      cases heq
    | _ => simp at hmem
  ext ⟨ch, u⟩
  show .spawned ch u ∈ sh'.log ↔ .spawned ch u ∈ sh.log
  rw [hl, List.mem_append, or_iff_left (hnone ch u)]

section Turns

variable {lets : Prop} {sh sh' : Shared n U V} {fs fs' : List (Frame U V)} {W : Multiset (Nat × U)}
  {R : Multiset (Nat × UserCode U V)}

theorem pool_cons {f : Frame U V} (hwaits : f.waits = 0) (hturn : f.turn = 0) :
    sh.pool (f :: fs) W R = sh.pool fs W R := by
  unfold Shared.pool
  rw [holdings_cons, holdings_cons, hwaits, hturn, zero_add, zero_add]

theorem pool_stay (hsub : sh'.submitted = sh.submitted)
    (hheld : sh'.held Task.job = sh.held Task.job) : sh'.pool fs W R = sh.pool fs W R := by
  unfold Shared.pool
  rw [hsub, hheld]

/-- The code of a task goes on; that of a thread outside is nobody's turn. -/
theorem pool_go (task : Option (Task U)) {x y : UserCode U V} (h : x.Goes y) :
    Relation.ReflGen (Pool.Step (Burst.behaviour poll) lets)
      (sh.pool (.user task x :: fs) W R) (sh.pool (.user task y :: fs) W R) := by
  unfold Shared.pool
  simp only [holdings_cons, Frame.waits, Frame.turn, add_assoc]
  exact turn_go task h

/-- A poll was `Pending`. -/
theorem pool_pause (id : TaskId) (ch : Nat) (u₀ u : U) (left : Option (Task U)) :
    Relation.ReflGen (Pool.Step (Burst.behaviour poll) lets)
      (sh.pool (.user (some ⟨id, .wrapped ch u₀⟩) (.run (.pending u)) :: fs) W R)
      (sh.pool (.requeue left ⟨id, .wrapped ch u⟩ :: fs) W R) := by
  unfold Shared.pool
  simp only [holdings_cons, Frame.waits, Frame.turn, Task.job, zero_add, add_assoc,
    Multiset.singleton_add, Multiset.cons_add, Multiset.add_cons]
  exact .single (turn_pause id ch u₀ u)

/-- A poll is over. -/
theorem pool_finish (id : TaskId) (ch : Nat) (u : U) {x : UserCode U V}
    (h : (Burst.behaviour poll).ends x) :
    Relation.ReflGen (Pool.Step (Burst.behaviour poll) lets)
      (sh.pool (.user (some ⟨id, .wrapped ch u⟩) x :: fs) W R) (sh.pool fs W R) := by
  unfold Shared.pool
  simp only [holdings_cons, Frame.waits, Frame.turn, zero_add, add_assoc]
  exact .single (turn_finish id ch u h)

/-- The task is back in the queue, and waits as before. -/
theorem pool_requeue (left : Option (Task U)) (owned : Task U)
    (hsub : (sh.pushPending owned).submitted = sh.submitted) :
    (sh.pushPending owned).pool fs W R = sh.pool (.requeue left owned :: fs) W R := by
  have hpush : (sh.pushPending owned).held Task.job = sh.held Task.job + owned.job :=
    held_push _ rfl rfl
  unfold Shared.pool
  rw [hsub, hpush]
  simp only [holdings_cons, Frame.waits, Frame.turn, zero_add, add_assoc]

/-- A task that is pushed by `spawn` is a new job. -/
theorem pool_submit {task : Task U} {ch : Nat} (hp : task.ch? = some ch)
    (hnew : ∀ u, .spawned ch u ∉ sh.log) (b : Bool) :
    Relation.ReflGen (Pool.Step (Burst.behaviour poll) lets) (sh.pool (.spawn task ch b :: fs) W R)
      ((sh.pushSpawned task ch b).pool fs W R) := by
  rw [pool_cons (f := .spawn task ch b) rfl rfl]
  obtain ⟨id, ⟨c, u⟩ | -⟩ := task
  · cases hp
    have hsub : (sh.pushSpawned ⟨id, .wrapped ch u⟩ ch b).submitted =
        insert (ch, u) sh.submitted := by
      ext ⟨d, w⟩
      show .spawned d w ∈ sh.log ++ [.spawned ch u] ↔ _
      rw [List.mem_append, List.mem_singleton, or_comm, Event.spawned.injEq, Set.mem_insert_iff,
        Prod.mk.injEq]
      rfl
    have hpush : (sh.pushSpawned ⟨id, .wrapped ch u⟩ ch b).held Task.job =
        sh.held Task.job + {(ch, u)} :=
      held_push Task.job (p := ⟨id, .wrapped ch u⟩) rfl rfl
    unfold Shared.pool
    rw [hsub, hpush, add_assoc, Multiset.singleton_add, Multiset.add_cons]
    exact .single (.submit ch u hnew)
  · cases hp

/-- A task taken out of a queue gets its turn. -/
theorem pool_start {task : Task U} (hsub : (sh'.beginPoll poll task).1.submitted = sh.submitted)
    (hheld : sh.held Task.job = task.job + sh'.held Task.job) :
    Relation.ReflGen (Pool.Step (Burst.behaviour poll) lets) (sh.pool fs W R)
      ((sh'.beginPoll poll task).1.pool ((sh'.beginPoll poll task).2 :: fs) W R) := by
  have hqueues : (sh'.beginPoll poll task).1.held Task.job = sh'.held Task.job := by
    rw [beginPoll_eq]
    rfl
  unfold Shared.pool
  rw [hsub, hqueues, hheld, holdings_cons, holdings_cons]
  obtain ⟨id, ⟨ch, u⟩ | -⟩ := task
  · simp only [Task.job, Shared.beginPoll, Frame.turn, UserCode.turn, Frame.waits,
      Multiset.singleton_add, Multiset.cons_add, zero_add]
    exact .single (.start ch u)
  · simp only [Task.job, Shared.beginPoll, Frame.turn, Frame.waits, zero_add]
    exact .refl

/-- Tasks destroyed in queues are dropped. -/
theorem pool_drop (hlets : lets) (hsub : sh'.submitted = sh.submitted)
    (hheld : sh'.held Task.job ≤ sh.held Task.job) :
    Relation.ReflGen (Pool.Step (Burst.behaviour poll) lets) (sh.pool fs W R)
      (sh'.pool fs W R) := by
  obtain ⟨D, hD⟩ := Multiset.le_iff_exists_add.1 hheld
  unfold Shared.pool
  rw [hsub, hD, add_comm _ D, add_assoc]
  exact .single (.drop D hlets)

/-- The next action of this stack destroys queued tasks: a worker leaves its loop, or
`ExecutorInner::drop` ends. -/
def Discarding (sh : Shared n U V) (fs : List (Frame U V)) : Prop :=
  Ending sh fs ∨ ∃ fs₁, fs = .dropInner (some n) :: fs₁

/-- **An action of a thread is at most one step of the pool.** -/
theorem threadStep_pool {t : ThreadId n m} (h : ThreadStep poll sh t fs sh' fs')
    (hproper : ∀ f ∈ fs, f.Proper) (hlets : Discarding sh fs → lets)
    (hfresh : ∀ task ch b rest, fs = .spawn task ch b :: rest → ∀ u, .spawned ch u ∉ sh.log)
    (W : Multiset (Nat × U)) (R : Multiset (Nat × UserCode U V)) :
    Relation.ReflGen (Pool.Step (Burst.behaviour poll) lets) (sh.pool fs W R)
      (sh'.pool fs' W R) := by
  have hsub := threadStep_submitted h
  cases h with
  -- a thread outside
  | enter | leavePending | leaveReady | leavePanic =>
    rw [pool_cons (f := .user none _) rfl rfl, pool_cons (f := .user none _) rfl rfl]
  -- user code
  | outside task k fs x => exact pool_go task (.outside k x)
  | callSpawn task u k fs =>
    rw [pool_cons (f := .spawn _ _ _) rfl rfl, pool_stay (hsub nofun) rfl]
    exact pool_go task (.spawn u k _)
  | callBlockOn task u k fs =>
    rw [pool_cons (f := .spawn _ _ _) rfl rfl, pool_stay (hsub nofun) rfl]
    exact pool_go task (.blockOn u k)
  | pollHandle task c k fs =>
    rw [pool_stay (hsub nofun) (by rw [pollHandle_eq]; rfl)]
    exact pool_go task (.pollHandle c k _)
  | dropHandle task c k fs =>
    rw [pool_stay (hsub nofun) rfl]
    exact pool_go task (.dropHandle c k)
  | cloneRuntime task k fs =>
    rw [pool_stay (hsub nofun) rfl]
    exact pool_go task (.cloneRuntime k)
  | dropRuntime task k fs =>
    rw [pool_stay (hsub nofun) rfl]
    exact pool_go task (.dropRuntime k)
  | dropLastRuntime task k fs =>
    rw [pool_cons (f := .dropInner _) rfl rfl, pool_stay (hsub nofun) rfl]
    cases t with
    | inl i => exact pool_go task (.dropLastRuntime k)
    | inr o => exact pool_go task (.dropRuntime k)
  | resume r task k fs =>
    rw [pool_cons (f := .result r) rfl rfl]
    exact pool_go task (.resume k r)
  -- a poll ends
  | pendingRun id ch u₀ u l fs =>
    rw [pool_stay (hsub nofun) rfl]
    exact pool_pause id ch u₀ u _
  | pendingHelp id ch u₀ u c l fs => exact pool_pause id ch u₀ u _
  | ready id ch u v fs =>
    rw [pool_cons (f := .sent _) rfl rfl, pool_stay (hsub nofun) rfl]
    exact pool_finish id ch u (Or.inl ⟨v, rfl⟩)
  | panic id ch u fs =>
    rw [pool_cons (f := .result _) rfl rfl, pool_stay (hsub nofun) rfl]
    exact pool_finish id ch u (Or.inr rfl)
  -- the queues
  | requeue left owned fs => rw [pool_requeue left owned (hsub nofun)]
  | spawned task ch fs =>
    exact pool_submit (hproper _ List.mem_cons_self) (hfresh _ _ _ _ rfl) false
  | startBlockOn task ch fs =>
    rw [pool_cons (f := .blockOn _ _) rfl rfl]
    exact pool_submit (hproper _ List.mem_cons_self) (hfresh _ _ _ _ rfl) true
  | help ch l c sh' l' fs _ hh =>
    rw [Executor.help_none hh, pool_cons (f := .blockOn _ _) rfl rfl,
      pool_cons (f := .blockOn _ _) rfl rfl]
  | run i l c sh' l' fs _ _ hh =>
    rw [WorkerThread.step_none hh, pool_cons (f := .run _) rfl rfl, pool_cons (f := .run _) rfl rfl]
  | helpTask ch l c sh' l' task fs hh =>
    have hheld : sh.held Task.job = task.job + sh'.held Task.job := by
      obtain ⟨q, hq, rfl⟩ := Executor.help_some hh
      unfold Shared.held
      rw [hq, holdings_cons, add_assoc]
    exact pool_start (hsub nofun) hheld
  | runTask i l c sh' l' task fs _ hh =>
    exact pool_start (hsub nofun) ((WorkerThread.step_some hh).held _)
  -- tasks are destroyed
  | exit i l _ hpc hshut =>
    rw [pool_cons (f := .run l) rfl rfl]
    exact pool_drop (hlets (Or.inl ⟨l, Or.inr ⟨rfl, hpc, hshut⟩⟩)) (hsub nofun)
      (held_dropWorker _ _ _)
  | unwindRun i l =>
    rw [pool_cons (f := .result _) rfl rfl, pool_cons (f := .run l) rfl rfl]
    exact pool_drop (hlets (Or.inl ⟨l, Or.inl rfl⟩)) (hsub nofun) (held_dropWorker _ _ _)
  | unwindLast i l =>
    rw [pool_cons (f := .dropInner _) rfl rfl]
    exact pool_drop (hlets (Or.inl ⟨l, Or.inl rfl⟩)) (hsub nofun) (held_dropWorker _ _ _)
  | dropSelf i task b fs =>
    rw [pool_cons (f := .dropInner _) rfl rfl, pool_stay (hsub nofun) rfl]
  | dropQueue fs =>
    rw [pool_cons (f := .dropInner _) rfl rfl]
    exact pool_drop (hlets (Or.inr ⟨_, rfl⟩)) (hsub nofun) (add_le_add_left (Multiset.zero_le _) _)
  -- the rest is no business of the pool
  | endWrapped =>
    rw [pool_cons (f := .finished) rfl rfl, pool_cons (f := .sent _) rfl rfl,
      pool_stay (hsub nofun) rfl]
  | finishedRun | finishedHelp =>
    rw [pool_cons (f := .finished) rfl rfl, pool_stay (hsub nofun) rfl]
  | recvOk | recvDisconnected =>
    rw [pool_cons (f := .result _) rfl rfl, pool_cons (f := .blockOn _ _) rfl rfl,
      pool_stay (hsub nofun) rfl]
  | unwindBlockOn =>
    rw [pool_cons (f := .result _) rfl rfl, pool_cons (f := .blockOn _ _) rfl rfl,
      pool_cons (f := .result _) rfl rfl, pool_stay (hsub nofun) rfl]
  | dropSignal | dropJoin =>
    rw [pool_cons (f := .dropInner _) rfl rfl, pool_cons (f := .dropInner _) rfl rfl,
      pool_stay (hsub nofun) rfl]

end Turns

/-! ## Runs -/

/-- Thread `t` is about to destroy queued tasks. -/
def State.Discards (s : State n m U V) (t : ThreadId n m) : Prop :=
  Discarding s.shared (s.threads t)

theorem step_pool {a b : State n m U V} {t : ThreadId n m} (ha : Accounted a)
    (hs : Step poll a t b) :
    Relation.ReflGen (Pool.Step (Burst.behaviour poll) (a.Discards t)) a.pool b.pool := by
  obtain @⟨sh', fs', hs, -⟩ := hs
  -- what is about to be pushed has not been pushed before
  have hfresh : ∀ task ch b rest, a.threads t = .spawn task ch b :: rest →
      ∀ u, .spawned ch u ∉ a.shared.log := by
    intro task ch b rest hfs u hu
    have hmem : .spawn task ch b ∈ a.threads t := hfs ▸ List.mem_cons_self
    have hpushes := ha.unpushed hmem
    have hpos := (pushes_pos_iff ch _).2 ⟨u, hu⟩
    omega
  obtain ⟨W, hW, hW'⟩ := exists_total_eq (holdings Frame.waits) a.threads t
  obtain ⟨R, hR, hR'⟩ := exists_total_eq (holdings Frame.turn) a.threads t
  have hbefore : a.pool = a.shared.pool (a.threads t) W R := by
    unfold State.pool Shared.pool
    rw [hW, hR]
  have hafter : State.pool ⟨sh', update a.threads t fs'⟩ = sh'.pool fs' W R := by
    unfold State.pool Shared.pool
    rw [hW', hR']
  rw [hbefore, hafter]
  exact threadStep_pool hs (ha.proper t) id hfresh W R

theorem pool_init : (State.init n m U V).pool = Pool.empty Nat U (UserCode U V) := by
  have hthreads : ∀ t, holdings Frame.waits ((State.init n m U V).threads t) = 0 ∧
      holdings Frame.turn ((State.init n m U V).threads t) = 0 := by
    rintro (i | i) <;> exact ⟨rfl, rfl⟩
  have hqueues : (State.init n m U V).shared.held Task.job = 0 := by
    show 0 + total (holdings Task.job) (fun _ : Fin n => []) = 0
    rw [zero_add]
    exact Finset.sum_eq_zero fun _ _ => rfl
  ext1
  · exact Set.eq_empty_of_forall_notMem fun _ => List.not_mem_nil
  · show (State.init n m U V).shared.held Task.job + total _ _ = 0
    rw [hqueues, zero_add]
    exact Finset.sum_eq_zero fun t _ => (hthreads t).1
  · show total (holdings Frame.turn) (State.init n m U V).threads = 0
    exact Finset.sum_eq_zero fun t _ => (hthreads t).2

/-- **The executor is a pool, and each task runs as it would alone**, with panics and shutdown: from
every reachable state an action is at most one step of the pool, which drops jobs only where a
worker leaves or `ExecutorInner::drop` ends; and what is queued or in a poll under a number is what
the turns of its future, one after the other, come to. -/
theorem pool_reachable {G : State n m U V → ThreadId n m → Prop} {lets : Prop}
    (hG : ∀ a t, G a t → a.Discards t → lets) {s : State n m U V} (h : Reachable poll G s) :
    (∀ t s', Step poll s t s' →
      Relation.ReflGen (Pool.Step (Burst.behaviour poll) (s.Discards t)) s.pool s'.pool) ∧
    Relation.ReflTransGen (Pool.Step (Burst.behaviour poll) lets) (Pool.empty ..) s.pool ∧
      ∀ ch u, .spawned ch u ∈ s.shared.log →
        ∃ st, s.pool.Tracks (Burst.behaviour poll) lets ch u st := by
  have hpool : Relation.ReflTransGen (Pool.Step (Burst.behaviour poll) lets) (Pool.empty ..)
      s.pool := by
    obtain ⟨ts, hr⟩ := h
    refine hr.invariant_with (R := Accounted)
      (P := fun a => Relation.ReflTransGen _ (Pool.empty ..) a.pool)
      (fun ls _ hr' => accounted_reachable ⟨ls, hr'⟩) ?_ ?_
    · rw [pool_init]
    · intro a t b ha hpool hg hs
      exact hpool.trans ((step_pool ha hs).mono fun _ _ => .mono (hG a t hg)).to_reflTransGen
  exact ⟨fun t s' => step_pool (accounted_reachable h), hpool,
    fun ch u hu => (Pool.solo hpool ch).1 u hu⟩

/-- No queued task is destroyed: the next frame is neither a worker's that leaves nor the last of
`ExecutorInner::drop`. -/
def State.keeps : List (Frame U V) → Bool
  | [.result none, .run _] => false
  | [.run l] => l.pc != .top
  | .dropInner (some _) :: _ => false
  | _ => true

theorem not_discards_of_keeps {s : State n m U V} {t : ThreadId n m}
    (h : State.keeps (s.threads t) = true) : ¬ s.Discards t := by
  rintro (⟨l, hend | ⟨hend, hpc, -⟩⟩ | ⟨fs, hend⟩) <;> rw [hend] at h
  · cases h
  · simp [State.keeps, hpc] at h
  · cases h

/-- One task has been polled and is queued again, the other is in a poll of its caller, and nothing
was dropped. -/
theorem pool_reachable_helped : ∃ s : State 1 1 Sample Nat,
    s.shared.log.filterMap Event.spawn? = [(0, .yield 5), (1, .value 7)] ∧
    (∀ t s', Step Sample.burst s t s' → Relation.ReflGen
      (Pool.Step (Burst.behaviour Sample.burst) (s.Discards t)) s.pool s'.pool) ∧
    Relation.ReflTransGen (Pool.Step (Burst.behaviour Sample.burst) False) (Pool.empty ..) s.pool ∧
    (∃ st, s.pool.Tracks (Burst.behaviour Sample.burst) False 0 (.yield 5) st) ∧
    ∃ st, s.pool.Tracks (Burst.behaviour Sample.burst) False 1 (.value 7) st := by
  obtain ⟨s, hs, hlog⟩ : ∃ s, (State.init 1 1 Sample Nat).execAll
      (fun a t => State.keeps (a.threads t) = true) Sample.burst
      ((.inr 0, .code (.spawn (.yield 5) fun _ => .blockOn (.value 7) fun _ => .ready 0)) ::
        turns (.inr 0) 9 (.steal (.batch 0))) = some s ∧
      s.shared.log.filterMap Event.spawn? = [(0, .yield 5), (1, .value 7)] := ⟨_, rfl, rfl⟩
  have hspawned : ∀ ch u, (ch, u) ∈ s.shared.log.filterMap Event.spawn? →
      .spawned ch u ∈ s.shared.log := by
    intro ch u hmem
    obtain ⟨e, he, heq⟩ := List.mem_filterMap.1 hmem
    cases e <;> cases heq
    exact he
  obtain ⟨hsteps, hpool, hsolo⟩ := pool_reachable
    (fun _ _ hk hd => (not_discards_of_keeps hk hd : False)) ⟨_, State.execAll_run _ hs⟩
  refine ⟨s, hlog, hsteps, hpool, hsolo _ _ (hspawned _ _ ?_), hsolo _ _ (hspawned _ _ ?_)⟩
  · rw [hlog]
    exact List.mem_cons_self
  · rw [hlog]
    exact List.mem_cons_of_mem _ List.mem_cons_self

end Std

end Luminal
