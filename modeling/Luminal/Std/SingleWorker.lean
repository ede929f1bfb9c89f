import Luminal.NoStd.RoundRobin
import Luminal.Std.Delivery
import Luminal.Std.Exec

/-!
# One worker is a round-robin server

With one worker and no thread inside `block_on`, the worker's deque followed by the global
queue is one FIFO queue: each step of the executor is a step of `RoundRobin` on it, or none
(`step_roundRobin`).  Order survives because a batch is stolen only into an empty deque and
everything is pushed to the global queue.
-/

namespace Luminal.Std

open Function Transition Fifo

variable {m : Nat} {U V : Type} {poll : U → Burst U V}

/-! ## The abstract queue -/

/-- The queue operations in a log, tasks named by their spawns. -/
def ops (log : List (Event U V)) : List (Op Nat) :=
  log.filterMap fun
    | .spawned ch _ => some (.arrive ch)
    | .polled ch => some (.take ch)
    | .requeued ch => some (.back ch)
    | .ready ch => some (.leave ch)
    | _ => none

@[simp] theorem ops_append (l l' : List (Event U V)) : ops (l ++ l') = ops l ++ ops l' := by
  simp [ops]

/-- The task that has been popped: in its poll, or `Pending` and on its way back. -/
inductive Hand (U : Type) where
  | free
  | polled (task : Task U)
  | pending (task : Task U)

def Hand.ch? : Hand U → Option Nat
  | .free => none
  | .polled task | .pending task => task.ch?

/-- One unbounded FIFO queue and the task in hand: the front is popped and polled, and pushed to the
back, with the future that its poll left, if `Pending`.  The second argument is what the log records
of it. -/
inductive RoundRobin (poll : U → Burst U V) : List (Task U) × Hand U → List (Event U V) →
    List (Task U) × Hand U → Prop
  | idle {q : List (Task U)} {hand : Hand U} {l : List (Event U V)} : ops l = [] →
      RoundRobin poll (q, hand) l (q, hand)
  | spawn {q : List (Task U)} {hand : Hand U} (id : TaskId) (ch : Nat) (u : U) :
      RoundRobin poll (q, hand) [.spawned ch u] (q ++ [⟨id, .wrapped ch u⟩], hand)
  | poll {q : List (Task U)} (id : TaskId) (ch : Nat) (u : U) :
      RoundRobin poll (⟨id, .wrapped ch u⟩ :: q, .free) [.polled ch]
        (q, .polled ⟨id, .wrapped ch u⟩)
  | pending {q : List (Task U)} (id : TaskId) (ch : Nat) {u u' : U} :
      Leaf (poll u) (.pending u') →
      RoundRobin poll (q, .polled ⟨id, .wrapped ch u⟩) [] (q, .pending ⟨id, .wrapped ch u'⟩)
  | requeue {q : List (Task U)} (id : TaskId) (ch : Nat) (u : U) :
      RoundRobin poll (q, .pending ⟨id, .wrapped ch u⟩) [.requeued ch]
        (q ++ [⟨id, .wrapped ch u⟩], .free)
  | ready {q : List (Task U)} (id : TaskId) (ch : Nat) {u : U} {v : V} :
      Leaf (poll u) (.ready v) →
      RoundRobin poll (q, .polled ⟨id, .wrapped ch u⟩) [.ready ch] (q, .free)

theorem RoundRobin.replays {q q' : List (Task U)} {h h' : Hand U} {l : List (Event U V)}
    {o : List (Op Nat)} (hs : RoundRobin poll (q, h) l (q', h'))
    (hr : Replays o ⟨q.filterMap Task.ch?, h.ch?⟩) :
    Replays (o ++ ops l) ⟨q'.filterMap Task.ch?, h'.ch?⟩ := by
  cases hs with
  | idle hl => rwa [hl, List.append_nil]
  | spawn id ch u => simpa [ops] using hr.arrive ch
  | poll id ch u =>
    rw [List.filterMap_cons_some (Task.ch?_wrapped id ch u)] at hr
    exact hr.take
  | pending id ch _ => simpa [ops, Hand.ch?] using hr
  | requeue id ch u => simpa [ops, Hand.ch?] using hr.back
  | ready id ch _ => exact hr.leave

/-! ## The executor with one worker -/

/-- The worker's deque followed by the global queue. -/
def Shared.line (sh : Shared 1 U V) : List (Task U) := sh.locals 0 ++ sh.globalQueue

/-- The task that a stack is polling, or has polled and not yet pushed back. -/
def handOf : List (Frame U V) → Hand U
  | .user (some p) _ :: _ => .polled p
  | .sent p :: _ => .polled p
  | .requeue _ p :: _ => .pending p
  | .spawn .. :: fs => handOf fs
  | _ => .free

def State.hand (s : State 1 m U V) : Hand U := handOf (s.threads (.inl 0))

/-- Thread `t` does not call `block_on`, panic, or start the shutdown. -/
def State.Plain (s : State 1 m U V) (t : ThreadId 1 m) : Prop :=
  s.Calm t ∧ ¬ ∃ task u k fs, s.threads t = .user task (.run (.blockOn u k)) :: fs

/-- `b` is what is left of a poll of `u`: it ends as that can end. -/
def Remains (poll : U → Burst U V) (u : U) (b : Burst U V) : Prop :=
  ∀ x, Leaf b x → Leaf (poll u) x

/-- The stacks of a worker that never calls `block_on`, with the state of its loop. -/
inductive Serving (poll : U → Burst U V) : List (Frame U V) → RunLoop → Prop
  | loop (l : RunLoop) : Serving poll [.run l] l
  | finished (l : RunLoop) : Serving poll [.finished, .run l] l
  | polling (id : TaskId) (ch : Nat) (u : U) (b : Burst U V) (l : RunLoop) : Remains poll u b →
      Serving poll [.user (some ⟨id, .wrapped ch u⟩) (.run b), .run l] l
  | spawning (task : Task U) (c : Nat) (id : TaskId) (ch : Nat) (u : U) (b : Burst U V)
      (l : RunLoop) : Remains poll u b →
      Serving poll [.spawn task c false, .user (some ⟨id, .wrapped ch u⟩) (.run b), .run l] l
  | sent (id : TaskId) (ch : Nat) {u : U} {v : V} (l : RunLoop) : Leaf (poll u) (.ready v) →
      Serving poll [.sent ⟨id, .wrapped ch u⟩, .run l] l
  | requeue (left : Option (Task U)) (id : TaskId) (ch : Nat) (u : U) (l : RunLoop) :
      Serving poll [.requeue left ⟨id, .wrapped ch u⟩, .run l] l

/-- The stacks of a thread outside that never calls `block_on`. -/
inductive Outside : List (Frame U V) → Prop
  | idle : Outside [.user none .idle]
  | code (b : Burst U V) : Outside [.user none (.run b)]
  | spawning (task : Task U) (c : Nat) (b : Burst U V) :
      Outside [.spawn task c false, .user none (.run b)]

/-- The worker is about to steal from the global queue. -/
def RunLoop.Steals (l : RunLoop) : Prop := l.pc = .steal ∨ l.pc = .stealRetry

theorem WorkerThread.steals_of_none {i : Fin 1} {sh sh' : Shared 1 U V} {l l' : RunLoop}
    {c : StealChoice} (h : WorkerThread.step i sh l c = (sh', l', none))
    (hl : l.Steals → sh.locals i = []) : l'.Steals → sh.locals i = [] := by
  unfold RunLoop.Steals at *
  unfold WorkerThread.step at h
  split at h
  · cases h
    simp
  · split at h <;> cases h
    next hq => exact fun _ => hq
  · next hpc =>
    split at h <;> cases h
    · exact fun _ => hl (Or.inl hpc)
    · simp
  · split at h <;> cases h
    simp
  · split at h
    · split at h
      · cases h
        simp
      · cases h
        simp
      · split at h <;> cases h
        simp
    · cases h
      simp
  · split at h
    · split at h <;> cases h
      simp
    · cases h
      simp
  · cases h
    simp

theorem WorkerThread.steals_of_some {i : Fin 1} {sh sh' : Shared 1 U V} {l l' : RunLoop}
    {c : StealChoice} {task : Task U} (h : WorkerThread.step i sh l c = (sh', l', some task)) :
    ¬ l'.Steals := by
  unfold RunLoop.Steals
  unfold WorkerThread.step at h
  split at h
  · cases h
  · next hpc =>
    split at h <;> cases h
    simp [hpc]
  · split at h <;> cases h
    simp
  · split at h <;> cases h
    simp
  · split at h
    · split at h
      · cases h
      · cases h
      · split at h <;> cases h
        simp
    · cases h
  · split at h
    · split at h <;> cases h
      simp
    · cases h
  · cases h

/-- **The worker takes the front of the line**, whatever the batch and the retries. -/
theorem Took.line {sh sh' : Shared 1 U V} {l : RunLoop} {task : Task U}
    (h : Took 0 sh l.pc task sh') (hl : l.Steals → sh.locals 0 = []) :
    sh.line = task :: sh'.line := by
  unfold Shared.line
  cases h with
  | pop q _ hq => simp [hq]
  | batch k q hpc hq => simp [hq, hl (Or.inl hpc)]
  | steal q hpc hq => simp [hq, hl (Or.inr hpc)]
  | peerBatch d k q hd hq => exact absurd hd (by omega)
  | peer d q hd hq => exact absurd hd (by omega)

/-- What `State.Plain` says of the stack that moves. -/
def PlainStack (sh : Shared 1 U V) (fs : List (Frame U V)) : Prop :=
  (∀ task rest, fs ≠ .user (some task) (.run .panic) :: rest) ∧
  (∀ task k rest, fs = .user task (.run (.dropRuntime k)) :: rest → sh.owners ≠ 1) ∧
  ∀ task u k rest, fs ≠ .user task (.run (.blockOn u k)) :: rest

theorem line_pollHandle (sh : Shared 1 U V) (c : Nat) :
    (sh.pollHandle c).2.line = sh.line ∧ (sh.pollHandle c).2.locals = sh.locals ∧
    ∃ ev, (sh.pollHandle c).2.log = sh.log ++ ev ∧ ops ev = [] := by
  unfold Shared.pollHandle
  split
  · exact ⟨rfl, rfl, _, rfl, rfl⟩
  · exact ⟨rfl, rfl, [], by simp, rfl⟩

/-- **An action of the worker is a step of the round-robin queue, or none.** -/
theorem worker_roundRobin {sh sh' : Shared 1 U V} {fs fs' : List (Frame U V)} {l : RunLoop}
    (hs : ThreadStep (m := m) poll sh (.inl 0) fs sh' fs') (hf : Serving poll fs l)
    (hl : l.Steals → sh.locals 0 = []) (hp : PlainStack sh fs) (hrun : sh.shutdown = false)
    (hq : ∀ p, Queues sh p → p.ch?.isSome) (hprop : ∀ f ∈ fs, f.Proper) :
    (∃ l', Serving poll fs' l' ∧ (l'.Steals → sh'.locals 0 = [])) ∧
    ∃ ev, sh'.log = sh.log ++ ev ∧
    RoundRobin poll (sh.line, handOf fs) ev (sh'.line, handOf fs') := by
  have hidle : ∀ {hand : Hand U}, ∃ ev : List (Event U V), sh.log = sh.log ++ ev ∧
      RoundRobin poll (sh.line, hand) ev (sh.line, hand) :=
    ⟨[], by simp, .idle rfl⟩
  cases hf with
  | loop =>
    cases hs with
    | exit i l _ _ hshut =>
      rw [hrun] at hshut
      cases hshut
    | run i l c sh' l' fs ht _ hh =>
      cases ht
      obtain rfl := WorkerThread.step_none hh
      exact ⟨⟨l', .loop l', WorkerThread.steals_of_none hh hl⟩, hidle⟩
    | runTask i l c sh₁ l' task fs ht hh =>
      cases ht
      have htook := WorkerThread.step_some hh
      have hline := htook.line hl
      have hch := hq task htook.taken
      have hno := WorkerThread.steals_of_some hh
      obtain ⟨id, ⟨ch, u⟩ | _⟩ := task
      · refine ⟨⟨l', .polling id ch u _ l' fun _ hy => hy, fun h => absurd h hno⟩, [.polled ch],
          ?_, ?_⟩
        · rw [htook.eq]
          rfl
        · rw [hline]
          exact .poll id ch u
      · cases hch
  | finished =>
    cases hs with
    | finishedRun l fs => exact ⟨⟨l, .loop l, hl⟩, hidle⟩
  | polling id ch u b l hb =>
    cases hs with
    | outside task k fs x =>
      exact ⟨⟨l, .polling _ _ _ _ _ fun y hy => hb y (.outside x hy), hl⟩, hidle⟩
    | callSpawn task w k fs _ =>
      refine ⟨⟨l, .spawning _ _ _ _ _ _ _ fun y hy => hb y (.spawn w _ hy), hl⟩,
        [.created sh.spawned w], rfl, .idle rfl⟩
    | callBlockOn task w k fs _ => exact absurd rfl (hp.2.2 _ _ _ _)
    | pollHandle task c k fs _ =>
      obtain ⟨h1, h2, ev, h3, h4⟩ := line_pollHandle sh c
      refine ⟨⟨l, .polling _ _ _ _ _ fun y hy => hb y (.pollHandle c _ hy), fun h => ?_⟩,
        ev, h3, ?_⟩
      · rw [h2]
        exact hl h
      · rw [h1]
        exact .idle h4
    | dropHandle task c k fs _ =>
      exact ⟨⟨l, .polling _ _ _ _ _ fun y hy => hb y (.dropHandle c hy), hl⟩, [],
        by simp [Shared.dropReceiver], .idle rfl⟩
    | cloneRuntime task k fs _ =>
      exact ⟨⟨l, .polling _ _ _ _ _ fun y hy => hb y (.cloneRuntime hy), hl⟩, hidle⟩
    | dropRuntime task k fs _ =>
      exact ⟨⟨l, .polling _ _ _ _ _ fun y hy => hb y (.dropRuntime hy), hl⟩, hidle⟩
    | dropLastRuntime task k fs hown => exact absurd hown (hp.2.1 _ _ _ rfl)
    | pendingRun id ch u₀ u l fs =>
      exact ⟨⟨l, .requeue .., hl⟩, [], by simp, .pending id ch (hb _ (.pending u))⟩
    | ready id ch u v fs =>
      exact ⟨⟨l, .sent _ _ _ (hb _ (.ready v)), hl⟩, [.sent ch v], rfl, .idle rfl⟩
    | panic id ch u fs => exact absurd rfl (hp.1 _ _)
  | spawning task c id ch u b l hb =>
    cases hs with
    | spawned =>
      obtain ⟨id', ⟨c', w⟩ | _⟩ := task
      · refine ⟨⟨l, .polling _ _ _ _ _ hb, hl⟩, [.spawned c' w], rfl, ?_⟩
        have : (sh.pushSpawned ⟨id', .wrapped c' w⟩ c false).line =
            sh.line ++ [⟨id', .wrapped c' w⟩] := by simp [Shared.line, Shared.pushSpawned]
        rw [this]
        exact .spawn id' c' w
      · have := hprop _ List.mem_cons_self
        cases this
  | sent id ch l hb =>
    cases hs with
    | endWrapped => exact ⟨⟨l, .finished l, hl⟩, [.ready ch], rfl, .ready id ch hb⟩
  | requeue left id ch u l =>
    cases hs with
    | requeue =>
      refine ⟨⟨l, .loop l, hl⟩, [.requeued ch], rfl, ?_⟩
      have : (sh.pushPending ⟨id, .wrapped ch u⟩).line = sh.line ++ [⟨id, .wrapped ch u⟩] := by
        simp [Shared.line, Shared.pushPending]
      rw [this]
      exact .requeue id ch u

/-- An action of a thread outside spawns at most. -/
theorem outside_roundRobin {sh sh' : Shared 1 U V} {fs fs' : List (Frame U V)} {i : Fin m}
    (hs : ThreadStep poll sh (.inr i) fs sh' fs') (hf : Outside fs) (hp : PlainStack sh fs)
    (hprop : ∀ f ∈ fs, f.Proper) (hand : Hand U) :
    Outside fs' ∧ sh'.locals = sh.locals ∧
    ∃ ev, sh'.log = sh.log ++ ev ∧ RoundRobin poll (sh.line, hand) ev (sh'.line, hand) := by
  have hidle : ∃ ev : List (Event U V), sh.log = sh.log ++ ev ∧
      RoundRobin poll (sh.line, hand) ev (sh.line, hand) :=
    ⟨[], by simp, .idle rfl⟩
  cases hf with
  | idle =>
    cases hs with
    | enter b => exact ⟨.code b, rfl, hidle⟩
  | code b =>
    cases hs with
    | leavePending | leaveReady | leavePanic => exact ⟨.idle, rfl, hidle⟩
    | outside | cloneRuntime | dropRuntime => exact ⟨.code _, rfl, hidle⟩
    | callSpawn task w k fs _ =>
      exact ⟨.spawning .., rfl, [.created sh.spawned w], rfl, .idle rfl⟩
    | callBlockOn task w k fs _ => exact absurd rfl (hp.2.2 _ _ _ _)
    | pollHandle task c k fs _ =>
      obtain ⟨h1, h2, ev, h3, h4⟩ := line_pollHandle sh c
      refine ⟨.code _, h2, ev, h3, ?_⟩
      rw [h1]
      exact .idle h4
    | dropHandle => exact ⟨.code _, rfl, [], by simp [Shared.dropReceiver], .idle rfl⟩
    | dropLastRuntime task k fs hown => exact absurd hown (hp.2.1 _ _ _ rfl)
  | spawning task c b =>
    cases hs with
    | spawned =>
      obtain ⟨id', ⟨c', w⟩ | _⟩ := task
      · refine ⟨.code b, rfl, [.spawned c' w], rfl, ?_⟩
        have : (sh.pushSpawned ⟨id', .wrapped c' w⟩ c false).line =
            sh.line ++ [⟨id', .wrapped c' w⟩] := by simp [Shared.line, Shared.pushSpawned]
        rw [this]
        exact .spawn id' c' w
      · have := hprop _ List.mem_cons_self
        cases this

/-! ## Whole runs -/

structure Single (poll : U → Burst U V) (s : State 1 m U V) : Prop where
  /-- the deque is empty when the worker steals -/
  worker : ∃ l, Serving poll (s.threads (.inl 0)) l ∧ (l.Steals → s.shared.locals 0 = [])
  outside : ∀ i, Outside (s.threads (.inr i))
  replays : Replays (ops s.shared.log) ⟨s.shared.line.filterMap Task.ch?, s.hand.ch?⟩

theorem single_init : Single poll (State.init 1 m U V) where
  worker := ⟨.start, .loop _, fun _ => rfl⟩
  outside _ := .idle
  replays := .nil

theorem State.Plain.stack {s : State 1 m U V} {t : ThreadId 1 m} (h : s.Plain t) :
    PlainStack s.shared (s.threads t) := by
  obtain ⟨⟨h1, h2⟩, h3⟩ := h
  refine ⟨fun task rest hfs => h1 ⟨task, rest, hfs⟩, fun task k rest hfs hown => ?_, ?_⟩
  · exact h2 ⟨hown, task, k, rest, hfs⟩
  · exact fun task u k rest hfs => h3 ⟨task, u, k, rest, hfs⟩

/-- **Each step of the executor is one of the round-robin queue, or none.** -/
theorem step_roundRobin {s s' : State 1 m U V} {t : ThreadId 1 m} (ha : Accounted s)
    (hrun : s.shared.shutdown = false) (h : Single poll s) (hG : s.Plain t)
    (hs : Step poll s t s') :
    ((∃ l, Serving poll (s'.threads (.inl 0)) l ∧ (l.Steals → s'.shared.locals 0 = [])) ∧
      ∀ i, Outside (s'.threads (.inr i))) ∧
    ∃ ev, s'.shared.log = s.shared.log ++ ev ∧
      RoundRobin poll (s.shared.line, s.hand) ev (s'.shared.line, s'.hand) := by
  obtain @⟨sh', fs', hs, -⟩ := hs
  cases t with
  | inl i =>
    obtain rfl := Subsingleton.elim i 0
    obtain ⟨l, hl, hsteal⟩ := h.worker
    obtain ⟨hw, hev⟩ := worker_roundRobin hs hl hsteal hG.stack hrun ha.queues (ha.proper _)
    refine ⟨⟨?_, fun i => ?_⟩, ?_⟩
    · simpa using hw
    · simpa using h.outside i
    · simpa [State.hand] using hev
  | inr i =>
    obtain ⟨ho, hlocals, hev⟩ :=
      outside_roundRobin hs (h.outside i) hG.stack (ha.proper _) s.hand
    refine ⟨⟨?_, fun j => ?_⟩, ?_⟩
    · simpa [hlocals] using h.worker
    · by_cases hj : j = i
      · subst hj
        simpa using ho
      · simpa [hj] using h.outside j
    · simpa [State.hand] using hev

theorem single_step {s s' : State 1 m U V} {t : ThreadId 1 m} (ha : Accounted s)
    (hrun : s.shared.shutdown = false) (h : Single poll s) (hG : s.Plain t)
    (hs : Step poll s t s') :
    Single poll s' := by
  obtain ⟨⟨hw, ho⟩, ev, hlog, hrr⟩ := step_roundRobin ha hrun h hG hs
  refine ⟨hw, ho, ?_⟩
  rw [hlog, ops_append]
  exact hrr.replays h.replays

theorem State.Plain.calm (s : State 1 m U V) (t : ThreadId 1 m) (h : s.Plain t) : s.Calm t := h.1

theorem single_reachable {s : State 1 m U V} (h : Reachable poll State.Plain s) : Single poll s :=
  h.elim fun _ hr => hr.invariant_with (R := fun s => Accounted s ∧ Quiet s)
    (fun ls _ hr' => ⟨accounted_reachable ⟨ls, hr'⟩,
      quiet_reachable ⟨ls, hr'.mono State.Plain.calm⟩⟩) single_init
    fun _ _ _ ha h hG hs => single_step ha.1 ha.2.running h hG hs

/-- **Work stealing with one worker refines a plain FIFO queue.**  The worker's deque followed by
the global queue takes the steps of `RoundRobin`.  And the tasks are polled in the order of the
no_std executor's loop on an unbounded queue: that loop has a run with the same sequence of spawns
and outcomes of polls, and each such run, of whatever futures, polls the tasks of the same
spawns, the `is`-th ones, up to a poll in progress. -/
theorem single_worker_fifo {s : State 1 m U V} (h : Reachable poll State.Plain s) :
    (∀ t s', s.Plain t → Step poll s t s' → ∃ ev, s'.shared.log = s.shared.log ++ ev ∧
      RoundRobin poll (s.shared.line, s.hand) ev (s'.shared.line, s'.hand)) ∧
    (∃ c as r, NoStd.OpenRun NoStd.anyOutcome
        ⟨NoStd.SimpleExecutor.new Unit Nat, NoStd.loopStack c (.poll 0)⟩ as r ∧
      inputs (ops s.shared.log) = inputs (NoStd.ops r.shared.log)) ∧
    ∀ (U' V' : Type) (poll' : U' → Burst U' V') (fs : List (NoStd.Frame U' V'))
      (as : List (NoStd.Answer U' V')) (r : NoStd.State U' V'), NoStd.Looping fs none →
      NoStd.OpenRun poll' ⟨NoStd.SimpleExecutor.new U' V', fs⟩ as r →
      inputs (ops s.shared.log) = inputs (NoStd.ops r.shared.log) →
      ∃ (is : List Nat) (hand : Option Nat), NoStd.Looping r.stack hand ∧
        (taken (ops s.shared.log)).map some <+:
          is.map (fun i => (arrived (ops s.shared.log))[i]?) ∧
        (taken (NoStd.ops r.shared.log)).map some <+:
          is.map (fun i => (arrived (NoStd.ops r.shared.log))[i]?) ∧
        (taken (ops s.shared.log)).length + hand.toList.length =
          (taken (NoStd.ops r.shared.log)).length + s.hand.ch?.toList.length := by
  have hsingle := single_reachable h
  have ha := accounted_reachable h
  have hquiet := quiet_reachable (h.imp fun _ hr => hr.mono State.Plain.calm)
  refine ⟨?_, ?_, ?_⟩
  · intro t s' hG hs
    exact (step_roundRobin ha hquiet.running hsingle hG hs).2
  · obtain ⟨as, r, hrun, hf⟩ := NoStd.exists_follows hsingle.replays (le_refl _)
    exact ⟨_, as, r, hrun, hf.inputs.symm⟩
  · intro U' V' poll' fs as r hfs hr hin
    obtain ⟨hand, hloop, hrep⟩ := NoStd.replays_openRun hfs hr
    obtain ⟨is, h1, h2, h3⟩ := hsingle.replays.same_order hrep hin
    exact ⟨is, hand, hloop, h1, h2, h3⟩

/-- The top frame calls `block_on`. -/
def State.callsBlockOn : List (Frame U V) → Bool
  | .user _ (.run (.blockOn ..)) :: _ => true
  | _ => false

instance (s : State 1 m U V) (t : ThreadId 1 m) : Decidable (s.Plain t) :=
  decidable_of_iff (s.Calm t ∧ State.callsBlockOn (s.threads t) = false) <| by
    unfold State.Plain
    refine and_congr_right fun _ => ?_
    unfold State.callsBlockOn
    split
    · next heq => simp [heq]
    · next hno =>
      refine iff_of_true rfl ?_
      rintro ⟨task, u, k, fs, heq⟩
      exact hno _ _ _ _ heq

/-- Two tasks, the first of which yields once: polled in turn, the first one again. -/
theorem single_worker_fifo_two : ∃ s : State 1 1 Sample Nat,
    taken (ops s.shared.log) = [0, 1, 0] ∧
    ∃ c as r, NoStd.OpenRun NoStd.anyOutcome
        ⟨NoStd.SimpleExecutor.new Unit Nat, NoStd.loopStack c (.poll 0)⟩ as r ∧
      inputs (ops s.shared.log) = inputs (NoStd.ops r.shared.log) := by
  obtain ⟨s, hr, hs⟩ := reachable_of_exec Sample.burst (G := State.Plain)
    (P := fun s : State 1 1 Sample Nat => taken (ops s.shared.log) = [0, 1, 0])
    ((.inr 0, .code (Sample.spawns [.yield 5, .value 7])) :: turns (.inr 0) 4 (.answer 0) ++
      turns (.inl 0) 22 (.steal (.batch 0))) (by decide)
  exact ⟨s, hs, (single_worker_fifo hr).2.1⟩

end Luminal.Std
