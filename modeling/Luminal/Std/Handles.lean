import Luminal.Std.Placement

/-!
# What a `JoinHandle` sees

The value a handle yields is an output of the future that was spawned
(`derived_reachable`).  A handle whose poll is `Pending` belongs to a task that is alive,
unless the task was destroyed: `JoinHandle::poll` answers `Disconnected` like `Empty`
(`pending_alive_iff`).
-/

namespace Luminal.Std

open Function Transition

variable {n m : Nat} {U V : Type} {poll : U → Burst U V}

/-! ## Outputs -/

/-- All that the burst can output, the future passed to spawn `ch` can. -/
def Origin (poll : U → Burst U V) (log : List (Event U V)) (ch : Nat) (b : Burst U V) : Prop :=
  ∃ u, .spawned ch u ∈ log ∧ ∀ v, Outputs poll v b → Outputs poll v (poll u)

theorem Origin.append {log : List (Event U V)} {ch : Nat} {b : Burst U V}
    (h : Origin poll log ch b) (l : List (Event U V)) : Origin poll (log ++ l) ch b := by
  obtain ⟨u, hu, hb⟩ := h
  exact ⟨u, List.mem_append_left _ hu, hb⟩

theorem Origin.sub {log : List (Event U V)} {ch : Nat} {b b' : Burst U V}
    (h : Origin poll log ch b) (hb : ∀ v, Outputs poll v b' → Outputs poll v b) :
    Origin poll log ch b' := by
  obtain ⟨u, hu, hout⟩ := h
  exact ⟨u, hu, fun v hv => hout v (hb v hv)⟩

/-- The rest of a user's burst, or the futures it can go on with, come from its task's spawn. -/
def CodeOrigin (poll : U → Burst U V) (log : List (Event U V)) (ch : Nat) :
    UserCode U V → Prop
  | .run b => Origin poll log ch b
  | .wait k => ∀ r, Origin poll log ch (k r)
  | .idle => True

/-- What a future yet to be polled can output, it could when it was spawned. -/
def TaskOrigin (poll : U → Burst U V) (log : List (Event U V)) (p : Task U) : Prop :=
  ∀ ch u, p.future = .wrapped ch u → Origin poll log ch (poll u)

def Frame.Derived (poll : U → Burst U V) (log : List (Event U V)) : Frame U V → Prop
  | .user task code => ∀ p ∈ task, ∀ ch ∈ p.ch?, CodeOrigin poll log ch code
  | .requeue _ owned => TaskOrigin poll log owned
  | _ => True

theorem Frame.Derived.append {log : List (Event U V)} {f : Frame U V} (h : f.Derived poll log)
    (l : List (Event U V)) : f.Derived poll (log ++ l) := by
  cases f with
  | user task code =>
    intro p hp ch hch
    have := h p hp ch hch
    cases code with
    | idle => trivial
    | run b => exact Origin.append this l
    | wait k => exact fun r => (this r).append l
  | requeue left owned => exact fun ch u hf => (h ch u hf).append l
  | _ => trivial

theorem Frame.derived_beginPoll {sh : Shared n U V} {task : Task U} {log : List (Event U V)}
    (h : TaskOrigin poll log task) : (sh.beginPoll poll task).2.Derived poll log := by
  unfold Shared.beginPoll
  split
  · next ch u hf =>
    intro p hp c hc
    cases hp
    unfold Task.ch? at hc
    rw [hf] at hc
    cases hc
    exact h ch u hf
  · trivial

/-- Every unfinished task derives from its spawn, and so does every value sent. -/
structure Derived (poll : U → Burst U V) (s : State n m U V) : Prop where
  queues : ∀ p, Queues s.shared p → TaskOrigin poll s.shared.log p
  frames : ∀ t, ∀ f ∈ s.threads t, f.Derived poll s.shared.log
  sent : ∀ ch v, .sent ch v ∈ s.shared.log →
    ∃ u, .spawned ch u ∈ s.shared.log ∧ Outputs poll v (poll u)

/-- **Each action keeps tasks and results derived from their spawns.** -/
theorem threadStep_derived {sh sh' : Shared n U V} {t : ThreadId n m} {fs fs' : List (Frame U V)}
    (h : ThreadStep poll sh t fs sh' fs')
    (hq : ∀ p, Queues sh p → TaskOrigin poll sh.log p)
    (hf : ∀ f ∈ fs, f.Derived poll sh.log)
    (hs : ∀ ch v, .sent ch v ∈ sh.log → ∃ u, .spawned ch u ∈ sh.log ∧ Outputs poll v (poll u)) :
    (∀ p, Queues sh' p → TaskOrigin poll sh'.log p) ∧ (∀ f ∈ fs', f.Derived poll sh'.log) ∧
    ∀ ch v, .sent ch v ∈ sh'.log → ∃ u, .spawned ch u ∈ sh'.log ∧ Outputs poll v (poll u) := by
  obtain ⟨l, hl, he⟩ := threadStep_log h
  -- what was known before is known of the longer log
  have hq' : ∀ p, Queues sh p → TaskOrigin poll sh'.log p := fun p hp ch u hpu => by
    rw [hl]
    exact (hq p hp ch u hpu).append l
  have hf' : ∀ f ∈ fs, f.Derived poll sh'.log := fun f hmem => by
    rw [hl]
    exact (hf f hmem).append l
  have hsent : ∀ ch v, .sent ch v ∈ sh'.log →
      ∃ u, .spawned ch u ∈ sh'.log ∧ Outputs poll v (poll u) := by
    intro ch v hmem
    rw [hl] at hmem ⊢
    rcases List.mem_append.1 hmem with hmem | hmem
    · obtain ⟨u, hu, hout⟩ := hs ch v hmem
      exact ⟨u, List.mem_append_left _ hu, hout⟩
    · cases he with
      | sent id c u w fs₁ hfs =>
        cases List.mem_singleton.1 hmem
        subst hfs
        obtain ⟨u₀, hu₀, hout⟩ := hf _ List.mem_cons_self _ rfl ch rfl
        exact ⟨u₀, List.mem_append_left _ hu₀, hout v Outputs.ready⟩
      | destroyed tasks => simp at hmem
      | _ => simp at hmem
  refine ⟨fun p hp => ?_, ?_, hsent⟩
  · rcases threadStep_queues h hp with hp | ⟨left, fs₁, hfs⟩ | ⟨ch, b, fs₁, hfs⟩
    · exact hq' p hp
    · exact hf' _ (hfs ▸ List.mem_cons_self)
    · -- the push of a new task logs the future it came with
      intro c u hpu
      subst hfs
      obtain ⟨id, fut⟩ := p
      cases hpu
      refine ⟨u, ?_, fun v hv => hv⟩
      cases h <;> exact List.mem_append_right _ List.mem_cons_self
  · clear hq hf hs hl he hsent
    cases h with
    | outside task k fs x =>
      simp only [List.forall_mem_cons] at hf' ⊢
      exact ⟨fun p hp ch hch => (hf'.1 p hp ch hch).sub fun v hv => hv.outside x, hf'.2⟩
    | callSpawn task u k fs _ =>
      simp only [List.forall_mem_cons] at hf' ⊢
      exact ⟨trivial, fun p hp ch hch => (hf'.1 p hp ch hch).sub fun v hv => hv.spawn _, hf'.2⟩
    | callBlockOn task u k fs _ =>
      simp only [List.forall_mem_cons] at hf' ⊢
      exact ⟨trivial, fun p hp ch hch r => (hf'.1 p hp ch hch).sub fun v hv => hv.blockOn r,
        hf'.2⟩
    | pollHandle task c k fs _ =>
      simp only [List.forall_mem_cons] at hf' ⊢
      exact ⟨fun p hp ch hch => (hf'.1 p hp ch hch).sub fun v hv => hv.pollHandle _, hf'.2⟩
    | dropHandle task c k fs _ =>
      simp only [List.forall_mem_cons] at hf' ⊢
      exact ⟨fun p hp ch hch => (hf'.1 p hp ch hch).sub fun v hv => hv.dropHandle, hf'.2⟩
    | cloneRuntime task k fs _ =>
      simp only [List.forall_mem_cons] at hf' ⊢
      exact ⟨fun p hp ch hch => (hf'.1 p hp ch hch).sub fun v hv => hv.cloneRuntime, hf'.2⟩
    | dropRuntime task k fs _ =>
      simp only [List.forall_mem_cons] at hf' ⊢
      exact ⟨fun p hp ch hch => (hf'.1 p hp ch hch).sub fun v hv => hv.dropRuntime, hf'.2⟩
    | dropLastRuntime task k fs _ =>
      simp only [List.forall_mem_cons] at hf' ⊢
      refine ⟨trivial, fun p hp ch hch => (hf'.1 p hp ch hch).sub fun v hv => ?_, hf'.2⟩
      exact .dropRuntime (afterDrop_code t (P := fun b => Outputs poll v b → Outputs poll v k)
        nofun id hv)
    | enter b fs | leavePending u fs | leaveReady v fs | leavePanic fs =>
      simp only [List.forall_mem_cons] at hf' ⊢
      exact ⟨nofun, hf'.2⟩
    | pendingRun id c u₀ u l fs | pendingHelp id c u₀ u b l fs =>
      simp only [List.forall_mem_cons] at hf' ⊢
      refine ⟨fun ch w hw => ?_, hf'.2⟩
      cases hw
      exact Origin.sub (hf'.1 _ rfl c rfl) fun v hv => hv.pending
    | helpTask c l ch' sh₁ l' task fs hh =>
      obtain ⟨q, hgq, rfl⟩ := Executor.help_some hh
      simp only [List.forall_mem_cons] at hf' ⊢
      exact ⟨Frame.derived_beginPoll (hq' _ (Or.inl (hgq ▸ List.mem_cons_self))), trivial, hf'.2⟩
    | runTask i l c sh₁ l' task fs _ hh =>
      simp only [List.forall_mem_cons] at hf' ⊢
      exact ⟨Frame.derived_beginPoll (hq' _ (WorkerThread.step_some hh).taken), trivial, hf'.2⟩
    | resume r task k fs =>
      simp only [List.forall_mem_cons] at hf' ⊢
      exact ⟨fun p hp ch hch => hf'.2.1 p hp ch hch r, hf'.2.2⟩
    | unwindRun | unwindLast | exit => simp [Frame.Derived]
    | _ =>
      simp only [List.forall_mem_cons] at hf' ⊢
      first
        | exact ⟨trivial, hf'.2⟩
        | exact hf'.2

theorem derived_reachable {G : State n m U V → ThreadId n m → Prop} {s : State n m U V}
    (h : Reachable poll G s) : Derived poll s := by
  obtain ⟨ts, hr⟩ := h
  refine hr.invariant ⟨?_, ?_, nofun⟩ fun a t b ha _ hs => ?_
  · rintro p (h | ⟨i, h⟩) <;> cases h
  · rintro (i | i) f hf <;> cases List.mem_singleton.1 hf
    · trivial
    · rintro p ⟨⟩
  · obtain @⟨sh', fs', hs, -⟩ := hs
    obtain ⟨h1, h2, h3⟩ := threadStep_derived hs ha.queues (ha.frames t) ha.sent
    obtain ⟨l, hl, -⟩ := threadStep_log hs
    refine ⟨h1, fun t' f hf => ?_, h3⟩
    rcases mem_update_cases hf with hf | hf
    · exact h2 f hf
    · simp only [hl]
      exact (ha.frames t' f hf).append l

/-! ## How a task is destroyed -/

/-- The stack of a worker that is about to leave its loop, unwinding or told to shut down. -/
def Ending (sh : Shared n U V) (fs : List (Frame U V)) : Prop :=
  ∃ l, fs = [.result none, .run l] ∨ (fs = [.run l] ∧ l.pc = .top ∧ sh.shutdown = true)

/-- The next action of thread `t` destroys the unfinished task `ch`: it panics in a poll of
`ch`, it is a worker that is the last to give up a queue with `ch` in it, or it drops the
executor with `ch` still in the global queue. -/
def Destroying (sh : Shared n U V) (t : ThreadId n m) (fs : List (Frame U V)) (ch : Nat) : Prop :=
  (∃ id u fs₁, fs = .user (some ⟨id, .wrapped ch u⟩) (.run .panic) :: fs₁) ∨
  (∃ i, t = .inl i ∧ Ending sh fs ∧ 0 < occ ch (sh.doomed i)) ∨
  (∃ fs₁, fs = .dropInner (some n) :: fs₁ ∧ 0 < occ ch sh.globalQueue)

theorem mem_destroyed {ch : Nat} {tasks : List (Task U)} :
    (.destroyed ch : Event U V) ∈ (tasks.filterMap Task.ch?).map .destroyed ↔ 0 < occ ch tasks := by
  rw [← losts_pos_iff, losts_destroyed]

theorem occ_orphans {sh : Shared n U V} {i : Fin n} {ch : Nat} :
    0 < occ ch ((List.finRange n).flatMap fun d =>
      if Shared.Orphaned (update sh.live i false) d then sh.locals d else []) ↔
    ∃ d, Shared.Orphaned (update sh.live i false) d ∧ 0 < occ ch (sh.locals d) := by
  rw [occ_pos_iff]
  constructor
  · rintro ⟨p, hp, hch⟩
    obtain ⟨d, -, hd⟩ := List.mem_flatMap.1 hp
    split at hd
    · next ho => exact ⟨d, ho, (occ_pos_iff ch _).2 ⟨p, hd, hch⟩⟩
    · cases hd
  · rintro ⟨d, ho, hd⟩
    obtain ⟨p, hp, hch⟩ := (occ_pos_iff ch _).1 hd
    refine ⟨p, List.mem_flatMap.2 ⟨d, List.mem_finRange d, ?_⟩, hch⟩
    rw [if_pos ho]
    exact hp

theorem occ_doomed {sh : Shared n U V} {i : Fin n} {ch : Nat} : 0 < occ ch (sh.doomed i) ↔
    (∃ d, Shared.Orphaned (update sh.live i false) d ∧ 0 < occ ch (sh.locals d)) ∨
      (sh.Unheld (update sh.live i false) ∧ 0 < occ ch sh.globalQueue) := by
  unfold Shared.doomed
  simp only [occ_append, Nat.add_pos_iff_pos_or_pos]
  refine or_congr occ_orphans ?_
  split
  · next h => simp [h]
  · next h => simp [h]

theorem mem_dropWorker_log {sh : Shared n U V} {i : Fin n} {ch : Nat} :
    .destroyed ch ∈ (sh.dropWorker i).log ↔
      .destroyed ch ∈ sh.log ∨ 0 < occ ch (sh.doomed i) := by
  rw [← mem_destroyed (V := V)]
  exact List.mem_append

/-- **These are the ways to destroy a task**, and each of them does. -/
theorem threadStep_destroyed {sh sh' : Shared n U V} {t : ThreadId n m} {fs fs' : List (Frame U V)}
    (h : ThreadStep poll sh t fs sh' fs') (ch : Nat) :
    .destroyed ch ∈ sh'.log ↔ .destroyed ch ∈ sh.log ∨ Destroying sh t fs ch := by
  unfold Destroying Ending
  cases h with
  | panic id c u fs =>
    simp [Shared.destroy]
    exact or_congr Iff.rfl eq_comm
  | unwindRun i l _ ht | unwindLast i l ht | exit i l ht hpc hshut =>
    show .destroyed ch ∈ (sh.dropWorker i).log ↔ _
    rw [mem_dropWorker_log]
    simp_all
  | dropQueue fs =>
    simp [Shared.destroy, occ_pos_iff]
  | pollHandle task c k fs _ =>
    rw [pollHandle_eq]
    simp
  | requeue left owned fs => simp [Shared.pushPending]
  | spawned task c fs | startBlockOn task c fs =>
    obtain ⟨id, ⟨d, u⟩ | _⟩ := task <;> simp [Shared.pushSpawned]
  | help c l ch' sh' l' fs _ hh =>
    rw [Executor.help_none hh]
    simp
  | helpTask c l ch' sh₁ l' task fs hh =>
    obtain ⟨q, -, rfl⟩ := Executor.help_some hh
    rw [beginPoll_eq]
    simp
  | run i l c sh' l' fs _ htop hh =>
    rw [WorkerThread.step_none hh]
    have : ¬ (l.pc = .top ∧ sh.shutdown = true) := fun h => by simp [htop h.1] at h
    simp
    tauto
  | runTask i l c sh₁ l' task fs _ hh =>
    have hlog : sh₁.log = sh.log := by rw [(WorkerThread.step_some hh).eq]
    have hpc := WorkerThread.step_some_pc hh
    rw [beginPoll_eq, hlog]
    simp
    tauto
  | dropJoin j fs hj _ =>
    simp
    omega
  | dropSelf i task b fs _ _ =>
    have := i.isLt
    simp
    omega
  | _ => simp [Shared.newTask, Shared.dropReceiver]

/-! ## `Pending` and the life of the task -/

namespace State

/-- Task `ch` is in the global queue, in a local deque, or being polled. -/
def Alive (s : State n m U V) (ch : Nat) : Prop :=
  0 < s.occurs ch .globalQueue ∨ (∃ i, 0 < s.occurs ch (.localDeque i)) ∨
    ∃ t, 0 < s.occurs ch (.polled t)

end State

theorem State.alive_iff {s : State n m U V} {ch : Nat} :
    s.Alive ch ↔ 0 < queued ch s.shared + census (Frame.running ch) s +
      census (Frame.closing ch) s := by
  have hrun : census (Frame.running ch) s + census (Frame.closing ch) s =
      tally id (fun t => s.occurs ch (.polled t)) := by
    unfold census tally
    exact Finset.sum_add_distrib.symm
  unfold State.Alive queued
  constructor
  · rintro (h | ⟨i, h⟩ | ⟨t, h⟩)
    · simp only [State.occurs] at h
      omega
    · have := le_tally (occ ch) s.shared.locals i
      simp only [State.occurs] at h
      omega
    · have := le_tally id (fun t => s.occurs ch (.polled t)) t
      simp only [id] at this
      omega
  · intro h
    by_cases h1 : 0 < occ ch s.shared.globalQueue
    · exact Or.inl h1
    · by_cases h2 : 0 < tally (occ ch) s.shared.locals
      · exact Or.inr (Or.inl (exists_of_tally_pos _ _ h2))
      · have h3 : 0 < tally id (fun t => s.occurs ch (.polled t)) := by omega
        exact Or.inr (Or.inr (exists_of_tally_pos id _ h3))

/-- The condition, over the steps of a run: no step destroys task `ch`. -/
theorem spared_iff {ts : List (ThreadId n m)} {s : State n m U V}
    (h : Run (Step poll) always (State.init n m U V) ts s) (ch : Nat) :
    .destroyed ch ∉ s.shared.log ↔
      Run (Step poll) (fun a t => ¬ Destroying a.shared t (a.threads t) ch)
        (State.init n m U V) ts s := by
  constructor
  · intro hn
    induction h with
    | nil => exact Run.nil
    | snoc _ _ hs ih =>
      obtain @⟨sh', fs', hs', hl⟩ := hs
      rw [threadStep_destroyed hs', not_or] at hn
      exact (ih hn.1).snoc hn.2 (Step.mk hs' hl)
  · intro hr
    refine hr.invariant (P := fun s => .destroyed ch ∉ s.shared.log) nofun ?_
    intro a t b ha hG hs
    obtain @⟨sh', fs', hs', -⟩ := hs
    rw [threadStep_destroyed hs', not_or]
    exact ⟨ha, hG⟩

/-- **A handle's `Pending` means "still running" exactly as long as no step destroys its
task.**  Otherwise the poll is `Pending` for ever. -/
theorem pending_alive_iff {ts : List (ThreadId n m)} {s : State n m U V}
    (h : Run (Step poll) always (State.init n m U V) ts s) {ch : Nat}
    (hr : (s.shared.chan ch).receiver = .handle) (hu : recvs ch s.shared.log = []) :
    ((JoinHandle.poll (s.shared.chan ch)).1 = none → s.Alive ch ∨ sents ch s.shared.log ≠ []) ↔
      Run (Step poll) (fun a t => ¬ Destroying a.shared t (a.threads t) ch)
        (State.init n m U V) ts s := by
  have ha := accounted_reachable ⟨ts, h⟩
  have hlaw := (delivered_reachable ⟨ts, h⟩).channel ch
  have hcount := ha.count ch
  have hsent := ha.sent ch
  have hle := ha.pushes_le_one ch
  have hpush : pushes ch s.shared.log ≠ 0 := mt hlaw.pushed.2 (by simp [hr])
  have hq : sents ch s.shared.log = (s.shared.chan ch).queue := by
    rw [← hlaw.pending (by simp [hr]), hu, List.nil_append]
  rw [← spared_iff h, ← losts_pos_iff, JoinHandle.poll_none_iff, State.alive_iff]
  cases hqueue : (s.shared.chan ch).queue with
  | nil =>
    rw [hq, hqueue] at hsent ⊢
    rw [List.length_nil] at hsent
    simp only [ne_eq, not_true_eq_false, or_false, forall_const]
    omega
  | cons v q =>
    rw [hq, hqueue, List.length_cons] at hsent
    simp only [reduceCtorEq, false_implies, true_iff]
    omega

/-- A spawned task that waits in the global queue, its handle held by the thread outside. -/
theorem pending_alive_queued : ∃ (ts : List (ThreadId 1 1)) (s : State 1 1 Sample Nat),
    s.occurs 0 .globalQueue = 1 ∧
    (((JoinHandle.poll (s.shared.chan 0)).1 = none → s.Alive 0 ∨ sents 0 s.shared.log ≠ []) ↔
      Run (Step Sample.burst) (fun a t => ¬ Destroying a.shared t (a.threads t) 0)
        (State.init 1 1 Sample Nat) ts s) := by
  obtain ⟨s, ⟨ts, hr⟩, h1, h2, h3⟩ := reachable_of_exec Sample.burst (G := always)
    (P := fun s : State 1 1 Sample Nat => s.occurs 0 .globalQueue = 1 ∧
      (s.shared.chan 0).receiver = .handle ∧ recvs 0 s.shared.log = [])
    ((.inr 0, .code (Sample.spawns [.yield 5])) :: turns (.inr 0) 2 (.answer 0)) (by decide)
  exact ⟨ts, s, h1, pending_alive_iff hr h2 h3⟩

/-- A task that panics when polled: its handle stays `Pending` with the task gone. -/
theorem pending_not_alive : ¬ ∀ s : State 1 1 Sample Nat, Reachable Sample.burst always s →
    ∀ ch, (s.shared.chan ch).receiver = .handle → recvs ch s.shared.log = [] →
      (JoinHandle.poll (s.shared.chan ch)).1 = none → s.Alive ch ∨ sents ch s.shared.log ≠ [] := by
  intro h
  obtain ⟨s, hr, h1, h2, h3, h4, h5⟩ := reachable_of_exec Sample.burst (G := always)
    (P := fun s : State 1 1 Sample Nat => (s.shared.chan 0).receiver = .handle ∧
      recvs 0 s.shared.log = [] ∧ (JoinHandle.poll (s.shared.chan 0)).1 = none ∧
      (∀ pl, s.occurs 0 pl = 0) ∧ sents 0 s.shared.log = [])
    ((.inr 0, .code (Sample.spawns [.panic])) :: turns (.inr 0) 2 (.answer 0) ++
      turns (.inl 0) 4 (.steal (.batch 0))) (by decide)
  rcases h s hr 0 h1 h2 h3 with (h | ⟨i, h⟩ | ⟨t, h⟩) | h
  · rw [h4] at h
    omega
  · rw [h4] at h
    omega
  · rw [h4] at h
    omega
  · exact h h5

end Luminal.Std
