import Luminal.Std.Effects

/-!
# No task is lost or duplicated

Every spawned task is in exactly one place: in a queue, in the frame that polls it, or
finished (`ready` in the log), or destroyed.  `Accounted` counts its occurrences over
all places; each action of a thread conserves the count (`threadStep_share`), so it is 1 for
every spawned task in every reachable state (`accounted_reachable`), panics and shutdown
included.  A second count ties what was sent to the stage of the poll (`threadStep_sends`).
-/

namespace Luminal.Std

open Function Transition

variable {n m : Nat} {U V : Type} {poll : U → Burst U V}

/-! ## Tasks in frames -/

namespace Frame

/-- Task `ch` is being polled in this frame, or was and is on its way back to the queue. -/
def running (ch : Nat) : Frame U V → Nat
  | .user task _ => occ ch task.toList
  | .requeue left owned => occ ch left.toList + owned.isOf ch
  | _ => 0

/-- Task `ch` has sent its output and its poll is about to return `Ready`. -/
def closing (ch : Nat) : Frame U V → Nat
  | .sent task => task.isOf ch
  | _ => 0

/-- Task `ch` is being created by `Executor::spawn`. -/
def creating (ch : Nat) : Frame U V → Nat
  | .spawn task _ _ => task.isOf ch
  | _ => 0

/-- The frame polls nothing but wrapped futures, and `mem::take` left a placeholder. -/
def Proper : Frame U V → Prop
  | .user task _ => ∀ p ∈ task, p.ch?.isSome
  | .sent task => task.ch?.isSome
  | .requeue left owned => (∀ p ∈ left, p.ch? = none) ∧ owned.ch?.isSome
  | .spawn task ch _ => task.ch? = some ch
  | _ => True

end Frame

/-! ## What the operations on queues conserve -/

section Operations

variable (poll) (sh : Shared n U V) (ch : Nat)

theorem queued_pushSpawned (task : Task U) (c : Nat) (b : Bool) :
    queued ch (sh.pushSpawned task c b) = queued ch sh + task.isOf ch := by
  simp [queued, Shared.pushSpawned]
  omega

theorem queued_pushPending (task : Task U) :
    queued ch (sh.pushPending task) = queued ch sh + task.isOf ch := by
  simp [queued, Shared.pushPending]
  omega

theorem queued_beginPoll (task : Task U) :
    queued ch (sh.beginPoll poll task).1 = queued ch sh := by
  rw [beginPoll_eq]
  rfl

theorem queued_pollHandle (h : Nat) : queued ch (sh.pollHandle h).2 = queued ch sh := by
  rw [pollHandle_eq]
  rfl

theorem log_pushSpawned (task : Task U) (c : Nat) (b : Bool) :
    ∃ l, (sh.pushSpawned task c b).log = sh.log ++ l ∧ ∀ e ∈ l, e.Silent := by
  refine ⟨_, rfl, fun e he => ?_⟩
  split at he
  · rw [List.mem_singleton] at he
    subst he
    trivial
  · cases he

theorem log_pushPending (task : Task U) :
    ∃ l, (sh.pushPending task).log = sh.log ++ l ∧ ∀ e ∈ l, e.Silent := by
  refine ⟨_, rfl, fun e he => ?_⟩
  obtain ⟨c, -, rfl⟩ := List.mem_map.1 he
  trivial

theorem log_beginPoll (task : Task U) :
    ∃ l, (sh.beginPoll poll task).1.log = sh.log ++ l ∧ ∀ e ∈ l, e.Silent := by
  rw [beginPoll_eq]
  refine ⟨_, rfl, fun e he => ?_⟩
  obtain ⟨c, -, rfl⟩ := List.mem_map.1 he
  trivial

theorem log_pollHandle (h : Nat) :
    readies ch (sh.pollHandle h).2.log = readies ch sh.log ∧
    losts ch (sh.pollHandle h).2.log = losts ch sh.log ∧
    sents ch (sh.pollHandle h).2.log = sents ch sh.log := by
  unfold Shared.pollHandle
  split
  · simp [readies, losts, sents]
  · exact ⟨rfl, rfl, rfl⟩

/-- The frame that starts a poll carries the task, unless it is a placeholder. -/
theorem running_beginPoll (task : Task U) :
    (sh.beginPoll poll task).2.running ch = task.isOf ch ∧
    (sh.beginPoll poll task).2.closing ch = 0 ∧ (sh.beginPoll poll task).2.creating ch = 0 := by
  unfold Shared.beginPoll
  split
  · exact ⟨by simp [Frame.running], rfl, rfl⟩
  · next h => simp [Frame.running, Frame.closing, Frame.creating, Task.isOf, Task.ch?, h]

end Operations

/-! ## One action of a thread -/

/-- The occurrences of task `ch` in the shared state and on one stack. -/
def share (ch : Nat) (sh : Shared n U V) (fs : List (Frame U V)) : Nat :=
  queued ch sh + weigh (Frame.running ch) fs + weigh (Frame.closing ch) fs +
    weigh (Frame.creating ch) fs + readies ch sh.log + losts ch sh.log

/-- **An action moves the task it is about and no other**; only a call of `spawn` adds one. -/
theorem threadStep_share {sh sh' : Shared n U V} {t : ThreadId n m} {fs fs' : List (Frame U V)}
    (h : ThreadStep poll sh t fs sh' fs') (hp : ∀ f ∈ fs, f.Proper) (ch : Nat) :
    share ch sh' fs' + born ch sh.spawned = share ch sh fs + born ch sh'.spawned := by
  unfold share
  cases h with
  | callSpawn task u k fs _ | callBlockOn task u k fs _ =>
    simp [Shared.newTask, Frame.running, Frame.closing, Frame.creating, queued, born_succ, readies,
      losts]
    omega
  | pollHandle task h k fs _ =>
    have hl := log_pollHandle sh ch h
    have hq := queued_pollHandle sh ch h
    have hs : (sh.pollHandle h).2.spawned = sh.spawned := by
      rw [pollHandle_eq]
    rw [hq, hl.1, hl.2.1, hs]
    rfl
  | pendingRun id c u₀ u l fs | pendingHelp id c u₀ u b l fs =>
    simp [Frame.running, Frame.closing, Frame.creating, queued]
  | ready id c u v fs =>
    simp [Frame.running, Frame.closing, Frame.creating, queued, readies, losts]
    omega
  | panic id c u fs =>
    simp [Frame.running, Frame.closing, Frame.creating, queued, Shared.destroy, readies, losts]
    omega
  | endWrapped id c u fs =>
    simp [Frame.running, Frame.closing, Frame.creating, queued, readies, losts]
    omega
  | requeue left owned fs =>
    have hleft : occ ch left.toList = 0 := by
      have := (hp _ List.mem_cons_self).1
      cases left with
      | none => rfl
      | some p => simp [Task.isOf, this p rfl]
    obtain ⟨l, hl, hsil⟩ := log_pushPending sh owned
    obtain ⟨-, -, h3, h4⟩ := silent_projections ch hsil
    rw [queued_pushPending, hl, readies_append, losts_append, h3, h4]
    simp [Frame.running, Frame.closing, Frame.creating, hleft, Shared.pushPending]
    omega
  | spawned task c fs | startBlockOn task c fs =>
    rw [queued_pushSpawned]
    obtain ⟨l, hl, hsil⟩ := log_pushSpawned sh task c _
    obtain ⟨-, -, h3, h4⟩ := silent_projections ch hsil
    rw [hl, readies_append, losts_append, h3, h4]
    simp [Frame.running, Frame.closing, Frame.creating, Shared.pushSpawned]
    omega
  | recvOk c l v fs _ _ =>
    simp [Frame.running, Frame.closing, Frame.creating, queued, readies, losts]
  | help c l ch' sh' l' fs _ hh =>
    rw [Executor.help_none hh]
    simp [Frame.running, Frame.closing, Frame.creating]
  | helpTask c l ch' sh₁ l' task fs hh =>
    obtain ⟨q, hq, rfl⟩ := Executor.help_some hh
    obtain ⟨l, hl, hsil⟩ := log_beginPoll poll { sh with globalQueue := q } task
    obtain ⟨-, -, h3, h4⟩ := silent_projections ch hsil
    obtain ⟨r1, r2, r3⟩ := running_beginPoll poll { sh with globalQueue := q } ch task
    rw [queued_beginPoll, hl, readies_append, losts_append, h3, h4]
    have hs : (Shared.beginPoll poll { sh with globalQueue := q } task).1.spawned =
        sh.spawned := by
      rw [beginPoll_eq]
    rw [hs]
    simp only [weigh_cons, r1, r2, r3]
    simp [Frame.running, Frame.closing, Frame.creating, queued, hq]
    omega
  | unwindRun i | unwindLast i | exit i =>
    have hdrop := queued_dropWorker sh i ch
    have hr : readies ch (sh.dropWorker i).log = readies ch sh.log := by
      simp [Shared.dropWorker, Shared.destroy]
    have hs : (sh.dropWorker i).spawned = sh.spawned := rfl
    simp only [queued] at hdrop ⊢
    simp [Frame.running, Frame.closing, Frame.creating, hr, hs]
    omega
  | run i l c sh' l' fs _ _ hh =>
    rw [WorkerThread.step_none hh]
    simp [Frame.running, Frame.closing, Frame.creating]
  | runTask i l c sh₁ l' task fs _ hh =>
    have htook := WorkerThread.step_some hh
    have hq := htook.queued ch
    obtain ⟨l, hl, hsil⟩ := log_beginPoll poll sh₁ task
    obtain ⟨-, -, h3, h4⟩ := silent_projections ch hsil
    obtain ⟨r1, r2, r3⟩ := running_beginPoll poll sh₁ ch task
    rw [queued_beginPoll, hl, readies_append, losts_append, h3, h4]
    have hs : (sh₁.beginPoll poll task).1.spawned = sh.spawned := by
      rw [beginPoll_eq, htook.eq]
    have hlog : sh₁.log = sh.log := by rw [htook.eq]
    rw [hs, hlog]
    simp only [weigh_cons, r1, r2, r3]
    simp [Frame.running, Frame.closing, Frame.creating]
    omega
  | dropQueue fs =>
    simp [Frame.running, Frame.closing, Frame.creating, queued, Shared.destroy]
    omega
  | _ => simp [Frame.running, Frame.closing, Frame.creating, queued, Shared.dropReceiver]

/-- What was sent and not yet followed by the end of its poll is in a closing frame. -/
theorem threadStep_sends {sh sh' : Shared n U V} {t : ThreadId n m} {fs fs' : List (Frame U V)}
    (h : ThreadStep poll sh t fs sh' fs') (ch : Nat) :
    (sents ch sh'.log).length + weigh (Frame.closing ch) fs + readies ch sh.log =
      (sents ch sh.log).length + weigh (Frame.closing ch) fs' + readies ch sh'.log := by
  have silent : ∀ l : List (Event U V), (∀ e ∈ l, e.Silent) →
      (sents ch (sh.log ++ l)).length = (sents ch sh.log).length ∧
      readies ch (sh.log ++ l) = readies ch sh.log := by
    intro l hl
    obtain ⟨h1, -, h3, -⟩ := silent_projections ch hl
    simp [h1, h3]
  cases h with
  | pollHandle task h k fs _ =>
    obtain ⟨h1, -, h3⟩ := log_pollHandle sh ch h
    rw [h1, h3]
    simp [Frame.closing]
  | ready id c u v fs =>
    have : sents ch [Event.sent (U := U) c v] = if c = ch then [v] else [] := by
      unfold sents
      split <;> simp_all
    simp [Frame.closing, this, readies]
    split <;> simp_all
    omega
  | panic id c u fs => simp [Frame.closing, Shared.destroy, sents, readies]
  | endWrapped id c u fs =>
    simp [Frame.closing, sents, readies]
    omega
  | requeue left owned fs =>
    obtain ⟨l, hl, hsil⟩ := log_pushPending sh owned
    rw [hl, (silent l hsil).1, (silent l hsil).2]
    simp [Frame.closing]
  | spawned task c fs | startBlockOn task c fs =>
    obtain ⟨l, hl, hsil⟩ := log_pushSpawned sh task c _
    rw [hl, (silent l hsil).1, (silent l hsil).2]
    simp [Frame.closing]
  | recvOk c l v fs _ _ => simp [Frame.closing, sents, readies]
  | help c l ch' sh' l' fs _ hh =>
    rw [Executor.help_none hh]
    simp [Frame.closing]
  | helpTask c l ch' sh₁ l' task fs hh =>
    obtain ⟨q, -, rfl⟩ := Executor.help_some hh
    obtain ⟨l, hl, hsil⟩ := log_beginPoll poll { sh with globalQueue := q } task
    obtain ⟨-, r2, -⟩ := running_beginPoll poll { sh with globalQueue := q } ch task
    rw [hl, (silent l hsil).1, (silent l hsil).2]
    simp only [weigh_cons, r2]
    simp [Frame.closing]
  | unwindRun i | unwindLast i | exit i =>
    simp [Frame.closing, Shared.dropWorker, Shared.destroy]
  | run i l c sh' l' fs _ _ hh =>
    rw [WorkerThread.step_none hh]
    simp [Frame.closing]
  | runTask i l c sh₁ l' task fs _ hh =>
    have hlog : sh₁.log = sh.log := by rw [(WorkerThread.step_some hh).eq]
    obtain ⟨l, hl, hsil⟩ := log_beginPoll poll sh₁ task
    obtain ⟨-, r2, -⟩ := running_beginPoll poll sh₁ ch task
    rw [hl, hlog, (silent l hsil).1, (silent l hsil).2]
    simp only [weigh_cons, r2]
    simp [Frame.closing]
  | dropQueue fs => simp [Frame.closing, Shared.destroy]
  | callSpawn task u k fs _ | callBlockOn task u k fs _ =>
    simp [Frame.closing, Shared.newTask, sents, readies]
  | _ => simp [Frame.closing, Shared.dropReceiver]

/-- A task is created by a call of `spawn` and pushed once. -/
theorem threadStep_pushes {sh sh' : Shared n U V} {t : ThreadId n m} {fs fs' : List (Frame U V)}
    (h : ThreadStep poll sh t fs sh' fs') (hp : ∀ f ∈ fs, f.Proper) (ch : Nat) :
    pushes ch sh'.log + weigh (Frame.creating ch) fs' + born ch sh.spawned =
      pushes ch sh.log + weigh (Frame.creating ch) fs + born ch sh'.spawned := by
  have hpolled : ∀ cs : List Nat, pushes ch (cs.map (.polled : Nat → Event U V)) = 0 := by
    simp [pushes, List.countP_eq_zero]
  cases h with
  | callSpawn task u k fs _ | callBlockOn task u k fs _ =>
    simp [Shared.newTask, Frame.creating, born_succ, pushes]
    omega
  | pollHandle task h k fs _ =>
    unfold Shared.pollHandle
    split <;> simp [Frame.creating, pushes]
  | requeue left owned fs =>
    have : ∀ cs : List Nat, pushes ch (cs.map (.requeued : Nat → Event U V)) = 0 := by
      simp [pushes, List.countP_eq_zero]
    simp [Shared.pushPending, Frame.creating, this]
  | spawned task c fs | startBlockOn task c fs =>
    have hc := hp _ List.mem_cons_self
    obtain ⟨id, _ | _⟩ := task
    · simp [Shared.pushSpawned, Frame.creating, pushes]
      omega
    · cases hc
  | help c l ch' sh' l' fs _ hh =>
    rw [Executor.help_none hh]
    simp [Frame.creating]
  | helpTask c l ch' sh₁ l' task fs hh =>
    obtain ⟨q, -, rfl⟩ := Executor.help_some hh
    obtain ⟨-, -, r3⟩ := running_beginPoll poll { sh with globalQueue := q } ch task
    rw [beginPoll_eq, pushes_append, hpolled]
    simp only [weigh_cons, r3]
    simp [Frame.creating]
  | unwindRun i | unwindLast i | exit i => simp [Frame.creating, Shared.dropWorker, Shared.destroy]
  | run i l c sh' l' fs _ _ hh =>
    rw [WorkerThread.step_none hh]
    simp [Frame.creating]
  | runTask i l c sh₁ l' task fs _ hh =>
    obtain ⟨-, -, r3⟩ := running_beginPoll poll sh₁ ch task
    have hlog : sh₁.log = sh.log ∧ sh₁.spawned = sh.spawned := by
      rw [(WorkerThread.step_some hh).eq]
      exact ⟨rfl, rfl⟩
    rw [beginPoll_eq, pushes_append, hpolled, hlog.1, hlog.2]
    simp only [weigh_cons, r3]
    simp [Frame.creating]
  | _ => simp [Frame.creating, Shared.destroy, Shared.dropReceiver, pushes]

/-! ## Placeholders stay out of the queues -/

theorem beginPoll_proper (sh : Shared n U V) (task : Task U) (h : task.ch?.isSome) :
    (sh.beginPoll poll task).2.Proper := by
  unfold Shared.beginPoll
  split
  · intro p hp
    cases hp
    exact h
  · trivial

/-- The top frame is about to push a task to the global queue. -/
def Pushing (p : Task U) (fs : List (Frame U V)) : Prop :=
  (∃ left fs₁, fs = .requeue left p :: fs₁) ∨ ∃ ch b fs₁, fs = .spawn p ch b :: fs₁

/-- **A task in the global queue after an action was there before**, or the action pushed it. -/
theorem threadStep_global {sh sh' : Shared n U V} {t : ThreadId n m} {fs fs' : List (Frame U V)}
    (h : ThreadStep poll sh t fs sh' fs') {p : Task U} (hp : p ∈ sh'.globalQueue) :
    p ∈ sh.globalQueue ∨ Pushing p fs := by
  cases h with
  | pollHandle task h k fs _ =>
    rw [pollHandle_eq] at hp
    exact Or.inl hp
  | requeue left owned fs =>
    refine (List.mem_append.1 hp).imp id fun hp => ?_
    cases List.mem_singleton.1 hp
    exact Or.inl ⟨left, _, rfl⟩
  | spawned task c fs | startBlockOn task c fs =>
    refine (List.mem_append.1 hp).imp id fun hp => ?_
    cases List.mem_singleton.1 hp
    exact Or.inr ⟨c, _, _, rfl⟩
  | help c l ch' sh' l' fs _ hh =>
    rw [Executor.help_none hh] at hp
    exact Or.inl hp
  | helpTask c l ch' sh₁ l' task fs hh =>
    obtain ⟨q, hgq, rfl⟩ := Executor.help_some hh
    rw [beginPoll_eq] at hp
    exact Or.inl (hgq ▸ List.mem_cons_of_mem _ hp)
  | run i l c sh' l' fs _ _ hh =>
    rw [WorkerThread.step_none hh] at hp
    exact Or.inl hp
  | runTask i l c sh₁ l' task fs _ hh =>
    rw [beginPoll_eq] at hp
    exact Or.inl ((WorkerThread.step_some hh).global hp)
  | unwindRun | unwindLast | exit => exact Or.inl (mem_dropWorker.1 hp)
  | dropQueue fs => cases hp
  | _ => exact Or.inl hp

/-- **A task in a local deque after an action was there before**, or its worker, at work in its
loop, moved it there from a queue. -/
theorem threadStep_locals {sh sh' : Shared n U V} {t : ThreadId n m} {fs fs' : List (Frame U V)}
    (h : ThreadStep poll sh t fs sh' fs') {p : Task U} {d : Fin n} (hp : p ∈ sh'.locals d) :
    p ∈ sh.locals d ∨ (t = .inl d ∧ (∃ l fs₁, fs = .run l :: fs₁) ∧ Queues sh p) := by
  cases h with
  | pollHandle task h k fs _ =>
    rw [pollHandle_eq] at hp
    exact Or.inl hp
  | help c l ch' sh' l' fs _ hh =>
    rw [Executor.help_none hh] at hp
    exact Or.inl hp
  | helpTask c l ch' sh₁ l' task fs hh =>
    obtain ⟨q, hgq, rfl⟩ := Executor.help_some hh
    rw [beginPoll_eq] at hp
    exact Or.inl hp
  | unwindRun i | unwindLast i | exit i =>
    exact Or.inl (mem_dropWorker.2 d hp)
  | run i l c sh' l' fs _ _ hh =>
    rw [WorkerThread.step_none hh] at hp
    exact Or.inl hp
  | runTask i l c sh₁ l' task fs ht hh =>
    rw [beginPoll_eq] at hp
    refine ((WorkerThread.step_some hh).locals hp).imp id ?_
    rintro ⟨rfl, hq⟩
    exact ⟨ht, ⟨l, fs, rfl⟩, hq⟩
  | _ => exact Or.inl hp

/-- A queued task was queued before, or it was pushed. -/
theorem threadStep_queues {sh sh' : Shared n U V} {t : ThreadId n m} {fs fs' : List (Frame U V)}
    (h : ThreadStep poll sh t fs sh' fs') {p : Task U} (hp : Queues sh' p) :
    Queues sh p ∨ Pushing p fs := by
  rcases hp with hp | ⟨d, hp⟩
  · exact (threadStep_global h hp).imp Or.inl id
  · rcases threadStep_locals h hp with hp | ⟨-, -, hp⟩
    · exact Or.inl (Or.inr ⟨d, hp⟩)
    · exact Or.inl hp

/-- **Only wrapped futures are ever queued or polled**: an action keeps the frames free of
placeholders. -/
theorem threadStep_proper {sh sh' : Shared n U V} {t : ThreadId n m} {fs fs' : List (Frame U V)}
    (h : ThreadStep poll sh t fs sh' fs') (hp : ∀ f ∈ fs, f.Proper)
    (hq : ∀ p, Queues sh p → p.ch?.isSome) : ∀ f ∈ fs', f.Proper := by
  cases h with
  | callSpawn task u k fs _ | callBlockOn task u k fs _ =>
    simp only [List.forall_mem_cons] at hp ⊢
    exact ⟨rfl, hp⟩
  | pendingRun id c u₀ u l fs | pendingHelp id c u₀ u b l fs =>
    simp only [List.forall_mem_cons] at hp ⊢
    exact ⟨⟨by simp, rfl⟩, hp.2⟩
  | ready id c u v fs | endWrapped id c u fs =>
    simp only [List.forall_mem_cons] at hp ⊢
    exact ⟨by simp [Frame.Proper], hp.2⟩
  | helpTask c l ch' sh₁ l' task fs hh =>
    obtain ⟨q, hgq, rfl⟩ := Executor.help_some hh
    simp only [List.forall_mem_cons] at hp ⊢
    exact ⟨beginPoll_proper _ _ (hq _ (Or.inl (hgq ▸ List.mem_cons_self))), trivial, hp.2⟩
  | runTask i l c sh₁ l' task fs _ hh =>
    simp only [List.forall_mem_cons] at hp ⊢
    exact ⟨beginPoll_proper _ _ (hq _ (WorkerThread.step_some hh).taken), trivial, hp.2⟩
  | unwindRun i | unwindLast i | exit i => simp [Frame.Proper]
  | _ =>
    simp only [List.forall_mem_cons] at hp ⊢
    first
      | exact ⟨hp.1, hp.2⟩
      | exact ⟨trivial, hp.2⟩
      | exact ⟨trivial, hp.1, hp.2⟩
      | exact hp.2

/-! ## Every reachable state -/

/-- A weight added up over all stacks. -/
def census (w : Frame U V → Nat) (s : State n m U V) : Nat := tally (weigh w) s.threads

theorem census_update (w : Frame U V → Nat) (s : State n m U V) (sh' : Shared n U V)
    (t : ThreadId n m) (fs' : List (Frame U V)) :
    census w ⟨sh', update s.threads t fs'⟩ + weigh w (s.threads t) = census w s + weigh w fs' :=
  tally_update (weigh w) s.threads t fs'

theorem weigh_le_census (w : Frame U V → Nat) (s : State n m U V) (t : ThreadId n m) :
    weigh w (s.threads t) ≤ census w s :=
  le_tally (weigh w) s.threads t

/-- What the counts say of a state. -/
structure Accounted (s : State n m U V) : Prop where
  proper : ∀ t, ∀ f ∈ s.threads t, f.Proper
  queues : ∀ p, Queues s.shared p → p.ch?.isSome
  /-- a spawned task is in a queue, in a poll, finished or destroyed, and in one place -/
  count : ∀ ch, queued ch s.shared + census (Frame.running ch) s + census (Frame.closing ch) s +
    readies ch s.shared.log + losts ch s.shared.log = pushes ch s.shared.log
  pushed : ∀ ch, pushes ch s.shared.log + census (Frame.creating ch) s = born ch s.shared.spawned
  /-- a task sends at most once, at the end of its last poll -/
  sent : ∀ ch, (sents ch s.shared.log).length =
    census (Frame.closing ch) s + readies ch s.shared.log

theorem census_init (w : Frame U V → Nat) (h1 : w (.run .start) = 0)
    (h2 : w (.user none .idle) = 0) : census w (State.init n m U V) = 0 := by
  unfold census
  rw [tally_eq_zero]
  rintro (i | i)
  · simp [State.init, h1]
  · simp [State.init, h2]

theorem accounted_init : Accounted (State.init n m U V) where
  proper := by
    rintro (i | i) f hf <;> cases List.mem_singleton.1 hf
    · trivial
    · rintro p ⟨⟩
  queues := by
    rintro p (h | ⟨i, h⟩) <;> cases h
  count ch := by
    have hq : queued ch (State.init n m U V).shared = 0 := by
      simp only [queued, State.init, ExecutorInner.new, occ_nil, Nat.zero_add]
      exact (tally_eq_zero _ _).2 fun _ => rfl
    rw [hq, census_init _ rfl rfl, census_init _ rfl rfl]
    rfl
  pushed ch := by
    rw [census_init _ rfl rfl]
    simp [State.init, ExecutorInner.new, pushes, born]
  sent ch := by
    rw [census_init _ rfl rfl]
    rfl

theorem accounted_step {s s' : State n m U V} {t : ThreadId n m} (h : Accounted s)
    (hs : Step poll s t s') : Accounted s' := by
  obtain @⟨sh', fs', hs, -⟩ := hs
  have hp' := threadStep_proper hs (h.proper t) h.queues
  refine ⟨fun t' f hf => ?_, fun p hp => ?_, fun ch => ?_, fun ch => ?_, fun ch => ?_⟩
  · rcases mem_update_cases hf with hf | hf
    · exact hp' f hf
    · exact h.proper t' f hf
  · rcases threadStep_queues hs hp with hp | ⟨left, fs₁, hfs⟩ | ⟨ch, b, fs₁, hfs⟩
    · exact h.queues p hp
    · exact (h.proper t (.requeue left p) (hfs ▸ List.mem_cons_self)).2
    · have : p.ch? = some ch := h.proper t (.spawn p ch b) (hfs ▸ List.mem_cons_self)
      exact Option.isSome_of_eq_some this
  · have h1 := threadStep_share hs (h.proper t) ch
    have h2 := threadStep_pushes hs (h.proper t) ch
    have h3 := census_update (Frame.running ch) s sh' t fs'
    have h4 := census_update (Frame.closing ch) s sh' t fs'
    have h5 := h.count ch
    unfold share at h1
    simp only
    omega
  · have h1 := threadStep_pushes hs (h.proper t) ch
    have h2 := census_update (Frame.creating ch) s sh' t fs'
    have h3 := h.pushed ch
    simp only
    omega
  · have h1 := threadStep_sends hs ch
    have h2 := census_update (Frame.closing ch) s sh' t fs'
    have h3 := h.sent ch
    simp only
    omega

/-- **The counts hold in every reachable state**, whatever panics and whenever the executor
is dropped. -/
theorem accounted_reachable {G : State n m U V → ThreadId n m → Prop} {s : State n m U V}
    (h : Reachable poll G s) : Accounted s :=
  h.elim fun _ hr => hr.invariant accounted_init fun _ _ _ ha _ hs => accounted_step ha hs

end Luminal.Std
