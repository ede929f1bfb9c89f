import Luminal.Std.Placement

/-!
# The processed counter

`run_task` counts a task when its poll returns `Ready`, and the helping loop of `block_on` does
not.  In every run the counter falls short by the polls that ended in a helping loop, so it
equals the number of finished tasks exactly in the runs that have none (`processed_eq_iff`).
-/

namespace Luminal.Std

open Function Transition

variable {n m : Nat} {U V : Type} {poll : U → Burst U V}

/-- How many polls returned `Ready`. -/
def finishes (log : List (Event U V)) : Nat :=
  log.countP fun
    | .ready _ => true
    | _ => false

@[simp] theorem finishes_append (l l' : List (Event U V)) :
    finishes (l ++ l') = finishes l + finishes l' := by
  simp [finishes]

theorem finishes_silent {l : List (Event U V)} (h : ∀ e ∈ l, e.Silent) : finishes l = 0 := by
  unfold finishes
  rw [List.countP_eq_zero]
  intro e he
  have := h e he
  cases e <;> simp_all [Event.Silent]

@[simp] theorem finishes_destroyed (cs : List Nat) :
    finishes (cs.map (.destroyed : Nat → Event U V)) = 0 := by
  simp [finishes, List.countP_eq_zero]

theorem finishes_eq_sum {log : List (Event U V)} {k : Nat}
    (h : ∀ ch, .ready ch ∈ log → ch < k) :
    finishes log = ∑ ch ∈ Finset.range k, readies ch log := by
  induction log with
  | nil => simp [finishes, readies]
  | cons e log ih =>
    have hsum : ∀ ch, readies ch (e :: log) = readies ch [e] + readies ch log := fun ch =>
      readies_append ch [e] log
    have hone : finishes [e] = ∑ ch ∈ Finset.range k, readies ch [e] := by
      cases e with
      | ready c =>
        have hc : c < k := h c List.mem_cons_self
        simp [finishes, readies, hc]
      | _ => simp [finishes, readies]
    rw [Finset.sum_congr rfl fun ch _ => hsum ch, Finset.sum_add_distrib, ← hone,
      ← ih fun ch hch => h ch (List.mem_cons_of_mem _ hch)]
    exact finishes_append [e] log

/-- `ExecutorInner::stats`. -/
def ExecutorInner.stats (sh : Shared n U V) : Nat × UInt64 :=
  (sh.globalQueue.length, sh.tasksProcessed)

namespace State

/-- The number of spawned tasks whose poll has returned `Ready`. -/
def finishedTasks (s : State n m U V) : Nat :=
  ((Finset.range s.shared.spawned).filter fun ch => 0 < readies ch s.shared.log).card

/-- A helping loop is about to go on after a poll that returned `Ready`. -/
def FinishesHelping (a : State n m U V) (t : ThreadId n m) (_b : State n m U V) : Prop :=
  ∃ ch l fs, a.threads t = .finished :: .blockOn ch l :: fs

end State

/-- The poll of a task is under way in this frame, up to what its caller does with the outcome. -/
def Frame.InPoll : Frame U V → Prop
  | .user task _ => task.isSome
  | .sent _ | .finished | .requeue .. => True
  | _ => False

def State.NoPoll (s : State n m U V) : Prop := ∀ t, ∀ f ∈ s.threads t, ¬ f.InPoll

instance : DecidablePred (Frame.InPoll : Frame U V → Prop) := fun f =>
  match f with
  | .user task _ => inferInstanceAs (Decidable (task.isSome = true))
  | .sent _ | .finished | .requeue .. => .isTrue trivial
  | .spawn .. | .run _ | .blockOn .. | .result _ | .dropInner _ => .isFalse id

instance (s : State n m U V) : Decidable s.NoPoll :=
  inferInstanceAs (Decidable (∀ t, ∀ f ∈ s.threads t, ¬ f.InPoll))

theorem Accounted.finishes_eq {s : State n m U V} (ha : Accounted s) :
    finishes s.shared.log = s.finishedTasks := by
  have hle : ∀ ch, readies ch s.shared.log ≤ 1 := fun ch => by
    have h1 := ha.count ch
    have h2 := ha.pushes_le_one ch
    omega
  rw [finishes_eq_sum (k := s.shared.spawned), State.finishedTasks, Finset.card_filter]
  · refine Finset.sum_congr rfl fun ch _ => ?_
    have := hle ch
    split <;> omega
  · intro ch hch
    have h1 := (readies_pos_iff ch _).2 hch
    have h2 := ha.count ch
    have h3 := ha.pushed ch
    by_contra hn
    rw [born, if_neg hn] at h3
    omega

/-! ## One action -/

/-- A poll that returned `Ready` and is not yet counted. -/
def Frame.uncounted : Frame U V → Nat
  | .finished => 1
  | _ => 0

/-- 1 when the next action ends a poll in a helping loop. -/
def helped : List (Frame U V) → Nat
  | .finished :: .blockOn .. :: _ => 1
  | _ => 0

/-- **A finished poll is counted once, unless a helping loop ends it.** -/
theorem threadStep_processed {sh sh' : Shared n U V} {t : ThreadId n m} {fs fs' : List (Frame U V)}
    (h : ThreadStep poll sh t fs sh' fs') (hq : ∀ p, Queues sh p → p.ch?.isSome) :
    ∃ d, sh'.tasksProcessed = sh.tasksProcessed + UInt64.ofNat d ∧
      d + weigh Frame.uncounted fs' + helped fs + finishes sh.log =
        weigh Frame.uncounted fs + finishes sh'.log := by
  have hbegin : ∀ (sh₁ : Shared n U V) (task : Task U), task.ch?.isSome →
      (sh₁.beginPoll poll task).1.tasksProcessed = sh₁.tasksProcessed ∧
      finishes (sh₁.beginPoll poll task).1.log = finishes sh₁.log ∧
      (sh₁.beginPoll poll task).2.uncounted = 0 := by
    intro sh₁ task hch
    obtain ⟨id, ⟨ch, u⟩ | _⟩ := task
    · simp [Shared.beginPoll, finishes, Frame.uncounted]
    · cases hch
  cases h with
  | finishedRun l fs =>
    refine ⟨1, rfl, ?_⟩
    simp [Frame.uncounted, helped]
  | finishedHelp c l fs =>
    refine ⟨0, by simp, ?_⟩
    simp [Frame.uncounted, helped]
    omega
  | endWrapped id c u fs =>
    refine ⟨0, by simp, ?_⟩
    simp [Frame.uncounted, helped, finishes]
    omega
  | helpTask c l ch' sh₁ l' task fs hh =>
    obtain ⟨q, hgq, rfl⟩ := Executor.help_some hh
    obtain ⟨h1, h2, h3⟩ := hbegin { sh with globalQueue := q } task
      (hq _ (Or.inl (hgq ▸ List.mem_cons_self)))
    refine ⟨0, by rw [h1]; simp, ?_⟩
    rw [weigh_cons, h3, h2]
    simp [Frame.uncounted, helped]
  | runTask i l c sh₁ l' task fs _ hh =>
    have htook := WorkerThread.step_some hh
    obtain ⟨h1, h2, h3⟩ := hbegin sh₁ task (hq _ htook.taken)
    refine ⟨0, ?_, ?_⟩
    · rw [h1, htook.eq]
      simp
    · rw [weigh_cons, h3, h2, htook.eq]
      simp [Frame.uncounted, helped]
  | help c l ch' sh' l' fs _ hh =>
    rw [Executor.help_none hh]
    exact ⟨0, by simp, by simp [Frame.uncounted, helped]⟩
  | run i l c sh' l' fs _ _ hh =>
    rw [WorkerThread.step_none hh]
    exact ⟨0, by simp, by simp [Frame.uncounted, helped]⟩
  | pollHandle task c k fs _ =>
    refine ⟨0, ?_, ?_⟩
    · rw [pollHandle_eq]
      simp
    · unfold Shared.pollHandle
      split <;> simp [Frame.uncounted, helped, finishes]
  | requeue left owned fs =>
    obtain ⟨l, hl, hsil⟩ := log_pushPending sh owned
    refine ⟨0, by simp [Shared.pushPending], ?_⟩
    rw [hl, finishes_append, finishes_silent hsil]
    simp [Frame.uncounted, helped]
  | spawned task c fs | startBlockOn task c fs =>
    obtain ⟨l, hl, hsil⟩ := log_pushSpawned sh task c _
    refine ⟨0, by simp [Shared.pushSpawned], ?_⟩
    rw [hl, finishes_append, finishes_silent hsil]
    simp [Frame.uncounted, helped]
  | callSpawn task u k fs _ | callBlockOn task u k fs _ =>
    refine ⟨0, by simp [Shared.newTask], ?_⟩
    simp [Frame.uncounted, helped, Shared.newTask, finishes]
  | ready id c u v fs | panic id c u fs | recvOk c l v fs _ _ =>
    refine ⟨0, by simp [Shared.destroy], ?_⟩
    simp [Frame.uncounted, helped, Shared.destroy, finishes]
  | _ =>
    refine ⟨0, by simp [Shared.dropReceiver, Shared.destroy, Shared.dropWorker], ?_⟩
    simp [Frame.uncounted, helped, Shared.dropReceiver, Shared.destroy, Shared.dropWorker]

/-! ## Whole runs -/

theorem helped_eq {s : State n m U V} {t : ThreadId n m} (b : State n m U V) :
    s.FinishesHelping t b ∧ helped (s.threads t) = 1 ∨
      ¬ s.FinishesHelping t b ∧ helped (s.threads t) = 0 := by
  unfold State.FinishesHelping helped
  split
  · next ch l fs hfs => exact Or.inl ⟨⟨ch, l, fs, hfs⟩, rfl⟩
  · next hno => exact Or.inr ⟨fun ⟨ch, l, fs, hfs⟩ => hno ch l fs hfs, rfl⟩

/-- The counter and what it misses. -/
def Processed (k : Nat) (s : State n m U V) : Prop :=
  ∃ p, s.shared.tasksProcessed = UInt64.ofNat p ∧
    p + census Frame.uncounted s + k = finishes s.shared.log

theorem processed_step {k : Nat} {s s' : State n m U V} {t : ThreadId n m} (ha : Accounted s)
    (h : Processed k s) (hs : Step poll s t s') : Processed (k + helped (s.threads t)) s' := by
  obtain ⟨p, hp, hcount⟩ := h
  obtain @⟨sh', fs', hs, -⟩ := hs
  obtain ⟨d, hd, hsum⟩ := threadStep_processed hs ha.queues
  have hcensus := census_update Frame.uncounted s sh' t fs'
  refine ⟨p + d, ?_, ?_⟩
  · show sh'.tasksProcessed = _
    rw [hd, hp, UInt64.ofNat_add]
  · simp only
    omega

/-- **The counter misses the polls that helping loops end.** -/
theorem processed_counted {k : Nat} {s : State n m U V}
    (h : Counted (Step poll) State.FinishesHelping (State.init n m U V) k s) : Processed k s := by
  induction h with
  | nil =>
    refine ⟨0, rfl, ?_⟩
    rw [census_init _ rfl rfl]
    rfl
  | @hit k a b t hr hs hC ih =>
    have hone : helped (a.threads t) = 1 := ((helped_eq b).resolve_right fun h => h.1 hC).2
    have := processed_step (accounted_reachable hr.run) ih hs
    rwa [hone] at this
  | @miss k a b t hr hs hC ih =>
    have hzero : helped (a.threads t) = 0 := ((helped_eq b).resolve_left fun h => hC h.1).2
    have := processed_step (accounted_reachable hr.run) ih hs
    rwa [hzero, Nat.add_zero] at this

/-- **With no poll under way the counter is the number of finished tasks less those that
finished in a helping loop**, so it is that number exactly if none did. -/
theorem processed_eq_iff {k : Nat} {s : State n m U V}
    (h : Counted (Step poll) State.FinishesHelping (State.init n m U V) k s)
    (hlt : s.shared.spawned < 2 ^ 64) (hno : s.NoPoll) :
    (ExecutorInner.stats s.shared).2.toNat + k = s.finishedTasks ∧
    ((ExecutorInner.stats s.shared).2.toNat = s.finishedTasks ↔ k = 0) := by
  obtain ⟨p, hp, hcount⟩ := processed_counted h
  have hzero : census Frame.uncounted s = 0 := by
    refine (tally_eq_zero _ _).2 fun t => ?_
    by_contra hne
    obtain ⟨f, hf, hpos⟩ := exists_of_weigh_pos _ (Nat.pos_of_ne_zero hne)
    refine hno t f hf ?_
    cases f with
    | finished => trivial
    | _ => exact absurd hpos (Nat.lt_irrefl 0)
  have hfin := (accounted_reachable h.run).finishes_eq
  have hle : s.finishedTasks ≤ s.shared.spawned := by
    refine (Finset.card_filter_le _ _).trans ?_
    rw [Finset.card_range]
  have hval : (ExecutorInner.stats s.shared).2.toNat = p := by
    rw [ExecutorInner.stats, hp, UInt64.toNat_ofNat']
    exact Nat.mod_eq_of_lt (by omega)
  omega

/-- A worker polls the only task, twice. -/
theorem processed_eq_iff_yield : ∃ s : State 1 1 Sample Nat,
    (s.finishedTasks = 1 ∧ s.shared.spawned < 2 ^ 64 ∧ s.NoPoll) ∧
    (ExecutorInner.stats s.shared).2.toNat = s.finishedTasks := by
  obtain ⟨s, ⟨ts, hr⟩, hs⟩ := reachable_of_exec Sample.burst
    (G := fun a t => helped (a.threads t) = 0)
    (P := fun s : State 1 1 Sample Nat =>
      s.finishedTasks = 1 ∧ s.shared.spawned < 2 ^ 64 ∧ s.NoPoll)
    ((.inr 0, .code (Sample.spawns [.yield 5])) :: turns (.inr 0) 3 (.answer 0) ++
      turns (.inl 0) 13 (.steal (.batch 0))) (by decide)
  have hk : Counted (Step Sample.burst) State.FinishesHelping (State.init 1 1 Sample Nat) 0 s :=
    hr.counted fun a t b hG hC => by
      obtain ⟨ch, l, fs, hfs⟩ := hC
      rw [hfs] at hG
      cases hG
  exact ⟨s, hs, (processed_eq_iff hk hs.2.1 hs.2.2).2.2 rfl⟩

/-- `block_on` polls its task itself. -/
theorem not_processed_eq : ¬ ∀ s : State 1 1 Sample Nat,
    Reachable Sample.burst (fun a t => ¬ a.Panics t) s → s.shared.spawned < 2 ^ 64 → s.NoPoll →
    (ExecutorInner.stats s.shared).2.toNat = s.finishedTasks := by
  intro h
  obtain ⟨s, hr, hlt, hno, h0, h1⟩ := reachable_of_exec Sample.burst
    (G := fun a t => ¬ a.Panics t)
    (P := fun s : State 1 1 Sample Nat => s.shared.spawned < 2 ^ 64 ∧ s.NoPoll ∧
      (ExecutorInner.stats s.shared).2.toNat = 0 ∧ s.finishedTasks = 1)
    ((.inr 0, .code (.blockOn (.value 3) fun _ => .ready 0)) ::
      turns (.inr 0) 7 (.steal (.batch 0))) (by decide)
  have := h s hr hlt hno
  omega

end Luminal.Std
