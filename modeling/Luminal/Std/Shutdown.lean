import Luminal.Std.Frames
import Luminal.Std.Workers

/-!
# How long a worker works on after the shutdown flag is set

A worker reads the flag at the top of its loop only.  `RunLoop.polls` bounds the polls it can
still start from each point of the loop: the drain empties a deque that nobody else fills, and
then at most one task is stolen.  No step of any thread raises the bound and a poll uses it up
(`polls_after_shutdown`).
-/

namespace Luminal.Std

open Function Transition

variable {n m : Nat} {U V : Type} {poll : U → Burst U V}

/-! ## The worker's loop -/

/-- The polls that can still start before the flag is read, `k` tasks being in the deque. -/
def RunLoop.polls (k : Nat) (l : RunLoop) : Nat :=
  match l.pc with
  | .top | .backoff => 0
  | .drain => if l.foundWork then k else max k 1
  | .steal | .stealRetry | .peer _ | .peerRetry _ => 1

/-- The actions that can still be taken until the worker has left, polls apart; `r` is the number
of its stealers. -/
def RunLoop.actions (r k : Nat) (l : RunLoop) : Nat :=
  match l.pc with
  | .top => 1
  | .backoff => 2
  | .peer j => 3 + 2 * (r - j)
  | .peerRetry j => 4 + 2 * (r - (j + 1))
  | .stealRetry => 4 + 2 * r
  | .steal => 5 + 2 * r
  | .drain => (if l.foundWork then 3 else 6 + 2 * r) + k

theorem RunLoop.polls_le (k : Nat) (l : RunLoop) : l.polls k ≤ max k 1 := by
  unfold RunLoop.polls
  split
  · omega
  · omega
  · split <;> omega
  · omega
  · omega
  · omega
  · omega

theorem RunLoop.polls_mono {k k' : Nat} (h : k ≤ k') (l : RunLoop) : l.polls k ≤ l.polls k' := by
  unfold RunLoop.polls
  split
  · exact le_rfl
  · exact le_rfl
  · split <;> omega
  all_goals exact le_rfl

theorem RunLoop.actions_le (r k : Nat) (l : RunLoop) : l.actions r k ≤ 6 + 2 * r + k := by
  unfold RunLoop.actions
  split
  · omega
  · omega
  · omega
  · omega
  · omega
  · omega
  · split <;> omega

theorem RunLoop.actions_mono {k k' : Nat} (h : k ≤ k') (r : Nat) (l : RunLoop) :
    l.actions r k ≤ l.actions r k' := by
  unfold RunLoop.actions
  split
  all_goals omega

/-- **An action of the loop uses up an action, and a poll it starts uses up a poll.** -/
theorem WorkerThread.step_spends {i : Fin n} {sh sh' : Shared n U V} {l l' : RunLoop}
    {c : StealChoice} {r : Option (Task U)} (h : WorkerThread.step i sh l c = (sh', l', r))
    (htop : l.pc ≠ .top) :
    l'.polls (sh'.locals i).length + r.toList.length ≤ l.polls (sh.locals i).length ∧
    l'.actions (stealers i).length (sh'.locals i).length <
      l.actions (stealers i).length (sh.locals i).length := by
  have hlen := stealers_length i
  unfold WorkerThread.step at h
  split at h
  · next hpc => exact absurd hpc htop
  · next hpc =>
    split at h
    · next hq =>
      cases h
      simp [RunLoop.polls, RunLoop.actions, hpc, hq]
      split <;> omega
    · next hq =>
      cases h
      simp only [RunLoop.polls, RunLoop.actions, hpc, hq]
      cases l.foundWork <;> simp
  · next hpc =>
    split at h
    · cases h
      simp [RunLoop.polls, RunLoop.actions, hpc]
    · cases h
      simp [RunLoop.polls, RunLoop.actions, hpc]
      omega
    · cases h
      simp [RunLoop.polls, RunLoop.actions, hpc]
  · next hpc =>
    split at h
    · cases h
      simp [RunLoop.polls, RunLoop.actions, hpc]
      omega
    · cases h
      simp [RunLoop.polls, RunLoop.actions, hpc]
  · next j hpc =>
    split at h
    · next hj =>
      split at h
      · cases h
        simp [RunLoop.polls, RunLoop.actions, hpc]
        omega
      · cases h
        simp [RunLoop.polls, RunLoop.actions, hpc]
        omega
      · split at h <;> cases h <;> simp [RunLoop.polls, RunLoop.actions, hpc] <;> omega
    · cases h
      simp [RunLoop.polls, RunLoop.actions, hpc]
      omega
  · next j hpc =>
    split at h
    · split at h
      · cases h
        simp [RunLoop.polls, RunLoop.actions, hpc]
        omega
      · cases h
        simp [RunLoop.polls, RunLoop.actions, hpc]
    · cases h
      simp [RunLoop.polls, RunLoop.actions, hpc]
  · next hpc =>
    cases h
    simp [RunLoop.polls, RunLoop.actions, hpc]

/-! ## Stacks -/

/-- What the loop in this frame can still do. -/
def Frame.ofLoop (w : RunLoop → Nat) : Frame U V → Nat
  | .run l => w l
  | _ => 0

theorem ofLoop_beginPoll (sh : Shared n U V) (task : Task U) (w : RunLoop → Nat) :
    (sh.beginPoll poll task).2.ofLoop w = 0 :=
  beginPoll_frame poll sh task (P := fun f => f.ofLoop w = 0) rfl fun _ => rfl

/-- A worker's stack has one loop. -/
theorem Based.exists_loop {fs : List (Frame U V)} (h : Based true fs) :
    ∃ l, ∀ w, weigh (Frame.ofLoop w) fs = w l := by
  induction fs with
  | nil => exact h.elim
  | cons f fs ih =>
    cases f with
    | run l =>
      obtain ⟨rfl, -⟩ := h
      exact ⟨l, fun w => rfl⟩
    | user task code =>
      cases task with
      | none => cases h.2
      | some p =>
        obtain ⟨l, hl⟩ := ih h
        exact ⟨l, fun w => by rw [weigh_cons, hl w]; exact Nat.zero_add _⟩
    | _ =>
      obtain ⟨l, hl⟩ := ih h
      exact ⟨l, fun w => by rw [weigh_cons, hl w]; exact Nat.zero_add _⟩

theorem Took.locals_length {i d : Fin n} {sh sh' : Shared n U V} {pc : RunPc} {task : Task U}
    (h : Took i sh pc task sh') (hd : d ≠ i) :
    (sh'.locals d).length ≤ (sh.locals d).length := by
  have hother : ∀ (g : Fin n → List (Task U)) (x : List (Task U)), update g i x d = g d :=
    fun g x => update_of_ne hd x g
  cases h with
  | pop q _ hq => simp [hother]
  | batch k q _ hq => simp [hother]
  | steal q _ hq => exact le_rfl
  | peerBatch e k q _ hq =>
    simp only [hother, update_apply]
    split
    · next heq =>
      subst heq
      rw [hq, List.length_drop, List.length_cons]
      omega
    · exact le_rfl
  | peer e q _ hq =>
    simp only [update_apply]
    split
    · next heq =>
      subst heq
      rw [hq, List.length_cons]
      omega
    · exact le_rfl

/-- **Only a worker's own loop fills its deque**, and no other action touches a loop, except to end
it. -/
theorem threadStep_loops {sh sh' : Shared n U V} {t : ThreadId n m} {fs fs' : List (Frame U V)}
    (h : ThreadStep poll sh t fs sh' fs') :
    (∀ d, t ≠ .inl d → (sh'.locals d).length ≤ (sh.locals d).length) ∧
    ((∃ l rest, fs = .run l :: rest) ∨
      ((∀ w, weigh (Frame.ofLoop w) fs' ≤ weigh (Frame.ofLoop w) fs) ∧
        ∀ d, (sh'.locals d).length ≤ (sh.locals d).length)) := by
  have hdrop : ∀ i d, ((sh.dropWorker i).locals d).length ≤ (sh.locals d).length := by
    intro i d
    simp only [Shared.dropWorker, Shared.destroy]
    split
    · exact Nat.zero_le _
    · exact le_rfl
  cases h with
  | run i l c sh' l' fs _ _ hh =>
    rw [WorkerThread.step_none hh]
    exact ⟨fun d _ => le_rfl, Or.inl ⟨l, fs, rfl⟩⟩
  | runTask i l c sh₁ l' task fs ht hh =>
    refine ⟨fun d hd => ?_, Or.inl ⟨l, fs, rfl⟩⟩
    rw [beginPoll_eq]
    refine (WorkerThread.step_some hh).locals_length fun hdi => hd ?_
    rw [ht, hdi]
  | exit i l ht hpc hshut => exact ⟨fun d _ => hdrop i d, Or.inl ⟨l, [], rfl⟩⟩
  | unwindRun i => exact ⟨fun d _ => hdrop i d, Or.inr ⟨fun w => Nat.zero_le _, hdrop i⟩⟩
  | unwindLast i => exact ⟨fun d _ => hdrop i d, Or.inr ⟨fun w => by simp [Frame.ofLoop], hdrop i⟩⟩
  | help c l ch' sh' l' fs _ hh =>
    rw [Executor.help_none hh]
    exact ⟨fun d _ => le_rfl, Or.inr ⟨fun w => le_rfl, fun d => le_rfl⟩⟩
  | helpTask c l ch' sh₁ l' task fs hh =>
    obtain ⟨q, -, rfl⟩ := Executor.help_some hh
    rw [beginPoll_eq]
    refine ⟨fun d _ => le_rfl, Or.inr ⟨fun w => ?_, fun d => le_rfl⟩⟩
    rw [weigh_cons, ofLoop_beginPoll, Nat.zero_add]
    exact le_rfl
  | pollHandle task c k fs _ =>
    rw [pollHandle_eq]
    exact ⟨fun d _ => le_rfl, Or.inr ⟨fun w => le_rfl, fun d => le_rfl⟩⟩
  | _ =>
    refine ⟨fun d _ => le_rfl, Or.inr ⟨fun w => ?_, fun d => le_rfl⟩⟩
    simp [Frame.ofLoop]

/-- After the flag is set, an action of a worker's loop ends it or spends. -/
theorem threadStep_run {sh sh' : Shared n U V} {i : Fin n} {l : RunLoop} {fs' : List (Frame U V)}
    (h : ThreadStep (m := m) poll sh (.inl i) [.run l] sh' fs') (hshut : sh.shutdown = true) :
    (l.pc = .top ∧ fs' = []) ∨ ∃ l' fs₁, fs' = fs₁ ++ [.run l'] ∧
      (∀ w, weigh (Frame.ofLoop w) fs₁ = 0) ∧
      l'.polls (sh'.locals i).length + fs₁.length ≤ l.polls (sh.locals i).length ∧
      l'.actions (stealers i).length (sh'.locals i).length <
        l.actions (stealers i).length (sh.locals i).length := by
  have htop : (l.pc = .top → sh.shutdown = false) → l.pc ≠ .top := by
    intro h hpc
    rw [h hpc] at hshut
    cases hshut
  cases h with
  | exit i l _ hpc _ => exact Or.inl ⟨hpc, rfl⟩
  | run j l c sh' l' fs ht hlive hh =>
    cases ht
    obtain ⟨h1, h2⟩ := WorkerThread.step_spends hh (htop hlive)
    exact Or.inr ⟨l', [], rfl, fun w => rfl, h1, h2⟩
  | runTask j l c sh₁ l' task fs ht hh =>
    cases ht
    obtain ⟨h1, h2⟩ := WorkerThread.step_spends hh (WorkerThread.step_some_pc hh)
    refine Or.inr ⟨l', [(sh₁.beginPoll poll task).2], rfl, fun w => ?_, ?_, ?_⟩
    · rw [weigh_cons, ofLoop_beginPoll]
      rfl
    · rw [beginPoll_eq]
      exact h1
    · rw [beginPoll_eq]
      exact h2

/-! ## Whole runs -/

namespace State

/-- Worker `i`'s loop starts a poll. -/
def StartsPoll (i : Fin n) (a : State n m U V) (t : ThreadId n m) (b : State n m U V) : Prop :=
  t = .inl i ∧ ∃ l f l', a.threads t = [.run l] ∧ b.threads t = [f, .run l']

/-- Worker `i` takes an action of its loop, the last one included. -/
def ActsInLoop (i : Fin n) (a : State n m U V) (t : ThreadId n m) (_b : State n m U V) : Prop :=
  t = .inl i ∧ ∃ l, a.threads t = [.run l]

def pollsLeft (s : State n m U V) (i : Fin n) : Nat :=
  weigh (Frame.ofLoop (RunLoop.polls (s.shared.locals i).length)) (s.threads (.inl i))

def actionsLeft (s : State n m U V) (i : Fin n) : Nat :=
  weigh (Frame.ofLoop (RunLoop.actions (stealers i).length (s.shared.locals i).length))
    (s.threads (.inl i))

end State

section Spending

variable {s s' : State n m U V} {t : ThreadId n m} {i : Fin n}

theorem Staffed.left_le (h : Staffed s) (i : Fin n) :
    s.pollsLeft i ≤ max (s.shared.locals i).length 1 ∧
    s.actionsLeft i ≤ 6 + 2 * (stealers i).length + (s.shared.locals i).length := by
  have hi := h.workers i
  unfold State.pollsLeft State.actionsLeft
  split at hi
  · obtain ⟨l, hl⟩ := hi.exists_loop
    rw [hl, hl]
    exact ⟨l.polls_le _, l.actions_le _ _⟩
  · rw [hi, weigh_nil, weigh_nil]
    exact ⟨Nat.zero_le _, Nat.zero_le _⟩

/-- With no more tasks in the deque, and no more on the stack, there is no more left. -/
theorem left_mono {fs fs' : List (Frame U V)} {k k' : Nat} (hk : k' ≤ k)
    (hfs : ∀ w, weigh (Frame.ofLoop w) fs' ≤ weigh (Frame.ofLoop w) fs) (r : Nat) :
    weigh (Frame.ofLoop (RunLoop.polls k')) fs' ≤ weigh (Frame.ofLoop (RunLoop.polls k)) fs ∧
    weigh (Frame.ofLoop (RunLoop.actions r k')) fs' ≤
      weigh (Frame.ofLoop (RunLoop.actions r k)) fs := by
  refine ⟨(hfs _).trans (weigh_mono _ fun f _ => ?_), (hfs _).trans (weigh_mono _ fun f _ => ?_)⟩
  · cases f with
    | run l => exact l.polls_mono hk
    | _ => exact le_rfl
  · cases f with
    | run l => exact l.actions_mono hk r
    | _ => exact le_rfl

/-- **No step leaves more to a worker's loop**; the loop's own actions and polls leave less. -/
theorem step_left (hstaff : Staffed s) (hshut : s.shared.shutdown = true) (hs : Step poll s t s') :
    s'.pollsLeft i ≤ s.pollsLeft i ∧ s'.actionsLeft i ≤ s.actionsLeft i ∧
    (s.StartsPoll i t s' → s'.pollsLeft i < s.pollsLeft i) ∧
    (s.ActsInLoop i t s' → s'.actionsLeft i < s.actionsLeft i) := by
  obtain @⟨sh', fs', hs, -⟩ := hs
  obtain ⟨hother, hloop⟩ := threadStep_loops hs
  unfold State.pollsLeft State.actionsLeft State.StartsPoll State.ActsInLoop
  by_cases ht : t = .inl i
  · subst ht
    simp only [update_self]
    by_cases hrun : ∃ l rest, s.threads (.inl i) = .run l :: rest
    · -- the loop acts
      obtain ⟨l, rest, hl⟩ := hrun
      have hbase := hstaff.workers i
      rw [if_pos (hstaff.live hl), hl] at hbase
      obtain rfl := hbase.run
      rw [hl] at hs ⊢
      rcases threadStep_run hs hshut with ⟨hpc, rfl⟩ | ⟨l', fs₁, rfl, hzero, hpolls, hacts⟩
      · refine ⟨Nat.zero_le _, Nat.zero_le _, ?_, fun _ => ?_⟩
        · rintro ⟨-, l₁, f, l₂, -, hf⟩
          cases hf
        · show 0 < l.actions _ _ + 0
          simp [RunLoop.actions, hpc]
      · simp only [weigh_append, hzero, weigh_cons, weigh_nil, Frame.ofLoop, Nat.zero_add,
          Nat.add_zero]
        refine ⟨by omega, by omega, ?_, fun _ => hacts⟩
        rintro ⟨-, l₁, f, l₂, -, hf⟩
        have hlen : fs₁.length = 1 := by
          have := congrArg List.length hf
          simpa using this
        omega
    · obtain ⟨hfs, hlen⟩ := hloop.resolve_left hrun
      obtain ⟨hpolls, hacts⟩ := left_mono (hlen i) hfs (stealers i).length
      refine ⟨hpolls, hacts, ?_, ?_⟩
      · rintro ⟨-, l, f, l', hl, -⟩
        exact absurd ⟨l, [], hl⟩ hrun
      · rintro ⟨-, l, hl⟩
        exact absurd ⟨l, [], hl⟩ hrun
  · simp only [update_of_ne (Ne.symm ht)]
    obtain ⟨hpolls, hacts⟩ := left_mono (hother i ht) (fun w => le_refl
      (weigh (Frame.ofLoop w) (s.threads (.inl i)))) (stealers i).length
    exact ⟨hpolls, hacts, fun h => absurd h.1 ht, fun h => absurd h.1 ht⟩

/-- A worker in its loop is never stuck. -/
theorem loop_enabled (poll : U → Burst U V) {l : RunLoop} (hl : s.threads (.inl i) = [.run l])
    (hshut : s.shared.shutdown = true) : ∃ s', Step poll s (.inl i) s' := by
  obtain ⟨sh', fs', hs⟩ :
    ∃ sh' fs', ThreadStep (m := m) poll s.shared (.inl i) [.run l] sh' fs' := by
    by_cases hpc : l.pc = .top
    · exact ⟨_, _, .exit i l rfl hpc hshut⟩
    · rcases hr : WorkerThread.step i s.shared l .retry with ⟨sh', l', _ | task⟩
      · exact ⟨_, _, .run i l _ _ _ _ rfl (fun h => absurd h hpc) hr⟩
      · exact ⟨_, _, .runTask i l _ _ _ _ _ rfl hr⟩
  refine ⟨_, .mk (hl ▸ hs) fun hpos hzero => ?_⟩
  rcases (threadStep_owners hs).2.1 hpos with h | ⟨-, _, _, _, h⟩ | ⟨_, _, -, h, -⟩
  · exact absurd hzero h.ne'
  · cases h
  · cases h

end Spending

/-- What the bounds rest on: the flag is set, and stacks are as they are in every reachable state
(`staffed_reachable`; so is `Owned`, by `owned_reachable`). -/
def ShuttingDown (s : State n m U V) : Prop := Staffed s ∧ s.shared.shutdown = true

theorem shuttingDown_step {s s' : State n m U V} {t : ThreadId n m} (h : ShuttingDown s)
    (hs : Step poll s t s') : ShuttingDown s' := by
  refine ⟨staffed_step h.1 hs, ?_⟩
  obtain @⟨sh', fs', hs, -⟩ := hs
  exact (threadStep_owners hs).2.2.2 (Or.inl h.2)

/-- **After the flag is set, a worker's loop starts at most as many polls as its deque holds
tasks, or one**, whatever the tasks and the other threads do.  All workers together start a
bounded number, each leaves its loop after a bounded number of its own actions, and no
`block_on` polls any more. -/
theorem polls_after_shutdown {s : State n m U V} (h : ShuttingDown s) :
    (∀ i k s', Counted (Step poll) (State.StartsPoll i) s k s' →
      k ≤ max (s.shared.locals i).length 1) ∧
    (∀ k s', Counted (Step poll) (fun a t b => ∃ i, a.StartsPoll i t b) s k s' →
      k ≤ ∑ i, max (s.shared.locals i).length 1) ∧
    (∀ i k s', Counted (Step poll) (State.ActsInLoop i) s k s' →
      k ≤ 6 + 2 * (stealers i).length + (s.shared.locals i).length ∧
      ∀ l, s'.threads (.inl i) = [.run l] → ∃ s'', Step poll s' (.inl i) s'') ∧
    (Owned s → ∀ ts s', Run (Step poll) always s ts s' → ¬ s'.InCall) := by
  have hkeep : ∀ (a : State n m U V) t b, ShuttingDown a → Step poll a t b → ShuttingDown b :=
    fun _ _ _ ha hs => shuttingDown_step ha hs
  refine ⟨fun i k s' hc => ?_, fun k s' hc => ?_, fun i k s' hc => ?_, fun ho ts s' hr hcall => ?_⟩
  · obtain ⟨-, hle⟩ := hc.add_le (φ := fun a => a.pollsLeft i) h hkeep
      (fun _ _ _ ha hs => (step_left ha.1 ha.2 hs).1)
      fun _ _ _ ha hs hC => (step_left ha.1 ha.2 hs).2.2.1 hC
    have := (h.1.left_le i).1
    omega
  · have hlt : ∀ (a : State n m U V) t b, ShuttingDown a → Step poll a t b →
        (∃ i, a.StartsPoll i t b) → ∑ i, b.pollsLeft i < ∑ i, a.pollsLeft i := by
      rintro a t b ha hs ⟨i, hi⟩
      exact Finset.sum_lt_sum (fun j _ => (step_left ha.1 ha.2 hs).1)
        ⟨i, Finset.mem_univ i, (step_left ha.1 ha.2 hs).2.2.1 hi⟩
    have hle : ∀ (a : State n m U V) t b, ShuttingDown a → Step poll a t b →
        ∑ i, b.pollsLeft i ≤ ∑ i, a.pollsLeft i :=
      fun a t b ha hs => Finset.sum_le_sum fun i _ => (step_left ha.1 ha.2 hs).1
    obtain ⟨-, hsum'⟩ := hc.add_le h hkeep hle hlt
    have hsum : ∑ i, s.pollsLeft i ≤ ∑ i, max (s.shared.locals i).length 1 :=
      Finset.sum_le_sum fun i _ => (h.1.left_le i).1
    omega
  · obtain ⟨hs', hle⟩ := hc.add_le (φ := fun a => a.actionsLeft i) h hkeep
      (fun _ _ _ ha hs => (step_left ha.1 ha.2 hs).2.1)
      fun _ _ _ ha hs hC => (step_left ha.1 ha.2 hs).2.2.2 hC
    have := (h.1.left_le i).2
    exact ⟨by omega, fun l hl => loop_enabled poll hl hs'.2⟩
  · have hown : Owned s' := hr.invariant ho fun _ _ _ ha _ hs => owned_step ha hs
    have hflag : ShuttingDown s' := hr.invariant h fun _ _ _ ha _ hs => shuttingDown_step ha hs
    have h0 := hown.flag hflag.2
    have hpos := hown.calls hcall
    omega

/-- A worker with a task in its deque is polling another one when the flag is set. -/
theorem polls_after_shutdown_two : ∃ s : State 1 1 Sample Nat,
    (s.shared.shutdown = true ∧ (s.shared.locals 0).length = 1) ∧
    ∀ k s', Counted (Step Sample.burst) (State.StartsPoll 0) s k s' →
      k ≤ max (s.shared.locals 0).length 1 := by
  obtain ⟨s, hr, hs⟩ := reachable_of_exec Sample.burst (G := always)
    (P := fun s : State 1 1 Sample Nat =>
      s.shared.shutdown = true ∧ (s.shared.locals 0).length = 1)
    ((.inr 0, .code (.spawn (.yield 5) fun _ => .spawn (.value 7) fun _ =>
      .spawn (.value 8) fun _ =>
        .dropRuntime (.ready 0))) :: turns (.inr 0) 6 (.answer 0) ++
      turns (.inl 0) 3 (.steal (.batch 1)) ++ turns (.inr 0) 2 (.answer 0)) (by decide)
  exact ⟨s, hs, (polls_after_shutdown ⟨staffed_reachable hr, hs.1⟩).1 0⟩

end Luminal.Std
