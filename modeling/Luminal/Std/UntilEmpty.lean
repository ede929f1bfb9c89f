import Luminal.Std.Frames
import Luminal.Std.Workers

/-!
# `Executor::run`

`Executor::run` watches the global queue only (`Executor.Returns`), while `steal_work` moves
tasks out of it into the workers' deques.  So it can leave with spawned tasks still queued
(`not_returns_drained`).  It does not in exactly those runs in which the last task of the
global queue is always taken alone, with no task in a deque (`returns_drained_iff`).  What an
action takes depends on the batch, so the runs here are labelled with the answers too (`Chosen`).
-/

namespace Luminal.Std

open Function Transition

variable {n m : Nat} {U V : Type} {poll : U → Burst U V}

/-- `self.inner.global_queue.is_empty()` -/
def Executor.isEmpty (sh : Shared n U V) : Bool := sh.globalQueue.isEmpty

/-- A call of `Executor::run` made in the first state leaves its loop at the check in the second.
While it sleeps the threads go on; it borrows the executor. -/
inductive Executor.Returns (poll : U → Burst U V) : State n m U V → State n m U V → Prop
  | leave {s : State n m U V} : Executor.isEmpty s.shared = true → Returns poll s s
  | sleep {s s₁ s' : State n m U V} {ts : List (ThreadId n m)} :
      Executor.isEmpty s.shared = false → Run (Step poll) always s ts s₁ → 0 < s₁.shared.owners →
      Returns poll s₁ s' → Returns poll s s'

/-- At a check that lets `Executor::run` leave, no unfinished task that was spawned before the call
is queued anywhere. -/
def State.Drained (poll : U → Burst U V) (s : State n m U V) : Prop :=
  ∀ s₀, Reachable poll always s₀ → 0 < s₀.shared.owners → Executor.Returns poll s₀ s →
    ∀ ch u, .spawned ch u ∈ s₀.shared.log → .ready ch ∉ s.shared.log → queued ch s.shared = 0

/-! ## What an action takes out of the global queue -/

/-- What worker `i` takes out of the global queue `q`, the batch it moves included. -/
def WorkerThread.grabs (l : RunLoop) (c : StealChoice) (q : List (Task U)) : List (Task U) :=
  match l.pc, c with
  | .steal, .batch k => q.take (k + 1)
  | .stealRetry, .batch _ => q.take 1
  | _, _ => []

def Executor.grabs (l : BlockOnLoop) (c : StealChoice) (q : List (Task U)) : List (Task U) :=
  match l.pc, c with
  | .help i, .batch _ => if i < 4 then q.take 1 else []
  | _, _ => []

namespace State

/-- The tasks that the action takes out of the global queue to poll them or to keep them in a
deque. -/
def grabs (s : State n m U V) (tc : ThreadId n m × Choice U V) : List (Task U) :=
  match s.threads tc.1 with
  | .run l :: _ => WorkerThread.grabs l tc.2.stolen s.shared.globalQueue
  | .blockOn _ l :: _ => Executor.grabs l tc.2.stolen s.shared.globalQueue
  | _ => []

/-- The condition on a step: when it takes the last task out of the global queue, it takes no other
with it, and no task is in a deque. -/
def TakesAlone (s : State n m U V) (tc : ThreadId n m × Choice U V) : Prop :=
  0 < s.shared.owners → s.shared.globalQueue ≠ [] → s.grabs tc = s.shared.globalQueue →
    s.shared.globalQueue.length = 1 ∧ ∀ i, s.shared.locals i = []

/-- Nothing is queued when the global queue is empty. -/
def Settled (s : State n m U V) : Prop :=
  0 < s.shared.owners → s.shared.globalQueue = [] → ∀ i, s.shared.locals i = []

end State

theorem update_append_nil_iff {α : Type} {g : Fin n → List α} {i : Fin n} {x : List α} :
    (∀ j, update g i (g i ++ x) j = []) ↔ x = [] ∧ ∀ j, g j = [] := by
  constructor
  · intro h
    have hi := h i
    rw [update_self, List.append_eq_nil_iff] at hi
    refine ⟨hi.2, fun j => ?_⟩
    by_cases hj : j = i
    · rw [hj]
      exact hi.1
    · have hjn := h j
      rwa [update_of_ne hj] at hjn
  · rintro ⟨rfl, h⟩ j
    rw [List.append_nil, update_eq_self]
    exact h j

/-- **What a worker takes leaves the global queue, and comes into its deque but for the first.** -/
theorem WorkerThread.step_grabs {i : Fin n} {sh sh' : Shared n U V} {l l' : RunLoop}
    {c : StealChoice} {r : Option (Task U)} (h : WorkerThread.step i sh l c = (sh', l', r)) :
    sh'.owners = sh.owners ∧
    sh.globalQueue = grabs l c sh.globalQueue ++ sh'.globalQueue ∧
    (sh.globalQueue ≠ [] → sh'.globalQueue = [] →
      sh'.locals = update sh.locals i (sh.locals i ++ sh.globalQueue.tail)) := by
  obtain ⟨pc, f, j⟩ := l
  -- an action that leaves the global queue alone
  have hquiet : sh'.owners = sh.owners → sh'.globalQueue = sh.globalQueue →
      sh'.owners = sh.owners ∧ sh.globalQueue = [] ++ sh'.globalQueue ∧
      (sh.globalQueue ≠ [] → sh'.globalQueue = [] →
        sh'.locals = update sh.locals i (sh.locals i ++ sh.globalQueue.tail)) := by
    intro hown hq
    refine ⟨hown, hq.symm, fun hne he => absurd ?_ hne⟩
    rw [← hq]
    exact he
  unfold WorkerThread.step at h
  cases pc with
  | top | backoff =>
    cases h
    exact hquiet rfl rfl
  | drain =>
    simp only at h
    split at h <;> cases h <;> exact hquiet rfl rfl
  | steal =>
    simp only at h
    split at h
    · cases h
      exact hquiet rfl rfl
    · next k task q hq =>
      cases h
      rw [hq]
      refine ⟨rfl, (List.take_append_drop (k + 1) (task :: q)).symm, fun _ he => ?_⟩
      show update sh.locals i (sh.locals i ++ q.take k) = _
      rw [List.take_of_length_le (List.drop_eq_nil_iff.1 he)]
      rfl
    · next k hq =>
      cases h
      rw [hq]
      exact ⟨rfl, rfl, fun hne => absurd rfl hne⟩
  | stealRetry =>
    cases c with
    | retry =>
      cases h
      exact hquiet rfl rfl
    | batch k =>
      simp only at h
      split at h
      · next task q _ hq =>
        cases h
        rw [hq]
        refine ⟨rfl, rfl, fun _ (he : q = []) => ?_⟩
        rw [he, List.tail_cons, List.append_nil, update_eq_self]
      · next hno =>
        cases h
        cases hq : sh.globalQueue with
        | nil => exact ⟨rfl, by simp [grabs], fun hne => absurd rfl hne⟩
        | cons task q => exact absurd hq (hno k task q rfl)
  | peer k =>
    simp only at h
    split at h
    · split at h
      · cases h
        exact hquiet rfl rfl
      · cases h
        exact hquiet rfl rfl
      · split at h <;> cases h <;> exact hquiet rfl rfl
    · cases h
      exact hquiet rfl rfl
  | peerRetry k =>
    simp only at h
    split at h
    · split at h <;> cases h <;> exact hquiet rfl rfl
    · cases h
      exact hquiet rfl rfl

theorem Executor.help_grabs {sh sh' : Shared n U V} {l l' : BlockOnLoop} {c : StealChoice}
    {r : Option (Task U)} (h : Executor.help sh l c = (sh', l', r)) :
    sh'.owners = sh.owners ∧ sh.globalQueue = grabs l c sh.globalQueue ++ sh'.globalQueue ∧
    sh'.locals = sh.locals ∧ (grabs l c sh.globalQueue).length ≤ 1 := by
  obtain ⟨pc, f, j⟩ := l
  unfold Executor.help at h
  cases pc with
  | tryRecv | backoff =>
    cases h
    exact ⟨rfl, rfl, rfl, Nat.zero_le _⟩
  | help k =>
    have hgrabs : ∀ (b : Nat) (q : List (Task U)),
        grabs ⟨.help k, f, j⟩ (.batch b) q = if k < 4 then q.take 1 else [] := fun _ _ => rfl
    simp only at h
    split at h
    · next hk =>
      split at h
      · cases h
        exact ⟨rfl, rfl, rfl, Nat.zero_le _⟩
      · next b task q hq =>
        cases h
        rw [hq, hgrabs, if_pos hk]
        exact ⟨rfl, rfl, rfl, Nat.le_refl 1⟩
      · next b hq =>
        cases h
        rw [hq, hgrabs, if_pos hk]
        exact ⟨rfl, rfl, rfl, Nat.zero_le _⟩
    · next hk =>
      cases h
      cases c with
      | retry => exact ⟨rfl, rfl, rfl, Nat.zero_le _⟩
      | batch b =>
        rw [hgrabs, if_neg hk]
        exact ⟨rfl, rfl, rfl, Nat.zero_le _⟩

/-- A thread that is not in one of the two loops takes nothing out of the queues, except at the
end of the executor. -/
theorem threadStep_settled {sh sh' : Shared n U V} {t : ThreadId n m} {fs fs' : List (Frame U V)}
    (h : ThreadStep poll sh t fs sh' fs') (hrun : ∀ l rest, fs ≠ .run l :: rest)
    (hblock : ∀ ch l rest, fs ≠ .blockOn ch l :: rest) :
    (sh'.globalQueue = [] → sh.globalQueue = [] ∨ (∃ j, .dropInner j ∈ fs) ∨ sh.abandoned = true) ∧
    ∀ d, sh.locals d = [] → sh'.locals d = [] := by
  cases h with
  | unwindRun i | unwindLast i =>
    simp only [Shared.dropWorker, Shared.destroy]
    refine ⟨fun he => ?_, fun d hd => ?_⟩
    · split at he
      · next hun => exact Or.inr (Or.inr hun.1)
      · exact Or.inl he
    · rw [hd]
      split <;> rfl
  | pollHandle task c k fs _ =>
    rw [pollHandle_eq]
    exact ⟨Or.inl, fun d => id⟩
  | requeue left owned fs =>
    exact ⟨fun he => absurd (List.append_eq_nil_iff.1 he).2 (List.cons_ne_nil _ _), fun d => id⟩
  | spawned task c fs | startBlockOn task c fs =>
    exact ⟨fun he => absurd (List.append_eq_nil_iff.1 he).2 (List.cons_ne_nil _ _), fun d => id⟩
  | dropQueue fs => exact ⟨fun _ => Or.inr (Or.inl ⟨_, List.mem_cons_self⟩), fun d => id⟩
  | run i l c sh' l' fs | runTask i l c sh₁ l' task fs => exact absurd rfl (hrun l fs)
  | exit i l => exact absurd rfl (hrun l [])
  | recvOk ch l v fs | recvDisconnected ch l fs => exact absurd rfl (hblock ch l fs)
  | help ch l c sh' l' fs | helpTask ch l c sh₁ l' task fs => exact absurd rfl (hblock ch l fs)
  | _ => exact ⟨Or.inl, fun d => id⟩

section Steps

variable {a b : State n m U V} {tc : ThreadId n m × Choice U V}

/-- One step, from what it takes and where that goes. -/
theorem settled_iff_of_grabs (ha : a.Settled) (hown : b.shared.owners = a.shared.owners)
    (hq : a.shared.globalQueue = a.grabs tc ++ b.shared.globalQueue)
    (hempty : a.shared.globalQueue = [] → (∀ d, a.shared.locals d = []) →
      ∀ d, b.shared.locals d = [])
    (hlast : a.shared.globalQueue ≠ [] → b.shared.globalQueue = [] →
      ((∀ d, b.shared.locals d = []) ↔
        a.shared.globalQueue.length = 1 ∧ ∀ d, a.shared.locals d = [])) :
    b.Settled ↔ a.TakesAlone tc := by
  constructor
  · intro hb hpos hne hall
    have hnil : b.shared.globalQueue = [] := by
      rw [hall] at hq
      exact List.append_right_eq_self.1 hq.symm
    exact (hlast hne hnil).1 (hb (hown ▸ hpos) hnil)
  · intro hG hpos hnil
    rw [hown] at hpos
    by_cases hne : a.shared.globalQueue = []
    · exact hempty hne (ha hpos hne)
    · rw [hnil, List.append_nil] at hq
      exact (hlast hne hnil).2 (hG hpos hne hq.symm)

theorem execTook_queues (poll : U → Burst U V) (sh : Shared n U V) (loop : Frame U V)
    (fs : List (Frame U V))
    (r : Option (Task U)) : ∃ log, (execTook poll sh loop fs r).1 = { sh with log := log } := by
  cases r with
  | none => exact ⟨sh.log, rfl⟩
  | some task => exact ⟨_, beginPoll_eq poll sh task⟩

theorem settled_iff_run {i : Fin n} {l : RunLoop} {fs fs' : List (Frame U V)} {sh' : Shared n U V}
    {threads : ThreadId n m → List (Frame U V)} (hown : Owned a) (ha : a.Settled)
    (hfs : a.threads (.inl i) = .run l :: fs) {c : Choice U V}
    (h : execRun poll a.shared c.stolen i l fs = some (sh', fs')) :
    State.Settled ⟨sh', threads⟩ ↔ a.TakesAlone (.inl i, c) := by
  have hgrabs : a.grabs (.inl i, c) = WorkerThread.grabs l c.stolen a.shared.globalQueue := by
    simp only [State.grabs, hfs]
  unfold execRun at h
  split at h
  · next hexit =>
    split at h <;> cases h
    have hzero := hown.flag hexit.2
    have hzero' : (a.shared.dropWorker i).owners = 0 := hzero
    exact iff_of_true (fun hpos => absurd hzero' hpos.ne') fun hpos => absurd hzero hpos.ne'
  · simp only [Option.some.injEq] at h
    rcases hr : WorkerThread.step i a.shared l c.stolen with ⟨sh₁, l', r⟩
    rw [hr] at h
    obtain ⟨log, hlog⟩ := execTook_queues poll sh₁ (.run l') fs r
    rw [h] at hlog
    cases hlog
    obtain ⟨howners, hq, hlocals⟩ := WorkerThread.step_grabs hr
    refine settled_iff_of_grabs ha howners (hgrabs ▸ hq) (fun hg hl d => ?_) fun hne he => ?_
    · cases r with
      | none =>
        rw [WorkerThread.step_none hr]
        exact hl d
      | some task =>
        rcases (WorkerThread.step_some hr).taken with hm | ⟨j, hm⟩
        · rw [hg] at hm
          cases hm
        · rw [hl j] at hm
          cases hm
    · show (∀ d, sh₁.locals d = []) ↔ _
      rw [hlocals hne he, update_append_nil_iff]
      refine and_congr_left fun _ => ?_
      cases hg : a.shared.globalQueue with
      | nil => exact absurd hg hne
      | cons task q => simp

theorem settled_iff_blockOn {t : ThreadId n m} {ch : Nat} {l : BlockOnLoop}
    {fs fs' : List (Frame U V)} {sh' : Shared n U V} {threads : ThreadId n m → List (Frame U V)}
    (ha : a.Settled) (hfs : a.threads t = .blockOn ch l :: fs) {c : Choice U V}
    (h : execBlockOn poll a.shared c.stolen ch l fs = (sh', fs')) :
    State.Settled ⟨sh', threads⟩ ↔ a.TakesAlone (t, c) := by
  have hgrabs : a.grabs (t, c) = Executor.grabs l c.stolen a.shared.globalQueue := by
    simp only [State.grabs, hfs]
  -- `try_recv` touches the channel only
  have hrecv : l.pc = .tryRecv → sh'.owners = a.shared.owners →
      sh'.globalQueue = a.shared.globalQueue → sh'.locals = a.shared.locals →
      (State.Settled ⟨sh', threads⟩ ↔ a.TakesAlone (t, c)) := by
    intro hpc hown hq hl
    refine settled_iff_of_grabs ha hown ?_ (fun _ h d => ?_) fun hne he => ?_
    · rw [hgrabs]
      unfold Executor.grabs
      rw [hpc]
      exact hq.symm
    · show sh'.locals d = []
      rw [hl]
      exact h d
    · exact absurd (hq.symm.trans he) hne
  unfold execBlockOn at h
  split at h
  · next hpc _ =>
    cases h
    exact hrecv hpc rfl rfl rfl
  · next hpc _ =>
    cases h
    exact hrecv hpc rfl rfl rfl
  · simp only at h
    rcases hr : Executor.help a.shared l c.stolen with ⟨sh₁, l', r⟩
    rw [hr] at h
    obtain ⟨log, hlog⟩ := execTook_queues poll sh₁ (.blockOn ch l') fs r
    rw [h] at hlog
    cases hlog
    obtain ⟨hown, hq, hlocals, hlen⟩ := Executor.help_grabs hr
    refine settled_iff_of_grabs ha hown (hgrabs ▸ hq) (fun _ hl d => ?_) fun hne he => ?_
    · show sh₁.locals d = []
      rw [hlocals]
      exact hl d
    · show (∀ d, sh₁.locals d = []) ↔ _
      rw [hlocals]
      refine (and_iff_right ?_).symm
      have he' : sh₁.globalQueue = [] := he
      rw [he', List.append_nil] at hq
      rw [← hq] at hlen
      have := List.length_pos_iff.2 hne
      omega

/-- **A step leaves nothing queued behind an empty global queue** exactly when it does not take its
last task with others, or past others. -/
theorem settled_iff_takesAlone (hown : Owned a) (ha : a.Settled) (h : Chosen poll a tc b) :
    b.Settled ↔ a.TakesAlone tc := by
  obtain ⟨t, c⟩ := tc
  have hstep := h.step
  have h : a.exec poll t c = some b := h
  unfold State.exec at h
  obtain ⟨⟨sh', fs'⟩, hr, h⟩ := Option.bind_eq_some_iff.1 h
  split at h <;> cases h
  cases hfs : a.threads t with
  | nil =>
    rw [hfs] at hr
    cases hr
  | cons f fs =>
    rw [hfs] at hr
    have hts : ThreadStep poll a.shared t (f :: fs) sh' fs' := exec_sound hr
    cases f with
    | run l =>
      cases t with
      | inl i => exact settled_iff_run hown ha hfs hr
      | inr i => cases hr
    | blockOn ch l => exact settled_iff_blockOn ha hfs (Option.some.inj hr)
    | _ =>
      obtain ⟨hq, hl⟩ := threadStep_settled hts nofun nofun
      have hnil : a.grabs (t, c) = [] := by simp only [State.grabs, hfs]
      constructor
      · intro _ _ hne hall
        rw [hnil] at hall
        exact absurd hall.symm hne
      · intro _ hpos he d
        have hpos' : 0 < a.shared.owners := (threadStep_owners hts).1 hpos
        rcases hq he with hg | ⟨j, hj⟩ | hab
        · exact hl d (ha hpos' hg d)
        · have := hown.drops t j (hfs ▸ hj)
          omega
        · have := hown.abandoned hab
          omega

end Steps

/-! ## Whole runs -/

/-- The call sees an empty queue, and its executor is still owned. -/
theorem Executor.Returns.empty {s₀ s : State n m U V} (h : Executor.Returns poll s₀ s)
    (hown : 0 < s₀.shared.owners) : s.shared.globalQueue = [] ∧ 0 < s.shared.owners := by
  induction h with
  | leave he => exact ⟨List.isEmpty_iff.1 he, hown⟩
  | sleep _ _ hpos _ ih => exact ih hpos

/-- **What `run` promises in a state**: behind an empty global queue nothing is queued. -/
theorem drained_iff_settled {s : State n m U V} (h : Reachable poll always s) :
    s.Drained poll ↔ s.Settled := by
  constructor
  · intro hd hown he i
    by_contra hne
    obtain ⟨p, hp⟩ := List.exists_mem_of_ne_nil _ hne
    have hq : Queues s.shared p := Or.inr ⟨i, hp⟩
    obtain ⟨ch, hch⟩ := Option.isSome_iff_exists.1 ((accounted_reachable h).queues p hq)
    have hpos := queued_pos hq hch
    obtain ⟨⟨u, hu⟩, hready, -⟩ := queued_unfinished h hpos
    have hzero := hd s h hown (.leave (List.isEmpty_iff.2 he)) ch u hu hready
    omega
  · intro hs s₀ _ hown hret ch u _ _
    obtain ⟨he, hpos⟩ := hret.empty hown
    have hl := hs hpos he
    unfold queued
    have hlocals : tally (occ ch) s.shared.locals = 0 := by
      rw [tally_eq_zero]
      intro i
      rw [hl i]
      rfl
    rw [he, hlocals]
    rfl

/-- **`Executor::run` leaves with nothing queued in exactly those runs in which the last task of
the global queue is taken alone**: no other with it, and none in a deque. -/
theorem returns_drained_iff (tcs : List (ThreadId n m × Choice U V)) (s : State n m U V) :
    (Run (Chosen poll) (fun a _ => a.Drained poll) (State.init n m U V) tcs s ∧ s.Drained poll) ↔
      Run (Chosen poll) State.TakesAlone (State.init n m U V) tcs s := by
  refine Run.states_iff (R := fun a => Reachable poll always a) (fun _ _ => Chosen.reachable) ?_ ?_
  · exact (drained_iff_settled ⟨[], Run.nil⟩).2 fun _ _ _ => rfl
  · intro a tc b ha hd hs
    have hb : Reachable poll always b := by
      obtain ⟨ts, hr⟩ := ha
      exact ⟨_, hr.snoc trivial hs.step⟩
    rw [drained_iff_settled hb]
    exact settled_iff_takesAlone (owned_reachable ha) ((drained_iff_settled ha).1 hd) hs

/-- Three tasks are queued.  A worker takes the first two in one batch and polls the first, another
worker takes the third; `run` leaves with the second in a deque. -/
theorem not_returns_drained : ¬ ∀ s : State 2 1 Sample Nat,
    Reachable Sample.burst always s → s.Drained Sample.burst := by
  intro h
  obtain ⟨s, hs, hown, he, hne⟩ := reachable_of_exec (n := 2) (m := 1) Sample.burst (G := always)
    (P := fun s => 0 < s.shared.owners ∧ s.shared.globalQueue = [] ∧ s.shared.locals 0 ≠ [])
    ((.inr 0, .code (Sample.spawns [.value 1, .value 2, .value 3])) ::
      turns (.inr 0) 6 (.answer 0) ++ turns (.inl 0) 3 (.steal (.batch 1)) ++
      turns (.inl 1) 3 (.steal (.batch 0))) (by decide)
  exact hne ((drained_iff_settled hs).1 (h s hs) hown he 0)

end Luminal.Std
