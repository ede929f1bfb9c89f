import Luminal.Std.Stacks

/-!
# Which thread runs `ExecutorInner::drop`

The thread that drops the last `Runtime` or `Handle` runs `ExecutorInner::drop`, and a task can
own one.  A worker drops those of the tasks that it polls, and, when a panic ends it, those of
the tasks that go with its deque.  No worker ever drops the last exactly in the runs in which it
always leaves another (`torn_down_outside`); a worker that does joins itself and panics.
-/

namespace Luminal.Std

open Function Transition

variable {n m : Nat} {U V : Type} {poll : U → Burst U V}

/-- The code on top is about to panic, or the thread unwinds already. -/
def Doomed (fs : List (Frame U V)) : Prop :=
  (∃ task fs', fs = .user task (.run .panic) :: fs') ∨ ∃ fs', fs = .result none :: fs'

namespace State

/-- Thread `t` is running `ExecutorInner::drop`. -/
def Drops (s : State n m U V) (t : ThreadId n m) : Prop := ∃ j, .dropInner j ∈ s.threads t

/-- The condition on a step.  When a task that a worker polls drops a `Runtime` or a `Handle`, it is
not the only one, and when a worker unwinds, the tasks that go with it give back fewer than
there are. -/
def LeavesOwner (s : State n m U V) (tc : ThreadId n m × Choice U V) : Prop :=
  ∀ i, tc.1 = .inl i →
    ((∃ task k fs, s.threads tc.1 = .user task (.run (.dropRuntime k)) :: fs) →
      1 < s.shared.owners) ∧
    ((∃ l, s.threads tc.1 = [.result none, .run l]) → tc.2.answered ≠ 0 →
      tc.2.answered < s.shared.owners)

/-- Worker `i` is in `ExecutorInner::drop`, which has joined only workers before it and cannot get
past its own thread, and what comes after the drop is a panic. -/
def JoinsItself (s : State n m U V) (i : Fin n) : Prop :=
  ∃ j fs, s.threads (.inl i) = .dropInner j :: fs ∧ (∀ k ∈ j, k ≤ i.val) ∧ Doomed fs

/-- The top frame is in `ExecutorInner::drop`. -/
def inDrop : List (Frame U V) → Bool
  | .dropInner _ :: _ => true
  | _ => false

end State

section Drops

variable {s s' : State n m U V} {t : ThreadId n m}

/-- The end of a worker that unwinds: it leaves owners, or goes on in `ExecutorInner::drop`. -/
theorem Chosen.unwind {i : Fin n} {l : RunLoop} {c : Choice U V}
    (hfs : s.threads (.inl i) = [.result none, .run l]) (h : Chosen poll s (.inl i, c) s') :
    (s'.threads (.inl i) = [] ∧ (c.answered ≠ 0 → c.answered < s.shared.owners)) ∨
      (s'.threads (.inl i) = [.dropInner none, .result none, .run l] ∧ c.answered ≠ 0 ∧
        s.shared.owners ≤ c.answered) := by
  obtain ⟨sh', fs', hr, rfl⟩ := h.exists_exec
  simp only [update_self]
  have hr : execUnwind s.shared i c.answered [.result none, .run l] = some (sh', fs') := by
    rw [← hr, hfs]
    rfl
  unfold execUnwind at hr
  split at hr
  · next hk =>
    cases hr
    exact Or.inl ⟨rfl, fun h0 => (hk.resolve_left h0).2⟩
  · next hk =>
    split at hr <;> cases hr
    next hdoomed =>
    rw [not_or, not_and, Nat.not_lt] at hk
    exact Or.inr ⟨rfl, hk.1, hk.2 hdoomed.1⟩

/-- One step puts a worker into `ExecutorInner::drop` exactly if it breaks the condition. -/
theorem drops_step {tc : ThreadId n m × Choice U V} (h : ∀ i, ¬ s.Drops (.inl i))
    (hc : Chosen poll s tc s') : (∀ i, ¬ s'.Drops (.inl i)) ↔ s.LeavesOwner tc := by
  obtain ⟨t, c⟩ := tc
  have hstep := hc.step
  obtain ⟨hs, -⟩ := hstep
  constructor
  · rintro h' i rfl
    refine ⟨?_, ?_⟩
    · rintro ⟨task, k, fs, hfs⟩
      simp only at hs hfs
      rw [hfs] at hs
      cases hs with
      | dropRuntime _ _ _ hown => exact hown
      | dropLastRuntime => exact absurd ⟨none, by simp⟩ (h' i)
    · rintro ⟨l, hfs⟩
      rcases hc.unwind hfs with ⟨-, hlt⟩ | ⟨hfs', -⟩
      · exact hlt
      · exact absurd ⟨none, by rw [hfs']; exact List.mem_cons_self⟩ (h' i)
  · rintro hG i ⟨j, hj⟩
    by_cases ht : t = .inl i
    · subst ht
      have hj' := hj
      simp only [update_self] at hj
      rcases threadStep_kinds hs hj with ⟨g, hg, hgf⟩ | hnew
      · cases g <;> cases hgf
        exact h i ⟨_, hg⟩
      · cases hnew with
        | dropInner task k fs₁ hown hfs =>
          have := (hG i rfl).1 ⟨_, _, _, hfs⟩
          omega
        | released l _ hfs =>
          rcases hc.unwind hfs with ⟨hnil, -⟩ | ⟨-, hne, hle⟩
          · rw [hnil] at hj'
            cases hj'
          · have := (hG i rfl).2 ⟨l, hfs⟩ hne
            simp only at this
            omega
        | poll hk => simp [Frame.kind] at hk
        | ending _ _ _ hk => simp [Frame.kind] at hk
    · simp only [update_of_ne (Ne.symm ht)] at hj
      exact h i ⟨j, hj⟩

/-- Once a worker is in `ExecutorInner::drop` its code goes on with a panic. -/
theorem threadStep_doomed {sh sh' : Shared n U V} {i : Fin n} {fs fs₁ : List (Frame U V)}
    {j : Option Nat} (h : ThreadStep (m := m) poll sh (.inl i) fs sh' (.dropInner j :: fs₁))
    (hs : Stacked n true fs) (hp : ∀ j', fs = .dropInner j' :: fs₁ → Doomed fs₁) : Doomed fs₁ := by
  generalize hfs' : (Frame.dropInner j :: fs₁ : List (Frame U V)) = fs' at h
  cases h with
  | dropLastRuntime task k fs _ =>
    cases hfs'
    exact Or.inl ⟨_, _, rfl⟩
  | unwindLast =>
    cases hfs'
    exact Or.inr ⟨_, rfl⟩
  | dropSignal | dropJoin =>
    cases hfs'
    exact hp _ rfl
  | helpTask _ _ _ sh₁ _ task | runTask _ _ _ sh₁ _ task =>
    have hk := kind_beginPoll poll sh₁ task
    rw [← (List.cons.inj hfs').1] at hk
    rcases hk with hk | hk <;> cases hk
  | requeue =>
    subst hfs'
    cases hs.requeue_loops
  | spawned =>
    subst hfs'
    cases hs with
    | loop hl => cases hl
  | dropQueue =>
    subst hfs'
    rcases hs.drop_below.2 with ⟨_, _, _, hfs, -⟩ | ⟨_, hfs, -⟩ <;> cases hfs
  | _ => cases hfs'

/-- **A worker in `ExecutorInner::drop` joins itself.** -/
theorem joinsItself_reachable {G : State n m U V → ThreadId n m → Prop} (h : Reachable poll G s)
    {i : Fin n} (hd : s.Drops (.inl i)) : s.JoinsItself i := by
  obtain ⟨j, hj⟩ := hd
  obtain ⟨fs, hfs⟩ := (stacked_reachable h (.inl i)).drop_top hj
  refine ⟨j, fs, hfs, fun k hk => ?_, ?_⟩
  · -- the workers that were joined are dead, this one is not
    by_contra hlt
    cases hk
    have hdead := (joined_reachable h).joined (.inl i) k hj i (Nat.not_le.1 hlt)
    rw [(staffed_reachable h).live hfs] at hdead
    cases hdead
  · obtain ⟨ts, hr⟩ := h
    have hstacked : ∀ ls a, Run (Step poll) G (State.init n m U V) ls a →
        Stacked n true (a.threads (.inl i)) := fun ls a hr => stacked_reachable ⟨ls, hr⟩ (.inl i)
    refine hr.invariant_with
      (P := fun s => ∀ j fs, s.threads (.inl i) = .dropInner j :: fs → Doomed fs)
      hstacked nofun ?_ j fs hfs
    rintro a t b hstack ha - ⟨hs, -⟩ j' fs' hfs'
    by_cases ht : t = .inl i
    · subst ht
      simp only [update_self] at hfs'
      subst hfs'
      exact threadStep_doomed hs hstack fun j hfs => ha j _ hfs
    · simp only [update_of_ne (Ne.symm ht)] at hfs'
      exact ha j' fs' hfs'

end Drops

/-- **No worker runs `ExecutorInner::drop` exactly if no worker drops the last `Runtime`**: the
runs in none of whose states one does are the runs in which every worker that drops some leaves
another.  One that leaves none joins the workers before it, then itself, which panics. -/
theorem torn_down_outside (tcs : List (ThreadId n m × Choice U V)) (s : State n m U V) :
    (Run (Chosen poll) (fun a _ => ∀ i, ¬ a.Drops (.inl i)) (State.init n m U V) tcs s ∧
        (∀ i, ¬ s.Drops (.inl i)) ↔
      Run (Chosen poll) State.LeavesOwner (State.init n m U V) tcs s) ∧
    (Reachable poll always s → ∀ i, s.Drops (.inl i) → s.JoinsItself i) := by
  constructor
  · have hinit : ∀ i, ¬ (State.init n m U V).Drops (.inl i) := by
      rintro i ⟨j, hj⟩
      cases List.mem_singleton.1 hj
    exact Run.states_iff (R := fun _ => True) (fun _ _ _ => trivial) hinit
      fun a t b _ ha hs => drops_step ha hs
  · exact fun h i hd => joinsItself_reachable h hd

/-- A task that drops a `Runtime` it owns, and one that panics. -/
def Sample.owner : Bool → Burst Bool Nat
  | true => .dropRuntime (.ready 0)
  | false => .panic

/-- Thread `t` is a worker about to drop a `Runtime`, or about to end by a panic. -/
def State.mayDrop (s : State n m U V) : ThreadId n m → Bool
  | .inl i =>
    match s.threads (.inl i) with
    | .user _ (.run (.dropRuntime _)) :: _ => true
    | [.result none, .run _] => true
    | _ => false
  | .inr _ => false

theorem leavesOwner_of_one {tc : ThreadId n m × Choice U V} {s : State n m U V}
    (hc : tc.2.answered ≤ 1) (h : s.mayDrop tc.1 = true → 1 < s.shared.owners) :
    s.LeavesOwner tc := by
  obtain ⟨t, c⟩ := tc
  rintro i rfl
  unfold State.mayDrop at h
  refine ⟨?_, ?_⟩
  · rintro ⟨task, k, fs, hfs⟩
    exact h (by simp only [show s.threads (.inl i) = _ from hfs])
  · rintro ⟨l, hfs⟩ -
    exact Nat.lt_of_le_of_lt hc (h (by simp only [show s.threads (.inl i) = _ from hfs]))

/-- A thread gives a clone of its `Runtime` to the second of three tasks, and keeps its own.  The
worker takes the first two in one batch and dies of the first; the second goes with its deque. -/
theorem torn_down_outside_owner : ∃ s : State 1 1 Bool Nat,
    (.destroyed 1 ∈ s.shared.log ∧ s.shared.owners = 1) ∧ ∀ i, ¬ s.Drops (.inl i) := by
  obtain ⟨tcs, hle, s, hs, hlog, hown⟩ : ∃ tcs : List (ThreadId 1 1 × Choice Bool Nat),
      (∀ tc ∈ tcs, tc.2.answered ≤ 1) ∧ ∃ s, (State.init 1 1 Bool Nat).execAll
        (fun s t => s.mayDrop t = true → 1 < s.shared.owners) Sample.owner tcs = some s ∧
        .destroyed 1 ∈ s.shared.log ∧ s.shared.owners = 1 :=
    ⟨(.inr 0, .code (.cloneRuntime (.spawn false fun _ => .spawn true fun _ => .spawn false fun _ =>
        .ready 0))) :: turns (.inr 0) 7 (.answer 0) ++ turns (.inl 0) 4 (.steal (.batch 1)) ++
        turns (.inl 0) 1 (.answer 1),
      by decide, _, rfl, by decide, rfl⟩
  have hrun : Run (Chosen Sample.owner) State.LeavesOwner (State.init 1 1 Bool Nat) tcs s :=
    (State.execAll_chosen hs).of_labels fun tc htc a ha => leavesOwner_of_one (hle tc htc) ha
  exact ⟨s, ⟨hlog, hown⟩, ((torn_down_outside tcs s).1.2 hrun).2⟩

/-- The thread drops its own before the task is polled. -/
theorem not_torn_down_outside : ¬ ∀ s : State 1 1 Bool Nat, Reachable Sample.owner always s →
    ∀ i, ¬ s.Drops (.inl i) := by
  intro h
  obtain ⟨s, hr, hs⟩ := reachable_of_exec Sample.owner (G := always)
    (P := fun s : State 1 1 Bool Nat => State.inDrop (s.threads (.inl 0)) = true)
    ((.inr 0, .code (.cloneRuntime (.spawn true fun _ => .dropRuntime (.ready 0)))) ::
      turns (.inr 0) 4 (.answer 0) ++ turns (.inl 0) 4 (.steal (.batch 0))) (by decide)
  refine h s hr 0 ?_
  unfold State.inDrop at hs
  split at hs
  · next j fs hfs => exact ⟨j, hfs ▸ List.mem_cons_self⟩
  · cases hs

end Luminal.Std
