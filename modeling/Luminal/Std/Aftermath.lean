import Luminal.Std.Frames
import Luminal.Std.Workers

/-!
# When the executor is gone

`ExecutorInner::drop` joins the workers in order, so when it is over no worker is left, and no
thread outside polls a task: that would take a `block_on` call, which borrows a `Runtime`
(`gone_of_letGo`).  What such a thread still does leaves the queue as it is (`Gone.step`).
-/

namespace Luminal.Std

open Function Transition

variable {n m : Nat} {U V : Type} {poll : U → Burst U V}

/-! ## Stacks during shutdown -/

section Stacks

/-- A poll in progress has a waker on the stack (`create_task_waker`). -/
def Frame.waker : Frame U V → Nat
  | .user (some _) _ | .sent _ | .finished | .requeue _ _ => 1
  | _ => 0

/-- `g` can lie directly below `f`: a poll is on top of the loop that polls. -/
def Rests (f g : Frame U V) : Prop := f.waker = 1 → g.kind = .run ∨ g.kind = .blockOn

theorem rests_replace {f g : Frame U V} {fs : List (Frame U V)} (h : List.IsChain Rests (f :: fs))
    (hw : g.waker = 1 → f.waker = 1) : List.IsChain Rests (g :: fs) :=
  List.IsChain.imp_head (fun hz hg => hz (hw hg)) h

theorem rests_push {f g : Frame U V} {fs : List (Frame U V)} (h : List.IsChain Rests (g :: fs))
    (hg : f.waker = 1 → g.kind = .run ∨ g.kind = .blockOn) : List.IsChain Rests (f :: g :: fs) :=
  List.isChain_cons_cons.2 ⟨hg, h⟩

theorem threadStep_rests {sh sh' : Shared n U V} {t : ThreadId n m} {fs fs' : List (Frame U V)}
    (h : ThreadStep poll sh t fs sh' fs') (hc : List.IsChain Rests fs) :
    List.IsChain Rests fs' := by
  cases h with
  | callSpawn task u k fs _ | callBlockOn task u k fs _ | dropLastRuntime task k fs _ =>
    refine rests_push (rests_replace hc ?_) nofun
    cases task <;> exact id
  | helpTask c l ch' sh₁ l' task fs hh =>
    exact rests_push (rests_replace hc nofun) fun _ => Or.inr rfl
  | runTask i l c sh₁ l' task fs _ hh =>
    exact rests_push (rests_replace hc nofun) fun _ => Or.inl rfl
  | finishedRun l fs | finishedHelp c l fs => exact hc.tail
  | requeue | spawned | dropSelf | dropQueue => exact hc.tail
  | resume r task k fs =>
    refine rests_replace hc.tail ?_
    cases task <;> exact id
  | unwindBlockOn c l fs => exact rests_replace hc.tail nofun
  | unwindRun | exit => exact List.isChain_nil
  | unwindLast => exact rests_push hc nofun
  | outside task k fs x | pollHandle task c k fs _ | dropHandle task c k fs _
  | cloneRuntime task k fs _ | dropRuntime task k fs _ =>
    refine rests_replace hc ?_
    cases task <;> exact id
  | pendingRun id c u₀ u l fs | pendingHelp id c u₀ u b l fs | ready id c u v fs
  | endWrapped id c u fs => exact rests_replace hc fun _ => rfl
  | _ => exact rests_replace hc nofun

/-- `ExecutorInner::drop` joins the workers in order. -/
theorem threadStep_joined {sh sh' : Shared n U V} {t : ThreadId n m} {fs fs' : List (Frame U V)}
    (h : ThreadStep poll sh t fs sh' fs') {j : Nat} (hj : .dropInner (some j) ∈ fs') :
    .dropInner (some j) ∈ fs ∨ j = 0 ∨
      ∃ i, ∃ hi : i < n, j = i + 1 ∧ .dropInner (some i) ∈ fs ∧ sh.live ⟨i, hi⟩ = false := by
  cases h with
  | dropJoin i fs hi hlive =>
    rcases List.mem_cons.1 hj with heq | hj
    · cases heq
      exact Or.inr (Or.inr ⟨i, hi, rfl, List.mem_cons_self, hlive⟩)
    · exact Or.inl (List.mem_cons_of_mem _ hj)
  | dropSignal fs =>
    rcases List.mem_cons.1 hj with heq | hj
    · cases heq
      exact Or.inr (Or.inl rfl)
    · exact Or.inl (List.mem_cons_of_mem _ hj)
  | helpTask | runTask =>
    rcases List.mem_cons.1 hj with heq | hj
    · refine absurd heq (beginPoll_frame poll _ _ (P := fun f => .dropInner (some j) ≠ f) ?_ ?_)
      · nofun
      · exact fun _ => nofun
    · simp only [List.mem_cons, reduceCtorEq, false_or] at hj
      exact Or.inl (List.mem_cons_of_mem _ hj)
  | _ => grind

/-- Polls rest on loops, and the workers that were joined are dead. -/
structure Joined (s : State n m U V) : Prop where
  rests : ∀ t, List.IsChain Rests (s.threads t)
  joined : ∀ t j, .dropInner (some j) ∈ s.threads t → ∀ i : Fin n, i.val < j →
    s.shared.live i = false

theorem live_step {s s' : State n m U V} {t : ThreadId n m} (h : Staffed s) (hs : Step poll s t s')
    {i : Fin n} (hi : s.shared.live i = false) : s'.shared.live i = false := by
  obtain @⟨sh', fs', hs, -⟩ := hs
  obtain ⟨worker, hb⟩ := h.based hs
  rcases threadStep_based hs hb with ⟨-, -, hlive⟩ | ⟨d, _, -, -, -, rfl⟩
  · exact (congrFun hlive i).trans hi
  · show update s.shared.live d false i = false
    by_cases hd : i = d
    · rw [hd, update_self]
    · rw [update_of_ne hd, hi]

theorem joined_step {s s' : State n m U V} {t : ThreadId n m} (hstaff : Staffed s) (h : Joined s)
    (hs : Step poll s t s') : Joined s' := by
  have hlive := fun i => live_step hstaff hs (i := i)
  obtain @⟨sh', fs', hs, -⟩ := hs
  refine ⟨fun t' => ?_, fun t' j hj i hi => ?_⟩
  · by_cases ht : t' = t
    · subst ht
      simp only [update_self]
      exact threadStep_rests hs (h.rests t')
    · simp only [update_of_ne ht]
      exact h.rests t'
  · rcases mem_update_cases hj with hj | hj
    · rcases threadStep_joined hs hj with hj | rfl | ⟨k, hk, rfl, hmem, hdead⟩
      · exact hlive i (h.joined t j hj i hi)
      · exact absurd hi (Nat.not_lt_zero _)
      · by_cases hik : i.val = k
        · subst hik
          exact hlive i hdead
        · exact hlive i (h.joined t k hmem i (by omega))
    · exact hlive i (h.joined t' j hj i hi)

theorem joined_reachable {G : State n m U V → ThreadId n m → Prop} {s : State n m U V}
    (h : Reachable poll G s) : Joined s := by
  obtain ⟨ts, hr⟩ := h
  refine hr.invariant_with (P := Joined) (R := Staffed) (fun ts a hr => staffed_reachable ⟨ts, hr⟩)
    ⟨?_, ?_⟩ fun a t b hstaff ha _ hs => joined_step hstaff ha hs
  · rintro (i | i) <;> exact List.isChain_singleton _
  · rintro (i | i) j hj <;> cases List.mem_singleton.1 hj

end Stacks

/-! ## The threads after the last worker -/

/-- A frame of code outside the executor that borrows no `Runtime`. -/
def Frame.Idle : Frame U V → Prop
  | .user none _ | .result _ | .dropInner _ => True
  | _ => False

theorem Frame.Idle.weights {f : Frame U V} (h : f.Idle) (ch : Nat) :
    f.running ch = 0 ∧ f.creating ch = 0 ∧ f.waker = 0 := by
  match f, h with
  | .user none _, _ | .result _, _ | .dropInner _, _ => exact ⟨rfl, rfl, rfl⟩

/-- The executor has no owners, no workers and no polls. -/
structure Gone (s : State n m U V) : Prop where
  owners : s.shared.owners = 0
  live : ∀ i, s.shared.live i = false
  workers : ∀ i, s.threads (.inl i) = []
  others : ∀ i, ∀ f ∈ s.threads (.inr i), f.Idle

theorem idle_of_rests {fs : List (Frame U V)} (hc : List.IsChain Rests fs) (hb : Based false fs)
    (hcall : ∀ f ∈ fs, f.kind ≠ .spawn ∧ f.kind ≠ .blockOn) : ∀ f ∈ fs, f.Idle := by
  induction fs with
  | nil => nofun
  | cons f fs ih =>
    rw [List.forall_mem_cons] at hcall ⊢
    cases fs with
    | nil =>
      refine ⟨?_, nofun⟩
      match f, hb with
      | .user none _, _ => trivial
    | cons g gs =>
      rw [List.isChain_cons_cons] at hc
      have hbg : Based false (g :: gs) := by
        match f, hb with
        | .user none _, h => exact absurd h.1 (List.cons_ne_nil _ _)
        | .run _, h => exact absurd h.1 (List.cons_ne_nil _ _)
        | .user (some _) _, h | .sent _, h | .finished, h | .requeue _ _, h => exact h
        | .spawn _ _ _, h | .blockOn _ _, h | .result _, h | .dropInner _, h => exact h
      refine ⟨?_, ih hc.2 hbg hcall.2⟩
      -- no poll is in progress, there is no loop for it to rest on
      have hw : f.waker ≠ 1 := fun hw => by
        rcases hc.1 hw with hk | hk
        · match g, hbg with
          | .run _, h => exact Bool.noConfusion h.2
          | .user none _, _ => cases hk
        · exact (hcall.2 g List.mem_cons_self).2 hk
      match f with
      | .user none _ | .result _ | .dropInner _ => trivial
      | .user (some _) _ | .sent _ | .finished | .requeue _ _ => exact absurd rfl hw
      | .spawn _ _ _ => exact absurd rfl hcall.1.1
      | .blockOn _ _ => exact absurd rfl hcall.1.2
      | .run _ => exact absurd hb.1 (List.cons_ne_nil _ _)

/-- **When `ExecutorInner` lets go of the queue, its workers are gone and nobody polls.** -/
theorem gone_of_letGo {s : State n m U V} (h : Reachable poll always s) {t : ThreadId n m}
    {fs : List (Frame U V)} (hfs : s.threads t = .dropInner (some n) :: fs) : Gone s := by
  have hown := owned_reachable h
  have hstaff := staffed_reachable h
  have hjoin := joined_reachable h
  have hmem : .dropInner (some n) ∈ s.threads t := hfs ▸ List.mem_cons_self
  have h0 : s.shared.owners = 0 := hown.drops t _ hmem
  have hlive : ∀ i, s.shared.live i = false := fun i => hjoin.joined t n hmem i i.isLt
  refine ⟨h0, hlive, fun i => ?_, fun i => ?_⟩
  · simpa [hlive i] using hstaff.workers i
  · refine idle_of_rests (hjoin.rests _) (hstaff.others i) fun f hf => ?_
    have hno : ¬ s.InCall := fun hcall => by
      have := hown.calls hcall
      omega
    rw [State.inCall_iff] at hno
    constructor
    · exact fun hk => hno ⟨_, f, hf, Or.inl hk⟩
    · exact fun hk => hno ⟨_, f, hf, Or.inr hk⟩

/-- After the last join, `ExecutorInner::drop` lets go of the queue. -/
theorem threadStep_letGo {sh sh' : Shared n U V} {t : ThreadId n m} {fs fs' : List (Frame U V)}
    (h : ThreadStep poll sh t (.dropInner (some n) :: fs) sh' fs') :
    sh' = Shared.destroy sh.globalQueue { sh with globalQueue := [] } ∧ fs' = fs := by
  generalize hfs : (Frame.dropInner (some n) :: fs : List (Frame U V)) = gs at h
  cases h with
  | dropQueue =>
    cases hfs
    exact ⟨rfl, rfl⟩
  | dropJoin j gs hj _ =>
    cases hfs
    exact absurd hj (Nat.lt_irrefl n)
  | dropSelf i task b gs _ _ =>
    injection hfs with hframe
    injection hframe with hjoined
    injection hjoined with hn
    exact absurd i.isLt (by omega)
  | _ => cases hfs

namespace Gone

variable {s : State n m U V}

theorem census_eq_zero (h : Gone s) {w : Frame U V → Nat} (hw : ∀ f : Frame U V, f.Idle → w f = 0) :
    census w s = 0 := by
  refine (tally_eq_zero _ _).2 fun t => ?_
  cases t with
  | inl i => rw [h.workers i, weigh_nil]
  | inr i =>
    by_contra hn
    obtain ⟨f, hf, hpos⟩ := exists_of_weigh_pos w (Nat.pos_of_ne_zero hn)
    have := hw f (h.others i f hf)
    omega

end Gone

/-- What an action leaves as it is when the executor is gone. -/
structure Keeps (sh sh' : Shared n U V) : Prop where
  globalQueue : sh'.globalQueue = sh.globalQueue
  locals : sh'.locals = sh.locals
  live : sh'.live = sh.live
  owners : sh'.owners = sh.owners
  destroyed : ∀ ch, .destroyed ch ∈ sh'.log ↔ .destroyed ch ∈ sh.log
  sender : ∀ ch, (sh.chan ch).sender = false → (sh'.chan ch).sender = false

theorem Keeps.refl (sh : Shared n U V) : Keeps sh sh :=
  ⟨rfl, rfl, rfl, rfl, fun _ => Iff.rfl, fun _ => id⟩

theorem keeps_dropReceiver (sh : Shared n U V) (c : Nat) : Keeps sh (sh.dropReceiver c) := by
  refine ⟨rfl, rfl, rfl, rfl, fun _ => Iff.rfl, fun ch h => ?_⟩
  by_cases hc : ch = c
  · subst hc
    simpa [Shared.dropReceiver, Channel.dropReceiver] using h
  · simpa [Shared.dropReceiver, hc] using h

theorem keeps_pollHandle (sh : Shared n U V) (c : Nat) : Keeps sh (sh.pollHandle c).2 := by
  rw [pollHandle_eq]
  refine ⟨rfl, rfl, rfl, rfl, fun _ => by simp, fun ch h => ?_⟩
  by_cases hc : ch = c
  · subst hc
    simpa [JoinHandle.poll_sender] using h
  · simpa [hc] using h

theorem threadStep_gone {sh sh' : Shared n U V} {t : ThreadId n m} {fs fs' : List (Frame U V)}
    (h : ThreadStep poll sh t fs sh' fs') (hidle : ∀ f ∈ fs, f.Idle) (h0 : sh.owners = 0)
    (hq : ∀ fs₁, fs ≠ .dropInner (some n) :: fs₁) : Keeps sh sh' ∧ ∀ f ∈ fs', f.Idle := by
  cases h with
  | dropQueue => exact absurd rfl (hq _)
  | callSpawn task u k fs hown | callBlockOn task u k fs hown => omega
  | cloneRuntime task k fs hown | dropRuntime task k fs hown => omega
  | dropLastRuntime task k fs hown => omega
  | outside task k fs x =>
    rw [List.forall_mem_cons] at hidle ⊢
    refine ⟨Keeps.refl sh, ?_, hidle.2⟩
    cases task <;> exact hidle.1
  | pollHandle task c k fs _ =>
    rw [List.forall_mem_cons] at hidle ⊢
    refine ⟨keeps_pollHandle sh c, ?_, hidle.2⟩
    cases task <;> exact hidle.1
  | dropHandle task c k fs _ =>
    rw [List.forall_mem_cons] at hidle ⊢
    refine ⟨keeps_dropReceiver sh c, ?_, hidle.2⟩
    cases task <;> exact hidle.1
  | enter b fs | leavePending u fs | leaveReady v fs | leavePanic fs =>
    rw [List.forall_mem_cons] at hidle ⊢
    exact ⟨Keeps.refl sh, trivial, hidle.2⟩
  | resume r task k fs =>
    rw [List.forall_mem_cons, List.forall_mem_cons] at hidle
    refine ⟨Keeps.refl sh, List.forall_mem_cons.2 ⟨?_, hidle.2.2⟩⟩
    cases task <;> exact hidle.2.1
  | dropSignal fs =>
    rw [List.forall_mem_cons] at hidle ⊢
    exact ⟨⟨rfl, rfl, rfl, rfl, fun _ => Iff.rfl, fun _ => id⟩, trivial, hidle.2⟩
  | dropJoin j fs hj hlive =>
    rw [List.forall_mem_cons] at hidle ⊢
    exact ⟨Keeps.refl sh, trivial, hidle.2⟩
  | unwindBlockOn c l fs =>
    rw [List.forall_mem_cons, List.forall_mem_cons] at hidle
    exact hidle.2.1.elim
  | unwindRun | unwindLast =>
    rw [List.forall_mem_cons, List.forall_mem_cons] at hidle
    exact hidle.2.1.elim
  | dropSelf i task b fs _ _ =>
    rw [List.forall_mem_cons] at hidle
    exact ⟨⟨rfl, rfl, rfl, rfl, fun _ => Iff.rfl, fun _ => id⟩, hidle.2⟩
  | _ => exact (hidle _ List.mem_cons_self).elim

/-- **An action of code outside leaves the queue as it is.** -/
theorem Gone.step {s s' : State n m U V} {t : ThreadId n m} (h : Gone s) (hs : Step poll s t s')
    (hq : ∀ fs, s.threads t ≠ .dropInner (some n) :: fs) : Keeps s.shared s'.shared ∧ Gone s' := by
  obtain @⟨sh', fs', hs, -⟩ := hs
  cases t with
  | inl i =>
    rw [h.workers i] at hs
    exact absurd hs threadStep_nil
  | inr j =>
    obtain ⟨hkeep, hidle⟩ := threadStep_gone hs (h.others j) h.owners hq
    refine ⟨hkeep, hkeep.owners.trans h.owners, fun i => ?_, fun i => ?_, fun i => ?_⟩
    · exact (congrFun hkeep.live i).trans (h.live i)
    · simpa using h.workers i
    · intro f hf
      rcases mem_update_cases hf with hf | hf
      · exact hidle f hf
      · exact h.others i f hf

theorem Gone.pop {s : State n m U V} (h : Gone s) {t : ThreadId n m} {f : Frame U V}
    {fs : List (Frame U V)} (hfs : s.threads t = f :: fs) :
    Gone ⟨s.shared, update s.threads t fs⟩ := by
  refine ⟨h.owners, h.live, fun i => ?_, fun i g hg => ?_⟩
  · by_cases ht : .inl i = t
    · subst ht
      rw [h.workers i] at hfs
      cases hfs
    · simpa [ht] using h.workers i
  · by_cases ht : .inr i = t
    · subst ht
      simp only [update_self] at hg
      exact h.others i g (hfs ▸ List.mem_cons_of_mem _ hg)
    · simp only [update_of_ne ht] at hg
      exact h.others i g hg

end Luminal.Std
