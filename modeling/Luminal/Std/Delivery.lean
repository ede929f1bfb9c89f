import Luminal.Std.Conservation

/-!
# Result channels over whole runs

`Delivered` ties the state of every channel to what was pushed, sent and received on it, and
the frame of each `block_on` to the receiver it owns.  It holds in every reachable
state (`delivered_reachable`).  In calm runs (no panic, no shutdown) no task is ever
destroyed and no `block_on` panics (`quiet_reachable`).
-/

namespace Luminal.Std

open Function Transition

variable {n m : Nat} {U V : Type} {poll : U → Burst U V}

/-- The `block_on` on channel `ch` is waiting in this frame. -/
def Frame.waiting (ch : Nat) : Frame U V → Nat
  | .blockOn c _ => if c = ch then 1 else 0
  | _ => 0

/-- The channel of spawn `ch` against the log. -/
def ChannelLaw (ch : Nat) (sh : Shared n U V) : Prop :=
  (sh.chan ch).Law (pushes ch sh.log) (sents ch sh.log) (recvs ch sh.log)
    (readies ch sh.log + losts ch sh.log)

/-- What the frames of a stack own: `spawn` and `block_on` their channel's receiver. -/
def Owns (sh : Shared n U V) (fs : List (Frame U V)) : Prop :=
  ∀ f ∈ fs, match f with
    | .spawn _ ch _ => (sh.chan ch).receiver = .spawning
    | .blockOn ch _ => (sh.chan ch).receiver = .blockOn
    | _ => True

section Laws

variable {sh : Shared n U V} {ch : Nat}

/-- Events that are not about `ch`'s channel leave its law as it is. -/
theorem ChannelLaw.log (h : ChannelLaw ch sh) {sh' : Shared n U V} {l : List (Event U V)}
    (hc : sh'.chan ch = sh.chan ch) (hl : sh'.log = sh.log ++ l)
    (h0 : pushes ch l = 0 ∧ sents ch l = [] ∧ recvs ch l = [] ∧ readies ch l = 0 ∧
      losts ch l = 0) : ChannelLaw ch sh' := by
  obtain ⟨h1, h2, h3, h4, h5⟩ := h0
  unfold ChannelLaw
  rw [hc, hl, pushes_append, sents_append, recvs_append, readies_append, losts_append, h1, h2, h3,
    h4, h5, List.append_nil, List.append_nil]
  exact h

theorem ChannelLaw.destroy (h : ChannelLaw ch sh) (tasks : List (Task U)) :
    ChannelLaw ch (sh.destroy tasks) := by
  unfold ChannelLaw
  simp only [Shared.destroy, pushes_append, pushes_destroyed, sents_append, sents_destroyed,
    recvs_append, recvs_destroyed, readies_append, readies_destroyed, losts_append,
    losts_destroyed, List.append_nil, Nat.add_zero]
  split
  · next hpos => exact h.dropSender (by omega)
  · next hz =>
    rw [Nat.eq_zero_of_not_pos hz]
    exact h

theorem ChannelLaw.beginPoll (h : ChannelLaw ch sh) (task : Task U) :
    ChannelLaw ch (sh.beginPoll poll task).1 := by
  unfold Shared.beginPoll
  split
  · exact h.log rfl rfl (by simp [pushes, sents, recvs, readies, losts])
  · exact h

theorem ChannelLaw.pollHandle (h : ChannelLaw ch sh) {c : Nat}
    (hc : (sh.chan c).receiver = .handle) : ChannelLaw ch (sh.pollHandle c).2 := by
  unfold Shared.pollHandle
  split
  · next v c' hp =>
    have hv : (sh.chan c).tryRecv = .ok v :=
      (JoinHandle.poll_some_iff _ _).1 (congrArg Prod.fst hp)
    have hc' : c' = (sh.chan c).received := by
      have := congrArg Prod.snd hp
      unfold JoinHandle.poll at this
      rw [hv] at this
      exact this.symm
    subst hc'
    by_cases hch : c = ch
    · subst hch
      have := h.polled hc hv
      unfold ChannelLaw
      simpa [pushes, sents, recvs, readies, losts] using this
    · refine h.log (update_of_ne (Ne.symm hch) _ _) rfl ?_
      simp [pushes, sents, recvs, readies, losts, hch]
  · exact h

theorem ChannelLaw.dropReceiver (h : ChannelLaw ch sh) {c : Nat}
    (hc : (sh.chan c).receiver ≠ .spawning) : ChannelLaw ch (sh.dropReceiver c) := by
  unfold ChannelLaw Shared.dropReceiver
  simp only
  by_cases hch : ch = c
  · subst hch
    rw [update_self]
    exact Channel.Law.dropReceiver h hc
  · rw [update_of_ne hch]
    exact h

theorem ChannelLaw.pushSpawned (h : ChannelLaw ch sh) {task : Task U} {c : Nat} {b : Bool}
    (ht : task.ch? = some c) (hc : (sh.chan c).receiver = .spawning) :
    ChannelLaw ch (sh.pushSpawned task c b) := by
  obtain ⟨id, ⟨d, u⟩ | _⟩ := task
  · cases ht
    by_cases hch : c = ch
    · subst hch
      have := h.handOver hc (r := if b then .blockOn else .handle) (by cases b <;> simp)
      unfold ChannelLaw
      simpa [Shared.pushSpawned, pushes, sents, recvs, readies, losts] using this
    · refine h.log (update_of_ne (Ne.symm hch) _ _) rfl ?_
      simp [pushes, sents, recvs, readies, losts, hch]
  · cases ht

end Laws

/-- **Each action keeps the law of every channel**, its frames owning their receivers. -/
theorem threadStep_channel {sh sh' : Shared n U V} {t : ThreadId n m} {fs fs' : List (Frame U V)}
    (h : ThreadStep poll sh t fs sh' fs') (hp : ∀ f ∈ fs, f.Proper) (ho : Owns sh fs)
    (hnew : pushes sh.spawned sh.log = 0 ∧ (sents sh.spawned sh.log) = [] ∧
      readies sh.spawned sh.log + losts sh.spawned sh.log = 0)
    {ch : Nat} (hl : ChannelLaw ch sh) : ChannelLaw ch sh' := by
  cases h with
  | callSpawn task u k fs _ | callBlockOn task u k fs _ =>
    have hlaw : ChannelLaw ch { sh with chan := update sh.chan sh.spawned .unbounded } := by
      unfold ChannelLaw
      simp only
      by_cases hch : ch = sh.spawned
      · subst hch
        have hr : recvs sh.spawned sh.log = [] := List.prefix_nil.1 (hnew.2.1 ▸ hl.inOrder)
        rw [update_self, hnew.1, hnew.2.1, hnew.2.2, hr]
        exact Channel.law_unbounded
      · rw [update_of_ne hch]
        exact hl
    refine hlaw.log rfl rfl ?_
    simp [pushes, sents, recvs, readies, losts]
  | pollHandle task c k fs hc => exact hl.pollHandle hc
  | dropHandle task c k fs hc => exact hl.dropReceiver (by simp [hc])
  | ready id c u v fs =>
    by_cases hch : c = ch
    · subst hch
      have := Channel.Law.send hl v
      unfold ChannelLaw
      simpa [pushes, sents, recvs, readies, losts] using this
    · refine hl.log (update_of_ne (Ne.symm hch) _ _) rfl ?_
      simp [pushes, sents, recvs, readies, losts, hch]
  | panic id c u fs =>
    have hlog : ChannelLaw ch { sh with log := sh.log ++ [.panicked c] } :=
      hl.log rfl rfl (by simp [pushes, sents, recvs, readies, losts])
    exact hlog.destroy _
  | endWrapped id c u fs =>
    by_cases hch : c = ch
    · subst hch
      have := Channel.Law.dropSender hl (e := readies c sh.log + losts c sh.log + 1) (by omega)
      unfold ChannelLaw
      simpa [pushes, sents, recvs, readies, losts, Nat.add_right_comm] using this
    · refine hl.log (update_of_ne (Ne.symm hch) _ _) rfl ?_
      simp [pushes, sents, recvs, readies, losts, hch]
  | requeue left owned fs =>
    refine hl.log rfl rfl ?_
    simp [pushes, sents, recvs, readies, losts, List.countP_eq_zero]
  | spawned task c fs | startBlockOn task c fs =>
    exact hl.pushSpawned (hp _ List.mem_cons_self) (ho _ List.mem_cons_self)
  | recvOk c l v fs hpc hv =>
    have hc : (sh.chan c).receiver = .blockOn := ho _ List.mem_cons_self
    by_cases hch : c = ch
    · subst hch
      have := hl.returned hc hv
      unfold ChannelLaw
      simpa [pushes, sents, recvs, readies, losts] using this
    · refine hl.log (update_of_ne (Ne.symm hch) _ _) rfl ?_
      simp [pushes, sents, recvs, readies, losts, hch]
  | recvDisconnected c l fs hpc hv =>
    have hc : (sh.chan c).receiver = .blockOn := ho _ List.mem_cons_self
    exact hl.dropReceiver (by simp [hc])
  | unwindBlockOn c l fs =>
    have hc : (sh.chan c).receiver = .blockOn :=
      ho _ (List.mem_cons_of_mem _ List.mem_cons_self)
    exact hl.dropReceiver (by simp [hc])
  | help c l ch' sh' l' fs _ hh =>
    rw [Executor.help_none hh]
    exact hl
  | helpTask c l ch' sh₁ l' task fs hh =>
    obtain ⟨q, -, rfl⟩ := Executor.help_some hh
    have htaken : ChannelLaw ch { sh with globalQueue := q } := hl
    exact htaken.beginPoll task
  | unwindRun i | unwindLast i | exit i =>
    refine ChannelLaw.destroy ?_ _
    exact hl
  | run i l c sh' l' fs _ _ hh =>
    rw [WorkerThread.step_none hh]
    exact hl
  | runTask i l c sh₁ l' task fs _ hh =>
    have : ChannelLaw ch sh₁ := by
      rw [(WorkerThread.step_some hh).eq]
      exact hl
    exact this.beginPoll task
  | dropQueue fs =>
    refine ChannelLaw.destroy ?_ _
    exact hl
  | _ => exact hl

/-- The receivers that `block_on` frames own are counted by the frames. -/
theorem threadStep_waiting {sh sh' : Shared n U V} {t : ThreadId n m} {fs fs' : List (Frame U V)}
    (h : ThreadStep poll sh t fs sh' fs') (ho : Owns sh fs)
    (hnew : (sh.chan sh.spawned).receiver = .spawning) (ch : Nat) :
    weigh (Frame.waiting ch) fs' + (if (sh.chan ch).receiver = .blockOn then 1 else 0) =
      weigh (Frame.waiting ch) fs + (if (sh'.chan ch).receiver = .blockOn then 1 else 0) := by
  have hset : ∀ (c : Nat) (x : Channel V), (update sh.chan c x ch).receiver =
      if ch = c then x.receiver else (sh.chan ch).receiver := by
    intro c x
    rw [update_apply]
    split <;> rfl
  have hbegin : ∀ (sh₁ : Shared n U V) (task : Task U),
      Frame.waiting ch (sh₁.beginPoll poll task).2 = 0 :=
    fun sh₁ task => beginPoll_frame poll sh₁ task (P := fun f => f.waiting ch = 0) rfl fun _ => rfl
  cases h with
  | callSpawn task u k fs _ | callBlockOn task u k fs _ =>
    simp only [Shared.newTask, hset, weigh_cons, Frame.waiting]
    by_cases hch : ch = sh.spawned
    · subst hch
      simp [hnew, Channel.unbounded]
    · simp [hch]
  | pollHandle task c k fs hc =>
    simp [pollHandle_receiver, Frame.waiting]
  | dropHandle task c k fs hc =>
    simp only [Shared.dropReceiver, hset, weigh_cons, Frame.waiting]
    by_cases hch : ch = c
    · subst hch
      simp [hc, Channel.dropReceiver]
    · simp [hch]
  | ready id c u v fs =>
    have : ((sh.chan c).send v).receiver = (sh.chan c).receiver := by
      unfold Channel.send
      split <;> rfl
    simp only [hset, weigh_cons, Frame.waiting, this]
    by_cases hch : ch = c
    · simp [hch]
    · simp [hch]
  | panic id c u fs => simp [destroy_receiver, Frame.waiting]
  | endWrapped id c u fs =>
    simp only [hset, weigh_cons, Frame.waiting, Channel.dropSender]
    by_cases hch : ch = c
    · simp [hch]
    · simp [hch]
  | spawned task c fs =>
    have hc : (sh.chan c).receiver = .spawning := ho _ List.mem_cons_self
    simp only [Shared.pushSpawned, hset, weigh_cons, Frame.waiting]
    by_cases hch : ch = c
    · subst hch
      simp [hc]
    · simp [hch]
  | startBlockOn task c fs =>
    have hc : (sh.chan c).receiver = .spawning := ho _ List.mem_cons_self
    simp only [Shared.pushSpawned, hset, weigh_cons, Frame.waiting]
    by_cases hch : ch = c
    · subst hch
      simp [hc]
      omega
    · simp [hch, Ne.symm hch]
  | recvOk c l v fs hpc hv | recvDisconnected c l fs hpc hv =>
    have hc : (sh.chan c).receiver = .blockOn := ho _ List.mem_cons_self
    simp only [Shared.dropReceiver, hset, weigh_cons, Frame.waiting]
    by_cases hch : ch = c
    · subst hch
      simp [hc, Channel.dropReceiver]
      omega
    · simp [hch, Ne.symm hch]
  | unwindBlockOn c l fs =>
    have hc : (sh.chan c).receiver = .blockOn :=
      ho _ (List.mem_cons_of_mem _ List.mem_cons_self)
    simp only [Shared.dropReceiver, hset, weigh_cons, Frame.waiting]
    by_cases hch : ch = c
    · subst hch
      simp [hc, Channel.dropReceiver]
      omega
    · simp [hch, Ne.symm hch]
  | help c l ch' sh' l' fs _ hh =>
    rw [Executor.help_none hh]
    simp [Frame.waiting]
  | helpTask c l ch' sh₁ l' task fs hh =>
    obtain ⟨q, -, rfl⟩ := Executor.help_some hh
    simp only [beginPoll_eq, weigh_cons, hbegin]
    simp [Frame.waiting]
  | unwindRun i | unwindLast i | exit i => simp [Shared.dropWorker, destroy_receiver, Frame.waiting]
  | run i l c sh' l' fs _ _ hh =>
    rw [WorkerThread.step_none hh]
    simp [Frame.waiting]
  | runTask i l c sh₁ l' task fs _ hh =>
    have hchan : sh₁.chan = sh.chan := by rw [(WorkerThread.step_some hh).eq]
    simp only [beginPoll_eq, hchan, weigh_cons, hbegin]
    simp [Frame.waiting]
  | dropQueue fs => simp [destroy_receiver, Frame.waiting]
  | requeue left owned fs =>
    rw [show (sh.pushPending owned).chan = sh.chan from rfl]
    simp [Frame.waiting]
  | _ => simp [Frame.waiting]

/-! ## Every reachable state -/

structure Delivered (s : State n m U V) : Prop where
  channel : ∀ ch, ChannelLaw ch s.shared
  waiting : ∀ ch, census (Frame.waiting ch) s =
    if (s.shared.chan ch).receiver = .blockOn then 1 else 0

theorem delivered_init : Delivered (State.init n m U V) where
  channel _ := Channel.law_unbounded
  waiting ch := by
    rw [census_init _ rfl rfl]
    rfl

/-- What a call of `spawn` is about to push has not been pushed. -/
theorem Accounted.unpushed {s : State n m U V} (h : Accounted s) {t : ThreadId n m} {task : Task U}
    {ch : Nat} {b : Bool} (hf : .spawn task ch b ∈ s.threads t) : pushes ch s.shared.log = 0 := by
  have hch : task.isOf ch = 1 := by
    simp [Task.isOf, show task.ch? = some ch from h.proper t _ hf]
  have h1 : 1 ≤ census (Frame.creating ch) s :=
    hch ▸ (le_weigh (Frame.creating ch) hf).trans (weigh_le_census _ s t)
  have h2 := h.pushed ch
  have h3 := born_le_one ch s.shared.spawned
  omega

/-- The frames of every thread own their receivers. -/
theorem Delivered.owns {s : State n m U V} (h : Delivered s) (ha : Accounted s)
    (t : ThreadId n m) : Owns s.shared (s.threads t) := by
  intro f hf
  cases f with
  | spawn task ch b => exact (h.channel ch).pushed.2 (ha.unpushed hf)
  | blockOn ch l =>
    have h1 : 1 ≤ census (Frame.waiting ch) s := by
      refine le_trans ?_ ((le_weigh (Frame.waiting ch) hf).trans (weigh_le_census _ s t))
      simp [Frame.waiting]
    have h2 := h.waiting ch
    simp only
    by_contra hne
    rw [if_neg hne] at h2
    omega
  | _ => trivial

/-- What was received had been sent. -/
theorem Delivered.recv_sent {s : State n m U V} (hd : Delivered s) {c : Nat} {v : V}
    (h : .recv c v ∈ s.shared.log) : .sent c v ∈ s.shared.log :=
  (mem_sents c _ v).1 ((hd.channel c).inOrder.subset ((mem_recvs c _ v).2 h))

/-- A channel of which nobody has called `spawn` yet has no history. -/
theorem Accounted.fresh {s : State n m U V} (ha : Accounted s) {ch : Nat}
    (hch : s.shared.spawned ≤ ch) :
    pushes ch s.shared.log = 0 ∧ sents ch s.shared.log = [] ∧
      readies ch s.shared.log + losts ch s.shared.log = 0 := by
  have h1 := ha.pushed ch
  have h2 := ha.count ch
  have h3 := ha.sent ch
  rw [born, if_neg (by omega)] at h1
  exact ⟨by omega, List.length_eq_zero_iff.1 (by omega), by omega⟩

theorem delivered_step {s s' : State n m U V} {t : ThreadId n m} (ha : Accounted s)
    (h : Delivered s) (hs : Step poll s t s') : Delivered s' := by
  obtain @⟨sh', fs', hs, -⟩ := hs
  have ho := h.owns ha t
  have hnew := ha.fresh (le_refl _)
  refine ⟨fun ch => threadStep_channel hs (ha.proper t) ho hnew (h.channel ch), fun ch => ?_⟩
  have h1 := threadStep_waiting hs ho ((h.channel _).pushed.2 hnew.1) ch
  have h2 := census_update (Frame.waiting ch) s sh' t fs'
  have h3 := h.waiting ch
  simp only
  omega

/-- **Every channel keeps its law in every reachable state**, panics and shutdown included. -/
theorem delivered_reachable {G : State n m U V → ThreadId n m → Prop} {s : State n m U V}
    (h : Reachable poll G s) : Delivered s :=
  h.elim fun _ hr => hr.invariant_with (R := Accounted)
    (fun ls _ hr' => accounted_reachable ⟨ls, hr'⟩) delivered_init
    fun _ _ _ ha hd _ hs => delivered_step ha hd hs

/-! ## Calm runs -/

/-- Nothing unwinds, nothing shuts down, nothing was destroyed. -/
structure Quiet (s : State n m U V) : Prop where
  frames : ∀ t, ∀ f ∈ s.threads t, f ≠ .result none ∧ ∀ j, f ≠ .dropInner j
  running : s.shared.shutdown = false
  lost : ∀ ch, losts ch s.shared.log = 0

/-- A waiting `block_on` is never told `Disconnected` before its task is destroyed. -/
theorem Delivered.connected {s : State n m U V} (h : Delivered s) (ha : Accounted s)
    {ch : Nat} (hr : (s.shared.chan ch).receiver = .blockOn) (hl : losts ch s.shared.log = 0) :
    (s.shared.chan ch).tryRecv ≠ .disconnected := by
  rw [Ne, Channel.tryRecv_disconnected_iff]
  rintro ⟨hq, hsnd⟩
  have hlaw := h.channel ch
  have hready := hlaw.sender.1 hsnd
  have hsent := ha.sent ch
  have hnil := hlaw.pending (by simp [hr])
  rw [hlaw.unread (Or.inr hr), hq, List.append_nil] at hnil
  rw [← hnil, List.length_nil] at hsent
  omega

theorem quiet_init : Quiet (State.init n m U V) where
  frames := by
    rintro (i | i) f hf <;> cases List.mem_singleton.1 hf <;> exact ⟨nofun, nofun⟩
  running := rfl
  lost _ := rfl

theorem quiet_beginPoll (poll : U → Burst U V) (sh : Shared n U V) (task : Task U) :
    ((sh.beginPoll poll task).2 ≠ .result none ∧ ∀ j, (sh.beginPoll poll task).2 ≠ .dropInner j) ∧
    (sh.beginPoll poll task).1.shutdown = sh.shutdown ∧
    ∀ ch, losts ch (sh.beginPoll poll task).1.log = losts ch sh.log := by
  refine ⟨⟨?_, fun j => ?_⟩, by rw [beginPoll_eq], fun ch => ?_⟩
  · exact beginPoll_frame poll sh task (P := fun f => f ≠ .result none) nofun fun _ => nofun
  · exact beginPoll_frame poll sh task (P := fun f => f ≠ .dropInner j) nofun fun _ => nofun
  · obtain ⟨l, hl, hsil⟩ := log_beginPoll poll sh task
    rw [hl, losts_append, (silent_projections ch hsil).2.2.2, Nat.add_zero]

theorem quiet_step {s s' : State n m U V} {t : ThreadId n m} (ha : Accounted s)
    (hd : Delivered s) (h : Quiet s) (hG : s.Calm t) (hs : Step poll s t s') : Quiet s' := by
  obtain @⟨sh', fs', hs, -⟩ := hs
  have ho := hd.owns ha t
  have hf := h.frames t
  have hl := h.lost
  have hrun := h.running
  have hconn : ∀ c, (s.shared.chan c).receiver = .blockOn →
      (s.shared.chan c).tryRecv ≠ .disconnected := fun c hr => hd.connected ha hr (h.lost c)
  suffices hthread : (∀ f ∈ fs', f ≠ .result none ∧ ∀ j, f ≠ .dropInner j) ∧
      sh'.shutdown = false ∧ ∀ ch, losts ch sh'.log = 0 by
    refine ⟨fun t' f hmem => ?_, hthread.2.1, hthread.2.2⟩
    rcases mem_update_cases hmem with hmem | hmem
    · exact hthread.1 f hmem
    · exact h.frames t' f hmem
  obtain ⟨hpanic, hlast⟩ := hG
  unfold State.Panics at hpanic
  unfold State.DropsLast at hlast
  generalize s.threads t = fs at *
  generalize s.shared = sh at *
  cases hs with
  | panic id c u fs => exact absurd ⟨_, _, rfl⟩ hpanic
  | dropLastRuntime task k fs hown => exact absurd ⟨hown, _, _, _, rfl⟩ hlast
  | recvDisconnected c l fs hpc hv =>
    exact absurd hv (hconn c (ho _ List.mem_cons_self))
  | unwindBlockOn c l fs => exact absurd rfl (hf _ List.mem_cons_self).1
  | unwindRun | unwindLast => exact absurd rfl (hf _ List.mem_cons_self).1
  | exit i l _ _ hshut => rw [hrun] at hshut; cases hshut
  | dropSignal fs => exact absurd rfl ((hf _ List.mem_cons_self).2 _)
  | dropJoin | dropSelf | dropQueue => exact absurd rfl ((hf _ List.mem_cons_self).2 _)
  | pollHandle task c k fs _ =>
    simp only [List.forall_mem_cons] at hf ⊢
    refine ⟨⟨by simp, hf.2⟩, ?_, fun ch => (log_pollHandle sh ch c).2.1.trans (hl ch)⟩
    rw [pollHandle_eq]
    exact hrun
  | requeue left owned fs =>
    simp only [List.forall_mem_cons] at hf ⊢
    refine ⟨hf.2, hrun, fun ch => ?_⟩
    obtain ⟨l, hlog, hsil⟩ := log_pushPending sh owned
    rw [hlog, losts_append, hl ch, (silent_projections ch hsil).2.2.2]
  | spawned task c fs | startBlockOn task c fs =>
    simp only [List.forall_mem_cons] at hf ⊢
    refine ⟨?_, hrun, fun ch => ?_⟩
    · first
        | exact hf.2
        | exact ⟨by simp, hf.2⟩
    · obtain ⟨l, hlog, hsil⟩ := log_pushSpawned sh task c _
      rw [hlog, losts_append, hl ch, (silent_projections ch hsil).2.2.2]
  | help c l ch' sh' l' fs _ hh =>
    rw [Executor.help_none hh]
    simp only [List.forall_mem_cons] at hf ⊢
    exact ⟨⟨by simp, hf.2⟩, hrun, hl⟩
  | helpTask c l ch' sh₁ l' task fs hh =>
    obtain ⟨q, -, rfl⟩ := Executor.help_some hh
    obtain ⟨h1, h2, h3⟩ := quiet_beginPoll poll { sh with globalQueue := q } task
    simp only [List.forall_mem_cons] at hf ⊢
    exact ⟨⟨h1, by simp, hf.2⟩, h2.trans hrun, fun ch => (h3 ch).trans (hl ch)⟩
  | run i l c sh' l' fs _ _ hh =>
    rw [WorkerThread.step_none hh]
    simp only [List.forall_mem_cons] at hf ⊢
    exact ⟨⟨by simp, hf.2⟩, hrun, hl⟩
  | runTask i l c sh₁ l' task fs _ hh =>
    have heq := (WorkerThread.step_some hh).eq
    obtain ⟨h1, h2, h3⟩ := quiet_beginPoll poll sh₁ task
    have hshut : sh₁.shutdown = sh.shutdown := by rw [heq]
    have hlog : sh₁.log = sh.log := by rw [heq]
    simp only [List.forall_mem_cons] at hf ⊢
    exact ⟨⟨h1, by simp, hf.2⟩, h2.trans (hshut.trans hrun),
      fun ch => (h3 ch).trans (hlog ▸ hl ch)⟩
  | ready id c u v fs | endWrapped id c u fs =>
    simp only [List.forall_mem_cons] at hf ⊢
    refine ⟨⟨by simp, hf.2⟩, hrun, fun ch => ?_⟩
    rw [losts_append, hl ch]
    simp [losts]
  | recvOk c l v fs _ _ =>
    simp only [List.forall_mem_cons] at hf ⊢
    refine ⟨⟨by simp, hf.2⟩, hrun, fun ch => ?_⟩
    rw [losts_append, hl ch]
    simp [losts]
  | callSpawn task u k fs _ | callBlockOn task u k fs _ =>
    simp only [List.forall_mem_cons] at hf ⊢
    refine ⟨⟨by simp, by simp, hf.2⟩, hrun, fun ch => ?_⟩
    simp only [Shared.newTask, losts_append, hl ch]
    rfl
  | finishedRun l fs | finishedHelp c l fs =>
    simp only [List.forall_mem_cons] at hf ⊢
    exact ⟨hf.2, hrun, hl⟩
  | resume r task k fs =>
    simp only [List.forall_mem_cons] at hf ⊢
    exact ⟨⟨by simp, hf.2.2⟩, hrun, hl⟩
  | _ =>
    simp only [List.forall_mem_cons] at hf ⊢
    exact ⟨⟨by simp, hf.2⟩, hrun, hl⟩

/-- **In calm runs nothing is destroyed** and no `block_on` reaches its panic. -/
theorem quiet_reachable {s : State n m U V} (h : Reachable poll State.Calm s) : Quiet s :=
  h.elim fun _ hr => hr.invariant_with (R := fun s => Accounted s ∧ Delivered s)
    (fun ls _ hr' => ⟨accounted_reachable ⟨ls, hr'⟩, delivered_reachable ⟨ls, hr'⟩⟩) quiet_init
    fun _ _ _ h hd hG hs => quiet_step h.1 h.2 hd hG hs

end Luminal.Std
