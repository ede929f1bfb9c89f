import Luminal.Std.Stacks

/-!
# Whose panic a `block_on` raises

`block_on` runs foreign tasks on its caller's stack, so the panic of one of them unwinds into the
call; and a worker that dies takes the tasks in its deque with it, also one that a `block_on`
waits for.  A run in which neither happens (`RaisesOwn`) is a run in which every `block_on` that
fails does so for its own task, and is raised no other task's panic (`failsForOwn_iff`).
-/

namespace Luminal.Std

open Function Transition

variable {n m : Nat} {U V : Type} {poll : U → Burst U V}

/-! ## Calls in progress -/

/-- **A call that waits waited before**, or it just pushed its task. -/
theorem threadStep_calls {sh sh' : Shared n U V} {t : ThreadId n m} {fs fs' : List (Frame U V)}
    (h : ThreadStep poll sh t fs sh' fs') {ch : Nat} {l : BlockOnLoop}
    (hf : .blockOn ch l ∈ fs') :
    (∃ l₀, .blockOn ch l₀ ∈ fs) ∨ ∃ task rest, fs = .spawn task ch true :: rest := by
  have hold : ∀ {top : Frame U V} {rest : List (Frame U V)}, .blockOn ch l ∈ rest →
      ∃ l₀, Frame.blockOn ch l₀ ∈ top :: rest := fun h => ⟨l, List.mem_cons_of_mem _ h⟩
  have hbegin : ∀ (sh₁ : Shared n U V) (task : Task U),
      (sh₁.beginPoll poll task).2 ≠ .blockOn ch l :=
    fun sh₁ task => beginPoll_frame poll sh₁ task (P := fun f => f ≠ .blockOn ch l) nofun
      fun _ => nofun
  cases h with
  | startBlockOn task c fs =>
    rcases List.mem_cons.1 hf with heq | hf
    · cases heq
      exact Or.inr ⟨_, _, rfl⟩
    · exact Or.inl (hold hf)
  | help c b ch' sh' b' fs _ hh =>
    rcases List.mem_cons.1 hf with heq | hf
    · cases heq
      exact Or.inl ⟨b, List.mem_cons_self⟩
    · exact Or.inl (hold hf)
  | helpTask c b ch' sh₁ b' task fs hh =>
    rcases List.mem_cons.1 hf with heq | hf
    · exact absurd heq.symm (hbegin _ _)
    · rcases List.mem_cons.1 hf with heq | hf
      · cases heq
        exact Or.inl ⟨b, List.mem_cons_self⟩
      · exact Or.inl (hold hf)
  | runTask i b c sh₁ b' task fs _ hh =>
    rcases List.mem_cons.1 hf with heq | hf
    · exact absurd heq.symm (hbegin _ _)
    · simp only [List.mem_cons, reduceCtorEq, false_or] at hf
      exact Or.inl (hold hf)
  | callSpawn task u k fs _ | callBlockOn task u k fs _ | dropLastRuntime task k fs _ =>
    simp only [List.mem_cons, reduceCtorEq, false_or] at hf
    exact Or.inl (hold hf)
  | requeue | spawned | dropSelf | dropQueue => exact Or.inl (hold hf)
  | finishedRun b fs | finishedHelp c b fs => exact Or.inl (hold hf)
  | resume r task k fs | unwindBlockOn c b fs =>
    simp only [List.mem_cons, reduceCtorEq, false_or] at hf
    exact Or.inl ⟨l, List.mem_cons_of_mem _ (List.mem_cons_of_mem _ hf)⟩
  | unwindRun i b _ | exit i b _ _ _ => cases hf
  | unwindLast => simp at hf
  | _ => exact Or.inl (hold ((List.mem_cons.1 hf).resolve_left nofun))

/-- **A panic that unwinds into a call comes from the poll on top of it.** -/
theorem threadStep_unwinds {sh sh' : Shared n U V} {t : ThreadId n m} {fs : List (Frame U V)}
    {ch : Nat} {l : BlockOnLoop} {rest : List (Frame U V)}
    (h : ThreadStep poll sh t fs sh' (.result none :: .blockOn ch l :: rest))
    (hstack : Stacked n t.isLeft fs) :
    ∃ id c u, fs = .user (some ⟨id, .wrapped c u⟩) (.run .panic) :: .blockOn ch l :: rest ∧
      sh'.log = sh.log ++ [.panicked c, .destroyed c] := by
  generalize hfs' : (Frame.result none :: .blockOn ch l :: rest : List (Frame U V)) = fs' at h
  cases h with
  | panic id c u fs =>
    cases hfs'
    exact ⟨id, c, u, rfl, by simp [Shared.destroy]⟩
  | recvDisconnected c l fs _ _ =>
    cases hfs'
    obtain ⟨k, task, fs', hfs, -⟩ := hstack.blockOn_loops
    cases hfs
  | unwindBlockOn c l fs =>
    cases hfs'
    cases hstack with
    | unwinds hl => cases hl
    | loop hl => cases hl
  | requeue left owned fs =>
    subst hfs'
    cases hstack.requeue_loops
  | spawned task c fs =>
    subst hfs'
    cases hstack with
    | loop hl => cases hl
  | dropQueue fs =>
    subst hfs'
    rcases hstack.drop_below.2 with ⟨_, _, _, hfs, -⟩ | ⟨_, hfs, -⟩ <;> cases hfs
  | helpTask c b ch' sh₁ b' task fs hh | runTask i b c sh₁ b' task fs _ hh =>
    have hk := kind_beginPoll poll sh₁ task
    rw [← (List.cons.inj hfs').1] at hk
    rcases hk with hk | hk <;> cases hk
  | _ => cases hfs'

/-! ## Failures -/

namespace State

/-- The call of `block_on` on thread `t` that waits for `ch` fails: a panic unwinds into it, or
nothing is left for it to receive, and its next look at the channel panics. -/
def Fails (s : State n m U V) (t : ThreadId n m) (ch : Nat) : Prop :=
  ∃ l, .blockOn ch l ∈ s.threads t ∧ ((s.shared.chan ch).tryRecv = .disconnected ∨
    ∃ fs, s.threads t = .result none :: .blockOn ch l :: fs)

def FailsForOwn (s : State n m U V) : Prop :=
  ∀ t ch, s.Fails t ch → .panicked ch ∈ s.shared.log

/-- A step of thread `t` ends the call of `block_on` that waits for `ch` with a panic. -/
def Unwinds (a : State n m U V) (t : ThreadId n m) (ch : Nat) (b : State n m U V) : Prop :=
  ∃ l fs, (a.threads t = .blockOn ch l :: fs ∨ a.threads t = .result none :: .blockOn ch l :: fs) ∧
    b.threads t = .result none :: fs

/-- In a step of thread `t` the panic of `task`, which the helping loop of the call of `block_on`
that waits for `ch` polls, is raised in the call. -/
def RaisedIn (a : State n m U V) (t : ThreadId n m) (task : Task U) (ch : Nat)
    (b : State n m U V) : Prop :=
  ∃ code l fs, a.threads t = .user (some task) code :: .blockOn ch l :: fs ∧
    b.threads t = .result none :: .blockOn ch l :: fs

/-- A call is raised no panic but its own task's. -/
def RaisesNoOther (a : State n m U V) (t : ThreadId n m) (b : State n m U V) : Prop :=
  ∀ task ch, a.RaisedIn t task ch b → task.ch? = some ch

/-- The condition on a step: no task panics in the helping loop of another task's `block_on`, and
no worker that dies of a panic takes with it a task that a `block_on` waits for. -/
def RaisesOwn (s : State n m U V) (t : ThreadId n m) : Prop :=
  (∀ task ch l fs, s.threads t = .user (some task) (.run .panic) :: .blockOn ch l :: fs →
    task.ch? = some ch) ∧
  ∀ i l, t = .inl i → s.threads t = [.result none, .run l] →
    ∀ d, Shared.Orphaned (update s.shared.live i false) d →
      ∀ t' ch l', .blockOn ch l' ∈ s.threads t' → occ ch (s.shared.locals d) = 0

end State

/-- A waiting call is told `Disconnected` exactly if its task was destroyed. -/
theorem Delivered.disconnected_iff {s : State n m U V} (h : Delivered s) (ha : Accounted s)
    {t : ThreadId n m} {ch : Nat} {l : BlockOnLoop} (hf : .blockOn ch l ∈ s.threads t) :
    (s.shared.chan ch).tryRecv = .disconnected ↔ .destroyed ch ∈ s.shared.log := by
  have hr : (s.shared.chan ch).receiver = .blockOn := h.owns ha t _ hf
  rw [← losts_pos_iff]
  constructor
  · intro hdis
    by_contra hn
    exact h.connected ha hr (Nat.eq_zero_of_not_pos hn) hdis
  · intro hpos
    have hlaw := h.channel ch
    have hcount := ha.count ch
    have hsent := ha.sent ch
    have hle := ha.pushes_le_one ch
    have hnil : sents ch s.shared.log = [] := List.length_eq_zero_iff.1 (by omega)
    rw [Channel.tryRecv_disconnected_iff]
    refine ⟨?_, hlaw.sender.2 (by omega)⟩
    have hqueue := hlaw.pending (by simp [hr])
    rw [hnil] at hqueue
    exact (List.append_eq_nil_iff.1 hqueue).2

/-- What holds of every reachable state and is used here. -/
structure Sound (s : State n m U V) : Prop where
  accounted : Accounted s
  delivered : Delivered s
  owned : Owned s
  stacked : ∀ t, Stacked n t.isLeft (s.threads t)
  panics : ∀ ch, .panicked ch ∈ s.shared.log → .destroyed ch ∈ s.shared.log

theorem sound_reachable {G : State n m U V → ThreadId n m → Prop} {s : State n m U V}
    (h : Reachable poll G s) : Sound s :=
  ⟨accounted_reachable h, delivered_reachable h, owned_reachable h, stacked_reachable h,
    fun _ => panicked_destroyed h⟩

section Steps

variable {s s' : State n m U V} {t : ThreadId n m}

theorem Sound.running (h : Sound s) {t : ThreadId n m} {ch : Nat} {l : BlockOnLoop}
    (hf : .blockOn ch l ∈ s.threads t) : 0 < s.shared.owners :=
  h.owned.calls ⟨t, _, hf, Or.inr ⟨ch, l, rfl⟩⟩

/-- A task that a `block_on` is about to push is alive. -/
theorem Sound.intact (h : Sound s) {task : Task U} {ch : Nat} {b : Bool}
    (hf : .spawn task ch b ∈ s.threads t) : .destroyed ch ∉ s.shared.log := by
  have hr : (s.shared.chan ch).receiver = .spawning := h.delivered.owns h.accounted t _ hf
  have hzero := (h.delivered.channel ch).pushed.1 hr
  have hcount := h.accounted.count ch
  rw [← losts_pos_iff]
  omega

theorem log_kept {sh' : Shared n U V} {fs' : List (Frame U V)}
    (hs : ThreadStep poll s.shared t (s.threads t) sh' fs') {e : Event U V}
    (he : e ∈ s.shared.log) : e ∈ sh'.log := by
  obtain ⟨l, hl, -⟩ := threadStep_log hs
  rw [hl]
  exact List.mem_append_left _ he

/-- A step that destroys a task for which a call waits makes it panic, or is the death of a worker
that has the task in its deque. -/
theorem Sound.destroying (h : Sound s) {t₀ : ThreadId n m} {ch : Nat} {l₀ : BlockOnLoop}
    (hf : .blockOn ch l₀ ∈ s.threads t₀) (hd : Destroying s.shared t (s.threads t) ch) :
    (∃ id u fs, s.threads t = .user (some ⟨id, .wrapped ch u⟩) (.run .panic) :: fs) ∨
      ∃ i l d, t = .inl i ∧ s.threads t = [.result none, .run l] ∧
        Shared.Orphaned (update s.shared.live i false) d ∧ 0 < occ ch (s.shared.locals d) := by
  have hpos := h.running hf
  rcases hd with hd | ⟨i, rfl, ⟨l, hend | ⟨-, -, hshut⟩⟩, hocc⟩ | ⟨fs, hfs, -⟩
  · exact Or.inl hd
  · rcases occ_doomed.1 hocc with ⟨d, horph, hd⟩ | ⟨hunheld, -⟩
    · exact Or.inr ⟨i, l, d, rfl, hend, horph, hd⟩
    · have := h.owned.abandoned hunheld.1
      omega
  · have := h.owned.flag hshut
    omega
  · have := h.owned.drops t _ (hfs ▸ List.mem_cons_self)
    omega

/-- **A step that meets the condition raises no foreign panic in a call.** -/
theorem raisesNoOther_step (h : Sound s) (hG : s.RaisesOwn t) (hs : Step poll s t s') :
    s.RaisesNoOther t s' := by
  obtain @⟨sh', fs', hs, -⟩ := hs
  rintro task ch ⟨code, l, fs, hfs, htop⟩
  simp only [update_self] at htop
  subst htop
  obtain ⟨id, c, u, hpan, -⟩ := threadStep_unwinds hs (h.stacked t)
  cases hfs.symm.trans hpan
  exact hG.1 _ ch l fs hfs

/-- **After it, a call that fails does so for its own task.** -/
theorem failsForOwn_step (h : Sound s) (hown : s.FailsForOwn) (hG : s.RaisesOwn t)
    (hb : Sound s') (hs : Step poll s t s') : s'.FailsForOwn := by
  obtain @⟨sh', fs', hs, hlast⟩ := hs
  rintro t' ch ⟨l, hf, hfail⟩
  rcases hfail with hdis | ⟨fs, htop⟩
  · rw [hb.delivered.disconnected_iff hb.accounted hf] at hdis
    have hbefore : (∃ t₀ l₀, .blockOn ch l₀ ∈ s.threads t₀) ∨
        ∃ task rest, s.threads t = .spawn task ch true :: rest := by
      rcases mem_update_cases hf with hf | hf
      · exact (threadStep_calls hs hf).imp (fun ⟨l₀, h₀⟩ => ⟨t, l₀, h₀⟩) id
      · exact Or.inl ⟨t', l, hf⟩
    rcases hbefore with ⟨t₀, l₀, hf₀⟩ | ⟨task, rest, hfs⟩
    · rcases (threadStep_destroyed hs ch).1 hdis with hold | hnow
      · -- nothing new: the call had failed already
        refine log_kept hs (hown t₀ ch ⟨l₀, hf₀, Or.inl ?_⟩)
        exact (h.delivered.disconnected_iff h.accounted hf₀).2 hold
      · rcases h.destroying hf₀ hnow with ⟨id, u, fs, hfs⟩ | ⟨i, l, d, rfl, hend, horph, hocc⟩
        · rw [hfs] at hs
          cases hs with
          | panic => simp [Shared.destroy]
        · have := hG.2 i l rfl hend d horph t₀ ch l₀ hf₀
          omega
    · -- the call that just began has a task nobody could take yet
      rcases (threadStep_destroyed hs ch).1 hdis with hold | hnow
      · exact absurd hold (h.intact (hfs ▸ List.mem_cons_self))
      · rw [hfs] at hnow
        rcases hnow with ⟨_, _, _, h⟩ | ⟨_, _, ⟨_, h | ⟨h, -⟩⟩, -⟩ | ⟨_, h, -⟩ <;> cases h
  · by_cases ht : t' = t
    · subst ht
      simp only [update_self] at htop
      subst htop
      obtain ⟨id, c, u, hfs, hlog⟩ := threadStep_unwinds hs (h.stacked t')
      cases hG.1 _ ch l fs hfs
      simp [hlog]
    · simp only [update_of_ne ht] at hf htop
      exact log_kept hs (hown t' ch ⟨l, hf, Or.inr ⟨fs, htop⟩⟩)

/-- **A step that does not, raises one that is not.** -/
theorem raisesOwn_of_failsForOwn (h : Sound s) (hb : Sound s') (hs : Step poll s t s')
    (hno : s.RaisesNoOther t s') (hown : s'.FailsForOwn) : s.RaisesOwn t := by
  obtain @⟨sh', fs', hs, hlast⟩ := hs
  refine ⟨fun task ch l fs hfs => ?_, fun i l ht hend d horph t' ch l' hf => ?_⟩
  · refine hno task ch ⟨_, l, fs, hfs, ?_⟩
    rw [hfs] at hs
    cases hs with
    | panic => exact update_self ..
  · subst ht
    have hne : t' ≠ .inl i := by
      rintro rfl
      rw [hend] at hf
      simp at hf
    have hf' : .blockOn ch l' ∈ update s.threads (.inl i) fs' t' := by
      rwa [update_of_ne hne]
    by_contra hn
    have hdes : .destroyed ch ∈ sh'.log := (threadStep_destroyed hs ch).2
      (Or.inr (Or.inr (Or.inl ⟨i, rfl, ⟨l, Or.inl hend⟩,
        occ_doomed.2 (Or.inl ⟨d, horph, Nat.pos_of_ne_zero hn⟩)⟩)))
    have hpan : .panicked ch ∈ sh'.log :=
      hown t' ch ⟨l', hf', Or.inl ((hb.delivered.disconnected_iff hb.accounted hf').2 hdes)⟩
    -- the task has not panicked, for it is still in the deque
    have hold : .panicked ch ∈ s.shared.log := by
      rw [hend] at hs
      cases hs with
      | unwindRun => simpa [Shared.dropWorker, Shared.destroy] using hpan
      | unwindLast _ _ _ _ hpos =>
        exact absurd ⟨t', _, hf, Or.inr ⟨ch, l', rfl⟩⟩ (hlast hpos rfl)
    have hlost := (losts_pos_iff ch _).2 (h.panics ch hold)
    have hcount := h.accounted.count ch
    have hle := h.accounted.pushes_le_one ch
    have hqueued : occ ch (s.shared.locals d) ≤ queued ch s.shared :=
      (le_tally (occ ch) s.shared.locals d).trans (Nat.le_add_left _ _)
    omega

end Steps

theorem fails_of_unwinds {a b : State n m U V} {t : ThreadId n m} {ch : Nat}
    (hs : Step poll a t b) (h : a.Unwinds t ch b) : a.Fails t ch := by
  obtain ⟨l, fs, hfs | hfs, htop⟩ := h
  · obtain @⟨sh', fs', hs, -⟩ := hs
    simp only [update_self] at htop
    subst htop
    refine ⟨l, hfs ▸ List.mem_cons_self, Or.inl ?_⟩
    rw [hfs] at hs
    generalize hfs' : (Frame.result none :: fs : List (Frame U V)) = fs' at hs
    cases hs with
    | recvDisconnected _ _ _ _ hdis => exact hdis
    | helpTask c b ch' sh₁ b' task fs hh =>
      have hk := kind_beginPoll poll sh₁ task
      rw [← (List.cons.inj hfs').1] at hk
      rcases hk with hk | hk <;> cases hk
    | _ => cases hfs'
  · refine ⟨l, ?_, Or.inr ⟨fs, hfs⟩⟩
    rw [hfs]
    exact List.mem_cons_of_mem _ List.mem_cons_self

/-- **Calls of `block_on` fail for their own tasks, and are raised no other panic, exactly as long
as no foreign task panics in a helping loop, and no dying worker takes an awaited task with it.**
So in such a run a call unwinds only if its own task panicked. -/
theorem failsForOwn_iff (ts : List (ThreadId n m)) (s : State n m U V) :
    (Run (fun a t b => Step poll a t b ∧ a.RaisesNoOther t b) (fun a _ => a.FailsForOwn)
        (State.init n m U V) ts s ∧ s.FailsForOwn ↔
      Run (Step poll) State.RaisesOwn (State.init n m U V) ts s) ∧
    ∀ t ch s', Run (Step poll) State.RaisesOwn (State.init n m U V) ts s → Step poll s t s' →
      s.Unwinds t ch s' → .panicked ch ∈ s.shared.log := by
  have hinit : (State.init n m U V).FailsForOwn := by
    rintro (i | i) ch ⟨l, hf, -⟩ <;> cases List.mem_singleton.1 hf
  have hiff : Run (fun a t b => Step poll a t b ∧ a.RaisesNoOther t b) (fun a _ => a.FailsForOwn)
      (State.init n m U V) ts s ∧ s.FailsForOwn ↔
      Run (Step poll) State.RaisesOwn (State.init n m U V) ts s := by
    refine Run.steps_iff (R := Reachable poll always) (fun ls a hr => ⟨ls, hr⟩) hinit ?_
    rintro a t b ⟨ls, hr⟩ hown hs
    have ha := sound_reachable ⟨ls, hr⟩
    have hb := sound_reachable ⟨ls ++ [t], hr.snoc trivial hs⟩
    exact ⟨fun ⟨hno, hb'⟩ => raisesOwn_of_failsForOwn ha hb hs hno hb',
      fun hG => ⟨raisesNoOther_step ha hG hs, failsForOwn_step ha hown hG hb hs⟩⟩
  refine ⟨hiff, fun t ch s' hr hs hun => ?_⟩
  exact (hiff.2 hr).2 t ch (fails_of_unwinds hs hun)

/-! ## Concrete runs -/

namespace State

/-- The call of `block_on` that waits for `ch` is next to unwind. -/
def unwinding (ch : Nat) : List (Frame U V) → Bool
  | .result none :: .blockOn c _ :: _ => c == ch
  | _ => false

/-- No foreign panic on top of a `block_on`, and no worker that dies. -/
def raisesOwn : List (Frame U V) → Bool
  | .user (some p) (.run .panic) :: .blockOn ch _ :: _ => p.ch? == some ch
  | [.result none, .run _] => false
  | _ => true

end State

theorem exists_unwinds {s : State n m U V} {t : ThreadId n m} {ch : Nat}
    (h : State.unwinding ch (s.threads t) = true) (poll : U → Burst U V) :
    ∃ s', Step poll s t s' ∧ s.Unwinds t ch s' := by
  unfold State.unwinding at h
  split at h
  · next c l fs hfs =>
    cases eq_of_beq h
    have hs : ThreadStep poll s.shared t (s.threads t) (s.shared.dropReceiver ch)
        (.result none :: fs) := hfs ▸ ThreadStep.unwindBlockOn ch l fs
    exact ⟨_, Step.mk hs fun hpos hzero => absurd hzero hpos.ne', l, fs, Or.inr hfs,
      update_self ..⟩
  · cases h

theorem raisesOwn_of_eq {s : State n m U V} {t : ThreadId n m}
    (h : State.raisesOwn (s.threads t) = true) : s.RaisesOwn t := by
  refine ⟨fun task ch l fs hfs => ?_, fun i l _ hend => ?_⟩
  · rw [hfs] at h
    exact eq_of_beq h
  · rw [hend] at h
    cases h

/-- A call polls its own task, which panics. -/
theorem failsForOwn_iff_own : ∃ s s' : State 1 1 Sample Nat,
    s.Unwinds (.inr 0) 0 s' ∧ .panicked 0 ∈ s.shared.log := by
  obtain ⟨s, ⟨ts, hr⟩, hun⟩ := reachable_of_exec Sample.burst
    (G := fun a t => State.raisesOwn (a.threads t) = true)
    (P := fun s : State 1 1 Sample Nat => State.unwinding 0 (s.threads (.inr 0)) = true)
    ((.inr 0, .code (.blockOn .panic fun _ => .ready 0)) ::
      turns (.inr 0) 5 (.steal (.batch 0))) (by decide)
  obtain ⟨s', hs, hun⟩ := exists_unwinds hun Sample.burst
  exact ⟨s, s', hun, (failsForOwn_iff ts s).2 _ 0 s'
    (hr.mono fun _ _ => raisesOwn_of_eq) hs hun⟩

/-- A call for a value finds another task in the queue that panics. -/
theorem not_failsForOwn : ¬ ∀ s : State 1 1 Sample Nat, Reachable Sample.burst always s →
    ∀ t ch s', Step Sample.burst s t s' → s.Unwinds t ch s' → .panicked ch ∈ s.shared.log := by
  intro h
  obtain ⟨s, hr, hun, hno⟩ := reachable_of_exec Sample.burst (G := always)
    (P := fun s : State 1 1 Sample Nat => State.unwinding 1 (s.threads (.inr 0)) = true ∧
      .panicked 1 ∉ s.shared.log)
    ((.inr 0, .code (.spawn .panic fun _ => .blockOn (.value 3) fun _ => .ready 0)) ::
      turns (.inr 0) 7 (.steal (.batch 0))) (by decide)
  obtain ⟨s', hs, hun⟩ := exists_unwinds hun Sample.burst
  exact hno (h s hr _ 1 s' hs hun)

end Luminal.Std
