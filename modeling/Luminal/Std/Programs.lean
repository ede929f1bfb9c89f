import Luminal.Program
import Luminal.Std.Delivery
import Luminal.Std.Exec

/-!
# Results of task programs do not depend on the schedule

`Computes` is a simulation between the executor and `Prog.eval`: a queued program's future
stands for the value of its spawn (`Denotes`), a burst in progress keeps to it, and what
was sent is it.  It holds in every reachable state (`computes_reachable`), whatever
other futures run beside the programs, so what `block_on` returns is the direct-style
value (`block_on_eq_eval`).
-/

namespace Luminal.Std

open Function Transition

variable {n m : Nat} {V W : Type} {other : W → Burst (Code V ⊕ W) V}

/-- Spawn `ch` was called with the program `c`. -/
def Created (sh : Shared n (Code V ⊕ W) V) (ch : Nat) (c : Code V) : Prop :=
  .created ch (.inl c) ∈ sh.log

/-! ## Spawns are numbered -/

/-- An action calls `spawn` for nobody, or creates the channel `sh.spawned`. -/
theorem threadStep_created {U : Type} {poll : U → Burst U V} {sh sh' : Shared n U V}
    {t : ThreadId n m} {fs fs' : List (Frame U V)} (h : ThreadStep poll sh t fs sh' fs') :
    (sh'.spawned = sh.spawned ∧ ∀ ch u, .created ch u ∈ sh'.log ↔ .created ch u ∈ sh.log) ∨
    ∃ u, sh'.spawned = sh.spawned + 1 ∧
      ∀ ch w, .created ch w ∈ sh'.log ↔ .created ch w ∈ sh.log ∨ (ch = sh.spawned ∧ w = u) := by
  cases h with
  | callSpawn task u k fs _ | callBlockOn task u k fs _ =>
    exact Or.inr ⟨u, rfl, fun ch w => by simp [Shared.newTask]⟩
  | pollHandle task c k fs _ =>
    rw [pollHandle_eq]
    simp
  | panic id c u fs => simp [Shared.destroy]
  | requeue left owned fs => simp [Shared.pushPending]
  | spawned task c fs | startBlockOn task c fs =>
    obtain ⟨id, ⟨d, u⟩ | _⟩ := task <;> simp [Shared.pushSpawned]
  | help c l ch' sh' l' fs _ hh =>
    rw [Executor.help_none hh]
    simp
  | helpTask c l ch' sh₁ l' task fs hh =>
    obtain ⟨q, -, rfl⟩ := Executor.help_some hh
    rw [beginPoll_eq]
    simp
  | unwindRun i | unwindLast i | exit i => simp [Shared.dropWorker, Shared.destroy]
  | run i l c sh' l' fs _ _ hh =>
    rw [WorkerThread.step_none hh]
    simp
  | runTask i l c sh₁ l' task fs _ hh =>
    rw [beginPoll_eq, (WorkerThread.step_some hh).eq]
    simp
  | dropQueue fs => simp [Shared.destroy]
  | _ => simp [Shared.dropReceiver]

/-- Calls of `spawn` are numbered in order, each with one future. -/
structure Numbered {U : Type} (sh : Shared n U V) : Prop where
  lt : ∀ ch u, .created ch u ∈ sh.log → ch < sh.spawned
  unique : ∀ ch u u', .created ch u ∈ sh.log → .created ch u' ∈ sh.log → u = u'

theorem numbered_step {U : Type} {poll : U → Burst U V} {sh sh' : Shared n U V}
    {t : ThreadId n m} {fs fs' : List (Frame U V)} (h : ThreadStep poll sh t fs sh' fs')
    (hn : Numbered sh) : Numbered sh' := by
  rcases threadStep_created h with ⟨hs, hc⟩ | ⟨u, hs, hc⟩
  · constructor
    · intro ch u hu
      exact hs ▸ hn.lt ch u ((hc ch u).1 hu)
    · intro ch u u' hu hu'
      exact hn.unique ch u u' ((hc ch u).1 hu) ((hc ch u').1 hu')
  · constructor
    · intro ch w hw
      rcases (hc ch w).1 hw with hw | ⟨rfl, -⟩
      · have := hn.lt ch w hw
        omega
      · omega
    · intro ch w w' hw hw'
      rcases (hc ch w).1 hw with hw | ⟨hch, rfl⟩ <;> rcases (hc ch w').1 hw' with hw' | ⟨hch', rfl⟩
      · exact hn.unique ch w w' hw hw'
      · have := hn.lt ch w hw
        omega
      · have := hn.lt ch w' hw'
        omega
      · rfl

/-- `sh'` is a later state: more was created, nothing about the spawns known before. -/
structure Later (sh sh' : Shared n (Code V ⊕ W) V) : Prop where
  spawned : sh.spawned ≤ sh'.spawned
  created : ∀ ch c, Created sh ch c → Created sh' ch c
  denotes : ∀ ch v, ch < sh.spawned → Denotes (Created sh') ch v → Denotes (Created sh) ch v

theorem threadStep_later {sh sh' : Shared n (Code V ⊕ W) V} {t : ThreadId n m}
    {fs fs' : List (Frame (Code V ⊕ W) V)} (h : ThreadStep (Prog.poll other) sh t fs sh' fs') :
    Later sh sh' := by
  rcases threadStep_created h with ⟨hs, hc⟩ | ⟨u, hs, hc⟩
  · exact ⟨hs.ge, fun ch c => (hc ch _).2, fun ch v _ hv => hv.mono fun ch c => (hc ch _).1⟩
  · refine ⟨by omega, fun ch c h => (hc ch _).2 (Or.inl h), fun ch v hlt hv => ?_⟩
    refine hv.before fun d c hd h => ((hc d _).1 h).resolve_right ?_
    rintro ⟨rfl, -⟩
    omega

/-! ## The simulation -/

/-- A program's future stands for the value of its spawn. -/
def TaskComputes (sh : Shared n (Code V ⊕ W) V) (p : Task (Code V ⊕ W)) : Prop :=
  ∀ ch u, p.future = .wrapped ch u → ch < sh.spawned ∧
    ∀ v, Denotes (Created sh) ch v → ∃ c : Code V, u = .inl c ∧ c.Denotes (Created sh) v

/-- A burst in progress keeps to the value of its task; a program never calls `block_on`. -/
def CodeComputes (sh : Shared n (Code V ⊕ W) V) (ch : Nat) : UserCode (Code V ⊕ W) V → Prop
  | .run b => ∀ v, Denotes (Created sh) ch v → BurstDenotes v (Created sh) b
  | .wait _ => ∀ v, ¬ Denotes (Created sh) ch v
  | .idle => True

def Frame.Computes (sh : Shared n (Code V ⊕ W) V) : Frame (Code V ⊕ W) V → Prop
  | .user task code => ∀ p ∈ task, ∀ ch ∈ p.ch?, ch < sh.spawned ∧ CodeComputes sh ch code
  | .requeue _ owned => TaskComputes sh owned
  | .spawn task _ _ => TaskComputes sh task
  | _ => True

theorem TaskComputes.later {sh sh' : Shared n (Code V ⊕ W) V} {p : Task (Code V ⊕ W)}
    (h : TaskComputes sh p) (hl : Later sh sh') : TaskComputes sh' p := by
  intro ch u hp
  obtain ⟨hlt, hv⟩ := h ch u hp
  refine ⟨hlt.trans_le hl.spawned, fun v hd => ?_⟩
  obtain ⟨c, hu, hc⟩ := hv v (hl.denotes ch v hlt hd)
  exact ⟨c, hu, hc.mono hl.created⟩

theorem Frame.Computes.later {sh sh' : Shared n (Code V ⊕ W) V} {f : Frame (Code V ⊕ W) V}
    (h : f.Computes sh) (hl : Later sh sh') : f.Computes sh' := by
  cases f with
  | user task code =>
    intro p hp ch hch
    obtain ⟨hlt, hc⟩ := h p hp ch hch
    refine ⟨hlt.trans_le hl.spawned, ?_⟩
    cases code with
    | idle => trivial
    | run b => exact fun v hv => (hc v (hl.denotes ch v hlt hv)).mono hl.created
    | wait k => exact fun v hv => hc v (hl.denotes ch v hlt hv)
  | requeue left owned => exact TaskComputes.later h hl
  | spawn task ch b => exact TaskComputes.later h hl
  | _ => trivial

theorem Frame.computes_beginPoll {sh sh₁ : Shared n (Code V ⊕ W) V} {task : Task (Code V ⊕ W)}
    (h : TaskComputes sh task) : (sh₁.beginPoll (Prog.poll other) task).2.Computes sh := by
  unfold Shared.beginPoll
  split
  · next ch u hf =>
    intro p hp c hc
    cases hp
    unfold Task.ch? at hc
    rw [hf] at hc
    cases hc
    obtain ⟨hlt, hv⟩ := h ch u hf
    refine ⟨hlt, fun v hd => ?_⟩
    obtain ⟨c, rfl, ρ, hρ, rfl⟩ := hv v hd
    exact Prog.burst_denotes c.prog hρ
  · trivial

/-- The new task of a call of `spawn`. -/
theorem taskComputes_newTask {sh : Shared n (Code V ⊕ W) V} {u : Code V ⊕ W}
    (hn : Numbered (sh.newTask u).1) : TaskComputes (sh.newTask u).1 (sh.newTask u).2 := by
  intro ch w hw
  cases hw
  have hnew : .created sh.spawned u ∈ (sh.newTask u).1.log := by simp [Shared.newTask]
  refine ⟨hn.lt _ _ hnew, fun v hv => ?_⟩
  cases hv with
  | @mk _ c ρ hc _ hρ => exact ⟨c, hn.unique _ _ _ hnew hc, ρ, hρ, rfl⟩

structure Computes (s : State n m (Code V ⊕ W) V) : Prop where
  numbered : Numbered s.shared
  queues : ∀ p, Queues s.shared p → TaskComputes s.shared p
  frames : ∀ t, ∀ f ∈ s.threads t, f.Computes s.shared
  sent : ∀ ch v, .sent ch v ∈ s.shared.log →
    ch < s.shared.spawned ∧ ∀ w, Denotes (Created s.shared) ch w → v = w

/-- **Each action keeps programs to their values.**  A handle that is polled yields nothing but
what was sent. -/
theorem threadStep_computes {sh sh' : Shared n (Code V ⊕ W) V} {t : ThreadId n m}
    {fs fs' : List (Frame (Code V ⊕ W) V)} (h : ThreadStep (Prog.poll other) sh t fs sh' fs')
    (hn₀ : Numbered sh) (hn : Numbered sh') (hf : ∀ f ∈ fs, f.Computes sh)
    (hq : ∀ p, Queues sh p → TaskComputes sh p)
    (hs : ∀ ch v, .sent ch v ∈ sh.log → ∀ w, Denotes (Created sh) ch w → v = w)
    (hpoll : ∀ c v, (sh.chan c).receiver = .handle → (sh.pollHandle c).1 = some v →
      .sent c v ∈ sh.log) : ∀ f ∈ fs', f.Computes sh' := by
  have hl := threadStep_later h
  have hf' : ∀ f ∈ fs, f.Computes sh' := fun f hmem => (hf f hmem).later hl
  have hq' : ∀ p, Queues sh p → TaskComputes sh' p := fun p hp => (hq p hp).later hl
  have hold : ∀ d v, Denotes (Created sh) d v → d < sh.spawned := by
    rintro d v ⟨hc, -, -⟩
    exact hn₀.lt _ _ hc
  -- the rest of a burst, of a task that the effect before it kept to its value
  have hrest : ∀ {task : Option (Task (Code V ⊕ W))} {b b' : Burst (Code V ⊕ W) V} {fs₁},
      fs = .user task (.run b) :: fs₁ →
      (∀ v, BurstDenotes v (Created sh) b → BurstDenotes v (Created sh') b') →
      Frame.Computes sh' (.user task (.run b')) := by
    intro task b b' fs₁ hfs hb p hp ch hch
    have hmem : .user task (.run b) ∈ fs := hfs ▸ List.mem_cons_self
    obtain ⟨hlt, hc⟩ := hf _ hmem p hp ch hch
    exact ⟨hlt.trans_le hl.spawned, fun v hv => hb v (hc v (hl.denotes ch v hlt hv))⟩
  cases h with
  | outside task k fs x =>
    simp only [List.forall_mem_cons] at hf' ⊢
    exact ⟨hrest rfl (fun v hv => by cases hv), hf'.2⟩
  | callSpawn task u k fs _ =>
    simp only [List.forall_mem_cons] at hf' ⊢
    refine ⟨taskComputes_newTask hn, hrest rfl fun v hv => ?_, hf'.2⟩
    cases hv with
    | @spawn _ c w k hc hk =>
      have hnew : Created (sh.newTask (.inl c)).1 sh.spawned c := by simp [Created, Shared.newTask]
      obtain ⟨ρ, hρ, -⟩ := hc
      exact hk _ _ hl.created hnew fun i => hold _ _ (hρ i)
  | callBlockOn task u k fs _ =>
    simp only [List.forall_mem_cons] at hf' ⊢
    refine ⟨taskComputes_newTask hn, fun p hp ch hch => ?_, hf'.2⟩
    obtain ⟨hlt, hc⟩ := hf'.1 p hp ch hch
    exact ⟨hlt, fun v hv => by cases hc v hv⟩
  | pollHandle task c k fs hr =>
    simp only [List.forall_mem_cons] at hf' ⊢
    refine ⟨hrest rfl fun v hv => ?_, hf'.2⟩
    cases hv with
    | @pollHandle _ _ w _ hw hsome hnone =>
      cases hx : (sh.pollHandle c).1 with
      | none => exact hnone.mono hl.created
      | some x =>
        rw [hs c x (hpoll c x hr hx) w hw]
        exact hsome.mono hl.created
  | dropHandle task c k fs _ =>
    simp only [List.forall_mem_cons] at hf' ⊢
    refine ⟨hrest rfl fun v hv => ?_, hf'.2⟩
    cases hv with
    | dropHandle hk => exact hk.mono hl.created
  | cloneRuntime task k fs _ =>
    simp only [List.forall_mem_cons] at hf' ⊢
    exact ⟨hrest rfl (fun v hv => by cases hv), hf'.2⟩
  | dropRuntime task k fs _ =>
    simp only [List.forall_mem_cons] at hf' ⊢
    exact ⟨hrest rfl (fun v hv => by cases hv), hf'.2⟩
  | dropLastRuntime task k fs _ =>
    simp only [List.forall_mem_cons] at hf' ⊢
    exact ⟨trivial, hrest rfl (fun v hv => by cases hv), hf'.2⟩
  | enter b fs | leavePending u fs | leaveReady v fs | leavePanic fs =>
    simp only [List.forall_mem_cons] at hf' ⊢
    exact ⟨fun _ hp => (by cases hp), hf'.2⟩
  | pendingRun id c u₀ u l fs | pendingHelp id c u₀ u b l fs =>
    simp only [List.forall_mem_cons] at hf' ⊢
    refine ⟨fun ch w hw => ?_, hf'.2⟩
    cases hw
    obtain ⟨hlt, hc⟩ := hf'.1 _ rfl c rfl
    refine ⟨hlt, fun v hv => ?_⟩
    cases hc v hv with
    | @pending _ d hd => exact ⟨d, rfl, hd⟩
  | helpTask c l ch' sh₁ l' task fs hh =>
    obtain ⟨q, hgq, rfl⟩ := Executor.help_some hh
    simp only [List.forall_mem_cons] at hf' ⊢
    exact ⟨Frame.computes_beginPoll (hq' _ (Or.inl (hgq ▸ List.mem_cons_self))), trivial, hf'.2⟩
  | runTask i l c sh₁ l' task fs _ hh =>
    simp only [List.forall_mem_cons] at hf' ⊢
    exact ⟨Frame.computes_beginPoll (hq' _ (WorkerThread.step_some hh).taken), trivial, hf'.2⟩
  | resume r task k fs =>
    simp only [List.forall_mem_cons] at hf' ⊢
    refine ⟨fun p hp ch hch => ?_, hf'.2.2⟩
    obtain ⟨hlt, hc⟩ := hf'.2.1 p hp ch hch
    exact ⟨hlt, fun v hv => absurd hv (hc v)⟩
  | unwindRun | unwindLast | exit => simp [Frame.Computes]
  | _ =>
    simp only [List.forall_mem_cons] at hf' ⊢
    first
      | exact ⟨trivial, hf'.2⟩
      | exact hf'.2

/-- What a handle's poll yields was sent on its channel. -/
theorem Delivered.polled_sent {U : Type} {s : State n m U V} (hd : Delivered s) {c : Nat} {v : V}
    (hr : (s.shared.chan c).receiver = .handle) (hv : (s.shared.pollHandle c).1 = some v) :
    .sent c v ∈ s.shared.log := by
  have hp : (JoinHandle.poll (s.shared.chan c)).1 = some v := by
    unfold Shared.pollHandle at hv
    split at hv
    · next w c' hp =>
      rw [hp]
      exact hv
    · cases hv
  obtain ⟨q, hq⟩ := ((s.shared.chan c).tryRecv_ok_iff v).1 ((JoinHandle.poll_some_iff _ _).1 hp)
  rw [← mem_sents, ← (hd.channel c).pending (by simp [hr]), hq]
  simp

theorem computes_init : Computes (State.init n m (Code V ⊕ W) V) where
  numbered := ⟨nofun, nofun⟩
  queues := by
    rintro p (h | ⟨i, h⟩) <;> cases h
  frames := by
    rintro (i | i) f hf <;> cases List.mem_singleton.1 hf
    · trivial
    · rintro p ⟨⟩
  sent := nofun

theorem computes_step {s s' : State n m (Code V ⊕ W) V} {t : ThreadId n m} (hd : Delivered s)
    (h : Computes s) (hs : Step (Prog.poll other) s t s') : Computes s' := by
  obtain @⟨sh', fs', hs, -⟩ := hs
  have hl := threadStep_later hs
  have hn := numbered_step hs h.numbered
  have hf := threadStep_computes hs h.numbered hn (h.frames t) h.queues
    (fun ch v hv => (h.sent ch v hv).2) fun c v hr hv => hd.polled_sent hr hv
  refine ⟨hn, fun p hp => ?_, fun t' f hmem => ?_, fun ch v hv => ?_⟩
  · rcases threadStep_queues hs hp with hp | ⟨left, fs₁, hfs⟩ | ⟨ch, b, fs₁, hfs⟩
    · exact (h.queues p hp).later hl
    · have hmem : .requeue left p ∈ s.threads t := hfs ▸ List.mem_cons_self
      exact (h.frames t _ hmem).later hl
    · have hmem : .spawn p ch b ∈ s.threads t := hfs ▸ List.mem_cons_self
      exact (h.frames t _ hmem).later hl
  · rcases mem_update_cases hmem with hmem | hmem
    · exact hf f hmem
    · exact (h.frames t' f hmem).later hl
  · obtain ⟨l, hlog, he⟩ := threadStep_log hs
    simp only [hlog, List.mem_append] at hv
    rcases hv with hv | hv
    · obtain ⟨hlt, hw⟩ := h.sent ch v hv
      exact ⟨hlt.trans_le hl.spawned, fun w hd => hw w (hl.denotes ch w hlt hd)⟩
    · cases he with
      | sent id c u w fs₁ hfs =>
        cases List.mem_singleton.1 hv
        have hmem : .user (some ⟨id, .wrapped ch u⟩) (.run (.ready v)) ∈ s.threads t :=
          hfs ▸ List.mem_cons_self
        obtain ⟨hlt, hc⟩ := h.frames t _ hmem _ rfl ch rfl
        refine ⟨hlt.trans_le hl.spawned, fun w hd => ?_⟩
        cases hc w (hl.denotes ch w hlt hd) with
        | ready => rfl
      | destroyed tasks => simp at hv
      | _ => simp at hv

/-- **In every reachable state programs keep to their direct-style values.** -/
theorem computes_reachable {G : State n m (Code V ⊕ W) V → ThreadId n m → Prop}
    {s : State n m (Code V ⊕ W) V} (h : Reachable (Prog.poll other) G s) : Computes s :=
  h.elim fun _ hr => hr.invariant_with (R := Delivered)
    (fun ls _ hr' => delivered_reachable ⟨ls, hr'⟩) computes_init
    fun _ _ _ hd ha _ hs => computes_step hd ha hs

/-- A program without handles stands for its direct-style value. -/
theorem denotes_root {created : Nat → Code V → Prop} {ch : Nat} {p : Prog V 0}
    {env : Fin 0 → Nat} (h : created ch ⟨0, p, env⟩) : Denotes created ch (p.eval Fin.elim0) :=
  Denotes.mk (c := ⟨0, p, env⟩) h (fun i => i.elim0) fun i => i.elim0

theorem Computes.recv_eq {s : State n m (Code V ⊕ W) V} (h : Computes s) (hd : Delivered s)
    {ch : Nat} {v w : V} (hw : Denotes (Created s.shared) ch w) (hr : .recv ch v ∈ s.shared.log) :
    v = w :=
  (h.sent ch v (hd.recv_sent hr)).2 w hw

/-- **What `block_on` of a program returns is the program's direct-style value**, on any number
of workers and whatever else runs.  The same holds along the way: a task that stands for a value
polls only handles that yield the values of the sub-programs they were spawned for, and spawns
only such sub-programs.  So two executors, with any numbers of workers, return the same. -/
theorem block_on_eq_eval {G : State n m (Code V ⊕ W) V → ThreadId n m → Prop}
    {s : State n m (Code V ⊕ W) V} (h : Reachable (Prog.poll other) G s) :
    (∀ ch (p : Prog V 0) env v, .created ch (.inl ⟨0, p, env⟩) ∈ s.shared.log →
      .recv ch v ∈ s.shared.log → v = p.eval Fin.elim0) ∧
    (∀ ch w, Denotes (Created s.shared) ch w → (∀ v, .recv ch v ∈ s.shared.log → v = w) ∧
      ∀ t task b fs, s.threads t = .user (some task) (.run b) :: fs → task.ch? = some ch →
        (∀ c k, b = .pollHandle c k → ∃ x, Denotes (Created s.shared) c x) ∧
        ∀ u k, b = .spawn u k →
        ∃ (c : Code V) (x : V), u = .inl c ∧ c.Denotes (Created s.shared) x) ∧
    ∀ (n' m' : Nat) (W' : Type) (other' : W' → Burst (Code V ⊕ W') V)
      (G' : State n' m' (Code V ⊕ W') V → ThreadId n' m' → Prop)
      (s' : State n' m' (Code V ⊕ W') V), Reachable (Prog.poll other') G' s' →
      ∀ (p : Prog V 0) ch env ch' env' v v',
        .created ch (.inl ⟨0, p, env⟩) ∈ s.shared.log → .recv ch v ∈ s.shared.log →
        .created ch' (.inl ⟨0, p, env'⟩) ∈ s'.shared.log → .recv ch' v' ∈ s'.shared.log →
        v = v' := by
  have hd := delivered_reachable h
  have hc := computes_reachable h
  refine ⟨?_, ?_, ?_⟩
  · intro ch p env v hp hv
    exact hc.recv_eq hd (denotes_root hp) hv
  · intro ch w hw
    refine ⟨fun v hv => hc.recv_eq hd hw hv, ?_⟩
    intro t task b fs hfs hch
    have hmem : .user (some task) (.run b) ∈ s.threads t := hfs ▸ List.mem_cons_self
    have hb := (hc.frames t _ hmem task rfl ch hch).2 w hw
    constructor
    · rintro c k rfl
      cases hb with
      | pollHandle hx _ _ => exact ⟨_, hx⟩
    · rintro u k rfl
      cases hb with
      | spawn hx _ => exact ⟨_, _, rfl, hx⟩
  · intro n' m' W' other' G' s' h' p ch env ch' env' v v' hp hv hp' hv'
    rw [hc.recv_eq hd (denotes_root hp) hv,
      (computes_reachable h').recv_eq (delivered_reachable h') (denotes_root hp') hv']

/-- A thread outside blocks on `addOne`; the worker never moves, the thread helps itself. -/
theorem block_on_eq_eval_addOne : ∃ s : State 1 1 (Code Nat ⊕ Empty) Nat,
    .recv 0 4 ∈ s.shared.log ∧ ∀ v, .recv 0 v ∈ s.shared.log →
      v = Sample.addOne.eval Fin.elim0 := by
  obtain ⟨s, hs, hp, hv⟩ : ∃ s, ((State.init 1 1 (Code Nat ⊕ Empty) Nat).execAll State.Calm
      (Prog.poll Empty.elim)
      ((.inr 0, .code (.blockOn (.inl ⟨0, Sample.addOne, Fin.elim0⟩) fun _ => .ready 0)) ::
        turns (.inr 0) 34 (.steal (.batch 0)))) = some s ∧
      .created 0 (.inl ⟨0, Sample.addOne, Fin.elim0⟩) ∈ s.shared.log ∧
        .recv 0 4 ∈ s.shared.log := by
    refine ⟨_, rfl, ?_, ?_⟩
    · exact List.mem_cons_self
    · rw [← mem_recvs]
      decide
  have h := block_on_eq_eval ⟨_, State.execAll_run _ hs⟩
  exact ⟨s, hv, fun v hr => h.1 0 _ _ v hp hr⟩

end Luminal.Std
