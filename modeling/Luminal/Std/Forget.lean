import Luminal.Std.Handles

/-!
# Dropping handles changes nothing else

`forget D` drops the receivers of the handles `D`.  An action that does not use these handles
does the same with them and without (`exec_forget`), so the runs after dropping them are
exactly the runs that never touch them (`forget_run_iff`): same queues, same polls, same
results.
-/

namespace Luminal.Std

open Function Transition

variable {n m : Nat} {U V : Type} {poll : U → Burst U V}

/-- The receivers of the handles `D` are dropped. -/
def Shared.forget (D : Nat → Bool) (sh : Shared n U V) : Shared n U V :=
  { sh with chan := fun ch => if D ch then (sh.chan ch).dropReceiver else sh.chan ch }

def State.forget (D : Nat → Bool) (s : State n m U V) : State n m U V :=
  ⟨s.shared.forget D, s.threads⟩

/-- The top frame polls or drops a handle of `D`. -/
def Touching (D : Nat → Bool) (fs : List (Frame U V)) : Prop :=
  ∃ task h fs₁, D h = true ∧
    ((∃ k, fs = .user task (.run (.pollHandle h k)) :: fs₁) ∨
      ∃ k, fs = .user task (.run (.dropHandle h k)) :: fs₁)

@[simp] theorem forget_owners (D : Nat → Bool) (sh : Shared n U V) :
    (sh.forget D).owners = sh.owners := rfl

section Operations

variable (D : Nat → Bool) (sh : Shared n U V)

theorem forget_update (ch : Nat) (c : Channel V) (log : List (Event U V)) :
    ({ sh with chan := update sh.chan ch c, log := log } : Shared n U V).forget D =
      { sh.forget D with
        chan := update (sh.forget D).chan ch (if D ch then c.dropReceiver else c)
        log := log } := by
  unfold Shared.forget
  simp only
  congr 1
  funext d
  by_cases hd : d = ch
  · subst hd
    simp
  · simp [hd]

theorem dropReceiver_send (c : Channel V) (v : V) :
    (c.send v).dropReceiver = c.dropReceiver.send v := by
  simp [Channel.send, Channel.dropReceiver]
  split <;> rfl

theorem forget_destroy (tasks : List (Task U)) :
    (sh.destroy tasks).forget D = (sh.forget D).destroy tasks := by
  unfold Shared.forget Shared.destroy
  simp only
  congr 1
  funext d
  split <;> split <;> rfl

theorem forget_beginPoll (task : Task U) :
    (sh.forget D).beginPoll poll task =
      ((sh.beginPoll poll task).1.forget D, (sh.beginPoll poll task).2) := by
  unfold Shared.beginPoll
  split <;> rfl

theorem forget_step (i : Fin n) (l : RunLoop) (c : StealChoice) :
    WorkerThread.step i (sh.forget D) l c =
      ((WorkerThread.step i sh l c).1.forget D, (WorkerThread.step i sh l c).2) := by
  fun_cases WorkerThread.step i sh l c <;> simp_all [WorkerThread.step, Shared.forget]

theorem forget_help (l : BlockOnLoop) (c : StealChoice) :
    Executor.help (sh.forget D) l c =
      ((Executor.help sh l c).1.forget D, (Executor.help sh l c).2) := by
  fun_cases Executor.help sh l c <;> simp_all [Executor.help, Shared.forget]

end Operations

/-- The shared state of a configuration without the receivers of `D`. -/
def Config.forget (D : Nat → Bool) (r : Config n U V) : Config n U V := (r.1.forget D, r.2)

section Exec

variable {D : Nat → Bool} {sh : Shared n U V}

theorem forget_chan {ch : Nat} (h : D ch = false) : (sh.forget D).chan ch = sh.chan ch := by
  simp [Shared.forget, h]

theorem forget_newTask (u : U) (h : D sh.spawned = false) :
    (sh.forget D).newTask u = ((sh.newTask u).1.forget D, (sh.newTask u).2) := by
  unfold Shared.newTask
  refine Prod.ext ?_ rfl
  have := forget_update D { sh with nextTaskId := sh.nextTaskId + 1, spawned := sh.spawned + 1 }
    sh.spawned .unbounded (sh.log ++ [.created sh.spawned u])
  rw [h] at this
  exact this.symm

theorem forget_pollHandle {ch : Nat} (h : D ch = false) :
    (sh.forget D).pollHandle ch = ((sh.pollHandle ch).1, (sh.pollHandle ch).2.forget D) := by
  unfold Shared.pollHandle
  rw [forget_chan h]
  split
  · next v c hp =>
    have := forget_update D sh ch c (sh.log ++ [.recv ch v])
    rw [h] at this
    simp only [this]
    rfl
  · rfl

theorem forget_dropReceiver {ch : Nat} (h : D ch = false) :
    (sh.forget D).dropReceiver ch = (sh.dropReceiver ch).forget D := by
  have := forget_update D sh ch (sh.chan ch).dropReceiver sh.log
  rw [h] at this
  unfold Shared.dropReceiver
  rw [forget_chan h]
  exact this.symm

theorem forget_pushSpawned {task : Task U} {ch : Nat} {b : Bool} (h : D ch = false) :
    (sh.forget D).pushSpawned task ch b = (sh.pushSpawned task ch b).forget D := by
  unfold Shared.pushSpawned
  rw [forget_chan h]
  have hupd := forget_update D { sh with globalQueue := sh.globalQueue ++ [task] } ch
    { sh.chan ch with receiver := if b then .blockOn else .handle }
  rw [h] at hupd
  exact (hupd _).symm

theorem execPending_forget (u : U) (task : Option (Task U)) (fs : List (Frame U V)) :
    execPending (sh.forget D) u task fs = (execPending sh u task fs).map (Config.forget D) := by
  unfold execPending
  split <;> rfl

theorem execReady_forget (v : V) (fs : List (Frame U V)) (task : Option (Task U)) :
    execReady (sh.forget D) v fs task = (execReady sh v fs task).map (Config.forget D) := by
  unfold execReady
  split
  · rfl
  · next id ch u =>
    have := forget_update D sh ch ((sh.chan ch).send v) (sh.log ++ [.sent ch v])
    simp only [Option.map_some, Config.forget, this]
    congr 4
    simp only [Shared.forget]
    split
    · rw [dropReceiver_send]
    · rfl
  · rfl

theorem execPanic_forget (fs : List (Frame U V)) (task : Option (Task U)) :
    execPanic (sh.forget D) fs task = (execPanic sh fs task).map (Config.forget D) := by
  unfold execPanic
  split
  · rfl
  · next id ch u =>
    simp only [Option.map_some, Config.forget, forget_destroy]
    rfl
  · rfl

theorem execUser_forget (t : ThreadId n m) (c : Choice U V) (task : Option (Task U))
    (fs : List (Frame U V)) (b : Burst U V) (hnew : D sh.spawned = false)
    (ht : ¬ Touching D (.user task (.run b) :: fs)) :
    execUser (sh.forget D) t c task fs b = (execUser sh t c task fs b).map (Config.forget D) := by
  cases b with
  | pending u => exact execPending_forget u task fs
  | ready v => exact execReady_forget v fs task
  | panic => exact execPanic_forget fs task
  | outside k => rfl
  | spawn u k =>
    simp only [execUser, forget_newTask u hnew, forget_owners]
    split <;> rfl
  | blockOn u k =>
    simp only [execUser, forget_newTask u hnew, forget_owners]
    split <;> rfl
  | pollHandle h k =>
    have hd : D h = false := Bool.eq_false_iff.2 fun hd =>
      ht ⟨task, h, fs, hd, Or.inl ⟨k, rfl⟩⟩
    simp only [execUser, forget_chan hd, forget_pollHandle hd]
    split <;> rfl
  | dropHandle h k =>
    have hd : D h = false := Bool.eq_false_iff.2 fun hd =>
      ht ⟨task, h, fs, hd, Or.inr ⟨k, rfl⟩⟩
    simp only [execUser, forget_chan hd, forget_dropReceiver hd]
    split <;> rfl
  | cloneRuntime k =>
    have hcond : 0 < (sh.forget D).owners ↔ 0 < sh.owners := Iff.rfl
    rw [execUser, execUser, if_congr hcond rfl rfl]
    split <;> rfl
  | dropRuntime k =>
    have h1 : 1 < (sh.forget D).owners ↔ 1 < sh.owners := Iff.rfl
    have h2 : (sh.forget D).owners = 1 ↔ sh.owners = 1 := Iff.rfl
    rw [execUser, execUser, if_congr h1 rfl (if_congr h2 rfl rfl)]
    split
    · rfl
    · split <;> rfl

theorem execTook_forget (loop : Frame U V) (fs : List (Frame U V)) (task : Option (Task U)) :
    execTook poll (sh.forget D) loop fs task = (execTook poll sh loop fs task).forget D := by
  cases task with
  | none => rfl
  | some task =>
    simp only [execTook, forget_beginPoll]
    rfl

theorem execBlockOn_forget (c : StealChoice) {ch : Nat} (l : BlockOnLoop) (fs : List (Frame U V))
    (hd : D ch = false) :
    execBlockOn poll (sh.forget D) c ch l fs = (execBlockOn poll sh c ch l fs).forget D := by
  unfold execBlockOn
  rw [forget_chan hd]
  split
  · next v _ _ =>
    have := forget_update D sh ch (sh.chan ch).dropReceiver (sh.log ++ [.recv ch v])
    rw [hd] at this
    exact Prod.ext this.symm rfl
  · exact Prod.ext (forget_dropReceiver hd) rfl
  · simp only [forget_help]
    exact execTook_forget ..

theorem forget_dropWorker (i : Fin n) :
    (sh.forget D).dropWorker i = (sh.dropWorker i).forget D := by
  unfold Shared.dropWorker
  simp only
  rw [forget_destroy]
  rfl

theorem execRun_forget (c : StealChoice) (i : Fin n) (l : RunLoop) (fs : List (Frame U V)) :
    execRun poll (sh.forget D) c i l fs = (execRun poll sh c i l fs).map (Config.forget D) := by
  unfold execRun
  by_cases hexit : l.pc = .top ∧ sh.shutdown = true
  · rw [if_pos hexit, if_pos (show l.pc = .top ∧ (sh.forget D).shutdown = true from hexit),
      forget_dropWorker]
    split <;> rfl
  · rw [if_neg hexit, if_neg (show ¬ (l.pc = .top ∧ (sh.forget D).shutdown = true) from hexit)]
    simp only [forget_step, Option.map_some]
    exact congrArg some (execTook_forget ..)

theorem execUnwind_forget (i : Fin n) (k : Nat) (fs : List (Frame U V)) :
    execUnwind (sh.forget D) i k fs = (execUnwind sh i k fs).map (Config.forget D) := by
  have h1 : k = 0 ∨ (sh.forget D).doomed i ≠ [] ∧ k < (sh.forget D).owners ↔
      k = 0 ∨ sh.doomed i ≠ [] ∧ k < sh.owners := Iff.rfl
  have h2 : (sh.forget D).doomed i ≠ [] ∧ 0 < (sh.forget D).owners ↔
      sh.doomed i ≠ [] ∧ 0 < sh.owners := Iff.rfl
  rw [execUnwind, execUnwind, if_congr h1 rfl (if_congr h2 rfl rfl), forget_dropWorker]
  split
  · rfl
  · split <;> rfl

theorem execJoin_forget (j : Nat) (t : ThreadId n m) (fs : List (Frame U V)) :
    execJoin (sh.forget D) j t fs = (execJoin sh j t fs).map (Config.forget D) := by
  unfold execJoin
  split
  · split <;> rfl
  · rfl

/-- **An action that leaves the handles `D` alone does the same without them.** -/
theorem exec_forget {t : ThreadId n m} (c : Choice U V) {fs : List (Frame U V)}
    (hD : ∀ ch, D ch = true → (sh.chan ch).receiver = .handle) (ho : Owns sh fs)
    (hnew : (sh.chan sh.spawned).receiver = .spawning) (ht : ¬ Touching D fs) :
    exec poll (sh.forget D) t c fs = (exec poll sh t c fs).map (Config.forget D) := by
  have hne : ∀ ch, (sh.chan ch).receiver ≠ .handle → D ch = false := fun ch h =>
    Bool.eq_false_iff.2 fun hd => h (hD ch hd)
  have hnew' : D sh.spawned = false := hne _ (by simp [hnew])
  fun_cases exec poll sh t c fs with
  | case3 _ _ task b fs =>
    rw [exec_user]
    exact execUser_forget t c task fs b hnew' ht
  | case4 _ _ id ch u fs =>
    have := forget_update D sh ch (sh.chan ch).dropSender (sh.log ++ [.ready ch])
    simp only [exec, Option.map_some, Config.forget, this]
    congr 4
    simp only [Shared.forget]
    split <;> rfl
  | case8 _ _ task ch fs | case9 _ _ task ch fs =>
    have hd : D ch = false := hne ch (by simp [show (sh.chan ch).receiver = .spawning from
      ho _ List.mem_cons_self])
    simp only [exec, forget_pushSpawned hd]
    rfl
  | case10 _ _ ch l fs =>
    have hd : D ch = false := hne ch (by simp [show (sh.chan ch).receiver = .blockOn from
      ho _ List.mem_cons_self])
    simp only [exec, execBlockOn_forget _ _ _ hd]
    rfl
  | case12 _ _ ch l fs =>
    have hd : D ch = false := hne ch (by simp [show (sh.chan ch).receiver = .blockOn from
      ho _ (List.mem_cons_of_mem _ List.mem_cons_self)])
    simp only [exec, forget_dropReceiver hd]
    rfl
  | case13 => exact execUnwind_forget ..
  | case15 => exact execRun_forget ..
  | case18 _ _ j fs hj hlive => exact (dif_pos hj).trans (if_pos hlive)
  | case19 _ _ j fs hj hlive =>
    refine Eq.trans ?_ (execJoin_forget ..)
    exact (dif_pos hj).trans (if_neg hlive)
  | case20 _ _ fs hj =>
    rw [exec_dropQueue]
    simp only [Option.map_some, Config.forget, forget_destroy]
    rfl
  | case21 _ _ j fs hj hn => exact (dif_neg hj).trans (if_neg hn)
  | case2 | case22 =>
    rw [exec] <;> first | rfl | assumption
  | _ => rfl

end Exec

/-! ## Runs -/

/-- A receiver that a `JoinHandle` holds stays with it until the handle is dropped. -/
theorem threadStep_held {sh sh' : Shared n U V} {t : ThreadId n m} {fs fs' : List (Frame U V)}
    (h : ThreadStep poll sh t fs sh' fs') (ho : Owns sh fs)
    (hnew : (sh.chan sh.spawned).receiver = .spawning) {D : Nat → Bool} (ht : ¬ Touching D fs)
    {ch : Nat} (hd : D ch = true) (hch : (sh.chan ch).receiver = .handle) :
    (sh'.chan ch).receiver = .handle := by
  have hset : ∀ (c : Nat) (x : Channel V), (c = ch → x.receiver = .handle) →
      (update sh.chan c x ch).receiver = .handle := by
    intro c x hx
    by_cases hc : c = ch
    · subst hc
      rw [update_self]
      exact hx rfl
    · rw [update_of_ne (Ne.symm hc)]
      exact hch
  have hne : ∀ c r, (sh.chan c).receiver = r → r ≠ .handle → c ≠ ch := by
    rintro c r hr hr' rfl
    exact hr' (hr.symm.trans hch)
  cases h with
  | callSpawn task u k fs _ | callBlockOn task u k fs _ =>
    exact hset _ _ fun hc => absurd hc (hne _ _ hnew (by decide))
  | pollHandle task c k fs _ =>
    exact (pollHandle_receiver sh c ch).trans hch
  | dropHandle task c k fs _ =>
    refine hset _ _ ?_
    rintro rfl
    exact absurd ⟨task, c, fs, hd, Or.inr ⟨k, rfl⟩⟩ ht
  | ready id c u v fs =>
    refine hset _ _ ?_
    rintro rfl
    unfold Channel.send
    split <;> exact hch
  | panic id c u fs => exact (destroy_receiver _ _ _).trans hch
  | endWrapped id c u fs =>
    refine hset _ _ ?_
    rintro rfl
    exact hch
  | spawned task c fs | startBlockOn task c fs =>
    have hc : (sh.chan c).receiver = .spawning := ho _ List.mem_cons_self
    exact hset _ _ fun h => absurd h (hne _ _ hc (by decide))
  | recvOk c l v fs _ _ | recvDisconnected c l fs _ _ =>
    have hc : (sh.chan c).receiver = .blockOn := ho _ List.mem_cons_self
    exact hset _ _ fun h => absurd h (hne _ _ hc (by decide))
  | unwindBlockOn c l fs =>
    have hc : (sh.chan c).receiver = .blockOn := ho _ (List.mem_cons_of_mem _ List.mem_cons_self)
    exact hset _ _ fun h => absurd h (hne _ _ hc (by decide))
  | help c l ch' sh' l' fs _ hh =>
    rw [Executor.help_none hh]
    exact hch
  | helpTask c l ch' sh₁ l' task fs hh =>
    obtain ⟨q, -, rfl⟩ := Executor.help_some hh
    rw [beginPoll_eq]
    exact hch
  | unwindRun i | unwindLast i | exit i => exact (destroy_receiver _ _ _).trans hch
  | run i l c sh' l' fs _ _ hh =>
    rw [WorkerThread.step_none hh]
    exact hch
  | runTask i l c sh₁ l' task fs _ hh =>
    rw [beginPoll_eq, show sh₁.chan = sh.chan by rw [(WorkerThread.step_some hh).eq]]
    exact hch
  | dropQueue fs => exact (destroy_receiver _ _ _).trans hch
  | _ => exact hch

/-- A dropped handle is not polled or dropped again. -/
theorem not_touching {D : Nat → Bool} {sh sh' : Shared n U V} {t : ThreadId n m}
    {fs fs' : List (Frame U V)} (h : ThreadStep poll (sh.forget D) t fs sh' fs') :
    ¬ Touching D fs := by
  have hdropped : ∀ ch, D ch = true → ((sh.forget D).chan ch).receiver ≠ .handle := by
    intro ch hd
    simp [Shared.forget, hd, Channel.dropReceiver]
  rintro ⟨task, ch, fs₁, hd, ⟨k, rfl⟩ | ⟨k, rfl⟩⟩
  · cases h with
    | pollHandle _ _ _ _ hch => exact hdropped ch hd hch
  · cases h with
    | dropHandle _ _ _ _ hch => exact hdropped ch hd hch

/-- A reachable state in which handles exist for all of `D`. -/
def Held (poll : U → Burst U V) (D : Nat → Bool) (s : State n m U V) : Prop :=
  Reachable poll State.Calm s ∧ ∀ ch, D ch = true → (s.shared.chan ch).receiver = .handle

theorem held_step {D : Nat → Bool} {s s' : State n m U V} {t : ThreadId n m}
    (h : Held poll D s) (hG : s.Calm t) (ht : ¬ Touching D (s.threads t)) (hs : Step poll s t s') :
    Held poll D s' := by
  obtain ⟨⟨ts, hr⟩, hD⟩ := h
  have ha := accounted_reachable ⟨ts, hr⟩
  have hd := delivered_reachable ⟨ts, hr⟩
  refine ⟨⟨_, hr.snoc hG hs⟩, fun ch hch => ?_⟩
  obtain @⟨sh', fs', hs, -⟩ := hs
  exact threadStep_held hs (hd.owns ha t) ((hd.channel _).pushed.2 (ha.fresh le_rfl).1) ht hch
    (hD ch hch)

theorem exec_forget_held {D : Nat → Bool} {s : State n m U V} (h : Held poll D s)
    (t : ThreadId n m) (c : Choice U V) (ht : ¬ Touching D (s.threads t)) :
    exec poll (s.shared.forget D) t c (s.threads t) =
      (exec poll s.shared t c (s.threads t)).map (Config.forget D) := by
  obtain ⟨hr, hD⟩ := h
  have ha := accounted_reachable hr
  have hd := delivered_reachable hr
  exact exec_forget c hD (hd.owns ha t) ((hd.channel _).pushed.2 (ha.fresh le_rfl).1) ht

/-- What a thread does after dropping `D`, it can do before. -/
theorem unforget_step {D : Nat → Bool} {b a' : State n m U V} {t : ThreadId n m}
    (hb : Held poll D b) (hG : b.Calm t) (hs : Step poll (b.forget D) t a') :
    ∃ b', (b.Calm t ∧ ¬ Touching D (b.threads t)) ∧ Step poll b t b' ∧
      Held poll D b' ∧ a' = b'.forget D := by
  obtain @⟨sh', fs', hs, hlast⟩ := hs
  have ht : ¬ Touching D (b.threads t) := not_touching hs
  obtain ⟨c, hc⟩ := exec_complete hs
  rw [show (b.forget D).threads = b.threads from rfl,
    show (b.forget D).shared = b.shared.forget D from rfl, exec_forget_held hb t c ht] at hc
  obtain ⟨⟨sh₁, fs₁⟩, hex, heq⟩ := Option.map_eq_some_iff.1 hc
  cases heq
  have hstep : Step poll b t ⟨sh₁, update b.threads t fs₁⟩ := Step.mk (exec_sound hex) hlast
  exact ⟨_, ⟨hG, ht⟩, hstep, held_step hb hG ht hstep, rfl⟩

/-- What a thread does without using `D`, it can do after dropping `D`. -/
theorem forget_state_step {D : Nat → Bool} {b b' : State n m U V} {t : ThreadId n m}
    (hb : Held poll D b) (hG : b.Calm t ∧ ¬ Touching D (b.threads t)) (hs : Step poll b t b') :
    Step poll (b.forget D) t (b'.forget D) := by
  obtain @⟨sh', fs', hs, hlast⟩ := hs
  obtain ⟨c, hc⟩ := exec_complete hs
  have hex := exec_forget_held hb t c hG.2
  rw [hc] at hex
  exact Step.mk (exec_sound hex) hlast

/-- **The runs after dropping the handles `D` are the runs that never use them**, with the same
threads moving: all queues, stacks, counters, logs and other channels are the same. -/
theorem forget_run_iff {D : Nat → Bool} {s s' : State n m U V} (h : Held poll D s)
    (ts : List (ThreadId n m)) :
    Run (Step poll) State.Calm (s.forget D) ts s' ↔
      ∃ s₁, Run (Step poll) (fun a t => a.Calm t ∧ ¬ Touching D (a.threads t)) s ts s₁ ∧
        s' = s₁.forget D := by
  constructor
  · intro hr
    obtain ⟨s₁, hr₁, -, hs'⟩ := hr.simulate (R := fun a b => Held poll D b ∧ a = b.forget D)
      ⟨h, rfl⟩ fun a t a' b hab hG hs => by
        obtain ⟨hb, rfl⟩ := hab
        exact unforget_step hb hG hs
    exact ⟨s₁, hr₁, hs'⟩
  · rintro ⟨s₁, hr, rfl⟩
    have hsim : ∃ s₂, Run (Step poll) State.Calm (s.forget D) ts s₂ ∧
        Held poll D s₁ ∧ s₂ = s₁.forget D :=
      hr.simulate (R := fun b a => Held poll D b ∧ a = b.forget D) ⟨h, rfl⟩
        fun b t b' a hab hG hs => by
          obtain ⟨hb, rfl⟩ := hab
          exact ⟨_, hG.1, forget_state_step hb hG hs, held_step hb hG.1 hG.2 hs, rfl⟩
    obtain ⟨s₂, hr₂, -, hs'⟩ := hsim
    exact hs' ▸ hr₂

/-- Dropping a handle is forgetting it. -/
theorem dropReceiver_eq_forget (sh : Shared n U V) (h : Nat) :
    sh.dropReceiver h = sh.forget fun c => c == h := by
  unfold Shared.dropReceiver Shared.forget
  congr 1
  funext c
  by_cases hc : c = h
  · subst hc
    simp
  · simp [hc]

/-- Forgetting handles one after the other is forgetting them together. -/
theorem forget_forget (D D' : Nat → Bool) (sh : Shared n U V) :
    (sh.forget D).forget D' = sh.forget fun c => D c || D' c := by
  unfold Shared.forget
  congr 1
  funext c
  by_cases h1 : D c = true <;> by_cases h2 : D' c = true <;>
    simp [h1, h2, Channel.dropReceiver]

/-! ## Exactly-once delivery -/

/-- **Results are delivered exactly once.**  In calm runs: a task sends at most one value, an
output of its future, and the receiver yields that value at most once; once the task has
finished its receiver yields it at the next try; no receiver is told `Disconnected` before
that; and dropping handles changes nothing for the others. -/
theorem delivered_exactly_once {s : State n m U V} (h : Reachable poll State.Calm s) :
    (∀ ch, (sents ch s.shared.log).length ≤ 1 ∧
      recvs ch s.shared.log <+: sents ch s.shared.log ∧
      ∀ u v, .spawned ch u ∈ s.shared.log → .sent ch v ∈ s.shared.log →
        Outputs poll v (poll u)) ∧
    (∀ ch, .ready ch ∈ s.shared.log → (s.shared.chan ch).receiver ≠ .dropped →
      recvs ch s.shared.log = [] → ∃ v, .sent ch v ∈ s.shared.log ∧
        (s.shared.chan ch).tryRecv = .ok v ∧ (JoinHandle.poll (s.shared.chan ch)).1 = some v) ∧
    ((∀ ch, (s.shared.chan ch).receiver ≠ .dropped → recvs ch s.shared.log = [] →
        (s.shared.chan ch).tryRecv ≠ .disconnected) ∧
      ∀ t ch l fs, s.threads t = .blockOn ch l :: fs →
        (s.shared.chan ch).tryRecv ≠ .disconnected) ∧
    ((∀ c, s.shared.dropReceiver c = s.shared.forget fun d => d == c) ∧
      (∀ D D', (s.shared.forget D).forget D' = s.shared.forget fun c => D c || D' c) ∧
      ∀ D : Nat → Bool, (∀ ch, D ch = true → (s.shared.chan ch).receiver = .handle) →
        ∀ ts s', Run (Step poll) State.Calm (s.forget D) ts s' ↔
          ∃ s₁, Run (Step poll) (fun a t => a.Calm t ∧ ¬ Touching D (a.threads t)) s ts s₁ ∧
            s' = s₁.forget D) := by
  have ha := accounted_reachable h
  have hd := delivered_reachable h
  have hq := quiet_reachable h
  have hder := derived_reachable h
  have hone : ∀ ch, (sents ch s.shared.log).length ≤ 1 := fun ch => by
    have h1 := ha.sent ch
    have h2 := ha.count ch
    have h3 := ha.pushes_le_one ch
    omega
  have hyield : ∀ ch, .ready ch ∈ s.shared.log → (s.shared.chan ch).receiver ≠ .dropped →
      recvs ch s.shared.log = [] → ∃ v, .sent ch v ∈ s.shared.log ∧
        (s.shared.chan ch).tryRecv = .ok v := by
    intro ch hready hr hu
    have h1 := ha.sent ch
    have h2 := (readies_pos_iff ch _).2 hready
    have h3 := (hd.channel ch).pending hr
    rw [hu, List.nil_append] at h3
    obtain ⟨v, hv⟩ := List.length_eq_one_iff.1 (show (sents ch s.shared.log).length = 1 from
      le_antisymm (hone ch) (by omega))
    exact ⟨v, (mem_sents ch _ v).1 (by simp [hv]), (Channel.tryRecv_ok_iff _ v).2 ⟨[], h3.trans hv⟩⟩
  refine ⟨fun ch => ⟨hone ch, (hd.channel ch).inOrder, fun u v hu hv => ?_⟩,
    fun ch hready hr hu => ?_, ⟨fun ch hr hu hdis => ?_, fun t ch l fs hfs => ?_⟩,
    dropReceiver_eq_forget _, fun D D' => forget_forget D D' _,
    fun D hD ts s' => forget_run_iff ⟨h, hD⟩ ts⟩
  · obtain ⟨u', hu', hout⟩ := hder.sent ch v hv
    rw [ha.spawned_unique hu hu']
    exact hout
  · obtain ⟨v, hv, htry⟩ := hyield ch hready hr hu
    exact ⟨v, hv, htry, (JoinHandle.poll_some_iff _ v).2 htry⟩
  · have hsender := (hd.channel ch).sender.1 ((Channel.tryRecv_disconnected_iff _).1 hdis).2
    rw [hq.lost ch, Nat.add_zero, readies_pos_iff] at hsender
    obtain ⟨v, -, htry⟩ := hyield ch hsender hr hu
    rw [htry] at hdis
    cases hdis
  · have hr : (s.shared.chan ch).receiver = .blockOn :=
      hd.owns ha t _ (hfs ▸ List.mem_cons_self)
    exact hd.connected ha hr (hq.lost ch)

/-- A task that has finished, its handle not yet polled. -/
theorem delivered_exactly_once_value : ∃ s : State 1 1 Sample Nat,
    .ready 0 ∈ s.shared.log ∧ (sents 0 s.shared.log).length ≤ 1 ∧
    ∃ v, .sent 0 v ∈ s.shared.log ∧ (s.shared.chan 0).tryRecv = .ok v ∧
      (JoinHandle.poll (s.shared.chan 0)).1 = some v := by
  obtain ⟨s, hr, h1, h2, h3⟩ := reachable_of_exec Sample.burst (G := State.Calm)
    (P := fun s : State 1 1 Sample Nat => .ready 0 ∈ s.shared.log ∧
      (s.shared.chan 0).receiver ≠ .dropped ∧ recvs 0 s.shared.log = [])
    ((.inr 0, .code (Sample.spawns [.value 5])) :: turns (.inr 0) 2 (.answer 0) ++
      turns (.inl 0) 5 (.steal (.batch 0))) (by decide)
  obtain ⟨ha, hb, -⟩ := delivered_exactly_once hr
  exact ⟨s, h1, (ha 0).1, hb 0 h1 h2 h3⟩

end Luminal.Std
