import Luminal.Std.Effects
import Mathlib.Data.Fintype.Sum

/-!
# Running the std executor

`exec` computes the action that a thread takes, given the answers that `ThreadStep` leaves
open (`Choice`); it is sound and complete for the relation (`threadStep_iff_exec`).
`State.exec` runs a whole schedule, so that a concrete run can be evaluated
(`reachable_of_exec`).
-/

namespace Luminal.Std

open Function Transition

variable {n m : Nat} {U V : Type} {poll : U → Burst U V}

/-- What an action leaves open: the code a thread outside the executor goes on with, an answer
from outside, the outcome of a steal. -/
inductive Choice (U V : Type) where
  | code (b : Burst U V)
  | answer (x : Nat)
  | steal (c : StealChoice)

def Choice.answered : Choice U V → Nat
  | .answer x => x
  | _ => 0

def Choice.stolen : Choice U V → StealChoice
  | .steal c => c
  | _ => .batch 0

/-- A shared state and a stack. -/
abbrev Config (n : Nat) (U V : Type) := Shared n U V × List (Frame U V)

/-- The end of a poll of `task` that returned `Poll::Pending`. -/
def execPending (sh : Shared n U V) (u : U) :
    Option (Task U) → List (Frame U V) → Option (Config n U V)
  | none, fs => some (sh, .user none .idle :: fs)
  | some ⟨id, .wrapped ch _⟩, .run l :: fs =>
    some ({ sh with newTaskId := sh.newTaskId + 1 },
      .requeue (some (Task.default sh.newTaskId)) ⟨id, .wrapped ch u⟩ :: .run l :: fs)
  | some ⟨id, .wrapped ch _⟩, .blockOn c l :: fs =>
    some (sh, .requeue none ⟨id, .wrapped ch u⟩ :: .blockOn c l :: fs)
  | _, _ => none

def execReady (sh : Shared n U V) (v : V) (fs : List (Frame U V)) :
    Option (Task U) → Option (Config n U V)
  | none => some (sh, .user none .idle :: fs)
  | some ⟨id, .wrapped ch u⟩ =>
    some ({ sh with
        chan := update sh.chan ch ((sh.chan ch).send v)
        log := sh.log ++ [.sent ch v] }, .sent ⟨id, .wrapped ch u⟩ :: fs)
  | some ⟨_, .completed⟩ => none

def execPanic (sh : Shared n U V) (fs : List (Frame U V)) :
    Option (Task U) → Option (Config n U V)
  | none => some (sh, .user none .idle :: fs)
  | some ⟨id, .wrapped ch u⟩ =>
    some (Shared.destroy [⟨id, .wrapped ch u⟩] { sh with log := sh.log ++ [.panicked ch] },
      .result none :: fs)
  | some ⟨_, .completed⟩ => none

/-- One action of user code. -/
def execUser (sh : Shared n U V) (t : ThreadId n m) (c : Choice U V) (task : Option (Task U))
    (fs : List (Frame U V)) : Burst U V → Option (Config n U V)
  | .pending u => execPending sh u task fs
  | .ready v => execReady sh v fs task
  | .panic => execPanic sh fs task
  | .outside k => some (sh, .user task (.run (k c.answered)) :: fs)
  | .spawn u k =>
    if 0 < sh.owners then
      some ((sh.newTask u).1,
        .spawn (sh.newTask u).2 sh.spawned false :: .user task (.run (k sh.spawned)) :: fs)
    else none
  | .blockOn u k =>
    if 0 < sh.owners then
      some ((sh.newTask u).1,
        .spawn (sh.newTask u).2 sh.spawned true :: .user task (.wait k) :: fs)
    else none
  | .pollHandle h k =>
    if (sh.chan h).receiver = .handle then
      some ((sh.pollHandle h).2, .user task (.run (k (sh.pollHandle h).1)) :: fs)
    else none
  | .dropHandle h k =>
    if (sh.chan h).receiver = .handle then some (sh.dropReceiver h, .user task (.run k) :: fs)
    else none
  | .cloneRuntime k =>
    if 0 < sh.owners then some ({ sh with owners := sh.owners + 1 }, .user task (.run k) :: fs)
    else none
  | .dropRuntime k =>
    if 1 < sh.owners then some ({ sh with owners := sh.owners - 1 }, .user task (.run k) :: fs)
    else if sh.owners = 1 then
      some ({ sh with owners := 0 }, .dropInner none :: .user task (.run (afterDrop t k)) :: fs)
    else none

/-- A loop goes on, or polls the task it took. -/
def execTook (poll : U → Burst U V) (sh : Shared n U V) (loop : Frame U V) (fs : List (Frame U V)) :
    Option (Task U) → Config n U V
  | none => (sh, loop :: fs)
  | some task => ((sh.beginPoll poll task).1, (sh.beginPoll poll task).2 :: loop :: fs)

/-- One action of `block_on`'s loop. -/
def execBlockOn (poll : U → Burst U V) (sh : Shared n U V) (c : StealChoice) (ch : Nat)
    (l : BlockOnLoop) (fs : List (Frame U V)) : Config n U V :=
  match l.pc, (sh.chan ch).tryRecv with
  | .tryRecv, .ok v =>
    ({ sh with
        chan := update sh.chan ch (sh.chan ch).dropReceiver
        log := sh.log ++ [.recv ch v] }, .result (some v) :: fs)
  | .tryRecv, .disconnected => (sh.dropReceiver ch, .result none :: fs)
  | _, _ =>
    let r := Executor.help sh l c
    execTook poll r.1 (.blockOn ch r.2.1) fs r.2.2

/-- One action of worker `i` at the head of its loop or in it. -/
def execRun (poll : U → Burst U V) (sh : Shared n U V) (c : StealChoice) (i : Fin n)
    (l : RunLoop) (fs : List (Frame U V)) : Option (Config n U V) :=
  if l.pc = .top ∧ sh.shutdown = true then
    if fs.isEmpty then some (sh.dropWorker i, []) else none
  else
    let r := WorkerThread.step i sh l c
    some (execTook poll r.1 (.run r.2.1) fs r.2.2)

/-- The end of worker `i`, whose futures give back `k` `Runtime`s. -/
def execUnwind (sh : Shared n U V) (i : Fin n) (k : Nat) (fs : List (Frame U V)) :
    Option (Config n U V) :=
  if k = 0 ∨ sh.doomed i ≠ [] ∧ k < sh.owners then
    some ({ sh.dropWorker i with owners := sh.owners - k }, [])
  else if sh.doomed i ≠ [] ∧ 0 < sh.owners then
    some ({ sh.dropWorker i with live := sh.live, owners := 0 }, .dropInner none :: fs)
  else none

/-- `handle.join()` of a worker that is alive. -/
def execJoin (sh : Shared n U V) (j : Nat) : ThreadId n m → List (Frame U V) →
    Option (Config n U V)
  | .inl i, .user task (.run b) :: fs =>
    if i.val = j then some ({ sh with abandoned := true }, .user task (.run b) :: fs) else none
  | _, _ => none

/-- **The action of thread `t`** on a shared state and its stack. -/
def exec (poll : U → Burst U V) (sh : Shared n U V) (t : ThreadId n m) (c : Choice U V) :
    List (Frame U V) → Option (Config n U V)
  | .user none .idle :: fs =>
    match c with
    | .code b => some (sh, .user none (.run b) :: fs)
    | _ => none
  | .user task (.run b) :: fs => execUser sh t c task fs b
  | .sent ⟨_, .wrapped ch _⟩ :: fs =>
    some ({ sh with
        chan := update sh.chan ch (sh.chan ch).dropSender
        log := sh.log ++ [.ready ch] }, .finished :: fs)
  | .finished :: .run l :: fs =>
    some ({ sh with tasksProcessed := sh.tasksProcessed + 1 }, .run l :: fs)
  | .finished :: .blockOn ch l :: fs => some (sh, .blockOn ch l :: fs)
  | .requeue _ owned :: fs => some (sh.pushPending owned, fs)
  | .spawn task ch false :: fs => some (sh.pushSpawned task ch false, fs)
  | .spawn task ch true :: fs => some (sh.pushSpawned task ch true, .blockOn ch .start :: fs)
  | .blockOn ch l :: fs => some (execBlockOn poll sh c.stolen ch l fs)
  | .result r :: .user task (.wait k) :: fs => some (sh, .user task (.run (k r)) :: fs)
  | .result none :: .blockOn ch _ :: fs => some (sh.dropReceiver ch, .result none :: fs)
  | [.result none, .run l] =>
    match t with
    | .inl i => execUnwind sh i c.answered [.result none, .run l]
    | .inr _ => none
  | .run l :: fs =>
    match t with
    | .inl i => execRun poll sh c.stolen i l fs
    | .inr _ => none
  | .dropInner none :: fs => some ({ sh with shutdown := true }, .dropInner (some 0) :: fs)
  | .dropInner (some j) :: fs =>
    if hj : j < n then
      if sh.live ⟨j, hj⟩ = false then some (sh, .dropInner (some (j + 1)) :: fs)
      else execJoin sh j t fs
    else if j = n then some (Shared.destroy sh.globalQueue { sh with globalQueue := [] }, fs)
    else none
  | _ => none

/-! ## The function and the relation agree -/

@[simp] theorem exec_user (sh : Shared n U V) (t : ThreadId n m) (c : Choice U V)
    (task : Option (Task U)) (b : Burst U V) (fs : List (Frame U V)) :
    exec poll sh t c (.user task (.run b) :: fs) = execUser sh t c task fs b := by
  cases task <;> rfl

theorem exec_dropQueue (sh : Shared n U V) (t : ThreadId n m) (c : Choice U V)
    (fs : List (Frame U V)) : exec poll sh t c (.dropInner (some n) :: fs) =
      some (Shared.destroy sh.globalQueue { sh with globalQueue := [] }, fs) :=
  (dif_neg (Nat.lt_irrefl n)).trans (if_pos rfl)

theorem execUser_sound {sh sh' : Shared n U V} {t : ThreadId n m} {c : Choice U V}
    {task : Option (Task U)} {b : Burst U V} {fs fs' : List (Frame U V)}
    (h : execUser sh t c task fs b = some (sh', fs')) :
    ThreadStep poll sh t (.user task (.run b) :: fs) sh' fs' := by
  cases b with
  | pending u =>
    simp only [execUser] at h
    unfold execPending at h
    split at h <;> cases h
    · exact ThreadStep.leavePending u _
    · exact ThreadStep.pendingRun _ _ _ _ _ _
    · exact ThreadStep.pendingHelp _ _ _ _ _ _ _
  | ready v =>
    simp only [execUser] at h
    unfold execReady at h
    split at h <;> cases h
    · exact ThreadStep.leaveReady v fs
    · exact ThreadStep.ready _ _ _ v fs
  | panic =>
    simp only [execUser] at h
    unfold execPanic at h
    split at h <;> cases h
    · exact ThreadStep.leavePanic fs
    · exact ThreadStep.panic _ _ _ fs
  | outside k =>
    cases h
    exact ThreadStep.outside task k fs _
  | spawn u k =>
    simp only [execUser] at h
    split at h <;> cases h
    next hown => exact ThreadStep.callSpawn task u k fs hown
  | blockOn u k =>
    simp only [execUser] at h
    split at h <;> cases h
    next hown => exact ThreadStep.callBlockOn task u k fs hown
  | pollHandle d k =>
    simp only [execUser] at h
    split at h <;> cases h
    next hd => exact ThreadStep.pollHandle task d k fs hd
  | dropHandle d k =>
    simp only [execUser] at h
    split at h <;> cases h
    next hd => exact ThreadStep.dropHandle task d k fs hd
  | cloneRuntime k =>
    simp only [execUser] at h
    split at h <;> cases h
    next hown => exact ThreadStep.cloneRuntime task k fs hown
  | dropRuntime k =>
    simp only [execUser] at h
    split at h
    · next hown =>
      cases h
      exact ThreadStep.dropRuntime task k fs hown
    · split at h <;> cases h
      next hown => exact ThreadStep.dropLastRuntime task k fs hown

theorem execBlockOn_sound {sh sh' : Shared n U V} {t : ThreadId n m} {c : StealChoice} {ch : Nat}
    {l : BlockOnLoop} {fs fs' : List (Frame U V)}
    (h : execBlockOn poll sh c ch l fs = (sh', fs')) :
    ThreadStep poll sh t (.blockOn ch l :: fs) sh' fs' := by
  unfold execBlockOn at h
  split at h
  · next hpc hv =>
    cases h
    exact ThreadStep.recvOk ch l _ fs hpc hv
  · next hpc hv =>
    cases h
    exact ThreadStep.recvDisconnected ch l fs hpc hv
  · next hok hdis =>
    simp only at h
    rcases hr : Executor.help sh l c with ⟨sh₁, l', r⟩
    rw [hr] at h
    cases r with
    | none =>
      cases h
      refine ThreadStep.help ch l c _ _ fs (fun hpc => ?_) hr
      cases hv : (sh.chan ch).tryRecv with
      | ok v => exact absurd hv (hok v hpc)
      | empty => rfl
      | disconnected => exact absurd hv (hdis hpc)
    | some task =>
      cases h
      exact ThreadStep.helpTask ch l c _ _ task fs hr

theorem execRun_sound {sh sh' : Shared n U V} {i : Fin n} {c : StealChoice}
    {l : RunLoop} {fs fs' : List (Frame U V)}
    (h : execRun poll sh c i l fs = some (sh', fs')) :
    ThreadStep (m := m) poll sh (.inl i) (.run l :: fs) sh' fs' := by
  unfold execRun at h
  split at h
  · next hexit =>
    split at h <;> cases h
    next hfs =>
    rw [List.isEmpty_iff.1 hfs]
    exact ThreadStep.exit i l rfl hexit.1 hexit.2
  · next hexit =>
    simp only at h
    rcases hr : WorkerThread.step i sh l c with ⟨sh₁, l', r⟩
    rw [hr] at h
    cases r with
    | none =>
      cases h
      exact ThreadStep.run i l c _ _ fs rfl (by simpa using hexit) hr
    | some task =>
      cases h
      exact ThreadStep.runTask i l c _ _ task fs rfl hr

theorem execUnwind_sound {sh sh' : Shared n U V} {i : Fin n} {k : Nat} {l : RunLoop}
    {fs' : List (Frame U V)} (h : execUnwind sh i k [.result none, .run l] = some (sh', fs')) :
    ThreadStep (m := m) poll sh (.inl i) [.result none, .run l] sh' fs' := by
  unfold execUnwind at h
  split at h
  · next hk =>
    cases h
    exact ThreadStep.unwindRun i l k rfl hk
  · split at h <;> cases h
    next hlast => exact ThreadStep.unwindLast i l rfl hlast.1 hlast.2

theorem execJoin_sound {sh sh' : Shared n U V} {t : ThreadId n m} {j : Fin n}
    {fs fs' : List (Frame U V)} (hlive : sh.live j = true)
    (h : execJoin sh j.val t fs = some (sh', fs')) :
    ThreadStep poll sh t (.dropInner (some j.val) :: fs) sh' fs' := by
  unfold execJoin at h
  split at h
  · next i task b fs =>
    split at h <;> cases h
    next hij =>
    obtain rfl := Fin.ext hij
    exact ThreadStep.dropSelf i task b fs rfl hlive
  · cases h

theorem exec_sound {sh sh' : Shared n U V} {t : ThreadId n m} {c : Choice U V}
    {fs fs' : List (Frame U V)} (h : exec poll sh t c fs = some (sh', fs')) :
    ThreadStep poll sh t fs sh' fs' := by
  unfold exec at h
  split at h
  · split at h <;> cases h
    exact ThreadStep.enter _ _
  · exact execUser_sound h
  · cases h
    exact ThreadStep.endWrapped _ _ _ _
  · cases h
    exact ThreadStep.finishedRun _ _
  · cases h
    exact ThreadStep.finishedHelp _ _ _
  · cases h
    exact ThreadStep.requeue _ _ _
  · cases h
    exact ThreadStep.spawned _ _ _
  · cases h
    exact ThreadStep.startBlockOn _ _ _
  · exact execBlockOn_sound (Option.some.inj h)
  · cases h
    exact ThreadStep.resume _ _ _ _
  · cases h
    exact ThreadStep.unwindBlockOn _ _ _
  · split at h
    · exact execUnwind_sound h
    · cases h
  · split at h
    · exact execRun_sound h
    · cases h
  · cases h
    exact ThreadStep.dropSignal _
  · split at h
    · next hj =>
      split at h
      · next hlive =>
        cases h
        exact ThreadStep.dropJoin _ _ hj hlive
      · next hlive =>
        exact execJoin_sound (j := ⟨_, hj⟩) (Bool.eq_true_of_not_eq_false hlive) h
    · split at h <;> cases h
      next hj =>
      subst hj
      exact ThreadStep.dropQueue _
  · cases h

theorem exec_complete {sh sh' : Shared n U V} {t : ThreadId n m} {fs fs' : List (Frame U V)}
    (h : ThreadStep poll sh t fs sh' fs') : ∃ c, exec poll sh t c fs = some (sh', fs') := by
  cases h with
  | enter b fs => exact ⟨.code b, rfl⟩
  | outside task k fs x => exact ⟨.answer x, exec_user ..⟩
  | callSpawn task u k fs h | callBlockOn task u k fs h | pollHandle task u k fs h
  | dropHandle task u k fs h => exact ⟨.answer 0, (exec_user ..).trans (if_pos h)⟩
  | cloneRuntime task k fs h | dropRuntime task k fs h =>
    exact ⟨.answer 0, (exec_user ..).trans (if_pos h)⟩
  | dropLastRuntime task k fs h =>
    exact ⟨.answer 0, (exec_user ..).trans ((if_neg (by omega)).trans (if_pos h))⟩
  | recvOk ch l v fs hpc hv | recvDisconnected ch l fs hpc hv =>
    refine ⟨.answer 0, ?_⟩
    simp only [exec, execBlockOn, hpc, hv]
  | help ch l c sh' l' fs htry hh =>
    refine ⟨.steal c, ?_⟩
    simp only [exec, execBlockOn, Choice.stolen, hh, execTook]
    split
    · next hpc hv => rw [htry hpc] at hv; cases hv
    · next hpc hv => rw [htry hpc] at hv; cases hv
    · rfl
  | helpTask ch l c sh' l' task fs hh =>
    refine ⟨.steal c, ?_⟩
    have hpc : l.pc ≠ .tryRecv := fun hpc => by
      unfold Executor.help at hh
      rw [hpc] at hh
      cases hh
    simp only [exec, execBlockOn, Choice.stolen, hh, execTook]
    split
    · next h _ => exact absurd h hpc
    · next h _ => exact absurd h hpc
    · rfl
  | unwindRun i l k ht hk => subst ht; exact ⟨.answer k, if_pos hk⟩
  | unwindLast i l ht hne hown =>
    subst ht
    refine ⟨.answer sh.owners, (if_neg ?_).trans (if_pos ⟨hne, hown⟩)⟩
    rintro (h0 | ⟨-, hlt⟩)
    · exact hown.ne' h0
    · exact Nat.lt_irrefl _ hlt
  | exit i l ht hpc hshut =>
    subst ht
    exact ⟨.answer 0, if_pos ⟨hpc, hshut⟩⟩
  | run i l c sh' l' fs ht htop hh =>
    subst ht
    refine ⟨.steal c, (if_neg ?_).trans ?_⟩
    · rintro ⟨h1, h2⟩
      rw [htop h1] at h2
      cases h2
    · simp only [Choice.stolen, hh, execTook]
  | runTask i l c sh' l' task fs ht hh =>
    subst ht
    refine ⟨.steal c, (if_neg ?_).trans ?_⟩
    · exact fun h => WorkerThread.step_some_pc hh h.1
    · simp only [Choice.stolen, hh, execTook]
  | dropJoin j fs hj hlive => exact ⟨.answer 0, (dif_pos hj).trans (if_pos hlive)⟩
  | dropSelf i task b fs ht hlive =>
    subst ht
    refine ⟨.answer 0, (dif_pos i.isLt).trans ((if_neg ?_).trans (if_pos rfl))⟩
    rw [hlive]
    nofun
  | dropQueue fs => exact ⟨.answer 0, exec_dropQueue ..⟩
  | _ => exact ⟨.answer 0, rfl⟩

/-- **`exec` computes exactly the actions of `ThreadStep`.** -/
theorem threadStep_iff_exec {sh sh' : Shared n U V} {t : ThreadId n m}
    {fs fs' : List (Frame U V)} :
    ThreadStep poll sh t fs sh' fs' ↔ ∃ c, exec poll sh t c fs = some (sh', fs') :=
  ⟨exec_complete, fun ⟨_, h⟩ => exec_sound h⟩

/-! ## Schedules -/

namespace State

/-- The top frame drops a `Runtime`. -/
def dropsRuntime : List (Frame U V) → Bool
  | .user _ (.run (.dropRuntime _)) :: _ => true
  | _ => false

/-- The top frame panics in a poll. -/
def panics : List (Frame U V) → Bool
  | .user (some _) (.run .panic) :: _ => true
  | _ => false

def isCall : Frame U V → Bool
  | .spawn .. => true
  | .blockOn .. => true
  | _ => false

instance (s : State n m U V) (t : ThreadId n m) : Decidable (s.DropsLast t) :=
  decidable_of_iff (s.shared.owners = 1 ∧ dropsRuntime (s.threads t) = true) <| by
    unfold DropsLast dropsRuntime
    refine and_congr_right fun _ => ⟨fun h => ?_, ?_⟩
    · split at h
      · next heq => exact ⟨_, _, _, heq⟩
      · cases h
    · rintro ⟨task, k, fs, h⟩
      rw [h]

instance (s : State n m U V) (t : ThreadId n m) : Decidable (s.Panics t) :=
  decidable_of_iff (panics (s.threads t) = true) <| by
    unfold Panics panics
    refine ⟨fun h => ?_, ?_⟩
    · split at h
      · next heq => exact ⟨_, _, heq⟩
      · cases h
    · rintro ⟨task, fs, h⟩
      rw [h]

instance (s : State n m U V) (t : ThreadId n m) : Decidable (s.Calm t) :=
  inferInstanceAs (Decidable (_ ∧ _))

instance (s : State n m U V) : Decidable s.InCall :=
  decidable_of_iff (∃ t, (s.threads t).any isCall = true) <| by
    unfold InCall
    refine exists_congr fun t => ?_
    rw [List.any_eq_true]
    refine exists_congr fun f => and_congr_right fun _ => ⟨fun h => ?_, ?_⟩
    · cases f with
      | spawn task ch b => exact Or.inl ⟨_, _, _, rfl⟩
      | blockOn ch l => exact Or.inr ⟨_, _, rfl⟩
      | _ => cases h
    · rintro (⟨_, _, _, rfl⟩ | ⟨_, _, rfl⟩) <;> rfl

/-- One step of thread `t`. -/
def exec (poll : U → Burst U V) (s : State n m U V) (t : ThreadId n m) (c : Choice U V) :
    Option (State n m U V) :=
  (Std.exec poll s.shared t c (s.threads t)).bind fun r =>
    if 0 < s.shared.owners ∧ r.1.owners = 0 ∧ s.InCall then none
    else some ⟨r.1, update s.threads t r.2⟩

theorem exec_step {s s' : State n m U V} {t : ThreadId n m} {c : Choice U V}
    (h : s.exec poll t c = some s') : Step poll s t s' := by
  unfold exec at h
  obtain ⟨⟨sh', fs'⟩, hr, h⟩ := Option.bind_eq_some_iff.1 h
  split at h <;> cases h
  next hn => exact Step.mk (exec_sound hr) fun h0 h1 h2 => hn ⟨h0, h1, h2⟩

variable (G : State n m U V → ThreadId n m → Prop) [∀ s t, Decidable (G s t)]

/-- A schedule: who moves, with which answers; stops at a step that breaks the guard. -/
def execAll (poll : U → Burst U V) :
    State n m U V → List (ThreadId n m × Choice U V) → Option (State n m U V)
  | s, [] => some s
  | s, (t, c) :: cs => if G s t then (s.exec poll t c).bind fun s' => s'.execAll poll cs else none

theorem execAll_run {s s' : State n m U V} {cs : List (ThreadId n m × Choice U V)}
    (h : s.execAll G poll cs = some s') : Run (Step poll) G s (cs.map Prod.fst) s' := by
  induction cs generalizing s with
  | nil =>
    cases h
    exact Run.nil
  | cons tc cs ih =>
    simp only [execAll] at h
    split at h
    · next hG =>
      obtain ⟨s₁, h1, h2⟩ := Option.bind_eq_some_iff.1 h
      exact Run.cons hG (exec_step h1) (ih h2)
    · cases h

/-- A schedule, and what `obs` shows of its steps. -/
def observeAll {β : Type} (poll : U → Burst U V)
    (obs : State n m U V → ThreadId n m → State n m U V → β) :
    State n m U V → List (ThreadId n m × Choice U V) → Option (List β × State n m U V)
  | s, [] => some ([], s)
  | s, (t, c) :: cs => (s.exec poll t c).bind fun s' =>
      (s'.observeAll poll obs cs).map fun r => (obs s t s' :: r.1, r.2)

theorem observeAll_run {β : Type} {obs : State n m U V → ThreadId n m → State n m U V → β}
    {step : State n m U V → β → State n m U V → Prop}
    (hstep : ∀ s t s', Step poll s t s' → step s (obs s t s') s') {s s' : State n m U V}
    {ls : List β} {cs : List (ThreadId n m × Choice U V)}
    (h : s.observeAll poll obs cs = some (ls, s')) : Run step always s ls s' := by
  induction cs generalizing s ls with
  | nil =>
    cases h
    exact Run.nil
  | cons tc cs ih =>
    obtain ⟨s₁, h1, h2⟩ := Option.bind_eq_some_iff.1 h
    obtain ⟨r, hr, heq⟩ := Option.map_eq_some_iff.1 h2
    cases heq
    exact Run.cons trivial (hstep _ _ _ (exec_step h1)) (ih hr)

end State

/-- A step, with the answers it was given. -/
def Chosen (poll : U → Burst U V) (s : State n m U V) (tc : ThreadId n m × Choice U V)
    (s' : State n m U V) : Prop :=
  s.exec poll tc.1 tc.2 = some s'

theorem Chosen.step {s s' : State n m U V} {tc : ThreadId n m × Choice U V}
    (h : Chosen poll s tc s') : Step poll s tc.1 s' :=
  State.exec_step h

theorem Chosen.of_exec {s : State n m U V} {t : ThreadId n m} {c : Choice U V}
    {sh' : Shared n U V} {fs' : List (Frame U V)}
    (h : exec poll s.shared t c (s.threads t) = some (sh', fs'))
    (hlast : 0 < s.shared.owners → sh'.owners = 0 → ¬ s.InCall) :
    Chosen poll s (t, c) ⟨sh', update s.threads t fs'⟩ := by
  show s.exec poll t c = _
  unfold State.exec
  rw [h]
  exact if_neg fun h => hlast h.1 h.2.1 h.2.2

theorem Chosen.exists_exec {s s' : State n m U V} {tc : ThreadId n m × Choice U V}
    (h : Chosen poll s tc s') : ∃ sh' fs',
    exec poll s.shared tc.1 tc.2 (s.threads tc.1) = some (sh', fs') ∧
      s' = ⟨sh', update s.threads tc.1 fs'⟩ := by
  obtain ⟨⟨sh', fs'⟩, hexec, h⟩ := Option.bind_eq_some_iff.1 h
  split at h <;> cases h
  exact ⟨sh', fs', hexec, rfl⟩

/-- These are all the steps. -/
theorem step_iff_chosen {s s' : State n m U V} {t : ThreadId n m} :
    Step poll s t s' ↔ ∃ c, Chosen poll s (t, c) s' := by
  constructor
  · rintro ⟨hs, hlast⟩
    obtain ⟨c, hc⟩ := exec_complete hs
    exact ⟨c, Chosen.of_exec hc hlast⟩
  · rintro ⟨c, h⟩
    exact h.step

/-- A schedule with its answers. -/
theorem State.execAll_chosen {G : State n m U V → ThreadId n m → Prop} [∀ s t, Decidable (G s t)]
    {s s' : State n m U V} {tcs : List (ThreadId n m × Choice U V)}
    (h : s.execAll G poll tcs = some s') : Run (Chosen poll) (fun a tc => G a tc.1) s tcs s' := by
  induction tcs generalizing s with
  | nil =>
    cases h
    exact Run.nil
  | cons tc tcs ih =>
    simp only [State.execAll] at h
    split at h
    · next hG =>
      obtain ⟨s₁, h1, h2⟩ := Option.bind_eq_some_iff.1 h
      exact Run.cons hG h1 (ih h2)
    · cases h

theorem Chosen.reachable_of {tcs : List (ThreadId n m × Choice U V)} {s : State n m U V}
    {G : State n m U V → Prop}
    (h : Run (Chosen poll) (fun s _ => G s) (State.init n m U V) tcs s) :
    Reachable poll (fun s _ => G s) s := by
  induction h with
  | nil => exact ⟨[], Run.nil⟩
  | snoc _ hG hs ih =>
    obtain ⟨ts, hr⟩ := ih
    exact ⟨_, hr.snoc hG (Chosen.step hs)⟩

theorem Chosen.reachable {tcs : List (ThreadId n m × Choice U V)} {s : State n m U V}
    {G : State n m U V → ThreadId n m × Choice U V → Prop}
    (h : Run (Chosen poll) G (State.init n m U V) tcs s) : Reachable poll always s := by
  induction h with
  | nil => exact ⟨[], Run.nil⟩
  | snoc _ _ hs ih =>
    obtain ⟨ts, hr⟩ := ih
    exact ⟨_, hr.snoc trivial (Chosen.step hs)⟩

/-- A schedule that ends in a state with `P` shows such a state reachable. -/
theorem reachable_of_exec (poll : U → Burst U V)
    {G : State n m U V → ThreadId n m → Prop} [∀ s t, Decidable (G s t)]
    {P : State n m U V → Prop} [DecidablePred P] (cs : List (ThreadId n m × Choice U V))
    (h : ((State.init n m U V).execAll G poll cs).any (fun s => P s) = true) :
    ∃ s, Reachable poll G s ∧ P s := by
  rw [Option.any_eq_true] at h
  obtain ⟨s, hs, hP⟩ := h
  exact ⟨s, ⟨_, State.execAll_run G hs⟩, of_decide_eq_true hP⟩

/-- Thread `t` moves `k` times with the same answer. -/
def turns (t : ThreadId n m) (k : Nat) (c : Choice U V) : List (ThreadId n m × Choice U V) :=
  List.replicate k (t, c)

/-! ## Futures for concrete runs -/

/-- A few futures: a value, a value after one `Pending`, awaiting a handle, a nested
`block_on`, a panic. -/
inductive Sample where
  | value (v : Nat)
  | yield (v : Nat)
  | await (h : Nat)
  | blockOn (future : Sample)
  | panic
  deriving DecidableEq

def Sample.burst : Sample → Burst Sample Nat
  | .value v => .ready v
  | .yield v => .pending (.value v)
  | .await h => .pollHandle h fun
    | some v => .ready v
    | none => .pending (.await h)
  | .blockOn u => .blockOn u fun
    | some v => .ready v
    | none => .panic
  | .panic => .panic

/-- A thread outside spawns these futures, in order. -/
def Sample.spawns : List Sample → Burst Sample Nat
  | [] => .ready 0
  | u :: us => .spawn u fun _ => Sample.spawns us

end Luminal.Std
