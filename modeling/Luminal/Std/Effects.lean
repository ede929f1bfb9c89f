import Luminal.Std.Executor
import Mathlib.Data.Fintype.Sum
import Mathlib.Algebra.BigOperators.Fin

/-!
# What a step can do to queues, frames and the log

`Took` lists the five ways a worker comes by a task, so that nothing below unfolds the
worker loop again; the other lemmas say which projections of the log an operation
extends.
-/

namespace Luminal.Std

open Function Transition

variable {n m : Nat} {U V : Type}

/-! ## Projections of the log -/

/-- The values sent on channel `ch`, in order. -/
def sents (ch : Nat) (log : List (Event U V)) : List V :=
  log.filterMap fun
    | .sent c v => if c = ch then some v else none
    | _ => none

/-- The values received from channel `ch`, in order. -/
def recvs (ch : Nat) (log : List (Event U V)) : List V :=
  log.filterMap fun
    | .recv c v => if c = ch then some v else none
    | _ => none

/-- How often a poll of task `ch` returned `Ready`. -/
def readies (ch : Nat) (log : List (Event U V)) : Nat :=
  log.countP fun
    | .ready c => c = ch
    | _ => false

/-- How often the unfinished task `ch` was destroyed. -/
def losts (ch : Nat) (log : List (Event U V)) : Nat :=
  log.countP fun
    | .destroyed c => c = ch
    | _ => false

/-- How often the task of spawn `ch` was pushed by `Executor::spawn`. -/
def pushes (ch : Nat) (log : List (Event U V)) : Nat :=
  log.countP fun
    | .spawned c _ => c = ch
    | _ => false

section Log

variable (ch : Nat) (l l' : List (Event U V))

@[simp] theorem sents_append : sents ch (l ++ l') = sents ch l ++ sents ch l' := by simp [sents]
@[simp] theorem recvs_append : recvs ch (l ++ l') = recvs ch l ++ recvs ch l' := by simp [recvs]
@[simp] theorem readies_append : readies ch (l ++ l') = readies ch l + readies ch l' := by
  simp [readies]
@[simp] theorem losts_append : losts ch (l ++ l') = losts ch l + losts ch l' := by simp [losts]

@[simp] theorem pushes_append : pushes ch (l ++ l') = pushes ch l + pushes ch l' := by
  simp [pushes]

theorem mem_sents (v : V) : v ∈ sents ch l ↔ .sent ch v ∈ l := by
  unfold sents
  rw [List.mem_filterMap]
  constructor
  · rintro ⟨e, he, h⟩
    split at h
    · split at h
      · cases h
        next hc => exact hc ▸ he
      · cases h
    · cases h
  · intro h
    exact ⟨_, h, by simp⟩

theorem mem_recvs (v : V) : v ∈ recvs ch l ↔ .recv ch v ∈ l := by
  unfold recvs
  rw [List.mem_filterMap]
  constructor
  · rintro ⟨e, he, h⟩
    split at h
    · split at h
      · cases h
        next hc => exact hc ▸ he
      · cases h
    · cases h
  · intro h
    exact ⟨_, h, by simp⟩

theorem readies_pos_iff : 0 < readies ch l ↔ .ready ch ∈ l := by
  unfold readies
  rw [List.countP_pos_iff]
  constructor
  · rintro ⟨e, he, h⟩
    split at h
    · exact of_decide_eq_true h ▸ he
    · cases h
  · intro h
    exact ⟨_, h, by simp⟩

theorem losts_pos_iff : 0 < losts ch l ↔ .destroyed ch ∈ l := by
  unfold losts
  rw [List.countP_pos_iff]
  constructor
  · rintro ⟨e, he, h⟩
    split at h
    · exact of_decide_eq_true h ▸ he
    · cases h
  · intro h
    exact ⟨_, h, by simp⟩

theorem pushes_pos_iff : 0 < pushes ch l ↔ ∃ u, .spawned ch u ∈ l := by
  unfold pushes
  rw [List.countP_pos_iff]
  constructor
  · rintro ⟨e, he, h⟩
    split at h
    · exact ⟨_, of_decide_eq_true h ▸ he⟩
    · cases h
  · rintro ⟨u, h⟩
    exact ⟨_, h, by simp⟩

@[simp] theorem losts_destroyed (tasks : List (Task U)) :
    losts ch ((tasks.filterMap Task.ch?).map (.destroyed : Nat → Event U V)) = occ ch tasks := by
  induction tasks with
  | nil => rfl
  | cons t tasks ih =>
    rw [occ_cons, ← ih]
    cases h : t.ch? with
    | none => simp [Task.isOf, h]
    | some c =>
      rw [List.filterMap_cons_some h, List.map_cons, ← List.singleton_append, losts_append]
      simp [losts, Task.isOf, h]

@[simp] theorem sents_destroyed (cs : List Nat) :
    sents ch (cs.map (.destroyed : Nat → Event U V)) = [] := by
  simp [sents]

@[simp] theorem recvs_destroyed (cs : List Nat) :
    recvs ch (cs.map (.destroyed : Nat → Event U V)) = [] := by
  simp [recvs]

@[simp] theorem readies_destroyed (cs : List Nat) :
    readies ch (cs.map (.destroyed : Nat → Event U V)) = 0 := by
  simp [readies, List.countP_eq_zero]

@[simp] theorem pushes_destroyed (cs : List Nat) :
    pushes ch (cs.map (.destroyed : Nat → Event U V)) = 0 := by
  simp [pushes, List.countP_eq_zero]

/-- An event that says nothing about sending, receiving or finishing. -/
def Event.Silent : Event U V → Prop
  | .created .. | .spawned .. | .polled _ | .requeued _ | .panicked _ => True
  | _ => False

theorem silent_projections {l' : List (Event U V)} (h : ∀ e ∈ l', e.Silent) :
    sents ch l' = [] ∧ recvs ch l' = [] ∧ readies ch l' = 0 ∧ losts ch l' = 0 := by
  induction l' with
  | nil => exact ⟨rfl, rfl, rfl, rfl⟩
  | cons e l' ih =>
    obtain ⟨h1, h2, h3, h4⟩ := ih fun e he => h e (List.mem_cons_of_mem _ he)
    have he := h e List.mem_cons_self
    rw [← List.singleton_append, sents_append, recvs_append, readies_append, losts_append,
      h1, h2, h3, h4]
    cases e with
    | sent | ready | recv | destroyed => exact he.elim
    | _ => exact ⟨rfl, rfl, rfl, rfl⟩

end Log

/-! ## How a worker comes by a task -/

theorem peerIdx_lt (i : Fin n) (k : Nat) : WorkerThread.peerIdx i k < i.val + 1 := by
  unfold WorkerThread.peerIdx
  rw [stealers_length]
  exact Nat.mod_lt _ (by omega)

/-- A worker tries only deques whose stealer it holds, and never its own. -/
theorem peer_eq_some {i d : Fin n} {k : Nat} (h : WorkerThread.peer i k = some d) : d < i := by
  unfold WorkerThread.peer at h
  split at h
  · cases h
  · next hne =>
    have hlt := peerIdx_lt i k
    rw [List.getElem?_eq_some_iff] at h
    obtain ⟨hk, rfl⟩ := h
    simp only [stealers_eq, List.getElem_take, List.getElem_finRange, Fin.lt_def, Fin.val_cast]
    omega

/-- The ways worker `i`, at `pc` in its loop, takes `task` out of a queue. -/
inductive Took (i : Fin n) (sh : Shared n U V) (pc : RunPc) (task : Task U) :
    Shared n U V → Prop
  | pop (q) : pc = .drain → sh.locals i = task :: q →
      Took i sh pc task { sh with locals := update sh.locals i q }
  | batch (k q) : pc = .steal → sh.globalQueue = task :: q →
      Took i sh pc task { sh with
        globalQueue := q.drop k
        locals := update sh.locals i (sh.locals i ++ q.take k) }
  | steal (q) : pc = .stealRetry → sh.globalQueue = task :: q →
      Took i sh pc task { sh with globalQueue := q }
  | peerBatch (d k q) : d < i → sh.locals d = task :: q →
      Took i sh pc task { sh with
        locals := update (update sh.locals d (q.drop k)) i (sh.locals i ++ q.take k) }
  | peer (d q) : d < i → sh.locals d = task :: q →
      Took i sh pc task { sh with locals := update sh.locals d q }

/-- An action that yields no task changes nothing shared. -/
theorem WorkerThread.step_none {i : Fin n} {sh sh' : Shared n U V} {l l' : RunLoop}
    {c : StealChoice} (h : WorkerThread.step i sh l c = (sh', l', none)) : sh' = sh := by
  unfold WorkerThread.step at h
  split at h
  · cases h; rfl
  · split at h <;> cases h
    rfl
  · split at h <;> cases h <;> rfl
  · split at h <;> cases h
    rfl
  · split at h
    · split at h
      · cases h; rfl
      · cases h; rfl
      · split at h <;> cases h
        rfl
    · cases h; rfl
  · split at h
    · split at h <;> cases h
      rfl
    · cases h; rfl
  · cases h; rfl

theorem WorkerThread.step_some {i : Fin n} {sh sh' : Shared n U V} {l l' : RunLoop}
    {c : StealChoice} {task : Task U} (h : WorkerThread.step i sh l c = (sh', l', some task)) :
    Took i sh l.pc task sh' := by
  unfold WorkerThread.step at h
  split at h
  · cases h
  · next hpc =>
    split at h <;> cases h
    next q hq => exact Took.pop q hpc hq
  · next hpc =>
    split at h <;> cases h
    next k q hq => exact Took.batch k q hpc hq
  · next hpc =>
    split at h <;> cases h
    next q hq => exact Took.steal q hpc hq
  · split at h
    · split at h
      · cases h
      · cases h
      · next hp =>
        split at h <;> cases h
        next q hq => exact Took.peerBatch _ _ q (peer_eq_some hp) hq
    · cases h
  · split at h
    · next hp =>
      split at h <;> cases h
      next q hq => exact Took.peer _ q (peer_eq_some hp) hq
    · cases h
  · cases h

theorem WorkerThread.step_some_pc {i : Fin n} {sh sh' : Shared n U V} {l l' : RunLoop}
    {c : StealChoice} {task : Task U} (h : WorkerThread.step i sh l c = (sh', l', some task)) :
    l.pc ≠ .top := by
  intro hpc
  unfold WorkerThread.step at h
  rw [hpc] at h
  cases h

theorem Executor.help_none {sh sh' : Shared n U V} {l l' : BlockOnLoop} {c : StealChoice}
    (h : Executor.help sh l c = (sh', l', none)) : sh' = sh := by
  unfold Executor.help at h
  split at h
  · cases h; rfl
  · split at h
    · split at h <;> cases h <;> rfl
    · cases h; rfl
  · cases h; rfl

theorem Executor.help_some {sh sh' : Shared n U V} {l l' : BlockOnLoop} {c : StealChoice}
    {task : Task U} (h : Executor.help sh l c = (sh', l', some task)) :
    ∃ q, sh.globalQueue = task :: q ∧ sh' = { sh with globalQueue := q } := by
  unfold Executor.help at h
  split at h
  · cases h
  · split at h
    · split at h <;> cases h
      next q hq => exact ⟨q, hq, rfl⟩
    · cases h
  · cases h

/-- Taking a task touches the queues only. -/
theorem Took.eq {i : Fin n} {sh sh' : Shared n U V} {pc : RunPc} {task : Task U}
    (h : Took i sh pc task sh') :
    sh' = { sh with globalQueue := sh'.globalQueue, locals := sh'.locals } := by
  cases h <;> rfl

/-- The start of a poll touches the log only. -/
theorem beginPoll_eq (poll : U → Burst U V) (sh : Shared n U V) (task : Task U) :
    (sh.beginPoll poll task).1 = { sh with log := sh.log ++ task.ch?.toList.map .polled } := by
  obtain ⟨id, ⟨ch, u⟩ | _⟩ := task
  · rfl
  · show sh = { sh with log := sh.log ++ [] }
    rw [List.append_nil]

/-- A poll is in the code of its future, or over at once. -/
theorem beginPoll_frame (poll : U → Burst U V) (sh : Shared n U V) (task : Task U)
    {P : Frame U V → Prop} (hfin : P .finished) (hrun : ∀ c, P (.user (some task) (.run c))) :
    P (sh.beginPoll poll task).2 := by
  unfold Shared.beginPoll
  split
  · exact hrun _
  · exact hfin

/-- After the drop of the last `Runtime` the code goes on, or panics. -/
theorem afterDrop_code (t : ThreadId n m) {k : Burst U V} {P : Burst U V → Prop}
    (hpanic : P .panic) (hk : P k) : P (afterDrop t k) := by
  cases t with
  | inl i => exact hpanic
  | inr i => exact hk

/-- Polling a handle touches its channel and the log only. -/
theorem pollHandle_eq (sh : Shared n U V) (h : Nat) :
    (sh.pollHandle h).2 = { sh with
      chan := update sh.chan h (JoinHandle.poll (sh.chan h)).2
      log := sh.log ++ (JoinHandle.poll (sh.chan h)).1.toList.map (.recv h) } := by
  unfold Shared.pollHandle
  split
  · next v c hp => rw [hp, Option.toList_some, List.map_singleton]
  · next c hp =>
    have hsame : c = sh.chan h := by
      unfold JoinHandle.poll at hp
      split at hp <;> cases hp <;> rfl
    rw [hp, hsame, update_eq_self, Option.toList_none, List.map_nil, List.append_nil]

theorem pollHandle_receiver (sh : Shared n U V) (h c : Nat) :
    ((sh.pollHandle h).2.chan c).receiver = (sh.chan c).receiver := by
  rw [pollHandle_eq]
  by_cases hc : c = h
  · subst hc
    simp only [update_self, JoinHandle.poll_receiver]
  · simp only [update_of_ne hc]

theorem destroy_receiver (sh : Shared n U V) (tasks : List (Task U)) (c : Nat) :
    ((sh.destroy tasks).chan c).receiver = (sh.chan c).receiver := by
  simp only [Shared.destroy]
  split <;> rfl

/-! ## Tasks in queues -/

/-- How often task `ch` is in the global queue or a local deque. -/
def queued (ch : Nat) (sh : Shared n U V) : Nat :=
  occ ch sh.globalQueue + tally (occ ch) sh.locals

theorem Took.queued {i : Fin n} {sh sh' : Shared n U V} {pc : RunPc} {task : Task U}
    (h : Took i sh pc task sh') (ch : Nat) :
    queued ch sh' + task.isOf ch = queued ch sh := by
  unfold Std.queued
  cases h with
  | pop q _ hq =>
    have := tally_update (occ ch) sh.locals i q
    rw [hq, occ_cons] at this
    simp only
    omega
  | batch k q _ hq =>
    have := tally_update (occ ch) sh.locals i (sh.locals i ++ q.take k)
    have hk := occ_take_add_drop ch k q
    rw [occ_append] at this
    simp only [hq, occ_cons]
    omega
  | steal q _ hq =>
    simp only [hq, occ_cons]
    omega
  | peerBatch d k q hd hq =>
    have h1 := tally_update (occ ch) sh.locals d (q.drop k)
    have h2 := tally_update (occ ch) (update sh.locals d (q.drop k)) i (sh.locals i ++ q.take k)
    have hk := occ_take_add_drop ch k q
    rw [update_of_ne (ne_of_gt hd), occ_append] at h2
    rw [hq, occ_cons] at h1
    simp only
    omega
  | peer d q hd hq =>
    have := tally_update (occ ch) sh.locals d q
    rw [hq, occ_cons] at this
    simp only
    omega

/-- Dropping a worker loses exactly the tasks in the queues nobody holds any more. -/
theorem queued_dropWorker (sh : Shared n U V) (i : Fin n) (ch : Nat) :
    queued ch (sh.dropWorker i) + losts ch (sh.dropWorker i).log =
      queued ch sh + losts ch sh.log := by
  have hlocals : tally (occ ch) (sh.dropWorker i).locals +
      occ ch ((List.finRange n).flatMap fun d =>
        if Shared.Orphaned (update sh.live i false) d then sh.locals d else []) =
      tally (occ ch) sh.locals := by
    have hflat : ∀ (l : List (Fin n)) (f : Fin n → List (Task U)),
        occ ch (l.flatMap f) = (l.map fun d => occ ch (f d)).sum := by
      intro l f
      induction l with
      | nil => rfl
      | cons d l ih => rw [List.flatMap_cons, occ_append, ih, List.map_cons, List.sum_cons]
    rw [hflat, ← Fin.sum_univ_def]
    unfold tally
    rw [← Finset.sum_add_distrib]
    apply Finset.sum_congr rfl
    intro d _
    simp only [Shared.dropWorker, Shared.destroy]
    split <;> simp
  have hglobal : occ ch (sh.dropWorker i).globalQueue +
      occ ch (if sh.Unheld (update sh.live i false) then sh.globalQueue else []) =
      occ ch sh.globalQueue := by
    simp only [Shared.dropWorker, Shared.destroy]
    split <;> simp
  have hlog : losts ch (sh.dropWorker i).log = losts ch sh.log + occ ch (sh.doomed i) := by
    simp only [Shared.dropWorker, Shared.destroy, losts_append, losts_destroyed]
  have hdoomed : occ ch (sh.doomed i) = _ := occ_append ..
  unfold queued
  omega

/-- What a worker leaves in the queues was there. -/
theorem mem_dropWorker {sh : Shared n U V} {i : Fin n} {p : Task U} :
    (p ∈ (sh.dropWorker i).globalQueue → p ∈ sh.globalQueue) ∧
    ∀ d, p ∈ (sh.dropWorker i).locals d → p ∈ sh.locals d := by
  simp only [Shared.dropWorker, Shared.destroy]
  refine ⟨fun h => ?_, fun d h => ?_⟩
  · split at h
    · cases h
    · exact h
  · split at h
    · cases h
    · exact h

/-- Task value `p` is in the global queue or in a local deque. -/
def Queues (sh : Shared n U V) (p : Task U) : Prop :=
  p ∈ sh.globalQueue ∨ ∃ i, p ∈ sh.locals i

theorem mem_update_cases {α ι : Type*} [DecidableEq ι] {g : ι → List α} {i j : ι} {x : List α}
    {p : α} (h : p ∈ update g i x j) : p ∈ x ∨ p ∈ g j := by
  by_cases hj : j = i
  · subst hj
    exact Or.inl (update_self (f := g) j x ▸ h)
  · exact Or.inr (update_of_ne hj x g ▸ h)

/-- The task taken was queued. -/
theorem Took.taken {i : Fin n} {sh sh' : Shared n U V} {pc : RunPc} {task : Task U}
    (h : Took i sh pc task sh') : Queues sh task := by
  cases h with
  | pop q _ hq => exact Or.inr ⟨i, hq ▸ List.mem_cons_self⟩
  | batch k q _ hq => exact Or.inl (hq ▸ List.mem_cons_self)
  | steal q _ hq => exact Or.inl (hq ▸ List.mem_cons_self)
  | peerBatch d k q _ hq => exact Or.inr ⟨d, hq ▸ List.mem_cons_self⟩
  | peer d q _ hq => exact Or.inr ⟨d, hq ▸ List.mem_cons_self⟩

/-- A worker pushes nothing to the global queue. -/
theorem Took.global {i : Fin n} {sh sh' : Shared n U V} {pc : RunPc} {task p : Task U}
    (h : Took i sh pc task sh') (hp : p ∈ sh'.globalQueue) : p ∈ sh.globalQueue := by
  cases h with
  | pop q _ hq => exact hp
  | batch k q _ hq => exact hq ▸ List.mem_cons_of_mem _ (List.mem_of_mem_drop hp)
  | steal q _ hq => exact hq ▸ List.mem_cons_of_mem _ hp
  | peerBatch d k q _ hq => exact hp
  | peer d q _ hq => exact hp

/-- A worker moves tasks into its own deque only. -/
theorem Took.locals {i d : Fin n} {sh sh' : Shared n U V} {pc : RunPc} {task p : Task U}
    (h : Took i sh pc task sh') (hp : p ∈ sh'.locals d) :
    p ∈ sh.locals d ∨ (d = i ∧ Queues sh p) := by
  have hupdate : ∀ (g : Fin n → List (Task U)) (j : Fin n) (x : List (Task U)),
      p ∈ update g j x d → d = j ∧ p ∈ x ∨ p ∈ g d := by
    intro g j x h
    by_cases hj : d = j
    · subst hj
      exact Or.inl ⟨rfl, update_self (f := g) d x ▸ h⟩
    · exact Or.inr (update_of_ne hj x g ▸ h)
  cases h with
  | pop q _ hq =>
    rcases hupdate _ _ _ hp with ⟨rfl, h⟩ | h
    · exact Or.inl (hq ▸ List.mem_cons_of_mem _ h)
    · exact Or.inl h
  | batch k q _ hq =>
    rcases hupdate _ _ _ hp with ⟨rfl, h⟩ | h
    · refine (List.mem_append.1 h).imp id fun h => ⟨rfl, Or.inl ?_⟩
      exact hq ▸ List.mem_cons_of_mem _ (List.mem_of_mem_take h)
    · exact Or.inl h
  | steal q _ hq => exact Or.inl hp
  | peerBatch e k q _ hq =>
    rcases hupdate _ _ _ hp with ⟨rfl, h⟩ | h
    · refine (List.mem_append.1 h).imp id fun h => ⟨rfl, Or.inr ⟨e, ?_⟩⟩
      exact hq ▸ List.mem_cons_of_mem _ (List.mem_of_mem_take h)
    · rcases hupdate _ _ _ h with ⟨rfl, hd⟩ | hd
      · exact Or.inl (hq ▸ List.mem_cons_of_mem _ (List.mem_of_mem_drop hd))
      · exact Or.inl hd
  | peer e q _ hq =>
    rcases hupdate _ _ _ hp with ⟨rfl, h⟩ | h
    · exact Or.inl (hq ▸ List.mem_cons_of_mem _ h)
    · exact Or.inl h

/-! ## What an action adds to the log -/

/-- The events one action can add to the log, with what they say of the state before. -/
inductive Emits (sh : Shared n U V) (fs : List (Frame U V)) : List (Event U V) → Prop
  | nothing : Emits sh fs []
  | created (task u fs₁) : (∃ k, fs = .user task (.run (.spawn u k)) :: fs₁) ∨
      (∃ k, fs = .user task (.run (.blockOn u k)) :: fs₁) → Emits sh fs [.created sh.spawned u]
  | spawned (id ch u c b fs₁) : fs = .spawn ⟨id, .wrapped ch u⟩ c b :: fs₁ →
      Emits sh fs [.spawned ch u]
  | polled (task : Task U) (ch) : Queues sh task → task.ch? = some ch → Emits sh fs [.polled ch]
  | requeued (left) (task : Task U) (ch fs₁) : fs = .requeue left task :: fs₁ →
      task.ch? = some ch → Emits sh fs [.requeued ch]
  | sent (id ch u v fs₁) : fs = .user (some ⟨id, .wrapped ch u⟩) (.run (.ready v)) :: fs₁ →
      Emits sh fs [.sent ch v]
  | ready (id ch u fs₁) : fs = .sent ⟨id, .wrapped ch u⟩ :: fs₁ → Emits sh fs [.ready ch]
  | recv (ch v) : (sh.chan ch).tryRecv = .ok v → Emits sh fs [.recv ch v]
  | panicked (id ch u fs₁) : fs = .user (some ⟨id, .wrapped ch u⟩) (.run .panic) :: fs₁ →
      Emits sh fs [.panicked ch, .destroyed ch]
  | destroyed (tasks : List (Task U)) : Emits sh fs ((tasks.filterMap Task.ch?).map .destroyed)

theorem Emits.beginPoll {poll : U → Burst U V} {sh sh₁ : Shared n U V} {fs : List (Frame U V)}
    {task : Task U} (hq : Queues sh task) (hlog : sh₁.log = sh.log) :
    ∃ l, (sh₁.beginPoll poll task).1.log = sh.log ++ l ∧ Emits sh fs l := by
  unfold Shared.beginPoll
  split
  · next ch u hf =>
    refine ⟨_, by rw [hlog], Emits.polled task ch hq ?_⟩
    unfold Task.ch?
    rw [hf]
  · exact ⟨[], by rw [hlog, List.append_nil], Emits.nothing⟩

/-- **An action adds one of these to the log**, or nothing. -/
theorem threadStep_log {poll : U → Burst U V} {sh sh' : Shared n U V} {t : ThreadId n m}
    {fs fs' : List (Frame U V)} (h : ThreadStep poll sh t fs sh' fs') :
    ∃ l, sh'.log = sh.log ++ l ∧ Emits sh fs l := by
  cases h with
  | callSpawn task u k fs _ => exact ⟨_, rfl, Emits.created task u fs (Or.inl ⟨k, rfl⟩)⟩
  | callBlockOn task u k fs _ => exact ⟨_, rfl, Emits.created task u fs (Or.inr ⟨k, rfl⟩)⟩
  | pollHandle task c k fs _ =>
    unfold Shared.pollHandle
    split
    · next v c' hp =>
      exact ⟨_, rfl, Emits.recv c v ((JoinHandle.poll_some_iff _ _).1 (congrArg Prod.fst hp))⟩
    · exact ⟨[], by simp, Emits.nothing⟩
  | ready id c u v fs => exact ⟨_, rfl, Emits.sent _ _ _ _ _ rfl⟩
  | panic id c u fs =>
    refine ⟨_, ?_, Emits.panicked _ _ _ _ rfl⟩
    simp [Shared.destroy]
  | endWrapped id c u fs => exact ⟨_, rfl, Emits.ready _ _ _ _ rfl⟩
  | requeue left owned fs =>
    unfold Shared.pushPending
    cases hc : owned.ch? with
    | none => exact ⟨[], by simp, Emits.nothing⟩
    | some c => exact ⟨_, rfl, Emits.requeued _ _ _ _ rfl hc⟩
  | spawned task c fs | startBlockOn task c fs =>
    obtain ⟨id, ⟨d, u⟩ | _⟩ := task
    · exact ⟨_, rfl, Emits.spawned _ _ _ _ _ _ rfl⟩
    · exact ⟨_, rfl, Emits.nothing⟩
  | recvOk c l v fs _ hv => exact ⟨_, rfl, Emits.recv c v hv⟩
  | help c l ch' sh' l' fs _ hh =>
    rw [Executor.help_none hh]
    exact ⟨[], by simp, Emits.nothing⟩
  | helpTask c l ch' sh₁ l' task fs hh =>
    obtain ⟨q, hq, rfl⟩ := Executor.help_some hh
    exact Emits.beginPoll (Or.inl (hq ▸ List.mem_cons_self)) rfl
  | unwindRun | unwindLast | exit => exact ⟨_, rfl, Emits.destroyed _⟩
  | run i l c sh' l' fs _ _ hh =>
    rw [WorkerThread.step_none hh]
    exact ⟨[], by simp, Emits.nothing⟩
  | runTask i l c sh₁ l' task fs _ hh =>
    have htook := WorkerThread.step_some hh
    exact Emits.beginPoll htook.taken (by rw [htook.eq])
  | dropQueue fs => exact ⟨_, rfl, Emits.destroyed _⟩
  | _ => exact ⟨[], by simp [Shared.dropReceiver], Emits.nothing⟩

end Luminal.Std
