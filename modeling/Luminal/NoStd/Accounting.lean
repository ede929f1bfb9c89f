import Mathlib.Data.Finset.Card
import Luminal.NoStd.Exec
import Luminal.NoStd.Conservation

/-!
# What is executed is executed once

The counts of tasks (`Accounted`) bound everything else the no_std executor keeps: a task is
polled only while it is not finished, `tasks_processed` counts each finished task once, and a
result queue holds the one value its task sent until the handle takes it.  All of it holds in
every reachable state, whatever overflows (`executed_once`).
-/

namespace Luminal.NoStd

open Function Transition

variable {U V : Type} {cap : Option Nat} {poll : U → Burst U V}

/-- `SimpleExecutor::stats`. -/
def SimpleExecutor.stats (sh : Shared U V) : Nat × USize :=
  (sh.globalQueue.length, sh.tasksProcessed)

/-! ## What a step adds to the log -/

/-- The values that the task of spawn `ch` sent, in order. -/
def values (ch : Nat) (log : List (Event U V)) : List V :=
  log.filterMap fun
    | .ready c v => if c = ch then some v else none
    | _ => none

/-- The values that the handle of spawn `ch` yielded, in order. -/
def recvs (ch : Nat) (log : List (Event U V)) : List V :=
  log.filterMap fun
    | .recv c v => if c = ch then some v else none
    | _ => none

/-- The tasks whose poll returned `Ready`, in order. -/
def finished (log : List (Event U V)) : List Nat :=
  log.filterMap fun
    | .ready c _ => some c
    | _ => none

section Log

variable (ch : Nat) (l l' : List (Event U V))

@[simp] theorem values_append : values ch (l ++ l') = values ch l ++ values ch l' := by
  simp [values]

@[simp] theorem recvs_append : recvs ch (l ++ l') = recvs ch l ++ recvs ch l' := by simp [recvs]

@[simp] theorem finished_append : finished (l ++ l') = finished l ++ finished l' := by
  simp [finished]

theorem mem_values (v : V) : v ∈ values ch l ↔ .ready ch v ∈ l := by
  unfold values
  rw [List.mem_filterMap]
  constructor
  · rintro ⟨e, he, h⟩
    split at h
    · split at h
      · cases h
        next hc => exact hc ▸ he
      · cases h
    · cases h
  · intro h
    exact ⟨_, h, by simp⟩

theorem values_length : (values ch l).length = readies ch l := by
  induction l with
  | nil => rfl
  | cons e l ih =>
    rw [← List.singleton_append, values_append, readies_append, List.length_append, ih]
    congr 1
    cases e with
    | ready c v =>
      by_cases hc : c = ch
      · simp [values, readies, hc]
      · simp [values, readies, hc]
    | _ => rfl

theorem count_finished : (finished l).count ch = readies ch l := by
  induction l with
  | nil => rfl
  | cons e l ih =>
    rw [← List.singleton_append, finished_append, readies_append, List.count_append, ih]
    congr 1
    cases e with
    | ready c v =>
      by_cases hc : c = ch
      · simp [finished, readies, hc]
      · simp [finished, readies, hc]
    | _ => rfl

end Log

/-- What one step can add to the log, with what it says of the state before. -/
inductive Emits (s : State U V) : List (Event U V) → Prop
  | nothing : Emits s []
  | spawn (u : U) (e : Event U V) :
      e = .spawned s.shared.spawned u ∨ e = .refused s.shared.spawned u →
      Emits s [e]
  | polled (t : Task U) (q : List (Task U)) (ch : Nat) : s.shared.globalQueue = t :: q →
      t.ch? = some ch → Emits s [.polled ch]
  | pending (ch : Nat) (e : Event U V) : e = .requeued ch ∨ e = .lost ch → Emits s [e]
  | ready (id ch u v fs) : s.stack = .user (some ⟨id, .wrapped ch u⟩) (.run (.ready v)) :: fs →
      Emits s [.ready ch v]
  | recv (ch v q) : (s.shared.results ch).items = v :: q → Emits s [.recv ch v]

theorem step_log {s s' : State U V} {a : Answer U V} (hs : Step cap poll s a s') :
    ∃ l, s'.shared.log = s.shared.log ++ l ∧ Emits s l := by
  have hspawn : ∀ (sh : Shared U V) (u : U) (holder : Holder) (fs : List (Frame U V)),
      ∃ l, (sh.spawn cap u holder).log = sh.log ++ l ∧ Emits ⟨sh, fs⟩ l := by
    intro sh u holder fs
    refine ⟨_, rfl, .spawn u _ ?_⟩
    split
    · exact Or.inl rfl
    · exact Or.inr rfl
  have hpoll : ∀ (sh : Shared U V) (c : Nat) (fs : List (Frame U V)),
      ∃ l, (sh.pollHandle c).2.log = sh.log ++ l ∧ Emits ⟨sh, fs⟩ l := by
    intro sh c fs
    unfold Shared.pollHandle
    split
    · next v q hv => exact ⟨_, rfl, .recv c v q hv⟩
    · exact ⟨[], by simp, .nothing⟩
  cases hs with
  | spawn sh task u k fs a => exact hspawn sh u _ _
  | blockOn sh task u k fs a => exact hspawn sh u _ _
  | pollHandle sh task c k fs a _ => exact hpoll sh c _
  | «return» sh c v q task k fs a _ => exact hpoll sh c _
  | pop sh id ch u q c i fs a _ hq => exact ⟨_, rfl, .polled _ q ch hq rfl⟩
  | pending sh id ch u₀ u c pc fs a =>
    refine ⟨_, rfl, .pending ch _ ?_⟩
    split
    · exact Or.inl rfl
    · exact Or.inr rfl
  | ready sh id ch u v c pc fs a => exact ⟨_, rfl, .ready id ch u v _ rfl⟩
  | _ => exact ⟨[], by simp [Shared.dropHandle], .nothing⟩

theorem Accounted.readies_le_one {s : State U V} (h : Accounted s) (ch : Nat) :
    readies ch s.shared.log ≤ 1 := by
  have h1 := h.count ch
  have h2 := h.called ch
  have h3 := born_le_one ch s.shared.spawned
  omega

/-! ## No poll after `Ready` -/

/-- In the log, no poll of a task comes after its `Ready`. -/
def FinishedStay (log : List (Event U V)) : Prop :=
  ∀ l₁ l₂ ch v, log = l₁ ++ .ready ch v :: l₂ → .polled ch ∉ l₂

theorem FinishedStay.append {log l : List (Event U V)} (h : FinishedStay log)
    (hl : ∀ ch, .polled ch ∈ l → readies ch log = 0 ∧ l = [.polled ch]) :
    FinishedStay (log ++ l) := by
  intro l₁ l₂ ch v heq hmem
  rcases List.append_eq_append_iff.1 heq with ⟨a, rfl, ha⟩ | ⟨a, rfl, ha⟩
  · obtain ⟨-, h2⟩ := hl ch (ha ▸ List.mem_append_right _ (List.mem_cons_of_mem _ hmem))
    have hready : .ready ch v ∈ l := ha ▸ List.mem_append_right _ List.mem_cons_self
    rw [h2] at hready
    simp at hready
  · cases a with
    | nil =>
      rw [List.nil_append] at ha
      obtain ⟨-, h2⟩ := hl ch (ha ▸ List.mem_cons_of_mem _ hmem)
      rw [h2] at ha
      cases ha
    | cons e a =>
      rw [List.cons_append, List.cons.injEq] at ha
      obtain ⟨rfl, rfl⟩ := ha
      rcases List.mem_append.1 hmem with hmem | hmem
      · exact h l₁ a ch v rfl hmem
      · obtain ⟨h1, -⟩ := hl ch hmem
        have := (readies_pos_iff ch (l₁ ++ .ready ch v :: a)).2 ⟨v, by simp⟩
        omega

theorem finishedStay_step {s s' : State U V} {a : Answer U V} (ha : Accounted s)
    (h : FinishedStay s.shared.log) (hs : Step cap poll s a s') :
    FinishedStay s'.shared.log := by
  obtain ⟨l, hl, he⟩ := step_log hs
  rw [hl]
  refine h.append fun ch hmem => ?_
  cases he with
  | polled t q c hq hc =>
    cases List.mem_singleton.1 hmem
    refine ⟨?_, rfl⟩
    -- the task is in the queue, so it is not finished
    have hocc := (occ_pos_iff ch s.shared.globalQueue).2 ⟨t, hq ▸ List.mem_cons_self, hc⟩
    have h1 := ha.count ch
    have h2 := ha.called ch
    have h3 := born_le_one ch s.shared.spawned
    omega
  | spawn u e he | pending c e he =>
    cases List.mem_singleton.1 hmem
    simp at he
  | _ => simp at hmem

/-! ## The counter -/

/-- The number of tasks that returned `Ready`. -/
def State.finishedTasks (s : State U V) : Nat :=
  ((Finset.range s.shared.spawned).filter fun ch => 0 < readies ch s.shared.log).card

/-- Each finished task is in the log once. -/
theorem Accounted.finished_length {s : State U V} (h : Accounted s) :
    (finished s.shared.log).length = s.finishedTasks := by
  have hnodup : (finished s.shared.log).Nodup := by
    rw [List.nodup_iff_count_le_one]
    intro ch
    rw [count_finished]
    exact h.readies_le_one ch
  rw [State.finishedTasks, ← List.toFinset_card_of_nodup hnodup]
  congr 1
  ext ch
  rw [List.mem_toFinset, Finset.mem_filter, Finset.mem_range, ← List.count_pos_iff, count_finished]
  constructor
  · intro hpos
    have h1 := h.count ch
    have h2 := h.called ch
    refine ⟨?_, hpos⟩
    by_contra hn
    rw [born, if_neg hn] at h2
    omega
  · exact fun hmem => hmem.2

/-- **The counter goes up with each task that finishes.** -/
theorem processed_step {s s' : State U V} {a : Answer U V} (hq : Queued s)
    (h : s.shared.tasksProcessed = USize.ofNat (finished s.shared.log).length)
    (hs : Step cap poll s a s') :
    s'.shared.tasksProcessed = USize.ofNat (finished s'.shared.log).length := by
  have hpoll : ∀ (sh : Shared U V) (c : Nat), (sh.pollHandle c).2.tasksProcessed =
      sh.tasksProcessed ∧ finished (sh.pollHandle c).2.log = finished sh.log := by
    intro sh c
    unfold Shared.pollHandle
    split
    · exact ⟨rfl, by simp [finished]⟩
    · exact ⟨rfl, rfl⟩
  cases hs with
  | pollHandle sh task c k fs a _ =>
    show (sh.pollHandle c).2.tasksProcessed = _
    rw [(hpoll sh c).1, (hpoll sh c).2]
    exact h
  | «return» sh c v q task k fs a _ =>
    show (sh.pollHandle c).2.tasksProcessed = USize.ofNat (finished (sh.pollHandle c).2.log).length
    rw [(hpoll sh c).1, (hpoll sh c).2]
    exact h
  | ready sh id ch u v c pc fs a =>
    show sh.tasksProcessed + 1 = USize.ofNat (finished (sh.log ++ [.ready ch v])).length
    have hone : (finished [Event.ready (U := U) ch v]).length = 1 := rfl
    rw [finished_append, List.length_append, hone, USize.ofNat_add, ← h]
    rfl
  | popCompleted sh id q c i fs a _ hq' =>
    -- there are no placeholders in the queue
    obtain ⟨ch, u, hf, -⟩ := hq.wrapped ⟨id, .completed⟩ (hq' ▸ List.mem_cons_self)
    cases hf
  | spawn sh task u k fs a | blockOn sh task u k fs a =>
    by_cases hr : Room cap sh.globalQueue <;> simpa [Shared.spawn, hr, finished] using h
  | pending sh id ch u₀ u c pc fs a =>
    by_cases hr : Room cap sh.globalQueue <;> simpa [Shared.requeue, hr, finished] using h
  | pop sh id ch u q c i fs a _ _ => simpa [finished] using h
  | _ => exact h

/-! ## Results -/

/-- What the task of spawn `ch` sent was received or is still in its result queue. -/
def ResultLaw (sh : Shared U V) : Prop :=
  ∀ ch, recvs ch sh.log ++ (sh.results ch).items = values ch sh.log

theorem resultLaw_spawn {sh : Shared U V} (h : ResultLaw sh) (u : U) (holder : Holder)
    (hnew : values sh.spawned sh.log = []) : ResultLaw (sh.spawn cap u holder) := by
  intro ch
  have hsilent : recvs ch (sh.spawn cap u holder).log = recvs ch sh.log ∧
      values ch (sh.spawn cap u holder).log = values ch sh.log := by
    by_cases hr : Room cap sh.globalQueue <;> simp [Shared.spawn, hr, recvs, values]
  rw [hsilent.1, hsilent.2, ← h ch]
  congr 1
  show (update sh.results sh.spawned ⟨[], holder⟩ ch).items = _
  by_cases hch : ch = sh.spawned
  · subst hch
    have := h sh.spawned
    rw [hnew] at this
    rw [update_self, (List.append_eq_nil_iff.1 this).2]
  · rw [update_of_ne hch]

theorem resultLaw_pollHandle {sh : Shared U V} (h : ResultLaw sh) (c : Nat) :
    ResultLaw (sh.pollHandle c).2 := by
  intro ch
  have hch := h ch
  unfold Shared.pollHandle
  split
  · next v q hv =>
    show recvs ch (sh.log ++ [.recv c v]) ++ (update sh.results c _ ch).items =
      values ch (sh.log ++ [.recv c v])
    rw [recvs_append, values_append, ← hch]
    by_cases hc : ch = c
    · subst hc
      simp [recvs, values, hv]
    · simp [recvs, values, update_of_ne hc, Ne.symm hc]
  · exact hch

theorem resultLaw_step {s s' : State U V} {a : Answer U V} (ha : Accounted s)
    (h : ResultLaw s.shared) (hs : Step cap poll s a s') : ResultLaw s'.shared := by
  have hnew : values s.shared.spawned s.shared.log = [] := by
    have h1 := ha.count s.shared.spawned
    have h2 := ha.called s.shared.spawned
    rw [born, if_neg (lt_irrefl _)] at h2
    exact List.length_eq_zero_iff.1 (by rw [values_length]; omega)
  have hdrop : ∀ {sh : Shared U V} (c : Nat), ResultLaw sh → ResultLaw (sh.dropHandle c) := by
    intro sh c h ch
    rw [Shared.dropHandle_items]
    exact h ch
  cases hs with
  | spawn sh task u k fs a | blockOn sh task u k fs a => exact resultLaw_spawn h u _ hnew
  | pollHandle sh task c k fs a _ => exact resultLaw_pollHandle h c
  | dropHandle sh task c k fs a _ => exact hdrop c h
  | «return» sh c v q task k fs a _ => exact hdrop c (resultLaw_pollHandle h c)
  | pop sh id ch u q c i fs a _ _ => exact fun d => by simpa [recvs, values] using h d
  | pending sh id ch u₀ u c pc fs a =>
    intro d
    by_cases hr : Room cap sh.globalQueue <;> simpa [Shared.requeue, hr, recvs, values] using h d
  | ready sh id ch u v c pc fs a =>
    intro d
    show recvs d (sh.log ++ [.ready ch v]) ++ (update sh.results ch _ d).items =
      values d (sh.log ++ [.ready ch v])
    rw [recvs_append, values_append, ← h d]
    by_cases hd : d = ch
    · subst hd
      -- the queue of a task that is being polled is empty
      have hlen : (sh.results d).items.length ≤ readies d sh.log := by
        rw [← values_length, ← h d, List.length_append]
        exact Nat.le_add_left _ _
      have hle := ha.readies_le_one d
      have hroom : (sh.results d).items.length < 16 := by
        have : readies d sh.log ≤ 1 := hle
        omega
      simp [recvs, values, ResultQueue.enqueue, hroom]
    · simp [recvs, values, update_of_ne hd, Ne.symm hd]
  | _ => exact h

theorem resultLaw_reachable {s : State U V} (h : Reachable cap poll s) : ResultLaw s.shared := by
  obtain ⟨as, hr⟩ := h
  exact hr.invariant_with (P := fun s => ResultLaw s.shared) (R := Accounted)
    (fun as s hr => accounted_reachable ⟨as, hr⟩) (fun _ => rfl)
    fun _ _ _ ha hp _ hs => resultLaw_step ha hp hs

/-! ## Outputs -/

/-- All that the burst can output, the future passed to spawn `ch` can. -/
def Origin (poll : U → Burst U V) (log : List (Event U V)) (ch : Nat) (b : Burst U V) : Prop :=
  ∃ u, .spawned ch u ∈ log ∧ ∀ v, Outputs poll v b → Outputs poll v (poll u)

theorem Origin.sub {log : List (Event U V)} {ch : Nat} {b b' : Burst U V}
    (h : Origin poll log ch b) (hb : ∀ v, Outputs poll v b' → Outputs poll v b) :
    Origin poll log ch b' := by
  obtain ⟨u, hu, hout⟩ := h
  exact ⟨u, hu, fun v hv => hout v (hb v hv)⟩

/-- What a polled task can still output, it could when it was spawned. -/
def Frame.Derived (poll : U → Burst U V) (log : List (Event U V)) : Frame U V → Prop
  | .user (some ⟨_, .wrapped ch _⟩) (.run b) => Origin poll log ch b
  | .user (some ⟨_, .wrapped ch _⟩) (.wait k) => ∀ r, Origin poll log ch (k r)
  | _ => True

/-- Every unfinished task derives from its spawn, and so does every value sent. -/
structure Derived (poll : U → Burst U V) (sh : Shared U V) (stack : List (Frame U V)) : Prop where
  queue : ∀ id ch u, ⟨id, .wrapped ch u⟩ ∈ sh.globalQueue → Origin poll sh.log ch (poll u)
  frames : ∀ f ∈ stack, f.Derived poll sh.log
  sent : ∀ ch v, .ready ch v ∈ sh.log → ∃ u, .spawned ch u ∈ sh.log ∧ Outputs poll v (poll u)

section Derived

variable {sh sh' : Shared U V} {fs : List (Frame U V)}

/-- A longer log, with results that derive from their spawns. -/
theorem Derived.extend (h : Derived poll sh fs) {l : List (Event U V)} (hl : sh'.log = sh.log ++ l)
    (hready : ∀ ch v, .ready ch v ∈ l → ∃ u, .spawned ch u ∈ sh.log ∧ Outputs poll v (poll u))
    (hq : ∀ t ∈ sh'.globalQueue, t ∈ sh.globalQueue) : Derived poll sh' fs := by
  have hmono : ∀ {ch b}, Origin poll sh.log ch b → Origin poll sh'.log ch b := by
    rintro ch b ⟨u, hu, hout⟩
    exact ⟨u, hl ▸ List.mem_append_left _ hu, hout⟩
  refine ⟨fun id ch u hmem => hmono (h.queue id ch u (hq _ hmem)), fun f hf => ?_,
    fun ch v hmem => ?_⟩
  · have hd := h.frames f hf
    unfold Frame.Derived at hd ⊢
    split
    · exact hmono hd
    · exact fun r => hmono (hd r)
    · trivial
  · rw [hl] at hmem ⊢
    obtain ⟨u, hu, hout⟩ := (List.mem_append.1 hmem).elim (h.sent ch v) (hready ch v)
    exact ⟨u, List.mem_append_left _ hu, hout⟩

/-- The frame at the top changes. -/
theorem Derived.top {f f' : Frame U V} (h : Derived poll sh (f :: fs))
    (hf : f.Derived poll sh.log → f'.Derived poll sh.log) : Derived poll sh (f' :: fs) := by
  refine ⟨h.queue, fun g hg => ?_, h.sent⟩
  rcases List.mem_cons.1 hg with rfl | hg
  · exact hf (h.frames f List.mem_cons_self)
  · exact h.frames g (List.mem_cons_of_mem _ hg)

theorem Derived.pop {f : Frame U V} (h : Derived poll sh (f :: fs)) : Derived poll sh fs :=
  ⟨h.queue, fun g hg => h.frames g (List.mem_cons_of_mem _ hg), h.sent⟩

theorem Derived.push {f : Frame U V} (h : Derived poll sh fs) (hf : f.Derived poll sh.log) :
    Derived poll sh (f :: fs) := by
  refine ⟨h.queue, fun g hg => ?_, h.sent⟩
  rcases List.mem_cons.1 hg with rfl | hg
  · exact hf
  · exact h.frames g hg

/-- A task goes to the back of the queue. -/
theorem Derived.enqueue (h : Derived poll sh fs) {id : TaskId} {ch : Nat} {u : U}
    (hu : Origin poll sh.log ch (poll u))
    (hq : sh'.globalQueue = pushBack cap sh.globalQueue ⟨id, .wrapped ch u⟩)
    (hl : sh'.log = sh.log) : Derived poll sh' fs := by
  refine ⟨fun id' ch' u' hmem => ?_, hl ▸ h.frames, hl ▸ h.sent⟩
  rw [hq] at hmem
  rw [hl]
  rcases mem_pushBack hmem with hmem | heq
  · exact h.queue id' ch' u' hmem
  · cases heq
    exact hu

theorem Derived.spawn (h : Derived poll sh fs) (u : U) (holder : Holder) :
    Derived poll (sh.spawn cap u holder) fs := by
  by_cases hr : Room cap sh.globalQueue
  · have hlog : Derived poll { sh with log := sh.log ++ [.spawned sh.spawned u] } fs :=
      h.extend rfl (by simp) fun t ht => ht
    have hqueue : (sh.spawn cap u holder).globalQueue =
        pushBack cap sh.globalQueue ⟨sh.nextTaskId, .wrapped sh.spawned u⟩ := rfl
    refine hlog.enqueue ?_ hqueue ?_
    · exact ⟨u, by simp, fun v hv => hv⟩
    · simp [Shared.spawn, hr]
  · refine h.extend (l := [.refused sh.spawned u]) ?_ (by simp) fun t ht => ?_
    · simp [Shared.spawn, hr]
    · rwa [Shared.spawn, pushBack_of_full hr] at ht

theorem Derived.pollHandle (h : Derived poll sh fs) (c : Nat) :
    Derived poll (sh.pollHandle c).2 fs := by
  unfold Shared.pollHandle
  split
  · exact h.extend rfl (by simp) fun t ht => ht
  · exact h

end Derived

theorem derived_step {s s' : State U V} {a : Answer U V} (h : Derived poll s.shared s.stack)
    (hs : Step cap poll s a s') : Derived poll s'.shared s'.stack := by
  cases hs with
  | enter sh b fs | leavePending sh u fs a | leaveReady sh v fs a => exact h.top fun _ => trivial
  | outside sh task k fs x =>
    refine h.top fun hf => ?_
    rcases task with _ | ⟨id, ⟨ch, u⟩ | _⟩
    · trivial
    · exact Origin.sub hf fun v hv => hv.outside x
    · trivial
  | spawn sh task u k fs a =>
    refine (h.spawn u .handle).top fun hf => ?_
    rcases task with _ | ⟨id, ⟨ch, u'⟩ | _⟩
    · trivial
    · exact Origin.sub hf fun v hv => hv.spawn _
    · trivial
  | blockOn sh task u k fs a =>
    refine ((h.spawn u .blockOn).top fun hf => ?_).push trivial
    rcases task with _ | ⟨id, ⟨ch, u'⟩ | _⟩
    · trivial
    · exact fun r => Origin.sub hf fun v hv => hv.blockOn r
    · trivial
  | pollHandle sh task c k fs a _ =>
    refine (h.pollHandle c).top fun hf => ?_
    rcases task with _ | ⟨id, ⟨ch, u⟩ | _⟩
    · trivial
    · exact Origin.sub hf fun v hv => hv.pollHandle _
    · trivial
  | dropHandle sh task c k fs a _ =>
    have hdrop : Derived poll (sh.dropHandle c) (.user task (.run (.dropHandle c k)) :: fs) :=
      ⟨h.queue, h.frames, h.sent⟩
    refine hdrop.top fun hf => ?_
    rcases task with _ | ⟨id, ⟨ch, u⟩ | _⟩
    · trivial
    · exact Origin.sub hf fun v hv => hv.dropHandle
    · trivial
  | cloneRuntime sh task k fs a =>
    refine h.top fun hf => ?_
    rcases task with _ | ⟨id, ⟨ch, u⟩ | _⟩
    · trivial
    · exact Origin.sub hf fun v hv => hv.cloneRuntime
    · trivial
  | dropRuntime sh task k fs a =>
    refine h.top fun hf => ?_
    rcases task with _ | ⟨id, ⟨ch, u⟩ | _⟩
    · trivial
    · exact Origin.sub hf fun v hv => hv.dropRuntime
    · trivial
  | pop sh id ch u q c i fs a _ hq =>
    have hpop : Derived poll { sh with globalQueue := q, log := sh.log ++ [.polled ch] }
        (.blockOn c (.poll i) :: fs) :=
      h.extend rfl (by simp) fun t ht => hq ▸ List.mem_cons_of_mem _ ht
    have hloop : Derived poll { sh with globalQueue := q, log := sh.log ++ [.polled ch] }
        (.blockOn c (.poll (i + 1)) :: fs) := hpop.top fun _ => trivial
    obtain ⟨u₀, hu₀, hout⟩ := h.queue id ch u (hq ▸ List.mem_cons_self)
    exact hloop.push ⟨u₀, List.mem_append_left _ hu₀, hout⟩
  | popCompleted sh id q c i fs a _ hq =>
    exact (h.extend (l := []) (by simp) (by simp)
      fun t ht => hq ▸ List.mem_cons_of_mem _ ht).top fun _ => trivial
  | endBatch sh c i fs a _ | retry sh c fs a _ => exact h.top fun _ => trivial
  | pending sh id ch u₀ u c pc fs a =>
    have hu : Origin poll sh.log ch (poll u) :=
      Origin.sub (h.frames _ List.mem_cons_self) fun v hv => hv.pending
    have hback : Derived poll
      { sh with globalQueue := pushBack cap sh.globalQueue ⟨id, .wrapped ch u⟩ }
        (.blockOn c pc :: fs) := h.pop.enqueue hu rfl rfl
    refine hback.extend rfl (fun d v hmem => ?_) fun t ht => ht
    split at hmem <;> simp at hmem
  | ready sh id ch u v c pc fs a =>
    have hsend : Origin poll sh.log ch (.ready v) := h.frames _ List.mem_cons_self
    obtain ⟨u₀, hu₀, hout⟩ := hsend
    refine h.pop.extend (l := [.ready ch v]) rfl (fun d w hmem => ?_) fun t ht => ht
    cases List.mem_singleton.1 hmem
    exact ⟨u₀, hu₀, hout _ Outputs.ready⟩
  | «return» sh c v q task k fs a _ =>
    have hpoll : Derived poll (sh.take c) (.user task (.wait k) :: fs) := by
      have := (h.pop.pollHandle c)
      exact ⟨this.queue, this.frames, this.sent⟩
    refine hpoll.top fun hf => ?_
    rcases task with _ | ⟨id, ⟨ch, u⟩ | _⟩
    · trivial
    · exact hf (some v)
    · trivial

/-! ## Every reachable state -/

/-- **Each task is executed at most once, and counted exactly**, overflows and nested calls
included. -/
theorem executed_once {s : State U V} (h : Reachable cap poll s) :
    (∀ ch, occ ch s.shared.globalQueue + weigh (Frame.polling ch) s.stack ≤ 1) ∧
    FinishedStay s.shared.log ∧
    (s.finishedTasks < USize.size →
      (SimpleExecutor.stats s.shared).2.toNat = s.finishedTasks) ∧
    (∀ ch, (s.shared.results ch).items.length ≤ 1) ∧
    (∀ id ch u v fs, s.stack = .user (some ⟨id, .wrapped ch u⟩) (.run (.ready v)) :: fs →
      ((s.shared.results ch).enqueue v).items = [v]) ∧
    ∀ ch, (recvs ch s.shared.log).length ≤ 1 ∧ ∀ v ∈ recvs ch s.shared.log,
      .ready ch v ∈ s.shared.log ∧ ∃ u, .spawned ch u ∈ s.shared.log ∧ Outputs poll v (poll u) := by
  have ha := accounted_reachable h
  obtain ⟨as, hr⟩ := h
  have hacc : ∀ as s, Run (Step cap poll) always (State.init U V) as s → Accounted s :=
    fun as s hr => accounted_reachable ⟨as, hr⟩
  have hstay : FinishedStay s.shared.log := by
    refine hr.invariant_with (P := fun s => FinishedStay s.shared.log) hacc ?_
      fun _ _ _ ha hp _ hs => finishedStay_step ha hp hs
    intro l₁ l₂ ch v heq
    cases l₁ <;> cases heq
  have hcount : s.shared.tasksProcessed = USize.ofNat (finished s.shared.log).length :=
    hr.invariant_with (R := Queued) (P := fun s => s.shared.tasksProcessed =
        USize.ofNat (finished s.shared.log).length) (fun as s hr => queued_reachable ⟨as, hr⟩) rfl
      fun _ _ _ hq hp _ hs => processed_step hq hp hs
  have hlaw := resultLaw_reachable ⟨as, hr⟩
  have hderived : Derived poll s.shared s.stack := by
    refine hr.invariant (P := fun s => Derived poll s.shared s.stack) ⟨nofun, ?_, nofun⟩
      fun _ _ _ hp _ hs => derived_step hp hs
    intro f hf
    cases List.mem_singleton.1 hf
    trivial
  have hlen : ∀ ch, (recvs ch s.shared.log).length + (s.shared.results ch).items.length =
      readies ch s.shared.log := fun ch => by
    rw [← List.length_append, hlaw ch, values_length]
  refine ⟨fun ch => ?_, hstay, fun hlt => ?_, fun ch => ?_, fun id ch u v fs hstack => ?_,
    fun ch => ⟨?_, fun v hv => ?_⟩⟩
  · have h1 := ha.count ch
    have h2 := ha.called ch
    have h3 := born_le_one ch s.shared.spawned
    omega
  · rw [SimpleExecutor.stats, hcount, ha.finished_length, USize.toNat_ofNat']
    exact Nat.mod_eq_of_lt hlt
  · have h1 := hlen ch
    have h2 := ha.readies_le_one ch
    omega
  · -- a task that is being polled has sent nothing yet
    have h1 := hlen ch
    have h2 := ha.count ch
    have h3 := ha.called ch
    have h4 := born_le_one ch s.shared.spawned
    rw [hstack, weigh_cons] at h2
    have hone : Frame.polling ch
      (.user (some ⟨id, .wrapped ch u⟩) (.run (.ready v)) : Frame U V) = 1 := by
      simp [Frame.polling]
    have hnil : (s.shared.results ch).items = [] := List.length_eq_zero_iff.1 (by omega)
    rw [ResultQueue.enqueue, hnil]
    rfl
  · have h1 := hlen ch
    have h2 := ha.readies_le_one ch
    omega
  · have hval : v ∈ values ch s.shared.log := hlaw ch ▸ List.mem_append_left _ hv
    have hready := (mem_values ch _ v).1 hval
    exact ⟨hready, hderived.sent ch v hready⟩

/-- A task that blocks on another one, polled inside a `block_on`: both have finished. -/
theorem executed_once_nested : ∃ s : State Future Nat, s.finishedTasks = 2 ∧
    (SimpleExecutor.stats s.shared).2.toNat = s.finishedTasks := by
  obtain ⟨s, hr, hs⟩ := reachable_of_nextAll SimpleExecutor.capacity
    Future.burst (P := fun s => s.finishedTasks = 2)
    (.code (.blockOn (.blockOn (.yield 5)) fun _ => .ready 0) :: List.replicate 12 (.value 0))
    (by decide)
  refine ⟨s, hs, (executed_once hr).2.2.1 ?_⟩
  rw [hs]
  exact lt_of_lt_of_le (by decide) USize.le_size

end Luminal.NoStd
