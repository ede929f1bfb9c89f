import Luminal.Std.Placement

/-!
# Task ids

`spawn_internal` numbers tasks with the executor's `next_task_id`, `Task::default` numbers its
placeholders with the static counter of `TaskId::new`; both start at 1.  Each counter never
repeats itself (`issued_of_run`), but the first placeholder has the id of the first spawned task.
So the ids are unique in exactly those runs in which `run_task` never gets `Pending`
(`ids_unique_iff`).
-/

namespace Luminal.Std

open Function Transition

variable {n m : Nat} {U V : Type} {poll : U → Burst U V}

/-- The `Task` value that the next action on the stack creates. -/
def createsOf (sh : Shared n U V) : List (Frame U V) → Option (Task U)
  | .user _ (.run (.spawn u _)) :: _ => some (sh.newTask u).2
  | .user _ (.run (.blockOn u _)) :: _ => some (sh.newTask u).2
  | .user (some ⟨_, .wrapped _ _⟩) (.run (.pending _)) :: .run _ :: _ =>
    some (Task.default sh.newTaskId)
  | _ => none

/-- A step, with the task it creates. -/
def Creates (poll : U → Burst U V) (s : State n m U V) (o : ThreadId n m × Option (Task U))
    (s' : State n m U V) : Prop :=
  Step poll s o.1 s' ∧ o.2 = createsOf s.shared (s.threads o.1)

/-- The tasks created in a run. -/
def created (ls : List (ThreadId n m × Option (Task U))) : List (Task U) := ls.filterMap Prod.snd

/-- In `run_task` on thread `t`, a poll has returned `Pending`. -/
def State.Placeholds (s : State n m U V) (t : ThreadId n m) : Prop :=
  ∃ id ch u₀ u l fs,
    s.threads t = .user (some ⟨id, .wrapped ch u₀⟩) (.run (.pending u)) :: .run l :: fs

theorem createsOf_default {s : State n m U V} {t : ThreadId n m} (h : s.Placeholds t) :
    createsOf s.shared (s.threads t) = some (Task.default s.shared.newTaskId) := by
  obtain ⟨id, ch, u₀, u, l, fs, hfs⟩ := h
  rw [hfs]
  rfl

/-- An action creates no task and draws no id, or one with an id from one of the counters. -/
theorem threadStep_creates {sh sh' : Shared n U V} {t : ThreadId n m} {fs fs' : List (Frame U V)}
    (h : ThreadStep poll sh t fs sh' fs') :
    (createsOf sh fs = none ∧ sh'.nextTaskId = sh.nextTaskId ∧ sh'.newTaskId = sh.newTaskId ∧
      sh'.spawned = sh.spawned) ∨
    (∃ u, createsOf sh fs = some (sh.newTask u).2 ∧ sh'.nextTaskId = sh.nextTaskId + 1 ∧
      sh'.newTaskId = sh.newTaskId ∧ sh'.spawned = sh.spawned + 1) ∨
    (createsOf sh fs = some (Task.default sh.newTaskId) ∧ sh'.nextTaskId = sh.nextTaskId ∧
      sh'.newTaskId = sh.newTaskId + 1 ∧ sh'.spawned = sh.spawned ∧
      ∃ id ch u₀ u l rest,
        fs = .user (some ⟨id, .wrapped ch u₀⟩) (.run (.pending u)) :: .run l :: rest) := by
  cases h with
  | callSpawn task u k fs _ | callBlockOn task u k fs _ =>
    exact Or.inr (Or.inl ⟨u, rfl, rfl, rfl, rfl⟩)
  | pendingRun id ch u₀ u l fs =>
    exact Or.inr (Or.inr ⟨rfl, rfl, rfl, rfl, id, ch, u₀, u, l, fs, rfl⟩)
  | pollHandle task c k fs _ =>
    rw [pollHandle_eq]
    exact Or.inl ⟨rfl, rfl, rfl, rfl⟩
  | help c l ch' sh' l' fs _ hh =>
    rw [Executor.help_none hh]
    exact Or.inl ⟨rfl, rfl, rfl, rfl⟩
  | helpTask c l ch' sh₁ l' task fs hh =>
    obtain ⟨q, -, rfl⟩ := Executor.help_some hh
    rw [beginPoll_eq]
    exact Or.inl ⟨rfl, rfl, rfl, rfl⟩
  | run i l c sh' l' fs _ _ hh =>
    rw [WorkerThread.step_none hh]
    exact Or.inl ⟨rfl, rfl, rfl, rfl⟩
  | runTask i l c sh₁ l' task fs _ hh =>
    rw [beginPoll_eq, (WorkerThread.step_some hh).eq]
    exact Or.inl ⟨rfl, rfl, rfl, rfl⟩
  | _ => exact Or.inl ⟨rfl, rfl, rfl, rfl⟩

/-! ## What the counters have issued -/

/-- The ids that a counter starting at 1 gives out in its first `k` turns. -/
def firstIds (k : Nat) : List TaskId := (List.range k).map fun j => UInt64.ofNat (j + 1)

theorem firstIds_succ (k : Nat) : firstIds (k + 1) = firstIds k ++ [UInt64.ofNat (k + 1)] := by
  unfold firstIds
  rw [List.range_succ, List.map_append]
  rfl

theorem ofNat_succ (k : Nat) : UInt64.ofNat (k + 1) + 1 = UInt64.ofNat (k + 1 + 1) :=
  (UInt64.ofNat_add (k + 1) 1).symm

theorem firstIds_nodup {k : Nat} (h : k < 2 ^ 64) : (firstIds k).Nodup := by
  refine List.Nodup.map_on (fun a ha b hb hab => ?_) List.nodup_range
  rw [List.mem_range] at ha hb
  have htoNat : ∀ {j : Nat}, j < k → (UInt64.ofNat (j + 1)).toNat = j + 1 := fun hj => by
    rw [UInt64.toNat_ofNat']
    exact Nat.mod_eq_of_lt (by omega)
  have heq := congrArg UInt64.toNat hab
  rw [htoNat ha, htoNat hb] at heq
  omega

/-- The ids of the tasks created so far, counter by counter. -/
structure Issued (tasks : List (Task U)) (sh : Shared n U V) : Prop where
  next : sh.nextTaskId = UInt64.ofNat (sh.spawned + 1)
  spawned : (tasks.filter fun p => p.ch?.isSome).map Task.id = firstIds sh.spawned
  placeholders : ∃ k, sh.newTaskId = UInt64.ofNat (k + 1) ∧
    (tasks.filter fun p => p.ch?.isNone).map Task.id = firstIds k ∧ (0 < k → 0 < sh.spawned)

/-- A task that is being polled was spawned. -/
theorem Accounted.spawned_pos {s : State n m U V} (ha : Accounted s) {t : ThreadId n m}
    (h : s.Placeholds t) : 0 < s.shared.spawned := by
  obtain ⟨id, ch, u₀, u, l, fs, hfs⟩ := h
  have hmem : Frame.user (some ⟨id, .wrapped ch u₀⟩) (.run (.pending u)) ∈ s.threads t := by
    rw [hfs]
    exact List.mem_cons_self
  have hch : (⟨id, .wrapped ch u₀⟩ : Task U).ch? = some ch := rfl
  have hpos := polled_pos hmem rfl hch
  have h1 := ha.count ch
  have h2 := ha.pushed ch
  unfold born at h2
  split at h2 <;> omega

theorem issued_step {a b : State n m U V} {o : ThreadId n m × Option (Task U)}
    {tasks : List (Task U)} (ha : Accounted a) (hi : Issued tasks a.shared)
    (h : Creates poll a o b) : Issued (tasks ++ o.2.toList) b.shared := by
  obtain ⟨t, task⟩ := o
  obtain ⟨hs, ho⟩ := h
  have ho : task = createsOf a.shared (a.threads t) := ho
  subst ho
  obtain ⟨hs, -⟩ := hs
  obtain ⟨k, hnew, hk, hpos⟩ := hi.placeholders
  rcases threadStep_creates hs with ⟨hc, h1, h2, h3⟩ | ⟨u, hc, h1, h2, h3⟩ | ⟨hc, h1, h2, h3, hfs⟩
  · simp only [hc, Option.toList_none, List.append_nil]
    exact ⟨by rw [h1, h3]; exact hi.next, by rw [h3]; exact hi.spawned,
      k, by rw [h2]; exact hnew, hk, by rw [h3]; exact hpos⟩
  · simp only [hc, Option.toList_some]
    refine ⟨?_, ?_, k, by rw [h2]; exact hnew, ?_, fun _ => by rw [h3]; exact Nat.succ_pos _⟩
    · rw [h1, h3, hi.next, ofNat_succ]
    · rw [List.filter_append, List.map_append, hi.spawned, h3, firstIds_succ, ← hi.next]
      rfl
    · rw [List.filter_append, List.map_append, hk]
      exact List.append_nil _
  · simp only [hc, Option.toList_some]
    refine ⟨by rw [h1, h3]; exact hi.next, ?_, k + 1, by rw [h2, hnew, ofNat_succ], ?_, fun _ => ?_⟩
    · rw [List.filter_append, List.map_append, hi.spawned, h3]
      exact List.append_nil _
    · rw [List.filter_append, List.map_append, hk, firstIds_succ, ← hnew]
      rfl
    · rw [h3]
      exact ha.spawned_pos hfs

variable {ls : List (ThreadId n m × Option (Task U))} {s : State n m U V}

theorem reachable_of_creates {G : State n m U V → ThreadId n m × Option (Task U) → Prop}
    (h : Run (Creates poll) G (State.init n m U V) ls s) : Reachable poll always s := by
  induction h with
  | nil => exact ⟨[], Run.nil⟩
  | snoc _ _ hs ih =>
    obtain ⟨ts, hr⟩ := ih
    exact ⟨_, hr.snoc trivial hs.1⟩

/-- **Each counter gives out 1, 2, 3, …** in the order of the calls. -/
theorem issued_of_run {G : State n m U V → ThreadId n m × Option (Task U) → Prop}
    (h : Run (Creates poll) G (State.init n m U V) ls s) : Issued (created ls) s.shared := by
  induction h with
  | nil => exact ⟨rfl, rfl, 0, rfl, rfl, nofun⟩
  | @snoc ls a b o hr _ hs ih =>
    have hstep := issued_step (accounted_reachable (reachable_of_creates hr)) ih hs
    have happ : created (ls ++ [o]) = created ls ++ o.2.toList := by
      unfold created
      rw [List.filterMap_append]
      cases h : o.2 <;> simp [h]
    rw [happ]
    exact hstep

/-! ## When they collide -/

/-- Without placeholders all ids come from one counter; the first placeholder has the id of the
first spawned task. -/
theorem Issued.nodup_iff {tasks : List (Task U)} {sh : Shared n U V} (h : Issued tasks sh)
    (hlt : tasks.length < 2 ^ 64) :
    (tasks.map Task.id).Nodup ↔ ∀ p ∈ tasks, p.ch?.isSome := by
  obtain ⟨k, -, hk, hpos⟩ := h.placeholders
  constructor
  · intro hnodup p hp
    by_contra hnone
    rw [Bool.not_eq_true, Option.isSome_eq_false_iff] at hnone
    -- there is a placeholder, so both counters have given out 1
    have hfirst : ∀ {j : Nat}, 0 < j → (1 : TaskId) ∈ firstIds j := fun hj =>
      List.mem_map.2 ⟨0, List.mem_range.2 hj, rfl⟩
    have hkpos : 0 < k := by
      have hmem : p.id ∈ firstIds k := by
        rw [← hk]
        exact List.mem_map_of_mem (List.mem_filter.2 ⟨hp, hnone⟩)
      by_contra hzero
      rw [Nat.eq_zero_of_not_pos hzero] at hmem
      cases hmem
    obtain ⟨q, hq, hq1⟩ := List.mem_map.1 (hk ▸ hfirst hkpos)
    obtain ⟨r, hr, hr1⟩ := List.mem_map.1 (h.spawned ▸ hfirst (hpos hkpos))
    rw [List.mem_filter] at hq hr
    have heq := List.inj_on_of_nodup_map hnodup hq.1 hr.1 (hq1.trans hr1.symm)
    have hsome := hr.2
    rw [← heq, ← Option.not_isNone, hq.2] at hsome
    cases hsome
  · intro hall
    have hfilter : (tasks.filter fun p => p.ch?.isSome) = tasks := List.filter_eq_self.2 hall
    have hids := h.spawned
    rw [hfilter] at hids
    rw [hids]
    refine firstIds_nodup ?_
    have hlen := congrArg List.length hids
    simp only [List.length_map, firstIds, List.length_range] at hlen
    omega

/-- **Task ids are unique in exactly those runs in which no poll made by `run_task` returns
`Pending`**: `block_on` moves a pending task, `run_task` leaves a placeholder. -/
theorem ids_unique_iff (h : Run (Creates poll) always (State.init n m U V) ls s)
    (hlt : (created ls).length < 2 ^ 64) :
    ((created ls).map Task.id).Nodup ↔
      Run (Creates poll) (fun a o => ¬ a.Placeholds o.1) (State.init n m U V) ls s := by
  rw [(issued_of_run h).nodup_iff hlt]
  have hmem : ∀ {ls : List (ThreadId n m × Option (Task U))} {p : Task U},
      p ∈ created ls ↔ ∃ t, (t, some p) ∈ ls := by
    intro ls p
    unfold created
    rw [List.mem_filterMap]
    constructor
    · rintro ⟨⟨t, q⟩, hq, rfl⟩
      exact ⟨t, hq⟩
    · rintro ⟨t, hq⟩
      exact ⟨(t, some p), hq, rfl⟩
  constructor
  · intro hall
    clear hlt
    induction h with
    | nil => exact Run.nil
    | @snoc ls a b o hr _ hs ih =>
      refine (ih fun p hp => hall p ?_).snoc (fun hpl => ?_) hs
      · obtain ⟨t, ht⟩ := hmem.1 hp
        exact hmem.2 ⟨t, List.mem_append_left _ ht⟩
      · have ho : o.2 = some (Task.default a.shared.newTaskId) := by
          rw [hs.2]
          exact createsOf_default hpl
        have hin : Task.default a.shared.newTaskId ∈ created (ls ++ [o]) :=
          hmem.2 ⟨o.1, List.mem_append_right _ (List.mem_singleton.2 (by rw [← ho]))⟩
        exact absurd (hall _ hin) (by simp [Task.default, Task.ch?])
  · intro hr p hp
    obtain ⟨t, ht⟩ := hmem.1 hp
    clear hp hlt h
    induction hr with
    | nil => cases ht
    | @snoc ls a b o _ hG hs ih =>
      rcases List.mem_append.1 ht with ht | ht
      · exact ih ht
      · cases List.mem_singleton.1 ht
        obtain ⟨⟨hs, -⟩, ho⟩ := hs
        rcases threadStep_creates hs with ⟨hc, -⟩ | ⟨u, hc, -⟩ | ⟨-, -, -, -, hfs⟩
        · rw [hc] at ho
          cases ho
        · rw [hc] at ho
          cases ho
          rfl
        · exact absurd hfs hG

/-- A schedule, with the tasks it creates. -/
theorem creates_of_exec (poll : U → Burst U V) (ids : List TaskId)
    (cs : List (ThreadId n m × Choice U V))
    (h : (((State.init n m U V).observeAll poll
      (fun s t _ => (t, createsOf s.shared (s.threads t))) cs).map
        fun r => (created r.1).map Task.id) = some ids) :
    ∃ ls, ∃ s : State n m U V, Run (Creates poll) always (State.init n m U V) ls s ∧
      (created ls).map Task.id = ids := by
  obtain ⟨⟨ls, s⟩, hr, heq⟩ := Option.map_eq_some_iff.1 h
  exact ⟨ls, s, State.observeAll_run (fun _ t _ hs => ⟨hs, rfl⟩) hr, heq⟩

theorem ids_unique_iff_two : ∃ ls, ∃ s : State 1 1 Sample Nat, (created ls).map Task.id = [1, 2] ∧
    Run (Creates Sample.burst) (fun a o => ¬ a.Placeholds o.1)
      (State.init 1 1 Sample Nat) ls s := by
  obtain ⟨ls, s, hr, hids⟩ := creates_of_exec (n := 1) (m := 1) Sample.burst [1, 2]
    ((.inr 0, .code (Sample.spawns [.value 7, .value 8])) :: turns (.inr 0) 4 (.answer 0) ++
      turns (.inl 0) 6 (.steal (.batch 0))) (by decide)
  refine ⟨ls, s, hids, (ids_unique_iff hr ?_).1 (hids ▸ by decide)⟩
  rw [← List.length_map Task.id, hids]
  decide

/-- A worker polls the first spawned task, which is pending. -/
theorem not_ids_unique : ¬ ∀ ls (s : State 1 1 Sample Nat),
    Run (Creates Sample.burst) always (State.init 1 1 Sample Nat) ls s →
      (created ls).length < 2 ^ 64 → ((created ls).map Task.id).Nodup := by
  intro h
  obtain ⟨ls, s, hr, hids⟩ := creates_of_exec (n := 1) (m := 1) Sample.burst [1, 1]
    ((.inr 0, .code (Sample.spawns [.yield 7])) :: turns (.inr 0) 2 (.answer 0) ++
      turns (.inl 0) 4 (.steal (.batch 0))) (by decide)
  have hlen : (created ls).length < 2 ^ 64 := by
    rw [← List.length_map Task.id, hids]
    decide
  exact absurd (hids ▸ h ls s hr hlen) (by decide)

end Luminal.Std
