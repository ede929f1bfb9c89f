import Luminal.NoStd.Conservation

/-!
# Tasks lost to a full queue

`block_on` takes a task out of the queue, polls it, and pushes it back when the poll
returns `Pending`; the error of a full queue is discarded, and the task with it.  The slot
it came from need not be free any more: the poll itself may have called `spawn`.  A run
keeps every accepted task exactly if each `Pending` finds room (`kept_iff`).
-/

namespace Luminal.NoStd

open Function Transition

variable {U V : Type} {cap : Option Nat} {poll : U → Burst U V}

namespace State

/-- Task `ch` is in the queue or being polled. -/
def Holds (s : State U V) (ch : Nat) : Prop :=
  (∃ task ∈ s.shared.globalQueue, task.ch? = some ch) ∨
    ∃ task code, .user (some task) code ∈ s.stack ∧ task.ch? = some ch

/-- Every task that `spawn` pushed is in the executor until its poll returns `Ready`. -/
def Kept (s : State U V) : Prop :=
  ∀ ch u, .spawned ch u ∈ s.shared.log → (∀ v, .ready ch v ∉ s.shared.log) → s.Holds ch

/-- If a poll is about to return `Pending`, the queue has room for its task. -/
def Fits (cap : Option Nat) (s : State U V) : Prop :=
  ∀ task u fs, s.stack = .user (some task) (.run (.pending u)) :: fs → Room cap s.shared.globalQueue

theorem holds_iff {s : State U V} {ch : Nat} :
    s.Holds ch ↔ 0 < occ ch s.shared.globalQueue + weigh (Frame.polling ch) s.stack := by
  unfold Holds
  rw [← occ_pos_iff, Nat.add_pos_iff_pos_or_pos]
  refine or_congr Iff.rfl ⟨?_, fun h => ?_⟩
  · rintro ⟨task, code, hmem, hch⟩
    have hpos : 0 < Frame.polling ch (.user (some task) code : Frame U V) := by
      simp [Frame.polling, Task.isOf, hch]
    exact hpos.trans_le (le_weigh _ hmem)
  · obtain ⟨f, hf, hpos⟩ := exists_of_weigh_pos _ h
    cases f with
    | user task code =>
      cases task with
      | none => simp [Frame.polling] at hpos
      | some task => exact ⟨task, code, hf, by simpa [Frame.polling, isOf_pos_iff] using hpos⟩
    | blockOn c pc => simp [Frame.polling] at hpos

end State

/-- Tasks are kept as long as none was lost on the way back to the queue. -/
theorem Accounted.kept_iff_lost {s : State U V} (h : Accounted s) :
    s.Kept ↔ ∀ ch, .lost ch ∉ s.shared.log := by
  constructor
  · intro hk ch hl
    have h1 := h.count ch
    have h2 := h.called ch
    have h3 := born_le_one ch s.shared.spawned
    have h4 := (losts_pos_iff ch _).2 hl
    obtain ⟨u, hu⟩ := (accepted_pos_iff ch s.shared.log).1 (by omega)
    have hpos := State.holds_iff.1 (hk ch u hu fun v hv => by
      have := (readies_pos_iff ch _).2 ⟨v, hv⟩
      omega)
    omega
  · intro hl ch u hu hr
    have h1 := h.count ch
    have h2 := (accepted_pos_iff ch _).2 ⟨u, hu⟩
    have h3 : readies ch s.shared.log = 0 := by
      by_contra hne
      obtain ⟨v, hv⟩ := (readies_pos_iff ch _).1 (Nat.pos_of_ne_zero hne)
      exact hr v hv
    have h4 : losts ch s.shared.log = 0 := by
      by_contra hne
      exact hl ch ((losts_pos_iff ch _).1 (Nat.pos_of_ne_zero hne))
    rw [State.holds_iff]
    omega

/-- A step loses a task exactly when a poll returns `Pending` and there is no room. -/
theorem step_lost_iff {s s' : State U V} {a : Answer U V} (hs : Step cap poll s a s')
    (hk : ∀ ch, .lost ch ∉ s.shared.log) : (∀ ch, .lost ch ∉ s'.shared.log) ↔ s.Fits cap := by
  have hpoll : ∀ (sh : Shared U V) (c : Nat), (∀ ch, .lost ch ∉ sh.log) →
      ∀ ch, .lost ch ∉ (sh.pollHandle c).2.log := by
    intro sh c h ch
    unfold Shared.pollHandle
    split
    · simpa using h ch
    · exact h ch
  unfold State.Fits
  cases hs with
  | pending sh id ch u₀ u c pc fs a =>
    by_cases hr : Room cap sh.globalQueue
    · simpa [Shared.requeue, hr] using hk
    · refine iff_of_false (fun h => h ch ?_) fun h => hr (h _ _ _ rfl)
      simp [Shared.requeue, hr]
  | spawn sh task u k fs a | blockOn sh task u k fs a =>
    by_cases hr : Room cap sh.globalQueue <;> simpa [Shared.spawn, hr] using hk
  | pollHandle sh task c k fs a _ => simpa using hpoll sh c hk
  | «return» sh c v q task k fs a _ => simpa [Shared.dropHandle] using hpoll sh c hk
  | ready sh id ch u v c pc fs a => simpa [Shared.finish] using hk
  | _ => simpa [Shared.dropHandle] using hk

/-- A polled task is counted once, so it is not in the queue as well. -/
theorem Accounted.polled_not_queued {s : State U V} (h : Accounted s) {task : Task U}
    {code : UserCode U V} {fs : List (Frame U V)} (hs : s.stack = .user (some task) code :: fs)
    {ch : Nat} (hch : task.ch? = some ch) : ∀ p ∈ s.shared.globalQueue, p.ch? ≠ some ch := by
  intro p hp hpch
  have h1 := h.count ch
  have h2 := h.called ch
  have h3 := born_le_one ch s.shared.spawned
  have h4 := (occ_pos_iff ch s.shared.globalQueue).2 ⟨p, hp, hpch⟩
  have h5 : task.isOf ch = 1 := by simp [Task.isOf, hch]
  simp [hs, Frame.polling, h5] at h1
  omega

/-- **Tasks are kept exactly while every `Pending` finds room**: all states of a run keep every
accepted task until it is `Ready`, if and only if the queue is below its capacity whenever a
poll returns `Pending`.  The task of such a poll is in the queue again afterwards if and only if
there was room. -/
theorem kept_iff :
    (∀ (as : List (Answer U V)) (s : State U V),
      Run (Step cap poll) (fun a _ => a.Kept) (State.init U V) as s ∧ s.Kept ↔
        Run (Step cap poll) (fun a _ => a.Fits cap) (State.init U V) as s) ∧
    ∀ (s s' : State U V) a id ch u₀ u c pc fs, Reachable cap poll s →
      s.stack = .user (some ⟨id, .wrapped ch u₀⟩) (.run (.pending u)) :: .blockOn c pc :: fs →
      Step cap poll s a s' →
      (⟨id, .wrapped ch u⟩ ∈ s'.shared.globalQueue ↔ Room cap s.shared.globalQueue) := by
  have hacc : ∀ (as : List (Answer U V)) (s : State U V),
      Run (Step cap poll) always (State.init U V) as s → Accounted s :=
    fun as s hr => accounted_reachable ⟨as, hr⟩
  constructor
  · intro as s
    have h : Run (Step cap poll) (fun a l => always a l ∧ a.Kept) (State.init U V) as s ∧ s.Kept ↔
        Run (Step cap poll) (fun a l => always a l ∧ a.Fits cap) (State.init U V) as s :=
      Run.guard_iff (R := Accounted) hacc ?_ ?_
    · simpa only [always, true_and] using h
    · exact fun ch u hu => by cases hu
    · intro a l b ha hk _ hs
      rw [(accounted_step ha hs).kept_iff_lost]
      exact step_lost_iff hs (ha.kept_iff_lost.1 hk)
  · intro s s' a id ch u₀ u c pc fs hr hstack hs
    have hno := (accounted_reachable hr).polled_not_queued hstack rfl
    obtain ⟨sh, stack⟩ := s
    subst hstack
    cases hs with
    | pending =>
      by_cases hroom : Room cap sh.globalQueue
      · simp [Shared.requeue, pushBack, hroom]
      · simp only [Shared.requeue, pushBack, hroom, if_false, iff_false]
        exact fun hmem => hno _ hmem rfl

/-- Code that spawns `k` futures in a row fills `k` places, and keeps what each spawn keeps. -/
theorem spawn_repeat {c : Nat} (poll : U → Burst U V) {u : U} (fill : Nat → Burst U V)
    (hfill : ∀ k, fill (k + 1) = .spawn u fun _ => fill k) {P : Shared U V → Prop}
    (hP : ∀ sh, P sh → Room (some c) sh.globalQueue → P (sh.spawn (some c) u .handle)) (k : Nat)
    {sh : Shared U V} (h : P sh) (hlen : sh.globalQueue.length + k ≤ c) :
    ∃ as sh', P sh' ∧ sh'.globalQueue.length = sh.globalQueue.length + k ∧
      Run (Step (some c) poll) always
        ⟨sh, [.user none (.run (fill k))]⟩ as ⟨sh', [.user none (.run (fill 0))]⟩ := by
  induction k generalizing sh with
  | zero => exact ⟨[], sh, h, rfl, Run.nil⟩
  | succ k ih =>
    have hroom : Room (some c) sh.globalQueue := by
      rw [room_some]
      omega
    have hpush : (sh.spawn (some c) u .handle).globalQueue.length = sh.globalQueue.length + 1 := by
      rw [Shared.spawn_queue hroom u .handle, List.length_append, List.length_singleton]
    obtain ⟨as, sh', h1, h2, h3⟩ := ih (hP sh h hroom) (by omega)
    rw [hfill]
    exact ⟨_, sh', h1, by omega, Run.cons trivial (Step.spawn sh none u _ [] (.value 0)) h3⟩

/-- Futures that never finish: `greedy` spawns another one first. -/
inductive Spawner where
  | quiet
  | greedy

def Spawner.burst : Spawner → Burst Spawner Nat
  | .quiet => .pending .quiet
  | .greedy => .spawn .quiet fun _ => .pending .quiet

/-- Spawn `k` quiet tasks, then block on one more. -/
def Spawner.fill : Nat → Burst Spawner Nat
  | 0 => .blockOn .quiet fun _ => .ready 0
  | k + 1 => .spawn .quiet fun _ => fill k

/-- Filling up leaves the first task at the front. -/
theorem Spawner.fill_run {c : Nat} (k : Nat) {sh : Shared Spawner Nat} {task : Task Spawner}
    {q : List (Task Spawner)} (hq : sh.globalQueue = task :: q) (hlen : q.length + k + 2 ≤ c) :
    ∃ as sh' ch k' q', sh'.globalQueue = task :: q' ∧ q'.length = q.length + k + 1 ∧
      Run (Step (some c) Spawner.burst) always ⟨sh, [.user none (.run (fill k))]⟩ as
        ⟨sh', [.blockOn ch (.poll 0), .user none (.wait k')]⟩ := by
  have hfront : ∀ (sh : Shared Spawner Nat) holder, (∃ q, sh.globalQueue = task :: q) →
      Room (some c) sh.globalQueue →
        ∃ q, (sh.spawn (some c) .quiet holder).globalQueue = task :: q := by
    rintro sh holder ⟨q, hq⟩ hroom
    exact ⟨_, by rw [Shared.spawn_queue hroom .quiet holder, hq, List.cons_append]⟩
  have hlen' : sh.globalQueue.length = q.length + 1 := by rw [hq, List.length_cons]
  obtain ⟨as, sh', ⟨q', hq'⟩, h2, h3⟩ := spawn_repeat (c := c) Spawner.burst fill
    (fun _ => rfl) (P := fun sh => ∃ q, sh.globalQueue = task :: q) (fun sh => hfront sh .handle) k
    ⟨q, hq⟩ (by omega)
  have hroom : Room (some c) sh'.globalQueue := by
    rw [room_some]
    omega
  have hpush := Shared.spawn_queue hroom .quiet .blockOn
  rw [hq', List.cons_append] at hpush
  rw [hq', List.length_cons] at h2
  refine ⟨_, _, _, _, _, hpush, ?_, h3.snoc trivial (Step.blockOn sh' none .quiet _ [] (.value 0))⟩
  rw [List.length_append, List.length_singleton]
  omega

/-- A full queue: the task at the front spawns one more and is lost when it returns `Pending`. -/
theorem Spawner.lost (c : Nat) (hc : 2 ≤ c) : ∃ s, Reachable (some c) Spawner.burst s ∧
    .lost 0 ∈ s.shared.log := by
  have hempty : Room (some c) (SimpleExecutor.new Spawner Nat).globalQueue := by
    rw [room_some]
    exact lt_of_lt_of_le Nat.zero_lt_two hc
  have hq := Shared.spawn_queue hempty .greedy .handle
  obtain ⟨as, sh, ch, k, q, h1, h2, h3⟩ := Spawner.fill_run (c := c) (c - 2) hq (by simp; omega)
  have hroom : Room (some c) q := by
    rw [room_some]
    simp at h2
    omega
  have hfull : ¬ Room (some c) (q ++ [⟨sh.nextTaskId, .wrapped sh.spawned Spawner.quiet⟩]) := by
    simp at h2 ⊢
    omega
  -- the first task is polled, its spawn takes the slot it left, and it has to go back
  have h4 := Run.cons trivial (Step.enter _ _ [])
    (Run.cons trivial (Step.spawn _ none Spawner.greedy (fun _ => fill (c - 2)) [] (.value 0)) h3)
  have h5 := h4.snoc trivial (Step.pop sh 1 0 Spawner.greedy q ch 0 _ (.value 0) (by omega) h1)
  have h6 := h5.snoc trivial (Step.spawn _ _ Spawner.quiet (fun _ => .pending .quiet) _ (.value 0))
  have h7 := h6.snoc trivial (Step.pending _ 1 0 Spawner.greedy .quiet ch _ _ (.value 0))
  refine ⟨_, ⟨_, h7⟩, ?_⟩
  simp [Shared.requeue, Shared.spawn, pushBack_of_room hroom, hfull]

/-- With 1024 tasks queued, a task that spawns another one in its poll is lost. -/
theorem not_kept : ¬ ∀ s, Reachable SimpleExecutor.capacity Spawner.burst s → s.Kept := by
  intro h
  obtain ⟨s, hr, hl⟩ := Spawner.lost 1024 (by omega)
  exact (accounted_reachable hr).kept_iff_lost.1 (h s hr) 0 hl

end Luminal.NoStd
