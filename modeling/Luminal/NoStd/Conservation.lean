import Luminal.Lib.Tally
import Luminal.NoStd.Executor

/-!
# Where the tasks of the no_std executor are

As for the std executor, every accepted task is counted: it is in the queue, being polled on
the stack, finished, or was lost to a full queue, and in one place
(`accounted_reachable`).  A task is lost exactly when its poll returns `Pending` and the
queue has filled up meanwhile.
-/

namespace Luminal.NoStd

open Function Transition

variable {U V : Type} {cap : Option Nat} {poll : U → Burst U V}

/-! ## Projections of the log -/

/-- How often `push_back` accepted the new task `ch`. -/
def accepted (ch : Nat) (log : List (Event U V)) : Nat :=
  log.countP fun
    | .spawned c _ => c = ch
    | _ => false

/-- How often the task of spawn `ch` was refused. -/
def refused (ch : Nat) (log : List (Event U V)) : Nat :=
  log.countP fun
    | .refused c _ => c = ch
    | _ => false

/-- How often a poll of task `ch` returned `Ready`. -/
def readies (ch : Nat) (log : List (Event U V)) : Nat :=
  log.countP fun
    | .ready c _ => c = ch
    | _ => false

/-- How often task `ch` was lost on its way back to the queue. -/
def losts (ch : Nat) (log : List (Event U V)) : Nat :=
  log.countP fun
    | .lost c => c = ch
    | _ => false

section Log

variable (ch : Nat) (l l' : List (Event U V))

@[simp] theorem accepted_append : accepted ch (l ++ l') = accepted ch l + accepted ch l' := by
  simp [accepted]

@[simp] theorem refused_append : refused ch (l ++ l') = refused ch l + refused ch l' := by
  simp [refused]

@[simp] theorem readies_append : readies ch (l ++ l') = readies ch l + readies ch l' := by
  simp [readies]

@[simp] theorem losts_append : losts ch (l ++ l') = losts ch l + losts ch l' := by simp [losts]

theorem accepted_pos_iff : 0 < accepted ch l ↔ ∃ u, .spawned ch u ∈ l := by
  unfold accepted
  rw [List.countP_pos_iff]
  constructor
  · rintro ⟨e, he, h⟩
    split at h
    · exact ⟨_, of_decide_eq_true h ▸ he⟩
    · cases h
  · rintro ⟨u, h⟩
    exact ⟨_, h, by simp⟩

theorem readies_pos_iff : 0 < readies ch l ↔ ∃ v, .ready ch v ∈ l := by
  unfold readies
  rw [List.countP_pos_iff]
  constructor
  · rintro ⟨e, he, h⟩
    split at h
    · exact ⟨_, of_decide_eq_true h ▸ he⟩
    · cases h
  · rintro ⟨v, h⟩
    exact ⟨_, h, by simp⟩

theorem losts_pos_iff : 0 < losts ch l ↔ .lost ch ∈ l := by
  unfold losts
  rw [List.countP_pos_iff]
  constructor
  · rintro ⟨e, he, h⟩
    split at h
    · exact of_decide_eq_true h ▸ he
    · cases h
  · intro h
    exact ⟨_, h, by simp⟩

end Log

/-! ## The counts -/

/-- Task `ch` is being polled in this frame. -/
def Frame.polling (ch : Nat) : Frame U V → Nat
  | .user task _ => occ ch task.toList
  | .blockOn .. => 0

theorem occ_pushBack (ch : Nat) (q : List (Task U)) (task : Task U) :
    occ ch (pushBack cap q task) = occ ch q + if Room cap q then task.isOf ch else 0 := by
  unfold pushBack
  split <;> simp

/-- What the counts say of a state. -/
structure Accounted (s : State U V) : Prop where
  /-- an accepted task is in the queue, in a poll, finished or lost, and in one place -/
  count : ∀ ch, occ ch s.shared.globalQueue + weigh (Frame.polling ch) s.stack +
    readies ch s.shared.log + losts ch s.shared.log = accepted ch s.shared.log
  /-- a call of `spawn` is accepted or refused -/
  called : ∀ ch, accepted ch s.shared.log + refused ch s.shared.log = born ch s.shared.spawned

theorem accounted_init : Accounted (State.init U V) := by
  constructor
  · intro ch
    simp [State.init, SimpleExecutor.new, Frame.polling, readies, losts, accepted]
  · intro ch
    simp [State.init, SimpleExecutor.new, refused, accepted, born]

/-- A call of `spawn` accounts for the new task. -/
theorem Accounted.spawn {sh : Shared U V} {f f' : Frame U V} {fs : List (Frame U V)}
    (h : Accounted ⟨sh, f :: fs⟩) (u : U) (holder : Holder)
    (hf : ∀ ch, f'.polling ch = f.polling ch) :
    Accounted ⟨sh.spawn cap u holder, f' :: fs⟩ := by
  constructor
  · intro ch
    have h1 := h.count ch
    simp only [Shared.spawn, occ_pushBack, weigh_cons, hf, readies_append, losts_append,
      accepted_append, isOf_wrapped] at h1 ⊢
    by_cases hr : Room cap sh.globalQueue
    · simp [hr, readies, losts, accepted] at h1 ⊢
      omega
    · simp [hr, readies, losts, accepted] at h1 ⊢
      omega
  · intro ch
    have h2 := h.called ch
    simp only [Shared.spawn, accepted_append, refused_append] at h2 ⊢
    rw [born_succ]
    by_cases hr : Room cap sh.globalQueue
    · simp [hr, accepted, refused] at h2 ⊢
      omega
    · simp [hr, accepted, refused] at h2 ⊢
      omega

/-- What a step does to one stack's polls and to the queue, with nothing new in the log that
counts. -/
theorem Accounted.silent {sh sh' : Shared U V} {fs fs' : List (Frame U V)}
    (h : Accounted ⟨sh, fs⟩) {l : List (Event U V)} (hlog : sh'.log = sh.log ++ l)
    (hl : ∀ ch, readies ch l = 0 ∧ losts ch l = 0 ∧ accepted ch l = 0 ∧ refused ch l = 0)
    (hs : sh'.spawned = sh.spawned)
    (hq : ∀ ch, occ ch sh'.globalQueue + weigh (Frame.polling ch) fs' =
      occ ch sh.globalQueue + weigh (Frame.polling ch) fs) : Accounted ⟨sh', fs'⟩ := by
  constructor
  · intro ch
    obtain ⟨h1, h2, h3, -⟩ := hl ch
    have := h.count ch
    have := hq ch
    simp only [hlog, readies_append, losts_append, accepted_append, h1, h2, h3] at *
    omega
  · intro ch
    obtain ⟨-, -, h3, h4⟩ := hl ch
    have := h.called ch
    simp only [hlog, accepted_append, refused_append, h3, h4, hs] at *
    omega

theorem accounted_pollHandle {sh : Shared U V} {fs fs' : List (Frame U V)}
    (h : Accounted ⟨sh, fs⟩) (c : Nat)
    (hf : ∀ ch, weigh (Frame.polling ch) fs' = weigh (Frame.polling ch) fs) :
    Accounted ⟨(sh.pollHandle c).2, fs'⟩ := by
  unfold Shared.pollHandle
  split
  · refine h.silent rfl (fun ch => ?_) rfl fun ch => by rw [hf]
    simp [readies, losts, accepted, refused]
  · refine h.silent (l := []) (by simp) (fun ch => ?_) rfl fun ch => by rw [hf]
    simp [readies, losts, accepted, refused]

/-- **Each step keeps the counts.** -/
theorem accounted_step {s s' : State U V} {a : Answer U V} (h : Accounted s)
    (hs : Step cap poll s a s') : Accounted s' := by
  have hnil : ∀ ch, readies ch ([] : List (Event U V)) = 0 ∧ losts ch ([] : List (Event U V)) = 0 ∧
      accepted ch ([] : List (Event U V)) = 0 ∧ refused ch ([] : List (Event U V)) = 0 :=
    fun ch => ⟨rfl, rfl, rfl, rfl⟩
  cases hs with
  | spawn sh task u k fs a => exact h.spawn u .handle fun ch => rfl
  | blockOn sh task u k fs a =>
    have hspawn : Accounted ⟨sh.spawn cap u .blockOn, .user task (.wait k) :: fs⟩ :=
      h.spawn u .blockOn fun ch => rfl
    exact hspawn.silent (l := []) (by simp) hnil rfl fun ch => by simp [Frame.polling]
  | pollHandle sh task c k fs a _ =>
    exact accounted_pollHandle h c fun ch => by simp [Frame.polling]
  | «return» sh c v q task k fs a _ =>
    have hpoll : Accounted ⟨(sh.pollHandle c).2, .user task (.run (k (some v))) :: fs⟩ :=
      accounted_pollHandle h c fun ch => by simp [Frame.polling]
    exact hpoll.silent (l := []) (by simp [Shared.dropHandle]) hnil rfl fun ch => rfl
  | pop sh id ch u q c i fs a _ hq =>
    refine h.silent rfl (fun d => ?_) rfl fun d => ?_
    · simp [readies, losts, accepted, refused]
    · simp [Frame.polling, hq]
      omega
  | popCompleted sh id q c i fs a _ hq =>
    refine h.silent (l := []) (by simp) hnil rfl fun d => ?_
    simp [Frame.polling, hq, Task.isOf, Task.ch?]
  | pending sh id ch u₀ u c pc fs a =>
    constructor
    · intro d
      have := h.count d
      by_cases hr : Room cap sh.globalQueue
      · simp [Shared.requeue, occ_pushBack, hr, Frame.polling, readies, losts, accepted] at this ⊢
        omega
      · simp [Shared.requeue, occ_pushBack, hr, Frame.polling, readies, losts, accepted] at this ⊢
        omega
    · intro d
      have := h.called d
      by_cases hr : Room cap sh.globalQueue <;>
        simpa [Shared.requeue, hr, accepted, refused] using this
  | ready sh id ch u v c pc fs a =>
    constructor
    · intro d
      have := h.count d
      simp [Shared.finish, Frame.polling, readies, losts, accepted] at this ⊢
      omega
    · intro d
      have := h.called d
      simpa [Shared.finish, accepted, refused] using this
  | _ =>
    exact h.silent (l := []) (by simp [Shared.dropHandle]) hnil rfl fun ch => by
      simp [Frame.polling, Shared.dropHandle]

/-- **The counts hold in every reachable state.** -/
theorem accounted_reachable {s : State U V} (h : Reachable cap poll s) : Accounted s :=
  h.elim fun _ hr => hr.invariant accounted_init fun _ _ _ ha _ hs => accounted_step ha hs

/-! ## The queue -/

/-- The queue holds tasks of spawns, and one task of each at most. -/
structure Queued (s : State U V) : Prop where
  wrapped : ∀ t ∈ s.shared.globalQueue, ∃ ch u, t.future = .wrapped ch u ∧ ch < s.shared.spawned
  nodup : (s.shared.globalQueue.map Task.ch?).Nodup

theorem mem_pushBack {q : List (Task U)} {task t : Task U} (h : t ∈ pushBack cap q task) :
    t ∈ q ∨ t = task := by
  unfold pushBack at h
  split at h
  · rw [List.mem_append, List.mem_singleton] at h
    exact h
  · exact Or.inl h

theorem wrapped_step {s s' : State U V} {a : Answer U V}
    (h : ∀ t ∈ s.shared.globalQueue, ∃ ch u, t.future = .wrapped ch u)
    (hs : Step cap poll s a s') :
    ∀ t ∈ s'.shared.globalQueue, ∃ ch u, t.future = .wrapped ch u := by
  intro t ht
  cases hs with
  | spawn sh task u k fs a | blockOn sh task u k fs a | pending sh id ch u₀ u c pc fs a =>
    rcases mem_pushBack ht with ht | rfl
    · exact h t ht
    · exact ⟨_, _, rfl⟩
  | pop sh id ch u q c i fs a _ hq | popCompleted sh id q c i fs a _ hq =>
    exact h t (hq ▸ List.mem_cons_of_mem _ ht)
  | pollHandle sh task c k fs a _ | «return» sh c v q task k fs a _ =>
    refine h t ?_
    simp only [Shared.dropHandle, Shared.pollHandle] at ht
    split at ht <;> exact ht
  | _ => exact h t ht

theorem nodup_of_occ {l : List (Task U)} (hw : ∀ t ∈ l, ∃ ch u, t.future = .wrapped ch u)
    (h : ∀ ch, occ ch l ≤ 1) : (l.map Task.ch?).Nodup := by
  induction l with
  | nil => exact List.nodup_nil
  | cons t l ih =>
    rw [List.forall_mem_cons] at hw
    obtain ⟨⟨ch, u, hf⟩, hw⟩ := hw
    have hch : t.ch? = some ch := by
      unfold Task.ch?
      rw [hf]
    rw [List.map_cons, List.nodup_cons]
    refine ⟨fun hmem => ?_, ih hw fun d => ?_⟩
    · obtain ⟨t', ht', heq⟩ := List.mem_map.1 hmem
      have h1 := h ch
      have h2 := (isOf_pos_iff ch t).2 hch
      have h3 := (occ_pos_iff ch l).2 ⟨t', ht', heq.trans hch⟩
      rw [occ_cons] at h1
      omega
    · have := h d
      rw [occ_cons] at this
      omega

theorem queued_reachable {s : State U V} (h : Reachable cap poll s) : Queued s := by
  have hacc := accounted_reachable h
  have hw : ∀ t ∈ s.shared.globalQueue, ∃ ch u, t.future = .wrapped ch u :=
    h.elim fun _ hr => hr.invariant nofun fun _ _ _ hw _ hs => wrapped_step hw hs
  have hocc : ∀ ch, occ ch s.shared.globalQueue ≤ born ch s.shared.spawned := by
    intro ch
    have h1 := hacc.count ch
    have h2 := hacc.called ch
    omega
  refine ⟨fun t ht => ?_, nodup_of_occ hw fun ch => (hocc ch).trans (born_le_one ch _)⟩
  obtain ⟨ch, u, hf⟩ := hw t ht
  refine ⟨ch, u, hf, ?_⟩
  have hpos : 0 < occ ch s.shared.globalQueue := by
    refine (occ_pos_iff ch _).2 ⟨t, ht, ?_⟩
    unfold Task.ch?
    rw [hf]
  have hle := hocc ch
  unfold born at hle
  split at hle
  · assumption
  · omega

end Luminal.NoStd
