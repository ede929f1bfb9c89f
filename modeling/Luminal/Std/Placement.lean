import Luminal.Std.Delivery
import Luminal.Std.Exec

/-!
# Each spawned task is in exactly one place

The counts of `Accounted`, read as places: in calm runs a spawned task is in the global
queue, in one local deque, in one thread's poll, or finished, and it occurs there once
(`spawned_in_one_place`).  The log order adds that no task is polled after it returned
`Ready` (`polledLive_reachable`).
-/

namespace Luminal.Std

open Function Transition

variable {n m : Nat} {U V : Type} {poll : U → Burst U V}

/-- Where a task can be. -/
inductive Place (n m : Nat) where
  | globalQueue
  | localDeque (i : Fin n)
  | polled (t : ThreadId n m)
  | finished
  deriving DecidableEq

/-- The places as a sum type. -/
def Place.equiv (n m : Nat) : Bool ⊕ Fin n ⊕ ThreadId n m ≃ Place n m where
  toFun
    | .inl true => .globalQueue
    | .inl false => .finished
    | .inr (.inl i) => .localDeque i
    | .inr (.inr t) => .polled t
  invFun
    | .globalQueue => .inl true
    | .finished => .inl false
    | .localDeque i => .inr (.inl i)
    | .polled t => .inr (.inr t)
  left_inv := by rintro ((_ | _) | _ | _) <;> rfl
  right_inv := by rintro (_ | _ | _ | _) <;> rfl

instance : Fintype (Place n m) := Fintype.ofEquiv _ (Place.equiv n m)

theorem Place.sum_eq (f : Place n m → Nat) : ∑ pl, f pl =
    f .globalQueue + f .finished + (∑ i, f (.localDeque i) + ∑ t, f (.polled t)) := by
  rw [← Equiv.sum_comp (Place.equiv n m) f, Fintype.sum_sum_type, Fintype.sum_bool,
    Fintype.sum_sum_type]
  rfl

/-- How often task `ch` occurs in a place.  A thread polls it from the moment the task was
taken out of a queue until it is pushed back or its poll has returned `Ready`. -/
def State.occurs (s : State n m U V) (ch : Nat) : Place n m → Nat
  | .globalQueue => occ ch s.shared.globalQueue
  | .localDeque i => occ ch (s.shared.locals i)
  | .polled t => weigh (Frame.running ch) (s.threads t) + weigh (Frame.closing ch) (s.threads t)
  | .finished => readies ch s.shared.log

/-- The frame polls `p`, or is about to push it back. -/
def Frame.Polls (p : Task U) : Frame U V → Prop
  | .user task _ => task = some p
  | .sent task => task = p
  | .requeue _ owned => owned = p
  | _ => False

section Places

variable {s : State n m U V} {ch : Nat}

/-- The places of a task that was not destroyed add up to its pushes. -/
theorem Accounted.sum_occurs (ha : Accounted s) (hl : losts ch s.shared.log = 0) :
    tally (s.occurs ch) id = pushes ch s.shared.log := by
  have h := ha.count ch
  have hsum : ∑ t, s.occurs ch (.polled t) =
      census (Frame.running ch) s + census (Frame.closing ch) s := Finset.sum_add_distrib
  have hloc : ∑ i, s.occurs ch (.localDeque i) = tally (occ ch) s.shared.locals := rfl
  unfold tally
  simp only [id]
  rw [Place.sum_eq, hsum, hloc]
  unfold queued at h
  simp only [State.occurs]
  omega

theorem Accounted.pushes_le_one (ha : Accounted s) (ch : Nat) : pushes ch s.shared.log ≤ 1 := by
  have h1 := ha.pushed ch
  have h2 := born_le_one ch s.shared.spawned
  omega

/-- A spawn pushes one future. -/
theorem Accounted.spawned_unique (ha : Accounted s) {u u' : U}
    (h : .spawned ch u ∈ s.shared.log) (h' : .spawned ch u' ∈ s.shared.log) : u = u' := by
  have hle := ha.pushes_le_one ch
  obtain ⟨l₁, l₂, hl⟩ := List.append_of_mem h
  rw [hl] at h' hle
  have hone : ∀ u, pushes ch ([.spawned ch u] : List (Event U V)) = 1 := fun u => by simp [pushes]
  have hrest : pushes ch l₁ = 0 ∧ pushes ch l₂ = 0 := by
    rw [← List.singleton_append, pushes_append, pushes_append, hone] at hle
    omega
  rcases List.mem_append.1 h' with h' | h'
  · have := (pushes_pos_iff ch l₁).2 ⟨u', h'⟩
    omega
  · rcases List.mem_cons.1 h' with h' | h'
    · cases h'
      rfl
    · have := (pushes_pos_iff ch l₂).2 ⟨u', h'⟩
      omega

theorem queued_pos {p : Task U} (hp : Queues s.shared p) (hch : p.ch? = some ch) :
    0 < queued ch s.shared := by
  unfold queued
  rcases hp with hp | ⟨i, hp⟩
  · have := (occ_pos_iff ch _).2 ⟨p, hp, hch⟩
    omega
  · have := (occ_pos_iff ch _).2 ⟨p, hp, hch⟩
    have := le_tally (occ ch) s.shared.locals i
    omega

theorem polled_pos {t : ThreadId n m} {f : Frame U V} {p : Task U} (hf : f ∈ s.threads t)
    (hp : f.Polls p) (hch : p.ch? = some ch) :
    0 < census (Frame.running ch) s + census (Frame.closing ch) s := by
  have h1 := (le_weigh (Frame.running ch) hf).trans (weigh_le_census _ s t)
  have h2 := (le_weigh (Frame.closing ch) hf).trans (weigh_le_census _ s t)
  have h3 := (isOf_pos_iff ch p).2 hch
  cases f with
  | user task code =>
    cases hp
    simp only [Frame.running, Option.toList_some, occ_cons] at h1
    omega
  | sent task =>
    cases hp
    simp only [Frame.closing] at h2
    omega
  | requeue left owned =>
    cases hp
    simp only [Frame.running] at h1
    omega
  | _ => cases hp

end Places

/-! ## No poll after `Ready` -/

/-- In the log, no poll of a task comes after its `Ready`. -/
def PolledLive (log : List (Event U V)) : Prop :=
  ∀ l₁ l₂ ch, log = l₁ ++ .polled ch :: l₂ → .ready ch ∉ l₁

theorem PolledLive.append {log l : List (Event U V)} (h : PolledLive log)
    (hl : ∀ ch, .polled ch ∈ l → .ready ch ∉ log ∧ l = [.polled ch]) : PolledLive (log ++ l) := by
  intro l₁ l₂ ch heq hmem
  rcases List.append_eq_append_iff.1 heq with ⟨a, rfl, ha⟩ | ⟨a, rfl, ha⟩
  · obtain ⟨h1, h2⟩ := hl ch (ha ▸ List.mem_append_right _ List.mem_cons_self)
    rw [h2] at ha
    have : a = [] := by
      cases a with
      | nil => rfl
      | cons e a => simp at ha
    subst this
    exact h1 (by simpa using hmem)
  · cases a with
    | nil =>
      rw [List.nil_append] at ha
      obtain ⟨h1, -⟩ := hl ch (ha ▸ List.mem_cons_self)
      exact h1 (by simpa using hmem)
    | cons e a =>
      rw [List.cons_append, List.cons.injEq] at ha
      exact h l₁ a ch (by rw [← ha.1]) hmem

theorem polledLive_reachable {G : State n m U V → ThreadId n m → Prop} {s : State n m U V}
    (h : Reachable poll G s) : PolledLive s.shared.log := by
  obtain ⟨ts, hr⟩ := h
  refine hr.invariant_with (P := fun s => PolledLive s.shared.log) (R := Accounted)
    (fun ls _ hr' => accounted_reachable ⟨ls, hr'⟩) ?_ fun a t b ha hp _ hs => ?_
  · intro l₁ l₂ ch h
    cases l₁ <;> cases h
  · obtain @⟨sh', fs', hs, -⟩ := hs
    obtain ⟨l, hl, he⟩ := threadStep_log hs
    simp only [hl]
    refine hp.append fun ch hmem => ?_
    cases he with
    | polled task c hq hc =>
      cases List.mem_singleton.1 hmem
      refine ⟨fun hready => ?_, rfl⟩
      have h1 := queued_pos hq hc
      have h2 := (readies_pos_iff _ _).2 hready
      have h3 := ha.count ch
      have h4 := ha.pushes_le_one ch
      omega
    | destroyed tasks => simp at hmem
    | _ => simp at hmem

/-! ## The places of a task in calm runs -/

/-- **Each spawned task is in exactly one place, once, and nothing else is queued or polled.**
In particular the placeholders of `mem::take` never are, and nothing is polled after it
returned `Ready`. -/
theorem spawned_in_one_place {s : State n m U V} (h : Reachable poll State.Calm s) :
    (∀ ch u, .spawned ch u ∈ s.shared.log →
      ∃ pl, s.occurs ch pl = 1 ∧ ∀ pl', pl' ≠ pl → s.occurs ch pl' = 0) ∧
    (∀ p, (Queues s.shared p ∨ ∃ t, ∃ f ∈ s.threads t, f.Polls p) →
      ∃ ch u, p.ch? = some ch ∧ .spawned ch u ∈ s.shared.log) ∧
    PolledLive s.shared.log := by
  have ha := accounted_reachable h
  have hq := quiet_reachable h
  refine ⟨fun ch u hu => ?_, fun p hp => ?_, polledLive_reachable h⟩
  · have hsum := ha.sum_occurs (hq.lost ch)
    have hpos := (pushes_pos_iff ch _).2 ⟨u, hu⟩
    have hle := ha.pushes_le_one ch
    exact exists_of_tally_eq_one (s.occurs ch) id (by omega)
  · have hsome : p.ch?.isSome := by
      rcases hp with hp | ⟨t, f, hf, hp⟩
      · exact ha.queues p hp
      · have hproper := ha.proper t f hf
        cases f with
        | user task code =>
          cases hp
          exact hproper p rfl
        | sent task =>
          cases hp
          exact hproper
        | requeue left owned =>
          cases hp
          exact hproper.2
        | _ => cases hp
    obtain ⟨ch, hch⟩ := Option.isSome_iff_exists.1 hsome
    have hcount := ha.count ch
    have hpos : 0 < pushes ch s.shared.log := by
      rcases hp with hp | ⟨t, f, hf, hp⟩
      · have := queued_pos hp hch
        omega
      · have := polled_pos hf hp hch
        omega
    obtain ⟨u, hu⟩ := (pushes_pos_iff ch _).1 hpos
    exact ⟨ch, u, hch, hu⟩

/-- Three tasks spawned: the first is being polled by the worker, the second came along with
it in the batch and sits in the worker's deque. -/
theorem spawned_in_one_place_two : ∃ s : State 1 1 Sample Nat,
    (.spawned 0 (.yield 5) ∈ s.shared.log ∧ s.occurs 1 (.localDeque 0) = 1) ∧
    (∀ ch u, .spawned ch u ∈ s.shared.log →
      ∃ pl, s.occurs ch pl = 1 ∧ ∀ pl', pl' ≠ pl → s.occurs ch pl' = 0) := by
  obtain ⟨s, hr, hs⟩ := reachable_of_exec Sample.burst (G := State.Calm)
    (P := fun s : State 1 1 Sample Nat =>
      .spawned 0 (.yield 5) ∈ s.shared.log ∧ s.occurs 1 (.localDeque 0) = 1)
    ((.inr 0, .code (Sample.spawns [.yield 5, .value 7, .value 8])) ::
      turns (.inr 0) 6 (.answer 0) ++
      turns (.inl 0) 3 (.steal (.batch 1))) (by decide)
  exact ⟨s, hs, (spawned_in_one_place hr).1⟩

end Luminal.Std
