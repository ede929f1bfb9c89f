import Luminal.NoStd.Conservation
import Luminal.NoStd.Exec
import Luminal.NoStd.Jobs
import Luminal.NoStd.RoundRobin

/-!
# No task waits for ever

Whatever loops pop the queue and wherever they were called, a task that goes back to the queue is
popped again after those that were there before it, once each, and after no other
(`popped_in_between`).  Without nested calls the queue and the task being polled form one line, so
two tasks that stay are polled in turn (`polled_alternately`).
-/

namespace Luminal.NoStd

open Function Transition Fifo

variable {U V : Type} {cap : Option Nat} {poll : U → Burst U V}

/-- The tasks polled, in order. -/
def polls (log : List (Event U V)) : List Nat :=
  log.filterMap fun
    | .polled ch => some ch
    | _ => none

@[simp] theorem polls_append (l l' : List (Event U V)) : polls (l ++ l') = polls l ++ polls l' := by
  simp [polls]

theorem mem_polls (ch : Nat) (l : List (Event U V)) : ch ∈ polls l ↔ .polled ch ∈ l := by
  unfold polls
  rw [List.mem_filterMap]
  constructor
  · rintro ⟨e, he, h⟩
    split at h
    · cases h
      exact he
    · cases h
  · exact fun h => ⟨_, h, rfl⟩

/-! ## The queue -/

/-- **A step leaves the queue alone, pushes a task to its back, or pops the one at its front.** -/
theorem step_queue {s s' : State U V} {a : Answer U V} (hq : Queued s)
    (hs : Step cap poll s a s') : ∃ l, s'.shared.log = s.shared.log ++ l ∧
      ((s'.shared.globalQueue = s.shared.globalQueue ∧ polls l = []) ∨
        (∃ t, s'.shared.globalQueue = s.shared.globalQueue ++ [t] ∧ polls l = []) ∨
        ∃ t ch, s.shared.globalQueue = t :: s'.shared.globalQueue ∧ t.ch? = some ch ∧
          l = [.polled ch]) := by
  have hspawn : ∀ (sh : Shared U V) (u : U) (holder : Holder), ∃ l,
      (sh.spawn cap u holder).log = sh.log ++ l ∧
      (((sh.spawn cap u holder).globalQueue = sh.globalQueue ∧ polls l = []) ∨
        ∃ t, (sh.spawn cap u holder).globalQueue = sh.globalQueue ++ [t] ∧ polls l = []) := by
    intro sh u holder
    refine ⟨_, rfl, ?_⟩
    by_cases hr : Room cap sh.globalQueue
    · exact Or.inr ⟨_, pushBack_of_room hr _, by simp [hr, polls]⟩
    · exact Or.inl ⟨pushBack_of_full hr _, by simp [hr, polls]⟩
  have hpoll : ∀ (sh : Shared U V) (c : Nat), ∃ l, (sh.pollHandle c).2.log = sh.log ++ l ∧
      (sh.pollHandle c).2.globalQueue = sh.globalQueue ∧ polls l = [] := by
    intro sh c
    unfold Shared.pollHandle
    split
    · exact ⟨_, rfl, rfl, rfl⟩
    · exact ⟨[], by simp, rfl, rfl⟩
  cases hs with
  | spawn sh task u k fs a =>
    obtain ⟨l, hl, h⟩ := hspawn sh u .handle
    exact ⟨l, hl, h.imp id Or.inl⟩
  | blockOn sh task u k fs a =>
    obtain ⟨l, hl, h⟩ := hspawn sh u .blockOn
    exact ⟨l, hl, h.imp id Or.inl⟩
  | pollHandle sh task c k fs a _ =>
    obtain ⟨l, hl, h⟩ := hpoll sh c
    exact ⟨l, hl, Or.inl h⟩
  | «return» sh c v q task k fs a _ =>
    obtain ⟨l, hl, h⟩ := hpoll sh c
    exact ⟨l, hl, Or.inl h⟩
  | pop sh id ch u q c i fs a _ hq' => exact ⟨_, rfl, Or.inr (Or.inr ⟨_, ch, hq', rfl, rfl⟩)⟩
  | popCompleted sh id q c i fs a _ hq' =>
    obtain ⟨ch, u, hf, -⟩ := hq.wrapped ⟨id, .completed⟩ (hq' ▸ List.mem_cons_self)
    cases hf
  | pending sh id ch u₀ u c pc fs a =>
    refine ⟨_, rfl, ?_⟩
    by_cases hr : Room cap sh.globalQueue
    · exact Or.inr (Or.inl ⟨_, pushBack_of_room hr _, by simp [hr, polls]⟩)
    · exact Or.inl ⟨pushBack_of_full hr _, by simp [hr, polls]⟩
  | ready sh id ch u v c pc fs a => exact ⟨_, rfl, Or.inl ⟨rfl, rfl⟩⟩
  | _ => exact ⟨[], by simp [Shared.dropHandle], Or.inl ⟨rfl, rfl⟩⟩

/-! ## From one pop of a task to the next -/

/-- The poll of task `ch` is about to return `Pending`, and the queue has room for it. -/
def State.Requeues (cap : Option Nat) (s : State U V) (ch : Nat) : Prop :=
  Room cap s.shared.globalQueue ∧ ∃ id u₀ u c pc fs,
    s.stack = .user (some ⟨id, .wrapped ch u₀⟩) (.run (.pending u)) :: .blockOn c pc :: fs

/-- Of the tasks `front` those in `l` have been polled, the others are before `ch` in the queue. -/
def Behind (front : List (Option Nat)) (ch : Nat) (l : List (Event U V)) (s : State U V) : Prop :=
  ∃ rest later, front = (polls l).map some ++ rest ∧
    s.shared.globalQueue.map Task.ch? = rest ++ some ch :: later

theorem behind_step {front : List (Option Nat)} {ch : Nat} {l : List (Event U V)} {s s' : State U V}
    {a : Answer U V} (hq : Queued s) (h : Behind front ch l s) (hs : Step cap poll s a s') :
    ∃ l', s'.shared.log = s.shared.log ++ l' ∧
    (.polled ch ∉ l' → Behind front ch (l ++ l') s') := by
  obtain ⟨rest, later, hfront, hqueue⟩ := h
  obtain ⟨l', hl', h⟩ := step_queue hq hs
  refine ⟨l', hl', fun hno => ?_⟩
  rcases h with ⟨heq, hnil⟩ | ⟨t, heq, hnil⟩ | ⟨t, c, heq, hc, rfl⟩
  · exact ⟨rest, later, by rw [polls_append, hnil, List.append_nil, hfront], heq ▸ hqueue⟩
  · refine ⟨rest, later ++ [t.ch?], by rw [polls_append, hnil, List.append_nil, hfront], ?_⟩
    rw [heq, List.map_append, hqueue]
    simp
  · rw [heq, List.map_cons, hc] at hqueue
    cases rest with
    | nil =>
      -- the task itself would be popped
      rw [List.nil_append, List.cons.injEq] at hqueue
      cases hqueue.1
      exact absurd List.mem_cons_self hno
    | cons x rest =>
      rw [List.cons_append, List.cons.injEq] at hqueue
      refine ⟨rest, later, ?_, hqueue.2⟩
      rw [hfront, ← hqueue.1]
      simp [polls]

/-- **Between the return of a task to the queue and its next pop those that were queued are popped,
each of them once and in order, and no other.** -/
theorem popped_in_between {ch : Nat} {s₁ s₂ s₃ s₄ : State U V} {a b : Answer U V}
    {as : List (Answer U V)} {l : List (Event U V)} (hreach : Reachable cap poll s₁)
    (hreq : s₁.Requeues cap ch) (h₁ : Step cap poll s₁ a s₂)
    (hr : Run (Step cap poll) always s₂ as s₃) (hl : s₃.shared.log = s₂.shared.log ++ l)
    (hno : .polled ch ∉ l) (h₃ : Step cap poll s₃ b s₄)
    (hpop : s₄.shared.log = s₃.shared.log ++ [.polled ch]) :
    (polls l).map some = s₁.shared.globalQueue.map Task.ch? ∧ (polls l).Nodup := by
  have hqueued := queued_reachable hreach
  obtain ⟨ls, hrun⟩ := hreach
  have hrun₂ := hrun.snoc trivial h₁
  have hstart : Behind (s₁.shared.globalQueue.map Task.ch?) ch [] s₂ := by
    obtain ⟨hroom, id, u₀, u, c, pc, fs, hstack⟩ := hreq
    obtain ⟨sh, stack⟩ := s₁
    subst hstack
    cases h₁ with
    | pending =>
      refine ⟨sh.globalQueue.map Task.ch?, [], rfl, ?_⟩
      simp [Shared.requeue, pushBack_of_room hroom]
  obtain ⟨l', hl', hbehind⟩ : ∃ l', s₃.shared.log = s₂.shared.log ++ l' ∧
      (.polled ch ∉ l' → Behind (s₁.shared.globalQueue.map Task.ch?) ch l' s₃) := by
    refine hr.invariant_with (R := Queued) (P := fun s => ∃ l', s.shared.log = s₂.shared.log ++ l' ∧
      (.polled ch ∉ l' → Behind (s₁.shared.globalQueue.map Task.ch?) ch l' s))
      (fun as s hr => queued_reachable ⟨_, hrun₂.append hr⟩) ⟨[], by simp, fun _ => hstart⟩ ?_
    rintro s c s' hq ⟨l', hl', hb⟩ - hs
    by_cases hmem : .polled ch ∈ l'
    · obtain ⟨l₁, hl₁, -⟩ := step_queue hq hs
      refine ⟨l' ++ l₁, by rw [hl₁, hl', List.append_assoc], fun h => ?_⟩
      exact absurd (List.mem_append_left _ hmem) h
    · obtain ⟨l₁, hl₁, hb'⟩ := behind_step hq (hb hmem) hs
      refine ⟨l' ++ l₁, by rw [hl₁, hl', List.append_assoc], fun h => hb' fun h₁ => ?_⟩
      exact h (List.mem_append_right _ h₁)
  cases List.append_cancel_left (hl.symm.trans hl')
  obtain ⟨rest, later, hfront, hqueue⟩ := hbehind hno
  -- the task is at the front now, and in the queue once
  have hq₃ := queued_reachable ⟨_, hrun₂.append hr⟩
  have hrest : rest = [] := by
    obtain ⟨l₁, hl₁, h⟩ := step_queue hq₃ h₃
    cases List.append_cancel_left (hpop.symm.trans hl₁)
    rcases h with ⟨-, hnil⟩ | ⟨t, -, hnil⟩ | ⟨t, c, heq, hc, hce⟩
    · cases hnil
    · cases hnil
    · cases hce
      have hnodup := hq₃.nodup
      rw [hqueue] at hnodup
      rw [heq, List.map_cons, hc] at hqueue
      cases rest with
      | nil => rfl
      | cons x rest =>
        rw [List.cons_append, List.cons.injEq] at hqueue
        rw [← hqueue.1, List.cons_append, List.nodup_cons] at hnodup
        exact absurd (List.mem_append_right _ List.mem_cons_self) hnodup.1
  rw [hrest, List.append_nil] at hfront
  refine ⟨hfront.symm, ?_⟩
  have hnodup := hqueued.nodup
  rw [hfront] at hnodup
  exact hnodup.of_map

/-! ## Without nested calls -/

/-- The queue, with the tasks being polled at its end. -/
def State.line (s : State U V) : List Nat :=
  s.shared.globalQueue.filterMap Task.ch? ++ onStack s.stack

theorem count_filterMap_ch? (ch : Nat) (q : List (Task U)) :
    (q.filterMap Task.ch?).count ch = occ ch q := by
  induction q with
  | nil => rfl
  | cons t q ih =>
    rw [occ_cons, ← ih]
    cases ht : t.ch? with
    | none => simp [ht, Task.isOf]
    | some c => simp [ht, Task.isOf, List.count_cons, Nat.add_comm]

theorem count_onStack (ch : Nat) (fs : List (Frame U V)) :
    (onStack fs).count ch = weigh (Frame.polling ch) fs := by
  induction fs with
  | nil => rfl
  | cons f fs ih =>
    have hf : onStack (f :: fs) = f.ch?.toList ++ onStack fs := by
      unfold onStack
      cases hf : f.ch? <;> simp [hf]
    rw [weigh_cons, ← ih, hf, List.count_append]
    congr 1
    rcases f with ⟨_ | t, code⟩ | _
    · rfl
    · show t.ch?.toList.count ch = occ ch [t]
      rw [← count_filterMap_ch?]
      cases ht : t.ch? <;> simp [ht]
    · rfl

theorem Accounted.count_line {s : State U V} (h : Accounted s) (ch : Nat) :
    s.line.count ch + readies ch s.shared.log + losts ch s.shared.log =
      accepted ch s.shared.log := by
  rw [State.line, List.count_append, count_filterMap_ch?, count_onStack]
  exact h.count ch

theorem Accounted.line_nodup {s : State U V} (h : Accounted s) : s.line.Nodup := by
  rw [List.nodup_iff_count_le_one]
  intro ch
  have h1 := h.count_line ch
  have h2 := h.called ch
  have h3 := born_le_one ch s.shared.spawned
  omega

theorem Looping.step {s s' : State U V} {a : Answer U V} {hand : Option Nat}
    (h : Looping s.stack hand) (hn : ¬ s.Nests) (hs : Step cap poll s a s') :
    ∃ hand', Looping s'.stack hand' := by
  cases hs with
  | blockOn sh task u k fs a =>
    cases h with
    | user => exact ⟨_, .loop ..⟩
    | polling => exact absurd ⟨_, _, _, _, rfl⟩ hn
  | pop => cases h; exact ⟨_, .polling ..⟩
  | pending | ready | popCompleted | endBatch | retry => cases h; exact ⟨_, .loop ..⟩
  | «return» | enter | leavePending | leaveReady => cases h; exact ⟨_, .user _⟩
  | _ =>
    cases h with
    | user => exact ⟨_, .user _⟩
    | polling => exact ⟨_, .polling ..⟩

/-- Task `ch` has neither finished nor been dropped. -/
def Stays (ch : Nat) (log : List (Event U V)) : Prop := (∀ v, .ready ch v ∉ log) ∧ .lost ch ∉ log

theorem inTurn_spawn (cap : Option Nat) {x y : Nat} {l : List (Event U V)} {sh : Shared U V}
    {r : List Nat} (u : U) (holder : Holder)
    (h : InTurn x y (polls l) (sh.globalQueue.filterMap Task.ch? ++ r)) :
    ∃ l', (sh.spawn cap u holder).log = sh.log ++ l' ∧
      InTurn x y (polls (l ++ l'))
        ((sh.spawn cap u holder).globalQueue.filterMap Task.ch? ++ r) := by
  refine ⟨_, rfl, ?_⟩
  by_cases hr : Room cap sh.globalQueue
  · simpa [hr, polls, Shared.spawn, pushBack] using h.insert (c := sh.spawned)
  · simpa [hr, polls, Shared.spawn, pushBack] using h

theorem inTurn_pollHandle {x y : Nat} {l : List (Event U V)} {sh : Shared U V} {r : List Nat}
    (c : Nat) (h : InTurn x y (polls l) (sh.globalQueue.filterMap Task.ch? ++ r)) :
    ∃ l', (sh.pollHandle c).2.log = sh.log ++ l' ∧
      InTurn x y (polls (l ++ l')) ((sh.pollHandle c).2.globalQueue.filterMap Task.ch? ++ r) := by
  unfold Shared.pollHandle
  split
  · exact ⟨_, rfl, by simpa [polls] using h⟩
  · exact ⟨[], by simp, by simpa using h⟩

/-- **A step keeps the turns of two tasks that stay.** -/
theorem inTurn_step {x y : Nat} {l : List (Event U V)} {s s' : State U V} {a : Answer U V}
    {hand : Option Nat} (hxy : x ≠ y) (hq : Queued s) (hnodup : s.line.Nodup)
    (hloop : Looping s.stack hand) (hn : ¬ s.Nests) (hs : Step cap poll s a s')
    (h : InTurn x y (polls l) s.line) :
    ∃ l', s'.shared.log = s.shared.log ++ l' ∧
      (Stays x l' → Stays y l' → InTurn x y (polls (l ++ l')) s'.line) := by
  unfold State.line at h hnodup ⊢
  cases hs with
  | spawn sh task u k fs a =>
    obtain ⟨l', hl', h'⟩ := inTurn_spawn cap u .handle h
    exact ⟨l', hl', fun _ _ => h'⟩
  | blockOn sh task u k fs a =>
    cases hloop with
    | user =>
      obtain ⟨l', hl', h'⟩ := inTurn_spawn cap u .blockOn h
      exact ⟨l', hl', fun _ _ => h'⟩
    | polling => exact absurd ⟨_, _, _, _, rfl⟩ hn
  | pollHandle sh task c k fs a _ =>
    obtain ⟨l', hl', h'⟩ := inTurn_pollHandle c h
    exact ⟨l', hl', fun _ _ => h'⟩
  | «return» sh c v q task k fs a _ =>
    obtain ⟨l', hl', h'⟩ := inTurn_pollHandle c h
    exact ⟨l', hl', fun _ _ => h'⟩
  | pop sh id ch u q c i fs a _ hq' =>
    cases hloop
    refine ⟨_, rfl, fun _ _ => ?_⟩
    simp only [hq', List.filterMap_cons_some (Task.ch?_wrapped id ch u)] at h hnodup
    rw [List.cons_append] at h hnodup
    have hstack : ∀ c pc k, onStack [.blockOn c pc, (.user none (.wait k) : Frame U V)] = [] :=
      fun c pc k => rfl
    rw [hstack, List.append_nil] at h hnodup
    show InTurn x y (polls (l ++ [.polled ch])) (q.filterMap Task.ch? ++ [ch])
    rw [polls_append]
    exact h.take hxy hnodup
  | popCompleted sh id q c i fs a _ hq' =>
    obtain ⟨ch, u, hf, -⟩ := hq.wrapped ⟨id, .completed⟩ (hq' ▸ List.mem_cons_self)
    cases hf
  | pending sh id ch u₀ u c pc fs a =>
    cases hloop
    have hline : InTurn x y (polls l) (sh.globalQueue.filterMap Task.ch? ++ [ch]) := h
    refine ⟨_, rfl, fun hx hy => ?_⟩
    show InTurn x y _ ((pushBack cap sh.globalQueue ⟨id, .wrapped ch u⟩).filterMap Task.ch? ++ [])
    rw [List.append_nil, polls_append]
    by_cases hr : Room cap sh.globalQueue
    · rw [pushBack_of_room hr]
      simpa [hr, polls] using hline
    · simp only [hr, if_false] at hx hy
      have hx' : ch ≠ x := fun heq => hx.2 (heq ▸ List.mem_cons_self)
      have hy' : ch ≠ y := fun heq => hy.2 (heq ▸ List.mem_cons_self)
      rw [pushBack_of_full hr]
      simpa [hr, polls] using hline.leave hx' hy'
  | ready sh id ch u v c pc fs a =>
    cases hloop
    have hline : InTurn x y (polls l) (sh.globalQueue.filterMap Task.ch? ++ [ch]) := h
    refine ⟨_, rfl, fun hx hy => ?_⟩
    have hx' : ch ≠ x := fun heq => hx.1 v (heq ▸ List.mem_cons_self)
    have hy' : ch ≠ y := fun heq => hy.1 v (heq ▸ List.mem_cons_self)
    show InTurn x y (polls (l ++ [.ready ch v])) (sh.globalQueue.filterMap Task.ch? ++ [])
    rw [List.append_nil, polls_append]
    simpa [polls] using hline.leave hx' hy'
  | _ =>
    refine ⟨[], by simp [Shared.dropHandle], fun _ _ => ?_⟩
    rw [List.append_nil]
    exact h

theorem Stays.of_append {ch : Nat} {l l' : List (Event U V)} (h : Stays ch (l ++ l')) :
    Stays ch l ∧ Stays ch l' :=
  ⟨⟨fun v hv => h.1 v (List.mem_append_left _ hv), fun hl => h.2 (List.mem_append_left _ hl)⟩,
    fun v hv => h.1 v (List.mem_append_right _ hv), fun hl => h.2 (List.mem_append_right _ hl)⟩

/-- An accepted task that stays is in the line. -/
theorem Accounted.mem_line {s : State U V} (h : Accounted s) {ch : Nat} {u : U}
    (hu : .spawned ch u ∈ s.shared.log) (hs : Stays ch s.shared.log) : ch ∈ s.line := by
  have h1 := h.count_line ch
  have h2 := (accepted_pos_iff ch _).2 ⟨u, hu⟩
  have h3 : readies ch s.shared.log = 0 := by
    by_contra hne
    obtain ⟨v, hv⟩ := (readies_pos_iff ch _).1 (Nat.pos_of_ne_zero hne)
    exact hs.1 v hv
  have h4 : losts ch s.shared.log = 0 := by
    by_contra hne
    exact hs.2 ((losts_pos_iff ch _).1 (Nat.pos_of_ne_zero hne))
  exact List.count_pos_iff.1 (by omega)

/-- **Two tasks that stay in the executor are polled in turn**, in a run without nested calls. -/
theorem polled_alternately {x y : Nat} {as bs : List (Answer U V)} {s₁ s₂ : State U V}
    {l : List (Event U V)} {u w : U} (hxy : x ≠ y)
    (h₁ : Run (Step cap poll) (fun a _ => ¬ a.Nests) (State.init U V) as s₁)
    (hx : .spawned x u ∈ s₁.shared.log) (hy : .spawned y w ∈ s₁.shared.log)
    (h₂ : Run (Step cap poll) (fun a _ => ¬ a.Nests) s₁ bs s₂)
    (hl : s₂.shared.log = s₁.shared.log ++ l)
    (hsx : Stays x s₂.shared.log) (hsy : Stays y s₂.shared.log) :
    (only x y (polls l)).IsChain (· ≠ ·) := by
  have hreach : ∀ bs s, Run (Step cap poll) (fun a _ => ¬ a.Nests) s₁ bs s →
      Reachable cap poll s := fun bs s hr => ⟨_, (h₁.append hr).mono fun _ _ _ => trivial⟩
  have hloop₁ : ∃ hand, Looping s₁.stack hand :=
    h₁.invariant (P := fun s => ∃ hand, Looping s.stack hand) ⟨none, .user _⟩
      fun _ _ _ ⟨_, h⟩ hn hs => h.step hn hs
  have hinv : (∃ hand, Looping s₂.stack hand) ∧ ∃ l', s₂.shared.log = s₁.shared.log ++ l' ∧
      (Stays x s₂.shared.log → Stays y s₂.shared.log → InTurn x y (polls l') s₂.line) := by
    refine h₂.invariant_with (R := Reachable cap poll)
      (P := fun s => (∃ hand, Looping s.stack hand) ∧ ∃ l', s.shared.log = s₁.shared.log ++ l' ∧
        (Stays x s.shared.log → Stays y s.shared.log → InTurn x y (polls l') s.line))
      hreach ⟨hloop₁, [], by simp, fun hsx hsy => ?_⟩ ?_
    · have ha := accounted_reachable (hreach [] s₁ Run.nil)
      exact InTurn.nil (ha.mem_line hx hsx) (ha.mem_line hy hsy)
    · rintro s a s' hr ⟨⟨hand, hloop⟩, l', hl', h⟩ hn hs
      refine ⟨hloop.step hn hs, ?_⟩
      by_cases hst : Stays x s.shared.log ∧ Stays y s.shared.log
      · obtain ⟨l₁, hl₁, h'⟩ := inTurn_step hxy (queued_reachable hr)
          (accounted_reachable hr).line_nodup hloop hn hs (h hst.1 hst.2)
        refine ⟨l' ++ l₁, by rw [hl₁, hl', List.append_assoc], fun hx hy => ?_⟩
        rw [hl₁] at hx hy
        exact h' hx.of_append.2 hy.of_append.2
      · obtain ⟨l₁, hl₁, -⟩ := step_queue (queued_reachable hr) hs
        refine ⟨l' ++ l₁, by rw [hl₁, hl', List.append_assoc], fun hx hy => ?_⟩
        rw [hl₁] at hx hy
        exact absurd ⟨hx.of_append.1, hy.of_append.1⟩ hst
  obtain ⟨-, l', hl', h⟩ := hinv
  cases List.append_cancel_left (hl.symm.trans hl')
  exact (h hsx hsy).alternate

/-! ## Every run -/

/-- **No starvation.**  Between the return of a task to the queue and its next pop, the tasks that
were queued are popped once each, in order, and no other is; and two tasks that stay are polled
strictly in turn in a run without nested calls. -/
theorem no_starvation :
    (∀ (ch : Nat) (s₁ s₂ s₃ s₄ : State U V) a as b l, Reachable cap poll s₁ →
      s₁.Requeues cap ch → Step cap poll s₁ a s₂ → Run (Step cap poll) always s₂ as s₃ →
      s₃.shared.log = s₂.shared.log ++ l → .polled ch ∉ l → Step cap poll s₃ b s₄ →
      s₄.shared.log = s₃.shared.log ++ [.polled ch] →
      (polls l).map some = s₁.shared.globalQueue.map Task.ch? ∧ (polls l).Nodup) ∧
    ∀ (x y : Nat) (s₁ s₂ : State U V) as bs l u w, x ≠ y →
      Run (Step cap poll) (fun a _ => ¬ a.Nests) (State.init U V) as s₁ →
      .spawned x u ∈ s₁.shared.log → .spawned y w ∈ s₁.shared.log →
      Run (Step cap poll) (fun a _ => ¬ a.Nests) s₁ bs s₂ →
      s₂.shared.log = s₁.shared.log ++ l → Stays x s₂.shared.log → Stays y s₂.shared.log →
      (only x y (polls l)).IsChain (· ≠ ·) :=
  ⟨fun _ _ _ _ _ _ _ _ _ hr hreq h₁ h₂ hl hno h₃ hpop =>
      popped_in_between hr hreq h₁ h₂ hl hno h₃ hpop,
    fun _ _ _ _ _ _ _ _ _ hxy h₁ hx hy h₂ hl hsx hsy =>
      polled_alternately hxy h₁ hx hy h₂ hl hsx hsy⟩

deriving instance DecidableEq for Event

/-- The top frame is a poll about to return `Pending`. -/
def pends : List (Frame U V) → Bool
  | .user (some ⟨_, .wrapped ch _⟩) (.run (.pending _)) :: .blockOn _ _ :: _ => ch == 0
  | _ => false

/-- Three tasks: the first goes back to the queue and is popped again after the other two. -/
theorem no_starvation_three : ∃ (s : State Future Nat) (l : List (Event Future Nat)),
    polls l = [1, 2] ∧ (polls l).map some = s.shared.globalQueue.map Task.ch? := by
  obtain ⟨s₁, hr, hroom, hstack, hrest⟩ := reachable_of_nextAll SimpleExecutor.capacity
    Future.burst (P := fun s₁ => Room SimpleExecutor.capacity s₁.shared.globalQueue ∧
      pends s₁.stack = true ∧
      (s₁.next SimpleExecutor.capacity Future.burst (.value 0)).any (fun s₂ =>
        (s₂.nextAll SimpleExecutor.capacity Future.burst
          (List.replicate 4 (.value 0))).any fun s₃ =>
          (s₃.next SimpleExecutor.capacity Future.burst (.value 0)).any fun s₄ =>
            s₃.shared.log = s₂.shared.log ++ s₃.shared.log.drop s₂.shared.log.length ∧
            polls (s₃.shared.log.drop s₂.shared.log.length) = [1, 2] ∧
            s₄.shared.log = s₃.shared.log ++ [.polled 0]) = true)
    (.code (.spawn (.yield 1) fun _ => .spawn (.yield 2) fun _ =>
      .blockOn (.value 3) fun _ => .ready 0) :: List.replicate 4 (.value 0)) (by decide)
  obtain ⟨s₂, h₁, hrest⟩ := (Option.any_eq_true ..).1 hrest
  obtain ⟨s₃, h₂, hrest⟩ := (Option.any_eq_true ..).1 hrest
  obtain ⟨s₄, h₃, hrest⟩ := (Option.any_eq_true ..).1 hrest
  obtain ⟨hl, hpolls, hpop⟩ := of_decide_eq_true hrest
  have hreq : s₁.Requeues SimpleExecutor.capacity 0 := by
    refine ⟨hroom, ?_⟩
    unfold pends at hstack
    split at hstack
    · next id ch u₀ u c pc fs hs =>
      cases eq_of_beq hstack
      exact ⟨id, u₀, u, c, pc, fs, hs⟩
    · cases hstack
  have hno : .polled 0 ∉ s₃.shared.log.drop s₂.shared.log.length := by
    rw [← mem_polls, hpolls]
    decide
  exact ⟨s₁, _, hpolls, (no_starvation.1 0 s₁ s₂ s₃ s₄ _ _ _ _ hr hreq (step_of_next h₁)
    (State.nextAll_run h₂) hl hno (step_of_next h₃) hpop).1⟩

end Luminal.NoStd
