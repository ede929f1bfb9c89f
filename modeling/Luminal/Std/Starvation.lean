import Luminal.Std.FairRuns
import Luminal.Std.Shutdown
import Mathlib.Order.WellFounded
import Mathlib.Data.Prod.Lex

/-!
# No task starves

In a fair and orderly run each worker drains its deque again and again, and goes back to the global
queue (`drains_often`, `steals_often`).  A queued task has a rank: where it lies and how many tasks
are before it (`Lies`).  Other tasks come after it, a thief takes from the front, and a batch goes
to a deque of larger index only, so no action raises the rank, and those two lower it.  So each
spawned task is polled again and again until it has finished (`polled_again`).
-/

namespace Luminal.Std

open Function Transition

variable {n m : Nat} {U V : Type} {poll : U → Burst U V}

/-! ## A worker's way through its loop -/

section Loop

variable {ρ : Forever n m poll} {t : ThreadId n m} {i : Fin n} {j k : Nat}
  {I Q : State n m U V → Prop}

/-- Nobody but the worker's own loop fills its deque. -/
theorem keptOutside_locals (i : Fin n) (c : Nat) :
    KeptOutside ρ (.inl i) fun s => (s.shared.locals i).length ≤ c := by
  intro j hle hloop
  obtain ⟨sh', fs', hs, hsucc⟩ := ρ.moved (t := (ρ.label j).1) rfl rfl
  obtain ⟨hother, hrun⟩ := threadStep_loops hs
  simp only [hsucc]
  by_cases ht : (ρ.label j).1 = .inl i
  · rcases hrun with ⟨l, rest, hfs⟩ | ⟨-, hlen⟩
    · exact absurd rfl (hloop ht _ rest (ht ▸ hfs)).1
    · exact (hlen i).trans hle
  · exact (hother i ht).trans hle

namespace OrderlyRun

variable (h : OrderlyRun ρ)

include h

/-- After a poll the thread is where it was. -/
theorem poll_returns {sh : Shared n U V} {task : Task U} {fs : List (Frame U V)}
    (hI : KeptOutside ρ t I) (hfs : (ρ.state k).threads t = (sh.beginPoll poll task).2 :: fs)
    (hI0 : I (ρ.state k)) : ρ.Eventually k fun s => s.threads t = fs ∧ I s := by
  obtain ⟨id, ⟨ch, u⟩ | _⟩ := task
  · exact (h.poll_ends hI hfs hI0).mono fun s hs => ⟨hs.1, hs.2.1⟩
  · exact h.steady.finished_ends hI hfs hI0

/-- What a worker's action in its loop does. -/
theorem loop_acted {l : RunLoop} (ht : (ρ.label j).1 = .inl i)
    (hfs : (ρ.state j).threads (.inl i) = [.run l]) {sh' : Shared n U V} {l' : RunLoop}
    {r : Option (Task U)}
    (hr : WorkerThread.step i (ρ.state j).shared l (ρ.label j).2.stolen = (sh', l', r)) :
    (ρ.state (j + 1)).shared = (execTook poll sh' (.run l') [] r).1 ∧
      (ρ.state (j + 1)).threads (.inl i) = (execTook poll sh' (.run l') [] r).2 := by
  obtain ⟨sh₁, fs₁, hexec, hstate⟩ := (ρ.next j).exists_exec
  rw [ht, hfs] at hexec
  have hshut : ¬ (l.pc = .top ∧ (ρ.state j).shared.shutdown = true) := by
    rintro ⟨-, hshut⟩
    rw [(h.quiet j).running] at hshut
    cases hshut
  have htook : some (execTook poll sh' (.run l') [] r) = some (sh₁, fs₁) := by
    rw [← hexec]
    refine Eq.trans ?_ (if_neg hshut).symm
    rw [hr]
  rw [hstate, Option.some.inj htook, ht]
  exact ⟨rfl, update_self ..⟩

/-- **A round of a worker**: an action of its loop, and the poll that it may start. -/
theorem of_loop_action {l : RunLoop} (hI : KeptOutside ρ (.inl i) I)
    (hfs : (ρ.state k).threads (.inl i) = [.run l]) (hI0 : I (ρ.state k))
    (hnext : ∀ (sh sh' : Shared n U V) l' r c j, k ≤ j → I (ρ.state j) →
      sh = (ρ.state j).shared → WorkerThread.step i sh l c = (sh', l', r) →
      ∀ j', j < j' → (ρ.state j').threads (.inl i) = [.run l'] →
        ((ρ.state j').shared.locals i).length ≤ (sh'.locals i).length → ρ.Eventually j' Q) :
    ρ.Eventually k Q := by
  obtain ⟨j, hj, ht, hfsj, hIj⟩ := h.steady.exists_loop_action hI hfs hI0
  rcases hr : WorkerThread.step i (ρ.state j).shared l (ρ.label j).2.stolen with ⟨sh', l', r⟩
  obtain ⟨hsh, hthreads⟩ := h.loop_acted ht hfsj hr
  have hafter : ρ.Eventually (j + 1) fun s => s.threads (.inl i) = [.run l'] ∧
      (s.shared.locals i).length ≤ (sh'.locals i).length := by
    cases r with
    | none => exact .now ⟨hthreads, by rw [hsh]; exact le_rfl⟩
    | some task =>
      refine h.poll_returns (keptOutside_locals i _) hthreads ?_
      rw [hsh]
      simp only [execTook, beginPoll_eq]
      exact le_rfl
  refine (hafter.trans fun j' hj' hs => ?_).later (Nat.le_succ_of_le hj)
  exact hnext _ sh' l' r _ j hj hIj rfl hr j' hj' hs.1 hs.2

/-- A worker gets back to the head of its loop. -/
theorem reaches_top (i : Fin n) (k : Nat) :
    ρ.Eventually k fun s => ∃ l, s.threads (.inl i) = [.run l] ∧ l.pc = .top := by
  refine (h.loop_resumes (i := i) keptOutside_true trivial).trans ?_
  rintro j - ⟨⟨l, hl⟩, -⟩
  refine Infinite.Eventually.of_rank wellFounded_lt (I := fun x s => ∃ l,
    s.threads (.inl i) = [.run l] ∧
      l.actions (stealers i).length (s.shared.locals i).length ≤ x) ?_ ⟨l, hl, le_rfl⟩
  rintro x j - ⟨l, hl, hle⟩
  by_cases hpc : l.pc = .top
  · exact .now (Or.inl ⟨l, hl, hpc⟩)
  refine h.of_loop_action (keptOutside_locals i _) hl le_rfl ?_
  intro sh sh' l' r c j' _ hlen hsh hr j'' _ hl' hlen'
  have hspend := (WorkerThread.step_spends hr hpc).2
  have hbefore := l.actions_mono hlen (stealers i).length
  have hafter := l'.actions_mono hlen' (stealers i).length
  subst hsh
  exact .now (Or.inr ⟨_, by omega, l', hl', le_rfl⟩)

/-- From the head of the loop a worker comes to its deque. -/
theorem top_drains {l : RunLoop} (hl : (ρ.state k).threads (.inl i) = [.run l])
    (hpc : l.pc = .top) :
    ρ.Eventually k fun s => (∃ l, s.threads (.inl i) = [.run l] ∧ l.pc = .drain ∧
        l.foundWork = false) ∧
      (s.shared.locals i).length ≤ ((ρ.state k).shared.locals i).length := by
  refine h.of_loop_action (keptOutside_locals i _) hl le_rfl ?_
  intro sh sh' l' r c j _ hlen hsh hr j' _ hl' hlen'
  obtain ⟨pc, found, idle⟩ := l
  obtain rfl : pc = .top := hpc
  cases hr
  subst hsh
  exact .now ⟨⟨_, hl', rfl, rfl⟩, hlen'.trans hlen⟩

/-- Once it has found work a worker drains its deque before it goes back to the head of its loop. -/
theorem drained_top {c : Nat} {l : RunLoop} (hl : (ρ.state k).threads (.inl i) = [.run l])
    (hpc : l.pc = .drain) (hfound : l.foundWork = true)
    (hlen : ((ρ.state k).shared.locals i).length ≤ c) :
    ρ.Eventually k fun s => (∃ l, s.threads (.inl i) = [.run l] ∧ l.pc = .top) ∧
      (s.shared.locals i).length ≤ c := by
  induction c using Nat.strongRecOn generalizing k l with
  | _ c ih =>
    refine h.of_loop_action (keptOutside_locals i _) hl hlen ?_
    intro sh sh' l₁ r _ j _ hlen₁ hsh hr j₁ _ hl₁ hlen₁'
    subst hsh
    cases hq : (ρ.state j).shared.locals i with
    | nil =>
      simp only [WorkerThread.step, hpc, hq, hfound] at hr
      cases hr
      refine h.of_loop_action (keptOutside_locals i _) hl₁ (hlen₁'.trans hlen₁) ?_
      intro sh sh' l₂ r _ j _ hlen₂ hsh hr j₂ _ hl₂ hlen₂'
      subst hsh
      cases hr
      exact .now ⟨⟨_, hl₂, rfl⟩, hlen₂'.trans hlen₂⟩
    | cons task q =>
      simp only [WorkerThread.step, hpc, hq] at hr
      cases hr
      simp only [update_self] at hlen₁'
      rw [hq, List.length_cons] at hlen₁
      refine (ih q.length (by omega) hl₁ rfl rfl hlen₁').mono ?_
      exact fun s hs => ⟨hs.1, by omega⟩

/-- **A worker gets to the global queue**: each time it does not, its deque has become shorter. -/
theorem reaches_steal (i : Fin n) (k : Nat) :
    ρ.Eventually k fun s => ∃ l, s.threads (.inl i) = [.run l] ∧ l.pc = .steal := by
  refine (h.reaches_top i k).trans ?_
  rintro j - ⟨l, hl, hpc⟩
  refine Infinite.Eventually.of_rank wellFounded_lt (I := fun c s => (∃ l,
    s.threads (.inl i) = [.run l] ∧ l.pc = .top) ∧ (s.shared.locals i).length ≤ c) ?_
    ⟨⟨l, hl, hpc⟩, le_rfl⟩
  rintro c j - ⟨⟨l, hl, hpc⟩, hlen⟩
  refine (h.top_drains hl hpc).trans ?_
  rintro j₁ - ⟨⟨l₁, hl₁, hpc₁, hfound⟩, hlen₁⟩
  refine h.of_loop_action (keptOutside_locals i _) hl₁ (hlen₁.trans hlen) ?_
  intro sh sh' l₂ r _ j _ hlen₂ hsh hr j₂ _ hl₂ hlen₂'
  subst hsh
  cases hq : (ρ.state j).shared.locals i with
  | nil =>
    simp only [WorkerThread.step, hpc₁, hq, hfound] at hr
    cases hr
    exact .now (Or.inl ⟨_, hl₂, rfl⟩)
  | cons task q =>
    simp only [WorkerThread.step, hpc₁, hq] at hr
    cases hr
    simp only [update_self] at hlen₂'
    rw [hq, List.length_cons] at hlen₂
    refine (h.drained_top hl₂ rfl rfl hlen₂').mono fun s hs => Or.inr ⟨q.length, ?_, hs⟩
    omega

/-- **A worker pops its deque again and again.** -/
theorem drains_often (i : Fin n) : ρ.Often fun s tc => tc.1 = .inl i ∧
    ∃ l, s.threads (.inl i) = [.run l] ∧ l.pc = .drain := by
  intro k
  obtain ⟨j₁, hj₁, l₁, hl₁, hpc₁⟩ := h.reaches_top i k
  obtain ⟨j₂, hj₂, ⟨l, hl, hpc, -⟩, -⟩ := h.top_drains hl₁ hpc₁
  obtain ⟨j, hj, ht, hfs, -⟩ := h.steady.exists_loop_action keptOutside_true hl trivial
  exact ⟨j, by omega, ht, l, hfs, hpc⟩

/-- **A worker takes from the global queue again and again**, if there is something. -/
theorem steals_often (i : Fin n) :
    ρ.Often fun s tc => s.Steals i tc ∧ ∃ b, tc.2.stolen = .batch b := by
  refine h.fair.steals i fun k => ?_
  obtain ⟨j₁, hj₁, l, hl, hpc⟩ := h.reaches_steal i k
  obtain ⟨j, hj, ht, hfs, -⟩ := h.steady.exists_loop_action keptOutside_true hl trivial
  exact ⟨j, by omega, ht, l, hfs, hpc⟩

end OrderlyRun

end Loop

/-! ## The rank of a queued task -/

/-- Task `p` has `x.2` tasks before it in the global queue (`x.1 = n`), or in a deque: the larger
its index, the smaller `x.1`. -/
def Lies (p : Task U) (x : Nat × Nat) (sh : Shared n U V) : Prop :=
  (x.1 = n ∧ sh.globalQueue[x.2]? = some p) ∨
    ∃ d : Fin n, x.1 + d + 1 = n ∧ (sh.locals d)[x.2]? = some p

/-- A smaller rank. -/
def Sooner : Nat × Nat → Nat × Nat → Prop := Prod.Lex (· < ·) (· < ·)

theorem Queues.lies {p : Task U} {sh : Shared n U V} (h : Queues sh p) : ∃ x, Lies p x sh := by
  rcases h with h | ⟨d, h⟩
  · obtain ⟨a, ha⟩ := List.getElem?_of_mem h
    exact ⟨(n, a), Or.inl ⟨rfl, ha⟩⟩
  · obtain ⟨a, ha⟩ := List.getElem?_of_mem h
    exact ⟨(n - (d + 1), a), Or.inr ⟨d, by simp only; omega, ha⟩⟩

section Ranks

variable {sh : Shared n U V} {p task : Task U} {x : Nat × Nat} {q : List (Task U)} {i d : Fin n}

theorem mem_take_or_drop {a : Nat} (h : q[a]? = some p) (k : Nat) :
    (q.take k)[a]? = some p ∨ (q.drop k)[a - k]? = some p ∧ k ≤ a := by
  by_cases hk : a < k
  · left
    rw [List.getElem?_take_of_lt hk]
    exact h
  · right
    rw [List.getElem?_drop]
    have : k + (a - k) = a := by omega
    rw [this]
    exact ⟨h, by omega⟩

/-- What lies in a deque lies there as before when tasks come after it. -/
theorem getElem?_append_of_some {l : List (Task U)} {a : Nat} (h : l[a]? = some p)
    (l' : List (Task U)) : (l ++ l')[a]? = some p := by
  rw [List.getElem?_append_left (List.getElem?_eq_some_iff.1 h).1]
  exact h

/-- A worker pops its own deque: all that lies there comes forward. -/
theorem Lies.pop (h : Lies p x sh) (hq : sh.locals i = task :: q) :
    p = task ∨ ∃ y, (y = x ∨ Sooner y x) ∧ (x.1 + i + 1 = n → Sooner y x) ∧
      Lies p y { sh with locals := update sh.locals i q } := by
  obtain ⟨a, b⟩ := x
  rcases h with ⟨ha, hb⟩ | ⟨d, ha, hb⟩
  · exact Or.inr ⟨(a, b), Or.inl rfl, fun hi => by simp only at ha hi; omega, Or.inl ⟨ha, hb⟩⟩
  · by_cases hd : d = i
    · subst hd
      rw [hq] at hb
      cases b with
      | zero =>
        cases hb
        exact Or.inl rfl
      | succ b =>
        have hlt : Sooner (a, b) (a, b + 1) := .right a (Nat.lt_succ_self b)
        refine Or.inr ⟨(a, b), Or.inr hlt, fun _ => hlt, Or.inr ⟨d, ha, ?_⟩⟩
        simp only [update_self]
        exact hb
    · refine Or.inr ⟨(a, b), Or.inl rfl, fun hi => absurd (Fin.ext ?_) hd, Or.inr ⟨d, ha, ?_⟩⟩
      · simp only at ha hi
        omega
      · simp only [update_of_ne hd]
        exact hb

/-- The front task leaves the global queue. -/
theorem Lies.steal (h : Lies p x sh) (hq : sh.globalQueue = task :: q) :
    p = task ∨ ∃ y, (y = x ∨ Sooner y x) ∧ Lies p y { sh with globalQueue := q } := by
  obtain ⟨a, b⟩ := x
  rcases h with ⟨ha, hb⟩ | hd
  · rw [hq] at hb
    cases b with
    | zero =>
      cases hb
      exact Or.inl rfl
    | succ b =>
      exact Or.inr ⟨(a, b), Or.inr (.right a (Nat.lt_succ_self b)), Or.inl ⟨ha, hb⟩⟩
  · exact Or.inr ⟨(a, b), Or.inl rfl, Or.inr hd⟩

/-- A batch from the global queue: all that lies there comes forward, or to the thief's deque. -/
theorem Lies.batch (h : Lies p x sh) (hq : sh.globalQueue = task :: q) (k : Nat) :
    p = task ∨ ∃ y, (y = x ∨ Sooner y x) ∧ (x.1 = n → Sooner y x) ∧
      Lies p y { sh with
        globalQueue := q.drop k
        locals := update sh.locals i (sh.locals i ++ q.take k) } := by
  obtain ⟨a, b⟩ := x
  rcases h with ⟨rfl, hb⟩ | ⟨d, ha, hb⟩
  · rw [hq] at hb
    cases b with
    | zero =>
      cases hb
      exact Or.inl rfl
    | succ b =>
      right
      rcases mem_take_or_drop (q := q) hb k with htake | ⟨hdrop, hle⟩
      · have hlt : Sooner (a - (i + 1), (sh.locals i).length + b) (a, b + 1) :=
          .left _ _ (by have := i.isLt; omega)
        refine ⟨_, Or.inr hlt, fun _ => hlt, Or.inr ⟨i, by have := i.isLt; simp only; omega, ?_⟩⟩
        simp only [update_self]
        rw [List.getElem?_append_right (Nat.le_add_right _ _), Nat.add_sub_cancel_left]
        exact htake
      · have hlt : Sooner (a, b - k) (a, b + 1) := .right a (by omega)
        exact ⟨_, Or.inr hlt, fun _ => hlt, Or.inl ⟨rfl, hdrop⟩⟩
  · refine Or.inr ⟨(a, b), Or.inl rfl, fun hn => by simp only at ha hn; omega, Or.inr ⟨d, ha, ?_⟩⟩
    by_cases hd : d = i
    · subst hd
      simp only [update_self]
      exact getElem?_append_of_some hb _
    · simp only [update_of_ne hd]
      exact hb

/-- A steal from a deque of smaller index. -/
theorem Lies.peer (h : Lies p x sh) (hq : sh.locals d = task :: q) (hd : d < i) (k : Nat) :
    p = task ∨ ∃ y, (y = x ∨ Sooner y x) ∧
      Lies p y { sh with
        locals := update (update sh.locals d (q.drop k)) i (sh.locals i ++ q.take k) } := by
  obtain ⟨a, b⟩ := x
  rcases h with ⟨rfl, hb⟩ | ⟨e, ha, hb⟩
  · exact Or.inr ⟨(a, b), Or.inl rfl, Or.inl ⟨rfl, hb⟩⟩
  by_cases hei : e = i
  · subst hei
    refine Or.inr ⟨(a, b), Or.inl rfl, Or.inr ⟨e, ha, ?_⟩⟩
    simp only [update_self]
    exact getElem?_append_of_some hb _
  by_cases hed : e = d
  · subst hed
    rw [hq] at hb
    cases b with
    | zero =>
      cases hb
      exact Or.inl rfl
    | succ b =>
      right
      rcases mem_take_or_drop (q := q) hb k with htake | ⟨hdrop, hle⟩
      · have hlt : Sooner (n - (i + 1), (sh.locals i).length + b) (a, b + 1) :=
          .left _ _ (by simp only at ha; have := Fin.lt_def.1 hd; have := i.isLt; omega)
        refine ⟨_, Or.inr hlt, Or.inr ⟨i, by have := i.isLt; simp only; omega, ?_⟩⟩
        simp only [update_self]
        rw [List.getElem?_append_right (Nat.le_add_right _ _), Nat.add_sub_cancel_left]
        exact htake
      · have hlt : Sooner (a, b - k) (a, b + 1) := .right a (by omega)
        refine ⟨_, Or.inr hlt, Or.inr ⟨e, ha, ?_⟩⟩
        simp only [update_of_ne hei, update_self]
        exact hdrop
  · refine Or.inr ⟨(a, b), Or.inl rfl, Or.inr ⟨e, ha, ?_⟩⟩
    simp only [update_of_ne hei, update_of_ne hed]
    exact hb

/-- **However a worker comes by a task**, what stays queued does not fall back. -/
theorem Took.lies {sh' : Shared n U V} {pc : RunPc} (h : Took i sh pc task sh')
    (hx : Lies p x sh) : p = task ∨ ∃ y, (y = x ∨ Sooner y x) ∧ Lies p y sh' := by
  cases h with
  | pop q _ hq => exact (hx.pop hq).imp id fun ⟨y, hy, _, hl⟩ => ⟨y, hy, hl⟩
  | batch k q _ hq => exact (hx.batch hq k).imp id fun ⟨y, hy, _, hl⟩ => ⟨y, hy, hl⟩
  | steal q _ hq => exact hx.steal hq
  | peerBatch d k q hd hq => exact hx.peer hq hd k
  | peer d q hd hq =>
    have hlies := hx.peer (i := i) hq hd 0
    rw [List.take_zero, List.append_nil, List.drop_zero] at hlies
    have hsame : sh.locals i = update sh.locals d q i := by rw [update_of_ne (ne_of_gt hd)]
    rw [hsame, update_eq_self] at hlies
    exact hlies

/-- **No action makes a queued task fall back**, as long as nothing unwinds and the executor is not
dropped; an action that takes it out polls it. -/
theorem threadStep_lies {sh' : Shared n U V} {t : ThreadId n m} {fs fs' : List (Frame U V)}
    (h : ThreadStep poll sh t fs sh' fs') (hlive : ∀ i, sh'.live i = true)
    (hquiet : ∀ f ∈ fs, f ≠ .result none ∧ ∀ j, f ≠ .dropInner j) (hx : Lies p x sh) :
    (∃ sh₀ : Shared n U V, ∃ fs₁, fs' = (sh₀.beginPoll poll p).2 :: fs₁ ∧
        sh'.log = sh.log ++ p.ch?.toList.map .polled) ∨
      ∃ y, (y = x ∨ Sooner y x) ∧ Lies p y sh' := by
  have hgone : ∀ i : Fin n, (sh.dropWorker i).live i = false := by
    intro i
    simp [Shared.dropWorker, Shared.destroy]
  have hpush : ∀ {q : List (Task U)}, sh'.globalQueue = sh.globalQueue ++ q →
      sh'.locals = sh.locals → ∃ y, (y = x ∨ Sooner y x) ∧ Lies p y sh' := by
    intro q hg hl
    refine ⟨x, Or.inl rfl, ?_⟩
    rcases hx with ⟨ha, hb⟩ | hd
    · refine Or.inl ⟨ha, ?_⟩
      rw [hg]
      exact getElem?_append_of_some hb q
    · refine Or.inr ?_
      rw [hl]
      exact hd
  cases h with
  | exit i l =>
    have hi := hlive i
    rw [hgone i] at hi
    cases hi
  | unwindRun | unwindLast => exact absurd rfl (hquiet _ List.mem_cons_self).1
  | dropSignal | dropJoin | dropSelf | dropQueue =>
    exact absurd rfl ((hquiet _ List.mem_cons_self).2 _)
  | pollHandle task c k fs _ =>
    rw [pollHandle_eq]
    exact Or.inr ⟨x, Or.inl rfl, hx⟩
  | requeue left owned fs => exact Or.inr (hpush rfl rfl)
  | spawned task c fs | startBlockOn task c fs => exact Or.inr (hpush rfl rfl)
  | help c l ch' sh' l' fs _ hh =>
    rw [Executor.help_none hh]
    exact Or.inr ⟨x, Or.inl rfl, hx⟩
  | helpTask c l ch' sh₁ l' task fs hh =>
    obtain ⟨q, hq, rfl⟩ := Executor.help_some hh
    rw [beginPoll_eq]
    rcases hx.steal hq with rfl | ⟨y, hy, hl⟩
    · exact Or.inl ⟨_, _, rfl, rfl⟩
    · exact Or.inr ⟨y, hy, hl⟩
  | run i l c sh' l' fs _ _ hh =>
    rw [WorkerThread.step_none hh]
    exact Or.inr ⟨x, Or.inl rfl, hx⟩
  | runTask i l c sh₁ l' task fs _ hh =>
    have htook := WorkerThread.step_some hh
    rw [beginPoll_eq]
    rcases htook.lies hx with rfl | ⟨y, hy, hl⟩
    · refine Or.inl ⟨_, _, rfl, ?_⟩
      rw [htook.eq]
    · exact Or.inr ⟨y, hy, hl⟩
  | _ => exact Or.inr ⟨x, Or.inl rfl, hx⟩

end Ranks

/-! ## Fair runs -/

/-- How often task `ch` has been polled. -/
def polls (ch : Nat) (log : List (Event U V)) : Nat :=
  log.countP fun
    | .polled c => c = ch
    | _ => false

theorem polls_append (ch : Nat) (l l' : List (Event U V)) :
    polls ch (l ++ l') = polls ch l + polls ch l' := by
  simp [polls]

theorem polls_polled {p : Task U} {ch : Nat} (hch : p.ch? = some ch) :
    polls ch (p.ch?.toList.map .polled : List (Event U V)) = 1 := by
  simp [polls, hch]

theorem Forever.polls_mono (ρ : Forever n m poll) (ch : Nat) {j k : Nat} (h : j ≤ k) :
    polls ch (ρ.state j).shared.log ≤ polls ch (ρ.state k).shared.log := by
  obtain ⟨l, hl⟩ := ρ.log_mono h
  rw [← hl, polls_append]
  omega

/-- A poll of task `p` has just begun, and there have been more than `c` of its polls. -/
def State.Begun (poll : U → Burst U V) (p : Task U) (ch c : Nat) (s : State n m U V) : Prop :=
  (∃ t, ∃ sh₀ : Shared n U V, ∃ fs, s.threads t = (sh₀.beginPoll poll p).2 :: fs) ∧
    c < polls ch s.shared.log

namespace OrderlyRun

variable {ρ : Forever n m poll} (h : OrderlyRun ρ) {p : Task U} {ch j k : Nat} {x : Nat × Nat}

include h

/-- A step of an orderly run. -/
theorem step_lies (hch : p.ch? = some ch) (hx : Lies p x (ρ.state j).shared) :
    (ρ.state (j + 1)).Begun poll p ch (polls ch (ρ.state j).shared.log) ∨
      ∃ y, (y = x ∨ Sooner y x) ∧ Lies p y (ρ.state (j + 1)).shared := by
  obtain ⟨sh', fs', hs, hsucc⟩ := ρ.moved (t := (ρ.label j).1) rfl rfl
  have hlive : ∀ i, sh'.live i = true := fun i => by
    have := h.live (j + 1) i
    rwa [hsucc] at this
  rcases threadStep_lies hs hlive ((h.quiet j).frames _) hx with ⟨sh₀, fs₁, rfl, hlog⟩ | hy
  · refine Or.inl ⟨⟨(ρ.label j).1, sh₀, fs₁, ?_⟩, ?_⟩
    · rw [hsucc]
      exact update_self ..
    · rw [hsucc, hlog, polls_append, hch]
      simp [polls]
  · rw [hsucc]
    exact Or.inr hy

/-- A step that takes tasks from where `p` lies polls it or brings it forward. -/
theorem step_sooner (hch : p.ch? = some ch) (hx : Lies p x (ρ.state j).shared) {i : Fin n}
    (ht : (ρ.label j).1 = .inl i) {l : RunLoop} (hl : (ρ.state j).threads (.inl i) = [.run l])
    (hact : (x.1 = n ∧ l.pc = .steal ∧ ∃ b, (ρ.label j).2.stolen = .batch b) ∨
      (x.1 + i + 1 = n ∧ l.pc = .drain)) :
    (ρ.state (j + 1)).Begun poll p ch (polls ch (ρ.state j).shared.log) ∨
      ∃ y, Sooner y x ∧ Lies p y (ρ.state (j + 1)).shared := by
  -- the worker takes the task in front, and the others come forward
  have htakes : ∀ sh' l' task, WorkerThread.step i (ρ.state j).shared l (ρ.label j).2.stolen =
      (sh', l', some task) → (p = task ∨ ∃ y, Sooner y x ∧ Lies p y sh') →
      (ρ.state (j + 1)).Begun poll p ch (polls ch (ρ.state j).shared.log) ∨
        ∃ y, Sooner y x ∧ Lies p y (ρ.state (j + 1)).shared := by
    intro sh' l' task hr hcase
    obtain ⟨hsh, hthreads⟩ := h.loop_acted ht hl hr
    rw [hsh]
    simp only [execTook, beginPoll_eq]
    have hlog : sh'.log = (ρ.state j).shared.log := by rw [(WorkerThread.step_some hr).eq]
    rcases hcase with rfl | ⟨y, hy, hly⟩
    · refine Or.inl ⟨⟨_, sh', _, hthreads⟩, ?_⟩
      rw [hsh]
      simp only [execTook, beginPoll_eq, hlog, polls_append, polls_polled hch]
      exact Nat.lt_succ_self _
    · exact Or.inr ⟨y, hy, hly⟩
  rcases hact with ⟨hn, hpc, b, hb⟩ | ⟨hi, hpc⟩
  · cases hq : (ρ.state j).shared.globalQueue with
    | nil =>
      rcases hx with ⟨-, hx⟩ | ⟨d, hd, -⟩
      · rw [hq] at hx
        cases hx
      · omega
    | cons task q =>
      refine htakes _ _ task (by simp only [WorkerThread.step, hpc, hb, hq]; rfl) ?_
      rcases hx.batch hq b with heq | ⟨y, -, hy, hly⟩
      · exact Or.inl heq
      · exact Or.inr ⟨y, hy hn, hly⟩
  · cases hq : (ρ.state j).shared.locals i with
    | nil =>
      rcases hx with ⟨hn, -⟩ | ⟨d, hd, hx⟩
      · omega
      · obtain rfl : d = i := Fin.ext (by omega)
        rw [hq] at hx
        cases hx
    | cons task q =>
      refine htakes _ _ task (by simp only [WorkerThread.step, hpc, hq]; rfl) ?_
      rcases hx.pop hq with heq | ⟨y, -, hy, hly⟩
      · exact Or.inl heq
      · exact Or.inr ⟨y, hy hi, hly⟩

/-- **A queued task is polled**, with at least one worker. -/
theorem queued_polled (hn : 0 < n) (hch : p.ch? = some ch) (hq : Queues (ρ.state k).shared p) :
    ρ.Eventually k fun s => s.Begun poll p ch (polls ch (ρ.state k).shared.log) := by
  obtain ⟨x, hx⟩ := hq.lies
  refine Infinite.Eventually.of_rank (wellFounded_lt.prod_lex wellFounded_lt)
    (I := fun x s => Lies p x s.shared) ?_ hx
  intro x j hj hx
  by_contra hnever
  have hstay : ∀ i, j ≤ i → Lies p x (ρ.state i).shared := by
    intro i hi
    refine Infinite.holds_from (ρ := ρ) (P := fun s => Lies p x s.shared) hx (fun i hi hxi => ?_) hi
    rcases h.step_lies hch hxi with hbegun | ⟨y, rfl | hy, hly⟩
    · refine absurd ⟨i + 1, by omega, Or.inl ⟨hbegun.1, ?_⟩⟩ hnever
      exact (ρ.polls_mono ch (by omega)).trans_lt hbegun.2
    · exact hly
    · exact absurd ⟨i + 1, by omega, Or.inr ⟨y, hy, hly⟩⟩ hnever
  -- somebody takes from where the task lies
  obtain ⟨i, hi, d, l, ht, hl, hact⟩ : ∃ i, j ≤ i ∧ ∃ (d : Fin n) (l : RunLoop),
      (ρ.label i).1 = .inl d ∧ (ρ.state i).threads (.inl d) = [.run l] ∧
      ((x.1 = n ∧ l.pc = .steal ∧ ∃ b, (ρ.label i).2.stolen = .batch b) ∨
        (x.1 + d + 1 = n ∧ l.pc = .drain)) := by
    rcases hx with ⟨hx, -⟩ | ⟨d, hd, -⟩
    · obtain ⟨i, hi, ⟨ht, l, hl, hpc⟩, hb⟩ := h.steals_often ⟨0, hn⟩ j
      exact ⟨i, hi, _, l, ht, hl, Or.inl ⟨hx, hpc, hb⟩⟩
    · obtain ⟨i, hi, ht, l, hl, hpc⟩ := h.drains_often d j
      exact ⟨i, hi, d, l, ht, hl, Or.inr ⟨hd, hpc⟩⟩
  rcases h.step_sooner hch (hstay i hi) ht hl hact with hbegun | ⟨y, hy, hly⟩
  · refine absurd ⟨i + 1, by omega, Or.inl ⟨hbegun.1, ?_⟩⟩ hnever
    exact (ρ.polls_mono ch (by omega)).trans_lt hbegun.2
  · exact absurd ⟨i + 1, by omega, Or.inr ⟨y, hy, hly⟩⟩ hnever

end OrderlyRun

/-- The task of spawn `ch` is queued, or has finished. -/
def State.Back (ch : Nat) (s : State n m U V) : Prop :=
  (∃ p, Queues s.shared p ∧ p.ch? = some ch) ∨ .ready ch ∈ s.shared.log

theorem Ended.back {b : Burst U V} {id : TaskId} {ch : Nat} {s : State n m U V}
    (h : Ended b id ch s) : s.Back ch := by
  rcases h with ⟨u, -, hq⟩ | ⟨v, -, -, hready⟩
  · exact Or.inl ⟨_, Or.inl hq, rfl⟩
  · exact Or.inr hready

theorem exists_of_queued_pos {ch : Nat} {sh : Shared n U V} (hq : 0 < queued ch sh) :
    ∃ p, Queues sh p ∧ p.ch? = some ch := by
  unfold queued at hq
  by_cases hg : 0 < occ ch sh.globalQueue
  · obtain ⟨p, hp, hc⟩ := (occ_pos_iff ch _).1 hg
    exact ⟨p, Or.inl hp, hc⟩
  · obtain ⟨i, hi⟩ := exists_of_tally_pos (occ ch) sh.locals (by omega)
    obtain ⟨p, hp, hc⟩ := (occ_pos_iff ch _).1 hi
    exact ⟨p, Or.inr ⟨i, hp⟩, hc⟩

/-- In an orderly run no task is below a loop. -/
theorem Loops.idle_below {worker : Bool} {fs : List (Frame U V)} (hl : Loops worker fs)
    (hf : ∀ f ∈ fs, f.Flat) {f : Frame U V} (hmem : f ∈ fs) (ch : Nat) :
    f.running ch + f.closing ch = 0 := by
  cases hl with
  | run l _ =>
    cases List.mem_singleton.1 hmem
    rfl
  | blockOn c l k hb =>
    cases hb with
    | thread _ =>
      rcases List.mem_cons.1 hmem with rfl | hmem
      · rfl
      · cases List.mem_singleton.1 hmem
        rfl
    | poll id d u _ => exact (hf _ (List.mem_cons_of_mem _ List.mem_cons_self)).elim

namespace OrderlyRun

variable {ρ : Forever n m poll} (h : OrderlyRun ρ) {t : ThreadId n m} {f : Frame U V}
  {ch j k : Nat} {u : U}

include h

/-- A poll of a task comes to an end, whatever stage it is at. -/
theorem polled_back (hf : f ∈ (ρ.state k).threads t) (hch : 0 < f.running ch + f.closing ch) :
    ρ.Eventually k (State.Back ch) := by
  have hflat := h.flat k t
  generalize hfs : (ρ.state k).threads t = fs at hf hflat
  have hs : Stacked n t.isLeft fs := hfs ▸ stacked_reachable (h.reachable k) t
  -- the task is not below a loop
  have hloop : ∀ gs, Loops t.isLeft gs → (∀ g ∈ gs, g ∈ fs) → f ∉ gs := by
    intro gs hl hsub hmem
    have := hl.idle_below (fun g hg => hflat g (hsub g hg)) hmem ch
    omega
  have hcode : ∀ {b : Burst U V} {task : Option (Task U)} {k : Nat} {gs : List (Frame U V)},
      (ρ.state k).threads t = .user task (.run b) :: gs → Below t.isLeft task gs →
      (∀ g ∈ gs, g ∈ fs) → f ∈ .user task (.run b) :: gs → ρ.Eventually k (State.Back ch) := by
    intro b task k gs hfs hb hsub hmem
    cases hb with
    | thread _ =>
      cases List.mem_singleton.1 hmem
      exact absurd hch (Nat.lt_irrefl 0)
    | poll id c w hl =>
      obtain rfl := (List.mem_cons.1 hmem).resolve_right (hloop gs hl hsub)
      have hc : c = ch := by
        by_contra hne
        simp [Frame.running, Frame.closing, hne] at hch
      subst hc
      exact (h.poll_ends keptOutside_true hfs trivial).mono fun s hs => hs.2.2.back
  have htail : ∀ {g : Frame U V} {gs : List (Frame U V)}, fs = g :: gs → ∀ g' ∈ gs, g' ∈ fs := by
    rintro g gs rfl
    exact fun g' hg' => List.mem_cons_of_mem g hg'
  cases hs with
  | dead _ => cases hf
  | idle _ =>
    cases List.mem_singleton.1 hf
    exact absurd hch (Nat.lt_irrefl 0)
  | code b hb => exact hcode hfs hb (htail rfl) hf
  | sent id c w hl =>
    obtain rfl := (List.mem_cons.1 hf).resolve_right (hloop _ hl (htail rfl))
    have hc : c = ch := by
      by_contra hne
      simp [Frame.running, Frame.closing, hne] at hch
    subst hc
    exact (h.steady.sent_ends keptOutside_true hfs trivial).mono fun s hs => Or.inr hs.2.2
  | finished hl =>
    obtain rfl := (List.mem_cons.1 hf).resolve_right (hloop _ hl (htail rfl))
    exact absurd hch (Nat.lt_irrefl 0)
  | requeue left owned hl =>
    obtain rfl := (List.mem_cons.1 hf).resolve_right (hloop _ hl (htail rfl))
    have hproper := (accounted_reachable (h.reachable k)).proper t (.requeue left owned)
      (hfs ▸ List.mem_cons_self)
    have hc : owned.ch? = some ch := by
      rw [← isOf_pos_iff]
      have hleft : occ ch left.toList = 0 := by
        cases left with
        | none => rfl
        | some p => simp [Task.isOf, hproper.1 p rfl]
      simp only [Frame.running, Frame.closing, hleft] at hch
      omega
    exact (h.steady.requeue_ends keptOutside_true hfs trivial).mono fun s hs =>
      Or.inl ⟨owned, Or.inl hs.2.2, hc⟩
  | spawn p c b hb =>
    have hne : f ≠ .spawn p c false := by
      rintro rfl
      exact absurd hch (Nat.lt_irrefl 0)
    have hmem := (List.mem_cons.1 hf).resolve_left hne
    refine h.steady.of_action keptOutside_true hfs trivial trivial
      fun j sh' fs' _ hs _ hfs' _ => ?_
    cases hs with
    | spawned =>
      exact hcode hfs' hb (fun g hg => htail rfl g (List.mem_cons_of_mem _ hg)) hmem
  | spawnBlocking p c b hb =>
    cases hb with
    | thread _ =>
      simp only [List.mem_cons, List.not_mem_nil, or_false] at hf
      rcases hf with rfl | rfl <;> exact absurd hch (Nat.lt_irrefl 0)
    | poll id d w _ => exact (hflat _ (List.mem_cons_of_mem _ List.mem_cons_self)).elim
  | loop hl => exact absurd hf (hloop _ hl fun _ hg => hg)
  | returns r b hb =>
    cases hb with
    | thread _ =>
      simp only [List.mem_cons, List.not_mem_nil, or_false] at hf
      rcases hf with rfl | rfl <;> exact absurd hch (Nat.lt_irrefl 0)
    | poll id d w _ => exact (hflat _ (List.mem_cons_of_mem _ List.mem_cons_self)).elim
  | unwinds hl =>
    have hmem : .result none ∈ (ρ.state k).threads t := hfs ▸ List.mem_cons_self
    exact absurd rfl ((h.quiet k).frames _ _ hmem).1
  | drop joined _ _ _ | dropUnwinding joined _ _ _ =>
    have hmem : .dropInner joined ∈ (ρ.state k).threads t := hfs ▸ List.mem_cons_self
    exact absurd rfl (((h.quiet k).frames _ _ hmem).2 joined)

/-- A spawned task is back in a queue, or has finished. -/
theorem spawned_back (hs : .spawned ch u ∈ (ρ.state k).shared.log) :
    ρ.Eventually k (State.Back ch) := by
  have hcount := (accounted_reachable (h.reachable k)).count ch
  have hpos := (pushes_pos_iff ch _).2 ⟨u, hs⟩
  have hlost := (h.quiet k).lost ch
  have hcensus : ∀ w : Frame U V → Nat, 0 < census w (ρ.state k) →
      ∃ t, ∃ f ∈ (ρ.state k).threads t, 0 < w f := by
    intro w hw
    obtain ⟨t, ht⟩ := exists_of_tally_pos _ _ hw
    exact ⟨t, exists_of_weigh_pos w ht⟩
  by_cases hq : 0 < queued ch (ρ.state k).shared
  · exact .now (Or.inl (exists_of_queued_pos hq))
  by_cases hr : 0 < census (Frame.running ch) (ρ.state k)
  · obtain ⟨t, f, hf, hw⟩ := hcensus _ hr
    exact h.polled_back hf (by omega)
  by_cases hc : 0 < census (Frame.closing ch) (ρ.state k)
  · obtain ⟨t, f, hf, hw⟩ := hcensus _ hc
    exact h.polled_back hf (by omega)
  · exact .now (Or.inr ((readies_pos_iff ch _).1 (by omega)))

/-- **No task starves**: in every fair and orderly run with a worker, a spawned task finishes or is
polled again and again, whatever the other tasks do and however they are moved about. -/
theorem polled_again (hn : 0 < n) (hs : .spawned ch u ∈ (ρ.state k).shared.log) :
    (∃ j, k ≤ j ∧ .ready ch ∈ (ρ.state j).shared.log) ∨
      ∀ c, ∃ j, k ≤ j ∧ c ≤ polls ch (ρ.state j).shared.log := by
  by_cases hready : ∃ j, k ≤ j ∧ .ready ch ∈ (ρ.state j).shared.log
  · exact Or.inl hready
  refine Or.inr fun c => ?_
  induction c with
  | zero => exact ⟨k, le_rfl, Nat.zero_le _⟩
  | succ c ih =>
    obtain ⟨j, hj, hc⟩ := ih
    obtain ⟨i, hi, ⟨p, hp, hch⟩ | hr⟩ := h.spawned_back ((ρ.log_mono hj).subset hs)
    · obtain ⟨i', hi', -, hlt⟩ := h.queued_polled hn hch hp
      have := ρ.polls_mono ch hi
      exact ⟨i', by omega, by omega⟩
    · exact absurd ⟨i, by omega, hr⟩ hready

end OrderlyRun

/-- A task that is never done. -/
def Sample.restless (_ : Unit) : Burst Unit Nat := .pending ()

/-- A worker alone with a task that is never done, on its way around its loop. -/
inductive Turning (p : Task Unit) : List (Task Unit) → List (Frame Unit Nat) → Prop
  | loop (l : RunLoop) : l.pc = .top ∨ (l.pc = .drain ∧ l.foundWork = false) ∨ l.pc = .steal ∨
      l.pc = .backoff → Turning p [p] [.run l]
  | polled (l : RunLoop) : l.pc = .backoff →
      Turning p [] [.user (some p) (.run (.pending ())), .run l]
  | requeued (left : Option (Task Unit)) (l : RunLoop) : l.pc = .backoff →
      Turning p [] [.requeue left p, .run l]

/-- The other thread has nothing to do. -/
structure Restless (p : Task Unit) (s : State 1 1 Unit Nat) : Prop where
  turning : Turning p s.shared.globalQueue (s.threads (.inl 0))
  locals : s.shared.locals 0 = []
  shutdown : s.shared.shutdown = false
  idle : s.threads (.inr 0) = [.user none .idle]

section Restless

variable {id : TaskId} {ch : Nat} {s : State 1 1 Unit Nat}

theorem Restless.top (h : Restless ⟨id, .wrapped ch ()⟩ s) {t : ThreadId 1 1} {task b fs}
    (hfs : s.threads t = .user task (.run b) :: fs) : b = .pending () := by
  have hturn := h.turning
  rcases t with i | i <;> obtain rfl := Subsingleton.elim i 0
  · rw [hfs] at hturn
    generalize s.shared.globalQueue = q at hturn
    cases hturn
    rfl
  · rw [h.idle] at hfs
    cases hfs

theorem Restless.orderly (h : Restless ⟨id, .wrapped ch ()⟩ s) : s.Orderly := by
  have hlast : ∀ t, ¬ s.DropsLast t := by
    rintro t ⟨-, task, k, fs, hfs⟩
    cases h.top hfs
  refine ⟨fun t => ⟨?_, hlast t⟩, ?_, ?_⟩
  · rintro ⟨task, fs, hfs⟩
    cases h.top hfs
  · rintro t ⟨task, u, k, fs, hfs⟩
    cases h.top hfs
  · rintro t (⟨task, b, fs, hfs, hb⟩ | ⟨hdrop, -⟩)
    · cases h.top hfs
      exact hb
    · exact hlast t hdrop

/-- The worker goes on, without contention, and the task is pending again. -/
theorem Restless.next (h : Restless ⟨id, .wrapped ch ()⟩ s) :
    ∃ tc s', tc = (.inl 0, .steal (.batch 0)) ∧ Chosen Sample.restless s tc s' ∧
      Restless ⟨id, .wrapped ch ()⟩ s' := by
  have hgo : ∀ sh' fs', exec Sample.restless s.shared (.inl 0 : ThreadId 1 1) (.steal (.batch 0))
      (s.threads (.inl 0)) = some (sh', fs') →
      Turning ⟨id, .wrapped ch ()⟩ sh'.globalQueue fs' → sh'.locals 0 = [] →
      sh'.shutdown = false → sh'.owners = s.shared.owners →
      ∃ tc s', tc = (.inl 0, .steal (.batch 0)) ∧
        Chosen Sample.restless s tc s' ∧ Restless ⟨id, .wrapped ch ()⟩ s' := by
    intro sh' fs' hexec hturn hlocals hshut howners
    refine ⟨_, ⟨sh', update s.threads (.inl 0) fs'⟩, rfl, .of_exec hexec fun hpos hzero => ?_, ?_,
      hlocals, hshut, ?_⟩
    · exact absurd (howners.symm.trans hzero) hpos.ne'
    · simp only [update_self]
      exact hturn
    · simpa using h.idle
  have hturn := h.turning
  have hl := h.locals
  have hs := h.shutdown
  obtain ⟨sh, threads⟩ := s
  simp only at hturn hl hs hgo
  generalize hq : sh.globalQueue = q at hturn
  generalize threads (.inl 0) = fs at hturn hgo
  cases hturn with
  | loop l hpc =>
    obtain ⟨pc, found, idle⟩ := l
    rcases hpc with hpc | ⟨hpc, hfound⟩ | hpc | hpc
    · obtain rfl : pc = .top := hpc
      refine hgo sh [.run ⟨.drain, false, idle⟩] ?_ ?_ hl hs rfl
      · simp [exec, execRun, WorkerThread.step, execTook, hs]
      · rw [hq]
        exact .loop _ (Or.inr (Or.inl ⟨rfl, rfl⟩))
    · obtain rfl : pc = .drain := hpc
      obtain rfl : found = false := hfound
      refine hgo sh [.run ⟨.steal, false, idle⟩] ?_ ?_ hl hs rfl
      · simp [exec, execRun, WorkerThread.step, execTook, hl]
      · rw [hq]
        exact .loop _ (Or.inr (Or.inr (Or.inl rfl)))
    · obtain rfl : pc = .steal := hpc
      refine hgo { sh with
          globalQueue := []
          locals := update sh.locals 0 (sh.locals 0 ++ [])
          log := sh.log ++ [.polled ch] }
        [.user (some ⟨id, .wrapped ch ()⟩) (.run (.pending ())), .run ⟨.backoff, true, idle⟩]
        ?_ (.polled _ rfl) ?_ hs rfl
      · simp [exec, execRun, WorkerThread.step, execTook, hq, Choice.stolen, Shared.beginPoll,
          Sample.restless]
      · simpa using hl
    · obtain rfl : pc = .backoff := hpc
      refine hgo sh [.run ⟨.top, found, if found then idle else idle + 1⟩] ?_ ?_ hl hs rfl
      · simp [exec, execRun, WorkerThread.step, execTook]
      · rw [hq]
        exact .loop _ (Or.inl rfl)
  | polled l hpc =>
    refine hgo _ [.requeue _ _, .run l] rfl ?_ hl hs rfl
    rw [hq]
    exact .requeued _ l hpc
  | requeued left l hpc =>
    refine hgo _ [.run l] rfl ?_ hl hs rfl
    simp only [Shared.pushPending, hq, List.nil_append]
    exact .loop l (Or.inr (Or.inr (Or.inr hpc)))

end Restless

/-- A worker alone with a task that is never done polls it for ever. -/
theorem OrderlyRun.polled_again_restless : ∃ ρ : Forever 1 1 Sample.restless, OrderlyRun ρ ∧
    ((∃ j, 0 ≤ j ∧ .ready 0 ∈ (ρ.state j).shared.log) ∨
      ∀ c, ∃ j, 0 ≤ j ∧ c ≤ polls 0 (ρ.state j).shared.log) := by
  obtain ⟨s, hs, hrest, hspawned⟩ : ∃ s, ((State.init 1 1 Unit Nat).execAll (fun s _ => s.Orderly)
      Sample.restless ((.inr 0, .code (.spawn () fun _ => .ready 0)) ::
        turns (.inr 0) 3 (.answer 0))) = some s ∧ Restless ⟨1, .wrapped 0 ()⟩ s ∧
        .spawned 0 () ∈ s.shared.log := by
    refine ⟨_, rfl, ⟨?_, rfl, rfl, rfl⟩, ?_⟩
    · exact .loop _ (Or.inl rfl)
    · decide
  obtain ⟨ρ, rfl, hρ⟩ := Infinite.exists_of_loop (Chosen Sample.restless)
    (J := Restless ⟨1, .wrapped 0 ()⟩) (L := fun tc => tc = (.inl 0, .steal (.batch 0)))
    (fun a ha => Restless.next ha) hrest
  have hrun : OrderlyRun ρ := by
    refine ⟨⟨_, State.execAll_run _ hs⟩, fun k => (hρ k).1.orderly, ⟨fun t k hob => ?_, ?_⟩⟩
    · rcases t with i | i <;> obtain rfl := Subsingleton.elim i 0
      · exact ⟨k, le_rfl, by rw [(hρ k).2]⟩
      · exact absurd (Or.inr (hρ k).1.idle) (hob k le_rfl).1
    · intro i hoften k
      obtain ⟨j, hj, hsteals⟩ := hoften k
      exact ⟨j, hj, hsteals, 0, by rw [(hρ j).2]; rfl⟩
  exact ⟨ρ, hrun, hrun.polled_again Nat.one_pos hspawned⟩

end Luminal.Std
