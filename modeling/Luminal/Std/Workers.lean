import Luminal.Std.Frames
import Luminal.Std.Handles

/-!
# Which tasks a worker can still reach

A task batch-stolen into a local deque can be taken by its worker and by the workers built
after it (`mem_stealers`), from their own loops only.  So a task is cut off when all of
these are dead, or suspended below a `block_on`.  The exact conditions on the steps of a
run are `Spares` (for panics, `survive_iff`) and `Strands` (for nested `block_on`,
`acquirable_of_unstranded`).
-/

namespace Luminal.Std

open Function Transition

variable {n m : Nat} {U V : Type} {poll : U → Burst U V}

/-! ## Stacks -/

/-- A stack grows from the worker's loop, or from a thread's own code, and holds no other such
frame. -/
def Based (worker : Bool) : List (Frame U V) → Prop
  | [] => False
  | .run _ :: fs => fs = [] ∧ worker = true
  | .user none _ :: fs => fs = [] ∧ worker = false
  | _ :: fs => Based worker fs

theorem based_beginPoll (sh : Shared n U V) (task : Task U) (worker : Bool)
    (fs : List (Frame U V)) :
    Based worker ((sh.beginPoll poll task).2 :: fs) ↔ Based worker fs := by
  unfold Shared.beginPoll
  split <;> rfl

/-- A stack keeps its base; a worker's ends when it leaves its loop, unless that drops the last
`Runtime`. -/
theorem threadStep_based {sh sh' : Shared n U V} {t : ThreadId n m} {fs fs' : List (Frame U V)}
    (h : ThreadStep poll sh t fs sh' fs') {worker : Bool} (hb : Based worker fs) :
    ((Ending sh fs → sh'.owners = 0) ∧ Based worker fs' ∧ sh'.live = sh.live) ∨
      (∃ i k, t = .inl i ∧ Ending sh fs ∧ fs' = [] ∧
        sh' = { sh.dropWorker i with owners := k }) := by
  cases h with
  | unwindRun i l k ht _ => exact Or.inr ⟨i, _, ht, ⟨l, Or.inl rfl⟩, rfl, rfl⟩
  | unwindLast i l ht _ _ => exact Or.inl ⟨fun _ => rfl, hb, rfl⟩
  | exit i l ht hpc hshut => exact Or.inr ⟨i, _, ht, ⟨l, Or.inr ⟨rfl, hpc, hshut⟩⟩, rfl, rfl⟩
  | outside task k fs x =>
    refine Or.inl ⟨by simp [Ending], ?_, rfl⟩
    cases task <;> exact hb
  | callSpawn task u k fs _ | callBlockOn task u k fs _ =>
    refine Or.inl ⟨by simp [Ending], ?_, rfl⟩
    cases task <;> exact hb
  | dropHandle task c k fs _ =>
    refine Or.inl ⟨by simp [Ending], ?_, rfl⟩
    cases task <;> exact hb
  | cloneRuntime task k fs _ | dropRuntime task k fs _ | dropLastRuntime task k fs _ =>
    refine Or.inl ⟨by simp [Ending], ?_, rfl⟩
    cases task <;> exact hb
  | pollHandle task c k fs _ =>
    refine Or.inl ⟨by simp [Ending], ?_, ?_⟩
    · cases task <;> exact hb
    · rw [pollHandle_eq]
  | resume r task k fs =>
    refine Or.inl ⟨by simp [Ending], ?_, rfl⟩
    cases task <;> exact hb
  | help c l ch' sh' l' fs _ hh =>
    rw [Executor.help_none hh]
    exact Or.inl ⟨by simp [Ending], hb, rfl⟩
  | helpTask c l ch' sh₁ l' task fs hh =>
    obtain ⟨q, -, rfl⟩ := Executor.help_some hh
    exact Or.inl ⟨by simp [Ending], (based_beginPoll ..).2 hb, by rw [beginPoll_eq]⟩
  | run i l c sh' l' fs _ htop hh =>
    rw [WorkerThread.step_none hh]
    refine Or.inl ⟨?_, hb, rfl⟩
    rintro ⟨l₁, h | ⟨h, hpc, hshut⟩⟩
    · cases h
    · cases h
      rw [htop hpc] at hshut
      cases hshut
  | runTask i l c sh₁ l' task fs _ hh =>
    refine Or.inl ⟨?_, (based_beginPoll ..).2 hb, ?_⟩
    · rintro ⟨l₁, h | ⟨h, hpc, -⟩⟩
      · cases h
      · cases h
        exact absurd hpc (WorkerThread.step_some_pc hh)
    · rw [beginPoll_eq, (WorkerThread.step_some hh).eq]
  | _ => exact Or.inl ⟨by simp [Ending], hb, rfl⟩

/-- Live workers have their loop at the base of their stack, dead ones have no stack. -/
structure Staffed (s : State n m U V) : Prop where
  workers : ∀ i, if s.shared.live i = true then Based true (s.threads (.inl i))
    else s.threads (.inl i) = []
  others : ∀ i, Based false (s.threads (.inr i))

theorem threadStep_nil {sh sh' : Shared n U V} {t : ThreadId n m} {fs' : List (Frame U V)} :
    ¬ ThreadStep poll sh t [] sh' fs' := nofun

theorem staffed_init : Staffed (State.init n m U V) := ⟨fun _ => ⟨rfl, rfl⟩, fun _ => ⟨rfl, rfl⟩⟩

theorem staffed_step {s s' : State n m U V} {t : ThreadId n m} (h : Staffed s)
    (hs : Step poll s t s') : Staffed s' := by
  obtain @⟨sh', fs', hs, -⟩ := hs
  cases t with
  | inl i =>
    have hi := h.workers i
    split at hi
    · next hlive =>
      refine ⟨fun j => ?_, fun j => ?_⟩
      · rcases threadStep_based hs hi with ⟨-, hb, hl⟩ | ⟨_, _, hij, -, rfl, rfl⟩
        · by_cases hj : j = i
          · subst hj
            simpa [hl, hlive] using hb
          · simpa [hl, hj] using h.workers j
        · cases hij
          by_cases hj : j = i
          · subst hj
            simp [Shared.dropWorker, Shared.destroy]
          · simpa [hj, Shared.dropWorker, Shared.destroy] using h.workers j
      · simpa using h.others j
    · rw [hi] at hs
      exact absurd hs threadStep_nil
  | inr i =>
    rcases threadStep_based hs (h.others i) with ⟨-, hb, hl⟩ | ⟨_, _, hij, -⟩
    · refine ⟨fun j => by simpa [hl] using h.workers j, fun j => ?_⟩
      by_cases hj : j = i
      · subst hj
        simpa using hb
      · simpa [hj] using h.others j
    · cases hij

theorem staffed_reachable {G : State n m U V → ThreadId n m → Prop} {s : State n m U V}
    (h : Reachable poll G s) : Staffed s :=
  h.elim fun _ hr => hr.invariant staffed_init fun _ _ _ ha _ hs => staffed_step ha hs

/-- A worker that moves is alive. -/
theorem Staffed.live {s : State n m U V} (h : Staffed s) {i : Fin n} {f : Frame U V}
    {fs : List (Frame U V)} (hf : s.threads (.inl i) = f :: fs) : s.shared.live i = true := by
  have hi := h.workers i
  split at hi
  · assumption
  · rw [hf] at hi
    cases hi

/-- A thread that moves has a base. -/
theorem Staffed.based {s : State n m U V} (h : Staffed s) {t : ThreadId n m} {sh' : Shared n U V}
    {fs' : List (Frame U V)} (hs : ThreadStep poll s.shared t (s.threads t) sh' fs') :
    ∃ worker, Based worker (s.threads t) := by
  cases t with
  | inl i =>
    have hi := h.workers i
    split at hi
    · exact ⟨_, hi⟩
    · rw [hi] at hs
      exact absurd hs threadStep_nil
  | inr i => exact ⟨_, h.others i⟩

/-! ## Panics: which tasks survive -/

namespace State

/-- Task `ch` still exists, and a live worker can reach it or a thread is polling it. -/
def Reached (s : State n m U V) (ch : Nat) : Prop :=
  (0 < s.occurs ch .globalQueue ∧ ∃ i, s.shared.live i = true) ∨
  (∃ d, 0 < s.occurs ch (.localDeque d) ∧
    (s.shared.live d = true ∨ ∃ j, s.shared.live j = true ∧ d ∈ stealers j)) ∨
  ∃ t, 0 < s.occurs ch (.polled t)

/-- Every spawned task that has neither finished nor panicked is still within reach. -/
def Survive (s : State n m U V) : Prop :=
  ∀ ch u, .spawned ch u ∈ s.shared.log → .ready ch ∉ s.shared.log → .panicked ch ∉ s.shared.log →
    s.Reached ch

end State

/-- Live workers for the queues that have tasks, and only panicked tasks destroyed. -/
structure Served (s : State n m U V) : Prop where
  global : s.shared.globalQueue ≠ [] → ∃ i, s.shared.live i = true
  locals : ∀ d, s.shared.locals d ≠ [] → ∃ j, s.shared.live j = true ∧ d ∈ stealers j
  intact : ∀ ch, .destroyed ch ∈ s.shared.log → .panicked ch ∈ s.shared.log

theorem panicked_destroyed {G : State n m U V → ThreadId n m → Prop} {s : State n m U V}
    (h : Reachable poll G s) {ch : Nat} (hp : .panicked ch ∈ s.shared.log) :
    .destroyed ch ∈ s.shared.log := by
  obtain ⟨ts, hr⟩ := h
  refine hr.invariant (P := fun s => .panicked ch ∈ s.shared.log → .destroyed ch ∈ s.shared.log)
    nofun (fun a t b ha _ hs hb => ?_) hp
  obtain @⟨sh', fs', hs, -⟩ := hs
  obtain ⟨l, hl, he⟩ := threadStep_log hs
  simp only [hl] at hb ⊢
  rcases List.mem_append.1 hb with hb | hb
  · exact List.mem_append_left _ (ha hb)
  · refine List.mem_append_right _ ?_
    cases he with
    | panicked id c u fs₁ _ => simpa using hb
    | destroyed tasks => simp at hb
    | _ => simp at hb

/-- A queued task is spawned, unfinished, and nowhere else. -/
theorem queued_unfinished {G : State n m U V → ThreadId n m → Prop} {s : State n m U V}
    (h : Reachable poll G s) {ch : Nat} (hq : 0 < queued ch s.shared) :
    (∃ u, .spawned ch u ∈ s.shared.log) ∧ .ready ch ∉ s.shared.log ∧
      .panicked ch ∉ s.shared.log ∧ queued ch s.shared = 1 ∧ ∀ t, s.occurs ch (.polled t) = 0 := by
  have h1 := (accounted_reachable h).count ch
  have h2 := (accounted_reachable h).pushes_le_one ch
  refine ⟨(pushes_pos_iff ch s.shared.log).1 (by omega), fun hr => ?_, fun hp => ?_, by omega,
    fun t => ?_⟩
  · have := (readies_pos_iff ch _).2 hr
    omega
  · have := (losts_pos_iff ch _).2 (panicked_destroyed h hp)
    omega
  · have h3 := weigh_le_census (Frame.running ch) s t
    have h4 := weigh_le_census (Frame.closing ch) s t
    simp only [State.occurs]
    omega

theorem State.Survive.served {G : State n m U V → ThreadId n m → Prop} {s : State n m U V}
    (h : Reachable poll G s) (hs : s.Survive) : Served s := by
  have ha := accounted_reachable h
  have hlocal : ∀ ch d, s.occurs ch (.localDeque d) ≤ tally (occ ch) s.shared.locals :=
    fun ch d => le_tally (occ ch) s.shared.locals d
  refine ⟨fun hne => ?_, fun d hne => ?_, fun ch hdes => ?_⟩
  · obtain ⟨p, hp⟩ := List.exists_mem_of_ne_nil _ hne
    obtain ⟨ch, hch⟩ := Option.isSome_iff_exists.1 (ha.queues p (Or.inl hp))
    have hg := (occ_pos_iff ch _).2 ⟨p, hp, hch⟩
    obtain ⟨⟨u, hu⟩, hr, hpan, hone, hpoll⟩ := queued_unfinished h (queued_pos (Or.inl hp) hch)
    rcases hs ch u hu hr hpan with ⟨-, h⟩ | ⟨d, hd, -⟩ | ⟨t, ht⟩
    · exact h
    · have := hlocal ch d
      unfold queued at hone
      omega
    · have := hpoll t
      omega
  · obtain ⟨p, hp⟩ := List.exists_mem_of_ne_nil _ hne
    obtain ⟨ch, hch⟩ := Option.isSome_iff_exists.1 (ha.queues p (Or.inr ⟨d, hp⟩))
    have hd : 0 < s.occurs ch (.localDeque d) := (occ_pos_iff ch _).2 ⟨p, hp, hch⟩
    obtain ⟨⟨u, hu⟩, hr, hpan, hone, hpoll⟩ :=
      queued_unfinished h (queued_pos (Or.inr ⟨d, hp⟩) hch)
    rcases hs ch u hu hr hpan with ⟨hg, -⟩ | ⟨e, he, hlive⟩ | ⟨t, ht⟩
    · have := hlocal ch d
      simp only [State.occurs] at hg
      unfold queued at hone
      omega
    · have hde : d = e := by
        by_contra hne
        have := add_le_tally (occ ch) s.shared.locals hne
        simp only [State.occurs] at hd he
        unfold queued at hone
        omega
      subst hde
      rcases hlive with hlive | hlive
      · exact ⟨d, hlive, (mem_stealers d d).2 le_rfl⟩
      · exact hlive
    · have := hpoll t
      omega
  · by_contra hpan
    have h1 := (losts_pos_iff ch _).2 hdes
    have h2 := ha.count ch
    have h3 := ha.pushes_le_one ch
    obtain ⟨u, hu⟩ := (pushes_pos_iff ch s.shared.log).1 (by omega)
    have hr : .ready ch ∉ s.shared.log := fun hr => by
      have := (readies_pos_iff ch _).2 hr
      omega
    have halive : s.Alive ch := by
      rcases hs ch u hu hr hpan with ⟨h, -⟩ | ⟨d, h, -⟩ | h
      · exact Or.inl h
      · exact Or.inr (Or.inl ⟨d, h⟩)
      · exact Or.inr (Or.inr h)
    have := State.alive_iff.1 halive
    omega

def Frame.isBlockOn : Frame U V → Bool
  | .blockOn .. => true
  | _ => false

/-- A `block_on` is on this stack. -/
def Blocked (fs : List (Frame U V)) : Prop := fs.any Frame.isBlockOn = true

instance (fs : List (Frame U V)) : Decidable (Blocked fs) := inferInstanceAs (Decidable (_ = _))

/-- A `block_on` comes on a stack only by entering its loop. -/
theorem threadStep_blocked {sh sh' : Shared n U V} {t : ThreadId n m} {fs fs' : List (Frame U V)}
    (h : ThreadStep poll sh t fs sh' fs') (hb : Blocked fs') :
    Blocked fs ∨ ∃ task ch fs₁, fs = .spawn task ch true :: fs₁ := by
  have hbegin : ∀ (sh₁ : Shared n U V) (task : Task U),
      (sh₁.beginPoll poll task).2.isBlockOn = false :=
    fun sh₁ task => beginPoll_frame poll sh₁ task (P := fun f => f.isBlockOn = false) rfl
      fun _ => rfl
  unfold Blocked at hb ⊢
  cases h with
  | startBlockOn task ch fs => exact Or.inr ⟨_, _, _, rfl⟩
  | helpTask c l ch' sh₁ l' task fs hh => exact Or.inl (by simp [Frame.isBlockOn])
  | runTask i l c sh₁ l' task fs _ hh =>
    rw [List.any_cons, hbegin] at hb
    exact Or.inl hb
  | unwindRun | exit => simp at hb
  | unwindBlockOn c l fs => exact Or.inl (by simp [Frame.isBlockOn])
  | recvOk c l v fs _ _ | recvDisconnected c l fs _ _ => exact Or.inl (by simp [Frame.isBlockOn])
  | finishedHelp c l fs | help c l ch' sh' l' fs _ _ | pendingHelp id c u₀ u b l fs =>
    exact Or.inl (by simp [Frame.isBlockOn])
  | unwindLast => simp [Frame.isBlockOn] at hb
  | _ => exact Or.inl (by simpa [Frame.isBlockOn] using hb)

namespace State

/-- Nobody runs task code: each thread is at work in its loop, in a `block_on` loop, or in code
of its own outside the executor. -/
def Waits (s : State n m U V) : Prop :=
  ∀ t, (∃ l fs, s.threads t = .run l :: fs) ∨ (∃ ch l fs, s.threads t = .blockOn ch l :: fs) ∨
    ∃ code fs, s.threads t = .user none code :: fs

/-- The top frame is a worker's loop, a `block_on` loop or code outside the executor. -/
def waits : List (Frame U V) → Bool
  | .run _ :: _ => true
  | .blockOn .. :: _ => true
  | .user none _ :: _ => true
  | _ => false

instance (s : State n m U V) : Decidable s.Waits :=
  decidable_of_iff (∀ t, waits (s.threads t) = true) <| forall_congr' fun t => by
    unfold waits
    refine ⟨fun h => ?_, ?_⟩
    · split at h
      · next hs => exact Or.inl ⟨_, _, hs⟩
      · next hs => exact Or.inr (Or.inl ⟨_, _, _, hs⟩)
      · next hs => exact Or.inr (Or.inr ⟨_, _, hs⟩)
      · cases h
    · rintro (⟨l, fs, h⟩ | ⟨ch, l, fs, h⟩ | ⟨code, fs, h⟩) <;> rw [h]

/-- Worker `i` is in its own loop. -/
def InLoop (s : State n m U V) (i : Fin n) : Prop := ∃ l, s.threads (.inl i) = [.run l]

/-- Some thread can take the queued task `p`: from the global queue any loop can, from a deque
its worker and the workers that hold its stealer, in their own loops. -/
def Acquirable (s : State n m U V) (p : Task U) : Prop :=
  (p ∈ s.shared.globalQueue ∧ ∃ t, (∃ l fs, s.threads t = .run l :: fs) ∨
    ∃ ch l fs, s.threads t = .blockOn ch l :: fs) ∨
  ∃ d, p ∈ s.shared.locals d ∧ (s.InLoop d ∨ ∃ j, s.InLoop j ∧ d ∈ stealers j)

/-- The step of thread `t` puts a worker into a `block_on` loop while some deque has tasks
and every worker that could take them, this one apart, is in a `block_on` already. -/
def Strands (s : State n m U V) (t : ThreadId n m) : Prop :=
  ∃ i, t = .inl i ∧ (∃ task ch fs, s.threads t = .spawn task ch true :: fs) ∧
    ∃ d, s.shared.locals d ≠ [] ∧
      ∀ j, d ∈ stealers j → j = i ∨ Blocked (s.threads (.inl j))

/-- The top frame is about to enter a `block_on` loop. -/
def startsBlockOn : List (Frame U V) → Bool
  | .spawn _ _ true :: _ => true
  | _ => false

instance (s : State n m U V) (t : ThreadId n m) : Decidable (s.Strands t) :=
  decidable_of_iff (∃ i, t = .inl i ∧ startsBlockOn (s.threads t) = true ∧
    ∃ d, (s.shared.locals d).isEmpty = false ∧
      ∀ j, d ∈ stealers j → j = i ∨ Blocked (s.threads (.inl j))) <| by
    unfold Strands startsBlockOn
    refine exists_congr fun i => and_congr_right fun _ => and_congr ⟨fun h => ?_, ?_⟩
      (exists_congr fun d => and_congr_left fun _ => by simp)
    · split at h
      · next hs => exact ⟨_, _, _, hs⟩
      · cases h
    · rintro ⟨task, ch, fs, h⟩
      rw [h]

end State

/-- A deque with tasks has a worker for them that is not suspended. -/
def Unstranded (s : State n m U V) : Prop :=
  ∀ d, s.shared.locals d ≠ [] → ∃ j, d ∈ stealers j ∧ ¬ Blocked (s.threads (.inl j))

theorem Based.run {worker : Bool} {l : RunLoop} {fs : List (Frame U V)}
    (h : Based worker (.run l :: fs)) : fs = [] := h.1

theorem unstranded_step {s s' : State n m U V} {t : ThreadId n m} (hstaff : Staffed s)
    (hall : ∀ i, s.shared.live i = true) (h : Unstranded s) (hG : ¬ s.Strands t)
    (hs : Step poll s t s') : Unstranded s' := by
  obtain @⟨sh', fs', hs, -⟩ := hs
  have hbased : ∀ i, Based true (s.threads (.inl i)) := fun i => by
    have := hstaff.workers i
    rwa [if_pos (hall i)] at this
  intro d hd
  obtain ⟨p, hp⟩ := List.exists_mem_of_ne_nil _ hd
  by_cases hstart : ∃ task ch fs₁, s.threads t = .spawn task ch true :: fs₁
  · -- a `block_on` begins: the condition leaves another worker
    have hne : s.shared.locals d ≠ [] := by
      rcases threadStep_locals hs hp with hp | ⟨-, ⟨l, fs₁, hfs⟩, -⟩
      · exact List.ne_nil_of_mem hp
      · obtain ⟨task, ch, fs₂, hfs₂⟩ := hstart
        rw [hfs] at hfs₂
        cases hfs₂
    cases t with
    | inl i =>
      by_contra hn
      refine hG ⟨i, rfl, hstart, d, hne, fun j hj => ?_⟩
      by_cases hji : j = i
      · exact Or.inl hji
      · refine Or.inr (by_contra fun hb => hn ⟨j, hj, ?_⟩)
        simpa [hji] using hb
    | inr i =>
      obtain ⟨j, hj, hb⟩ := h d hne
      exact ⟨j, hj, by simpa using hb⟩
  · -- otherwise the worker that could take the task still can, or it moved the task itself
    have hfree : ∃ j, d ∈ stealers j ∧ ¬ Blocked (s.threads (.inl j)) := by
      rcases threadStep_locals hs hp with hp | ⟨rfl, ⟨l, fs₁, hfs⟩, -⟩
      · exact h d (List.ne_nil_of_mem hp)
      · refine ⟨d, (mem_stealers d d).2 le_rfl, ?_⟩
        have := hbased d
        rw [hfs] at this ⊢
        rw [this.run]
        simp [Blocked, Frame.isBlockOn]
    obtain ⟨j, hj, hb⟩ := hfree
    refine ⟨j, hj, fun hb' => ?_⟩
    by_cases htj : (.inl j : ThreadId n m) = t
    · subst htj
      simp only [update_self] at hb'
      rcases threadStep_blocked hs hb' with hb' | hb'
      · exact hb hb'
      · exact hstart hb'
    · simp only [update_of_ne htj] at hb'
      exact hb hb'

/-- In calm runs all workers live. -/
theorem live_of_calm {G : State n m U V → ThreadId n m → Prop} (hG : ∀ a t, G a t → a.Calm t)
    {s : State n m U V} (h : Reachable poll G s) (i : Fin n) : s.shared.live i = true := by
  obtain ⟨ts, hr⟩ := h
  refine hr.invariant_with (P := fun s => ∀ i, s.shared.live i = true)
    (R := fun s => Reachable poll G s) (fun ls _ hr' => ⟨ls, hr'⟩) (fun _ => rfl)
    (fun a t b ha hlive hg hs i => ?_) i
  have hquiet := quiet_reachable (ha.elim fun ls hr' => ⟨ls, hr'.mono hG⟩)
  have hstaff := staffed_reachable ha
  obtain @⟨sh', fs', hs, -⟩ := hs
  obtain ⟨worker, hb⟩ := hstaff.based hs
  rcases threadStep_based hs hb with ⟨-, -, hl⟩ | ⟨j, _, rfl, ⟨l, hend | ⟨-, -, hshut⟩⟩, -, -⟩
  · exact hl ▸ hlive i
  · exact absurd rfl (hquiet.frames _ _ (hend ▸ List.mem_cons_self)).1
  · rw [hquiet.running] at hshut
    cases hshut

/-- **A waiting `block_on` is not cut off from its tasks** in runs none of whose steps strands a
deque: when nobody runs task code, every queued task can be taken by some thread. -/
theorem acquirable_of_unstranded (hn : 0 < n) {s : State n m U V}
    (h : Reachable poll (fun a t => a.Calm t ∧ ¬ a.Strands t) s) (hw : s.Waits) {p : Task U}
    (hp : Queues s.shared p) : s.Acquirable p := by
  have hlive := live_of_calm (fun _ _ h => h.1) h
  have hstaff := staffed_reachable h
  have hbased : ∀ i, Based true (s.threads (.inl i)) := fun i => by
    have := hstaff.workers i
    rwa [if_pos (hlive i)] at this
  have hun : Unstranded s := by
    obtain ⟨ts, hr⟩ := h
    refine hr.invariant_with (R := fun s => Reachable poll (fun a t => a.Calm t ∧ ¬ a.Strands t) s)
      (fun ls _ hr' => ⟨ls, hr'⟩) (fun d hd => absurd rfl hd) fun a t b ha hP hG hs => ?_
    exact unstranded_step (staffed_reachable ha) (live_of_calm (fun _ _ h => h.1) ha) hP hG.2 hs
  rcases hp with hp | ⟨d, hp⟩
  · refine Or.inl ⟨hp, .inl ⟨0, hn⟩, ?_⟩
    rcases hw (.inl ⟨0, hn⟩) with h | h | ⟨code, fs, hfs⟩
    · exact Or.inl h
    · exact Or.inr h
    · have := hbased ⟨0, hn⟩
      rw [hfs] at this
      cases this.2
  · obtain ⟨j, hj, hb⟩ := hun d (List.ne_nil_of_mem hp)
    refine Or.inr ⟨d, hp, Or.inr ⟨j, ?_, hj⟩⟩
    rcases hw (.inl j) with ⟨l, fs, hfs⟩ | ⟨ch, l, fs, hfs⟩ | ⟨code, fs, hfs⟩
    · have := hbased j
      rw [hfs] at this
      exact ⟨l, by rw [hfs, this.run]⟩
    · rw [hfs] at hb
      exact absurd (by simp [Blocked, Frame.isBlockOn]) hb
    · have := hbased j
      rw [hfs] at this
      cases this.2

/-- Two workers, the second idle: the first blocks on a task that sits in its deque, and the
second can take it. -/
theorem acquirable_of_unstranded_two : ∃ (s : State 2 1 Sample Nat) (p : Task Sample),
    (p.ch? = some 1 ∧ p ∈ s.shared.locals 0) ∧ s.Acquirable p := by
  obtain ⟨s, hr, hw, hocc⟩ := reachable_of_exec Sample.burst
    (G := fun a t => a.Calm t ∧ ¬ a.Strands t)
    (P := fun s : State 2 1 Sample Nat => s.Waits ∧ 0 < occ 1 (s.shared.locals 0))
    ((.inr 0, .code (Sample.spawns [.blockOn (.await 1), .value 7, .value 8])) ::
      turns (.inr 0) 6 (.answer 0) ++ turns (.inl 0) 5 (.steal (.batch 1))) (by decide)
  obtain ⟨p, hp, hch⟩ := (occ_pos_iff 1 (s.shared.locals 0)).1 hocc
  exact ⟨s, p, ⟨hch, hp⟩, acquirable_of_unstranded (by decide) hr hw (Or.inr ⟨0, hp⟩)⟩

/-- One worker takes a batch from the global queue of three; the first task blocks on the second,
which sits in the worker's deque. -/
theorem not_acquirable : ¬ ∀ s : State 1 1 Sample Nat, Reachable Sample.burst State.Calm s →
    s.Waits → ∀ p, Queues s.shared p → s.Acquirable p := by
  intro h
  obtain ⟨s, hr, hw, h1, h2, h3⟩ := reachable_of_exec Sample.burst (G := State.Calm)
    (P := fun s : State 1 1 Sample Nat => s.Waits ∧ Blocked (s.threads (.inl 0)) ∧
      0 < occ 1 (s.shared.locals 0) ∧ occ 1 s.shared.globalQueue = 0)
    ((.inr 0, .code (Sample.spawns [.blockOn (.await 1), .value 7, .value 8])) ::
      turns (.inr 0) 6 (.answer 0) ++ turns (.inl 0) 5 (.steal (.batch 1))) (by decide)
  obtain ⟨p, hp, hch⟩ := (occ_pos_iff 1 (s.shared.locals 0)).1 h2
  have hno : ∀ i, ¬ s.InLoop i := by
    rintro i ⟨l, hl⟩
    obtain rfl := Subsingleton.elim i 0
    rw [hl] at h1
    cases h1
  rcases h s hr hw p (Or.inr ⟨0, hp⟩) with ⟨hg, -⟩ | ⟨d, -, hd | ⟨j, hj, -⟩⟩
  · have := (occ_pos_iff 1 s.shared.globalQueue).2 ⟨p, hg, hch⟩
    omega
  · exact hno d hd
  · exact hno j hj

end Luminal.Std
