import Luminal.NoStd.Accounting
import Luminal.NoStd.Capacity
import Luminal.NoStd.Loop
import Luminal.NoStd.Polls

/-!
# Spawning on a full queue

`spawn` returns a handle whether or not `push_back` took the task.  The task of a refused call is
never polled and nothing is ever sent to its handle, so a `block_on` that was refused never
returns, whatever the other tasks do; with room in the queue, `block_on` of a future that is ready
at once returns if the other tasks leave the executor alone (`spawn_appends_iff`).
-/

namespace Luminal.NoStd

open Function Transition

variable {U V : Type} {cap : Option Nat} {poll : U → Burst U V}

/-! ## Polls that end -/

/-- A poll without nested calls and without panics, which spawns futures in `S` only and leaves one
in `P` when it is `Pending`. -/
def Keeps (P S : U → Prop) : Burst U V → Prop
  | .pending u => P u
  | .ready _ => True
  | .spawn u k => S u ∧ ∀ h, Keeps P S (k h)
  | .blockOn _ _ | .panic => False
  | .pollHandle _ k => ∀ r, Keeps P S (k r)
  | .dropHandle _ k | .cloneRuntime k | .dropRuntime k => Keeps P S k
  | .outside k => ∀ x, Keeps P S (k x)

/-- The future never spawns and never panics, in none of its polls. -/
def Peaceful (poll : U → Burst U V) (u : U) : Prop :=
  ∃ P : U → Prop, P u ∧ ∀ w, P w → Keeps P (fun _ => False) (poll w)

/-- The first poll of the future returns `Ready`; what it spawns is peaceful. -/
def ReadyAtOnce (poll : U → Burst U V) (u : U) : Prop :=
  Keeps (fun _ => False) (Peaceful poll) (poll u)

theorem Keeps.mono {P P' S : U → Prop} {b : Burst U V} (h : Keeps P S b)
    (hP : ∀ u, P u → P' u) : Keeps P' S b := by
  induction b with
  | pending u => exact hP u h
  | ready v => trivial
  | spawn u k ih => exact ⟨h.1, fun d => ih d (h.2 d)⟩
  | blockOn u k _ | panic => exact h.elim
  | pollHandle d k ih => exact fun r => ih r (h r)
  | dropHandle d k ih | cloneRuntime k ih | dropRuntime k ih => exact ih h
  | outside k ih => exact fun x => ih x (h x)

theorem Peaceful.keeps {u : U} (h : Peaceful poll u) :
    Keeps (Peaceful poll) (fun _ => False) (poll u) := by
  obtain ⟨P, hu, hP⟩ := h
  exact (hP u hu).mono fun w hw => ⟨P, hw, hP⟩

/-- The running code acts on handles that it holds. -/
def State.Owns (s : State U V) : Prop :=
  ∀ task b fs h, s.stack = .user task (.run b) :: fs → Uses b h →
    (s.shared.results h).holder = .handle

/-- Peaceful tasks, none of them that of spawn `c`. -/
def Aside (poll : U → Burst U V) (c : Nat) (q : List (Task U)) : Prop :=
  ∀ t ∈ q, ∃ id ch u, t = ⟨id, .wrapped ch u⟩ ∧ Peaceful poll u ∧ ch ≠ c

theorem Aside.append {c : Nat} {q q' : List (Task U)} (h : Aside poll c q) (h' : Aside poll c q') :
    Aside poll c (q ++ q') := fun t ht => (List.mem_append.1 ht).elim (h t) (h' t)

theorem aside_pushBack (q : List (Task U)) (id : TaskId) {c ch : Nat} {u : U}
    (hu : Peaceful poll u) (hch : ch ≠ c) :
    ∃ more, pushBack cap q ⟨id, .wrapped ch u⟩ = q ++ more ∧ Aside poll c more := by
  unfold pushBack
  split
  · refine ⟨_, rfl, fun t ht => ?_⟩
    exact ⟨id, ch, u, List.mem_singleton.1 ht, hu, hch⟩
  · exact ⟨[], by simp, nofun⟩

/-- The state of the `block_on` of spawn `c` after a poll of task `ch`: others may have joined the
queue, and if the task was its own the result is there. -/
structure PollEnds (poll : U → Burst U V) (c ch : Nat) (sh sh' : Shared U V) : Prop where
  queue : ∃ more, sh'.globalQueue = sh.globalQueue ++ more ∧ Aside poll c more
  spawned : c < sh'.spawned
  holder : (sh'.results c).holder = .blockOn
  other : ch ≠ c → (sh'.results c).items = (sh.results c).items
  own : ch = c → (sh.results c).items = [] → (sh'.results c).items ≠ []

section Poll

variable {c ch : Nat} {pc : BlockOnPc} {fs : List (Frame U V)} {P S : U → Prop}

/-- **Such a poll ends.** -/
theorem inevitable_keeps {b : Burst U V} (hb : Keeps P S b)
    (hP : ∀ u, P u → Peaceful poll u ∧ ch ≠ c) (hS : ∀ u, S u → Peaceful poll u)
    {sh : Shared U V} {id : TaskId} {u : U} (hc : c < sh.spawned)
    (hh : (sh.results c).holder = .blockOn) :
    Inevitable (Step cap poll) State.Owns
      (fun s => ∃ sh', s = ⟨sh', .blockOn c pc :: fs⟩ ∧ PollEnds poll c ch sh sh')
      ⟨sh, .user (some ⟨id, .wrapped ch u⟩) (.run b) :: .blockOn c pc :: fs⟩ := by
  induction b generalizing sh with
  | pending u' =>
    obtain ⟨hu', hne⟩ := hP u' hb
    refine inevitable_pending (.now ⟨_, rfl, aside_pushBack _ _ hu' hne, hc, hh, fun _ => rfl, ?_⟩)
    exact fun heq => absurd heq hne
  | ready v =>
    refine inevitable_ready (.now ⟨_, rfl, ⟨[], by simp [Shared.finish], nofun⟩, hc, ?_, ?_, ?_⟩)
    · rw [Shared.finish_holder, hh]
    · intro hne
      show (update sh.results ch _ c).items = _
      rw [update_of_ne hne.symm]
    · rintro rfl -
      exact (Shared.finish_items ..).2 (Or.inr rfl)
  | panic | blockOn u' k _ => exact hb.elim
  | outside k ih => exact inevitable_outside fun x => ih x (hb x) hc hh
  | cloneRuntime k ih => exact inevitable_cloneRuntime (ih hb hc hh)
  | dropRuntime k ih => exact inevitable_dropRuntime (ih hb hc hh)
  | spawn u' k ih =>
    have hne : sh.spawned ≠ c := Nat.ne_of_gt hc
    have hres : (sh.spawn cap u' .handle).results c = sh.results c := update_of_ne hne.symm _ _
    obtain ⟨more, (hmore : pushBack cap _ _ = _), haside⟩ :=
      aside_pushBack sh.globalQueue sh.nextTaskId (hS u' hb.1) hne
    refine inevitable_spawn ((ih _ (hb.2 _) (Nat.lt_succ_of_lt hc) (by rw [hres, hh])).mono ?_)
    rintro s ⟨sh', rfl, ⟨more', hmore', haside'⟩, h2, h3, h4, h5⟩
    refine ⟨sh', rfl, ⟨more ++ more', ?_, haside.append haside'⟩, h2, h3, ?_, ?_⟩
    · rw [hmore', ← List.append_assoc, ← hmore]
      rfl
    · rw [hres] at h4
      exact h4
    · rw [hres] at h5
      exact h5
  | pollHandle d k ih =>
    refine Inevitable.of_ok fun hok => ?_
    have hd : (sh.results d).holder = .handle := hok _ _ _ d rfl (Or.inl ⟨k, rfl⟩)
    have hne : c ≠ d := by
      rintro rfl
      rw [hh] at hd
      cases hd
    have hres : (sh.pollHandle d).2.results c = sh.results c := Shared.pollHandle_of_ne hne
    refine inevitable_pollHandle hd ((ih _ (hb _) (by rwa [Shared.pollHandle_spawned])
      (by rw [hres, hh])).mono ?_)
    rintro s ⟨sh', rfl, h1, h2, h3, h4, h5⟩
    rw [Shared.pollHandle_queue] at h1
    rw [hres] at h4 h5
    exact ⟨sh', rfl, h1, h2, h3, h4, h5⟩
  | dropHandle d k ih =>
    refine Inevitable.of_ok fun hok => ?_
    have hd : (sh.results d).holder = .handle := hok _ _ _ d rfl (Or.inr ⟨k, rfl⟩)
    have hne : c ≠ d := by
      rintro rfl
      rw [hh] at hd
      cases hd
    have hres : (sh.dropHandle d).results c = sh.results c := update_of_ne hne _ _
    have hh' : ((sh.dropHandle d).results c).holder = .blockOn := by rw [hres, hh]
    refine inevitable_dropHandle hd
      ((ih hb (show c < (sh.dropHandle d).spawned from hc) hh').mono ?_)
    rintro s ⟨sh', rfl, h1, h2, h3, h4, h5⟩
    rw [hres] at h4 h5
    exact ⟨sh', rfl, h1, h2, h3, h4, h5⟩

end Poll

/-! ## A call with room -/

/-- The call on top of `fs` has handed a value to the code below it. -/
def Returns (task : Option (Task U)) (k : Option V → Burst U V) (fs : List (Frame U V))
    (s : State U V) : Prop := ∃ v, s.stack = .user task (.run (k (some v))) :: fs

section Call

variable {c : Nat} {task : Option (Task U)} {k : Option V → Burst U V} {fs : List (Frame U V)}

/-- Once the result is there the call returns after the rest of its batch. -/
theorem inevitable_collect {sh : Shared U V} (n : Nat) {pc : BlockOnPc} (hn : pc.toCheck = n)
    (hq : Aside poll c sh.globalQueue) (hc : c < sh.spawned)
    (hh : (sh.results c).holder = .blockOn) (hitems : (sh.results c).items ≠ []) :
    Inevitable (Step cap poll) State.Owns (Returns task k fs)
      ⟨sh, .blockOn c pc :: .user task (.wait k) :: fs⟩ := by
  induction n using Nat.strong_induction_on generalizing sh pc with
  | _ n ih =>
    obtain ⟨v, q, hv⟩ := List.exists_cons_of_ne_nil hitems
    cases pc with
    | check => exact inevitable_return hv (.now ⟨v, rfl⟩)
    | poll i =>
      by_cases hi : i < 10 → sh.globalQueue = []
      · exact inevitable_endBatch hi (inevitable_return hv (.now ⟨v, rfl⟩))
      · push Not at hi
        obtain ⟨hi, hne⟩ := hi
        obtain ⟨t, rest, hrest⟩ := List.exists_cons_of_ne_nil hne
        obtain ⟨id, ch, u, rfl, hu, hch⟩ := hq t (hrest ▸ List.mem_cons_self)
        refine inevitable_pop hi hrest ?_
        refine (inevitable_keeps hu.keeps (fun w hw => ⟨hw, hch⟩) nofun ?_ ?_).trans ?_
        · exact hc
        · exact hh
        rintro s ⟨sh', rfl, ⟨more, hmore, haside⟩, hc', hh', hother, -⟩
        refine ih _ ?_ rfl ?_ hc' hh' ?_
        · simp only [BlockOnPc.toCheck] at hn ⊢
          omega
        · rw [hmore]
          refine Aside.append (fun t ht => hq t ?_) haside
          rw [hrest]
          exact List.mem_cons_of_mem _ ht
        · rw [hother hch]
          exact hitems

/-- The loop gets to its next poll. -/
theorem inevitable_next {sh : Shared U V} {Ok Q : State U V → Prop} {pc : BlockOnPc}
    (hitems : (sh.results c).items = [])
    (h : ∀ i < 10, Inevitable (Step cap poll) Ok Q ⟨sh, .blockOn c (.poll i) :: fs⟩) :
    Inevitable (Step cap poll) Ok Q ⟨sh, .blockOn c pc :: fs⟩ := by
  have hcheck : Inevitable (Step cap poll) Ok Q ⟨sh, .blockOn c .check :: fs⟩ :=
    inevitable_retry hitems (h 0 (by omega))
  cases pc with
  | check => exact hcheck
  | poll i =>
    by_cases hi : i < 10
    · exact h i hi
    · exact inevitable_endBatch (fun hlt => absurd hlt hi) hcheck

/-- **A call whose task is queued behind peaceful ones returns**, if it is ready at once. -/
theorem inevitable_queued {f : U} (hf : ReadyAtOnce poll f) {id : TaskId} {front : List (Task U)}
    {back : List (Task U)} {sh : Shared U V} {pc : BlockOnPc}
    (hq : sh.globalQueue = front ++ ⟨id, .wrapped c f⟩ :: back) (hfront : Aside poll c front)
    (hback : Aside poll c back) (hc : c < sh.spawned) (hh : (sh.results c).holder = .blockOn)
    (hitems : (sh.results c).items = []) :
    Inevitable (Step cap poll) State.Owns (Returns task k fs)
      ⟨sh, .blockOn c pc :: .user task (.wait k) :: fs⟩ := by
  induction front generalizing sh back pc with
  | nil =>
    refine inevitable_next hitems fun i hi => inevitable_pop hi hq ?_
    refine (inevitable_keeps hf (fun _ h => h.elim) (fun _ h => h) ?_ ?_).trans ?_
    · exact hc
    · exact hh
    rintro s ⟨sh', rfl, ⟨more, hmore, haside⟩, hc', hh', -, hown⟩
    refine inevitable_collect _ rfl ?_ hc' hh' (hown rfl hitems)
    rw [hmore]
    exact hback.append haside
  | cons t front ih =>
    refine inevitable_next hitems fun i hi => ?_
    obtain ⟨id', ch, u, rfl, hu, hch⟩ := hfront t List.mem_cons_self
    refine inevitable_pop hi hq ?_
    refine (inevitable_keeps hu.keeps (fun w hw => ⟨hw, hch⟩) nofun ?_ ?_).trans ?_
    · exact hc
    · exact hh
    rintro s ⟨sh', rfl, ⟨more, hmore, haside⟩, hc', hh', hother, -⟩
    refine ih ?_ (fun t ht => hfront t (List.mem_cons_of_mem _ ht)) (hback.append haside) hc' hh' ?_
    · rw [hmore]
      simp [Shared.popped]
    · rw [hother hch]
      exact hitems

/-! ## A call that was refused -/

/-- The call of spawn `c` is on the stack, and its task was refused. -/
structure Blocked (c : Nat) (task : Option (Task U)) (k : Option V → Burst U V)
    (fs : List (Frame U V)) (s : State U V) : Prop where
  accounted : Accounted s
  results : ResultLaw s.shared
  refused : 0 < refused c s.shared.log
  waits : ∃ above pc, s.stack = above ++ .blockOn c pc :: .user task (.wait k) :: fs

theorem Blocked.items {s : State U V} (h : Blocked c task k fs s) :
    (s.shared.results c).items = [] := by
  have h1 := h.accounted.count c
  have h2 := h.accounted.called c
  have h3 := born_le_one c s.shared.spawned
  have h4 := h.refused
  have hnil : values c s.shared.log = [] :=
    List.length_eq_zero_iff.1 (by rw [values_length]; omega)
  have hlaw := h.results c
  rw [hnil] at hlaw
  exact (List.append_eq_nil_iff.1 hlaw).2

/-- **Nothing ever ends such a call**, whatever the tasks do. -/
theorem blocked_step {s s' : State U V} {a : Answer U V} (h : Blocked c task k fs s)
    (hs : Step cap poll s a s') : Blocked c task k fs s' := by
  have hitems := h.items
  obtain ⟨hacc, hlaw, href, above, pc, hstack⟩ := h
  refine ⟨accounted_step hacc hs, resultLaw_step hacc hlaw hs, ?_, ?_⟩
  · obtain ⟨l, hl, -⟩ := step_log hs
    rw [hl, refused_append]
    omega
  · obtain ⟨sh, stack⟩ := s
    cases above with
    | nil =>
      simp only [List.nil_append] at hstack
      subst hstack
      cases hs with
      | pop => exact ⟨[_], _, rfl⟩
      | popCompleted | endBatch | retry => exact ⟨[], _, rfl⟩
      | «return» _ _ v q _ _ _ _ hv =>
        rw [hitems] at hv
        cases hv
    | cons f above =>
      simp only [List.cons_append] at hstack
      subst hstack
      generalize hrest : above ++ .blockOn c pc :: .user task (.wait k) :: fs = rest at hs
      cases hs with
      | pending | ready => exact ⟨above, pc, hrest.symm⟩
      | blockOn | pop => exact ⟨_ :: _ :: above, pc, by rw [← hrest]; rfl⟩
      | «return» =>
        cases above with
        | nil => cases hrest
        | cons g above =>
          rw [List.cons_append, List.cons.injEq] at hrest
          exact ⟨_ :: above, pc, by rw [← hrest.2]; rfl⟩
      | _ => exact ⟨_ :: above, pc, by rw [← hrest]; rfl⟩

theorem Blocked.not_returns {s : State U V} (h : Blocked c task k fs s) :
    ¬ Returns task k fs s := by
  obtain ⟨above, pc, hstack⟩ := h.waits
  rintro ⟨v, hs⟩
  have hlen := congrArg List.length (hstack.symm.trans hs)
  simp only [List.length_append, List.length_cons] at hlen
  omega

end Call

/-- A call is not what it goes on with. -/
theorem continuation_ne {b : Burst U V} {f : U} {k : Option V → Burst U V} (r : Option V)
    (hb : b = .blockOn f k) : k r ≠ b := by
  induction b generalizing f k r with
  | blockOn f' k' ih =>
    cases hb
    intro heq
    exact ih r r heq rfl
  | _ => cases hb

/-- A refused call never returns. -/
theorem not_inevitable_refused {s : State U V} (hr : Reachable cap poll s) {task : Option (Task U)}
    {f : U} {k : Option V → Burst U V} {fs : List (Frame U V)}
    (hs : s.stack = .user task (.run (.blockOn f k)) :: fs)
    (hfull : ¬ Room cap s.shared.globalQueue) :
    ¬ Inevitable (Step cap poll) (fun _ => True) (Returns task k fs) s := by
  have hacc := accounted_reachable hr
  have hlaw := resultLaw_reachable hr
  refine not_inevitable_of_step (J := fun b => b = s ∨ Blocked s.shared.spawned task k fs b)
    ?_ ?_ (Or.inl rfl)
  · rintro b (rfl | hb)
    · rintro ⟨v, hv⟩
      have heq := (List.cons.inj (hs.symm.trans hv)).1
      simp only [Frame.user.injEq, UserCode.run.injEq, true_and] at heq
      exact continuation_ne (some v) rfl heq.symm
    · exact hb.not_returns
  · rintro b a b' (rfl | hb) hstep
    · refine Or.inr ⟨accounted_step hacc hstep, resultLaw_step hacc hlaw hstep, ?_, ?_⟩
      · obtain ⟨sh, stack⟩ := b
        subst hs
        cases hstep
        simp [Shared.spawn, hfull, refused]
      · obtain ⟨sh, stack⟩ := b
        subst hs
        cases hstep
        exact ⟨[], _, rfl⟩
    · exact Or.inr (blocked_step hb hstep)

/-! ## What `spawn` promises -/

/-- **The queue after a `spawn` is the queue before with the new task at its back, exactly if there
was room; and exactly then a `block_on` returns**, of a future that is ready at once, with
peaceful tasks queued and code that acts on handles it holds. -/
theorem spawn_appends_iff :
    (∀ (s s' : State U V) a task u k fs, s.stack = .user task (.run (.spawn u k)) :: fs →
      Step cap poll s a s' → (s'.shared.globalQueue = s.shared.globalQueue ++
        [⟨s.shared.nextTaskId, .wrapped s.shared.spawned u⟩] ↔ Room cap s.shared.globalQueue)) ∧
    ∀ (s : State U V) task f k fs, Reachable cap poll s →
      s.stack = .user task (.run (.blockOn f k)) :: fs → ReadyAtOnce poll f →
      (∀ t ∈ s.shared.globalQueue, ∀ ch u, t.future = .wrapped ch u → Peaceful poll u) →
      (∀ as b, Run (Step cap poll) (fun a _ => ¬ Returns task k fs a) s as b →
        ¬ Returns task k fs b → b.Owns) →
      (Inevitable (Step cap poll) (fun _ => True) (Returns task k fs) s ↔
        Room cap s.shared.globalQueue) := by
  constructor
  · rintro ⟨sh, stack⟩ s' a task u k fs rfl hs
    cases hs
    by_cases hroom : Room cap sh.globalQueue
    · exact iff_of_true (Shared.spawn_queue hroom u .handle) hroom
    · refine iff_of_false (fun heq => ?_) hroom
      have hfull : (sh.spawn cap u .handle).globalQueue = sh.globalQueue := pushBack_of_full hroom _
      rw [hfull] at heq
      simp at heq
  · intro s task f k fs hr hstack hf hpeace howns
    constructor
    · intro hret
      by_contra hfull
      exact not_inevitable_refused hr hstack hfull hret
    · intro hroom
      refine Inevitable.promised ?_ howns
      have hqueued := queued_reachable hr
      obtain ⟨sh, stack⟩ := s
      subst hstack
      have haside : Aside poll sh.spawned sh.globalQueue := by
        intro t ht
        obtain ⟨ch, u, hfut, hlt⟩ := hqueued.wrapped t ht
        obtain ⟨id, fut⟩ := t
        cases hfut
        exact ⟨id, ch, u, rfl, hpeace _ ht ch u rfl, Nat.ne_of_lt hlt⟩
      have hnew : (sh.spawn cap f .blockOn).results sh.spawned = ⟨[], .blockOn⟩ := update_self ..
      exact inevitable_blockOn (inevitable_queued hf (Shared.spawn_queue hroom f .blockOn) haside
        nofun (Nat.lt_succ_self _) (by rw [hnew]) (by rw [hnew]))

/-- A future that is ready at once, and spawns nothing. -/
def Sample.zero (_ : Unit) : Burst Unit Nat := .ready 0

/-- The stacks of a thread that calls `block_on` on `zero`, before the call returns. -/
def Zeros (k : Option Nat → Burst Unit Nat) (s : State Unit Nat) : Prop :=
  s.stack = [.user none (.run (.blockOn () k))] ∨
    (∃ c pc, s.stack = [.blockOn c pc, .user none (.wait k)]) ∨
    ∃ t c pc, s.stack = [.user (some t) (.run (.ready 0)), .blockOn c pc, .user none (.wait k)]

theorem Zeros.owns {k : Option Nat → Burst Unit Nat} {s : State Unit Nat} (h : Zeros k s) :
    s.Owns := by
  rintro task b fs d hs (⟨k, rfl⟩ | ⟨k, rfl⟩)
  · rcases h with h | ⟨_, _, h⟩ | ⟨_, _, _, h⟩ <;> rw [h] at hs <;> cases hs
  · rcases h with h | ⟨_, _, h⟩ | ⟨_, _, _, h⟩ <;> rw [h] at hs <;> cases hs

theorem zeros_step {k : Option Nat → Burst Unit Nat} {s s' : State Unit Nat} {a : Answer Unit Nat}
    (h : Zeros k s) (hs : Step cap Sample.zero s a s') : Returns none k [] s' ∨ Zeros k s' := by
  obtain ⟨sh, stack⟩ := s
  rcases h with rfl | ⟨c, pc, rfl⟩ | ⟨t, c, pc, rfl⟩
  · cases hs
    exact Or.inr (Or.inr (Or.inl ⟨_, _, rfl⟩))
  · cases hs with
    | pop => exact Or.inr (Or.inr (Or.inr ⟨_, _, _, rfl⟩))
    | popCompleted | endBatch | retry => exact Or.inr (Or.inr (Or.inl ⟨_, _, rfl⟩))
    | «return» _ _ v => exact Or.inl ⟨v, rfl⟩
  · cases hs
    exact Or.inr (Or.inr (Or.inl ⟨_, _, rfl⟩))

/-- With a task queued a call returns. -/
theorem spawn_appends_iff_zero : ∃ s : State Unit Nat,
    s.stack = [.user none (.run (.blockOn () fun r => .ready (r.getD 1)))] ∧
    s.shared.globalQueue.length = 1 ∧
    (Inevitable (Step SimpleExecutor.capacity Sample.zero) (fun _ => True)
      (Returns none (fun r => .ready (r.getD 1)) []) s ↔
        Room SimpleExecutor.capacity s.shared.globalQueue) := by
  have hr : Reachable SimpleExecutor.capacity Sample.zero
      ⟨(SimpleExecutor.new Unit Nat).spawn SimpleExecutor.capacity () .handle,
        [.user none (.run (.blockOn () fun r => .ready (r.getD 1)))]⟩ :=
    ⟨_, Run.cons trivial
      (Step.enter _ (.spawn () fun _ => .blockOn () fun r => .ready (r.getD 1)) [])
      (Run.single trivial (Step.spawn _ none () _ [] (.value 0)))⟩
  have hpeace : ∀ u, Peaceful Sample.zero u := fun u => ⟨fun _ => True, trivial, fun _ _ => trivial⟩
  refine ⟨_, rfl, rfl, spawn_appends_iff.2 _ none () _ [] hr rfl trivial
    (fun _ _ _ u _ => hpeace u) fun as b hrun hn => ?_⟩
  have hzeros : Returns none (fun r => .ready (r.getD 1)) [] b ∨
      Zeros (fun r => .ready (r.getD 1)) b :=
    hrun.invariant (P := fun b => Returns none _ [] b ∨ Zeros _ b) (Or.inr (Or.inl rfl))
      fun a _ b h hn hs => zeros_step (h.resolve_left hn) hs
  exact (hzeros.resolve_left hn).owns

/-- The thread spawns `k` tasks, then one more. -/
def Sample.spawns : Nat → Burst Unit Nat
  | 0 => .spawn () fun _ => .ready 0
  | k + 1 => .spawn () fun _ => Sample.spawns k

/-- With 1024 tasks queued, `spawn` leaves the queue as it is. -/
theorem not_spawn_appends : ¬ ∀ (s s' : State Unit Nat) a task u k fs,
    Reachable SimpleExecutor.capacity Sample.zero s →
    s.stack = .user task (.run (.spawn u k)) :: fs →
    Step SimpleExecutor.capacity Sample.zero s a s' → s'.shared.globalQueue =
      s.shared.globalQueue ++ [⟨s.shared.nextTaskId, .wrapped s.shared.spawned u⟩] := by
  intro h
  have hempty : (SimpleExecutor.new Unit Nat).globalQueue.length + 1024 ≤ 1024 := le_rfl
  obtain ⟨as, sh, -, hlen, hrun⟩ := spawn_repeat Sample.zero Sample.spawns (fun _ => rfl)
    (P := fun _ => True) (fun _ _ _ => trivial) 1024 trivial hempty
  have heq := h _ _ (.value 0) none () _ [] ⟨_, Run.cons trivial (Step.enter _ _ []) hrun⟩ rfl
    (Step.spawn sh none () _ [] _)
  have hfull : ¬ Room SimpleExecutor.capacity sh.globalQueue := by
    show ¬ Room (some 1024) sh.globalQueue
    rw [room_some]
    omega
  rw [show (sh.spawn SimpleExecutor.capacity () .handle).globalQueue = sh.globalQueue from
    pushBack_of_full hfull _] at heq
  simp at heq

end Luminal.NoStd
