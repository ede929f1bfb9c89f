import Luminal.NoStd.Exec
import Luminal.NoStd.Locking

/-!
# The lock does not show

Where nothing panics and destructors do nothing, the executor with its lock and the executor of
`NoStd.Step` reach the same states: what a thread does under the lock is one step of the latter
(`refines_step`), and each step of the latter is done by a run of the former that gives the lock
back (`realizes_step`).  The thread never waits for a lock that it holds (`tidy_step`).
-/

namespace Luminal.NoStd.Locked

open Function Transition

variable {U V : Type} {cap : Option Nat} {poll drop : U → Burst U V}

/-- A finite run without panics. -/
def Calm (cap : Option Nat) (poll drop : U → Burst U V) (s s' : State U V) : Prop :=
  ∃ as, Run (Step cap poll drop) (fun a _ => ¬ a.Panics) s as s'

namespace Calm

variable {a b c : State U V} {l : Answer U V}

theorem trans (h1 : Calm cap poll drop a b) (h2 : Calm cap poll drop b c) :
    Calm cap poll drop a c := by
  obtain ⟨as, h1⟩ := h1
  obtain ⟨bs, h2⟩ := h2
  exact ⟨_, h1.append h2⟩

section Steps

variable {sh : Shared U V} {g : Bool} {f : Frame U V} {fs : List (Frame U V)}

theorem single (hs : Step cap poll drop ⟨sh, g, f :: fs⟩ l b)
    (hf : ∀ w, f ≠ .user w (.run .panic) := by nofun) :
    Calm cap poll drop ⟨sh, g, f :: fs⟩ b := by
  refine ⟨_, Run.single ?_ hs⟩
  rintro ⟨w, gs, heq⟩
  cases heq
  exact hf w rfl

/-- One step, and what comes after it. -/
theorem step (hs : Step cap poll drop ⟨sh, g, f :: fs⟩ l b) (h : Calm cap poll drop b c)
    (hf : ∀ w, f ≠ .user w (.run .panic) := by nofun) :
    Calm cap poll drop ⟨sh, g, f :: fs⟩ c :=
  (single hs hf).trans h

end Steps

end Calm

section Operations

variable (sh : Shared U V) (fs : List (Frame U V))

/-- **A push under the lock**, with the destructor of what is refused. -/
theorem calm_push (hdrop : ∀ u, ∃ v, drop u = .ready v) (site : Site U) :
    Calm cap poll drop ⟨sh, false, .push site .lock :: fs⟩
      ⟨site.push cap sh, true, .push site (.unlock (site.ch sh)) :: fs⟩ := by
  refine .step (.lockPush sh site fs (.value 0)) ?_
  by_cases hroom : Room cap sh.globalQueue
  · exact .single (.push sh true site fs (.value 0) hroom)
  · obtain ⟨v, hv⟩ := hdrop site.future
    refine .step (.refused sh true site fs (.value 0) hroom) ?_
    rw [hv]
    exact .single (.dropReady _ true v _ (.value 0))

/-- **A `pop_front` under the lock.** -/
theorem calm_pop : Calm cap poll drop ⟨sh, false, .pop .lock :: fs⟩
    ⟨{ sh with globalQueue := sh.globalQueue.tail }, false,
      .taken sh.globalQueue.head? :: fs⟩ := by
  refine .step (.lockPop sh fs (.value 0)) ?_
  refine .step (.popFront sh true fs (.value 0)) ?_
  exact .single (.unlockPop _ true _ fs (.value 0))

end Operations

/-- **Each step without the lock is done by a run that gives the lock back.** -/
theorem realizes_step (hdrop : ∀ u, ∃ v, drop u = .ready v) {t t' : NoStd.State U V}
    {l : Answer U V} {fs : List (Frame U V)} (h : Shows fs t.stack)
    (hs : NoStd.Step cap poll t l t') :
    ∃ fs', Shows fs' t'.stack ∧
      Calm cap poll drop ⟨t.shared, false, fs⟩ ⟨t'.shared, false, fs'⟩ := by
  cases hs with
  -- the steps of the thread and of user code are the same
  | enter sh b gs =>
    obtain - | ⟨_, ⟨⟩, h⟩ := h
    exact ⟨_, .user _ .thread h, .single (.enter sh false b _)⟩
  | leavePending sh u gs a =>
    obtain - | ⟨_, ⟨⟩, h⟩ := h
    exact ⟨_, .user _ .thread h, .single (.leavePending sh false u _ l)⟩
  | leaveReady sh v gs a =>
    obtain - | ⟨_, ⟨⟩, h⟩ := h
    exact ⟨_, .user _ .thread h, .single (.leaveReady sh false v _ l)⟩
  | outside sh task k gs x =>
    obtain - | ⟨_, hw, h⟩ := h
    exact ⟨_, .user _ hw h, .single (.outside sh false _ k _ x)⟩
  | pollHandle sh task d k gs a hd =>
    obtain - | ⟨_, hw, h⟩ := h
    exact ⟨_, .user _ hw h, .single (.pollHandle sh false _ d k _ l hd)⟩
  | dropHandle sh task d k gs a hd =>
    obtain - | ⟨_, hw, h⟩ := h
    exact ⟨_, .user _ hw h, .single (.dropHandle sh false _ d k _ l hd)⟩
  | cloneRuntime sh task k gs a =>
    obtain - | ⟨_, hw, h⟩ := h
    exact ⟨_, .user _ hw h, .single (.cloneRuntime sh false _ k _ l)⟩
  | dropRuntime sh task k gs a =>
    obtain - | ⟨_, hw, h⟩ := h
    exact ⟨_, .user _ hw h, .single (.dropRuntime sh false _ k _ l)⟩
  -- the calls that push
  | spawn sh task u k gs a =>
    obtain - | ⟨_, hw, h⟩ := h
    refine ⟨_, .user _ hw h, .step (.callSpawn sh false _ u k _ l) ?_⟩
    exact (calm_push sh _ hdrop _).trans (.single (.spawned _ true u _ _ u k _ l))
  | blockOn sh task u k gs a =>
    obtain - | ⟨_, hw, h⟩ := h
    refine ⟨_, .blockOn _ _ (.user _ hw h), .step (.callBlockOn sh false _ u k _ l) ?_⟩
    exact (calm_push sh _ hdrop _).trans (.single (.startBlockOn _ true u _ _ u k _ l))
  | pending sh id ch u₀ u c pc gs a =>
    obtain - | ⟨_, ⟨⟩, - | - | ⟨_, _, h⟩⟩ := h
    refine ⟨_, .blockOn _ _ h, .step (.pending sh false id ch u₀ u c pc _ l) ?_⟩
    exact (calm_push sh _ hdrop _).trans (.single (.requeued _ true id ch u _ c pc _ l))
  -- the rounds of `block_on`
  | pop sh id ch u q c i gs a hi hq =>
    obtain - | - | ⟨_, _, h⟩ := h
    refine ⟨_, .user _ (.poll _) (.blockOn _ _ h), .step (.round sh false c i _ l hi) ?_⟩
    refine (calm_pop sh _).trans ?_
    simp only [hq, List.head?_cons, List.tail_cons]
    exact .single (.poll _ false id ch u c i _ l)
  | popCompleted sh id q c i gs a hi hq =>
    obtain - | - | ⟨_, _, h⟩ := h
    refine ⟨_, .blockOn _ _ h, .step (.round sh false c i _ l hi) ?_⟩
    refine (calm_pop sh _).trans ?_
    simp only [hq, List.head?_cons, List.tail_cons]
    exact .single (.pollCompleted _ false id c i _ l)
  | endBatch sh c i gs a hq =>
    obtain - | - | ⟨_, _, h⟩ := h
    refine ⟨_, .blockOn _ _ h, ?_⟩
    by_cases hi : i < 10
    · refine .step (.round sh false c i _ l hi) ((calm_pop sh _).trans ?_)
      have hnil := hq hi
      simp only [hnil, List.head?_nil, List.tail_nil]
      obtain ⟨q, id, tp, sp, res, log⟩ := sh
      obtain rfl : q = [] := hnil
      exact .single (.noTask _ false c i _ l)
    · exact .single (.endBatch sh false c i _ l hi)
  -- the end of a task
  | ready sh id ch u v c pc gs a =>
    obtain - | ⟨_, ⟨⟩, - | - | ⟨_, _, h⟩⟩ := h
    obtain ⟨w, hw⟩ := hdrop u
    refine ⟨_, .blockOn _ _ h, .step (.ready sh false id ch u u v c pc _ l) ?_⟩
    rw [hw]
    refine .step (.dropReady sh false w _ l) ?_
    exact .single (.finish sh false ch v c pc _ l)
  | «return» sh c v q task k gs a hv =>
    obtain - | - | ⟨_, _, - | ⟨_, hw, h⟩⟩ := h
    exact ⟨_, .user _ hw h, .single (.return sh false c v q _ k _ l hv)⟩
  | retry sh c gs a hnil =>
    obtain - | - | ⟨_, _, h⟩ := h
    exact ⟨_, .blockOn _ _ h, .single (.retry sh false c _ l hnil)⟩

/-! ## Waiting for the lock -/

/-- The lock is held in the scope on top of the stack, or in the one below a destructor that is
about to end. -/
def State.Tidy (s : State U V) : Prop :=
  s.Scoped ∨ ∃ v fs, s.stack = .user .drop (.run (.ready v)) :: fs ∧
    (State.mk s.shared s.guard fs).Scoped

theorem tidy_step (hdrop : ∀ u, ∃ v, drop u = .ready v) {a b : State U V} {l : Answer U V}
    (hs : Step cap poll drop a l b) (ha : a.Tidy) : b.Tidy := by
  rcases ha with ha | ⟨v, fs, hfs, ha⟩
  · by_cases hroom : a.FindsRoom cap
    · exact Or.inl (step_scoped hs ha hroom)
    -- what is refused is destroyed under the lock
    · simp only [State.FindsRoom, not_forall] at hroom
      obtain ⟨site, fs, hfs, hfull⟩ := hroom
      cases hs with
      | refused sh g site' fs' l hfull' =>
        obtain ⟨v, hv⟩ := hdrop site'.future
        refine Or.inr ⟨v, _, by rw [hv], ?_⟩
        rintro f gs heq hf
        cases heq
        cases hf
      | push sh g site' fs' l hroom =>
        cases hfs
        exact absurd hroom hfull
      | _ => cases hfs
  · cases hs with
    | dropReady =>
      cases hfs
      exact Or.inl ha
    | _ => cases hfs

theorem Tidy.free {s : State U V} (h : s.Tidy) {f : Frame U V} {fs : List (Frame U V)}
    (hfs : s.stack = f :: fs) (hf : f.Locks) : s.guard = false := by
  rcases h with h | ⟨v, gs, hgs, -⟩
  · exact Scoped.unlocked h f fs hfs (Or.inr hf)
  · rw [hgs] at hfs
    cases hfs
    cases hf

/-- **The lock does not show.**  Where nothing panics and destructors do nothing, each state of the
executor with its lock is one of the executor without, seen in the midst of an operation, and the
thread never waits for the lock; and each state of the latter is reached with the lock free. -/
theorem lock_invisible (hdrop : ∀ u, ∃ v, drop u = .ready v) :
    (∀ s, Calm cap poll drop (State.init U V) s →
      (∃ t, NoStd.Reachable cap poll t ∧ Refines s t) ∧
        ∀ f fs, s.stack = f :: fs → f.Locks → s.guard = false) ∧
    ∀ t, NoStd.Reachable cap poll t →
      ∃ fs, Shows fs t.stack ∧ Calm cap poll drop (State.init U V) ⟨t.shared, false, fs⟩ := by
  constructor
  · rintro s ⟨as, hr⟩
    refine ⟨refines_reachable hdrop hr, fun f fs hfs hf => Tidy.free ?_ hfs hf⟩
    exact hr.invariant (P := State.Tidy) (Or.inl fun _ _ _ _ => rfl) fun a l b ha _ hs =>
      tidy_step hdrop hs ha
  · rintro t ⟨ls, hr⟩
    refine hr.invariant (P := fun t => ∃ fs, Shows fs t.stack ∧
      Calm cap poll drop (State.init U V) ⟨t.shared, false, fs⟩)
      ⟨_, .user _ .thread .nil, ⟨[], Run.nil⟩⟩ ?_
    rintro a l b ⟨fs, hfs, hcalm⟩ - hs
    obtain ⟨gs, hgs, hcalm'⟩ := realizes_step hdrop hfs hs
    exact ⟨gs, hgs, hcalm.trans hcalm'⟩

/-- The second of two spawns finds the queue full, and its future is destroyed under the lock. -/
theorem lock_invisible_refused : ∃ s : State Future Nat,
    Calm (some 1) Future.burst (fun _ => .ready 0) (State.init Future Nat) s ∧
    s.shared.log = [.spawned 0 (.value 1), .refused 1 (.value 2)] ∧
    (∃ t, NoStd.Reachable (some 1) Future.burst t ∧ Refines s t) ∧
    ∀ f fs, s.stack = f :: fs → f.Locks → s.guard = false := by
  obtain ⟨t, ht, hlog⟩ : ∃ t, (NoStd.State.init Future Nat).nextAll (some 1) Future.burst
      [.code (.spawn (.value 1) fun _ => .spawn (.value 2) fun _ => .ready 0), .value 0, .value 0] =
        some t ∧ t.shared.log = [.spawned 0 (.value 1), .refused 1 (.value 2)] := ⟨_, rfl, rfl⟩
  obtain ⟨hseen, hreached⟩ := @lock_invisible Future Nat (some 1) Future.burst
    (fun _ => .ready 0) fun _ => ⟨0, rfl⟩
  obtain ⟨fs, -, hcalm⟩ := hreached t ⟨_, State.nextAll_run ht⟩
  exact ⟨_, hcalm, hlog, hseen _ hcalm⟩

end Luminal.NoStd.Locked
