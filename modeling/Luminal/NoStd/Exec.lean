import Luminal.NoStd.Executor

/-!
# Running the no_std executor

What the thread does is a function of the state and of the answer of the environment:
`State.next` computes it, and is sound and complete for `Step` (`step_iff_next`).
-/

namespace Luminal.NoStd

open Function Transition

variable {U V : Type} {cap : Option Nat} {poll : U → Burst U V}

/-- One action of user code. -/
def nextUser (cap : Option Nat) (sh : Shared U V) (a : Answer U V) (task : Option (Task U))
    (fs : List (Frame U V)) : Burst U V → Option (State U V)
  | .pending u =>
    match task, fs with
    | none, fs => some ⟨sh, .user none .idle :: fs⟩
    | some ⟨id, .wrapped ch _⟩, .blockOn c pc :: fs =>
      some ⟨sh.requeue cap id ch u, .blockOn c pc :: fs⟩
    | _, _ => none
  | .ready v =>
    match task, fs with
    | none, fs => some ⟨sh, .user none .idle :: fs⟩
    | some ⟨_, .wrapped ch _⟩, .blockOn c pc :: fs => some ⟨sh.finish ch v, .blockOn c pc :: fs⟩
    | _, _ => none
  | .panic => none
  | .outside k =>
    match a with
    | .value x => some ⟨sh, .user task (.run (k x)) :: fs⟩
    | .code _ => none
  | .spawn u k => some ⟨sh.spawn cap u .handle, .user task (.run (k sh.spawned)) :: fs⟩
  | .blockOn u k =>
    some ⟨sh.spawn cap u .blockOn, .blockOn sh.spawned (.poll 0) :: .user task (.wait k) :: fs⟩
  | .pollHandle h k =>
    if (sh.results h).holder = .handle then
      some ⟨(sh.pollHandle h).2, .user task (.run (k (sh.pollHandle h).1)) :: fs⟩
    else none
  | .dropHandle h k =>
    if (sh.results h).holder = .handle then some ⟨sh.dropHandle h, .user task (.run k) :: fs⟩
    else none
  | .cloneRuntime k | .dropRuntime k => some ⟨sh, .user task (.run k) :: fs⟩

/-- One action of the loop in `block_on`. -/
def nextLoop (poll : U → Burst U V) (sh : Shared U V) (c : Nat) (fs : List (Frame U V)) :
    BlockOnPc → Option (State U V)
  | .poll i =>
    match sh.globalQueue with
    | ⟨id, .wrapped ch u⟩ :: q =>
      if i < 10 then
        some ⟨{ sh with globalQueue := q, log := sh.log ++ [.polled ch] },
          .user (some ⟨id, .wrapped ch u⟩) (.run (poll u)) :: .blockOn c (.poll (i + 1)) :: fs⟩
      else some ⟨sh, .blockOn c .check :: fs⟩
    | ⟨_, .completed⟩ :: q =>
      if i < 10 then
        some ⟨{ sh with globalQueue := q, tasksProcessed := sh.tasksProcessed + 1 },
          .blockOn c (.poll (i + 1)) :: fs⟩
      else some ⟨sh, .blockOn c .check :: fs⟩
    | [] => some ⟨sh, .blockOn c .check :: fs⟩
  | .check =>
    match (sh.results c).items, fs with
    | v :: _, .user task (.wait k) :: fs =>
      some ⟨(sh.pollHandle c).2.dropHandle c, .user task (.run (k (some v))) :: fs⟩
    | _ :: _, _ => none
    | [], fs => some ⟨sh, .blockOn c (.poll 0) :: fs⟩

/-- What the thread does next. -/
def State.next (cap : Option Nat) (poll : U → Burst U V) (s : State U V) (a : Answer U V) :
    Option (State U V) :=
  match s.stack with
  | .user task (.run b) :: fs => nextUser cap s.shared a task fs b
  | .user none .idle :: fs =>
    match a with
    | .code b => some ⟨s.shared, .user none (.run b) :: fs⟩
    | .value _ => none
  | .blockOn c pc :: fs => nextLoop poll s.shared c fs pc
  | _ => none

theorem next_of_step {s s' : State U V} {a : Answer U V} (h : Step cap poll s a s') :
    s.next cap poll a = some s' := by
  cases h with
  | pollHandle sh task c k fs a hc => exact if_pos hc
  | dropHandle sh task c k fs a hc => exact if_pos hc
  | pop sh id ch u q c i fs a hi hq => simp [State.next, nextLoop, hq, hi]
  | popCompleted sh id q c i fs a hi hq => simp [State.next, nextLoop, hq, hi]
  | endBatch sh c i fs a hi =>
    simp only [State.next, nextLoop]
    split
    · next hq => exact if_neg fun hlt => by simp [hi hlt] at hq
    · next hq => exact if_neg fun hlt => by simp [hi hlt] at hq
    · rfl
  | «return» sh c v q task k fs a hv => simp [State.next, nextLoop, hv]
  | retry sh c fs a hn => simp [State.next, nextLoop, hn]
  | leavePending sh u fs a | leaveReady sh v fs a =>
    cases fs <;> rfl
  | _ => rfl

theorem step_of_nextUser {sh : Shared U V} {s' : State U V} {a : Answer U V}
    {task : Option (Task U)} {fs : List (Frame U V)} {b : Burst U V}
    (h : nextUser cap sh a task fs b = some s') :
    Step cap poll ⟨sh, .user task (.run b) :: fs⟩ a s' := by
  cases b with
  | pending u =>
    simp only [nextUser] at h
    split at h
    · cases h
      exact .leavePending ..
    · cases h
      exact .pending ..
    · cases h
  | ready v =>
    simp only [nextUser] at h
    split at h
    · cases h
      exact .leaveReady ..
    · cases h
      exact .ready ..
    · cases h
  | panic => cases h
  | outside k =>
    cases a with
    | code b => cases h
    | value x =>
      cases h
      exact .outside ..
  | spawn u k =>
    cases h
    exact .spawn ..
  | blockOn u k =>
    cases h
    exact .blockOn ..
  | pollHandle d k =>
    obtain ⟨hd, h⟩ := Option.ite_none_right_eq_some.1 h
    cases h
    exact .pollHandle _ _ _ _ _ _ hd
  | dropHandle d k =>
    obtain ⟨hd, h⟩ := Option.ite_none_right_eq_some.1 h
    cases h
    exact .dropHandle _ _ _ _ _ _ hd
  | cloneRuntime k =>
    cases h
    exact .cloneRuntime ..
  | dropRuntime k =>
    cases h
    exact .dropRuntime ..

theorem step_of_nextLoop {sh : Shared U V} {s' : State U V} {a : Answer U V} {c : Nat}
    {fs : List (Frame U V)} {pc : BlockOnPc} (h : nextLoop poll sh c fs pc = some s') :
    Step cap poll ⟨sh, .blockOn c pc :: fs⟩ a s' := by
  cases pc with
  | poll i =>
    simp only [nextLoop] at h
    split at h
    · next hq =>
      split at h <;> cases h
      · exact .pop _ _ _ _ _ _ _ _ _ ‹_› hq
      · exact .endBatch _ _ _ _ _ fun hlt => absurd hlt ‹_›
    · next hq =>
      split at h <;> cases h
      · exact .popCompleted _ _ _ _ _ _ _ ‹_› hq
      · exact .endBatch _ _ _ _ _ fun hlt => absurd hlt ‹_›
    · next hq =>
      cases h
      exact .endBatch _ _ _ _ _ fun _ => hq
  | check =>
    simp only [nextLoop] at h
    split at h
    · next hv =>
      cases h
      exact .return _ _ _ _ _ _ _ _ hv
    · cases h
    · next hn =>
      cases h
      exact .retry _ _ _ _ hn

theorem step_of_next {s s' : State U V} {a : Answer U V} (h : s.next cap poll a = some s') :
    Step cap poll s a s' := by
  obtain ⟨sh, stack⟩ := s
  unfold State.next at h
  split at h
  · next hs =>
    cases hs
    exact step_of_nextUser h
  · next hs =>
    cases hs
    split at h <;> cases h
    exact .enter ..
  · next hs =>
    cases hs
    exact step_of_nextLoop h
  · cases h

theorem step_iff_next {s s' : State U V} {a : Answer U V} :
    Step cap poll s a s' ↔ s.next cap poll a = some s' := ⟨next_of_step, step_of_next⟩

/-! ## Whole runs -/

/-- The run with these answers. -/
def State.nextAll (cap : Option Nat) (poll : U → Burst U V) :
    State U V → List (Answer U V) → Option (State U V)
  | s, [] => some s
  | s, a :: as => (s.next cap poll a).bind fun s' => s'.nextAll cap poll as

theorem State.nextAll_run {s s' : State U V} {as : List (Answer U V)}
    (h : s.nextAll cap poll as = some s') :
    Transition.Run (Step cap poll) Transition.always s as s' := by
  induction as generalizing s with
  | nil =>
    cases h
    exact Transition.Run.nil
  | cons a as ih =>
    obtain ⟨s₁, h1, h2⟩ := Option.bind_eq_some_iff.1 h
    exact Transition.Run.cons trivial (step_of_next h1) (ih h2)

/-- Answers that lead to a state with `P` show such a state reachable. -/
theorem reachable_of_nextAll (cap : Option Nat) (poll : U → Burst U V) {P : State U V → Prop}
    [DecidablePred P] (as : List (Answer U V))
    (h : ((State.init U V).nextAll cap poll as).any (fun s => P s) = true) :
    ∃ s, Reachable cap poll s ∧ P s := by
  rw [Option.any_eq_true] at h
  obtain ⟨s, hs, hP⟩ := h
  exact ⟨s, ⟨_, State.nextAll_run hs⟩, of_decide_eq_true hP⟩

/-- A few futures: a value, a value after one `Pending`, a nested `block_on`. -/
inductive Future where
  | value (v : Nat)
  | yield (v : Nat)
  | blockOn (future : Future)
  deriving DecidableEq

def Future.burst : Future → Burst Future Nat
  | .value v => .ready v
  | .yield v => .pending (.value v)
  | .blockOn u => .blockOn u fun r => .ready (r.getD 0)

end Luminal.NoStd
