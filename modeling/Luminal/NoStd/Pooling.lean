import Luminal.Lib.Custody
import Luminal.NoStd.Accounting
import Luminal.NoStd.Exec
import Luminal.Turns

/-!
# The no_std executor is a pool of tasks

The queue of the no_std executor is a way to choose among the jobs that wait, and a full one drops
the job that comes back (`State.Discards`): every action is at most two steps of the pool that the
std executor is one of, too.  So here as well each task does what its future does on its own
(`pool_of_reachable`).
-/

namespace Luminal.NoStd

open Transition

variable {U V : Type} {cap : Option Nat} {poll : U → Burst U V}

/-- A poll in progress. -/
def Frame.turn : Frame U V → Multiset (Nat × UserCode U V)
  | .user task code => code.turn task
  | .blockOn .. => 0

def Shared.submitted (sh : Shared U V) : Set (Nat × U) := { x | .spawned x.1 x.2 ∈ sh.log }

/-- The executor as a pool. -/
def State.pool (s : State U V) : Pool Nat U (UserCode U V) where
  submitted := s.shared.submitted
  waiting := holdings Task.job s.shared.globalQueue
  running := holdings Frame.turn s.stack

/-- A poll was `Pending` and the queue is full. -/
def State.Discards (cap : Option Nat) (s : State U V) : Prop :=
  ¬ Room cap s.shared.globalQueue ∧
    ∃ task u fs, s.stack = .user (some task) (.run (.pending u)) :: fs

/-- At most two steps of the pool. -/
def PoolSteps (poll : U → Burst U V) (lets : Prop) (P Q : Pool Nat U (UserCode U V)) : Prop :=
  Relation.Comp (Relation.ReflGen (Pool.Step (Burst.behaviour poll) lets))
    (Relation.ReflGen (Pool.Step (Burst.behaviour poll) lets)) P Q

theorem PoolSteps.mono {lets lets' : Prop} {P Q : Pool Nat U (UserCode U V)} (hl : lets → lets')
    (h : PoolSteps poll lets P Q) : PoolSteps poll lets' P Q := by
  obtain ⟨M, h1, h2⟩ := h
  exact ⟨M, h1.mono fun _ _ => .mono hl, h2.mono fun _ _ => .mono hl⟩

theorem PoolSteps.to_reflTransGen {lets : Prop} {P Q : Pool Nat U (UserCode U V)}
    (h : PoolSteps poll lets P Q) :
    Relation.ReflTransGen (Pool.Step (Burst.behaviour poll) lets) P Q := by
  obtain ⟨M, h1, h2⟩ := h
  exact h1.to_reflTransGen.trans h2.to_reflTransGen

/-! ## One action -/

section Turns

variable {lets : Prop} {sh : Shared U V} {fs : List (Frame U V)}

theorem submitted_append {l log : List (Event U V)} (h : sh.log = log ++ l)
    (hl : ∀ ch u, .spawned ch u ∉ l) : sh.submitted = { x | .spawned x.1 x.2 ∈ log } := by
  ext ⟨ch, u⟩
  show .spawned ch u ∈ sh.log ↔ .spawned ch u ∈ log
  rw [h, List.mem_append, or_iff_left (hl ch u)]

theorem submitted_pollHandle (c : Nat) : (sh.pollHandle c).2.submitted = sh.submitted := by
  unfold Shared.pollHandle
  split
  · refine submitted_append rfl fun ch u hmem => ?_
    cases List.mem_singleton.1 hmem
  · rfl

/-- The frame of a loop is no turn. -/
theorem pool_loop (c : Nat) (pc : BlockOnPc) :
    State.pool ⟨sh, .blockOn c pc :: fs⟩ = State.pool ⟨sh, fs⟩ := by
  unfold State.pool
  rw [holdings_cons]
  simp only [Frame.turn, zero_add]

theorem pool_code (task : Option (Task U)) {x y : UserCode U V} (h : x.Goes y) :
    Relation.ReflGen (Pool.Step (Burst.behaviour poll) lets)
      (State.pool ⟨sh, .user task x :: fs⟩) (State.pool ⟨sh, .user task y :: fs⟩) := by
  unfold State.pool
  simp only [holdings_cons, Frame.turn]
  exact turn_go task h

/-- A task that finds room is a new job; one that is refused is none. -/
theorem pool_spawn (u : U) (holder : Holder) (hnew : ∀ w, .spawned sh.spawned w ∉ sh.log) :
    Relation.ReflGen (Pool.Step (Burst.behaviour poll) lets) (State.pool ⟨sh, fs⟩)
      (State.pool ⟨sh.spawn cap u holder, fs⟩) := by
  unfold State.pool
  by_cases hroom : Room cap sh.globalQueue
  · have hsub : (sh.spawn cap u holder).submitted = insert (sh.spawned, u) sh.submitted := by
      ext ⟨d, w⟩
      show .spawned d w ∈ sh.log ++ [if _ then _ else _] ↔ _
      rw [if_pos hroom, List.mem_append, List.mem_singleton, or_comm, Event.spawned.injEq,
        Set.mem_insert_iff, Prod.mk.injEq]
      rfl
    simp only [hsub, Shared.spawn_queue hroom, holdings_append, holdings_cons, holdings_nil,
      Task.job, add_zero]
    rw [add_comm, Multiset.singleton_add]
    exact .single (.submit sh.spawned u hnew)
  · have hsub : (sh.spawn cap u holder).submitted = sh.submitted := by
      refine submitted_append rfl fun ch w hmem => ?_
      rw [if_neg hroom] at hmem
      cases List.mem_singleton.1 hmem
    have hqueue : (sh.spawn cap u holder).globalQueue = sh.globalQueue := pushBack_of_full hroom _
    simp only [hsub, hqueue]
    exact .refl

/-- A task that was pending waits again, or is dropped by the full queue. -/
theorem pool_pending (id : TaskId) (ch : Nat) (u₀ u : U)
    (hlets : ¬ Room cap sh.globalQueue → lets) :
    PoolSteps poll lets
      (State.pool ⟨sh, .user (some ⟨id, .wrapped ch u₀⟩) (.run (.pending u)) :: fs⟩)
      (State.pool ⟨sh.requeue cap id ch u, fs⟩) := by
  have hsub : (sh.requeue cap id ch u).submitted = sh.submitted := by
    refine submitted_append rfl fun d w hmem => ?_
    split at hmem <;> cases List.mem_singleton.1 hmem
  unfold State.pool
  simp only [hsub, holdings_cons, Frame.turn]
  refine ⟨_, .single (turn_pause id ch u₀ u), ?_⟩
  by_cases hroom : Room cap sh.globalQueue
  · have hqueue : (sh.requeue cap id ch u).globalQueue =
        sh.globalQueue ++ [⟨id, .wrapped ch u⟩] := pushBack_of_room hroom _
    simp only [hqueue, holdings_append, holdings_cons, holdings_nil, Task.job, add_zero]
    rw [add_comm, Multiset.singleton_add]
  · have hqueue : (sh.requeue cap id ch u).globalQueue = sh.globalQueue := pushBack_of_full hroom _
    rw [hqueue, ← Multiset.singleton_add]
    exact .single (.drop {(ch, u)} (hlets hroom))

theorem pool_ready (id : TaskId) (ch : Nat) (u : U) (v : V) :
    Relation.ReflGen (Pool.Step (Burst.behaviour poll) lets)
      (State.pool ⟨sh, .user (some ⟨id, .wrapped ch u⟩) (.run (.ready v)) :: fs⟩)
      (State.pool ⟨sh.finish ch v, fs⟩) := by
  have hsub : (sh.finish ch v).submitted = sh.submitted := by
    refine submitted_append rfl fun d w hmem => ?_
    cases List.mem_singleton.1 hmem
  unfold State.pool
  simp only [hsub, holdings_cons, Frame.turn]
  exact .single (turn_finish id ch u (Or.inl ⟨v, rfl⟩))

/-- The task in front gets its turn. -/
theorem pool_pop {id : TaskId} {ch : Nat} {u : U} {q : List (Task U)} {gs : List (Frame U V)}
    (hq : sh.globalQueue = ⟨id, .wrapped ch u⟩ :: q)
    (hturn : holdings Frame.turn gs = holdings Frame.turn fs) :
    Relation.ReflGen (Pool.Step (Burst.behaviour poll) lets) (State.pool ⟨sh, fs⟩)
      (State.pool ⟨{ sh with globalQueue := q, log := sh.log ++ [.polled ch] },
        .user (some ⟨id, .wrapped ch u⟩) (.run (poll u)) :: gs⟩) := by
  have hsub : ({ sh with globalQueue := q, log := sh.log ++ [.polled ch] } : Shared U V).submitted =
      sh.submitted := by
    refine submitted_append rfl fun d w hmem => ?_
    cases List.mem_singleton.1 hmem
  unfold State.pool
  simp only [hsub, hq, holdings_cons, hturn, Frame.turn, Task.job, UserCode.turn,
    Multiset.singleton_add]
  exact .single (.start ch u)

end Turns

/-- **An action of the thread is at most two steps of the pool.** -/
theorem step_pool {s s' : State U V} {a : Answer U V} (h : Accounted s)
    (hs : Step cap poll s a s') :
    PoolSteps poll (s.Discards cap) s.pool s'.pool := by
  have hnew : ∀ w, .spawned s.shared.spawned w ∉ s.shared.log := by
    intro w hw
    have hpos := (accepted_pos_iff _ _).2 ⟨w, hw⟩
    have hcalled := h.called s.shared.spawned
    rw [born, if_neg (Nat.lt_irrefl _)] at hcalled
    omega
  have hone : ∀ {P Q : Pool Nat U (UserCode U V)},
      Relation.ReflGen (Pool.Step (Burst.behaviour poll) (s.Discards cap)) P Q →
      PoolSteps poll (s.Discards cap) P Q := fun h => ⟨_, h, .refl⟩
  cases hs with
  | enter | leavePending | leaveReady => exact hone .refl
  | outside sh task k fs x => exact hone <| pool_code task (.outside k x)
  | spawn sh task u k fs a =>
    exact ⟨_, pool_code task (.spawn u k sh.spawned), pool_spawn u .handle hnew⟩
  | blockOn sh task u k fs a =>
    rw [pool_loop]
    exact ⟨_, pool_code task (.blockOn u k), pool_spawn u .blockOn hnew⟩
  | pollHandle sh task c k fs a _ =>
    have hstay : State.pool ⟨(sh.pollHandle c).2, .user task (.run (k (sh.pollHandle c).1)) :: fs⟩ =
        State.pool ⟨sh, .user task (.run (k (sh.pollHandle c).1)) :: fs⟩ := by
      simp only [State.pool, submitted_pollHandle, Shared.pollHandle_queue]
    rw [hstay]
    exact hone <| pool_code task (.pollHandle c k _)
  | dropHandle sh task c k fs a _ => exact hone <| pool_code task (.dropHandle c k)
  | cloneRuntime sh task k fs a => exact hone <| pool_code task (.cloneRuntime k)
  | dropRuntime sh task k fs a => exact hone <| pool_code task (.dropRuntime k)
  | pop sh id ch u q c i fs a _ hq =>
    exact hone <| pool_pop hq (by rw [holdings_cons, holdings_cons]; rfl)
  | popCompleted sh id q c i fs a _ hq =>
    rw [pool_loop, pool_loop]
    have hstay : State.pool ⟨sh, fs⟩ = State.pool ⟨{ sh with
        globalQueue := q, tasksProcessed := sh.tasksProcessed + 1 }, fs⟩ := by
      simp only [State.pool, hq, holdings_cons, Task.job, zero_add]
      rfl
    rw [hstay]
    exact hone .refl
  | endBatch sh c i fs a _ | retry sh c fs a _ =>
    rw [pool_loop, pool_loop]
    exact hone .refl
  | pending sh id ch u₀ u c pc fs a =>
    exact pool_pending id ch u₀ u fun hfull => ⟨hfull, _, _, _, rfl⟩
  | ready sh id ch u v c pc fs a => exact hone <| pool_ready id ch u v
  | «return» sh c v q task k fs a hv =>
    rw [pool_loop]
    have hstay :
        State.pool ⟨(sh.pollHandle c).2.dropHandle c, .user task (.run (k (some v))) :: fs⟩ =
        State.pool ⟨sh, .user task (.run (k (some v))) :: fs⟩ := by
      have hsub : ((sh.pollHandle c).2.dropHandle c).submitted = sh.submitted :=
        submitted_pollHandle c
      have hqueue : ((sh.pollHandle c).2.dropHandle c).globalQueue = sh.globalQueue :=
        Shared.pollHandle_queue ..
      simp only [State.pool, hsub, hqueue]
    rw [hstay]
    exact hone <| pool_code task (.resume k _)

end Luminal.NoStd
