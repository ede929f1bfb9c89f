import Luminal.Lib.Fifo
import Luminal.NoStd.Executor

/-!
# The loop of the no_std executor serves round-robin

Without nested calls of `block_on` and on an unbounded queue, the loop is the server of
`Fifo`: it takes the task at the front, and the task goes to the back or is done
(`replays_openRun`).  `OpenStep` lets other threads call `spawn` at any time.
-/

namespace Luminal.NoStd

open Function Transition Fifo

variable {U V : Type} {poll : U → Burst U V}

/-- The queue operations in a log, tasks named by their spawns. -/
def ops (log : List (Event U V)) : List (Op Nat) :=
  log.filterMap fun
    | .spawned ch _ => some (.arrive ch)
    | .polled ch => some (.take ch)
    | .requeued ch => some (.back ch)
    | .ready ch _ => some (.leave ch)
    | _ => none

/-- A step of the thread, or a `spawn` called elsewhere; the queue is unbounded. -/
inductive OpenStep (poll : U → Burst U V) : State U V → Answer U V → State U V → Prop
  | own {s s' : State U V} {a : Answer U V} : Step none poll s a s' → OpenStep poll s a s'
  | arrive (sh : Shared U V) (u : U) (fs : List (Frame U V)) (a : Answer U V) :
      OpenStep poll ⟨sh, fs⟩ a ⟨sh.spawn none u .handle, fs⟩

/-- A task being polled is about to call `block_on`. -/
def State.Nests (s : State U V) : Prop :=
  ∃ task u k fs, s.stack = .user (some task) (.run (.blockOn u k)) :: fs

/-- The stacks of a thread that runs one `block_on` at most, with the task it polls. -/
inductive Looping : List (Frame U V) → Option Nat → Prop
  | user (code : UserCode U V) : Looping [.user none code] none
  | loop (c : Nat) (pc : BlockOnPc) (k : Option V → Burst U V) :
      Looping [.blockOn c pc, .user none (.wait k)] none
  | polling (id : TaskId) (ch : Nat) (u : U) (b : Burst U V) (c : Nat) (pc : BlockOnPc)
      (k : Option V → Burst U V) :
      Looping [.user (some ⟨id, .wrapped ch u⟩) (.run b), .blockOn c pc, .user none (.wait k)]
        (some ch)

/-- The log is that of a round-robin server whose queue is the executor's. -/
def Serves (s : State U V) : Prop :=
  ∃ hand, Looping s.stack hand ∧
    Replays (ops s.shared.log) ⟨s.shared.globalQueue.filterMap Task.ch?, hand⟩

theorem replays_spawn {sh : Shared U V} {hand : Option Nat} (u : U) (holder : Holder)
    (h : Replays (ops sh.log) ⟨sh.globalQueue.filterMap Task.ch?, hand⟩) :
    Replays (ops (sh.spawn none u holder).log)
      ⟨(sh.spawn none u holder).globalQueue.filterMap Task.ch?, hand⟩ := by
  have := h.arrive sh.spawned
  simpa [Shared.spawn, pushBack, ops] using this

theorem replays_pollHandle {sh : Shared U V} {q : Queue Nat} (c : Nat)
    (h : Replays (ops sh.log) q) : Replays (ops (sh.pollHandle c).2.log) q := by
  unfold Shared.pollHandle
  split
  · simpa [ops] using h
  · exact h

theorem serves_step {s s' : State U V} {a : Answer U V} (h : Serves s) (hn : ¬ s.Nests)
    (hs : OpenStep poll s a s') : Serves s' := by
  obtain ⟨hand, hl, hr⟩ := h
  cases hs with
  | arrive sh u fs a => exact ⟨hand, hl, replays_spawn u .handle hr⟩
  | own hs =>
    cases hs with
    | enter sh b fs | leavePending sh u fs a | leaveReady sh v fs a =>
      cases hl
      exact ⟨none, .user _, hr⟩
    | outside sh task k fs x =>
      cases hl with
      | user => exact ⟨_, .user _, hr⟩
      | polling => exact ⟨_, .polling .., hr⟩
    | spawn sh task u k fs a =>
      cases hl with
      | user => exact ⟨_, .user _, replays_spawn u .handle hr⟩
      | polling => exact ⟨_, .polling .., replays_spawn u .handle hr⟩
    | blockOn sh task u k fs a =>
      cases hl with
      | user => exact ⟨_, .loop .., replays_spawn u .blockOn hr⟩
      | polling => exact absurd ⟨_, _, _, _, rfl⟩ hn
    | pollHandle sh task c k fs a _ =>
      have hr' := replays_pollHandle c hr
      rw [← Shared.pollHandle_queue sh c] at hr'
      cases hl with
      | user => exact ⟨_, .user _, hr'⟩
      | polling => exact ⟨_, .polling .., hr'⟩
    | dropHandle sh task c k fs a _ =>
      cases hl with
      | user => exact ⟨_, .user _, hr⟩
      | polling => exact ⟨_, .polling .., hr⟩
    | cloneRuntime sh task k fs a | dropRuntime sh task k fs a =>
      cases hl with
      | user => exact ⟨_, .user _, hr⟩
      | polling => exact ⟨_, .polling .., hr⟩
    | pop sh id ch u q c i fs a _ hq =>
      cases hl
      rw [hq, List.filterMap_cons_some (Task.ch?_wrapped id ch u)] at hr
      refine ⟨_, .polling .., ?_⟩
      simpa [ops] using hr.take
    | popCompleted sh id q c i fs a _ hq =>
      cases hl
      have hnone : (⟨id, .completed⟩ : Task U).ch? = none := rfl
      rw [hq, List.filterMap_cons_none hnone] at hr
      exact ⟨_, .loop .., hr⟩
    | endBatch sh c i fs a _ | retry sh c fs a _ =>
      cases hl
      exact ⟨_, .loop .., hr⟩
    | pending sh id ch u₀ u c pc fs a =>
      cases hl
      refine ⟨_, .loop .., ?_⟩
      simpa [Shared.requeue, pushBack, ops] using hr.back
    | ready sh id ch u v c pc fs a =>
      cases hl
      refine ⟨_, .loop .., ?_⟩
      simpa [Shared.finish, ops] using hr.leave
    | «return» sh c v q task k fs a _ =>
      cases hl
      have hr' := replays_pollHandle c hr
      rw [← Shared.pollHandle_queue sh c] at hr'
      exact ⟨_, .user _, hr'⟩

/-- **Every run without nested calls is that of a round-robin server**, whether it starts with an
idle thread or in the loop. -/
theorem replays_openRun {as : List (Answer U V)} {fs : List (Frame U V)} {s : State U V}
    (h0 : Looping fs none)
    (h : Run (OpenStep poll) (fun a _ => ¬ a.Nests) ⟨SimpleExecutor.new U V, fs⟩ as s) : Serves s :=
  h.invariant ⟨none, h0, .nil⟩ fun _ _ _ ha hn hs => serves_step ha hn hs

/-! ## Every round-robin server is such a run -/

/-- A future whose polls end as the environment says. -/
def anyOutcome (_ : Unit) : Burst Unit Nat :=
  .outside fun x => if x = 0 then .pending () else .ready 0

/-- The loop of a `block_on` whose result never comes, on top of its caller. -/
def loopStack (c : Nat) (pc : BlockOnPc) : List (Frame Unit Nat) :=
  [.blockOn c pc, .user none (.wait fun _ => .ready 0)]

/-- The loop after some operations: nobody is being served, or someone is. -/
structure Follows {α : Type*} (c : Nat) (o : List (Op α)) (q : Queue α) (s : State Unit Nat) :
    Prop where
  inputs : inputs (ops s.shared.log) = Fifo.inputs o
  arrivals : s.shared.spawned = (arrived o).length
  unfinished : (s.shared.results c).items = []
  queue : s.shared.globalQueue.length = q.waiting.length
  wrapped : ∀ p ∈ s.shared.globalQueue, ∃ id ch, ch < s.shared.spawned ∧ p = ⟨id, .wrapped ch ()⟩
  stack : match q.inHand with
    | none => ∃ pc, s.stack = loopStack c pc
    | some _ => ∃ id ch pc, ch < s.shared.spawned ∧ s.stack =
      .user (some ⟨id, .wrapped ch ()⟩) (.run (anyOutcome ())) :: loopStack c pc

/-- A run of the open system without nested calls. -/
abbrev OpenRun (poll : U → Burst U V) (s : State U V) (as : List (Answer U V)) (s' : State U V) :
    Prop := Run (OpenStep poll) (fun a _ => ¬ a.Nests) s as s'

theorem not_nests_loopStack (sh : Shared Unit Nat) (c : Nat) (pc : BlockOnPc) :
    ¬ (State.mk sh (loopStack c pc)).Nests := by
  rintro ⟨task, u, k, fs, h⟩
  cases h

theorem Follows.not_nests {α : Type*} {c : Nat} {o : List (Op α)} {q : Queue α}
    {s : State Unit Nat} (h : Follows c o q s) : ¬ s.Nests := by
  rintro ⟨task, u, k, fs, hfs⟩
  have hs := h.stack
  split at hs
  · obtain ⟨pc, hs⟩ := hs
    rw [hs] at hfs
    cases hfs
  · obtain ⟨id, ch, pc, -, hs⟩ := hs
    rw [hs] at hfs
    cases hfs

/-- The loop goes on to its next poll. -/
theorem loop_to_poll (sh : Shared Unit Nat) {c : Nat} (hc : (sh.results c).items = [])
    (pc : BlockOnPc) : ∃ as i, i < 10 ∧
      OpenRun anyOutcome ⟨sh, loopStack c pc⟩ as ⟨sh, loopStack c (.poll i)⟩ := by
  have hretry : OpenRun anyOutcome ⟨sh, loopStack c .check⟩ [.value 0]
    ⟨sh, loopStack c (.poll 0)⟩ :=
    Run.single (not_nests_loopStack sh c .check) (.own (Step.retry sh c _ _ hc))
  cases pc with
  | poll i =>
    by_cases hi : i < 10
    · exact ⟨[], i, hi, Run.nil⟩
    · have hend : Step none anyOutcome ⟨sh, loopStack c (.poll i)⟩ (.value 0)
          ⟨sh, loopStack c .check⟩ := Step.endBatch sh c i _ _ fun h => absurd h hi
      exact ⟨_, 0, by omega, Run.cons (not_nests_loopStack sh c _) (.own hend) hretry⟩
  | check => exact ⟨_, 0, by omega, hretry⟩

/-- A poll that ends as the environment says. -/
theorem loop_outcome (sh : Shared Unit Nat) (id : TaskId) (ch c : Nat) (pc : BlockOnPc)
    (x : Nat) : OpenRun anyOutcome
      ⟨sh, .user (some ⟨id, .wrapped ch ()⟩)
        (.run (anyOutcome ())) :: loopStack c pc⟩ [.value x, .value 0]
      ⟨if x = 0 then sh.requeue none id ch () else sh.finish ch 0, loopStack c pc⟩ := by
  refine Run.cons ?_ (.own (Step.outside sh _ _ (loopStack c pc) x)) (Run.single ?_ (.own ?_))
  · rintro ⟨task, u, k, fs, h⟩
    cases h
  · rintro ⟨task, u, k, fs, h⟩
    split at h <;> cases h
  · by_cases hx : x = 0
    · simp only [hx, if_true]
      exact Step.pending sh id ch () () c pc _ _
    · simp only [hx, if_false]
      exact Step.ready sh id ch () 0 c pc _ _

section Operations

variable {α : Type*} {c : Nat} {o : List (Op α)} {w : List α} {x : α} {sh : Shared Unit Nat}

/-- A new task arrives at the back of the queue. -/
theorem Follows.arrive {hand : Option α} {fs : List (Frame Unit Nat)}
    (h : Follows c o ⟨w, hand⟩ ⟨sh, fs⟩) (hc : (arrived o).length < c) :
    Follows c (o ++ [.arrive x]) ⟨w ++ [x], hand⟩ ⟨sh.spawn none () .handle, fs⟩ := by
  have hlt : sh.spawned < c := by
    have := h.arrivals
    simp only at this
    omega
  refine ⟨?_, ?_, ?_, ?_, ?_, ?_⟩
  · have := h.inputs
    simp [Shared.spawn, ops, Fifo.inputs] at this ⊢
    exact this
  · have harr : arrived (o ++ [.arrive x]) = arrived o ++ [x] := by simp [arrived]
    rw [harr, List.length_append, ← h.arrivals]
    rfl
  · simpa [Shared.spawn, Nat.ne_of_gt hlt] using h.unfinished
  · simpa [Shared.spawn, pushBack] using h.queue
  · intro p hp
    simp only [Shared.spawn, pushBack, room_none, if_true, List.mem_append] at hp
    rcases hp with hp | hp
    · obtain ⟨id, ch, hch, rfl⟩ := h.wrapped p hp
      exact ⟨id, ch, Nat.lt_succ_of_lt hch, rfl⟩
    · cases List.mem_singleton.1 hp
      exact ⟨_, sh.spawned, Nat.lt_succ_self _, rfl⟩
  · have := h.stack
    cases hand with
    | none => exact this
    | some y =>
      obtain ⟨id, ch, pc, hch, hs⟩ := this
      exact ⟨id, ch, pc, Nat.lt_succ_of_lt hch, hs⟩

/-- The loop takes the task at the front. -/
theorem Follows.take {id : TaskId} {ch i : Nat} {q : List (Task Unit)} {pc : BlockOnPc}
    (h : Follows c o ⟨x :: w, none⟩ ⟨sh, loopStack c pc⟩)
    (hq : sh.globalQueue = ⟨id, .wrapped ch ()⟩ :: q) (hch : ch < sh.spawned) :
    Follows c (o ++ [.take x]) ⟨w, some x⟩
      ⟨{ sh with globalQueue := q, log := sh.log ++ [.polled ch] },
        .user (some ⟨id, .wrapped ch ()⟩) (.run (anyOutcome ())) :: loopStack c (.poll i)⟩ := by
  have harr : arrived (o ++ [.take x]) = arrived o := by simp [arrived]
  have hin : Fifo.inputs (o ++ [.take x]) = Fifo.inputs o := by simp [Fifo.inputs]
  refine ⟨?_, ?_, h.unfinished, ?_, ?_, id, ch, .poll i, hch, rfl⟩
  · have := h.inputs
    rw [hin, ← this]
    simp [ops, Fifo.inputs]
  · rw [harr]
    exact h.arrivals
  · have := h.queue
    simp only [hq, List.length_cons] at this
    show q.length = w.length
    omega
  · exact fun p hp => h.wrapped p (hq ▸ List.mem_cons_of_mem _ hp)

/-- The task in hand goes back to the queue. -/
theorem Follows.back {id : TaskId} {ch : Nat} {pc : BlockOnPc} {fs : List (Frame Unit Nat)}
    (h : Follows c o ⟨w, some x⟩ ⟨sh, fs⟩) (hch : ch < sh.spawned) :
    Follows c (o ++ [.back x]) ⟨w ++ [x], none⟩ ⟨sh.requeue none id ch (), loopStack c pc⟩ := by
  have harr : arrived (o ++ [.back x]) = arrived o := by simp [arrived]
  refine ⟨?_, ?_, h.unfinished, ?_, ?_, pc, rfl⟩
  · have := h.inputs
    simp [Shared.requeue, ops, Fifo.inputs] at this ⊢
    exact this
  · rw [harr]
    exact h.arrivals
  · simpa [Shared.requeue, pushBack] using h.queue
  · intro p hp
    simp only [Shared.requeue, pushBack, room_none, if_true, List.mem_append] at hp
    rcases hp with hp | hp
    · exact h.wrapped p hp
    · exact ⟨id, ch, hch, List.mem_singleton.1 hp⟩

/-- The task in hand is done. -/
theorem Follows.leave {ch : Nat} {pc : BlockOnPc} {fs : List (Frame Unit Nat)}
    (h : Follows c o ⟨w, some x⟩ ⟨sh, fs⟩) (hne : ch ≠ c) :
    Follows c (o ++ [.leave x]) ⟨w, none⟩ ⟨sh.finish ch 0, loopStack c pc⟩ := by
  have harr : arrived (o ++ [.leave x]) = arrived o := by simp [arrived]
  refine ⟨?_, ?_, ?_, h.queue, h.wrapped, pc, rfl⟩
  · have := h.inputs
    simp [Shared.finish, ops, Fifo.inputs] at this ⊢
    exact this
  · rw [harr]
    exact h.arrivals
  · simpa [Shared.finish, hne.symm] using h.unfinished

end Operations

/-- **Every sequence of operations that replays is followed by the loop**, with the same arrivals
and outcomes. -/
theorem exists_follows {α : Type*} {o : List (Op α)} {q : Queue α} (h : Replays o q) {c : Nat}
    (hc : (arrived o).length ≤ c) :
    ∃ as s, OpenRun anyOutcome ⟨SimpleExecutor.new Unit Nat, loopStack c (.poll 0)⟩ as s ∧
      Follows c o q s := by
  induction h with
  | nil => exact ⟨[], _, Run.nil, rfl, rfl, rfl, rfl, nofun, ⟨_, rfl⟩⟩
  | @arrive o w hand x hr ih =>
    have harr : arrived (o ++ [.arrive x]) = arrived o ++ [x] := by simp [arrived]
    rw [harr, List.length_append, List.length_singleton] at hc
    obtain ⟨as, ⟨sh, fs⟩, hrun, hf⟩ := ih (by omega)
    exact ⟨_, _, hrun.snoc hf.not_nests (.arrive sh () fs (.value 0)), hf.arrive (by omega)⟩
  | @take o x w hr ih =>
    have harr : arrived (o ++ [.take x]) = arrived o := by simp [arrived]
    obtain ⟨as, ⟨sh, fs⟩, hrun, hf⟩ := ih (harr ▸ hc)
    obtain ⟨pc, hfs⟩ := hf.stack
    cases hfs
    obtain ⟨as', i, hi, hloop⟩ := loop_to_poll sh hf.unfinished pc
    obtain ⟨p, q', hpq⟩ : ∃ p q', sh.globalQueue = p :: q' :=
      List.exists_cons_of_length_pos (hf.queue ▸ Nat.succ_pos w.length)
    obtain ⟨id, ch, hch, rfl⟩ := hf.wrapped p (hpq ▸ List.mem_cons_self)
    exact ⟨_, _, (hrun.append hloop).snoc (not_nests_loopStack sh c _)
      (.own (Step.pop sh id ch () q' c i _ (.value 0) hi hpq)), hf.take hpq hch⟩
  | @back o w x hr ih =>
    have harr : arrived (o ++ [.back x]) = arrived o := by simp [arrived]
    obtain ⟨as, ⟨sh, fs⟩, hrun, hf⟩ := ih (harr ▸ hc)
    obtain ⟨id, ch, pc, hch, hfs⟩ := hf.stack
    cases hfs
    exact ⟨_, _, hrun.append (loop_outcome sh id ch c pc 0), hf.back hch⟩
  | @leave o w x hr ih =>
    have harr : arrived (o ++ [.leave x]) = arrived o := by simp [arrived]
    obtain ⟨as, ⟨sh, fs⟩, hrun, hf⟩ := ih (harr ▸ hc)
    obtain ⟨id, ch, pc, hch, hfs⟩ := hf.stack
    cases hfs
    have hne : ch ≠ c := by
      have := hf.arrivals
      simp only [harr] at *
      omega
    exact ⟨_, _, hrun.append (loop_outcome sh id ch c pc 1), hf.leave hne⟩

end Luminal.NoStd
