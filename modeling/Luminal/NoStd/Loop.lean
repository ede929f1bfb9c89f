import Luminal.NoStd.Executor

/-!
# One thread, one action

What the thread does next is in its top frame, and only code that asks the rest of the
world has a choice.  For each action there is a rule that takes `Inevitable` from the state
after it to the state before.
-/

namespace Luminal.NoStd

open Function Transition

variable {U V : Type} {cap : Option Nat} {poll : U → Burst U V} {Ok Q : State U V → Prop}
  {sh : Shared U V} {fs : List (Frame U V)}

section UserCode

variable {task : Option (Task U)}

theorem inevitable_outside {k : Nat → Burst U V}
    (h : ∀ x, Inevitable (Step cap poll) Ok Q ⟨sh, .user task (.run (k x)) :: fs⟩) :
    Inevitable (Step cap poll) Ok Q ⟨sh, .user task (.run (.outside k)) :: fs⟩ := by
  refine .later (fun _ => ⟨.value 0, _, Step.outside sh task k fs 0⟩) fun _ a s hs => ?_
  cases hs
  exact h _

theorem inevitable_spawn {u : U} {k : Nat → Burst U V}
    (h : Inevitable (Step cap poll) Ok Q
      ⟨sh.spawn cap u .handle, .user task (.run (k sh.spawned)) :: fs⟩) :
    Inevitable (Step cap poll) Ok Q ⟨sh, .user task (.run (.spawn u k)) :: fs⟩ := by
  refine .later (fun _ => ⟨.value 0, _, Step.spawn sh task u k fs _⟩) fun _ a s hs => ?_
  cases hs
  exact h

theorem inevitable_blockOn {u : U} {k : Option V → Burst U V}
    (h : Inevitable (Step cap poll) Ok Q
      ⟨sh.spawn cap u .blockOn, .blockOn sh.spawned (.poll 0) :: .user task (.wait k) :: fs⟩) :
    Inevitable (Step cap poll) Ok Q ⟨sh, .user task (.run (.blockOn u k)) :: fs⟩ := by
  refine .later (fun _ => ⟨.value 0, _, Step.blockOn sh task u k fs _⟩) fun _ a s hs => ?_
  cases hs
  exact h

theorem inevitable_pollHandle {c : Nat} {k : Option V → Burst U V}
    (hc : (sh.results c).holder = .handle)
    (h : Inevitable (Step cap poll) Ok Q
      ⟨(sh.pollHandle c).2, .user task (.run (k (sh.pollHandle c).1)) :: fs⟩) :
    Inevitable (Step cap poll) Ok Q ⟨sh, .user task (.run (.pollHandle c k)) :: fs⟩ := by
  refine .later (fun _ => ⟨.value 0, _, Step.pollHandle sh task c k fs _ hc⟩) fun _ a s hs => ?_
  cases hs
  exact h

theorem inevitable_dropHandle {c : Nat} {k : Burst U V} (hc : (sh.results c).holder = .handle)
    (h : Inevitable (Step cap poll) Ok Q ⟨sh.dropHandle c, .user task (.run k) :: fs⟩) :
    Inevitable (Step cap poll) Ok Q ⟨sh, .user task (.run (.dropHandle c k)) :: fs⟩ := by
  refine .later (fun _ => ⟨.value 0, _, Step.dropHandle sh task c k fs _ hc⟩) fun _ a s hs => ?_
  cases hs
  exact h

theorem inevitable_cloneRuntime {k : Burst U V}
    (h : Inevitable (Step cap poll) Ok Q ⟨sh, .user task (.run k) :: fs⟩) :
    Inevitable (Step cap poll) Ok Q ⟨sh, .user task (.run (.cloneRuntime k)) :: fs⟩ := by
  refine .later (fun _ => ⟨.value 0, _, Step.cloneRuntime sh task k fs _⟩) fun _ a s hs => ?_
  cases hs
  exact h

theorem inevitable_dropRuntime {k : Burst U V}
    (h : Inevitable (Step cap poll) Ok Q ⟨sh, .user task (.run k) :: fs⟩) :
    Inevitable (Step cap poll) Ok Q ⟨sh, .user task (.run (.dropRuntime k)) :: fs⟩ := by
  refine .later (fun _ => ⟨.value 0, _, Step.dropRuntime sh task k fs _⟩) fun _ a s hs => ?_
  cases hs
  exact h

end UserCode

/-- How far the loop is from its next poll. -/
def BlockOnPc.toPoll : BlockOnPc → Nat
  | .poll i => if i < 10 then 0 else 2
  | .check => 1

/-- How many rounds the loop may do before it checks for the result. -/
def BlockOnPc.toCheck : BlockOnPc → Nat
  | .poll i => 10 - i + 1
  | .check => 0

/-- The state in which the task of spawn `ch` has been taken, and `q` is left. -/
def Shared.popped (sh : Shared U V) (ch : Nat) (q : List (Task U)) : Shared U V :=
  { sh with globalQueue := q, log := sh.log ++ [.polled ch] }

theorem Shared.requeue_popped {ch : Nat} {q : List (Task U)} (hroom : Room cap q) (id : TaskId)
    (u : U) : ∃ log, (sh.popped ch q).requeue cap id ch u =
      { sh with globalQueue := q ++ [⟨id, .wrapped ch u⟩], log := log } := by
  refine ⟨(sh.popped ch q).log ++ [if Room cap q then .requeued ch else .lost ch], ?_⟩
  rw [← pushBack_of_room hroom ⟨id, .wrapped ch u⟩]
  rfl

section BlockOn

variable {c : Nat}

theorem inevitable_pop {id : TaskId} {ch i : Nat} {u : U} {q : List (Task U)} (hi : i < 10)
    (hq : sh.globalQueue = ⟨id, .wrapped ch u⟩ :: q)
    (h : Inevitable (Step cap poll) Ok Q
      ⟨sh.popped ch q, .user (some ⟨id, .wrapped ch u⟩) (.run (poll u)) :: .blockOn c
        (.poll (i + 1)) :: fs⟩) :
    Inevitable (Step cap poll) Ok Q ⟨sh, .blockOn c (.poll i) :: fs⟩ := by
  refine .later (fun _ => ⟨.value 0, _, Step.pop sh id ch u q c i fs _ hi hq⟩) fun _ a s hs => ?_
  cases hs with
  | pop _ id' ch' u' q' _ _ _ _ _ hq' =>
    rw [hq] at hq'
    cases hq'
    exact h
  | popCompleted _ id' q' _ _ _ _ _ hq' =>
    rw [hq] at hq'
    cases hq'
  | endBatch _ _ _ _ _ he =>
    rw [hq] at he
    cases he hi

/-- The batch is over, or there is nothing to poll. -/
theorem inevitable_endBatch {i : Nat} (hi : i < 10 → sh.globalQueue = [])
    (h : Inevitable (Step cap poll) Ok Q ⟨sh, .blockOn c .check :: fs⟩) :
    Inevitable (Step cap poll) Ok Q ⟨sh, .blockOn c (.poll i) :: fs⟩ := by
  refine .later (fun _ => ⟨.value 0, _, Step.endBatch sh c i fs _ hi⟩) fun _ a s hs => ?_
  cases hs with
  | pop _ id' ch' u' q' _ _ _ _ hlt hq' =>
    rw [hi hlt] at hq'
    cases hq'
  | popCompleted _ id' q' _ _ _ _ hlt hq' =>
    rw [hi hlt] at hq'
    cases hq'
  | endBatch => exact h

theorem inevitable_pending {id : TaskId} {ch : Nat} {u₀ u : U} {pc : BlockOnPc}
    (h : Inevitable (Step cap poll) Ok Q ⟨sh.requeue cap id ch u, .blockOn c pc :: fs⟩) :
    Inevitable (Step cap poll) Ok Q
      ⟨sh, .user (some ⟨id, .wrapped ch u₀⟩) (.run (.pending u)) :: .blockOn c pc :: fs⟩ := by
  refine .later (fun _ => ⟨.value 0, _, Step.pending sh id ch u₀ u c pc fs _⟩) fun _ a s hs => ?_
  cases hs
  exact h

theorem inevitable_ready {id : TaskId} {ch : Nat} {u : U} {v : V} {pc : BlockOnPc}
    (h : Inevitable (Step cap poll) Ok Q ⟨sh.finish ch v, .blockOn c pc :: fs⟩) :
    Inevitable (Step cap poll) Ok Q
      ⟨sh, .user (some ⟨id, .wrapped ch u⟩) (.run (.ready v)) :: .blockOn c pc :: fs⟩ := by
  refine .later (fun _ => ⟨.value 0, _, Step.ready sh id ch u v c pc fs _⟩) fun _ a s hs => ?_
  cases hs
  exact h

theorem inevitable_return {v : V} {q : List V} {task : Option (Task U)} {k : Option V → Burst U V}
    (hv : (sh.results c).items = v :: q)
    (h : Inevitable (Step cap poll) Ok Q
      ⟨(sh.pollHandle c).2.dropHandle c, .user task (.run (k (some v))) :: fs⟩) :
    Inevitable (Step cap poll) Ok Q ⟨sh, .blockOn c .check :: .user task (.wait k) :: fs⟩ := by
  refine .later (fun _ => ⟨.value 0, _, Step.return sh c v q task k fs _ hv⟩) fun _ a s hs => ?_
  cases hs with
  | «return» _ _ v' q' _ _ _ _ hv' =>
    rw [hv] at hv'
    cases hv'
    exact h
  | retry _ _ _ _ hn =>
    rw [hv] at hn
    cases hn

theorem inevitable_retry (hn : (sh.results c).items = [])
    (h : Inevitable (Step cap poll) Ok Q ⟨sh, .blockOn c (.poll 0) :: fs⟩) :
    Inevitable (Step cap poll) Ok Q ⟨sh, .blockOn c .check :: fs⟩ := by
  refine .later (fun _ => ⟨.value 0, _, Step.retry sh c fs _ hn⟩) fun _ a s hs => ?_
  cases hs with
  | «return» _ _ v' q' _ _ _ _ hv' =>
    rw [hn] at hv'
    cases hv'
  | retry => exact h

end BlockOn

end Luminal.NoStd
