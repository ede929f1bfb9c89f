import Luminal.Std.Exec

/-!
# What `steal_work` looks at

When no steal is contended, `steal_work` is a function of the queues
(`WorkerThread.stealWork`), and it is what the worker's loop computes (`loop_stealWork`).  The
construction loop hands each worker the stealers built so far, so a worker looks at the deques
of the workers built before it (`stealWork_none_iff`) and never at those built after it: it
gives up with tasks left exactly when they are all there (`stealWork_complete_iff`).
-/

namespace Luminal.Std

open Function Relation

variable {n : Nat} {U V : Type}

/-- The loop over the stealers, with the rounds that are left. -/
def WorkerThread.stealPeers (i : Fin n) (sh : Shared n U V) (b : Nat) :
    List Nat → Shared n U V × Option (Task U)
  | [] => (sh, none)
  | k :: ks =>
    match WorkerThread.peer i k with
    | none => stealPeers i sh b ks
    | some d =>
      match sh.locals d with
      | task :: q =>
        ({ sh with locals := update (update sh.locals d (q.drop b)) i (sh.locals i ++ q.take b) },
          some task)
      | [] => stealPeers i sh b ks

/-- `WorkerThread::steal_work` up to the call of `run_task`, when no steal returns `Retry` and a
batch moves `b` tasks besides the one it returns.  With a task it returns `true`, without one
`false`. -/
def WorkerThread.stealWork (i : Fin n) (sh : Shared n U V) (b : Nat) :
    Shared n U V × Option (Task U) :=
  match sh.globalQueue with
  | task :: q =>
    ({ sh with
        globalQueue := q.drop b
        locals := update sh.locals i (sh.locals i ++ q.take b) }, some task)
  | [] => stealPeers i sh b (List.range (stealers i).length)

/-- Uncontended actions of a worker's loop that yield no task. -/
def WorkerThread.Looks (i : Fin n) (sh : Shared n U V) : RunLoop → RunLoop → Prop :=
  ReflTransGen fun l l' => ∃ b, WorkerThread.step i sh l (.batch b) = (sh, l', none)

section Stealing

variable (i : Fin n) (sh : Shared n U V) (b : Nat)

/-! ## The worker's loop computes it -/

theorem loop_stealPeers (f : Bool) (c : UInt32) (r k : Nat) (hr : k + r = (stealers i).length) :
    ∃ l, WorkerThread.Looks i sh ⟨.peer k, f, c⟩ l ∧
      match WorkerThread.stealPeers i sh b (List.range' k r) with
      | (sh', none) => sh' = sh ∧ l = ⟨.backoff, f, c⟩
      | (sh', some task) =>
        WorkerThread.step i sh l (.batch b) = (sh', ⟨.backoff, true, c⟩, some task) := by
  induction r generalizing k with
  | zero =>
    have hlast : ¬ k < (stealers i).length := by omega
    refine ⟨_, .single ⟨b, ?_⟩, rfl, rfl⟩
    exact if_neg hlast
  | succ r ih =>
    have hk : k < (stealers i).length := by omega
    -- a round that yields nothing
    have hnext : WorkerThread.step i sh ⟨.peer k, f, c⟩ (.batch b) =
      (sh, ⟨.peer (k + 1), f, c⟩, none) →
        WorkerThread.stealPeers i sh b (List.range' k (r + 1)) =
          WorkerThread.stealPeers i sh b (List.range' (k + 1) r) →
        ∃ l, WorkerThread.Looks i sh ⟨.peer k, f, c⟩ l ∧
          match WorkerThread.stealPeers i sh b (List.range' k (r + 1)) with
          | (sh', none) => sh' = sh ∧ l = ⟨.backoff, f, c⟩
          | (sh', some task) =>
            WorkerThread.step i sh l (.batch b) = (sh', ⟨.backoff, true, c⟩, some task) := by
      intro hstep heq
      obtain ⟨l, hl, h⟩ := ih (k + 1) (by omega)
      rw [heq]
      exact ⟨l, .head ⟨b, hstep⟩ hl, h⟩
    cases hp : WorkerThread.peer i k with
    | none =>
      refine hnext ?_ ?_
      · simp only [WorkerThread.step, if_pos hk, hp]
      · simp only [List.range'_succ, WorkerThread.stealPeers, hp]
    | some d =>
      cases hq : sh.locals d with
      | nil =>
        refine hnext ?_ ?_
        · simp only [WorkerThread.step, if_pos hk, hp, hq]
        · simp only [List.range'_succ, WorkerThread.stealPeers, hp, hq]
      | cons task q =>
        refine ⟨_, .refl, ?_⟩
        simp only [List.range'_succ, WorkerThread.stealPeers, WorkerThread.step, if_pos hk, hp, hq]

/-- **The worker's loop, left alone, gives up or comes by a task as `stealWork` says.** -/
theorem loop_stealWork (f : Bool) (c : UInt32) :
    ∃ l, WorkerThread.Looks i sh ⟨.steal, f, c⟩ l ∧
      match WorkerThread.stealWork i sh b with
      | (sh', none) => sh' = sh ∧ l = ⟨.backoff, f, c⟩
      | (sh', some task) =>
        WorkerThread.step i sh l (.batch b) = (sh', ⟨.backoff, true, c⟩, some task) := by
  unfold WorkerThread.stealWork
  cases hq : sh.globalQueue with
  | nil =>
    obtain ⟨l, hl, h⟩ := loop_stealPeers i sh b f c _ 0 (Nat.zero_add _)
    refine ⟨l, .head ⟨b, ?_⟩ hl, ?_⟩
    · simp only [WorkerThread.step, hq]
    · rw [List.range_eq_range']
      exact h
  | cons task q =>
    refine ⟨_, .refl, ?_⟩
    simp only [WorkerThread.step, hq]

/-! ## What it sees -/

/-- The rounds go through all the deques of earlier workers. -/
theorem exists_peer {i d : Fin n} (h : d < i) :
    ∃ k < (stealers i).length, WorkerThread.peer i k = some d := by
  have hd : d.val < i.val := h
  have hidx : WorkerThread.peerIdx i (d.val + 1) = d.val := by
    unfold WorkerThread.peerIdx
    rw [stealers_length, Nat.mod_eq_of_lt (Nat.lt_succ_self _)]
    have hsum : i.val + (d.val + 1) = d.val + (i.val + 1) := by omega
    rw [hsum, Nat.add_mod_right]
    exact Nat.mod_eq_of_lt (by omega)
  refine ⟨d.val + 1, ?_, ?_⟩
  · rw [stealers_length]
    omega
  · unfold WorkerThread.peer
    rw [hidx, if_neg (by omega), stealers_eq, List.getElem?_take, if_pos (by omega)]
    simp

theorem stealPeers_none_iff (ks : List Nat) : (WorkerThread.stealPeers i sh b ks).2 = none ↔
    ∀ k ∈ ks, ∀ d ∈ WorkerThread.peer i k, sh.locals d = [] := by
  induction ks with
  | nil => exact iff_of_true rfl nofun
  | cons k ks ih =>
    rw [List.forall_mem_cons]
    unfold WorkerThread.stealPeers
    cases hp : WorkerThread.peer i k with
    | none => simpa using ih
    | some d =>
      cases hq : sh.locals d with
      | nil => simpa [hq] using ih
      | cons task q => simp [hq]

/-- **`steal_work` gives up exactly when the global queue and the deques of the workers built
before are empty.** -/
theorem stealWork_none_iff : (WorkerThread.stealWork i sh b).2 = none ↔
    sh.globalQueue = [] ∧ ∀ d, d < i → sh.locals d = [] := by
  unfold WorkerThread.stealWork
  cases hq : sh.globalQueue with
  | cons task q => simp
  | nil =>
    rw [stealPeers_none_iff]
    constructor
    · intro h
      refine ⟨rfl, fun d hd => ?_⟩
      obtain ⟨k, hk, hp⟩ := exists_peer hd
      exact h k (List.mem_range.2 hk) d hp
    · rintro ⟨-, h⟩ k - d hp
      exact h d (peer_eq_some hp)

/-- **Giving up means that nothing is left to steal, unless all that is left is with workers
built later.** -/
theorem stealWork_complete_iff : (∀ b, (WorkerThread.stealWork i sh b).2 = none →
      sh.globalQueue = [] ∧ ∀ d, d ≠ i → sh.locals d = []) ↔
    sh.globalQueue ≠ [] ∨ (∃ d, d < i ∧ sh.locals d ≠ []) ∨ ∀ d, i < d → sh.locals d = [] := by
  simp only [stealWork_none_iff]
  constructor
  · intro h
    by_cases hg : sh.globalQueue = []
    · by_cases hl : ∀ d, d < i → sh.locals d = []
      · exact Or.inr (Or.inr fun d hd => (h 0 ⟨hg, hl⟩).2 d (ne_of_gt hd))
      · obtain ⟨d, hd⟩ := not_forall.1 hl
        exact Or.inr (Or.inl ⟨d, Classical.not_imp.1 hd⟩)
    · exact Or.inl hg
  · rintro h b ⟨hg, hl⟩
    refine ⟨hg, fun d hd => ?_⟩
    rcases h with h | ⟨e, he, hne⟩ | h
    · exact absurd hg h
    · exact absurd (hl e he) hne
    · rcases lt_or_gt_of_ne hd with hlt | hlt
      · exact hl d hlt
      · exact h d hlt

end Stealing

/-- The first of two workers gives up with a task in the other one's deque. -/
theorem not_stealWork_complete :
    ¬ ∀ (n : Nat) (i : Fin n) (sh : Shared n Sample Nat) (b : Nat),
      (WorkerThread.stealWork i sh b).2 = none →
      sh.globalQueue = [] ∧ ∀ d, d ≠ i → sh.locals d = [] := by
  intro h
  have hleft := h 2 0
    { ExecutorInner.new 2 Sample Nat with locals :=
      fun d => if d = 1 then [⟨1, .wrapped 0 (.value 3)⟩] else [] } 0 rfl
  cases hleft.2 1 (by decide)

end Luminal.Std
