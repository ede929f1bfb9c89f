import Luminal.Std.Total

/-!
# `Executor::run` returns

In a fair and orderly run in which finitely many tasks are spawned, each of them pending finitely
often, they are all finished some day, and from then on nothing is queued and nothing is polled
(`State.Quiescent`).  So a call of `Executor::run` leaves its loop, whenever it looks at the queue
(`run_returns`).
-/

namespace Luminal.Std

open Function Transition

variable {n m : Nat} {U V : Type} {poll : U → Burst U V}

/-- All that was spawned is finished, and no task is queued or being polled. -/
structure State.Quiescent (s : State n m U V) : Prop where
  ready : ∀ ch u, .spawned ch u ∈ s.shared.log → .ready ch ∈ s.shared.log
  globalQueue : s.shared.globalQueue = []
  locals : ∀ i, s.shared.locals i = []
  polled : ∀ ch, census (Frame.running ch) s = 0

/-- When all tasks are finished, none is left. -/
theorem Accounted.quiescent {s : State n m U V} (h : Accounted s)
    (hready : ∀ ch u, .spawned ch u ∈ s.shared.log → .ready ch ∈ s.shared.log) : s.Quiescent := by
  have hnone : ∀ ch, queued ch s.shared + census (Frame.running ch) s = 0 := by
    intro ch
    have hcount := h.count ch
    by_cases hpushed : 0 < pushes ch s.shared.log
    · obtain ⟨u, hu⟩ := (pushes_pos_iff ch _).1 hpushed
      have hr := (readies_pos_iff ch _).2 (hready ch u hu)
      have hpush := h.pushed ch
      have hborn := born_le_one ch s.shared.spawned
      omega
    · omega
  have hempty : ∀ p, ¬ Queues s.shared p := by
    intro p hp
    obtain ⟨ch, hch⟩ := Option.isSome_iff_exists.1 (h.queues p hp)
    have hq := queued_pos hp hch
    have := hnone ch
    omega
  refine ⟨hready, ?_, fun i => ?_, fun ch => ?_⟩
  · exact List.eq_nil_iff_forall_not_mem.2 fun p hp => hempty p (Or.inl hp)
  · exact List.eq_nil_iff_forall_not_mem.2 fun p hp => hempty p (Or.inr ⟨i, hp⟩)
  · have := hnone ch
    omega

/-! ## Back to the start -/

/-- A run with the answers that its steps were given. -/
theorem exists_chosen {G : State n m U V → ThreadId n m → Prop} {s s' : State n m U V}
    {ts : List (ThreadId n m)} (hr : Run (Step poll) G s ts s') :
    ∃ tcs, Run (Chosen poll) (fun a tc => G a tc.1) s tcs s' := by
  induction hr with
  | nil => exact ⟨[], Run.nil⟩
  | snoc _ hG hs ih =>
    obtain ⟨tcs, hr⟩ := ih
    obtain ⟨c, hc⟩ := step_iff_chosen.1 hs
    exact ⟨_, hr.snoc hG hc⟩

theorem exists_steps {G : State n m U V → ThreadId n m → Prop} {s s' : State n m U V}
    {tcs : List (ThreadId n m × Choice U V)}
    (hr : Run (Chosen poll) (fun a tc => G a tc.1) s tcs s') : ∃ ts, Run (Step poll) G s ts s' := by
  induction hr with
  | nil => exact ⟨[], Run.nil⟩
  | snoc _ hG hs ih =>
    obtain ⟨ts, hr⟩ := ih
    exact ⟨_, hr.snoc hG hs.step⟩

/-- An orderly run is the rest of one that starts with a fresh executor. -/
theorem OrderlyRun.exists_fresh {ρ : Forever n m poll} (h : OrderlyRun ρ) :
    ∃ ρ' : Forever n m poll, ∃ k, OrderlyRun ρ' ∧ ρ'.state 0 = State.init n m U V ∧
      ρ'.tail k = ρ := by
  obtain ⟨ts, hr⟩ := h.start
  obtain ⟨tcs, hr⟩ := exists_chosen hr
  obtain ⟨ρ', h0, hbefore, htail⟩ := ρ.exists_prepend hr rfl
  refine ⟨ρ', tcs.length, ⟨⟨[], h0 ▸ Run.nil⟩, fun k => ?_, .of_tail (htail ▸ h.fair)⟩, h0, htail⟩
  by_cases hk : k < tcs.length
  · exact hbefore k hk
  · obtain ⟨i, rfl⟩ := Nat.exists_eq_add_of_le (Nat.le_of_not_lt hk)
    have hstate : ρ'.state (tcs.length + i) = ρ.state i := congrArg (fun ρ => ρ.state i) htail
    rw [hstate]
    exact h.orderly i

/-- A spawned task is in the global queue. -/
theorem threadStep_spawned {sh sh' : Shared n U V} {t : ThreadId n m} {fs fs' : List (Frame U V)}
    (h : ThreadStep poll sh t fs sh' fs') {ch : Nat} {u : U} (hs : .spawned ch u ∈ sh'.log) :
    .spawned ch u ∈ sh.log ∨ ∃ id, ⟨id, .wrapped ch u⟩ ∈ sh'.globalQueue := by
  obtain ⟨l, hl, hemits⟩ := threadStep_log h
  rw [hl] at hs
  rcases List.mem_append.1 hs with hs | hs
  · exact Or.inl hs
  refine Or.inr ?_
  cases hemits with
  | spawned id ch' u' c b fs₁ hfs =>
    cases List.mem_singleton.1 hs
    subst hfs
    cases h with
    | spawned | startBlockOn => exact ⟨id, List.mem_append_right _ (List.mem_singleton.2 rfl)⟩
  | destroyed tasks =>
    obtain ⟨_, -, heq⟩ := List.mem_map.1 hs
    cases heq
  | _ => simp at hs

theorem Forever.spawned_queued {ρ : Forever n m poll} (h0 : ρ.state 0 = State.init n m U V)
    {k ch : Nat} {u : U} (hs : .spawned ch u ∈ (ρ.state k).shared.log) :
    ∃ j id, Queues (ρ.state j).shared ⟨id, .wrapped ch u⟩ := by
  induction k with
  | zero =>
    rw [h0] at hs
    cases hs
  | succ k ih =>
    generalize hb : ρ.state (k + 1) = b at hs
    obtain @⟨sh', fs', hstep, -⟩ := hb ▸ ρ.step k
    rcases threadStep_spawned hstep hs with hs | ⟨id, hid⟩
    · exact ih hs
    · exact ⟨k + 1, id, Or.inl (by rw [hb]; exact hid)⟩

/-! ## The loop of `Executor::run` -/

/-- `Executor::run` leaves at its first check that finds the queue empty. -/
theorem Executor.returns_of_empty {ρ : Forever n m poll}
    (howners : ∀ k, 0 < (ρ.state k).shared.owners) {c : Nat → Nat} (hc : StrictMono c) {r : Nat}
    (hr : Executor.isEmpty (ρ.state (c r)).shared = true) :
    ∃ r, Executor.Returns poll (ρ.state (c 0)) (ρ.state (c r)) := by
  classical
  have hex : ∃ r, Executor.isEmpty (ρ.state (c r)).shared = true := ⟨r, hr⟩
  refine ⟨Nat.find hex, ?_⟩
  have hback : ∀ d, d ≤ Nat.find hex →
      Executor.Returns poll (ρ.state (c (Nat.find hex - d))) (ρ.state (c (Nat.find hex))) := by
    intro d hd
    induction d with
    | zero => exact .leave (Nat.find_spec hex)
    | succ d ih =>
      have hbusy := Nat.find_min hex (m := Nat.find hex - (d + 1)) (by omega)
      rw [Bool.not_eq_true] at hbusy
      have hnext : Nat.find hex - (d + 1) + 1 = Nat.find hex - d := by omega
      obtain ⟨tcs, hrun⟩ := ρ.exists_run (G := always)
        (fun j => trivial) (hc.monotone (Nat.le_add_right (Nat.find hex - (d + 1)) 1))
      rw [hnext] at hrun
      obtain ⟨ts, hrun⟩ := exists_steps (G := always) hrun
      exact .sleep hbusy hrun (howners _) (ih (by omega))
  have := hback (Nat.find hex) le_rfl
  rwa [Nat.sub_self] at this

namespace OrderlyRun

variable {ρ : Forever n m poll} (h : OrderlyRun ρ) (hn : 0 < n)
  (hhalts : ∀ k ch u, .spawned ch u ∈ (ρ.state k).shared.log →
    Acc (fun u' u => Leaf (poll u) (.pending u')) u)

include h hn hhalts

/-- **What is spawned finishes**: the task was queued with its future when it was spawned, maybe
before the run that is looked at. -/
theorem spawned_ready {k ch : Nat} {u : U} (hs : .spawned ch u ∈ (ρ.state k).shared.log) :
    ∃ j, .ready ch ∈ (ρ.state j).shared.log := by
  obtain ⟨ρ', k₀, h', h0, rfl⟩ := h.exists_fresh
  obtain ⟨j, id, hq⟩ := Forever.spawned_queued h0 hs
  obtain ⟨i, v, -, hready⟩ := h'.queued_sent hn (hhalts k ch u hs) hq
  exact ⟨i, (ρ'.log_mono (Nat.le_add_left i k₀)).subset hready⟩

/-- With finitely many tasks there is a time by which all are finished. -/
theorem quiesces {N : Nat} (hN : ∀ k, (ρ.state k).shared.spawned ≤ N) :
    ∃ J, ∀ k, J ≤ k → (ρ.state k).Quiescent := by
  have hdone : ∀ ch, ∃ j, ∀ k, j ≤ k → ∀ u, .spawned ch u ∈ (ρ.state k).shared.log →
      .ready ch ∈ (ρ.state k).shared.log := by
    intro ch
    by_cases hs : ∃ k u, .spawned ch u ∈ (ρ.state k).shared.log
    · obtain ⟨k, u, hu⟩ := hs
      obtain ⟨j, hj⟩ := h.spawned_ready hn hhalts hu
      exact ⟨j, fun i hi _ _ => (ρ.log_mono hi).subset hj⟩
    · exact ⟨0, fun k _ u hu => absurd ⟨k, u, hu⟩ hs⟩
  choose j hj using hdone
  refine ⟨(Finset.range N).sup j, fun k hk => ?_⟩
  have hacc := accounted_reachable (h.reachable k)
  refine hacc.quiescent fun ch u hu => hj ch k ?_ u hu
  -- the task has one of the first `N` numbers
  have hlt : ch < N := by
    have hpos := (pushes_pos_iff ch _).2 ⟨u, hu⟩
    have hpushed := hacc.pushed ch
    have hspawned := hN k
    by_contra hge
    rw [born, if_neg (by omega)] at hpushed
    omega
  exact (Finset.le_sup (Finset.mem_range.2 hlt)).trans hk

/-- **`Executor::run` returns**: in a fair and orderly run with a worker, in which finitely many
tasks are spawned and each of them is pending finitely often, all tasks are finished from some point
on and nothing is queued, so `run` leaves its loop, at whatever moments it looks at the queue. -/
theorem run_returns {N : Nat} (hN : ∀ k, (ρ.state k).shared.spawned ≤ N) :
    (∃ J, ∀ k, J ≤ k → (ρ.state k).Quiescent) ∧
      ∀ c : Nat → Nat, StrictMono c →
        ∃ r, Executor.Returns poll (ρ.state (c 0)) (ρ.state (c r)) := by
  obtain ⟨J, hJ⟩ := h.quiesces hn hhalts hN
  refine ⟨⟨J, hJ⟩, fun c hc => Executor.returns_of_empty h.owners hc (r := J) ?_⟩
  rw [Executor.isEmpty, (hJ _ hc.le_apply).globalQueue]
  rfl

end OrderlyRun

/-- The spawn that an event tells of. -/
def Event.spawn? : Event U V → Option (Nat × U)
  | .spawned ch u => some (ch, u)
  | _ => none

/-- Two tasks are queued when `run` is called, and the first is pending once. -/
theorem OrderlyRun.run_returns_two : ∃ ρ : Forever 1 1 Sample.burst, OrderlyRun ρ ∧
    (ρ.state 0).shared.globalQueue.length = 2 ∧
    (∃ J, ∀ k, J ≤ k → (ρ.state k).Quiescent) ∧
    ∃ r, Executor.Returns Sample.burst (ρ.state 0) (ρ.state r) := by
  obtain ⟨s, hs, hlen, s', hs', hrest, hspawned, hlog⟩ : ∃ s, ((State.init 1 1 Sample Nat).execAll
      (fun s _ => s.Orderly) Sample.burst
      ((.inr 0, .code (Sample.spawns [.yield 5, .value 7])) :: turns (.inr 0) 5 (.answer 0))) =
        some s ∧ s.shared.globalQueue.length = 2 ∧
      ∃ s', s.execAll (fun s _ => s.Orderly) Sample.burst (turns (.inl 0) 30 (.steal (.batch 0))) =
        some s' ∧ Resting s' ∧ s'.shared.spawned = 2 ∧
        s'.shared.log.filterMap Event.spawn? = [(0, .yield 5), (1, .value 7)] :=
    ⟨_, rfl, rfl, _, rfl, ⟨⟨_, rfl⟩, rfl, rfl, Fin.forall_fin_one.2 rfl, rfl⟩, rfl, rfl⟩
  obtain ⟨ρ, rfl, hρ, -, hlate⟩ := exists_orderlyRun (fun _ _ h => h) ⟨_, State.execAll_run _ hs⟩
    (State.execAll_chosen hs') hrest
  have hfinal : ∀ k, (ρ.state (max k 30)).shared = s'.shared := fun k => hlate _ (le_max_right k 30)
  have hvalue : ∀ v, Acc (fun u' u => Leaf (Sample.burst u) (.pending u')) (.value v) := by
    intro v
    refine ⟨_, fun u hu => ?_⟩
    cases hu
  have hhalts : ∀ k ch u, .spawned ch u ∈ (ρ.state k).shared.log →
      Acc (fun u' u => Leaf (Sample.burst u) (.pending u')) u := by
    intro k ch u hu
    have hmem : .spawned ch u ∈ s'.shared.log :=
      hfinal k ▸ (ρ.log_mono (le_max_left k 30)).subset hu
    have hmem : (ch, u) ∈ [(0, Sample.yield 5), (1, .value 7)] :=
      hlog ▸ List.mem_filterMap.2 ⟨_, hmem, rfl⟩
    rcases List.mem_cons.1 hmem with heq | hmem
    · cases heq
      refine ⟨_, fun u hu => ?_⟩
      cases hu
      exact hvalue 5
    · cases List.mem_singleton.1 hmem
      exact hvalue 7
  obtain ⟨hquiet, hreturns⟩ := hρ.run_returns Nat.one_pos hhalts (N := 2) fun k =>
    (ρ.spawned_mono (le_max_left k 30)).trans (hfinal k ▸ hspawned.le)
  exact ⟨ρ, hρ, hlen, hquiet, hreturns id strictMono_id⟩

end Luminal.Std
