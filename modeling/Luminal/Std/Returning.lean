import Luminal.Std.Handles
import Luminal.Std.Starvation

/-!
# `block_on` returns

In a fair and orderly run the helping loop of `Executor::block_on` tries its receiver again and
again, whatever tasks it polls in between, so it returns once its task has sent
(`block_on_returns`).  A future that is pending finitely often is done after so many polls, and each
of them comes (`queued_sent`), so `block_on` of it returns one of its outputs (`block_on_halts`).
-/

namespace Luminal.Std

open Function Transition

variable {n m : Nat} {U V : Type} {poll : U → Burst U V}

/-! ## The helping loop -/

/-- How many actions the loop is away from its receiver. -/
def BlockOnLoop.left (l : BlockOnLoop) : Nat :=
  match l.pc with
  | .tryRecv => 0
  | .help i => 4 - i + 2
  | .backoff => 1

/-- Each action of the loop brings it nearer to its receiver. -/
theorem Executor.help_left {sh sh' : Shared n U V} {l l' : BlockOnLoop} {c : StealChoice}
    {r : Option (Task U)} (h : Executor.help sh l c = (sh', l', r)) (hpc : l.pc ≠ .tryRecv) :
    l'.left < l.left := by
  unfold Executor.help at h
  split at h
  · next heq => exact absurd heq hpc
  · next i heq =>
    have hleft : l.left = 4 - i + 2 := by
      unfold BlockOnLoop.left
      rw [heq]
    rw [hleft]
    split at h
    · split at h <;> cases h <;> simp only [BlockOnLoop.left] <;> omega
    · cases h
      simp only [BlockOnLoop.left]
      omega
  · next heq =>
    cases h
    simp [BlockOnLoop.left, BlockOnLoop.backoff, heq]

/-- What the receiver says once the task has sent. -/
theorem Delivered.tryRecv_ok {s : State n m U V} (h : Delivered s) {c : Nat} {v : V}
    (hr : (s.shared.chan c).receiver = .blockOn) (hsent : .sent c v ∈ s.shared.log) :
    (s.shared.chan c).tryRecv ≠ .empty := by
  have hlaw := h.channel c
  have hpending := hlaw.pending (by simp [hr])
  rw [hlaw.unread (Or.inr hr), List.nil_append] at hpending
  rw [← mem_sents, ← hpending] at hsent
  intro hempty
  unfold Channel.tryRecv at hempty
  split at hempty
  · cases hempty
  · next hq =>
    rw [hq] at hsent
    cases hsent

namespace OrderlyRun

variable {ρ : Forever n m poll} (h : OrderlyRun ρ) {t : ThreadId n m} {c j k : Nat}
  {l : BlockOnLoop} {fs : List (Frame U V)} {v : V}

include h

/-- **A round of the helping loop**: it returns what it received, or comes back after the poll that
it may start; when the task has sent it does not pass its receiver. -/
theorem blockOn_round (hfs : (ρ.state k).threads t = .blockOn c l :: fs) :
    ∃ j, k < j ∧ ((∃ v, (ρ.state j).threads t = .result (some v) :: fs ∧
        .recv c v ∈ (ρ.state j).shared.log) ∨
      ∃ l', (ρ.state j).threads t = .blockOn c l' :: fs ∧ (l.pc ≠ .tryRecv → l'.left < l.left) ∧
        ∀ v, .sent c v ∈ (ρ.state k).shared.log → l.pc ≠ .tryRecv) := by
  obtain ⟨j, hj, -, ht, hfsj⟩ := h.fair.exists_move (I := fun _ => True) hfs trivial
    (List.cons_ne_nil _ _) (fun heq => by cases heq)
    (fun j _ hfs _ => h.steady.enabled hfs (by simp [Frame.kind])) fun _ _ _ _ _ => trivial
  have hreach := h.steady.reachable j
  have hd := delivered_reachable hreach
  have hr : ((ρ.state j).shared.chan c).receiver = .blockOn :=
    hd.owns (accounted_reachable hreach) t _ (hfsj ▸ List.mem_cons_self)
  obtain ⟨sh', fs', hs, hsucc⟩ := Forever.moved ht hfsj
  have hfs' : (ρ.state (j + 1)).threads t = fs' := by
    rw [hsucc]
    exact update_self ..
  cases hs with
  | recvOk _ _ v _ _ _ =>
    refine ⟨j + 1, by omega, Or.inl ⟨v, hfs', ?_⟩⟩
    rw [hsucc]
    exact List.mem_append_right _ (List.mem_singleton.2 rfl)
  | recvDisconnected _ _ _ _ hv =>
    exact absurd hv (hd.connected (accounted_reachable hreach) hr ((h.quiet j).lost c))
  | help _ _ _ _ l' _ hempty hh =>
    refine ⟨j + 1, by omega, Or.inr ⟨l', hfs', Executor.help_left hh, fun v hv hpc => ?_⟩⟩
    exact hd.tryRecv_ok hr ((ρ.log_mono hj).subset hv) (hempty hpc)
  | helpTask _ _ _ _ l' task _ hh =>
    have hpc : l.pc ≠ .tryRecv := by
      intro hpc
      unfold Executor.help at hh
      rw [hpc] at hh
      cases hh
    obtain ⟨i, hi, hfsi, -⟩ := h.poll_returns (I := fun _ => True) keptOutside_true hfs' trivial
    exact ⟨i, by omega, Or.inr ⟨l', hfsi, Executor.help_left hh, fun _ _ => hpc⟩⟩

/-- Whoever is in the loop is in it at any later time, or has returned. -/
theorem blockOn_lasts (hfs : (ρ.state k).threads t = .blockOn c l :: fs) (j : Nat) :
    ∃ i, k ≤ i ∧ ((∃ v, (ρ.state i).threads t = .result (some v) :: fs ∧
        .recv c v ∈ (ρ.state i).shared.log) ∨
      j ≤ i ∧ ∃ l', (ρ.state i).threads t = .blockOn c l' :: fs) := by
  generalize hd : j - k = d
  induction d using Nat.strongRecOn generalizing k l with
  | _ d ih =>
    by_cases hle : j ≤ k
    · exact ⟨k, le_rfl, Or.inr ⟨hle, l, hfs⟩⟩
    obtain ⟨i, hi, hreturned | ⟨l', hl', -⟩⟩ := h.blockOn_round hfs
    · exact ⟨i, hi.le, Or.inl hreturned⟩
    · obtain ⟨i', hi', hcase⟩ := ih (j - i) (by omega) hl' rfl
      exact ⟨i', by omega, hcase⟩

/-- **`block_on` returns once its task has sent.** -/
theorem blockOn_returns (hfs : (ρ.state k).threads t = .blockOn c l :: fs)
    (hsent : .sent c v ∈ (ρ.state j).shared.log) :
    ρ.Eventually k fun s => ∃ w, s.threads t = .result (some w) :: fs ∧
      .recv c w ∈ s.shared.log := by
  obtain ⟨i, hi, hreturned | ⟨hle, l, hl⟩⟩ := h.blockOn_lasts hfs j
  · exact ⟨i, hi, hreturned⟩
  refine Infinite.Eventually.later hi ?_
  refine Infinite.Eventually.of_rank wellFounded_lt
    (I := fun x s => .sent c v ∈ s.shared.log ∧ ∃ l, s.threads t = .blockOn c l :: fs ∧
      l.left ≤ x) ?_
    ⟨(ρ.log_mono hle).subset hsent, l, hl, le_rfl⟩
  rintro x i' - ⟨hv, l', hl', hx⟩
  obtain ⟨i'', hi'', hreturned | ⟨l'', hl'', hleft, hpc⟩⟩ := h.blockOn_round hl'
  · exact ⟨i'', hi''.le, Or.inl hreturned⟩
  · have hlt := hleft (hpc v hv)
    exact ⟨i'', hi''.le,
      Or.inr ⟨_, hlt.trans_le hx, (ρ.log_mono hi''.le).subset hv, l'', hl'', le_rfl⟩⟩

/-- A call of `spawn` pushes its task and returns. -/
theorem spawn_returns {task : Option (Task U)} {u : U} {b : Nat → Burst U V}
    (hfs : (ρ.state k).threads t = .user task (.run (.spawn u b)) :: fs) :
    ρ.Eventually k fun s => ∃ c id, s.threads t = .user task (.run (b c)) :: fs ∧
      Queues s.shared ⟨id, .wrapped c u⟩ ∧ .created c u ∈ s.shared.log := by
  refine h.steady.of_action keptOutside_true hfs trivial (Frame.acts_code task _)
    fun j sh' fs' _ hs hsh hfs' _ => ?_
  cases hs with
  | callSpawn =>
    have hcreated : .created (ρ.state j).shared.spawned u ∈ (ρ.state (j + 1)).shared.log := by
      rw [hsh]
      exact List.mem_append_right _ (List.mem_singleton.2 rfl)
    refine h.steady.of_action (keptOutside_log _) hfs' hcreated trivial
      fun i sh₁ fs₁ _ hs₁ hsh₁ hfs₁ hlog => ?_
    cases hs₁ with
    | spawned =>
      refine .now ⟨_, (ρ.state j).shared.nextTaskId, hfs₁, Or.inl ?_, hlog⟩
      rw [hsh₁]
      exact List.mem_append_right _ (List.mem_singleton.2 rfl)

/-- A call of `block_on` pushes its task and gets to its loop; its channel is new. -/
theorem blockOn_starts {task : Option (Task U)} {u : U} {r : Option V → Burst U V}
    (hfs : (ρ.state k).threads t = .user task (.run (.blockOn u r)) :: fs) :
    ∃ c, (∃ j, k ≤ j ∧ c = (ρ.state j).shared.spawned) ∧ ρ.Eventually k fun s => ∃ id,
      s.threads t = .blockOn c .start :: .user task (.wait r) :: fs ∧
      Queues s.shared ⟨id, .wrapped c u⟩ ∧ .created c u ∈ s.shared.log ∧
      .spawned c u ∈ s.shared.log := by
  obtain ⟨j, hj, -, sh', fs', hs, hsh, hfs', -⟩ :=
    h.steady.exists_action keptOutside_true hfs trivial (Frame.acts_code task _)
  refine ⟨(ρ.state j).shared.spawned, ⟨j, hj, rfl⟩, ?_⟩
  refine Infinite.Eventually.later (Nat.le_succ_of_le hj) ?_
  cases hs with
  | callBlockOn =>
    have hcreated : .created (ρ.state j).shared.spawned u ∈ (ρ.state (j + 1)).shared.log := by
      rw [hsh]
      exact List.mem_append_right _ (List.mem_singleton.2 rfl)
    refine h.steady.of_action (keptOutside_log _) hfs' hcreated trivial
      fun i sh₁ fs₁ _ hs₁ hsh₁ hfs₁ hlog => ?_
    cases hs₁ with
    | startBlockOn =>
      refine .now ⟨(ρ.state j).shared.nextTaskId, hfs₁, Or.inl ?_, hlog, ?_⟩
      · rw [hsh₁]
        exact List.mem_append_right _ (List.mem_singleton.2 rfl)
      · rw [hsh₁]
        exact List.mem_append_right _ (List.mem_singleton.2 rfl)

/-- A queued task gets to the code of its future. -/
theorem queued_runs (hn : 0 < n) {id : TaskId} {u : U}
    (hq : Queues (ρ.state k).shared ⟨id, .wrapped c u⟩) :
    ∃ j, k ≤ j ∧ ∃ t fs,
      (ρ.state j).threads t = .user (some ⟨id, .wrapped c u⟩) (.run (poll u)) :: fs := by
  obtain ⟨j, hj, ⟨t, sh₀, fs, hfs⟩, -⟩ := h.queued_polled hn rfl hq
  exact ⟨j, hj, t, fs, hfs⟩

/-- **A future that is pending finitely often is done.** -/
theorem queued_sent (hn : 0 < n) {id : TaskId} {u : U}
    (hu : Acc (fun u' u => Leaf (poll u) (.pending u')) u)
    (hq : Queues (ρ.state k).shared ⟨id, .wrapped c u⟩) :
    ∃ j v, .sent c v ∈ (ρ.state j).shared.log ∧ .ready c ∈ (ρ.state j).shared.log := by
  induction hu generalizing k with
  | intro u _ ih =>
    obtain ⟨j, -, t, fs, hfs⟩ := h.queued_runs hn hq
    obtain ⟨i, -, -, -, ⟨u', hleaf, hq'⟩ | ⟨v, -, hv⟩⟩ := h.poll_ends keptOutside_true hfs trivial
    · exact ih u' hleaf (Or.inl hq')
    · exact ⟨i, v, hv⟩

/-- **`block_on` of a future that is pending finitely often returns** one of its outputs, in every
fair and orderly run with a worker, whatever the other tasks do. -/
theorem block_on_halts (hn : 0 < n) {task : Option (Task U)} {u : U} {r : Option V → Burst U V}
    (hu : Acc (fun u' u => Leaf (poll u) (.pending u')) u)
    (hfs : (ρ.state k).threads t = .user task (.run (.blockOn u r)) :: fs) :
    ρ.Eventually k fun s => ∃ v, Outputs poll v (poll u) ∧
      s.threads t = .user task (.run (r (some v))) :: fs := by
  obtain ⟨c, -, hstarts⟩ := h.blockOn_starts hfs
  refine hstarts.trans ?_
  rintro i - ⟨id, hfsi, hq, -, hspawned⟩
  obtain ⟨j, v, hv, -⟩ := h.queued_sent hn hu hq
  refine (h.blockOn_returns hfsi hv).trans ?_
  rintro i₁ hi₁ ⟨w, hfs₁, hw⟩
  have hreach := h.steady.reachable i₁
  have hsent := (delivered_reachable hreach).recv_sent hw
  obtain ⟨u', hu', hout⟩ := (derived_reachable hreach).sent c w hsent
  obtain rfl := (accounted_reachable hreach).spawned_unique hu' ((ρ.log_mono hi₁).subset hspawned)
  refine h.steady.of_action keptOutside_true hfs₁ trivial trivial fun j sh' fs' _ hs _ hfs' _ => ?_
  cases hs with
  | resume => exact .now ⟨w, hout, hfs'⟩

end OrderlyRun

/-! ## An executor at rest -/

/-- A worker alone with empty queues. -/
structure Resting (s : State 1 1 U V) : Prop where
  loop : ∃ l, s.threads (.inl 0) = [.run l]
  idle : s.threads (.inr 0) = [.user none .idle]
  globalQueue : s.shared.globalQueue = []
  locals : ∀ d, s.shared.locals d = []
  shutdown : s.shared.shutdown = false

/-- A worker that finds nothing changes nothing. -/
theorem WorkerThread.step_empty {sh : Shared n U V} (hq : sh.globalQueue = [])
    (hl : ∀ d, sh.locals d = []) (i : Fin n) (l : RunLoop) (c : StealChoice) :
    ∃ l', WorkerThread.step i sh l c = (sh, l', none) := by
  unfold WorkerThread.step
  simp only [hq, hl]
  split
  · exact ⟨_, rfl⟩
  · exact ⟨_, rfl⟩
  · split
    · exact ⟨_, rfl⟩
    · next heq => cases heq
    · exact ⟨_, rfl⟩
  · exact ⟨_, rfl⟩
  · split
    · split <;> exact ⟨_, rfl⟩
    · exact ⟨_, rfl⟩
  · split <;> exact ⟨_, rfl⟩
  · exact ⟨_, rfl⟩

theorem Resting.orderly {s : State 1 1 U V} (h : Resting s) : s.Orderly := by
  have hnone : ∀ t task b fs, s.threads t ≠ .user task (.run b) :: fs := by
    rintro (i | i) task b fs hfs <;> obtain rfl := Subsingleton.elim i 0
    · obtain ⟨l, hl⟩ := h.loop
      cases hl.symm.trans hfs
    · cases h.idle.symm.trans hfs
  have hlast : ∀ t, ¬ s.DropsLast t := fun t ⟨_, task, k, fs, hfs⟩ => hnone t _ _ _ hfs
  refine ⟨fun t => ⟨?_, hlast t⟩, ?_, ?_⟩
  · exact fun ⟨task, fs, hfs⟩ => hnone t _ _ _ hfs
  · exact fun t ⟨task, u, k, fs, hfs⟩ => hnone t _ _ _ hfs
  · rintro t (⟨task, b, fs, hfs, -⟩ | ⟨hdrop, -⟩)
    · exact hnone t _ _ _ hfs
    · exact hlast t hdrop

theorem Resting.next {s : State 1 1 U V} (h : Resting s) :
    ∃ tc s', tc = (.inl 0, .steal (.batch 0)) ∧ Chosen poll s tc s' ∧
      Resting s' ∧ s'.shared = s.shared := by
  obtain ⟨l, hl⟩ := h.loop
  obtain ⟨l', hstep⟩ := WorkerThread.step_empty h.globalQueue h.locals 0 l (.batch 0)
  refine ⟨_, ⟨s.shared, update s.threads (.inl 0) [.run l']⟩, rfl, ?_, ?_, rfl⟩
  · refine .of_exec ?_ fun hpos hzero => absurd hzero hpos.ne'
    rw [hl]
    simp [exec, execRun, h.shutdown, hstep, Choice.stolen, execTook]
  · exact ⟨⟨l', by simp⟩, by simpa using h.idle, h.globalQueue, h.locals, h.shutdown⟩

/-- **An orderly run that ends at rest goes on for ever**, with nothing but the worker looking for
tasks. -/
theorem exists_orderlyRun {s s' : State 1 1 U V} {tcs : List (ThreadId 1 1 × Choice U V)}
    {G : State 1 1 U V → ThreadId 1 1 × Choice U V → Prop} (hG : ∀ a tc, G a tc → a.Orderly)
    (hstart : Reachable poll (fun s _ => s.Orderly) s) (hr : Run (Chosen poll) G s tcs s')
    (hrest : Resting s') :
    ∃ ρ : Forever 1 1 poll, ρ.state 0 = s ∧ OrderlyRun ρ ∧
      (∀ k, G (ρ.state k) (ρ.label k) ∨ (ρ.label k).2 = .steal (.batch 0)) ∧
      ∀ k, tcs.length ≤ k → (ρ.state k).shared = s'.shared := by
  obtain ⟨ρ, hstate, hρ⟩ := Infinite.exists_of_loop (Chosen poll)
    (J := fun a => Resting a ∧ a.shared = s'.shared)
    (L := fun tc => tc = (.inl 0, .steal (.batch 0)))
    (fun a ⟨ha, hsh⟩ => by
      obtain ⟨tc, b, htc, hs, hb, hshb⟩ := ha.next
      exact ⟨tc, b, htc, hs, hb, hshb.trans hsh⟩) ⟨hrest, rfl⟩
  obtain ⟨ρ', rfl, hbefore, htail⟩ := ρ.exists_prepend hr hstate
  have hlate : ∀ k, tcs.length ≤ k → (Resting (ρ'.state k) ∧ (ρ'.state k).shared = s'.shared) ∧
      ρ'.label k = (.inl 0, .steal (.batch 0)) := by
    intro k hk
    obtain ⟨i, rfl⟩ := Nat.exists_eq_add_of_le hk
    show (Resting ((ρ'.tail _).state i) ∧ ((ρ'.tail _).state i).shared = _) ∧
      (ρ'.tail _).label i = _
    rw [htail]
    exact hρ i
  have hfair : Fair ρ := by
    refine ⟨fun t k hob => ?_, fun i hoften k => ?_⟩
    · rcases t with i | i <;> obtain rfl := Subsingleton.elim i 0
      · exact ⟨k, le_rfl, by rw [(hρ k).2]⟩
      · exact absurd (Or.inr (hρ k).1.1.idle) (hob k le_rfl).1
    · obtain ⟨j, hj, hsteals⟩ := hoften k
      exact ⟨j, hj, hsteals, 0, by rw [(hρ j).2]; rfl⟩
  refine ⟨ρ', rfl, ⟨hstart, fun k => ?_, .of_tail (htail ▸ hfair)⟩, fun k => ?_,
    fun k hk => (hlate k hk).1.2⟩
  · by_cases hk : k < tcs.length
    · exact hG _ _ (hbefore k hk)
    · exact (hlate k (Nat.le_of_not_lt hk)).1.1.orderly
  · by_cases hk : k < tcs.length
    · exact Or.inl (hbefore k hk)
    · exact Or.inr (congrArg Prod.snd (hlate k (Nat.le_of_not_lt hk)).2)

/-- A thread blocks on a future that is pending once, and polls it itself. -/
theorem OrderlyRun.block_on_halts_yield : ∃ ρ : Forever 1 1 Sample.burst, OrderlyRun ρ ∧
    ρ.Eventually 0 fun s => ∃ v, Outputs Sample.burst v (Sample.burst (.yield 5)) ∧
      s.threads (.inr 0) = [.user none (.run (.ready (v + 1)))] := by
  obtain ⟨s, hs, hfs, s', hs', hrest⟩ : ∃ s, ((State.init 1 1 Sample Nat).execAll
      (fun s _ => s.Orderly) Sample.burst
      [(.inr 0, .code (.blockOn (.yield 5) fun r => .ready (r.getD 0 + 1)))]) = some s ∧
      s.threads (.inr 0) =
        [.user none (.run (.blockOn (.yield 5) fun r => .ready (r.getD 0 + 1)))] ∧
      ∃ s', s.execAll (fun s _ => s.Orderly) Sample.burst (turns (.inr 0) 15 (.steal (.batch 0))) =
        some s' ∧ Resting s' :=
    ⟨_, rfl, rfl, _, rfl, ⟨_, rfl⟩, rfl, rfl, fun _ => rfl, rfl⟩
  have hu : Acc (fun u' u => Leaf (Sample.burst u) (.pending u')) (.yield 5) := by
    refine ⟨_, fun u hu => ?_⟩
    cases hu
    refine ⟨_, fun u hu => ?_⟩
    cases hu
  obtain ⟨ρ, rfl, hρ, -⟩ := exists_orderlyRun (fun _ _ h => h) ⟨_, State.execAll_run _ hs⟩
    (State.execAll_chosen hs') hrest
  exact ⟨ρ, hρ, hρ.block_on_halts Nat.one_pos hu hfs⟩

end Luminal.Std
