import Luminal.NoStd.Capacity
import Luminal.NoStd.Polls

/-!
# `block_on` of a program returns its value

The loop serves the queue round-robin, so it gets to the program that can go on, whatever
stands before it.  The rank of `inevitable_done` is what is left to the family, the place
of such a program in the queue, and where the loop is in its batch.

The call itself needs a place in the queue: with the queue full the program is dropped, and
`block_on` never returns (`not_block_on_returns`).
-/

namespace Luminal.NoStd

open Function Transition

variable {V W : Type}

/-! ## The loop -/

/-- The state of a `block_on` that waits for the value `v`, between two polls. -/
structure Waiting (m : Nat) (v : V) (fs : List (Frame (Code V ⊕ W) V)) (val : Nat → V)
    (ts : List (Task (Code V ⊕ (Code V ⊕ W)))) (pc : BlockOnPc)
    (s : State (Code V ⊕ W) V) : Prop where
  stack : s.stack = .blockOn m pc :: fs
  queue : s.shared.globalQueue = ts.map unmark
  family : Family m val s.shared.results s.shared.spawned ts
  value : val m = v

section Loop

variable {cap : Option Nat} {other : W → Burst (Code V ⊕ W) V} {m : Nat} {v : V} {val : Nat → V}
  {ts : List (Task (Code V ⊕ (Code V ⊕ W)))} {pc : BlockOnPc} {s : State (Code V ⊕ W) V}
  {task : Option (Task (Code V ⊕ W))} {k : Option V → Burst (Code V ⊕ W) V}
  {fs : List (Frame (Code V ⊕ W) V)}

theorem Waiting.result (h : Waiting m v fs val ts pc s)
    (hm : (s.shared.results m).items ≠ []) : (s.shared.results m).items = [v] := by
  rcases h.family.owned m (Or.inl rfl) with ⟨c, hr⟩ | hv
  · exact absurd (h.family.value m c hr).1 hm
  · rw [hv, h.value]

/-- **Once the result is there**, the loop returns it after this batch. -/
theorem inevitable_result {n i : Nat} (hn : 10 ≤ i + n)
    (h : Waiting m v (.user task (.wait k) :: fs) val ts (.poll i) s)
    (hm : (s.shared.results m).items ≠ []) :
    Inevitable (Step cap (Prog.poll other)) (State.Allowed cap)
      (fun s => s.stack = .user task (.run (k (some v))) :: fs) s := by
  obtain ⟨sh, stack⟩ := s
  obtain rfl : stack = .blockOn m (.poll i) :: .user task (.wait k) :: fs := h.stack
  induction n generalizing i sh val ts with
  | zero =>
    refine inevitable_endBatch (fun hi => absurd hi (Nat.not_lt.2 hn)) ?_
    exact inevitable_return (h.result hm) (.now rfl)
  | succ n ih =>
    by_cases hi : i < 10 ∧ ts ≠ []
    · obtain ⟨t, ts, rfl⟩ := List.exists_cons_of_ne_nil hi.2
      refine (inevitable_round hi.1 h.queue h.family).trans ?_
      rintro s ⟨val', sh', ts', rfl, hp⟩
      have hw : Waiting m v (.user task (.wait k) :: fs) val' ts' (.poll (i + 1))
          ⟨sh', .blockOn m (.poll (i + 1)) :: .user task (.wait k) :: fs⟩ :=
        ⟨rfl, hp.queue, hp.family, hp.value.trans h.value⟩
      exact ih (by omega) sh' hw (hp.done hm)
    · refine inevitable_endBatch (fun hlt => ?_) (inevitable_return (h.result hm) (.now rfl))
      have hts : ts = [] := by_contra fun hne => hi ⟨hlt, hne⟩
      rw [h.queue, hts, List.map_nil]

/-- The rank of a state: what the family has left to do, the place of a program that can go on,
and the way to the next poll. -/
def Ranked (m : Nat) (v : V) (fs : List (Frame (Code V ⊕ W) V)) (x : Nat × Nat × Nat)
    (s : State (Code V ⊕ W) V) : Prop :=
  ∃ val ts pc t, Waiting m v fs val ts pc s ∧ x.1 = work val ts ∧
    ts[x.2.1]? = some t ∧ ready s.shared.results t = true ∧ x.2.2 = pc.toPoll

theorem Waiting.ranked (h : Waiting m v fs val ts pc s) (hm : (s.shared.results m).items = []) :
    ∃ j, Ranked m v fs (work val ts, j, pc.toPoll) s := by
  obtain ⟨t, ht, hr⟩ := h.family.exists_ready hm
  obtain ⟨j, hj⟩ := List.getElem?_of_mem ht
  exact ⟨j, val, ts, pc, t, h, rfl, hj, hr, rfl⟩

/-- **The result gets there**: what the family has left to do shrinks with each poll of a program
that can go on, and any other poll brings the next such program forward. -/
theorem inevitable_done (h : Waiting m v fs val ts pc s) :
    Inevitable (Step cap (Prog.poll other)) (State.Allowed cap)
      (fun s => ∃ val ts pc, Waiting m v fs val ts pc s ∧ (s.shared.results m).items ≠ []) s := by
  by_cases hm : (s.shared.results m).items = []
  swap
  · exact .now ⟨val, ts, pc, h, hm⟩
  obtain ⟨j, hj⟩ := h.ranked hm
  refine .of_rank (wellFounded_lt.prod_lex (wellFounded_lt.prod_lex wellFounded_lt)) ?_ hj
  rintro ⟨w, j, d⟩ ⟨sh, stack⟩ ⟨val, ts, pc, t, h, hw, ht, hr, hd⟩
  obtain rfl : stack = .blockOn m pc :: fs := h.stack
  simp only at hw ht hr hd
  subst hw hd
  by_cases hm : (sh.results m).items = []
  swap
  · exact .now (Or.inl ⟨val, ts, pc, h, hm⟩)
  cases pc with
  | check =>
    refine inevitable_retry hm (.now (Or.inr ⟨(work val ts, j, 0), ?_, val, ts, .poll 0, t, ?_⟩))
    · exact .right _ (.right _ Nat.one_pos)
    · exact ⟨⟨rfl, h.queue, h.family, h.value⟩, rfl, ht, hr, rfl⟩
  | poll i =>
    by_cases hi : i < 10
    · obtain ⟨t₀, ts, rfl⟩ : ∃ t₀ ts₀, ts = t₀ :: ts₀ := by
        refine List.exists_cons_of_ne_nil ?_
        rintro rfl
        cases ht
      refine (inevitable_round hi h.queue h.family).mono ?_
      rintro s ⟨val', sh', ts', rfl, hp⟩
      have hwait : Waiting m v fs val' ts' (.poll (i + 1))
        ⟨sh', .blockOn m (.poll (i + 1)) :: fs⟩ :=
        ⟨rfl, hp.queue, hp.family, hp.value.trans h.value⟩
      by_cases hm' : (sh'.results m).items = []
      swap
      · exact Or.inl ⟨val', ts', _, hwait, hm'⟩
      rcases hp.progress with hlt | ⟨hnot, heq, l, rfl, hres⟩
      · obtain ⟨j', hj'⟩ := hwait.ranked hm'
        exact Or.inr ⟨_, .left _ _ hlt, hj'⟩
      · cases j with
        | zero =>
          -- the front program was the one that can go on
          cases ht
          rw [hnot] at hr
          cases hr
        | succ j =>
          rw [List.getElem?_cons_succ] at ht
          refine Or.inr ⟨(work val' (ts ++ l), j, _), ?_, val', ts ++ l, _, t, hwait,
            rfl, ?_, ?_, rfl⟩
          · rw [heq]
            exact .right _ (.left _ _ (Nat.lt_succ_self j))
          · rw [List.getElem?_append_left (List.getElem?_eq_some_iff.1 ht).1]
            exact ht
          · rw [ready_congr (List.mem_of_getElem? ht) hres]
            exact hr
    · refine inevitable_endBatch (fun hlt => absurd hlt hi)
        (.now (Or.inr ⟨(work val ts, j, 1), ?_, val, ts, .check, t, ?_⟩))
      · have htwo : (BlockOnPc.poll i).toPoll = 2 := if_neg hi
        rw [htwo]
        exact .right _ (.right _ Nat.one_lt_two)
      · exact ⟨⟨rfl, h.queue, h.family, h.value⟩, rfl, ht, hr, rfl⟩

/-- The loop returns the value it waits for. -/
theorem inevitable_value (h : Waiting m v (.user task (.wait k) :: fs) val ts pc s) :
    Inevitable (Step cap (Prog.poll other)) (State.Allowed cap)
      (fun s => s.stack = .user task (.run (k (some v))) :: fs) s := by
  refine (inevitable_done h).trans ?_
  rintro ⟨sh, stack⟩ ⟨val, ts, pc, h, hm⟩
  cases pc with
  | poll i => exact inevitable_result (n := 10) (Nat.le_add_left 10 i) h hm
  | check =>
    obtain rfl : stack = .blockOn m .check :: .user task (.wait k) :: fs := h.stack
    exact inevitable_return (h.result hm) (.now rfl)

end Loop

/-! ## The call -/

/-- The family of a program that has just been spawned. -/
theorem Family.start {m : Nat} {val : Nat → V} {results : Nat → ResultQueue V}
    {ts : List (Task (Code V ⊕ W))} {p : Prog V 0} {env : Fin 0 → Nat} (id : TaskId)
    (hw : ∀ t ∈ ts, ∃ ch, t.ch? = some ch ∧ ch < m) (hn : (ts.map Task.ch?).Nodup)
    (halien : ∀ ch c, ¬ Runs ts ch c) (hm : results m = ⟨[], .blockOn⟩)
    (hval : val m = p.eval Fin.elim0) :
    Family m val results (m + 1) (ts ++ [⟨id, .wrapped m (.inl ⟨0, p, env⟩)⟩]) := by
  have hr : ∀ {d e}, Runs (⟨id, .wrapped m (.inl ⟨0, p, env⟩)⟩ :: ts) d e →
      d = m ∧ e = ⟨0, p, env⟩ := by
    intro d e he
    rcases runs_cons_inl.1 he with ⟨rfl, rfl⟩ | he
    · exact ⟨rfl, rfl⟩
    · exact absurd he (halien d e)
  have hfresh : some m ∉ ts.map Task.ch? := by
    intro hmem
    obtain ⟨t, ht, hch⟩ := List.mem_map.1 hmem
    obtain ⟨ch, hch', hlt⟩ := hw t ht
    rw [hch] at hch'
    cases hch'
    exact Nat.lt_irrefl _ hlt
  refine Family.perm ?_ (List.perm_append_singleton _ _).symm
  refine ⟨?_, ?_, ⟨Nat.lt_succ_self m, by rw [hm]⟩, ?_, ?_, ?_, ?_, ?_, ?_⟩
  · rw [List.forall_mem_cons]
    refine ⟨⟨m, rfl, Nat.lt_succ_self m⟩, fun t ht => ?_⟩
    obtain ⟨ch, hch, hlt⟩ := hw t ht
    exact ⟨ch, hch, Nat.lt_succ_of_lt hlt⟩
  · rw [List.map_cons, List.nodup_cons]
    exact ⟨hfresh, hn⟩
  · intro d e he i
    obtain ⟨rfl, rfl⟩ := hr he
    exact i.elim0
  · intro d e he i
    obtain ⟨rfl, rfl⟩ := hr he
    exact i.elim0
  · intro d e d' e' i i' he
    obtain ⟨rfl, rfl⟩ := hr he
    exact i.elim0
  · intro d e he
    obtain ⟨rfl, rfl⟩ := hr he
    refine ⟨by rw [hm], hval.trans ?_⟩
    congr 1
    funext i
    exact i.elim0
  · rintro d (rfl | ⟨a, e, i, he, -⟩)
    · exact Or.inl ⟨_, runs_cons_inl.2 (Or.inl ⟨rfl, rfl⟩)⟩
    · obtain ⟨rfl, rfl⟩ := hr he
      exact i.elim0
  · rintro d ha (rfl | ⟨a, e, i, he, -⟩)
    · exact hfresh (alien_cons_inl.1 ha).mem_channels
    · obtain ⟨rfl, rfl⟩ := hr he
      exact i.elim0

/-- **`block_on` of a program returns its direct-style value**, whatever is queued. -/
theorem block_on_returns {cap : Option Nat} {other : W → Burst (Code V ⊕ W) V}
    {sh : Shared (Code V ⊕ W) V} {p : Prog V 0} {env : Fin 0 → Nat}
    {k : Option V → Burst (Code V ⊕ W) V}
    (hs : Reachable cap (Prog.poll other)
      ⟨sh, [.user none (.run (.blockOn (.inl ⟨0, p, env⟩) k))]⟩) :
    Inevitable (Step cap (Prog.poll other)) (State.Allowed cap)
      (fun s => s.stack = [.user none (.run (k (some (p.eval Fin.elim0))))])
      ⟨sh, [.user none (.run (.blockOn (.inl ⟨0, p, env⟩) k))]⟩ := by
  have hqueued := queued_reachable hs
  refine .of_ok fun hok => inevitable_blockOn ?_
  have hroom : Room cap sh.globalQueue := hok.2.room Nat.one_pos
  have hfam : Family sh.spawned (fun _ => p.eval Fin.elim0)
      (update sh.results sh.spawned ⟨[], .blockOn⟩) (sh.spawned + 1)
      (sh.globalQueue.map markAlien ++
        [⟨sh.nextTaskId, .wrapped sh.spawned (.inl ⟨0, p, env⟩)⟩]) := by
    refine Family.start sh.nextTaskId ?_ ?_ ?_ (update_self _ _ _) rfl
    · intro t' ht'
      obtain ⟨t, ht, rfl⟩ := List.mem_map.1 ht'
      obtain ⟨ch, u, hf, hlt⟩ := hqueued.wrapped t ht
      refine ⟨ch, ?_, hlt⟩
      rw [ch?_markAlien, Task.ch?, hf]
    · rw [List.map_map]
      have hch : Task.ch? ∘ markAlien = (Task.ch? : Task (Code V ⊕ W) → Option Nat) :=
        funext fun _ => ch?_markAlien
      rw [hch]
      exact hqueued.nodup
    · rintro ch c ⟨t, ht, hf⟩
      obtain ⟨t, ht, rfl⟩ := List.mem_map.1 ht
      exact markAlien_future ch c hf
  refine inevitable_value (m := sh.spawned) ⟨rfl, ?_, hfam, rfl⟩
  have hmarks : unmark ∘ markAlien = (fun t : Task (Code V ⊕ W) => t) :=
    funext fun _ => unmark_markAlien
  rw [Shared.spawn_queue hroom, List.map_append, List.map_map, hmarks, List.map_id']
  rfl

/-- A task that is never done. -/
def Sample.restless (_ : Unit) : Burst (Code Nat ⊕ Unit) Nat := .pending (.inr ())

/-- Beside a task that is never done, `addOne` returns 4. -/
theorem block_on_returns_addOne : ∃ sh : Shared (Code Nat ⊕ Unit) Nat, sh.globalQueue.length = 1 ∧
    Inevitable (Step SimpleExecutor.capacity (Prog.poll Sample.restless))
      (State.Allowed SimpleExecutor.capacity) (fun s => s.stack = [.user none (.run (.ready 4))])
      ⟨sh, [.user none (.run
        (.blockOn (.inl ⟨0, Sample.addOne, Fin.elim0⟩) fun r => .ready (r.getD 0)))]⟩ := by
  have hr : Reachable SimpleExecutor.capacity (Prog.poll Sample.restless)
      ⟨(SimpleExecutor.new (Code Nat ⊕ Unit) Nat).spawn SimpleExecutor.capacity (.inr ()) .handle,
        [.user none (.run (.blockOn (.inl ⟨0, Sample.addOne, Fin.elim0⟩) fun r =>
          .ready (r.getD 0)))]⟩ :=
    ⟨_, (Run.single trivial (Step.enter _ (.spawn (.inr ()) fun _ => .blockOn _ _) [])).snoc trivial
      (Step.spawn _ none _ _ [] (.value 0))⟩
  exact ⟨_, rfl, block_on_returns hr⟩

/-! ## A full queue -/

/-- Spawn `k` tasks that are never done, then block on a program that just returns. -/
def Sample.fill : Nat → Burst (Code Nat ⊕ Unit) Nat
  | 0 => .blockOn (.inl ⟨0, .ret 0, Fin.elim0⟩) fun _ => .ready 0
  | k + 1 => .spawn (.inr ()) fun _ => fill k

/-- The queue holds nothing but tasks that are never done. -/
def Restless (sh : Shared (Code Nat ⊕ Unit) Nat) : Prop :=
  ∀ t ∈ sh.globalQueue, ∃ id ch, t = ⟨id, .wrapped ch (.inr ())⟩

theorem Restless.spawn {cap : Option Nat} {sh : Shared (Code Nat ⊕ Unit) Nat} (h : Restless sh)
    (holder : Holder) : Restless (sh.spawn cap (.inr ()) holder) := by
  intro t ht
  rcases mem_pushBack ht with ht | rfl
  · exact h t ht
  · exact ⟨_, _, rfl⟩

/-- The states of a `block_on` whose task found the queue full. -/
inductive Dropped (c : Nat) : State (Code Nat ⊕ Unit) Nat → Prop
  | call {sh : Shared (Code Nat ⊕ Unit) Nat} : Restless sh → sh.globalQueue.length = c →
      Dropped c ⟨sh, [.user none (.run (Sample.fill 0))]⟩
  | loop {sh : Shared (Code Nat ⊕ Unit) Nat} {m : Nat} {pc : BlockOnPc}
      {k : Option Nat → Burst (Code Nat ⊕ Unit) Nat} : Restless sh → sh.globalQueue.length = c →
      (sh.results m).items = [] → Dropped c ⟨sh, [.blockOn m pc, .user none (.wait k)]⟩
  | polling {sh : Shared (Code Nat ⊕ Unit) Nat} {m : Nat} {pc : BlockOnPc}
      {k : Option Nat → Burst (Code Nat ⊕ Unit) Nat} {id : TaskId} {ch : Nat} : Restless sh →
      sh.globalQueue.length + 1 = c → (sh.results m).items = [] →
      Dropped c ⟨sh, [.user (some ⟨id, .wrapped ch (.inr ())⟩) (.run (.pending (.inr ()))),
        .blockOn m pc, .user none (.wait k)]⟩

theorem Dropped.calm {c : Nat} {s : State (Code Nat ⊕ Unit) Nat} (h : Dropped c s) :
    s.Calm ∧ s.Counted (some c) := by
  constructor
  · constructor
    · intro task fs hs
      cases h <;> cases hs
    · intro task u k fs hs
      cases h <;> cases hs
    · rintro task b fs d hs (⟨k, rfl⟩ | ⟨k, rfl⟩)
      · cases h <;> cases hs
      · cases h <;> cases hs
  · intro c' hc'
    cases hc'
    cases h with
    | call h hlen | loop h hlen hm => simpa [Frame.polled] using hlen.le
    | polling h hlen hm => simpa [Frame.polled] using hlen.le

theorem Dropped.step {c : Nat} (hc : 0 < c) {s : State (Code Nat ⊕ Unit) Nat} (h : Dropped c s) :
    ∃ a s', Step (some c) (Prog.poll Sample.restless) s a s' ∧ Dropped c s' := by
  cases h with
  | @call sh h hlen =>
    have hfull : ¬ Room (some c) sh.globalQueue := by
      rw [room_some]
      omega
    have hpush := pushBack_of_full hfull
    refine ⟨.value 0, _, Step.blockOn sh none _ _ [] _, .loop ?_ ?_ ?_⟩
    · intro t ht
      rw [Shared.spawn, hpush] at ht
      exact h t ht
    · rw [Shared.spawn, hpush]
      exact hlen
    · simp [Shared.spawn]
  | @loop sh m pc k h hlen hm =>
    cases pc with
    | check => exact ⟨.value 0, _, Step.retry sh m _ _ hm, .loop h hlen hm⟩
    | poll i =>
      by_cases hi : i < 10
      · obtain ⟨t, q, hq⟩ := List.exists_cons_of_length_pos (hlen ▸ hc)
        obtain ⟨id, ch, rfl⟩ := h t (hq ▸ List.mem_cons_self)
        rw [hq, List.length_cons] at hlen
        refine ⟨.value 0, _, Step.pop sh id ch (.inr ()) q m i _ _ hi hq, .polling ?_ hlen hm⟩
        exact fun t ht => h t (hq ▸ List.mem_cons_of_mem _ ht)
      · exact ⟨.value 0, _, Step.endBatch sh m i _ _ fun hlt => absurd hlt hi, .loop h hlen hm⟩
  | @polling sh m pc k id ch h hlen hm =>
    have hroom : Room (some c) sh.globalQueue := by
      rw [room_some]
      omega
    have hpush := pushBack_of_room hroom
    refine ⟨.value 0, _, Step.pending sh id ch _ _ m pc _ _, .loop ?_ ?_ hm⟩
    · intro t ht
      rw [Shared.requeue, hpush] at ht
      rcases List.mem_append.1 ht with ht | ht
      · exact h t ht
      · exact ⟨id, ch, List.mem_singleton.1 ht⟩
    · rw [Shared.requeue, hpush, List.length_append]
      exact hlen

/-- With 1024 tasks queued, `block_on` never returns: its own task finds no room. -/
theorem not_block_on_returns :
    ¬ ∀ (sh : Shared (Code Nat ⊕ Unit) Nat) (p : Prog Nat 0) (env : Fin 0 → Nat)
      (k : Option Nat → Burst (Code Nat ⊕ Unit) Nat),
      Reachable SimpleExecutor.capacity (Prog.poll Sample.restless)
        ⟨sh, [.user none (.run (.blockOn (.inl ⟨0, p, env⟩) k))]⟩ →
      Inevitable (Step SimpleExecutor.capacity (Prog.poll Sample.restless))
        (fun s => s.Calm ∧ s.Counted SimpleExecutor.capacity)
        (fun s => s.stack = [.user none (.run (k (some (p.eval Fin.elim0))))])
        ⟨sh, [.user none (.run (.blockOn (.inl ⟨0, p, env⟩) k))]⟩ := by
  intro h
  have hnew : Restless (SimpleExecutor.new (Code Nat ⊕ Unit) Nat) := nofun
  obtain ⟨as, sh, h1, h2, h3⟩ := spawn_repeat (c := 1024) (Prog.poll Sample.restless) Sample.fill
    (fun _ => rfl) (fun _ hsh _ => hsh.spawn .handle) 1024 hnew le_rfl
  have hr := h sh _ _ _ ⟨_, Run.cons trivial (Step.enter _ _ []) h3⟩
  refine not_inevitable (J := Dropped 1024) (fun s hs => hs.calm) ?_
    (fun s hs => hs.step (by omega))
    (.call h1 h2) hr
  rintro s hs heq
  cases hs <;> cases heq

end Luminal.NoStd
