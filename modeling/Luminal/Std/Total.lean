import Luminal.Std.Ownership
import Luminal.Std.Programs
import Luminal.Std.Returning
import Mathlib.Algebra.BigOperators.Fin

/-!
# Task programs run to their end

A program owns the handles in its scope and awaits each of them at most once (`Prog.burst_linear`),
so in a run of linear code the handle that it awaits yields a value as soon as its task has sent
one. By induction on the program each of its tasks is done (`program_sends`), and `block_on` of the
program returns, with the direct-style value (`block_on_eval`): total correctness of fork and join,
for any number of workers, whatever other linear futures run beside the programs.  So does a batch
of programs that a thread spawns before it blocks on their handles one by one (`spawn_all_eval`).
-/

namespace Luminal

open Function

variable {V W : Type}

/-- A program has the handles in its scope. -/
def Code.grips (c : Code V) : Multiset Grip := ∑ i, {.fresh (c.env i)}

theorem dropAll_linear {U : Type} {own : U → Multiset Grip} {b : Burst U V} {N : Multiset Grip}
    (hb : b.Linear own N) (hs : List Nat) :
    (dropAll hs b).Linear own ((hs.map fun h => ({.fresh h} : Multiset Grip)).sum + N) := by
  induction hs with
  | nil =>
    rw [List.map_nil, List.sum_nil, zero_add]
    exact hb
  | cons d hs ih =>
    rw [List.map_cons, List.sum_cons, add_assoc]
    exact ⟨.fresh d, _, rfl, rfl, ih⟩

/-- **A program is linear.** -/
theorem Prog.burst_linear {ownW : W → Multiset Grip} {n : Nat} (p : Prog V n) (env : Fin n → Nat) :
    (p.burst env).Linear (Sum.elim Code.grips ownW) (∑ i, {.fresh (env i)}) := by
  induction p with
  | ret v =>
    have hall : (∑ i, {.fresh (env i)} : Multiset Grip) =
        ((List.ofFn env).map fun h => {.fresh h}).sum + 0 := by
      rw [add_zero, List.map_ofFn, List.sum_ofFn]
      rfl
    rw [hall]
    refine dropAll_linear ?_ _
    trivial
  | yield rest ih => exact le_rfl
  | @spawn n a b share sub rest ihsub ihrest =>
    refine ⟨∑ j, {.fresh (env (share (.inr j)))}, le_of_eq ?_, fun ch => ?_⟩
    · rw [← Equiv.sum_comp share, Fintype.sum_sum_type]
      rfl
    · have hrest := ihrest (Fin.cons ch fun j => env (share (.inr j)))
      rw [Fin.sum_univ_succ] at hrest
      exact hrest
  | @await n i rest ih =>
    refine ⟨∑ j, {.fresh (env (i.succAbove j))}, ?_, le_rfl, fun v => ?_⟩
    · rw [Fin.sum_univ_succAbove _ i]
      rfl
    · exact ⟨.spent (env i), _, rfl, rfl, ih v _⟩

/-- A future that can have been pending in a poll that drops handles and goes on with `b`. -/
theorem Leaf.of_dropAll {U : Type} {hs : List Nat} {b x : Burst U V} (h : Leaf (dropAll hs b) x) :
    Leaf b x := by
  induction hs with
  | nil => exact h
  | cons d hs ih =>
    cases h with
    | dropHandle _ h => exact ih h

/-- `handles.push(rt.spawn(p))` for each program of a list. -/
def spawnAll : List (Prog V 0) → (List Nat → Burst (Code V ⊕ W) V) → Burst (Code V ⊕ W) V
  | [], k => k []
  | p :: ps, k => .spawn (.inl ⟨0, p, Fin.elim0⟩) fun h => spawnAll ps fun hs => k (h :: hs)

/-- `rt.block_on(handle)` for each handle of a list; a panic is not caught. -/
def blockAll : List Nat → (List V → Burst (Code V ⊕ W) V) → Burst (Code V ⊕ W) V
  | [], k => k []
  | h :: hs, k => .blockOn (.inl ⟨1, .await 0 .ret, fun _ => h⟩) fun r =>
    r.elim .panic fun v => blockAll hs fun vs => k (v :: vs)

theorem spawnAll_linear {ownW : W → Multiset Grip} {ps : List (Prog V 0)}
    {k : List Nat → Burst (Code V ⊕ W) V} {N : Multiset Grip}
    (hk : ∀ hs : List Nat,
      (k hs).Linear (Sum.elim Code.grips ownW) ((hs.map Grip.fresh : Multiset Grip) + N)) :
    (spawnAll ps k).Linear (Sum.elim Code.grips ownW) N := by
  induction ps generalizing k N with
  | nil =>
    have hnil := hk []
    rwa [List.map_nil, Multiset.coe_nil, zero_add] at hnil
  | cons p ps ih =>
    refine ⟨N, (zero_add N).le, fun h => ih fun hs => ?_⟩
    have hcons := hk (h :: hs)
    rwa [List.map_cons, ← Multiset.cons_coe, Multiset.cons_add, ← Multiset.add_cons] at hcons

theorem blockAll_linear {ownW : W → Multiset Grip} {hs : List Nat}
    {k : List V → Burst (Code V ⊕ W) V} {N : Multiset Grip}
    (hk : ∀ vs, (k vs).Linear (Sum.elim Code.grips ownW) N) :
    (blockAll hs k).Linear (Sum.elim Code.grips ownW)
    ((hs.map Grip.fresh : Multiset Grip) + N) := by
  induction hs generalizing k with
  | nil =>
    rw [List.map_nil, Multiset.coe_nil, zero_add]
    exact hk []
  | cons h hs ih =>
    refine ⟨(hs.map Grip.fresh : Multiset Grip) + N, le_of_eq ?_, fun r => ?_⟩
    · have hone : Code.grips (⟨1, .await 0 .ret, fun _ => h⟩ : Code V) = {.fresh h} :=
        Fin.sum_univ_one _
      show Code.grips _ + _ = _
      rw [hone, List.map_cons, ← Multiset.cons_coe, Multiset.singleton_add, Multiset.cons_add]
    · cases r with
      | none => trivial
      | some v => exact ih fun vs => hk (v :: vs)

namespace Std

open Transition

variable {n m : Nat} {own : W → Multiset Grip} {other : W → Burst (Code V ⊕ W) V}

/-- An orderly run of linear code. -/
structure LinearRun {U : Type} {poll : U → Burst U V} (own : U → Multiset Grip)
    (ρ : Forever n m poll) : Prop where
  start : ∃ tcs, Run (Chosen poll) (fun s tc => s.Orderly ∧ s.StartsLinear own tc)
    (State.init n m U V) tcs (ρ.state 0)
  orderly : ∀ k, (ρ.state k).Orderly
  linear : ∀ k, (ρ.state k).StartsLinear own (ρ.label k)
  fair : Fair ρ

section Runs

variable {U : Type} {poll : U → Burst U V} {own : U → Multiset Grip} {ρ : Forever n m poll}

theorem LinearRun.orderlyRun (h : LinearRun own ρ) : OrderlyRun ρ where
  start := by
    obtain ⟨tcs, hr⟩ := h.start
    exact Chosen.reachable_of (hr.mono fun _ _ hG => hG.1)
  orderly := h.orderly
  fair := h.fair

/-- Each handle is in one place. -/
theorem LinearRun.entrusted (h : LinearRun own ρ) (hown : ∀ u, (poll u).Linear own (own u))
    (k : Nat) : Entrusted own (ρ.state k) := by
  obtain ⟨tcs, hr⟩ := h.start
  obtain ⟨tcs', hr'⟩ := ρ.exists_run (G := State.StartsLinear own) h.linear (Nat.zero_le k)
  exact entrusted_reachable hown ((hr.mono fun _ _ hG => hG.2).append hr')

/-- The task of spawn `c` sends its output some day. -/
def Sends (ρ : Forever n m poll) (c : Nat) : Prop := ∃ j v, .sent c v ∈ (ρ.state j).shared.log

theorem Sends.eventually {c : Nat} (h : Sends ρ c) (k : Nat) :
    ρ.Eventually k fun s => ∃ v, .sent c v ∈ s.shared.log := by
  obtain ⟨j, v, hv⟩ := h
  exact ⟨max j k, le_max_right j k, v, (ρ.log_mono (le_max_left j k)).subset hv⟩

theorem Sends.of_eventually {c k : Nat}
    (h : ρ.Eventually k fun s => ∃ v, .sent c v ∈ s.shared.log) : Sends ρ c := by
  obtain ⟨j, -, v, hv⟩ := h
  exact ⟨j, v, hv⟩

/-- More and more is spawned. -/
theorem Forever.spawned_mono (ρ : Forever n m poll) {j k : Nat} (h : j ≤ k) :
    (ρ.state j).shared.spawned ≤ (ρ.state k).shared.spawned := by
  induction h with
  | refl => exact le_rfl
  | @step k _ ih =>
    refine ih.trans ?_
    generalize hb : ρ.state (k + 1) = b
    obtain @⟨sh', fs', hs, -⟩ := hb ▸ ρ.step k
    show (ρ.state k).shared.spawned ≤ sh'.spawned
    rcases threadStep_created hs with ⟨heq, -⟩ | ⟨u, heq, -⟩ <;> omega

theorem Numbered.denotes_lt {sh : Shared n (Code V ⊕ W) V} (h : Numbered sh) {ch : Nat} {v : V}
    (hv : Denotes (Created sh) ch v) : ch < sh.spawned := by
  obtain ⟨hc, -, -⟩ := hv
  exact h.lt _ _ hc

/-- A handle that was not awaited yields what was sent. -/
theorem pollHandle_ready {s : State n m U V} (hd : Delivered s) {c : Nat} {v : V}
    (hvalid : Valid s.shared (.fresh c)) (hsent : .sent c v ∈ s.shared.log) :
    (s.shared.pollHandle c).1 ≠ none := by
  have hpending := (hd.channel c).pending (by simp [hvalid.1])
  rw [hvalid.2, List.nil_append] at hpending
  rw [← mem_sents, ← hpending] at hsent
  intro hnone
  have hpoll : (JoinHandle.poll (s.shared.chan c)).1 = none := by
    unfold Shared.pollHandle at hnone
    split at hnone
    · cases hnone
    · next heq => rw [heq]
  rw [(JoinHandle.poll_none_iff _).1 hpoll] at hsent
  cases hsent

end Runs

/-- Linear code that a thread outside runs by itself, until the executor is at rest. -/
theorem exists_linearRun {other : W → Burst (Code V ⊕ W) V} {b : Burst (Code V ⊕ W) V} {k : Nat}
    {s s' : State 1 1 (Code V ⊕ W) V} (hb : b.Linear (Sum.elim Code.grips own) 0)
    (hs : (State.init 1 1 (Code V ⊕ W) V).execAll (fun s _ => s.Orderly) (Prog.poll other)
      [(.inr 0, .code b)] = some s)
    (hs' : s.execAll (fun s _ => s.Orderly) (Prog.poll other)
      (turns (.inr 0) k (.steal (.batch 0))) = some s') (hrest : Resting s') :
    ∃ ρ : Forever 1 1 (Prog.poll other), ρ.state 0 = s ∧ LinearRun (Sum.elim Code.grips own) ρ := by
  have hstart : Run (Chosen (Prog.poll other))
      (fun s tc => s.Orderly ∧ s.StartsLinear (Sum.elim Code.grips own) tc)
      (State.init 1 1 (Code V ⊕ W) V) _ s :=
    (State.execAll_chosen hs).of_labels fun tc htc a ha => by
      refine ⟨ha, fun c fs _ hc => ?_⟩
      obtain rfl := List.mem_singleton.1 htc
      cases hc
      exact hb
  have hnext : Run (Chosen (Prog.poll other))
      (fun s tc => s.Orderly ∧ s.StartsLinear (Sum.elim Code.grips own) tc) s _ s' :=
    (State.execAll_chosen hs').of_labels fun tc htc a ha => by
      refine ⟨ha, fun c fs _ hc => ?_⟩
      rw [(List.mem_replicate.1 htc).2] at hc
      cases hc
  obtain ⟨ρ, rfl, hρ, hguard, -⟩ := exists_orderlyRun (fun _ _ h => h.1)
    (Chosen.reachable_of (hstart.mono fun _ _ h => h.1)) hnext hrest
  refine ⟨ρ, rfl, ⟨_, hstart⟩, hρ.orderly, fun k c fs hfs hc => ?_, hρ.fair⟩
  rcases hguard k with hG | hsteal
  · exact hG.2 c fs hfs hc
  · rw [hsteal] at hc
    cases hc

section Programs

variable {ρ : Forever n m (Prog.poll other)} (h : LinearRun (Sum.elim Code.grips own) ρ)
  (hother : ∀ w, (other w).Linear (Sum.elim Code.grips own) (own w)) (hn : 0 < n)

include hother in
theorem poll_linear (u : Code V ⊕ W) :
    (Prog.poll other u).Linear (Sum.elim Code.grips own) (Sum.elim Code.grips own u) := by
  cases u with
  | inl c => exact c.prog.burst_linear c.env
  | inr w => exact hother w

include h hother hn

/-- **Each task of a program is done**, once those are that it awaits: the induction is on what is
left of the program. -/
theorem program_sends {scope : Nat} (p : Prog V scope) {env : Fin scope → Nat} {k : Nat}
    {t : ThreadId n m} {id : TaskId} {c : Nat} {u₀ : Code V ⊕ W}
    {fs : List (Frame (Code V ⊕ W) V)}
    (hfs : (ρ.state k).threads t = .user (some ⟨id, .wrapped c u₀⟩) (.run (p.burst env)) :: fs)
    (henv : ∀ i, Sends ρ (env i)) : Sends ρ c := by
  have hrun := h.orderlyRun
  induction p generalizing k t id c u₀ fs with
  | ret v =>
    obtain ⟨j, -, -, -, ⟨u, hu, -⟩ | ⟨w, -, hw, -⟩⟩ := hrun.poll_ends keptOutside_true hfs trivial
    · cases Leaf.of_dropAll hu
    · exact ⟨j, w, hw⟩
  | yield rest ih =>
    obtain ⟨j, -, -, -, ⟨u, hu, hq⟩ | ⟨w, -, hw, -⟩⟩ := hrun.poll_ends keptOutside_true hfs trivial
    · cases hu
      obtain ⟨i, -, t', fs', hfs'⟩ := hrun.queued_runs hn (Or.inl hq)
      exact ih hfs' henv
    · exact ⟨j, w, hw⟩
  | @spawn n a b share sub rest ihsub ihrest =>
    refine .of_eventually ((hrun.spawn_returns hfs).trans ?_)
    rintro j - ⟨ch, id', hfsj, hq, -⟩
    -- the new task is in the queue, so its handle is done some day
    have hnew : Sends ρ ch := by
      obtain ⟨i, -, t', fs', hfs'⟩ := hrun.queued_runs hn hq
      exact ihsub hfs' fun i => henv _
    refine (ihrest hfsj fun i => ?_).eventually _
    refine Fin.cases hnew (fun j => ?_) i
    exact henv _
  | @await n i rest ih =>
    obtain ⟨j₀, v₀, hv₀⟩ := henv i
    generalize hd : j₀ - k = d
    induction d using Nat.strongRecOn generalizing k t id u₀ fs with
    | _ d ihd =>
      obtain ⟨j, hj, hfsj, sh', fs', hs, -, hfs', -⟩ :=
        hrun.steady.exists_action keptOutside_true hfs trivial (Frame.acts_code _ _)
      cases hs with
      | pollHandle =>
        cases hv : ((ρ.state j).shared.pollHandle (env i)).1 with
        | some v =>
          rw [hv] at hfs'
          refine .of_eventually (hrun.steady.of_action keptOutside_true hfs' trivial
            (Frame.acts_code _ _) fun i' sh₁ fs₁ _ hs₁ _ hfs₁ _ => ?_)
          cases hs₁ with
          | dropHandle => exact (ih v hfs₁ fun j => henv _).eventually _
        | none =>
          -- nothing had been sent, so the task is polled again
          have hlt : j < j₀ := by
            by_contra hle
            have hvalid := (h.entrusted (poll_linear hother) j).fresh hfsj
            exact pollHandle_ready (delivered_reachable (hrun.steady.reachable j)) hvalid
              ((ρ.log_mono (by omega)).subset hv₀) hv
          rw [hv] at hfs'
          obtain ⟨i', hi', -, -, ⟨u, hu, hq⟩ | ⟨w, -, hw, -⟩⟩ :=
            hrun.poll_ends keptOutside_true hfs' trivial
          · cases hu
            obtain ⟨i'', hi'', t', fs', hfs''⟩ := hrun.queued_runs hn (Or.inl hq)
            exact ihd (j₀ - i'') (by omega) hfs'' rfl
          · exact ⟨i', w, hw⟩

/-- The task of a queued program is done, once those are that it awaits. -/
theorem queued_sends {k ch : Nat} {id : TaskId} {c : Code V}
    (hq : Queues (ρ.state k).shared ⟨id, .wrapped ch (.inl c)⟩) (henv : ∀ i, Sends ρ (c.env i)) :
    Sends ρ ch := by
  obtain ⟨j, -, t, fs, hfs⟩ := h.orderlyRun.queued_runs hn hq
  exact program_sends h hother hn c.prog hfs henv

variable {k : Nat} {t : ThreadId n m} {task : Option (Task (Code V ⊕ W))}
  {fs : List (Frame (Code V ⊕ W) V)}

/-- `block_on` of what is left of a program returns the value that it stands for. -/
theorem blockOn_denoted {c : Code V} {v : V} {r : Option V → Burst (Code V ⊕ W) V}
    (henv : ∀ i, Sends ρ (c.env i)) (hv : c.Denotes (Created (ρ.state k).shared) v)
    (hfs : (ρ.state k).threads t = .user task (.run (.blockOn (.inl c) r)) :: fs) :
    ρ.Eventually k fun s => s.threads t = .user task (.run (r (some v))) :: fs := by
  have hrun := h.orderlyRun
  obtain ⟨ch, ⟨i₀, hi₀, hch⟩, hstarts⟩ := hrun.blockOn_starts hfs
  refine hstarts.trans ?_
  rintro i hi ⟨id, hfsi, hq, hcreated, -⟩
  obtain ⟨j, w, hw⟩ := queued_sends h hother hn hq henv
  refine (hrun.blockOn_returns hfsi hw).trans ?_
  rintro i₁ hi₁ ⟨x, hfs₁, hx⟩
  have hreach := hrun.steady.reachable i₁
  have hcomputes := computes_reachable (hrun.steady.reachable k)
  -- the channel was made after those of the handles
  have hdenotes : Denotes (Created (ρ.state i₁).shared) ch v := by
    obtain ⟨val, hval, rfl⟩ := hv
    refine .mk ((ρ.log_mono hi₁).subset hcreated) (fun i => ?_) fun i =>
      (hval i).mono fun d e hd => (ρ.log_mono (hi.trans hi₁)).subset hd
    have hlt := hcomputes.numbered.denotes_lt (hval i)
    have hmono := ρ.spawned_mono hi₀
    omega
  have heval := (computes_reachable hreach).recv_eq (delivered_reachable hreach) hdenotes hx
  refine hrun.steady.of_action keptOutside_true hfs₁ trivial trivial
    fun j sh' fs' _ hs _ hfs' _ => ?_
  cases hs with
  | resume =>
    rw [heval] at hfs'
    exact .now hfs'

/-- **`block_on` of a program returns its direct-style value**, in every fair and orderly run of
linear code with a worker. -/
theorem block_on_eval {p : Prog V 0} {env : Fin 0 → Nat} {r : Option V → Burst (Code V ⊕ W) V}
    (hfs : (ρ.state k).threads t = .user task (.run (.blockOn (.inl ⟨0, p, env⟩) r)) :: fs) :
    ρ.Eventually k fun s => s.threads t = .user task (.run (r (some (p.eval Fin.elim0)))) :: fs :=
  blockOn_denoted h hother hn (fun i => i.elim0) ⟨Fin.elim0, fun i => i.elim0, rfl⟩ hfs

end Programs

/-- A thread outside blocks on `addOne`, and polls all its tasks itself. -/
theorem block_on_eval_addOne : ∃ ρ : Forever 1 1 (Prog.poll (V := Nat) Empty.elim),
    (∀ k, (ρ.state k).Orderly) ∧ Fair ρ ∧
    ρ.Eventually 0 fun s => s.threads (.inr 0) =
      [.user none (.run (.ready (Sample.addOne.eval Fin.elim0)))] := by
  obtain ⟨s, hs, hfs, s', hs', hrest⟩ : ∃ s, ((State.init 1 1 (Code Nat ⊕ Empty) Nat).execAll
      (fun s _ => s.Orderly) (Prog.poll Empty.elim)
      [(.inr 0, .code (.blockOn (.inl ⟨0, Sample.addOne, Fin.elim0⟩) fun r =>
        .ready (r.getD 0)))]) =
        some s ∧
      s.threads (.inr 0) = [.user none
        (.run (.blockOn (.inl ⟨0, Sample.addOne, Fin.elim0⟩) fun r => .ready (r.getD 0)))] ∧
      ∃ s', s.execAll (fun s _ => s.Orderly) (Prog.poll Empty.elim)
        (turns (.inr 0) 34 (.steal (.batch 0))) = some s' ∧ Resting s' :=
    ⟨_, rfl, rfl, _, rfl, ⟨_, rfl⟩, rfl, rfl, fun _ => rfl, rfl⟩
  have hlinear : (.blockOn (.inl ⟨0, Sample.addOne, Fin.elim0⟩) fun r => .ready (r.getD 0) :
      Burst (Code Nat ⊕ Empty) Nat).Linear (Sum.elim Code.grips Empty.elim) 0 :=
    ⟨0, le_rfl, fun r => trivial⟩
  obtain ⟨ρ, rfl, hρ⟩ := exists_linearRun hlinear hs hs' hrest
  exact ⟨ρ, hρ.orderly, hρ.fair, block_on_eval hρ (fun w => w.elim) Nat.one_pos hfs⟩

section Batches

variable {ρ : Forever n m (Prog.poll other)} (h : LinearRun (Sum.elim Code.grips own) ρ)
  (hother : ∀ w, (other w).Linear (Sum.elim Code.grips own) (own w)) (hn : 0 < n)
  {k : Nat} {t : ThreadId n m} {task : Option (Task (Code V ⊕ W))}
  {fs : List (Frame (Code V ⊕ W) V)}

include h hother hn

/-- Each program of the batch gets a handle, whose task is done some day. -/
theorem spawnAll_returns {ps : List (Prog V 0)} {b : List Nat → Burst (Code V ⊕ W) V}
    (hfs : (ρ.state k).threads t = .user task (.run (spawnAll ps b)) :: fs) :
    ρ.Eventually k fun s => ∃ hs, s.threads t = .user task (.run (b hs)) :: fs ∧
      List.Forall₂ (fun ch p => Sends ρ ch ∧ Created s.shared ch ⟨0, p, Fin.elim0⟩) hs ps := by
  induction ps generalizing k b with
  | nil => exact .now ⟨[], hfs, .nil⟩
  | cons p ps ih =>
    refine (h.orderlyRun.spawn_returns hfs).trans ?_
    rintro j - ⟨ch, id, hfsj, hq, hcreated⟩
    obtain ⟨i, hi, hs, hfsi, hall⟩ := ih hfsj
    have hsends := queued_sends h hother hn hq fun i => i.elim0
    exact ⟨i, hi, ch :: hs, hfsi, .cons ⟨hsends, (ρ.log_mono hi).subset hcreated⟩ hall⟩

/-- Each handle of the batch yields the value that it stands for. -/
theorem blockAll_returns {hs : List Nat} {vs : List V} {b : List V → Burst (Code V ⊕ W) V}
    (hall : List.Forall₂ (fun ch v => Sends ρ ch ∧ Denotes (Created (ρ.state k).shared) ch v) hs vs)
    (hfs : (ρ.state k).threads t = .user task (.run (blockAll hs b)) :: fs) :
    ρ.Eventually k fun s => s.threads t = .user task (.run (b vs)) :: fs := by
  induction hs generalizing k vs b with
  | nil =>
    cases hall
    exact .now hfs
  | cons ch hs ih =>
    cases hall with
    | @cons _ v _ vs hch hall =>
      refine (blockOn_denoted h hother hn (v := v) (fun _ => hch.1)
        ⟨fun _ => v, fun _ => hch.2, rfl⟩
        hfs).trans ?_
      intro j hj hfsj
      refine ih (b := fun vs => b (v :: vs)) (hall.imp fun d w hd => ⟨hd.1, ?_⟩) hfsj
      exact hd.2.mono fun e c hc => (ρ.log_mono hj).subset hc

/-- **A batch of programs that are spawned, and joined one by one, yields the list of their
direct-style values**, whatever order they finish in. -/
theorem spawn_all_eval {ps : List (Prog V 0)} {r : List V → Burst (Code V ⊕ W) V}
    (hfs : (ρ.state k).threads t =
      .user task (.run (spawnAll ps fun hs => blockAll hs r)) :: fs) :
    ρ.Eventually k fun s =>
      s.threads t = .user task (.run (r (ps.map fun p => p.eval Fin.elim0))) :: fs := by
  refine (spawnAll_returns h hother hn hfs).trans ?_
  rintro j - ⟨hs, hfsj, hall⟩
  refine blockAll_returns h hother hn ?_ hfsj
  rw [List.forall₂_map_right_iff]
  exact hall.imp fun ch p hch => ⟨hch.1, denotes_root hch.2⟩

end Batches

/-- A thread outside spawns a task that is pending once and one that is ready, and joins both. -/
theorem spawn_all_eval_two : ∃ ρ : Forever 1 1 (Prog.poll (V := Nat) Empty.elim),
    (∀ k, (ρ.state k).Orderly) ∧ Fair ρ ∧
    ρ.Eventually 0 fun s => s.threads (.inr 0) =
      [.user none (.run (.ready
        (([.yield (.ret 3), .ret 7] : List (Prog Nat 0)).map fun p => p.eval Fin.elim0).sum))] := by
  obtain ⟨s, hs, hfs, s', hs', hrest⟩ : ∃ s, ((State.init 1 1 (Code Nat ⊕ Empty) Nat).execAll
      (fun s _ => s.Orderly) (Prog.poll Empty.elim)
      [(.inr 0, .code (spawnAll [.yield (.ret 3), .ret 7] fun hs =>
        blockAll hs fun vs => .ready vs.sum))]) = some s ∧
      s.threads (.inr 0) = [.user none (.run (spawnAll [.yield (.ret 3), .ret 7] fun hs =>
        blockAll hs fun vs => .ready vs.sum))] ∧
      ∃ s', s.execAll (fun s _ => s.Orderly) (Prog.poll Empty.elim)
        (turns (.inr 0) 49 (.steal (.batch 0))) = some s' ∧ Resting s' :=
    ⟨_, rfl, rfl, _, rfl, ⟨_, rfl⟩, rfl, rfl, fun _ => rfl, rfl⟩
  have hlinear : (spawnAll [.yield (.ret 3), .ret 7] fun hs =>
      blockAll hs fun vs => .ready vs.sum : Burst (Code Nat ⊕ Empty) Nat).Linear
        (Sum.elim Code.grips Empty.elim) 0 :=
    spawnAll_linear fun hs => blockAll_linear fun vs => trivial
  obtain ⟨ρ, rfl, hρ⟩ := exists_linearRun hlinear hs hs' hrest
  exact ⟨ρ, hρ.orderly, hρ.fair, spawn_all_eval hρ (fun w => w.elim) Nat.one_pos hfs⟩

end Std

end Luminal
