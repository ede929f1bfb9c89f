import Luminal.NoStd.Observed

/-!
# `block_on` of a finite future returns

The loop of `SimpleExecutor::block_on` serves its queue round-robin, and every poll ends
(`inevitable_ends`).  So while there is room for the tasks a future that is pending finitely often
is done after so many rounds, whatever else is queued, and the call returns one of its outputs
(`block_on_finite`).
-/

namespace Luminal.NoStd

open Function Transition

variable {U V : Type} {cap : Option Nat} {poll : U → Burst U V}

/-- Tasks of other spawns than `c`. -/
def Apart (c : Nat) (q : List (Task U)) : Prop :=
  ∀ t ∈ q, ∃ id ch u, t = ⟨id, .wrapped ch u⟩ ∧ ch ≠ c

theorem Apart.append {c : Nat} {q q' : List (Task U)} (h : Apart c q) (h' : Apart c q') :
    Apart c (q ++ q') := fun t ht => (List.mem_append.1 ht).elim (h t) (h' t)

theorem apart_single {c ch : Nat} (id : TaskId) (u : U) (h : ch ≠ c) :
    Apart c [⟨id, .wrapped ch u⟩] := fun _ ht => ⟨id, ch, u, List.mem_singleton.1 ht, h⟩

/-- The `block_on` of spawn `c` after a poll of task `ch` that ran `b`: others may have joined the
queue, and the task is behind them, or its output is sent. -/
structure Ended (b : Burst U V) (id : TaskId) (c ch : Nat) (sh sh' : Shared U V) : Prop where
  born : c < sh'.spawned
  holder : (sh'.results c).holder = .blockOn
  others : ch ≠ c → (sh'.results c).items = (sh.results c).items
  ended : ∃ more, Apart c more ∧
    ((∃ u, Leaf b (.pending u) ∧ (sh'.results c).items = (sh.results c).items ∧
        sh'.globalQueue = sh.globalQueue ++ (more ++ [⟨id, .wrapped ch u⟩])) ∨
      ∃ v, Leaf b (.ready v) ∧ sh'.globalQueue = sh.globalQueue ++ more ∧
        (ch = c → (sh.results c).items = [] → (sh'.results c).items = [v]))

/-- What an effect before the rest of a poll may have done. -/
theorem Ended.before {b b' : Burst U V} {id : TaskId} {c ch : Nat} {sh sh₁ sh' : Shared U V}
    {more : List (Task U)} (h : Ended b id c ch sh₁ sh') (hleaf : ∀ x, Leaf b x → Leaf b' x)
    (hq : sh₁.globalQueue = sh.globalQueue ++ more) (hmore : Apart c more)
    (hres : sh₁.results c = sh.results c) : Ended b' id c ch sh sh' := by
  obtain ⟨hborn, hholder, hothers, more', hmore', hend⟩ := h
  rw [hres] at hothers hend
  refine ⟨hborn, hholder, hothers, more ++ more', hmore.append hmore', ?_⟩
  rcases hend with ⟨u, hu, hitems, hqueue⟩ | ⟨v, hv, hqueue, hitems⟩
  · exact Or.inl ⟨u, hleaf _ hu, hitems, by rw [hqueue, hq]; simp⟩
  · exact Or.inr ⟨v, hleaf _ hv, by rw [hqueue, hq]; simp, hitems⟩

section Poll

variable {c ch : Nat} {pc : BlockOnPc} {fs : List (Frame U V)}

/-- **A poll ends**, whatever the task does in it: the induction is on what is left of the burst. -/
theorem inevitable_ends {b : Burst U V} {sh : Shared U V} {id : TaskId} {u : U}
    (hc : c < sh.spawned) (hh : (sh.results c).holder = .blockOn) :
    Inevitable (Step cap poll) (fun s => s.Fine cap ∧ s.Owns)
      (fun s => ∃ sh', s = ⟨sh', .blockOn c pc :: fs⟩ ∧ Ended b id c ch sh sh')
      ⟨sh, .user (some ⟨id, .wrapped ch u⟩) (.run b) :: .blockOn c pc :: fs⟩ := by
  -- an effect that touches neither the queue nor the result of the call
  have hsame : ∀ {b b' : Burst U V} {sh sh₁ : Shared U V}, sh₁.globalQueue = sh.globalQueue →
      sh₁.results c = sh.results c → (∀ x, Leaf b x → Leaf b' x) → ∀ s : State U V,
      (∃ sh', s = ⟨sh', .blockOn c pc :: fs⟩ ∧ Ended b id c ch sh₁ sh') →
      ∃ sh', s = ⟨sh', .blockOn c pc :: fs⟩ ∧ Ended b' id c ch sh sh' := by
    rintro b b' sh sh₁ hq hres hleaf s ⟨sh', rfl, h⟩
    exact ⟨sh', rfl, h.before hleaf (hq.trans (List.append_nil _).symm) nofun hres⟩
  induction b generalizing sh with
  | pending u' =>
    refine Inevitable.of_ok fun hok => ?_
    have hroom : Room cap sh.globalQueue := hok.1.2.room_polling
    refine inevitable_pending (.now ⟨_, rfl, hc, hh, fun _ => rfl, [], nofun, Or.inl ?_⟩)
    exact ⟨u', .pending u', rfl, pushBack_of_room hroom _⟩
  | ready v =>
    refine inevitable_ready
      (.now ⟨_, rfl, hc, (Shared.finish_holder ..).trans hh, fun hne => ?_, [],
      nofun, Or.inr ⟨v, .ready v, (List.append_nil _).symm, ?_⟩⟩)
    · show (update sh.results ch _ c).items = _
      rw [update_of_ne hne.symm]
    · rintro rfl hitems
      show (update sh.results ch ((sh.results ch).enqueue v) ch).items = [v]
      rw [update_self, ResultQueue.enqueue, hitems]
      rfl
  | panic => exact Inevitable.of_ok fun hok => absurd rfl (hok.1.1.noPanic _ _)
  | blockOn u' k _ => exact Inevitable.of_ok fun hok => absurd ⟨_, _, _, _, rfl⟩ hok.1.1.noNest
  | outside k ih =>
    exact inevitable_outside fun x => (ih x hc hh).mono (hsame rfl rfl fun _ => .outside x)
  | cloneRuntime k ih =>
    exact inevitable_cloneRuntime ((ih hc hh).mono (hsame rfl rfl fun _ => .cloneRuntime))
  | dropRuntime k ih =>
    exact inevitable_dropRuntime ((ih hc hh).mono (hsame rfl rfl fun _ => .dropRuntime))
  | spawn u' k ih =>
    have hne : sh.spawned ≠ c := Nat.ne_of_gt hc
    have hres : (sh.spawn cap u' .handle).results c = sh.results c := update_of_ne hne.symm _ _
    obtain ⟨more, hmore, hapart⟩ : ∃ more, (sh.spawn cap u' .handle).globalQueue =
        sh.globalQueue ++ more ∧ Apart c more := by
      show ∃ more, pushBack cap sh.globalQueue _ = _ ∧ _
      unfold pushBack
      split
      · exact ⟨_, rfl, apart_single _ u' hne⟩
      · exact ⟨[], (List.append_nil _).symm, nofun⟩
    refine inevitable_spawn ((ih _ (Nat.lt_succ_of_lt hc) (by rw [hres, hh])).mono ?_)
    rintro s ⟨sh', rfl, h⟩
    exact ⟨sh', rfl, h.before (fun _ => .spawn u' _) hmore hapart hres⟩
  | pollHandle d k ih =>
    refine Inevitable.of_ok fun hok => ?_
    have hd : (sh.results d).holder = .handle := hok.2 _ _ _ d rfl (Or.inl ⟨k, rfl⟩)
    have hne : c ≠ d := by
      rintro rfl
      cases hh.symm.trans hd
    have hres : (sh.pollHandle d).2.results c = sh.results c := Shared.pollHandle_of_ne hne
    refine inevitable_pollHandle hd ((ih _ ?_ ?_).mono
      (hsame (Shared.pollHandle_queue ..) hres fun _ => .pollHandle d _))
    · rwa [Shared.pollHandle_spawned]
    · rw [hres, hh]
  | dropHandle d k ih =>
    refine Inevitable.of_ok fun hok => ?_
    have hd : (sh.results d).holder = .handle := hok.2 _ _ _ d rfl (Or.inr ⟨k, rfl⟩)
    have hne : c ≠ d := by
      rintro rfl
      cases hh.symm.trans hd
    have hres : (sh.dropHandle d).results c = sh.results c := update_of_ne hne _ _
    refine inevitable_dropHandle hd ((ih ?_ ?_).mono (hsame rfl hres fun _ => .dropHandle d))
    · exact hc
    · rw [hres, hh]

end Poll

/-! ## The loop -/

section Loop

variable {c : Nat} {f : U} {k : Option V → Burst U V}

/-- **The turn of a task comes**, and it is done in finitely many of them. -/
theorem inevitable_turns {u : U} (hu : Acc (fun u' u => Leaf (poll u) (.pending u')) u)
    {sh : Shared U V} {id : TaskId} {front back : List (Task U)} {pc : BlockOnPc}
    (hq : sh.globalQueue = front ++ ⟨id, .wrapped c u⟩ :: back) (hfront : Apart c front)
    (hback : Apart c back) (hc : c < sh.spawned) (hh : (sh.results c).holder = .blockOn)
    (hitems : (sh.results c).items = [])
    (hout : ∀ v, Outputs poll v (poll u) → Outputs poll v (poll f)) :
    Inevitable (Step cap poll) (fun s => s.Fine cap ∧ s.Owns)
      (fun s => ∃ v, Outputs poll v (poll f) ∧ s.stack = [.user none (.run (k (some v)))])
      ⟨sh, [.blockOn c pc, .user none (.wait k)]⟩ := by
  induction hu generalizing sh front back pc with
  | intro u _ ihu =>
  induction front generalizing sh back pc with
  | nil =>
    refine inevitable_next hitems fun i hi => inevitable_pop hi hq ?_
    refine (inevitable_ends ?_ ?_).trans ?_
    · exact hc
    · exact hh
    rintro s ⟨sh', rfl, hborn, hholder, -, more, hmore, hend⟩
    rcases hend with ⟨u', hu', hitems', hqueue⟩ | ⟨v, hv, -, hitems'⟩
    · have hq' : sh'.globalQueue = back ++ more ++ [⟨id, .wrapped c u'⟩] := by
        rw [hqueue, ← List.append_assoc]
        rfl
      exact ihu u' hu' hq' (hback.append hmore) nofun hborn hholder
        (hitems'.trans hitems) fun v hv => hout v (hu'.outputs (.pending hv))
    · have harrived : Arrived c v sh' := ⟨hborn, ⟨[], hitems' rfl hitems⟩, hholder⟩
      refine ((inevitable_dequeued _ rfl harrived).mono_ok fun s hs => ⟨hs.1.1, hs.2⟩).mono ?_
      exact fun s hs => ⟨v, hout v (hv.outputs .ready), hs⟩
  | cons t front ih =>
    obtain ⟨id', ch, w, rfl, hch⟩ := hfront t List.mem_cons_self
    refine inevitable_next hitems fun i hi => inevitable_pop hi hq ?_
    refine (inevitable_ends ?_ ?_).trans ?_
    · exact hc
    · exact hh
    rintro s ⟨sh', rfl, hborn, hholder, hothers, more, hmore, hend⟩
    have hitems' : (sh'.results c).items = [] := (hothers hch).trans hitems
    have hfront' : Apart c front := fun t ht => hfront t (List.mem_cons_of_mem _ ht)
    rcases hend with ⟨w', -, -, hqueue⟩ | ⟨v, -, hqueue, -⟩
    · have hq' : sh'.globalQueue = front ++ ⟨id, .wrapped c u⟩ ::
          (back ++ (more ++ [⟨id', .wrapped ch w'⟩])) := by
        rw [hqueue]
        simp [Shared.popped]
      exact ih hq' hfront' (hback.append (hmore.append (apart_single id' w' hch))) hborn hholder
        hitems'
    · have hq' : sh'.globalQueue = front ++ ⟨id, .wrapped c u⟩ :: (back ++ more) := by
        rw [hqueue]
        simp [Shared.popped]
      exact ih hq' hfront' (hback.append hmore) hborn hholder hitems'

end Loop

/-- **`block_on` of a future that is pending finitely often returns** one of its outputs, whatever
tasks are queued, as long as there is room for those that are unfinished. -/
theorem block_on_finite {sh : Shared U V} {f : U} {k : Option V → Burst U V}
    (hs : Reachable cap poll ⟨sh, [.user none (.run (.blockOn f k))]⟩)
    (hf : Acc (fun u' u => Leaf (poll u) (.pending u')) f) :
    Inevitable (Step cap poll) (fun s => s.Fine cap ∧ s.Owns)
      (fun s => ∃ v, Outputs poll v (poll f) ∧ s.stack = [.user none (.run (k (some v)))])
      ⟨sh, [.user none (.run (.blockOn f k))]⟩ := by
  refine .of_ok fun hok => inevitable_blockOn ?_
  have hroom : Room cap sh.globalQueue := hok.1.2.room Nat.one_pos
  have hnew : (sh.spawn cap f .blockOn).results sh.spawned = ⟨[], .blockOn⟩ := update_self ..
  refine inevitable_turns hf (Shared.spawn_queue hroom f .blockOn) ?_ nofun
    (Nat.lt_succ_self _) ?_ ?_
    fun v hv => hv
  · intro t ht
    obtain ⟨ch, u, hfuture, hlt⟩ := (queued_reachable hs).wrapped t ht
    obtain ⟨id, future⟩ := t
    cases hfuture
    exact ⟨id, ch, u, rfl, hlt.ne⟩
  · rw [hnew]
  · rw [hnew]

/-- A thread blocks on a future that is pending once, behind another one. -/
theorem block_on_finite_yield : ∃ sh : Shared Future Nat, sh.globalQueue.length = 1 ∧
    Inevitable (Step SimpleExecutor.capacity Future.burst)
      (fun s => s.Fine SimpleExecutor.capacity ∧ s.Owns)
      (fun s => ∃ v, Outputs Future.burst v (Future.burst (.yield 5)) ∧
        s.stack = [.user none (.run (.ready (v + 1)))])
      ⟨sh, [.user none (.run (.blockOn (.yield 5) fun r => .ready (r.getD 0 + 1)))]⟩ := by
  have hr : Reachable SimpleExecutor.capacity Future.burst
      ⟨(SimpleExecutor.new Future Nat).spawn SimpleExecutor.capacity (.yield 7) .handle,
        [.user none (.run (.blockOn (.yield 5) fun r => .ready (r.getD 0 + 1)))]⟩ :=
    ⟨_, (Run.single trivial
      (Step.enter _ (.spawn (.yield 7) fun _ => .blockOn _ _) [])).snoc trivial
      (Step.spawn _ none _ _ [] (.value 0))⟩
  have hf : Acc (fun u' u => Leaf (Future.burst u) (.pending u')) (.yield 5) := by
    refine ⟨_, fun u hu => ?_⟩
    cases hu
    refine ⟨_, fun u hu => ?_⟩
    cases hu
  exact ⟨_, rfl, block_on_finite hr hf⟩

end Luminal.NoStd
