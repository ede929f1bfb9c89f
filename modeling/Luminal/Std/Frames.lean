import Luminal.Std.Effects

/-!
# Which frames an action can add, and who still owns the executor

`New` lists the kinds of frames that come on a stack and when they do.  From it follow the facts
about ownership: a call that borrows a `Runtime` keeps the executor alive, and once the flag is
set there is no such call any more (`owned_reachable`).
-/

namespace Luminal.Std

open Function Transition

variable {n m : Nat} {U V : Type} {poll : U → Burst U V}

inductive Frame.Kind where
  | user
  | sent
  | finished
  | requeue
  | spawn
  | run
  | blockOn
  | result
  | dropInner
  deriving DecidableEq

def Frame.kind : Frame U V → Frame.Kind
  | .user .. => .user
  | .sent _ => .sent
  | .finished => .finished
  | .requeue .. => .requeue
  | .spawn .. => .spawn
  | .run _ => .run
  | .blockOn .. => .blockOn
  | .result _ => .result
  | .dropInner _ => .dropInner

/-- The kinds of frames that an action can add to the stack `fs`, with what they say of it. -/
inductive New (sh : Shared n U V) (fs : List (Frame U V)) : Frame.Kind → Prop
  | poll {k : Frame.Kind} : k = .user ∨ k = .finished → New sh fs k
  | ending {k : Frame.Kind} (task code fs₁) : k = .sent ∨ k = .requeue →
      fs = .user (some task) code :: fs₁ → New sh fs k
  | spawn (task u fs₁) : 0 < sh.owners → (∃ k, fs = .user task (.run (.spawn u k)) :: fs₁) ∨
      (∃ k, fs = .user task (.run (.blockOn u k)) :: fs₁) → New sh fs .spawn
  | blockOn (task ch fs₁) : fs = .spawn task ch true :: fs₁ → New sh fs .blockOn
  | panicked (task fs₁) : fs = .user (some task) (.run .panic) :: fs₁ → New sh fs .result
  | received (ch l fs₁) : fs = .blockOn ch l :: fs₁ → New sh fs .result
  | dropInner (task k fs₁) : sh.owners = 1 → fs = .user task (.run (.dropRuntime k)) :: fs₁ →
      New sh fs .dropInner
  | released (l) : 0 < sh.owners → fs = [.result none, .run l] → New sh fs .dropInner

theorem kind_beginPoll (poll : U → Burst U V) (sh : Shared n U V) (task : Task U) :
    (sh.beginPoll poll task).2.kind = .user ∨ (sh.beginPoll poll task).2.kind = .finished := by
  unfold Shared.beginPoll
  split
  · exact Or.inl rfl
  · exact Or.inr rfl

/-- **A frame on the stack after an action is of a kind that was there**, or a new one. -/
theorem threadStep_kinds {sh sh' : Shared n U V} {t : ThreadId n m} {fs fs' : List (Frame U V)}
    (h : ThreadStep poll sh t fs sh' fs') {f : Frame U V} (hf : f ∈ fs') :
    (∃ g ∈ fs, g.kind = f.kind) ∨ New sh fs f.kind := by
  -- a stack that keeps its tail and has a new top
  have hpush : ∀ {top : Frame U V} {rest : List (Frame U V)}, f ∈ top :: rest →
      (∀ g ∈ rest, ∃ g' ∈ fs, g'.kind = g.kind) →
      ((∃ g ∈ fs, g.kind = top.kind) ∨ New sh fs top.kind) →
      (∃ g ∈ fs, g.kind = f.kind) ∨ New sh fs f.kind := by
    intro top rest hf hrest htop
    rcases List.mem_cons.1 hf with rfl | hf
    · exact htop
    · exact Or.inl (hrest f hf)
  cases h with
  | callSpawn task u k fs hown =>
    refine hpush hf (fun g hg => ?_) (Or.inr (.spawn _ _ _ hown (Or.inl ⟨k, rfl⟩)))
    rcases List.mem_cons.1 hg with rfl | hg
    · exact ⟨_, List.mem_cons_self, rfl⟩
    · exact ⟨g, List.mem_cons_of_mem _ hg, rfl⟩
  | callBlockOn task u k fs hown =>
    refine hpush hf (fun g hg => ?_) (Or.inr (.spawn _ _ _ hown (Or.inr ⟨k, rfl⟩)))
    rcases List.mem_cons.1 hg with rfl | hg
    · exact ⟨_, List.mem_cons_self, rfl⟩
    · exact ⟨g, List.mem_cons_of_mem _ hg, rfl⟩
  | dropLastRuntime task k fs hown =>
    refine hpush hf (fun g hg => ?_) (Or.inr (.dropInner _ _ _ hown rfl))
    rcases List.mem_cons.1 hg with rfl | hg
    · exact ⟨_, List.mem_cons_self, rfl⟩
    · exact ⟨g, List.mem_cons_of_mem _ hg, rfl⟩
  | pendingRun id c u₀ u l fs | pendingHelp id c u₀ u b l fs =>
    refine hpush hf (fun g hg => ⟨g, List.mem_cons_of_mem _ hg, rfl⟩) (Or.inr ?_)
    exact .ending _ _ _ (Or.inr rfl) rfl
  | ready id c u v fs =>
    refine hpush hf (fun g hg => ⟨g, List.mem_cons_of_mem _ hg, rfl⟩) (Or.inr ?_)
    exact .ending _ _ _ (Or.inl rfl) rfl
  | panic id c u fs =>
    exact hpush hf (fun g hg => ⟨g, List.mem_cons_of_mem _ hg, rfl⟩) (Or.inr (.panicked _ _ rfl))
  | endWrapped id c u fs =>
    exact hpush hf (fun g hg => ⟨g, List.mem_cons_of_mem _ hg, rfl⟩)
      (Or.inr (.poll (Or.inr rfl)))
  | startBlockOn task c fs =>
    exact hpush hf (fun g hg => ⟨g, List.mem_cons_of_mem _ hg, rfl⟩) (Or.inr (.blockOn _ _ _ rfl))
  | recvOk c l v fs _ _ | recvDisconnected c l fs _ _ =>
    exact hpush hf (fun g hg => ⟨g, List.mem_cons_of_mem _ hg, rfl⟩) (Or.inr (.received _ _ _ rfl))
  | helpTask c l ch' sh₁ l' task fs hh | runTask i l c sh₁ l' task fs _ hh =>
    refine hpush hf (fun g hg => ?_) (Or.inr (.poll (kind_beginPoll poll sh₁ task)))
    rcases List.mem_cons.1 hg with rfl | hg
    · exact ⟨_, List.mem_cons_self, rfl⟩
    · exact ⟨g, List.mem_cons_of_mem _ hg, rfl⟩
  | requeue | spawned | finishedRun | finishedHelp | dropSelf | dropQueue =>
    exact Or.inl ⟨f, List.mem_cons_of_mem _ hf, rfl⟩
  | resume r task k fs =>
    refine hpush hf (fun g hg => ⟨g, ?_, rfl⟩) (Or.inr (.poll (Or.inl rfl)))
    exact List.mem_cons_of_mem _ (List.mem_cons_of_mem _ hg)
  | unwindBlockOn c l fs =>
    refine hpush hf (fun g hg => ⟨g, ?_, rfl⟩) (Or.inl ⟨_, List.mem_cons_self, rfl⟩)
    exact List.mem_cons_of_mem _ (List.mem_cons_of_mem _ hg)
  | unwindRun | exit => cases hf
  | unwindLast i l _ _ hown =>
    exact hpush hf (fun g hg => ⟨g, hg, rfl⟩) (Or.inr (.released l hown rfl))
  | _ =>
    refine hpush hf (fun g hg => ⟨g, List.mem_cons_of_mem _ hg, rfl⟩)
      (Or.inl ⟨_, List.mem_cons_self, rfl⟩)

/-! ## Owners -/

/-- **Who owns the executor changes only by clones and drops**, and its flag is set by the drop of
the last. -/
theorem threadStep_owners {sh sh' : Shared n U V} {t : ThreadId n m} {fs fs' : List (Frame U V)}
    (h : ThreadStep poll sh t fs sh' fs') :
    (0 < sh'.owners → 0 < sh.owners) ∧
    (0 < sh.owners → 0 < sh'.owners ∨
      (sh.owners = 1 ∧ ∃ task k fs₁, fs = .user task (.run (.dropRuntime k)) :: fs₁) ∨
      ∃ i l, t = .inl i ∧ fs = [.result none, .run l] ∧ sh.doomed i ≠ []) ∧
    (sh'.shutdown = true ↔ sh.shutdown = true ∨ ∃ fs₁, fs = .dropInner none :: fs₁) := by
  cases h with
  | cloneRuntime task k fs hown => exact ⟨fun _ => hown, fun _ => Or.inl (Nat.succ_pos _), by simp⟩
  | dropRuntime task k fs hown =>
    refine ⟨fun _ => by omega, fun _ => Or.inl ?_, by simp⟩
    show 0 < sh.owners - 1
    omega
  | dropLastRuntime task k fs hown =>
    refine ⟨fun h => absurd h (Nat.lt_irrefl 0), fun _ => Or.inr (Or.inl ?_), by simp⟩
    exact ⟨hown, _, _, _, rfl⟩
  | unwindRun i l k _ hk =>
    refine ⟨fun h => ?_, fun hpos => Or.inl ?_, by simp [Shared.dropWorker, Shared.destroy]⟩
    · exact Nat.lt_of_lt_of_le h (Nat.sub_le _ _)
    · rcases hk with rfl | ⟨-, hlt⟩
      · exact hpos
      · exact Nat.sub_pos_of_lt hlt
  | unwindLast i l ht hne hown =>
    refine ⟨fun h => absurd h (Nat.lt_irrefl 0), fun _ => Or.inr (Or.inr ?_), ?_⟩
    · exact ⟨i, l, ht, rfl, hne⟩
    · simp [Shared.dropWorker, Shared.destroy]
  | dropSignal fs => exact ⟨id, Or.inl, by simp⟩
  | pollHandle task c k fs _ =>
    rw [pollHandle_eq]
    exact ⟨id, Or.inl, by simp⟩
  | help c l ch' sh' l' fs _ hh =>
    rw [Executor.help_none hh]
    exact ⟨id, Or.inl, by simp⟩
  | helpTask c l ch' sh₁ l' task fs hh =>
    obtain ⟨q, -, rfl⟩ := Executor.help_some hh
    rw [beginPoll_eq]
    exact ⟨id, Or.inl, by simp⟩
  | run i l c sh' l' fs _ _ hh =>
    rw [WorkerThread.step_none hh]
    exact ⟨id, Or.inl, by simp⟩
  | runTask i l c sh₁ l' task fs _ hh =>
    rw [beginPoll_eq, (WorkerThread.step_some hh).eq]
    exact ⟨id, Or.inl, by simp⟩
  | _ => exact ⟨id, Or.inl, by simp [Shared.newTask, Shared.dropReceiver, Shared.destroy,
      Shared.dropWorker, Shared.pushPending, Shared.pushSpawned]⟩

/-- The queue is given up in `ExecutorInner::drop` only. -/
theorem threadStep_abandoned {sh sh' : Shared n U V} {t : ThreadId n m} {fs fs' : List (Frame U V)}
    (h : ThreadStep poll sh t fs sh' fs') (ha : sh'.abandoned = true) :
    sh.abandoned = true ∨ ∃ j fs₁, fs = .dropInner j :: fs₁ := by
  cases h with
  | dropSelf => exact Or.inr ⟨_, _, rfl⟩
  | pollHandle task c k fs _ =>
    rw [pollHandle_eq] at ha
    exact Or.inl ha
  | help c l ch' sh' l' fs _ hh =>
    rw [Executor.help_none hh] at ha
    exact Or.inl ha
  | helpTask c l ch' sh₁ l' task fs hh =>
    obtain ⟨q, -, rfl⟩ := Executor.help_some hh
    rw [beginPoll_eq] at ha
    exact Or.inl ha
  | run i l c sh' l' fs _ _ hh =>
    rw [WorkerThread.step_none hh] at ha
    exact Or.inl ha
  | runTask i l c sh₁ l' task fs _ hh =>
    rw [beginPoll_eq, (WorkerThread.step_some hh).eq] at ha
    exact Or.inl ha
  | _ => exact Or.inl ha

/-- A call in progress borrows a `Runtime`; `ExecutorInner::drop` runs when there is none. -/
structure Owned (s : State n m U V) : Prop where
  calls : s.InCall → 0 < s.shared.owners
  drops : ∀ t j, .dropInner j ∈ s.threads t → s.shared.owners = 0
  flag : s.shared.shutdown = true → s.shared.owners = 0
  abandoned : s.shared.abandoned = true → s.shared.owners = 0

theorem owned_init : Owned (State.init n m U V) where
  calls := fun _ => Nat.one_pos
  drops := by
    rintro (i | i) j hj <;> cases List.mem_singleton.1 hj
  flag := nofun
  abandoned := nofun

theorem State.inCall_iff {s : State n m U V} :
    s.InCall ↔ ∃ t, ∃ f ∈ s.threads t, f.kind = .spawn ∨ f.kind = .blockOn := by
  unfold State.InCall
  refine exists_congr fun t => exists_congr fun f => and_congr_right fun _ => ?_
  cases f <;> simp [Frame.kind]

theorem owned_step {s s' : State n m U V} {t : ThreadId n m} (h : Owned s)
    (hs : Step poll s t s') : Owned s' := by
  obtain @⟨sh', fs', hs, hlast⟩ := hs
  obtain ⟨hup, hdown, hflag⟩ := threadStep_owners hs
  have hzero : s.shared.owners = 0 → sh'.owners = 0 := fun h0 => by
    by_contra hn
    have := hup (Nat.pos_of_ne_zero hn)
    omega
  refine ⟨fun hcall => ?_, fun t' j hj => ?_, fun hshut => ?_, fun hab => ?_⟩
  · -- a call in progress was in progress, or begins with an owner
    obtain ⟨t', f, hf, hkind⟩ := State.inCall_iff.1 hcall
    have hold : s.InCall ∨ (0 < s.shared.owners ∧
        ∃ task b fs₁, s.threads t = .user task (.run b) :: fs₁ ∧ ∀ k, b ≠ .dropRuntime k) := by
      rcases mem_update_cases hf with hf | hf
      · rcases threadStep_kinds hs hf with ⟨g, hg, hgf⟩ | hnew
        · exact Or.inl (State.inCall_iff.2 ⟨t, g, hg, hgf ▸ hkind⟩)
        · rcases hkind with hk | hk
          · rw [hk] at hnew
            cases hnew with
            | spawn task u fs₁ hown hfs =>
              rcases hfs with ⟨k, hfs⟩ | ⟨k, hfs⟩ <;> exact Or.inr ⟨hown, _, _, _, hfs, nofun⟩
            | poll hk => simp at hk
            | ending _ _ _ hk => simp at hk
          · rw [hk] at hnew
            cases hnew with
            | blockOn task ch fs₁ hfs =>
              exact Or.inl (State.inCall_iff.2 ⟨t, _, hfs ▸ List.mem_cons_self, Or.inl rfl⟩)
            | poll hk => simp at hk
            | ending _ _ _ hk => simp at hk
      · exact Or.inl (State.inCall_iff.2 ⟨t', f, hf, hkind⟩)
    rcases hold with hold | ⟨hown, task, b, fs₁, hfs, hno⟩
    · exact Nat.pos_of_ne_zero fun h0 => hlast (h.calls hold) h0 hold
    · rcases hdown hown with hpos | ⟨-, _, k, _, hdrop⟩ | ⟨_, _, -, hdrop, -⟩
      · exact hpos
      · cases hfs.symm.trans hdrop
        exact absurd rfl (hno k)
      · cases hfs.symm.trans hdrop
  · rcases mem_update_cases hj with hmem | hmem
    · rcases threadStep_kinds hs hmem with ⟨g, hg, hgf⟩ | hnew
      · cases g <;> cases hgf
        exact hzero (h.drops t _ hg)
      · cases hnew with
        | dropInner task k fs₁ hown hfs =>
          rw [hfs] at hs
          cases hs with
          | dropRuntime _ _ _ hgt => omega
          | dropLastRuntime => rfl
        | released l _ hfs =>
          rw [hfs] at hs
          cases hs with
          | unwindRun => cases hmem
          | unwindLast => rfl
        | poll hk => simp [Frame.kind] at hk
        | ending _ _ _ hk => simp [Frame.kind] at hk
    · exact hzero (h.drops t' j hmem)
  · rcases hflag.1 hshut with hshut | ⟨fs₁, hfs⟩
    · exact hzero (h.flag hshut)
    · exact hzero (h.drops t none (hfs ▸ List.mem_cons_self))
  · rcases threadStep_abandoned hs hab with hab | ⟨j, fs₁, hfs⟩
    · exact hzero (h.abandoned hab)
    · exact hzero (h.drops t j (hfs ▸ List.mem_cons_self))

/-- **In every reachable state calls in progress keep the executor alive.** -/
theorem owned_reachable {G : State n m U V → ThreadId n m → Prop} {s : State n m U V}
    (h : Reachable poll G s) : Owned s :=
  h.elim fun _ hr => hr.invariant owned_init fun _ _ _ ha _ hs => owned_step ha hs

end Luminal.Std
