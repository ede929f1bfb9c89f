import Luminal.Lib.Temporal
import Luminal.Std.Stacks
import Luminal.Std.UntilEmpty

/-!
# Fair schedules

A run without end is *fair* when every thread that can go on does, and a worker that tries the
global queue again and again does not meet contention every time (`Fair`).  In an *orderly* run
nothing panics, the executor is not dropped, no task blocks its worker with a nested `block_on`, and
code uses what it owns.  There a poll comes to an end, with its task back in the queue or its output
sent (`poll_ends`), and each worker comes back to its loop (`loop_resumes`).
-/

namespace Luminal.Std

open Function Transition

variable {n m : Nat} {U V : Type} {poll : U → Burst U V}

/-- A run without end, with the answers that its steps were given. -/
abbrev Forever (n m : Nat) (poll : U → Burst U V) :=
  Infinite (Chosen poll : State n m U V → ThreadId n m × Choice U V → State n m U V → Prop)

namespace State

/-- Worker `i` tries to steal from the global queue. -/
def Steals (i : Fin n) (s : State n m U V) (tc : ThreadId n m × Choice U V) : Prop :=
  tc.1 = .inl i ∧ ∃ l, s.threads (.inl i) = [.run l] ∧ l.pc = .steal

/-- The code of a task is about to call `block_on`. -/
def Nests (s : State n m U V) (t : ThreadId n m) : Prop :=
  ∃ task u k fs, s.threads t = .user (some task) (.run (.blockOn u k)) :: fs

/-- No thread panics in a poll, drops the last `Runtime`, blocks in a task, or uses what it does not
own. -/
structure Orderly (s : State n m U V) : Prop where
  calm : ∀ t, s.Calm t
  flat : ∀ t, ¬ s.Nests t
  owns : ∀ t, ¬ s.Misuses t

end State

/-- The top frame is in a task that calls `block_on`. -/
def nests : List (Frame U V) → Bool
  | .user (some _) (.run (.blockOn _ _)) :: _ => true
  | _ => false

instance (s : State n m U V) (t : ThreadId n m) : Decidable (s.Nests t) :=
  decidable_of_iff (nests (s.threads t) = true) <| by
    unfold State.Nests nests
    refine ⟨fun h => ?_, ?_⟩
    · split at h
      · next task u k fs hfs => exact ⟨task, u, k, fs, hfs⟩
      · cases h
    · rintro ⟨task, u, k, fs, hfs⟩
      rw [hfs]

instance (s : State n m U V) : Decidable s.Orderly :=
  decidable_of_iff (∀ t, s.Calm t ∧ ¬ s.Nests t ∧ ¬ s.Misuses t)
    ⟨fun h => ⟨fun t => (h t).1, fun t => (h t).2.1, fun t => (h t).2.2⟩,
      fun h t => ⟨h.calm t, h.flat t, h.owns t⟩⟩

/-- **A fair schedule.** -/
structure Fair (ρ : Forever n m poll) : Prop where
  threads : ∀ t, ρ.WeakFair (fun s => ¬ s.AtRest t ∧ ∃ s', Step poll s t s') fun tc => tc.1 = t
  steals : ∀ i, ρ.Often (State.Steals i) →
    ρ.Often fun s tc => s.Steals i tc ∧ ∃ b, tc.2.stolen = .batch b

/-- Fairness is a matter of what happens in the end. -/
theorem Fair.of_tail {ρ : Forever n m poll} {k : Nat} (h : Fair (ρ.tail k)) : Fair ρ where
  threads t := (h.threads t).of_tail
  steals i hi := by
    have hoften := h.steals i
    rw [Infinite.often_tail_iff, Infinite.often_tail_iff] at hoften
    exact hoften hi

theorem Fair.tail {ρ : Forever n m poll} (h : Fair ρ) (k : Nat) : Fair (ρ.tail k) where
  threads t := (h.threads t).tail k
  steals i hi := by
    rw [Infinite.often_tail_iff] at hi ⊢
    exact h.steals i hi

/-- A fair run of a fresh executor, seen from some point on, in which code uses what it owns, no
task blocks its worker, and the executor is not dropped from now on. -/
structure Steady (ρ : Forever n m poll) : Prop where
  start : Reachable poll always (ρ.state 0)
  fair : Fair ρ
  owns : ∀ k t, ¬ (ρ.state k).Misuses t
  flat : ∀ k t, ¬ (ρ.state k).Nests t
  lasts : ∀ k, 0 < (ρ.state k).shared.owners → 0 < (ρ.state (k + 1)).shared.owners

/-- A fair run of a fresh executor, seen from some point on, that is orderly throughout. -/
structure OrderlyRun (ρ : Forever n m poll) : Prop where
  start : Reachable poll (fun s _ => s.Orderly) (ρ.state 0)
  orderly : ∀ k, (ρ.state k).Orderly
  fair : Fair ρ

/-! ## One move -/

section Moves

variable {ρ : Forever n m poll} {t : ThreadId n m} {j k : Nat} {fs : List (Frame U V)}

theorem Forever.step (ρ : Forever n m poll) (j : Nat) :
    Step poll (ρ.state j) (ρ.label j).1 (ρ.state (j + 1)) :=
  (ρ.next j).step

/-- Each state is reached from the first. -/
theorem Forever.reaches (ρ : Forever n m poll) (j : Nat) :
    ∃ ts, Run (Step poll) always (ρ.state 0) ts (ρ.state j) := by
  induction j with
  | zero => exact ⟨[], Run.nil⟩
  | succ j ih =>
    obtain ⟨ts, hr⟩ := ih
    exact ⟨_, hr.snoc trivial (ρ.step j)⟩

/-- What the thread that moves does. -/
theorem Forever.moved (ht : (ρ.label j).1 = t) (hfs : (ρ.state j).threads t = fs) :
    ∃ sh' fs', ThreadStep poll (ρ.state j).shared t fs sh' fs' ∧
      ρ.state (j + 1) = ⟨sh', update (ρ.state j).threads t fs'⟩ := by
  subst ht hfs
  generalize hb : ρ.state (j + 1) = b
  obtain @⟨sh', fs', hs, -⟩ := hb ▸ ρ.step j
  exact ⟨sh', fs', hs, rfl⟩

/-- The other threads are where they were. -/
theorem Forever.stayed (ht : (ρ.label j).1 ≠ t) :
    (ρ.state (j + 1)).threads t = (ρ.state j).threads t := by
  generalize hb : ρ.state (j + 1) = b
  obtain @⟨sh', fs', hs, -⟩ := hb ▸ ρ.step j
  simp only [update_of_ne (Ne.symm ht)]

/-- The log only grows. -/
theorem Forever.log_mono (ρ : Forever n m poll) (h : j ≤ k) :
    (ρ.state j).shared.log <+: (ρ.state k).shared.log := by
  induction h with
  | refl => exact List.prefix_rfl
  | @step k _ ih =>
    refine ih.trans ?_
    generalize hb : ρ.state (k + 1) = b
    obtain @⟨sh', fs', hs, -⟩ := hb ▸ ρ.step k
    obtain ⟨l, hl, -⟩ := threadStep_log hs
    exact ⟨l, hl.symm⟩

/-- **A thread that can go on as long as it is where it is, goes on.**  What the others keep in the
meantime still holds. -/
theorem Fair.exists_move (h : Fair ρ) {I : State n m U V → Prop}
    (hfs : (ρ.state k).threads t = fs) (hI : I (ρ.state k)) (hne : fs ≠ [])
    (hidle : fs ≠ [.user none .idle])
    (hen : ∀ j, k ≤ j → (ρ.state j).threads t = fs → I (ρ.state j) →
      ∃ s', Step poll (ρ.state j) t s')
    (hkeep : ∀ j, k ≤ j → (ρ.state j).threads t = fs → I (ρ.state j) → (ρ.label j).1 ≠ t →
      I (ρ.state (j + 1))) :
    ∃ j, k ≤ j ∧ I (ρ.state j) ∧ (ρ.label j).1 = t ∧ (ρ.state j).threads t = fs := by
  obtain ⟨j, hj, ⟨hfs', hI'⟩, ht⟩ := (h.threads t).exists_move
    (P := fun s => s.threads t = fs ∧ I s) ⟨hfs, hI⟩
    (fun j hj hP ht => ⟨(Forever.stayed ht).trans hP.1, hkeep j hj hP.1 hP.2 ht⟩)
    fun j hj hP => by
      refine ⟨?_, hen j hj hP.1 hP.2⟩
      rintro (hrest | hrest)
      · exact hne (hP.1.symm.trans hrest)
      · exact hidle (hP.1.symm.trans hrest)
  exact ⟨j, hj, hI', ht, hfs'⟩

end Moves

/-! ## Stacks of orderly runs -/

/-- No task waits for a nested `block_on`. -/
def Frame.Flat : Frame U V → Prop
  | .user (some _) (.wait _) => False
  | _ => True

theorem flat_beginPoll (sh : Shared n U V) (task : Task U) : (sh.beginPoll poll task).2.Flat :=
  beginPoll_frame poll sh task trivial fun _ => trivial

/-- Neither a nested `block_on` nor `ExecutorInner::drop` is running. -/
def Frame.Plain : Frame U V → Prop
  | .blockOn _ _ | .dropInner _ | .spawn _ _ true => False
  | _ => True

/-- Below a poll on a worker there is its own loop. -/
theorem Loops.of_plain {fs : List (Frame U V)} (hl : Loops true fs) (hf : ∀ f ∈ fs, f.Plain) :
    ∃ l, fs = [.run l] := by
  cases hl with
  | run l _ => exact ⟨l, rfl⟩
  | blockOn ch l k hb => exact (hf _ List.mem_cons_self).elim

theorem Loops.plain_of_flat {fs : List (Frame U V)} (hl : Loops true fs) (hf : ∀ f ∈ fs, f.Flat) :
    ∀ f ∈ fs, f.Plain := by
  cases hl with
  | run l _ => exact List.forall_mem_singleton.2 trivial
  | blockOn ch l k hb =>
    cases hb with
    | thread hw => cases hw
    | poll id c u _ => exact (hf _ (List.mem_cons_of_mem _ List.mem_cons_self)).elim

/-- A worker whose task does not block is in nothing but polls. -/
theorem Stacked.plain_of_flat {fs : List (Frame U V)} (h : Stacked n true fs)
    (hf : ∀ f ∈ fs, f.Flat) (hdrop : ∀ f ∈ fs, ∀ j, f ≠ .dropInner j) : ∀ f ∈ fs, f.Plain := by
  have hbelow : ∀ {task : Option (Task U)} {gs : List (Frame U V)}, Below true task gs →
      (∀ f ∈ gs, f.Flat) → ∀ f ∈ gs, f.Plain := by
    intro task gs hb hf
    cases hb with
    | thread hw => cases hw
    | poll id c u hl => exact hl.plain_of_flat hf
  cases h with
  | dead _ => exact nofun
  | idle hw => cases hw
  | code b hb =>
    rw [List.forall_mem_cons] at hf ⊢
    exact ⟨trivial, hbelow hb hf.2⟩
  | sent _ _ _ hl | finished hl | requeue _ _ hl | unwinds hl =>
    rw [List.forall_mem_cons] at hf ⊢
    exact ⟨trivial, hl.plain_of_flat hf.2⟩
  | spawn p ch b hb =>
    rw [List.forall_mem_cons, List.forall_mem_cons] at hf ⊢
    exact ⟨trivial, trivial, hbelow hb hf.2.2⟩
  | spawnBlocking p ch k hb | returns r k hb =>
    cases hb with
    | thread hw => cases hw
    | poll id c u _ => exact (hf _ (List.mem_cons_of_mem _ List.mem_cons_self)).elim
  | loop hl => exact hl.plain_of_flat hf
  | drop joined _ _ _ | dropUnwinding joined _ _ _ =>
    exact absurd rfl (hdrop _ List.mem_cons_self joined)

theorem threadStep_flat {sh sh' : Shared n U V} {t : ThreadId n m} {fs fs' : List (Frame U V)}
    (h : ThreadStep poll sh t fs sh' fs') (hf : ∀ f ∈ fs, f.Flat)
    (hnest : ∀ task u k fs₁, fs ≠ .user (some task) (.run (.blockOn u k)) :: fs₁) :
    ∀ f ∈ fs', f.Flat := by
  cases h with
  | callBlockOn task u k fs _ =>
    cases task with
    | some task => exact absurd rfl (hnest task u k fs)
    | none =>
      simp only [List.forall_mem_cons] at hf ⊢
      exact ⟨trivial, trivial, hf.2⟩
  | helpTask | runTask =>
    simp only [List.forall_mem_cons] at hf ⊢
    exact ⟨flat_beginPoll _ _, trivial, hf.2⟩
  | exit | unwindRun => exact fun f hf => absurd hf List.not_mem_nil
  | _ =>
    simp only [List.forall_mem_cons] at hf ⊢
    grind [Frame.Flat]

namespace OrderlyRun

variable {ρ : Forever n m poll} (h : OrderlyRun ρ) {t : ThreadId n m} {j k : Nat}
  {fs : List (Frame U V)}

include h

theorem reachable (k : Nat) : Reachable poll (fun s _ => s.Orderly) (ρ.state k) := by
  induction k with
  | zero => exact h.start
  | succ k ih =>
    obtain ⟨ts, hr⟩ := ih
    exact ⟨_, hr.snoc (h.orderly k) (ρ.step k)⟩

theorem quiet (k : Nat) : Quiet (ρ.state k) :=
  quiet_reachable ((h.reachable k).imp fun _ hr => hr.mono fun _ t hs => hs.calm t)

theorem live (k : Nat) (i : Fin n) : (ρ.state k).shared.live i = true :=
  live_of_calm (fun _ t hs => hs.calm t) (h.reachable k) i

/-- Only a drop of the last `Runtime` and a panic leave no owner. -/
theorem owners (k : Nat) : 0 < (ρ.state k).shared.owners := by
  obtain ⟨ts, hr⟩ := h.reachable k
  refine hr.invariant_with (P := fun s => 0 < s.shared.owners) (R := Quiet)
    (fun ls _ hr' => quiet_reachable ⟨ls, hr'.mono fun _ t hs => hs.calm t⟩) Nat.one_pos ?_
  rintro a t b hquiet hpos hG ⟨hs, -⟩
  rcases (threadStep_owners hs).2.1 hpos with hpos' | hlast | ⟨i, l, ht, hfs, -⟩
  · exact hpos'
  · exact absurd hlast (hG.calm t).2
  · exact absurd rfl (hquiet.frames t _ (hfs ▸ List.mem_cons_self)).1

theorem steady : Steady ρ where
  start := h.start.imp fun _ hr => hr.mono fun _ _ _ => trivial
  fair := h.fair
  owns k := (h.orderly k).owns
  flat k := (h.orderly k).flat
  lasts k _ := h.owners (k + 1)

theorem flat (k : Nat) (t : ThreadId n m) : ∀ f ∈ (ρ.state k).threads t, f.Flat := by
  obtain ⟨ts, hr⟩ := h.reachable k
  refine hr.invariant (P := fun s => ∀ t, ∀ f ∈ s.threads t, f.Flat) ?_ ?_ t
  · rintro (i | i) f hf <;> cases List.mem_singleton.1 hf <;> trivial
  · rintro a t₀ b ha hG ⟨hs, -⟩ t f hf
    rcases mem_update_cases hf with hf | hf
    · refine threadStep_flat hs (ha t₀) ?_ f hf
      exact fun task u k fs hfs => hG.flat t₀ ⟨task, u, k, fs, hfs⟩
    · exact ha t f hf

end OrderlyRun

/-! ## A poll in progress -/

/-- What became of a poll that ran `b`: the task is in the global queue again, or it has sent its
output and is finished. -/
def Ended (b : Burst U V) (id : TaskId) (ch : Nat) (s : State n m U V) : Prop :=
  (∃ u, Leaf b (.pending u) ∧ ⟨id, .wrapped ch u⟩ ∈ s.shared.globalQueue) ∨
    ∃ v, Leaf b (.ready v) ∧ .sent ch v ∈ s.shared.log ∧ .ready ch ∈ s.shared.log

theorem Ended.of_leaf {b b' : Burst U V} {id : TaskId} {ch : Nat} {s : State n m U V}
    (h : Ended b id ch s) (hle : ∀ x, Leaf b x → Leaf b' x) : Ended b' id ch s :=
  h.imp (fun ⟨u, hu, hq⟩ => ⟨u, hle _ hu, hq⟩) fun ⟨v, hv, hl⟩ => ⟨v, hle _ hv, hl⟩

/-- `I` is kept by every action but those of the loops of thread `t`. -/
def KeptOutside (ρ : Forever n m poll) (t : ThreadId n m) (I : State n m U V → Prop) : Prop :=
  ∀ j, I (ρ.state j) →
    ((ρ.label j).1 = t → ∀ f fs, (ρ.state j).threads t = f :: fs →
      f.kind ≠ .run ∧ f.kind ≠ .blockOn) → I (ρ.state (j + 1))

section Kept

variable {ρ : Forever n m poll} {t : ThreadId n m} {I J : State n m U V → Prop}

theorem KeptOutside.and (hI : KeptOutside ρ t I) (hJ : KeptOutside ρ t J) :
    KeptOutside ρ t fun s => I s ∧ J s :=
  fun j h ht => ⟨hI j h.1 ht, hJ j h.2 ht⟩

theorem keptOutside_log (e : Event U V) : KeptOutside ρ t fun s => e ∈ s.shared.log :=
  fun j h _ => (ρ.log_mono (Nat.le_succ j)).subset h

theorem keptOutside_true : KeptOutside ρ t fun _ => True := fun _ _ _ => trivial

end Kept

/-- A frame of code, or of the executor's own between two of them: neither a loop nor a wait. -/
def Frame.Acts : Frame U V → Prop
  | .user none .idle | .run _ | .blockOn _ _ | .dropInner _ => False
  | _ => True

theorem Frame.acts_code (task : Option (Task U)) (b : Burst U V) :
    (Frame.user task (.run b)).Acts := by
  cases task <;> trivial

theorem Frame.Acts.kind {f : Frame U V} (h : f.Acts) :
    f.kind ≠ .run ∧ f.kind ≠ .blockOn ∧ f.kind ≠ .dropInner := by
  cases f with
  | run _ | blockOn _ _ | dropInner _ => exact h.elim
  | _ => simp [Frame.kind]

namespace Steady

variable {ρ : Forever n m poll} (h : Steady ρ) {t : ThreadId n m} {j k : Nat}
  {f : Frame U V} {fs : List (Frame U V)} {I : State n m U V → Prop}

include h

theorem reachable (k : Nat) : Reachable poll always (ρ.state k) := by
  obtain ⟨ts, hr⟩ := h.start
  obtain ⟨ts', hr'⟩ := ρ.reaches k
  exact ⟨_, hr.append hr'⟩

/-- A thread that does not wait for a worker can go on. -/
theorem enabled (hfs : (ρ.state j).threads t = f :: fs) (hf : f.kind ≠ .dropInner) :
    ∃ s', Step poll (ρ.state j) t s' := by
  have htop : ∀ joined fs₁, (ρ.state j).threads t ≠ .dropInner joined :: fs₁ := by
    intro joined fs₁ hdrop
    rw [hfs] at hdrop
    cases hdrop
    exact hf rfl
  refine (enabled_iff (h.reachable j) t).2 ⟨hfs ▸ List.cons_ne_nil f fs, h.owns j t, ?_, ?_⟩
  · rintro i ⟨⟨fs₁, hdrop⟩, -⟩
    exact htop _ fs₁ hdrop
  · rintro i rfl ⟨fs₁, hdrop⟩
    exact htop _ _ hdrop

/-- The next action of a thread that is not in a loop. -/
theorem exists_action (hI : KeptOutside ρ t I) (hfs : (ρ.state k).threads t = f :: fs)
    (hI0 : I (ρ.state k)) (hf : f.Acts) :
    ∃ j, k ≤ j ∧ (ρ.state j).threads t = f :: fs ∧ ∃ sh' fs',
      ThreadStep poll (ρ.state j).shared t (f :: fs) sh' fs' ∧ (ρ.state (j + 1)).shared = sh' ∧
      (ρ.state (j + 1)).threads t = fs' ∧ I (ρ.state (j + 1)) := by
  have hidle : f :: fs ≠ [.user none .idle] := by
    rintro heq
    cases heq
    exact hf
  obtain ⟨j, hj, hIj, ht, hfsj⟩ := h.fair.exists_move hfs hI0 (List.cons_ne_nil f fs) hidle
    (fun j _ hfs _ => h.enabled hfs hf.kind.2.2)
    fun j _ _ hIj ht => hI j hIj fun heq => absurd heq ht
  obtain ⟨sh', fs', hs, hsucc⟩ := Forever.moved ht hfsj
  refine ⟨j, hj, hfsj, sh', fs', hs, ?_, ?_, ?_⟩
  · rw [hsucc]
  · simp only [hsucc, update_self]
  · refine hI j hIj fun _ g gs hg => ?_
    rw [hfsj] at hg
    cases hg
    exact ⟨hf.kind.1, hf.kind.2.1⟩

/-- **The next action**: what follows from each that the thread can take is reached. -/
theorem of_action {Q : State n m U V → Prop} (hI : KeptOutside ρ t I)
    (hfs : (ρ.state k).threads t = f :: fs) (hI0 : I (ρ.state k)) (hf : f.Acts)
    (hnext : ∀ j sh' fs', (ρ.state j).threads t = f :: fs →
      ThreadStep poll (ρ.state j).shared t (f :: fs) sh' fs' → (ρ.state (j + 1)).shared = sh' →
      (ρ.state (j + 1)).threads t = fs' → I (ρ.state (j + 1)) → ρ.Eventually (j + 1) Q) :
    ρ.Eventually k Q := by
  obtain ⟨j, hj, hfsj, sh', fs', hs, hsh, hfs', hI'⟩ := h.exists_action hI hfs hI0 hf
  exact (hnext j sh' fs' hfsj hs hsh hfs' hI').later (by omega)

/-- A poll that returned `Ready(())` is over. -/
theorem finished_ends (hI : KeptOutside ρ t I) (hfs : (ρ.state k).threads t = .finished :: fs)
    (hI0 : I (ρ.state k)) : ρ.Eventually k fun s => s.threads t = fs ∧ I s := by
  refine h.of_action hI hfs hI0 trivial fun j sh' fs' _ hs _ hfs' hIj => ?_
  cases hs with
  | finishedRun l fs => exact .now ⟨hfs', hIj⟩
  | finishedHelp c l fs => exact .now ⟨hfs', hIj⟩

theorem sent_ends {id : TaskId} {ch : Nat} {u : U} (hI : KeptOutside ρ t I)
    (hfs : (ρ.state k).threads t = .sent ⟨id, .wrapped ch u⟩ :: fs) (hI0 : I (ρ.state k)) :
    ρ.Eventually k fun s => s.threads t = fs ∧ I s ∧ .ready ch ∈ s.shared.log := by
  refine h.of_action hI hfs hI0 trivial fun j sh' fs' _ hs hsh hfs' hIj => ?_
  cases hs with
  | endWrapped =>
    have hready : .ready ch ∈ (ρ.state (j + 1)).shared.log := by
      rw [hsh]
      exact List.mem_append_right _ (List.mem_singleton.2 rfl)
    exact h.finished_ends (hI.and (keptOutside_log (.ready ch))) hfs' ⟨hIj, hready⟩

theorem requeue_ends {left : Option (Task U)} {owned : Task U} (hI : KeptOutside ρ t I)
    (hfs : (ρ.state k).threads t = .requeue left owned :: fs) (hI0 : I (ρ.state k)) :
    ρ.Eventually k fun s => s.threads t = fs ∧ I s ∧ owned ∈ s.shared.globalQueue := by
  refine h.of_action hI hfs hI0 trivial fun j sh' fs' _ hs hsh hfs' hIj => ?_
  cases hs with
  | requeue =>
    refine .now ⟨hfs', hIj, ?_⟩
    rw [hsh]
    exact List.mem_append_right _ (List.mem_singleton.2 rfl)

/-- **A poll comes to an end**, whatever the task does in it: the induction is on what is left of
the burst. -/
theorem poll_ends {b : Burst U V} {id : TaskId} {ch : Nat} {u₀ : U} (hI : KeptOutside ρ t I)
    (hfs : (ρ.state k).threads t = .user (some ⟨id, .wrapped ch u₀⟩) (.run b) :: fs)
    (hI0 : I (ρ.state k)) :
    ρ.Eventually k fun s => I s ∧
      ((s.threads t = fs ∧ Ended b id ch s) ∨ s.threads t = .result none :: fs) := by
  induction b generalizing k with
  | pending u =>
    refine h.of_action hI hfs hI0 trivial fun j sh' fs' _ hs hsh hfs' hIj => ?_
    cases hs with
    | pendingRun | pendingHelp =>
      refine (h.requeue_ends hI hfs' hIj).mono ?_
      exact fun s hs => ⟨hs.2.1, Or.inl ⟨hs.1, Or.inl ⟨u, .pending u, hs.2.2⟩⟩⟩
  | ready v =>
    refine h.of_action hI hfs hI0 trivial fun j sh' fs' _ hs hsh hfs' hIj => ?_
    cases hs with
    | ready =>
      have hsent : .sent ch v ∈ (ρ.state (j + 1)).shared.log := by
        rw [hsh]
        exact List.mem_append_right _ (List.mem_singleton.2 rfl)
      have hend := h.sent_ends (hI.and (keptOutside_log (.sent ch v))) hfs' ⟨hIj, hsent⟩
      refine hend.mono ?_
      exact fun s hs => ⟨hs.2.1.1, Or.inl ⟨hs.1, Or.inr ⟨v, .ready v, hs.2.1.2, hs.2.2⟩⟩⟩
  | spawn u b ih =>
    refine h.of_action hI hfs hI0 trivial fun j sh' fs' _ hs hsh hfs' hIj => ?_
    cases hs with
    | callSpawn =>
      refine h.of_action hI hfs' hIj trivial fun i sh₁ fs₁ _ hs₁ _ hfs₁ hIi => ?_
      cases hs₁ with
      | spawned =>
        refine (ih _ hfs₁ hIi).mono ?_
        exact fun s hs => ⟨hs.1, hs.2.imp_left fun hs =>
          ⟨hs.1, hs.2.of_leaf fun x hx => .spawn u _ hx⟩⟩
  | blockOn u b ih =>
    exact absurd ⟨_, u, b, fs, hfs⟩ (h.flat k t)
  | pollHandle c b ih =>
    refine h.of_action hI hfs hI0 trivial fun j sh' fs' _ hs hsh hfs' hIj => ?_
    cases hs with
    | pollHandle =>
      refine (ih _ hfs' hIj).mono ?_
      exact fun s hs => ⟨hs.1, hs.2.imp_left fun hs =>
        ⟨hs.1, hs.2.of_leaf fun x hx => .pollHandle c _ hx⟩⟩
  | dropHandle c b ih =>
    refine h.of_action hI hfs hI0 trivial fun j sh' fs' _ hs hsh hfs' hIj => ?_
    cases hs with
    | dropHandle =>
      refine (ih hfs' hIj).mono ?_
      exact fun s hs => ⟨hs.1, hs.2.imp_left fun hs =>
        ⟨hs.1, hs.2.of_leaf fun x hx => .dropHandle c hx⟩⟩
  | cloneRuntime b ih =>
    refine h.of_action hI hfs hI0 trivial fun j sh' fs' _ hs hsh hfs' hIj => ?_
    cases hs with
    | cloneRuntime =>
      refine (ih hfs' hIj).mono ?_
      exact fun s hs => ⟨hs.1, hs.2.imp_left fun hs =>
        ⟨hs.1, hs.2.of_leaf fun x hx => .cloneRuntime hx⟩⟩
  | dropRuntime b ih =>
    refine h.of_action hI hfs hI0 trivial fun j sh' fs' _ hs hsh hfs' hIj => ?_
    cases hs with
    | dropRuntime =>
      refine (ih hfs' hIj).mono ?_
      exact fun s hs => ⟨hs.1, hs.2.imp_left fun hs =>
        ⟨hs.1, hs.2.of_leaf fun x hx => .dropRuntime hx⟩⟩
    | dropLastRuntime _ _ _ hown =>
      have hpos := h.lasts j (by omega)
      rw [hsh] at hpos
      cases hpos
  | outside b ih =>
    refine h.of_action hI hfs hI0 trivial fun j sh' fs' _ hs hsh hfs' hIj => ?_
    cases hs with
    | outside _ _ _ y =>
      refine (ih y hfs' hIj).mono ?_
      exact fun s hs => ⟨hs.1, hs.2.imp_left fun hs =>
        ⟨hs.1, hs.2.of_leaf fun x hx => .outside y hx⟩⟩
  | panic =>
    refine h.of_action hI hfs hI0 trivial fun j sh' fs' _ hs hsh hfs' hIj => ?_
    cases hs with
    | panic => exact .now ⟨hIj, Or.inr hfs'⟩

/-- **A worker comes back to its loop**, or ends in a panic, when its task does not block. -/
theorem loop_resumes {i : Fin n} (hI : KeptOutside ρ (.inl i) I) (hI0 : I (ρ.state k))
    (hplain : ∀ f ∈ (ρ.state k).threads (.inl i), f.Plain) :
    ρ.Eventually k fun s => I s ∧
      ((∃ l, s.threads (.inl i) = [.run l]) ∨ s.threads (.inl i) = []) := by
  generalize hfs : (ρ.state k).threads (.inl i) = fs at hplain
  have hs : Stacked n true fs := hfs ▸ stacked_reachable (h.reachable k) (.inl i)
  have hunwind : ∀ {k : Nat} {l : RunLoop}, (ρ.state k).threads (.inl i) = [.result none, .run l] →
      I (ρ.state k) → ρ.Eventually k fun s => I s ∧
        ((∃ l, s.threads (.inl i) = [.run l]) ∨ s.threads (.inl i) = []) := by
    intro k l hfs hI0
    refine h.of_action hI hfs hI0 trivial fun j sh' fs' _ hs hsh hfs' hIj => ?_
    cases hs with
    | unwindRun => exact .now ⟨hIj, Or.inr hfs'⟩
    | unwindLast _ _ _ _ hown =>
      have hpos := h.lasts j hown
      rw [hsh] at hpos
      cases hpos
  have hcode : ∀ {b : Burst U V} {task : Option (Task U)} {k : Nat} {gs : List (Frame U V)},
      (ρ.state k).threads (.inl i) = .user task (.run b) :: gs → Below true task gs →
      (∀ f ∈ gs, f.Plain) → I (ρ.state k) → ρ.Eventually k fun s => I s ∧
        ((∃ l, s.threads (.inl i) = [.run l]) ∨ s.threads (.inl i) = []) := by
    intro b task k gs hfs hb hgs hI0
    cases hb with
    | thread hw => cases hw
    | poll id ch u hl =>
      obtain ⟨l, rfl⟩ := hl.of_plain hgs
      refine (h.poll_ends hI hfs hI0).trans ?_
      rintro j - ⟨hIj, ⟨hl, -⟩ | hpanic⟩
      · exact .now ⟨hIj, Or.inl ⟨l, hl⟩⟩
      · exact hunwind hpanic hIj
  have htail : ∀ {f : Frame U V} {gs : List (Frame U V)}, fs = f :: gs → ∀ g ∈ gs, g.Plain := by
    rintro f gs rfl
    exact fun g hg => hplain g (List.mem_cons_of_mem f hg)
  cases hs with
  | dead _ => exact .now ⟨hI0, Or.inr hfs⟩
  | idle hw => cases hw
  | code b hb => exact hcode hfs hb (htail rfl) hI0
  | sent id ch u hl =>
    obtain ⟨l, rfl⟩ := hl.of_plain (htail rfl)
    exact (h.sent_ends hI hfs hI0).mono fun s hs => ⟨hs.2.1, Or.inl ⟨l, hs.1⟩⟩
  | finished hl =>
    obtain ⟨l, rfl⟩ := hl.of_plain (htail rfl)
    exact (h.finished_ends hI hfs hI0).mono fun s hs => ⟨hs.2, Or.inl ⟨l, hs.1⟩⟩
  | requeue left owned hl =>
    obtain ⟨l, rfl⟩ := hl.of_plain (htail rfl)
    exact (h.requeue_ends hI hfs hI0).mono fun s hs => ⟨hs.2.1, Or.inl ⟨l, hs.1⟩⟩
  | spawn p ch b hb =>
    have hgs := htail rfl
    refine h.of_action hI hfs hI0 trivial fun j sh' fs' _ hs _ hfs' hIj => ?_
    cases hs with
    | spawned => exact hcode hfs' hb (fun g hg => hgs g (List.mem_cons_of_mem _ hg)) hIj
  | spawnBlocking p ch b hb => exact (hplain _ List.mem_cons_self).elim
  | loop hl =>
    obtain ⟨l, rfl⟩ := hl.of_plain hplain
    exact .now ⟨hI0, Or.inl ⟨l, hfs⟩⟩
  | returns r b hb =>
    have hgs := htail rfl
    refine h.of_action hI hfs hI0 trivial fun j sh' fs' _ hs _ hfs' hIj => ?_
    cases hs with
    | resume => exact hcode hfs' hb (fun g hg => hgs g (List.mem_cons_of_mem _ hg)) hIj
  | unwinds hl =>
    obtain ⟨l, rfl⟩ := hl.of_plain (htail rfl)
    exact hunwind hfs hI0
  | drop joined b hj hb | dropUnwinding joined b hj hb =>
    exact (hplain _ List.mem_cons_self).elim

/-- The next action of a worker in its loop. -/
theorem exists_loop_action {i : Fin n} {l : RunLoop} (hI : KeptOutside ρ (.inl i) I)
    (hfs : (ρ.state k).threads (.inl i) = [.run l]) (hI0 : I (ρ.state k)) :
    ∃ j, k ≤ j ∧ (ρ.label j).1 = .inl i ∧ (ρ.state j).threads (.inl i) = [.run l] ∧
      I (ρ.state j) := by
  obtain ⟨j, hj, hIj, ht, hfsj⟩ := h.fair.exists_move hfs hI0 (List.cons_ne_nil _ _)
    (fun heq => by cases heq) (fun j _ hfs _ => h.enabled hfs nofun)
    fun j _ _ hIj ht => hI j hIj fun heq => absurd heq ht
  exact ⟨j, hj, ht, hfsj, hIj⟩

end Steady

namespace OrderlyRun

variable {ρ : Forever n m poll} (h : OrderlyRun ρ) {t : ThreadId n m} {j k : Nat}
  {f : Frame U V} {fs : List (Frame U V)} {I : State n m U V → Prop}

include h

/-- Nothing panics in an orderly run. -/
theorem poll_ends {b : Burst U V} {id : TaskId} {ch : Nat} {u₀ : U} (hI : KeptOutside ρ t I)
    (hfs : (ρ.state k).threads t = .user (some ⟨id, .wrapped ch u₀⟩) (.run b) :: fs)
    (hI0 : I (ρ.state k)) :
    ρ.Eventually k fun s => s.threads t = fs ∧ I s ∧ Ended b id ch s := by
  obtain ⟨j, hj, hIj, ⟨hfs', hend⟩ | hpanic⟩ := h.steady.poll_ends hI hfs hI0
  · exact ⟨j, hj, hfs', hIj, hend⟩
  · exact absurd rfl ((h.quiet j).frames _ _ (hpanic ▸ List.mem_cons_self)).1

/-- A worker comes back to its loop. -/
theorem loop_resumes {i : Fin n} (hI : KeptOutside ρ (.inl i) I) (hI0 : I (ρ.state k)) :
    ρ.Eventually k fun s => (∃ l, s.threads (.inl i) = [.run l]) ∧ I s := by
  have hstack : Stacked n true ((ρ.state k).threads (.inl i)) :=
    stacked_reachable (h.reachable k) (.inl i)
  have hplain := hstack.plain_of_flat (h.flat k (.inl i))
    fun f hf => ((h.quiet k).frames _ f hf).2
  obtain ⟨j, hj, hIj, hl | hnil⟩ := h.steady.loop_resumes hI hI0 hplain
  · exact ⟨j, hj, hl, hIj⟩
  · have hbase := (staffed_reachable (h.reachable j)).workers i
    rw [if_pos (h.live j i), hnil] at hbase
    exact hbase.elim

end OrderlyRun

end Luminal.Std
