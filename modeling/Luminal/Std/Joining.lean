import Luminal.Std.FairRuns
import Luminal.Std.Shutdown
import Luminal.Std.Teardown
import Luminal.Std.Wakers

/-!
# The end of the executor

`ExecutorInner::drop` sets the flag, joins the workers and lets go of the queue.  Once it has
returned, every spawned task has finished, has been destroyed, or is in a queue that clones of
wakers keep; without them no handle is left waiting for a sender (`all_closed`).  On a thread that
is not a worker it does return, in every fair run in which code uses what it owns, whatever panics
on the way: each worker leaves after the actions that it has left (`drop_returns`).
-/

namespace Luminal.Std

open Function Transition

variable {n m : Nat} {U V : Type} {poll : U → Burst U V}

/-! ## Deques that nobody holds -/

/-- Deques are destroyed with the last that holds them. -/
def Swept (sh : Shared n U V) : Prop := ∀ d, Shared.Orphaned sh.live d → sh.locals d = []

theorem swept_step {s s' : State n m U V} {t : ThreadId n m} (hstaff : Staffed s)
    (h : Swept s.shared) (hs : Step poll s t s') : Swept s'.shared := by
  obtain @⟨sh', fs', hs, -⟩ := hs
  obtain ⟨worker, hb⟩ := hstaff.based hs
  rcases threadStep_based hs hb with ⟨-, -, hlive⟩ | ⟨i, _, -, -, -, rfl⟩
  · intro d hd
    simp only [hlive] at hd
    by_contra hne
    obtain ⟨p, hp⟩ := List.exists_mem_of_ne_nil _ hne
    rcases threadStep_locals hs hp with hp | ⟨rfl, ⟨l, fs₁, hfs⟩, -⟩
    · rw [h d hd] at hp
      cases hp
    · -- the worker that fills its deque lives
      have := hd.1
      rw [hstaff.live hfs] at this
      cases this
  · intro d hd
    exact if_pos hd

theorem swept_reachable {G : State n m U V → ThreadId n m → Prop} {s : State n m U V}
    (h : Reachable poll G s) : Swept s.shared :=
  h.elim fun _ hr => hr.invariant_with (P := fun s => Swept s.shared) (R := Staffed)
    (fun ls _ hr' => staffed_reachable ⟨ls, hr'⟩) (fun _ _ => rfl)
    fun _ _ _ hstaff ha _ hs => swept_step hstaff ha hs

/-! ## After the drop -/

section Restacked

variable {s : State n m U V} {t : ThreadId n m} {fs : List (Frame U V)}

/-- The counts do not depend on frames without tasks. -/
theorem Accounted.restack (h : Accounted s) (hp : ∀ f ∈ fs, f.Proper)
    (hw : ∀ ch, weigh (Frame.running ch) fs = weigh (Frame.running ch) (s.threads t) ∧
      weigh (Frame.closing ch) fs = weigh (Frame.closing ch) (s.threads t) ∧
      weigh (Frame.creating ch) fs = weigh (Frame.creating ch) (s.threads t)) :
    Accounted ⟨s.shared, update s.threads t fs⟩ := by
  refine ⟨fun t' f hf => ?_, h.queues, fun ch => ?_, fun ch => ?_, fun ch => ?_⟩
  · rcases mem_update_cases hf with hf | hf
    · exact hp f hf
    · exact h.proper t' f hf
  · have h1 := census_update (Frame.running ch) s s.shared t fs
    have h2 := census_update (Frame.closing ch) s s.shared t fs
    have h3 := h.count ch
    have h4 := hw ch
    simp only
    omega
  · have h1 := census_update (Frame.creating ch) s s.shared t fs
    have h2 := h.pushed ch
    have h3 := hw ch
    simp only
    omega
  · have h1 := census_update (Frame.closing ch) s s.shared t fs
    have h2 := h.sent ch
    have h3 := hw ch
    simp only
    omega

theorem Delivered.restack (h : Delivered s)
    (hw : ∀ ch, weigh (Frame.waiting ch) fs = weigh (Frame.waiting ch) (s.threads t)) :
    Delivered ⟨s.shared, update s.threads t fs⟩ := by
  refine ⟨h.channel, fun ch => ?_⟩
  have h1 := census_update (Frame.waiting ch) s s.shared t fs
  have h2 := h.waiting ch
  have h3 := hw ch
  simp only
  omega

end Restacked

/-- What is true of the executor whether or not clones of wakers keep the queue. -/
structure Memory.Sound (s : Memory n m U V) : Prop where
  accounted : Accounted s.exec
  delivered : Delivered s.exec
  locals : s.left ≠ none → ∀ d, s.exec.shared.locals d = []

/-- The queue goes as at the end of `ExecutorInner::drop`, whoever holds the last reference. -/
theorem Memory.Sound.release {s : Memory n m U V} (t : ThreadId n m) (h : s.Sound) :
    s.release.Sound := by
  unfold Memory.release
  split
  · obtain ⟨ha, hd, hl⟩ := h
    have ha' : Accounted ⟨s.exec.shared,
        update s.exec.threads t (.dropInner (some n) :: s.exec.threads t)⟩ := by
      refine ha.restack (List.forall_mem_cons.2 ⟨trivial, ha.proper t⟩) fun ch => ?_
      simp [Frame.running, Frame.closing, Frame.creating]
    have hd' : Delivered ⟨s.exec.shared,
        update s.exec.threads t (.dropInner (some n) :: s.exec.threads t)⟩ := by
      refine hd.restack fun ch => ?_
      simp [Frame.waiting]
    have hs : Step (fun _ => .panic) ⟨s.exec.shared,
        update s.exec.threads t (.dropInner (some n) :: s.exec.threads t)⟩ t
        ⟨Shared.destroy s.exec.shared.globalQueue { s.exec.shared with globalQueue := [] },
          update (update s.exec.threads t (.dropInner (some n) :: s.exec.threads t)) t
            (s.exec.threads t)⟩ := by
      refine .mk ?_ fun hpos hzero => absurd hzero hpos.ne'
      simp only [update_self]
      exact .dropQueue _
    rw [update_idem, update_eq_self] at hs
    exact ⟨accounted_step ha' hs, delivered_step ha' hd' hs, hl⟩
  · exact h

theorem Memory.sound_step {s s' : Memory n m U V} {l : ThreadId n m × Option Act}
    (htracked : Tracked poll s) (h : s.Sound) (hs : WakerStep poll s l s') : s'.Sound := by
  cases hs with
  | @run t b hlet hs =>
    refine Memory.Sound.release t ⟨accounted_step h.accounted hs,
      delivered_step h.accounted h.delivered hs, fun hl d => ?_⟩
    exact (congrFun ((htracked.gone hl).step hs hlet).1.locals d).trans (h.locals hl d)
  | @letGo t fs hfs =>
    have hproper := h.accounted.proper t
    rw [hfs] at hproper
    refine Memory.Sound.release t ⟨h.accounted.restack ?_ fun ch => ?_,
      h.delivered.restack fun ch => ?_, fun _ d => ?_⟩
    · exact fun f hf => hproper f (List.mem_cons_of_mem _ hf)
    · rw [hfs]
      simp [Frame.running, Frame.closing, Frame.creating]
    · rw [hfs]
      simp [Frame.waiting]
    · by_cases hl : s.left = none
      · have hgone := gone_of_letGo (htracked.before hl) hfs
        exact swept_reachable (htracked.before hl) d
          ⟨hgone.live d, fun j hj => by rw [hgone.live j] at hj; cases hj⟩
      · exact h.locals hl d
  | @act t a _ => exact Memory.Sound.release t ⟨h.accounted, h.delivered, h.locals⟩

theorem Memory.sound_run {ls : List (ThreadId n m × Option Act)} {s : Memory n m U V}
    (h : Run (WakerStep poll) always (Memory.init n m U V) ls s) : s.Sound :=
  h.invariant_with (P := Memory.Sound) (R := Tracked poll) (fun _ _ hr => tracked_run hr)
    ⟨accounted_init, delivered_init, nofun⟩ fun _ _ _ htracked ha _ hs =>
      Memory.sound_step htracked ha hs

/-- **When the executor is gone every spawned task is in the global queue or has come to its end**,
in one place. -/
theorem Gone.ended {s : State n m U V} (h : Gone s) (ha : Accounted s)
    (hlocals : ∀ d, s.shared.locals d = []) {ch : Nat} (hch : ch < s.shared.spawned) :
    occ ch s.shared.globalQueue + readies ch s.shared.log + losts ch s.shared.log = 1 := by
  have hcount := ha.count ch
  have hpushed := ha.pushed ch
  have hrun : census (Frame.running ch) s = 0 := h.census_eq_zero fun f hf => (hf.weights ch).1
  have hcreate : census (Frame.creating ch) s = 0 :=
    h.census_eq_zero fun f hf => (hf.weights ch).2.1
  have hclose : census (Frame.closing ch) s = 0 := h.census_eq_zero fun f hf => by
    cases f with
    | sent _ => exact hf.elim
    | _ => rfl
  have hq : queued ch s.shared = occ ch s.shared.globalQueue := by
    unfold queued
    rw [(tally_eq_zero (occ ch) _).2 fun d => by rw [hlocals d]; rfl]
    rfl
  have hborn : born ch s.shared.spawned = 1 := if_pos hch
  omega

/-- **Once `ExecutorInner::drop` has returned everything is closed**: in every later state no worker
is left, no task is in a deque, and each spawned task has finished, has been destroyed, or is in the
global queue, one of the three and once.  When there is no clone of a waker any more the queue is
gone, and the channels say so. -/
theorem all_closed {ls : List (ThreadId n m × Option Act)} {s : Memory n m U V}
    (h : Run (WakerStep poll) always (Memory.init n m U V) ls s) (hleft : s.left ≠ none) :
    (∀ i, s.exec.threads (.inl i) = []) ∧ (∀ d, s.exec.shared.locals d = []) ∧
    (∀ ch, ch < s.exec.shared.spawned → occ ch s.exec.shared.globalQueue +
      readies ch s.exec.shared.log + losts ch s.exec.shared.log = 1) ∧
    (s.wakers = [] → s.leaked = 0 → s.exec.shared.globalQueue = [] ∧
      ∀ ch, ch < s.exec.shared.spawned → (s.exec.shared.chan ch).tryRecv ≠ .empty) := by
  have htracked : Tracked poll s := tracked_run h
  have hsound := Memory.sound_run h
  have hgone := htracked.gone hleft
  have hended : ∀ ch, ch < s.exec.shared.spawned → occ ch s.exec.shared.globalQueue +
      readies ch s.exec.shared.log + losts ch s.exec.shared.log = 1 :=
    fun ch hch => hgone.ended hsound.accounted (hsound.locals hleft) hch
  refine ⟨hgone.workers, hsound.locals hleft, hended, fun hw hk => ?_⟩
  obtain ⟨q, hq⟩ := Option.ne_none_iff_exists'.1 hleft
  have hempty : s.exec.shared.globalQueue = [] := by
    rcases htracked.after q hq with ⟨hpos, -⟩ | hemptied
    · rw [hw, hk] at hpos
      exact absurd hpos (Nat.lt_irrefl 0)
    · exact hemptied.globalQueue
  refine ⟨hempty, fun ch hch htry => ?_⟩
  have hend := hended ch hch
  rw [hempty, occ_nil] at hend
  have hsender : (s.exec.shared.chan ch).sender = false :=
    (hsound.delivered.channel ch).sender.2 (by omega)
  unfold Channel.tryRecv at htry
  split at htry
  · cases htry
  · rw [hsender] at htry
    cases htry

/-- A task gives a clone of its waker to code outside, which drops it after the executor. -/
theorem all_closed_two : ∃ s : Memory 1 1 Sample Nat,
    (s.wakers = [] ∧ s.leaked = 0 ∧ .ready 0 ∈ s.exec.shared.log ∧
      .destroyed 1 ∈ s.exec.shared.log) ∧
    (∀ i, s.exec.threads (.inl i) = []) ∧ (∀ d, s.exec.shared.locals d = []) ∧
    (∀ ch, ch < s.exec.shared.spawned → occ ch s.exec.shared.globalQueue +
      readies ch s.exec.shared.log + losts ch s.exec.shared.log = 1) ∧
    (s.wakers = [] → s.leaked = 0 → s.exec.shared.globalQueue = [] ∧
      ∀ ch, ch < s.exec.shared.spawned → (s.exec.shared.chan ch).tryRecv ≠ .empty) := by
  obtain ⟨ls, s, hr, hleft, hw, hk, hready, hlost⟩ := Memory.run_of_nextAll Sample.burst
    (P := fun s : Memory 1 1 Sample Nat => s.left ≠ none ∧ s.wakers = [] ∧ s.leaked = 0 ∧
      .ready 0 ∈ s.exec.shared.log ∧ .destroyed 1 ∈ s.exec.shared.log)
    (moves (.inr 0) 1 (.code (.spawn (.value 7) fun _ => .spawn (.yield 5) fun _ =>
        .dropRuntime (.ready 0))) ++ moves (.inr 0) 4 (.answer 0) ++
      moves (.inl 0) 10 (.steal (.batch 0)) ++
      [(.inl 0, .answer 0, some (.clone ⟨2, [.outside]⟩))] ++ moves (.inr 0) 2 (.answer 0) ++
      moves (.inl 0) 4 (.answer 0) ++ moves (.inr 0) 2 (.answer 0) ++
      [(.inr 0, .answer 0, some (.hand ⟨2, [.outside]⟩ []))]) (by decide)
  exact ⟨s, ⟨hw, hk, hready, hlost⟩, all_closed hr hleft⟩

/-! ## The drop returns -/

/-- Who is in `ExecutorInner::drop` was there before, or has just dropped the last `Runtime`. -/
theorem drops_before {a b : State n m U V} {t₀ t : ThreadId n m} (hs : Step poll a t₀ b)
    (hd : b.Drops t) : a.Drops t ∨ (t = t₀ ∧ 0 < a.shared.owners) := by
  obtain ⟨hs, -⟩ := hs
  obtain ⟨j, hj⟩ := hd
  by_cases ht : t = t₀
  · subst ht
    simp only [update_self] at hj
    rcases threadStep_kinds hs hj with ⟨g, hg, hgf⟩ | hnew
    · cases g <;> cases hgf
      exact Or.inl ⟨_, hg⟩
    · cases hnew with
      | dropInner task k fs₁ hone _ => exact Or.inr ⟨rfl, by omega⟩
      | released l hpos _ => exact Or.inr ⟨rfl, hpos⟩
      | poll hk => simp [Frame.kind] at hk
      | ending _ _ _ hk => simp [Frame.kind] at hk
  · simp only [update_of_ne ht] at hj
    exact Or.inl ⟨j, hj⟩

/-- At most one thread is in `ExecutorInner::drop`. -/
theorem drop_unique {G : State n m U V → ThreadId n m → Prop} {s : State n m U V}
    (h : Reachable poll G s) {t t' : ThreadId n m} (hd : s.Drops t)
    (hd' : s.Drops t') : t = t' := by
  obtain ⟨ts, hr⟩ := h
  refine hr.invariant_with (P := fun s => ∀ t t', s.Drops t → s.Drops t' → t = t') (R := Owned)
    (fun ls _ hr' => owned_reachable ⟨ls, hr'⟩) ?_ ?_ t t' hd hd'
  · rintro (i | i) t' ⟨j, hj⟩ <;> cases List.mem_singleton.1 hj
  · intro a t₀ b hown hone _ hs t t' hd hd'
    have hzero : ∀ t, a.Drops t → a.shared.owners = 0 := fun t ⟨j, hj⟩ => hown.drops t j hj
    rcases drops_before hs hd with h1 | ⟨h1, hpos₁⟩
    · rcases drops_before hs hd' with h2 | ⟨h2, hpos₂⟩
      · exact hone t t' h1 h2
      · have := hzero t h1
        omega
    · rcases drops_before hs hd' with h2 | ⟨h2, hpos₂⟩
      · have := hzero t' h2
        omega
      · rw [h1, h2]

/-- A fair run, seen from the moment the flag is set. -/
structure Closing (ρ : Forever n m poll) : Prop extends Steady ρ where
  shut : ∀ k, (ρ.state k).shared.shutdown = true

/-- From the moment the last `Runtime` is gone, code that uses what it owns neither drops another
nor calls the executor. -/
theorem steady_of_gone {ρ : Forever n m poll} (hstart : Reachable poll always (ρ.state 0))
    (hfair : Fair ρ) (howns : ∀ k t, ¬ (ρ.state k).Misuses t)
    (hgone : ∀ k, (ρ.state k).shared.owners = 0) : Steady ρ where
  start := hstart
  fair := hfair
  owns := howns
  flat := by
    rintro k t ⟨task, u, b, fs, hfs⟩
    exact howns k t (Or.inl ⟨_, _, fs, hfs, hgone k⟩)
  lasts k hpos := by
    rw [hgone k] at hpos
    cases hpos

/-- A thread outside that is in `ExecutorInner::drop` goes on once what it waits for has come. -/
theorem Steady.drop_moves {ρ : Forever n m poll} (h : Steady ρ) {k : Nat} {o : Fin m}
    {f : Frame U V} {fs : List (Frame U V)}
    (hfs : (ρ.state k).threads (.inr o) = f :: fs) (hf : f.kind = .dropInner) {i : Nat}
    (hen : ∀ j, i ≤ j → (ρ.state j).threads (.inr o) = f :: fs →
      ∀ d, ¬ (ρ.state j).Joins (.inr o) d) :
    ∃ j, k ≤ j ∧ (ρ.state j).threads (.inr o) = f :: fs ∧ ∃ sh' fs',
      ThreadStep poll (ρ.state j).shared (.inr o) (f :: fs) sh' fs' ∧
      ρ.state (j + 1) = ⟨sh', update (ρ.state j).threads (.inr o) fs'⟩ := by
  obtain ⟨j, hj, hfsj, ht⟩ := (h.fair.threads (.inr o)).exists_move_late
    (P := fun s => s.threads (.inr o) = f :: fs) (i := i) hfs
    (fun j _ hP ht => (Forever.stayed ht).trans hP) fun j hj hP => by
      refine ⟨?_, (enabled_iff (h.reachable j) (.inr o)).2
        ⟨hP ▸ List.cons_ne_nil f fs, h.owns j _, hen j hj hP, nofun⟩⟩
      rintro (hrest | hrest)
      · exact absurd (hP.symm.trans hrest) (List.cons_ne_nil f fs)
      · cases hP.symm.trans hrest
        cases hf
  exact ⟨j, hj, hfsj, Forever.moved ht hfsj⟩

namespace Closing

variable {ρ : Forever n m poll} (h : Closing ρ) {i : Fin n} {j k : Nat}

include h

theorem shuttingDown (k : Nat) : ShuttingDown (ρ.state k) :=
  ⟨staffed_reachable (h.reachable k), h.shut k⟩

theorem owners (k : Nat) : (ρ.state k).shared.owners = 0 :=
  (owned_reachable (h.reachable k)).flag (h.shut k)

theorem left_mono (hjk : j ≤ k) (i : Fin n) :
    (ρ.state k).actionsLeft i ≤ (ρ.state j).actionsLeft i := by
  refine Infinite.holds_from (ρ := ρ) (k := j)
    (P := fun s => s.actionsLeft i ≤ (ρ.state j).actionsLeft i) le_rfl (fun l _ hle => ?_) hjk
  have hsd := h.shuttingDown l
  exact (step_left hsd.1 hsd.2 (ρ.step l)).2.1.trans hle

/-- A worker is in nothing but polls. -/
theorem plain (hi : ¬ (ρ.state k).Drops (.inl i)) :
    ∀ f ∈ (ρ.state k).threads (.inl i), f.Plain := by
  intro f hf
  have hcall : ¬ (ρ.state k).InCall := fun hcall => by
    have := (owned_reachable (h.reachable k)).calls hcall
    have := h.owners k
    omega
  cases f with
  | blockOn c l => exact hcall ⟨_, _, hf, Or.inr ⟨c, l, rfl⟩⟩
  | spawn p c b => exact (hcall ⟨_, _, hf, Or.inl ⟨p, c, b, rfl⟩⟩).elim
  | dropInner j => exact hi ⟨j, hf⟩
  | _ => trivial

/-- **A worker leaves**, unless it joins itself: each time it is in its loop it has fewer actions
left. -/
theorem worker_leaves (hi : ∀ j, k ≤ j → ¬ (ρ.state j).Drops (.inl i)) :
    ρ.Eventually k fun s => s.shared.live i = false := by
  refine Infinite.Eventually.of_rank wellFounded_lt (I := fun x s => s.actionsLeft i ≤ x) ?_ le_rfl
  intro x j hj hle
  refine (h.toSteady.loop_resumes keptOutside_true trivial (h.plain (hi j hj))).trans ?_
  rintro j₁ hj₁ ⟨-, ⟨l, hl⟩ | hnil⟩
  · obtain ⟨j₂, hj₂, ht, hl₂, -⟩ := h.toSteady.exists_loop_action keptOutside_true hl trivial
    have hsd := h.shuttingDown j₂
    have hact : (ρ.state j₂).ActsInLoop i (ρ.label j₂).1 (ρ.state (j₂ + 1)) :=
      ⟨ht, l, ht ▸ hl₂⟩
    have hlt := (step_left hsd.1 hsd.2 (ρ.step j₂)).2.2.2 hact
    have hmono := h.left_mono (i := i) (hj₁.trans hj₂)
    exact ⟨j₂ + 1, by omega, Or.inr ⟨_, by omega, le_rfl⟩⟩
  · refine .now (Or.inl ?_)
    have hbase := (staffed_reachable (h.reachable j₁)).workers i
    rw [hnil] at hbase
    by_contra hlive
    rw [if_pos (Bool.eq_true_of_not_eq_false hlive)] at hbase
    exact hbase

theorem stays_dead (hjk : j ≤ k) (hdead : (ρ.state j).shared.live i = false) :
    (ρ.state k).shared.live i = false :=
  Infinite.holds_from (ρ := ρ) (P := fun s => s.shared.live i = false) hdead
    (fun l _ hl => live_step (staffed_reachable (h.reachable l)) (ρ.step l) hl) hjk

/-- No worker gets into `ExecutorInner::drop` any more. -/
theorem stays_out (hjk : j ≤ k) (hi : ¬ (ρ.state j).Drops (.inl i)) :
    ¬ (ρ.state k).Drops (.inl i) := by
  refine Infinite.holds_from (ρ := ρ) (P := fun s => ¬ s.Drops (.inl i)) hi
    (fun l _ hl hd => ?_) hjk
  rcases drops_before (ρ.step l) hd with hd | ⟨-, hpos⟩
  · exact hl hd
  · have := h.owners l
    omega

/-- The workers are joined one after the other. -/
theorem joins_all {o : Fin m} {fs : List (Frame U V)} {r : Nat} (hr : r ≤ n)
    (hfs : (ρ.state k).threads (.inr o) = .dropInner (some r) :: fs) :
    ρ.Eventually k fun s => s.threads (.inr o) = .dropInner (some n) :: fs := by
  have hdrop : (ρ.state k).Drops (.inr o) := ⟨_, hfs ▸ List.mem_cons_self⟩
  have hothers : ∀ i, ¬ (ρ.state k).Drops (.inl i) := fun i hi => by
    cases drop_unique (h.reachable k) hdrop hi
  generalize hd : n - r = d
  induction d generalizing k r with
  | zero =>
    obtain rfl : r = n := by omega
    exact .now hfs
  | succ d ih =>
    have hlt : r < n := by omega
    obtain ⟨k', hk', hdead⟩ := h.worker_leaves (k := k) (i := ⟨r, hlt⟩)
      fun j hj => h.stays_out hj (hothers _)
    obtain ⟨j, hj, hfsj, sh', fs', hs, hsucc⟩ := h.toSteady.drop_moves hfs rfl (i := k') <| by
      rintro j hj hfsj e ⟨⟨fs₁, hfs₁⟩, hlive, -⟩
      obtain rfl : e = ⟨r, hlt⟩ := by
        rw [hfsj] at hfs₁
        cases hfs₁
        rfl
      rw [h.stays_dead hj hdead] at hlive
      cases hlive
    have hfs' : (ρ.state (j + 1)).threads (.inr o) = fs' := by
      simp only [hsucc, update_self]
    cases hs with
    | dropJoin =>
      refine (ih hlt hfs' ⟨_, hfs' ▸ List.mem_cons_self⟩ (fun i => ?_) (by omega)).later (by omega)
      exact h.stays_out (by omega) (hothers i)
    | dropSelf i task b fs ht _ => cases ht
    | dropQueue => exact absurd hlt (Nat.lt_irrefl n)

end Closing

/-- **`ExecutorInner::drop` returns**, on a thread outside, in every fair run in which code uses
what it owns: whatever the tasks do and whichever panic, all workers leave and are joined. -/
theorem drop_returns {ρ : Forever n m poll} (hstart : Reachable poll always (ρ.state 0))
    (hfair : Fair ρ) (howns : ∀ k t, ¬ (ρ.state k).Misuses t) {o : Fin m} {k : Nat}
    {fs : List (Frame U V)} (hfs : (ρ.state k).threads (.inr o) = .dropInner none :: fs) :
    ρ.Eventually k fun s => s.threads (.inr o) = fs ∧ Gone s := by
  have hreach : ∀ j, Reachable poll always (ρ.state j) := fun j => by
    obtain ⟨ls, hr⟩ := hstart
    obtain ⟨ls', hr'⟩ := ρ.reaches j
    exact ⟨_, hr.append hr'⟩
  have hgone : ∀ j, k ≤ j → (ρ.state j).shared.owners = 0 := fun j hj => by
    refine Infinite.holds_from (ρ := ρ) (P := fun s => s.shared.owners = 0) ?_ (fun l _ hl => ?_) hj
    · exact (owned_reachable (hreach k)).drops _ none (hfs ▸ List.mem_cons_self)
    · obtain ⟨sh', fs', hs, hsucc⟩ := ρ.moved (j := l) rfl rfl
      have hup := (threadStep_owners hs).1
      rw [hsucc]
      exact Nat.eq_zero_of_not_pos fun hpos => by have := hup hpos; omega
  have hsteady : ∀ j, k ≤ j → Steady (ρ.tail j) := fun j hj =>
    steady_of_gone (hreach j) (hfair.tail j) (fun i => howns (j + i)) fun i => hgone _ (by omega)
  -- the flag is set
  have hfs₀ : ((ρ.tail k).state 0).threads (.inr o) = .dropInner none :: fs := hfs
  obtain ⟨j, -, hfsj, sh', fs', hs, hsucc⟩ := (hsteady k le_rfl).drop_moves (i := 0) hfs₀ rfl
    fun j _ hfsj d hd => by
      obtain ⟨⟨fs₁, hfs₁⟩, -⟩ := hd
      rw [hfsj] at hfs₁
      cases hfs₁
  cases hs
  have hclosing : Closing (ρ.tail (k + (j + 1))) := by
    refine ⟨hsteady _ (by omega), fun l => ?_⟩
    refine Infinite.holds_from (ρ := ρ) (k := k + (j + 1)) (P := fun s => s.shared.shutdown = true)
      (congrArg (fun s => s.shared.shutdown) hsucc) (fun l _ hl => ?_) (Nat.le_add_right _ l)
    obtain ⟨sh', fs', hs, hsucc⟩ := ρ.moved (j := l) rfl rfl
    rw [hsucc]
    exact (threadStep_owners hs).2.2.2 (Or.inl hl)
  -- the workers are joined, then the queue is let go
  have hfs₁ : ((ρ.tail (k + (j + 1))).state 0).threads (.inr o) = .dropInner (some 0) :: fs := by
    show ((ρ.tail k).state (j + 1)).threads (.inr o) = _
    simp only [hsucc, update_self]
  refine Infinite.Eventually.later (j := k + (j + 1) + 0) (by omega) (.of_tail ?_)
  refine (hclosing.joins_all (Nat.zero_le n) hfs₁).trans fun i _ hfsi => ?_
  obtain ⟨i', hi', hfsi', sh', fs', hs, hsucc'⟩ := hclosing.toSteady.drop_moves (i := 0) hfsi
    rfl fun j _ hfsj d hd => by
      obtain ⟨⟨fs₁, hfs₁⟩, -⟩ := hd
      rw [hfsj] at hfs₁
      injection hfs₁ with hframe
      injection hframe with hjoined
      injection hjoined with hd
      have := d.isLt
      omega
  obtain ⟨rfl, rfl⟩ := threadStep_letGo hs
  have hgone := (gone_of_letGo (hclosing.reachable i') hfsi').pop hfsi'
  refine ⟨i' + 1, by omega, ?_, ?_⟩
  · simp only [hsucc', update_self]
  · rw [hsucc']
    exact ⟨hgone.owners, hgone.live, hgone.workers, hgone.others⟩

/-- The worker has left, the other thread runs code that does nothing. -/
structure Vacant (s : State 1 1 Sample Nat) : Prop where
  worker : s.threads (.inl 0) = []
  outside : s.threads (.inr 0) = [.user none .idle] ∨
    s.threads (.inr 0) = [.user none (.run (.ready 0))]

theorem Vacant.next {s : State 1 1 Sample Nat} (h : Vacant s) :
    ∃ tc s', tc.1 = .inr 0 ∧ Chosen Sample.burst s tc s' ∧ Vacant s' := by
  obtain ⟨sh, threads⟩ := s
  obtain ⟨hw, ho⟩ := h
  simp only at hw ho
  have hgo : ∀ c fs', exec Sample.burst sh (.inr 0 : ThreadId 1 1) c (threads (.inr 0)) =
      some (sh, fs') → fs' = [.user none .idle] ∨ fs' = [.user none (.run (.ready 0))] →
      ∃ tc s', tc.1 = .inr 0 ∧ Chosen Sample.burst ⟨sh, threads⟩ tc s' ∧ Vacant s' := by
    intro c fs' hexec hfs'
    refine ⟨(.inr 0, c), ⟨sh, update threads (.inr 0) fs'⟩, rfl,
      .of_exec hexec fun hpos hzero => absurd hzero hpos.ne', ?_, ?_⟩
    · simpa using hw
    · simpa using hfs'
  rcases ho with ho | ho <;> rw [ho] at hgo
  · exact hgo (.code (.ready 0)) _ rfl (Or.inr rfl)
  · exact hgo (.answer 0) _ rfl (Or.inl rfl)

theorem Vacant.owns {s : State 1 1 Sample Nat} (h : Vacant s) (t : ThreadId 1 1) :
    ¬ s.Misuses t := by
  obtain ⟨hw, ho⟩ := h
  rcases t with i | i <;> obtain rfl := Subsingleton.elim i 0
  · rintro (⟨task, b, fs, hfs, -⟩ | ⟨⟨-, task, k, fs, hfs⟩, -⟩) <;> cases hw.symm.trans hfs
  · rintro (⟨task, b, fs, hfs, hb⟩ | ⟨⟨-, task, k, fs, hfs⟩, -⟩) <;>
      rcases ho with ho | ho <;> cases ho.symm.trans hfs
    exact hb

/-- A task is still queued when the last `Runtime` is dropped. -/
theorem drop_returns_one : ∃ ρ : Forever 1 1 Sample.burst,
    ((ρ.state 0).shared.globalQueue.length = 1 ∧ (ρ.state 0).shared.live 0 = true) ∧
    ρ.Eventually 0 fun s => s.threads (.inr 0) = [.user none (.run (.ready 0))] ∧ Gone s := by
  obtain ⟨s, hs, hq, hlive, hfs, a, ha, hvacant⟩ : ∃ s, ((State.init 1 1 Sample Nat).execAll always
      Sample.burst ((.inr 0, .code (.spawn (.value 7) fun _ => .dropRuntime (.ready 0))) ::
        turns (.inr 0) 3 (.answer 0))) = some s ∧ s.shared.globalQueue.length = 1 ∧
        s.shared.live 0 = true ∧
        s.threads (.inr 0) = [.dropInner none, .user none (.run (.ready 0))] ∧
      ∃ a, s.execAll (fun s _ => ∀ t, ¬ s.Misuses t) Sample.burst (turns (.inr 0) 1 (.answer 0) ++
        turns (.inl 0) 1 (.steal .retry) ++ turns (.inr 0) 2 (.answer 0)) = some a ∧ Vacant a :=
    ⟨_, rfl, rfl, rfl, rfl, _, rfl, ⟨rfl, Or.inr rfl⟩⟩
  obtain ⟨ρ, rfl, hρ⟩ := Infinite.exists_of_loop (Chosen Sample.burst)
    (fun a ha => Vacant.next ha) hvacant
  obtain ⟨ρ', rfl, hbefore, htail⟩ := ρ.exists_prepend (State.execAll_chosen ha) rfl
  have hfair : Fair ρ := by
    refine ⟨fun t k hob => ?_, fun i hoften => ?_⟩
    · rcases t with i | i <;> obtain rfl := Subsingleton.elim i 0
      · exact absurd (Or.inl (hρ k).1.worker) (hob k le_rfl).1
      · exact ⟨k, le_rfl, (hρ k).2⟩
    · obtain rfl := Subsingleton.elim i 0
      obtain ⟨j, -, -, l, hl, -⟩ := hoften 0
      cases (hρ j).1.worker.symm.trans hl
  refine ⟨ρ', ⟨hq, hlive⟩,
    drop_returns ⟨_, State.execAll_run _ hs⟩ (.of_tail (htail ▸ hfair)) (fun k t => ?_) hfs⟩
  by_cases hk : k < 4
  · exact hbefore k hk t
  · obtain ⟨i, rfl⟩ := Nat.exists_eq_add_of_le (Nat.le_of_not_lt hk)
    have hvacant : Vacant (ρ'.state (4 + i)) := by
      show Vacant ((ρ'.tail 4).state i)
      rw [show ρ'.tail 4 = ρ from htail]
      exact (hρ i).1
    exact hvacant.owns t

end Luminal.Std
