import Luminal.Lib.Monitor
import Luminal.Std.Placement
import Luminal.Std.Programs

/-!
# The life of a task

Seen by itself a task is a small automaton (`Stage.next`): it is created and pushed, polled and
pushed back any number of times, and ends by sending its output, by a panic, or by being destroyed
in a queue.  In every run of the executor, whatever panics and whenever it is dropped, the events of
each task go along this automaton, and the stage that they lead to is where the task is
(`life_reachable`).
-/

namespace Luminal.Std

open Function Transition

variable {n m : Nat} {U V : Type} {poll : U → Burst U V}

/-- The spawn that an event is about. -/
def Event.ch : Event U V → Nat
  | .created c _ | .spawned c _ | .polled c | .requeued c | .sent c _ | .ready c | .recv c _
  | .panicked c | .destroyed c => c

/-- How far a task has got. -/
inductive Stage where
  | unborn
  /-- `Executor::spawn` has made it and not pushed it -/
  | spawning
  | queued
  /-- in a poll, or on its way back to the queue -/
  | polling
  /-- it has sent its output, and its poll has not returned -/
  | closing
  | finished
  /-- its poll panicked -/
  | unwinding
  | destroyed
  deriving DecidableEq

/-- What can happen next to a task; its output is received once it has been sent. -/
def Stage.next : Stage → Event U V → Option Stage
  | .unborn, .created _ _ => some .spawning
  | .spawning, .spawned _ _ => some .queued
  | .queued, .polled _ => some .polling
  | .queued, .destroyed _ => some .destroyed
  | .polling, .requeued _ => some .queued
  | .polling, .sent _ _ => some .closing
  | .polling, .panicked _ => some .unwinding
  | .closing, .ready _ => some .finished
  | .closing, .recv _ _ => some .closing
  | .finished, .recv _ _ => some .finished
  | .unwinding, .destroyed _ => some .destroyed
  | _, _ => none

/-- The stage of the task of spawn `ch`, if its events are in order. -/
def life (ch : Nat) (log : List (Event U V)) : Option Stage :=
  follow Stage.next Event.ch .unborn ch log

/-! ## What the log counts -/

/-- What an event says of the polls of task `ch` in progress. -/
def Event.turn (ch : Nat) : Event U V → Int
  | .polled c => if c = ch then 1 else 0
  | .requeued c | .sent c _ | .panicked c => if c = ch then -1 else 0
  | _ => 0

/-- The polls of task `ch` that have begun and not ended. -/
def openPolls (ch : Nat) (log : List (Event U V)) : Int := (log.map (Event.turn ch)).sum

theorem openPolls_append (ch : Nat) (l l' : List (Event U V)) :
    openPolls ch (l ++ l') = openPolls ch l + openPolls ch l' := by
  unfold openPolls
  rw [List.map_append, List.sum_append]

theorem openPolls_eq_zero {ch : Nat} {l : List (Event U V)} (h : ∀ e ∈ l, e.turn ch = 0) :
    openPolls ch l = 0 := by
  unfold openPolls
  refine List.sum_eq_zero fun x hx => ?_
  obtain ⟨e, he, rfl⟩ := List.mem_map.1 hx
  exact h e he

/-- What the log says of a task at this stage. -/
structure Stage.Counts (ch : Nat) (st : Stage) (log : List (Event U V)) : Prop where
  created : (∃ u, .created ch u ∈ log) ↔ st ≠ .unborn
  pushed : pushes ch log = if st = .unborn ∨ st = .spawning then 0 else 1
  turns : openPolls ch log = if st = .polling then 1 else 0
  sent : (sents ch log).length = if st = .closing ∨ st = .finished then 1 else 0
  ready : readies ch log = if st = .finished then 1 else 0
  lost : losts ch log = if st = .destroyed then 1 else 0

theorem Stage.Counts.other {ch : Nat} {st : Stage} {log : List (Event U V)} {e : Event U V}
    (h : st.Counts ch log) (he : e.ch ≠ ch) : st.Counts ch (log ++ [e]) := by
  refine ⟨?_, ?_, ?_, ?_, ?_, ?_⟩
  · rw [← h.created]
    simp only [List.mem_append, List.mem_singleton]
    refine exists_congr fun u => or_iff_left ?_
    rintro rfl
    exact he rfl
  · rw [pushes_append, h.pushed]
    cases e with
    | spawned c u => simp [pushes, show c ≠ ch from he]
    | _ => rfl
  · rw [openPolls_append, h.turns, openPolls_eq_zero, add_zero]
    refine List.forall_mem_singleton.2 ?_
    cases e with
    | polled c | requeued c | sent c v | panicked c => exact if_neg he
    | _ => rfl
  · rw [sents_append, List.length_append, h.sent]
    cases e with
    | sent c v => simp [sents, show c ≠ ch from he]
    | _ => rfl
  · rw [readies_append, h.ready]
    cases e with
    | ready c => simp [readies, show c ≠ ch from he]
    | _ => rfl
  · rw [losts_append, h.lost]
    cases e with
    | destroyed c => simp [losts, show c ≠ ch from he]
    | _ => rfl

theorem Stage.Counts.own {st st' : Stage} {log : List (Event U V)} {e : Event U V}
    (h : st.Counts e.ch log) (hnext : st.next e = some st') : st'.Counts e.ch (log ++ [e]) := by
  obtain ⟨h1, h2, h3, h4, h5, h6⟩ := h
  refine ⟨?_, ?_, ?_, ?_, ?_, ?_⟩
  · simp only [List.mem_append, List.mem_singleton, exists_or, h1]
    unfold Stage.next at hnext
    split at hnext <;> cases hnext <;> simp [Event.ch]
  · rw [pushes_append, h2]
    unfold Stage.next at hnext
    split at hnext <;> cases hnext <;> simp [Event.ch, pushes]
  · rw [openPolls_append, h3]
    unfold Stage.next at hnext
    split at hnext <;> cases hnext <;> simp [Event.ch, openPolls, Event.turn]
  · rw [sents_append, List.length_append, h4]
    unfold Stage.next at hnext
    split at hnext <;> cases hnext <;> simp [Event.ch, sents]
  · rw [readies_append, h5]
    unfold Stage.next at hnext
    split at hnext <;> cases hnext <;> simp [Event.ch, readies]
  · rw [losts_append, h6]
    unfold Stage.next at hnext
    split at hnext <;> cases hnext <;> simp [Event.ch, losts]

theorem life_counts {ch : Nat} {st : Stage} {log : List (Event U V)} (h : life ch log = some st) :
    st.Counts ch log := by
  refine follow_induction (P := Stage.Counts ch) ?_ (fun st log e he hc => hc.other he) ?_ h
  · exact ⟨by simp, rfl, rfl, rfl, rfl, rfl⟩
  · rintro st st' log e rfl hnext hc
    exact hc.own hnext

/-! ## The polls in progress -/

theorem openPolls_beginPoll (poll : U → Burst U V) (sh : Shared n U V) (ch : Nat) (task : Task U) :
    openPolls ch (sh.beginPoll poll task).1.log = openPolls ch sh.log + task.isOf ch := by
  rw [beginPoll_eq, openPolls_append]
  congr 1
  unfold Task.isOf
  cases task.ch? with
  | none => rfl
  | some c => simp [openPolls, Event.turn]

theorem openPolls_pushPending (sh : Shared n U V) (ch : Nat) (task : Task U) :
    openPolls ch (sh.pushPending task).log = openPolls ch sh.log - task.isOf ch := by
  unfold Shared.pushPending
  rw [openPolls_append, sub_eq_add_neg]
  congr 1
  unfold Task.isOf
  cases task.ch? with
  | none => rfl
  | some c =>
    simp only [Option.toList_some, List.map_cons, List.map_nil, openPolls, List.sum_cons,
      List.sum_nil, Event.turn, Option.some.injEq]
    split <;> rfl

theorem openPolls_destroyed (ch : Nat) (cs : List Nat) :
    openPolls ch (cs.map (.destroyed : Nat → Event U V)) = 0 :=
  openPolls_eq_zero fun e he => by
    obtain ⟨c, -, rfl⟩ := List.mem_map.1 he
    rfl

/-- **A poll in progress is one that the log opens.** -/
theorem threadStep_openPolls {sh sh' : Shared n U V} {t : ThreadId n m} {fs fs' : List (Frame U V)}
    (h : ThreadStep poll sh t fs sh' fs') (hp : ∀ f ∈ fs, f.Proper) (ch : Nat) :
    (weigh (Frame.running ch) fs' : Int) + openPolls ch sh.log =
      weigh (Frame.running ch) fs + openPolls ch sh'.log := by
  have hzero : ∀ {l : List (Event U V)}, sh'.log = sh.log ++ l → (∀ e ∈ l, e.turn ch = 0) →
      openPolls ch sh'.log = openPolls ch sh.log := by
    intro l hl hz
    rw [hl, openPolls_append, openPolls_eq_zero hz, add_zero]
  cases h with
  | callSpawn task u k fs _ | callBlockOn task u k fs _ =>
    rw [hzero rfl (List.forall_mem_singleton.2 rfl)]
    simp [Frame.running]
  | pollHandle task c k fs _ =>
    have hlog : openPolls ch (sh.pollHandle c).2.log = openPolls ch sh.log := by
      unfold Shared.pollHandle
      split
      · rw [openPolls_append]
        exact add_zero _
      · rfl
    rw [hlog]
    simp [Frame.running]
  | ready id c u v fs =>
    rw [openPolls_append]
    simp [Frame.running, openPolls, Event.turn]
    split <;> omega
  | panic id c u fs =>
    simp only [Shared.destroy, openPolls_append, openPolls_destroyed]
    simp [Frame.running, openPolls, Event.turn]
    split <;> omega
  | endWrapped id c u fs =>
    rw [hzero rfl (List.forall_mem_singleton.2 rfl)]
    simp [Frame.running]
  | requeue left owned fs =>
    have hleft : occ ch left.toList = 0 := by
      have := (hp _ List.mem_cons_self).1
      cases left with
      | none => rfl
      | some p => simp [Task.isOf, this p rfl]
    rw [openPolls_pushPending]
    simp [Frame.running, hleft]
    omega
  | spawned task c fs | startBlockOn task c fs =>
    obtain ⟨id, ⟨d, u⟩ | _⟩ := task
    · rw [hzero rfl (List.forall_mem_singleton.2 rfl)]
      simp [Frame.running]
    · rw [hzero rfl (List.forall_mem_nil _)]
      simp [Frame.running]
  | recvOk c l v fs _ _ =>
    rw [hzero rfl (List.forall_mem_singleton.2 rfl)]
    simp [Frame.running]
  | help c l ch' sh' l' fs _ hh =>
    rw [Executor.help_none hh]
    simp [Frame.running]
  | helpTask c l ch' sh₁ l' task fs hh =>
    obtain ⟨q, -, rfl⟩ := Executor.help_some hh
    rw [openPolls_beginPoll, weigh_cons, (running_beginPoll poll _ ch task).1]
    simp [Frame.running]
    omega
  | unwindRun i | unwindLast i | exit i =>
    simp [Shared.dropWorker, Shared.destroy, openPolls_append, openPolls_destroyed, Frame.running]
  | run i l c sh' l' fs _ _ hh =>
    rw [WorkerThread.step_none hh]
    simp [Frame.running]
  | runTask i l c sh₁ l' task fs _ hh =>
    rw [openPolls_beginPoll, weigh_cons, (running_beginPoll poll _ ch task).1,
      (WorkerThread.step_some hh).eq]
    simp [Frame.running]
    omega
  | dropQueue fs =>
    simp [Shared.destroy, openPolls_append, openPolls_destroyed]
    simp [Frame.running]
  | _ => simp [Frame.running, Shared.dropReceiver]

/-! ## Every reachable state -/

/-- How often the task of spawn `ch` occurs where a task at this stage is. -/
def State.held (s : State n m U V) (ch : Nat) : Stage → Nat
  | .spawning => census (Frame.creating ch) s
  | .queued => queued ch s.shared
  | .polling => census (Frame.running ch) s
  | .closing => census (Frame.closing ch) s
  | _ => 0

/-- A task at this stage is in the executor. -/
def Stage.live : Stage → Bool
  | .spawning | .queued | .polling | .closing => true
  | _ => false

/-- The counts that tell the stage of a task. -/
structure Staged (s : State n m U V) : Prop where
  accounted : Accounted s
  turns : ∀ ch, (census (Frame.running ch) s : Int) = openPolls ch s.shared.log
  created : ∀ ch, (∃ u, .created ch u ∈ s.shared.log) ↔ ch < s.shared.spawned

theorem staged_init : Staged (State.init n m U V) where
  accounted := accounted_init
  turns ch := by
    rw [census_init _ rfl rfl]
    rfl
  created ch := by simp [State.init, ExecutorInner.new]

theorem staged_step {a b : State n m U V} {t : ThreadId n m} (h : Staged a) (hs : Step poll a t b) :
    Staged b := by
  refine ⟨accounted_step h.accounted hs, fun ch => ?_, fun ch => ?_⟩
  · obtain @⟨sh', fs', hs, -⟩ := hs
    have h1 := threadStep_openPolls hs (h.accounted.proper t) ch
    have h2 := census_update (Frame.running ch) a sh' t fs'
    have h3 := h.turns ch
    simp only
    omega
  · obtain @⟨sh', fs', hs, -⟩ := hs
    have hch := h.created ch
    show (∃ u, .created ch u ∈ sh'.log) ↔ ch < sh'.spawned
    rcases threadStep_created hs with ⟨hn, hc⟩ | ⟨u, hn, hc⟩
    · rw [hn, ← hch]
      exact exists_congr fun u => hc ch u
    · simp only [hc, hn, exists_or, hch]
      constructor
      · rintro (hlt | ⟨w, rfl, rfl⟩) <;> omega
      · intro hlt
        by_cases heq : ch = a.shared.spawned
        · exact Or.inr ⟨u, heq, rfl⟩
        · exact Or.inl (by omega)

section Staged

variable {s : State n m U V} {ch : Nat} {st : Stage}

/-- **The stage of a task tells where it is.** -/
theorem Staged.places (h : Staged s) (hl : life ch s.shared.log = some st) (hst : st ≠ .unwinding) :
    (st = .unborn ↔ s.shared.spawned ≤ ch) ∧
    census (Frame.creating ch) s = (if st = .spawning then 1 else 0) ∧
    queued ch s.shared = (if st = .queued then 1 else 0) ∧
    census (Frame.running ch) s = (if st = .polling then 1 else 0) ∧
    census (Frame.closing ch) s = (if st = .closing then 1 else 0) := by
  obtain ⟨hcreated, hpushed, hturns, hsent, hready, hlost⟩ := life_counts hl
  have h1 := h.accounted.count ch
  have h2 := h.accounted.pushed ch
  have h3 := h.accounted.sent ch
  have h4 := h.turns ch
  rw [h.created ch] at hcreated
  have hborn : born ch s.shared.spawned = if st = .unborn then 0 else 1 := by
    unfold born
    by_cases hu : st = .unborn
    · rw [if_pos hu, if_neg fun hlt => hcreated.1 hlt hu]
    · rw [if_neg hu, if_pos (hcreated.2 hu)]
  rw [hpushed] at h1 h2
  rw [hturns] at h4
  rw [hsent] at h3
  rw [hready] at h1 h3
  rw [hlost] at h1
  rw [hborn] at h2
  refine ⟨?_, ?_⟩
  · rw [← not_iff_not, Nat.not_le]
    exact hcreated.symm
  · cases st with
    | unwinding => exact absurd rfl hst
    | _ =>
      simp only [reduceCtorEq, or_self, or_true, true_or, if_true, if_false] at h1 h2 h3 h4 ⊢
      omega

theorem Staged.eq_queued (h : Staged s) (hl : life ch s.shared.log = some st)
    (hst : st ≠ .unwinding) (hq : 0 < queued ch s.shared) : st = .queued := by
  by_contra hne
  rw [(h.places hl hst).2.2.1, if_neg hne] at hq
  exact hq.false

theorem Staged.eq_polling (h : Staged s) (hl : life ch s.shared.log = some st)
    (hst : st ≠ .unwinding) (hr : 0 < census (Frame.running ch) s) : st = .polling := by
  by_contra hne
  rw [(h.places hl hst).2.2.2.1, if_neg hne] at hr
  exact hr.false

theorem census_pos {w : Frame U V → Nat} {t : ThreadId n m} {f : Frame U V} {fs : List (Frame U V)}
    (hfs : s.threads t = f :: fs) (hw : 0 < w f) : 0 < census w s := by
  have h1 := le_weigh w (hfs ▸ List.mem_cons_self : f ∈ s.threads t)
  have h2 := weigh_le_census w s t
  omega

/-- The events of a destroyed queue that are about task `ch`. -/
theorem filter_destroyed (ch : Nat) (tasks : List (Task U)) :
    ((tasks.filterMap Task.ch?).map (.destroyed : Nat → Event U V)).filter (fun e => e.ch = ch) =
      List.replicate (occ ch tasks) (.destroyed ch) := by
  induction tasks with
  | nil => rfl
  | cons p tasks ih =>
    rw [occ_cons]
    cases hp : p.ch? with
    | none =>
      rw [List.filterMap_cons_none hp, ih]
      simp [Task.isOf, hp]
    | some c =>
      rw [List.filterMap_cons_some hp, List.map_cons]
      by_cases hc : c = ch
      · subst hc
        rw [List.filter_cons_of_pos (by simp [Event.ch]), ih]
        simp [Task.isOf, hp, Nat.add_comm 1, List.replicate_succ]
      · rw [List.filter_cons_of_neg (by simp [Event.ch, hc]), ih]
        simp [Task.isOf, hp, hc]

/-- **Each action takes the task that it is about along an arrow of the automaton**, and leaves the
others where they are. -/
theorem life_step {a b : State n m U V} {t : ThreadId n m} (ha : Staged a) (hb : Staged b)
    (hd : Delivered b) (hs : Step poll a t b) (hl : life ch a.shared.log = some st)
    (hst : st ≠ .unwinding) : ∃ st', life ch b.shared.log = some st' ∧ st' ≠ .unwinding := by
  have hplaces := ha.places hl hst
  have hts := hs
  obtain @⟨sh', fs', hts, -⟩ := hts
  obtain ⟨l, hlog, he⟩ := threadStep_log hts
  show ∃ st', life ch sh'.log = some st' ∧ st' ≠ .unwinding
  have hlife : life ch sh'.log = follow Stage.next Event.ch st ch l := by
    rw [hlog]
    unfold life at hl ⊢
    rw [follow_append, hl]
    rfl
  rw [hlife]
  have hone : ∀ {e : Event U V}, (e.ch = ch → ∃ st', st.next e = some st' ∧ st' ≠ .unwinding) →
      ∃ st', follow Stage.next Event.ch st ch [e] = some st' ∧ st' ≠ .unwinding := by
    intro e hnext
    by_cases hch : e.ch = ch
    · rw [follow_single hch]
      exact hnext hch
    · rw [follow_others (List.forall_mem_singleton.2 hch)]
      exact ⟨st, rfl, hst⟩
  cases he with
  | nothing => exact ⟨st, rfl, hst⟩
  | created task u fs₁ _ =>
    refine hone fun hch => ?_
    obtain rfl := hplaces.1.2 hch.le
    exact ⟨_, rfl, by decide⟩
  | spawned id c u d blocking fs₁ hfs =>
    refine hone fun (hch : c = ch) => ?_
    have hpos := census_pos (w := Frame.creating ch) hfs (by simp [Frame.creating, hch])
    obtain rfl : st = .spawning := by
      by_contra hne
      rw [hplaces.2.1, if_neg hne] at hpos
      exact hpos.false
    exact ⟨_, rfl, by decide⟩
  | polled task c hq hc =>
    refine hone fun (hch : c = ch) => ?_
    obtain rfl := ha.eq_queued hl hst (queued_pos hq (hch ▸ hc))
    exact ⟨_, rfl, by decide⟩
  | requeued left task c fs₁ hfs hc =>
    refine hone fun (hch : c = ch) => ?_
    have hpos := (isOf_pos_iff ch task).2 (hch ▸ hc)
    obtain rfl := ha.eq_polling hl hst (census_pos hfs (Nat.add_pos_right _ hpos))
    exact ⟨_, rfl, by decide⟩
  | sent id c u v fs₁ hfs =>
    refine hone fun (hch : c = ch) => ?_
    obtain rfl := ha.eq_polling hl hst (census_pos hfs (by simp [Frame.running, hch]))
    exact ⟨_, rfl, by decide⟩
  | ready id c u fs₁ hfs =>
    refine hone fun (hch : c = ch) => ?_
    have hpos := census_pos (w := Frame.closing ch) hfs (by simp [Frame.closing, hch])
    obtain rfl : st = .closing := by
      by_contra hne
      rw [hplaces.2.2.2.2, if_neg hne] at hpos
      exact hpos.false
    exact ⟨_, rfl, by decide⟩
  | recv c v _ =>
    refine hone fun (hch : c = ch) => ?_
    have hsent : .sent ch v ∈ a.shared.log := by
      have hrecv : .recv c v ∈ sh'.log := hlog ▸ List.mem_append_right _ (List.mem_singleton.2 rfl)
      have hmem : .sent c v ∈ sh'.log := hd.recv_sent hrecv
      rw [hlog, hch] at hmem
      simpa using hmem
    have hpos := List.length_pos_of_mem ((mem_sents ch _ v).2 hsent)
    rw [(life_counts hl).sent] at hpos
    by_cases hstage : st = .closing ∨ st = .finished
    · rcases hstage with rfl | rfl <;> exact ⟨_, rfl, by decide⟩
    · rw [if_neg hstage] at hpos
      exact absurd hpos (Nat.lt_irrefl 0)
  | panicked id c u fs₁ hfs =>
    by_cases hch : c = ch
    · have hpos := census_pos (w := Frame.running ch) hfs (by simp [Frame.running, hch])
      obtain rfl := ha.eq_polling hl hst hpos
      refine ⟨.destroyed, ?_, by decide⟩
      rw [← List.singleton_append, follow_append,
        follow_single (show (Event.panicked c : Event U V).ch = ch from hch)]
      exact follow_single hch
    · rw [follow_others (by simpa [Event.ch] using hch)]
      exact ⟨st, rfl, hst⟩
  | destroyed tasks =>
    unfold follow
    rw [filter_destroyed]
    -- a task is destroyed once, and before that it was in a queue
    have h1 := ha.accounted.count ch
    have h2 := ha.accounted.sent ch
    have h3 := ha.turns ch
    have h4 := hb.accounted.count ch
    have h5 := hb.accounted.sent ch
    have h6 := hb.turns ch
    have h7 := ha.accounted.pushes_le_one ch
    simp only [hlog, readies_append, losts_append, pushes_append, sents_append, openPolls_append,
      readies_destroyed, losts_destroyed, pushes_destroyed, sents_destroyed, openPolls_destroyed,
      List.append_nil, add_zero] at h4 h5 h6
    by_cases hocc : occ ch tasks = 0
    · rw [hocc]
      exact ⟨st, rfl, hst⟩
    · obtain rfl := ha.eq_queued hl hst (by omega)
      have hocc : occ ch tasks = 1 := by omega
      rw [hocc]
      exact ⟨.destroyed, rfl, by decide⟩

end Staged

/-- **Each task lives by the automaton, and is where its stage says**, in every reachable state: the
events of spawn `ch` are in order, and its task occurs once where a task of that stage is and
nowhere else, or nowhere when it has not been created or is finished or destroyed. -/
theorem life_reachable {G : State n m U V → ThreadId n m → Prop} {s : State n m U V}
    (h : Reachable poll G s) (ch : Nat) :
    ∃ st, life ch s.shared.log = some st ∧ st ≠ .unwinding ∧
      (st = .unborn ↔ s.shared.spawned ≤ ch) ∧
      ∀ st', s.held ch st' = if st' = st ∧ st'.live then 1 else 0 := by
  obtain ⟨ts, hr⟩ := h
  have hstaged : ∀ {ts a}, Run (Step poll) G (State.init n m U V) ts a → Staged a := fun hr =>
    hr.invariant staged_init fun _ _ _ ha _ hs => staged_step ha hs
  obtain ⟨st, hl, hst⟩ := hr.invariant_with
    (P := fun s => ∃ st, life ch s.shared.log = some st ∧ st ≠ .unwinding)
    (R := fun s => Staged s ∧ Delivered s)
    (fun ts _ hr' => ⟨hstaged hr', delivered_reachable ⟨ts, hr'⟩⟩) ⟨.unborn, rfl, nofun⟩
    fun a t b ha ⟨st, hl, hst⟩ _ hs => life_step ha.1 (staged_step ha.1 hs)
      (delivered_step ha.1.accounted ha.2 hs) hs hl hst
  obtain ⟨hborn, hcreating, hqueued, hrunning, hclosing⟩ := (hstaged hr).places hl hst
  refine ⟨st, hl, hst, hborn, fun st' => ?_⟩
  cases st' with
  | spawning => simpa [State.held, Stage.live, eq_comm] using hcreating
  | queued => simpa [State.held, Stage.live, eq_comm] using hqueued
  | polling => simpa [State.held, Stage.live, eq_comm] using hrunning
  | closing => simpa [State.held, Stage.live, eq_comm] using hclosing
  | _ => simp [State.held, Stage.live]

/-- The worker has polled a task that panicked; another one went down with its deque, and a third is
still in the global queue. -/
theorem life_reachable_panic : ∃ s : State 1 1 Sample Nat,
    life 0 s.shared.log = some .destroyed ∧ life 1 s.shared.log = some .destroyed ∧
    life 2 s.shared.log = some .queued ∧
    ∃ st, life 2 s.shared.log = some st ∧ st ≠ .unwinding ∧
      (st = .unborn ↔ s.shared.spawned ≤ 2) ∧
      ∀ st', s.held 2 st' = if st' = st ∧ st'.live then 1 else 0 := by
  obtain ⟨s, hr, h0, h1, h2⟩ := reachable_of_exec Sample.burst (G := always)
    (P := fun s : State 1 1 Sample Nat => life 0 s.shared.log = some .destroyed ∧
      life 1 s.shared.log = some .destroyed ∧ life 2 s.shared.log = some .queued)
    ((.inr 0, .code (Sample.spawns [.panic, .value 7, .value 8])) :: turns (.inr 0) 6 (.answer 0) ++
      turns (.inl 0) 5 (.steal (.batch 1))) (by decide)
  exact ⟨s, h0, h1, h2, life_reachable hr 2⟩

end Luminal.Std
