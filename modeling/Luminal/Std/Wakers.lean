import Luminal.Std.Aftermath
import Luminal.Std.Exec

/-!
# What keeps the global queue alive

Every waker has a strong reference to the global queue, and so has every clone of it that a future
stores.  The queue owns the tasks in it, so a queued task with a clone of a waker is kept alive
by itself.  `Memory` adds to the executor the clones that are held, and by whom; the queue is
destroyed when the last reference to it goes (`Memory.release`).  The `wake` function of the
vtable frees nothing, so a clone consumed by `Waker::wake` keeps its reference for ever;
`wake_by_ref` does nothing.  The destructors of futures only drop what the futures hold.

When `ExecutorInner` lets go of the queue the workers and the polls are gone, and the references
left are those of the clones (`references_of_gone`).  `released_iff_reclaims` is the exact
condition on the steps of a run under which shutdown releases the queue, `stuck_forever` what
happens otherwise.  A worker that joins itself never gets there: `left` stays `none`, and the queue
goes with the last worker as in `Shared.dropWorker`, where nobody asks about clones.
-/

namespace Luminal.Std

open Function Transition

variable {n m : Nat} {U V : Type} {poll : U → Burst U V}

/-! ## Wakers -/

/-- Who can use a clone of a waker: the task of spawn `ch`, or code outside the executor. -/
inductive Holder where
  | task (ch : Nat)
  | outside
  deriving DecidableEq

/-- `runtime/waker.rs`: `struct WakerData`, the box behind a clone, with those who hold the
clone.  Its `global_queue` is one of `Memory.references`. -/
structure WakerData where
  taskId : TaskId
  holders : List Holder
  deriving DecidableEq

/-- The executor, the clones that are held, the number of boxes that nothing frees any more, and
what was queued when `ExecutorInner` was dropped. -/
structure Memory (n m : Nat) (U V : Type) where
  exec : State n m U V
  wakers : List WakerData
  leaked : Nat
  left : Option (List (Task U))

namespace Holder

/-- A task holds what its future captured as long as the future is queued, polled or on its way
into the queue. -/
def Alive (s : State n m U V) : Holder → Prop
  | .task ch =>
    0 < queued ch s.shared + census (Frame.running ch) s + census (Frame.creating ch) s
  | .outside => True

theorem alive_task (s : State n m U V) (ch : Nat) : (Holder.task ch).Alive s ↔
    0 < queued ch s.shared + census (Frame.running ch) s + census (Frame.creating ch) s := Iff.rfl

instance (s : State n m U V) (h : Holder) : Decidable (h.Alive s) := by
  cases h <;> unfold Alive <;> infer_instance

end Holder

/-- The task whose future is running on top of the stack. -/
def polledTask : List (Frame U V) → Option (Task U)
  | .user (some task) (.run _) :: _ => some task
  | _ => none

namespace Holder

/-- Code of the holder is running on thread `t`. -/
def Runs (s : State n m U V) (t : ThreadId n m) : Holder → Prop
  | .task ch => (polledTask (s.threads t)).bind Task.ch? = some ch
  | .outside => True

instance (s : State n m U V) (t : ThreadId n m) (h : Holder) : Decidable (h.Runs s t) := by
  cases h <;> unfold Runs <;> infer_instance

end Holder

/-- The futures that were dropped have dropped their clones. -/
def prune (s : State n m U V) (ws : List WakerData) : List WakerData :=
  (ws.map fun w => { w with holders := w.holders.filter fun h => h.Alive s }).filter
    fun w => w.holders ≠ []

/-- What code can do with clones of wakers. -/
inductive Act where
  /-- `Waker::clone`, of the waker of a poll or of another clone -/
  | clone (w : WakerData)
  /-- the clone changes hands; without holders it is dropped -/
  | hand (w : WakerData) (holders : List Holder)
  /-- `Waker::wake` consumes the clone -/
  | wake (w : WakerData)

namespace Act

/-- The clones that are held after the act. -/
def clones (ws : List WakerData) : Act → List WakerData
  | .clone w => w :: ws
  | .hand w holders =>
    if holders = [] then ws.erase w else ⟨w.taskId, holders⟩ :: ws.erase w
  | .wake w => ws.erase w

def leaks : Act → Nat
  | .wake _ => 1
  | _ => 0

/-- Thread `t` can do this: it polls the task of the waker, or runs code that holds the clone. -/
def Allowed (s : Memory n m U V) (t : ThreadId n m) : Act → Prop
  | .clone w => (w.holders ≠ [] ∧ ∀ h ∈ w.holders, h.Alive s.exec) ∧
      ((polledTask (s.exec.threads t)).map Task.id = some w.taskId ∨
        ∃ w' ∈ s.wakers, w'.taskId = w.taskId ∧ ∃ h ∈ w'.holders, h.Runs s.exec t)
  | .hand w holders =>
    w ∈ s.wakers ∧ (∃ h ∈ w.holders, h.Runs s.exec t) ∧ ∀ h ∈ holders, h.Alive s.exec
  | .wake w => w ∈ s.wakers ∧ ∃ h ∈ w.holders, h.Runs s.exec t

instance (s : Memory n m U V) (t : ThreadId n m) (a : Act) : Decidable (a.Allowed s t) := by
  cases a <;> unfold Allowed <;> infer_instance

end Act

namespace Memory

def init (n m : Nat) (U V : Type) : Memory n m U V := ⟨State.init n m U V, [], 0, none⟩

/-- The strong count of the global queue: `ExecutorInner`, the workers, the wakers of the polls in
progress, their clones. -/
def references (s : Memory n m U V) : Nat :=
  (if s.left = none then 1 else 0) + tally Bool.toNat s.exec.shared.live +
    census Frame.waker s.exec + s.wakers.length + s.leaked

/-- Without references the queue is destroyed with the tasks in it. -/
def release (s : Memory n m U V) : Memory n m U V :=
  if s.references = 0 then
    { s with exec := { s.exec with
        shared := Shared.destroy s.exec.shared.globalQueue
          { s.exec.shared with globalQueue := [] } } }
  else s

/-- After an action of the executor. -/
def run (s : Memory n m U V) (b : State n m U V) : Memory n m U V :=
  release { s with exec := b, wakers := prune b s.wakers }

/-- The end of `ExecutorInner::drop`: the field `global_queue` is dropped. -/
def letGo (s : Memory n m U V) (t : ThreadId n m) (fs : List (Frame U V)) : Memory n m U V :=
  release { s with
    exec := ⟨s.exec.shared, update s.exec.threads t fs⟩
    left := some s.exec.shared.globalQueue }

def act (s : Memory n m U V) (a : Act) : Memory n m U V :=
  release { s with wakers := a.clones s.wakers, leaked := s.leaked + a.leaks }

end Memory

/-- Thread `t` moves, or uses clones of wakers. -/
inductive WakerStep (poll : U → Burst U V) (s : Memory n m U V) :
    ThreadId n m × Option Act → Memory n m U V → Prop
  | run {t : ThreadId n m} {b : State n m U V} :
      (∀ fs, s.exec.threads t ≠ .dropInner (some n) :: fs) → Step poll s.exec t b →
      WakerStep poll s (t, none) (s.run b)
  | letGo {t : ThreadId n m} {fs : List (Frame U V)} :
      s.exec.threads t = .dropInner (some n) :: fs → WakerStep poll s (t, none) (s.letGo t fs)
  | act {t : ThreadId n m} {a : Act} : a.Allowed s t → WakerStep poll s (t, some a) (s.act a)

/-! ## What is left at shutdown -/

/-- The tasks of `q` are destroyed, with what their futures captured and their result senders. -/
def Destroyed (s : State n m U V) (q : List (Task U)) : Prop :=
  ∀ task ∈ q, ∀ ch ∈ task.ch?, .destroyed ch ∈ s.shared.log ∧ (s.shared.chan ch).sender = false

/-- Once `ExecutorInner` has let go of the queue, every clone left has a holder besides the
queued tasks, and when no clone is left the queued tasks are destroyed. -/
def Memory.Released (s : Memory n m U V) : Prop :=
  ∀ q ∈ s.left, (∀ w ∈ s.wakers, .outside ∈ w.holders) ∧ (s.wakers = [] → Destroyed s.exec q)

/-- With the clones `ws` and `k` boxes that nothing frees, no reference to `q` is left that is
out of reach from outside. -/
def Reclaimable (q : List (Task U)) (ws : List WakerData) (k : Nat) : Prop :=
  (∀ w ∈ ws, .outside ∈ w.holders) ∧ (ws = [] → q = [] ∨ k = 0)

/-- The condition on a step.  When `ExecutorInner` lets go of the queue, and whenever clones
change hands after that, the queue stays reclaimable. -/
def Memory.Reclaims (s : Memory n m U V) : ThreadId n m × Option Act → Prop
  | (t, none) => (∃ fs, s.exec.threads t = .dropInner (some n) :: fs) →
      Reclaimable s.exec.shared.globalQueue s.wakers s.leaked
  | (_, some a) => ∀ q ∈ s.left, Reclaimable q (a.clones s.wakers) (s.leaked + a.leaks)

/-! ### The references after the last worker -/

namespace Gone

variable {s : State n m U V}

/-- The tasks that are left are queued. -/
theorem alive_iff (h : Gone s) (ch : Nat) : (Holder.task ch).Alive s ↔ 0 < queued ch s.shared := by
  have hrun : census (Frame.running ch) s = 0 := h.census_eq_zero fun f hf => (hf.weights ch).1
  have hcre : census (Frame.creating ch) s = 0 := h.census_eq_zero fun f hf => (hf.weights ch).2.1
  rw [Holder.alive_task, hrun, hcre]
  rfl

theorem polledTask_eq_none (h : Gone s) (t : ThreadId n m) : polledTask (s.threads t) = none := by
  unfold polledTask
  split
  · next task b fs hfs =>
    cases t with
    | inl i =>
      rw [h.workers i] at hfs
      cases hfs
    | inr i =>
      have : (Frame.user (some task) (.run b) : Frame U V).Idle :=
        h.others i _ (hfs ▸ List.mem_cons_self)
      exact this.elim
  · rfl

/-- Only code outside is left to run. -/
theorem not_runs (h : Gone s) (t : ThreadId n m) (ch : Nat) : ¬ (Holder.task ch).Runs s t := by
  unfold Holder.Runs
  rw [h.polledTask_eq_none]
  nofun

theorem alive_congr {s' : State n m U V} (h : Gone s) (h' : Gone s')
    (hq : ∀ ch, queued ch s'.shared = queued ch s.shared) (x : Holder) : x.Alive s' ↔
    x.Alive s := by
  cases x with
  | outside => exact Iff.rfl
  | task ch => rw [h.alive_iff, h'.alive_iff, hq]

end Gone

/-- **Once the executor is gone, the references left are those of the clones.** -/
theorem references_of_gone {s : Memory n m U V} (h : Gone s.exec) (hl : s.left ≠ none) :
    s.references = s.wakers.length + s.leaked := by
  have hlive : tally Bool.toNat s.exec.shared.live = 0 := by
    rw [tally_eq_zero]
    intro i
    rw [h.live i]
    rfl
  have hwaker : census Frame.waker s.exec = 0 := h.census_eq_zero fun f hf => (hf.weights 0).2.2
  unfold Memory.references
  rw [if_neg hl, hlive, hwaker]
  omega

/-! ### The invariant -/

/-- The queue `q` is still there. -/
structure Whole (s : State n m U V) (q : List (Task U)) : Prop where
  globalQueue : s.shared.globalQueue = q
  intact : ∀ task ∈ q, ∃ ch, task.ch? = some ch ∧ .destroyed ch ∉ s.shared.log

/-- The queue `q` was destroyed when its last reference went. -/
structure Emptied (s : Memory n m U V) (q : List (Task U)) : Prop where
  wakers : s.wakers = []
  leaked : s.leaked = 0
  globalQueue : s.exec.shared.globalQueue = []
  destroyed : Destroyed s.exec q

/-- Every clone has holders that exist; after shutdown the queue is there as long as there are
references to it. -/
structure Tracked (poll : U → Burst U V) (s : Memory n m U V) : Prop where
  held : ∀ w ∈ s.wakers, w.holders ≠ [] ∧ ∀ h ∈ w.holders, h.Alive s.exec
  before : s.left = none → Reachable poll always s.exec
  gone : s.left ≠ none → Gone s.exec
  after : ∀ q ∈ s.left, (0 < s.wakers.length + s.leaked ∧ Whole s.exec q) ∨ Emptied s q

theorem Whole.keeps {s s' : State n m U V} {q : List (Task U)} (h : Whole s q)
    (hk : Keeps s.shared s'.shared) : Whole s' q := by
  refine ⟨hk.globalQueue.trans h.globalQueue, fun task hmem => ?_⟩
  obtain ⟨ch, hch, hno⟩ := h.intact task hmem
  exact ⟨ch, hch, fun hd => hno ((hk.destroyed ch).1 hd)⟩

theorem Destroyed.keeps {s s' : State n m U V} {q : List (Task U)} (h : Destroyed s q)
    (hk : Keeps s.shared s'.shared) : Destroyed s' q := fun task hmem ch hch =>
  ⟨(hk.destroyed ch).2 (h task hmem ch hch).1, hk.sender ch (h task hmem ch hch).2⟩

theorem Whole.destroyed_iff {s : State n m U V} {q : List (Task U)} (h : Whole s q) :
    Destroyed s q ↔ q = [] := by
  constructor
  · intro hd
    cases q with
    | nil => rfl
    | cons task q =>
      obtain ⟨ch, hch, hno⟩ := h.intact task List.mem_cons_self
      exact absurd (hd task List.mem_cons_self ch hch).1 hno
  · rintro rfl
    nofun

/-- **Dropping the queue destroys the tasks in it.** -/
theorem destroyed_destroy (sh : Shared n U V) (threads : ThreadId n m → List (Frame U V)) :
    Destroyed ⟨Shared.destroy sh.globalQueue { sh with globalQueue := [] }, threads⟩
      sh.globalQueue := by
  intro task hmem ch hch
  have hocc : 0 < occ ch sh.globalQueue := (occ_pos_iff ch _).2 ⟨task, hmem, hch⟩
  refine ⟨List.mem_append_right _ (mem_destroyed.2 hocc), ?_⟩
  show (if 0 < occ ch sh.globalQueue then (sh.chan ch).dropSender else sh.chan ch).sender = false
  rw [if_pos hocc]
  rfl

theorem destroy_nil (sh : Shared n U V) (h : sh.globalQueue = []) :
    Shared.destroy sh.globalQueue { sh with globalQueue := [] } = sh := by
  obtain ⟨q, _, _, _, _, _, _, _, _, _, _⟩ := sh
  cases h
  simp [Shared.destroy]

/-- **`release` destroys the queue exactly when no clone is left.** -/
theorem tracked_release {x : Memory n m U V}
    (held : ∀ w ∈ x.wakers, w.holders ≠ [] ∧ ∀ h ∈ w.holders, h.Alive x.exec)
    (before : x.left = none → Reachable poll always x.exec) (gone : x.left ≠ none → Gone x.exec)
    (after : ∀ q ∈ x.left, Whole x.exec q ∨ Emptied x q) : Tracked poll x.release := by
  unfold Memory.release
  split
  · next h0 =>
    have hl : x.left ≠ none := fun hl => by
      simp only [Memory.references, hl, if_true] at h0
      omega
    have hg := gone hl
    rw [references_of_gone hg hl] at h0
    have hw : x.wakers = [] := List.length_eq_zero_iff.1 (by omega)
    have hk : x.leaked = 0 := by omega
    refine ⟨fun w hmem => ?_, fun hn => absurd hn hl, fun _ => ?_, fun q hq => Or.inr ?_⟩
    · rw [hw] at hmem
      cases hmem
    · exact ⟨hg.owners, hg.live, hg.workers, hg.others⟩
    · refine ⟨hw, hk, rfl, ?_⟩
      rcases after q hq with hwhole | hemp
      · exact hwhole.globalQueue ▸ destroyed_destroy _ _
      · rw [destroy_nil _ hemp.globalQueue]
        exact hemp.destroyed
  · next h0 =>
    refine ⟨held, before, gone, fun q hq => ?_⟩
    have hl : x.left ≠ none := fun hl => by
      rw [hl] at hq
      cases hq
    rw [references_of_gone (gone hl) hl] at h0
    rcases after q hq with hwhole | hemp
    · exact Or.inl ⟨by omega, hwhole⟩
    · exact Or.inr hemp

theorem release_eq {x : Memory n m U V} (hl : x.left ≠ none → Gone x.exec)
    (h : x.left = none ∨ 0 < x.wakers.length + x.leaked) : x.release = x := by
  refine if_neg fun h0 => ?_
  by_cases hn : x.left = none
  · simp only [Memory.references, hn, if_true] at h0
    omega
  · rw [references_of_gone (hl hn) hn] at h0
    have := h.resolve_left hn
    omega

@[simp] theorem release_wakers (x : Memory n m U V) : x.release.wakers = x.wakers := by
  unfold Memory.release
  split <;> rfl

@[simp] theorem release_leaked (x : Memory n m U V) : x.release.leaked = x.leaked := by
  unfold Memory.release
  split <;> rfl

@[simp] theorem release_left (x : Memory n m U V) : x.release.left = x.left := by
  unfold Memory.release
  split <;> rfl

theorem prune_held {s : State n m U V} {ws : List WakerData} {w : WakerData} (h : w ∈ prune s ws) :
    w.holders ≠ [] ∧ ∀ x ∈ w.holders, x.Alive s := by
  obtain ⟨hmem, hne⟩ := List.mem_filter.1 h
  obtain ⟨w₀, -, rfl⟩ := List.mem_map.1 hmem
  refine ⟨by simpa using hne, fun x hx => ?_⟩
  simpa using (List.mem_filter.1 hx).2

theorem prune_eq_self {s : State n m U V} {ws : List WakerData}
    (h : ∀ w ∈ ws, w.holders ≠ [] ∧ ∀ x ∈ w.holders, x.Alive s) : prune s ws = ws := by
  have hmap : (ws.map fun w => { w with holders := w.holders.filter fun x => x.Alive s }) = ws := by
    refine (List.map_congr_left fun w hw => ?_).trans (List.map_id ws)
    have hfilter : w.holders.filter (fun x => x.Alive s) = w.holders :=
      List.filter_eq_self.2 fun x hx => decide_eq_true ((h w hw).2 x hx)
    rw [hfilter]
    rfl
  unfold prune
  rw [hmap]
  exact List.filter_eq_self.2 fun w hw => decide_eq_true (h w hw).1

/-- The clones after an act have holders that exist. -/
theorem clones_held {s : Memory n m U V} {t : ThreadId n m} {a : Act} (ha : a.Allowed s t)
    (h : ∀ w ∈ s.wakers, w.holders ≠ [] ∧ ∀ x ∈ w.holders, x.Alive s.exec) :
    ∀ w ∈ a.clones s.wakers, w.holders ≠ [] ∧ ∀ x ∈ w.holders, x.Alive s.exec := by
  intro w hw
  cases a with
  | clone w' =>
    rcases List.mem_cons.1 hw with rfl | hw
    · exact ha.1
    · exact h w hw
  | hand w' holders =>
    simp only [Act.clones] at hw
    split at hw
    · exact h w (List.mem_of_mem_erase hw)
    · next hne =>
      rcases List.mem_cons.1 hw with rfl | hw
      · exact ⟨hne, ha.2.2⟩
      · exact h w (List.mem_of_mem_erase hw)
  | wake w' => exact h w (List.mem_of_mem_erase hw)

/-- Without clones and polls nothing can be done. -/
theorem Act.not_allowed {s : Memory n m U V} {t : ThreadId n m} {a : Act} (hg : Gone s.exec)
    (hw : s.wakers = []) : ¬ a.Allowed s t := by
  cases a with
  | clone w =>
    rintro ⟨-, hpolled | ⟨w', hw', -⟩⟩
    · rw [hg.polledTask_eq_none] at hpolled
      cases hpolled
    · rw [hw] at hw'
      cases hw'
  | hand w holders =>
    rintro ⟨hmem, -⟩
    rw [hw] at hmem
    cases hmem
  | wake w =>
    rintro ⟨hmem, -⟩
    rw [hw] at hmem
    cases hmem

/-- The queue that `ExecutorInner` lets go of is as it was pushed. -/
theorem whole_of_accounted {s : State n m U V} (h : Accounted s) :
    Whole s s.shared.globalQueue := by
  refine ⟨rfl, fun task hmem => ?_⟩
  obtain ⟨ch, hch⟩ := Option.isSome_iff_exists.1 (h.queues task (Or.inl hmem))
  refine ⟨ch, hch, fun hd => ?_⟩
  have hq : 0 < occ ch s.shared.globalQueue := (occ_pos_iff ch _).2 ⟨task, hmem, hch⟩
  have hlost := (losts_pos_iff ch s.shared.log).2 hd
  have hcount := h.count ch
  have hpush := h.pushes_le_one ch
  unfold queued at hcount
  omega

theorem tracked_step {s s' : Memory n m U V} {l : ThreadId n m × Option Act} (h : Tracked poll s)
    (hs : WakerStep poll s l s') : Tracked poll s' := by
  cases hs with
  | @run t b hq hs =>
    refine tracked_release (fun w => prune_held) (fun hl => ?_) (fun hl => ?_) fun q hmem => ?_
    · obtain ⟨ts, hr⟩ := h.before hl
      exact ⟨_, hr.snoc trivial hs⟩
    · exact ((h.gone hl).step hs hq).2
    · have hkeep := ((h.gone (Option.ne_none_iff_exists'.2 ⟨q, hmem⟩)).step hs hq).1
      refine (h.after q hmem).imp (fun hw => hw.2.keeps hkeep) fun he => ?_
      refine ⟨?_, he.leaked, hkeep.globalQueue.trans he.globalQueue, he.destroyed.keeps hkeep⟩
      show prune b s.wakers = []
      rw [he.wakers]
      rfl
  | @letGo t fs hfs =>
    have hg : Gone s.exec := by
      by_cases hl : s.left = none
      · exact gone_of_letGo (h.before hl) hfs
      · exact h.gone hl
    have hwhole : Whole s.exec s.exec.shared.globalQueue := by
      cases hl : s.left with
      | none => exact whole_of_accounted (accounted_reachable (h.before hl))
      | some q =>
        rcases h.after q hl with ⟨-, hw⟩ | he
        · exact hw.globalQueue ▸ hw
        · exact ⟨rfl, he.globalQueue ▸ nofun⟩
    have hg' := hg.pop hfs
    refine tracked_release (fun w hmem => ?_) nofun (fun _ => hg') fun q hmem => ?_
    · refine ⟨(h.held w hmem).1, fun x hx => ?_⟩
      exact (hg.alive_congr hg' (fun _ => rfl) x).2 ((h.held w hmem).2 x hx)
    · cases hmem
      exact Or.inl ⟨rfl, hwhole.intact⟩
  | @act t a ha =>
    refine tracked_release (clones_held ha h.held) h.before h.gone fun q hmem => ?_
    rcases h.after q hmem with ⟨-, hw⟩ | he
    · exact Or.inl hw
    · have hg := h.gone (Option.ne_none_iff_exists'.2 ⟨q, hmem⟩)
      exact absurd ha (Act.not_allowed hg he.wakers)

theorem tracked_init : Tracked poll (Memory.init n m U V) :=
  ⟨nofun, fun _ => ⟨[], Run.nil⟩, fun h => absurd rfl h, nofun⟩

theorem tracked_run {ls : List (ThreadId n m × Option Act)} {s : Memory n m U V}
    {G : Memory n m U V → ThreadId n m × Option Act → Prop}
    (h : Run (WakerStep poll) G (Memory.init n m U V) ls s) : Tracked poll s :=
  h.invariant tracked_init fun _ _ _ ha _ hs => tracked_step ha hs

/-! ## Shutdown releases the queue, or leaks it -/

theorem Tracked.released_iff {s : Memory n m U V} (h : Tracked poll s) {q : List (Task U)}
    (hq : s.left = some q) : s.Released ↔ Reclaimable q s.wakers s.leaked := by
  unfold Memory.Released Reclaimable
  rw [hq]
  simp only [Option.mem_def, Option.some.injEq, forall_eq']
  refine and_congr_right fun _ => ?_
  rcases h.after q hq with ⟨hpos, hwhole⟩ | he
  · refine forall_congr' fun hw => hwhole.destroyed_iff.trans ?_
    rw [hw, List.length_nil] at hpos
    constructor
    · exact Or.inl
    · rintro (hnil | hk)
      · exact hnil
      · omega
  · exact ⟨fun _ _ => Or.inr he.leaked, fun _ _ => he.destroyed⟩

/-- After shutdown the executor's own actions take no clone from anyone. -/
theorem Tracked.run_wakers {s : Memory n m U V} (h : Tracked poll s) {q : List (Task U)}
    (hq : s.left = some q) {t : ThreadId n m} {b : State n m U V}
    (hlet : ∀ fs, s.exec.threads t ≠ .dropInner (some n) :: fs) (hs : Step poll s.exec t b) :
    (s.run b).wakers = s.wakers := by
  have hg := h.gone (Option.ne_none_iff_exists'.2 ⟨q, hq⟩)
  obtain ⟨hkeep, hg'⟩ := hg.step hs hlet
  have hqueued : ∀ ch, queued ch b.shared = queued ch s.exec.shared := fun ch => by
    unfold queued
    rw [hkeep.globalQueue, hkeep.locals]
  rw [Memory.run, release_wakers]
  refine prune_eq_self fun w hw => ⟨(h.held w hw).1, fun x hx => ?_⟩
  exact (hg.alive_congr hg' hqueued x).2 ((h.held w hw).2 x hx)

theorem released_step {s s' : Memory n m U V} {l : ThreadId n m × Option Act} (h : Tracked poll s)
    (hP : s.Released) (hs : WakerStep poll s l s') : s'.Released ↔ s.Reclaims l := by
  have h' := tracked_step h hs
  have hbefore : s'.left = none → s'.Released := fun hl q hq => by
    rw [hl] at hq
    cases hq
  cases hs with
  | @run t b hlet hs =>
    refine iff_of_true ?_ fun ⟨fs, hfs⟩ => absurd hfs (hlet fs)
    cases hl : s.left with
    | none => exact hbefore ((release_left _).trans hl)
    | some q =>
      have hwakers := h.run_wakers hl hlet hs
      rw [h'.released_iff ((release_left _).trans hl), hwakers, Memory.run, release_leaked]
      exact (h.released_iff hl).1 hP
  | @letGo t fs hfs =>
    rw [h'.released_iff (release_left _), Memory.letGo, release_wakers, release_leaked]
    exact ⟨fun hr _ => hr, fun hr => hr ⟨fs, hfs⟩⟩
  | @act t a ha =>
    cases hl : s.left with
    | none =>
      refine iff_of_true (hbefore ((release_left _).trans hl)) fun q hq => ?_
      rw [hl] at hq
      cases hq
    | some q =>
      rw [h'.released_iff ((release_left _).trans hl), Memory.act, release_wakers, release_leaked]
      unfold Memory.Reclaims
      rw [hl]
      simp

/-- **Shutdown releases the queue in exactly the runs whose steps keep it reclaimable.** -/
theorem released_iff_reclaims (poll : U → Burst U V) (ls : List (ThreadId n m × Option Act))
    (s : Memory n m U V) :
    Run (WakerStep poll) (fun a _ => a.Released) (Memory.init n m U V) ls s ∧ s.Released ↔
      Run (WakerStep poll) Memory.Reclaims (Memory.init n m U V) ls s :=
  Run.states_iff (R := Tracked poll) (fun _ _ hr => tracked_run hr) nofun
    fun _ _ _ ha hP hs => released_step ha hP hs

/-- A reference to the queue that nobody outside can give up. -/
def Memory.Stuck (s : Memory n m U V) : Prop :=
  0 < s.leaked ∨ ∃ w ∈ s.wakers, .outside ∉ w.holders

/-- A clone that only queued tasks hold stays with them. -/
theorem Act.mem_clones {s : Memory n m U V} {t : ThreadId n m} {a : Act} (hg : Gone s.exec)
    (ha : a.Allowed s t) {w : WakerData} (hw : w ∈ s.wakers) (hout : .outside ∉ w.holders) :
    w ∈ a.clones s.wakers := by
  have hne : ∀ {w' : WakerData}, (∃ x ∈ w'.holders, x.Runs s.exec t) → w ≠ w' := by
    rintro w' ⟨x, hx, hruns⟩ rfl
    cases x with
    | outside => exact hout hx
    | task ch => exact hg.not_runs t ch hruns
  cases a with
  | clone w' => exact List.mem_cons_of_mem _ hw
  | hand w' holders =>
    have hmem : w ∈ s.wakers.erase w' := (List.mem_erase_of_ne (hne ha.2.1)).2 hw
    simp only [Act.clones]
    split
    · exact hmem
    · exact List.mem_cons_of_mem _ hmem
  | wake w' => exact (List.mem_erase_of_ne (hne ha.2)).2 hw

theorem stuck_step {s s' : Memory n m U V} {l : ThreadId n m × Option Act} (h : Tracked poll s)
    {q : List (Task U)} (hq : s.left = some q) (hstuck : s.Stuck) (hs : WakerStep poll s l s') :
    s'.left = some q ∧ s'.Stuck := by
  cases hs with
  | @run t b hlet hs =>
    refine ⟨(release_left _).trans hq, ?_⟩
    unfold Memory.Stuck
    rw [h.run_wakers hq hlet hs, Memory.run, release_leaked]
    exact hstuck
  | @letGo t fs hfs =>
    unfold Memory.Stuck Memory.letGo
    rw [release_wakers, release_leaked, release_left]
    refine ⟨?_, hstuck⟩
    rcases h.after q hq with ⟨-, hwhole⟩ | he
    · exact congrArg some hwhole.globalQueue
    · rcases hstuck with hk | ⟨w, hw, -⟩
      · exact absurd he.leaked hk.ne'
      · rw [he.wakers] at hw
        cases hw
  | @act t a ha =>
    refine ⟨(release_left _).trans hq, ?_⟩
    unfold Memory.Stuck Memory.act
    rw [release_wakers, release_leaked]
    rcases hstuck with hk | ⟨w, hw, hout⟩
    · exact Or.inl (Nat.add_pos_left hk _)
    · have hg := h.gone (Option.ne_none_iff_exists'.2 ⟨q, hq⟩)
      exact Or.inr ⟨w, Act.mem_clones hg ha hw hout, hout⟩

/-- **Otherwise the tasks left in the queue are never destroyed.** -/
theorem stuck_forever {ls ms : List (ThreadId n m × Option Act)} {s s' : Memory n m U V}
    {q : List (Task U)} (h : Run (WakerStep poll) always (Memory.init n m U V) ls s)
    (hq : s.left = some q) (hstuck : s.Stuck) (hr : Run (WakerStep poll) always s ms s') :
    Whole s'.exec q := by
  have hinv : Tracked poll s' ∧ s'.left = some q ∧ s'.Stuck := by
    refine hr.invariant (P := fun a => Tracked poll a ∧ a.left = some q ∧ a.Stuck)
      ⟨tracked_run h, hq, hstuck⟩ fun a l b ha _ hs => ?_
    exact ⟨tracked_step ha.1 hs, stuck_step ha.1 ha.2.1 ha.2.2 hs⟩
  rcases hinv.1.after q hinv.2.1 with ⟨-, hwhole⟩ | he
  · exact hwhole
  · rcases hinv.2.2 with hk | ⟨w, hw, -⟩
    · exact absurd he.leaked hk.ne'
    · rw [he.wakers] at hw
      cases hw

/-! ## Futures that keep no clones -/

theorem step_of_wakerStep {s s' : Memory n m U V} {t : ThreadId n m} (h : Tracked poll s)
    (hw : s.wakers = []) (hk : s.leaked = 0) (hs : WakerStep poll s (t, none) s') :
    Step poll s.exec t s'.exec ∧ s'.wakers = [] ∧ s'.leaked = 0 := by
  cases hs with
  | @run _ b hlet hs =>
    have hprune : prune b s.wakers = [] := by
      rw [hw]
      rfl
    refine ⟨?_, (release_wakers _).trans hprune, (release_leaked _).trans hk⟩
    have hexec : (s.run b).exec = b := by
      cases hl : s.left with
      | none =>
        have hkept : s.run b = { s with exec := b, wakers := prune b s.wakers } :=
          release_eq (fun hn => absurd hl hn) (Or.inl hl)
        rw [hkept]
      | some q =>
        -- the queue is gone already
        have hempty : b.shared.globalQueue = [] := by
          have hg := h.gone (Option.ne_none_iff_exists'.2 ⟨q, hl⟩)
          rcases h.after q hl with ⟨hpos, -⟩ | he
          · rw [hw, hk] at hpos
            exact absurd hpos (Nat.lt_irrefl 0)
          · exact ((hg.step hs hlet).1.globalQueue).trans he.globalQueue
        unfold Memory.run Memory.release
        split
        · simp only [destroy_nil _ hempty]
        · rfl
    rw [hexec]
    exact hs
  | @letGo _ fs hfs =>
    refine ⟨?_, (release_wakers _).trans hw, (release_leaked _).trans hk⟩
    have hg : Gone s.exec := by
      by_cases hl : s.left = none
      · exact gone_of_letGo (h.before hl) hfs
      · exact h.gone hl
    have hrefs : Memory.references (n := n) { s with
        exec := ⟨s.exec.shared, update s.exec.threads t fs⟩
        left := some s.exec.shared.globalQueue } = 0 := by
      rw [references_of_gone (hg.pop hfs) (Option.some_ne_none _), hw, hk]
      rfl
    unfold Memory.letGo Memory.release
    rw [if_pos hrefs]
    refine Step.mk ?_ fun hpos hzero => absurd hzero hpos.ne'
    rw [hfs]
    exact ThreadStep.dropQueue fs

/-- **When no future keeps a clone of a waker, the executor is as in `Step`**, where the last
step of `ExecutorInner::drop` destroys the queue. -/
theorem reachable_exec {ls : List (ThreadId n m × Option Act)} {s : Memory n m U V}
    (h : Run (WakerStep poll) (fun _ l => l.2 = none) (Memory.init n m U V) ls s) :
    Reachable poll always s.exec := by
  have hinv : s.wakers = [] ∧ s.leaked = 0 ∧ Reachable poll always s.exec := by
    refine h.invariant_with
      (P := fun s => s.wakers = [] ∧ s.leaked = 0 ∧ Reachable poll always s.exec)
      (R := Tracked poll) (fun _ _ hr => tracked_run hr) ⟨rfl, rfl, [], Run.nil⟩ ?_
    rintro a ⟨t, o⟩ b ha ⟨hw, hk, ts, hr⟩ hnone hs
    obtain rfl : o = none := hnone
    obtain ⟨hstep, hw', hk'⟩ := step_of_wakerStep ha hw hk hs
    exact ⟨hw', hk', _, hr.snoc trivial hstep⟩
  exact hinv.2.2

/-! ## A task that keeps its own waker -/

namespace Memory

/-- One step of thread `t`, or an act of code on it. -/
def next (poll : U → Burst U V) (s : Memory n m U V) (t : ThreadId n m) (c : Choice U V) :
    Option Act → Option (Memory n m U V)
  | some a => if a.Allowed s t then some (s.act a) else none
  | none =>
    match s.exec.threads t with
    | .dropInner (some j) :: fs =>
      if j = n then some (s.letGo t fs) else (s.exec.exec poll t c).map s.run
    | _ => (s.exec.exec poll t c).map s.run

theorem next_sound {s s' : Memory n m U V} {t : ThreadId n m} {c : Choice U V} {o : Option Act}
    (h : s.next poll t c o = some s') : WakerStep poll s (t, o) s' := by
  unfold next at h
  split at h
  · split at h <;> cases h
    next ha => exact WakerStep.act ha
  · split at h
    · next j fs hfs =>
      split at h
      · next hj =>
        cases h
        subst hj
        exact WakerStep.letGo hfs
      · next hj =>
        obtain ⟨b, hb, rfl⟩ := Option.map_eq_some_iff.1 h
        refine WakerStep.run (fun fs' hfs' => hj ?_) (State.exec_step hb)
        rw [hfs] at hfs'
        cases hfs'
        rfl
    · next hno =>
      obtain ⟨b, hb, rfl⟩ := Option.map_eq_some_iff.1 h
      exact WakerStep.run (fun fs hfs => hno n fs hfs) (State.exec_step hb)

def nextAll (poll : U → Burst U V) :
    Memory n m U V → List (ThreadId n m × Choice U V × Option Act) → Option (Memory n m U V)
  | s, [] => some s
  | s, (t, c, o) :: cs => (s.next poll t c o).bind fun s' => s'.nextAll poll cs

theorem nextAll_run {s s' : Memory n m U V} {cs : List (ThreadId n m × Choice U V × Option Act)}
    (h : s.nextAll poll cs = some s') : ∃ ls, Run (WakerStep poll) always s ls s' := by
  induction cs generalizing s with
  | nil =>
    cases h
    exact ⟨[], Run.nil⟩
  | cons tc cs ih =>
    obtain ⟨s₁, h1, h2⟩ := Option.bind_eq_some_iff.1 h
    obtain ⟨ls, hr⟩ := ih h2
    exact ⟨_, Run.cons trivial (next_sound h1) hr⟩

/-- A schedule that ends in a state with `P` shows a run to such a state. -/
theorem run_of_nextAll (poll : U → Burst U V) {P : Memory n m U V → Prop} [DecidablePred P]
    (cs : List (ThreadId n m × Choice U V × Option Act))
    (h : ((init n m U V).nextAll poll cs).any (fun s => P s) = true) :
    ∃ ls s, Run (WakerStep poll) always (init n m U V) ls s ∧ P s := by
  rw [Option.any_eq_true] at h
  obtain ⟨s, hs, hP⟩ := h
  obtain ⟨ls, hr⟩ := nextAll_run hs
  exact ⟨ls, s, hr, of_decide_eq_true hP⟩

end Memory

/-- Thread `t` moves `k` times with the same answer. -/
def moves (t : ThreadId n m) (k : Nat) (c : Choice U V) :
    List (ThreadId n m × Choice U V × Option Act) :=
  List.replicate k (t, c, none)

/-- A task clones its waker in its first poll and is back in the queue when the last `Runtime`
is dropped. -/
theorem not_released : ¬ ∀ (ls : List (ThreadId 1 1 × Option Act)) (s : Memory 1 1 Sample Nat),
    Run (WakerStep Sample.burst) always (Memory.init 1 1 Sample Nat) ls s → s.Released := by
  intro h
  obtain ⟨ls, s, hr, hleft, w, hw, hout⟩ := Memory.run_of_nextAll Sample.burst
    (P := fun s : Memory 1 1 Sample Nat => s.left.isSome ∧ ∃ w ∈ s.wakers, .outside ∉ w.holders)
    (moves (.inr 0) 1 (.code (.spawn (.yield 5) fun _ => .dropRuntime (.ready 0))) ++
      moves (.inr 0) 2 (.answer 0) ++ moves (.inl 0) 3 (.steal (.batch 0)) ++
      [(.inl 0, .answer 0, some (.clone ⟨1, [.task 0]⟩))] ++ moves (.inr 0) 2 (.answer 0) ++
      moves (.inl 0) 4 (.answer 0) ++ moves (.inr 0) 2 (.answer 0)) (by decide)
  obtain ⟨q, hq⟩ := Option.isSome_iff_exists.1 hleft
  exact hout ((h ls s hr q hq).1 w hw)

end Luminal.Std
