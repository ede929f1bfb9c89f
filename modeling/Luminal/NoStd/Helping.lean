import Luminal.NoStd.Exec
import Luminal.NoStd.Conservation
import Luminal.NoStd.Nesting
import Mathlib.Tactic.IntervalCases

/-!
# Nested calls of `block_on` return

As long as `block_on` is not called on the handle of a task on the stack, the innermost
`block_on` can go on (`Nest.exists_useful`): the task it waits for is queued or has finished.
The rank of `inevitable_returned` is what is left of the scripts, then the number of
handles that are waited for, then the place in the queue of a task that can go on.

Without the condition there is a deadlock although nobody waits in a circle
(`not_nested_block_on`).
-/

namespace Luminal.NoStd

open Function Transition Relation

variable {V : Type} {cap : Option Nat}

/-! ## The loop -/

/-- A task that a poll brings forward. -/
def useful (results : Nat → ResultQueue V) (t : Task (Job V)) : Bool :=
  match t.future with
  | .wrapped _ (.task _) => true
  | .wrapped _ (.join h) => !(results h).items.isEmpty
  | .completed => false

/-- **The innermost `block_on` can go on.**  It waits for a task that is not below it, and nothing
is above it. -/
theorem Nest.exists_useful {m : Nat} {ls : List (Level V)} {sh : Shared (Job V) V}
    (h : Nest m ls (ls.map Level.ch) sh) (hi : (sh.results (waited m ls)).items = []) :
    ∃ t ∈ sh.globalQueue, useful sh.results t = true := by
  -- a task that is not given to `block_on` is a script
  have hscript : ∀ t ∈ sh.globalQueue, ∀ d, t.ch? = some d →
      d = m ∨ (sh.results d).holder = .handle → useful sh.results t = true := by
    intro t ht d hd hor
    obtain ⟨ch, u, hf, -⟩ := h.queued t ht
    rw [Task.ch?, hf] at hd
    cases hd
    unfold useful
    rw [hf]
    cases u with
    | task s => rfl
    | join e =>
      obtain ⟨h1, h2, -⟩ := h.joins t ht _ e hf
      rcases hor with hm | hh
      · exact absurd hm h1
      · rw [h2] at hh
        cases hh
  cases ls with
  | nil =>
    rcases h.root.2.2 with hm | ⟨t, ht, hd⟩ | hp
    · exact absurd hi hm
    · exact ⟨t, ht, hscript t ht m hd (Or.inl rfl)⟩
    · cases hp
  | cons l ls =>
    obtain ⟨t, ht, hf⟩ := h.levels.1.pending.resolve_left fun hne => hne hi
    obtain ⟨-, -, hhandle⟩ := h.joins t ht _ _ hf
    rcases h.held l.h hhandle with hv | ⟨t', ht', hd⟩ | hp
    · refine ⟨t, ht, ?_⟩
      unfold useful
      rw [hf]
      simp [hv]
    · exact ⟨t', ht', hscript t' ht' _ hd (Or.inr hhandle)⟩
    · exact absurd hp h.levels.1.above

section Loop

variable {m ch : Nat} {k₀ : Option V → Burst (Job V) V} {ls : List (Level V)} {pc : BlockOnPc}
  {id : TaskId} {job : Job V} {s : State (Job V) V}

/-- Between two polls of the innermost `block_on`. -/
structure AtLoop (m : Nat) (k₀ : Option V → Burst (Job V) V) (ls : List (Level V)) (pc : BlockOnPc)
    (s : State (Job V) V) : Prop where
  stack : s.stack = stackOf m k₀ ls pc
  nest : Nest m ls (ls.map Level.ch) s.shared

theorem stackOf_eq (m : Nat) (k₀ : Option V → Burst (Job V) V) (ls : List (Level V)) :
    ∃ fs, ∀ pc, stackOf m k₀ ls pc = .blockOn (waited m ls) pc :: fs := by
  cases ls with
  | nil => exact ⟨_, fun pc => rfl⟩
  | cons l ls => exact ⟨_, fun pc => rfl⟩

/-- **A script that is polled** runs to its end or to its next call of `block_on`. -/
theorem inevitable_script (s : Script V) {sh : Shared (Job V) V}
    (h : Nest m ls (ch :: ls.map Level.ch) sh) :
    Inevitable (Step cap Job.poll) (fun a => a.Sound cap ∧ a.Clear)
      (fun a => ∃ ls' pc', AtLoop m k₀ ls' pc' a ∧
        Shrinks (left ls' a.shared.globalQueue) (.inl s ::ₘ left ls sh.globalQueue))
      ⟨sh, .user (some ⟨id, .wrapped ch job⟩) (.run s.burst) :: stackOf m k₀ ls pc⟩ := by
  induction s generalizing sh with
  | done v =>
    obtain ⟨fs, hfs⟩ := stackOf_eq m k₀ ls
    rw [hfs]
    exact inevitable_ready (.now ⟨ls, pc, ⟨(hfs pc).symm, h.finish⟩, Shrinks.remove _ _⟩)
  | work k ih =>
    refine inevitable_outside fun x => (ih x h).mono ?_
    rintro a ⟨ls', pc', ha, hlt⟩
    exact ⟨ls', pc', ha, hlt.trans (Shrinks.replace (.work k x) _)⟩
  | spawn child k _ ih =>
    refine .of_ok fun hok => inevitable_spawn ?_
    have hroom : Room cap sh.globalQueue := hok.1.room ⟨_, _, _, rfl, Or.inl ⟨_, _, rfl⟩⟩
    have h' : Nest m ls (ch :: ls.map Level.ch) (sh.spawn cap (.task child) .handle) :=
      h.push hroom nofun nofun
    refine (ih sh.spawned h').mono ?_
    rintro a ⟨ls', pc', ha, hlt⟩
    refine ⟨ls', pc', ha, hlt.trans ?_⟩
    rw [Shared.spawn_queue hroom, left_append, left_task]
    exact Shrinks.split (.spawn child k sh.spawned) (.child child k) _
  | blockOn d k _ =>
    refine .of_ok fun hok => inevitable_blockOn ?_
    have hroom : Room cap sh.globalQueue := hok.1.room ⟨_, _, _, rfl, Or.inr (Or.inl ⟨_, _, rfl⟩)⟩
    have hblocks : State.Blocks ⟨sh, .user (some ⟨id, .wrapped ch job⟩)
        (.run (Script.blockOn d k).burst) :: stackOf m k₀ ls pc⟩ (some ⟨id, .wrapped ch job⟩) d :=
      ⟨_, _, rfl⟩
    have hclear : d ∉ ch :: ls.map Level.ch := by
      rw [← onStack_stackOf m k₀ ls pc]
      exact hok.2 _ _ hblocks
    have h' := h.block id job k pc hroom (hok.1.has _ _ hblocks) hclear
    refine .now ⟨_, _, ⟨rfl, h'⟩, ?_⟩
    rw [Shared.spawn_queue hroom, left_append, left_join, left_level]
    exact Shrinks.replace (.wait d k) _

/-- The rank of a state: what is left of the scripts, how many handles are queued, and then how
far it is to the check if the result is there, to a useful poll if not. -/
def Standing (m : Nat) (k₀ : Option V → Burst (Job V) V)
    (x : Multiset (Rest V) × Nat × Nat × Nat) (s : State (Job V) V) : Prop :=
  ∃ ls pc, AtLoop m k₀ ls pc s ∧ x.1 = left ls s.shared.globalQueue ∧
    x.2.1 = (s.shared.globalQueue.filterMap joined).length ∧
    (((s.shared.results (waited m ls)).items ≠ [] ∧ x.2.2 = (0, pc.toCheck)) ∨
      (s.shared.results (waited m ls)).items = [] ∧ (∃ t, s.shared.globalQueue[x.2.2.1]? = some t ∧
        useful s.shared.results t = true) ∧ x.2.2.2 = pc.toPoll)

theorem AtLoop.standing (h : AtLoop m k₀ ls pc s) : ∃ y, Standing m k₀
    (left ls s.shared.globalQueue, (s.shared.globalQueue.filterMap joined).length, y) s := by
  by_cases hi : (s.shared.results (waited m ls)).items = []
  · obtain ⟨t, ht, hu⟩ := h.nest.exists_useful hi
    obtain ⟨j, hj⟩ := List.getElem?_of_mem ht
    exact ⟨(j, pc.toPoll), ls, pc, h, rfl, rfl, Or.inr ⟨hi, ⟨t, hj, hu⟩, rfl⟩⟩
  · exact ⟨(0, pc.toCheck), ls, pc, h, rfl, rfl, Or.inl ⟨hi, rfl⟩⟩

/-- A state of smaller rank. -/
abbrev Lower (x y : Multiset (Rest V) × Nat × Nat × Nat) : Prop :=
  Prod.Lex Shrinks (Prod.Lex (· < ·) (Prod.Lex (· < ·) (· < ·))) x y

theorem lower_wf : WellFounded (Lower (V := V)) :=
  Rest.less_wf.cutExpand.transGen.prod_lex
    (wellFounded_lt.prod_lex (wellFounded_lt.prod_lex wellFounded_lt))

/-- The outermost `block_on` has returned. -/
def Returned (k₀ : Option V → Burst (Job V) V) (s : State (Job V) V) : Prop :=
  ∃ v, s.stack = [.user none (.run (k₀ (some v)))]

/-- The result is there, and the innermost `block_on` returns it. -/
theorem inevitable_resume {sh : Shared (Job V) V} (h : Nest m ls (ls.map Level.ch) sh)
    (hi : (sh.results (waited m ls)).items ≠ []) :
    Inevitable (Step cap Job.poll) (fun a => a.Sound cap ∧ a.Clear)
      (fun b => Returned k₀ b ∨ ∃ y, (∀ z, Lower y (left ls sh.globalQueue, z)) ∧ Standing m k₀ y b)
      ⟨sh, stackOf m k₀ ls .check⟩ := by
  obtain ⟨v, q, hv⟩ := List.exists_cons_of_ne_nil hi
  cases ls with
  | nil => exact inevitable_return hv (.now (Or.inl ⟨v, rfl⟩))
  | cons l ls =>
    refine inevitable_return hv ?_
    have hscript : Inevitable (Step cap Job.poll) (fun a => a.Sound cap ∧ a.Clear) _
        ⟨sh.take l.c, .user (some ⟨l.id, .wrapped l.ch l.job⟩) (.run (l.k v).burst) ::
          stackOf m k₀ ls l.pc⟩ := inevitable_script (l.k v) (h.return hi)
    refine hscript.mono ?_
    rintro b ⟨ls', pc', hb, hlt⟩
    obtain ⟨y, hy⟩ := hb.standing
    refine Or.inr ⟨_, fun z => .left _ _ (hlt.trans ?_), hy⟩
    have hqueue : (sh.take l.c).globalQueue = sh.globalQueue := Shared.pollHandle_queue sh l.c
    rw [hqueue, left_level]
    exact Shrinks.replace (.resume l.k v) _

/-- A handle at the front that has no result yet goes to the back. -/
theorem inevitable_unfinished {sh : Shared (Job V) V} {d i : Nat} {q : List (Task (Job V))}
    {Q : State (Job V) V → Prop} (h : Nest m ls (ls.map Level.ch) sh) (hi : i < 10)
    (hq : sh.globalQueue = ⟨id, .wrapped ch (.join d)⟩ :: q) (hd : (sh.results d).items = [])
    (hQ : ∀ log, Q ⟨{ sh with
      globalQueue := q ++ [⟨id, .wrapped ch (.join d)⟩]
      log := log }, stackOf m k₀ ls (.poll (i + 1))⟩) :
    Inevitable (Step cap Job.poll) (fun a => a.Sound cap ∧ a.Clear) Q
      ⟨sh, stackOf m k₀ ls (.poll i)⟩ := by
  obtain ⟨fs, hfs⟩ := stackOf_eq m k₀ ls
  obtain ⟨-, -, hhandle⟩ := h.joins _ (hq ▸ List.mem_cons_self) ch d rfl
  have hnil : (sh.popped ch q).pollHandle d = (none, sh.popped ch q) := Shared.pollHandle_nil hd
  rw [hfs]
  refine inevitable_pop hi hq (inevitable_pollHandle hhandle ?_)
  rw [hnil]
  refine .of_ok fun hok => inevitable_pending (.now ?_)
  have hroom : Room cap q := hok.1.room ⟨_, _, _, rfl, Or.inr (Or.inr ⟨rfl, _, rfl⟩)⟩
  obtain ⟨log, hlog⟩ : ∃ log, (sh.popped ch q).requeue cap id ch (.join d) =
      { sh with globalQueue := q ++ [⟨id, .wrapped ch (.join d)⟩], log := log } :=
    Shared.requeue_popped hroom id (Job.join d)
  rw [← hfs]
  simp only [hlog]
  exact hQ log

/-- A handle at the front that has its result is done. -/
theorem inevitable_finished {sh : Shared (Job V) V} {d i : Nat} {q : List (Task (Job V))}
    (h : Nest m ls (ls.map Level.ch) sh) (hi : i < 10)
    (hq : sh.globalQueue = ⟨id, .wrapped ch (.join d)⟩ :: q) (hd : (sh.results d).items ≠ []) :
    Inevitable (Step cap Job.poll) (fun a => a.Sound cap ∧ a.Clear)
      (fun b => AtLoop m k₀ ls (.poll (i + 1)) b ∧ b.shared.globalQueue = q)
      ⟨sh, stackOf m k₀ ls (.poll i)⟩ := by
  obtain ⟨fs, hfs⟩ := stackOf_eq m k₀ ls
  obtain ⟨v, vs, hv⟩ := List.exists_cons_of_ne_nil hd
  obtain ⟨-, -, hhandle⟩ := h.joins _ (hq ▸ List.mem_cons_self) ch d rfl
  rw [hfs]
  refine inevitable_pop hi hq (inevitable_pollHandle hhandle ?_)
  have hpopped : ((sh.popped ch q).results d).items = v :: vs := hv
  have hyield := Shared.pollHandle_cons hpopped
  have hkept : (((sh.popped ch q).pollHandle d).2.results d).holder = .handle := by
    rw [hyield]
    simpa [Shared.popped] using hhandle
  have hvalue : ((sh.popped ch q).pollHandle d).1 = some v := by rw [hyield]
  rw [hvalue]
  refine inevitable_dropHandle hkept (inevitable_ready (.now ⟨⟨(hfs _).symm, ?_⟩, ?_⟩))
  · exact h.join hq ⟨rfl, rfl, rfl⟩
  · exact Shared.pollHandle_queue (sh.popped ch q) d

/-- **The outermost `block_on` returns.** -/
theorem inevitable_returned (h : AtLoop m k₀ ls pc s) :
    Inevitable (Step cap Job.poll) (fun a => a.Sound cap ∧ a.Clear) (Returned k₀) s := by
  obtain ⟨y, hy⟩ := h.standing
  refine .of_rank lower_wf ?_ hy
  rintro ⟨x, w, j, d⟩ ⟨sh, stack⟩ ⟨ls, pc, h, hx, hw, hor⟩
  obtain rfl : stack = stackOf m k₀ ls pc := h.stack
  simp only at hx hw hor
  subst hx hw
  obtain ⟨fs, hfs⟩ := stackOf_eq m k₀ ls
  cases pc with
  | check =>
    rcases hor with ⟨hi, -⟩ | ⟨hi, hu, hd⟩
    · refine (inevitable_resume h.nest hi).mono ?_
      rintro b (hb | ⟨y, hlt, hy⟩)
      · exact Or.inl hb
      · exact Or.inr ⟨y, hlt _, hy⟩
    · have hnext : Standing m k₀ (left ls sh.globalQueue, (sh.globalQueue.filterMap joined).length,
          j, 0) ⟨sh, stackOf m k₀ ls (.poll 0)⟩ :=
        ⟨ls, .poll 0, ⟨rfl, h.nest⟩, rfl, rfl, Or.inr ⟨hi, hu, rfl⟩⟩
      rw [hfs] at hnext ⊢
      refine inevitable_retry hi (.now (Or.inr ⟨_, ?_, hnext⟩))
      rw [hd]
      exact .right _ (.right _ (.right _ Nat.one_pos))
  | poll i =>
    by_cases hi : i < 10 ∧ sh.globalQueue ≠ []
    · obtain ⟨t, q, hq⟩ := List.exists_cons_of_ne_nil hi.2
      obtain ⟨c, u, hf, -⟩ := h.nest.queued t (hq ▸ List.mem_cons_self)
      obtain ⟨id, f⟩ := t
      simp only at hf
      subst hf
      cases u with
      | task s =>
        rw [hfs]
        refine inevitable_pop hi.1 hq ?_
        rw [← hfs]
        refine (inevitable_script s (h.nest.pop hq)).mono ?_
        rintro b ⟨ls', pc', hb, hlt⟩
        obtain ⟨y, hy⟩ := hb.standing
        refine Or.inr ⟨_, .left _ _ ?_, hy⟩
        rw [hq, left_task]
        exact hlt
      | join e =>
        by_cases he : (sh.results e).items = []
        · refine inevitable_unfinished h.nest hi.1 hq he fun log => Or.inr ?_
          have hleft : left ls (q ++ [⟨id, .wrapped c (.join e)⟩]) = left ls sh.globalQueue := by
            rw [left_append, hq]
          have hlen : (List.filterMap joined (q ++ [⟨id, .wrapped c (.join e)⟩])).length =
              (sh.globalQueue.filterMap joined).length := by
            rw [hq]
            exact ((List.perm_append_singleton _ q).filterMap joined).length_eq
          rcases hor with ⟨hne, hjd⟩ | ⟨hempty, ⟨t, ht, hu⟩, hd⟩
          · refine ⟨(_, _, 0, (BlockOnPc.poll (i + 1)).toCheck), ?_, ls, .poll (i + 1),
              ⟨rfl, h.nest.rotate hq⟩, hleft.symm, hlen.symm, Or.inl ⟨hne, rfl⟩⟩
            rw [hjd]
            refine .right _ (.right _ (.right _ ?_))
            have hlt := hi.1
            show 10 - (i + 1) + 1 < 10 - i + 1
            omega
          · cases j with
            | zero =>
              -- the useful task was at the front
              rw [hq] at ht
              cases ht
              unfold useful at hu
              simp [he] at hu
            | succ j =>
              rw [hq, List.getElem?_cons_succ] at ht
              refine ⟨(_, _, j, (BlockOnPc.poll (i + 1)).toPoll),
                .right _ (.right _ (.left _ _ (Nat.lt_succ_self j))),
                ls, .poll (i + 1), ⟨rfl, h.nest.rotate hq⟩, hleft.symm, hlen.symm,
                Or.inr ⟨hempty, ⟨t, ?_, hu⟩, rfl⟩⟩
              simp only
              rw [List.getElem?_append_left (List.getElem?_eq_some_iff.1 ht).1]
              exact ht
        · refine (inevitable_finished h.nest hi.1 hq he).mono ?_
          rintro b ⟨hb, hbq⟩
          obtain ⟨y, hy⟩ := hb.standing
          rw [hbq] at hy
          refine Or.inr ⟨_, ?_, hy⟩
          rw [hq, left_join]
          exact .right _ (.left _ _ (Nat.lt_succ_self _))
    · rw [hfs]
      refine inevitable_endBatch (fun hlt => by_contra fun hne => hi ⟨hlt, hne⟩) (.now (Or.inr ?_))
      rw [← hfs]
      rcases hor with ⟨hne, hjd⟩ | ⟨hempty, ⟨t, ht, hu⟩, hd⟩
      · refine ⟨(_, _, 0, BlockOnPc.check.toCheck), ?_, ls, .check, ⟨rfl, h.nest⟩, rfl, rfl,
          Or.inl ⟨hne, rfl⟩⟩
        rw [hjd]
        exact .right _ (.right _ (.right _ (Nat.succ_pos _)))
      · refine ⟨(_, _, j, BlockOnPc.check.toPoll), ?_, ls, .check, ⟨rfl, h.nest⟩, rfl, rfl,
          Or.inr ⟨hempty, ⟨t, ht, hu⟩, rfl⟩⟩
        have hten : ¬ i < 10 := by
          intro hlt
          refine hi ⟨hlt, ?_⟩
          rintro hnil
          rw [hnil] at ht
          cases ht
        have htwo : (BlockOnPc.poll i).toPoll = 2 := if_neg hten
        rw [hd, htwo]
        exact .right _ (.right _ (.right _ Nat.one_lt_two))

end Loop

/-! ## The call -/

/-- The queue holds scripts that have not been polled yet. -/
structure Unstarted (sh : Shared (Job V) V) : Prop where
  fresh : ∀ d, sh.spawned ≤ d → (sh.results d).holder = .dropped
  scripts : ∀ t ∈ sh.globalQueue, ∃ ch s, t.future = .wrapped ch (.task s) ∧ ch < sh.spawned
  distinct : (sh.globalQueue.filterMap Task.ch?).Nodup
  held : ∀ d, (sh.results d).holder ≠ .dropped → Live sh [] d

theorem Unstarted.nest {sh : Shared (Job V) V} {m : Nat} (h : Unstarted sh) (hm : m < sh.spawned)
    (hholder : (sh.results m).holder = .blockOn) : Nest m [] [] sh := by
  refine ⟨h.fresh, fun t ht => ?_, h.distinct, nofun, fun t ht ch d hf => ?_, ?_,
    fun d hd => h.held d (hd ▸ nofun), ⟨hm, hholder, h.held m (hholder ▸ nofun)⟩, trivial⟩
  · obtain ⟨ch, s, hf, hlt⟩ := h.scripts t ht
    exact ⟨ch, _, hf, hlt⟩
  · obtain ⟨c, s, hf', -⟩ := h.scripts t ht
    rw [hf] at hf'
    cases hf'
  · have hnil : sh.globalQueue.filterMap joined = [] := by
      refine List.filterMap_eq_nil_iff.2 fun t ht => ?_
      obtain ⟨c, s, hf, -⟩ := h.scripts t ht
      rw [joined, hf]
    rw [hnil]
    exact List.nodup_nil

theorem Unstarted.spawn {sh : Shared (Job V) V} (h : Unstarted sh) (hroom : Room cap sh.globalQueue)
    (s : Script V) (holder : Holder) : Unstarted (sh.spawn cap (.task s) holder) := by
  have hq := Shared.spawn_queue hroom (.task s) holder
  have hold : ∀ d, d ≠ sh.spawned → (sh.spawn cap (.task s) holder).results d = sh.results d :=
    fun d hd => update_of_ne hd _ _
  refine ⟨fun d hd => ?_, fun t ht => ?_, ?_, fun d hd => ?_⟩
  · have hd' : sh.spawned + 1 ≤ d := hd
    rw [hold d (by omega)]
    exact h.fresh d (by omega)
  · rw [hq, List.mem_append, List.mem_singleton] at ht
    rcases ht with ht | rfl
    · obtain ⟨c, w, hf, hlt⟩ := h.scripts t ht
      exact ⟨c, w, hf, Nat.lt_succ_of_lt hlt⟩
    · exact ⟨_, _, rfl, Nat.lt_succ_self _⟩
  · rw [hq, List.filterMap_append, List.filterMap_cons_some (f := Task.ch?) (b := sh.spawned) rfl,
      List.filterMap_nil, List.nodup_append]
    refine ⟨h.distinct, List.nodup_singleton _, ?_⟩
    rintro x hx y hy rfl
    rw [List.mem_singleton.1 hy] at hx
    obtain ⟨t, ht, hch⟩ := List.mem_filterMap.1 hx
    obtain ⟨c, w, hf, hlt⟩ := h.scripts t ht
    rw [Task.ch?, hf] at hch
    cases hch
    exact Nat.lt_irrefl _ hlt
  · by_cases hd' : d = sh.spawned
    · subst hd'
      exact Or.inr (Or.inl ⟨_, hq ▸ List.mem_append_right _ List.mem_cons_self, rfl⟩)
    · rw [hold d hd'] at hd
      rcases h.held d hd with hi | ⟨t, ht, hch⟩ | hp
      · rw [← hold d hd'] at hi
        exact Or.inl hi
      · exact Or.inr (Or.inl ⟨t, hq ▸ List.mem_append_left _ ht, hch⟩)
      · cases hp

theorem inevitable_launch {main : Script V} {k₀ : Option V → Burst (Job V) V} (ss : List (Script V))
    {sh : Shared (Job V) V} (h : Unstarted sh) :
    Inevitable (Step cap Job.poll) (fun a => a.Sound cap ∧ a.Clear) (Returned k₀)
      ⟨sh, [.user none (.run (launch main k₀ ss))]⟩ := by
  induction ss generalizing sh with
  | nil =>
    refine .of_ok fun hok => inevitable_blockOn ?_
    have hroom : Room cap sh.globalQueue := hok.1.room ⟨_, _, _, rfl, Or.inr (Or.inl ⟨_, _, rfl⟩)⟩
    have hnest : Nest sh.spawned [] [] (sh.spawn cap (.task main) .blockOn) := by
      refine (h.spawn hroom main .blockOn).nest (Nat.lt_succ_self _) ?_
      simp [Shared.spawn]
    have hloop : AtLoop sh.spawned k₀ [] (.poll 0) ⟨sh.spawn cap (.task main) .blockOn,
        [.blockOn sh.spawned (.poll 0), .user none (.wait k₀)]⟩ := ⟨rfl, hnest⟩
    exact inevitable_returned hloop
  | cons s ss ih =>
    refine .of_ok fun hok => inevitable_spawn ?_
    have hroom : Room cap sh.globalQueue := hok.1.room ⟨_, _, _, rfl, Or.inl ⟨_, _, rfl⟩⟩
    exact ih (h.spawn hroom s .handle)

/-- **Nested calls of `block_on` do not deadlock, as long as none is on the handle of a task on the
stack.**  Exactly in these runs no innermost `block_on` waits for a task that is suspended
below it; and from every state of such a run the outermost `block_on` returns, in every way to go
on that keeps to the condition. -/
theorem nested_block_on (main : Script V) (k₀ : Option V → Burst (Job V) V) (ss : List (Script V)) :
    (∀ as s, Run (Step cap Job.poll) (fun a _ => a.Sound cap ∧ ¬ a.WaitsBelow)
      (start main k₀ ss) as s ∧
        ¬ s.WaitsBelow ↔
      Run (Step cap Job.poll) (fun a _ => a.Sound cap ∧ a.Clear) (start main k₀ ss) as s) ∧
    ∀ as s, Run (Step cap Job.poll) (fun a _ => (a.Sound cap ∧ a.Clear) ∧ ¬ Returned k₀ a)
        (start main k₀ ss) as s →
      Inevitable (Step cap Job.poll) (fun a => a.Sound cap ∧ a.Clear) (Returned k₀) s := by
  refine ⟨fun as s => waitsBelow_iff as s, fun as s hr => ?_⟩
  have hnew : Unstarted (SimpleExecutor.new (Job V) V) :=
    ⟨fun _ _ => rfl, nofun, List.nodup_nil, fun d hd => absurd rfl hd⟩
  exact (inevitable_launch ss hnew).along hr

/-- Block on a task that was spawned just before. -/
def Sample.worker : Script Nat := .spawn (.done 1) fun h => .blockOn h .done

/-- A worker that blocks on its own sub-task returns. -/
theorem nested_block_on_worker :
    Inevitable (Step SimpleExecutor.capacity Job.poll)
      (fun a => a.Sound SimpleExecutor.capacity ∧ a.Clear)
      (fun s => ∃ v, s.stack = [.user none (.run (.ready v))])
      (start Sample.worker (fun r => .ready (r.getD 0)) []) := by
  refine ((nested_block_on Sample.worker _ []).2 [] _ Run.nil).mono ?_
  rintro s ⟨v, hs⟩
  exact ⟨_, hs⟩

/-! ## A deadlock -/

namespace Sample

/-- Spawn a worker and a task that blocks on it, and block on the latter. -/
def crossing : Script Nat :=
  .spawn worker fun a => .spawn (.blockOn a .done) fun b => .blockOn b .done

def crossingStart : State (Job Nat) Nat := start crossing (fun r => .ready (r.getD 0)) []

/-- The first `i` steps of `crossing`. -/
def trace : Nat → Option (State (Job Nat) Nat)
  | 0 => some crossingStart
  | i + 1 => (trace i).bind fun s => s.next SimpleExecutor.capacity Job.poll (.value 0)

/-- What is below the innermost `block_on` then. -/
def below : List (Frame (Job Nat) Nat) := (trace 10).elim [] fun s => s.stack.tail

/-- The tasks that are queued from then on: three handles, and the worker's sub-task. -/
inductive Idle : Nat → Job Nat → Prop
  | crossing : Idle 3 (.join 2)
  | subtask : Idle 4 (.task (.done 1))
  | worker : Idle 5 (.join 4)
  | other : Idle 6 (.join 1)

/-- What their polls do. -/
inductive Polling : Nat → Burst (Job Nat) Nat → Prop
  | poll {ch h : Nat} : Idle ch (.join h) →
      Polling ch (.pollHandle h fun r => r.elim (.pending (.join h)) fun v =>
        .dropHandle h (.ready v))
  | pending {ch h : Nat} : Idle ch (.join h) → Polling ch (.pending (.join h))
  | drop {v : Nat} : Polling 5 (.dropHandle 4 (.ready v))
  | ready {ch v : Nat} : ch = 4 ∨ ch = 5 → Polling ch (.ready v)

theorem Idle.poll {ch : Nat} {u : Job Nat} (h : Idle ch u) : Polling ch u.poll := by
  cases h with
  | crossing => exact .poll .crossing
  | subtask => exact .ready (Or.inl rfl)
  | worker => exact .poll .worker
  | other => exact .poll .other

/-- Nothing that the innermost `block_on` waits for can come any more. -/
structure Dead (sh : Shared (Job Nat) Nat) : Prop where
  unfinished : ∀ d, d = 1 ∨ d = 2 ∨ d = 6 → (sh.results d).items = []
  idle : ∀ t ∈ sh.globalQueue, ∃ id ch u, t = ⟨id, .wrapped ch u⟩ ∧ Idle ch u

inductive Stuck : State (Job Nat) Nat → Prop
  | loop {sh : Shared (Job Nat) Nat} {pc : BlockOnPc} : Dead sh → Stuck ⟨sh, .blockOn 6 pc :: below⟩
  | polling {sh : Shared (Job Nat) Nat} {pc : BlockOnPc} {id : TaskId} {ch : Nat} {u : Job Nat}
      {b : Burst (Job Nat) Nat} : Dead sh → Polling ch b →
      Stuck ⟨sh, .user (some ⟨id, .wrapped ch u⟩) (.run b) :: .blockOn 6 pc :: below⟩

theorem Dead.results {sh sh' : Shared (Job Nat) Nat} (h : Dead sh)
    (hres : ∀ d, (sh.results d).items = [] → d ≠ 4 → d ≠ 5 → (sh'.results d).items = [])
    (hq : sh'.globalQueue = sh.globalQueue) : Dead sh' where
  unfinished d hd := hres d (h.unfinished d hd) (by omega) (by omega)
  idle := hq ▸ h.idle

theorem Stuck.step {s s' : State (Job Nat) Nat} {a : Answer (Job Nat) Nat} (h : Stuck s)
    (hs : Step SimpleExecutor.capacity Job.poll s a s') : Stuck s' := by
  cases h with
  | @loop sh pc h =>
    cases hs with
    | pop _ id ch u q _ i _ _ hi hq =>
      obtain ⟨id', ch', u', heq, hidle⟩ := h.idle _ (hq ▸ List.mem_cons_self)
      cases heq
      refine .polling ⟨h.unfinished, fun t ht => h.idle t ?_⟩ hidle.poll
      exact hq ▸ List.mem_cons_of_mem _ ht
    | popCompleted _ id q _ i _ _ hi hq =>
      obtain ⟨id', ch', u', heq, -⟩ := h.idle _ (hq ▸ List.mem_cons_self)
      cases heq
    | endBatch => exact .loop h
    | retry => exact .loop h
    | «return» _ _ v q task k fs _ hv =>
      rw [h.unfinished 6 (by omega)] at hv
      cases hv
  | @polling sh pc id ch u b h hb =>
    cases hb with
    | @poll ch d hidle =>
      cases hs
      cases hd : (sh.results d).items with
      | nil =>
        rw [Shared.pollHandle_nil hd]
        exact .polling h (.pending hidle)
      | cons v q =>
        -- only the worker's sub-task has finished
        have hunfinished := h.unfinished
        have hdead : Dead (sh.pollHandle d).2 := by
          refine h.results (fun e he _ _ => ?_) (Shared.pollHandle_queue sh d)
          rcases eq_or_ne e d with rfl | hne
          · rw [he] at hd
            cases hd
          · rw [Shared.pollHandle_of_ne hne]
            exact he
        have hvalue : (sh.pollHandle d).1 = some v := by rw [Shared.pollHandle_cons hd]
        rw [hvalue]
        cases hidle with
        | crossing =>
          rw [hunfinished 2 (by omega)] at hd
          cases hd
        | worker => exact .polling hdead .drop
        | other =>
          rw [hunfinished 1 (by omega)] at hd
          cases hd
    | @pending ch d hidle =>
      cases hs
      refine .loop ⟨h.unfinished, fun t ht => ?_⟩
      rcases mem_pushBack ht with ht | rfl
      · exact h.idle t ht
      · exact ⟨_, _, _, rfl, hidle⟩
    | drop =>
      cases hs
      refine .polling (h.results (fun d hd _ _ => ?_) rfl) (.ready (Or.inr rfl))
      rw [Shared.dropHandle_items]
      exact hd
    | @ready ch v hch =>
      cases hs
      refine .loop (h.results (fun d hd h4 h5 => ?_) rfl)
      have hne : d ≠ ch := by omega
      by_contra hcon
      exact (Shared.finish_items sh ch d v).1 hcon |>.elim (fun h => h hd) hne

theorem trace_next (i : Nat) (hi : i < 10) : ∀ s ∈ trace i, ∀ a,
    s.next SimpleExecutor.capacity Job.poll a = trace (i + 1) := by
  intro s hs a
  interval_cases i <;> cases hs <;> rfl

theorem trace_stuck : ∀ s ∈ trace 10, Stuck s := by
  intro s hs
  cases hs
  refine .loop ⟨?_, ?_⟩
  · rintro d (rfl | rfl | rfl) <;> rfl
  · have hq : ∀ t ∈ [(⟨4, .wrapped 3 (.join 2)⟩ : Task (Job Nat)),
      ⟨5, .wrapped 4 (.task (.done 1))⟩,
        ⟨6, .wrapped 5 (.join 4)⟩, ⟨7, .wrapped 6 (.join 1)⟩],
        ∃ id ch u, t = ⟨id, .wrapped ch u⟩ ∧ Idle ch u := by
      simp only [List.forall_mem_cons]
      exact ⟨⟨_, _, _, rfl, .crossing⟩, ⟨_, _, _, rfl, .subtask⟩, ⟨_, _, _, rfl, .worker⟩,
        ⟨_, _, _, rfl, .other⟩, nofun⟩
    exact hq

/-- Every state that `crossing` reaches. -/
theorem seen {as : List (Answer (Job Nat) Nat)} {s : State (Job Nat) Nat}
    {G : State (Job Nat) Nat → Answer (Job Nat) Nat → Prop}
    (h : Run (Step SimpleExecutor.capacity Job.poll) G crossingStart as s) :
    (∃ i < 10, trace i = some s) ∨ Stuck s := by
  refine h.invariant (P := fun s => (∃ i < 10, trace i = some s) ∨ Stuck s)
    (Or.inl ⟨0, by omega, rfl⟩) fun a l b ha _ hs => ?_
  rcases ha with ⟨i, hi, ha⟩ | ha
  · have hb : trace (i + 1) = some b := (trace_next i hi a ha l).symm.trans (next_of_step hs)
    by_cases hlast : i + 1 < 10
    · exact Or.inl ⟨i + 1, hlast, hb⟩
    · obtain rfl : i = 9 := by omega
      exact Or.inr (trace_stuck b hb)
  · exact Or.inr (ha.step hs)

/-- The call of `block_on` on a handle that a task is about to make. -/
def call? (s : State (Job Nat) Nat) : Option (Nat × Nat) :=
  match s.stack with
  | .user (some task) (.run (.blockOn (.join h) _)) :: _ => task.ch?.map fun a => (a, h)
  | _ => none

theorem call?_of_calls {s : State (Job Nat) Nat} {a b : Nat} (h : s.Calls a b) :
    call? s = some (a, b) := by
  obtain ⟨task, ⟨k, fs, hs⟩, hch⟩ := h
  unfold call?
  rw [hs]
  simp [hch]

/-- The main task waits for the second task, that one for the worker, and the worker for its
sub-task. -/
theorem trace_calls (i : Nat) (hi : i < 10) : ∀ s ∈ trace i, ∀ a b, call? s = some (a, b) →
    (a, b) = (0, 2) ∨ (a, b) = (2, 1) ∨ (a, b) = (1, 4) := by
  intro s hs a b h
  interval_cases i <;> cases hs <;> cases h
  · exact Or.inl rfl
  · exact Or.inr (Or.inr rfl)
  · exact Or.inr (Or.inl rfl)

theorem Stuck.not_calls {s : State (Job Nat) Nat} (h : Stuck s) (a b : Nat) : ¬ s.Calls a b := by
  rintro ⟨task, ⟨k, fs, hs⟩, -⟩
  cases h with
  | loop => cases hs
  | polling hd hb =>
    cases hb <;> cases hs

/-- The order in which the tasks of `crossing` wait for each other. -/
def order : Nat → Nat
  | 0 => 3
  | 2 => 2
  | 1 => 1
  | _ => 0

/-- Nobody in `crossing` waits in a circle. -/
theorem waitsFor_order {a b : Nat} (h : WaitsFor SimpleExecutor.capacity crossingStart a b) :
    order b < order a := by
  obtain ⟨as, s, hr, -, hcalls⟩ := h
  rcases seen hr with ⟨i, hi, ht⟩ | hs
  · rcases trace_calls i hi s ht a b (call?_of_calls hcalls) with h | h | h <;> cases h <;> decide
  · exact absurd hcalls (hs.not_calls a b)

/-- The handles that queued tasks wait for. -/
def joined (q : List (Task (Job Nat))) : List Nat :=
  q.filterMap fun t => match t.future with
    | .wrapped _ (.join h) => some h
    | _ => none

theorem mem_joined {q : List (Task (Job Nat))} {t : Task (Job Nat)} {ch h : Nat} (ht : t ∈ q)
    (hf : t.future = .wrapped ch (.join h)) : h ∈ joined q := by
  refine List.mem_filterMap.2 ⟨t, ht, ?_⟩
  rw [hf]

theorem trace_sound (i : Nat) (hi : i < 10) : ∀ s ∈ trace i, s.Sound SimpleExecutor.capacity := by
  intro s hs
  refine ⟨fun _ => ?_, ?_⟩
  · interval_cases i <;> cases hs <;> exact of_decide_eq_true rfl
  · rintro task h ⟨k, fs, hb⟩
    interval_cases i <;> cases hs <;> cases hb
    all_goals
      refine ⟨rfl, fun t ht ch hf => ?_⟩
      exact absurd (mem_joined ht hf) (of_decide_eq_true rfl)

/-- The first `i` steps are a run in which no handle is used twice. -/
theorem trace_run (i : Nat) (hi : i ≤ 10) : ∃ as, ∃ s ∈ trace i,
    Run (Step SimpleExecutor.capacity Job.poll) (fun a _ => a.Sound SimpleExecutor.capacity)
      crossingStart as s := by
  induction i with
  | zero => exact ⟨[], crossingStart, rfl, .nil⟩
  | succ i ih =>
    obtain ⟨as, s, hs, hr⟩ := ih (by omega)
    have hnext := trace_next i hi s hs (.value 0)
    have hlt : i < 10 := hi
    have hsome : (trace (i + 1)).isSome := by
      interval_cases i <;> rfl
    obtain ⟨s', hs'⟩ := Option.isSome_iff_exists.1 hsome
    exact ⟨_, s', hs', hr.snoc (trace_sound i hi s hs) (step_of_next (hnext.trans hs'))⟩

end Sample

/-- Tasks that do not wait in a circle can deadlock: a worker calls `block_on` on its sub-task, the
helping loop polls a task that blocks on the worker. -/
theorem not_nested_block_on :
    ¬ ∀ (main : Script Nat) (k₀ : Option Nat → Burst (Job Nat) Nat) (ss : List (Script Nat)),
      (∀ a, ¬ TransGen (WaitsFor SimpleExecutor.capacity (start main k₀ ss)) a a) →
      ∀ as s, Run (Step SimpleExecutor.capacity Job.poll)
        (fun a _ => a.Sound SimpleExecutor.capacity) (start main k₀ ss) as s → ¬ s.WaitsBelow := by
  intro h
  have hacyclic : ∀ a, ¬ TransGen (WaitsFor SimpleExecutor.capacity Sample.crossingStart) a a := by
    intro a ha
    have hlt : ∀ b, TransGen (WaitsFor SimpleExecutor.capacity Sample.crossingStart) a b →
        Sample.order b < Sample.order a := by
      intro b hb
      induction hb with
      | single h => exact Sample.waitsFor_order h
      | tail _ h ih => exact (Sample.waitsFor_order h).trans ih
    exact Nat.lt_irrefl _ (hlt a ha)
  obtain ⟨as, s, hs, hr⟩ := Sample.trace_run 10 le_rfl
  refine h _ _ _ hacyclic as s hr ?_
  cases hs
  have hlog : .spawned 6 (.join 1) ∈ (Sample.trace 10).elim [] fun s => s.shared.log :=
    List.mem_of_getElem? (i := 9) rfl
  exact ⟨6, Sample.below, 1, rfl, hlog, of_decide_eq_true rfl⟩

end Luminal.NoStd
