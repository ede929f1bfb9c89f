import Luminal.NoStd.Jobs
import Luminal.NoStd.Loop
import Mathlib.Logic.Hydra
import Mathlib.Tactic.Abel

/-!
# The stack of nested calls

`Nest` is the invariant of a thread with nested calls of `block_on`, none of them on the handle of
a task on the stack: each call has its result or its handle is queued, and a handle in
use has its result or its task is queued or on the stack.  There is one lemma for each
thing that can happen.

What is left of the scripts is a multiset in the order of `Relation.CutExpand`: a script that acts
is replaced by what is left of it and by the script it spawns.
-/

namespace Luminal.NoStd

open Function Transition Relation

variable {V : Type} {cap : Option Nat}

/-! ## What is left of the scripts -/

/-- A script, or what a suspended one does with the result it waits for. -/
abbrev Rest (V : Type) := Script V ⊕ (V → Script V)

inductive Rest.Less : Rest V → Rest V → Prop
  | work (k : Nat → Script V) (x : Nat) : Less (.inl (k x)) (.inl (.work k))
  | child (s : Script V) (k : Nat → Script V) : Less (.inl s) (.inl (.spawn s k))
  | spawn (s : Script V) (k : Nat → Script V) (h : Nat) : Less (.inl (k h)) (.inl (.spawn s k))
  | wait (h : Nat) (k : V → Script V) : Less (.inr k) (.inl (.blockOn h k))
  | resume (k : V → Script V) (v : V) : Less (.inl (k v)) (.inr k)

theorem Rest.less_wf : WellFounded (Rest.Less (V := V)) := by
  have hwait : ∀ k : V → Script V, (∀ v, Acc Rest.Less (.inl (k v))) → Acc Rest.Less (.inr k) := by
    intro k hk
    refine ⟨_, fun y hy => ?_⟩
    cases hy
    exact hk _
  have hscript : ∀ s : Script V, Acc Rest.Less (.inl s) := by
    intro s
    induction s with
    | done v => exact ⟨_, fun y hy => nomatch hy⟩
    | work k ih =>
      refine ⟨_, fun y hy => ?_⟩
      cases hy
      exact ih _
    | spawn s k ihs ihk =>
      refine ⟨_, fun y hy => ?_⟩
      cases hy with
      | child => exact ihs
      | spawn _ _ h => exact ihk h
    | blockOn h k ih =>
      refine ⟨_, fun y hy => ?_⟩
      cases hy
      exact hwait k ih
  refine ⟨fun x => ?_⟩
  cases x with
  | inl s => exact hscript s
  | inr k => exact hwait k fun v => hscript (k v)

/-- One of the scripts does some actions. -/
abbrev Shrinks (x y : Multiset (Rest V)) : Prop := TransGen (CutExpand Rest.Less) x y

theorem Shrinks.replace {x y : Rest V} (h : Rest.Less x y) (rest : Multiset (Rest V)) :
    Shrinks (x ::ₘ rest) (y ::ₘ rest) := by
  refine .single ⟨{x}, y, fun z hz => ?_, ?_⟩
  · rw [Multiset.mem_singleton.1 hz]
    exact h
  · rw [← Multiset.singleton_add, ← Multiset.singleton_add]
    abel

theorem Shrinks.remove (x : Rest V) (rest : Multiset (Rest V)) : Shrinks rest (x ::ₘ rest) := by
  refine .single ⟨0, x, nofun, ?_⟩
  rw [← Multiset.singleton_add]
  abel

theorem Shrinks.split {x y z : Rest V} (hx : Rest.Less x z) (hy : Rest.Less y z)
    (rest : Multiset (Rest V)) : Shrinks (x ::ₘ y ::ₘ rest) (z ::ₘ rest) := by
  refine .single ⟨{x, y}, z, fun w hw => ?_, ?_⟩
  · rw [Multiset.insert_eq_cons, Multiset.mem_cons, Multiset.mem_singleton] at hw
    rcases hw with rfl | rfl
    · exact hx
    · exact hy
  · rw [Multiset.insert_eq_cons]
    simp only [← Multiset.singleton_add]
    abel

/-! ## The stack of nested calls -/

/-- A `block_on` that a task called on a handle, and the task. -/
structure Level (V : Type) where
  /-- the spawn it waits for -/
  c : Nat
  /-- the handle it was given -/
  h : Nat
  /-- the suspended task, and where the loop that polls it is -/
  id : TaskId
  ch : Nat
  job : Job V
  k : V → Script V
  pc : BlockOnPc

def resume (k : V → Script V) : Option V → Burst (Job V) V :=
  fun r => r.elim .panic fun v => (k v).burst

/-- The stack of a thread that blocks on spawn `m`, with nested calls `ls`, innermost first. -/
def stackOf (m : Nat) (k₀ : Option V → Burst (Job V) V) :
    List (Level V) → BlockOnPc → List (Frame (Job V) V)
  | [], pc => [.blockOn m pc, .user none (.wait k₀)]
  | l :: ls, pc =>
    .blockOn l.c pc :: .user (some ⟨l.id, .wrapped l.ch l.job⟩) (.wait (resume l.k)) ::
      stackOf m k₀ ls l.pc

/-- What the innermost `block_on` waits for. -/
def waited (m : Nat) : List (Level V) → Nat
  | [] => m
  | l :: _ => l.c

theorem onStack_stackOf (m : Nat) (k₀ : Option V → Burst (Job V) V) (ls : List (Level V))
    (pc : BlockOnPc) : onStack (stackOf m k₀ ls pc) = ls.map Level.ch := by
  induction ls generalizing pc with
  | nil => rfl
  | cons l ls ih =>
    rw [List.map_cons, ← ih l.pc]
    rfl

/-- The handle a queued task waits for, if it is one given to `block_on`. -/
def joined (t : Task (Job V)) : Option Nat :=
  match t.future with
  | .wrapped _ (.join h) => some h
  | _ => none

def script (t : Task (Job V)) : Option (Rest V) :=
  match t.future with
  | .wrapped _ (.task s) => some (.inl s)
  | _ => none

/-- What is left of the scripts that are queued or suspended. -/
def left (ls : List (Level V)) (q : List (Task (Job V))) : Multiset (Rest V) :=
  ↑(ls.map fun l => (.inr l.k : Rest V)) + ↑(q.filterMap script)

section Left

variable {ls : List (Level V)} {q : List (Task (Job V))} {id : TaskId} {ch : Nat}

theorem left_level (l : Level V) : left (l :: ls) q = .inr l.k ::ₘ left ls q := by
  unfold left
  rw [List.map_cons, ← Multiset.cons_coe, Multiset.cons_add]

theorem left_task (s : Script V) :
    left ls (⟨id, .wrapped ch (.task s)⟩ :: q) = .inl s ::ₘ left ls q := by
  unfold left
  rw [List.filterMap_cons_some (f := script) (b := .inl s) rfl, ← Multiset.cons_coe,
    Multiset.add_cons]

theorem left_join (h : Nat) : left ls (⟨id, .wrapped ch (.join h)⟩ :: q) = left ls q := by
  unfold left
  rw [List.filterMap_cons_none rfl]

theorem left_append (t : Task (Job V)) : left ls (q ++ [t]) = left ls (t :: q) := by
  unfold left
  rw [Multiset.coe_eq_coe.2 ((List.perm_append_singleton t q).filterMap script)]

end Left

/-! ## The invariant -/

/-- Spawn `d` has a result, or its task is queued or being polled. -/
def Live (sh : Shared (Job V) V) (polled : List Nat) (d : Nat) : Prop :=
  (sh.results d).items ≠ [] ∨ (∃ t ∈ sh.globalQueue, t.ch? = some d) ∨ d ∈ polled

/-- A nested `block_on` has its result or its handle is queued, and it does not wait for its own
caller or for a task further down. -/
structure LevelOk (m : Nat) (sh : Shared (Job V) V) (l : Level V)
    (below : List (Level V)) : Prop where
  holder : (sh.results l.c).holder = .blockOn
  lt : l.c < sh.spawned
  root : m < l.c
  newer : ∀ l' ∈ below, l'.c < l.c
  pending : (sh.results l.c).items ≠ [] ∨
    ∃ t ∈ sh.globalQueue, t.future = .wrapped l.c (.join l.h)
  above : l.h ∉ (l :: below).map Level.ch

def LevelsOk (m : Nat) (sh : Shared (Job V) V) : List (Level V) → Prop
  | [] => True
  | l :: ls => LevelOk m sh l ls ∧ LevelsOk m sh ls

/-- The thread blocks on spawn `m`, with nested calls `ls`; `polled` are the tasks being polled. -/
structure Nest (m : Nat) (ls : List (Level V)) (polled : List Nat)
    (sh : Shared (Job V) V) : Prop where
  fresh : ∀ d, sh.spawned ≤ d → (sh.results d).holder = .dropped
  queued : ∀ t ∈ sh.globalQueue, ∃ ch u, t.future = .wrapped ch u ∧ ch < sh.spawned
  distinct : (polled ++ sh.globalQueue.filterMap Task.ch?).Nodup
  bound : ∀ d ∈ polled, d < sh.spawned
  joins : ∀ t ∈ sh.globalQueue, ∀ ch h, t.future = .wrapped ch (.join h) →
    ch ≠ m ∧ sh.results ch = ⟨[], .blockOn⟩ ∧ (sh.results h).holder = .handle
  once : (sh.globalQueue.filterMap joined).Nodup
  held : ∀ d, (sh.results d).holder = .handle → Live sh polled d
  root : m < sh.spawned ∧ (sh.results m).holder = .blockOn ∧ Live sh polled m
  levels : LevelsOk m sh ls

section Invariant

variable {m : Nat} {ls : List (Level V)} {polled : List Nat} {sh sh' : Shared (Job V) V}
  {id : TaskId} {ch : Nat} {q : List (Task (Job V))}

theorem LevelsOk.mono (h : LevelsOk m sh ls) (hlt : sh.spawned ≤ sh'.spawned)
    (hholder : ∀ l ∈ ls, (sh'.results l.c).holder = (sh.results l.c).holder)
    (hpending : ∀ l ∈ ls, ((sh.results l.c).items ≠ [] ∨
        ∃ t ∈ sh.globalQueue, t.future = .wrapped l.c (.join l.h)) →
      (sh'.results l.c).items ≠ [] ∨ ∃ t ∈ sh'.globalQueue, t.future = .wrapped l.c (.join l.h)) :
    LevelsOk m sh' ls := by
  induction ls with
  | nil => trivial
  | cons l ls ih =>
    rw [List.forall_mem_cons] at hholder hpending
    refine ⟨?_, ih h.2 hholder.2 hpending.2⟩
    exact ⟨hholder.1.trans h.1.holder, h.1.lt.trans_le hlt, h.1.root, h.1.newer,
      hpending.1 h.1.pending, h.1.above⟩

theorem LevelsOk.lt (h : LevelsOk m sh ls) : ∀ l ∈ ls, l.c < sh.spawned := by
  induction ls with
  | nil => nofun
  | cons l ls ih => exact List.forall_mem_cons.2 ⟨h.1.lt, ih h.2⟩

theorem LevelsOk.holder (h : LevelsOk m sh ls) : ∀ l ∈ ls, (sh.results l.c).holder = .blockOn := by
  induction ls with
  | nil => nofun
  | cons l ls ih => exact List.forall_mem_cons.2 ⟨h.1.holder, ih h.2⟩

/-- The front script leaves the queue and is polled. -/
theorem Nest.pop {s : Script V} (h : Nest m ls polled sh)
    (hq : sh.globalQueue = ⟨id, .wrapped ch (.task s)⟩ :: q) :
    Nest m ls (ch :: polled) (sh.popped ch q) := by
  have hsub : ∀ t ∈ q, t ∈ sh.globalQueue := fun t ht => hq ▸ List.mem_cons_of_mem _ ht
  have hlive : ∀ d, Live sh polled d → Live (sh.popped ch q) (ch :: polled) d := by
    rintro d (hi | ⟨t, ht, hd⟩ | hd)
    · exact Or.inl hi
    · rw [hq, List.mem_cons] at ht
      rcases ht with rfl | ht
      · cases hd
        exact Or.inr (Or.inr List.mem_cons_self)
      · exact Or.inr (Or.inl ⟨t, ht, hd⟩)
    · exact Or.inr (Or.inr (List.mem_cons_of_mem _ hd))
  have honce := h.once
  rw [hq, List.filterMap_cons_none rfl] at honce
  have hdistinct := h.distinct
  rw [hq, List.filterMap_cons_some (f := Task.ch?) (b := ch) rfl, List.nodup_middle] at hdistinct
  have hlt : ch < sh.spawned := by
    obtain ⟨c, u, hf, hlt⟩ := h.queued _ (hq ▸ List.mem_cons_self)
    cases hf
    exact hlt
  refine ⟨h.fresh, fun t ht => h.queued t (hsub t ht), hdistinct,
    List.forall_mem_cons.2 ⟨hlt, h.bound⟩, fun t ht => h.joins t (hsub t ht), honce,
    fun d hd => hlive d (h.held d hd), ⟨h.root.1, h.root.2.1, hlive m h.root.2.2⟩, ?_⟩
  refine h.levels.mono le_rfl (fun _ _ => rfl) fun l _ hl => ?_
  rcases hl with hi | ⟨t, ht, hf⟩
  · exact Or.inl hi
  · rw [hq, List.mem_cons] at ht
    rcases ht with rfl | ht
    · cases hf
    · exact Or.inr ⟨t, ht, hf⟩

/-- A spawn that finds room. -/
theorem Nest.push {u : Job V} {holder : Holder} (h : Nest m ls polled sh)
    (hroom : Room cap sh.globalQueue) (hholder : holder ≠ .dropped)
    (hjoin : ∀ d, u = .join d → holder = .blockOn ∧ (sh.results d).holder = .handle ∧
      d ∉ sh.globalQueue.filterMap joined) : Nest m ls polled (sh.spawn cap u holder) := by
  have hq := Shared.spawn_queue hroom u holder
  have hold : ∀ d, d < sh.spawned → (sh.spawn cap u holder).results d = sh.results d :=
    fun d hd => update_of_ne hd.ne _ _
  have hhandle : ∀ d, (sh.results d).holder = .handle → d < sh.spawned := by
    intro d hd
    by_contra hge
    rw [h.fresh d (Nat.le_of_not_lt hge)] at hd
    cases hd
  have hlive : ∀ d, d < sh.spawned → Live sh polled d → Live (sh.spawn cap u holder) polled d := by
    rintro d hlt (hi | ⟨t, ht, hd⟩ | hd)
    · rw [← hold d hlt] at hi
      exact Or.inl hi
    · exact Or.inr (Or.inl ⟨t, hq ▸ List.mem_append_left _ ht, hd⟩)
    · exact Or.inr (Or.inr hd)
  have hqueued : ∀ d ∈ sh.globalQueue.filterMap Task.ch?, d < sh.spawned := by
    intro d hd
    obtain ⟨t, ht, hch⟩ := List.mem_filterMap.1 hd
    obtain ⟨c, w, hf, hlt⟩ := h.queued t ht
    rw [Task.ch?, hf] at hch
    cases hch
    exact hlt
  refine ⟨fun d hd => ?_, fun t ht => ?_, ?_, fun d hd => Nat.lt_succ_of_lt (h.bound d hd),
    fun t ht c d hf => ?_, ?_, fun d hd => ?_, ?_, ?_⟩
  · have hd' : sh.spawned + 1 ≤ d := hd
    refine Eq.trans (congrArg _ (update_of_ne ?_ _ _)) (h.fresh d (by omega))
    omega
  · rw [hq, List.mem_append, List.mem_singleton] at ht
    rcases ht with ht | rfl
    · obtain ⟨c, w, hf, hlt⟩ := h.queued t ht
      exact ⟨c, w, hf, Nat.lt_succ_of_lt hlt⟩
    · exact ⟨_, _, rfl, Nat.lt_succ_self _⟩
  · rw [hq, List.filterMap_append, List.filterMap_cons_some (f := Task.ch?) (b := sh.spawned) rfl,
      List.filterMap_nil, ← List.append_assoc, List.nodup_append]
    refine ⟨h.distinct, List.nodup_singleton _, ?_⟩
    rintro x hx y hy rfl
    rw [List.mem_singleton.1 hy, List.mem_append] at hx
    rcases hx with hx | hx
    · exact Nat.lt_irrefl _ (h.bound _ hx)
    · exact Nat.lt_irrefl _ (hqueued _ hx)
  · rw [hq, List.mem_append, List.mem_singleton] at ht
    rcases ht with ht | rfl
    · obtain ⟨h1, h2, h3⟩ := h.joins t ht c d hf
      obtain ⟨c', w, hf', hlt⟩ := h.queued t ht
      rw [hf] at hf'
      cases hf'
      rw [hold c hlt, hold d (hhandle d h3)]
      exact ⟨h1, h2, h3⟩
    · cases hf
      obtain ⟨rfl, h2, -⟩ := hjoin d rfl
      refine ⟨h.root.1.ne', update_self _ _ _, ?_⟩
      · rw [hold d (hhandle d h2)]
        exact h2
  · rw [hq, List.filterMap_append]
    cases u with
    | task s =>
      rw [List.filterMap_cons_none rfl, List.filterMap_nil, List.append_nil]
      exact h.once
    | join d =>
      rw [List.filterMap_cons_some (f := joined) (b := d) rfl, List.filterMap_nil,
        List.nodup_append]
      refine ⟨h.once, List.nodup_singleton d, ?_⟩
      rintro x hx y hy rfl
      rw [List.mem_singleton.1 hy] at hx
      exact (hjoin d rfl).2.2 hx
  · rcases lt_trichotomy d sh.spawned with hlt | rfl | hgt
    · rw [hold d hlt] at hd
      exact hlive d hlt (h.held d hd)
    · refine Or.inr (Or.inl ⟨_, hq ▸ List.mem_append_right _ List.mem_cons_self, rfl⟩)
    · have heq : (sh.spawn cap u holder).results d = sh.results d := update_of_ne hgt.ne' _ _
      rw [heq, h.fresh d hgt.le] at hd
      cases hd
  · refine ⟨Nat.lt_succ_of_lt h.root.1, ?_, hlive m h.root.1 h.root.2.2⟩
    rw [hold m h.root.1]
    exact h.root.2.1
  · refine h.levels.mono (Nat.le_succ _) (fun l hl => ?_) fun l hl hp => ?_
    · rw [hold _ (h.levels.lt l hl)]
    · rw [hold _ (h.levels.lt l hl)]
      rcases hp with hi | ⟨t, ht, hf⟩
      · exact Or.inl hi
      · exact Or.inr ⟨t, hq ▸ List.mem_append_left _ ht, hf⟩

/-- The task being polled calls `block_on` on a handle. -/
theorem Nest.block {d : Nat} (h : Nest m ls (ch :: ls.map Level.ch) sh) (id : TaskId) (job : Job V)
    (k : V → Script V) (pc : BlockOnPc) (hroom : Room cap sh.globalQueue)
    (hhas : (sh.results d).holder = .handle ∧
      ∀ t ∈ sh.globalQueue, ∀ c, t.future ≠ .wrapped c (.join d))
    (hclear : d ∉ ch :: ls.map Level.ch) :
    Nest m (⟨sh.spawned, d, id, ch, job, k, pc⟩ :: ls) (ch :: ls.map Level.ch)
      (sh.spawn cap (.join d) .blockOn) := by
  have hq := Shared.spawn_queue hroom (.join d) .blockOn
  have hnot : d ∉ sh.globalQueue.filterMap joined := by
    intro hmem
    obtain ⟨t, ht, hj⟩ := List.mem_filterMap.1 hmem
    unfold joined at hj
    split at hj
    · next c e hf =>
      cases hj
      exact hhas.2 t ht c hf
    · cases hj
  have h' : Nest m ls (ch :: ls.map Level.ch) (sh.spawn cap (.join d) .blockOn) := by
    refine h.push hroom nofun fun e he => ?_
    cases he
    exact ⟨rfl, hhas.1, hnot⟩
  refine { h' with levels := ⟨?_, h'.levels⟩ }
  refine ⟨?_, Nat.lt_succ_self _, h.root.1, fun l hl => h.levels.lt l hl, Or.inr ?_, hclear⟩
  · simp [Shared.spawn]
  · exact ⟨_, hq ▸ List.mem_append_right _ List.mem_cons_self, rfl⟩

/-- The script being polled is done. -/
theorem Nest.finish {v : V} (h : Nest m ls (ch :: polled) sh) :
    Nest m ls polled (sh.finish ch v) := by
  have hdistinct := h.distinct
  rw [List.cons_append, List.nodup_cons] at hdistinct
  have hholder : ∀ d, ((sh.finish ch v).results d).holder = (sh.results d).holder :=
    fun d => Shared.finish_holder sh ch d v
  have hitems : ∀ d, (sh.results d).items ≠ [] ∨ d = ch → ((sh.finish ch v).results d).items ≠ [] :=
    fun d => (Shared.finish_items sh ch d v).2
  have hlive : ∀ d, Live sh (ch :: polled) d → Live (sh.finish ch v) polled d := by
    rintro d (hi | hq | hd)
    · exact Or.inl (hitems d (Or.inl hi))
    · exact Or.inr (Or.inl hq)
    · rcases List.mem_cons.1 hd with rfl | hd
      · exact Or.inl (hitems d (Or.inr rfl))
      · exact Or.inr (Or.inr hd)
  refine ⟨fun d hd => (hholder d).trans (h.fresh d hd), h.queued, hdistinct.2,
    fun d hd => h.bound d (List.mem_cons_of_mem _ hd), fun t ht c d hf => ?_, h.once,
    fun d hd => hlive d (h.held d (hholder d ▸ hd)),
    ⟨h.root.1, (hholder m).trans h.root.2.1, hlive m h.root.2.2⟩, ?_⟩
  · obtain ⟨h1, h2, h3⟩ := h.joins t ht c d hf
    have hne : c ≠ ch := by
      rintro rfl
      refine hdistinct.1 (List.mem_append_right _ (List.mem_filterMap.2 ⟨t, ht, ?_⟩))
      rw [Task.ch?, hf]
    refine ⟨h1, ?_, (hholder d).trans h3⟩
    rw [Shared.finish]
    exact (update_of_ne hne _ _).trans h2
  · refine h.levels.mono le_rfl (fun l _ => hholder l.c) fun l _ hp => ?_
    rcases hp with hi | hq
    · exact Or.inl (hitems _ (Or.inl hi))
    · exact Or.inr hq

/-- The front task goes to the back of the queue. -/
theorem Nest.rotate {t : Task (Job V)} (h : Nest m ls polled sh)
    (hq : sh.globalQueue = t :: q) {log : List (Event (Job V) V)} :
    Nest m ls polled { sh with
      globalQueue := q ++ [t]
      log := log } := by
  have hp : (q ++ [t]).Perm sh.globalQueue := hq ▸ List.perm_append_singleton t q
  have hmem : ∀ {x}, x ∈ q ++ [t] ↔ x ∈ sh.globalQueue := hp.mem_iff
  have hlive : ∀ d, Live sh polled d → Live { sh with
      globalQueue := q ++ [t]
      log := log } polled d := by
    rintro d (hi | ⟨x, hx, hd⟩ | hd)
    · exact Or.inl hi
    · exact Or.inr (Or.inl ⟨x, hmem.2 hx, hd⟩)
    · exact Or.inr (Or.inr hd)
  refine ⟨h.fresh, fun x hx => h.queued x (hmem.1 hx), ?_, h.bound,
    fun x hx => h.joins x (hmem.1 hx), (hp.filterMap joined).nodup_iff.2 h.once,
    fun d hd => hlive d (h.held d hd), ⟨h.root.1, h.root.2.1, hlive m h.root.2.2⟩, ?_⟩
  · exact ((hp.filterMap Task.ch?).append_left polled).nodup_iff.2 h.distinct
  · refine h.levels.mono le_rfl (fun _ _ => rfl) fun l _ hl => ?_
    rcases hl with hi | ⟨x, hx, hf⟩
    · exact Or.inl hi
    · exact Or.inr ⟨x, hmem.2 hx, hf⟩

/-- The innermost nested `block_on` returns. -/
theorem Nest.return {l : Level V} (h : Nest m (l :: ls) polled sh)
    (hi : (sh.results l.c).items ≠ []) : Nest m ls polled (sh.take l.c) := by
  have hl := h.levels.1
  have hne : ∀ {d}, d ≠ l.c → (sh.take l.c).results d = sh.results d := Shared.take_of_ne
  have hspawned : (sh.take l.c).spawned = sh.spawned := Shared.pollHandle_spawned sh l.c
  have hqueue : (sh.take l.c).globalQueue = sh.globalQueue := Shared.pollHandle_queue sh l.c
  have hhandle : ∀ {d}, ((sh.take l.c).results d).holder ≠ .dropped → d ≠ l.c := by
    rintro d hd rfl
    exact hd (Shared.take_holder sh l.c)
  have hlive : ∀ d, d ≠ l.c → Live sh polled d → Live (sh.take l.c) polled d := by
    intro d hd
    unfold Live
    rw [hne hd, hqueue]
    exact fun h => h
  have hm : m ≠ l.c := hl.root.ne
  refine ⟨fun d hd => ?_, ?_, hqueue ▸ h.distinct, hspawned ▸ h.bound, ?_, hqueue ▸ h.once,
    fun d hd => ?_, ?_, ?_⟩
  · have hlt := hl.lt
    rw [hspawned] at hd
    rw [hne (by omega)]
    exact h.fresh d hd
  · rw [hqueue, hspawned]
    exact h.queued
  · intro t ht c d hf
    rw [hqueue] at ht
    obtain ⟨h1, h2, h3⟩ := h.joins t ht c d hf
    have hc : c ≠ l.c := by
      rintro rfl
      rw [h2] at hi
      exact hi rfl
    have hd : d ≠ l.c := by
      rintro rfl
      rw [hl.holder] at h3
      cases h3
    rw [hne hc, hne hd]
    exact ⟨h1, h2, h3⟩
  · have hd' : d ≠ l.c := hhandle (hd ▸ nofun)
    rw [hne hd'] at hd
    exact hlive d hd' (h.held d hd)
  · rw [hspawned, hne hm]
    exact ⟨h.root.1, h.root.2.1, hlive m hm h.root.2.2⟩
  · refine h.levels.2.mono hspawned.ge (fun l' hl' => ?_) fun l' hl' hp => ?_
    · rw [hne (hl.newer l' hl').ne]
    · rw [hne (hl.newer l' hl').ne, hqueue]
      exact hp

/-- A handle at the front yields its result, which ends its task. -/
theorem Nest.join {d : Nat} {v : V} (h : Nest m ls polled sh)
    (hq : sh.globalQueue = ⟨id, .wrapped ch (.join d)⟩ :: q)
    (hsh : sh'.results = sh.results ∧ sh'.spawned = sh.spawned ∧ sh'.globalQueue = q) :
    Nest m ls polled ((sh'.take d).finish ch v) := by
  obtain ⟨hres, hspawned, hqueue⟩ := hsh
  obtain ⟨hchm, hch, hhandle⟩ := h.joins _ (hq ▸ List.mem_cons_self) ch d rfl
  have hsp : ((sh'.take d).finish ch v).spawned = sh.spawned :=
    (Shared.pollHandle_spawned sh' d).trans hspawned
  have hgq : ((sh'.take d).finish ch v).globalQueue = q :=
    (Shared.pollHandle_queue sh' d).trans hqueue
  have hne : ∀ {e}, e ≠ d → (sh'.take d).results e = sh.results e := fun he =>
    (Shared.take_of_ne he).trans (congrFun hres _)
  have hholder : ∀ {e}, e ≠ d →
      (((sh'.take d).finish ch v).results e).holder = (sh.results e).holder := fun he =>
    (Shared.finish_holder _ _ _ v).trans (congrArg _ (hne he))
  have hitems : ∀ {e}, e ≠ d → (sh.results e).items ≠ [] ∨ e = ch →
      (((sh'.take d).finish ch v).results e).items ≠ [] := by
    intro e he hi
    rw [Shared.finish_items, hne he]
    exact hi
  have hdropped : ∀ {e}, (((sh'.take d).finish ch v).results e).holder ≠ .dropped → e ≠ d := by
    rintro e he rfl
    exact he ((Shared.finish_holder _ _ _ v).trans (Shared.take_holder _ _))
  have hblock : ∀ {e}, (sh.results e).holder = .blockOn → e ≠ d := by
    rintro e he rfl
    rw [he] at hhandle
    cases hhandle
  have hsub : ∀ t ∈ q, t ∈ sh.globalQueue := fun t ht => hq ▸ List.mem_cons_of_mem _ ht
  have hlive : ∀ e, e ≠ d → Live sh polled e → Live ((sh'.take d).finish ch v) polled e := by
    rintro e he (hi | ⟨t, ht, hte⟩ | hp)
    · exact Or.inl (hitems he (Or.inl hi))
    · rw [hq, List.mem_cons] at ht
      rcases ht with rfl | ht
      · cases hte
        exact Or.inl (hitems he (Or.inr rfl))
      · exact Or.inr (Or.inl ⟨t, hgq.symm ▸ ht, hte⟩)
    · exact Or.inr (Or.inr hp)
  have honce := h.once
  rw [hq, List.filterMap_cons_some (f := joined) (b := d) rfl, List.nodup_cons] at honce
  have hdistinct := h.distinct
  rw [hq, List.filterMap_cons_some (f := Task.ch?) (b := ch) rfl, List.nodup_middle,
    List.nodup_cons] at hdistinct
  refine ⟨fun e he => ?_, fun t ht => ?_, ?_, fun e he => hsp.symm ▸ h.bound e he,
    fun t ht c e hf => ?_, ?_, fun e he => ?_, ?_, ?_⟩
  · rw [hsp] at he
    rcases eq_or_ne e d with rfl | hed
    · exact (Shared.finish_holder _ _ _ v).trans (Shared.take_holder _ _)
    · exact (hholder hed).trans (h.fresh e he)
  · rw [hsp]
    exact h.queued t (hsub t (hgq ▸ ht))
  · rw [hgq]
    exact hdistinct.2
  · rw [hgq] at ht
    obtain ⟨h1, h2, h3⟩ := h.joins t (hsub t ht) c e hf
    have hcd : c ≠ d := hblock (by rw [h2])
    have hcc : c ≠ ch := by
      rintro rfl
      refine hdistinct.1 (List.mem_append_right _ (List.mem_filterMap.2 ⟨t, ht, ?_⟩))
      rw [Task.ch?, hf]
    have hed : e ≠ d := by
      rintro rfl
      refine honce.1 (List.mem_filterMap.2 ⟨t, ht, ?_⟩)
      rw [joined, hf]
    refine ⟨h1, ?_, (hholder hed).trans h3⟩
    rw [Shared.finish]
    exact (update_of_ne hcc _ _).trans ((hne hcd).trans h2)
  · rw [hgq]
    exact honce.2
  · have hed : e ≠ d := hdropped (by rw [he]; decide)
    rw [hholder hed] at he
    exact hlive e hed (h.held e he)
  · have hmd := hblock h.root.2.1
    rw [hsp, hholder hmd]
    exact ⟨h.root.1, h.root.2.1, hlive m hmd h.root.2.2⟩
  · have hlevel : ∀ l ∈ ls, l.c ≠ d := fun l hl => hblock (h.levels.holder l hl)
    refine h.levels.mono hsp.ge (fun l hl => hholder (hlevel l hl)) fun l hl hp => ?_
    rcases hp with hi | ⟨t, ht, hf⟩
    · exact Or.inl (hitems (hlevel l hl) (Or.inl hi))
    · rw [hq, List.mem_cons] at ht
      rcases ht with rfl | ht
      · cases hf
        exact Or.inl (hitems (hlevel l hl) (Or.inr rfl))
      · exact Or.inr ⟨t, hgq.symm ▸ ht, hf⟩

end Invariant

end Luminal.NoStd
