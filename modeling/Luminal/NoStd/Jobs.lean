import Luminal.NoStd.Executor

/-!
# Tasks that call `block_on` on handles

A `Script` is a task that works, spawns tasks and calls `rt.block_on(handle)`, and never
returns `Pending`.  A call of `block_on` on a handle spawns the handle itself as a task
(`Job.join`) and polls whatever is at the front of the queue on top of the caller.

`WaitsBelow` is the deadlock this can lead to: the innermost `block_on` waits for a task that
is suspended below it.  No state of a run is one exactly if `block_on` is never called on
the handle of a task whose poll is on the stack (`waitsBelow_iff`).
-/

namespace Luminal.NoStd

open Function Transition

inductive Script (V : Type) where
  | done (v : V)
  /-- local work; what comes next may depend on its outcome -/
  | work (k : Nat → Script V)
  | spawn (child : Script V) (k : Nat → Script V)
  /-- `rt.block_on(handle)` -/
  | blockOn (h : Nat) (k : V → Script V)

inductive Job (V : Type) where
  | task (s : Script V)
  /-- a `JoinHandle` that was given to `block_on` -/
  | join (h : Nat)

variable {U V : Type} {cap : Option Nat}

/-- A script runs to its end in one poll. -/
def Script.burst : Script V → Burst (Job V) V
  | .done v => .ready v
  | .work k => .outside fun x => (k x).burst
  | .spawn child k => .spawn (.task child) fun h => (k h).burst
  | .blockOn h k => .blockOn (.join h) fun r => r.elim .panic fun v => (k v).burst

def Job.poll : Job V → Burst (Job V) V
  | .task s => s.burst
  | .join h => .pollHandle h fun r => r.elim (.pending (.join h)) fun v => .dropHandle h (.ready v)

/-- A thread spawns the tasks `ss` and blocks on `main`. -/
def launch (main : Script V) (k : Option V → Burst (Job V) V) : List (Script V) → Burst (Job V) V
  | [] => .blockOn (.task main) k
  | s :: ss => .spawn (.task s) fun _ => launch main k ss

def start (main : Script V) (k : Option V → Burst (Job V) V) (ss : List (Script V)) :
    State (Job V) V := ⟨SimpleExecutor.new _ _, [.user none (.run (launch main k ss))]⟩

/-! ## The stack -/

/-- The spawn whose task is polled in this frame. -/
def Frame.ch? : Frame U V → Option Nat
  | .user task _ => task.bind Task.ch?
  | .blockOn .. => none

/-- The spawns whose tasks are polled on the stack, the suspended ones included. -/
def onStack (fs : List (Frame U V)) : List Nat := fs.filterMap Frame.ch?

/-- The innermost `block_on`: what it waits for and what is below it. -/
def innermost : List (Frame U V) → Option (Nat × List (Frame U V))
  | [] => none
  | .blockOn c _ :: fs => some (c, fs)
  | .user _ _ :: fs => innermost fs

namespace State

/-- The innermost `block_on` was given the handle of a task that is suspended below it. -/
def WaitsBelow (s : State (Job V) V) : Prop :=
  ∃ c fs h, innermost s.stack = some (c, fs) ∧ .spawned c (.join h) ∈ s.shared.log ∧ h ∈ onStack fs

/-- Code is about to call `block_on` on the handle `h`. -/
def Blocks (s : State (Job V) V) (task : Option (Task (Job V))) (h : Nat) : Prop :=
  ∃ k fs, s.stack = .user task (.run (.blockOn (.join h) k)) :: fs

/-- If `block_on` is called on a handle, the task it belongs to is not on the stack. -/
def Clear (s : State (Job V) V) : Prop := ∀ task h, s.Blocks task h → h ∉ onStack s.stack

/-- The code is about to push a task. -/
def Pushes (s : State U V) : Prop :=
  ∃ task b fs, s.stack = .user task (.run b) :: fs ∧
    ((∃ u k, b = .spawn u k) ∨ (∃ u k, b = .blockOn u k) ∨ task.isSome ∧ ∃ u, b = .pending u)

/-- The queue does not overflow, and a handle given to `block_on` is one the caller has: it was
not dropped or given to another `block_on`. -/
structure Sound (cap : Option Nat) (s : State (Job V) V) : Prop where
  room : s.Pushes → Room cap s.shared.globalQueue
  has : ∀ task h, s.Blocks task h → (s.shared.results h).holder = .handle ∧
    ∀ t ∈ s.shared.globalQueue, ∀ ch, t.future ≠ .wrapped ch (.join h)

/-- The task of spawn `a` is about to call `block_on` on the handle of `b`. -/
def Calls (s : State (Job V) V) (a b : Nat) : Prop :=
  ∃ task, s.Blocks (some task) b ∧ task.ch? = some a

end State

/-- In some run without overflow task `a` blocks on the handle of task `b`. -/
def WaitsFor (cap : Option Nat) (s₀ : State (Job V) V) (a b : Nat) : Prop :=
  ∃ as s, Run (Step cap Job.poll) (fun s _ => s.Sound cap) s₀ as s ∧ s.Sound cap ∧ s.Calls a b

/-! ## Nobody waits for what is below -/

/-- No `block_on` on the stack was given the handle of a task below it. -/
def AboveAll (log : List (Event (Job V) V)) : List (Frame (Job V) V) → Prop
  | [] => True
  | .blockOn c _ :: fs => (∀ h, .spawned c (.join h) ∈ log → h ∉ onStack fs) ∧ AboveAll log fs
  | .user _ _ :: fs => AboveAll log fs

section AboveAll

variable {log log' : List (Event (Job V) V)} {fs : List (Frame (Job V) V)}

theorem AboveAll.congr (h : AboveAll log fs)
    (hlog : ∀ c pc d, .blockOn c pc ∈ fs → .spawned c (.join d) ∈ log' →
      .spawned c (.join d) ∈ log) : AboveAll log' fs := by
  induction fs with
  | nil => trivial
  | cons f fs ih =>
    have htail := fun h' => ih h' fun c pc d hmem => hlog c pc d (List.mem_cons_of_mem _ hmem)
    cases f with
    | user task code => exact htail h
    | blockOn c pc => exact ⟨fun d hd => h.1 d (hlog c pc d List.mem_cons_self hd), htail h.2⟩

theorem AboveAll.innermost (h : AboveAll log fs) {c d : Nat} {below : List (Frame (Job V) V)}
    (hi : innermost fs = some (c, below)) (hd : .spawned c (.join d) ∈ log) :
    d ∉ onStack below := by
  induction fs with
  | nil => cases hi
  | cons f fs ih =>
    cases f with
    | user task code => exact ih h hi
    | blockOn c' pc =>
      cases hi
      exact h.1 d hd

end AboveAll

/-- What holds along a run in which `block_on` is called on the handles of other tasks only. -/
structure Layered (s : State (Job V) V) : Prop where
  logged : ∀ ch u, .spawned ch u ∈ s.shared.log → ch < s.shared.spawned
  frames : ∀ c pc, .blockOn c pc ∈ s.stack → c < s.shared.spawned
  above : AboveAll s.shared.log s.stack

/-- A step that spawns nothing. -/
theorem Layered.silent {sh sh' : Shared (Job V) V} {fs fs' : List (Frame (Job V) V)}
    (h : Layered ⟨sh, fs⟩) (hs : sh'.spawned = sh.spawned)
    (hlog : ∀ ch u, .spawned ch u ∈ sh'.log → .spawned ch u ∈ sh.log)
    (hfs : ∀ c pc, .blockOn c pc ∈ fs' → ∃ pc', .blockOn c pc' ∈ fs)
    (habove : AboveAll sh.log fs → AboveAll sh.log fs') : Layered ⟨sh', fs'⟩ where
  logged ch u hu := hs ▸ h.logged ch u (hlog ch u hu)
  frames c pc hc := by
    obtain ⟨pc', hc'⟩ := hfs c pc hc
    exact hs ▸ h.frames c pc' hc'
  above := (habove h.above).congr fun c pc d _ hd => hlog c _ hd

/-- A call of `spawn`; the old frames do not wait for the new task. -/
theorem Layered.spawn {sh : Shared (Job V) V} {fs : List (Frame (Job V) V)} (h : Layered ⟨sh, fs⟩)
    (u : Job V) (holder : Holder) : Layered ⟨sh.spawn cap u holder, fs⟩ := by
  have hlog : ∀ ch w, .spawned ch w ∈ (sh.spawn cap u holder).log →
      .spawned ch w ∈ sh.log ∨ ch = sh.spawned := by
    intro ch w hw
    rw [Shared.spawn, List.mem_append, List.mem_singleton] at hw
    rcases hw with hw | hw
    · exact Or.inl hw
    · split at hw
      · cases hw
        exact Or.inr rfl
      · cases hw
  refine ⟨fun ch w hw => ?_, fun c pc hc => Nat.lt_succ_of_lt (h.frames c pc hc), ?_⟩
  · rcases hlog ch w hw with hw | rfl
    · exact Nat.lt_succ_of_lt (h.logged ch w hw)
    · exact Nat.lt_succ_self _
  · refine h.above.congr fun c pc d hc hd => ?_
    rcases hlog c _ hd with hd | rfl
    · exact hd
    · exact absurd (h.frames _ pc hc) (Nat.lt_irrefl _)

theorem layered_step {s s' : State (Job V) V} {a : Answer (Job V) V} (h : Layered s)
    (hclear : s.Clear) (hs : Step cap Job.poll s a s') : Layered s' := by
  cases hs with
  | spawn sh task u k fs a =>
    refine (h.spawn u .handle).silent rfl (fun _ _ hu => hu) (fun c pc hc => ⟨pc, ?_⟩) fun h' => h'
    simpa using hc
  | blockOn sh task u k fs a =>
    have hnew : Layered ⟨sh.spawn cap u .blockOn, _⟩ := h.spawn u .blockOn
    refine ⟨hnew.logged, fun c pc hc => ?_, fun d hd => ?_, hnew.above⟩
    · rw [List.mem_cons, List.mem_cons] at hc
      rcases hc with hc | hc | hc
      · cases hc
        exact Nat.lt_succ_self _
      · cases hc
      · exact hnew.frames c pc (List.mem_cons_of_mem _ hc)
    · have hu : u = .join d := by
        rw [Shared.spawn, List.mem_append, List.mem_singleton] at hd
        rcases hd with hd | hd
        · exact absurd (h.logged _ _ hd) (Nat.lt_irrefl _)
        · split at hd <;> cases hd
          rfl
      subst hu
      exact hclear task d ⟨k, fs, rfl⟩
  | pop sh id ch u q c i fs a _ _ =>
    refine h.silent rfl (fun _ _ hu => by simpa using hu) (fun d pc hd => ?_) fun h' => h'
    rw [List.mem_cons, List.mem_cons] at hd
    rcases hd with hd | hd | hd
    · cases hd
    · cases hd
      exact ⟨_, List.mem_cons_self⟩
    · exact ⟨pc, List.mem_cons_of_mem _ hd⟩
  | popCompleted sh id q c i fs a _ _ | endBatch sh c i fs a _ | retry sh c fs a _ =>
    refine h.silent rfl (fun _ _ hu => hu) (fun d pc hd => ?_) fun h' => h'
    rw [List.mem_cons] at hd
    rcases hd with hd | hd
    · cases hd
      exact ⟨_, List.mem_cons_self⟩
    · exact ⟨pc, List.mem_cons_of_mem _ hd⟩
  | pending sh id ch u₀ u c pc fs a =>
    refine h.silent rfl (fun _ _ hu => ?_) (fun d pc' hd => ⟨pc', List.mem_cons_of_mem _ hd⟩)
      fun h' => h'
    rw [Shared.requeue, List.mem_append, List.mem_singleton] at hu
    rcases hu with hu | hu
    · exact hu
    · split at hu <;> cases hu
  | ready sh id ch u v c pc fs a =>
    refine h.silent rfl (fun _ _ hu => ?_) (fun d pc' hd => ⟨pc', List.mem_cons_of_mem _ hd⟩)
      fun h' => h'
    simpa [Shared.finish] using hu
  | «return» sh c v q task k fs a _ =>
    refine h.silent (Shared.pollHandle_spawned sh c)
      (fun _ _ hu => Shared.spawned_mem_pollHandle hu)
      (fun d pc' hd => ⟨pc', ?_⟩) fun h' => h'.2
    rw [List.mem_cons] at hd
    rcases hd with hd | hd
    · cases hd
    · exact List.mem_cons_of_mem _ (List.mem_cons_of_mem _ hd)
  | pollHandle sh task c k fs a _ =>
    refine h.silent (Shared.pollHandle_spawned sh c)
      (fun _ _ hu => Shared.spawned_mem_pollHandle hu)
      (fun d pc' hd => ⟨pc', ?_⟩) fun h' => h'
    simpa using hd
  | _ =>
    refine h.silent rfl (fun _ _ hu => hu) (fun d pc hd => ⟨pc, ?_⟩) fun h' => h'
    simpa using hd

theorem layered_start (main : Script V) (k : Option V → Burst (Job V) V) (ss : List (Script V)) :
    Layered (start main k ss) := by
  refine ⟨nofun, fun c pc hc => ?_, trivial⟩
  simp [start] at hc

/-- **No innermost `block_on` waits for a task below it, exactly if none is called on the handle
of a task on the stack.** -/
theorem waitsBelow_iff {main : Script V} {k : Option V → Burst (Job V) V} {ss : List (Script V)}
    (as : List (Answer (Job V) V)) (s : State (Job V) V) :
    Run (Step cap Job.poll) (fun a _ => a.Sound cap ∧ ¬ a.WaitsBelow) (start main k ss) as s ∧
        ¬ s.WaitsBelow ↔
      Run (Step cap Job.poll) (fun a _ => a.Sound cap ∧ a.Clear) (start main k ss) as s := by
  have h : Run (Step cap Job.poll) (fun a l => a.Sound cap ∧ (fun b => ¬ b.WaitsBelow) a)
      (start main k ss) as s ∧ (fun b => ¬ b.WaitsBelow) s ↔ _ := Run.exact_guard
    (G := fun a _ => a.Clear) ?_ ?_
  · exact h
  · rintro as a hr ⟨c, fs, d, hi, hd, hmem⟩
    have hl : Layered a := hr.invariant (layered_start main k ss)
      fun _ _ _ hl hG hs => layered_step hl hG.2 hs
    exact hl.above.innermost hi hd hmem
  · -- a step that breaks the condition leads to a state that waits below
    rintro as ⟨sh, stack⟩ l b hr - hsound hs hb task d ⟨k', fs, hfs⟩ hmem
    obtain rfl : stack = .user task (.run (.blockOn (.join d) k')) :: fs := hfs
    cases hs
    refine hb ⟨sh.spawned, _, d, rfl, ?_, hmem⟩
    have hroom : Room cap sh.globalQueue :=
      hsound.room ⟨_, _, _, rfl, Or.inr (Or.inl ⟨_, _, rfl⟩)⟩
    simp [Shared.spawn, hroom]

end Luminal.NoStd
