import Luminal.NoStd.Conservation
import Luminal.NoStd.Family
import Luminal.NoStd.Loop

/-!
# One round of the loop

`Allowed` says which runs the promise about `block_on` covers: no panics, no nested
`block_on`, room for every unfinished task.

A round polls the front task.  A poll of a program shortens what is left to the family
(`work`), unless it waits for an unfinished handle; then, and after a poll of somebody
else's task, the family is as before and the next task has come to the front
(`inevitable_round`).
-/

namespace Luminal.NoStd

open Function Transition

variable {U V W : Type}

/-! ## The runs of the promise -/

/-- The code is about to add a task. -/
def UserCode.adds : UserCode U V → Nat
  | .run (.spawn _ _) | .run (.blockOn _ _) => 1
  | _ => 0

/-- The tasks in a frame's hands. -/
def Frame.polled : Frame U V → Nat
  | .user task _ => task.toList.length
  | .blockOn _ _ => 0

/-- The unfinished tasks in a frame's hands: the one being polled, and the one that a call of
`spawn` or `block_on` is about to add. -/
def Frame.unfinished : Frame U V → Nat
  | .user task code => task.toList.length + UserCode.adds code
  | .blockOn _ _ => 0

/-- There are no more tasks queued and being polled than the queue has places. -/
def State.Counted (cap : Option Nat) (s : State U V) : Prop :=
  ∀ c ∈ cap, s.shared.globalQueue.length + weigh Frame.polled s.stack ≤ c

/-- There are no more unfinished tasks than the queue has places. -/
def State.Within (cap : Option Nat) (s : State U V) : Prop :=
  ∀ c ∈ cap, s.shared.globalQueue.length + weigh Frame.unfinished s.stack ≤ c

/-- The code's next action is on the handle `h`. -/
def Uses (b : Burst U V) (h : Nat) : Prop := (∃ k, b = .pollHandle h k) ∨ ∃ k, b = .dropHandle h k

/-- No panic and no nested `block_on`.  Nobody uses a handle that was moved into somebody else's
future or dropped. -/
structure State.Calm (s : State (Code V ⊕ W) V) : Prop where
  noPanic : ∀ task fs, s.stack ≠ .user task (.run .panic) :: fs
  noNest : ∀ task u k fs, s.stack ≠ .user (some task) (.run (.blockOn u k)) :: fs
  moved : ∀ task b fs h, s.stack = .user task (.run b) :: fs → Uses b h →
    (s.shared.results h).holder = .handle ∧
      ∀ t ∈ s.shared.globalQueue, ∀ ch c, t.future = .wrapped ch (.inl c) → ∀ i, c.env i ≠ h

def State.Allowed (cap : Option Nat) (s : State (Code V ⊕ W) V) : Prop := s.Calm ∧ s.Within cap

theorem State.Within.room {cap : Option Nat} {sh : Shared U V} {task : Option (Task U)}
    {code : UserCode U V} {fs : List (Frame U V)} (h : State.Within cap ⟨sh, .user task code :: fs⟩)
    (hpos : 0 < task.toList.length + UserCode.adds code) : Room cap sh.globalQueue := by
  intro c hc
  have := h c hc
  rw [weigh_cons] at this
  simp only [Frame.unfinished] at this
  omega

/-- While a task is polled its place in the queue is not taken. -/
theorem State.Within.room_polling {cap : Option Nat} {sh : Shared U V} {task : Task U}
    {code : UserCode U V} {fs : List (Frame U V)}
    (h : State.Within cap ⟨sh, .user (some task) code :: fs⟩) : Room cap sh.globalQueue :=
  h.room (Nat.add_pos_left Nat.one_pos _)

/-! ## The family in the queue -/

/-- The queued task, whoever it belongs to: `inl` marks the programs of the family. -/
def unmark (t : Task (Code V ⊕ (Code V ⊕ W))) : Task (Code V ⊕ W) where
  id := t.id
  future := match t.future with
    | .wrapped ch (.inl c) => .wrapped ch (.inl c)
    | .wrapped ch (.inr u) => .wrapped ch u
    | .completed => .completed

/-- Mark a task as nobody's of the family. -/
def markAlien (t : Task (Code V ⊕ W)) : Task (Code V ⊕ (Code V ⊕ W)) where
  id := t.id
  future := match t.future with
    | .wrapped ch u => .wrapped ch (.inr u)
    | .completed => .completed

section Marks

variable {t : Task (Code V ⊕ W)}

@[simp] theorem unmark_markAlien : unmark (markAlien t) = t := by
  obtain ⟨id, f⟩ := t
  cases f <;> rfl

@[simp] theorem ch?_markAlien : (markAlien t).ch? = t.ch? := by
  obtain ⟨id, f⟩ := t
  cases f <;> rfl

theorem markAlien_future (ch : Nat) (c : Code V) : (markAlien t).future ≠ .wrapped ch (.inl c) := by
  obtain ⟨id, f⟩ := t
  unfold markAlien
  cases f <;> simp

end Marks

/-- How many actions the program of a task has left. -/
def cost (val : Nat → V) (t : Task (Code V ⊕ W)) : Nat :=
  match t.future with
  | .wrapped _ (.inl c) => c.prog.cost fun i => val (c.env i)
  | _ => 0

/-- How many actions the unfinished programs have left. -/
def work (val : Nat → V) (ts : List (Task (Code V ⊕ W))) : Nat := weigh (cost val) ts

section Work

variable {m ch : Nat} {val : Nat → V} {results results' : Nat → ResultQueue V} {spawned : Nat}
  {ts : List (Task (Code V ⊕ W))} {id : TaskId} {c : Code V}

theorem work_inl {n : Nat} {p : Prog V n} {env : Fin n → Nat} :
    work (W := W) val (⟨id, .wrapped ch (.inl ⟨n, p, env⟩)⟩ :: ts) =
      (p.cost fun i => val (env i)) + work val ts := weigh_cons _ _ _

theorem work_inr {w : W} : work val (⟨id, .wrapped ch (.inr w)⟩ :: ts) = work val ts := by
  unfold work
  rw [weigh_cons]
  exact Nat.zero_add _

theorem work_requeue (t : Task (Code V ⊕ W)) : work val (ts ++ [t]) = work val (t :: ts) :=
  weigh_perm _ (List.perm_append_singleton t ts)

/-- Later spawns do not change how much there is to do. -/
theorem Family.work_eq (h : Family m val results spawned ts) (val' : Nat → V)
    (hval : ∀ d, d < spawned → val' d = val d) : work val' ts = work val ts := by
  refine weigh_congr _ fun t ht => ?_
  unfold cost
  split
  · next ch c hf =>
    congr 1
    funext i
    exact hval _ (h.held ch c ⟨t, ht, hf⟩ i).1
  · rfl

/-- The readiness of the programs depends on nothing but the handles they own. -/
theorem ready_congr {t : Task (Code V ⊕ W)} (ht : t ∈ ts)
    (hres : ∀ d, Owned m ts d → results' d = results d) : ready results' t = ready results t := by
  unfold ready
  split
  · next ch c hf =>
    cases haw : c.prog.awaits c.env with
    | none => rfl
    | some h =>
      obtain ⟨i, hi⟩ := awaits_env haw
      have := hres h (Or.inr ⟨ch, c, i, ⟨t, ht, hf⟩, hi⟩)
      simp [this]
  · rfl

end Work

/-! ## One poll -/

section Polls

variable {cap : Option Nat} {other : W → Burst (Code V ⊕ W) V} {m ch : Nat} {val : Nat → V}
  {id : TaskId} {u₀ : Code V ⊕ W} {pc : BlockOnPc} {fs : List (Frame (Code V ⊕ W) V)}
  {ts : List (Task (Code V ⊕ (Code V ⊕ W)))} {sh : Shared (Code V ⊕ W) V}

/-- What a poll of somebody else's task leaves behind: the queue has more such tasks, and the
family has what it had. -/
structure Beside (m : Nat) (val : Nat → V) (results : Nat → ResultQueue V)
    (ts : List (Task (Code V ⊕ (Code V ⊕ W)))) (sh' : Shared (Code V ⊕ W) V)
    (l : List (Task (Code V ⊕ (Code V ⊕ W)))) : Prop where
  queue : sh'.globalQueue = (ts ++ l).map unmark
  family : Family m val sh'.results sh'.spawned (ts ++ l)
  work : work val (ts ++ l) = work val ts
  results : ∀ d, Owned m ts d → sh'.results d = results d

/-- The use of a handle by somebody else is not seen by the family. -/
theorem Family.beside {b : Burst (Code V ⊕ W) V} {h : Nat} {u₁ : Code V ⊕ W}
    (hf : Family m val sh.results sh.spawned (⟨id, .wrapped ch (.inr u₁)⟩ :: ts))
    (hq : sh.globalQueue = ts.map unmark)
    (hok : State.Calm ⟨sh, .user (some ⟨id, .wrapped ch u₀⟩) (.run b) :: fs⟩) (hu : Uses b h)
    (results' : Nat → ResultQueue V)
    (hres : ∀ d, d ≠ h → results' d = sh.results d)
    (hitems : (sh.results h).items = [] → (results' h).items = []) :
    Family m val results' sh.spawned (⟨id, .wrapped ch (.inr u₁)⟩ :: ts) ∧
      ∀ d, Owned m ts d → results' d = sh.results d := by
  obtain ⟨hholder, hmoved⟩ := hok.moved _ _ _ h rfl hu
  have hne : ∀ d, Owned m (⟨id, .wrapped ch (.inr u₁)⟩ :: ts) d → d ≠ h := by
    rintro d (rfl | ⟨a, e, i, he, rfl⟩) rfl
    · rw [hf.root.2] at hholder
      cases hholder
    · obtain ⟨t, ht, htf⟩ := runs_cons_inr.1 he
      refine hmoved (unmark t) (hq ▸ List.mem_map_of_mem ht) a e ?_ i rfl
      unfold unmark
      rw [htf]
  refine ⟨hf.release (fun d hd => hres d (hne d hd)) fun d e he => ?_,
    fun d hd => hres d (hne d (hd.cons _))⟩
  by_cases hd : d = h
  · subst hd
    have hempty := (hf.value d e he).1
    rw [hempty, hitems hempty]
  · rw [hres d hd]

/-- **A poll of somebody else's task**, whatever it does. -/
theorem inevitable_alien (b : Burst (Code V ⊕ W) V) {u₁ : Code V ⊕ W}
    (hq : sh.globalQueue = ts.map unmark)
    (hf : Family m val sh.results sh.spawned (⟨id, .wrapped ch (.inr u₁)⟩ :: ts)) :
    Inevitable (Step cap (Prog.poll other)) (State.Allowed cap)
      (fun s => ∃ sh' l, s = ⟨sh', .blockOn m pc :: fs⟩ ∧ Beside m val sh.results ts sh' l)
      ⟨sh, .user (some ⟨id, .wrapped ch u₀⟩) (.run b) :: .blockOn m pc :: fs⟩ := by
  induction b generalizing sh ts with
  | pending u =>
    refine .of_ok fun hok => inevitable_pending (.now ⟨_, [⟨id, .wrapped ch (.inr u)⟩], rfl, ?_⟩)
    refine ⟨?_, hf.swap.perm (List.perm_append_singleton _ _).symm, ?_, fun _ _ => rfl⟩
    · rw [List.map_append, ← hq]
      exact pushBack_of_room hok.2.room_polling _
    · rw [work_requeue, work_inr]
  | ready v =>
    have hrel : ∀ d, d ≠ ch → update sh.results ch ((sh.results ch).enqueue v) d = sh.results d :=
      fun d hd => update_of_ne hd _ _
    have hch : ∀ d, Owned m ts d → d ≠ ch := by
      rintro d hd rfl
      exact hf.apart d (alien_cons_inr.2 (Or.inl rfl)) (hd.cons _)
    refine inevitable_ready (.now ⟨_, [], rfl, ?_⟩)
    refine ⟨by rw [List.append_nil]; exact hq, ?_, by rw [List.append_nil],
      fun d hd => hrel d (hch d hd)⟩
    rw [List.append_nil]
    refine hf.dismiss.release (fun d hd => hrel d (hch d hd)) fun d e he => ?_
    rw [Shared.finish]
    simp only
    rw [hrel]
    rintro rfl
    exact hf.not_runs_tail rfl he
  | spawn u k ih =>
    refine .of_ok fun hok => inevitable_spawn ?_
    have hqueue : (sh.spawn cap u .handle).globalQueue =
        List.map unmark (ts ++ [⟨sh.nextTaskId, .wrapped sh.spawned (.inr u)⟩]) := by
      rw [Shared.spawn_queue hok.2.room_polling, List.map_append, hq]
      rfl
    have hfam := ((hf.arrive sh.nextTaskId u .handle).perm
      (.swap ..)).perm (.cons _ (List.perm_append_singleton _ _).symm)
    refine (ih sh.spawned hqueue hfam).mono ?_
    rintro s ⟨sh', l, rfl, h⟩
    refine ⟨sh', ⟨sh.nextTaskId, .wrapped sh.spawned (.inr u)⟩ :: l, rfl, ?_⟩
    have happ : ∀ t : Task (Code V ⊕ (Code V ⊕ W)), ts ++ t :: l = ts ++ [t] ++ l := by simp
    refine ⟨by rw [happ]; exact h.queue, by rw [happ]; exact h.family, ?_, fun d hd => ?_⟩
    · rw [happ, h.work, work_requeue, work_inr]
    · rw [h.results d (hd.subset (List.subset_append_left _ _))]
      exact update_of_ne (hf.owned_lt (hd.cons _)).ne _ _
  | blockOn u k _ =>
    refine .of_ok fun hok => ?_
    exact absurd rfl (hok.1.noNest _ u k _)
  | pollHandle h k ih =>
    refine .of_ok fun hok => ?_
    have hu : Uses (.pollHandle h k) h := Or.inl ⟨k, rfl⟩
    obtain ⟨hfam, hres⟩ := hf.beside hq hok.1 hu (sh.pollHandle h).2.results
      (fun d hd => Shared.pollHandle_of_ne hd) fun hv => by rw [Shared.pollHandle_nil hv, hv]
    refine inevitable_pollHandle (hok.1.moved _ _ _ h rfl hu).1 ?_
    rw [← Shared.pollHandle_spawned sh h] at hfam
    refine (ih _ ((Shared.pollHandle_queue sh h).trans hq) hfam).mono ?_
    rintro s ⟨sh', l, rfl, h'⟩
    exact ⟨sh', l, rfl, h'.queue, h'.family, h'.work,
      fun d hd => (h'.results d hd).trans (hres d hd)⟩
  | dropHandle h k ih =>
    refine .of_ok fun hok => ?_
    have hu : Uses (.dropHandle h k) h := Or.inr ⟨k, rfl⟩
    obtain ⟨hfam, hres⟩ := hf.beside hq hok.1 hu (sh.dropHandle h).results
      (fun d hd => update_of_ne hd _ _) fun hv => (Shared.dropHandle_items sh h h).trans hv
    have hqueue : (sh.dropHandle h).globalQueue = ts.map unmark := hq
    refine inevitable_dropHandle (hok.1.moved _ _ _ h rfl hu).1 ((ih hqueue hfam).mono ?_)
    rintro s ⟨sh', l, rfl, h'⟩
    exact ⟨sh', l, rfl, h'.queue, h'.family, h'.work,
      fun d hd => (h'.results d hd).trans (hres d hd)⟩
  | cloneRuntime k ih => exact inevitable_cloneRuntime (ih hq hf)
  | dropRuntime k ih => exact inevitable_dropRuntime (ih hq hf)
  | outside k ih => exact inevitable_outside fun x => ih x hq hf
  | panic =>
    refine .of_ok fun hok => ?_
    exact absurd rfl (hok.1.noPanic _ _)

/-- What a poll of the front task `t` leaves behind: there is less to do, or the next ones have
come forward and are as ready as before. -/
structure Polled (m : Nat) (val : Nat → V) (results : Nat → ResultQueue V)
    (t : Task (Code V ⊕ (Code V ⊕ W))) (ts : List (Task (Code V ⊕ (Code V ⊕ W)))) (val' : Nat → V)
    (sh' : Shared (Code V ⊕ W) V) (ts' : List (Task (Code V ⊕ (Code V ⊕ W)))) : Prop where
  queue : sh'.globalQueue = ts'.map unmark
  family : Family m val' sh'.results sh'.spawned ts'
  value : val' m = val m
  done : (results m).items ≠ [] → (sh'.results m).items ≠ []
  progress : work val' ts' < work val (t :: ts) ∨
    ready results t = false ∧ work val' ts' = work val (t :: ts) ∧
      ∃ l, ts' = ts ++ l ∧ ∀ d, Owned m ts d → sh'.results d = results d

theorem Polled.work_le {results : Nat → ResultQueue V} {t : Task (Code V ⊕ (Code V ⊕ W))}
    {val' : Nat → V} {sh' : Shared (Code V ⊕ W) V} {ts' : List (Task (Code V ⊕ (Code V ⊕ W)))}
    (h : Polled m val results t ts val' sh' ts') : work val' ts' ≤ work val (t :: ts) := by
  rcases h.progress with hlt | ⟨-, heq, -⟩
  · exact hlt.le
  · exact heq.le

/-- A poll that starts with an action of the program. -/
theorem Polled.after {results results₁ : Nat → ResultQueue V} {val₁ val' : Nat → V}
    {t t₁ : Task (Code V ⊕ (Code V ⊕ W))} {ts₁ ts' : List (Task (Code V ⊕ (Code V ⊕ W)))}
    {sh' : Shared (Code V ⊕ W) V} (h : Polled m val₁ results₁ t₁ ts₁ val' sh' ts')
    (hv : val₁ m = val m) (hd : (results m).items ≠ [] → (results₁ m).items ≠ [])
    (hw : work val₁ (t₁ :: ts₁) < work val (t :: ts)) : Polled m val results t ts val' sh' ts' where
  queue := h.queue
  family := h.family
  value := h.value.trans hv
  done := fun hm => h.done (hd hm)
  progress := Or.inl (h.work_le.trans_lt hw)

/-- The state after a poll. -/
def AfterPoll (m : Nat) (pc : BlockOnPc) (fs : List (Frame (Code V ⊕ W) V)) (val : Nat → V)
    (results : Nat → ResultQueue V) (t : Task (Code V ⊕ (Code V ⊕ W)))
    (ts : List (Task (Code V ⊕ (Code V ⊕ W)))) (s : State (Code V ⊕ W) V) : Prop :=
  ∃ val' sh' ts', s = ⟨sh', .blockOn m pc :: fs⟩ ∧ Polled m val results t ts val' sh' ts'

/-- **A poll of a program that returns**: its handles are dropped, then the result is there. -/
theorem inevitable_ret {n : Nat} {v : V} (env : Fin n → Nat) (hq : sh.globalQueue = ts.map unmark)
    (hf : Family m val sh.results sh.spawned (⟨id, .wrapped ch (.inl ⟨n, .ret v, env⟩)⟩ :: ts)) :
    Inevitable (Step cap (Prog.poll other)) (State.Allowed cap)
      (AfterPoll m pc fs val sh.results ⟨id, .wrapped ch (.inl ⟨n, .ret v, env⟩)⟩ ts)
      ⟨sh, .user (some ⟨id, .wrapped ch u₀⟩)
        (.run ((Prog.ret v).burst env)) :: .blockOn m pc :: fs⟩ := by
  induction n generalizing sh with
  | zero =>
    refine inevitable_ready (.now ⟨val, _, ts, rfl, hq, hf.finish, rfl, fun hm => ?_, Or.inl ?_⟩)
    · simp only [Shared.finish]
      rcases eq_or_ne m ch with rfl | hne
      · exact absurd (hf.value _ _ (runs_cons_inl.2 (Or.inl ⟨rfl, rfl⟩))).1 hm
      · rw [update_of_ne hne]
        exact hm
    · rw [work_inl, Prog.cost]
      omega
  | succ n ih =>
    have hheld := (hf.held _ _ (runs_cons_inl.2 (Or.inl ⟨rfl, rfl⟩)) (0 : Fin (n + 1))).2
    have hfam := hf.drop 0 (.ret v) (sh.dropHandle (env 0)).results rfl
      (fun d hd => update_of_ne hd _ _) fun _ _ => Shared.dropHandle_items _ _ _
    have hqueue : (sh.dropHandle (env 0)).globalQueue = ts.map unmark := hq
    rw [Prog.burst, List.ofFn_succ, dropAll]
    refine inevitable_dropHandle hheld.2 ((ih _ hqueue hfam).mono ?_)
    rintro s ⟨val', sh', ts', rfl, h⟩
    refine ⟨val', sh', ts', rfl, h.after rfl (fun hm => ?_) ?_⟩
    · rw [Shared.dropHandle_items]
      exact hm
    · rw [work_inl, work_inl, Prog.cost, Prog.cost]
      omega

/-- **A poll of a program of the family.** -/
theorem inevitable_program {n : Nat} (p : Prog V n) (env : Fin n → Nat)
    (hq : sh.globalQueue = ts.map unmark)
    (hf : Family m val sh.results sh.spawned (⟨id, .wrapped ch (.inl ⟨n, p, env⟩)⟩ :: ts)) :
    Inevitable (Step cap (Prog.poll other)) (State.Allowed cap)
      (AfterPoll m pc fs val sh.results ⟨id, .wrapped ch (.inl ⟨n, p, env⟩)⟩ ts)
      ⟨sh, .user (some ⟨id, .wrapped ch u₀⟩) (.run (p.burst env)) :: .blockOn m pc :: fs⟩ := by
  induction p generalizing sh val ts with
  | ret v => exact inevitable_ret env hq hf
  | @yield n rest ih =>
    refine .of_ok fun hok => inevitable_pending
      (.now ⟨val, _, ts ++ [⟨id, .wrapped ch (.inl ⟨n, rest, env⟩)⟩], rfl, ?_⟩)
    have hpart : Code.Part val ⟨n, rest, env⟩ ⟨n, .yield rest, env⟩ :=
      ⟨fun j => j, injective_id, fun _ => rfl, rfl⟩
    refine ⟨?_, (hf.goOn hpart).perm (List.perm_append_singleton _ _).symm, rfl, fun hm => hm,
      Or.inl ?_⟩
    · rw [List.map_append, ← hq]
      exact pushBack_of_room hok.2.room_polling _
    · rw [work_requeue, work_inl, work_inl, Prog.cost]
      omega
  | @spawn n a b share sub rest _ ih =>
    refine .of_ok fun hok => ?_
    have hqueue : (sh.spawn cap
      (.inl ⟨a, sub, fun i => env (share (.inl i))⟩) .handle).globalQueue =
        List.map unmark (ts ++
          [⟨sh.nextTaskId, .wrapped sh.spawned
            (.inl ⟨a, sub, fun i => env (share (.inl i))⟩)⟩]) := by
      rw [Shared.spawn_queue hok.2.room_polling, List.map_append, hq]
      rfl
    have hfam := (hf.spawn sh.nextTaskId rfl).perm
      (.cons _ (List.perm_append_singleton _ _).symm)
    have hold : ∀ i, update val sh.spawned (sub.eval fun i => val (env (share (.inl i)))) (env i) =
        val (env i) := fun i =>
      update_of_ne (hf.held _ _ (runs_cons_inl.2 (Or.inl ⟨rfl, rfl⟩)) i).1.ne _ _
    have hroot : ∀ v, update val sh.spawned v m = val m := fun v => update_of_ne hf.root.1.ne _ _
    refine inevitable_spawn ((ih _ hqueue hfam).mono ?_)
    rintro s ⟨val', sh', ts', rfl, h⟩
    refine ⟨val', sh', ts', rfl, h.after (hroot _) (fun hm => ?_) ?_⟩
    · simp only [Shared.spawn]
      rw [update_of_ne hf.root.1.ne]
      exact hm
    · -- the new program and the rest share what there was to do
      have hts := hf.work_eq (update val sh.spawned (sub.eval fun i => val (env (share (.inl i)))))
        fun d hd => update_of_ne hd.ne _ _
      rw [work_inl, work_inl] at hts
      rw [work_inl, work_requeue, work_inl, work_inl, Prog.cost]
      simp only [hold] at hts ⊢
      have hcons : (fun i => update val sh.spawned (sub.eval fun i => val (env (share (.inl i))))
          ((Fin.cons sh.spawned fun j => env (share (.inr j)) : Fin (b + 1) → Nat) i)) =
          Fin.cons (sub.eval fun i => val (env (share (.inl i)))) fun j =>
            val (env (share (.inr j))) := by
        funext i
        refine Fin.cases ?_ (fun j => ?_) i
        · simp
        · simp [hold]
      rw [hcons]
      omega
  | @await n i rest ih =>
    have hr : Runs (⟨id, .wrapped ch (.inl ⟨n + 1, .await i rest, env⟩)⟩ :: ts) ch
        ⟨n + 1, .await i rest, env⟩ := runs_cons_inl.2 (Or.inl ⟨rfl, rfl⟩)
    obtain ⟨-, hne, hholder⟩ := hf.held _ _ hr i
    refine inevitable_pollHandle hholder ?_
    cases hv : (sh.results (env i)).items with
    | nil =>
      -- the handle is unfinished, and the program goes back to the queue as it was
      rw [Shared.pollHandle_nil hv]
      refine .of_ok fun hok => inevitable_pending
        (.now ⟨val, _, ts ++ [⟨id, .wrapped ch (.inl ⟨n + 1, .await i rest, env⟩)⟩], rfl, ?_⟩)
      refine ⟨?_, hf.perm (List.perm_append_singleton _ _).symm, rfl, fun hm => hm,
        Or.inr ⟨?_, work_requeue _, _, rfl, fun _ _ => rfl⟩⟩
      · rw [List.map_append, ← hq]
        exact pushBack_of_room hok.2.room_polling _
      · exact (not_ready_program rfl).2 ⟨env i, rfl, hv⟩
    | cons v q =>
      -- it yields the sub-program's value, and is dropped
      obtain rfl : v = val (env i) := by
        rcases hf.owned (env i) (Or.inr ⟨_, _, i, hr, rfl⟩) with ⟨e, he⟩ | hitems
        · rw [(hf.value _ _ he).1] at hv
          cases hv
        · rw [hv] at hitems
          exact (List.cons.inj hitems).1
      have hother : ∀ d, d ≠ env i →
          ((sh.pollHandle (env i)).2.dropHandle (env i)).results d = sh.results d := fun d hd =>
        (update_of_ne hd _ _).trans (Shared.pollHandle_of_ne hd)
      have hfam := hf.drop i (rest (val (env i))) _ rfl hother fun e he => by
        rw [(hf.value _ _ he).1] at hv
        cases hv
      rw [← Shared.pollHandle_spawned sh (env i)] at hfam
      have hyield : (sh.pollHandle (env i)).1 = some (val (env i)) := by
        rw [Shared.pollHandle_cons hv]
      have hkept : ((sh.pollHandle (env i)).2.results (env i)).holder = .handle := by
        rw [Shared.pollHandle_cons hv]
        simpa using hholder
      rw [hyield]
      have hqueue : ((sh.pollHandle (env i)).2.dropHandle (env i)).globalQueue = ts.map unmark :=
        (Shared.pollHandle_queue sh (env i)).trans hq
      refine inevitable_dropHandle hkept ((ih (val (env i)) _ hqueue hfam).mono ?_)
      rintro s ⟨val', sh', ts', rfl, h⟩
      refine ⟨val', sh', ts', rfl, h.after rfl (fun hm => ?_) ?_⟩
      · rw [hother m hne.symm]
        exact hm
      · rw [work_inl, work_inl, Prog.cost]
        omega

/-- **A round of the loop** polls the front task. -/
theorem inevitable_round {i : Nat} (hi : i < 10) {t : Task (Code V ⊕ (Code V ⊕ W))}
    (hq : sh.globalQueue = (t :: ts).map unmark)
    (hf : Family m val sh.results sh.spawned (t :: ts)) :
    Inevitable (Step cap (Prog.poll other)) (State.Allowed cap)
      (AfterPoll m (.poll (i + 1)) fs val sh.results t ts) ⟨sh, .blockOn m (.poll i) :: fs⟩ := by
  obtain ⟨d, hd, -⟩ := hf.wrapped t List.mem_cons_self
  obtain ⟨id, f⟩ := t
  cases f with
  | completed => cases hd
  | wrapped ch u =>
    have hqueue : ({ sh with
        globalQueue := ts.map unmark
        log := sh.log ++ [.polled ch] } : Shared (Code V ⊕ W) V).globalQueue = ts.map unmark := rfl
    cases u with
    | inl c => exact inevitable_pop hi hq (inevitable_program c.prog c.env hqueue hf)
    | inr u =>
      refine inevitable_pop hi hq ((inevitable_alien _ hqueue hf).mono ?_)
      rintro s ⟨sh', l, rfl, h⟩
      refine ⟨val, sh', ts ++ l, rfl, h.queue, h.family, rfl, fun hm => ?_,
        Or.inr ⟨rfl, ?_, l, rfl, h.results⟩⟩
      · rw [h.results m (Or.inl rfl)]
        exact hm
      · rw [h.work, work_inr]

end Polls

end Luminal.NoStd
