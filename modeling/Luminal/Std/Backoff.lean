import Luminal.Lib.Streak
import Luminal.Std.Exec
import Mathlib.Data.List.ReduceOption

/-!
# The back-off counters

An iteration of `WorkerThread::run` finds local work, steals, or finds nothing (`Outcome`); a
worker's iterations are what `Works` shows of the executor's runs.  `idle_count` is raised by the
last kind and reset by the first kind only, so it counts the idle iterations since the last one
with local work, modulo 2^32 (`idleCount_since`).  `block_on` resets `backoff_count` whenever it
helped, and at 1000 (`backoffCount_le`).
-/

namespace Luminal.Std

open Function Transition Streak

variable {n m : Nat} {U V : Type} {poll : U → Burst U V}

/-- How an iteration of the worker loop comes out. -/
inductive Outcome where
  | localWork
  | stolen
  | idle
  deriving DecidableEq

/-- The idle iterations since the last one that found work. -/
def idleInARow (os : List Outcome) : Nat := since (· ≠ .idle) (· = .idle) os

/-- The idle iterations since the last one that found local work. -/
def idleSinceLocal (os : List Outcome) : Nat := since (· = .localWork) (· = .idle) os

theorem idleSinceLocal_concat (os : List Outcome) (o : Outcome) : idleSinceLocal (os ++ [o]) =
    match o with
    | .localWork => 0
    | .stolen => idleSinceLocal os
    | .idle => idleSinceLocal os + 1 := by
  unfold idleSinceLocal
  rw [since_concat]
  cases o <;> rfl

theorem idleInARow_concat (os : List Outcome) (o : Outcome) : idleInARow (os ++ [o]) =
    match o with
    | .localWork => 0
    | .stolen => 0
    | .idle => idleInARow os + 1 := by
  unfold idleInARow
  rw [since_concat]
  cases o <;> rfl

/-! ## One action of the loop -/

/-- The outcome that an action of the loop, from `l` to `l'`, decides. -/
def RunLoop.outcome (l l' : RunLoop) : Option Outcome :=
  match l.pc with
  | .top => none
  | .drain => if l'.pc = .backoff then some .localWork else none
  | .backoff => if l.foundWork then none else some .idle
  | _ => if l'.pc = .backoff ∧ l'.foundWork = true then some .stolen else none

/-- In `steal_work`. -/
def RunLoop.Seeks (l : RunLoop) : Prop := l.pc ≠ .top ∧ l.pc ≠ .drain ∧ l.pc ≠ .backoff

/-- What an action does to the loop, and the outcome it decides. -/
inductive Acted (l : RunLoop) : Option Outcome → RunLoop → Prop
  | start : l.pc = .top → Acted l none { l with pc := .drain, foundWork := false }
  | pop : l.pc = .drain → Acted l none { l with foundWork := true, idleCount := 0 }
  | drained : l.pc = .drain → l.foundWork = true →
      Acted l (some .localWork) { l with pc := .backoff }
  | dry : l.pc = .drain → l.foundWork = false → Acted l none { l with pc := .steal }
  | seek {pc : RunPc} : l.Seeks → RunLoop.Seeks { l with pc := pc } →
    Acted l none { l with pc := pc }
  | stole : l.Seeks → Acted l (some .stolen) { l with pc := .backoff, foundWork := true }
  | giveUp : l.Seeks → l.foundWork = false → Acted l none { l with pc := .backoff }
  | rest : l.pc = .backoff → l.foundWork = true → Acted l none { l with pc := .top }
  | idle : l.pc = .backoff → l.foundWork = false →
      Acted l (some .idle) { l with pc := .top, idleCount := l.idleCount + 1 }

theorem WorkerThread.step_acted {i : Fin n} {sh sh' : Shared n U V} {l l' : RunLoop}
    {c : StealChoice} {r : Option (Task U)} (h : WorkerThread.step i sh l c = (sh', l', r)) :
    Acted l (l.outcome l') l' := by
  obtain ⟨pc, f, k⟩ := l
  unfold WorkerThread.step at h
  cases pc with
  | top =>
    cases h
    exact .start rfl
  | drain =>
    simp only at h
    split at h
    · cases h
      exact .pop rfl
    · cases h
      cases f with
      | true => exact .drained rfl rfl
      | false => exact .dry rfl rfl
  | steal =>
    have hs : RunLoop.Seeks ⟨.steal, f, k⟩ := ⟨nofun, nofun, nofun⟩
    simp only at h
    split at h <;> cases h
    · exact .seek hs ⟨nofun, nofun, nofun⟩
    · exact .stole hs
    · exact .seek hs ⟨nofun, nofun, nofun⟩
  | stealRetry =>
    have hs : RunLoop.Seeks ⟨.stealRetry, f, k⟩ := ⟨nofun, nofun, nofun⟩
    simp only at h
    split at h <;> cases h
    · exact .stole hs
    · exact .seek hs ⟨nofun, nofun, nofun⟩
  | peer j =>
    have hs : RunLoop.Seeks ⟨.peer j, f, k⟩ := ⟨nofun, nofun, nofun⟩
    simp only at h
    split at h
    · split at h
      · cases h
        exact .seek hs ⟨nofun, nofun, nofun⟩
      · cases h
        exact .seek hs ⟨nofun, nofun, nofun⟩
      · split at h <;> cases h
        · exact .stole hs
        · exact .seek hs ⟨nofun, nofun, nofun⟩
    · cases h
      cases f with
      | true => exact .stole hs
      | false => exact .giveUp hs rfl
  | peerRetry j =>
    have hs : RunLoop.Seeks ⟨.peerRetry j, f, k⟩ := ⟨nofun, nofun, nofun⟩
    simp only at h
    split at h
    · split at h <;> cases h
      · exact .stole hs
      · exact .seek hs ⟨nofun, nofun, nofun⟩
    · cases h
      exact .seek hs ⟨nofun, nofun, nofun⟩
  | backoff =>
    cases h
    cases f with
    | true => exact .rest rfl rfl
    | false => exact .idle rfl rfl

/-! ## A worker's iterations in a run -/

/-- The state of the loop at the bottom of a worker's stack. -/
def loopOf : List (Frame U V) → Option RunLoop
  | [] => none
  | .run l :: _ => some l
  | _ :: fs => loopOf fs

namespace State

def loop (i : Fin n) (s : State n m U V) : Option RunLoop := loopOf (s.threads (.inl i))

/-- The outcome that the step of `t` decides for worker `i`. -/
def outcome (i : Fin n) (s : State n m U V) (t : ThreadId n m) (s' : State n m U V) :
    Option Outcome :=
  if t = .inl i then
    match s.threads t, s'.loop i with
    | .run l :: _, some l' => l.outcome l'
    | _, _ => none
  else none

end State

/-- A step of the executor, and what it decides for worker `i`. -/
def Works (poll : U → Burst U V) (i : Fin n) (s : State n m U V) (o : Option Outcome)
    (s' : State n m U V) : Prop :=
  ∃ t, Step poll s t s' ∧ o = s.outcome i t s'

theorem loopOf_beginPoll (sh : Shared n U V) (task : Task U) (fs : List (Frame U V)) :
    loopOf ((sh.beginPoll poll task).2 :: fs) = loopOf fs :=
  beginPoll_frame poll sh task (P := fun f => loopOf (f :: fs) = loopOf fs) rfl fun _ => rfl

/-- A thread's loop is touched by its own actions only. -/
theorem threadStep_loop {sh sh' : Shared n U V} {t : ThreadId n m} {fs fs' : List (Frame U V)}
    (h : ThreadStep poll sh t fs sh' fs') :
    fs' = [] ∨ (loopOf fs' = loopOf fs ∧ ∀ l rest, fs ≠ .run l :: rest) ∨
      ∃ l l' rest, fs = .run l :: rest ∧ loopOf fs' = some l' ∧ Acted l (l.outcome l') l' := by
  cases h with
  | unwindRun | exit => exact Or.inl rfl
  | run i l c sh' l' fs ht htop hh =>
    exact Or.inr (Or.inr ⟨l, l', fs, rfl, rfl, WorkerThread.step_acted hh⟩)
  | runTask i l c sh₁ l' task fs ht hh =>
    refine Or.inr (Or.inr ⟨l, l', fs, rfl, ?_, WorkerThread.step_acted hh⟩)
    rw [loopOf_beginPoll]
    rfl
  | helpTask c l ch' sh₁ l' task fs hh =>
    refine Or.inr (Or.inl ⟨?_, nofun⟩)
    rw [loopOf_beginPoll]
    rfl
  | requeue left owned fs | spawned task c fs => exact Or.inr (Or.inl ⟨rfl, nofun⟩)
  | _ => exact Or.inr (Or.inl ⟨rfl, nofun⟩)

/-- **A step leaves worker `i`'s loop alone, ends it, or is an action of it.** -/
theorem works_cases {i : Fin n} {s s' : State n m U V} {o : Option Outcome}
    (h : Works poll i s o s') :
    (o = none ∧ (s'.loop i = s.loop i ∨ s'.loop i = none)) ∨
      ∃ l l', s.loop i = some l ∧ s'.loop i = some l' ∧ Acted l o l' := by
  obtain ⟨t, hs, rfl⟩ := h
  obtain @⟨sh', fs', hs, -⟩ := hs
  unfold State.outcome
  by_cases ht : t = .inl i
  · subst ht
    have hloop : State.loop i ⟨sh', update s.threads (.inl i) fs'⟩ = loopOf fs' := by
      simp [State.loop]
    rw [if_pos rfl, hloop]
    rcases threadStep_loop hs with rfl | ⟨hsame, hno⟩ | ⟨l, l', rest, hfs, hl', hact⟩
    · refine Or.inl ⟨?_, Or.inr rfl⟩
      split
      · next h1 h2 => cases h2
      · rfl
    · refine Or.inl ⟨?_, Or.inl hsame⟩
      split
      · next h1 h2 => exact absurd h1 (hno _ _)
      · rfl
    · refine Or.inr ⟨l, l', ?_, hl', ?_⟩
      · simp [State.loop, hfs, loopOf]
      · rw [hfs, hl']
        exact hact
  · refine Or.inl ⟨if_neg ht, Or.inl ?_⟩
    simp [State.loop, update_of_ne (Ne.symm ht)]

/-- Every run of the executor shows the iterations of each worker. -/
theorem Reachable.works {G : State n m U V → ThreadId n m → Prop} {s : State n m U V}
    (h : Reachable poll G s) (i : Fin n) :
    ∃ ls, Run (Works poll i) always (State.init n m U V) ls s := by
  obtain ⟨ts, hr⟩ := h
  induction hr with
  | nil => exact ⟨[], Run.nil⟩
  | snoc _ _ hs ih =>
    obtain ⟨ls, hr⟩ := ih
    exact ⟨_, hr.snoc trivial ⟨_, hs, rfl⟩⟩

/-- A schedule that decides `os` for worker `i` and leaves its loop at `l`. -/
theorem works_of_exec {i : Fin n} (poll : U → Burst U V) (os : List Outcome) (l : RunLoop)
    (cs : List (ThreadId n m × Choice U V))
    (h : (((State.init n m U V).observeAll poll (State.outcome i) cs).map fun r =>
      (r.1.reduceOption, r.2.loop i)) =
      some (os, some l)) :
    ∃ (ls : List (Option Outcome)) (s : State n m U V),
      Run (Works poll i) always (State.init n m U V) ls s ∧ ls.reduceOption = os ∧
      s.loop i = some l := by
  obtain ⟨⟨ls, s⟩, hr, heq⟩ := Option.map_eq_some_iff.1 h
  obtain ⟨hls, hl⟩ := Prod.mk.inj heq
  exact ⟨ls, s, State.observeAll_run (fun _ t _ hs => ⟨t, hs, rfl⟩) hr, hls, hl⟩

/-! ## What `idle_count` counts -/

/-- The count after the outcomes `os`, at `l` in the next iteration. -/
structure Counts (os : List Outcome) (l : RunLoop) : Prop where
  draining : l.pc = .drain → l.foundWork = true → l.idleCount = 0
  since : ¬ (l.pc = .drain ∧ l.foundWork = true) →
    l.idleCount.toNat = idleSinceLocal os % 2 ^ 32

theorem Acted.counts {os : List Outcome} {l l' : RunLoop} {o : Option Outcome} (h : Acted l o l')
    (hc : Counts os l) : Counts (os ++ o.toList) l' := by
  have hseek : l.Seeks → l.idleCount.toNat = idleSinceLocal os % 2 ^ 32 := fun hs =>
    hc.since fun hd => hs.2.1 hd.1
  cases h with
  | start hpc =>
    rw [Option.toList_none, List.append_nil]
    refine ⟨nofun, fun _ => hc.since fun hd => ?_⟩
    rw [hpc] at hd
    cases hd.1
  | pop hpc => exact ⟨fun _ _ => rfl, fun hn => absurd ⟨hpc, rfl⟩ hn⟩
  | drained hpc hf =>
    refine ⟨nofun, fun _ => ?_⟩
    show l.idleCount.toNat = idleSinceLocal (os ++ [.localWork]) % 2 ^ 32
    rw [hc.draining hpc hf, idleSinceLocal_concat]
    rfl
  | dry hpc hf =>
    rw [Option.toList_none, List.append_nil]
    refine ⟨nofun, fun _ => hc.since fun hd => ?_⟩
    rw [hf] at hd
    cases hd.2
  | seek hs hs' =>
    rw [Option.toList_none, List.append_nil]
    exact ⟨fun hpc => absurd hpc hs'.2.1, fun _ => hseek hs⟩
  | stole hs =>
    refine ⟨nofun, fun _ => ?_⟩
    show l.idleCount.toNat = idleSinceLocal (os ++ [.stolen]) % 2 ^ 32
    rw [hseek hs, idleSinceLocal_concat]
  | giveUp hs hf =>
    rw [Option.toList_none, List.append_nil]
    exact ⟨nofun, fun _ => hseek hs⟩
  | rest hpc hf =>
    rw [Option.toList_none, List.append_nil]
    refine ⟨nofun, fun _ => hc.since fun hd => ?_⟩
    rw [hpc] at hd
    cases hd.1
  | idle hpc hf =>
    refine ⟨nofun, fun _ => ?_⟩
    have hold := hc.since fun hd => by
      rw [hpc] at hd
      cases hd.1
    show (l.idleCount + 1).toNat = idleSinceLocal (os ++ [.idle]) % 2 ^ 32
    rw [UInt32.toNat_add, hold, idleSinceLocal_concat]
    show (idleSinceLocal os % 2 ^ 32 + 1) % 2 ^ 32 = (idleSinceLocal os + 1) % 2 ^ 32
    omega

variable {i : Fin n} {ls : List (Option Outcome)} {s : State n m U V} {l : RunLoop}

/-- **`idle_count` counts the idle iterations since the last one with local work**, modulo
2^32. -/
theorem idleCount_since (h : Run (Works poll i) always (State.init n m U V) ls s)
    (hl : s.loop i = some l) : Counts ls.reduceOption l := by
  induction h generalizing l with
  | nil =>
    cases hl
    exact ⟨nofun, fun _ => rfl⟩
  | @snoc ls a b o hr _ hs ih =>
    rw [List.reduceOption_append, List.reduceOption_singleton]
    rcases works_cases hs with ⟨rfl, hsame | hnone⟩ | ⟨l₀, l', h0, h1, hact⟩
    · rw [Option.toList_none, List.append_nil]
      exact ih (hsame ▸ hl)
    · rw [hnone] at hl
      cases hl
    · rw [h1] at hl
      cases hl
      exact hact.counts (ih h0)

/-! ## Overflow -/

/-- The increment of `idle_count` at the end of an idle iteration stays in `u32`. -/
def State.Raises (i : Fin n) (s : State n m U V) (o : Option Outcome) : Prop :=
  o = some .idle → ∀ l, s.loop i = some l → l.idleCount.toNat + 1 < 2 ^ 32

/-- What decides an idle iteration is the increment. -/
theorem Works.idle {s' : State n m U V} (h : Works poll i s (some .idle) s') :
    ∃ l, s.loop i = some l ∧ l.pc = .backoff := by
  rcases works_cases h with ⟨ho, -⟩ | ⟨l, l', hl, -, hact⟩
  · cases ho
  · cases hact with
    | idle hpc hf => exact ⟨l, hl, hpc⟩

/-- The value that an idle iteration raises. -/
theorem raised (hr : Run (Works poll i) always (State.init n m U V) ls s) (hl : s.loop i = some l)
    (hpc : l.pc = .backoff) : l.idleCount.toNat = idleSinceLocal ls.reduceOption % 2 ^ 32 :=
  (idleCount_since hr hl).since fun hd => by
    rw [hpc] at hd
    cases hd.1

/-- **No increment overflows exactly when no stretch of iterations without local work holds 2^32
idle ones.** -/
theorem run_raises_iff (h : Run (Works poll i) always (State.init n m U V) ls s) :
    Run (Works poll i) (State.Raises i) (State.init n m U V) ls s ↔
      ∀ q, q <:+: ls.reduceOption → .localWork ∉ q → q.count .idle < 2 ^ 32 := by
  have hlist : (∀ p, p <+: ls.reduceOption → idleSinceLocal p < 2 ^ 32) ↔
      ∀ q, q <:+: ls.reduceOption → .localWork ∉ q → q.count .idle < 2 ^ 32 := by
    refine forall_since_lt_iff.trans (forall_congr' fun q => imp_congr_right fun _ => ?_)
    refine imp_congr ⟨fun hq hm => hq _ hm rfl, fun hq o ho he => hq (he ▸ ho)⟩ ?_
    rfl
  rw [← hlist]
  constructor
  · intro hr
    clear h hlist
    induction hr with
    | nil =>
      intro p hp
      rw [List.prefix_nil.1 hp]
      exact Nat.two_pow_pos 32
    | @snoc ls a b o hr hG hs ih =>
      rw [List.reduceOption_append, List.reduceOption_singleton]
      intro p hp
      cases o with
      | none => exact ih p (by simpa using hp)
      | some o =>
        rcases List.prefix_concat_iff.1 hp with rfl | hp
        · have hlt := ih _ (List.prefix_rfl)
          rw [idleSinceLocal_concat]
          cases o with
          | localWork => exact Nat.two_pow_pos 32
          | stolen => exact hlt
          | idle =>
            obtain ⟨l, hl, hpc⟩ := Works.idle hs
            have hG := hG rfl l hl
            rw [raised (hr.mono fun _ _ _ => trivial) hl hpc, Nat.mod_eq_of_lt hlt] at hG
            exact hG
        · exact ih p hp
  · intro hp
    clear hlist
    induction h with
    | nil => exact Run.nil
    | @snoc ls a b o hr _ hs ih =>
      rw [List.reduceOption_append, List.reduceOption_singleton] at hp
      have hold := ih fun p h => hp p (h.trans (List.prefix_append _ _))
      refine hold.snoc (fun ho l hl => ?_) hs
      subst ho
      have hlt := hp _ List.prefix_rfl
      obtain ⟨l', hl', hpc⟩ := Works.idle hs
      rw [hl] at hl'
      cases hl'
      rw [Option.toList_some, idleSinceLocal_concat] at hlt
      rw [raised hr hl hpc, Nat.mod_eq_of_lt (Nat.lt_of_succ_lt hlt)]
      exact hlt

/-! ## `backoff_count` -/

/-- A `block_on` call has its counter at 1000 or less. -/
def Frame.BacksOff : Frame U V → Prop
  | .blockOn _ l => l.backoffCount.toNat ≤ 1000
  | _ => True

theorem BlockOnLoop.backoff_le {l : BlockOnLoop} (h : l.backoffCount.toNat ≤ 1000) :
    l.backoff.backoffCount.toNat ≤ 1000 := by
  unfold BlockOnLoop.backoff
  by_cases hh : l.helped = true
  · simp [hh]
  · have hadd : (l.backoffCount + 1).toNat = l.backoffCount.toNat + 1 := by
      rw [UInt32.toNat_add]
      exact Nat.mod_eq_of_lt (by simp only [UInt32.toNat_one]; omega)
    by_cases hlt : 1000 < l.backoffCount + 1
    · simp [hlt]
    · have hle : (l.backoffCount + 1).toNat ≤ 1000 := UInt32.le_iff_toNat_le.1 (UInt32.not_lt.1 hlt)
      simp only [hh, if_false, if_neg hlt, Bool.false_eq_true]
      exact hle

/-- An action of the helping loop keeps its counter, or backs off. -/
theorem Executor.help_backoff {sh sh' : Shared n U V} {l l' : BlockOnLoop} {c : StealChoice}
    {r : Option (Task U)} (h : Executor.help sh l c = (sh', l', r)) :
    l'.backoffCount = l.backoffCount ∨ l' = l.backoff := by
  unfold Executor.help at h
  split at h
  · cases h
    exact Or.inl rfl
  · split at h
    · split at h <;> cases h <;> exact Or.inl rfl
    · cases h
      exact Or.inl rfl
  · cases h
    exact Or.inr rfl

theorem threadStep_backsOff {sh sh' : Shared n U V} {t : ThreadId n m} {fs fs' : List (Frame U V)}
    (h : ThreadStep poll sh t fs sh' fs') (hfs : ∀ f ∈ fs, f.BacksOff) : ∀ f ∈ fs', f.BacksOff := by
  have hhelp : ∀ {ch : Nat} {l l' : BlockOnLoop} {c : StealChoice} {sh' : Shared n U V}
      {r : Option (Task U)}, Executor.help sh l c = (sh', l', r) →
      (Frame.blockOn ch l : Frame U V).BacksOff → (Frame.blockOn ch l' : Frame U V).BacksOff := by
    intro ch l l' c sh' r hh hle
    rcases Executor.help_backoff hh with heq | rfl
    · show l'.backoffCount.toNat ≤ 1000
      rw [heq]
      exact hle
    · exact BlockOnLoop.backoff_le hle
  cases h with
  | unwindRun | exit => exact fun _ hf => absurd hf List.not_mem_nil
  | startBlockOn task ch fs =>
    rw [List.forall_mem_cons] at hfs ⊢
    exact ⟨Nat.zero_le _, hfs.2⟩
  | help ch l c sh' l' fs _ hh =>
    rw [List.forall_mem_cons] at hfs ⊢
    exact ⟨hhelp hh hfs.1, hfs.2⟩
  | helpTask ch l c sh₁ l' task fs hh =>
    rw [List.forall_mem_cons] at hfs
    rw [List.forall_mem_cons, List.forall_mem_cons]
    exact ⟨beginPoll_frame poll sh₁ task (P := Frame.BacksOff) trivial fun _ => trivial,
      hhelp hh hfs.1, hfs.2⟩
  | runTask i l c sh₁ l' task fs _ hh =>
    rw [List.forall_mem_cons] at hfs
    rw [List.forall_mem_cons, List.forall_mem_cons]
    exact ⟨beginPoll_frame poll sh₁ task (P := Frame.BacksOff) trivial fun _ => trivial, trivial,
      hfs.2⟩
  | callSpawn | callBlockOn | dropLastRuntime | unwindLast =>
    rw [List.forall_mem_cons] at hfs
    rw [List.forall_mem_cons, List.forall_mem_cons]
    exact ⟨trivial, trivial, hfs.2⟩
  | finishedRun | finishedHelp | requeue | spawned | dropSelf | dropQueue =>
    exact (List.forall_mem_cons.1 hfs).2
  | resume r task k fs | unwindBlockOn ch l fs =>
    rw [List.forall_mem_cons, List.forall_mem_cons] at hfs
    rw [List.forall_mem_cons]
    exact ⟨trivial, hfs.2.2⟩
  | _ =>
    rw [List.forall_mem_cons] at hfs ⊢
    exact ⟨trivial, hfs.2⟩

/-- **`backoff_count` never passes 1000.** -/
theorem backoffCount_le {G : State n m U V → ThreadId n m → Prop} {s : State n m U V}
    (h : Reachable poll G s) (t : ThreadId n m) : ∀ f ∈ s.threads t, f.BacksOff := by
  obtain ⟨ts, hr⟩ := h
  revert t
  refine hr.invariant (P := fun a => ∀ t, ∀ f ∈ a.threads t, f.BacksOff) ?_ ?_
  · rintro (i | i) f hf <;> cases List.mem_singleton.1 hf <;> trivial
  · rintro a t b ha - ⟨hs, -⟩ t' f hf
    rcases mem_update_cases hf with hf | hf
    · exact threadStep_backsOff hs (ha t) f hf
    · exact ha t' f hf

/-! ## Both counters -/

theorem reachable_of_works (h : Run (Works poll i) always (State.init n m U V) ls s) :
    Reachable poll always s := by
  induction h with
  | nil => exact ⟨[], Run.nil⟩
  | snoc _ _ hs ih =>
    obtain ⟨ts, hr⟩ := ih
    obtain ⟨t, hs, -⟩ := hs
    exact ⟨ts ++ [t], hr.snoc trivial hs⟩

/-- **The back-off counters stay in `u32`** in exactly those runs in which no worker has 2^32 idle
iterations without one with local work among them; `block_on`'s always does. -/
theorem backoff_counters_fit (i : Fin n) {ls : List (Option Outcome)} {s : State n m U V}
    (h : Run (Works poll i) always (State.init n m U V) ls s) :
    (Run (Works poll i) (State.Raises i) (State.init n m U V) ls s ↔
      ∀ q, q <:+: ls.reduceOption → .localWork ∉ q → q.count .idle < 2 ^ 32) ∧
    ∀ t ch l, .blockOn ch l ∈ s.threads t → l.backoffCount.toNat + 1 < 2 ^ 32 := by
  refine ⟨run_raises_iff h, fun t ch l hl => ?_⟩
  have hle : l.backoffCount.toNat ≤ 1000 := backoffCount_le (reachable_of_works h) t _ hl
  omega

/-- A run of one worker: an idle iteration, then one that steals the task spawned meanwhile. -/
def Sample.late : List (ThreadId 1 1 × Choice Sample Nat) :=
  turns (.inl (Fin.last 0)) 6 (.steal (.batch 0)) ++
    (.inr (Fin.last 0), .code (Sample.spawns [.value 7])) ::
      turns (.inr (Fin.last 0)) 2 (.answer 0) ++
    turns (.inl (Fin.last 0)) 7 (.steal (.batch 0))

theorem run_late : ∃ (ls : List (Option Outcome)) (s : State 1 1 Sample Nat),
    Run (Works Sample.burst 0) always (State.init 1 1 Sample Nat) ls s ∧
      ls.reduceOption = [.idle, .stolen] ∧ s.loop 0 = some ⟨.top, true, 1⟩ :=
  works_of_exec Sample.burst _ _ Sample.late (by decide)

theorem backoff_counters_fit_late : ∃ (ls : List (Option Outcome)) (s : State 1 1 Sample Nat),
    ls.reduceOption = [.idle, .stolen] ∧
    Run (Works Sample.burst 0) (State.Raises 0) (State.init 1 1 Sample Nat) ls s := by
  obtain ⟨ls, s, hr, hls, -⟩ := run_late
  refine ⟨ls, s, hls, (backoff_counters_fit 0 hr).1.2 fun q hq _ => ?_⟩
  have hlen := (List.count_le_length (a := Outcome.idle) (l := q)).trans hq.length_le
  rw [hls] at hlen
  exact hlen.trans_lt (by decide)

/-- A worker that takes an action of its loop without finding a task. -/
theorem works_look (poll : U → Burst U V) (l' : RunLoop) {c : StealChoice}
    (hfs : s.threads (.inl i) = [.run l])
    (htop : l.pc = .top → s.shared.shutdown = false)
    (hstep : WorkerThread.step i s.shared l c = (s.shared, l', none)) :
    ∃ s', Works poll i s (l.outcome l') s' ∧ s'.threads (.inl i) = [.run l'] ∧
      s'.shared = s.shared := by
  have hts : ThreadStep (m := m) poll s.shared (.inl i)
    (s.threads (.inl i)) s.shared [.run l'] := by
    rw [hfs]
    exact ThreadStep.run i l c s.shared l' [] rfl htop hstep
  refine ⟨_, ⟨.inl i, Step.mk hts ?_, ?_⟩, update_self .., rfl⟩
  · exact fun hpos hzero => absurd hzero hpos.ne'
  · simp [State.outcome, State.loop, hfs, loopOf]

/-- A worker alone with nothing to do goes on without end. -/
theorem idle_run (poll : U → Burst U V) (m k : Nat) :
    ∃ (ls : List (Option Outcome)) (s : State 1 m U V) (f : Bool) (c : UInt32),
      Run (Works poll 0) always (State.init 1 m U V) ls s ∧
      s.threads (.inl 0) = [.run ⟨.top, f, c⟩] ∧ s.shared = ExecutorInner.new 1 U V ∧
      ls.reduceOption = List.replicate k .idle := by
  induction k with
  | zero => exact ⟨[], _, false, 0, Run.nil, rfl, rfl, rfl⟩
  | succ k ih =>
    obtain ⟨ls, s, f, c, hr, hfs, hsh, hls⟩ := ih
    have hnew : s.shared.shutdown = false := by rw [hsh]; rfl
    obtain ⟨s₁, h1, hfs₁, hsh₁⟩ := works_look poll ⟨.drain, false, c⟩ (c := .batch 0) hfs
      (fun _ => hnew) rfl
    obtain ⟨s₂, h2, hfs₂, hsh₂⟩ := works_look poll ⟨.steal, false, c⟩ (c := .batch 0)
      hfs₁ nofun (by rw [hsh₁, hsh]; rfl)
    obtain ⟨s₃, h3, hfs₃, hsh₃⟩ := works_look poll ⟨.peer 0, false, c⟩ (c := .batch 0)
      hfs₂ nofun (by rw [hsh₂, hsh₁, hsh]; rfl)
    obtain ⟨s₄, h4, hfs₄, hsh₄⟩ := works_look poll ⟨.peer 1, false, c⟩ (c := .batch 0)
      hfs₃ nofun (by rw [hsh₃, hsh₂, hsh₁, hsh]; rfl)
    obtain ⟨s₅, h5, hfs₅, hsh₅⟩ := works_look poll ⟨.backoff, false, c⟩ (c := .batch 0)
      hfs₄ nofun (by rw [hsh₄, hsh₃, hsh₂, hsh₁, hsh]; rfl)
    obtain ⟨s₆, h6, hfs₆, hsh₆⟩ := works_look poll ⟨.top, false, c + 1⟩ (c := .batch 0)
      hfs₅ nofun rfl
    refine ⟨_, s₆, false, c + 1, (((((hr.snoc trivial h1).snoc trivial h2).snoc trivial h3).snoc
      trivial h4).snoc trivial h5).snoc trivial h6, hfs₆, ?_, ?_⟩
    · rw [hsh₆, hsh₅, hsh₄, hsh₃, hsh₂, hsh₁, hsh]
    · simp [List.reduceOption_append, hls, RunLoop.outcome, List.replicate_succ']

/-- A worker that has been idle 2^32 times has overflowed. -/
theorem not_backoff_counters_fit : ¬ ∀ ls (s : State 1 1 Sample Nat),
    Run (Works Sample.burst 0) always (State.init 1 1 Sample Nat) ls s →
      Run (Works Sample.burst 0) (State.Raises 0) (State.init 1 1 Sample Nat) ls s := by
  intro h
  obtain ⟨ls, s, f, c, hr, -, -, hls⟩ := idle_run Sample.burst 1 (2 ^ 32)
  have hlt := (run_raises_iff hr).1 (h ls s hr) ls.reduceOption List.infix_rfl (by
    rw [hls]
    exact fun hm => absurd (List.eq_of_mem_replicate hm) (by decide))
  rw [hls, List.count_replicate_self] at hlt
  exact lt_irrefl _ hlt

/-! ## Restarting after work -/

/-- A prefix of the run `ls` after which worker `i` is between two iterations, `p` being decided. -/
def Tops (poll : U → Burst U V) (m : Nat) (i : Fin n) (ls : List (Option Outcome))
    (p : List Outcome) : Prop :=
  ∃ ls₁ l₁, ∃ s₁ : State n m U V, ls₁ <+: ls ∧ ls₁.reduceOption = p ∧
    Run (Works poll i) always (State.init n m U V) ls₁ s₁ ∧ s₁.loop i = some l₁ ∧ l₁.pc = .top

theorem Tops.append {p : List Outcome} (h : Tops poll m i ls p) (o : Option Outcome) :
    Tops poll m i (ls ++ [o]) p := by
  obtain ⟨ls₁, l₁, s₁, hp, h⟩ := h
  exact ⟨ls₁, l₁, s₁, hp.trans (List.prefix_append ls [o]), h⟩

/-- An outcome is decided in an iteration, so the run was between two before it. -/
theorem run_tops (h : Run (Works poll i) always (State.init n m U V) ls s) :
    (∀ p, p <+: ls.reduceOption → p ≠ ls.reduceOption → Tops poll m i ls p) ∧
    ∀ l, s.loop i = some l → ¬ (l.pc = .backoff ∧ l.foundWork = true) →
      Tops poll m i ls ls.reduceOption := by
  induction h with
  | nil =>
    refine ⟨fun p hp hne => absurd (List.prefix_nil.1 hp) hne, fun l hl _ => ?_⟩
    exact ⟨[], .start, State.init n m U V, List.prefix_rfl, rfl, Run.nil, rfl, rfl⟩
  | @snoc ls a b o hr _ hs ih =>
    obtain ⟨hold, hnow⟩ := ih
    have hrun := hr.snoc trivial hs
    rw [List.reduceOption_append, List.reduceOption_singleton]
    have hquiet : ∀ {l : RunLoop}, a.loop i = some l → ¬ (l.pc = .backoff ∧ l.foundWork = true) →
        Tops poll m i (ls ++ [o]) ls.reduceOption := fun hl hpass => (hnow _ hl hpass).append o
    have hback : ∀ {l' : RunLoop}, b.loop i = some l' → l'.pc = .top →
        Tops poll m i (ls ++ [o]) (ls.reduceOption ++ o.toList) := by
      intro l' hl' htop
      refine ⟨ls ++ [o], l', b, List.prefix_rfl, ?_, hrun, hl', htop⟩
      rw [List.reduceOption_append, List.reduceOption_singleton]
    have hlooks : ∀ (x : Outcome) {l : RunLoop}, a.loop i = some l →
        ¬ (l.pc = .backoff ∧ l.foundWork = true) → ∀ p, p <+: ls.reduceOption ++ [x] →
        p ≠ ls.reduceOption ++ [x] → Tops poll m i (ls ++ [o]) p := by
      intro x l hl hpass p hp hne
      rcases List.prefix_concat_iff.1 hp with rfl | hp
      · exact absurd rfl hne
      · by_cases heq : p = ls.reduceOption
        · rw [heq]
          exact hquiet hl hpass
        · exact (hold p hp heq).append o
    rcases works_cases hs with ⟨rfl, hb⟩ | ⟨l, l', hl, hl', hact⟩
    · rw [Option.toList_none, List.append_nil]
      refine ⟨fun p hp hne => (hold p hp hne).append none, fun l hl hpass => ?_⟩
      rcases hb with hb | hb
      · exact (hnow l (hb ▸ hl) hpass).append none
      · rw [hb] at hl
        cases hl
    · -- while nothing is decided, the state at the top is the old one, or the new one itself
      have hnone : o = none → ¬ (l.pc = .backoff ∧ l.foundWork = true) →
          (∀ p, p <+: ls.reduceOption ++ o.toList → p ≠ ls.reduceOption ++ o.toList →
            Tops poll m i (ls ++ [o]) p) ∧
              Tops poll m i (ls ++ [o]) (ls.reduceOption ++ o.toList) := by
        rintro rfl hpass
        rw [Option.toList_none, List.append_nil]
        exact ⟨fun p hp hne => (hold p hp hne).append none, hquiet hl hpass⟩
      cases hact with
      | start hpc | pop hpc | dry hpc hf =>
        obtain ⟨h1, h2⟩ := hnone rfl fun hb => by
          rw [hpc] at hb
          cases hb.1
        exact ⟨h1, fun _ _ _ => h2⟩
      | seek hseek _ | giveUp hseek _ =>
        obtain ⟨h1, h2⟩ := hnone rfl fun hb => hseek.2.2 hb.1
        exact ⟨h1, fun _ _ _ => h2⟩
      | drained hpc hf =>
        refine ⟨hlooks _ hl fun hb => ?_, fun l₁ hl₁ hpass => ?_⟩
        · rw [hpc] at hb
          cases hb.1
        · rw [hl'] at hl₁
          cases hl₁
          exact absurd ⟨rfl, hf⟩ hpass
      | stole hseek =>
        refine ⟨hlooks _ hl fun hb => hseek.2.2 hb.1, fun l₁ hl₁ hpass => ?_⟩
        rw [hl'] at hl₁
        cases hl₁
        exact absurd ⟨rfl, rfl⟩ hpass
      | rest hpc hf =>
        refine ⟨fun p hp hne => (hold p ?_ ?_).append none, fun _ _ _ => hback hl' rfl⟩
        · rwa [Option.toList_none, List.append_nil] at hp
        · rwa [Option.toList_none, List.append_nil] at hne
      | idle hpc hf =>
        refine ⟨hlooks _ hl fun hb => ?_, fun _ _ _ => hback hl' rfl⟩
        rw [hf] at hb
        cases hb.2

/-- The two counts agree, and with their remainders, exactly when they agree and are small. -/
theorem idle_counts_iff (os : List Outcome) :
    (∀ p, p <+: os → idleSinceLocal p % 2 ^ 32 = idleInARow p) ↔
      (∀ p, p <+: os → idleSinceLocal p = idleInARow p) ∧ ∀ p, p <+: os →
      idleInARow p < 2 ^ 32 := by
  constructor
  · intro h
    have hboth : ∀ p, p <+: os → idleSinceLocal p = idleInARow p ∧ idleInARow p < 2 ^ 32 := by
      intro p hp
      induction p using List.reverseRecOn with
      | nil => exact ⟨rfl, Nat.two_pow_pos 32⟩
      | append_singleton p o ih =>
        obtain ⟨heq, hlt⟩ := ih ((List.prefix_append p [o]).trans hp)
        have hmod := h _ hp
        rw [idleSinceLocal_concat, idleInARow_concat] at *
        cases o with
        | localWork => exact ⟨rfl, Nat.two_pow_pos 32⟩
        | stolen =>
          simp only at hmod ⊢
          omega
        | idle =>
          simp only at hmod ⊢
          omega
    exact ⟨fun p hp => (hboth p hp).1, fun p hp => (hboth p hp).2⟩
  · rintro ⟨heq, hlt⟩ p hp
    rw [heq p hp, Nat.mod_eq_of_lt (hlt p hp)]

/-- **`idle_count` restarts after work exactly in the runs that steal only when it is at zero.**
At the top of the loop it is the number of idle iterations in a row, all along a run, exactly when
no iteration of the run steals after an idle one without local work in between, and no 2^32
iterations in a row are idle. -/
theorem idleCount_restarts_iff (h : Run (Works poll i) always (State.init n m U V) ls s)
    (hl : s.loop i = some l) (htop : l.pc = .top) :
    (∀ ls₁ s₁ l₁, ls₁ <+: ls → Run (Works poll i) always (State.init n m U V) ls₁ s₁ →
      s₁.loop i = some l₁ → l₁.pc = .top → l₁.idleCount.toNat = idleInARow ls₁.reduceOption) ↔
    (∀ q, q ++ [.stolen] <:+: ls.reduceOption → .localWork ∉ q → .idle ∉ q) ∧
      ∀ q, q <:+: ls.reduceOption → (∀ o ∈ q, o = .idle) → q.length < 2 ^ 32 := by
  have hcount : ∀ {ls₁ s₁ l₁}, Run (Works poll i) always (State.init n m U V) ls₁ s₁ →
      s₁.loop i = some l₁ → l₁.pc = .top →
      l₁.idleCount.toNat = idleSinceLocal ls₁.reduceOption % 2 ^ 32 := by
    intro ls₁ s₁ l₁ hr hl₁ htop₁
    refine (idleCount_since hr hl₁).since fun hd => ?_
    rw [htop₁] at hd
    cases hd.1
  have hmod : (∀ ls₁ s₁ l₁, ls₁ <+: ls → Run (Works poll i) always (State.init n m U V) ls₁ s₁ →
      s₁.loop i = some l₁ → l₁.pc = .top → l₁.idleCount.toNat = idleInARow ls₁.reduceOption) ↔
      ∀ p, p <+: ls.reduceOption → idleSinceLocal p % 2 ^ 32 = idleInARow p := by
    constructor
    · intro hp p hpre
      obtain ⟨hold, hnow⟩ := run_tops h
      have htops : Tops poll m i ls p := by
        by_cases heq : p = ls.reduceOption
        · rw [heq]
          refine hnow l hl fun hb => ?_
          rw [htop] at hb
          cases hb.1
        · exact hold p hpre heq
      obtain ⟨ls₁, l₁, s₁, hpre₁, rfl, hr₁, hl₁, htop₁⟩ := htops
      rw [← hcount hr₁ hl₁ htop₁]
      exact hp ls₁ s₁ l₁ hpre₁ hr₁ hl₁ htop₁
    · intro hp ls₁ s₁ l₁ hpre hr₁ hl₁ htop₁
      obtain ⟨r, rfl⟩ := hpre
      rw [hcount hr₁ hl₁ htop₁]
      refine hp _ ?_
      rw [List.reduceOption_append]
      exact List.prefix_append _ _
  rw [hmod, idle_counts_iff]
  refine and_congr ?_ ?_
  · refine (forall_since_eq_iff (by rintro o rfl; decide) (fun o ho hi => ho hi)).trans ?_
    constructor
    · intro hq q hinf hlocal hidle
      refine hq q .stolen hinf (by decide) (by decide) ?_ _ hidle rfl
      rintro x hx rfl
      exact hlocal hx
    · rintro hq q o hinf ho ho' hlocal x hx rfl
      cases o with
      | localWork => exact ho' rfl
      | stolen => exact hq q hinf (fun hm => hlocal _ hm rfl) hx
      | idle => exact ho rfl
  · refine forall_since_lt_iff.trans (forall_congr' fun q => imp_congr_right fun _ => ?_)
    constructor
    · intro hq hall
      have hlt := hq fun o ho hne => hne (hall o ho)
      rwa [List.countP_eq_length.2 fun o ho => by simpa using hall o ho] at hlt
    · intro hq hall
      exact (List.countP_le_length).trans_lt (hq fun o ho => not_not.1 (hall o ho))

/-- The worker takes a batch, works on its deque, steals the last task and is idle. -/
theorem idleCount_restarts_iff_idle : ∃ ls : List (Option Outcome),
    ls.reduceOption = [.stolen, .localWork, .stolen, .idle] ∧
    ∀ ls₁ s₁ l₁, ls₁ <+: ls → Run (Works Sample.burst 0) always (State.init 1 1 Sample Nat) ls₁ s₁ →
      s₁.loop 0 = some l₁ → l₁.pc = .top → l₁.idleCount.toNat = idleInARow ls₁.reduceOption := by
  obtain ⟨ls, s, hr, hls, hl⟩ := works_of_exec (n := 1) (m := 1) (i := 0) Sample.burst
    [.stolen, .localWork, .stolen, .idle] ⟨.top, false, 1⟩
    ((.inr 0, .code (Sample.spawns [.value 5, .value 6, .value 7])) ::
      turns (.inr 0) 6 (.answer 0) ++
      turns (.inl 0) 3 (.steal (.batch 1)) ++ turns (.inl 0) 24 (.steal (.batch 0))) (by decide)
  refine ⟨ls, hls, (idleCount_restarts_iff hr hl rfl).2 ⟨fun q hq _ hm => ?_, fun q hq _ => ?_⟩⟩
  · have hsub : [Outcome.idle, .stolen].Sublist [.stolen, .localWork, .stolen, .idle] :=
      ((List.singleton_sublist.2 hm).append (List.Sublist.refl _)).trans (hls ▸ hq.sublist)
    exact absurd hsub (by decide)
  · rw [hls] at hq
    exact hq.length_le.trans_lt (by decide)

/-- After an idle iteration, one that steals leaves the count at 1. -/
theorem not_idleCount_restarts : ¬ ∀ ls (s : State 1 1 Sample Nat) l,
    Run (Works Sample.burst 0) always (State.init 1 1 Sample Nat) ls s → s.loop 0 = some l →
      l.pc = .top → l.idleCount.toNat = idleInARow ls.reduceOption := by
  intro h
  obtain ⟨ls, s, hr, hls, hl⟩ := run_late
  have hcount := h ls s _ hr hl rfl
  rw [hls] at hcount
  exact absurd hcount (by decide)

end Luminal.Std
