import Luminal.Lib.Custody
import Luminal.Std.Forget
import Luminal.Std.Stacks
import Luminal.Std.UntilEmpty
import Mathlib.Tactic.Abel

/-!
# Nobody uses a handle that he does not have

A `JoinHandle` is owned by one future at a time, and awaited once.  `Burst.Linear own M b` says that
the code `b` keeps to that, when it has the handles `M` and a future `u` has the handles `own u`:
what it hands on to a future it no longer has.  In every run of such code a handle is in one place,
on a stack or in a queued task (`entrusted_reachable`), so the code never polls or drops a handle
that is not there: all it can lack is a `Runtime` (`linear_lacks`).
-/

namespace Luminal

/-- A `JoinHandle` as the code that has it knows it. -/
inductive Grip where
  /-- not awaited so far, or its polls were `Pending` -/
  | fresh (handle : Nat)
  /-- its value has been taken -/
  | spent (handle : Nat)

def Grip.handle : Grip → Nat
  | .fresh h => h
  | .spent h => h

/-- The burst uses each of the handles `M` for itself or hands it on, and awaits it once. -/
def Burst.Linear {U V : Type} (own : U → Multiset Grip) : Multiset Grip → Burst U V → Prop
  | M, .pending u => own u ≤ M
  | _, .ready _ => True
  | _, .panic => True
  | M, .spawn u k => ∃ N, own u + N ≤ M ∧ ∀ h, (k h).Linear own (.fresh h ::ₘ N)
  | M, .blockOn u k => ∃ N, own u + N ≤ M ∧ ∀ r, (k r).Linear own N
  | M, .pollHandle h k => ∃ N, M = .fresh h ::ₘ N ∧ (k none).Linear own M ∧
      ∀ v, (k (some v)).Linear own (.spent h ::ₘ N)
  | M, .dropHandle h k => ∃ g N, M = g ::ₘ N ∧ g.handle = h ∧ k.Linear own N
  | M, .cloneRuntime k => k.Linear own M
  | M, .dropRuntime k => k.Linear own M
  | M, .outside k => ∀ x, (k x).Linear own M

/-- The handles of a queued task. -/
def Task.grips {U : Type} (own : U → Multiset Grip) (p : Task U) : Multiset Grip :=
  match p.future with
  | .wrapped _ u => own u
  | .completed => 0

namespace Std

open Function Transition

variable {n m : Nat} {U V : Type} {poll : U → Burst U V} {own : U → Multiset Grip}

/-! ## What the queued tasks have -/

section Held

variable {A : Type*} [AddCommMonoid A] (f : Task U → A)

/-- What the queued tasks have, all together. -/
def Shared.held (sh : Shared n U V) : A :=
  holdings f sh.globalQueue + total (holdings f) sh.locals

/-- **What a worker takes out of a queue is one task**, however many it moves. -/
theorem Took.held {i : Fin n} {sh sh' : Shared n U V} {pc : RunPc} {task : Task U}
    (h : Took i sh pc task sh') : sh.held f = f task + sh'.held f := by
  unfold Shared.held
  cases h with
  | pop q _ hq =>
    obtain ⟨r, hr, hr'⟩ := exists_total_eq (holdings f) sh.locals i
    rw [hr, hr', hq, holdings_cons]
    abel
  | batch k q _ hq =>
    obtain ⟨r, hr, hr'⟩ := exists_total_eq (holdings f) sh.locals i
    rw [hr, hr', hq, holdings_cons, holdings_append, ← holdings_take_add_drop f k q]
    abel
  | steal q _ hq =>
    rw [hq, holdings_cons]
    abel
  | peerBatch d k q hd hq =>
    obtain ⟨r, hr, hr'⟩ := exists_total_eq (holdings f) sh.locals d
    obtain ⟨r₁, hr₁, hr₁'⟩ := exists_total_eq (holdings f) (update sh.locals d (q.drop k)) i
    rw [update_of_ne (ne_of_gt hd), hr'] at hr₁
    rw [hr, hr₁', hq, holdings_cons, holdings_append, ← holdings_take_add_drop f k q]
    have hrest : holdings f (q.take k) + (holdings f (q.drop k) + r) =
        holdings f (q.take k) + (holdings f (sh.locals i) + r₁) := by
      rw [hr₁]
    calc _ = f task + holdings f sh.globalQueue +
          (holdings f (q.take k) + (holdings f (q.drop k) + r)) := by abel
      _ = _ := by
        rw [hrest]
        abel
  | peer d q hd hq =>
    obtain ⟨r, hr, hr'⟩ := exists_total_eq (holdings f) sh.locals d
    rw [hr, hr', hq, holdings_cons]
    abel

theorem held_push {sh sh' : Shared n U V} {p : Task U}
    (hq : sh'.globalQueue = sh.globalQueue ++ [p]) (hl : sh'.locals = sh.locals) :
    sh'.held f = sh.held f + f p := by
  unfold Shared.held
  rw [hq, hl, holdings_append, holdings_cons, holdings_nil, add_zero]
  exact add_right_comm _ _ _

end Held

theorem held_dropWorker {α : Type*} (f : Task U → Multiset α) (sh : Shared n U V) (i : Fin n) :
    (sh.dropWorker i).held f ≤ sh.held f := by
  have hif : ∀ (c : Prop) [Decidable c] (q : List (Task U)),
      holdings f (if c then [] else q) ≤ holdings f q := by
    intro c _ q
    split
    · exact Multiset.zero_le _
    · exact le_rfl
  exact add_le_add (hif _ _) (Finset.sum_le_sum fun d _ => hif _ _)

/-! ## Where the handles are -/

/-- The handles of the queued tasks. -/
def Shared.grips (own : U → Multiset Grip) (sh : Shared n U V) : Multiset Grip :=
  sh.held (Task.grips own)

/-- The stack `fs` has the handles `M`.  A new handle is there when `Executor::spawn` returns. -/
inductive Grips (own : U → Multiset Grip) : List (Frame U V) → Multiset Grip → Prop
  | nil : Grips own [] 0
  | idle (task : Option (Task U)) {fs : List (Frame U V)} {N : Multiset Grip} : Grips own fs N →
      Grips own (.user task .idle :: fs) N
  | run (task : Option (Task U)) {b : Burst U V} {fs : List (Frame U V)} {M N : Multiset Grip} :
      b.Linear own M → Grips own fs N → Grips own (.user task (.run b) :: fs) (M + N)
  | wait (task : Option (Task U)) {k : Option V → Burst U V} {fs : List (Frame U V)}
      {M N : Multiset Grip} : (∀ r, (k r).Linear own M) → Grips own fs N →
      Grips own (.user task (.wait k) :: fs) (M + N)
  | sent (p : Task U) {fs : List (Frame U V)} {N : Multiset Grip} : Grips own fs N →
      Grips own (.sent p :: fs) N
  | finished {fs : List (Frame U V)} {N : Multiset Grip} : Grips own fs N →
      Grips own (.finished :: fs) N
  | requeue (left : Option (Task U)) (owned : Task U) {fs : List (Frame U V)} {N : Multiset Grip} :
      Grips own fs N → Grips own (.requeue left owned :: fs) (owned.grips own + N)
  | spawn (p : Task U) (ch : Nat) (task : Option (Task U)) {b : Burst U V} {fs : List (Frame U V)}
      {M N : Multiset Grip} : b.Linear own (.fresh ch ::ₘ M) → Grips own fs N →
      Grips own (.spawn p ch false :: .user task (.run b) :: fs) (p.grips own + (M + N))
  | spawnBlocking (p : Task U) (ch : Nat) {fs : List (Frame U V)} {N : Multiset Grip} :
      Grips own fs N → Grips own (.spawn p ch true :: fs) (p.grips own + N)
  | loop (l : RunLoop) {fs : List (Frame U V)} {N : Multiset Grip} : Grips own fs N →
      Grips own (.run l :: fs) N
  | blockOn (ch : Nat) (l : BlockOnLoop) {fs : List (Frame U V)} {N : Multiset Grip} :
      Grips own fs N → Grips own (.blockOn ch l :: fs) N
  | result (r : Option V) {fs : List (Frame U V)} {N : Multiset Grip} : Grips own fs N →
      Grips own (.result r :: fs) N
  | dropInner (joined : Option Nat) {fs : List (Frame U V)} {N : Multiset Grip} : Grips own fs N →
      Grips own (.dropInner joined :: fs) N

/-- What the owner of a handle believes is so. -/
def Valid (sh : Shared n U V) : Grip → Prop
  | .fresh h => (sh.chan h).receiver = .handle ∧ recvs h sh.log = []
  | .spent h => (sh.chan h).receiver = .handle

theorem Valid.receiver {sh : Shared n U V} {g : Grip} (h : Valid sh g) :
    (sh.chan g.handle).receiver = .handle := by
  cases g with
  | fresh c => exact h.1
  | spent c => exact h

/-- Each handle is in one place, and is as its owner believes. -/
def Entrusted (own : U → Multiset Grip) (s : State n m U V) : Prop :=
  ∃ H : ThreadId n m → Multiset Grip, (∀ t, Grips own (s.threads t) (H t)) ∧
    Custody Grip.handle (Valid s.shared) (s.shared.grips own + total id H)

/-! ## Taking tasks out of queues -/

theorem grips_beginPoll (hown : ∀ u, (poll u).Linear own (own u)) (sh : Shared n U V) (p : Task U)
    {fs : List (Frame U V)} {N : Multiset Grip} (h : Grips own fs N) :
    Grips own ((sh.beginPoll poll p).2 :: fs) (p.grips own + N) := by
  obtain ⟨id, ⟨ch, u⟩ | _⟩ := p
  · exact .run _ (hown u) h
  · show Grips own (.finished :: fs) (0 + N)
    rw [zero_add]
    exact .finished h

/-- A poll of a handle that is `Pending` changes nothing. -/
theorem pollHandle_pending {sh : Shared n U V} {c : Nat} (h : (sh.pollHandle c).1 = none) :
    (sh.pollHandle c).2 = sh := by
  unfold Shared.pollHandle at h ⊢
  split at h
  · cases h
  · rfl

/-! ## One action -/

/-- Who takes a value out of a channel polls its handle, or waits for it in `block_on`. -/
theorem threadStep_recvs {sh sh' : Shared n U V} {t : ThreadId n m} {fs fs' : List (Frame U V)}
    (h : ThreadStep poll sh t fs sh' fs') (c : Nat) :
    recvs c sh'.log = recvs c sh.log ∨
      (∃ task k fs₁, fs = .user task (.run (.pollHandle c k)) :: fs₁) ∨
      ∃ l fs₁, fs = .blockOn c l :: fs₁ := by
  have silent : ∀ {l : List (Event U V)}, sh'.log = sh.log ++ l → (∀ e ∈ l, e.Silent) →
      recvs c sh'.log = recvs c sh.log := by
    intro l hl hsil
    rw [hl, recvs_append, (silent_projections c hsil).2.1, List.append_nil]
  cases h with
  | callSpawn task u k fs _ | callBlockOn task u k fs _ =>
    exact Or.inl (by simp [Shared.newTask, recvs])
  | pollHandle task d k fs _ =>
    by_cases hd : d = c
    · exact Or.inr (Or.inl ⟨task, k, fs, by rw [hd]⟩)
    · left
      unfold Shared.pollHandle
      split
      · simp [recvs, hd]
      · rfl
  | ready | endWrapped => exact Or.inl (by simp [recvs])
  | panic => exact Or.inl (by simp [Shared.destroy, recvs])
  | requeue left owned fs =>
    obtain ⟨l, hl, hsil⟩ := log_pushPending sh owned
    exact Or.inl (silent hl hsil)
  | spawned task d fs | startBlockOn task d fs =>
    obtain ⟨l, hl, hsil⟩ := log_pushSpawned sh task d _
    exact Or.inl (silent hl hsil)
  | recvOk d l v fs _ _ =>
    by_cases hd : d = c
    · exact Or.inr (Or.inr ⟨l, fs, by rw [hd]⟩)
    · exact Or.inl (by simp [recvs, hd])
  | help d l ch' sh' l' fs _ hh =>
    rw [Executor.help_none hh]
    exact Or.inl rfl
  | helpTask d l ch' sh₁ l' task fs hh =>
    obtain ⟨q, -, rfl⟩ := Executor.help_some hh
    obtain ⟨l, hl, hsil⟩ := log_beginPoll poll { sh with globalQueue := q } task
    exact Or.inl (silent hl hsil)
  | unwindRun | unwindLast | exit => exact Or.inl (by simp [Shared.dropWorker, Shared.destroy])
  | run i l d sh' l' fs _ _ hh =>
    rw [WorkerThread.step_none hh]
    exact Or.inl rfl
  | runTask i l d sh₁ l' task fs _ hh =>
    obtain ⟨l, hl, hsil⟩ := log_beginPoll poll sh₁ task
    refine Or.inl (silent ?_ hsil)
    rw [hl, (WorkerThread.step_some hh).eq]
  | dropQueue => exact Or.inl (by simp [Shared.destroy])
  | _ => exact Or.inl rfl

/-- The top frame polls or drops handle `c`. -/
def Touches (c : Nat) (fs : List (Frame U V)) : Prop := Touching (fun d => d == c) fs

theorem not_touches {fs : List (Frame U V)}
    (hpoll : ∀ task d k fs₁, fs ≠ .user task (.run (.pollHandle d k)) :: fs₁)
    (hdrop : ∀ task d k fs₁, fs ≠ .user task (.run (.dropHandle d k)) :: fs₁) (c : Nat) :
    ¬ Touches c fs := by
  rintro ⟨task, d, fs₁, -, ⟨k, hk⟩ | ⟨k, hk⟩⟩
  · exact hpoll task d k fs₁ hk
  · exact hdrop task d k fs₁ hk

theorem not_touches_pollHandle {c d : Nat} (hne : d ≠ c) {task : Option (Task U)}
    {k : Option V → Burst U V} {fs : List (Frame U V)} :
    ¬ Touches c (.user task (.run (.pollHandle d k)) :: fs) := by
  rintro ⟨task', e, fs₁, he, ⟨k', hk⟩ | ⟨k', hk⟩⟩
  · cases hk
    exact hne (eq_of_beq he)
  · cases hk

theorem not_touches_dropHandle {c d : Nat} (hne : d ≠ c) {task : Option (Task U)}
    {k : Burst U V} {fs : List (Frame U V)} :
    ¬ Touches c (.user task (.run (.dropHandle d k)) :: fs) := by
  rintro ⟨task', e, fs₁, he, ⟨k', hk⟩ | ⟨k', hk⟩⟩
  · cases hk
  · cases hk
    exact hne (eq_of_beq he)

/-- **What an owner believes of his handle stays so** when others act. -/
theorem threadStep_valid {sh sh' : Shared n U V} {t : ThreadId n m} {fs fs' : List (Frame U V)}
    (h : ThreadStep poll sh t fs sh' fs') (ho : Owns sh fs)
    (hnew : (sh.chan sh.spawned).receiver = .spawning) {g : Grip} (ht : ¬ Touches g.handle fs)
    (hg : Valid sh g) : Valid sh' g := by
  have hreceiver : (sh'.chan g.handle).receiver = .handle :=
    threadStep_held h ho hnew ht (beq_self_eq_true _) hg.receiver
  cases g with
  | spent c => exact hreceiver
  | fresh c =>
    refine ⟨hreceiver, ?_⟩
    rcases threadStep_recvs h c with heq | ⟨task, k, fs₁, hfs⟩ | ⟨l, fs₁, rfl⟩
    · exact heq.trans hg.2
    · exact absurd ⟨task, c, fs₁, beq_self_eq_true c, Or.inl ⟨k, hfs⟩⟩ ht
    · have hblock : (sh.chan c).receiver = .blockOn := ho _ List.mem_cons_self
      rw [hg.1] at hblock
      cases hblock

theorem pushSpawned_receiver (sh : Shared n U V) (task : Task U) (ch : Nat) :
    ((sh.pushSpawned task ch false).chan ch).receiver = .handle := by
  simp [Shared.pushSpawned]

/-- The handle of a new task comes to the code that called `spawn`. -/
theorem trade_spawned {sh : Shared n U V} {task : Task U} {ch : Nat} {N : Multiset Grip}
    (hlaw : ChannelLaw ch sh) (hch : (sh.chan ch).receiver = .spawning)
    (hvalid : ∀ g, Valid sh g → Valid (sh.pushSpawned task ch false) g) :
    Trade Grip.handle (Valid sh) (Valid (sh.pushSpawned task ch false))
      (sh.grips own + (task.grips own + N))
      ((sh.pushSpawned task ch false).grips own + Grip.fresh ch ::ₘ N) := by
  have hpush : (sh.pushSpawned task ch false).grips own = sh.grips own + task.grips own :=
    held_push _ rfl rfl
  rw [hpush, Multiset.add_cons, add_assoc]
  refine .get (Grip.fresh ch) ⟨?_, ?_⟩ (fun g hg hne => ?_) fun g _ => hvalid g
  · exact pushSpawned_receiver sh task ch
  · obtain ⟨l, hl, hsil⟩ := log_pushSpawned sh task ch false
    rw [hl, recvs_append, (silent_projections ch hsil).2.1, List.append_nil]
    exact hlaw.unread (Or.inl hch)
  · have hr := hg.receiver
    rw [hne] at hr
    exact absurd (hch.symm.trans hr) nofun

/-- A panic has no use for handles. -/
theorem linear_afterDrop {M : Multiset Grip} {k : Burst U V} (h : k.Linear own M)
    (t : ThreadId n m) : (afterDrop t k).Linear own M := by
  cases t with
  | inl i => trivial
  | inr o => exact h

/-- **An action of linear code trades** the handles of its thread and of the queued tasks. -/
theorem threadStep_trade {sh sh' : Shared n U V} {t : ThreadId n m} {fs fs' : List (Frame U V)}
    (h : ThreadStep poll sh t fs sh' fs') (hown : ∀ u, (poll u).Linear own (own u))
    (ho : Owns sh fs) (hlaw : ∀ c, ChannelLaw c sh)
    (hnew : (sh.chan sh.spawned).receiver = .spawning) {M : Multiset Grip} (hg : Grips own fs M)
    (henter : ∀ b fs₁, fs = .user none .idle :: fs₁ → fs' = .user none (.run b) :: fs₁ →
      b.Linear own 0) :
    ∃ M', Grips own fs' M' ∧
      Trade Grip.handle (Valid sh) (Valid sh') (sh.grips own + M) (sh'.grips own + M') := by
  have hvalid : ∀ g : Grip, ¬ Touches g.handle fs → Valid sh g → Valid sh' g :=
    fun g ht => threadStep_valid h ho hnew ht
  have hkeep : ∀ {M'}, (∀ c, ¬ Touches c fs) → Grips own fs' M' →
      sh'.grips own + M' ≤ sh.grips own + M → ∃ M', Grips own fs' M' ∧
        Trade Grip.handle (Valid sh) (Valid sh') (sh.grips own + M) (sh'.grips own + M') :=
    fun ht hg' hle => ⟨_, hg', .keep hle fun g => hvalid g (ht g.handle)⟩
  cases h with
  | enter b fs =>
    cases hg with
    | idle _ hN =>
      refine hkeep (not_touches nofun nofun) (.run none (henter b fs rfl rfl) hN) ?_
      rw [zero_add]
  | leavePending | leaveReady | leavePanic =>
    cases hg with
    | run _ hb hN =>
      exact hkeep (not_touches nofun nofun) (.idle none hN)
        (add_le_add_right (Multiset.le_add_left _ _) _)
  | outside task k fs x =>
    cases hg with
    | run _ hb hN => exact hkeep (not_touches nofun nofun) (.run _ (hb x) hN) le_rfl
  | cloneRuntime | dropRuntime =>
    cases hg with
    | run _ hb hN => exact hkeep (not_touches nofun nofun) (.run _ hb hN) le_rfl
  | dropLastRuntime task k fs _ =>
    cases hg with
    | run _ hb hN =>
      have hafter := linear_afterDrop (k := k) hb t
      exact hkeep (not_touches nofun nofun) (.dropInner none (.run _ hafter hN)) le_rfl
  | callSpawn task u k fs _ =>
    cases hg with
    | run _ hb hN =>
      obtain ⟨N, hle, hk⟩ := hb
      refine hkeep (not_touches nofun nofun) (.spawn _ _ _ (hk sh.spawned) hN) ?_
      refine add_le_add_right ?_ (sh.grips own)
      rw [← add_assoc]
      exact add_le_add_left hle _
  | callBlockOn task u k fs _ =>
    cases hg with
    | run _ hb hN =>
      obtain ⟨N, hle, hk⟩ := hb
      refine hkeep (not_touches nofun nofun) (.spawnBlocking _ _ (.wait _ hk hN)) ?_
      refine add_le_add_right ?_ (sh.grips own)
      rw [← add_assoc]
      exact add_le_add_left hle _
  | pollHandle task c k fs hc =>
    cases hg with
    | run _ hb hN =>
      obtain ⟨N, rfl, hnone, hsome⟩ := hb
      have hqueues : (sh.pollHandle c).2.grips own = sh.grips own := by
        rw [pollHandle_eq]
        rfl
      rw [hqueues]
      cases hv : (sh.pollHandle c).1 with
      | none =>
        refine ⟨_, .run _ hnone hN, .keep le_rfl fun g hg => ?_⟩
        rwa [pollHandle_pending hv]
      | some v =>
        refine ⟨_, .run _ (hsome v) hN, ?_⟩
        rw [Multiset.cons_add, Multiset.cons_add, Multiset.add_cons, Multiset.add_cons]
        refine .swap (Grip.fresh c) (Grip.spent c) rfl ((pollHandle_receiver sh c c).trans hc) ?_
        exact fun g hne hg => hvalid g (not_touches_pollHandle hne.symm) hg
  | dropHandle task c k fs hc =>
    cases hg with
    | run _ hb hN =>
      obtain ⟨g, N, rfl, rfl, hk⟩ := hb
      refine ⟨_, .run _ hk hN, ?_⟩
      rw [Multiset.cons_add, Multiset.add_cons]
      exact .give g fun y hne hy => hvalid y (not_touches_dropHandle hne.symm) hy
  | pendingRun | pendingHelp =>
    cases hg with
    | run _ hb hN =>
      refine hkeep (not_touches nofun nofun) (.requeue _ _ hN) ?_
      exact add_le_add_right (add_le_add_left hb _) (sh.grips own)
  | ready =>
    cases hg with
    | run _ hb hN =>
      exact hkeep (not_touches nofun nofun) (.sent _ hN)
        (add_le_add_right (Multiset.le_add_left _ _) _)
  | panic =>
    cases hg with
    | run _ hb hN =>
      exact hkeep (not_touches nofun nofun) (.result none hN)
        (add_le_add_right (Multiset.le_add_left _ _) _)
  | endWrapped =>
    cases hg with
    | sent _ hN => exact hkeep (not_touches nofun nofun) (.finished hN) le_rfl
  | finishedRun | finishedHelp =>
    cases hg with
    | finished hN => exact hkeep (not_touches nofun nofun) hN le_rfl
  | requeue left owned fs =>
    cases hg with
    | requeue _ _ hN =>
      refine hkeep (not_touches nofun nofun) hN (le_of_eq ?_)
      have hpush : (sh.pushPending owned).grips own = sh.grips own + owned.grips own :=
        held_push _ rfl rfl
      rw [hpush, add_assoc]
  | spawned task ch fs =>
    have hquiet : ∀ c, ¬ Touches c (.spawn task ch false :: fs') := not_touches nofun nofun
    cases hg with
    | spawn _ _ _ hb hN =>
      refine ⟨_, .run _ hb hN, ?_⟩
      rw [Multiset.cons_add]
      exact trade_spawned (hlaw ch) (ho _ List.mem_cons_self) fun g => hvalid g (hquiet g.handle)
  | startBlockOn task ch fs =>
    cases hg with
    | spawnBlocking _ _ hN =>
      refine hkeep (not_touches nofun nofun) (.blockOn _ _ hN) (le_of_eq ?_)
      have hpush : (sh.pushSpawned task ch true).grips own = sh.grips own + task.grips own :=
        held_push _ rfl rfl
      rw [hpush, add_assoc]
  | recvOk | recvDisconnected =>
    cases hg with
    | blockOn _ _ hN => exact hkeep (not_touches nofun nofun) (.result _ hN) le_rfl
  | help c l ch' sh' l' fs _ hh =>
    cases hg with
    | blockOn _ _ hN =>
      refine hkeep (not_touches nofun nofun) (.blockOn _ _ hN) ?_
      rw [Executor.help_none hh]
  | helpTask c l ch' sh₁ l' task fs hh =>
    obtain ⟨q, hq, rfl⟩ := Executor.help_some hh
    cases hg with
    | blockOn _ _ hN =>
      refine hkeep (not_touches nofun nofun) (grips_beginPoll hown _ _ (.blockOn _ _ hN)) ?_
      rw [beginPoll_eq]
      refine le_of_eq ?_
      simp only [Shared.grips, Shared.held, hq, holdings_cons]
      abel
  | resume r task k fs =>
    cases hg with
    | result _ hN =>
      cases hN with
      | wait _ hk hN => exact hkeep (not_touches nofun nofun) (.run _ (hk r) hN) le_rfl
  | unwindBlockOn =>
    cases hg with
    | result _ hN =>
      cases hN with
      | blockOn _ _ hN => exact hkeep (not_touches nofun nofun) (.result none hN) le_rfl
  | unwindRun i | exit i =>
    refine hkeep (not_touches nofun nofun) .nil ?_
    exact add_le_add (held_dropWorker _ sh i) (Multiset.zero_le _)
  | unwindLast i =>
    exact hkeep (not_touches nofun nofun) (.dropInner none hg)
      (add_le_add_left (held_dropWorker _ sh i) _)
  | run i l c sh' l' fs _ _ hh =>
    cases hg with
    | loop _ hN =>
      refine hkeep (not_touches nofun nofun) (.loop _ hN) ?_
      rw [WorkerThread.step_none hh]
  | runTask i l c sh₁ l' task fs _ hh =>
    cases hg with
    | loop _ hN =>
      refine hkeep (not_touches nofun nofun) (grips_beginPoll hown _ _ (.loop _ hN)) ?_
      have htook : sh.grips own = task.grips own + sh₁.grips own :=
        (WorkerThread.step_some hh).held _
      rw [beginPoll_eq, htook, ← add_assoc, add_comm (task.grips own)]
      exact le_rfl
  | dropSignal | dropJoin =>
    cases hg with
    | dropInner _ hN => exact hkeep (not_touches nofun nofun) (.dropInner _ hN) le_rfl
  | dropSelf =>
    cases hg with
    | dropInner _ hN => exact hkeep (not_touches nofun nofun) hN le_rfl
  | dropQueue =>
    cases hg with
    | dropInner _ hN =>
      refine hkeep (not_touches nofun nofun) hN (add_le_add_left ?_ _)
      exact add_le_add_left (Multiset.zero_le _) _

/-! ## Every reachable state -/

/-- The code that an idle thread starts is linear; it has no handle yet. -/
def State.StartsLinear (own : U → Multiset Grip) (s : State n m U V)
    (tc : ThreadId n m × Choice U V) : Prop :=
  ∀ b fs, s.threads tc.1 = .user none .idle :: fs → tc.2 = .code b → b.Linear own 0

/-- An idle thread goes on with the code that it is given. -/
theorem Chosen.enters {a b : State n m U V} {tc : ThreadId n m × Choice U V} {c : Burst U V}
    {fs fs₁ : List (Frame U V)} (h : Chosen poll a tc b)
    (hfs : a.threads tc.1 = .user none .idle :: fs)
    (hfs₁ : b.threads tc.1 = .user none (.run c) :: fs₁) : tc.2 = .code c := by
  obtain ⟨t, x⟩ := tc
  obtain ⟨sh', fs', hexec, rfl⟩ := h.exists_exec
  rw [hfs] at hexec
  simp only [update_self] at hfs₁
  subst hfs₁
  cases x with
  | code b =>
    cases hexec
    rfl
  | _ => cases hexec

theorem entrusted_init (own : U → Multiset Grip) : Entrusted own (State.init n m U V) := by
  refine ⟨fun _ => 0, ?_, ?_⟩
  · rintro (i | i)
    · exact .loop _ .nil
    · exact .idle _ .nil
  · have hnone : (State.init n m U V).shared.grips own +
        total id (fun _ : ThreadId n m => 0) = 0 := by
      simp [Shared.grips, Shared.held, total, State.init, ExecutorInner.new]
    rw [hnone]
    exact ⟨Multiset.nodup_zero, fun g hg => absurd hg (Multiset.notMem_zero g)⟩

theorem entrusted_step {a b : State n m U V} {tc : ThreadId n m × Choice U V}
    (hown : ∀ u, (poll u).Linear own (own u)) (ha : Accounted a) (hd : Delivered a)
    (h : Entrusted own a) (hG : a.StartsLinear own tc) (hs : Chosen poll a tc b) :
    Entrusted own b := by
  obtain ⟨H, hgrips, hcustody⟩ := h
  have hnew := (hd.channel a.shared.spawned).pushed.2 (ha.fresh le_rfl).1
  have hstep := hs.step
  obtain @⟨sh', fs', hts, -⟩ := hstep
  obtain ⟨M', hgrips', htrade⟩ := threadStep_trade hts hown (hd.owns ha tc.1) hd.channel hnew
    (hgrips tc.1) fun c fs₁ hfs hfs₁ => hG c fs₁ hfs (hs.enters hfs (by simpa using hfs₁))
  obtain ⟨r, hr, hr'⟩ := exists_total_eq id H tc.1
  refine ⟨update H tc.1 M', fun t => ?_, ?_⟩
  · by_cases ht : t = tc.1
    · subst ht
      simpa using hgrips'
    · simpa [update_of_ne ht] using hgrips t
  · rw [hr, id, ← add_assoc] at hcustody
    rw [hr', id, ← add_assoc]
    exact hcustody.trade htrade

/-- **Linear code has each handle in one place**, in every run. -/
theorem entrusted_reachable (hown : ∀ u, (poll u).Linear own (own u))
    {tcs : List (ThreadId n m × Choice U V)} {s : State n m U V}
    (h : Run (Chosen poll) (State.StartsLinear own) (State.init n m U V) tcs s) :
    Entrusted own s :=
  h.invariant_with (R := fun s => Accounted s ∧ Delivered s)
    (fun _ _ hr => ⟨accounted_reachable (Chosen.reachable hr),
      delivered_reachable (Chosen.reachable hr)⟩)
    (entrusted_init own) fun _ _ _ hR ha hG hs => entrusted_step hown hR.1 hR.2 ha hG hs

section Holders

variable {s : State n m U V} {t : ThreadId n m} {task : Option (Task U)} {c : Nat}
  {fs : List (Frame U V)} {M : Multiset Grip}

theorem Grips.polled {k : Option V → Burst U V}
    (h : Grips own (.user task (.run (.pollHandle c k)) :: fs) M) : .fresh c ∈ M := by
  cases h with
  | run _ hb _ =>
    obtain ⟨N, rfl, -⟩ := hb
    simp

theorem Grips.dropped {k : Burst U V}
    (h : Grips own (.user task (.run (.dropHandle c k)) :: fs) M) : ∃ g ∈ M, g.handle = c := by
  cases h with
  | run _ hb _ =>
    obtain ⟨g, N, rfl, rfl, -⟩ := hb
    exact ⟨g, by simp, rfl⟩

/-- What a thread has is as it believes. -/
theorem Entrusted.valid (h : Entrusted own s) (t : ThreadId n m) :
    ∃ M, Grips own (s.threads t) M ∧ ∀ g ∈ M, Valid s.shared g := by
  obtain ⟨H, hgrips, hcustody⟩ := h
  obtain ⟨r, hr, -⟩ := exists_total_eq id H t
  refine ⟨H t, hgrips t, fun g hg => hcustody.sound g ?_⟩
  rw [hr, id]
  exact Multiset.mem_add.2 (Or.inr (Multiset.mem_add.2 (Or.inl hg)))

/-- A handle that is polled has not been awaited. -/
theorem Entrusted.fresh (h : Entrusted own s) {k : Option V → Burst U V}
    (hfs : s.threads t = .user task (.run (.pollHandle c k)) :: fs) :
    Valid s.shared (.fresh c) := by
  obtain ⟨M, hM, hvalid⟩ := h.valid t
  rw [hfs] at hM
  exact hvalid _ hM.polled

end Holders

/-- What the sample futures have. -/
def Sample.grips : Sample → Multiset Grip
  | .await h => {.fresh h}
  | .blockOn u => Sample.grips u
  | _ => 0

theorem Sample.linear (u : Sample) : (Sample.burst u).Linear Sample.grips (Sample.grips u) := by
  cases u with
  | value v => trivial
  | yield v => exact le_rfl
  | await h => exact ⟨0, rfl, le_rfl, fun v => trivial⟩
  | blockOn u =>
    refine ⟨0, le_of_eq (add_zero _), fun r => ?_⟩
    cases r <;> trivial
  | panic => trivial

end Std

end Luminal
