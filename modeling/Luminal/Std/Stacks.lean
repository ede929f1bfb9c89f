import Luminal.Std.Aftermath
import Luminal.Std.Exec

/-!
# What a stack can look like, and which threads can move

`Stacked` is the grammar of the stacks of a reachable state: a poll is in progress on top of a loop,
and below a `block_on` loop lies the code that called it, which may be in a poll itself.  So there
is a case for every stack, and each but a few has an action (`enabled_iff`): the one place where the
executor waits is `handle.join()`.  With the ownership that Rust checks, some thread can always move
until all is over, unless a worker that unwinds joins itself and the process aborts
(`exists_enabled`).
-/

namespace Luminal.Std

open Function Transition

variable {n m : Nat} {U V : Type} {poll : U → Burst U V}

/-! ## The grammar -/

mutual

/-- What lies below code of `task`; `none` is a thread's own code. -/
inductive Below (worker : Bool) : Option (Task U) → List (Frame U V) → Prop
  | thread : worker = false → Below worker none []
  | poll (id : TaskId) (ch : Nat) (u : U) {fs : List (Frame U V)} : Loops worker fs →
      Below worker (some ⟨id, .wrapped ch u⟩) fs

/-- A stack with the loop of `run` or of `block_on` on top. -/
inductive Loops (worker : Bool) : List (Frame U V) → Prop
  | run (l : RunLoop) : worker = true → Loops worker [.run l]
  | blockOn (ch : Nat) (l : BlockOnLoop) (k : Option V → Burst U V) {task : Option (Task U)}
      {fs : List (Frame U V)} : Below worker task fs →
      Loops worker (.blockOn ch l :: .user task (.wait k) :: fs)

end

/-- The stacks of a worker thread or of a thread outside, one case for each kind of frame on top. -/
inductive Stacked (n : Nat) (worker : Bool) : List (Frame U V) → Prop
  | dead : worker = true → Stacked n worker []
  | idle : worker = false → Stacked n worker [.user none .idle]
  | code (b : Burst U V) {task : Option (Task U)} {fs : List (Frame U V)} :
      Below worker task fs → Stacked n worker (.user task (.run b) :: fs)
  | sent (id : TaskId) (ch : Nat) (u : U) {fs : List (Frame U V)} : Loops worker fs →
      Stacked n worker (.sent ⟨id, .wrapped ch u⟩ :: fs)
  | finished {fs : List (Frame U V)} : Loops worker fs → Stacked n worker (.finished :: fs)
  | requeue (left : Option (Task U)) (owned : Task U) {fs : List (Frame U V)} : Loops worker fs →
      Stacked n worker (.requeue left owned :: fs)
  | spawn (p : Task U) (ch : Nat) (b : Burst U V) {task : Option (Task U)}
      {fs : List (Frame U V)} : Below worker task fs →
      Stacked n worker (.spawn p ch false :: .user task (.run b) :: fs)
  | spawnBlocking (p : Task U) (ch : Nat) (k : Option V → Burst U V) {task : Option (Task U)}
      {fs : List (Frame U V)} : Below worker task fs →
      Stacked n worker (.spawn p ch true :: .user task (.wait k) :: fs)
  | loop {fs : List (Frame U V)} : Loops worker fs → Stacked n worker fs
  | returns (r : Option V) (k : Option V → Burst U V) {task : Option (Task U)}
      {fs : List (Frame U V)} : Below worker task fs →
      Stacked n worker (.result r :: .user task (.wait k) :: fs)
  | unwinds {fs : List (Frame U V)} : Loops worker fs → Stacked n worker (.result none :: fs)
  | drop (joined : Option Nat) (b : Burst U V) {task : Option (Task U)} {fs : List (Frame U V)} :
      (∀ j ∈ joined, j ≤ n) → Below worker task fs →
      Stacked n worker (.dropInner joined :: .user task (.run b) :: fs)
  | dropUnwinding (joined : Option Nat) (l : RunLoop) :
      (∀ j ∈ joined, j ≤ n) → worker = true →
      Stacked n worker [.dropInner joined, .result none, .run l]

mutual

theorem Below.no_drop {worker : Bool} {task : Option (Task U)} {fs : List (Frame U V)} :
    Below worker task fs → ∀ f ∈ fs, f.kind ≠ .dropInner
  | .thread _ => nofun
  | .poll _ _ _ hl => hl.no_drop

theorem Loops.no_drop {worker : Bool} {fs : List (Frame U V)} :
    Loops worker fs → ∀ f ∈ fs, f.kind ≠ .dropInner
  | .run l _ => by simp [Frame.kind]
  | .blockOn ch l k hb => by
    simp only [List.forall_mem_cons]
    exact ⟨nofun, nofun, hb.no_drop⟩

end

section Grammar

variable {worker : Bool} {fs : List (Frame U V)}

theorem Stacked.code_below {task : Option (Task U)} {b : Burst U V}
    (h : Stacked n worker (.user task (.run b) :: fs)) : Below worker task fs := by
  cases h with
  | code _ hb => exact hb
  | loop hl => cases hl

theorem Stacked.sent_loops {task : Task U} (h : Stacked n worker (.sent task :: fs)) :
    Loops worker fs := by
  cases h with
  | sent _ _ _ hl => exact hl
  | loop hl => cases hl

theorem Stacked.finished_loops (h : Stacked n worker (.finished :: fs)) : Loops worker fs := by
  cases h with
  | finished hl => exact hl
  | loop hl => cases hl

theorem Stacked.requeue_loops {left : Option (Task U)} {owned : Task U}
    (h : Stacked n worker (.requeue left owned :: fs)) : Loops worker fs := by
  cases h with
  | requeue _ _ hl => exact hl
  | loop hl => cases hl

theorem Stacked.run_loops {l : RunLoop} (h : Stacked n worker (.run l :: fs)) :
    worker = true ∧ fs = [] := by
  cases h with
  | loop hl =>
    cases hl with
    | run _ hw => exact ⟨hw, rfl⟩

theorem Stacked.blockOn_loops {ch : Nat} {l : BlockOnLoop}
    (h : Stacked n worker (.blockOn ch l :: fs)) :
    ∃ k task fs', fs = .user task (.wait k) :: fs' ∧ Below worker task fs' := by
  cases h with
  | loop hl =>
    cases hl with
    | blockOn _ _ k hb => exact ⟨k, _, _, rfl, hb⟩

theorem Stacked.drop_below {joined : Option Nat}
    (h : Stacked n worker (.dropInner joined :: fs)) : (∀ j ∈ joined, j ≤ n) ∧
    ((∃ task b fs', fs = .user task (.run b) :: fs' ∧ Below worker task fs') ∨
      ∃ l, fs = [.result none, .run l] ∧ worker = true) := by
  cases h with
  | drop _ b hj hb => exact ⟨hj, Or.inl ⟨_, b, _, rfl, hb⟩⟩
  | dropUnwinding _ l hj hw => exact ⟨hj, Or.inr ⟨l, rfl, hw⟩⟩
  | loop hl => cases hl

/-- `ExecutorInner::drop` is on top. -/
theorem Stacked.drop_top (h : Stacked n worker fs) {joined : Option Nat}
    (hj : .dropInner joined ∈ fs) : ∃ fs', fs = .dropInner joined :: fs' := by
  have hno : ∀ {f : Frame U V} {gs : List (Frame U V)}, f.kind ≠ .dropInner →
      (∀ g ∈ gs, g.kind ≠ .dropInner) → .dropInner joined ∉ f :: gs := by
    intro f gs hf hgs hj
    rcases List.mem_cons.1 hj with rfl | hj
    · exact hf rfl
    · exact hgs _ hj rfl
  cases h with
  | dead => cases hj
  | idle => simp at hj
  | code _ hb => exact absurd hj (hno nofun hb.no_drop)
  | sent _ _ _ hl | finished hl | requeue _ _ hl | unwinds hl =>
    exact absurd hj (hno nofun hl.no_drop)
  | spawn _ _ _ hb | spawnBlocking _ _ _ hb | returns _ _ hb =>
    exact absurd hj (hno nofun (List.forall_mem_cons.2 ⟨nofun, hb.no_drop⟩))
  | loop hl => exact absurd rfl (hl.no_drop _ hj)
  | drop joined' _ _ hb =>
    rcases List.mem_cons.1 hj with heq | hj
    · cases heq
      exact ⟨_, rfl⟩
    · exact absurd hj (hno nofun hb.no_drop)
  | dropUnwinding joined' _ _ _ =>
    rcases List.mem_cons.1 hj with heq | hj
    · cases heq
      exact ⟨_, rfl⟩
    · simp at hj

/-- `ExecutorInner::drop` goes on. -/
theorem Stacked.drop_next {joined joined' : Option Nat}
    (h : Stacked n worker (.dropInner joined :: fs)) (hj : ∀ j ∈ joined', j ≤ n) :
    Stacked n worker (.dropInner joined' :: fs) := by
  obtain ⟨-, ⟨task, b, fs', rfl, hb⟩ | ⟨l, rfl, hw⟩⟩ := h.drop_below
  · exact .drop joined' b hj hb
  · exact .dropUnwinding joined' l hj hw

theorem Stacked.drop_over {joined : Option Nat}
    (h : Stacked n worker (.dropInner joined :: fs)) : Stacked n worker fs := by
  obtain ⟨-, ⟨task, b, fs', rfl, hb⟩ | ⟨l, rfl, hw⟩⟩ := h.drop_below
  · exact .code b hb
  · exact .unwinds (.run l hw)

/-- A poll starts on top of a loop. -/
theorem stacked_beginPoll (sh : Shared n U V) (task : Task U) (h : Loops worker fs) :
    Stacked n worker ((sh.beginPoll poll task).2 :: fs) := by
  obtain ⟨id, ⟨ch, u⟩ | _⟩ := task
  · exact .code _ (.poll id ch u h)
  · exact .finished h

/-- **Each action keeps to the grammar.** -/
theorem threadStep_stacked {sh sh' : Shared n U V} {t : ThreadId n m} {fs' : List (Frame U V)}
    (h : ThreadStep poll sh t fs sh' fs') (hs : Stacked n worker fs) : Stacked n worker fs' := by
  cases h with
  | enter b fs =>
    cases hs with
    | idle hw => exact .code b (.thread hw)
    | loop hl => cases hl
  | leavePending u fs | leaveReady v fs | leavePanic fs =>
    cases hs.code_below with
    | thread hw => exact .idle hw
  | outside | pollHandle | dropHandle | cloneRuntime | dropRuntime => exact .code _ hs.code_below
  | callSpawn task u k fs _ => exact .spawn _ _ _ hs.code_below
  | callBlockOn task u k fs _ => exact .spawnBlocking _ _ k hs.code_below
  | dropLastRuntime task k fs _ => exact .drop none _ nofun hs.code_below
  | pendingRun id ch u₀ u l fs =>
    cases hs.code_below with
    | poll _ _ _ hl => exact .requeue _ _ hl
  | pendingHelp id ch u₀ u c l fs =>
    cases hs.code_below with
    | poll _ _ _ hl => exact .requeue _ _ hl
  | ready id ch u v fs =>
    cases hs.code_below with
    | poll _ _ _ hl => exact .sent id ch u hl
  | panic id ch u fs =>
    cases hs.code_below with
    | poll _ _ _ hl => exact .unwinds hl
  | endWrapped id ch u fs => exact .finished hs.sent_loops
  | finishedRun l fs | finishedHelp c l fs => exact .loop hs.finished_loops
  | requeue left owned fs => exact .loop hs.requeue_loops
  | spawned task ch fs =>
    cases hs with
    | spawn _ _ b hb => exact .code b hb
    | loop hl => cases hl
  | startBlockOn task ch fs =>
    cases hs with
    | spawnBlocking _ _ k hb => exact .loop (.blockOn ch _ k hb)
    | loop hl => cases hl
  | recvOk ch l v fs _ _ | recvDisconnected ch l fs _ _ =>
    obtain ⟨k, task, fs', rfl, hb⟩ := hs.blockOn_loops
    exact .returns _ k hb
  | help ch l c sh' l' fs _ _ =>
    obtain ⟨k, task, fs', rfl, hb⟩ := hs.blockOn_loops
    exact .loop (.blockOn ch l' k hb)
  | helpTask ch l c sh₁ l' p fs _ =>
    obtain ⟨k, task, fs', rfl, hb⟩ := hs.blockOn_loops
    exact stacked_beginPoll sh₁ p (.blockOn ch l' k hb)
  | resume r task k fs =>
    cases hs with
    | returns _ _ hb => exact .code (k r) hb
    | unwinds hl => cases hl
    | loop hl => cases hl
  | unwindBlockOn ch l fs =>
    cases hs with
    | unwinds hl =>
      cases hl with
      | blockOn _ _ k hb => exact .returns none k hb
    | loop hl => cases hl
  | unwindRun i l =>
    cases hs with
    | unwinds hl =>
      cases hl with
      | run _ hw => exact .dead hw
    | loop hl => cases hl
  | unwindLast i l =>
    cases hs with
    | unwinds hl =>
      cases hl with
      | run _ hw => exact .dropUnwinding none l nofun hw
    | loop hl => cases hl
  | exit i l _ _ _ => exact .dead hs.run_loops.1
  | run i l c sh' l' fs _ _ _ =>
    obtain ⟨hw, rfl⟩ := hs.run_loops
    exact .loop (.run l' hw)
  | runTask i l c sh₁ l' p fs _ _ =>
    obtain ⟨hw, rfl⟩ := hs.run_loops
    exact stacked_beginPoll sh₁ p (.run l' hw)
  | dropSignal fs => exact hs.drop_next fun j hj => by cases hj; exact Nat.zero_le n
  | dropJoin j fs hj _ => exact hs.drop_next fun i hi => by cases hi; exact hj
  | dropSelf | dropQueue => exact hs.drop_over

end Grammar

theorem stacked_reachable {G : State n m U V → ThreadId n m → Prop} {s : State n m U V}
    (h : Reachable poll G s) (t : ThreadId n m) : Stacked n t.isLeft (s.threads t) := by
  obtain ⟨ts, hr⟩ := h
  refine hr.invariant (P := fun a => ∀ t, Stacked n t.isLeft (a.threads t)) ?_ ?_ t
  · rintro (i | i)
    · exact .loop (.run .start rfl)
    · exact .idle rfl
  · rintro a t₀ b ha - ⟨hs, -⟩ t
    by_cases ht : t = t₀
    · subst ht
      simp only [update_self]
      exact threadStep_stacked hs (ha t)
    · simp only [update_of_ne ht]
      exact ha t

/-! ## Which threads can move -/

/-- The next action needs a `Runtime` or a `JoinHandle`, and nobody holds it. -/
def Lacks (sh : Shared n U V) : Burst U V → Prop
  | .spawn _ _ | .blockOn _ _ | .cloneRuntime _ | .dropRuntime _ => sh.owners = 0
  | .pollHandle h _ | .dropHandle h _ => (sh.chan h).receiver ≠ .handle
  | _ => False

namespace State

/-- The code that thread `t` runs acts on something that does not exist, or drops the last `Runtime`
while a call borrows it. -/
def Misuses (s : State n m U V) (t : ThreadId n m) : Prop :=
  (∃ task b fs, s.threads t = .user task (.run b) :: fs ∧ Lacks s.shared b) ∨
    (s.DropsLast t ∧ s.InCall)

/-- Thread `t` is in `handle.join()` for another thread, worker `i`, which has not ended. -/
def Joins (s : State n m U V) (t : ThreadId n m) (i : Fin n) : Prop :=
  (∃ fs, s.threads t = .dropInner (some i.val) :: fs) ∧ s.shared.live i = true ∧ t ≠ .inl i

/-- Worker `i` unwinds, drops the last `Runtime` and joins itself: a second panic, which aborts the
process. -/
def Aborts (s : State n m U V) (i : Fin n) : Prop :=
  ∃ fs, s.threads (.inl i) = .dropInner (some i.val) :: .result none :: fs

/-- Thread `t` has ended, or is outside the executor with nothing to do. -/
def AtRest (s : State n m U V) (t : ThreadId n m) : Prop :=
  s.threads t = [] ∨ s.threads t = [.user none .idle]

end State

instance (sh : Shared n U V) : (b : Burst U V) → Decidable (Lacks sh b)
  | .spawn _ _ | .blockOn _ _ | .cloneRuntime _ | .dropRuntime _ =>
    inferInstanceAs (Decidable (sh.owners = 0))
  | .pollHandle h _ | .dropHandle h _ =>
    inferInstanceAs (Decidable ((sh.chan h).receiver ≠ .handle))
  | .pending _ | .ready _ | .outside _ | .panic => .isFalse id

/-- The top frame acts on something that does not exist. -/
def lacks (sh : Shared n U V) : List (Frame U V) → Bool
  | .user _ (.run b) :: _ => Lacks sh b
  | _ => false

instance (s : State n m U V) (t : ThreadId n m) : Decidable (s.Misuses t) :=
  decidable_of_iff (lacks s.shared (s.threads t) = true ∨ (s.DropsLast t ∧ s.InCall)) <| by
    unfold State.Misuses lacks
    refine or_congr ⟨fun h => ?_, ?_⟩ Iff.rfl
    · split at h
      · next task b fs hfs => exact ⟨task, b, fs, hfs, of_decide_eq_true h⟩
      · cases h
    · rintro ⟨task, b, fs, hfs, hb⟩
      rw [hfs]
      exact decide_eq_true hb

/-- The top frame waits for worker `i`. -/
def joining (i : Nat) : List (Frame U V) → Bool
  | .dropInner (some j) :: _ => j = i
  | _ => false

instance (s : State n m U V) (t : ThreadId n m) (i : Fin n) : Decidable (s.Joins t i) :=
  decidable_of_iff (joining i.val (s.threads t) = true ∧ s.shared.live i = true ∧ t ≠ .inl i) <| by
    unfold State.Joins joining
    refine and_congr ⟨fun h => ?_, ?_⟩ Iff.rfl
    · split at h
      · next j fs hfs =>
        obtain rfl := of_decide_eq_true h
        exact ⟨fs, hfs⟩
      · cases h
    · rintro ⟨fs, hfs⟩
      rw [hfs]
      exact decide_eq_true rfl

section Progress

variable {sh : Shared n U V} {t : ThreadId n m} {fs : List (Frame U V)}

theorem loops_acts (h : Loops t.isLeft fs) : ∃ sh' fs', ThreadStep poll sh t fs sh' fs' := by
  cases h with
  | run l hw =>
    obtain ⟨i, rfl⟩ := Sum.isLeft_iff.1 hw
    by_cases hexit : l.pc = .top ∧ sh.shutdown = true
    · exact ⟨_, _, .exit i l rfl hexit.1 hexit.2⟩
    · have hc : execRun poll sh .retry i l [] = some (execTook poll
          (WorkerThread.step i sh l .retry).1 (.run (WorkerThread.step i sh l .retry).2.1) []
          (WorkerThread.step i sh l .retry).2.2) := if_neg hexit
      exact ⟨_, _, execRun_sound hc⟩
  | blockOn ch l k _ =>
    exact ⟨_, _, execBlockOn_sound (c := .retry) rfl⟩

/-- Code acts when it has what it acts on. -/
theorem code_acts {task : Option (Task U)} {b : Burst U V} (h : Below t.isLeft task fs)
    (hlacks : ¬ Lacks sh b) :
    ∃ sh' fs', ThreadStep poll sh t (.user task (.run b) :: fs) sh' fs' := by
  cases b with
  | pending u =>
    cases h with
    | thread _ => exact ⟨_, _, .leavePending u []⟩
    | poll id ch w hl =>
      cases hl with
      | run l _ => exact ⟨_, _, .pendingRun id ch w u l []⟩
      | blockOn c l k _ => exact ⟨_, _, .pendingHelp id ch w u c l _⟩
  | ready v =>
    cases h with
    | thread _ => exact ⟨_, _, .leaveReady v []⟩
    | poll id ch w _ => exact ⟨_, _, .ready id ch w v fs⟩
  | panic =>
    cases h with
    | thread _ => exact ⟨_, _, .leavePanic []⟩
    | poll id ch w _ => exact ⟨_, _, .panic id ch w fs⟩
  | outside k => exact ⟨_, _, .outside task k fs 0⟩
  | spawn u k => exact ⟨_, _, .callSpawn task u k fs (Nat.pos_of_ne_zero hlacks)⟩
  | blockOn u k => exact ⟨_, _, .callBlockOn task u k fs (Nat.pos_of_ne_zero hlacks)⟩
  | pollHandle h k => exact ⟨_, _, .pollHandle task h k fs (not_not.1 hlacks)⟩
  | dropHandle h k => exact ⟨_, _, .dropHandle task h k fs (not_not.1 hlacks)⟩
  | cloneRuntime k => exact ⟨_, _, .cloneRuntime task k fs (Nat.pos_of_ne_zero hlacks)⟩
  | dropRuntime k =>
    by_cases hone : sh.owners = 1
    · exact ⟨_, _, .dropLastRuntime task k fs hone⟩
    · refine ⟨_, _, .dropRuntime task k fs ?_⟩
      have hpos : sh.owners ≠ 0 := hlacks
      omega

/-- **Only `handle.join()` waits**: a stack of the grammar has an action, unless its thread has
ended, waits for a worker, or acts on what it does not have. -/
theorem stacked_acts (h : Stacked n t.isLeft fs) (hne : fs ≠ [])
    (hlacks : ∀ task b fs₁, fs = .user task (.run b) :: fs₁ → ¬ Lacks sh b)
    (hjoin : ∀ (i : Fin n) fs₁, fs = .dropInner (some i.val) :: fs₁ → sh.live i = false ∨
      (t = .inl i ∧ ∀ fs₂, fs₁ ≠ .result none :: fs₂)) :
    ∃ sh' fs', ThreadStep poll sh t fs sh' fs' := by
  have hdrop : ∀ joined fs₁, fs = .dropInner joined :: fs₁ → (∀ j ∈ joined, j ≤ n) →
      ∃ sh' fs', ThreadStep poll sh t fs sh' fs' := by
    rintro (_ | j) fs₁ rfl hj
    · exact ⟨_, _, .dropSignal _⟩
    · by_cases hlt : j < n
      · rcases hlive : sh.live ⟨j, hlt⟩ with _ | _
        · exact ⟨_, _, .dropJoin j _ hlt hlive⟩
        · rcases hjoin ⟨j, hlt⟩ fs₁ rfl with hdead | ⟨rfl, hcode⟩
          · rw [hlive] at hdead
            cases hdead
          · obtain ⟨-, ⟨task, b, fs₂, rfl, -⟩ | ⟨l, rfl, -⟩⟩ := h.drop_below
            · exact ⟨_, _, .dropSelf ⟨j, hlt⟩ task b fs₂ rfl hlive⟩
            · exact absurd rfl (hcode _)
      · have hle := hj j rfl
        obtain rfl : j = n := by omega
        exact ⟨_, _, .dropQueue _⟩
  cases h with
  | dead _ => exact absurd rfl hne
  | idle _ => exact ⟨_, _, .enter .panic []⟩
  | code b hb => exact code_acts hb (hlacks _ b _ rfl)
  | sent id ch u _ => exact ⟨_, _, .endWrapped id ch u _⟩
  | finished hl =>
    cases hl with
    | run l _ => exact ⟨_, _, .finishedRun l []⟩
    | blockOn ch l k _ => exact ⟨_, _, .finishedHelp ch l _⟩
  | requeue left owned _ => exact ⟨_, _, .requeue left owned _⟩
  | spawn p ch b _ => exact ⟨_, _, .spawned p ch _⟩
  | spawnBlocking p ch k _ => exact ⟨_, _, .startBlockOn p ch _⟩
  | loop hl => exact loops_acts hl
  | returns r k _ => exact ⟨_, _, .resume r _ k _⟩
  | unwinds hl =>
    cases hl with
    | run l hw =>
      obtain ⟨i, rfl⟩ := Sum.isLeft_iff.1 hw
      exact ⟨_, _, .unwindRun i l 0 rfl (Or.inl rfl)⟩
    | blockOn ch l k _ => exact ⟨_, _, .unwindBlockOn ch l _⟩
  | drop joined b hj _ => exact hdrop joined _ rfl hj
  | dropUnwinding joined l hj _ => exact hdrop joined _ rfl hj

/-- The converse: an action needs what it acts on. -/
theorem ThreadStep.has {sh' : Shared n U V} {fs' : List (Frame U V)}
    (h : ThreadStep poll sh t fs sh' fs') : fs ≠ [] ∧
    (∀ task b fs₁, fs = .user task (.run b) :: fs₁ → ¬ Lacks sh b) ∧
    ∀ (i : Fin n) fs₁, fs = .dropInner (some i.val) :: fs₁ → sh.live i = false ∨
      (t = .inl i ∧ ∀ fs₂, fs₁ ≠ .result none :: fs₂) := by
  refine ⟨?_, ?_, ?_⟩
  · rintro rfl
    exact threadStep_nil h
  · rintro task b fs₁ rfl hlacks
    cases h with
    | callSpawn _ u k _ hown | callBlockOn _ u k _ hown | cloneRuntime _ k _ hown =>
      rw [show sh.owners = 0 from hlacks] at hown
      cases hown
    | dropRuntime _ k _ hown | dropLastRuntime _ k _ hown =>
      rw [show sh.owners = 0 from hlacks] at hown
      cases hown
    | pollHandle _ c k _ hr | dropHandle _ c k _ hr => exact hlacks hr
    | _ => exact hlacks
  · rintro i fs₁ rfl
    generalize hj : i.val = j at h
    cases h with
    | dropJoin _ _ hlt hlive =>
      obtain rfl : i = ⟨j, hlt⟩ := Fin.ext hj
      exact Or.inl hlive
    | dropSelf i' task b fs ht _ =>
      obtain rfl : i = i' := Fin.ext hj
      exact Or.inr ⟨ht, nofun⟩
    | dropQueue => exact absurd i.isLt (by omega)

end Progress

section Reachable

variable {G : State n m U V → ThreadId n m → Prop} {s : State n m U V}

/-- **Which threads can move**, in every reachable state. -/
theorem enabled_iff (h : Reachable poll G s) (t : ThreadId n m) : (∃ s', Step poll s t s') ↔
    s.threads t ≠ [] ∧ ¬ s.Misuses t ∧ (∀ i, ¬ s.Joins t i) ∧ ∀ i, t = .inl i → ¬ s.Aborts i := by
  constructor
  · rintro ⟨s', hs, hlast⟩
    obtain ⟨hne, hlacks, hjoin⟩ := hs.has
    refine ⟨hne, ?_, ?_, ?_⟩
    · rintro (⟨task, b, fs, hfs, hb⟩ | ⟨⟨hone, task, k, fs, hfs⟩, hcall⟩)
      · exact hlacks task b fs hfs hb
      · rw [hfs] at hs
        cases hs with
        | dropRuntime _ _ _ hown => omega
        | dropLastRuntime => exact hlast (by omega) rfl hcall
    · rintro i ⟨⟨fs, hfs⟩, hlive, hother⟩
      rcases hjoin i fs hfs with hdead | ⟨hself, -⟩
      · rw [hlive] at hdead
        cases hdead
      · exact hother hself
    · rintro i rfl ⟨fs, hfs⟩
      rcases hjoin i _ hfs with hdead | ⟨-, hcode⟩
      · rw [(staffed_reachable h).live hfs] at hdead
        cases hdead
      · exact hcode fs rfl
  · rintro ⟨hne, hmis, hjoin, habort⟩
    by_cases hend : ∃ i l, t = .inl i ∧ s.threads t = [.result none, .run l]
    · obtain ⟨i, l, ht, hfs⟩ := hend
      have hs : ThreadStep poll s.shared t [.result none, .run l] _ _ :=
        .unwindRun i l 0 ht (Or.inl rfl)
      rw [← hfs] at hs
      refine ⟨_, .mk hs fun hpos hzero => ?_⟩
      exact absurd hzero hpos.ne'
    · obtain ⟨sh', fs', hs⟩ : ∃ sh' fs', ThreadStep poll s.shared t (s.threads t) sh' fs' := by
        refine stacked_acts (stacked_reachable h t) hne
          (fun task b fs hfs hb => hmis (Or.inl ⟨task, b, fs, hfs, hb⟩)) fun i fs hfs => ?_
        by_cases hlive : s.shared.live i = false
        · exact Or.inl hlive
        · have hself : t = .inl i := by
            by_contra hother
            exact hjoin i ⟨⟨fs, hfs⟩, Bool.eq_true_of_not_eq_false hlive, hother⟩
          subst hself
          refine Or.inr ⟨rfl, ?_⟩
          rintro fs₂ rfl
          exact habort i rfl ⟨fs₂, hfs⟩
      refine ⟨_, .mk hs fun hpos hzero hcall => ?_⟩
      rcases (threadStep_owners hs).2.1 hpos with h | hdrop | ⟨i, l, ht, hfs, -⟩
      · exact absurd hzero h.ne'
      · exact hmis (Or.inr ⟨hdrop, hcall⟩)
      · exact hend ⟨i, l, ht, hfs⟩

end Reachable

end Luminal.Std
