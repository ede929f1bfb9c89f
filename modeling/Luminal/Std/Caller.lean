import Luminal.Lib.Trace
import Luminal.Std.Effects

/-!
# A thread that drives the executor alone

`Caller` are the steps of one thread, with what is seen of them.  After `Executor::spawn`,
and after a poll, the thread has one thing to do before anything can be seen again
(`Settles`).  Once the result of its `block_on` is there the call returns it after the rest of
its batch, at most three more polls (`inevitable_received`).
-/

namespace Luminal.Std

open Function Transition

variable {n m : Nat} {U V : Type} {poll : U → Burst U V} {t : ThreadId n m}

/-! ## Observations -/

def Event.seen : Event U V → Option (Seen V)
  | .polled ch => some (.polled ch)
  | .sent ch v => some (.finished ch v)
  | _ => none

/-- What the log shows of a step from `sh` to `sh'`. -/
def Shows (sh sh' : Shared n U V) (o : Option (Seen V)) : Prop :=
  ∃ es, sh'.log = sh.log ++ es ∧ es.filterMap Event.seen = o.toList

theorem Shows.eq {sh sh' : Shared n U V} {o : Option (Seen V)} {es : List (Event U V)}
    (h : Shows sh sh' o) (hl : sh'.log = sh.log ++ es) : o.toList = es.filterMap Event.seen := by
  obtain ⟨es', hl', he⟩ := h
  have hes : es' = es := List.append_cancel_left (hl'.symm.trans hl)
  rw [← hes, he]

theorem Shows.unique {sh sh' : Shared n U V} {o o' : Option (Seen V)} (h : Shows sh sh' o)
    (h' : Shows sh sh' o') : o = o' := by
  obtain ⟨es, hl, he⟩ := h'
  have := (h.eq hl).trans he
  cases o' with
  | none => exact Option.toList_eq_nil_iff.1 this
  | some x => exact Option.toList_eq_singleton_iff.1 this

theorem shows_none {sh sh' : Shared n U V} (hl : sh'.log = sh.log) : Shows sh sh' none :=
  ⟨[], by simpa using hl, rfl⟩

/-- A step of thread `t`, with what is seen of it. -/
inductive Caller (poll : U → Burst U V) (t : ThreadId n m) (s : State n m U V) :
    Option (Seen V) → State n m U V → Prop
  | answered (task k fs x) : s.threads t = .user task (.run (.outside k)) :: fs →
      Caller poll t s (some (.answered x))
        ⟨s.shared, update s.threads t (.user task (.run (k x)) :: fs)⟩
  | step {o : Option (Seen V)} {s' : State n m U V} :
      (∀ task k fs, s.threads t ≠ .user task (.run (.outside k)) :: fs) → Step poll s t s' →
      Shows s.shared s'.shared o → Caller poll t s o s'

/-- How a step of the thread is seen. -/
theorem caller_of {s : State n m U V} {fs fs' : List (Frame U V)} {sh' : Shared n U V}
    {o : Option (Seen V)} (hfs : s.threads t = fs) (h : ThreadStep poll s.shared t fs sh' fs')
    (hout : ∀ task k rest, fs ≠ .user task (.run (.outside k)) :: rest)
    (hown : sh'.owners = 0 → s.shared.owners = 0)
    (hshow : Shows s.shared sh' o) : Caller poll t s o ⟨sh', update s.threads t fs'⟩ := by
  subst hfs
  exact .step hout (.mk h fun hpos hzero => absurd (hown hzero) hpos.ne') hshow

/-- What is seen are steps. -/
theorem Caller.threadStep {s s' : State n m U V} {o : Option (Seen V)} (h : Caller poll t s o s') :
    ThreadStep poll s.shared t (s.threads t) s'.shared (s'.threads t) := by
  cases h with
  | answered task k fs x hfs =>
    rw [hfs]
    simpa only [update_self] using ThreadStep.outside task k fs x
  | step _ hs _ =>
    obtain ⟨hs, -⟩ := hs
    simpa only [update_self] using hs

/-- What is seen of a step that asks nothing of the outside is in the log. -/
theorem Caller.shows {s s' : State n m U V} {o : Option (Seen V)} (h : Caller poll t s o s')
    (hout : ∀ task k fs, s.threads t ≠ .user task (.run (.outside k)) :: fs) :
    Shows s.shared s'.shared o := by
  cases h with
  | answered task k fs x hfs => exact absurd hfs (hout task k fs)
  | step _ _ hshow => exact hshow

/-- Only one thing can happen, and nothing is seen of it. -/
theorem settles_of {s a : State n m U V} {G : State n m U V → Prop} {fs fs' : List (Frame U V)}
    {sh' : Shared n U V} (hfs : s.threads t = fs) (hG : G s)
    (h : ThreadStep poll s.shared t fs sh' fs')
    (honly : ∀ sh₁ fs₁, ThreadStep poll s.shared t fs sh₁ fs₁ → sh₁ = sh' ∧ fs₁ = fs')
    (hout : ∀ task k rest, fs ≠ .user task (.run (.outside k)) :: rest)
    (hown : sh'.owners = 0 → s.shared.owners = 0) {es : List (Event U V)}
    (hlog : sh'.log = s.shared.log ++ es) (hes : es.filterMap Event.seen = [])
    (hrest : Settles (Caller poll t) G ⟨sh', update s.threads t fs'⟩ a) :
    Settles (Caller poll t) G s a := by
  subst hfs
  refine .step hG (caller_of rfl h hout hown ⟨es, hlog, hes⟩) ?_ hrest
  intro o c hc
  cases hc with
  | answered task k rest x hfs => exact absurd hfs (hout task k rest)
  | step _ hs hshow =>
    obtain ⟨hs, -⟩ := hs
    obtain ⟨rfl, rfl⟩ := honly _ _ hs
    have := hshow.eq hlog
    rw [hes] at this
    exact ⟨Option.toList_eq_nil_iff.1 this, rfl⟩

/-! ## The runs of the promise -/

/-- The unfinished tasks in a frame's hands. -/
def Frame.unfinished : Frame U V → Nat
  | .user task _ => task.toList.length
  | .requeue _ _ | .spawn _ _ _ => 1
  | _ => 0

/-- The running code is about to add a task. -/
def adding : List (Frame U V) → Nat
  | .user _ (.run (.spawn _ _)) :: _ | .user _ (.run (.blockOn _ _)) :: _ => 1
  | _ => 0

/-- The unfinished tasks in the queue and in the hands of thread `t`, with the one that it is about
to add. -/
def State.unfinished (s : State n m U V) (t : ThreadId n m) : Nat :=
  s.shared.globalQueue.length + weigh Frame.unfinished (s.threads t) + adding (s.threads t)

/-- There are at most `cap` unfinished tasks. -/
def State.Within (cap : Option Nat) (t : ThreadId n m) (s : State n m U V) : Prop :=
  ∀ c ∈ cap, s.unfinished t ≤ c

/-- No panic and no nested `block_on`. -/
structure State.Tame (t : ThreadId n m) (s : State n m U V) : Prop where
  noPanic : ¬ s.Panics t
  noNest : ∀ task u k fs, s.threads t ≠ .user (some task) (.run (.blockOn u k)) :: fs

/-- The runs that the promise about `block_on` covers. -/
def State.Fine (cap : Option Nat) (t : ThreadId n m) (s : State n m U V) : Prop :=
  s.Tame t ∧ s.Within cap t

/-- The thread is in the executor's code. -/
theorem State.tame_of {s : State n m U V} {f : Frame U V} {fs : List (Frame U V)}
    (hfs : s.threads t = f :: fs) (hf : ∀ task code, f ≠ .user task code) : s.Tame t := by
  refine ⟨fun ⟨task, rest, h⟩ => ?_, fun task u k rest h => ?_⟩
  · rw [hfs] at h
    exact hf _ _ (List.cons.inj h).1
  · rw [hfs] at h
    exact hf _ _ (List.cons.inj h).1

/-- A task polled by thread `t` is about to drop the last `Runtime`, which the call borrows. -/
def State.DropsBorrowed (s : State n m U V) (t : ThreadId n m) : Prop :=
  s.shared.owners = 1 ∧
    ∃ task k fs, s.threads t = .user (some task) (.run (.dropRuntime k)) :: fs

/-- The running code acts on a handle that it holds, and drops a `Runtime` of its own. -/
structure State.Owns (t : ThreadId n m) (s : State n m U V) : Prop where
  polls : ∀ task h k fs, s.threads t = .user task (.run (.pollHandle h k)) :: fs →
    (s.shared.chan h).receiver = .handle
  drops : ∀ task h k fs, s.threads t = .user task (.run (.dropHandle h k)) :: fs →
    (s.shared.chan h).receiver = .handle
  runtime : ¬ s.DropsBorrowed t

/-! ## Once the result is there -/

/-- Only thread `t` moves. -/
def Alone (poll : U → Burst U V) (t : ThreadId n m) (a : State n m U V) (_ : Unit)
    (b : State n m U V) : Prop := Step poll a t b

/-- The thread goes on, whatever it does. -/
theorem inevitable_of_step {Ok Q : State n m U V → Prop} {s : State n m U V}
    {fs : List (Frame U V)} (hfs : s.threads t = fs)
    (hgo : Ok s → ∃ sh' fs', ThreadStep poll s.shared t fs sh' fs' ∧
      (sh'.owners = 0 → s.shared.owners = 0))
    (h : Ok s → ∀ sh' fs', ThreadStep poll s.shared t fs sh' fs' →
      Inevitable (Alone poll t) Ok Q ⟨sh', update s.threads t fs'⟩) :
    Inevitable (Alone poll t) Ok Q s := by
  subst hfs
  refine .later (fun hok => ?_) fun hok _ b hs => ?_
  · obtain ⟨sh', fs', hs, hown⟩ := hgo hok
    exact ⟨(), _, .mk hs fun hpos hzero => absurd (hown hzero) hpos.ne'⟩
  · obtain ⟨hs, -⟩ := hs
    exact h hok _ _ hs

/-- The output `v` waits for the `block_on` of spawn `c`. -/
structure Arrived (c : Nat) (v : V) (sh : Shared n U V) : Prop where
  born : c < sh.spawned
  queue : ∃ q, (sh.chan c).queue = v :: q
  receiver : (sh.chan c).receiver = .blockOn
  owners : 0 < sh.owners

section Arrived

variable {c ch : Nat} {v : V} {sh sh' : Shared n U V}

/-- What leaves the channel alone. -/
theorem Arrived.keep (h : Arrived c v sh) (hc : sh'.chan c = sh.chan c)
    (hs : sh.spawned ≤ sh'.spawned) (ho : 0 < sh'.owners) : Arrived c v sh' := by
  refine ⟨lt_of_lt_of_le h.born hs, ?_, ?_, ho⟩
  · rw [hc]
    exact h.queue
  · rw [hc]
    exact h.receiver

theorem Arrived.send (h : Arrived c v sh) (ch : Nat) (w : V) (log : List (Event U V)) :
    Arrived c v { sh with chan := update sh.chan ch ((sh.chan ch).send w), log := log } := by
  by_cases hc : ch = c
  · subst hc
    obtain ⟨q, hq⟩ := h.queue
    have hsend : (sh.chan ch).send w = { sh.chan ch with queue := v :: q ++ [w] } := by
      rw [Channel.send, if_neg (by rw [h.receiver]; nofun), hq]
    refine ⟨h.born, ⟨q ++ [w], ?_⟩, ?_, h.owners⟩
    · show (update sh.chan ch _ ch).queue = _
      rw [update_self, hsend]
      rfl
    · show (update sh.chan ch _ ch).receiver = _
      rw [update_self, hsend]
      exact h.receiver
  · exact h.keep (update_of_ne (Ne.symm hc) _ _) (Nat.le_refl _) h.owners

theorem Arrived.dropSender (h : Arrived c v sh) (ch : Nat) (log : List (Event U V)) :
    Arrived c v { sh with chan := update sh.chan ch (sh.chan ch).dropSender, log := log } := by
  by_cases hc : ch = c
  · subst hc
    refine ⟨h.born, ?_, ?_, h.owners⟩
    · show ∃ q, (update sh.chan ch _ ch).queue = _
      rw [update_self]
      exact h.queue
    · show (update sh.chan ch _ ch).receiver = _
      rw [update_self]
      exact h.receiver
  · exact h.keep (update_of_ne (Ne.symm hc) _ _) (Nat.le_refl _) h.owners

/-- A handle is another channel. -/
theorem Arrived.ne (h : Arrived c v sh) (hh : (sh.chan ch).receiver = .handle) : c ≠ ch := by
  rintro rfl
  have := h.receiver
  rw [hh] at this
  cases this

theorem Arrived.spawn (h : Arrived c v sh) (u : U) :
    Arrived c v (sh.newTask u).1 ∧
      Arrived c v ((sh.newTask u).1.pushSpawned (sh.newTask u).2 sh.spawned false) := by
  have hne : c ≠ sh.spawned := Nat.ne_of_lt h.born
  have hnew : (sh.newTask u).1.chan c = sh.chan c := update_of_ne hne _ _
  refine ⟨h.keep hnew (Nat.le_succ _) h.owners, h.keep ?_ (Nat.le_succ _) h.owners⟩
  exact (update_of_ne hne _ _).trans hnew

theorem Arrived.pollHandle (h : Arrived c v sh) (hh : (sh.chan ch).receiver = .handle) :
    Arrived c v (sh.pollHandle ch).2 := by
  unfold Shared.pollHandle
  split
  · exact h.keep (update_of_ne (h.ne hh) _ _) (Nat.le_refl _) h.owners
  · exact h

end Arrived

section Collect

variable {c : Nat} {v : V} {fs : List (Frame U V)} {Q : State n m U V → Prop}

/-- The end of a task that has sent its result. -/
theorem inevitable_finished {l : BlockOnLoop} {id : TaskId} {ch : Nat} {u : U}
    {s : State n m U V} {Ok : State n m U V → Prop}
    (hfs : s.threads t = .sent ⟨id, .wrapped ch u⟩ :: .blockOn c l :: fs)
    (h : Arrived c v s.shared) :
    Inevitable (Alone poll t) Ok
      (fun s => s.threads t = .blockOn c l :: fs ∧ Arrived c v s.shared) s := by
  refine inevitable_of_step hfs
    (fun _ => ⟨_, _, .endWrapped .., fun h0 => h0⟩) fun _ sh' fs' hs => ?_
  cases hs
  refine inevitable_of_step (update_self ..) (fun _ => ⟨_, _, .finishedHelp .., fun h0 => h0⟩) ?_
  intro _ sh' fs' hs
  cases hs
  exact .now ⟨update_self .., h.dropSender ch _⟩

/-- **A poll ends**, and the output still waits. -/
theorem inevitable_poll {b : Burst U V} {l : BlockOnLoop} {id : TaskId} {ch : Nat} {u : U}
    {s : State n m U V}
    (hfs : s.threads t = .user (some ⟨id, .wrapped ch u⟩) (.run b) :: .blockOn c l :: fs)
    (h : Arrived c v s.shared) :
    Inevitable (Alone poll t) (fun s => s.Tame t ∧ s.Owns t)
      (fun s => s.threads t = .blockOn c l :: fs ∧ Arrived c v s.shared) s := by
  induction b generalizing s with
  | pending w =>
    refine inevitable_of_step hfs
      (fun _ => ⟨_, _, .pendingHelp .., fun h0 => h0⟩) fun _ sh' fs' hs => ?_
    cases hs
    refine inevitable_of_step (update_self ..) (fun _ => ⟨_, _, .requeue .., fun h0 => h0⟩) ?_
    intro _ sh' fs' hs
    cases hs
    exact .now ⟨update_self .., h.keep rfl (Nat.le_refl _) h.owners⟩
  | ready w =>
    refine inevitable_of_step hfs (fun _ => ⟨_, _, .ready .., fun h0 => h0⟩) fun _ sh' fs' hs => ?_
    cases hs
    exact inevitable_finished (update_self ..) (h.send ch w _)
  | panic => exact Inevitable.of_ok fun hok => absurd ⟨_, _, hfs⟩ hok.1.noPanic
  | blockOn w k _ => exact Inevitable.of_ok fun hok => absurd hfs (hok.1.noNest _ _ _ _)
  | outside k ih =>
    refine inevitable_of_step hfs
      (fun _ => ⟨_, _, .outside _ _ _ 0, fun h0 => h0⟩) fun _ sh' fs' hs => ?_
    cases hs with
    | outside _ _ _ x => exact ih x (update_self ..) h
  | spawn w k ih =>
    refine inevitable_of_step hfs (fun _ => ⟨_, _, .callSpawn _ _ _ _ h.owners, fun h0 => h0⟩) ?_
    intro _ sh' fs' hs
    cases hs
    refine inevitable_of_step (update_self ..) (fun _ => ⟨_, _, .spawned .., fun h0 => h0⟩) ?_
    intro _ sh' fs' hs
    cases hs
    exact ih _ (update_self ..) (h.spawn w).2
  | pollHandle d k ih =>
    refine inevitable_of_step hfs (fun hok => ⟨_, _,
      .pollHandle _ _ _ _ (hok.2.polls _ _ _ _ hfs), by rw [pollHandle_eq]; exact fun h0 => h0⟩) ?_
    intro _ sh' fs' hs
    cases hs with
    | pollHandle _ _ _ _ hd => exact ih _ (update_self ..) (h.pollHandle hd)
  | dropHandle d k ih =>
    refine inevitable_of_step hfs (fun hok => ⟨_, _,
      .dropHandle _ _ _ _ (hok.2.drops _ _ _ _ hfs), fun h0 => h0⟩) fun _ sh' fs' hs => ?_
    cases hs with
    | dropHandle _ _ _ _ hd =>
      exact ih (update_self ..) (h.keep (update_of_ne (h.ne hd) _ _) (Nat.le_refl _) h.owners)
  | cloneRuntime k ih =>
    refine inevitable_of_step hfs (fun _ => ⟨_, _, .cloneRuntime _ _ _ h.owners, nofun⟩) ?_
    intro _ sh' fs' hs
    cases hs
    exact ih (update_self ..) (h.keep rfl (Nat.le_refl _) (Nat.succ_pos _))
  | dropRuntime k ih =>
    have hown : s.Owns t → s.shared.owners ≠ 1 := fun hok h1 => hok.runtime ⟨h1, _, _, _, hfs⟩
    refine inevitable_of_step hfs (fun hok => ?_) ?_
    · have hlt : 1 < s.shared.owners := by
        have := h.owners
        have := hown hok.2
        omega
      exact ⟨_, _, .dropRuntime _ _ _ hlt, fun hzero => absurd hzero (Nat.sub_pos_of_lt hlt).ne'⟩
    · intro hok sh' fs' hs
      cases hs with
      | dropRuntime _ _ _ hlt =>
        exact ih (update_self ..) (h.keep rfl (Nat.le_refl _) (Nat.sub_pos_of_lt hlt))
      | dropLastRuntime _ _ _ h1 => exact absurd h1 (hown hok.2)

/-- How many rounds are left before the loop looks for its result. -/
def BlockOnPc.toRecv : BlockOnPc → Nat
  | .tryRecv => 0
  | .backoff => 1
  | .help i => 4 - i + 2

theorem Executor.help_toRecv {sh sh' : Shared n U V} {l l' : BlockOnLoop} {ch : StealChoice}
    {r : Option (Task U)} (h : Executor.help sh l ch = (sh', l', r)) (hpc : l.pc ≠ .tryRecv) :
    l'.pc.toRecv < l.pc.toRecv := by
  unfold Executor.help at h
  split at h
  · next hl => exact absurd hl hpc
  · next i hl =>
    rw [hl]
    split at h
    · split at h <;> cases h <;> simp only [BlockOnPc.toRecv] <;> omega
    · cases h
      simp only [BlockOnPc.toRecv]
      omega
  · next hl =>
    cases h
    rw [hl]
    exact Nat.one_pos

/-- The thread has returned from its call with `v`. -/
def ReturnsWith (k : Option V → Burst U V) (v : V) (t : ThreadId n m) (s : State n m U V) : Prop :=
  s.threads t = [.user none (.run (k (some v)))]

/-- **The call returns the output that is there.** -/
theorem inevitable_received {k : Option V → Burst U V} (r : Nat) {l : BlockOnLoop}
    (hr : l.pc.toRecv = r) {s : State n m U V}
    (hfs : s.threads t = [.blockOn c l, .user none (.wait k)]) (h : Arrived c v s.shared) :
    Inevitable (Alone poll t) (fun s => s.Tame t ∧ s.Owns t) (ReturnsWith k v t) s := by
  induction r using Nat.strong_induction_on generalizing s l with
  | _ r ih =>
    obtain ⟨q, hq⟩ := h.queue
    have hv : (s.shared.chan c).tryRecv = .ok v := by rw [Channel.tryRecv, hq]
    by_cases hpc : l.pc = .tryRecv
    · refine inevitable_of_step hfs (fun _ => ⟨_, _, .recvOk _ _ _ _ hpc hv, fun h0 => h0⟩) ?_
      intro _ sh' fs' hs
      cases hs with
      | recvOk _ _ w _ _ hw =>
        rw [hv] at hw
        cases hw
        refine inevitable_of_step (update_self ..) (fun _ => ⟨_, _, .resume .., fun h0 => h0⟩) ?_
        intro _ sh' fs' hs
        cases hs
        exact .now (update_self ..)
      | recvDisconnected _ _ _ _ hw =>
        rw [hv] at hw
        cases hw
      | help _ _ _ _ _ _ htry _ =>
        rw [hv] at htry
        cases htry hpc
      | helpTask _ _ _ _ _ _ _ hh =>
        unfold Executor.help at hh
        rw [hpc] at hh
        cases hh
    · refine inevitable_of_step hfs (fun _ => ?_) fun _ sh' fs' hs => ?_
      · rcases hh : Executor.help s.shared l .retry with ⟨sh', l', o⟩
        cases o with
        | none =>
          refine ⟨_, _, .help _ _ _ _ _ _ (fun h => absurd h hpc) hh, ?_⟩
          rw [Executor.help_none hh]
          exact id
        | some task =>
          obtain ⟨q, -, rfl⟩ := Executor.help_some hh
          refine ⟨_, _, .helpTask _ _ _ _ _ _ _ hh, ?_⟩
          rw [beginPoll_eq]
          exact id
      · cases hs with
        | recvOk _ _ _ _ htry _ => exact absurd htry hpc
        | recvDisconnected _ _ _ htry _ => exact absurd htry hpc
        | help _ _ _ sh' l' _ _ hh =>
          have hlt := Executor.help_toRecv hh hpc
          rw [Executor.help_none hh]
          exact ih _ (hr ▸ hlt) rfl (update_self ..) h
        | helpTask _ _ _ sh' l' task _ hh =>
          have hlt := Executor.help_toRecv hh hpc
          obtain ⟨q, -, rfl⟩ := Executor.help_some hh
          -- a placeholder is finished at once
          obtain ⟨id, future⟩ := task
          cases future with
          | wrapped ch u =>
            have htop : update s.threads t (.user (some ⟨id, .wrapped ch u⟩) (.run (poll u)) ::
                .blockOn c l' :: [.user none (.wait k)]) t = _ := update_self ..
            have harr : Arrived c v
                (({ s.shared with globalQueue := q } : Shared n U V).beginPoll poll
                  ⟨id, .wrapped ch u⟩).1 := h.keep rfl (Nat.le_refl _) h.owners
            refine Inevitable.trans (inevitable_poll htop harr) ?_
            intro s' hs'
            exact ih _ (hr ▸ hlt) rfl hs'.1 hs'.2
          | completed =>
            refine inevitable_of_step (update_self ..)
              (fun _ => ⟨_, _, .finishedHelp .., fun h0 => h0⟩) ?_
            intro _ sh' fs' hs
            cases hs
            exact ih _ (hr ▸ hlt) rfl (update_self ..) (h.keep rfl (Nat.le_refl _) h.owners)

end Collect

end Luminal.Std
