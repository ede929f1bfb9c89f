import Luminal.Std.Returning

/-!
# How long a caller goes on helping

`Executor::block_on` looks at its receiver between batches of up to four polls.  Once its task has
sent, the loop does not begin another batch: `BlockOnLoop.polls` bounds the polls it can still
start, `BlockOnLoop.left` the actions until it looks at its receiver, and no step of any thread
raises either (`polls_after_sent`).
-/

namespace Luminal.Std

open Function Transition

variable {n m : Nat} {U V : Type} {poll : U → Burst U V}

/-! ## The helping loop -/

/-- The polls that can still start before the loop looks at its receiver. -/
def BlockOnLoop.polls (l : BlockOnLoop) : Nat :=
  match l.pc with
  | .help i => 4 - i
  | _ => 0

theorem BlockOnLoop.polls_le (l : BlockOnLoop) : l.polls ≤ 4 := by
  unfold BlockOnLoop.polls
  split <;> omega

theorem BlockOnLoop.left_le (l : BlockOnLoop) : l.left ≤ 6 := by
  unfold BlockOnLoop.left
  split <;> omega

/-- **A poll that the loop starts uses up a poll.** -/
theorem Executor.help_polls {sh sh' : Shared n U V} {l l' : BlockOnLoop} {c : StealChoice}
    {r : Option (Task U)} (h : Executor.help sh l c = (sh', l', r)) (hpc : l.pc ≠ .tryRecv) :
    l'.polls + r.toList.length ≤ l.polls := by
  unfold Executor.help at h
  split at h
  · next heq => exact absurd heq hpc
  · next i heq =>
    have hpolls : l.polls = 4 - i := by
      unfold BlockOnLoop.polls
      rw [heq]
    rw [hpolls]
    split at h
    · next hi =>
      split at h <;> cases h <;> simp [BlockOnLoop.polls] <;> omega
    · cases h
      simp [BlockOnLoop.polls]
  · cases h
    simp [BlockOnLoop.polls, BlockOnLoop.backoff]

/-! ## Stacks -/

/-- What the call that waits for `ch` can still do, in this frame. -/
def Frame.ofCall (ch : Nat) (w : BlockOnLoop → Nat) : Frame U V → Nat
  | .blockOn c l => if c = ch then w l else 0
  | _ => 0

theorem ofCall_beginPoll (sh : Shared n U V) (task : Task U) (ch : Nat) (w : BlockOnLoop → Nat) :
    (sh.beginPoll poll task).2.ofCall ch w = 0 :=
  beginPoll_frame poll sh task (P := fun f => f.ofCall ch w = 0) rfl fun _ => rfl

/-- A channel has at most one call. -/
theorem Delivered.ofCall_le {s : State n m U V} (h : Delivered s) (ch : Nat)
    {w : BlockOnLoop → Nat} {c : Nat} (hw : ∀ l, w l ≤ c) : census (Frame.ofCall ch w) s ≤ c := by
  have hframe : ∀ f : Frame U V, f.ofCall ch w ≤ c * f.waiting ch := by
    intro f
    cases f with
    | blockOn d l =>
      simp only [Frame.ofCall, Frame.waiting]
      split
      · have := hw l
        omega
      · omega
    | _ => exact Nat.zero_le _
  have hwaiting : census (Frame.waiting ch) s ≤ 1 := by
    rw [h.waiting ch]
    split <;> omega
  have hstack : ∀ t, weigh (Frame.ofCall ch w) (s.threads t) ≤
      c * weigh (Frame.waiting ch) (s.threads t) := by
    intro t
    rw [← weigh_mul]
    exact weigh_mono _ fun f _ => hframe f
  calc census (Frame.ofCall ch w) s
      ≤ c * census (Frame.waiting ch) s := by
        unfold census tally
        rw [Finset.mul_sum]
        exact Finset.sum_le_sum fun t _ => hstack t
    _ ≤ c * 1 := Nat.mul_le_mul_left c hwaiting
    _ = c := Nat.mul_one c

/-- **No other action touches the call**, except to begin it or to end it. -/
theorem threadStep_ofCall {sh sh' : Shared n U V} {t : ThreadId n m} {fs fs' : List (Frame U V)}
    (h : ThreadStep poll sh t fs sh' fs') {ch : Nat}
    (hnew : ∀ task b rest, fs ≠ .spawn task ch b :: rest) :
    (∃ l rest, fs = .blockOn ch l :: rest) ∨
      ∀ w, weigh (Frame.ofCall ch w) fs' ≤ weigh (Frame.ofCall ch w) fs := by
  cases h with
  | startBlockOn task c fs =>
    have hc : c ≠ ch := by
      rintro rfl
      exact hnew _ _ _ rfl
    refine Or.inr fun w => ?_
    simp [Frame.ofCall, hc]
  | help c l ch' sh' l' fs _ hh =>
    by_cases hc : c = ch
    · exact Or.inl ⟨l, fs, by rw [hc]⟩
    · refine Or.inr fun w => ?_
      simp [Frame.ofCall, hc]
  | helpTask c l ch' sh₁ l' task fs hh =>
    by_cases hc : c = ch
    · exact Or.inl ⟨l, fs, by rw [hc]⟩
    · refine Or.inr fun w => ?_
      rw [weigh_cons, ofCall_beginPoll]
      simp [Frame.ofCall, hc]
  | runTask i l c sh₁ l' task fs ht hh =>
    refine Or.inr fun w => ?_
    rw [weigh_cons, ofCall_beginPoll]
    simp [Frame.ofCall]
  | _ =>
    refine Or.inr fun w => ?_
    simp [Frame.ofCall]

/-- Once the task has sent, an action of the call ends it or spends. -/
theorem threadStep_call {sh sh' : Shared n U V} {t : ThreadId n m} {ch : Nat} {l : BlockOnLoop}
    {rest fs' : List (Frame U V)} (h : ThreadStep poll sh t (.blockOn ch l :: rest) sh' fs')
    (hsent : (sh.chan ch).tryRecv ≠ .empty) :
    (∃ r, fs' = .result r :: rest) ∨ ∃ l' fs₁, fs' = fs₁ ++ .blockOn ch l' :: rest ∧
      (∀ w, weigh (Frame.ofCall ch w) fs₁ = 0) ∧
      l'.polls + fs₁.length ≤ l.polls ∧ l'.left < l.left := by
  cases h with
  | recvOk => exact Or.inl ⟨_, rfl⟩
  | recvDisconnected => exact Or.inl ⟨_, rfl⟩
  | help _ _ c sh' l' _ hempty hh =>
    have hpc : l.pc ≠ .tryRecv := fun hpc => hsent (hempty hpc)
    exact Or.inr ⟨l', [], rfl, fun _ => rfl, Executor.help_polls hh hpc, Executor.help_left hh hpc⟩
  | helpTask _ _ c sh₁ l' task _ hh =>
    have hpc : l.pc ≠ .tryRecv := by
      intro hpc
      unfold Executor.help at hh
      rw [hpc] at hh
      cases hh
    refine Or.inr ⟨l', [(sh₁.beginPoll poll task).2], rfl, fun w => ?_,
      Executor.help_polls hh hpc, Executor.help_left hh hpc⟩
    rw [weigh_cons, ofCall_beginPoll]
    rfl

/-! ## Whole runs -/

namespace State

/-- The call that waits for `ch` starts a poll. -/
def StartsHelp (ch : Nat) (a : State n m U V) (t : ThreadId n m) (b : State n m U V) : Prop :=
  ∃ l f l' rest, a.threads t = .blockOn ch l :: rest ∧ b.threads t = f :: .blockOn ch l' :: rest

/-- The call that waits for `ch` takes an action of its loop, the last one included. -/
def ActsInCall (ch : Nat) (a : State n m U V) (t : ThreadId n m) (_b : State n m U V) : Prop :=
  ∃ l rest, a.threads t = .blockOn ch l :: rest

def helpsLeft (ch : Nat) (s : State n m U V) : Nat :=
  census (Frame.ofCall ch BlockOnLoop.polls) s

def callLeft (ch : Nat) (s : State n m U V) : Nat :=
  census (Frame.ofCall ch fun l => l.left + 1) s

end State

/-- What the bounds rest on: the task of spawn `ch` has sent, and the counts are as in every
reachable state. -/
structure Answered (ch : Nat) (s : State n m U V) : Prop where
  accounted : Accounted s
  delivered : Delivered s
  sent : ∃ v, .sent ch v ∈ s.shared.log

section Spending

variable {s s' : State n m U V} {t : ThreadId n m} {ch : Nat}

theorem answered_step (h : Answered ch s) (hs : Step poll s t s') : Answered ch s' := by
  refine ⟨accounted_step h.accounted hs, delivered_step h.accounted h.delivered hs, ?_⟩
  obtain ⟨v, hv⟩ := h.sent
  obtain @⟨sh', fs', hs, -⟩ := hs
  obtain ⟨l, hl, -⟩ := threadStep_log hs
  exact ⟨v, hl ▸ List.mem_append_left _ hv⟩

/-- The call began before its task sent. -/
theorem Answered.begun (h : Answered ch s) (t : ThreadId n m) (task : Task U) (b : Bool)
    (rest : List (Frame U V)) : s.threads t ≠ .spawn task ch b :: rest := by
  intro hfs
  obtain ⟨v, hv⟩ := h.sent
  have hmem : .spawn task ch b ∈ s.threads t := hfs ▸ List.mem_cons_self
  have hpushes := h.accounted.unpushed hmem
  have hcount := h.accounted.count ch
  have hsent := h.accounted.sent ch
  have hpos := List.length_pos_of_mem ((mem_sents ch _ v).2 hv)
  omega

theorem Answered.ready (h : Answered ch s) {l : BlockOnLoop} {rest : List (Frame U V)}
    (hfs : s.threads t = .blockOn ch l :: rest) : (s.shared.chan ch).tryRecv ≠ .empty := by
  obtain ⟨v, hv⟩ := h.sent
  exact h.delivered.tryRecv_ok (h.delivered.owns h.accounted t _ (hfs ▸ List.mem_cons_self)) hv

/-- **No step leaves more to the call**; its own actions and polls leave less. -/
theorem step_callLeft (h : Answered ch s) (hs : Step poll s t s') :
    s'.helpsLeft ch ≤ s.helpsLeft ch ∧ s'.callLeft ch ≤ s.callLeft ch ∧
    (s.StartsHelp ch t s' → s'.helpsLeft ch < s.helpsLeft ch) ∧
    (s.ActsInCall ch t s' → s'.callLeft ch < s.callLeft ch) := by
  obtain @⟨sh', fs', hs, -⟩ := hs
  have hcensus : ∀ w, census (Frame.ofCall ch w) ⟨sh', update s.threads t fs'⟩ +
      weigh (Frame.ofCall ch w) (s.threads t) =
        census (Frame.ofCall ch w) s + weigh (Frame.ofCall ch w) fs' :=
    fun w => census_update _ s sh' t fs'
  have hpolls := hcensus BlockOnLoop.polls
  have hleft := hcensus fun l => l.left + 1
  unfold State.helpsLeft State.callLeft State.StartsHelp State.ActsInCall
  simp only [update_self]
  by_cases hcall : ∃ l rest, s.threads t = .blockOn ch l :: rest
  · -- the call acts
    obtain ⟨l, rest, hfs⟩ := hcall
    rw [hfs] at hs hpolls hleft ⊢
    rcases threadStep_call hs (h.ready hfs) with ⟨r, rfl⟩ | ⟨l', fs₁, rfl, hzero, hp, hl⟩
    · simp only [weigh_cons, Frame.ofCall, if_true] at hpolls hleft
      refine ⟨by omega, by omega, ?_, fun _ => by omega⟩
      rintro ⟨l₁, f, l₂, rest', heq, heq'⟩
      cases heq
      have := congrArg List.length heq'
      simp at this
    · simp only [weigh_append, hzero, weigh_cons, Frame.ofCall, if_true] at hpolls hleft
      refine ⟨by omega, by omega, ?_, fun _ => by omega⟩
      rintro ⟨l₁, f, l₂, rest', heq, heq'⟩
      cases heq
      have hlen : fs₁.length = 1 := by
        have := congrArg List.length heq'
        simp only [List.length_append, List.length_cons] at this
        omega
      omega
  · have hle := (threadStep_ofCall hs fun task b rest => h.begun t task b rest).resolve_left hcall
    have h1 := hle BlockOnLoop.polls
    have h2 := hle fun l => l.left + 1
    refine ⟨by omega, by omega, ?_, ?_⟩
    · rintro ⟨l, f, l', rest, hfs, -⟩
      exact absurd ⟨l, rest, hfs⟩ hcall
    · exact fun hacts => absurd hacts hcall

end Spending

/-- **Once its task has sent, a call of `block_on` starts at most four more polls**, whatever the
tasks and the other threads do, panics and shutdown included; it takes at most seven more actions of
its own, and whenever it is on top of its stack it can take the next. -/
theorem polls_after_sent {s : State n m U V} (h : Reachable poll always s) {ch : Nat} {v : V}
    (hsent : .sent ch v ∈ s.shared.log) :
    (∀ k s', Counted (Step poll) (State.StartsHelp ch) s k s' → k ≤ 4) ∧
    ∀ k s', Counted (Step poll) (State.ActsInCall ch) s k s' → k ≤ 7 ∧
      ∀ t l rest, s'.threads t = .blockOn ch l :: rest → ∃ s'', Step poll s' t s'' := by
  have h0 : Answered ch s := ⟨accounted_reachable h, delivered_reachable h, v, hsent⟩
  have hkeep : ∀ (a : State n m U V) t b, Answered ch a → Step poll a t b → Answered ch b :=
    fun _ _ _ ha hs => answered_step ha hs
  refine ⟨fun k s' hc => ?_, fun k s' hc => ⟨?_, fun t l rest hfs => ?_⟩⟩
  · obtain ⟨-, hle⟩ := hc.add_le (φ := State.helpsLeft ch) h0 hkeep
      (fun _ _ _ ha hs => (step_callLeft ha hs).1)
      fun _ _ _ ha hs hC => (step_callLeft ha hs).2.2.1 hC
    have hbound : s.helpsLeft ch ≤ 4 := h0.delivered.ofCall_le ch BlockOnLoop.polls_le
    omega
  · obtain ⟨-, hle⟩ := hc.add_le (φ := State.callLeft ch) h0 hkeep
      (fun _ _ _ ha hs => (step_callLeft ha hs).2.1)
      fun _ _ _ ha hs hC => (step_callLeft ha hs).2.2.2 hC
    have hbound : s.callLeft ch ≤ 7 := h0.delivered.ofCall_le ch fun l => by
      have := l.left_le
      omega
    omega
  · obtain ⟨ts, hr⟩ := h
    obtain ⟨ts', hr'⟩ := hc.run
    have hreach : Reachable poll always s' := ⟨_, hr.append hr'⟩
    refine (enabled_iff hreach t).2 ⟨hfs ▸ List.cons_ne_nil _ _, ?_, ?_, ?_⟩
    · rintro (⟨task, b, fs, heq, -⟩ | ⟨⟨-, task, k, fs, heq⟩, -⟩) <;> cases heq.symm.trans hfs
    · rintro i ⟨⟨fs, heq⟩, -⟩
      cases heq.symm.trans hfs
    · rintro i rfl ⟨fs, heq⟩
      cases heq.symm.trans hfs

/-- A caller has polled its own task, which has sent, in the first round of a batch. -/
theorem polls_after_sent_own : ∃ s : State 1 1 Sample Nat,
    (.sent 0 5 ∈ s.shared.log ∧ (s.threads (.inr 0)).any Frame.isBlockOn = true) ∧
    ∀ k s', Counted (Step Sample.burst) (State.StartsHelp 0) s k s' → k ≤ 4 := by
  obtain ⟨s, hr, hs⟩ := reachable_of_exec Sample.burst (G := always)
    (P := fun s : State 1 1 Sample Nat =>
      .sent 0 5 ∈ s.shared.log ∧ (s.threads (.inr 0)).any Frame.isBlockOn = true)
    ((.inr 0, .code (.blockOn (.value 5) fun r => .ready (r.getD 0))) ::
      turns (.inr 0) 5 (.steal (.batch 0))) (by decide)
  exact ⟨s, hs, (polls_after_sent hr hs.1).1⟩

end Luminal.Std
