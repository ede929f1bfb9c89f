import Luminal.NoStd.Observed
import Luminal.Std.Caller

/-!
# `block_on` with and without std

A thread that calls `block_on` on the std executor and is its only driver, and the thread of the
no_std executor.  The one loop helps four times, after it looked for its result, the other polls
ten times and looks afterwards; as long as the result is not there neither shows, and `Paired`
forgets where the loops stand in their batches.  The std executor takes more steps for the end of a
poll and for a `spawn`, which it has no choice about (`Settles`).

`block_on_agree`: on the same queue, with room for every unfinished task, the two show the same up
to the output of the future that was blocked on, and then return it.
-/

namespace Luminal

open Function Transition

variable {n m : Nat} {U V : Type} {poll : U → Burst U V} {cap : Option Nat}

/-! ## The same queue and the same handles -/

/-- The two executors have the same queue, up to the tasks' ids, and the same handles with the same
outputs. -/
structure Alike (sh : Std.Shared n U V) (sh' : NoStd.Shared U V) : Prop where
  queue : sh.globalQueue.map Task.future = sh'.globalQueue.map Task.future
  spawned : sh.spawned = sh'.spawned
  handles : ∀ h, (sh.chan h).receiver = .handle ↔ (sh'.results h).holder = .handle
  outputs : ∀ h, (sh.chan h).receiver = .handle → (sh.chan h).queue = (sh'.results h).items

section Alike

variable {sh : Std.Shared n U V} {sh' : NoStd.Shared U V}

theorem Alike.length (h : Alike sh sh') : sh.globalQueue.length = sh'.globalQueue.length := by
  have := congrArg List.length h.queue
  rwa [List.length_map, List.length_map] at this

theorem Alike.spawn (h : Alike sh sh') (hroom : NoStd.Room cap sh'.globalQueue) (u : U)
    (blocking : Bool) :
    Alike ((sh.newTask u).1.pushSpawned (sh.newTask u).2 sh.spawned blocking)
      (sh'.spawn cap u (if blocking then .blockOn else .handle)) where
  queue := by
    rw [NoStd.Shared.spawn_queue hroom, List.map_append, ← h.queue, ← h.spawned]
    exact List.map_append
  spawned := congrArg (· + 1) h.spawned
  handles := by
    intro d
    by_cases hd : d = sh.spawned
    · subst hd
      simp only [Std.Shared.pushSpawned, Std.Shared.newTask, NoStd.Shared.spawn, ← h.spawned,
        update_self]
      cases blocking <;> simp
    · simp only [Std.Shared.pushSpawned, Std.Shared.newTask, NoStd.Shared.spawn, ← h.spawned,
        update_of_ne hd]
      exact h.handles d
  outputs := by
    intro d
    by_cases hd : d = sh.spawned
    · subst hd
      simp only [Std.Shared.pushSpawned, Std.Shared.newTask, NoStd.Shared.spawn, ← h.spawned,
        update_self]
      intro _
      rfl
    · simp only [Std.Shared.pushSpawned, Std.Shared.newTask, NoStd.Shared.spawn, ← h.spawned,
        update_of_ne hd]
      exact h.outputs d

/-- The same task comes to the front. -/
theorem Alike.front {id' : TaskId} {future : BoxFuture U} {q' : List (Task U)} (h : Alike sh sh')
    (hq : sh'.globalQueue = ⟨id', future⟩ :: q') :
    ∃ id q, sh.globalQueue = ⟨id, future⟩ :: q ∧ q.map Task.future = q'.map Task.future := by
  have hmap := h.queue
  rw [hq] at hmap
  obtain ⟨⟨id, future⟩, q, hsh, rfl, hrest⟩ := List.map_eq_cons_iff.1 hmap
  exact ⟨id, q, hsh, hrest⟩

theorem Alike.front' {id : TaskId} {future : BoxFuture U} {q : List (Task U)} (h : Alike sh sh')
    (hq : sh.globalQueue = ⟨id, future⟩ :: q) :
    ∃ id' q', sh'.globalQueue = ⟨id', future⟩ :: q' ∧ q.map Task.future = q'.map Task.future := by
  have hmap := h.queue.symm
  rw [hq] at hmap
  obtain ⟨⟨id', future⟩, q', hsh, rfl, hrest⟩ := List.map_eq_cons_iff.1 hmap
  exact ⟨id', q', hsh, hrest.symm⟩

/-- A change that no handle sees. -/
theorem Alike.change (h : Alike sh sh') {sh₁ : Std.Shared n U V} {sh₁' : NoStd.Shared U V}
    (hq : sh₁.globalQueue.map Task.future = sh₁'.globalQueue.map Task.future)
    (hs : sh₁.spawned = sh.spawned) (hs' : sh₁'.spawned = sh'.spawned) (hc : sh₁.chan = sh.chan)
    (hr : sh₁'.results = sh'.results) : Alike sh₁ sh₁' := by
  refine ⟨hq, ?_, ?_, ?_⟩
  · rw [hs, hs', h.spawned]
  · rw [hc, hr]
    exact h.handles
  · rw [hc, hr]
    exact h.outputs

/-- A handle that both hold gives both the same answer. -/
theorem Alike.pollHandle (h : Alike sh sh') {d : Nat} (hd : (sh.chan d).receiver = .handle) :
    (sh.pollHandle d).1 = (sh'.pollHandle d).1 ∧
    Alike (sh.pollHandle d).2 (sh'.pollHandle d).2 := by
  have hout := h.outputs d hd
  unfold Std.Shared.pollHandle Std.JoinHandle.poll Std.Channel.tryRecv NoStd.Shared.pollHandle
  rw [hout]
  cases hitems : (sh'.results d).items with
  | nil => cases hs : (sh.chan d).sender <;> exact ⟨rfl, h⟩
  | cons v q =>
    refine ⟨rfl, h.queue, h.spawned, fun e => ?_, fun e => ?_⟩
    · by_cases he : e = d
      · subst he
        simp only [update_self, Std.Channel.received]
        exact h.handles e
      · simp only [update_of_ne he]
        exact h.handles e
    · by_cases he : e = d
      · subst he
        simp only [update_self, Std.Channel.received, hout, hitems]
        intro _
        rfl
      · simp only [update_of_ne he]
        exact h.outputs e

theorem Alike.dropHandle (h : Alike sh sh') (d : Nat) :
    Alike (sh.dropReceiver d) (sh'.dropHandle d) := by
  refine ⟨h.queue, h.spawned, fun e => ?_, fun e => ?_⟩
  · by_cases he : e = d
    · subst he
      simp [Std.Shared.dropReceiver, NoStd.Shared.dropHandle, Std.Channel.dropReceiver,
        NoStd.ResultQueue.dropHandle]
    · simp only [Std.Shared.dropReceiver, NoStd.Shared.dropHandle, update_of_ne he]
      exact h.handles e
  · by_cases he : e = d
    · subst he
      simp [Std.Shared.dropReceiver, Std.Channel.dropReceiver]
    · simp only [Std.Shared.dropReceiver, NoStd.Shared.dropHandle, update_of_ne he]
      exact h.outputs e

/-- The task of spawn `ch` ends with `v`, for the first time. -/
theorem Alike.finish (h : Alike sh sh') {ch : Nat} (hitems : (sh'.results ch).items = []) (v : V)
    (log) : Alike { sh with
      chan := update (update sh.chan ch ((sh.chan ch).send v)) ch ((sh.chan ch).send v).dropSender
      log := log } (sh'.finish ch v) := by
  have hsend : ((sh.chan ch).send v).receiver = (sh.chan ch).receiver := by
    unfold Std.Channel.send
    split <;> rfl
  refine ⟨h.queue, h.spawned, fun e => ?_, fun e => ?_⟩
  · rw [NoStd.Shared.finish_holder]
    by_cases he : e = ch
    · subst he
      simp only [update_self, Std.Channel.dropSender, hsend]
      exact h.handles e
    · simp only [update_of_ne he]
      exact h.handles e
  · by_cases he : e = ch
    · subst he
      simp only [update_self, Std.Channel.dropSender, hsend, NoStd.Shared.finish,
        NoStd.ResultQueue.enqueue, hitems]
      intro hd
      have hne : (sh.chan e).receiver ≠ .dropped := by
        rw [hd]
        intro hdrop
        cases hdrop
      rw [Std.Channel.send, if_neg hne, h.outputs e hd, hitems]
      rfl
    · simp only [update_of_ne he, NoStd.Shared.finish]
      exact h.outputs e

end Alike

/-! ## Stacks side by side -/

variable {t : Std.ThreadId n m} {c : Nat} {k : Option V → Burst U V}

/-- The loop of `Executor::block_on`. -/
abbrev helping (c : Nat) (l : Std.BlockOnLoop) (k : Option V → Burst U V) : List (Std.Frame U V) :=
  [.blockOn c l, .user none (.wait k)]

/-- A poll on top of it, with `b` left to do. -/
abbrev helps (id : TaskId) (ch : Nat) (u : U) (c : Nat) (l : Std.BlockOnLoop)
    (k : Option V → Burst U V) (b : Burst U V) : List (Std.Frame U V) :=
  .user (some ⟨id, .wrapped ch u⟩) (.run b) :: helping c l k

/-- The loop of `SimpleExecutor::block_on`. -/
abbrev waiting (c : Nat) (pc : NoStd.BlockOnPc) (k : Option V → Burst U V) :
    List (NoStd.Frame U V) := [.blockOn c pc, .user none (.wait k)]

/-- A poll on top of it, with `b` left to do. -/
abbrev waits (id : TaskId) (ch : Nat) (u : U) (c : Nat) (pc : NoStd.BlockOnPc)
    (k : Option V → Burst U V) (b : Burst U V) : List (NoStd.Frame U V) :=
  .user (some ⟨id, .wrapped ch u⟩) (.run b) :: waiting c pc k

/-- Both threads are in their loops, or both poll the same task. -/
inductive Stacks (c : Nat) (k : Option V → Burst U V) :
    List (Std.Frame U V) → List (NoStd.Frame U V) → Prop
  | loop (l pc) : Stacks c k (helping c l k) (waiting c pc k)
  | polling (id id' ch u b l pc) : Stacks c k (helps id ch u c l k b) (waits id' ch u c pc k b)

/-- Both executors wait for the result of spawn `c`. -/
structure Paired (cap : Option Nat) (poll : U → Burst U V) (t : Std.ThreadId n m) (c : Nat)
    (k : Option V → Burst U V) (a : Std.State n m U V) (a' : NoStd.State U V) : Prop where
  alike : Alike a.shared a'.shared
  own : a.shared.chan c = ⟨[], true, .blockOn⟩
  own' : a'.shared.results c = ⟨[], .blockOn⟩
  born : c < a.shared.spawned
  owners : 0 < a.shared.owners
  reach : NoStd.Reachable cap poll a'
  frames : Stacks c k (a.threads t) a'.stack

/-- Both take a step that shows `o`, which is not the own output, and wait again when they have
settled. -/
structure Both (cap : Option Nat) (poll : U → Burst U V) (t : Std.ThreadId n m) (c : Nat)
    (k : Option V → Burst U V) (o : Option (Seen V)) (a b : Std.State n m U V)
    (a' b' : NoStd.State U V) : Prop where
  std : Std.Caller poll t a o b
  noStd : NoStd.Observed cap poll a' o b'
  foreign : ∀ v, o ≠ some (.finished c v)
  settled : ∃ d, Settles (Std.Caller poll t) (Std.State.Fine cap t) b d ∧ Paired cap poll t c k d b'

/-- The two promises are about the same runs. -/
theorem Paired.fine_iff {a : Std.State n m U V} {a' : NoStd.State U V}
    (h : Paired cap poll t c k a a') : a.Fine cap t ↔ a'.Fine cap := by
  obtain ⟨sh', stack⟩ := a'
  have hlen := h.alike.length
  have hframes := h.frames
  unfold Std.State.Fine NoStd.State.Fine Std.State.Within NoStd.State.Within Std.State.unfinished
  rw [hlen]
  generalize hfs : a.threads t = fs at hframes
  cases hframes with
  | loop l pc =>
    have htame : a.Tame t := Std.State.tame_of hfs nofun
    have htame' : NoStd.State.Tame ⟨sh', waiting c pc k⟩ :=
      ⟨nofun, fun ⟨_, _, _, _, hst⟩ => by cases hst⟩
    exact and_congr (iff_of_true htame htame') Iff.rfl
  | polling id id' ch u b l pc =>
    refine and_congr ⟨fun htame => ⟨?_, ?_⟩, fun htame => ⟨?_, ?_⟩⟩ ?_
    · rintro task rest hst
      cases hst
      exact htame.noPanic ⟨_, _, hfs⟩
    · rintro ⟨task, w, k', rest, hst⟩
      cases hst
      exact htame.noNest _ _ _ _ hfs
    · rintro ⟨task, rest, hst⟩
      rw [hfs] at hst
      cases hst
      exact htame.noPanic _ _ rfl
    · intro task w k' rest hst
      rw [hfs] at hst
      cases hst
      exact htame.noNest ⟨_, _, _, _, rfl⟩
    · have hadd : Std.adding (helps id ch u c l k b) =
          NoStd.UserCode.adds (.run b : UserCode U V) := by
        cases b <;> rfl
      have hwait : NoStd.UserCode.adds (.wait k : UserCode U V) = 0 := rfl
      rw [hadd]
      refine forall_congr' fun x => forall_congr' fun _ => ?_
      simp only [Std.Frame.unfinished, NoStd.Frame.unfinished, weigh_cons, weigh_nil, hwait,
        Option.toList_some, Option.toList_none, List.length_singleton, List.length_nil]
      omega

section Steps

variable {a : Std.State n m U V} {a' b' : NoStd.State U V} {o : Option (Seen V)}

/-- What is kept when the own result is not touched. -/
theorem Paired.next (h : Paired cap poll t c k a a') (hobs : NoStd.Observed cap poll a' o b')
    {sh : Std.Shared n U V} {th : Std.ThreadId n m → List (Std.Frame U V)}
    {fs : List (Std.Frame U V)} (halike : Alike sh b'.shared)
    (hown : sh.chan c = a.shared.chan c) (hown' : b'.shared.results c = a'.shared.results c)
    (hborn : a.shared.spawned ≤ sh.spawned) (howners : 0 < sh.owners)
    (hframes : Stacks c k fs b'.stack) : Paired cap poll t c k ⟨sh, update th t fs⟩ b' where
  alike := halike
  own := hown.trans h.own
  own' := hown'.trans h.own'
  born := lt_of_lt_of_le h.born hborn
  owners := howners
  reach := h.reach.observed hobs
  frames := by
    show Stacks c k (update th t fs t) b'.stack
    rw [update_self]
    exact hframes

/-- A handle is not the own result. -/
theorem Paired.ne_of_handle (h : Paired cap poll t c k a a') {d : Nat}
    (hd : (a.shared.chan d).receiver = .handle) : c ≠ d := by
  rintro rfl
  rw [h.own] at hd
  cases hd

end Steps

/-! ## The loops -/

/-- While the executor's code is on top, the unfinished tasks are in the queue, in the top frame and
in the poll below. -/
theorem fine_of {s : Std.State n m U V} {f : Std.Frame U V} {fs : List (Std.Frame U V)}
    (hfs : s.threads t = f :: fs) (hf : ∀ task code, f ≠ .user task code)
    (hw : ∀ x ∈ cap, s.shared.globalQueue.length +
      (f.unfinished + weigh Std.Frame.unfinished fs) ≤ x) :
    s.Fine cap t := by
  refine ⟨Std.State.tame_of hfs hf, fun x hx => ?_⟩
  have hadd : Std.adding (f :: fs) = 0 := by
    cases f with
    | user task code => exact absurd rfl (hf task code)
    | _ => rfl
  unfold Std.State.unfinished
  rw [hfs, hadd, weigh_cons]
  exact hw x hx

section Loops

variable {sh' : NoStd.Shared U V}

theorem fine_waiting (hq : ∀ x ∈ cap, sh'.globalQueue.length ≤ x) (pc : NoStd.BlockOnPc) :
    NoStd.State.Fine cap ⟨sh', waiting c pc k⟩ := by
  refine ⟨⟨nofun, fun ⟨_, _, _, _, hst⟩ => by cases hst⟩, fun x hx => ?_⟩
  have := hq x hx
  simpa [NoStd.Frame.unfinished, NoStd.UserCode.adds] using this

/-- The loop of the no_std executor gets to its next poll. -/
theorem exists_poll (hc : (sh'.results c).items = []) (hq : ∀ x ∈ cap, sh'.globalQueue.length ≤ x)
    (pc : NoStd.BlockOnPc) : ∃ i < 10, Trace (NoStd.Observed cap poll) (NoStd.State.Fine cap)
      ⟨sh', waiting c pc k⟩ [] ⟨sh', waiting c (.poll i) k⟩ := by
  have hretry : Trace (NoStd.Observed cap poll) (NoStd.State.Fine cap)
      ⟨sh', waiting c .check k⟩ [] ⟨sh', waiting c (.poll 0) k⟩ :=
    Trace.silent (fine_waiting hq .check)
      (.step nofun (.retry _ _ _ (.value 0) hc) (NoStd.shows_none rfl)) Trace.nil
  cases pc with
  | check => exact ⟨0, by omega, hretry⟩
  | poll i =>
    by_cases hi : i < 10
    · exact ⟨i, hi, Trace.nil⟩
    · refine ⟨0, by omega, Trace.silent (fine_waiting hq (.poll i)) ?_ hretry⟩
      exact .step nofun (.endBatch _ _ i _ (.value 0) (fun h => absurd h hi)) (NoStd.shows_none rfl)

variable {sh : Std.Shared n U V}

theorem fine_helping {a : Std.State n m U V} {l : Std.BlockOnLoop}
    (hfs : a.threads t = helping c l k) (hq : ∀ x ∈ cap, a.shared.globalQueue.length ≤ x) :
    a.Fine cap t := by
  refine fine_of hfs nofun fun x hx => ?_
  have := hq x hx
  simpa [Std.Frame.unfinished] using this

/-- One action of the loop of the std executor that takes no task. -/
theorem trace_help {a : Std.State n m U V} {l l' : Std.BlockOnLoop} {ch : Std.StealChoice}
    (hfs : a.threads t = helping c l k) (hown : a.shared.chan c = ⟨[], true, .blockOn⟩)
    (hq : ∀ x ∈ cap, a.shared.globalQueue.length ≤ x)
    (hh : Std.Executor.help a.shared l ch = (a.shared, l', none)) :
    Trace (Std.Caller poll t) (Std.State.Fine cap t) a []
      ⟨a.shared, update a.threads t (helping c l' k)⟩ := by
  have hempty : l.pc = .tryRecv → (a.shared.chan c).tryRecv = .empty := by
    intro _
    rw [hown]
    rfl
  exact Trace.single (fine_helping hfs hq)
    (Std.caller_of hfs (.help _ _ _ _ _ _ hempty hh) nofun (fun h0 => h0) (Std.shows_none rfl))

/-- The loop of the std executor gets to its next steal. -/
theorem exists_help {a : Std.State n m U V} {l : Std.BlockOnLoop}
    (hfs : a.threads t = helping c l k) (hown : a.shared.chan c = ⟨[], true, .blockOn⟩)
    (hq : ∀ x ∈ cap, a.shared.globalQueue.length ≤ x) :
    ∃ l' i a₁, l'.pc = .help i ∧ i < 4 ∧ a₁.shared = a.shared ∧ a₁.threads t = helping c l' k ∧
      Trace (Std.Caller poll t) (Std.State.Fine cap t) a [] a₁ := by
  -- from the head of the loop, and from the end of a batch
  have hrecv : ∀ {a : Std.State n m U V} {l : Std.BlockOnLoop}, a.threads t = helping c l k →
      a.shared.chan c = ⟨[], true, .blockOn⟩ → (∀ x ∈ cap, a.shared.globalQueue.length ≤ x) →
      l.pc = .tryRecv → ∃ l' i a₁, l'.pc = .help i ∧ i < 4 ∧ a₁.shared = a.shared ∧
        a₁.threads t = helping c l' k ∧
        Trace (Std.Caller poll t) (Std.State.Fine cap t) a [] a₁ := by
    intro a l hfs hown hq hpc
    have hh : Std.Executor.help a.shared l .retry =
        (a.shared, { l with pc := .help 0, helped := false }, none) := by
      rw [Std.Executor.help, hpc]
    exact ⟨_, 0, ⟨a.shared, update a.threads t (helping c _ k)⟩, rfl, by omega, rfl,
      update_self .., trace_help hfs hown hq hh⟩
  have hback : ∀ {a : Std.State n m U V} {l : Std.BlockOnLoop}, a.threads t = helping c l k →
      a.shared.chan c = ⟨[], true, .blockOn⟩ → (∀ x ∈ cap, a.shared.globalQueue.length ≤ x) →
      l.pc = .backoff → ∃ l' i a₁, l'.pc = .help i ∧ i < 4 ∧ a₁.shared = a.shared ∧
        a₁.threads t = helping c l' k ∧
        Trace (Std.Caller poll t) (Std.State.Fine cap t) a [] a₁ := by
    intro a l hfs hown hq hpc
    have hh : Std.Executor.help a.shared l .retry = (a.shared, l.backoff, none) := by
      rw [Std.Executor.help, hpc]
    obtain ⟨l', i, a₁, h1, h2, h3, h4, h5⟩ := hrecv (l := l.backoff)
      (a := ⟨a.shared, update a.threads t (helping c l.backoff k)⟩) (update_self ..) hown hq rfl
    exact ⟨l', i, a₁, h1, h2, h3, h4, (trace_help hfs hown hq hh).append h5⟩
  cases hpc : l.pc with
  | tryRecv => exact hrecv hfs hown hq hpc
  | backoff => exact hback hfs hown hq hpc
  | help i =>
    by_cases hi : i < 4
    · exact ⟨l, i, a, hpc, hi, rfl, hfs, Trace.nil⟩
    · have hh : Std.Executor.help a.shared l .retry =
          (a.shared, { l with pc := .backoff }, none) := by
        rw [Std.Executor.help, hpc]
        exact if_neg hi
      obtain ⟨l', i, a₁, h1, h2, h3, h4, h5⟩ := hback (l := { l with pc := .backoff })
        (a := ⟨a.shared, update a.threads t (helping c { l with pc := .backoff } k)⟩)
        (update_self ..) hown hq rfl
      exact ⟨l', i, a₁, h1, h2, h3, h4, (trace_help hfs hown hq hh).append h5⟩

/-- Both take the same task and start to poll it. -/
theorem Paired.take {a : Std.State n m U V} {i : Nat} {id id' : TaskId} {ch : Nat} {u : U}
    {q q' : List (Task U)} (h : Paired cap poll t c k a ⟨sh', waiting c (.poll i) k⟩) (hi : i < 10)
    (hq' : sh'.globalQueue = ⟨id', .wrapped ch u⟩ :: q')
    (hmap : q.map Task.future = q'.map Task.future) (l : Std.BlockOnLoop) :
    NoStd.Observed cap poll ⟨sh', waiting c (.poll i) k⟩ (some (.polled ch))
      ⟨sh'.popped ch q', waits id' ch u c (.poll (i + 1)) k (poll u)⟩ ∧
    Paired cap poll t c k
      ⟨(({ a.shared with globalQueue := q } : Std.Shared n U V).beginPoll poll
          ⟨id, .wrapped ch u⟩).1, update a.threads t (helps id ch u c l k (poll u))⟩
      ⟨sh'.popped ch q', waits id' ch u c (.poll (i + 1)) k (poll u)⟩ := by
  have hobs : NoStd.Observed cap poll ⟨sh', waiting c (.poll i) k⟩ (some (.polled ch))
      ⟨sh'.popped ch q', waits id' ch u c (.poll (i + 1)) k (poll u)⟩ :=
    .step nofun (.pop _ _ _ _ _ _ _ _ (.value 0) hi hq') ⟨_, rfl, rfl⟩
  refine ⟨hobs, h.next hobs ?_ rfl rfl (Nat.le_refl _) h.owners (.polling ..)⟩
  exact h.alike.change hmap rfl rfl rfl rfl

/-- Where the loops stand does not matter. -/
theorem Paired.relax {a a₁ : Std.State n m U V} {l : Std.BlockOnLoop} {pc pc' : NoStd.BlockOnPc}
    (h : Paired cap poll t c k a ⟨sh', waiting c pc k⟩) (hsh : a₁.shared = a.shared)
    (hfs : a₁.threads t = helping c l k)
    (hr : NoStd.Reachable cap poll ⟨sh', waiting c pc' k⟩) :
    Paired cap poll t c k a₁ ⟨sh', waiting c pc' k⟩ := by
  refine ⟨hsh ▸ h.alike, hsh ▸ h.own, h.own', hsh ▸ h.born, hsh ▸ h.owners, hr, ?_⟩
  rw [hfs]
  exact .loop l pc'

end Loops

/-! ## One action of a polled task -/

section Poll

variable {a : Std.State n m U V} {sh' : NoStd.Shared U V} {id id' : TaskId} {ch : Nat} {u : U}
  {l : Std.BlockOnLoop} {pc : NoStd.BlockOnPc}

/-- Where both poll the same task, with `b` left to do. -/
structure Polling (cap : Option Nat) (poll : U → Burst U V) (t : Std.ThreadId n m) (c : Nat)
    (k : Option V → Burst U V) (a : Std.State n m U V) (sh' : NoStd.Shared U V) (id id' : TaskId)
    (ch : Nat) (u : U) (l : Std.BlockOnLoop) (pc : NoStd.BlockOnPc) (b : Burst U V) : Prop where
  paired : Paired cap poll t c k a ⟨sh', waits id' ch u c pc k b⟩
  stack : a.threads t = helps id ch u c l k b
  fine : a.Fine cap t

theorem Polling.room {b : Burst U V} (h : Polling cap poll t c k a sh' id id' ch u l pc b) :
    NoStd.Room cap sh'.globalQueue :=
  NoStd.State.Within.room_polling (h.paired.fine_iff.1 h.fine).2

/-- The tasks at hand are the queued ones, the polled one, and the one about to be added. -/
theorem Polling.unfinished {b : Burst U V} (h : Polling cap poll t c k a sh' id id' ch u l pc b) :
    a.unfinished t =
      a.shared.globalQueue.length + 1 + NoStd.UserCode.adds (.run b : UserCode U V) := by
  unfold Std.State.unfinished
  rw [h.stack]
  have hadd : Std.adding (helps id ch u c l k b) =
      NoStd.UserCode.adds (.run b : UserCode U V) := by
    cases b <;> rfl
  rw [hadd]
  simp [Std.Frame.unfinished]

theorem Polling.outside {f : Nat → Burst U V}
    (h : Polling cap poll t c k a sh' id id' ch u l pc (.outside f)) (x : Nat) :
    Both cap poll t c k (some (.answered x)) a
      ⟨a.shared, update a.threads t (helps id ch u c l k (f x))⟩
      ⟨sh', waits id' ch u c pc k (.outside f)⟩ ⟨sh', waits id' ch u c pc k (f x)⟩ := by
  have hobs : NoStd.Observed cap poll ⟨sh', waits id' ch u c pc k (.outside f)⟩
      (some (.answered x)) ⟨sh', waits id' ch u c pc k (f x)⟩ := .answered _ _ _ x rfl
  refine ⟨.answered _ _ _ x h.stack, hobs, nofun, _, .here _, ?_⟩
  exact h.paired.next hobs h.paired.alike rfl rfl (Nat.le_refl _) h.paired.owners (.polling ..)

theorem Polling.cloneRuntime {f : Burst U V}
    (h : Polling cap poll t c k a sh' id id' ch u l pc (.cloneRuntime f)) :
    Both cap poll t c k none a
      ⟨{ a.shared with owners := a.shared.owners + 1 },
        update a.threads t (helps id ch u c l k f)⟩
      ⟨sh', waits id' ch u c pc k (.cloneRuntime f)⟩ ⟨sh', waits id' ch u c pc k f⟩ := by
  have hobs : NoStd.Observed cap poll ⟨sh', waits id' ch u c pc k (.cloneRuntime f)⟩
      none ⟨sh', waits id' ch u c pc k f⟩ :=
    .step nofun (.cloneRuntime _ _ _ _ (.value 0)) (NoStd.shows_none rfl)
  refine ⟨Std.caller_of h.stack (.cloneRuntime _ _ _ h.paired.owners) nofun nofun
    (Std.shows_none rfl), hobs, nofun, _, .here _, ?_⟩
  have halike : Alike { a.shared with owners := a.shared.owners + 1 } sh' :=
    h.paired.alike.change h.paired.alike.queue rfl rfl rfl rfl
  exact h.paired.next hobs halike rfl rfl (Nat.le_refl _) (Nat.succ_pos _) (.polling ..)

theorem Polling.dropRuntime {f : Burst U V}
    (h : Polling cap poll t c k a sh' id id' ch u l pc (.dropRuntime f))
    (hown : 1 < a.shared.owners) :
    Both cap poll t c k none a
      ⟨{ a.shared with owners := a.shared.owners - 1 },
        update a.threads t (helps id ch u c l k f)⟩
      ⟨sh', waits id' ch u c pc k (.dropRuntime f)⟩ ⟨sh', waits id' ch u c pc k f⟩ := by
  have hobs : NoStd.Observed cap poll ⟨sh', waits id' ch u c pc k (.dropRuntime f)⟩
      none ⟨sh', waits id' ch u c pc k f⟩ :=
    .step nofun (.dropRuntime _ _ _ _ (.value 0)) (NoStd.shows_none rfl)
  refine ⟨Std.caller_of h.stack (.dropRuntime _ _ _ hown) nofun
    (fun h0 => absurd h0 (Nat.sub_pos_of_lt hown).ne') (Std.shows_none rfl),
    hobs, nofun, _, .here _, ?_⟩
  have halike : Alike { a.shared with owners := a.shared.owners - 1 } sh' :=
    h.paired.alike.change h.paired.alike.queue rfl rfl rfl rfl
  exact h.paired.next hobs halike rfl rfl (Nat.le_refl _) (Nat.sub_pos_of_lt hown) (.polling ..)

theorem Polling.dropHandle {d : Nat} {f : Burst U V}
    (h : Polling cap poll t c k a sh' id id' ch u l pc (.dropHandle d f))
    (hd : (a.shared.chan d).receiver = .handle) :
    Both cap poll t c k none a
      ⟨a.shared.dropReceiver d, update a.threads t (helps id ch u c l k f)⟩
      ⟨sh', waits id' ch u c pc k (.dropHandle d f)⟩
      ⟨sh'.dropHandle d, waits id' ch u c pc k f⟩ := by
  have hne := h.paired.ne_of_handle hd
  have hobs : NoStd.Observed cap poll ⟨sh', waits id' ch u c pc k (.dropHandle d f)⟩
      none ⟨sh'.dropHandle d, waits id' ch u c pc k f⟩ :=
    .step nofun (.dropHandle _ _ _ _ _ (.value 0) ((h.paired.alike.handles d).1 hd))
      (NoStd.shows_none rfl)
  refine ⟨Std.caller_of h.stack (.dropHandle _ _ _ _ hd) nofun (fun h0 => h0)
    (Std.shows_none rfl), hobs, nofun, _, .here _, ?_⟩
  exact h.paired.next hobs (h.paired.alike.dropHandle d) (update_of_ne hne _ _)
    (update_of_ne hne _ _) (Nat.le_refl _) h.paired.owners (.polling ..)

theorem Polling.pollHandle {d : Nat} {f : Option V → Burst U V}
    (h : Polling cap poll t c k a sh' id id' ch u l pc (.pollHandle d f))
    (hd : (a.shared.chan d).receiver = .handle) :
    Both cap poll t c k none a
      ⟨(a.shared.pollHandle d).2,
        update a.threads t (helps id ch u c l k (f (a.shared.pollHandle d).1))⟩
      ⟨sh', waits id' ch u c pc k (.pollHandle d f)⟩
      ⟨(sh'.pollHandle d).2, waits id' ch u c pc k (f (sh'.pollHandle d).1)⟩ := by
  have hne := h.paired.ne_of_handle hd
  obtain ⟨hanswer, halike⟩ := h.paired.alike.pollHandle hd
  have hshow : NoStd.Shows sh' (sh'.pollHandle d).2 none := by
    unfold NoStd.Shared.pollHandle
    split
    · exact ⟨_, rfl, rfl⟩
    · exact NoStd.shows_none rfl
  have hshow' : Std.Shows a.shared (a.shared.pollHandle d).2 none := by
    unfold Std.Shared.pollHandle
    split
    · exact ⟨_, rfl, rfl⟩
    · exact Std.shows_none rfl
  have hkeep : (a.shared.pollHandle d).2.chan c = a.shared.chan c ∧
      (a.shared.pollHandle d).2.spawned = a.shared.spawned ∧
      (a.shared.pollHandle d).2.owners = a.shared.owners := by
    unfold Std.Shared.pollHandle
    split
    · exact ⟨update_of_ne hne _ _, rfl, rfl⟩
    · exact ⟨rfl, rfl, rfl⟩
  have hobs : NoStd.Observed cap poll ⟨sh', waits id' ch u c pc k (.pollHandle d f)⟩
      none ⟨(sh'.pollHandle d).2, waits id' ch u c pc k (f (sh'.pollHandle d).1)⟩ :=
    .step nofun (.pollHandle _ _ _ _ _ (.value 0) ((h.paired.alike.handles d).1 hd)) hshow
  have howners : (a.shared.pollHandle d).2.owners = 0 → a.shared.owners = 0 := by
    rw [Std.pollHandle_eq]
    exact fun h0 => h0
  refine ⟨Std.caller_of h.stack (.pollHandle _ _ _ _ hd) nofun howners hshow', hobs, nofun,
    _, .here _, ?_⟩
  refine h.paired.next hobs halike hkeep.1 (NoStd.Shared.pollHandle_of_ne hne) ?_ ?_ ?_
  · rw [hkeep.2.1]
  · rw [hkeep.2.2]
    exact h.paired.owners
  · rw [hanswer]
    exact .polling ..

/-- The std executor takes a second step to push the task. -/
theorem Polling.pending {w : U}
    (h : Polling cap poll t c k a sh' id id' ch u l pc (.pending w)) :
    Both cap poll t c k none a
      ⟨a.shared, update a.threads t (.requeue none ⟨id, .wrapped ch w⟩ :: helping c l k)⟩
      ⟨sh', waits id' ch u c pc k (.pending w)⟩
      ⟨sh'.requeue cap id' ch w, waiting c pc k⟩ := by
  have hroom := h.room
  have hobs : NoStd.Observed cap poll ⟨sh', waits id' ch u c pc k (.pending w)⟩ none
      ⟨sh'.requeue cap id' ch w, waiting c pc k⟩ := by
    refine .step nofun (.pending _ _ _ _ _ _ _ _ (.value 0)) ⟨_, rfl, ?_⟩
    rw [if_pos hroom]
    rfl
  have hfine : Std.State.Fine cap t (⟨a.shared,
      update a.threads t (.requeue none ⟨id, .wrapped ch w⟩ :: helping c l k)⟩ :
        Std.State n m U V) := by
    refine fine_of (update_self ..) nofun fun x hx => ?_
    have := h.fine.2 x hx
    rw [h.unfinished] at this
    simp only [Std.Frame.unfinished, weigh_cons, weigh_nil, Option.toList_none, List.length_nil]
    omega
  have hsettle : Settles (Std.Caller poll t) (Std.State.Fine cap t)
      ⟨a.shared, update a.threads t (.requeue none ⟨id, .wrapped ch w⟩ :: helping c l k)⟩ _ :=
    Std.settles_of (update_self ..) hfine (.requeue ..)
      (fun _ _ hs => by cases hs; exact ⟨rfl, rfl⟩) nofun (fun h0 => h0) rfl rfl (.here _)
  refine ⟨Std.caller_of h.stack (.pendingHelp ..) nofun (fun h0 => h0) (Std.shows_none rfl),
    hobs, nofun, _, hsettle, ?_⟩
  have hqueue : (a.shared.pushPending ⟨id, .wrapped ch w⟩).globalQueue.map Task.future =
      (NoStd.pushBack cap sh'.globalQueue ⟨id', .wrapped ch w⟩).map Task.future := by
    rw [NoStd.pushBack_of_room hroom, List.map_append, ← h.paired.alike.queue]
    exact List.map_append
  exact h.paired.next hobs (h.paired.alike.change hqueue rfl rfl rfl rfl) rfl rfl (Nat.le_refl _)
    h.paired.owners (.loop ..)

/-- The std executor takes a second step to push the new task. -/
theorem Polling.spawn {w : U} {f : Nat → Burst U V}
    (h : Polling cap poll t c k a sh' id id' ch u l pc (.spawn w f)) :
    Both cap poll t c k none a
      ⟨(a.shared.newTask w).1, update a.threads t
        (.spawn (a.shared.newTask w).2 a.shared.spawned false ::
          helps id ch u c l k (f a.shared.spawned))⟩
      ⟨sh', waits id' ch u c pc k (.spawn w f)⟩
      ⟨sh'.spawn cap w .handle, waits id' ch u c pc k (f sh'.spawned)⟩ := by
  have hne : c ≠ a.shared.spawned := Nat.ne_of_lt h.paired.born
  have hroom := h.room
  have hobs : NoStd.Observed cap poll ⟨sh', waits id' ch u c pc k (.spawn w f)⟩ none
      ⟨sh'.spawn cap w .handle, waits id' ch u c pc k (f sh'.spawned)⟩ := by
    refine .step nofun (.spawn _ _ _ _ _ (.value 0)) ⟨_, rfl, ?_⟩
    rw [if_pos hroom]
    rfl
  have hfine : Std.State.Fine cap t (⟨(a.shared.newTask w).1, update a.threads t
      (.spawn (a.shared.newTask w).2 a.shared.spawned false ::
        helps id ch u c l k (f a.shared.spawned))⟩ : Std.State n m U V) := by
    refine fine_of (update_self ..) nofun fun x hx => ?_
    have := h.fine.2 x hx
    rw [h.unfinished] at this
    simp only [NoStd.UserCode.adds] at this
    simp only [Std.Frame.unfinished, weigh_cons, weigh_nil, Option.toList_none, Option.toList_some,
      List.length_nil, List.length_singleton, Std.Shared.newTask]
    omega
  have hsettle : Settles (Std.Caller poll t) (Std.State.Fine cap t)
      ⟨(a.shared.newTask w).1, update a.threads t
        (.spawn (a.shared.newTask w).2 a.shared.spawned false ::
          helps id ch u c l k (f a.shared.spawned))⟩ _ :=
    Std.settles_of (update_self ..) hfine (.spawned ..)
      (fun _ _ hs => by cases hs; exact ⟨rfl, rfl⟩) nofun (fun h0 => h0) rfl rfl (.here _)
  refine ⟨Std.caller_of h.stack (.callSpawn _ _ _ _ h.paired.owners) nofun (fun h0 => h0)
    ⟨_, rfl, rfl⟩, hobs, nofun, _, hsettle, ?_⟩
  refine h.paired.next hobs (h.paired.alike.spawn hroom w false) ?_ ?_ (Nat.le_succ _)
    h.paired.owners ?_
  · exact (update_of_ne hne _ _).trans (update_of_ne hne _ _)
  · rw [h.paired.alike.spawned] at hne
    exact update_of_ne hne _ _
  · rw [← h.paired.alike.spawned]
    exact .polling ..

/-- The std executor drops the sender and then the future. -/
theorem Polling.ready {v : V}
    (h : Polling cap poll t c k a sh' id id' ch u l pc (.ready v)) (hch : c ≠ ch) :
    Both cap poll t c k (some (.finished ch v)) a
      ⟨{ a.shared with
          chan := update a.shared.chan ch ((a.shared.chan ch).send v)
          log := a.shared.log ++ [.sent ch v] },
        update a.threads t (.sent ⟨id, .wrapped ch u⟩ :: helping c l k)⟩
      ⟨sh', waits id' ch u c pc k (.ready v)⟩
      ⟨sh'.finish ch v, waiting c pc k⟩ := by
  have hitems := NoStd.items_of_polled h.paired.reach rfl
  have hobs : NoStd.Observed cap poll ⟨sh', waits id' ch u c pc k (.ready v)⟩
      (some (.finished ch v)) ⟨sh'.finish ch v, waiting c pc k⟩ :=
    .step nofun (.ready _ _ _ _ _ _ _ _ (.value 0)) ⟨_, rfl, rfl⟩
  -- neither of the two frames has a task left
  have hfine : ∀ {sh : Std.Shared n U V} {th} {f : Std.Frame U V},
      sh.globalQueue = a.shared.globalQueue → f.unfinished = 0 →
        (∀ task code, f ≠ .user task code) →
      Std.State.Fine cap t (⟨sh, update th t (f :: helping c l k)⟩ : Std.State n m U V) := by
    intro sh th f hq hu hf
    refine fine_of (update_self ..) hf fun x hx => ?_
    have := h.fine.2 x hx
    rw [h.unfinished] at this
    rw [hu]
    simp only [hq, Std.Frame.unfinished, weigh_cons, weigh_nil, Option.toList_none, List.length_nil]
    omega
  have hsettle : Settles (Std.Caller poll t) (Std.State.Fine cap t)
      ⟨{ a.shared with
          chan := update a.shared.chan ch ((a.shared.chan ch).send v)
          log := a.shared.log ++ [.sent ch v] },
        update a.threads t (.sent ⟨id, .wrapped ch u⟩ :: helping c l k)⟩ _ :=
    Std.settles_of (update_self ..) (hfine rfl rfl nofun) (.endWrapped ..)
      (fun _ _ hs => by cases hs; exact ⟨rfl, rfl⟩) nofun (fun h0 => h0) rfl rfl
      (Std.settles_of (update_self ..) (hfine rfl rfl nofun) (.finishedHelp ..)
        (fun _ _ hs => by cases hs; exact ⟨rfl, rfl⟩) nofun (fun h0 => h0)
        (List.append_nil _).symm rfl
        (.here _))
  have hforeign : ∀ w, some (.finished ch v) ≠ some (Seen.finished c w) := by
    intro w hw
    cases hw
    exact hch rfl
  refine ⟨Std.caller_of h.stack (.ready ..) nofun (fun h0 => h0) ⟨_, rfl, rfl⟩,
    hobs, hforeign, _, hsettle, ?_⟩
  refine h.paired.next hobs ?_ ?_ (update_of_ne hch _ _) (Nat.le_refl _) h.paired.owners (.loop ..)
  · have := h.paired.alike.finish hitems v (a.shared.log ++ [.sent ch v] ++ [.ready ch])
    simpa only [update_self] using this
  · show update (update a.shared.chan ch _) ch _ c = _
    rw [update_of_ne hch, update_of_ne hch]

end Poll

/-! ## One step -/

section Steps

variable {a b : Std.State n m U V} {a' b' : NoStd.State U V} {o o' : Option (Seen V)}

/-- The own output, or a step that both take. -/
theorem Both.forward (hB : Both cap poll t c k o' a b a' b') (hG : a'.Fine cap)
    (hout : ∀ task k fs, a.threads t ≠ .user task (.run (.outside k)) :: fs)
    (hshow : Std.Shows a.shared b.shared o) : (∀ v, o ≠ some (.finished c v)) ∧
      ∃ d b', Settles (Std.Caller poll t) (Std.State.Fine cap t) b d ∧
        Trace (NoStd.Observed cap poll) (NoStd.State.Fine cap) a' o.toList b' ∧
        Paired cap poll t c k d b' := by
  obtain rfl := hshow.unique (hB.std.shows hout)
  obtain ⟨d, hd, hp⟩ := hB.settled
  exact ⟨hB.foreign, d, b', hd, Trace.single hG hB.noStd, hp⟩

theorem Both.backward (hB : Both cap poll t c k o' a b a' b') (hG : a.Fine cap t)
    (hout : ∀ task k fs, a'.stack ≠ .user task (.run (.outside k)) :: fs)
    (hshow : NoStd.Shows a'.shared b'.shared o) : (∀ v, o ≠ some (.finished c v)) ∧
      ∃ d, Trace (Std.Caller poll t) (Std.State.Fine cap t) a o.toList d ∧
        Paired cap poll t c k d b' := by
  obtain rfl := hshow.unique (hB.noStd.shows hout)
  obtain ⟨d, hd, hp⟩ := hB.settled
  refine ⟨hB.foreign, d, ?_, hp⟩
  have := (Trace.single hG hB.std).append hd.trace
  rwa [List.append_nil] at this

/-- Both poll the future that was blocked on, which ends with `v`. -/
structure Ends (c : Nat) (k : Option V → Burst U V) (t : Std.ThreadId n m) (v : V)
    (a : Std.State n m U V) (a' : NoStd.State U V) : Prop where
  std : ∃ id u l, a.threads t = helps id c u c l k (.ready v)
  noStd : ∃ id u pc, a'.stack = waits id c u c pc k (.ready v)

/-- **A step of the std executor is matched**, unless it ends the future blocked on. -/
theorem Paired.forward (h : Paired cap poll t c k a a') (hG : a.Fine cap t)
    (hs : Std.Caller poll t a o b) :
    ((∀ v, o ≠ some (.finished c v)) ∧
      ∃ d b', Settles (Std.Caller poll t) (Std.State.Fine cap t) b d ∧
        Trace (NoStd.Observed cap poll) (NoStd.State.Fine cap) a' o.toList b' ∧
        Paired cap poll t c k d b') ∨
      ∃ v, o = some (.finished c v) ∧ Ends c k t v a a' := by
  have hG' := h.fine_iff.1 hG
  obtain ⟨sh', stack⟩ := a'
  have hframes := h.frames
  generalize hfs : a.threads t = fs at hframes
  cases hframes with
  | loop l pc =>
    have hempty : (a.shared.chan c).tryRecv = .empty := by
      rw [h.own]
      rfl
    cases hs with
    | answered task f fs x hfs' =>
      rw [hfs] at hfs'
      cases hfs'
    | step hout hs hshow =>
      obtain ⟨hs, -⟩ := hs
      rw [hfs] at hs
      cases hs with
      | recvOk _ _ v _ _ hv =>
        rw [hempty] at hv
        cases hv
      | recvDisconnected _ _ _ _ hv =>
        rw [hempty] at hv
        cases hv
      | help _ _ _ sh₁ l' _ _ hh =>
        obtain rfl := Std.Executor.help_none hh
        obtain rfl := hshow.unique (Std.shows_none rfl)
        exact Or.inl ⟨by simp, _, _, .here _, Trace.nil, h.relax rfl (update_self ..) h.reach⟩
      | helpTask _ _ _ sh₁ l' task _ hh =>
        obtain ⟨q, hq, rfl⟩ := Std.Executor.help_some hh
        obtain ⟨id, future⟩ := task
        obtain ⟨id', q', hq', hmap⟩ := h.alike.front' hq
        obtain ⟨ch, u, (rfl : future = _), -⟩ :=
          (NoStd.queued_reachable h.reach).wrapped _ (hq' ▸ List.mem_cons_self)
        obtain rfl : o = some (.polled ch) := hshow.unique ⟨_, rfl, rfl⟩
        have hitems : (sh'.results c).items = [] := congrArg (·.items) h.own'
        have hlen : ∀ x ∈ cap, sh'.globalQueue.length ≤ x := fun x hx => by
          have := hG'.2 x hx
          simpa [NoStd.Frame.unfinished, NoStd.UserCode.adds] using this
        obtain ⟨i, hi, htr⟩ := exists_poll hitems hlen pc
        have h' : Paired cap poll t c k a ⟨sh', waiting c (.poll i) k⟩ :=
          h.relax rfl hfs (h.reach.trace htr)
        obtain ⟨hobs, hp⟩ := h'.take hi hq' hmap l'
        exact Or.inl ⟨by simp, _, _, .here _,
          htr.append (Trace.single (h'.fine_iff.1 hG) hobs), hp⟩
  | polling id id' ch u B l pc =>
    have hp : Polling cap poll t c k a sh' id id' ch u l pc B := ⟨h, hfs, hG⟩
    cases hs with
    | answered task f fs x hfs' =>
      rw [hfs] at hfs'
      cases hfs'
      obtain ⟨d, hd, hp'⟩ := (hp.outside x).settled
      exact Or.inl ⟨by simp, d, _, hd, Trace.single hG' (hp.outside x).noStd, hp'⟩
    | step hout hs hshow =>
      obtain ⟨hs, hlast⟩ := hs
      rw [hfs] at hs
      cases hs with
      | outside task f fs x => exact absurd hfs (hout _ _ _)
      | callSpawn => exact Or.inl (hp.spawn.forward hG' hout hshow)
      | callBlockOn => exact absurd hfs (hG.1.noNest _ _ _ _)
      | pollHandle _ _ _ _ hd => exact Or.inl ((hp.pollHandle hd).forward hG' hout hshow)
      | dropHandle _ _ _ _ hd => exact Or.inl ((hp.dropHandle hd).forward hG' hout hshow)
      | cloneRuntime => exact Or.inl (hp.cloneRuntime.forward hG' hout hshow)
      | dropRuntime _ _ _ hown => exact Or.inl ((hp.dropRuntime hown).forward hG' hout hshow)
      | dropLastRuntime _ _ _ hown =>
        refine absurd ⟨t, .blockOn c l, ?_, Or.inr ⟨c, l, rfl⟩⟩ (hlast (hown ▸ Nat.one_pos) rfl)
        rw [hfs]
        exact List.mem_cons_of_mem _ List.mem_cons_self
      | pendingHelp => exact Or.inl (hp.pending.forward hG' hout hshow)
      | ready _ _ _ v =>
        by_cases hch : c = ch
        · subst hch
          refine Or.inr ⟨v, ?_, ⟨_, _, _, hfs⟩, ⟨_, _, _, rfl⟩⟩
          exact hshow.unique ⟨_, rfl, rfl⟩
        · exact Or.inl ((hp.ready hch).forward hG' hout hshow)
      | panic => exact absurd ⟨_, _, hfs⟩ hG.1.noPanic

/-- **A step of the no_std executor is matched**, unless it ends the future blocked on. -/
theorem Paired.backward (h : Paired cap poll t c k a a') (hG' : a'.Fine cap)
    (hborrow : ¬ a.DropsBorrowed t) (hs : NoStd.Observed cap poll a' o b') :
    ((∀ v, o ≠ some (.finished c v)) ∧
      ∃ d, Trace (Std.Caller poll t) (Std.State.Fine cap t) a o.toList d ∧
        Paired cap poll t c k d b') ∨
      ∃ v, o = some (.finished c v) ∧ Ends c k t v a a' := by
  have hG := h.fine_iff.2 hG'
  have hreach := h.reach.observed hs
  obtain ⟨sh', stack⟩ := a'
  have hframes := h.frames
  generalize hfs : a.threads t = fs at hframes
  cases hframes with
  | loop l pc =>
    have hitems : (sh'.results c).items = [] := congrArg (·.items) h.own'
    cases hs with
    | answered task f fs x hfs' => cases hfs'
    | step hout hs hshow =>
      cases hs with
      | endBatch _ _ _ _ _ _ | retry _ _ _ _ _ =>
        obtain rfl := hshow.unique (NoStd.shows_none rfl)
        exact Or.inl ⟨by simp, a, Trace.nil, h.relax rfl hfs hreach⟩
      | «return» _ _ v q _ _ _ _ hv =>
        rw [hitems] at hv
        cases hv
      | popCompleted _ id q _ _ _ _ _ hq' =>
        obtain ⟨ch, u, hf, -⟩ :=
          (NoStd.queued_reachable h.reach).wrapped _ (hq' ▸ List.mem_cons_self)
        cases hf
      | pop _ id' ch u q' _ i _ _ hi hq' =>
        obtain rfl : o = some (.polled ch) := hshow.unique ⟨_, rfl, rfl⟩
        obtain ⟨id, q, hq, hmap⟩ := h.alike.front hq'
        have hlen : ∀ x ∈ cap, a.shared.globalQueue.length ≤ x := fun x hx => by
          have := hG'.2 x hx
          rw [h.alike.length]
          simpa [NoStd.Frame.unfinished, NoStd.UserCode.adds] using this
        obtain ⟨l', j, a₁, hpc, hj, hsh, hfs₁, htr⟩ := exists_help hfs h.own hlen
        have h' : Paired cap poll t c k a₁ ⟨sh', waiting c (.poll i) k⟩ :=
          h.relax hsh hfs₁ h.reach
        have hh : Std.Executor.help a₁.shared l' (.batch 0) =
            ({ a₁.shared with globalQueue := q }, { l' with pc := .help (j + 1), helped := true },
              some ⟨id, .wrapped ch u⟩) := by
          rw [Std.Executor.help, hpc]
          simp only [hsh, hq, if_pos hj]
        have hstep : Std.Caller poll t a₁ (some (.polled ch)) ⟨_, _⟩ :=
          Std.caller_of hfs₁ (.helpTask _ _ _ _ _ _ _ hh) (fun _ _ _ hfs => by cases hfs)
            (fun h0 => h0) ⟨_, rfl, rfl⟩
        obtain ⟨-, hp⟩ := h'.take hi hq' hmap _
        exact Or.inl ⟨by simp, _, htr.append (Trace.single (h'.fine_iff.2 hG') hstep), hp⟩
  | polling id id' ch u B l pc =>
    have hp : Polling cap poll t c k a sh' id id' ch u l pc B := ⟨h, hfs, hG⟩
    cases hs with
    | answered task f fs x hfs' =>
      cases hfs'
      obtain ⟨d, hd, hp'⟩ := (hp.outside x).settled
      have := (Trace.single hG (hp.outside x).std).append hd.trace
      rw [List.append_nil] at this
      exact Or.inl ⟨by simp, d, this, hp'⟩
    | step hout hs hshow =>
      cases hs with
      | outside task f fs x => exact absurd rfl (hout _ _ _)
      | spawn => exact Or.inl (hp.spawn.backward hG hout hshow)
      | blockOn => exact absurd ⟨_, _, _, _, rfl⟩ hG'.1.noNest
      | pollHandle _ _ d _ _ _ hd =>
        exact Or.inl ((hp.pollHandle ((h.alike.handles d).2 hd)).backward hG hout hshow)
      | dropHandle _ _ d _ _ _ hd =>
        exact Or.inl ((hp.dropHandle ((h.alike.handles d).2 hd)).backward hG hout hshow)
      | cloneRuntime => exact Or.inl (hp.cloneRuntime.backward hG hout hshow)
      | dropRuntime =>
        have hown : 1 < a.shared.owners := by
          have := h.owners
          have : a.shared.owners ≠ 1 := fun h1 => hborrow ⟨h1, _, _, _, hfs⟩
          omega
        exact Or.inl ((hp.dropRuntime hown).backward hG hout hshow)
      | pending => exact Or.inl (hp.pending.backward hG hout hshow)
      | ready _ _ _ _ v =>
        by_cases hch : c = ch
        · subst hch
          refine Or.inr ⟨v, ?_, ⟨_, _, _, hfs⟩, ⟨_, _, _, rfl⟩⟩
          exact hshow.unique ⟨_, rfl, rfl⟩
        · exact Or.inl ((hp.ready hch).backward hG hout hshow)

end Steps

/-! ## Whole runs -/

section Runs

variable {a b s : Std.State n m U V} {a' b' s' : NoStd.State U V} {f : U} {v : V}
  {os : List (Seen V)}

/-- Both threads are about to call `block_on`. -/
structure Calls (cap : Option Nat) (poll : U → Burst U V) (t : Std.ThreadId n m) (f : U)
    (k : Option V → Burst U V) (s : Std.State n m U V) (s' : NoStd.State U V) : Prop where
  std : s.threads t = [.user none (.run (.blockOn f k))]
  noStd : s'.stack = [.user none (.run (.blockOn f k))]
  alike : Alike s.shared s'.shared
  owners : 0 < s.shared.owners
  reach : NoStd.Reachable cap poll s'

theorem Calls.fine_iff (h : Calls cap poll t f k s s') : s.Fine cap t ↔ s'.Fine cap := by
  have htame : s.Tame t := by
    refine ⟨fun ⟨task, rest, hfs⟩ => ?_, fun task u k' rest hfs => ?_⟩
    · rw [h.std] at hfs
      cases hfs
    · rw [h.std] at hfs
      cases hfs
  have htame' : s'.Tame := by
    refine ⟨fun task rest hst => ?_, fun ⟨task, u, k', rest, hst⟩ => ?_⟩
    · rw [h.noStd] at hst
      cases hst
    · rw [h.noStd] at hst
      cases hst
  refine and_congr (iff_of_true htame htame') ?_
  unfold Std.State.Within NoStd.State.Within Std.State.unfinished
  rw [h.std, h.noStd, h.alike.length]
  simp [Std.Frame.unfinished, NoStd.Frame.unfinished, Std.adding, NoStd.UserCode.adds]

/-- **Both calls get to their loops.** -/
theorem Calls.settles (h : Calls cap poll t f k s s') (hG : s.Fine cap t) :
    ∃ a a', Settles (Std.Caller poll t) (Std.State.Fine cap t) s a ∧
      Settles (NoStd.Observed cap poll) (NoStd.State.Fine cap) s' a' ∧
      Paired cap poll t s.shared.spawned k a a' := by
  have hG' := h.fine_iff.1 hG
  have halike := h.alike
  have hreach := h.reach
  have hlen : ∀ x ∈ cap, s.shared.globalQueue.length + 1 ≤ x := fun x hx => by
    have := hG.2 x hx
    unfold Std.State.unfinished at this
    rw [h.std] at this
    simpa [Std.Frame.unfinished, Std.adding] using this
  obtain ⟨sh', stack⟩ := s'
  obtain rfl : stack = [.user none (.run (.blockOn f k))] := h.noStd
  have hroom : NoStd.Room cap sh'.globalQueue := fun x hx => by
    have := hlen x hx
    rw [halike.length] at this
    exact this
  have hobs : NoStd.Observed cap poll ⟨sh', [.user none (.run (.blockOn f k))]⟩ none
      ⟨sh'.spawn cap f .blockOn, waiting sh'.spawned (.poll 0) k⟩ := by
    refine .step nofun (.blockOn _ _ _ _ _ (.value 0)) ⟨_, rfl, ?_⟩
    rw [if_pos hroom]
    rfl
  have honly : ∀ o b', NoStd.Observed cap poll ⟨sh', [.user none (.run (.blockOn f k))]⟩ o b' →
      o = none ∧ b' = ⟨sh'.spawn cap f .blockOn, waiting sh'.spawned (.poll 0) k⟩ := by
    intro o b' hb
    cases hb with
    | answered task g fs x hfs => cases hfs
    | step hout hs hshow =>
      cases hs
      exact ⟨hshow.unique (hobs.shows hout), rfl⟩
  have hfine : Std.State.Fine cap t (⟨(s.shared.newTask f).1, update s.threads t
      [.spawn (s.shared.newTask f).2 s.shared.spawned true, .user none (.wait k)]⟩ :
        Std.State n m U V) := by
    refine fine_of (update_self ..) nofun fun x hx => ?_
    have := hlen x hx
    simpa [Std.Frame.unfinished, Std.Shared.newTask] using this
  have hsettle : Settles (Std.Caller poll t) (Std.State.Fine cap t) s _ :=
    Std.settles_of h.std hG (.callBlockOn _ _ _ _ h.owners)
      (fun _ _ hs => by cases hs; exact ⟨rfl, rfl⟩) nofun (fun h0 => h0) rfl rfl
      (Std.settles_of (update_self ..) hfine (.startBlockOn ..)
        (fun _ _ hs => by cases hs; exact ⟨rfl, rfl⟩) nofun (fun h0 => h0) rfl rfl (.here _))
  have hframes : Stacks s.shared.spawned k (helping s.shared.spawned .start k)
      (waiting sh'.spawned (.poll 0) k) := by
    rw [← halike.spawned]
    exact .loop ..
  refine ⟨_, _, hsettle, .step hG' hobs honly (.here _), ?_⟩
  refine ⟨halike.spawn hroom f true, ?_, ?_, Nat.lt_succ_self _, h.owners, hreach.observed hobs, ?_⟩
  · simp only [Std.Shared.pushSpawned, Std.Shared.newTask, update_self]
    rfl
  · rw [halike.spawned]
    exact update_self ..
  · simpa only [update_self] using hframes

/-- What the std executor shows, the no_std executor shows. -/
theorem Calls.forward (h : Calls cap poll t f k s s')
    (hos : ∀ w, .finished s.shared.spawned w ∉ os)
    (hs : ShowsLast (Std.Caller poll t) (Std.State.Fine cap t) s os
      (.finished s.shared.spawned v) a) :
    ∃ b b', Std.Caller poll t b (some (.finished s.shared.spawned v)) a ∧
      Trace (NoStd.Observed cap poll) (NoStd.State.Fine cap) s' os b' ∧ b'.Fine cap ∧
      Paired cap poll t s.shared.spawned k b b' ∧ Ends s.shared.spawned k t v b b' := by
  obtain ⟨s₁, s₁', hset, hset', hp⟩ := h.settles hs.start
  obtain ⟨b, htr, hG, hlast⟩ := hs
  obtain ⟨d, b', hd, htr', hpd⟩ :=
    htr.simulate (P := fun o => ∀ w, o ≠ .finished s.shared.spawned w)
    hset hp (fun o ho w hw => hos w (hw ▸ ho)) fun a a' o b hR hG hstep ho => by
      rcases hR.forward hG hstep with ⟨-, hmatch⟩ | ⟨w, rfl, -⟩
      · exact hmatch
      · exact absurd rfl (ho _ rfl w)
  obtain rfl := hd.eq_of_some hlast
  refine ⟨b, b', hlast, hset'.trace.append htr', hpd.fine_iff.1 hG, hpd, ?_⟩
  rcases hpd.forward hG hlast with ⟨hne, -⟩ | ⟨w, hw, hends⟩
  · exact absurd rfl (hne v)
  · cases hw
    exact hends

/-- What the no_std executor shows, the std executor shows. -/
theorem Calls.backward (h : Calls cap poll t f k s s')
    (hborrow : ∀ os b, Trace (Std.Caller poll t) (Std.State.Fine cap t) s os b →
      ¬ b.DropsBorrowed t)
    (hos : ∀ w, .finished s.shared.spawned w ∉ os)
    (hs : ShowsLast (NoStd.Observed cap poll) (NoStd.State.Fine cap) s' os
      (.finished s.shared.spawned v) a') :
    ∃ b b', NoStd.Observed cap poll b' (some (.finished s.shared.spawned v)) a' ∧
      Trace (Std.Caller poll t) (Std.State.Fine cap t) s os b ∧ b.Fine cap t ∧
      Paired cap poll t s.shared.spawned k b b' ∧ Ends s.shared.spawned k t v b b' := by
  obtain ⟨s₁, s₁', hset, hset', hp⟩ := h.settles (h.fine_iff.2 hs.start)
  obtain ⟨b', htr, hG, hlast⟩ := hs
  have h0 : Paired cap poll t s.shared.spawned k s₁ s₁' ∧
      ∃ os, Trace (Std.Caller poll t) (Std.State.Fine cap t) s os s₁ := ⟨hp, [], hset.trace⟩
  obtain ⟨d', b, hd, htr', hpd, os', hb⟩ := htr.simulate
    (R := fun b' b => Paired cap poll t s.shared.spawned k b b' ∧
      ∃ os, Trace (Std.Caller poll t) (Std.State.Fine cap t) s os b)
    (P := fun o => ∀ w, o ≠ .finished s.shared.spawned w)
    hset' h0 (fun o ho w hw => hos w (hw ▸ ho)) fun a' a o b' hR hG hstep ho => by
      obtain ⟨hR, os₁, hos₁⟩ := hR
      rcases hR.backward hG (hborrow _ _ hos₁) hstep with ⟨-, d, htr, hpd⟩ | ⟨w, rfl, -⟩
      · exact ⟨b', d, .here _, htr, hpd, _, hos₁.append htr⟩
      · exact absurd rfl (ho _ rfl w)
  obtain rfl := hd.eq_of_some hlast
  refine ⟨b, b', hlast, hset.trace.append htr', hpd.fine_iff.2 hG, hpd, ?_⟩
  rcases hpd.backward hG (hborrow _ _ hb) hlast with ⟨hne, -⟩ | ⟨w, hw, hends⟩
  · exact absurd rfl (hne v)
  · cases hw
    exact hends

/-- The std executor's `block_on` returns the output. -/
theorem Ends.returns (h : Ends c k t v b b') (hp : Paired cap poll t c k b b')
    (hs : Std.Caller poll t b (some (.finished c v)) a) :
    Inevitable (Std.Alone poll t) (fun s => s.Tame t ∧ s.Owns t) (Std.ReturnsWith k v t) a := by
  obtain ⟨id, u, l, hfs⟩ := h.std
  cases hs with
  | step _ hs _ =>
    obtain ⟨hs, -⟩ := hs
    rw [hfs] at hs
    cases hs
    have harr : Std.Arrived c v { b.shared with
        chan := update b.shared.chan c ((b.shared.chan c).send v)
        log := b.shared.log ++ [.sent c v] } := by
      have hsend : (b.shared.chan c).send v = ⟨[v], true, .blockOn⟩ := by
        rw [hp.own]
        rfl
      refine ⟨hp.born, ⟨[], ?_⟩, ?_, hp.owners⟩
      · show (update b.shared.chan c _ c).queue = [v]
        rw [update_self, hsend]
      · show (update b.shared.chan c _ c).receiver = .blockOn
        rw [update_self, hsend]
    refine Inevitable.trans (Std.inevitable_finished (update_self ..) harr) ?_
    rintro s ⟨hfs, harr⟩
    exact Std.inevitable_received _ rfl hfs harr

/-- The no_std executor's `block_on` returns the output. -/
theorem Ends.returns' (h : Ends c k t v b b') (hp : Paired cap poll t c k b b')
    (hs : NoStd.Observed cap poll b' (some (.finished c v)) a') :
    Inevitable (NoStd.Step cap poll) (fun s => s.Tame ∧ s.Owns)
      (fun s => s.stack = [.user none (.run (k (some v)))]) a' := by
  obtain ⟨id, u, pc, hst⟩ := h.noStd
  have hborn := hp.born
  have hown := hp.own'
  rw [hp.alike.spawned] at hborn
  obtain ⟨sh', stack⟩ := b'
  obtain rfl : stack = _ := hst
  cases hs with
  | step _ hs _ =>
    cases hs
    refine NoStd.inevitable_dequeued _ rfl ⟨hborn, ⟨[], ?_⟩, ?_⟩
    · show (update sh'.results c _ c).items = [v]
      rw [update_self, hown]
      rfl
    · rw [NoStd.Shared.finish_holder, hown]

/-- **Without workers, `Executor::block_on` and `SimpleExecutor::block_on` do the same.**  On the
same queue, for any tasks that neither panic nor call `block_on` and never more than 1024 of them
unfinished, the one can show `os` (the polls, and the answers and outputs of the tasks polled) up to
the output `v` of its own future exactly if the other can; both then return `v`, as long as the
tasks use handles that they hold.  `hborrow`: no task drops the `Runtime` that the call borrows. -/
theorem block_on_agree {s : Std.State n m U V} {s' : NoStd.State U V} {j : Fin m}
    (h : Calls NoStd.SimpleExecutor.capacity poll (.inr j) f k s s')
    (hborrow : ∀ os b, Trace (Std.Caller poll (.inr j))
      (Std.State.Fine NoStd.SimpleExecutor.capacity (.inr j)) s os b → ¬ b.DropsBorrowed (.inr j))
    (os : List (Seen V)) (hos : ∀ w, .finished s.shared.spawned w ∉ os) (v : V) :
    ((∃ a, ShowsLast (Std.Caller poll (.inr j))
        (Std.State.Fine NoStd.SimpleExecutor.capacity (.inr j)) s os
        (.finished s.shared.spawned v) a) ↔
      ∃ a', ShowsLast (NoStd.Observed NoStd.SimpleExecutor.capacity poll)
        (NoStd.State.Fine NoStd.SimpleExecutor.capacity) s' os (.finished s.shared.spawned v) a') ∧
    (∀ a, ShowsLast (Std.Caller poll (.inr j))
        (Std.State.Fine NoStd.SimpleExecutor.capacity (.inr j)) s os
        (.finished s.shared.spawned v) a →
      Inevitable (Std.Alone poll (.inr j)) (fun s => s.Tame (.inr j) ∧ s.Owns (.inr j))
        (Std.ReturnsWith k v (.inr j)) a) ∧
    ∀ a', ShowsLast (NoStd.Observed NoStd.SimpleExecutor.capacity poll)
        (NoStd.State.Fine NoStd.SimpleExecutor.capacity) s' os (.finished s.shared.spawned v) a' →
      Inevitable (NoStd.Step NoStd.SimpleExecutor.capacity poll) (fun s => s.Tame ∧ s.Owns)
        (fun s => s.stack = [.user none (.run (k (some v)))]) a' := by
  refine ⟨⟨?_, ?_⟩, ?_, ?_⟩
  · rintro ⟨a, ha⟩
    obtain ⟨b, b', -, htr, hG, hp, hends⟩ := h.forward hos ha
    obtain ⟨id, u, pc, hst⟩ := hends.noStd
    obtain ⟨sh', stack⟩ := b'
    obtain rfl : stack = _ := hst
    exact ⟨_, _, htr, hG, .step nofun (.ready _ _ _ _ _ _ _ _ (.value 0)) ⟨_, rfl, rfl⟩⟩
  · rintro ⟨a', ha'⟩
    obtain ⟨b, b', -, htr, hG, hp, hends⟩ := h.backward hborrow hos ha'
    obtain ⟨id, u, l, hfs⟩ := hends.std
    exact ⟨_, _, htr, hG, Std.caller_of hfs (.ready ..) nofun (fun h0 => h0) ⟨_, rfl, rfl⟩⟩
  · intro a ha
    obtain ⟨b, b', hlast, -, -, hp, hends⟩ := h.forward hos ha
    exact hends.returns hp hlast
  · intro a' ha'
    obtain ⟨b, b', hlast, -, -, hp, hends⟩ := h.backward hborrow hos ha'
    exact hends.returns' hp hlast

end Runs

/-! ## Two futures that are ready at once -/

/-- Their tasks do nothing else. -/
theorem ready_only {sh sh' : Std.Shared n Unit Nat} {fs fs' : List (Std.Frame Unit Nat)}
    (h : Std.ThreadStep NoStd.Sample.zero sh t fs sh' fs')
    (hfs : ∀ task code, .user (some task) code ∈ fs → code = .run (.ready 0)) :
    ∀ task code, .user (some task) code ∈ fs' → code = .run (.ready 0) := by
  have hbegin : ∀ (sh : Std.Shared n Unit Nat) (p task : Task Unit) code,
      (sh.beginPoll NoStd.Sample.zero p).2 = .user (some task) code → code = .run (.ready 0) := by
    intro sh p task code hp
    unfold Std.Shared.beginPoll at hp
    split at hp <;> cases hp
    rfl
  intro task code hmem
  cases h <;> grind

/-- The caller's code. -/
def Sample.call : Burst Unit Nat := .blockOn () fun _ => .ready 0

/-- One task is queued, and the caller is about to block on another one. -/
def Sample.std : Std.State 1 1 Unit Nat :=
  let sh := Std.ExecutorInner.new 1 Unit Nat
  ⟨(sh.newTask ()).1.pushSpawned (sh.newTask ()).2 0 false, fun
    | .inl _ => [.run .start]
    | .inr _ => [.user none (.run Sample.call)]⟩

def Sample.noStd : NoStd.State Unit Nat :=
  ⟨(NoStd.SimpleExecutor.new Unit Nat).spawn NoStd.SimpleExecutor.capacity () .handle,
    [.user none (.run Sample.call)]⟩

theorem Sample.calls : Calls NoStd.SimpleExecutor.capacity NoStd.Sample.zero (.inr 0) ()
    (fun _ => .ready 0) Sample.std Sample.noStd where
  std := rfl
  noStd := rfl
  alike := by
    have hinit : Alike (Std.ExecutorInner.new 1 Unit Nat) (NoStd.SimpleExecutor.new Unit Nat) :=
      ⟨rfl, rfl, fun h => ⟨nofun, nofun⟩, nofun⟩
    exact hinit.spawn (by decide) () false
  owners := Nat.one_pos
  reach := by
    have hrun : Run (NoStd.Step NoStd.SimpleExecutor.capacity NoStd.Sample.zero) always
        (NoStd.State.init Unit Nat) _ _ :=
      Run.cons trivial (NoStd.Step.enter _ (.spawn () fun _ => Sample.call) [])
        (Run.single trivial (NoStd.Step.spawn _ none () _ [] (.value 0)))
    exact ⟨_, hrun⟩

theorem Sample.borrow {os : List (Seen Nat)} {b : Std.State 1 1 Unit Nat}
    (h : Trace (Std.Caller NoStd.Sample.zero (.inr 0))
      (Std.State.Fine NoStd.SimpleExecutor.capacity (.inr 0)) Sample.std os b) :
    ¬ b.DropsBorrowed (.inr 0) := by
  have honly : ∀ task code, .user (some task) code ∈ b.threads (.inr 0) →
      code = .run (.ready 0) := by
    induction h with
    | nil =>
      intro task code hmem
      cases List.mem_singleton.1 hmem
    | snoc _ _ hs ih => exact ready_only hs.threadStep ih
  rintro ⟨-, task, k, fs, hfs⟩
  have := honly task (.run (.dropRuntime k)) (hfs ▸ List.mem_cons_self)
  cases this

/-- The caller polls the queued task and then its own, and the call returns. -/
theorem block_on_agree_ready : ∃ a, ShowsLast (Std.Caller NoStd.Sample.zero (.inr 0))
      (Std.State.Fine NoStd.SimpleExecutor.capacity (.inr 0)) Sample.std
      [.polled 0, .finished 0 0, .polled 1] (.finished 1 0) a ∧
    Inevitable (Std.Alone NoStd.Sample.zero (.inr 0)) (fun s => s.Tame (.inr 0) ∧ s.Owns (.inr 0))
      (Std.ReturnsWith (fun _ => .ready 0) 0 (.inr 0)) a := by
  obtain ⟨hiff, hstd, -⟩ := block_on_agree Sample.calls (fun os b h => Sample.borrow h)
    [.polled 0, .finished 0 0, .polled 1] (by simp [Sample.std, Std.Shared.pushSpawned,
      Std.Shared.newTask, Std.ExecutorInner.new]) 0
  have hfine : ∀ s : NoStd.State Unit Nat,
    (∀ task fs, s.stack ≠ .user (some task) (.run .panic) :: fs) →
      (∀ task u k fs, s.stack ≠ .user (some task) (.run (.blockOn u k)) :: fs) →
      s.shared.globalQueue.length + weigh NoStd.Frame.unfinished s.stack ≤ 1024 →
      s.Fine NoStd.SimpleExecutor.capacity := by
    intro s h1 h2 h3
    refine ⟨⟨h1, fun ⟨task, u, k, fs, h⟩ => h2 task u k fs h⟩, fun x hx => ?_⟩
    cases hx
    exact h3
  have hrun : Trace (NoStd.Observed NoStd.SimpleExecutor.capacity NoStd.Sample.zero)
      (NoStd.State.Fine NoStd.SimpleExecutor.capacity) Sample.noStd [] Sample.noStd := Trace.nil
  have hrun := hrun.snoc (hfine _ nofun nofun (by decide))
    (.step (o := none) nofun (.blockOn _ _ _ _ _ (.value 0)) ⟨_, rfl, rfl⟩)
  have hrun := hrun.snoc (hfine _ nofun nofun (by decide))
    (.step (o := some (.polled 0)) nofun
      (.pop _ _ _ _ _ _ _ _ (.value 0) (by omega) rfl) ⟨_, rfl, rfl⟩)
  have hrun := hrun.snoc (hfine _ nofun nofun (by decide))
    (.step (o := some (.finished 0 0)) nofun
      (.ready _ _ _ _ _ _ _ _ (.value 0)) ⟨_, rfl, rfl⟩)
  have hrun := hrun.snoc (hfine _ nofun nofun (by decide))
    (.step (o := some (.polled 1)) nofun
      (.pop _ _ _ _ _ _ _ _ (.value 0) (by omega) rfl) ⟨_, rfl, rfl⟩)
  obtain ⟨a, ha⟩ := hiff.2 ⟨_, _, hrun, hfine _ nofun nofun (by decide),
    .step nofun (.ready _ _ _ _ _ _ _ _ (.value 0)) ⟨_, rfl, rfl⟩⟩
  exact ⟨a, ha, hstd a ha⟩

end Luminal
