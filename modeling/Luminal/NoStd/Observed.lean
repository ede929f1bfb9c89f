import Luminal.Lib.Trace
import Luminal.NoStd.Refused
import Luminal.NoStd.RoundRobin

/-!
# What is seen of the no_std executor

`Observed` are the steps of the thread, with what is seen of them.  Once the result of its
`block_on` is there the call returns it after the rest of its batch, at most nine more polls
(`inevitable_dequeued`).
-/

namespace Luminal.NoStd

open Function Transition

variable {U V : Type} {cap : Option Nat} {poll : U → Burst U V}

def Event.seen : Event U V → Option (Seen V)
  | .polled ch => some (.polled ch)
  | .ready ch v => some (.finished ch v)
  | _ => none

/-- What the log shows of a step from `sh` to `sh'`. -/
def Shows (sh sh' : Shared U V) (o : Option (Seen V)) : Prop :=
  ∃ es, sh'.log = sh.log ++ es ∧ es.filterMap Event.seen = o.toList

theorem Shows.eq {sh sh' : Shared U V} {o : Option (Seen V)} {es : List (Event U V)}
    (h : Shows sh sh' o) (hl : sh'.log = sh.log ++ es) : o.toList = es.filterMap Event.seen := by
  obtain ⟨es', hl', he⟩ := h
  have hes : es' = es := List.append_cancel_left (hl'.symm.trans hl)
  rw [← hes, he]

theorem Shows.unique {sh sh' : Shared U V} {o o' : Option (Seen V)} (h : Shows sh sh' o)
    (h' : Shows sh sh' o') : o = o' := by
  obtain ⟨es, hl, he⟩ := h'
  have := (h.eq hl).trans he
  cases o' with
  | none => exact Option.toList_eq_nil_iff.1 this
  | some x => exact Option.toList_eq_singleton_iff.1 this

theorem shows_none {sh sh' : Shared U V} (hl : sh'.log = sh.log) : Shows sh sh' none :=
  ⟨[], by simpa using hl, rfl⟩

/-- A step of the thread, with what is seen of it. -/
inductive Observed (cap : Option Nat) (poll : U → Burst U V) (s : State U V) :
    Option (Seen V) → State U V → Prop
  | answered (task k fs x) : s.stack = .user task (.run (.outside k)) :: fs →
      Observed cap poll s (some (.answered x)) ⟨s.shared, .user task (.run (k x)) :: fs⟩
  | step {a : Answer U V} {o : Option (Seen V)} {s' : State U V} :
      (∀ task k fs, s.stack ≠ .user task (.run (.outside k)) :: fs) → Step cap poll s a s' →
      Shows s.shared s'.shared o → Observed cap poll s o s'

/-- What is seen of a step that asks nothing of the outside is in the log. -/
theorem Observed.shows {s s' : State U V} {o : Option (Seen V)} (h : Observed cap poll s o s')
    (hout : ∀ task k fs, s.stack ≠ .user task (.run (.outside k)) :: fs) :
    Shows s.shared s'.shared o := by
  cases h with
  | answered task k fs x hfs => exact absurd hfs (hout task k fs)
  | step _ _ hshow => exact hshow

/-- What is seen are steps. -/
theorem Observed.step_of {s s' : State U V} {o : Option (Seen V)} (h : Observed cap poll s o s') :
    ∃ a, Step cap poll s a s' := by
  cases h with
  | answered task k fs x hfs =>
    obtain ⟨sh, stack⟩ := s
    subst hfs
    exact ⟨.value x, Step.outside sh task k fs x⟩
  | step _ hs _ => exact ⟨_, hs⟩

theorem Reachable.observed {s s' : State U V} {o : Option (Seen V)} (h : Reachable cap poll s)
    (hs : Observed cap poll s o s') : Reachable cap poll s' := by
  obtain ⟨as, hr⟩ := h
  obtain ⟨a, hs⟩ := hs.step_of
  exact ⟨_, hr.snoc trivial hs⟩

theorem Reachable.trace {G : State U V → Prop} {s s' : State U V} {os : List (Seen V)}
    (h : Reachable cap poll s) (ht : Trace (Observed cap poll) G s os s') :
    Reachable cap poll s' := by
  induction ht with
  | nil => exact h
  | snoc _ _ hs ih => exact ih.observed hs

/-- A task being polled has not sent anything. -/
theorem items_of_polled {s : State U V} (hr : Reachable cap poll s) {id : TaskId} {ch : Nat} {u : U}
    {code : UserCode U V} {fs : List (Frame U V)}
    (hs : s.stack = .user (some ⟨id, .wrapped ch u⟩) code :: fs) :
    (s.shared.results ch).items = [] := by
  have hacc := accounted_reachable hr
  have h1 := hacc.count ch
  have h2 := hacc.called ch
  have h3 := born_le_one ch s.shared.spawned
  rw [hs, weigh_cons] at h1
  simp only [Frame.polling, Option.toList_some, occ_cons, occ_nil, isOf_wrapped, if_true] at h1
  have hvalues : values ch s.shared.log = [] := by
    rw [← List.length_eq_zero_iff, values_length]
    omega
  have hlaw := resultLaw_reachable hr ch
  rw [hvalues] at hlaw
  exact (List.append_eq_nil_iff.1 hlaw).2

/-- No panic and no nested `block_on`. -/
structure State.Tame (s : State U V) : Prop where
  noPanic : ∀ task fs, s.stack ≠ .user (some task) (.run .panic) :: fs
  noNest : ¬ s.Nests

/-- The runs that the promise about `block_on` covers. -/
def State.Fine (cap : Option Nat) (s : State U V) : Prop := s.Tame ∧ s.Within cap

/-! ## Once the result is there -/

/-- The output `v` waits for the `block_on` of spawn `c`. -/
structure Arrived (c : Nat) (v : V) (sh : Shared U V) : Prop where
  born : c < sh.spawned
  items : ∃ q, (sh.results c).items = v :: q
  holder : (sh.results c).holder = .blockOn

section Arrived

variable {c ch : Nat} {v : V} {sh sh' : Shared U V}

/-- What leaves the result queue alone. -/
theorem Arrived.keep (h : Arrived c v sh) (hc : sh'.results c = sh.results c)
    (hs : sh.spawned ≤ sh'.spawned) : Arrived c v sh' := by
  refine ⟨lt_of_lt_of_le h.born hs, ?_, ?_⟩
  · rw [hc]
    exact h.items
  · rw [hc]
    exact h.holder

theorem Arrived.finish (h : Arrived c v sh) (ch : Nat) (w : V) : Arrived c v (sh.finish ch w) := by
  by_cases hc : c = ch
  · subst hc
    obtain ⟨q, hq⟩ := h.items
    refine ⟨h.born, ?_, (Shared.finish_holder ..).trans h.holder⟩
    show ∃ q, (update sh.results c ((sh.results c).enqueue w) c).items = v :: q
    rw [update_self, ResultQueue.enqueue]
    split
    · exact ⟨q ++ [w], by rw [hq]; rfl⟩
    · exact ⟨q, hq⟩
  · exact h.keep (update_of_ne hc _ _) (Nat.le_refl _)

/-- A handle is another result queue. -/
theorem Arrived.ne (h : Arrived c v sh) (hh : (sh.results ch).holder = .handle) : c ≠ ch := by
  rintro rfl
  have := h.holder
  rw [hh] at this
  cases this

end Arrived

section Collect

variable {c : Nat} {v : V} {fs : List (Frame U V)}

/-- **A poll ends**, and the output still waits. -/
theorem inevitable_poll {b : Burst U V} {pc : BlockOnPc} {id : TaskId} {ch : Nat} {u : U}
    {sh : Shared U V} (h : Arrived c v sh) :
    Inevitable (Step cap poll) (fun s => s.Tame ∧ s.Owns)
      (fun s => ∃ sh', s = ⟨sh', .blockOn c pc :: fs⟩ ∧ Arrived c v sh')
      ⟨sh, .user (some ⟨id, .wrapped ch u⟩) (.run b) :: .blockOn c pc :: fs⟩ := by
  induction b generalizing sh with
  | pending w => exact inevitable_pending (.now ⟨_, rfl, h.keep rfl (Nat.le_refl _)⟩)
  | ready w => exact inevitable_ready (.now ⟨_, rfl, h.finish ch w⟩)
  | panic => exact Inevitable.of_ok fun hok => absurd rfl (hok.1.noPanic _ _)
  | blockOn w k _ => exact Inevitable.of_ok fun hok => absurd ⟨_, _, _, _, rfl⟩ hok.1.noNest
  | outside k ih => exact inevitable_outside fun x => ih x h
  | cloneRuntime k ih => exact inevitable_cloneRuntime (ih h)
  | dropRuntime k ih => exact inevitable_dropRuntime (ih h)
  | spawn w k ih =>
    have hres : (sh.spawn cap w .handle).results c = sh.results c :=
      update_of_ne (Nat.ne_of_lt h.born) _ _
    exact inevitable_spawn (ih _ (h.keep hres (Nat.le_succ _)))
  | pollHandle d k ih =>
    refine Inevitable.of_ok fun hok => ?_
    have hd : (sh.results d).holder = .handle := hok.2 _ _ _ d rfl (Or.inl ⟨k, rfl⟩)
    refine inevitable_pollHandle hd (ih _ (h.keep (Shared.pollHandle_of_ne (h.ne hd)) ?_))
    rw [Shared.pollHandle_spawned]
  | dropHandle d k ih =>
    refine Inevitable.of_ok fun hok => ?_
    have hd : (sh.results d).holder = .handle := hok.2 _ _ _ d rfl (Or.inr ⟨k, rfl⟩)
    exact inevitable_dropHandle hd (ih (h.keep (update_of_ne (h.ne hd) _ _) (Nat.le_refl _)))

/-- A placeholder in the queue is finished at once. -/
theorem inevitable_popCompleted {sh : Shared U V} {Ok Q : State U V → Prop} {id : TaskId} {i : Nat}
    {q : List (Task U)} (hi : i < 10) (hq : sh.globalQueue = ⟨id, .completed⟩ :: q)
    (h : Inevitable (Step cap poll) Ok Q
      ⟨{ sh with globalQueue := q, tasksProcessed := sh.tasksProcessed + 1 },
        .blockOn c (.poll (i + 1)) :: fs⟩) :
    Inevitable (Step cap poll) Ok Q ⟨sh, .blockOn c (.poll i) :: fs⟩ := by
  refine .later (fun _ => ⟨.value 0, _, Step.popCompleted sh id q c i fs _ hi hq⟩)
    fun _ a s hs => ?_
  cases hs with
  | pop _ id' ch' u' q' _ _ _ _ _ hq' =>
    rw [hq] at hq'
    cases hq'
  | popCompleted _ id' q' _ _ _ _ _ hq' =>
    rw [hq] at hq'
    cases hq'
    exact h
  | endBatch _ _ _ _ _ he =>
    rw [hq] at he
    cases he hi

/-- **The call returns the output that is there.** -/
theorem inevitable_dequeued {k : Option V → Burst U V} (r : Nat) {pc : BlockOnPc}
    (hr : pc.toCheck = r) {sh : Shared U V} (h : Arrived c v sh) :
    Inevitable (Step cap poll) (fun s => s.Tame ∧ s.Owns)
      (fun s => s.stack = [.user none (.run (k (some v)))])
      ⟨sh, [.blockOn c pc, .user none (.wait k)]⟩ := by
  induction r using Nat.strong_induction_on generalizing sh pc with
  | _ r ih =>
    obtain ⟨q, hq⟩ := h.items
    have hreturn : Inevitable (Step cap poll) (fun s => s.Tame ∧ s.Owns)
        (fun s => s.stack = [.user none (.run (k (some v)))])
        ⟨sh, [.blockOn c .check, .user none (.wait k)]⟩ := inevitable_return hq (.now rfl)
    cases pc with
    | check => exact hreturn
    | poll i =>
      by_cases hi : i < 10 → sh.globalQueue = []
      · exact inevitable_endBatch hi hreturn
      · push Not at hi
        obtain ⟨hi, hne⟩ := hi
        obtain ⟨⟨id, future⟩, rest, hrest⟩ := List.exists_cons_of_ne_nil hne
        have hlt : (BlockOnPc.poll (i + 1)).toCheck < r := by
          rw [← hr]
          simp only [BlockOnPc.toCheck]
          omega
        cases future with
        | wrapped ch u =>
          have harr : Arrived c v (sh.popped ch rest) := h.keep rfl (Nat.le_refl _)
          refine inevitable_pop hi hrest ((inevitable_poll harr).trans ?_)
          rintro s ⟨sh', rfl, h'⟩
          exact ih _ hlt rfl h'
        | completed =>
          exact inevitable_popCompleted hi hrest (ih _ hlt rfl (h.keep rfl (Nat.le_refl _)))

end Collect

end Luminal.NoStd
