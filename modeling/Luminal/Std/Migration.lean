import Luminal.Std.Lifecycle
import Luminal.Std.Starvation

/-!
# Tasks move up

Work stealing cannot pass a task around.  A worker steals from deques of smaller index only, and
what is pushed goes to the global queue, so a queued task climbs from the global queue through the
deques in their order, and is moved at most as often as there are workers before it is polled
(`moves_le`).
-/

namespace Luminal.Std

open Function Transition

variable {n m : Nat} {U V : Type} {poll : U → Burst U V}

/-- How high the queued task of spawn `ch` is: 0 in the global queue, `d + 1` in the deque of worker
`d`. -/
def State.level (s : State n m U V) (ch : Nat) : Nat :=
  ∑ d, (d.val + 1) * occ ch (s.shared.locals d)

/-- A step of a calm run after which the task of spawn `ch` is queued. -/
def StaysQueued (poll : U → Burst U V) (ch : Nat) (a : State n m U V) (t : ThreadId n m)
    (b : State n m U V) : Prop := a.Calm t ∧ Step poll a t b ∧ 0 < queued ch b.shared

/-- The step moves the task of spawn `ch` to another queue. -/
def Moves (ch : Nat) (a : State n m U V) (_t : ThreadId n m) (b : State n m U V) : Prop :=
  a.level ch ≠ b.level ch

section Level

variable {s : State n m U V} {p : Task U} {ch : Nat} {x : Nat × Nat}

theorem Accounted.queued_le_one (h : Accounted s) (ch : Nat) : queued ch s.shared ≤ 1 := by
  have h1 := h.count ch
  have h2 := h.pushes_le_one ch
  omega

/-- The level is the rank of the place, from above. -/
theorem Accounted.level_add (h : Accounted s) (hch : p.ch? = some ch) (hx : Lies p x s.shared) :
    s.level ch + x.1 = n := by
  have hle := h.queued_le_one ch
  unfold queued at hle
  rcases hx with ⟨hx, hp⟩ | ⟨d, hx, hp⟩
  · have hpos := (occ_pos_iff ch _).2 ⟨p, List.mem_of_getElem? hp, hch⟩
    have hzero := (tally_eq_zero (occ ch) s.shared.locals).1 (by omega)
    have hlevel : s.level ch = 0 := by
      refine Finset.sum_eq_zero fun d _ => ?_
      rw [hzero d, Nat.mul_zero]
    omega
  · have hpos := (occ_pos_iff ch _).2 ⟨p, List.mem_of_getElem? hp, hch⟩
    have hd := le_tally (occ ch) s.shared.locals d
    have hone : occ ch (s.shared.locals d) = 1 := by omega
    have hlevel : s.level ch = d + 1 := by
      unfold State.level
      rw [Finset.sum_eq_single d]
      · rw [hone, Nat.mul_one]
      · intro e _ hne
        have hother := add_le_tally (occ ch) s.shared.locals hne
        have hzero : occ ch (s.shared.locals e) = 0 := by omega
        rw [hzero, Nat.mul_zero]
      · exact fun hd => absurd (Finset.mem_univ d) hd
    omega

/-- A task of which there is one in the queues lies somewhere. -/
theorem exists_lies (hq : 0 < queued ch s.shared) : ∃ p x, p.ch? = some ch ∧ Lies p x s.shared := by
  have hmem : ∃ p, Queues s.shared p ∧ p.ch? = some ch := by
    unfold queued at hq
    by_cases hg : 0 < occ ch s.shared.globalQueue
    · obtain ⟨p, hp, hch⟩ := (occ_pos_iff ch _).1 hg
      exact ⟨p, Or.inl hp, hch⟩
    · obtain ⟨d, hd⟩ := exists_of_tally_pos (occ ch) s.shared.locals (by omega)
      obtain ⟨p, hp, hch⟩ := (occ_pos_iff ch _).1 hd
      exact ⟨p, Or.inr ⟨d, hp⟩, hch⟩
  obtain ⟨p, hp, hch⟩ := hmem
  obtain ⟨x, hx⟩ := hp.lies
  exact ⟨p, x, hch, hx⟩

end Level

/-- **A task that stays queued does not move down.** -/
theorem level_step {a b : State n m U V} {t : ThreadId n m} {ch : Nat}
    (h : Reachable poll State.Calm a) (hq : 0 < queued ch a.shared)
    (hs : StaysQueued poll ch a t b) :
    a.level ch ≤ b.level ch ∧ b.level ch ≤ n := by
  obtain ⟨hcalm, hs, hqb⟩ := hs
  obtain ⟨ts, hr⟩ := h
  have hb : Reachable poll State.Calm b := ⟨_, hr.snoc hcalm hs⟩
  have haa := accounted_reachable ⟨ts, hr⟩
  have hab := accounted_reachable hb
  have hquiet : Quiet a := quiet_reachable ⟨ts, hr⟩
  have hlive := live_of_calm (fun _ _ h => h) hb
  obtain ⟨p, x, hch, hx⟩ := exists_lies hq
  have hla := haa.level_add hch hx
  obtain @⟨sh', fs', hts, -⟩ := hs
  rcases threadStep_lies hts hlive (hquiet.frames t) hx with ⟨sh₀, fs₁, rfl, -⟩ | ⟨y, hy, hly⟩
  · -- the task is being polled, and is not queued
    have hpos : 0 < census (Frame.running ch) ⟨sh', update a.threads t
        ((sh₀.beginPoll poll p).2 :: fs₁)⟩ := by
      refine census_pos (t := t) (update_self ..) ?_
      rw [(running_beginPoll poll sh₀ ch p).1]
      exact (isOf_pos_iff ch p).2 hch
    have h1 := hab.count ch
    have h2 := hab.pushes_le_one ch
    omega
  · have hlb := hab.level_add hch hly
    have hle : y.1 ≤ x.1 := by
      rcases hy with rfl | hy
      · exact le_rfl
      · rcases Prod.lex_iff.1 hy with hlt | ⟨heq, -⟩ <;> omega
    omega

/-- **Between two polls a task moves up, at most once for each worker**, whatever the workers steal
from each other: with each move its level grows, and it is at most `n`. -/
theorem moves_le {s s' : State n m U V} {ch k : Nat} (h : Reachable poll State.Calm s)
    (hq : 0 < queued ch s.shared) (hr : Counted (StaysQueued poll ch) (Moves ch) s k s') :
    s.level ch + k ≤ s'.level ch ∧ s'.level ch ≤ n := by
  have hle : ∀ {a : State n m U V}, Reachable poll State.Calm a → 0 < queued ch a.shared →
      a.level ch ≤ n := by
    intro a ha hqa
    obtain ⟨p, x, hch, hx⟩ := exists_lies hqa
    have hlevel := (accounted_reachable ha).level_add hch hx
    omega
  have hkeep : ∀ (a : State n m U V) t b, Reachable poll State.Calm a ∧ 0 < queued ch a.shared →
      StaysQueued poll ch a t b → Reachable poll State.Calm b ∧ 0 < queued ch b.shared := by
    rintro a t b ⟨⟨ts, hr⟩, -⟩ ⟨hcalm, hs, hqb⟩
    exact ⟨⟨_, hr.snoc hcalm hs⟩, hqb⟩
  obtain ⟨⟨hs', hqs'⟩, hsum⟩ := hr.add_le (φ := fun a => n - a.level ch) ⟨h, hq⟩ hkeep
    (fun a t b ha hs => by
      have hup := level_step ha.1 ha.2 hs
      omega)
    (fun a t b ha hs (hmove : a.level ch ≠ b.level ch) => by
      have hup := level_step ha.1 ha.2 hs
      omega)
  have h1 := hle h hq
  have h2 := hle hs' hqs'
  omega

/-- Worker 0 takes a batch from the global queue of three: the second task goes to its deque. -/
theorem moves_le_batch : ∃ s s' : State 2 1 Sample Nat, s.level 1 = 0 ∧ s'.level 1 = 1 ∧
    Counted (StaysQueued Sample.burst 1) (Moves 1) s 1 s' ∧
    s.level 1 + 1 ≤ s'.level 1 ∧ s'.level 1 ≤ 2 := by
  obtain ⟨s, hs, s', hs', hcalm, hq, hq', hl, hl'⟩ : ∃ s,
      (State.init 2 1 Sample Nat).execAll State.Calm Sample.burst
        ((.inr 0, .code (Sample.spawns [.yield 5, .value 7, .value 8])) ::
          turns (.inr 0) 6 (.answer 0) ++ turns (.inl 0) 2 (.steal (.batch 1))) = some s ∧
      ∃ s', s.exec Sample.burst (.inl 0) (.steal (.batch 1)) = some s' ∧ s.Calm (.inl 0) ∧
        0 < queued 1 s.shared ∧ 0 < queued 1 s'.shared ∧ s.level 1 = 0 ∧ s'.level 1 = 1 := by
    refine ⟨_, rfl, _, rfl, ?_⟩
    decide
  have hchosen : Chosen Sample.burst s (.inl 0, .steal (.batch 1)) s' := hs'
  have hcounted : Counted (StaysQueued Sample.burst 1) (Moves 1) s 1 s' := by
    refine Counted.nil.hit (l := .inl 0) ⟨hcalm, hchosen.step, hq'⟩ ?_
    show s.level 1 ≠ s'.level 1
    omega
  exact ⟨s, s', hl, hl', hcounted, moves_le ⟨_, State.execAll_run _ hs⟩ hq hcounted⟩

end Luminal.Std
