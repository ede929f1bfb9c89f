import Mathlib.Algebra.Group.Units.Basic
import Mathlib.Data.Multiset.OrderedMonoid
import Mathlib.Algebra.Order.Group.Multiset
import Mathlib.Logic.Relation
import Mathlib.Data.Set.Insert

/-!
# Pools of jobs

A job is given turns.  A turn starts from where the job left off, goes on step by step, and ends
when the job pauses or is done (`Behaviour`).  A `Pool` is what a scheduler is for: any waiting job
may be given a turn next, and any number of jobs may have one at a time.  Jobs that wait are dropped
only in a step that `lets` them.

No choice of the scheduler shows in what a single job does: seen through its key, a run of the pool
is a run of the job alone (`Pool.solo`).
-/

namespace Transition

variable {κ ω ρ : Type*}

/-- What a job does in its turns. -/
structure Behaviour (ω ρ : Type*) where
  start : ω → ρ
  goes : ρ → ρ → Prop
  pauses : ρ → ω → Prop
  ends : ρ → Prop

/-- A job alone. -/
inductive Solo (ω ρ : Type*) where
  | waiting (job : ω)
  | running (turn : ρ)
  | gone

inductive Solo.Step (B : Behaviour ω ρ) (lets : Prop) : Solo ω ρ → Solo ω ρ → Prop
  | start (job : ω) : Step B lets (.waiting job) (.running (B.start job))
  | go {x y : ρ} : B.goes x y → Step B lets (.running x) (.running y)
  | pause {x : ρ} {job : ω} : B.pauses x job → Step B lets (.running x) (.waiting job)
  | finish {x : ρ} : B.ends x → Step B lets (.running x) .gone
  | drop (job : ω) : lets → Step B lets (.waiting job) .gone

/-- Jobs that wait for a turn, and jobs that have one, each under its key. -/
@[ext]
structure Pool (κ ω ρ : Type*) where
  /-- the jobs there have been, as they were when they came -/
  submitted : Set (κ × ω)
  waiting : Multiset (κ × ω)
  running : Multiset (κ × ρ)

namespace Pool

def empty (κ ω ρ : Type*) : Pool κ ω ρ := ⟨∅, 0, 0⟩

inductive Step (B : Behaviour ω ρ) (lets : Prop) : Pool κ ω ρ → Pool κ ω ρ → Prop
  | submit {S : Set (κ × ω)} {W : Multiset (κ × ω)} {R : Multiset (κ × ρ)} (k : κ) (job : ω) :
      (∀ j, (k, j) ∉ S) → Step B lets ⟨S, W, R⟩ ⟨insert (k, job) S, (k, job) ::ₘ W, R⟩
  | start {S : Set (κ × ω)} {W : Multiset (κ × ω)} {R : Multiset (κ × ρ)} (k : κ) (job : ω) :
      Step B lets ⟨S, (k, job) ::ₘ W, R⟩ ⟨S, W, (k, B.start job) ::ₘ R⟩
  | go {S : Set (κ × ω)} {W : Multiset (κ × ω)} {R : Multiset (κ × ρ)} (k : κ) {x y : ρ} :
      B.goes x y → Step B lets ⟨S, W, (k, x) ::ₘ R⟩ ⟨S, W, (k, y) ::ₘ R⟩
  | pause {S : Set (κ × ω)} {W : Multiset (κ × ω)} {R : Multiset (κ × ρ)} (k : κ)
      {x : ρ} {job : ω} :
      B.pauses x job → Step B lets ⟨S, W, (k, x) ::ₘ R⟩ ⟨S, (k, job) ::ₘ W, R⟩
  | finish {S : Set (κ × ω)} {W : Multiset (κ × ω)} {R : Multiset (κ × ρ)} (k : κ) {x : ρ} :
      B.ends x → Step B lets ⟨S, W, (k, x) ::ₘ R⟩ ⟨S, W, R⟩
  | drop {S : Set (κ × ω)} {W : Multiset (κ × ω)} {R : Multiset (κ × ρ)} (D : Multiset (κ × ω)) :
      lets → Step B lets ⟨S, D + W, R⟩ ⟨S, W, R⟩

/-- A scheduler that may drop more. -/
theorem Step.mono {B : Behaviour ω ρ} {lets lets' : Prop} {P Q : Pool κ ω ρ} (hl : lets → lets')
    (h : Step B lets P Q) : Step B lets' P Q := by
  cases h with
  | submit k job hnew => exact .submit k job hnew
  | start k job => exact .start k job
  | go k h => exact .go k h
  | pause k h => exact .pause k h
  | finish k h => exact .finish k h
  | drop D h => exact .drop D (hl h)

end Pool

/-! ## One key -/

section Keys

variable [DecidableEq κ] {α : Type*}

/-- What there is under key `k`. -/
def picks (k : κ) (M : Multiset (κ × α)) : Multiset α :=
  (M.filter fun a => a.1 = k).map Prod.snd

@[simp] theorem picks_add (k : κ) (M N : Multiset (κ × α)) :
    picks k (M + N) = picks k M + picks k N := by
  rw [picks, Multiset.filter_add, Multiset.map_add]
  rfl

theorem picks_cons_self (k : κ) (a : α) (M : Multiset (κ × α)) :
    picks k ((k, a) ::ₘ M) = a ::ₘ picks k M := by
  unfold picks
  rw [Multiset.filter_cons_of_pos (p := fun b : κ × α => b.1 = k) M rfl, Multiset.map_cons]

theorem picks_cons_of_ne {k k' : κ} (h : k' ≠ k) (a : α) (M : Multiset (κ × α)) :
    picks k ((k', a) ::ₘ M) = picks k M := by
  unfold picks
  rw [Multiset.filter_cons_of_neg (p := fun b : κ × α => b.1 = k) M h]

/-- What the pool has of a job alone. -/
def Solo.parts : Solo ω ρ → Multiset ω × Multiset ρ
  | .waiting job => ({job}, 0)
  | .running x => (0, {x})
  | .gone => (0, 0)

/-- What the pool has under key `k`. -/
def Pool.parts (P : Pool κ ω ρ) (k : κ) : Multiset ω × Multiset ρ :=
  (picks k P.waiting, picks k P.running)

/-- Job `k` was submitted as `job` and has come to `st` on its own. -/
structure Pool.Tracks (B : Behaviour ω ρ) (lets : Prop) (P : Pool κ ω ρ) (k : κ) (job : ω)
    (st : Solo ω ρ) :
    Prop where
  only : ∀ j, (k, j) ∈ P.submitted ↔ j = job
  solo : Relation.ReflTransGen (Solo.Step B lets) (.waiting job) st
  parts : P.parts k = st.parts

variable {B : Behaviour ω ρ} {lets : Prop} {P Q : Pool κ ω ρ} {k : κ} {job : ω} {st : Solo ω ρ}

theorem Pool.Tracks.next (h : P.Tracks B lets k job st) {st' : Solo ω ρ}
    (hstep : Solo.Step B lets st st')
    (hS : Q.submitted = P.submitted) (hparts : Q.parts k = st'.parts) : Q.Tracks B lets k job st' :=
  ⟨by rw [hS]; exact h.only, h.solo.tail hstep, hparts⟩

theorem Pool.Tracks.stay (h : P.Tracks B lets k job st)
    (hS : ∀ j, (k, j) ∈ Q.submitted ↔ (k, j) ∈ P.submitted) (hparts : Q.parts k = P.parts k) :
    Q.Tracks B lets k job st :=
  ⟨fun j => (hS j).trans (h.only j), h.solo, hparts.trans h.parts⟩

/-- Who has a turn under key `k` is the job alone, and it does not wait. -/
theorem Pool.Tracks.turn {S : Set (κ × ω)} {W : Multiset (κ × ω)} {R : Multiset (κ × ρ)} {x : ρ}
    (h : Pool.Tracks B lets ⟨S, W, (k, x) ::ₘ R⟩ k job st) :
    st = .running x ∧ picks k W = 0 ∧ picks k R = 0 := by
  have hparts := h.parts
  unfold Pool.parts at hparts
  rw [picks_cons_self] at hparts
  cases st with
  | waiting j => cases (Multiset.cons_ne_zero (congrArg Prod.snd hparts))
  | gone => cases (Multiset.cons_ne_zero (congrArg Prod.snd hparts))
  | running y =>
    have hrun := congrArg Prod.snd hparts
    have hwait := congrArg Prod.fst hparts
    simp only [Solo.parts] at hrun hwait
    obtain ⟨rfl, hR⟩ := (Multiset.singleton_eq_cons_iff _).1 hrun.symm
    exact ⟨rfl, hwait, hR⟩

/-- Who waits under key `k` is the job alone, and it has no turn. -/
theorem Pool.Tracks.wait {S : Set (κ × ω)} {W : Multiset (κ × ω)} {R : Multiset (κ × ρ)} {j : ω}
    (h : Pool.Tracks B lets ⟨S, (k, j) ::ₘ W, R⟩ k job st) :
    st = .waiting j ∧ picks k W = 0 ∧ picks k R = 0 := by
  have hparts := h.parts
  unfold Pool.parts at hparts
  rw [picks_cons_self] at hparts
  cases st with
  | running x => cases (Multiset.cons_ne_zero (congrArg Prod.fst hparts))
  | gone => cases (Multiset.cons_ne_zero (congrArg Prod.fst hparts))
  | waiting i =>
    have hwait := congrArg Prod.fst hparts
    have hrun := congrArg Prod.snd hparts
    simp only [Solo.parts] at hwait hrun
    obtain ⟨rfl, hW⟩ := (Multiset.singleton_eq_cons_iff _).1 hwait.symm
    exact ⟨rfl, hW, hrun⟩

/-- **A step of the pool is a step of job `k`, or none of its business.** -/
theorem Pool.Tracks.step (h : P.Tracks B lets k job st) (hs : Pool.Step B lets P Q) :
    ∃ st', Q.Tracks B lets k job st' := by
  cases hs with
  | submit k' j hnew =>
    have hne : k' ≠ k := by
      rintro rfl
      exact hnew job ((h.only job).2 rfl)
    refine ⟨st, h.stay (fun i => ?_) ?_⟩
    · rw [Set.mem_insert_iff, Prod.mk.injEq]
      exact or_iff_right fun heq => hne heq.1.symm
    · rw [Pool.parts, picks_cons_of_ne hne]
      rfl
  | start k' j =>
    by_cases heq : k' = k
    · subst heq
      obtain ⟨rfl, hW, hR⟩ := h.wait
      refine ⟨_, h.next (.start j) rfl ?_⟩
      rw [Pool.parts, picks_cons_self, hW, hR]
      rfl
    · exact ⟨st, h.stay (fun _ => Iff.rfl) (by simp only [Pool.parts, picks_cons_of_ne heq])⟩
  | go k' hgoes =>
    by_cases heq : k' = k
    · subst heq
      obtain ⟨rfl, hW, hR⟩ := h.turn
      refine ⟨_, h.next (.go hgoes) rfl ?_⟩
      rw [Pool.parts, picks_cons_self, hW, hR]
      rfl
    · exact ⟨st, h.stay (fun _ => Iff.rfl) (by simp only [Pool.parts, picks_cons_of_ne heq])⟩
  | pause k' hpauses =>
    by_cases heq : k' = k
    · subst heq
      obtain ⟨rfl, hW, hR⟩ := h.turn
      refine ⟨_, h.next (.pause hpauses) rfl ?_⟩
      rw [Pool.parts, picks_cons_self, hW, hR]
      rfl
    · exact ⟨st, h.stay (fun _ => Iff.rfl) (by simp only [Pool.parts, picks_cons_of_ne heq])⟩
  | finish k' hends =>
    by_cases heq : k' = k
    · subst heq
      obtain ⟨rfl, hW, hR⟩ := h.turn
      refine ⟨_, h.next (.finish hends) rfl ?_⟩
      rw [Pool.parts, hW, hR]
      rfl
    · exact ⟨st, h.stay (fun _ => Iff.rfl) (by simp only [Pool.parts, picks_cons_of_ne heq])⟩
  | @drop S W R D hlets =>
    have hparts := h.parts
    rw [Pool.parts, picks_add] at hparts
    by_cases hD : picks k D = 0
    · refine ⟨st, h.stay (fun _ => Iff.rfl) ?_⟩
      rw [Pool.parts, Pool.parts, picks_add, hD, zero_add]
    -- what is dropped is the job itself
    · obtain ⟨j, hj⟩ := Multiset.exists_mem_of_ne_zero hD
      obtain ⟨D', hD'⟩ := Multiset.exists_cons_of_mem hj
      have hwait := congrArg Prod.fst hparts
      have hrun := congrArg Prod.snd hparts
      cases st with
      | waiting i =>
        simp only [Solo.parts] at hwait hrun
        rw [hD', Multiset.cons_add] at hwait
        obtain ⟨rfl, hrest⟩ := (Multiset.singleton_eq_cons_iff _).1 hwait.symm
        refine ⟨_, h.next (.drop _ hlets) rfl ?_⟩
        rw [Pool.parts, hrun, (add_eq_zero.1 hrest).2]
        rfl
      | running x =>
        simp only [Solo.parts] at hwait
        exact absurd (add_eq_zero.1 hwait).1 hD
      | gone =>
        simp only [Solo.parts] at hwait
        exact absurd (add_eq_zero.1 hwait).1 hD

theorem picks_cons_eq_zero {α : Type*} {k' : κ} {a : α} {M : Multiset (κ × α)} :
    picks k ((k', a) ::ₘ M) = 0 ↔ k' ≠ k ∧ picks k M = 0 := by
  by_cases heq : k' = k
  · subst heq
    rw [picks_cons_self]
    exact iff_of_false (Multiset.cons_ne_zero) fun h => h.1 rfl
  · rw [picks_cons_of_ne heq]
    exact (and_iff_right heq).symm

/-- Under a key that was not submitted there is nothing. -/
theorem Pool.parts_step (hs : Pool.Step B lets P Q)
    (hP : (∀ j, (k, j) ∉ P.submitted) → P.parts k = (0, 0))
    (hQ : ∀ j, (k, j) ∉ Q.submitted) : Q.parts k = (0, 0) := by
  cases hs with
  | submit k' job hnew =>
    have hne : k' ≠ k := by
      rintro rfl
      exact hQ job (Set.mem_insert _ _)
    have h := hP fun j hj => hQ j (Set.mem_insert_of_mem _ hj)
    rw [Pool.parts, picks_cons_of_ne hne]
    exact h
  | start k' | go k' | pause k' | finish k' =>
    have h := hP hQ
    simp only [Pool.parts, Prod.mk.injEq, picks_cons_eq_zero] at h ⊢
    tauto
  | drop D =>
    have h := hP hQ
    simp only [Pool.parts, Prod.mk.injEq, picks_add, add_eq_zero] at h ⊢
    exact ⟨h.1.2, h.2⟩

/-- **Each job runs as it would alone**: what the pool has under a key is what a run of that job by
itself comes to, from what was submitted, and under a key that was not submitted it has nothing. -/
theorem Pool.solo (h : Relation.ReflTransGen (Pool.Step B lets) (Pool.empty κ ω ρ) P) (k : κ) :
    (∀ job, (k, job) ∈ P.submitted → ∃ st, P.Tracks B lets k job st) ∧
      ((∀ j, (k, j) ∉ P.submitted) → P.parts k = (0, 0)) := by
  induction h with
  | refl => exact ⟨fun _ hk => hk.elim, fun _ => rfl⟩
  | @tail P Q _ hs ih =>
    refine ⟨fun job hk => ?_, Pool.parts_step hs ih.2⟩
    by_cases hold : (k, job) ∈ P.submitted
    · obtain ⟨st, hst⟩ := ih.1 job hold
      exact hst.step hs
    -- the job has just been submitted
    · cases hs with
      | submit k' j hnew =>
        rcases Set.mem_insert_iff.1 hk with heq | hk
        · cases heq
          have hparts := ih.2 hnew
          simp only [Pool.parts, Prod.mk.injEq] at hparts
          refine ⟨.waiting job, fun i => ?_, .refl, ?_⟩
          · rw [Set.mem_insert_iff, or_iff_left (hnew i), Prod.mk.injEq, and_iff_right rfl]
          · rw [Pool.parts, picks_cons_self, hparts.1, hparts.2]
            rfl
        · exact absurd hk hold
      | _ => exact absurd hk hold

end Keys

end Transition
