import Mathlib.Logic.Relation

/-!
# Labelled transition systems: runs, invariants, inevitability

A system is a step relation `step : σ → ℓ → σ → Prop`; the label says who moves
(a thread, an oracle answer).  Two notions are used everywhere:

* `Run step G s ls s'`: a finite run from `s` to `s'` with labels `ls`, each of
  whose steps meets the guard `G`.  A guard states what a run does *not* do
  (no panic, no shutdown) or the exact condition under which a property survives.
  The induction over runs is packaged once (`Run.invariant`, `Run.history`).
* `Inevitable step Ok Q s`: every run from `s` through states that satisfy `Ok`
  reaches `Q`, and none gets stuck before.  `Inevitable.of_rank` is the
  well-founded rule, `Inevitable.trans` composes phases.
-/

namespace Transition

universe u v

variable {σ : Type u} {ℓ : Type v}

/-- A run from `s` to `s'` along the labels `ls`, every step of which meets `G`. -/
inductive Run (step : σ → ℓ → σ → Prop) (G : σ → ℓ → Prop) (s : σ) : List ℓ → σ → Prop
  | nil : Run step G s [] s
  | snoc {ls : List ℓ} {a b : σ} {l : ℓ} :
      Run step G s ls a → G a l → step a l b → Run step G s (ls ++ [l]) b

/-- No restriction on the steps of a run. -/
def always : σ → ℓ → Prop := fun _ _ => True

instance (s : σ) (l : ℓ) : Decidable (always s l) := .isTrue trivial

section Runs

variable {step : σ → ℓ → σ → Prop} {G H : σ → ℓ → Prop} {s a b : σ} {ls ms : List ℓ} {l : ℓ}

theorem Run.single (hG : G s l) (h : step s l a) : Run step G s [l] a :=
  Run.snoc Run.nil hG h

theorem Run.append (h1 : Run step G s ls a) (h2 : Run step G a ms b) :
    Run step G s (ls ++ ms) b := by
  induction h2 with
  | nil => rwa [List.append_nil]
  | snoc _ hG hs ih =>
    rw [← List.append_assoc]
    exact ih.snoc hG hs

theorem Run.cons (hG : G s l) (h : step s l a) (h2 : Run step G a ms b) :
    Run step G s (l :: ms) b :=
  (Run.single hG h).append h2

/-- The labels can give a stronger guard. -/
theorem Run.of_labels (h : Run step G s ls a) (hH : ∀ l ∈ ls, ∀ b, G b l → H b l) :
    Run step H s ls a := by
  induction h with
  | nil => exact Run.nil
  | @snoc ls b c l _ hG hs ih =>
    refine (ih fun l hl => hH l (List.mem_append_left _ hl)).snoc (hH l ?_ b hG) hs
    exact List.mem_append_right _ (List.mem_singleton_self l)

/-- A stronger guard leaves fewer runs. -/
theorem Run.mono (hGH : ∀ a l, G a l → H a l) (h : Run step G s ls a) : Run step H s ls a := by
  induction h with
  | nil => exact Run.nil
  | snoc _ hG hs ih => exact ih.snoc (hGH _ _ hG) hs

/-- **Invariant rule.**  What holds at the start and is kept by every guarded
step holds at the end of every run. -/
theorem Run.invariant {P : σ → Prop} (h : Run step G s ls a) (h0 : P s)
    (hstep : ∀ a l b, P a → G a l → step a l b → P b) : P a := by
  induction h with
  | nil => exact h0
  | snoc _ hG hs ih => exact hstep _ _ _ ih hG hs

/-- The invariant rule for a property that is a conjunction with one already known
to hold in all states of the runs. -/
theorem Run.invariant_with {P R : σ → Prop} (h : Run step G s ls a)
    (hR : ∀ ls a, Run step G s ls a → R a) (h0 : P s)
    (hstep : ∀ a l b, R a → P a → G a l → step a l b → P b) : P a := by
  induction h with
  | nil => exact h0
  | snoc hr hG hs ih => exact hstep _ _ _ (hR _ _ hr) ih hG hs

/-- **Exact guards.**  When runs whose steps meet `G` end in states with `P`, and a step leads to
a state with `P` only if it meets `G`, the runs all of whose states have `P` are the runs all of
whose steps meet `G`. -/
theorem Run.exact_guard {P : σ → Prop}
    (hG : ∀ ls a, Run step (fun a l => H a l ∧ G a l) s ls a → P a)
    (hP : ∀ ls a l b, Run step H s ls a → P a → H a l → step a l b → P b → G a l) :
    (Run step (fun a l => H a l ∧ P a) s ls a ∧ P a) ↔
    Run step (fun a l => H a l ∧ G a l) s ls a := by
  constructor
  · rintro ⟨h, hPa⟩
    induction h with
    | nil => exact Run.nil
    | snoc hr hG hs ih =>
      exact (ih hG.2).snoc ⟨hG.1, hP _ _ _ _ (hr.mono fun _ _ h => h.1) hG.2 hG.1 hs hPa⟩ hs
  · intro h
    refine ⟨?_, hG _ _ h⟩
    induction h with
    | nil => exact Run.nil
    | snoc hr hg hs ih => exact ih.snoc ⟨hg.1, hG _ _ hr⟩ hs

/-- The same, when it can be seen in one step. -/
theorem Run.guard_iff {P R : σ → Prop} (hR : ∀ ls a, Run step H s ls a → R a) (h0 : P s)
    (hstep : ∀ a l b, R a → P a → H a l → step a l b → (P b ↔ G a l)) :
    (Run step (fun a l => H a l ∧ P a) s ls a ∧ P a) ↔
    Run step (fun a l => H a l ∧ G a l) s ls a := by
  refine Run.exact_guard (fun ls a h => ?_) fun ls a l b hr hPa hH hs hPb =>
    (hstep a l b (hR _ _ hr) hPa hH hs).1 hPb
  induction h with
  | nil => exact h0
  | snoc hr hg hs ih => exact (hstep _ _ _ (hR _ _ (hr.mono fun _ _ h => h.1)) ih hg.1 hs).2 hg.2

/-- The same for all runs. -/
theorem Run.states_iff {P R : σ → Prop} (hR : ∀ ls a, Run step always s ls a → R a) (h0 : P s)
    (hstep : ∀ a l b, R a → P a → step a l b → (P b ↔ G a l)) :
    Run step (fun a _ => P a) s ls a ∧ P a ↔ Run step G s ls a := by
  have hiff : Run step (fun a l => always a l ∧ P a) s ls a ∧ P a ↔
      Run step (fun a l => always a l ∧ G a l) s ls a :=
    Run.guard_iff hR h0 fun a l b ha hPa _ hs => hstep a l b ha hPa hs
  constructor
  · rintro ⟨hr, hPa⟩
    exact (hiff.1 ⟨hr.mono fun _ _ h => ⟨trivial, h⟩, hPa⟩).mono fun _ _ h => h.2
  · intro hr
    obtain ⟨hr, hPa⟩ := hiff.2 (hr.mono fun _ _ h => ⟨trivial, h⟩)
    exact ⟨hr.mono fun _ _ h => h.2, hPa⟩

/-- The same for a property of the states and of the steps. -/
theorem Run.steps_iff {P R : σ → Prop} {S : σ → ℓ → σ → Prop}
    (hR : ∀ ls a, Run step always s ls a → R a) (h0 : P s)
    (hstep : ∀ a l b, R a → P a → step a l b → (S a l b ∧ P b ↔ G a l)) :
    Run (fun a l b => step a l b ∧ S a l b) (fun a _ => P a) s ls a ∧ P a ↔ Run step G s ls a := by
  constructor
  · rintro ⟨hr, hPa⟩
    have hall : Run step always s ls a ∧ Run step G s ls a := by
      induction hr with
      | nil => exact ⟨Run.nil, Run.nil⟩
      | snoc _ hPb hs ih =>
        obtain ⟨hall, hG⟩ := ih hPb
        exact ⟨hall.snoc trivial hs.1,
          hG.snoc ((hstep _ _ _ (hR _ _ hall) hPb hs.1).1 ⟨hs.2, hPa⟩) hs.1⟩
    exact hall.2
  · intro hr
    induction hr with
    | nil => exact ⟨Run.nil, h0⟩
    | snoc hr hG hs ih =>
      have hra := hR _ _ (hr.mono fun _ _ _ => trivial)
      obtain ⟨hS, hPb⟩ := (hstep _ _ _ hra ih.2 hs).2 hG
      exact ⟨ih.1.snoc ih.2 ⟨hs, hS⟩, hPb⟩

/-- Simulation: a relation kept by every guarded step relates the ends of the runs
when it relates the starts; the labels are the same. -/
theorem Run.simulate {τ : Type*} {step' : τ → ℓ → τ → Prop} {G' : τ → ℓ → Prop}
    {R : σ → τ → Prop} (h : Run step G s ls a) {t : τ} (h0 : R s t)
    (hstep : ∀ a l b t, R a t → G a l → step a l b → ∃ t', G' t l ∧ step' t l t' ∧ R b t') :
    ∃ t', Run step' G' t ls t' ∧ R a t' := by
  induction h with
  | nil => exact ⟨t, Run.nil, h0⟩
  | snoc _ hG hs ih =>
    obtain ⟨t1, hr1, hR1⟩ := ih
    obtain ⟨t2, hG2, hs2, hR2⟩ := hstep _ _ _ t1 hR1 hG hs
    exact ⟨t2, hr1.snoc hG2 hs2, hR2⟩

end Runs

/-! ## Counting steps -/

/-- A run from `s` to `s'`, and how many of its steps are in `C`. -/
inductive Counted (step : σ → ℓ → σ → Prop) (C : σ → ℓ → σ → Prop) (s : σ) : Nat → σ → Prop
  | nil : Counted step C s 0 s
  | hit {k : Nat} {a b : σ} {l : ℓ} :
      Counted step C s k a → step a l b → C a l b → Counted step C s (k + 1) b
  | miss {k : Nat} {a b : σ} {l : ℓ} :
      Counted step C s k a → step a l b → ¬ C a l b → Counted step C s k b

section Counting

variable {step C : σ → ℓ → σ → Prop} {s : σ}

theorem Counted.run {k : Nat} {a : σ} (h : Counted step C s k a) :
    ∃ ls, Run step always s ls a := by
  induction h with
  | nil => exact ⟨[], Run.nil⟩
  | hit _ hs _ ih | miss _ hs _ ih =>
    obtain ⟨ls, hr⟩ := ih
    exact ⟨_, hr.snoc trivial hs⟩

theorem Run.counted {G : σ → ℓ → Prop} {ls : List ℓ} {a : σ} (h : Run step G s ls a)
    (hG : ∀ a l b, G a l → ¬ C a l b) : Counted step C s 0 a := by
  induction h with
  | nil => exact Counted.nil
  | snoc _ hg hs ih => exact ih.miss hs (hG _ _ _ hg)

/-- **Amortised rule.**  Steps in `C` use up a potential that no step raises, so it bounds their
number. -/
theorem Counted.add_le {I : σ → Prop} {φ : σ → Nat} {k : Nat} {a : σ} (h : Counted step C s k a)
    (h0 : I s) (hI : ∀ a l b, I a → step a l b → I b)
    (hle : ∀ a l b, I a → step a l b → φ b ≤ φ a)
    (hlt : ∀ a l b, I a → step a l b → C a l b → φ b < φ a) : I a ∧ k + φ a ≤ φ s := by
  induction h with
  | nil => exact ⟨h0, by omega⟩
  | hit _ hs hC ih =>
    have := hlt _ _ _ ih.1 hs hC
    exact ⟨hI _ _ _ ih.1 hs, by omega⟩
  | miss _ hs _ ih =>
    have := hle _ _ _ ih.1 hs
    exact ⟨hI _ _ _ ih.1 hs, by omega⟩

end Counting

/-! ## Inevitability -/

/-- Every run from `s` whose states satisfy `Ok` reaches `Q` and is not stuck before.
A state that breaks `Ok` is outside the promise. -/
inductive Inevitable (step : σ → ℓ → σ → Prop) (Ok Q : σ → Prop) : σ → Prop
  | now {s : σ} : Q s → Inevitable step Ok Q s
  | later {s : σ} : (Ok s → ∃ l s', step s l s') →
      (Ok s → ∀ l s', step s l s' → Inevitable step Ok Q s') → Inevitable step Ok Q s

section Inevitability

variable {step : σ → ℓ → σ → Prop} {Ok Q R : σ → Prop} {s : σ}

/-- A goal reached on the way to which every state inevitably reaches `R`. -/
theorem Inevitable.trans (h : Inevitable step Ok Q s)
    (hQ : ∀ a, Q a → Inevitable step Ok R a) : Inevitable step Ok R s := by
  induction h with
  | now hq => exact hQ _ hq
  | later hp _ ih => exact Inevitable.later hp ih

theorem Inevitable.mono (h : Inevitable step Ok Q s) (hQ : ∀ a, Q a → R a) :
    Inevitable step Ok R s :=
  h.trans fun a ha => Inevitable.now (hQ a ha)

/-- What happens in states that break `Ok` does not matter. -/
theorem Inevitable.of_ok (h : Ok s → Inevitable step Ok Q s) : Inevitable step Ok Q s := by
  by_cases hok : Ok s
  · exact h hok
  · exact Inevitable.later (fun h => absurd h hok) fun h => absurd h hok

/-- A promise about more runs. -/
theorem Inevitable.mono_ok {P : σ → Prop} (h : Inevitable step Ok Q s) (hP : ∀ a, P a → Ok a) :
    Inevitable step P Q s := by
  induction h with
  | now hq => exact Inevitable.now hq
  | later hp _ ih => exact Inevitable.later (fun h => hp (hP _ h)) fun h => ih (hP _ h)

/-- **Rank rule.**  From a state of rank `x` some phase is inevitable that ends at the goal or in
a state of smaller rank. -/
theorem Inevitable.of_rank {α : Type*} {r : α → α → Prop} (hr : WellFounded r)
    {I : α → σ → Prop}
    (hphase : ∀ x a, I x a → Inevitable step Ok (fun b => Q b ∨ ∃ y, r y x ∧ I y b) a) {x : α}
    (h : I x s) : Inevitable step Ok Q s := by
  induction x using hr.induction generalizing s with
  | _ x ih =>
    refine (hphase x s h).trans fun b hb => ?_
    rcases hb with hq | ⟨y, hlt, hI⟩
    · exact Inevitable.now hq
    · exact ih y hlt hI

/-- A way to go on for ever, through states that satisfy `Ok` and are not at the goal. -/
theorem not_inevitable {J : σ → Prop} (hok : ∀ a, J a → Ok a) (hQ : ∀ a, J a → ¬ Q a)
    (hstep : ∀ a, J a → ∃ l b, step a l b ∧ J b) (h : J s) : ¬ Inevitable step Ok Q s := by
  intro hi
  induction hi with
  | now hq => exact hQ _ h hq
  | later _ _ ih =>
    obtain ⟨l, b, hs, hb⟩ := hstep _ h
    exact ih (hok _ h) l b hs hb

/-- What every step keeps, away from the goal. -/
theorem not_inevitable_of_step {J : σ → Prop} (hQ : ∀ a, J a → ¬ Q a)
    (hstep : ∀ a l b, J a → step a l b → J b) (h : J s) :
    ¬ Inevitable step (fun _ => True) Q s := by
  intro hi
  induction hi with
  | now hq => exact hQ _ h hq
  | later hp _ ih =>
    obtain ⟨l, b, hs⟩ := hp trivial
    exact ih trivial l b hs (hstep _ l b h hs)

/-- When all states on the way are as promised, nothing is left out. -/
theorem Inevitable.promised (h : Inevitable step Ok Q s)
    (hok : ∀ ls a, Run step (fun a _ => ¬ Q a) s ls a → ¬ Q a → Ok a) :
    Inevitable step (fun _ => True) Q s := by
  induction h with
  | now hq => exact .now hq
  | @later s hp _ ih =>
    by_cases hq : Q s
    · exact .now hq
    · have hs := hok [] s Run.nil hq
      exact .later (fun _ => hp hs) fun _ l s' hstep =>
        ih hs l s' hstep fun ls a hr hn => hok (l :: ls) a (Run.cons hq hstep hr) hn

/-- A run that has not reached the goal has it still before it. -/
theorem Inevitable.along {ls : List ℓ} {a : σ} (h : Inevitable step Ok Q s)
    (hr : Run step (fun a _ => Ok a ∧ ¬ Q a) s ls a) : Inevitable step Ok Q a := by
  induction hr with
  | nil => exact h
  | snoc _ hG hs ih =>
    cases ih with
    | now hq => exact absurd hq hG.2
    | later _ hnext => exact hnext hG.1 _ _ hs

end Inevitability

end Transition
