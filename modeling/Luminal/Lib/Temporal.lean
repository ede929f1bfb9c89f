import Luminal.Lib.Transition
import Mathlib.Logic.Function.Iterate
import Mathlib.Tactic.Choose

/-!
# Infinite runs

What a system can do is a matter of its finite runs, what it is bound to do a matter of the
infinite ones that are fair.  `Infinite step` is a run without end.  `ρ.Eventually k Q` says that
`Q` is reached from position `k` on, and `ρ.WeakFair obliged moves` that who is obliged to move
from some point on does move.

`WeakFair.exists_move` is the basic rule: a state that lasts until the move of the one who is
obliged to make it ends with that move.  `Eventually.trans` and `Eventually.of_rank` put phases
together.  A state that can be left only towards others of its kind has an infinite run
(`exists_of_loop`), and a finite run can be put in front (`exists_prepend`).
-/

namespace Transition

universe u v

variable {σ : Type u} {ℓ : Type v}

/-- A run without end: the states it goes through, and the labels of its steps. -/
@[ext]
structure Infinite (step : σ → ℓ → σ → Prop) where
  state : Nat → σ
  label : Nat → ℓ
  next : ∀ k, step (state k) (label k) (state (k + 1))

namespace Infinite

variable {step : σ → ℓ → σ → Prop} (ρ : Infinite step)

/-- From position `k` on, some state of the run is in `Q`. -/
def Eventually (k : Nat) (Q : σ → Prop) : Prop := ∃ j, k ≤ j ∧ Q (ρ.state j)

/-- Steps in `A` are taken again and again. -/
def Often (A : σ → ℓ → Prop) : Prop := ∀ k, ∃ j, k ≤ j ∧ A (ρ.state j) (ρ.label j)

/-- Weak fairness: who is obliged to move from position `k` on for ever, moves. -/
def WeakFair (obliged : σ → Prop) (moves : ℓ → Prop) : Prop :=
  ∀ k, (∀ j, k ≤ j → obliged (ρ.state j)) → ∃ j, k ≤ j ∧ moves (ρ.label j)

variable {ρ} {k : Nat} {P Q R : σ → Prop}

/-! ## Finite parts -/

/-- Between two positions the run is a finite one. -/
theorem exists_run {G : σ → ℓ → Prop} (hG : ∀ j, G (ρ.state j) (ρ.label j)) {j : Nat}
    (h : k ≤ j) : ∃ ls, Run step G (ρ.state k) ls (ρ.state j) := by
  induction h with
  | refl => exact ⟨[], Run.nil⟩
  | @step j _ ih =>
    obtain ⟨ls, hr⟩ := ih
    exact ⟨_, hr.snoc (hG j) (ρ.next j)⟩

/-- **Invariant rule.**  What holds at position `k` and is kept by each step holds from then on. -/
theorem holds_from (h0 : P (ρ.state k))
    (hstep : ∀ j, k ≤ j → P (ρ.state j) → P (ρ.state (j + 1))) {j : Nat} (h : k ≤ j) :
    P (ρ.state j) := by
  induction h with
  | refl => exact h0
  | @step j hj ih => exact hstep j hj ih

/-! ## Eventually -/

theorem Eventually.now (h : Q (ρ.state k)) : ρ.Eventually k Q := ⟨k, Nat.le_refl k, h⟩

theorem Eventually.later {j : Nat} (hj : k ≤ j) (h : ρ.Eventually j Q) : ρ.Eventually k Q := by
  obtain ⟨i, hi, hQ⟩ := h
  exact ⟨i, Nat.le_trans hj hi, hQ⟩

/-- A goal on the way to which every state eventually reaches `R`. -/
theorem Eventually.trans (h : ρ.Eventually k Q)
    (hQ : ∀ j, k ≤ j → Q (ρ.state j) → ρ.Eventually j R) : ρ.Eventually k R := by
  obtain ⟨j, hj, hq⟩ := h
  exact (hQ j hj hq).later hj

theorem Eventually.mono (h : ρ.Eventually k Q) (hQ : ∀ a, Q a → R a) : ρ.Eventually k R := by
  obtain ⟨j, hj, hq⟩ := h
  exact ⟨j, hj, hQ _ hq⟩

/-- **Rank rule.**  From each state of rank `x` the run gets to the goal or to a state of smaller
rank. -/
theorem Eventually.of_rank {α : Type*} {r : α → α → Prop} (hr : WellFounded r)
    {I : α → σ → Prop}
    (hphase : ∀ x j, k ≤ j → I x (ρ.state j) →
      ρ.Eventually j fun a => Q a ∨ ∃ y, r y x ∧ I y a) {x : α} (h : I x (ρ.state k)) :
    ρ.Eventually k Q := by
  have hfrom : ∀ y j, k ≤ j → I y (ρ.state j) → ρ.Eventually j Q := by
    intro y
    induction y using hr.induction with
    | _ y ih =>
      intro j hj hI
      refine (hphase y j hj hI).trans fun i hi hcase => ?_
      rcases hcase with hq | ⟨z, hlt, hz⟩
      · exact .now hq
      · exact ih z hlt i (Nat.le_trans hj hi) hz
  exact hfrom x k (Nat.le_refl k) h

/-- **The move comes.**  A state that lasts until the one who is some day obliged to move does ends
with that move. -/
theorem WeakFair.exists_move_late {obliged : σ → Prop} {moves : ℓ → Prop}
    (hfair : ρ.WeakFair obliged moves) (hP : P (ρ.state k))
    (hkeep : ∀ j, k ≤ j → P (ρ.state j) → ¬ moves (ρ.label j) → P (ρ.state (j + 1))) {i : Nat}
    (hob : ∀ j, i ≤ j → P (ρ.state j) → obliged (ρ.state j)) :
    ∃ j, k ≤ j ∧ P (ρ.state j) ∧ moves (ρ.label j) := by
  by_contra hno
  have hforever : ∀ j, k ≤ j → P (ρ.state j) := by
    intro j hj
    refine holds_from hP (fun i hi hPi => ?_) hj
    exact hkeep i hi hPi fun hmove => hno ⟨i, hi, hPi, hmove⟩
  obtain ⟨j, hj, hmove⟩ := hfair (max k i) fun j hj => hob j (by omega) (hforever j (by omega))
  exact hno ⟨j, by omega, hforever j (by omega), hmove⟩

/-- The same when it is obliged to move all the time. -/
theorem WeakFair.exists_move {obliged : σ → Prop} {moves : ℓ → Prop}
    (hfair : ρ.WeakFair obliged moves) (hP : P (ρ.state k))
    (hkeep : ∀ j, k ≤ j → P (ρ.state j) → ¬ moves (ρ.label j) → P (ρ.state (j + 1)))
    (hob : ∀ j, k ≤ j → P (ρ.state j) → obliged (ρ.state j)) :
    ∃ j, k ≤ j ∧ P (ρ.state j) ∧ moves (ρ.label j) :=
  hfair.exists_move_late hP hkeep hob

/-! ## What is left of a run -/

/-- The run from position `k` on. -/
def tail (ρ : Infinite step) (k : Nat) : Infinite step where
  state j := ρ.state (k + j)
  label j := ρ.label (k + j)
  next j := ρ.next (k + j)

theorem WeakFair.tail {obliged : σ → Prop} {moves : ℓ → Prop} (h : ρ.WeakFair obliged moves)
    (k : Nat) : (ρ.tail k).WeakFair obliged moves := by
  intro i hob
  obtain ⟨j, hj, hmove⟩ := h (k + i) fun j hj => by
    have hnow := hob (j - k) (by omega)
    simp only [Infinite.tail] at hnow
    rwa [show k + (j - k) = j by omega] at hnow
  refine ⟨j - k, by omega, ?_⟩
  simp only [Infinite.tail]
  rwa [show k + (j - k) = j by omega]

theorem WeakFair.of_tail {obliged : σ → Prop} {moves : ℓ → Prop}
    (h : (ρ.tail k).WeakFair obliged moves) : ρ.WeakFair obliged moves := by
  intro i hob
  obtain ⟨j, hj, hmove⟩ := h i fun j hj => hob (k + j) (by omega)
  exact ⟨k + j, by omega, hmove⟩

theorem often_tail_iff {A : σ → ℓ → Prop} (k : Nat) : (ρ.tail k).Often A ↔ ρ.Often A := by
  constructor
  · intro h i
    obtain ⟨j, hj, hA⟩ := h i
    exact ⟨k + j, by omega, hA⟩
  · intro h i
    obtain ⟨j, hj, hA⟩ := h (k + i)
    refine ⟨j - k, by omega, ?_⟩
    simp only [Infinite.tail]
    rwa [show k + (j - k) = j by omega]

theorem Eventually.of_tail {i : Nat} (h : (ρ.tail k).Eventually i Q) : ρ.Eventually (k + i) Q := by
  obtain ⟨j, hj, hQ⟩ := h
  exact ⟨k + j, by omega, hQ⟩

/-! ## Which infinite runs there are -/

/-- **A state that can always go on to one of its kind starts an infinite run.** -/
theorem exists_of_loop (step : σ → ℓ → σ → Prop) {J : σ → Prop} {L : ℓ → Prop} {s : σ}
    (hstep : ∀ a, J a → ∃ l b, L l ∧ step a l b ∧ J b) (h : J s) :
    ∃ ρ : Infinite step, ρ.state 0 = s ∧ ∀ k, J (ρ.state k) ∧ L (ρ.label k) := by
  have hnext : ∀ a : { a // J a }, ∃ l : ℓ, ∃ b : { a // J a }, L l ∧ step a.1 l b.1 := by
    rintro ⟨a, ha⟩
    obtain ⟨l, b, hL, hs, hb⟩ := hstep a ha
    exact ⟨l, ⟨b, hb⟩, hL, hs⟩
  choose label next hL hs using hnext
  let orbit : Nat → { a // J a } := fun k => next^[k] ⟨s, h⟩
  have hsucc : ∀ k, orbit (k + 1) = next (orbit k) := fun k =>
    Function.iterate_succ_apply' next k ⟨s, h⟩
  refine ⟨⟨fun k => (orbit k).1, fun k => label (orbit k), fun k => ?_⟩, rfl, fun k => ?_⟩
  · show step (orbit k).1 (label (orbit k)) (orbit (k + 1)).1
    rw [hsucc]
    exact hs (orbit k)
  · exact ⟨(orbit k).2, hL (orbit k)⟩

theorem tail_zero (ρ : Infinite step) : ρ.tail 0 = ρ := by
  ext k <;> simp [tail]

theorem tail_tail (ρ : Infinite step) (j k : Nat) : (ρ.tail j).tail k = ρ.tail (j + k) := by
  ext i <;> simp [tail, Nat.add_assoc]

/-- One step more in front. -/
def cons (ρ : Infinite step) {s : σ} {l : ℓ} (h : step s l (ρ.state 0)) : Infinite step where
  state
    | 0 => s
    | k + 1 => ρ.state k
  label
    | 0 => l
    | k + 1 => ρ.label k
  next
    | 0 => h
    | k + 1 => ρ.next k

theorem tail_cons (ρ : Infinite step) {s : σ} {l : ℓ} (h : step s l (ρ.state 0)) :
    (ρ.cons h).tail 1 = ρ := by
  ext k <;> simp [tail, cons, Nat.add_comm 1 k]

/-- A finite run in front of an infinite one. -/
theorem exists_prepend {G : σ → ℓ → Prop} {s a : σ} {ls : List ℓ} (hr : Run step G s ls a)
    (ρ : Infinite step) (ha : ρ.state 0 = a) :
    ∃ ρ' : Infinite step, ρ'.state 0 = s ∧
      (∀ k, k < ls.length → G (ρ'.state k) (ρ'.label k)) ∧ ρ'.tail ls.length = ρ := by
  induction hr generalizing ρ with
  | nil => exact ⟨ρ, ha, fun k hk => absurd hk (Nat.not_lt_zero k), ρ.tail_zero⟩
  | @snoc ls b c l hr hG hs ih =>
    subst ha
    obtain ⟨ρ', h0, hbefore, htail⟩ := ih (ρ.cons hs) rfl
    refine ⟨ρ', h0, fun k hk => ?_, ?_⟩
    · rw [List.length_append, List.length_singleton] at hk
      by_cases hlt : k < ls.length
      · exact hbefore k hlt
      · obtain rfl : k = ls.length := by omega
        have hstate : ρ'.state ls.length = b := congrArg (fun ρ => ρ.state 0) htail
        have hlabel : ρ'.label ls.length = l := congrArg (fun ρ => ρ.label 0) htail
        rw [hstate, hlabel]
        exact hG
    · rw [List.length_append, List.length_singleton, ← tail_tail, htail, tail_cons]

end Infinite

end Transition
