import Mathlib.Algebra.BigOperators.Group.Finset.Basic
import Mathlib.Algebra.BigOperators.Group.Finset.Piecewise
import Mathlib.Data.Fintype.Basic
import Mathlib.Algebra.Order.BigOperators.Group.Finset
import Mathlib.Algebra.GroupWithZero.Nat
import Mathlib.Algebra.Order.Group.Nat

/-!
# Tallies: counting tokens spread over a finite family of holders

Tokens (tasks, channel ends) sit with holders: queues, one slot for each thread.
`tally w g = ∑ i, w (g i)` adds up a weight over the family `g`.  A step that
changes one holder changes the tally by the difference of that holder's weight
(`tally_update`), whatever the others hold; a conserved total is then a local
fact about one holder.  `weigh` adds a weight up over one holder's list.
-/

namespace Transition

open Function

variable {ι α : Type*} [Fintype ι]

/-- The total weight held by the family `g`. -/
def tally (w : α → Nat) (g : ι → α) : Nat := ∑ i, w (g i)

/-- Replacing what `i` holds moves the tally by the difference at `i`. -/
theorem tally_update [DecidableEq ι] (w : α → Nat) (g : ι → α) (i : ι) (x : α) :
    tally w (update g i x) + w (g i) = tally w g + w x := by
  unfold tally
  rw [← Finset.add_sum_erase _ _ (Finset.mem_univ i),
    ← Finset.add_sum_erase (a := i) _ (fun j => w (g j)) (Finset.mem_univ i)]
  have h : ∑ j ∈ Finset.univ.erase i, w (update g i x j) =
      ∑ j ∈ Finset.univ.erase i, w (g j) := by
    apply Finset.sum_congr rfl
    intro j hj
    rw [update_of_ne (Finset.ne_of_mem_erase hj)]
  rw [h, update_self]
  omega

/-- One holder's weight is part of the tally. -/
theorem le_tally (w : α → Nat) (g : ι → α) (i : ι) : w (g i) ≤ tally w g :=
  Finset.single_le_sum (f := fun j => w (g j)) (fun _ _ => Nat.zero_le _) (Finset.mem_univ i)

/-- Two different holders' weights are part of the tally together. -/
theorem add_le_tally [DecidableEq ι] (w : α → Nat) (g : ι → α) {i j : ι} (h : i ≠ j) :
    w (g i) + w (g j) ≤ tally w g := by
  unfold tally
  rw [← Finset.add_sum_erase _ _ (Finset.mem_univ i)]
  apply Nat.add_le_add_left
  exact Finset.single_le_sum (f := fun j => w (g j)) (fun _ _ => Nat.zero_le _)
    (Finset.mem_erase.2 ⟨h.symm, Finset.mem_univ j⟩)

/-- A positive tally has a holder of positive weight. -/
theorem exists_of_tally_pos (w : α → Nat) (g : ι → α) (h : 0 < tally w g) :
    ∃ i, 0 < w (g i) := by
  by_contra hn
  have : tally w g = 0 := Finset.sum_eq_zero fun i _ => by
    have := not_exists.1 hn i
    omega
  omega

theorem tally_eq_zero (w : α → Nat) (g : ι → α) : tally w g = 0 ↔ ∀ i, w (g i) = 0 := by
  unfold tally
  simp

/-- A tally of 1 has exactly one holder. -/
theorem exists_of_tally_eq_one [DecidableEq ι] (w : α → Nat) (g : ι → α) (h : tally w g = 1) :
    ∃ i, w (g i) = 1 ∧ ∀ j, j ≠ i → w (g j) = 0 := by
  obtain ⟨i, hi⟩ := exists_of_tally_pos w g (by omega)
  have hle := le_tally w g i
  refine ⟨i, by omega, fun j hj => ?_⟩
  have := add_le_tally w g hj
  omega

/-! ## Weights over a list -/

/-- The total weight of a list's members. -/
def weigh {α : Type*} (w : α → Nat) (l : List α) : Nat := (l.map w).sum

section Weigh

variable {α : Type*} (w : α → Nat)

@[simp] theorem weigh_nil : weigh w [] = 0 := rfl

@[simp] theorem weigh_cons (a : α) (l : List α) : weigh w (a :: l) = w a + weigh w l := by
  simp [weigh]

@[simp] theorem weigh_append (l l' : List α) : weigh w (l ++ l') = weigh w l + weigh w l' := by
  simp [weigh]

theorem weigh_perm {l l' : List α} (h : l.Perm l') : weigh w l = weigh w l' :=
  (h.map w).sum_eq

theorem weigh_mul (c : Nat) (l : List α) : weigh (fun a => c * w a) l = c * weigh w l := by
  induction l with
  | nil => rfl
  | cons a l ih => rw [weigh_cons, weigh_cons, ih, Nat.mul_add]

theorem weigh_congr {w' : α → Nat} {l : List α} (h : ∀ a ∈ l, w a = w' a) :
    weigh w l = weigh w' l :=
  congrArg List.sum (List.map_congr_left h)

theorem weigh_mono {w' : α → Nat} {l : List α} (h : ∀ a ∈ l, w a ≤ w' a) :
    weigh w l ≤ weigh w' l := by
  induction l with
  | nil => exact le_rfl
  | cons a l ih =>
    rw [List.forall_mem_cons] at h
    rw [weigh_cons, weigh_cons]
    exact Nat.add_le_add h.1 (ih h.2)

theorem le_weigh {a : α} {l : List α} (h : a ∈ l) : w a ≤ weigh w l :=
  List.single_le_sum (fun _ _ => Nat.zero_le _) _ (List.mem_map_of_mem h)

theorem exists_of_weigh_pos {l : List α} (h : 0 < weigh w l) : ∃ a ∈ l, 0 < w a := by
  by_contra hn
  have : weigh w l = 0 := List.sum_eq_zero fun x hx => by
    obtain ⟨a, ha, rfl⟩ := List.mem_map.1 hx
    exact Nat.eq_zero_of_not_pos fun hp => hn ⟨a, ha, hp⟩
  omega

end Weigh

end Transition
