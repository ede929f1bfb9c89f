import Mathlib.Algebra.BigOperators.Group.Finset.Piecewise
import Mathlib.Algebra.Order.BigOperators.Group.Finset
import Mathlib.Algebra.Order.Group.Multiset
import Mathlib.Data.Fintype.Basic
import Mathlib.Data.Multiset.UnionInter

/-!
# Custody: who holds which tokens

A token is a key with what its holder knows about it.  `Custody key good M` says that no two of
the tokens `M` have one key, and that what each of them says is true.  A step is a `Trade` of one
holder: it gives tokens up, learns more about one, or gets a new one.  What the others hold is not
affected (`Custody.trade`), as nobody else has a token of that key.

`total` adds up what a family of holders has, `holdings` what the members of a list have.
-/

namespace Transition

open Function

section Trades

variable {τ κ : Type*} (key : τ → κ)

/-- Each key is held once, and what is held is good. -/
structure Custody (good : τ → Prop) (M : Multiset τ) : Prop where
  once : (M.map key).Nodup
  sound : ∀ x ∈ M, good x

/-- What a step does to the tokens of the one who takes it; `good` is what they say before the step,
`good'` what they say after it. -/
inductive Trade (good good' : τ → Prop) : Multiset τ → Multiset τ → Prop
  | keep {M N : Multiset τ} : N ≤ M → (∀ y, good y → good' y) → Trade good good' M N
  | give {M : Multiset τ} (x : τ) : (∀ y, key y ≠ key x → good y → good' y) →
      Trade good good' (x ::ₘ M) M
  | swap {M : Multiset τ} (x x' : τ) : key x' = key x → good' x' →
      (∀ y, key y ≠ key x → good y → good' y) → Trade good good' (x ::ₘ M) (x' ::ₘ M)
  | get {M : Multiset τ} (x : τ) : good' x → (∀ y, good y → key y ≠ key x) →
      (∀ y, key y ≠ key x → good y → good' y) → Trade good good' M (x ::ₘ M)

variable {key} {good good' : τ → Prop} {M N R : Multiset τ}

theorem Custody.mono (h : Custody key good M) (hle : N ≤ M) : Custody key good N :=
  ⟨Multiset.nodup_of_le (Multiset.map_le_map hle) h.once,
    fun x hx => h.sound x (Multiset.mem_of_le hle hx)⟩

/-- Nobody else has a token of the same key. -/
theorem Custody.key_ne {x y : τ} (h : Custody key good (x ::ₘ M)) (hy : y ∈ M) : key y ≠ key x := by
  have honce := h.once
  rw [Multiset.map_cons, Multiset.nodup_cons] at honce
  intro heq
  exact honce.1 (heq ▸ Multiset.mem_map_of_mem key hy)

/-- **A trade keeps custody**, of the trader's tokens and of everybody else's. -/
theorem Custody.trade (h : Custody key good (M + R)) (ht : Trade key good good' M N) :
    Custody key good' (N + R) := by
  cases ht with
  | keep hle hgood =>
    have hsub := h.mono (add_le_add_left hle R)
    exact ⟨hsub.once, fun y hy => hgood y (hsub.sound y hy)⟩
  | give x hgood =>
    rw [Multiset.cons_add] at h
    have hsub := h.mono (Multiset.le_cons_self _ x)
    exact ⟨hsub.once, fun y hy => hgood y (h.key_ne hy) (hsub.sound y hy)⟩
  | swap x x' hkey hx' hgood =>
    rw [Multiset.cons_add] at h ⊢
    constructor
    · rw [Multiset.map_cons, hkey, ← Multiset.map_cons]
      exact h.once
    · intro y hy
      rcases Multiset.mem_cons.1 hy with rfl | hy
      · exact hx'
      · exact hgood y (h.key_ne hy) (h.sound y (Multiset.mem_cons_of_mem hy))
  | get x hx hnew hgood =>
    rw [Multiset.cons_add]
    constructor
    · rw [Multiset.map_cons, Multiset.nodup_cons]
      refine ⟨fun hmem => ?_, h.once⟩
      obtain ⟨y, hy, hkey⟩ := Multiset.mem_map.1 hmem
      exact hnew y (h.sound y hy) hkey
    · intro y hy
      rcases Multiset.mem_cons.1 hy with rfl | hy
      · exact hx
      · exact hgood y (hnew y (h.sound y hy)) (h.sound y hy)

end Trades

/-! ## Adding up -/

section Sums

variable {ι α A : Type*} [Fintype ι] [AddCommMonoid A]

/-- What a family of holders has, all together. -/
def total (f : α → A) (g : ι → α) : A := ∑ i, f (g i)

/-- One holder's part and the rest, which does not depend on what that one has. -/
theorem exists_total_eq [DecidableEq ι] (f : α → A) (g : ι → α) (i : ι) :
    ∃ r, total f g = f (g i) + r ∧ ∀ x, total f (update g i x) = f x + r := by
  refine ⟨∑ j ∈ Finset.univ.erase i, f (g j), ?_, fun x => ?_⟩
  · exact (Finset.add_sum_erase _ _ (Finset.mem_univ i)).symm
  · unfold total
    rw [← Finset.add_sum_erase _ _ (Finset.mem_univ i), update_self]
    congr 1
    apply Finset.sum_congr rfl
    intro j hj
    rw [update_of_ne (Finset.ne_of_mem_erase hj)]

/-- What the members of a list have. -/
def holdings (f : α → A) (l : List α) : A := (l.map f).sum

variable (f : α → A)

@[simp] theorem holdings_nil : holdings f [] = 0 := rfl

@[simp] theorem holdings_cons (a : α) (l : List α) :
    holdings f (a :: l) = f a + holdings f l := by
  simp [holdings]

@[simp] theorem holdings_append (l l' : List α) :
    holdings f (l ++ l') = holdings f l + holdings f l' := by
  simp [holdings]

theorem holdings_take_add_drop (k : Nat) (l : List α) :
    holdings f (l.take k) + holdings f (l.drop k) = holdings f l := by
  rw [← holdings_append, List.take_append_drop]

end Sums

end Transition
