import Mathlib.Data.List.Basic

/-!
# What is seen of a run

A step shows an observation (`some o`) or is silent (`none`).  `Trace` collects what a run
shows.  `Settles` are silent steps without a choice: a run can do nothing else until they are
over, so two systems whose settled states simulate each other have the same traces
(`Trace.simulate`).
-/

namespace Transition

universe u v w

variable {σ : Type u} {τ : Type v} {α : Type w}

/-- A run from `s` that shows `os`; every step starts in a state with `G`. -/
inductive Trace (step : σ → Option α → σ → Prop) (G : σ → Prop) (s : σ) : List α → σ → Prop
  | nil : Trace step G s [] s
  | snoc {os : List α} {a b : σ} {o : Option α} :
      Trace step G s os a → G a → step a o b → Trace step G s (os ++ o.toList) b

/-- Silent steps from `s` to `a`, each the only one there is. -/
inductive Settles (step : σ → Option α → σ → Prop) (G : σ → Prop) : σ → σ → Prop
  | here (s : σ) : Settles step G s s
  | step {s b a : σ} : G s → step s none b → (∀ o c, step s o c → o = none ∧ c = b) →
      Settles step G b a → Settles step G s a

section Traces

variable {step : σ → Option α → σ → Prop} {G : σ → Prop} {s a b : σ} {os os' : List α}
  {o : Option α}

theorem Trace.append (h1 : Trace step G s os a) (h2 : Trace step G a os' b) :
    Trace step G s (os ++ os') b := by
  induction h2 with
  | nil => rwa [List.append_nil]
  | snoc _ hG hs ih =>
    rw [← List.append_assoc]
    exact ih.snoc hG hs

theorem Trace.single (hG : G s) (hs : step s o b) : Trace step G s o.toList b :=
  Trace.nil.snoc hG hs

/-- A silent step before a trace. -/
theorem Trace.silent (hG : G s) (hs : step s none a) (h : Trace step G a os b) :
    Trace step G s os b :=
  (Trace.single hG hs).append h

theorem Settles.trace (h : Settles step G s a) : Trace step G s [] a := by
  induction h with
  | here s => exact Trace.nil
  | step hG hs _ _ ih => exact Trace.silent hG hs ih

/-- A state that has not settled can only go on to do so. -/
theorem Settles.next (h : Settles step G s a) (hs : step s o b) :
    s = a ∨ o = none ∧ Settles step G b a := by
  cases h with
  | here => exact Or.inl rfl
  | step _ _ honly hrest =>
    obtain ⟨rfl, rfl⟩ := honly o b hs
    exact Or.inr ⟨rfl, hrest⟩

/-- What shows something has settled. -/
theorem Settles.eq_of_some {x : α} (h : Settles step G s a) (hs : step s (some x) b) : s = a := by
  rcases h.next hs with rfl | ⟨ho, -⟩
  · rfl
  · cases ho

/-- **Simulation.**  `R` relates settled states.  When every step from there is matched by a trace
that shows the same, so is every trace that shows only what is in `P`. -/
theorem Trace.simulate {step' : τ → Option α → τ → Prop} {G' : τ → Prop} {R : σ → τ → Prop}
    {P : α → Prop} (h : Trace step G s os b) {t : τ} (hsettle : Settles step G s a) (h0 : R a t)
    (hos : ∀ o ∈ os, P o)
    (hstep : ∀ a t o b, R a t → G a → step a o b → (∀ x ∈ o, P x) →
      ∃ c t', Settles step G b c ∧ Trace step' G' t o.toList t' ∧ R c t') :
    ∃ c t', Settles step G b c ∧ Trace step' G' t os t' ∧ R c t' := by
  induction h with
  | nil => exact ⟨a, t, hsettle, Trace.nil, h0⟩
  | @snoc os b b' o _ hG hs ih =>
    obtain ⟨c, t₁, hset, htr, hR⟩ := ih fun x hx => hos x (List.mem_append_left _ hx)
    rcases hset.next hs with rfl | ⟨rfl, hset'⟩
    · have ho : ∀ x ∈ o, P x := fun x hx =>
        hos x (List.mem_append_right _ (Option.mem_toList.2 hx))
      obtain ⟨c', t₂, hset', htr', hR'⟩ := hstep _ _ _ _ hR hG hs ho
      exact ⟨c', t₂, hset', htr.append htr', hR'⟩
    · exact ⟨c, t₁, hset', by rwa [Option.toList_none, List.append_nil], hR⟩

/-- A run that shows `os`, and `x` with its last step. -/
def ShowsLast (step : σ → Option α → σ → Prop) (G : σ → Prop) (s : σ) (os : List α)
    (x : α) (a : σ) :
    Prop := ∃ b, Trace step G s os b ∧ G b ∧ step b (some x) a

theorem ShowsLast.start {x : α} (h : ShowsLast step G s os x a) : G s := by
  obtain ⟨b, ht, hG, -⟩ := h
  have hb : b = s ∨ G s := by
    induction ht with
    | nil => exact Or.inl rfl
    | snoc _ hGa _ ih => exact (ih hGa).elim (fun h => Or.inr (h ▸ hGa)) Or.inr
  rcases hb with rfl | hs
  · exact hG
  · exact hs

end Traces

end Transition
