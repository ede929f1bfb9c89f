import Mathlib.Data.List.Induction

/-!
# Monitors

A log speaks of many things; `follow next of s₀ key log` runs the automaton `next` over the events
of one of them.  It is `none` as soon as an event comes that the automaton does not allow.
-/

namespace Transition

universe u v w

variable {σ : Type u} {ε : Type v} {κ : Type w} [DecidableEq κ]

/-- The state of the automaton after the events of `key`, if it allows them. -/
def follow (next : σ → ε → Option σ) (of : ε → κ) (s₀ : σ) (key : κ) (log : List ε) : Option σ :=
  (log.filter fun e => of e = key).foldlM next s₀

section Follow

variable {next : σ → ε → Option σ} {of : ε → κ} {s₀ s : σ} {key : κ} {log l : List ε} {e : ε}

theorem follow_append : follow next of s₀ key (log ++ l) =
    (follow next of s₀ key log).bind fun s => follow next of s key l := by
  unfold follow
  rw [List.filter_append, List.foldlM_append]
  rfl

/-- The events of others leave the automaton where it is. -/
theorem follow_others (h : ∀ e ∈ l, of e ≠ key) : follow next of s key l = some s := by
  have hnil : (l.filter fun e => of e = key) = [] := by
    rw [List.filter_eq_nil_iff]
    exact fun e he => by simpa using h e he
  unfold follow
  rw [hnil]
  rfl

theorem follow_single (h : of e = key) : follow next of s key [e] = next s e := by
  have hone : ([e].filter fun e => of e = key) = [e] := by
    rw [List.filter_eq_self]
    exact List.forall_mem_singleton.2 (decide_eq_true h)
  unfold follow
  rw [hone, List.foldlM_cons]
  exact bind_pure _

/-- **Induction along a log that the automaton allows.** -/
theorem follow_induction {P : σ → List ε → Prop} (h0 : P s₀ [])
    (hother : ∀ s log e, of e ≠ key → P s log → P s (log ++ [e]))
    (hown : ∀ s s' log e, of e = key → next s e = some s' → P s log → P s' (log ++ [e]))
    (h : follow next of s₀ key log = some s) : P s log := by
  induction log using List.reverseRecOn generalizing s with
  | nil =>
    cases h
    exact h0
  | append_singleton log e ih =>
    rw [follow_append] at h
    obtain ⟨a, ha, hs⟩ := Option.bind_eq_some_iff.1 h
    by_cases he : of e = key
    · rw [follow_single he] at hs
      exact hown a s log e he hs (ih ha)
    · rw [follow_others (by simpa using he)] at hs
      cases hs
      exact hother s log e he (ih ha)

end Follow

end Transition
