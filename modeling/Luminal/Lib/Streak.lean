import Mathlib.Data.List.Infix

/-!
# Counting since the last reset

`since reset inc os` is what a counter shows after the items `os`, when an item in `reset` sets
it to zero and any other in `inc` raises it.  The lemmas turn statements about all the values it
takes along `os` into statements about the stretches of `os` without a reset.
-/

namespace Streak

variable {α : Type*} (reset inc : α → Prop) [DecidablePred reset] [DecidablePred inc]

/-- How many items in `inc` come after the last one in `reset`. -/
def since (os : List α) : Nat :=
  os.foldl (fun k o => if reset o then 0 else if inc o then k + 1 else k) 0

@[simp] theorem since_concat (os : List α) (o : α) : since reset inc (os ++ [o]) =
    if reset o then 0 else if inc o then since reset inc os + 1 else since reset inc os := by
  unfold since
  rw [List.foldl_append, List.foldl_cons, List.foldl_nil]

variable {reset inc} {os : List α} {N : Nat}

/-- A stretch without a reset at the end is counted in full. -/
theorem countP_le_since {q : List α} (hq : q <:+ os) (hr : ∀ o ∈ q, ¬ reset o) :
    q.countP (fun o => inc o) ≤ since reset inc os := by
  induction q using List.reverseRecOn generalizing os with
  | nil => exact Nat.zero_le _
  | append_singleton q o ih =>
    obtain ⟨p, rfl⟩ := hq
    rw [← List.append_assoc, since_concat, if_neg (hr o (by simp)), List.countP_append,
      List.countP_singleton]
    have hle := ih (List.suffix_append p q) fun x hx => hr x (List.mem_append_left _ hx)
    by_cases hi : inc o
    · simp only [hi, decide_true, if_true]
      omega
    · simp only [hi, decide_false, Bool.false_eq_true, if_false]
      omega

/-- What the counter shows comes from such a stretch. -/
theorem exists_since (reset inc : α → Prop) [DecidablePred reset] [DecidablePred inc]
    (os : List α) : ∃ q, q <:+ os ∧ (∀ o ∈ q, ¬ reset o) ∧
      q.countP (fun o => inc o) = since reset inc os := by
  induction os using List.reverseRecOn with
  | nil => exact ⟨[], List.nil_suffix, by simp, rfl⟩
  | append_singleton os o ih =>
    obtain ⟨q, ⟨p, rfl⟩, hr, hc⟩ := ih
    rw [since_concat]
    by_cases ho : reset o
    · exact ⟨[], List.nil_suffix, by simp, by simp [ho]⟩
    · refine ⟨q ++ [o], ⟨p, (List.append_assoc ..).symm⟩, ?_, ?_⟩
      · intro x hx
        rcases List.mem_append.1 hx with hx | hx
        · exact hr x hx
        · rw [List.mem_singleton.1 hx]
          exact ho
      · rw [if_neg ho, List.countP_append, List.countP_singleton, hc]
        by_cases hi : inc o
        · simp [hi]
        · simp [hi]

theorem since_lt_iff : since reset inc os < N ↔
    ∀ q, q <:+ os → (∀ o ∈ q, ¬ reset o) → q.countP (fun o => inc o) < N := by
  constructor
  · intro h q hq hr
    exact (countP_le_since hq hr).trans_lt h
  · intro h
    obtain ⟨q, hq, hr, hc⟩ := exists_since reset inc os
    rw [← hc]
    exact h q hq hr

/-- **A counter stays below `N`** when no stretch without a reset raises it `N` times. -/
theorem forall_since_lt_iff : (∀ p, p <+: os → since reset inc p < N) ↔
    ∀ q, q <:+: os → (∀ o ∈ q, ¬ reset o) → q.countP (fun o => inc o) < N := by
  constructor
  · rintro h q ⟨p, r, rfl⟩ hr
    exact since_lt_iff.1 (h (p ++ q) (List.prefix_append _ r)) q (List.suffix_append p q) hr
  · intro h p hp
    exact since_lt_iff.2 fun q hq hr => h q (hq.isInfix.trans hp.isInfix) hr

variable {reset' : α → Prop} [DecidablePred reset']

/-- **Two counters agree all along** when the one that is reset less often is at zero whenever
only the other is reset. -/
theorem forall_since_eq_iff (hsub : ∀ o, reset o → reset' o) (hinc : ∀ o, reset' o → ¬ inc o) :
    (∀ p, p <+: os → since reset inc p = since reset' inc p) ↔
    ∀ q o, q ++ [o] <:+: os → reset' o → ¬ reset o → (∀ x ∈ q, ¬ reset x) → ∀ x ∈ q, ¬ inc x := by
  constructor
  · rintro h q o ⟨p, r, rfl⟩ ho' ho hr x hx hi
    have heq := h (p ++ (q ++ [o])) (List.prefix_append _ r)
    rw [← List.append_assoc, since_concat, since_concat, if_neg ho, if_pos ho',
      if_neg (hinc o ho')] at heq
    have hle : q.countP (fun o => inc o) ≤ since reset inc (p ++ q) :=
      countP_le_since (List.suffix_append p q) hr
    have hpos : 0 < q.countP (fun o => inc o) := List.countP_pos_iff.2 ⟨x, hx, by simpa using hi⟩
    omega
  · intro h p hp
    induction p using List.reverseRecOn with
    | nil => rfl
    | append_singleton p o ih =>
      have heq := ih ((List.prefix_append p [o]).trans hp)
      rw [since_concat, since_concat]
      by_cases ho : reset o
      · rw [if_pos ho, if_pos (hsub o ho)]
      · by_cases ho' : reset' o
        · -- the window since the last reset holds nothing that counts
          rw [if_neg ho, if_pos ho']
          obtain ⟨q, hq, hr, hc⟩ := exists_since reset inc p
          have hinf : q ++ [o] <:+: os := by
            obtain ⟨r, rfl⟩ := hq
            refine (List.IsSuffix.isInfix ⟨r, ?_⟩).trans hp.isInfix
            rw [List.append_assoc]
          have hzero : since reset inc p = 0 := by
            rw [← hc, List.countP_eq_zero]
            intro x hx
            simpa using h q o hinf ho' ho hr x hx
          rw [if_neg (hinc o ho'), hzero]
        · rw [if_neg ho, if_neg ho', heq]

end Streak
