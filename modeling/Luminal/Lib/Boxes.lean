import Mathlib.Data.List.AList
import Mathlib.Data.List.Perm.Subperm

/-!
# Boxes and their owners

A heap is a finite map from addresses to what the box there contains.  `Owned s ws` says that
each of the pointers `ws` is the only one of them to its box, which is allocated: whoever holds
one may free the box, once.  Handing a pointer to nobody leaves a box without owner (`Owned.erase`),
and when there are as many boxes as pointers each box has its owner (`Owned.perm`).
-/

namespace Boxes

open AList

universe u v

variable {A : Type u} {B : Type v}

/-- Boxes with contents `B` at addresses `A`. -/
abbrev Heap (A : Type u) (B : Type v) : Type (max u v) := AList fun _ : A => B

variable {s : Heap A B} {ws : List A} {a : A} {b : B}

/-- The boxes whose contents satisfy `p`. -/
def boxes (p : B → Bool) (s : Heap A B) : Nat := s.entries.countP fun e => p e.2

/-- The pointers are distinct, and what they point to is allocated. -/
structure Owned (s : Heap A B) (ws : List A) : Prop where
  nodup : ws.Nodup
  mem : ∀ a ∈ ws, a ∈ s

namespace Owned

theorem nil : Owned s [] := ⟨List.nodup_nil, nofun⟩

theorem subset (h : Owned s ws) : ws ⊆ s.keys := fun a ha => AList.mem_keys.1 (h.mem a ha)

/-- As many boxes as pointers: each box has its owner. -/
theorem perm (h : Owned s ws) (hlen : s.keys.length = ws.length) : ws.Perm s.keys :=
  (List.subperm_of_subset h.nodup h.subset).perm_of_length_le (Nat.le_of_eq hlen)

end Owned

variable [DecidableEq A]

/-- How many of the pointers lead to a box whose contents satisfy `p`. -/
def pointers (p : B → Bool) (s : Heap A B) (ws : List A) : Nat :=
  ws.countP fun a => (s.lookup a).any p

theorem keys_insert (ha : a ∉ s) : (s.insert a b).keys = a :: s.keys := by
  rw [AList.keys_insert, List.erase_of_not_mem (mt AList.mem_keys.2 ha)]

theorem length_keys_erase (ha : a ∈ s) : (s.erase a).keys.length + 1 = s.keys.length := by
  rw [AList.keys_erase, List.length_erase_add_one (AList.mem_keys.1 ha)]

theorem entries_perm_erase (h : s.lookup a = some b) :
    s.entries.Perm (⟨a, b⟩ :: (s.erase a).entries) := by
  have ha : a ∈ s.entries.keys := by
    rw [← AList.keys, ← AList.mem_keys, ← AList.lookup_isSome, h]
    rfl
  obtain ⟨b', l₁, l₂, -, hl, hk⟩ := List.exists_of_kerase ha
  have hb : b' = b := by
    have hmem : b' ∈ s.lookup a := AList.mem_lookup_iff.2 (by rw [hl]; simp)
    rw [h, Option.mem_some_iff] at hmem
    exact hmem.symm
  subst hb
  show s.entries.Perm (⟨a, b'⟩ :: List.kerase a s.entries)
  rw [hk]
  nth_rewrite 1 [hl]
  exact List.perm_middle

variable (p : B → Bool)

theorem boxes_insert (ha : a ∉ s) :
    boxes p (s.insert a b) = boxes p s + if p b then 1 else 0 := by
  unfold boxes
  rw [AList.entries_insert_of_notMem ha, List.countP_cons]

theorem boxes_erase (h : s.lookup a = some b) :
    boxes p s = boxes p (s.erase a) + if p b then 1 else 0 := by
  unfold boxes
  rw [(entries_perm_erase h).countP_eq, List.countP_cons]

/-- Each box has one address. -/
theorem pointers_keys : pointers p s s.keys = boxes p s := by
  unfold pointers boxes
  rw [AList.keys, List.keys, List.countP_map]
  refine List.countP_congr fun e he => ?_
  have hlookup : s.lookup e.1 = some e.2 := AList.mem_lookup_iff.2 he
  rw [Function.comp_apply, hlookup, Option.any_some]

variable {p}

namespace Owned

theorem lookup (h : Owned s ws) (ha : a ∈ ws) : ∃ b, s.lookup a = some b :=
  Option.isSome_iff_exists.1 (AList.lookup_isSome.2 (h.mem a ha))

/-- `Box::new` -/
theorem insert (h : Owned s ws) (ha : a ∉ s) : Owned (s.insert a b) (a :: ws) where
  nodup := List.nodup_cons.2 ⟨fun hw => ha (h.mem a hw), h.nodup⟩
  mem a' ha' := by
    rw [AList.mem_insert]
    rcases List.mem_cons.1 ha' with rfl | hw
    · exact Or.inl rfl
    · exact Or.inr (h.mem a' hw)

/-- The owner of a box frees it. -/
theorem free (h : Owned s ws) : Owned (s.erase a) (ws.erase a) where
  nodup := h.nodup.erase a
  mem a' ha' := by
    rw [h.nodup.mem_erase_iff] at ha'
    exact AList.mem_erase.2 ⟨ha'.1, h.mem a' ha'.2⟩

/-- A pointer is forgotten. -/
theorem erase (h : Owned s ws) : Owned s (ws.erase a) where
  nodup := h.nodup.erase a
  mem a' ha' := h.mem a' (List.mem_of_mem_erase ha')

end Owned

end Boxes
