import Mathlib.Data.List.Count

/-!
# A cell with borrow flags

`RefCell` counts the shared borrows of its value and marks an exclusive one; a borrow that would
make the exclusive one share fails.  `Counts` says that the flags of a cell are those of the
guards that exist.  As long as it holds, a shared borrow fails only while an exclusive guard
exists, an exclusive one only while any guard does, and with the guards go their flags.
-/

universe u

/-- A `RefCell`, with its `Ref`s counted and its `RefMut` marked. -/
structure RefCell (α : Type u) where
  value : α
  borrows : Nat
  writing : Bool

namespace RefCell

variable {α : Type u}

inductive BorrowError where
  /-- "already mutably borrowed" -/
  | borrow
  /-- "already borrowed" -/
  | borrowMut
  deriving DecidableEq

inductive Guard where
  | ref
  | refMut
  deriving DecidableEq

def new (a : α) : RefCell α := ⟨a, 0, false⟩

def borrow (c : RefCell α) : Except BorrowError (RefCell α) :=
  if c.writing then .error .borrow else .ok { c with borrows := c.borrows + 1 }

def borrowMut (c : RefCell α) : Except BorrowError (RefCell α) :=
  if c.writing = true ∨ c.borrows ≠ 0 then .error .borrowMut else .ok { c with writing := true }

/-- A `Ref` goes. -/
def dropRef (c : RefCell α) : RefCell α := { c with borrows := c.borrows - 1 }

/-- The `RefMut` goes. -/
def dropRefMut (c : RefCell α) : RefCell α := { c with writing := false }

/-- Through the `RefMut`. -/
def set (c : RefCell α) (a : α) : RefCell α := { c with value := a }

@[simp] theorem dropRef_value (c : RefCell α) : c.dropRef.value = c.value := rfl

/-- The flags are those of the guards `gs`; an exclusive one is alone. -/
structure Counts (c : RefCell α) (gs : List Guard) : Prop where
  borrows : c.borrows = gs.count .ref
  writing : c.writing = true ↔ .refMut ∈ gs
  alone : .refMut ∈ gs → gs = [.refMut]

namespace Counts

variable {c : RefCell α} {gs : List Guard}

theorem new (a : α) : Counts (.new a) [] := ⟨rfl, by simp [RefCell.new], nofun⟩

/-- Borrowed shared and exclusively at once: never. -/
theorem exclusive (h : Counts c gs) (hw : c.writing = true) : c.borrows = 0 := by
  rw [h.borrows, h.alone (h.writing.1 hw)]
  rfl

/-- Without guards the cell is free. -/
theorem free (h : Counts c []) : c.borrows = 0 ∧ c.writing = false := by
  refine ⟨h.borrows, ?_⟩
  by_contra hw
  rw [Bool.not_eq_false] at hw
  exact absurd (h.writing.1 hw) List.not_mem_nil

theorem borrow (h : Counts c gs) (hm : .refMut ∉ gs) :
    c.borrow = .ok { c with borrows := c.borrows + 1 } ∧
      Counts { c with borrows := c.borrows + 1 } (.ref :: gs) := by
  refine ⟨if_neg (mt h.writing.1 hm), ?_, ?_, ?_⟩
  · rw [List.count_cons_self, ← h.borrows]
  · rw [List.mem_cons, or_iff_right (by decide)]
    exact h.writing
  · intro hmem
    rw [List.mem_cons, or_iff_right (by decide)] at hmem
    exact absurd hmem hm

theorem borrowMut (h : Counts c []) :
    c.borrowMut = .ok { c with writing := true } ∧ Counts { c with writing := true } [.refMut] := by
  obtain ⟨hb, hw⟩ := h.free
  refine ⟨if_neg ?_, hb, by simp, fun _ => rfl⟩
  rw [hw, hb]
  decide

theorem dropRef (h : Counts c (.ref :: gs)) : Counts c.dropRef gs := by
  have hm : .refMut ∉ gs := fun hmem => by
    cases h.alone (List.mem_cons_of_mem _ hmem)
  refine ⟨?_, ?_, fun hmem => absurd hmem hm⟩
  · show c.borrows - 1 = _
    rw [h.borrows, List.count_cons_self, Nat.add_sub_cancel]
  · show c.writing = true ↔ _
    rw [h.writing, List.mem_cons, or_iff_right (by decide)]

theorem dropRefMut (h : Counts c [.refMut]) : Counts c.dropRefMut [] :=
  ⟨h.borrows, by simp [RefCell.dropRefMut], nofun⟩

theorem set (h : Counts c gs) (a : α) : Counts (c.set a) gs := ⟨h.borrows, h.writing, h.alone⟩

end Counts

end RefCell
