import Mathlib.Data.List.Basic
import Mathlib.Data.List.Chain

/-!
# Round-robin on a FIFO queue

Customers arrive at the back of a queue.  The server takes the one at the front, and the
one it has taken goes to the back again or leaves.  `Replays ops q` says that the operations
`ops`, in this order, are those of such a server and end with queue `q`.

The order of service is no choice of the server: `order` computes it from the arrivals
and the outcomes alone, and every sequence of operations that replays serves in that order
(`Replays.taken_eq`), whenever the customers are taken.  Two customers that stay are served in
turn (`InTurn`).
-/

namespace Fifo

variable {α β : Type*}

inductive Op (α : Type*) where
  | arrive (x : α)
  | take (x : α)
  | back (x : α)
  | leave (x : α)

/-- Those who wait, the front first, and the one being served. -/
structure Queue (α : Type*) where
  waiting : List α
  inHand : Option α

/-- Started empty, the operations lead to this queue. -/
inductive Replays : List (Op α) → Queue α → Prop
  | nil : Replays [] ⟨[], none⟩
  | arrive {ops : List (Op α)} {w : List α} {h : Option α} (x : α) :
      Replays ops ⟨w, h⟩ → Replays (ops ++ [.arrive x]) ⟨w ++ [x], h⟩
  | take {ops : List (Op α)} {x : α} {w : List α} :
      Replays ops ⟨x :: w, none⟩ → Replays (ops ++ [.take x]) ⟨w, some x⟩
  | back {ops : List (Op α)} {w : List α} {x : α} :
      Replays ops ⟨w, some x⟩ → Replays (ops ++ [.back x]) ⟨w ++ [x], none⟩
  | leave {ops : List (Op α)} {w : List α} {x : α} :
      Replays ops ⟨w, some x⟩ → Replays (ops ++ [.leave x]) ⟨w, none⟩

/-- Those who arrived, in order. -/
def arrived (ops : List (Op α)) : List α :=
  ops.filterMap fun
    | .arrive x => some x
    | _ => none

/-- Those who were served, in order. -/
def taken (ops : List (Op α)) : List α :=
  ops.filterMap fun
    | .take x => some x
    | _ => none

/-- What the server has no say in. -/
inductive Input where
  | arrive
  | back
  | leave
  deriving DecidableEq

def inputs (ops : List (Op α)) : List Input :=
  ops.filterMap fun
    | .arrive _ => some .arrive
    | .take _ => none
    | .back _ => some .back
    | .leave _ => some .leave

/-- The order in which the queue is joined, customers named by the number of their arrival. -/
structure Order where
  joined : List Nat
  arrivals : Nat
  served : Nat

/-- The `served`-th of those who joined is the next whose service ends. -/
def Order.next (o : Order) : Input → Order
  | .arrive => { o with joined := o.joined ++ [o.arrivals], arrivals := o.arrivals + 1 }
  | .back => { o with joined := o.joined ++ o.joined[o.served]?.toList, served := o.served + 1 }
  | .leave => { o with served := o.served + 1 }

def order (is : List Input) : Order := is.foldl Order.next ⟨[], 0, 0⟩

@[simp] theorem order_append (is : List Input) (i : Input) :
    order (is ++ [i]) = (order is).next i := by
  simp [order]

/-- **Operations that replay serve in the order of joining.** -/
structure InOrder (ops : List (Op α)) (q : Queue α) : Prop where
  arrivals : (order (inputs ops)).arrivals = (arrived ops).length
  joined : (order (inputs ops)).joined.map (fun i => (arrived ops)[i]?) =
    (taken ops ++ q.waiting).map some
  served : (taken ops).length = (order (inputs ops)).served + q.inHand.toList.length
  inHand : ∀ x ∈ q.inHand, (taken ops)[(order (inputs ops)).served]? = some x

theorem Replays.inOrder {ops : List (Op α)} {q : Queue α} (h : Replays ops q) : InOrder ops q := by
  induction h with
  | nil => exact ⟨rfl, rfl, rfl, nofun⟩
  | @arrive ops w h x hr ih =>
    obtain ⟨h1, h2, h3, h4⟩ := ih
    have hin : inputs (ops ++ [.arrive x]) = inputs ops ++ [.arrive] := by simp [inputs]
    have harr : arrived (ops ++ [.arrive x]) = arrived ops ++ [x] := by simp [arrived]
    have htak : taken (ops ++ [.arrive x]) = taken ops := by simp [taken]
    refine ⟨?_, ?_, ?_, ?_⟩ <;> rw [hin, order_append]
    · simp [Order.next, harr, h1]
    · have hlt : ∀ i ∈ (order (inputs ops)).joined, i < (arrived ops).length := by
        intro i hi
        have : (arrived ops)[i]? ∈ (taken ops ++ w).map some :=
          h2 ▸ List.mem_map_of_mem (f := fun i => (arrived ops)[i]?) hi
        obtain ⟨y, -, hy⟩ := List.mem_map.1 this
        exact (List.getElem?_eq_some_iff.1 hy.symm).1
      simp only [Order.next, List.map_append, List.map_cons, List.map_nil, harr, htak, h1]
      rw [List.getElem?_concat_length, ← List.append_assoc, ← List.map_append, ← h2]
      congr 1
      refine List.map_congr_left fun i hi => ?_
      rw [List.getElem?_append_left (hlt i hi)]
    · simpa [Order.next, htak] using h3
    · simpa [Order.next, htak] using h4
  | @take ops x w hr ih =>
    obtain ⟨h1, h2, h3, h4⟩ := ih
    have hin : inputs (ops ++ [.take x]) = inputs ops := by simp [inputs]
    have harr : arrived (ops ++ [.take x]) = arrived ops := by simp [arrived]
    have htak : taken (ops ++ [.take x]) = taken ops ++ [x] := by simp [taken]
    have hlen : (taken ops).length = (order (inputs ops)).served := by simpa using h3
    refine ⟨?_, ?_, ?_, ?_⟩ <;> rw [hin]
    · rw [harr, h1]
    · rw [harr, htak, h2]
      simp
    · simp [htak, hlen]
    · intro y hy
      cases hy
      rw [htak, ← hlen]
      simp
  | @back ops w x hr ih =>
    obtain ⟨h1, h2, h3, h4⟩ := ih
    have hin : inputs (ops ++ [.back x]) = inputs ops ++ [.back] := by simp [inputs]
    have harr : arrived (ops ++ [.back x]) = arrived ops := by simp [arrived]
    have htak : taken (ops ++ [.back x]) = taken ops := by simp [taken]
    -- the one in hand is the next in the order of joining
    obtain ⟨i, hi, hx⟩ : ∃ i, (order (inputs ops)).joined[(order (inputs ops)).served]? = some i ∧
        (arrived ops)[i]? = some x := by
      have hsome : ((order (inputs ops)).joined.map fun i => (arrived ops)[i]?)[
          (order (inputs ops)).served]? = some (some x) := by
        rw [h2, List.getElem?_map, List.getElem?_append_left, h4 x rfl]
        · rfl
        · have := h4 x rfl
          exact (List.getElem?_eq_some_iff.1 this).1
      rw [List.getElem?_map] at hsome
      obtain ⟨i, hi, hx⟩ := Option.map_eq_some_iff.1 hsome
      exact ⟨i, hi, hx⟩
    refine ⟨?_, ?_, ?_, nofun⟩ <;> rw [hin, order_append]
    · rw [harr, ← h1]
      rfl
    · simp only [Order.next, hi, Option.toList_some, List.map_append, harr, htak, h2, List.map_cons,
        List.map_nil, hx, List.append_assoc]
    · simpa [Order.next, htak] using h3
  | @leave ops w x hr ih =>
    obtain ⟨h1, h2, h3, h4⟩ := ih
    have hin : inputs (ops ++ [.leave x]) = inputs ops ++ [.leave] := by simp [inputs]
    have harr : arrived (ops ++ [.leave x]) = arrived ops := by simp [arrived]
    have htak : taken (ops ++ [.leave x]) = taken ops := by simp [taken]
    refine ⟨?_, ?_, ?_, nofun⟩ <;> rw [hin, order_append]
    · rw [harr, ← h1]
      rfl
    · rw [harr, htak, ← h2]
      rfl
    · simpa [Order.next, htak] using h3

/-- **The order of service**: the customers taken are those that joined first, as many as have
been taken. -/
theorem Replays.taken_eq {ops : List (Op α)} {q : Queue α} (h : Replays ops q) :
    (taken ops).map some <+: (order (inputs ops)).joined.map fun i => (arrived ops)[i]? := by
  rw [h.inOrder.joined, List.map_append]
  exact List.prefix_append _ _

/-- Two servers with the same arrivals and outcomes serve corresponding customers in the same
order. -/
theorem Replays.same_order {ops : List (Op α)} {ops' : List (Op β)} {q : Queue α} {q' : Queue β}
    (h : Replays ops q) (h' : Replays ops' q') (hin : inputs ops = inputs ops') :
    ∃ is : List Nat, (taken ops).map some <+: is.map (fun i => (arrived ops)[i]?) ∧
      (taken ops').map some <+: is.map (fun i => (arrived ops')[i]?) ∧
      (taken ops).length + q'.inHand.toList.length =
        (taken ops').length + q.inHand.toList.length := by
  refine ⟨(order (inputs ops)).joined, h.taken_eq, hin ▸ h'.taken_eq, ?_⟩
  have h1 := h.inOrder.served
  have h2 := h'.inOrder.served
  rw [← hin] at h2
  omega

/-! ## Two customers that stay -/

section Turns

variable [DecidableEq α] {a b : α} {served line : List α}

/-- Of those served, in order, only `a` and `b`. -/
def only (a b : α) (served : List α) : List α := served.filter fun x => x = a ∨ x = b

/-- `a` and `b` are served in turn, and the one served last has the other before it in the line,
the one being served at its end. -/
structure InTurn (a b : α) (served line : List α) : Prop where
  alternate : (only a b served).IsChain (· ≠ ·)
  waiting : a ∈ line ∧ b ∈ line
  next : ∀ x ∈ (only a b served).getLast?, ∀ y, y = a ∨ y = b → y ≠ x → [y, x].Sublist line

theorem InTurn.nil (ha : a ∈ line) (hb : b ∈ line) : InTurn a b [] line :=
  ⟨List.isChain_nil, ⟨ha, hb⟩, nofun⟩

/-- What keeps `a`, `b` and their order keeps their turns. -/
theorem InTurn.sub {line' : List α} (h : InTurn a b served line) (hab : a ∈ line' ∧ b ∈ line')
    (hsub : ∀ x y, x = a ∨ x = b → y = a ∨ y = b → [y, x].Sublist line → [y, x].Sublist line') :
    InTurn a b served line' := by
  refine ⟨h.alternate, hab, fun x hx y hy hne => ?_⟩
  have hmem : x ∈ only a b served := List.mem_of_getLast? hx
  have hxab : x = a ∨ x = b := by simpa using (List.mem_filter.1 hmem).2
  exact hsub x y hxab hy (h.next x hx y hy hne)

/-- The one at the front is served next and goes to the end of the line. -/
theorem InTurn.take {c : α} {q : List α} (h : InTurn a b served (c :: q)) (hab : a ≠ b)
    (hnodup : (c :: q).Nodup) : InTurn a b (served ++ [c]) (q ++ [c]) := by
  have hc : c ∉ q := (List.nodup_cons.1 hnodup).1
  have hmem : ∀ {x : α}, x ∈ c :: q → x ∈ q ++ [c] := fun hx => by
    rw [List.mem_append, List.mem_singleton]
    exact (List.mem_cons.1 hx).symm
  have hwait : a ∈ q ++ [c] ∧ b ∈ q ++ [c] := ⟨hmem h.waiting.1, hmem h.waiting.2⟩
  have hrest : ∀ {x y : α}, y ≠ c → [y, x].Sublist (c :: q) → [y, x].Sublist q := fun hy hs =>
    (List.cons_sublist_cons'.1 hs).resolve_right fun hs => hy hs.1
  by_cases hcab : c = a ∨ c = b
  · have honly : only a b (served ++ [c]) = only a b served ++ [c] := by
      simp [only, List.filter_append, hcab]
    refine ⟨?_, hwait, fun x hx y hy hne => ?_⟩
    · rw [honly, List.isChain_append]
      refine ⟨h.alternate, List.isChain_singleton c, fun x hx y hy heq => ?_⟩
      -- `c` again would need the other one to be before it, and `c` is at the front
      cases Option.some.inj hy
      subst heq
      obtain ⟨d, hd, hne⟩ : ∃ d, (d = a ∨ d = b) ∧ d ≠ x := by
        rcases hcab with rfl | rfl
        · exact ⟨b, Or.inr rfl, hab.symm⟩
        · exact ⟨a, Or.inl rfl, hab⟩
      have hsub := hrest hne (h.next x hx d hd hne)
      exact hc (hsub.subset (List.mem_cons_of_mem _ List.mem_cons_self))
    · rw [honly, List.getLast?_concat] at hx
      cases hx
      have hyq : y ∈ q := by
        have hline : y ∈ c :: q := by
          rcases hy with rfl | rfl
          · exact h.waiting.1
          · exact h.waiting.2
        exact (List.mem_cons.1 hline).resolve_left hne
      exact (List.singleton_sublist.2 hyq).append (List.Sublist.refl [c])
  · have honly : only a b (served ++ [c]) = only a b served := by
      simp [only, List.filter_append, hcab]
    refine ⟨honly ▸ h.alternate, hwait, fun x hx y hy hne => ?_⟩
    rw [honly] at hx
    have hyc : y ≠ c := fun heq => hcab (heq ▸ hy)
    exact (hrest hyc (h.next x hx y hy hne)).trans (List.sublist_append_left q [c])

/-- Someone else leaves at the end of the line. -/
theorem InTurn.leave {c : α} {q : List α} (h : InTurn a b served (q ++ [c])) (ha : c ≠ a)
    (hb : c ≠ b) : InTurn a b served q := by
  have hmem : ∀ {x : α}, x ∈ q ++ [c] → x ≠ c → x ∈ q := fun hx hne =>
    (List.mem_append.1 hx).resolve_right fun hx => hne (List.mem_singleton.1 hx)
  refine h.sub ⟨hmem h.waiting.1 ha.symm, hmem h.waiting.2 hb.symm⟩ fun x y hx hy hs => ?_
  have hne : ∀ {z : α}, z = a ∨ z = b → z ≠ c := by
    rintro z (rfl | rfl)
    · exact ha.symm
    · exact hb.symm
  have hfilter := hs.filter fun z => z ≠ c
  simp only [List.filter_append, List.filter_cons, hne hx, hne hy, ne_eq, not_false_eq_true,
    decide_true, if_true, List.filter_nil, not_true_eq_false, decide_false, Bool.false_eq_true,
    if_false, List.append_nil] at hfilter
  exact hfilter.trans List.filter_sublist

/-- Someone else comes in anywhere. -/
theorem InTurn.insert {c : α} {q r : List α} (h : InTurn a b served (q ++ r)) :
    InTurn a b served (q ++ c :: r) := by
  have hsub : (q ++ r).Sublist (q ++ c :: r) :=
    (List.Sublist.refl q).append (List.sublist_cons_self c r)
  exact h.sub ⟨hsub.subset h.waiting.1, hsub.subset h.waiting.2⟩ fun x y _ _ hs => hs.trans hsub

end Turns

end Fifo
