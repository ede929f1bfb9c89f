import Luminal.Lib.Boxes
import Luminal.Lib.Transition
import Luminal.Task
import Mathlib.Logic.Function.Basic

/-!
# Task wakers

`create_task_waker` and the four functions of its vtable (`runtime/waker.rs`) on the heap of
`WakerData` boxes and the strong counts of the queues.  The std and the no_std version differ in
the type of the queue only, here `Q`.  A `Waker` is its data pointer.  `Waker::wake` consumes the
waker and calls the `wake` of the vtable, which does nothing, and not its `drop`: box and
reference stay for ever.

Boxes and references balance with the wakers exactly as long as no waker is woken by value
(`resources_balance_iff`); each `wake` leaks one box (`leaked_of_run`).  No operation faults.
-/

namespace Luminal.Waker

open Function Transition Boxes

variable {Q : Type}

/-- `struct WakerData`; `globalQueue` is the queue that the `Arc` refers to. -/
structure WakerData (Q : Type) where
  taskId : TaskId
  globalQueue : Q

/-- `mem::align_of::<WakerData>()`, by `#[repr(C, align(8))]`. -/
def align : Nat := 8

/-- The boxes, and the strong count of every queue. -/
structure Memory (Q : Type) where
  heap : Heap Nat (WakerData Q)
  strong : Q → Nat

/-- A failed assertion, or undefined behaviour. -/
inductive Fault where
  | panic (message : String)
  | useAfterFree
  | doubleFree

namespace Memory

/-- The addresses that `Box::new` returns. -/
def Free (m : Memory Q) (data : Nat) : Prop := data ≠ 0 ∧ data % align = 0 ∧ data ∉ m.heap

/-- `Box::into_raw(Box::new(waker_data))` -/
def boxNew (m : Memory Q) (data : Nat) (wakerData : WakerData Q) : Memory Q :=
  { m with heap := m.heap.insert data wakerData }

variable [DecidableEq Q]

def arcClone (m : Memory Q) (q : Q) : Memory Q :=
  { m with strong := update m.strong q (m.strong q + 1) }

def arcDrop (m : Memory Q) (q : Q) : Memory Q :=
  { m with strong := update m.strong q (m.strong q - 1) }

end Memory

/-! ## The vtable -/

namespace VTable

def clone [DecidableEq Q] (m : Memory Q) (data cloned : Nat) :
    Except Fault (Memory Q × Nat) :=
  if data % align ≠ 0 then .error (.panic "Misaligned WakerData pointer in clone")
  else match m.heap.lookup data with
    | none => .error .useAfterFree
    | some wakerData =>
      .ok ((m.arcClone wakerData.globalQueue).boxNew cloned
        ⟨wakerData.taskId, wakerData.globalQueue⟩, cloned)

/-- "Wake by re-queueing - task should already be queued" -/
def wake (m : Memory Q) (_data : Nat) : Memory Q := m

/-- "Wake by ref - task should already be queued" -/
def wakeByRef (m : Memory Q) (_data : Nat) : Memory Q := m

/-- `Box::from_raw(data)`, dropped. -/
def drop [DecidableEq Q] (m : Memory Q) (data : Nat) : Except Fault (Memory Q) :=
  if data = 0 then .ok m
  else if data % align ≠ 0 then .error (.panic "Misaligned WakerData pointer in drop")
  else match m.heap.lookup data with
    | none => .error .doubleFree
    | some wakerData =>
      .ok ({ m with heap := m.heap.erase data }.arcDrop wakerData.globalQueue)

end VTable

def createTaskWaker (m : Memory Q) (taskId : TaskId) (globalQueue : Q) (data : Nat) :
    Except Fault (Memory Q × Nat) :=
  if data % align ≠ 0 then .error (.panic "Misaligned WakerData pointer")
  else .ok (m.boxNew data ⟨taskId, globalQueue⟩, data)

/-! ## Operations on wakers -/

/-- The memory and the wakers that exist. -/
structure State (Q : Type) where
  memory : Memory Q
  wakers : List Nat

inductive Op (Q : Type) where
  /-- `create_task_waker(task_id, global_queue.clone())`, with the address of the new box -/
  | create (taskId : TaskId) (globalQueue : Q) (data : Nat)
  | clone (waker cloned : Nat)
  | wake (waker : Nat)
  | wakeByRef (waker : Nat)
  | drop (waker : Nat)

/-- The waker exists, and the allocator keeps its promise. -/
def Op.Possible (s : State Q) : Op Q → Prop
  | .create _ _ data => s.memory.Free data
  | .clone w cloned => w ∈ s.wakers ∧ s.memory.Free cloned
  | .wake w => w ∈ s.wakers
  | .wakeByRef w => w ∈ s.wakers
  | .drop w => w ∈ s.wakers

namespace State

/-- No wakers yet; `others` are the references that others have to the queues. -/
def init (others : Q → Nat) : State Q := ⟨⟨∅, others⟩, []⟩

variable [DecidableEq Q]

def perform (s : State Q) : Op Q → Except Fault (State Q)
  | .create taskId q data => do
    let (m, waker) ← createTaskWaker (s.memory.arcClone q) taskId q data
    return ⟨m, waker :: s.wakers⟩
  | .clone w cloned => do
    let (m, waker) ← VTable.clone s.memory w cloned
    return ⟨m, waker :: s.wakers⟩
  | .wake w => .ok ⟨VTable.wake s.memory w, s.wakers.erase w⟩
  | .wakeByRef w => .ok ⟨VTable.wakeByRef s.memory w, s.wakers⟩
  | .drop w => do
    let m ← VTable.drop s.memory w
    return ⟨m, s.wakers.erase w⟩

end State

/-- An operation without a fault. -/
def Step [DecidableEq Q] (s : State Q) (op : Op Q) (s' : State Q) : Prop :=
  op.Possible s ∧ s.perform op = .ok s'

/-! ## The books -/

variable [DecidableEq Q]

def WakerData.refersTo (q : Q) (d : WakerData Q) : Bool := d.globalQueue = q

namespace State

/-- One box for each waker, and one reference to its queue; nothing when there are no wakers. -/
structure Balanced (others : Q → Nat) (s : State Q) : Prop where
  boxes : s.memory.heap.keys.length = s.wakers.length
  references : ∀ q, s.memory.strong q =
    others q + pointers (WakerData.refersTo q) s.memory.heap s.wakers

/-- No operation can panic, read a freed box or free one again. -/
def Faultless (s : State Q) : Prop := ∀ op : Op Q, op.Possible s → ∃ s', s.perform op = .ok s'

/-- What holds in every run. -/
structure Consistent (others : Q → Nat) (s : State Q) : Prop where
  owned : Owned s.memory.heap s.wakers
  valid : ∀ data ∈ s.memory.heap, data ≠ 0 ∧ data % align = 0
  counted : ∀ q, s.memory.strong q = others q + boxes (WakerData.refersTo q) s.memory.heap

end State

/-- What the operations do when nothing faults. -/
inductive Effect (s : State Q) : Op Q → State Q → Prop
  | create {taskId : TaskId} {q : Q} {data : Nat} : s.memory.Free data →
      Effect s (.create taskId q data)
        ⟨(s.memory.arcClone q).boxNew data ⟨taskId, q⟩, data :: s.wakers⟩
  | clone {w cloned : Nat} {d : WakerData Q} :
      s.memory.heap.lookup w = some d → s.memory.Free cloned →
      Effect s (.clone w cloned)
        ⟨(s.memory.arcClone d.globalQueue).boxNew cloned d, cloned :: s.wakers⟩
  | wake {w : Nat} : w ∈ s.wakers → Effect s (.wake w) ⟨s.memory, s.wakers.erase w⟩
  | wakeByRef {w : Nat} : Effect s (.wakeByRef w) s
  | drop {w : Nat} {d : WakerData Q} : w ∈ s.wakers → s.memory.heap.lookup w = some d →
      Effect s (.drop w)
        ⟨{ s.memory with heap := s.memory.heap.erase w }.arcDrop d.globalQueue, s.wakers.erase w⟩

section Operations

variable {others : Q → Nat} {s s' : State Q} {op : Op Q}

theorem perform_effect (h : s.Consistent others) (hop : op.Possible s) :
    ∃ s', s.perform op = .ok s' ∧ Effect s op s' := by
  -- the pointer of a waker that exists passes the checks
  have hread : ∀ w ∈ s.wakers, ∃ d, s.memory.heap.lookup w = some d ∧ w ≠ 0 ∧ w % align = 0 := by
    intro w hw
    obtain ⟨d, hd⟩ := h.owned.lookup hw
    exact ⟨d, hd, h.valid w (h.owned.mem w hw)⟩
  cases op with
  | create taskId q data =>
    refine ⟨_, ?_, .create hop⟩
    simp only [State.perform, createTaskWaker, if_neg (not_not.2 hop.2.1)]
    rfl
  | clone w cloned =>
    obtain ⟨d, hd, h0, halign⟩ := hread w hop.1
    refine ⟨_, ?_, .clone hd hop.2⟩
    simp only [State.perform, VTable.clone, if_neg (not_not.2 halign), hd]
    rfl
  | wake w => exact ⟨_, rfl, .wake hop⟩
  | wakeByRef w => exact ⟨_, rfl, .wakeByRef⟩
  | drop w =>
    obtain ⟨d, hd, h0, halign⟩ := hread w hop
    refine ⟨_, ?_, .drop hop hd⟩
    simp only [State.perform, VTable.drop, if_neg h0, if_neg (not_not.2 halign), hd]
    rfl

theorem Step.effect (hs : Step s op s') (h : s.Consistent others) : Effect s op s' := by
  obtain ⟨s₂, hperf, heff⟩ := perform_effect h hs.1
  rw [hs.2] at hperf
  cases hperf
  exact heff

theorem State.Consistent.faultless (h : s.Consistent others) : s.Faultless := fun _ hop =>
  (perform_effect h hop).imp fun _ hs => hs.1

/-- **Every operation keeps the pointers of the wakers good and the references counted.** -/
theorem Effect.consistent (he : Effect s op s') (h : s.Consistent others) :
    s'.Consistent others := by
  -- a new box for `d` at `data`
  have hnew : ∀ (data : Nat) (d : WakerData Q), s.memory.Free data →
      State.Consistent others
        ⟨(s.memory.arcClone d.globalQueue).boxNew data d, data :: s.wakers⟩ := by
    intro data d hfree
    refine ⟨h.owned.insert hfree.2.2, ?_, ?_⟩
    · intro a ha
      rcases (AList.mem_insert _).1 ha with rfl | ha
      · exact ⟨hfree.1, hfree.2.1⟩
      · exact h.valid a ha
    · intro q
      show update s.memory.strong _ _ q = others q + boxes _ (s.memory.heap.insert data d)
      rw [boxes_insert _ hfree.2.2, ← Nat.add_assoc, ← h.counted q]
      by_cases hq : d.globalQueue = q
      · subst hq
        simp [WakerData.refersTo]
      · rw [update_of_ne (Ne.symm hq)]
        simp [WakerData.refersTo, hq]
  cases he with
  | create hfree => exact hnew _ _ hfree
  | clone _ hfree => exact hnew _ _ hfree
  | wake => exact ⟨h.owned.erase, h.valid, h.counted⟩
  | wakeByRef => exact h
  | @drop w d _ hd =>
    refine ⟨h.owned.free, fun a ha => h.valid a (AList.mem_erase.1 ha).2, fun q => ?_⟩
    show update s.memory.strong _ _ q = others q + boxes _ (s.memory.heap.erase w)
    have hcount := h.counted q
    rw [boxes_erase _ hd] at hcount
    by_cases hq : d.globalQueue = q
    · subst hq
      simp only [WakerData.refersTo, decide_true, if_true] at hcount
      rw [update_self, hcount]
      rfl
    · rw [update_of_ne (Ne.symm hq), hcount]
      simp [WakerData.refersTo, hq]

/-- 1 for the operation that frees nothing of what it consumes. -/
def Op.leaks : Op Q → Nat
  | .wake _ => 1
  | _ => 0

/-- **Boxes and wakers grow and shrink together**, but for `wake`. -/
theorem Effect.length (he : Effect s op s') (h : s.Consistent others) :
    s'.memory.heap.keys.length + s.wakers.length =
      s.memory.heap.keys.length + s'.wakers.length + op.leaks := by
  cases he with
  | create hfree =>
    show (s.memory.heap.insert _ _).keys.length + _ = _ + (_ + 1) + 0
    rw [keys_insert hfree.2.2, List.length_cons]
    omega
  | clone _ hfree =>
    show (s.memory.heap.insert _ _).keys.length + _ = _ + (_ + 1) + 0
    rw [keys_insert hfree.2.2, List.length_cons]
    omega
  | @wake w hw =>
    show _ = _ + (s.wakers.erase w).length + 1
    rw [Nat.add_assoc, List.length_erase_add_one hw]
  | wakeByRef => rfl
  | @drop w d hw hd =>
    have hlen : (s.memory.heap.erase w).keys.length + 1 = s.memory.heap.keys.length :=
      length_keys_erase (h.owned.mem w hw)
    have hwakers : (s.wakers.erase w).length + 1 = s.wakers.length :=
      List.length_erase_add_one hw
    show (s.memory.heap.erase w).keys.length + _ = _ + (s.wakers.erase w).length + 0
    omega

/-- As many boxes as wakers: the references follow. -/
theorem balanced_iff_length (h : s.Consistent others) :
    s.Balanced others ↔ s.memory.heap.keys.length = s.wakers.length := by
  refine ⟨State.Balanced.boxes, fun hlen => ⟨hlen, fun q => ?_⟩⟩
  rw [h.counted q, ← pointers_keys]
  exact congrArg _ ((h.owned.perm hlen).symm.countP_eq _)

/-- When all wakers are gone, all boxes are freed and the others' references are left. -/
theorem State.Balanced.released (h : s.Balanced others) (hw : s.wakers = []) :
    s.memory.heap.keys = [] ∧ s.memory.strong = others := by
  refine ⟨List.length_eq_zero_iff.1 (h.boxes.trans (by rw [hw]; rfl)), ?_⟩
  funext q
  rw [h.references q, hw]
  rfl

end Operations

/-! ## Runs -/

section Runs

variable {others : Q → Nat} {s : State Q} {ops : List (Op Q)}

theorem consistent_init (others : Q → Nat) : (State.init others).Consistent others :=
  ⟨Owned.nil, nofun, fun _ => rfl⟩

theorem consistent_of_run {G : State Q → Op Q → Prop}
    (hr : Run Step G (State.init others) ops s) : s.Consistent others :=
  hr.invariant (consistent_init others) fun _ _ _ ha _ hs => (hs.effect ha).consistent ha

/-- **What leaks**: one box for each `Waker::wake`. -/
theorem leaked_of_run (hr : Run Step always (State.init others) ops s) :
    s.memory.heap.keys.length = s.wakers.length + (ops.map Op.leaks).sum := by
  induction hr with
  | nil => rfl
  | snoc hr _ hs ih =>
    have hlen := (hs.effect (consistent_of_run hr)).length (consistent_of_run hr)
    rw [List.map_append, List.sum_append, List.map_singleton, List.sum_singleton]
    omega

/-- **Wakers, boxes and references balance in exactly the runs in which no waker is woken by
value**; nothing ever faults. -/
theorem resources_balance_iff (others : Q → Nat) (ops : List (Op Q)) (s : State Q) :
    (Run Step (fun a _ => a.Balanced others ∧ a.Faultless) (State.init others) ops s ∧
      s.Balanced others ∧ s.Faultless) ↔
    Run Step (fun _ op => ∀ w, op ≠ .wake w) (State.init others) ops s := by
  refine Run.states_iff (P := fun a => a.Balanced others ∧ a.Faultless)
    (R := State.Consistent others) (fun _ _ => consistent_of_run) ?_ ?_
  · exact ⟨(balanced_iff_length (consistent_init others)).2 rfl,
      (consistent_init others).faultless⟩
  · intro a op b ha hbal hs
    have he := hs.effect ha
    have hb := he.consistent ha
    have hlen := he.length ha
    have hboxes := hbal.1.boxes
    rw [and_iff_left hb.faultless, balanced_iff_length hb]
    cases op with
    | wake w =>
      refine iff_of_false (fun h => ?_) fun h => h w rfl
      simp only [Op.leaks] at hlen
      omega
    | _ =>
      refine iff_of_true ?_ nofun
      simp only [Op.leaks] at hlen
      omega

end Runs

/-- A waker is created and woken: its box is still there. -/
theorem not_resources_balance : ¬ ∀ (ops : List (Op Unit)) (s : State Unit),
    Run Step always (State.init fun _ => 1) ops s → s.Balanced fun _ => 1 := by
  intro h
  have hcreate : Step (State.init fun _ : Unit => 1) (.create 1 () 8) _ :=
    ⟨⟨by decide, rfl, AList.notMem_empty 8⟩, rfl⟩
  have hrun := (Run.single (G := always) trivial hcreate).snoc (l := .wake 8) trivial
    ⟨List.mem_singleton_self 8, rfl⟩
  have hboxes := (h _ _ hrun).boxes
  rw [leaked_of_run hrun] at hboxes
  exact absurd hboxes (by decide)

end Luminal.Waker
