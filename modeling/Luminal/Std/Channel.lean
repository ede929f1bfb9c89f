import Luminal.Task

/-!
# Result channels and `JoinHandle` (std)

One `crossbeam_channel::unbounded` channel for each `Executor::spawn`: FIFO, and
`try_recv` reports `Disconnected` only when the channel is empty and its sender is
gone.  A send to a dropped receiver fails and is ignored (`let _ = sender.send(result)`).
-/

namespace Luminal.Std

variable {V : Type}

/-- Who holds the receiving end: `Executor::spawn` until it returns, then a `JoinHandle` or
the frame of `Executor::block_on`. -/
inductive Receiver where
  | spawning
  | handle
  | blockOn
  | dropped
  deriving DecidableEq

structure Channel (V : Type) where
  queue : List V
  sender : Bool
  receiver : Receiver

/-- `crossbeam_channel::TryRecvError`, or the message. -/
inductive TryRecv (V : Type) where
  | ok (v : V)
  | empty
  | disconnected

namespace Channel

/-- `unbounded::<F::Output>()`. -/
def unbounded : Channel V := ⟨[], true, .spawning⟩

def tryRecv (c : Channel V) : TryRecv V :=
  match c.queue with
  | v :: _ => .ok v
  | [] => if c.sender then .empty else .disconnected

/-- The channel after a successful `try_recv`. -/
def received (c : Channel V) : Channel V := { c with queue := c.queue.tail }

def send (v : V) (c : Channel V) : Channel V :=
  if c.receiver = .dropped then c else { c with queue := c.queue ++ [v] }

def dropSender (c : Channel V) : Channel V := { c with sender := false }

/-- Dropping the receiver discards the messages not yet received. -/
def dropReceiver (c : Channel V) : Channel V := { c with queue := [], receiver := .dropped }

theorem tryRecv_ok_iff (c : Channel V) (v : V) : c.tryRecv = .ok v ↔ ∃ q, c.queue = v :: q := by
  unfold tryRecv
  split
  · next w q h => simp [h]
  · next h => split <;> simp [h]

theorem tryRecv_disconnected_iff (c : Channel V) :
    c.tryRecv = .disconnected ↔ c.queue = [] ∧ c.sender = false := by
  unfold tryRecv
  split
  · next h => simp [h]
  · next h => split <;> simp_all

/-! ## What a channel's state says of its history -/

/-- The state of a channel against its history: how often its task was pushed, the values
sent and received, how often its task ended (finished or destroyed). -/
structure Law (c : Channel V) (pushes : Nat) (sent received : List V) (ended : Nat) : Prop where
  pushed : c.receiver = .spawning ↔ pushes = 0
  sender : c.sender = false ↔ 0 < ended
  inOrder : received <+: sent
  pending : c.receiver ≠ .dropped → received ++ c.queue = sent
  unread : c.receiver = .spawning ∨ c.receiver = .blockOn → received = []
  closed : c.receiver = .dropped → c.queue = []

section Law

variable {c : Channel V} {pushes : Nat} {sent recvd : List V} {ended : Nat} {v : V}

theorem law_unbounded : (unbounded : Channel V).Law 0 [] [] 0 := by
  constructor <;> simp [unbounded]

theorem Law.send (h : c.Law pushes sent recvd ended) (v : V) :
    (c.send v).Law pushes (sent ++ [v]) recvd ended := by
  have hle := h.inOrder.trans (List.prefix_append sent [v])
  unfold Channel.send
  split
  · next hd => exact ⟨h.pushed, h.sender, hle, fun hn => absurd hd hn, h.unread, h.closed⟩
  · next hd =>
    refine ⟨h.pushed, h.sender, hle, fun _ => ?_, h.unread, fun hn => absurd hn hd⟩
    rw [← h.pending hd, List.append_assoc]

theorem Law.dropSender (h : c.Law pushes sent recvd ended) {e : Nat} (he : 0 < e) :
    c.dropSender.Law pushes sent recvd e :=
  ⟨h.pushed, by simp [Channel.dropSender, he], h.inOrder, h.pending, h.unread, h.closed⟩

theorem Law.polled (h : c.Law pushes sent recvd ended) (hr : c.receiver = .handle)
    (hv : c.tryRecv = .ok v) : c.received.Law pushes sent (recvd ++ [v]) ended := by
  obtain ⟨q, hq⟩ := (c.tryRecv_ok_iff v).1 hv
  have hp : (recvd ++ [v]) ++ q = sent := by
    rw [← h.pending (by simp [hr]), hq]
    simp
  refine ⟨h.pushed, h.sender, ⟨q, hp⟩, fun _ => ?_, ?_, ?_⟩
  · rw [← hp, Channel.received, hq, List.tail_cons]
  · simp [Channel.received, hr]
  · simp [Channel.received, hr]

theorem Law.dropReceiver (h : c.Law pushes sent recvd ended) (hs : c.receiver ≠ .spawning) :
    c.dropReceiver.Law pushes sent recvd ended := by
  refine ⟨?_, h.sender, h.inOrder, by simp [Channel.dropReceiver],
    by simp [Channel.dropReceiver], fun _ => rfl⟩
  have := mt h.pushed.2 hs
  simp [Channel.dropReceiver, this]

/-- `block_on` returns the value it received, and its receiver is dropped. -/
theorem Law.returned (h : c.Law pushes sent recvd ended) (hr : c.receiver = .blockOn)
    (hv : c.tryRecv = .ok v) : c.dropReceiver.Law pushes sent (recvd ++ [v]) ended := by
  obtain ⟨q, hq⟩ := (c.tryRecv_ok_iff v).1 hv
  have hp : (recvd ++ [v]) ++ q = sent := by
    rw [← h.pending (by simp [hr]), hq]
    simp
  have := h.dropReceiver (by simp [hr])
  exact ⟨this.pushed, this.sender, ⟨q, hp⟩, by simp [Channel.dropReceiver],
    by simp [Channel.dropReceiver], this.closed⟩

/-- The receiver leaves `Executor::spawn`. -/
theorem Law.handOver (h : c.Law pushes sent recvd ended) (hs : c.receiver = .spawning)
    {r : Receiver} (hr : r = .handle ∨ r = .blockOn) :
    ({ c with receiver := r } : Channel V).Law (pushes + 1) sent recvd ended := by
  have hq := h.pending (by simp [hs])
  refine ⟨?_, h.sender, h.inOrder, fun _ => hq, fun _ => h.unread (Or.inl hs), fun hd => ?_⟩
  · rcases hr with rfl | rfl <;> simp
  · rcases hr with rfl | rfl <;> cases hd

end Law

end Channel

/-- `JoinHandle::poll`: `none` is `Poll::Pending`.  `Disconnected` is answered like
`Empty` ("keep pending to allow task completion or timeout"). -/
def JoinHandle.poll (c : Channel V) : Option V × Channel V :=
  match c.tryRecv with
  | .ok v => (some v, c.received)
  | .empty => (none, c)
  | .disconnected => (none, c)

theorem JoinHandle.poll_some_iff (c : Channel V) (v : V) :
    (JoinHandle.poll c).1 = some v ↔ c.tryRecv = .ok v := by
  unfold JoinHandle.poll
  cases c.tryRecv <;> simp

theorem JoinHandle.poll_none_iff (c : Channel V) : (JoinHandle.poll c).1 = none ↔ c.queue = [] := by
  unfold JoinHandle.poll Channel.tryRecv
  cases c.queue with
  | nil => cases c.sender <;> simp
  | cons v q => simp

theorem JoinHandle.poll_sender (c : Channel V) : (JoinHandle.poll c).2.sender = c.sender := by
  unfold JoinHandle.poll
  split <;> rfl

theorem JoinHandle.poll_receiver (c : Channel V) : (JoinHandle.poll c).2.receiver = c.receiver := by
  unfold JoinHandle.poll
  split <;> rfl

end Luminal.Std
