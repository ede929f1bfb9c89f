import Luminal.Lib.Pool
import Luminal.Task

/-!
# A task as a job

What the tasks of both executors are, seen from outside: a job for which one turn is one call of
`poll`.
-/

namespace Luminal

open Transition

variable {U V : Type} {poll : U → Burst U V}

/-- Code goes on after one effect, whatever it is answered. -/
inductive UserCode.Goes : UserCode U V → UserCode U V → Prop
  | spawn (u : U) (k : Nat → Burst U V) (ch : Nat) : Goes (.run (.spawn u k)) (.run (k ch))
  | blockOn (u : U) (k : Option V → Burst U V) : Goes (.run (.blockOn u k)) (.wait k)
  | resume (k : Option V → Burst U V) (r : Option V) : Goes (.wait k) (.run (k r))
  | pollHandle (h : Nat) (k : Option V → Burst U V) (r : Option V) :
      Goes (.run (.pollHandle h k)) (.run (k r))
  | dropHandle (h : Nat) (b : Burst U V) : Goes (.run (.dropHandle h b)) (.run b)
  | cloneRuntime (b : Burst U V) : Goes (.run (.cloneRuntime b)) (.run b)
  | dropRuntime (b : Burst U V) : Goes (.run (.dropRuntime b)) (.run b)
  /-- on a worker the drop of the last one panics -/
  | dropLastRuntime (b : Burst U V) : Goes (.run (.dropRuntime b)) (.run .panic)
  | outside (k : Nat → Burst U V) (x : Nat) : Goes (.run (.outside k)) (.run (k x))

/-- A future alone: a turn is a call of `poll`. -/
def Burst.behaviour (poll : U → Burst U V) : Behaviour U (UserCode U V) where
  start u := .run (poll u)
  goes := UserCode.Goes
  pauses code u := code = .run (.pending u)
  ends code := (∃ v, code = .run (.ready v)) ∨ code = .run .panic

/-- The job of a task: the spawn it comes from, and its future. -/
def Task.job (p : Task U) : Multiset (Nat × U) :=
  match p.future with
  | .wrapped ch u => {(ch, u)}
  | .completed => 0

/-- Code that runs in a poll of `task` is its turn; that of a thread outside is nobody's. -/
def UserCode.turn (task : Option (Task U)) (code : UserCode U V) : Multiset (Nat × UserCode U V) :=
  match task with
  | some ⟨_, .wrapped ch _⟩ => {(ch, code)}
  | _ => 0

section Steps

variable {lets : Prop} {S : Set (Nat × U)} {W : Multiset (Nat × U)}
    {R : Multiset (Nat × UserCode U V)}

theorem turn_go (task : Option (Task U)) {x y : UserCode U V} (h : x.Goes y) :
    Relation.ReflGen (Pool.Step (Burst.behaviour poll) lets) ⟨S, W, x.turn task + R⟩
      ⟨S, W, y.turn task + R⟩ := by
  obtain - | ⟨id, ⟨ch, u⟩ | -⟩ := task
  · exact .refl
  · simp only [UserCode.turn, Multiset.singleton_add]
    exact .single (.go ch h)
  · exact .refl

theorem turn_pause (id : TaskId) (ch : Nat) (u₀ u : U) :
    Pool.Step (Burst.behaviour poll) lets
      ⟨S, W, (UserCode.run (.pending u)).turn (some ⟨id, .wrapped ch u₀⟩) + R⟩
      ⟨S, (ch, u) ::ₘ W, R⟩ := by
  simp only [UserCode.turn, Multiset.singleton_add]
  exact .pause ch rfl

theorem turn_finish (id : TaskId) (ch : Nat) (u : U) {x : UserCode U V}
    (h : (Burst.behaviour poll).ends x) :
    Pool.Step (Burst.behaviour poll) lets ⟨S, W, x.turn (some ⟨id, .wrapped ch u⟩) + R⟩
      ⟨S, W, R⟩ := by
  simp only [UserCode.turn, Multiset.singleton_add]
  exact .finish ch h

end Steps

end Luminal
