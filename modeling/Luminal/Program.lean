import Luminal.Task
import Mathlib.Data.Fin.Tuple.Basic

/-!
# Task programs

The language of tasks that return a value, yield, spawn a sub-program and await a
handle they own.  `Prog V n` has `n` handles in scope; a spawn shares them out between
the sub-program and the rest, an await uses its handle up, so no handle is awaited
twice.  `Prog.eval` is the direct-style meaning.

`Code` is a program as a future: the rest of the program with the handles it owns.
Polling it runs `Prog.burst`, which waits for nothing but an unfinished handle and a
`yield`; the handles left at the end are dropped with the future.  `Code.Denotes` relates
the state of such a future to the value it stands for, and `Prog.burst_denotes` says that
one poll keeps to that value, for any executor.
-/

namespace Luminal

open Function

inductive Prog (V : Type) : Nat → Type where
  | ret {n : Nat} (v : V) : Prog V n
  /-- `Pending` once -/
  | yield {n : Nat} (rest : Prog V n) : Prog V n
  /-- spawns `sub`; `rest` gets the new handle, in first place -/
  | spawn {n a b : Nat} (share : Fin a ⊕ Fin b ≃ Fin n) (sub : Prog V a)
      (rest : Prog V (b + 1)) : Prog V n
  | await {n : Nat} (i : Fin (n + 1)) (rest : V → Prog V n) : Prog V (n + 1)

variable {V W : Type}

/-- The direct-style value, given what the handles in scope stand for. -/
def Prog.eval : {n : Nat} → Prog V n → (Fin n → V) → V
  | _, .ret v, _ => v
  | _, .yield rest, ρ => rest.eval ρ
  | _, .spawn share sub rest, ρ =>
    rest.eval (Fin.cons (sub.eval fun i => ρ (share (.inl i))) fun j => ρ (share (.inr j)))
  | _, .await i rest, ρ => (rest (ρ i)).eval fun j => ρ (i.succAbove j)

/-- How many actions are left to the program, its sub-programs included; a return drops the
handles. -/
def Prog.cost : {n : Nat} → Prog V n → (Fin n → V) → Nat
  | n, .ret _, _ => n + 1
  | _, .yield rest, ρ => rest.cost ρ + 1
  | _, .spawn share sub rest, ρ =>
    sub.cost (fun i => ρ (share (.inl i))) +
      rest.cost (Fin.cons (sub.eval fun i => ρ (share (.inl i))) fun j => ρ (share (.inr j))) + 1
  | _, .await i rest, ρ => ((rest (ρ i)).cost fun j => ρ (i.succAbove j)) + 1

/-- A program as a future: what is left to run, and the handles it owns. -/
structure Code (V : Type) where
  scope : Nat
  prog : Prog V scope
  env : Fin scope → Nat

/-- The handle that a program awaits next. -/
def Prog.awaits : {n : Nat} → Prog V n → (Fin n → Nat) → Option Nat
  | _, .await i _, env => some (env i)
  | _, _, _ => none

/-- Drop handles, then go on. -/
def dropAll {U : Type} : List Nat → Burst U V → Burst U V
  | [], b => b
  | h :: hs, b => .dropHandle h (dropAll hs b)

/-- One poll of a program that owns the handles `env`; `handle.await` drops the handle once it
has yielded. -/
def Prog.burst : {n : Nat} → Prog V n → (Fin n → Nat) → Burst (Code V ⊕ W) V
  | _, .ret v, env => dropAll (List.ofFn env) (.ready v)
  | _, .yield rest, env => .pending (.inl ⟨_, rest, env⟩)
  | _, .spawn share sub rest, env =>
    .spawn (.inl ⟨_, sub, fun i => env (share (.inl i))⟩) fun h =>
      rest.burst (Fin.cons h fun j => env (share (.inr j)))
  | _, .await i rest, env => .pollHandle (env i) fun r =>
    r.elim (.pending (.inl ⟨_, .await i rest, env⟩)) fun v =>
      .dropHandle (env i) ((rest v).burst fun j => env (i.succAbove j))

/-- Programs run beside any other futures `W`. -/
def Prog.poll (other : W → Burst (Code V ⊕ W) V) : Code V ⊕ W → Burst (Code V ⊕ W) V
  | .inl c => c.prog.burst c.env
  | .inr w => other w

/-- `e` is what is left of the program `e₀`: it has some of its handles, and the same value. -/
def Code.Part (val : Nat → V) (e e₀ : Code V) : Prop :=
  ∃ g : Fin e.scope → Fin e₀.scope, Injective g ∧ (∀ j, e.env j = e₀.env (g j)) ∧
    (e.prog.eval fun j => val (e.env j)) = e₀.prog.eval fun j => val (e₀.env j)

theorem Code.Part.refl {val : Nat → V} (e : Code V) : e.Part val e :=
  ⟨fun j => j, injective_id, fun _ => rfl, rfl⟩

/-- Spawn a task that yields once and returns 3; await it and add 1. -/
def Sample.addOne : Prog Nat 0 :=
  .spawn (Equiv.equivOfIsEmpty (Fin 0 ⊕ Fin 0) (Fin 0)) (.yield (.ret 3))
    (.await (Fin.last 0) fun v => .ret (v + 1))

/-! ## What handles stand for -/

/-- The value of spawn `ch`: it was called with a program whose handles, of earlier spawns,
stand for values. -/
inductive Denotes (created : Nat → Code V → Prop) : Nat → V → Prop
  | mk {ch : Nat} {c : Code V} {ρ : Fin c.scope → V} : created ch c → (∀ i, c.env i < ch) →
      (∀ i, Denotes created (c.env i) (ρ i)) → Denotes created ch (c.prog.eval ρ)

/-- The value that a program's future stands for. -/
def Code.Denotes (created : Nat → Code V → Prop) (c : Code V) (v : V) : Prop :=
  ∃ ρ : Fin c.scope → V, (∀ i, Luminal.Denotes created (c.env i) (ρ i)) ∧ v = c.prog.eval ρ

section Denotation

variable {created created' : Nat → Code V → Prop} {ch : Nat} {c : Code V} {v w : V}

theorem Denotes.mono (hle : ∀ ch c, created ch c → created' ch c) (h : Denotes created ch v) :
    Denotes created' ch v := by
  induction h with
  | mk hc hlt _ ih => exact .mk (hle _ _ hc) hlt ih

theorem Code.Denotes.mono (hle : ∀ ch c, created ch c → created' ch c)
    (h : c.Denotes created v) : c.Denotes created' v := by
  obtain ⟨ρ, hρ, hv⟩ := h
  exact ⟨ρ, fun i => (hρ i).mono hle, hv⟩

/-- Later spawns do not change what a handle stands for. -/
theorem Denotes.before (h : Denotes created' ch v)
    (hold : ∀ d c, d ≤ ch → created' d c → created d c) : Denotes created ch v := by
  induction h with
  | mk hc hlt _ ih =>
    refine .mk (hold _ _ le_rfl hc) hlt fun i => ih i fun d c hd => hold d c ?_
    exact hd.trans (hlt i).le

/-- A handle stands for one value. -/
theorem Denotes.unique (hfun : ∀ ch c c', created ch c → created ch c' → c = c')
    (h : Denotes created ch v) (h' : Denotes created ch w) : v = w := by
  induction h generalizing w with
  | mk hc _ _ ih =>
    cases h' with
    | @mk _ c' ρ' hc' _ hρ' =>
      obtain rfl := hfun _ _ _ hc hc'
      congr 1
      funext i
      exact ih i (hρ' i)

end Denotation

/-! ## One poll, effect by effect -/

/-- A burst that keeps to the value `v`, whatever the handles it polls turn out to be, as long
as they yield what they stand for. -/
inductive BurstDenotes (v : V) : (Nat → Code V → Prop) → Burst (Code V ⊕ W) V → Prop
  | pending {created : Nat → Code V → Prop} {c : Code V} : c.Denotes created v →
      BurstDenotes v created (.pending (.inl c))
  | ready {created : Nat → Code V → Prop} : BurstDenotes v created (.ready v)
  | spawn {created : Nat → Code V → Prop} {c : Code V} {w : V}
      {k : Nat → Burst (Code V ⊕ W) V} : c.Denotes created w →
      (∀ ch (created' : Nat → Code V → Prop), (∀ d e, created d e → created' d e) →
        created' ch c → (∀ i, c.env i < ch) → BurstDenotes v created' (k ch)) →
      BurstDenotes v created (.spawn (.inl c) k)
  | pollHandle {created : Nat → Code V → Prop} {h : Nat} {w : V}
      {k : Option V → Burst (Code V ⊕ W) V} : Denotes created h w →
      BurstDenotes v created (k (some w)) → BurstDenotes v created (k none) →
      BurstDenotes v created (.pollHandle h k)
  | dropHandle {created : Nat → Code V → Prop} {h : Nat} {k : Burst (Code V ⊕ W) V} :
      BurstDenotes v created k → BurstDenotes v created (.dropHandle h k)

section Bursts

variable {created created' : Nat → Code V → Prop} {v : V}

/-- What has been created since does not matter. -/
theorem BurstDenotes.mono {b : Burst (Code V ⊕ W) V} (h : BurstDenotes v created b)
    (hle : ∀ d c, created d c → created' d c) : BurstDenotes v created' b := by
  induction h with
  | pending hc => exact .pending (hc.mono hle)
  | ready => exact .ready
  | spawn hc hk _ =>
    exact .spawn (hc.mono hle) fun ch created₂ hle₂ => hk ch created₂ fun d e h =>
      hle₂ _ _ (hle _ _ h)
  | pollHandle hw _ _ ih1 ih2 => exact .pollHandle (hw.mono hle) (ih1 hle) (ih2 hle)
  | dropHandle _ ih => exact .dropHandle (ih hle)

theorem dropAll_denotes {hs : List Nat} {b : Burst (Code V ⊕ W) V} (h : BurstDenotes v created b) :
    BurstDenotes v created (dropAll hs b) := by
  induction hs with
  | nil => exact h
  | cons d hs ih => exact .dropHandle ih

/-- **A poll of a program keeps to the program's value.** -/
theorem Prog.burst_denotes {n : Nat} (p : Prog V n) {env : Fin n → Nat} {ρ : Fin n → V}
    (hρ : ∀ i, Denotes created (env i) (ρ i)) :
    BurstDenotes (W := W) (p.eval ρ) created (p.burst env) := by
  induction p generalizing created with
  | ret v => exact dropAll_denotes .ready
  | yield rest ih => exact .pending ⟨ρ, hρ, rfl⟩
  | @spawn n a b share sub rest ihsub ihrest =>
    refine .spawn (w := sub.eval fun i => ρ (share (.inl i))) ⟨_, fun i => hρ (share (.inl i)), rfl⟩
      fun ch created' hle hch hlt => ?_
    have hnew : Denotes created' ch (sub.eval fun i => ρ (share (.inl i))) :=
      Denotes.mk (c := ⟨a, sub, _⟩) hch hlt fun i => (hρ (share (.inl i))).mono hle
    refine ihrest fun i => ?_
    refine Fin.cases hnew (fun j => ?_) i
    exact (hρ (share (.inr j))).mono hle
  | @await n i rest ih =>
    refine .pollHandle (hρ i) (.dropHandle (ih _ fun j => hρ (i.succAbove j))) ?_
    exact .pending (c := ⟨n + 1, .await i rest, env⟩) ⟨ρ, hρ, rfl⟩

end Bursts

end Luminal
