import Luminal.NoStd.Executor
import Luminal.Program
import Mathlib.Data.Set.Finite.Basic

/-!
# A program and its sub-programs in the no_std executor

`block_on` of a program starts a family of tasks: the program, its sub-programs, theirs.
`Family` is the invariant they keep among the unfinished tasks `ts`.  Every handle has
one owner, a program of the family or the `block_on` call that waits for the whole; behind
each handle is a task of the family or its result; and what is owed is what
`Prog.eval` says, by the valuation `val` of spawns.

As each handle has one owner and nobody owns the handle of the whole, the family cannot wait
for itself: some program of it is not blocked (`Family.exists_ready`).
-/

namespace Luminal.NoStd

open Function

variable {V W : Type}

/-- The program `c` is the unfinished task of spawn `ch`. -/
def Runs (ts : List (Task (Code V ⊕ W))) (ch : Nat) (c : Code V) : Prop :=
  ∃ t ∈ ts, t.future = .wrapped ch (.inl c)

/-- The unfinished task of spawn `ch` is not a program. -/
def Alien (ts : List (Task (Code V ⊕ W))) (ch : Nat) : Prop :=
  ∃ t ∈ ts, ∃ w, t.future = .wrapped ch (.inr w)

/-- The handle of spawn `h` is the one `block_on` has, or a program's. -/
def Owned (m : Nat) (ts : List (Task (Code V ⊕ W))) (h : Nat) : Prop :=
  h = m ∨ ∃ ch c i, Runs ts ch c ∧ c.env i = h

/-- The unfinished tasks `ts` against the result queues; `m` is what `block_on` waits for. -/
structure Family (m : Nat) (val : Nat → V) (results : Nat → ResultQueue V) (spawned : Nat)
    (ts : List (Task (Code V ⊕ W))) : Prop where
  wrapped : ∀ t ∈ ts, ∃ ch, t.ch? = some ch ∧ ch < spawned
  nodup : (ts.map Task.ch?).Nodup
  root : m < spawned ∧ (results m).holder = .blockOn
  held : ∀ ch c, Runs ts ch c → ∀ i,
    c.env i < spawned ∧ c.env i ≠ m ∧ (results (c.env i)).holder = .handle
  injective : ∀ ch c, Runs ts ch c → Injective c.env
  unique : ∀ ch c ch' c' i i', Runs ts ch c → Runs ts ch' c' → c.env i = c'.env i' → ch = ch'
  value : ∀ ch c, Runs ts ch c →
    (results ch).items = [] ∧ val ch = c.prog.eval fun i => val (c.env i)
  owned : ∀ h, Owned m ts h → (∃ c, Runs ts h c) ∨ (results h).items = [val h]
  apart : ∀ ch, Alien ts ch → ¬ Owned m ts ch

section Lists

variable {ts ts' : List (Task (Code V ⊕ W))} {t : Task (Code V ⊕ W)} {m ch h : Nat} {c : Code V}

theorem runs_cons : Runs (t :: ts) ch c ↔ t.future = .wrapped ch (.inl c) ∨ Runs ts ch c := by
  simp [Runs]

theorem alien_cons : Alien (t :: ts) ch ↔ (∃ w, t.future = .wrapped ch (.inr w)) ∨ Alien ts ch := by
  simp [Alien]

@[simp] theorem runs_cons_inl {id : TaskId} {d : Nat} {e : Code V} :
    Runs (⟨id, .wrapped ch (.inl c)⟩ :: ts) d e ↔ (ch = d ∧ c = e) ∨ Runs ts d e := by
  simp [runs_cons]

@[simp] theorem runs_cons_inr {id : TaskId} {d : Nat} {e : Code V} {w : W} :
    Runs (⟨id, .wrapped ch (.inr w)⟩ :: ts) d e ↔ Runs ts d e := by
  simp [runs_cons]

@[simp] theorem alien_cons_inl {id : TaskId} {d : Nat} :
    Alien (⟨id, .wrapped ch (.inl c)⟩ :: ts) d ↔ Alien ts d := by
  simp [alien_cons]

@[simp] theorem alien_cons_inr {id : TaskId} {d : Nat} {w : W} :
    Alien (⟨id, .wrapped ch (.inr w)⟩ :: ts) d ↔ ch = d ∨ Alien ts d := by
  simp [alien_cons]

theorem runs_perm (hp : ts.Perm ts') : Runs ts ch c ↔ Runs ts' ch c := by
  unfold Runs
  simp [hp.mem_iff]

theorem alien_perm (hp : ts.Perm ts') : Alien ts ch ↔ Alien ts' ch := by
  unfold Alien
  simp [hp.mem_iff]

theorem owned_perm (hp : ts.Perm ts') : Owned m ts h ↔ Owned m ts' h := by
  unfold Owned
  simp [runs_perm hp]

theorem Runs.subset (hr : Runs ts ch c) (hs : ts ⊆ ts') : Runs ts' ch c := by
  obtain ⟨t, ht, hf⟩ := hr
  exact ⟨t, hs ht, hf⟩

theorem Runs.cons (hr : Runs ts ch c) (t : Task (Code V ⊕ W)) : Runs (t :: ts) ch c :=
  runs_cons.2 (Or.inr hr)

theorem Owned.subset (ho : Owned m ts h) (hs : ts ⊆ ts') : Owned m ts' h := by
  rcases ho with rfl | ⟨ch, c, i, hr, hi⟩
  · exact Or.inl rfl
  · exact Or.inr ⟨ch, c, i, hr.subset hs, hi⟩

theorem Owned.cons (ho : Owned m ts h) (t : Task (Code V ⊕ W)) : Owned m (t :: ts) h :=
  ho.subset (List.subset_cons_self t ts)

theorem Runs.mem_channels (hr : Runs ts ch c) : some ch ∈ ts.map Task.ch? := by
  obtain ⟨t, ht, hf⟩ := hr
  refine List.mem_map.2 ⟨t, ht, ?_⟩
  unfold Task.ch?
  rw [hf]

theorem Alien.mem_channels (ha : Alien ts ch) : some ch ∈ ts.map Task.ch? := by
  obtain ⟨t, ht, w, hf⟩ := ha
  refine List.mem_map.2 ⟨t, ht, ?_⟩
  unfold Task.ch?
  rw [hf]

/-- Whose handles there are after a spawn. -/
theorem Owned.of_spawn {n a b d : Nat} {share : Fin a ⊕ Fin b ≃ Fin n} {sub : Prog V a}
    {rest : Prog V (b + 1)} {env : Fin n → Nat} {id id' : TaskId}
    (ho : Owned m (⟨id, .wrapped ch
      (.inl ⟨b + 1, rest, Fin.cons d fun j => env (share (.inr j))⟩)⟩ ::
      ⟨id', .wrapped d (.inl ⟨a, sub, fun i => env (share (.inl i))⟩)⟩ :: ts) h) :
    h = d ∨ Owned m (⟨id, .wrapped ch (.inl ⟨n, .spawn share sub rest, env⟩)⟩ :: ts) h := by
  rcases ho with rfl | ⟨x, e, i, he, rfl⟩
  · exact Or.inr (Or.inl rfl)
  · rw [runs_cons_inl, runs_cons_inl] at he
    rcases he with ⟨rfl, rfl⟩ | ⟨rfl, rfl⟩ | he
    · refine Fin.cases (Or.inl rfl) (fun j => ?_) i
      exact Or.inr (Or.inr ⟨_, _, share (.inr j), runs_cons_inl.2 (Or.inl ⟨rfl, rfl⟩), rfl⟩)
    · exact Or.inr (Or.inr ⟨_, _, share (.inl i), runs_cons_inl.2 (Or.inl ⟨rfl, rfl⟩), rfl⟩)
    · exact Or.inr (Or.inr ⟨x, e, i, he.cons _, rfl⟩)

end Lists

section Steps

variable {m ch : Nat} {val : Nat → V} {results results' : Nat → ResultQueue V} {spawned : Nat}
  {ts ts' : List (Task (Code V ⊕ W))} {id id' : TaskId} {c c' : Code V} {w w' : W}

theorem Family.perm (h : Family m val results spawned ts) (hp : ts.Perm ts') :
    Family m val results spawned ts' where
  wrapped t ht := h.wrapped t (hp.mem_iff.2 ht)
  nodup := (hp.map _).nodup_iff.1 h.nodup
  root := h.root
  held ch c hr := h.held ch c ((runs_perm hp).2 hr)
  injective ch c hr := h.injective ch c ((runs_perm hp).2 hr)
  unique ch c ch' c' i i' hr hr' := h.unique ch c ch' c' i i' ((runs_perm hp).2 hr)
    ((runs_perm hp).2 hr')
  value ch c hr := h.value ch c ((runs_perm hp).2 hr)
  owned d hd := by
    rcases h.owned d ((owned_perm hp).2 hd) with ⟨c, hc⟩ | hv
    · exact Or.inl ⟨c, (runs_perm hp).1 hc⟩
    · exact Or.inr hv
  apart ch ha ho := h.apart ch ((alien_perm hp).2 ha) ((owned_perm hp).2 ho)

/-- A spawn of the family has a number below `spawned`. -/
theorem Family.channel_lt (h : Family m val results spawned ts) (hc : some ch ∈ ts.map Task.ch?) :
    ch < spawned := by
  obtain ⟨t, ht, hch⟩ := List.mem_map.1 hc
  obtain ⟨d, hd, hlt⟩ := h.wrapped t ht
  rw [hch] at hd
  cases hd
  exact hlt

theorem Family.owned_lt (h : Family m val results spawned ts) {d : Nat} (ho : Owned m ts d) :
    d < spawned := by
  rcases ho with rfl | ⟨ch, c, i, hr, rfl⟩
  · exact h.root.1
  · exact (h.held ch c hr i).1

/-- The programs go on, each with some of the handles it had and towards the same value. -/
theorem Family.transport (h : Family m val results spawned ts)
    (hsub : ∀ x ∈ ts'.map Task.ch?, x ∈ ts.map Task.ch?) (hnodup : (ts'.map Task.ch?).Nodup)
    (hpart : ∀ d e, Runs ts' d e → ∃ e₀, Runs ts d e₀ ∧ e.Part val e₀)
    (halien : ∀ d, Alien ts' d → Alien ts d)
    (hholder : ∀ d, Owned m ts' d → (results' d).holder = (results d).holder)
    (hitems : ∀ d e, Runs ts' d e → (results' d).items = (results d).items)
    (howned : ∀ d, Owned m ts' d → (∃ e, Runs ts' d e) ∨ (results' d).items = [val d]) :
    Family m val results' spawned ts' := by
  have hback : ∀ d, Owned m ts' d → Owned m ts d := by
    rintro d (rfl | ⟨a, e, i, he, rfl⟩)
    · exact Or.inl rfl
    · obtain ⟨e₀, he₀, g, -, hg, -⟩ := hpart a e he
      exact Or.inr ⟨a, e₀, g i, he₀, (hg i).symm⟩
  refine ⟨?_, hnodup, ?_, ?_, ?_, ?_, ?_, howned, ?_⟩
  · intro t ht
    obtain ⟨t₀, ht₀, hch⟩ := List.mem_map.1 (hsub _ (List.mem_map_of_mem ht))
    obtain ⟨d, hd, hlt⟩ := h.wrapped t₀ ht₀
    exact ⟨d, hch ▸ hd, hlt⟩
  · rw [hholder m (Or.inl rfl)]
    exact h.root
  · intro a e he i
    obtain ⟨e₀, he₀, g, -, hg, -⟩ := hpart a e he
    rw [hholder _ (Or.inr ⟨a, e, i, he, rfl⟩), hg i]
    exact h.held a e₀ he₀ (g i)
  · intro a e he i j hij
    obtain ⟨e₀, he₀, g, hinj, hg, -⟩ := hpart a e he
    rw [hg i, hg j] at hij
    exact hinj (h.injective a e₀ he₀ hij)
  · intro a e a' e' i i' he he' hii
    obtain ⟨e₀, he₀, g, -, hg, -⟩ := hpart a e he
    obtain ⟨e₁, he₁, g', -, hg', -⟩ := hpart a' e' he'
    rw [hg i, hg' i'] at hii
    exact h.unique a e₀ a' e₁ _ _ he₀ he₁ hii
  · intro a e he
    obtain ⟨e₀, he₀, g, -, -, hval⟩ := hpart a e he
    obtain ⟨h1, h2⟩ := h.value a e₀ he₀
    rw [hitems a e he, hval]
    exact ⟨h1, h2⟩
  · exact fun d ha ho => h.apart d (halien d ha) (hback d ho)

/-- Result queues that nobody in the family owns may change; a running program's is empty. -/
theorem Family.release (h : Family m val results spawned ts)
    (ho : ∀ d, Owned m ts d → results' d = results d)
    (hr : ∀ d e, Runs ts d e → (results' d).items = (results d).items) :
    Family m val results' spawned ts := by
  refine h.transport (fun _ hx => hx) h.nodup (fun d e he => ⟨e, he, .refl e⟩) (fun _ ha => ha)
    (fun d hd => congrArg _ (ho d hd)) hr fun d hd => ?_
  rw [ho d hd]
  exact h.owned d hd

/-- The front program goes on, with the handles that `g` selects. -/
theorem Family.goOn (h : Family m val results spawned (⟨id, .wrapped ch (.inl c)⟩ :: ts))
    (hp : c'.Part val c) : Family m val results spawned (⟨id', .wrapped ch (.inl c')⟩ :: ts) := by
  have hpart : ∀ d e, Runs (⟨id', .wrapped ch (.inl c')⟩ :: ts) d e →
      ∃ e₀, Runs (⟨id, .wrapped ch (.inl c)⟩ :: ts) d e₀ ∧ e.Part val e₀ := by
    intro d e he
    rcases runs_cons_inl.1 he with ⟨rfl, rfl⟩ | he
    · exact ⟨c, runs_cons_inl.2 (Or.inl ⟨rfl, rfl⟩), hp⟩
    · exact ⟨e, he.cons _, .refl e⟩
  refine h.transport (fun _ hx => hx) h.nodup hpart (fun d ha => ?_) (fun _ _ => rfl)
    (fun _ _ _ => rfl) fun d hd => ?_
  · rw [alien_cons_inl] at ha ⊢
    exact ha
  · have hd' : Owned m (⟨id, .wrapped ch (.inl c)⟩ :: ts) d := by
      rcases hd with rfl | ⟨a, e, i, he, rfl⟩
      · exact Or.inl rfl
      · obtain ⟨e₀, he₀, g, -, hg, -⟩ := hpart a e he
        exact Or.inr ⟨a, e₀, g i, he₀, (hg i).symm⟩
    rcases h.owned d hd' with ⟨e, he⟩ | hv
    · rcases runs_cons_inl.1 he with ⟨rfl, rfl⟩ | he
      · exact Or.inl ⟨c', runs_cons_inl.2 (Or.inl ⟨rfl, rfl⟩)⟩
      · exact Or.inl ⟨e, he.cons _⟩
    · exact Or.inr hv

/-- Later spawns do not matter to those who run. -/
theorem Family.later (h : Family m val results spawned ts) {spawned' : Nat} {val' : Nat → V}
    (hle : spawned ≤ spawned') (hval : ∀ d, d < spawned → val' d = val d)
    (hres : ∀ d, d < spawned → results' d = results d) : Family m val' results' spawned' ts := by
  have h' : Family m val results' spawned ts :=
    h.release (fun d hd => hres d (h.owned_lt hd)) fun ch c hc => by
      rw [hres ch (h.channel_lt hc.mem_channels)]
  refine ⟨?_, h'.nodup, ⟨h'.root.1.trans_le hle, h'.root.2⟩, ?_, h'.injective, h'.unique, ?_, ?_,
    h'.apart⟩
  · intro t ht
    obtain ⟨ch, hch, hlt⟩ := h'.wrapped t ht
    exact ⟨ch, hch, hlt.trans_le hle⟩
  · intro ch c hc i
    obtain ⟨h1, h2, h3⟩ := h'.held ch c hc i
    exact ⟨h1.trans_le hle, h2, h3⟩
  · intro ch c hc
    obtain ⟨h1, h2⟩ := h'.value ch c hc
    refine ⟨h1, ?_⟩
    rw [hval ch (h.channel_lt hc.mem_channels), h2]
    congr 1
    funext i
    rw [hval _ (h.held ch c hc i).1]
  · intro d hd
    rw [hval d (h.owned_lt hd)]
    exact h'.owned d hd

/-- Nobody else in the queue is a task of the same spawn. -/
theorem Family.not_runs_tail {t : Task (Code V ⊕ W)} (h : Family m val results spawned (t :: ts))
    (ht : t.ch? = some ch) : ¬ Runs ts ch c := by
  intro hr
  have hn := h.nodup
  rw [List.map_cons, List.nodup_cons, ht] at hn
  exact hn.1 hr.mem_channels

/-- A task of somebody else leaves the front. -/
theorem Family.dismiss (h : Family m val results spawned (⟨id, .wrapped ch (.inr w)⟩ :: ts)) :
    Family m val results spawned ts := by
  have hn := h.nodup
  rw [List.map_cons, List.nodup_cons] at hn
  refine h.transport (fun x hx => List.mem_cons_of_mem _ hx) hn.2
    (fun d e he => ⟨e, he.cons _, .refl e⟩) (fun d ha => alien_cons_inr.2 (Or.inr ha))
    (fun _ _ => rfl) (fun _ _ _ => rfl) fun d hd => ?_
  rcases h.owned d (hd.cons _) with ⟨e, he⟩ | hv
  · exact Or.inl ⟨e, runs_cons_inr.1 he⟩
  · exact Or.inr hv

/-- Somebody else's task at the front may be any other of the same spawn. -/
theorem Family.swap (h : Family m val results spawned (⟨id, .wrapped ch (.inr w)⟩ :: ts)) :
    Family m val results spawned (⟨id', .wrapped ch (.inr w')⟩ :: ts) := by
  have hr : ∀ d e, Runs (⟨id', .wrapped ch (.inr w')⟩ :: ts) d e ↔
      Runs (⟨id, .wrapped ch (.inr w)⟩ :: ts) d e := by
    intro d e
    rw [runs_cons_inr, runs_cons_inr]
  refine h.transport (fun _ hx => hx) h.nodup (fun d e he => ⟨e, (hr d e).1 he, .refl e⟩)
    (fun d ha => ?_) (fun _ _ => rfl) (fun _ _ _ => rfl) fun d hd => ?_
  · rw [alien_cons_inr] at ha ⊢
    exact ha
  · unfold Owned at hd
    simp only [hr] at hd ⊢
    exact h.owned d hd

/-- Somebody else spawns a task of their own. -/
theorem Family.arrive (h : Family m val results spawned ts) (id : TaskId) (w : W)
    (holder : Holder) :
    Family m val (update results spawned ⟨[], holder⟩) (spawned + 1)
      (⟨id, .wrapped spawned (.inr w)⟩ :: ts) := by
  have h' : Family m val (update results spawned ⟨[], holder⟩) (spawned + 1) ts :=
    h.later (Nat.le_succ _) (fun _ _ => rfl) fun d hd => update_of_ne hd.ne _ _
  have ho : ∀ d, Owned m (⟨id, .wrapped spawned (.inr w)⟩ :: ts) d ↔ Owned m ts d := by
    intro d
    unfold Owned
    simp only [runs_cons_inr]
  refine ⟨?_, ?_, h'.root, ?_, ?_, ?_, ?_, ?_, ?_⟩
  · rw [List.forall_mem_cons]
    exact ⟨⟨spawned, rfl, Nat.lt_succ_self _⟩, h'.wrapped⟩
  · rw [List.map_cons, List.nodup_cons]
    exact ⟨fun hc => Nat.lt_irrefl _ (h.channel_lt hc), h.nodup⟩
  · exact fun a e he => h'.held a e (runs_cons_inr.1 he)
  · exact fun a e he => h'.injective a e (runs_cons_inr.1 he)
  · exact fun a e a' e' i i' he he' =>
      h'.unique a e a' e' i i' (runs_cons_inr.1 he) (runs_cons_inr.1 he')
  · exact fun a e he => h'.value a e (runs_cons_inr.1 he)
  · intro d hd
    rcases h'.owned d ((ho d).1 hd) with ⟨e, he⟩ | hv
    · exact Or.inl ⟨e, he.cons _⟩
    · exact Or.inr hv
  · intro d ha hd
    rw [ho] at hd
    rcases alien_cons_inr.1 ha with rfl | ha
    · exact Nat.lt_irrefl _ (h.owned_lt hd)
    · exact h'.apart d ha hd

/-- The front program is done with its handle `i`. -/
theorem Family.drop {n : Nat} {p : Prog V (n + 1)} {env : Fin (n + 1) → Nat}
    (h : Family m val results spawned (⟨id, .wrapped ch (.inl ⟨n + 1, p, env⟩)⟩ :: ts))
    (i : Fin (n + 1)) (p' : Prog V n) (results' : Nat → ResultQueue V)
    (heval : (p'.eval fun j => val (env (i.succAbove j))) = p.eval fun j => val (env j))
    (hres : ∀ d, d ≠ env i → results' d = results d)
    (hitems : ∀ e, Runs (⟨id, .wrapped ch (.inl ⟨n + 1, p, env⟩)⟩ :: ts) (env i) e →
      (results' (env i)).items = (results (env i)).items) :
    Family m val results' spawned
      (⟨id, .wrapped ch (.inl ⟨n, p', fun j => env (i.succAbove j)⟩)⟩ :: ts) := by
  have hr : Runs (⟨id, .wrapped ch (.inl ⟨n + 1, p, env⟩)⟩ :: ts) ch ⟨n + 1, p, env⟩ :=
    runs_cons_inl.2 (Or.inl ⟨rfl, rfl⟩)
  have hpart : Code.Part val ⟨n, p', fun j => env (i.succAbove j)⟩ ⟨n + 1, p, env⟩ :=
    ⟨i.succAbove, Fin.succAbove_right_injective, fun _ => rfl, heval⟩
  refine (h.goOn hpart).release (fun d hd => hres d ?_) fun d e he => ?_
  · rintro rfl
    rcases hd with hm | ⟨a, e, j, he, hj⟩
    · exact (h.held _ _ hr i).2.1 hm
    · rcases runs_cons_inl.1 he with ⟨rfl, rfl⟩ | ht
      · exact Fin.succAbove_ne i j (h.injective _ _ hr hj)
      · obtain rfl := h.unique _ _ _ _ j i (ht.cons _) hr hj
        exact h.not_runs_tail rfl ht
  · by_cases hd : d = env i
    · subst hd
      rcases runs_cons_inl.1 he with ⟨rfl, -⟩ | he
      · exact hitems _ (runs_cons_inl.2 (Or.inl ⟨rfl, rfl⟩))
      · exact hitems e (he.cons _)
    · rw [hres d hd]

/-- The front program returns its value. -/
theorem Family.finish {v : V} {env : Fin 0 → Nat}
    (h : Family m val results spawned (⟨id, .wrapped ch (.inl ⟨0, .ret v, env⟩)⟩ :: ts)) :
    Family m val (update results ch ((results ch).enqueue v)) spawned ts := by
  have hr : Runs (⟨id, .wrapped ch (.inl ⟨0, .ret v, env⟩)⟩ :: ts) ch ⟨0, .ret v, env⟩ :=
    runs_cons_inl.2 (Or.inl ⟨rfl, rfl⟩)
  obtain ⟨hempty, hval⟩ := h.value _ _ hr
  have henq : (results ch).enqueue v = { results ch with items := [val ch] } := by
    simp [ResultQueue.enqueue, hempty, hval, Prog.eval]
  have hn := h.nodup
  rw [List.map_cons, List.nodup_cons] at hn
  refine h.transport (fun x hx => List.mem_cons_of_mem _ hx) hn.2
    (fun d e he => ⟨e, he.cons _, .refl e⟩) (fun d ha => alien_cons_inl.2 ha) (fun d _ => ?_)
    (fun d e he => ?_) fun d hd => ?_
  · rcases eq_or_ne d ch with rfl | hne
    · rw [update_self, henq]
    · rw [update_of_ne hne]
  · rcases eq_or_ne d ch with rfl | hne
    · exact absurd he (h.not_runs_tail rfl)
    · rw [update_of_ne hne]
  · rcases eq_or_ne d ch with rfl | hne
    · exact Or.inr (by rw [update_self, henq])
    · rw [update_of_ne hne]
      rcases h.owned d (hd.cons _) with ⟨e, he⟩ | hv
      · exact Or.inl ⟨e, (runs_cons_inl.1 he).resolve_left fun heq => hne heq.1.symm⟩
      · exact Or.inr hv

/-- The front program spawns a sub-program and gives it a share of its handles. -/
theorem Family.spawn {n a b : Nat} {share : Fin a ⊕ Fin b ≃ Fin n} {sub : Prog V a}
    {rest : Prog V (b + 1)} {env : Fin n → Nat} {v : V}
    (h : Family m val results spawned
      (⟨id, .wrapped ch (.inl ⟨n, .spawn share sub rest, env⟩)⟩ :: ts))
    (id' : TaskId) (hv : v = sub.eval fun i => val (env (share (.inl i)))) :
    Family m (update val spawned v) (update results spawned ⟨[], .handle⟩) (spawned + 1)
      (⟨id, .wrapped ch (.inl ⟨b + 1, rest, Fin.cons spawned fun j => env (share (.inr j))⟩)⟩ ::
        ⟨id', .wrapped spawned (.inl ⟨a, sub, fun i => env (share (.inl i))⟩)⟩ :: ts) := by
  have hr : Runs (⟨id, .wrapped ch (.inl ⟨n, .spawn share sub rest, env⟩)⟩ :: ts) ch
      ⟨n, .spawn share sub rest, env⟩ := runs_cons_inl.2 (Or.inl ⟨rfl, rfl⟩)
  have hinj := h.injective _ _ hr
  have hch : ch < spawned := h.channel_lt hr.mem_channels
  have hlt : ∀ i, env i < spawned := fun i => (h.held _ _ hr i).1
  have hvalue := (h.value _ _ hr).2
  have h' : Family m (update val spawned v) (update results spawned ⟨[], .handle⟩) (spawned + 1)
      (⟨id, .wrapped ch (.inl ⟨n, .spawn share sub rest, env⟩)⟩ :: ts) :=
    h.later (Nat.le_succ _) (fun d hd => update_of_ne hd.ne _ _) fun d hd => update_of_ne hd.ne _ _
  have hold : ∀ i, update val spawned v (env i) = val (env i) := fun i =>
    update_of_ne (hlt i).ne _ _
  have htail : ∀ {d e}, Runs ts d e → d ≠ ch := by
    rintro d e he rfl
    exact h.not_runs_tail rfl he
  -- handles of those who run beside the program are of earlier spawns, and not the program's
  have hother : ∀ {d e j}, Runs ts d e → e.env j < spawned ∧ ∀ i, e.env j ≠ env i := by
    intro d e j he
    exact ⟨(h.held d e (he.cons _) j).1, fun i heq =>
      htail he (h.unique _ _ _ _ j i (he.cons _) hr heq)⟩
  have hn := h.nodup
  rw [List.map_cons, List.nodup_cons] at hn
  refine ⟨?_, ?_, h'.root, ?_, ?_, ?_, ?_, ?_, ?_⟩
  · have hw := h'.wrapped
    rw [List.forall_mem_cons] at hw ⊢
    rw [List.forall_mem_cons]
    exact ⟨⟨ch, rfl, Nat.lt_succ_of_lt hch⟩, ⟨spawned, rfl, Nat.lt_succ_self _⟩, hw.2⟩
  · rw [List.map_cons, List.nodup_cons, List.map_cons, List.nodup_cons, List.mem_cons]
    refine ⟨?_, fun hc => Nat.lt_irrefl _ (h.channel_lt (List.mem_cons_of_mem _ hc)), hn.2⟩
    rintro (heq | hc)
    · cases heq
      exact Nat.lt_irrefl _ hch
    · exact hn.1 hc
  · intro d e he i
    rw [runs_cons_inl, runs_cons_inl] at he
    rcases he with ⟨rfl, rfl⟩ | ⟨rfl, rfl⟩ | he
    · refine Fin.cases ?_ (fun j => ?_) i
      · exact ⟨Nat.lt_succ_self _, h.root.1.ne', by simp⟩
      · exact h'.held _ _ hr (share (.inr j))
    · exact h'.held _ _ hr (share (.inl i))
    · exact h'.held d e (he.cons _) i
  · intro d e he
    rw [runs_cons_inl, runs_cons_inl] at he
    rcases he with ⟨rfl, rfl⟩ | ⟨rfl, rfl⟩ | he
    · refine Fin.cons_injective_iff.2 ⟨?_, ?_⟩
      · rintro ⟨j, hj⟩
        exact (hlt _).ne hj
      · exact hinj.comp (share.injective.comp Sum.inr_injective)
    · exact hinj.comp (share.injective.comp Sum.inl_injective)
    · exact h'.injective d e (he.cons _)
  · intro d e d' e' i i' he he' heq
    rw [runs_cons_inl, runs_cons_inl] at he he'
    have hnew : ∀ (i : Fin (b + 1)) k,
        (Fin.cons spawned fun j => env (share (.inr j)) : Fin (b + 1) → Nat) i = k →
        k = spawned ∨ ∃ j, k = env (share (.inr j)) := by
      intro i k
      refine Fin.cases (fun hk => Or.inl hk.symm) (fun j hk => Or.inr ⟨j, hk.symm⟩) i
    rcases he with ⟨rfl, rfl⟩ | ⟨rfl, rfl⟩ | he <;> rcases he' with ⟨rfl, rfl⟩ | ⟨rfl, rfl⟩ | he'
    · rfl
    · rcases hnew i _ heq with hk | ⟨j, hj⟩
      · exact absurd hk (hlt _).ne
      · cases share.injective (hinj hj)
    · rcases hnew i _ heq with hk | ⟨j, hj⟩
      · exact absurd hk (hother he').1.ne
      · exact absurd hj ((hother he').2 _)
    · rcases hnew i' _ heq.symm with hk | ⟨j, hj⟩
      · exact absurd hk (hlt _).ne
      · cases share.injective (hinj hj)
    · rfl
    · exact absurd heq.symm ((hother he').2 _)
    · rcases hnew i' _ heq.symm with hk | ⟨j, hj⟩
      · exact absurd hk (hother he).1.ne
      · exact absurd hj ((hother he).2 _)
    · exact absurd heq ((hother he).2 _)
    · exact h.unique d e d' e' i i' (he.cons _) (he'.cons _) heq
  · intro d e he
    rw [runs_cons_inl, runs_cons_inl] at he
    rcases he with ⟨rfl, rfl⟩ | ⟨rfl, rfl⟩ | he
    · refine ⟨(h'.value _ _ hr).1, ?_⟩
      rw [update_of_ne hch.ne, hvalue, Prog.eval]
      congr 1
      funext i
      refine Fin.cases ?_ (fun j => ?_) i
      · simp [hv]
      · simp [hold]
    · refine ⟨by rw [update_self], ?_⟩
      simp only [hold]
      rw [update_self]
      exact hv
    · exact h'.value d e (he.cons _)
  · intro d hd
    have hd' : d = spawned ∨
      Owned m (⟨id, .wrapped ch (.inl ⟨n, .spawn share sub rest, env⟩)⟩ :: ts) d :=
      hd.of_spawn
    rcases hd' with rfl | hd'
    · exact Or.inl ⟨_, runs_cons_inl.2 (Or.inr (runs_cons_inl.2 (Or.inl ⟨rfl, rfl⟩)))⟩
    · rcases h'.owned d hd' with ⟨e, he⟩ | hv
      · rcases runs_cons_inl.1 he with ⟨rfl, rfl⟩ | he
        · exact Or.inl ⟨_, runs_cons_inl.2 (Or.inl ⟨rfl, rfl⟩)⟩
        · exact Or.inl ⟨e, (he.cons _).cons _⟩
      · exact Or.inr hv
  · intro d ha hd
    rw [alien_cons_inl, alien_cons_inl] at ha
    rcases hd.of_spawn with rfl | hd
    · exact Nat.lt_irrefl _ (h.channel_lt (List.mem_cons_of_mem _ ha.mem_channels))
    · exact h.apart d (alien_cons_inl.2 ha) hd

end Steps

/-! ## The family does not wait for itself -/

/-- A program that waits for no unfinished handle. -/
def ready (results : Nat → ResultQueue V) (t : Task (Code V ⊕ W)) : Bool :=
  match t.future with
  | .wrapped _ (.inl c) => (c.prog.awaits c.env).all fun h => !(results h).items.isEmpty
  | _ => false

section Ready

variable {m ch : Nat} {val : Nat → V} {results results' : Nat → ResultQueue V} {spawned : Nat}
  {ts : List (Task (Code V ⊕ W))} {t : Task (Code V ⊕ W)} {c : Code V}

theorem awaits_env {n : Nat} {p : Prog V n} {env : Fin n → Nat} {h : Nat}
    (ha : p.awaits env = some h) : ∃ i, env i = h := by
  cases p with
  | await i rest =>
    unfold Prog.awaits at ha
    exact ⟨i, Option.some.inj ha⟩
  | _ =>
    unfold Prog.awaits at ha
    cases ha

theorem not_ready_program (ht : t.future = .wrapped ch (.inl c)) :
    ready results t = false ↔ ∃ h, c.prog.awaits c.env = some h ∧ (results h).items = [] := by
  unfold ready
  rw [ht]
  simp only
  cases c.prog.awaits c.env <;> simp

theorem Family.runs_root (h : Family m val results spawned ts) (hm : (results m).items = []) :
    ∃ c, Runs ts m c := by
  rcases h.owned m (Or.inl rfl) with hr | hv
  · exact hr
  · rw [hm] at hv
    cases hv

/-- **As long as the whole is unfinished some program can go on.**  Otherwise each would wait for
another, no two for the same one, and none for the whole: more programs that wait than there are
to wait for. -/
theorem Family.exists_ready (h : Family m val results spawned ts) (hm : (results m).items = []) :
    ∃ t ∈ ts, ready results t = true := by
  by_contra hno
  push Not at hno
  have hwait : ∀ d : {d // ∃ c, Runs ts d c}, ∃ e : {e // ∃ c, Runs ts e c}, ∃ c i,
      Runs ts d.1 c ∧ c.env i = e.1 := by
    rintro ⟨d, c, hr⟩
    obtain ⟨t, ht, hf⟩ := hr
    have hr : Runs ts d c := ⟨t, ht, hf⟩
    obtain ⟨w, haw, hw⟩ := (not_ready_program hf).1 (Bool.eq_false_of_not_eq_true (hno t ht))
    obtain ⟨i, hi⟩ := awaits_env haw
    rcases h.owned w (Or.inr ⟨d, c, i, hr, hi⟩) with hw' | hv
    · exact ⟨⟨w, hw'⟩, c, i, hr, hi⟩
    · rw [hw] at hv
      cases hv
  choose waits code handle hcode hwaits using hwait
  have hfin : Finite {d // ∃ c, Runs ts d c} := by
    refine Set.Finite.subset (List.finite_toSet (ts.filterMap Task.ch?)) ?_
    rintro d ⟨c, t, ht, hf⟩
    refine List.mem_filterMap.2 ⟨t, ht, ?_⟩
    unfold Task.ch?
    rw [hf]
  have hinj : Injective waits := by
    intro d d' heq
    refine Subtype.ext (h.unique _ _ _ _ (handle d) (handle d') (hcode d) (hcode d') ?_)
    rw [hwaits, hwaits, heq]
  obtain ⟨d, hd⟩ := Finite.injective_iff_surjective.1 hinj ⟨m, h.runs_root hm⟩
  refine (h.held _ _ (hcode d) (handle d)).2.1 ?_
  rw [hwaits, hd]

end Ready

end Luminal.NoStd
