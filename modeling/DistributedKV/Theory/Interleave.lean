import Mathlib.Data.List.Basic
import Mathlib.Data.Sum.Basic

/-!
# Interleavings of calls on a shared state

A `Program` describes calls that run one atomic step at a time. A call in progress is a task: a
place in the code with the local variables that are alive there. A pool is the shared state
together with the calls in progress; a scheduler begins calls, runs one step of one call, or
crashes the process. `Runs` collects what a scheduler restricted by `ok` can do, with the pools it
went through.

`Outline` is the method of proof outlines: an assertion about the pool, one for each place in the
code, and one about pairs of calls that are in progress together. Checking each step once against
these (`Outline.Valid`) gives them for every interleaving.
-/

namespace DistributedKV.Theory

/-- Calls on a shared state `S`. A step of a task `T` gets `I` from outside; it moves the task on
or ends the call with a result `R`. A process that is started with `X` after a crash begins with
what `recover` makes of the state, if it starts at all. -/
structure Program (S T I R X : Type*) where
  exec : S → T → I → S × (T ⊕ R)
  recover : S → X → Option S

structure Pool (S T : Type*) where
  state : S
  tasks : List T

/-- What a scheduler can do: begin a call, run a step of the `k`th call in progress, or crash. -/
inductive Turn (T I X : Type*) where
  | call (t : T)
  | run (k : ℕ) (i : I)
  | crash (x : X)

/-- The pools a run went through, each with the turn taken there. -/
abbrev Trace (S T I X : Type*) := List (Pool S T × Turn T I X)

variable {S T I R X : Type*}

def Pool.step (P : Program S T I R X) (p : Pool S T) : Turn T I X → Option (Pool S T)
  | .call t => some ⟨p.state, p.tasks ++ [t]⟩
  | .run k i =>
    match p.tasks[k]? with
    | none => none
    | some t =>
      let r := P.exec p.state t i
      some ⟨r.1, p.tasks.take k ++ (Sum.getLeft? r.2).toList ++ p.tasks.drop (k + 1)⟩
  | .crash x => (P.recover p.state x).map fun s => ⟨s, []⟩

/-- The runs from `s₀` whose turns all satisfy `ok`. -/
inductive Runs (P : Program S T I R X) (ok : Pool S T → Turn T I X → Prop) (s₀ : S) :
    Trace S T I X → Pool S T → Prop where
  | init : Runs P ok s₀ [] ⟨s₀, []⟩
  | step : Runs P ok s₀ tr p → ok p a → p.step P a = some p' → Runs P ok s₀ (tr ++ [(p, a)]) p'

variable {P : Program S T I R X} {ok : Pool S T → Turn T I X → Prop} {s₀ : S}

/-! ## Turns -/

/-- The ways in which a turn changes a pool. -/
inductive Pool.Steps (P : Program S T I R X) (p : Pool S T) : Turn T I X → Pool S T → Prop where
  | call : p.Steps P (.call t) ⟨p.state, p.tasks ++ [t]⟩
  | run {l₁ l₂ : List T} {n : T ⊕ R} : p.tasks = l₁ ++ t :: l₂ → P.exec p.state t i = (s, n) →
    p.Steps P (.run l₁.length i) ⟨s, l₁ ++ (Sum.getLeft? n).toList ++ l₂⟩
  | crash : P.recover p.state x = some s → p.Steps P (.crash x) ⟨s, []⟩

theorem Pool.step_inv {p : Pool S T} (h : p.step P a = some p') : p.Steps P a p' := by
  cases a with
  | call t => cases h; exact .call
  | crash x =>
    obtain ⟨s, hs, rfl⟩ := Option.map_eq_some_iff.mp h
    exact .crash hs
  | run k i =>
    simp only [Pool.step] at h
    split at h
    · cases h
    · next t ht =>
      cases h
      obtain ⟨hk, rfl⟩ := List.getElem?_eq_some_iff.mp ht
      have hlen : (p.tasks.take k).length = k := List.length_take_of_le (Nat.le_of_lt hk)
      have htasks : p.tasks = p.tasks.take k ++ p.tasks[k] :: p.tasks.drop (k + 1) := by simp
      have := Steps.run (P := P) (i := i) htasks rfl
      rwa [hlen] at this

/-! ## Runs -/

/-- Every pool of a trace was reached by a run, and its turn was allowed. -/
theorem Runs.of_mem (h : Runs P ok s₀ tr p) (hx : (q, a) ∈ tr) :
    ∃ tr', Runs P ok s₀ tr' q ∧ ok q a ∧ tr' <+: tr := by
  induction h with
  | init => cases hx
  | step h hok hs ih =>
    rcases List.mem_append.mp hx with hx | hx
    · obtain ⟨tr', hrun, hq, hpre⟩ := ih hx
      exact ⟨tr', hrun, hq, hpre.trans (List.prefix_append ..)⟩
    · cases List.mem_singleton.mp hx
      exact ⟨_, h, hok, List.prefix_append ..⟩

/-- What every turn of a run does to the state, if it composes, earlier and later states are
related by. -/
theorem Runs.related {r : S → S → Prop}
    (htrans : ∀ {s s' s''}, r s s' → r s' s'' → r s s'')
    (hstep : ∀ {tr p a p'}, Runs P ok s₀ tr p → ok p a → p.Steps P a p' → r p.state p'.state)
    (h : Runs P ok s₀ tr p) : ∀ x ∈ tr, r x.1.state p.state := by
  induction h with
  | init => simp
  | step h hok hs ih =>
    have hlast := hstep h hok (Pool.step_inv hs)
    intro x hx
    rcases List.mem_append.mp hx with hx | hx
    · exact htrans (ih x hx) hlast
    · cases List.mem_singleton.mp hx
      exact hlast

/-! ## Proof outlines -/

structure Outline (S T I X : Type*) where
  /-- What holds of the pool. -/
  shared : Trace S T I X → Pool S T → Prop
  /-- What holds while a call stands at a place in the code. -/
  here : Trace S T I X → S → T → Prop
  /-- Which calls can be in progress together. -/
  apart : T → T → Prop

namespace Outline

structure Holds (O : Outline S T I X) (tr : Trace S T I X) (p : Pool S T) : Prop where
  shared : O.shared tr p
  here : ∀ t ∈ p.tasks, O.here tr p.state t
  apart : p.tasks.Pairwise O.apart

section
variable {O : Outline S T I X} {p : Pool S T} {l₁ l₂ : List T}

/-- What holds where the task that moves stands. -/
theorem Holds.self (h : O.Holds tr p) (ht : p.tasks = l₁ ++ t :: l₂) : O.here tr p.state t :=
  h.here t (by simp [ht])

/-- What holds where another one stands. -/
theorem Holds.other (h : O.Holds tr p) (ht : p.tasks = l₁ ++ t :: l₂) (hu : u ∈ l₁ ++ l₂) :
    O.here tr p.state u := by
  refine h.here u ?_
  rw [ht]
  rcases List.mem_append.mp hu with hu | hu
  · exact List.mem_append_left _ hu
  · exact List.mem_append_right _ (List.mem_cons_of_mem _ hu)

theorem Holds.apart_other (h : O.Holds tr p) (hsymm : ∀ {t u}, O.apart t u → O.apart u t)
    (ht : p.tasks = l₁ ++ t :: l₂) (hu : u ∈ l₁ ++ l₂) : O.apart u t := by
  have hp := h.apart
  rw [ht, List.pairwise_append, List.pairwise_cons] at hp
  rcases List.mem_append.mp hu with hu | hu
  · exact hp.2.2 u hu t List.mem_cons_self
  · exact hsymm (hp.2.1.1 u hu)

end

/-- Every turn keeps the assertions. In `run`, `l₁` and `l₂` are the calls that do not move. -/
structure Valid (O : Outline S T I X) (P : Program S T I R X)
    (ok : Pool S T → Turn T I X → Prop) : Prop where
  symm : ∀ {t u}, O.apart t u → O.apart u t
  call : ∀ {tr p t}, O.Holds tr p → ok p (.call t) →
    O.shared (tr ++ [(p, .call t)]) ⟨p.state, p.tasks ++ [t]⟩ ∧
    O.here (tr ++ [(p, .call t)]) p.state t ∧
    ∀ u ∈ p.tasks, O.here (tr ++ [(p, .call t)]) p.state u ∧ O.apart u t
  run : ∀ {tr p t i s} {l₁ l₂ : List T} {n : T ⊕ R}, O.Holds tr p → ok p (.run l₁.length i) →
    p.tasks = l₁ ++ t :: l₂ → P.exec p.state t i = (s, n) →
    O.shared (tr ++ [(p, .run l₁.length i)]) ⟨s, l₁ ++ (Sum.getLeft? n).toList ++ l₂⟩ ∧
    (∀ u ∈ l₁ ++ l₂, O.here (tr ++ [(p, .run l₁.length i)]) s u) ∧
    ∀ t', n = .inl t' → O.here (tr ++ [(p, .run l₁.length i)]) s t' ∧ ∀ u ∈ l₁ ++ l₂, O.apart u t'
  crash : ∀ {tr p x s}, O.Holds tr p → ok p (.crash x) → P.recover p.state x = some s →
    O.shared (tr ++ [(p, .crash x)]) ⟨s, []⟩

theorem Valid.step {O : Outline S T I X} (V : O.Valid P ok) (h : O.Holds tr p) (hok : ok p a)
    (hs : p.Steps P a p') : O.Holds (tr ++ [(p, a)]) p' := by
  cases hs with
  | call =>
    obtain ⟨hshared, hnew, hold⟩ := V.call h hok
    refine ⟨hshared, fun u hu => ?_, List.pairwise_append.mpr ⟨h.apart, List.pairwise_singleton ..,
      fun u hu v hv => ?_⟩⟩
    · rcases List.mem_append.mp hu with hu | hu
      · exact (hold u hu).1
      · cases List.mem_singleton.mp hu
        exact hnew
    · cases List.mem_singleton.mp hv
      exact (hold u hu).2
  | @run t i s l₁ l₂ n htasks hex =>
    obtain ⟨hshared, hothers, hnext⟩ := V.run h hok htasks hex
    have hapart := h.apart
    rw [htasks, List.pairwise_append, List.pairwise_cons] at hapart
    obtain ⟨h₁, ⟨-, h₂⟩, h₁₂⟩ := hapart
    have hrest : (l₁ ++ l₂).Pairwise O.apart :=
      List.pairwise_append.mpr ⟨h₁, h₂, fun u hu v hv => h₁₂ u hu v (List.mem_cons_of_mem _ hv)⟩
    cases n with
    | inr r => exact ⟨hshared, by simpa using hothers, by simpa using hrest⟩
    | inl t' =>
      obtain ⟨hhere, hap⟩ := hnext t' rfl
      refine ⟨hshared, fun u hu => ?_, ?_⟩
      · have hu : u ∈ l₁ ++ l₂ ∨ u = t' := by
          simp only [Sum.getLeft?_inl, Option.toList_some, List.mem_append,
            List.mem_singleton] at hu ⊢
          tauto
        rcases hu with hu | rfl
        · exact hothers u hu
        · exact hhere
      · show (l₁ ++ [t'] ++ l₂).Pairwise O.apart
        refine List.pairwise_append.mpr ⟨List.pairwise_append.mpr ⟨h₁, List.pairwise_singleton ..,
          fun u hu v hv => ?_⟩, h₂, fun u hu v hv => ?_⟩
        · cases List.mem_singleton.mp hv
          exact hap u (List.mem_append_left _ hu)
        · rcases List.mem_append.mp hu with hu | hu
          · exact h₁₂ u hu v (List.mem_cons_of_mem _ hv)
          · cases List.mem_singleton.mp hu
            exact V.symm (hap v (List.mem_append_right _ hv))
  | crash hs => exact ⟨V.crash h hok hs, by simp, .nil⟩

theorem Valid.holds {O : Outline S T I X} (V : O.Valid P ok) (h₀ : O.shared [] ⟨s₀, []⟩)
    (h : Runs P ok s₀ tr p) : O.Holds tr p := by
  induction h with
  | init => exact ⟨h₀, by simp, .nil⟩
  | step _ hok hs ih => exact V.step ih hok (Pool.step_inv hs)

end Outline

/-! ## One call by itself -/

/-- A call runs alone, as many steps as `is` has inputs for. -/
def Program.advance (P : Program S T I R X) (s : S) (t : T) : List I → S × (T ⊕ R)
  | [] => (s, .inl t)
  | i :: is =>
    match P.exec s t i with
    | (s', .inl t') => P.advance s' t' is
    | (s', .inr r) => (s', .inr r)

/-- What holds at each place of a call's code, if its own steps keep it, holds however far the
call gets. -/
theorem Program.advance_induct {J : S → T ⊕ R → Prop} (ok : I → Prop)
    (hstep : ∀ {s t i}, J s (.inl t) → ok i → J (P.exec s t i).1 (P.exec s t i).2)
    (h : J s (.inl t)) (his : ∀ i ∈ is, ok i) : J (P.advance s t is).1 (P.advance s t is).2 := by
  induction is generalizing s t with
  | nil => exact h
  | cons i is ih =>
    have hi := hstep h (his i List.mem_cons_self)
    unfold Program.advance
    split
    · next s' t' hex =>
      rw [hex] at hi
      exact ih hi fun j hj => his j (List.mem_cons_of_mem _ hj)
    · next s' r hex =>
      rw [hex] at hi
      exact hi

/-- The call `t`, run alone from `s` with the same input at every step, comes to `x` in `s'`. -/
inductive Program.Goes (P : Program S T I R X) (i : I) : S → T → S → T ⊕ R → Prop where
  | refl : P.Goes i s t s (.inl t)
  | ret : P.exec s t i = (s', .inr r) → P.Goes i s t s' (.inr r)
  | next : P.exec s t i = (s₁, .inl t₁) → P.Goes i s₁ t₁ s' x → P.Goes i s t s' x

/-! ## Executions -/

section
variable (P ok) [∀ p a, Decidable (ok p a)]

/-- Take a list of turns that all satisfy `ok`. -/
def Pool.exec (p : Pool S T) (tr : Trace S T I X) :
    List (Turn T I X) → Option (Trace S T I X × Pool S T)
  | [] => some (tr, p)
  | a :: as =>
    if ok p a then
      match p.step P a with
      | some p' => p'.exec (tr ++ [(p, a)]) as
      | none => none
    else none

theorem Runs.of_exec {ok' : Pool S T → Turn T I X → Prop}
    (hok : ∀ {q a}, a ∈ as → ok q a → ok' q a) (h : Runs P ok' s₀ tr p)
    (hx : p.exec P ok tr as = some (tr', p')) : Runs P ok' s₀ tr' p' := by
  induction as generalizing p tr with
  | nil => cases hx; exact h
  | cons a as ih =>
    simp only [Pool.exec] at hx
    split at hx
    · next ha =>
      split at hx
      · next hs =>
        exact ih (fun ha => hok (List.mem_cons_of_mem _ ha))
          (.step h (hok List.mem_cons_self ha) hs) hx
      · cases hx
    · cases hx

/-- The turns can be taken from `s₀`, and lead to where `goal` holds. -/
def Reaches (s₀ : S) (as : List (Turn T I X)) (goal : Trace S T I X → Pool S T → Prop) : Prop :=
  match Pool.exec P ok ⟨s₀, []⟩ [] as with
  | some (tr, p) => goal tr p
  | none => False

instance {goal : Trace S T I X → Pool S T → Prop} [∀ tr p, Decidable (goal tr p)] :
    Decidable (Reaches P ok s₀ as goal) :=
  match h : Pool.exec P ok ⟨s₀, []⟩ [] as with
  | some (tr, p) => decidable_of_iff (goal tr p) (by simp [Reaches, h])
  | none => isFalse (by simp [Reaches, h])

variable {P ok}

/-- The turns are allowed by `ok'` as well, which need not be decidable. -/
theorem Reaches.runs_of {ok' : Pool S T → Turn T I X → Prop}
    {goal : Trace S T I X → Pool S T → Prop} (h : Reaches P ok s₀ as goal)
    (hok : ∀ {q a}, a ∈ as → ok q a → ok' q a) : ∃ tr p, Runs P ok' s₀ tr p ∧ goal tr p := by
  unfold Reaches at h
  split at h
  · next tr p hx => exact ⟨tr, p, Runs.of_exec P ok hok .init hx, h⟩
  · exact h.elim

theorem Reaches.runs {goal : Trace S T I X → Pool S T → Prop} (h : Reaches P ok s₀ as goal) :
    ∃ tr p, Runs P ok s₀ tr p ∧ goal tr p := h.runs_of fun _ hq => hq

end

end DistributedKV.Theory
