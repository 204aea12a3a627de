import Mathlib.Data.Set.Basic

/-!
# Linearizability

A sequential object answers one operation after the other. Operations of concurrent clients are
invoked and return at numbered moments; they are linearizable if those that have returned, and
some of the others, can be put in an order in which the object gives the same answers and which
never has an operation before another one that had returned when it was invoked.

Where an object keeps a log of updates there is a standard order: the update at place `i`, then the
queries that were answered from the state after it (`arrange`).
-/

namespace DistributedKV.Theory

variable {σ I O : Type*}

structure Object (σ I O : Type*) where
  init : σ
  step : σ → I → σ × O

/-- An operation, with the moment at which it returned and its answer if it has returned. -/
structure Operation (I O : Type*) where
  invoked : ℕ
  input : I
  returned : Option (ℕ × O) := none
deriving DecidableEq

namespace Operation

/-- `a` had returned when `b` was invoked. -/
def Precedes (a b : Operation I O) : Prop := ∃ x ∈ a.returned, x.1 ≤ b.invoked

/-- The answer, if there is one, is the one that the object gives in state `s`. -/
def Answered (obj : Object σ I O) (s : σ) (a : Operation I O) : Prop :=
  ∀ x ∈ a.returned, x.2 = (obj.step s a.input).2

end Operation

namespace Object

variable (obj : Object σ I O)

def run (s : σ) (l : List (Operation I O)) : σ := l.foldl (fun s a => (obj.step s a.input).1) s

/-- The operations of `l` are answered one after the other, from state `s` on. -/
def Legal : σ → List (Operation I O) → Prop
  | _, [] => True
  | s, a :: l => a.Answered obj s ∧ Legal (obj.step s a.input).1 l

structure Linearizes (H : Set (Operation I O)) (l : List (Operation I O)) : Prop where
  nodup : l.Nodup
  subset : ∀ a ∈ l, a ∈ H
  complete : ∀ a ∈ H, a.returned.isSome → a ∈ l
  legal : obj.Legal obj.init l
  realTime : l.Pairwise fun a b => ¬b.Precedes a

def Linearizable (H : Set (Operation I O)) : Prop := ∃ l, obj.Linearizes H l

variable {obj} {s : σ} {l l' : List (Operation I O)}

theorem legal_append : obj.Legal s (l ++ l') ↔ obj.Legal s l ∧ obj.Legal (obj.run s l) l' := by
  induction l generalizing s with
  | nil => simp [Legal, run]
  | cons a l ih =>
    rw [List.cons_append, Legal, Legal, ih, and_assoc]
    rfl

/-- Operations that leave the state as it is. -/
theorem legal_queries (h : ∀ a ∈ l, (obj.step s a.input).1 = s ∧ a.Answered obj s) :
    obj.Legal s l ∧ obj.run s l = s := by
  induction l with
  | nil => exact ⟨trivial, rfl⟩
  | cons a l ih =>
    obtain ⟨hstep, hans⟩ := h a List.mem_cons_self
    obtain ⟨hl, hr⟩ := ih fun b hb => h b (List.mem_cons_of_mem _ hb)
    refine ⟨⟨hans, hstep.symm ▸ hl⟩, ?_⟩
    show obj.run (obj.step s a.input).1 l = s
    rw [hstep, hr]

end Object

/-! ## Logs of updates -/

/-- The updates and queries of a log: `update i` leads from state `i - 1` to state `i`, and
`queries i` are answered from state `i`. -/
structure Layout (I O : Type*) where
  update : ℕ → Option (Operation I O)
  queries : ℕ → List (Operation I O)

namespace Layout

variable (L : Layout I O)

def arrange : ℕ → List (Operation I O)
  | 0 => L.queries 0
  | i + 1 => arrange i ++ ((L.update (i + 1)).toList ++ L.queries (i + 1))

/-- The rank of an operation in the order: even for updates, odd for queries. -/
inductive At (a : Operation I O) : ℕ → Prop where
  | update : L.update (i + 1) = some a → At a (2 * (i + 1))
  | query : a ∈ L.queries i → At a (2 * i + 1)

variable {L} {a : Operation I O}

theorem mem_arrange : a ∈ L.arrange n ↔ ∃ p, p ≤ 2 * n + 1 ∧ L.At a p := by
  induction n with
  | zero =>
    refine ⟨fun h => ⟨1, le_rfl, .query (i := 0) h⟩, ?_⟩
    rintro ⟨p, hp, h⟩
    cases h with
    | update => omega
    | @query i h =>
      obtain rfl : i = 0 := by omega
      exact h
  | succ n ih =>
    rw [arrange, List.mem_append, List.mem_append, ih, Option.mem_toList]
    constructor
    · rintro (⟨p, hp, h⟩ | h | h)
      · exact ⟨p, by omega, h⟩
      · exact ⟨_, by omega, .update h⟩
      · exact ⟨_, le_rfl, .query h⟩
    · rintro ⟨p, hp, h⟩
      rcases Nat.lt_or_ge p (2 * n + 2) with hlt | hge
      · exact .inl ⟨p, by omega, h⟩
      · right
        cases h with
        | @update i h =>
          obtain rfl : i = n := by omega
          exact .inl h
        | @query i h =>
          obtain rfl : i = n + 1 := by omega
          exact .inr h

/-- The states of the object along the log. -/
structure Explains (L : Layout I O) (obj : Object σ I O) (state : ℕ → σ) : Prop where
  init : state 0 = obj.init
  update : ∀ {i a}, L.update (i + 1) = some a →
    (obj.step (state i) a.input).1 = state (i + 1) ∧ a.Answered obj (state i)
  skip : ∀ {i}, L.update (i + 1) = none → state (i + 1) = state i
  query : ∀ {i a}, a ∈ L.queries i → (obj.step (state i) a.input).1 = state i ∧
    a.Answered obj (state i)

theorem Explains.legal {obj : Object σ I O} {state : ℕ → σ} (h : L.Explains obj state) (n : ℕ) :
    obj.Legal obj.init (L.arrange n) ∧ obj.run obj.init (L.arrange n) = state n := by
  induction n with
  | zero =>
    have hq := Object.legal_queries (s := state 0) fun a (ha : a ∈ L.queries 0) => h.query ha
    rwa [← h.init]
  | succ n ih =>
    have hq := Object.legal_queries (s := state (n + 1)) fun a (ha : a ∈ L.queries (n + 1)) =>
      h.query ha
    have hrun (l : List (Operation I O)) : obj.run obj.init (L.arrange n ++ l) =
        obj.run (state n) l := by
      rw [Object.run, List.foldl_append]
      exact congrArg (obj.run · l) ih.2
    rw [arrange, Object.legal_append, hrun, ih.2]
    cases hu : L.update (n + 1) with
    | none =>
      rw [Option.toList_none, List.nil_append, ← h.skip hu]
      exact ⟨⟨ih.1, hq.1⟩, hq.2⟩
    | some a =>
      obtain ⟨hstep, hans⟩ := h.update hu
      have hnext (l : List (Operation I O)) : obj.run (state n) (a :: l) =
          obj.run (state (n + 1)) l := congrArg (obj.run · l) hstep
      rw [Option.toList_some, List.singleton_append, hnext]
      exact ⟨⟨ih.1, hans, hstep.symm ▸ hq.1⟩, hq.2⟩

/-- What makes the order respect real time: an operation that had returned when another one was
invoked has no higher rank. -/
structure InTime (L : Layout I O) : Prop where
  lasts : ∀ {a p}, L.At a p → ∀ x ∈ a.returned, a.invoked < x.1
  sorted : ∀ i, (L.queries i).Pairwise fun a b => a.invoked < b.invoked
  unique : ∀ {a p q}, L.At a p → L.At a q → p = q
  order : ∀ {a b p q}, L.At a p → L.At b q → a.Precedes b → p ≤ q

namespace InTime

/-- `b` may come after `a` in the order. -/
def After (a b : Operation I O) : Prop := a ≠ b ∧ ¬b.Precedes a

theorem after_of_lt (h : L.InTime) (ha : L.At a p) (hb : L.At b q) (hlt : p < q) : After a b := by
  refine ⟨?_, fun hprec => ?_⟩
  · rintro rfl
    exact hlt.ne (h.unique ha hb)
  · exact hlt.not_ge (h.order hb ha hprec)

theorem queries (h : L.InTime) (i : ℕ) : (L.queries i).Pairwise After := by
  refine (h.sorted i).imp_of_mem fun {a b} ha hb hlt => ⟨?_, ?_⟩
  · rintro rfl
    exact lt_irrefl _ hlt
  · rintro ⟨x, hx, hle⟩
    have := h.lasts (.query hb) x hx
    omega

theorem arrange (h : L.InTime) (n : ℕ) : (L.arrange n).Pairwise After := by
  induction n with
  | zero => exact h.queries 0
  | succ n ih =>
    have hnew : ∀ b ∈ (L.update (n + 1)).toList ++ L.queries (n + 1), ∃ q, 2 * n + 1 < q ∧
        L.At b q := by
      intro b hb
      rcases List.mem_append.mp hb with hb | hb
      · exact ⟨_, by omega, .update (Option.mem_toList.mp hb)⟩
      · exact ⟨_, by omega, .query hb⟩
    rw [Layout.arrange, List.pairwise_append, List.pairwise_append]
    refine ⟨ih, ⟨?_, h.queries (n + 1), fun a ha b hb => ?_⟩, fun a ha b hb => ?_⟩
    · cases L.update (n + 1) <;> simp
    · exact h.after_of_lt (.update (Option.mem_toList.mp ha)) (.query hb) (Nat.lt_succ_self _)
    · obtain ⟨p, hp, ha⟩ := mem_arrange.mp ha
      obtain ⟨q, hq, hb⟩ := hnew b hb
      exact h.after_of_lt ha hb (by omega)

end InTime

/-- **Operations that are laid out along a log are linearizable.** -/
theorem linearizable {obj : Object σ I O} {state : ℕ → σ} {H : Set (Operation I O)} (n : ℕ)
    (hstate : L.Explains obj state) (htime : L.InTime) (hsub : ∀ {a p}, L.At a p → a ∈ H)
    (hall : ∀ a ∈ H, a.returned.isSome → ∃ p ≤ 2 * n + 1, L.At a p) : obj.Linearizable H := by
  refine ⟨L.arrange n, (htime.arrange n).imp And.left, fun a ha => ?_, fun a ha hret => ?_,
    (hstate.legal n).1, (htime.arrange n).imp And.right⟩
  · obtain ⟨p, -, ha⟩ := mem_arrange.mp ha
    exact hsub ha
  · exact mem_arrange.mpr (hall a ha hret)

end Layout

end DistributedKV.Theory
