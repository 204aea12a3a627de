import Mathlib.Data.List.Basic

/-!
# Words with a common beginning

In the lexicographic order the words that begin with `p` are an interval. It starts with `p` and
ends before the word that comes of `p` by going on to the next letter at its last place where there
is one (`upperBound`); it has no end if there is no such place.
-/

namespace DistributedKV.Theory

variable {α : Type*}

def upperBound (next : α → Option α) : List α → Option (List α)
  | [] => none
  | a :: l =>
    match upperBound next l with
    | some u => some (a :: u)
    | none => (next a).map fun b => [b]

/-- The last letter decides, if there is a next one. -/
theorem upperBound_concat {next : α → Option α} (l : List α) (a : α) :
    upperBound next (l ++ [a]) =
      match next a with
      | some b => some (l ++ [b])
      | none => upperBound next l := by
  induction l with
  | nil => cases h : next a <;> simp [upperBound, h]
  | cons x l ih =>
    rw [List.cons_append, upperBound, ih]
    cases next a <;> rfl

section Compare
variable [Ord α] [Std.LawfulEqOrd α] {a b : α} {l m : List α}

theorem isLE_cons_cons :
    (compare (a :: l) (b :: m)).isLE ↔ compare a b = .lt ∨ a = b ∧ (compare l m).isLE := by
  rw [List.compare_cons_cons, ← Std.compare_eq_iff_eq (a := a)]
  cases compare a b <;> simp

theorem lt_cons_cons :
    compare (a :: l) (b :: m) = .lt ↔ compare a b = .lt ∨ a = b ∧ compare l m = .lt := by
  rw [List.compare_cons_cons, ← Std.compare_eq_iff_eq (a := a)]
  cases compare a b <;> simp

variable [LE α] [LT α] [Std.LawfulOrderOrd α] [Std.LawfulOrderLT α]

theorem compare_eq_lt_iff : compare l m = .lt ↔ l < m := by
  induction l generalizing m with
  | nil => cases m <;> simp
  | cons a l ih =>
    cases m with
    | nil => simp
    | cons b m => rw [lt_cons_cons, ih, Std.compare_eq_lt, List.cons_lt_cons_iff]

theorem isLE_compare_iff [Std.TransOrd α] : (compare l m).isLE ↔ l ≤ m := by
  have hswap : compare l m = (compare m l).swap := Std.OrientedOrd.eq_swap
  rw [← List.not_lt, ← compare_eq_lt_iff, hswap]
  cases compare m l <;> simp

end Compare

/-- `next` goes on to the next letter, from all but the greatest. -/
structure Successor [Ord α] (next : α → Option α) : Prop where
  lt_iff : ∀ {a b}, next a = some b → ∀ c, compare c b = .lt ↔ (compare c a).isLE
  greatest : ∀ {a}, next a = none → ∀ c, (compare c a).isLE

variable [Ord α] [Std.LawfulEqOrd α] {next : α → Option α}

/-- The bound is passed at the first letter or after it. -/
theorem Successor.below_cons (h : Successor next) (a c : α) (p k : List α) :
    (∀ u ∈ upperBound next (a :: p), compare (c :: k) u = .lt) ↔
      compare c a = .lt ∨ c = a ∧ ∀ u ∈ upperBound next p, compare k u = .lt := by
  have hle : (compare c a).isLE ↔ compare c a = .lt ∨ c = a := by
    rw [← Std.compare_eq_iff_eq (a := c)]
    cases compare c a <;> simp
  rw [upperBound]
  cases hu : upperBound next p with
  | some u => simp only [Option.mem_def, Option.some.injEq, forall_eq', lt_cons_cons]
  | none =>
    cases hb : next a with
    | none => simpa using hle.mp (h.greatest hb c)
    | some b =>
      have hnil : ¬compare k [] = .lt := by cases k <;> simp
      simp only [Option.map_some, Option.mem_def, Option.some.injEq, forall_eq', lt_cons_cons, hnil,
        and_false, or_false, h.lt_iff hb, hle, reduceCtorEq, false_imp_iff, implies_true, and_true]

/-- **The words that begin with `p`.** -/
theorem Successor.isPrefix_iff [Std.TransOrd α] (h : Successor next) (p k : List α) :
    p <+: k ↔ (compare p k).isLE ∧ ∀ u ∈ upperBound next p, compare k u = .lt := by
  induction p generalizing k with
  | nil =>
    have hle : (compare [] k).isLE := by cases k <;> simp
    simp [upperBound, hle]
  | cons a p ih =>
    cases k with
    | nil => simp
    | cons c k =>
      rw [List.cons_prefix_cons, ih, isLE_cons_cons, h.below_cons]
      constructor
      · rintro ⟨rfl, hle, hbelow⟩
        exact ⟨.inr ⟨rfl, hle⟩, .inr ⟨rfl, hbelow⟩⟩
      · rintro ⟨hlt | ⟨rfl, hle⟩, hbelow⟩
        · -- a later letter is below no bound
          have hgt : compare c a = .gt := Std.OrientedCmp.gt_of_lt hlt
          rcases hbelow with hlt' | ⟨rfl, -⟩
          · simp [hgt] at hlt'
          · simp at hgt
        · exact ⟨rfl, hle, (hbelow.resolve_left (by simp)).2⟩

end DistributedKV.Theory
