import Mathlib.Data.Nat.Notation

/-!
# Repeated rounds

A deterministic step that tells what kind of step it was, taken again and again. Two rules bound
what many steps do by what one of them does: a budget that each step of one kind draws on, and a
rank that falls to zero.
-/

namespace DistributedKV.Theory

variable {X E : Type*} {f : X → X × E} {x : X}

/-- The state after `k` steps, and the kinds of the steps. -/
def rounds (step : X → X × E) : ℕ → X → X × List E
  | 0, x => (x, [])
  | k + 1, x =>
    let r := rounds step k (step x).1
    (r.1, (step x).2 :: r.2)

/-- If every step of kind `e` takes one from a budget, and no other step adds to it, the steps of
kind `e` stay within the budget. -/
theorem count_rounds_le [DecidableEq E] {e : E} {P : X → ℕ → Prop}
    (hstep : ∀ {x b}, P x b →
      ∃ b', P (f x).1 b' ∧ b' + (if (f x).2 = e then 1 else 0) ≤ b)
    (h : P x b) (k : ℕ) : (rounds f k x).2.count e ≤ b := by
  induction k generalizing x b with
  | zero => exact Nat.zero_le b
  | succ k ih =>
    obtain ⟨b', hb', hle⟩ := hstep h
    rw [rounds, List.count_cons]
    have := ih hb'
    simp only [beq_iff_eq]
    omega

/-- If every step lowers a rank that is not zero, the rank is zero after as many steps. -/
theorem rank_rounds {P : X → ℕ → Prop} (hstep : ∀ {x m}, P x m → P (f x).1 (m - 1))
    (h : P x m) (hk : m ≤ k) : P (rounds f k x).1 0 := by
  induction k generalizing x m with
  | zero => rwa [Nat.le_zero.mp hk] at h
  | succ k ih => exact ih (hstep h) (by omega)

end DistributedKV.Theory
