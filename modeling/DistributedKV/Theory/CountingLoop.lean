import Mathlib.Algebra.Group.Nat.Defs
import Mathlib.Data.List.Basic

/-!
# Counting loops on machine words

The loop `for i := lo; i <= hi; i++` on unsigned words of `w` bits, whose body runs in a monad so
that it can leave the loop. `forTo` takes at most `fuel` turns, and gives `none` if the loop has not
ended by then. Up to a last word that has a successor the loop is a fold over the words in between;
up to the largest word it goes on for ever, unless its body leaves it.
-/

namespace DistributedKV.Theory

section
variable {m : Type u → Type v} [Monad m] {α : Type u} {w : ℕ}

def forTo (w : ℕ) (body : ℕ → α → m α) : (fuel lo hi : ℕ) → α → m (Option α)
  | 0, _, _, _ => pure none
  | fuel + 1, lo, hi, x =>
    if lo ≤ hi then body lo x >>= forTo w body fuel ((lo + 1) % 2 ^ w) hi else pure (some x)

/-- The words from `lo` to `hi`, in order. -/
def wordsTo (lo hi : ℕ) : List ℕ := List.range' lo (hi + 1 - lo)

theorem wordsTo_of_lt (h : hi < lo) : wordsTo lo hi = [] := by
  rw [wordsTo, show hi + 1 - lo = 0 by omega]
  rfl

theorem wordsTo_of_le (h : lo ≤ hi) : wordsTo lo hi = lo :: wordsTo (lo + 1) hi := by
  rw [wordsTo, show hi + 1 - lo = (hi + 1 - (lo + 1)) + 1 by omega]
  rfl

theorem forTo_eq [LawfulMonad m] {body : ℕ → α → m α} (hhi : hi + 1 < 2 ^ w)
    (hfuel : hi + 1 - lo < fuel) (x : α) :
    forTo w body fuel lo hi x = some <$> (wordsTo lo hi).foldlM (fun x i => body i x) x := by
  induction fuel generalizing lo x with
  | zero => omega
  | succ fuel ih =>
    rw [forTo]
    split
    · next hle =>
      have hnext : (lo + 1) % 2 ^ w = lo + 1 := Nat.mod_eq_of_lt (by omega)
      rw [wordsTo_of_le hle, List.foldlM_cons, map_bind, hnext]
      exact bind_congr fun y => ih (by omega) y
    · next hlt =>
      rw [wordsTo_of_lt (Nat.lt_of_not_le hlt), List.foldlM_nil, map_pure]

end

section
variable {α ε : Type u} {w : ℕ}

/-- A body that fails leaves the loop before the counter wraps around. -/
theorem forTo_error {body : ℕ → α → Except ε α} (hhi : hi < 2 ^ w) (hfuel : hi + 1 - lo < fuel)
    (h : (wordsTo lo hi).foldlM (fun x i => body i x) x = .error e) :
    forTo w body fuel lo hi x = .error e := by
  induction fuel generalizing lo x with
  | zero => omega
  | succ fuel ih =>
    rw [forTo]
    split
    · next hle =>
      rw [wordsTo_of_le hle, List.foldlM_cons] at h
      cases hb : body lo x with
      | error e' =>
        rw [hb] at h
        cases h
        rfl
      | ok y =>
        rw [hb] at h
        have hlt : lo < hi := by
          refine Nat.lt_of_le_of_ne hle fun heq => ?_
          rw [heq, wordsTo_of_lt (Nat.lt_succ_self hi)] at h
          cases h
        have hnext : (lo + 1) % 2 ^ w = lo + 1 := Nat.mod_eq_of_lt (by omega)
        rw [hnext]
        exact ih (by omega) h
    · next hlt =>
      rw [wordsTo_of_lt (Nat.lt_of_not_le hlt)] at h
      cases h

/-- Up to the largest word the loop does not end. -/
theorem forTo_never (body : ℕ → α → Id α) (fuel : ℕ) (hlo : lo < 2 ^ w) (x : α) :
    forTo w body fuel lo (2 ^ w - 1) x = (none : Option α) := by
  induction fuel generalizing lo x with
  | zero => rfl
  | succ fuel ih =>
    rw [forTo, if_pos (by omega)]
    exact ih (Nat.mod_lt _ (Nat.two_pow_pos w)) _

end

end DistributedKV.Theory
