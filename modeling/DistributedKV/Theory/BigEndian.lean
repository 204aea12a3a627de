import DistributedKV.Theory.Lex
import Mathlib.Algebra.Order.Ring.Nat

/-!
# Big-endian numerals

Numbers as words of bytes of a fixed width, the highest byte first. The lexicographic order of the
words is the order of the numbers.
-/

namespace DistributedKV.Theory.BigEndian

/-- The `w` low bytes of `n`. -/
def put : ℕ → ℕ → List UInt8
  | 0, _ => []
  | w + 1, n => UInt8.ofNat (n / 256 ^ w) :: put w n

def get : List UInt8 → ℕ
  | [] => 0
  | b :: l => b.toNat * 256 ^ l.length + get l

@[simp] theorem length_put (w n : ℕ) : (put w n).length = w := by
  induction w with
  | zero => rfl
  | succ w ih => rw [put, List.length_cons, ih]

theorem get_lt (l : List UInt8) : get l < 256 ^ l.length := by
  induction l with
  | nil => decide
  | cons b l ih =>
    have hb : (b.toNat + 1) * 256 ^ l.length ≤ 256 * 256 ^ l.length :=
      Nat.mul_le_mul_right _ b.toNat_lt
    rw [Nat.add_mul, Nat.one_mul] at hb
    rw [get, List.length_cons, Nat.pow_succ, Nat.mul_comm (256 ^ l.length)]
    omega

/-- Numbers are read as they were written, up to what does not fit. -/
theorem get_put (w n : ℕ) : get (put w n) = n % 256 ^ w := by
  induction w with
  | zero => simp [put, get, Nat.mod_one]
  | succ w ih =>
    rw [put, get, length_put, ih, Nat.pow_succ, Nat.mod_mul, UInt8.toNat_ofNat', Nat.mul_comm,
      Nat.add_comm]

theorem get_put_of_lt (h : n < 256 ^ w) : get (put w n) = n := by
  rw [get_put, Nat.mod_eq_of_lt h]

/-- Words of one length are ordered as their numbers are. -/
theorem lt_of_get_lt {l m : List UInt8} (hlen : l.length = m.length) (h : get l < get m) :
    l < m := by
  induction l generalizing m with
  | nil =>
    rw [List.length_nil, eq_comm, List.length_eq_zero_iff] at hlen
    rw [hlen] at h
    exact (Nat.lt_irrefl 0 h).elim
  | cons a l ih =>
    cases m with
    | nil => cases hlen
    | cons b m =>
      rw [List.length_cons, List.length_cons, Nat.add_right_cancel_iff] at hlen
      rw [get, get, hlen] at h
      rw [List.cons_lt_cons_iff]
      rcases Nat.lt_trichotomy a.toNat b.toNat with hlt | heq | hgt
      · exact .inl hlt
      · rw [heq] at h
        exact .inr ⟨UInt8.toNat_inj.mp heq, ih hlen (Nat.lt_of_add_lt_add_left h)⟩
      · -- a higher first byte outweighs all that follows
        have hb : (b.toNat + 1) * 256 ^ m.length ≤ a.toNat * 256 ^ m.length :=
          Nat.mul_le_mul_right _ hgt
        have := get_lt m
        rw [Nat.add_mul, Nat.one_mul] at hb
        omega

theorem put_lt_put (hm : m < 256 ^ w) (hn : n < 256 ^ w) (h : m < n) : put w m < put w n := by
  refine lt_of_get_lt (by simp) ?_
  rwa [get_put_of_lt hm, get_put_of_lt hn]

end DistributedKV.Theory.BigEndian
