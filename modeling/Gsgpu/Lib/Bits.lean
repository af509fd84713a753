import Mathlib.Data.Nat.Bitwise

/-! Fields packed into one word by `or` and shift. -/
namespace Bits

/-- The low field of `a ||| b <<< k` is that of `a`. -/
theorem or_shiftLeft_mod (a b k : ℕ) : (a ||| b <<< k) % 2 ^ k = a % 2 ^ k := by
  rw [Nat.or_mod_two_pow, Nat.shiftLeft_eq, Nat.mul_mod_left, Nat.or_zero]

/-- The high field of `a ||| b <<< k` mixes what `a` has there with `b`. -/
theorem or_shiftLeft_div (a b k : ℕ) : (a ||| b <<< k) / 2 ^ k = a / 2 ^ k ||| b := by
  rw [← Nat.shiftRight_eq_div_pow, Nat.shiftRight_or_distrib, Nat.shiftLeft_shiftRight,
    Nat.shiftRight_eq_div_pow]

/-- A word of two fields that fit. -/
theorem or_shiftLeft_lt {a b k w : ℕ} (ha : a < 2 ^ k) (hb : b < 2 ^ w) :
    a ||| b <<< k < 2 ^ (k + w) := by
  refine Nat.or_lt_two_pow (lt_of_lt_of_le ha (Nat.pow_le_pow_right (by omega) (by omega))) ?_
  rw [Nat.shiftLeft_eq, pow_add, mul_comm]
  exact Nat.mul_lt_mul_of_pos_left hb (Nat.two_pow_pos k)

/-- The bits of a word from `k` on. -/
theorem and_shiftLeft_mask (a k w : ℕ) :
    a &&& (2 ^ w - 1) <<< k = a % 2 ^ (k + w) / 2 ^ k * 2 ^ k := by
  apply Nat.eq_of_testBit_eq
  intro i
  rw [Nat.testBit_and, Nat.testBit_shiftLeft, Nat.testBit_two_pow_sub_one, Nat.testBit_mul_two_pow,
    Nat.testBit_div_two_pow, Nat.testBit_mod_two_pow]
  by_cases hk : k ≤ i
  · rw [Nat.sub_add_cancel hk]
    by_cases hw : i - k < w
    · simp [hk, hw, show i < k + w by omega]
    · simp [hw, show ¬ i < k + w by omega]
  · simp [hk]

/-- A field or-ed below the bits of a multiple. -/
theorem mul_two_pow_add_or {q r f k : ℕ} (hr : r < 2 ^ k) (hf : f < 2 ^ k) :
    (q * 2 ^ k + r) ||| f = q * 2 ^ k + (r ||| f) := by
  have hdiv : ((q * 2 ^ k + r) ||| f) / 2 ^ k = q := by
    rw [← Nat.shiftRight_eq_div_pow, Nat.shiftRight_or_distrib, Nat.shiftRight_eq_div_pow,
      Nat.shiftRight_eq_div_pow, Nat.div_eq_of_lt hf, Nat.or_zero, Nat.add_comm,
      Nat.add_mul_div_right _ _ (Nat.two_pow_pos k), Nat.div_eq_of_lt hr, Nat.zero_add]
  have hmod : ((q * 2 ^ k + r) ||| f) % 2 ^ k = r ||| f := by
    rw [Nat.or_mod_two_pow, Nat.mul_add_mod_of_lt hr, Nat.mod_eq_of_lt hf]
  rw [← Nat.div_add_mod ((q * 2 ^ k + r) ||| f) (2 ^ k), hdiv, hmod, Nat.mul_comm]

end Bits
