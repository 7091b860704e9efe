import Mathlib

/-! Masks of words as arithmetic. -/

namespace Bits
set_option autoImplicit true

theorem mask_testBit (n m i : Nat) :
    ((2 ^ n - 1) * 2 ^ m).testBit i = (decide (m ≤ i) && decide (i < m + n)) := by
  rw [Nat.testBit_mul_two_pow, Nat.testBit_two_pow_sub_one]
  by_cases h : m ≤ i
  · rw [decide_eq_true h, Bool.true_and, Bool.true_and]
    exact decide_eq_decide.2 (by omega)
  · rw [decide_eq_false h, Bool.false_and, Bool.false_and]

/-- A field of `n` bits from bit `m`. -/
theorem and_field (x n m : Nat) : x &&& (2 ^ n - 1) * 2 ^ m = x / 2 ^ m % 2 ^ n * 2 ^ m := by
  apply Nat.eq_of_testBit_eq
  intro i
  rw [Nat.testBit_and, mask_testBit, Nat.testBit_mul_two_pow, Nat.testBit_mod_two_pow, Nat.testBit_div_two_pow]
  by_cases h : m ≤ i
  · have hi : i - m + m = i := Nat.sub_add_cancel h
    have hlt : (i - m < n) ↔ (i < m + n) := by omega
    rw [decide_eq_true h, Bool.true_and, Bool.true_and, hi, decide_eq_decide.2 hlt, Bool.and_comm]
  · rw [decide_eq_false h, Bool.false_and, Bool.false_and, Bool.and_false]

end Bits
