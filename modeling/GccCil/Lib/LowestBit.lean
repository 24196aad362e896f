import Mathlib.Data.Nat.Bitwise
import Mathlib.Data.Nat.Factorization.Basic

/-!
# The lowest set bit

In `w`-bit arithmetic the negation of `x` is `2 ^ w - x`, so `x & -x` is
`x &&& (2 ^ w - x)`.  It is the largest power of two that divides `x`.
-/

namespace GccCil.Lib

theorem and_negation_of_odd {w k q : Nat} (fits : 2 ^ k * (2 * q + 1) < 2 ^ w) :
    2 ^ k * (2 * q + 1) &&& (2 ^ w - 2 ^ k * (2 * q + 1)) = 2 ^ k := by
  have powerPositive : 0 < 2 ^ k := Nat.two_pow_pos k
  have predecessor : 2 ^ k * (2 * q + 1) = 2 ^ k * (2 * q) + (2 ^ k - 1) + 1 := by
    rw [Nat.mul_add, Nat.mul_one]
    omega
  have exponent : k < w := by
    apply (Nat.pow_lt_pow_iff_right (a := 2) (by decide)).mp
    exact Nat.lt_of_le_of_lt (Nat.le_mul_of_pos_right _ (Nat.succ_pos _)) fits
  apply Nat.eq_of_testBit_eq
  intro position
  rw [Nat.testBit_and, Nat.testBit_two_pow_mul, Nat.testBit_two_pow]
  rw [predecessor] at fits ⊢
  rw [Nat.testBit_two_pow_sub_succ (Nat.lt_of_succ_lt fits),
    Nat.testBit_two_pow_mul_add _ (Nat.sub_lt powerPositive Nat.one_pos)]
  rcases Nat.lt_trichotomy position k with lower | same | higher
  · have different : k ≠ position := Nat.ne_of_gt lower
    simp [Nat.not_le.mpr lower, different]
  · subst same
    simp [exponent]
  · obtain ⟨distance, rfl⟩ := Nat.exists_eq_add_of_lt higher
    have shifted : k + distance + 1 - k = distance + 1 := by omega
    have different : ¬ k = k + distance + 1 := by omega
    have notBelow : ¬ k + distance + 1 < k := by omega
    have halves : (2 * q + 1) / 2 = q := by omega
    rw [if_neg notBelow, shifted, Nat.testBit_succ, Nat.testBit_succ, halves,
      Nat.mul_div_cancel_left q (by decide : 0 < 2)]
    cases q.testBit distance <;> simp [different]

theorem exists_and_negation {w x : Nat} (nonzero : x ≠ 0) (fits : x < 2 ^ w) :
    ∃ k q, x = 2 ^ k * (2 * q + 1) ∧ x &&& (2 ^ w - x) = 2 ^ k := by
  obtain ⟨k, odd, ⟨q, rfl⟩, rfl⟩ := Nat.exists_eq_two_pow_mul_odd nonzero
  exact ⟨k, q, rfl, and_negation_of_odd fits⟩

end GccCil.Lib
