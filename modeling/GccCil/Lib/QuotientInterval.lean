import Mathlib.Algebra.Order.Ring.Int

/-!
# The dividends of a truncated quotient

The integers whose quotient by a divisor, rounded towards zero, is a given one
form an interval.  Its ends are the product and the product moved away from, or
for the quotient zero to both sides of, the product by one less than the divisor.
A negative divisor reverses the order of the quotients.
-/

namespace GccCil.Lib

variable {divisor quotient x : Int}

def firstDividend (divisor quotient : Int) : Int :=
  if 0 < divisor * quotient then divisor * quotient
  else divisor * quotient - (|divisor| - 1)

def lastDividend (divisor quotient : Int) : Int :=
  if divisor * quotient < 0 then divisor * quotient
  else divisor * quotient + (|divisor| - 1)

theorem firstDividend_neg (divisor quotient : Int) :
    firstDividend (-divisor) (-quotient) = firstDividend divisor quotient := by
  rw [firstDividend, firstDividend, neg_mul_neg, abs_neg]

theorem lastDividend_neg (divisor quotient : Int) :
    lastDividend (-divisor) (-quotient) = lastDividend divisor quotient := by
  rw [lastDividend, lastDividend, neg_mul_neg, abs_neg]

theorem firstDividend_le_lastDividend (nonzero : divisor ≠ 0) (quotient : Int) :
    firstDividend divisor quotient ≤ lastDividend divisor quotient := by
  have magnitude := abs_pos.mpr nonzero
  rw [firstDividend, lastDividend]
  split <;> split <;> omega

/-- The quotients before, at and after a given one, for a positive divisor. -/
theorem tdiv_cases (positive : 0 < divisor) (quotient x : Int) :
    (x.tdiv divisor < quotient ∧ x < firstDividend divisor quotient) ∨
      (x.tdiv divisor = quotient ∧ firstDividend divisor quotient ≤ x ∧
        x ≤ lastDividend divisor quotient) ∨
      (quotient < x.tdiv divisor ∧ lastDividend divisor quotient < x) := by
  have ordered := firstDividend_le_lastDividend (ne_of_gt positive) quotient
  have division := Int.mul_tdiv_add_tmod x divisor
  have above := Int.lt_tmod_of_pos x positive
  have below := Int.tmod_lt_of_pos x positive
  have nonneg : 0 ≤ x → 0 ≤ x.tmod divisor := fun sign => Int.tmod_nonneg divisor sign
  have nonpos : x ≤ 0 → x.tmod divisor ≤ 0 := by
    intro sign
    have negated := Int.tmod_nonneg divisor (neg_nonneg.mpr sign)
    rw [Int.neg_tmod] at negated
    omega
  -- The product is at least the divisor away from zero.
  have away : ∀ q : Int, (0 < q → divisor ≤ divisor * q) ∧ (q < 0 → divisor * q ≤ -divisor) ∧
      (q = 0 → divisor * q = 0) := by
    intro q
    refine ⟨fun pos => le_mul_of_one_le_right positive.le pos, fun neg => ?_, fun zero => by
      rw [zero, Int.mul_zero]⟩
    have negated := le_mul_of_one_le_right positive.le (show 1 ≤ -q by omega)
    rw [Int.mul_neg] at negated
    omega
  have product := away quotient
  have whole := away (x.tdiv divisor)
  rw [firstDividend, lastDividend, abs_of_pos positive] at *
  rcases Int.lt_trichotomy (x.tdiv divisor) quotient with less | same | greater
  · have apart := Int.mul_le_mul_of_nonneg_left (Int.add_one_le_of_lt less) (le_of_lt positive)
    rw [Int.mul_add, Int.mul_one] at apart
    refine .inl ⟨less, ?_⟩
    split <;> omega
  · refine .inr (.inl ⟨same, ?_, ?_⟩)
    · rw [same] at division
      split <;> omega
    · rw [same] at division
      split <;> omega
  · have apart := Int.mul_le_mul_of_nonneg_left (Int.add_one_le_of_lt greater) (le_of_lt positive)
    rw [Int.mul_add, Int.mul_one] at apart
    refine .inr (.inr ⟨greater, ?_⟩)
    split <;> omega

theorem tdiv_lt_iff (positive : 0 < divisor) :
    x.tdiv divisor < quotient ↔ x < firstDividend divisor quotient := by
  have ordered := firstDividend_le_lastDividend (ne_of_gt positive) quotient
  rcases tdiv_cases positive quotient x with before | at_ | after
  · exact iff_of_true before.1 before.2
  · omega
  · omega

theorem lt_tdiv_iff (positive : 0 < divisor) :
    quotient < x.tdiv divisor ↔ lastDividend divisor quotient < x := by
  have ordered := firstDividend_le_lastDividend (ne_of_gt positive) quotient
  rcases tdiv_cases positive quotient x with before | at_ | after
  · omega
  · omega
  · exact iff_of_true after.1 after.2

theorem tdiv_lt_iff_of_neg (negative : divisor < 0) :
    x.tdiv divisor < quotient ↔ lastDividend divisor quotient < x := by
  have reversed := @lt_tdiv_iff (-divisor) (-quotient) x (neg_pos.mpr negative)
  rwa [lastDividend_neg, Int.tdiv_neg, neg_lt_neg_iff] at reversed

theorem lt_tdiv_iff_of_neg (negative : divisor < 0) :
    quotient < x.tdiv divisor ↔ x < firstDividend divisor quotient := by
  have reversed := @tdiv_lt_iff (-divisor) (-quotient) x (neg_pos.mpr negative)
  rwa [firstDividend_neg, Int.tdiv_neg, neg_lt_neg_iff] at reversed

theorem tdiv_eq_iff (nonzero : divisor ≠ 0) :
    x.tdiv divisor = quotient ↔
      firstDividend divisor quotient ≤ x ∧ x ≤ lastDividend divisor quotient := by
  rcases lt_or_gt_of_ne nonzero with negative | positive
  · have before := @tdiv_lt_iff_of_neg divisor quotient x negative
    have after := @lt_tdiv_iff_of_neg divisor quotient x negative
    omega
  · have before := @tdiv_lt_iff divisor quotient x positive
    have after := @lt_tdiv_iff divisor quotient x positive
    omega

end GccCil.Lib
