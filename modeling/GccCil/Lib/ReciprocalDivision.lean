import Mathlib.Tactic

/-!
# Division by multiplication with a rounded reciprocal

A multiplier `m` is a reciprocal of `d` for the scale `p` with error `e` when
`m * d` lies in `(p, p + e]`.  Multiplying by such an `m` and dividing by `p`
divides by `d`, as long as the dividend times the error stays below the scale.
The scales are powers of two in practice; nothing here depends on it.
-/

namespace GccCil.Lib

/-- `m` is the rounded-up value of `p / d` up to an error of `e`. -/
structure Reciprocal (p e d m : Nat) : Prop where
  above : p < m * d
  within : m * d ≤ p + e

namespace Reciprocal

variable {p e d m : Nat}

/-- A multiplier between the rounded-down quotients of the two bounds. -/
theorem of_div_lt (positive : 0 < d) (less : p / d < (p + e) / d) :
    Reciprocal p e d ((p + e) / d) where
  above := (Nat.div_lt_iff_lt_mul positive).mp less
  within := Nat.div_mul_le_self _ _

theorem divisor_pos (reciprocal : Reciprocal p e d m) : 0 < d := by
  rcases Nat.eq_zero_or_pos d with zero | positive
  · have above := reciprocal.above
    rw [zero, Nat.mul_zero] at above
    omega
  · exact positive

theorem quotient_mul_le (reciprocal : Reciprocal p e d m) (x : Nat) :
    x / d * p ≤ x * m := by
  calc x / d * p ≤ x / d * (m * d) := Nat.mul_le_mul_left _ reciprocal.above.le
    _ = x / d * d * m := by ring
    _ ≤ x * m := Nat.mul_le_mul_right _ (Nat.div_mul_le_self x d)

theorem quotient_mul_lt (reciprocal : Reciprocal p e d m) {x : Nat} (nonzero : 0 < x) :
    x / d * p < x * m := by
  rcases Nat.eq_zero_or_pos (x / d) with zero | positive
  · have multiplier : 0 < m := by
      apply Nat.pos_of_ne_zero
      intro zeroMultiplier
      have above := reciprocal.above
      rw [zeroMultiplier, Nat.zero_mul] at above
      omega
    rw [zero, Nat.zero_mul]
    exact Nat.mul_pos nonzero multiplier
  · calc x / d * p < x / d * (m * d) :=
          Nat.mul_lt_mul_of_pos_left reciprocal.above positive
      _ = x / d * d * m := by ring
      _ ≤ x * m := Nat.mul_le_mul_right _ (Nat.div_mul_le_self x d)

theorem mul_le_mul_scale (reciprocal : Reciprocal p e d m) (x : Nat) :
    d * (x * m) ≤ x * p + x * e := by
  calc d * (x * m) = x * (m * d) := by ring
    _ ≤ x * (p + e) := Nat.mul_le_mul_left _ reciprocal.within
    _ = x * p + x * e := by ring

theorem succ_mul_scale_le (reciprocal : Reciprocal p e d m) (x : Nat) :
    (x + 1) * p ≤ d * ((x / d + 1) * p) := by
  have next : x + 1 ≤ d * (x / d + 1) := Nat.lt_mul_div_succ x reciprocal.divisor_pos
  calc (x + 1) * p ≤ d * (x / d + 1) * p := Nat.mul_le_mul_right _ next
    _ = d * ((x / d + 1) * p) := by ring

theorem mul_div (reciprocal : Reciprocal p e d m) {x : Nat} (small : x * e < p) :
    x * m / p = x / d := by
  apply Nat.div_eq_of_lt_le (reciprocal.quotient_mul_le x)
  apply Nat.lt_of_mul_lt_mul_left (a := d)
  calc d * (x * m) ≤ x * p + x * e := reciprocal.mul_le_mul_scale x
    _ < (x + 1) * p := by rw [Nat.succ_mul]; omega
    _ ≤ d * ((x / d + 1) * p) := reciprocal.succ_mul_scale_le x

/-- Rounding the negated product down goes one unit below the negated quotient. -/
theorem neg_mul_div (reciprocal : Reciprocal p e d m) (scale : 0 < p) {x : Nat}
    (nonzero : 0 < x) (small : x * e ≤ p) :
    -((x * m : Nat) : Int) / p = -((x / d : Nat) : Int) - 1 := by
  have below : x / d * p < x * m := reciprocal.quotient_mul_lt nonzero
  have above : x * m ≤ (x / d + 1) * p := by
    apply Nat.le_of_mul_le_mul_left (c := d) _ reciprocal.divisor_pos
    calc d * (x * m) ≤ x * p + x * e := reciprocal.mul_le_mul_scale x
      _ ≤ (x + 1) * p := by rw [Nat.succ_mul]; omega
      _ ≤ d * ((x / d + 1) * p) := reciprocal.succ_mul_scale_le x
  generalize x / d = quotient at below above ⊢
  generalize x * m = product at below above ⊢
  zify at below above
  rw [Int.ediv_eq_iff_of_pos (by exact_mod_cast scale)]
  constructor
  · linarith
  · linarith

end Reciprocal

theorem add_half_sub {a b : Nat} (le : a ≤ b) : a + (b - a) / 2 = (b + a) / 2 := by
  omega

/-- The add-and-halve sequence computes the upper part of the product with the
full multiplier. -/
theorem halves {size : Nat} (x : BitVec size) (ml : Nat) (fits : ml < 2 ^ size) {t1 : BitVec size}
    (upper : t1.toNat = x.toNat * ml / 2 ^ size) :
    (t1 + (x - t1) >>> 1).toNat = x.toNat * (ml + 2 ^ size) / 2 ^ size / 2 := by
  have scale := Nat.two_pow_pos size
  have atMost : t1.toNat ≤ x.toNat := by
    rw [upper]
    apply Nat.div_le_of_le_mul
    rw [Nat.mul_comm]
    exact Nat.mul_le_mul_right _ fits.le
  have difference : (x - t1).toNat = x.toNat - t1.toNat :=
    BitVec.toNat_sub_of_le (BitVec.le_def.mpr atMost)
  have sum : x.toNat * (ml + 2 ^ size) / 2 ^ size = x.toNat + t1.toNat := by
    rw [Nat.mul_add, Nat.add_mul_div_right _ _ scale, upper, Nat.add_comm]
  have fitsSum := x.isLt
  rw [BitVec.toNat_add, BitVec.toNat_ushiftRight, difference, Nat.shiftRight_eq_div_pow,
    Nat.pow_one, add_half_sub atMost, sum]
  apply Nat.mod_eq_of_lt
  omega

end GccCil.Lib
