import Mathlib.Algebra.BigOperators.Ring.Finset
import Mathlib.Data.Nat.Choose.Basic
import Mathlib.Tactic.Ring

/-!
# Sums over the first iterations

A sequence can be given by its first value and by the sequence of its steps, as
in the calculus of finite differences.  This file has the product of two such
sequences and Newton's formula for the sequence with given differences.
-/

namespace GccCil.Lib.Recurrences

open Finset

variable {R : Type*} [CommRing R]

theorem sum_mul_sum (f g : Nat → R) (n : Nat) :
    (∑ j ∈ range n, f j) * ∑ j ∈ range n, g j =
      ∑ j ∈ range n,
        ((∑ k ∈ range j, f k) * g j + f j * (∑ k ∈ range j, g k) + f j * g j) := by
  induction n with
  | zero => simp
  | succ n ih =>
    rw [sum_range_succ, sum_range_succ, sum_range_succ, ← ih]
    ring

/-- The product of two values that start at `x` and `y`, by steps whose own factors
`xs` and `ys` may vary: the first sum would be enough if nothing did. -/
theorem mul_of_steps (x y : R) (xs ys f g : Nat → R) (n : Nat) :
    (x + ∑ j ∈ range n, f j) * (y + ∑ j ∈ range n, g j) =
      x * y +
        ∑ j ∈ range n,
          (xs j * g j + f j * ys j + f j * g j + ∑ k ∈ range j, 2 * (f k * g k)) +
        ∑ j ∈ range n,
          ((x - xs j) * g j + (y - ys j) * f j +
            ∑ k ∈ range j, ((f j - f k) * g k + (g j - g k) * f k)) := by
  have inner : ∀ j, ∑ k ∈ range j, ((f j - f k) * g k + (g j - g k) * f k) =
      f j * ∑ k ∈ range j, g k + g j * ∑ k ∈ range j, f k - ∑ k ∈ range j, 2 * (f k * g k) := by
    intro j
    rw [mul_sum, mul_sum, ← sum_add_distrib, ← sum_sub_distrib]
    exact sum_congr rfl fun k _ => by ring
  have outer : (x + ∑ j ∈ range n, f j) * (y + ∑ j ∈ range n, g j) =
      x * y + ∑ j ∈ range n, (x * g j + y * f j +
        ((∑ k ∈ range j, f k) * g j + f j * (∑ k ∈ range j, g k) + f j * g j)) := by
    rw [sum_add_distrib, sum_add_distrib, ← sum_mul_sum, ← mul_sum, ← mul_sum]
    ring
  rw [outer, add_assoc, ← sum_add_distrib]
  congr 1
  exact sum_congr rfl fun j _ => by rw [inner]; ring

/-- The sequence with the given differences: each is the sequence of steps of
the one before it. -/
def newton : List R → Nat → R
  | [], _ => 0
  | c :: differences, n => c + ∑ j ∈ range n, newton differences j

theorem sum_range_choose (n k : Nat) :
    ∑ j ∈ range n, j.choose k = n.choose (k + 1) := by
  induction n with
  | zero => rfl
  | succ n ih =>
    rw [sum_range_succ, ih, Nat.choose_succ_succ, Nat.add_comm]

/-- Newton's forward formula, from the difference of order `k` on. -/
def forward : Nat → List R → Nat → R
  | _, [], _ => 0
  | k, c :: differences, n => c * n.choose k + forward (k + 1) differences n

theorem sum_forward (differences : List R) (k n : Nat) :
    ∑ j ∈ range n, forward k differences j = forward (k + 1) differences n := by
  induction differences generalizing k with
  | nil => simp [forward]
  | cons c differences ih =>
    simp only [forward]
    rw [sum_add_distrib, ih, ← mul_sum, ← Nat.cast_sum, sum_range_choose]

theorem newton_eq_forward (differences : List R) (n : Nat) :
    newton differences n = forward 0 differences n := by
  induction differences generalizing n with
  | nil => rfl
  | cons c differences ih =>
    simp only [newton, forward, ih, sum_forward, Nat.choose_zero_right,
      Nat.cast_one, mul_one]

end GccCil.Lib.Recurrences
