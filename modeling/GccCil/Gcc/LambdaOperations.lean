import Mathlib.Data.Matrix.Reflection
import Mathlib.LinearAlgebra.Matrix.Swap
import Mathlib.LinearAlgebra.Matrix.Transvection
import GccCil.Gcc.LambdaMatrix
import GccCil.Lib.CountedLoops

/-!
# Elementary operations on integer matrices

The column operations of `lambda-mat.c`.  An operation on the columns is a
product with an elementary matrix on the right, and the row operation that
undoes it is the product with the inverse on the left.
-/

namespace GccCil.Gcc.Lambda

open GccCil.Lib

/-- `lambda_matrix_col_exchange` -/
def colExchange (mat : LambdaMatrix) (m col1 col2 : Nat) : LambdaMatrix := fun i j =>
  if i < m then
    if j = col1 then mat i col2 else if j = col2 then mat i col1 else mat i j
  else mat i j

/-- `lambda_matrix_col_add`: add a multiple of column `c1` to column `c2`. -/
def colAdd (mat : LambdaMatrix) (m c1 c2 : Nat) (const1 : Int) : LambdaMatrix := fun i j =>
  if i < m ∧ j = c2 then mat i j + const1 * mat i c1 else mat i j

/-- `lambda_matrix_col_negate` -/
def colNegate (mat : LambdaMatrix) (m c1 : Nat) : LambdaMatrix := fun i j =>
  if i < m ∧ j = c1 then mat i j * -1 else mat i j

/-- `lambda_matrix_col_mc`: multiply a column by a constant. -/
def colMc (mat : LambdaMatrix) (m c1 : Nat) (const1 : Int) : LambdaMatrix := fun i j =>
  if i < m ∧ j = c1 then mat i j * const1 else mat i j

/-- The round of `lambda_vector_min_nz`. -/
def minNzRound (vec1 : Nat → Int) (min : Option Nat) (j : Nat) : Option Nat :=
  if vec1 j = 0 then min
  else
    match min with
    | none => some j
    | some k => if vec1 j < vec1 k then some j else some k

/-- `lambda_vector_min_nz`: the first of the smallest nonzero elements. -/
def minNz (vec1 : Nat → Int) (n start : Nat) : Option Nat :=
  if start ≤ n then (List.range' start (n - start)).foldl (minNzRound vec1) none else none

def toMatrix (m n : Nat) (mat : LambdaMatrix) : Matrix (Fin m) (Fin n) ℤ :=
  Matrix.of fun i j => mat i j

theorem toMatrix_apply {m n : Nat} (mat : LambdaMatrix) (i : Fin m) (j : Fin n) :
    toMatrix m n mat i j = mat i j := rfl

theorem toMatrix_id (n : Nat) : toMatrix n n matrixId = 1 := by
  ext i j
  rw [toMatrix_apply, Matrix.one_apply, matrixId]
  exact if_congr Fin.val_inj rfl rfl

section Elementary

variable {m n : Nat} (mat : LambdaMatrix)

theorem toMatrix_colExchange (a b : Fin n) :
    toMatrix m n (colExchange mat m a b) = toMatrix m n mat * Matrix.swap ℤ a b := by
  ext i j
  rw [toMatrix_apply, colExchange, if_pos i.isLt]
  by_cases first : j = a
  · subst first
    rw [if_pos rfl, Matrix.mul_swap_apply_left, toMatrix_apply]
  by_cases second : j = b
  · subst second
    rw [if_neg (Fin.val_ne_of_ne first), if_pos rfl, Matrix.mul_swap_apply_right, toMatrix_apply]
  · rw [if_neg (Fin.val_ne_of_ne first), if_neg (Fin.val_ne_of_ne second),
      Matrix.mul_swap_of_ne first second, toMatrix_apply]

theorem toMatrix_rowExchange (a b : Fin m) :
    toMatrix m n (rowExchange mat a b) = Matrix.swap ℤ a b * toMatrix m n mat := by
  ext i j
  rw [toMatrix_apply, rowExchange]
  by_cases first : i = a
  · subst first
    rw [if_pos rfl, Matrix.swap_mul_apply_left, toMatrix_apply]
  by_cases second : i = b
  · subst second
    rw [if_neg (Fin.val_ne_of_ne first), if_pos rfl, Matrix.swap_mul_apply_right, toMatrix_apply]
  · rw [if_neg (Fin.val_ne_of_ne first), if_neg (Fin.val_ne_of_ne second),
      Matrix.swap_mul_of_ne first second, toMatrix_apply]

theorem toMatrix_colAdd (a b : Fin n) (const1 : Int) :
    toMatrix m n (colAdd mat m a b const1) = toMatrix m n mat * Matrix.transvection a b const1 := by
  ext i j
  rw [toMatrix_apply, colAdd]
  by_cases changed : j = b
  · subst changed
    rw [if_pos ⟨i.isLt, rfl⟩, Matrix.mul_transvection_apply_same, toMatrix_apply, toMatrix_apply]
  · rw [if_neg fun same => changed (Fin.ext same.2),
      Matrix.mul_transvection_apply_of_ne _ _ _ _ changed, toMatrix_apply]

theorem toMatrix_rowAdd (a b : Fin m) (const1 : Int) :
    toMatrix m n (rowAdd mat n a b const1) = Matrix.transvection b a const1 * toMatrix m n mat := by
  ext i j
  rw [toMatrix_apply, rowAdd]
  by_cases changed : i = b
  · subst changed
    rw [if_pos ⟨rfl, j.isLt⟩, Matrix.transvection_mul_apply_same, toMatrix_apply, toMatrix_apply]
  · rw [if_neg fun same => changed (Fin.ext same.1),
      Matrix.transvection_mul_apply_of_ne _ _ _ _ changed, toMatrix_apply]

def negation (a : Fin n) : Matrix (Fin n) (Fin n) ℤ :=
  Matrix.diagonal fun i => if i = a then -1 else 1

theorem negation_mul_self (a : Fin n) : negation a * negation a = 1 := by
  rw [negation, Matrix.diagonal_mul_diagonal, ← Matrix.diagonal_one]
  congr 1
  funext i
  split <;> rfl

theorem toMatrix_colNegate (a : Fin n) :
    toMatrix m n (colNegate mat m a) = toMatrix m n mat * negation a := by
  ext i j
  rw [toMatrix_apply, colNegate, negation, Matrix.mul_diagonal, toMatrix_apply]
  by_cases changed : j = a
  · rw [if_pos ⟨i.isLt, congrArg Fin.val changed⟩, if_pos changed]
  · rw [if_neg fun same => changed (Fin.ext same.2), if_neg changed, mul_one]

theorem toMatrix_rowNegate (a : Fin m) :
    toMatrix m n (rowNegate mat n a) = negation a * toMatrix m n mat := by
  ext i j
  rw [toMatrix_apply, rowNegate, negation, Matrix.diagonal_mul, toMatrix_apply]
  by_cases changed : i = a
  · rw [if_pos ⟨congrArg Fin.val changed, j.isLt⟩, if_pos changed, neg_one_mul]
  · rw [if_neg fun same => changed (Fin.ext same.1), if_neg changed, one_mul]

theorem transvection_cancel {a b : Fin n} (different : a ≠ b) (const1 : Int) :
    Matrix.transvection a b (-const1) * Matrix.transvection a b const1 = 1 := by
  rw [Matrix.transvection_mul_transvection_same a b different, neg_add_cancel,
    Matrix.transvection_zero]

end Elementary

/-- The search among the elements from `start` to `j`. -/
def IsMinNz (vec1 : Nat → Int) (start j : Nat) : Option Nat → Prop
  | none => ∀ i, start ≤ i → i < j → vec1 i = 0
  | some k => start ≤ k ∧ k < j ∧ vec1 k ≠ 0 ∧
      ∀ i, start ≤ i → i < j → vec1 i ≠ 0 → vec1 k ≤ vec1 i ∧ (i < k → vec1 k < vec1 i)

theorem IsMinNz.next {vec1 : Nat → Int} {start j : Nat} (above : start ≤ j) {min : Option Nat}
    (searched : IsMinNz vec1 start j min) :
    IsMinNz vec1 start (j + 1) (minNzRound vec1 min j) := by
  unfold minNzRound
  by_cases zero : vec1 j = 0
  · rw [if_pos zero]
    cases min with
    | none =>
      intro i after before
      rcases Nat.lt_succ_iff_lt_or_eq.mp before with earlier | rfl
      · exact searched i after earlier
      · exact zero
    | some k =>
      obtain ⟨after, before, nonzero, least⟩ := searched
      refine ⟨after, Nat.lt_succ_of_lt before, nonzero, fun i afterI beforeI nonzeroI => ?_⟩
      rcases Nat.lt_succ_iff_lt_or_eq.mp beforeI with earlier | rfl
      · exact least i afterI earlier nonzeroI
      · exact absurd zero nonzeroI
  · rw [if_neg zero]
    cases min with
    | none =>
      refine ⟨above, Nat.lt_succ_self j, zero, fun i after before nonzero => ?_⟩
      rcases Nat.lt_succ_iff_lt_or_eq.mp before with earlier | rfl
      · exact absurd (searched i after earlier) nonzero
      · exact ⟨le_refl _, fun less => absurd less (lt_irrefl _)⟩
    | some k =>
      obtain ⟨after, before, nonzero, least⟩ := searched
      dsimp only
      by_cases smaller : vec1 j < vec1 k
      · rw [if_pos smaller]
        refine ⟨above, Nat.lt_succ_self j, zero, fun i afterI beforeI nonzeroI => ?_⟩
        rcases Nat.lt_succ_iff_lt_or_eq.mp beforeI with earlier | rfl
        · have less := lt_of_lt_of_le smaller (least i afterI earlier nonzeroI).1
          exact ⟨less.le, fun _ => less⟩
        · exact ⟨le_refl _, fun less => absurd less (lt_irrefl _)⟩
      · rw [if_neg smaller]
        refine ⟨after, Nat.lt_succ_of_lt before, nonzero, fun i afterI beforeI nonzeroI => ?_⟩
        rcases Nat.lt_succ_iff_lt_or_eq.mp beforeI with earlier | rfl
        · exact least i afterI earlier nonzeroI
        · exact ⟨not_lt.mp smaller, fun less => absurd less (Nat.lt_asymm before)⟩

theorem minNz_of_nonzero {vec1 : Nat → Int} {n start i : Nat} (after : start ≤ i) (before : i < n)
    (nonzero : vec1 i ≠ 0) :
    ∃ k, minNz vec1 n start = some k ∧ IsMinNz vec1 start n (some k) := by
  have inside : start ≤ n := by omega
  have round : ∀ j min, start ≤ j → j < start + (n - start) → IsMinNz vec1 start j min →
      IsMinNz vec1 start (j + 1) (minNzRound vec1 min j) :=
    fun j min above _ searched => searched.next above
  have searched := CountedLoops.foldl_range' round
    (show IsMinNz vec1 start start none from fun i above below => absurd below (not_lt.mpr above))
  rw [Nat.add_sub_cancel' inside] at searched
  rw [minNz, if_pos inside]
  cases found : (List.range' start (n - start)).foldl (minNzRound vec1) none with
  | none =>
    rw [found] at searched
    exact absurd (searched i after before) nonzero
  | some k =>
    rw [found] at searched
    exact ⟨k, rfl, searched⟩

end GccCil.Gcc.Lambda
