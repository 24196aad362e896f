import Mathlib.Algebra.BigOperators.Group.Finset.Basic
import Mathlib.Algebra.BigOperators.Ring.Finset
import Mathlib.Algebra.Order.Ring.Int
import Mathlib.Tactic.Linarith
import Mathlib.Tactic.LinearCombination
import Mathlib.Tactic.Ring

/-!
# Unimodular reduction of integer matrices

The matrix operations of `lambda-mat.c` and `lambda_matrix_right_hermite`,
which reduces a matrix to echelon form by Euclid's algorithm on its rows.
-/

namespace GccCil.Gcc.Lambda

/-- `lambda_matrix`; the functions are passed the dimensions. -/
abbrev LambdaMatrix := Nat → Nat → Int

/-- `lambda_matrix_id` -/
def matrixId : LambdaMatrix := fun i j => if i = j then 1 else 0

/-- `lambda_matrix_row_add`: add a multiple of row `r1` to row `r2`. -/
def rowAdd (mat : LambdaMatrix) (n r1 r2 : Nat) (const1 : Int) : LambdaMatrix := fun i j =>
  if i = r2 ∧ j < n then mat i j + const1 * mat r1 j else mat i j

/-- `lambda_matrix_row_exchange` -/
def rowExchange (mat : LambdaMatrix) (r1 r2 : Nat) : LambdaMatrix := fun i =>
  if i = r1 then mat r2 else if i = r2 then mat r1 else mat i

/-- `lambda_matrix_row_negate` -/
def rowNegate (mat : LambdaMatrix) (n r1 : Nat) : LambdaMatrix := fun i j =>
  if i = r1 ∧ j < n then -mat i j else mat i j

/-- `lambda_vector_first_nz` -/
def firstNz (vec1 : Nat → Int) (n start : Nat) : Nat :=
  if start < n ∧ vec1 start = 0 then firstNz vec1 n (start + 1) else start
termination_by n - start

def euclidFactor (a b : Int) : Int :=
  let sigma := if a * b < 0 then -1 else 1
  sigma * (|a| / |b|)

theorem euclidFactor_eq (a b : Int) : euclidFactor a b = a.tdiv b := by
  have negative : ∀ p q : Nat, (if -((p : Int) * q) < 0 then -1 else 1) * ((p : Int) / q) =
      -((p : Int) / q) := by
    intro p q
    split
    · rw [neg_one_mul]
    · rename_i nonneg
      have zero : p = 0 ∨ q = 0 := by
        rw [← Nat.mul_eq_zero]
        have product : ((p * q : Nat) : Int) = (p : Int) * q := Nat.cast_mul p q
        omega
      rcases zero with rfl | rfl
      · simp
      · simp
  have quotient : ∀ p q : Nat, (p : Int).tdiv q = (p : Int) / q := fun p q =>
    Int.tdiv_eq_ediv_of_nonneg (Int.natCast_nonneg p)
  obtain ⟨p, rfl | rfl⟩ := Int.eq_nat_or_neg a
  · obtain ⟨q, rfl | rfl⟩ := Int.eq_nat_or_neg b
    · have nonneg : ¬ (p : Int) * q < 0 := not_lt.mpr (by positivity)
      rw [euclidFactor, if_neg nonneg, quotient, one_mul, Nat.abs_cast, Nat.abs_cast]
    · rw [euclidFactor, mul_neg, abs_neg, Nat.abs_cast, Nat.abs_cast, negative, Int.tdiv_neg,
        quotient]
  · obtain ⟨q, rfl | rfl⟩ := Int.eq_nat_or_neg b
    · rw [euclidFactor, neg_mul, abs_neg, Nat.abs_cast, Nat.abs_cast, negative, Int.neg_tdiv,
        quotient]
    · have nonneg : ¬ (p : Int) * q < 0 := not_lt.mpr (by positivity)
      rw [euclidFactor, neg_mul_neg, if_neg nonneg, abs_neg, abs_neg, Nat.abs_cast, Nat.abs_cast,
        one_mul, Int.neg_tdiv, Int.tdiv_neg, neg_neg, quotient]

/-- One step on the rows `i` and `i + 1`. -/
def euclidRows (mat : LambdaMatrix) (n i : Nat) (factor : Int) : LambdaMatrix :=
  rowExchange (rowAdd mat n (i + 1) i (-factor)) (i + 1) i

theorem euclidRows_lower (mat : LambdaMatrix) {n : Nat} (i : Nat) (factor : Int) {j : Nat}
    (column : j < n) :
    euclidRows mat n i factor (i + 1) j = mat i j - factor * mat (i + 1) j := by
  simp only [euclidRows, rowExchange, rowAdd, if_true, true_and, if_pos column]
  ring

theorem euclidRows_upper (mat : LambdaMatrix) (n i : Nat) (factor : Int) :
    euclidRows mat n i factor i = mat (i + 1) := by
  funext j
  simp [euclidRows, rowExchange, rowAdd]

/-- The loop that clears `S[i + 1][j]`. -/
def clearEntry (m n i : Nat) (j : Fin n) (S U : LambdaMatrix) : LambdaMatrix × LambdaMatrix :=
  if S (i + 1) j = 0 then (S, U)
  else
    let factor := euclidFactor (S i j) (S (i + 1) j)
    clearEntry m n i j (euclidRows S n i factor) (euclidRows U m i factor)
termination_by (S (i + 1) j).natAbs
decreasing_by
  rw [euclidRows_lower S i _ j.isLt, euclidFactor_eq]
  have remainder : S i j - (S i j).tdiv (S (i + 1) j) * S (i + 1) j =
      (S i j).tmod (S (i + 1) j) := by
    rw [mul_comm, ← Int.tmod_def]
  rw [remainder, Int.natAbs_tmod]
  exact Nat.mod_lt _ (Int.natAbs_pos.mpr ‹_›)

/-- The loop over the rows below the row `i0`, from the last one up. -/
def clearColumn (m n i0 : Nat) (j : Fin n) : Nat → LambdaMatrix → LambdaMatrix →
    LambdaMatrix × LambdaMatrix
  | 0, S, U => (S, U)
  | rows + 1, S, U =>
    let (S, U) := clearEntry m n (i0 + rows) j S U
    clearColumn m n i0 j rows S U

/-- The step of `lambda_matrix_right_hermite` for a column. -/
def hermiteColumn (m n : Nat) (state : Nat × LambdaMatrix × LambdaMatrix) (j : Fin n) :
    Nat × LambdaMatrix × LambdaMatrix :=
  let (i0, S, U) := state
  if firstNz (S j) m i0 < m then (i0 + 1, clearColumn m n i0 j (m - (i0 + 1)) S U)
  else state

/-- `lambda_matrix_right_hermite`: the matrices `S` and `U`. -/
def rightHermite (A : LambdaMatrix) (m n : Nat) : LambdaMatrix × LambdaMatrix :=
  ((List.finRange n).foldl (hermiteColumn m n) (0, A, matrixId)).2

section Product

variable {A S U : LambdaMatrix} {m n : Nat}

/-- `U.A = S` -/
def Produces (A S U : LambdaMatrix) (m n : Nat) : Prop :=
  ∀ i < m, ∀ j < n, S i j = ∑ k ∈ Finset.range m, U i k * A k j

theorem produces_id (A : LambdaMatrix) (m n : Nat) : Produces A A matrixId m n := by
  intro i row j _
  rw [Finset.sum_eq_single i]
  · simp [matrixId]
  · intro k _ other
    simp [matrixId, Ne.symm other]
  · intro outside
    exact absurd (Finset.mem_range.mpr row) outside

theorem Produces.euclidRows (produces : Produces A S U m n) {i : Nat} (row : i + 1 < m)
    (factor : Int) : Produces A (euclidRows S n i factor) (euclidRows U m i factor) m n := by
  intro k below j column
  by_cases lower : k = i + 1
  · subst lower
    rw [euclidRows_lower S i factor column, produces i (by omega) j column,
      produces (i + 1) row j column, Finset.mul_sum, ← Finset.sum_sub_distrib]
    apply Finset.sum_congr rfl
    intro l member
    rw [euclidRows_lower U i factor (Finset.mem_range.mp member)]
    ring
  by_cases upper : k = i
  · subst upper
    rw [euclidRows_upper, euclidRows_upper]
    exact produces (k + 1) row j column
  · have other : ∀ (mat : LambdaMatrix) (columns : Nat),
        Lambda.euclidRows mat columns i factor k = mat k := by
      intro mat columns
      funext l
      simp [Lambda.euclidRows, rowExchange, rowAdd, lower, upper]
    rw [other, other]
    exact produces k below j column

theorem Produces.clearEntry {i : Nat} (row : i + 1 < m) (j : Fin n)
    (produces : Produces A S U m n) :
    Produces A (clearEntry m n i j S U).1 (clearEntry m n i j S U).2 m n := by
  fun_induction Lambda.clearEntry m n i j S U with
  | case1 S U clear => exact produces
  | case2 S U entry factor hypothesis => exact hypothesis (produces.euclidRows row factor)

theorem Produces.clearColumn {i0 : Nat} (j : Fin n) {rows : Nat} (inside : i0 + rows < m)
    (produces : Produces A S U m n) :
    Produces A (clearColumn m n i0 j rows S U).1 (clearColumn m n i0 j rows S U).2 m n := by
  induction rows generalizing S U with
  | zero => exact produces
  | succ rows hypothesis =>
    have entry := produces.clearEntry (i := i0 + rows) (by omega) j
    exact hypothesis (by omega) entry

theorem rightHermite_produces (A : LambdaMatrix) (m n : Nat) :
    Produces A (rightHermite A m n).1 (rightHermite A m n).2 m n := by
  have columns : ∀ (list : List (Fin n)) (state : Nat × LambdaMatrix × LambdaMatrix),
      Produces A state.2.1 state.2.2 m n →
      Produces A (list.foldl (hermiteColumn m n) state).2.1
        (list.foldl (hermiteColumn m n) state).2.2 m n := by
    intro list
    induction list with
    | nil => exact fun _ produces => produces
    | cons j list hypothesis =>
      rintro ⟨i0, S, U⟩ produces
      apply hypothesis
      simp only [hermiteColumn]
      split
      · by_cases empty : m - (i0 + 1) = 0
        · rw [empty]
          exact produces
        · exact produces.clearColumn j (by omega)
      · exact produces
  exact columns _ _ (produces_id A m n)

end Product

section Pair

variable {A : LambdaMatrix}

theorem rightHermite_pair (nonzero : A 0 0 ≠ 0) :
    rightHermite A 2 1 = clearEntry 2 1 0 0 A matrixId := by
  have start : firstNz (A 0) 2 0 = 0 := by
    rw [firstNz, if_neg]
    exact fun found => nonzero found.2
  change (hermiteColumn 2 1 (0, A, matrixId) 0).2 = _
  simp only [hermiteColumn]
  rw [if_pos]
  · rfl
  · change firstNz (A 0) 2 0 < 2
    rw [start]
    exact Nat.zero_lt_two

theorem clearEntry_clears (S U : LambdaMatrix) : (clearEntry 2 1 0 0 S U).1 1 0 = 0 := by
  fun_induction clearEntry 2 1 0 0 S U with
  | case1 S U clear => exact clear
  | case2 S U entry factor hypothesis => exact hypothesis

theorem euclidRows_remainder (S : LambdaMatrix) (i : Nat) :
    euclidRows S 1 i (euclidFactor (S i 0) (S (i + 1) 0)) (i + 1) 0 =
      (S i 0).tmod (S (i + 1) 0) := by
  rw [euclidRows_lower S i _ Nat.zero_lt_one, euclidFactor_eq, mul_comm, ← Int.tmod_def]

/-- The determinant alternates with the steps, and so do the signs of the
remainders when the first two have opposite signs. -/
theorem clearEntry_det (S U : LambdaMatrix) (p : Int) :
    ∀ e, e * e = 1 → U 0 0 * U 1 1 - U 0 1 * U 1 0 = e → ∃ e', e' * e' = 1 ∧
      (clearEntry 2 1 0 0 S U).2 0 0 * (clearEntry 2 1 0 0 S U).2 1 1 -
        (clearEntry 2 1 0 0 S U).2 0 1 * (clearEntry 2 1 0 0 S U).2 1 0 = e' ∧
      (0 < e * p * S 0 0 → e * p * S 1 0 ≤ 0 → 0 < e' * p * (clearEntry 2 1 0 0 S U).1 0 0) := by
  fun_induction clearEntry 2 1 0 0 S U with
  | case1 S U clear => exact fun e unit det => ⟨e, unit, det, fun first _ => first⟩
  | case2 S U entry factor hypothesis =>
    intro e unit det
    dsimp only [Fin.val_zero, Nat.zero_add] at entry
    obtain ⟨e', unit', det', signs⟩ := hypothesis (-e) (by linarith) (by
      rw [euclidRows_upper, euclidRows_lower U 0 factor Nat.one_lt_two,
        euclidRows_lower U 0 factor Nat.zero_lt_two]
      linear_combination -det)
    refine ⟨e', unit', det', fun first second => signs ?_ ?_⟩
    · rw [euclidRows_upper]
      have nonzero : e * p * S 1 0 ≠ 0 := by
        apply mul_ne_zero _ entry
        intro zero
        rw [zero, zero_mul] at first
        exact lt_irrefl 0 first
      have negative := lt_of_le_of_ne second nonzero
      linarith
    · have remainder : euclidRows S 1 0 factor 1 0 = (S 0 0).tmod (S 1 0) :=
        euclidRows_remainder S 0
      rw [remainder, neg_mul, neg_mul, neg_nonpos]
      rcases lt_or_ge (e * p) 0 with negative | nonneg
      · have dividend : S 0 0 < 0 := by
          by_contra above
          exact absurd first (not_lt.mpr
            (mul_nonpos_of_nonpos_of_nonneg negative.le (not_lt.mp above)))
        have opposite := Int.tmod_nonneg (a := -S 0 0) (S 1 0) (by linarith)
        rw [Int.neg_tmod] at opposite
        exact mul_nonneg_of_nonpos_of_nonpos negative.le (by linarith)
      · have dividend : 0 ≤ S 0 0 := by
          by_contra below
          exact absurd first (not_lt.mpr
            (mul_nonpos_of_nonneg_of_nonpos nonneg (not_le.mp below).le))
        exact mul_nonneg nonneg (Int.tmod_nonneg _ dividend)

end Pair

end GccCil.Gcc.Lambda
