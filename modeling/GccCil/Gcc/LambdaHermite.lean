import Mathlib.LinearAlgebra.Matrix.Echelon.Basic
import GccCil.Gcc.LambdaInverse

/-!
# Hermite decompositions

`lambda_matrix_hermite`, `lambda_matrix_right_hermite` and
`lambda_matrix_left_hermite`.
-/

namespace GccCil.Gcc.Lambda

open GccCil.Lib

/-- "`factor = row[i] / row[j]`", whose negation is the factor of the column. -/
def hermiteFactor (a b : Int) : Option Int :=
  if b = 0 then none else some (-1 * a.tdiv b)

theorem hermiteFactor_eq (a b : Int) (positive : 0 < b) :
    hermiteFactor a b = some (-(a.tdiv b)) := by
  rw [hermiteFactor, if_neg positive.ne', neg_one_mul]

def hermiteCompanion (n : Nat) : Companion LambdaMatrix where
  negate i U := rowNegate U n i
  exchange row1 row2 U := rowExchange U row1 row2
  add j i const1 U := rowAdd U n i j (-const1)
  factor := hermiteFactor
  factor_eq := hermiteFactor_eq

/-- `lambda_matrix_hermite`: the matrices `H` and `U`. -/
def matrixHermite (mat : LambdaMatrix) (n : Nat) : Option (LambdaMatrix × LambdaMatrix) :=
  triangularize (hermiteCompanion n) n mat matrixId

theorem hermiteCompanion_keeps (n : Nat) (mat : LambdaMatrix) (j : Nat) :
    Keeps (hermiteCompanion n) n j (fun H U =>
      toMatrix n n mat = toMatrix n n H * toMatrix n n U ∧ IsUnit (toMatrix n n U).det) := by
  have product : ∀ {H U H' U' : LambdaMatrix} {E F : Matrix (Fin n) (Fin n) ℤ},
      E * F = 1 → toMatrix n n H' = toMatrix n n H * E → toMatrix n n U' = F * toMatrix n n U →
      toMatrix n n mat = toMatrix n n H * toMatrix n n U ∧ IsUnit (toMatrix n n U).det →
      toMatrix n n mat = toMatrix n n H' * toMatrix n n U' ∧ IsUnit (toMatrix n n U').det := by
    intro H U H' U' E F cancel first second ⟨related, unimodular⟩
    rw [first, second, Matrix.det_mul]
    constructor
    · rw [related, Matrix.mul_assoc, ← Matrix.mul_assoc E, cancel, Matrix.one_mul]
    · refine IsUnit.mul (IsUnit.of_mul_eq_one E.det ?_) unimodular
      rw [mul_comm, ← Matrix.det_mul, cancel, Matrix.det_one]
  constructor
  · intro H U i after before
    exact product (negation_mul_self ⟨i, before⟩) (toMatrix_colNegate H ⟨i, before⟩)
      (toMatrix_rowNegate U ⟨i, before⟩)
  · intro H U i after before
    have inside : j < n := by omega
    have cancel : Matrix.swap ℤ (⟨j, inside⟩ : Fin n) ⟨i, before⟩ * Matrix.swap ℤ ⟨j, inside⟩ _ =
        1 := Matrix.swap_mul_self _ _
    exact product cancel (toMatrix_colExchange H ⟨j, inside⟩ ⟨i, before⟩)
      (toMatrix_rowExchange U ⟨j, inside⟩ ⟨i, before⟩)
  · intro H U i factor after before
    have different : (⟨j, by omega⟩ : Fin n) ≠ ⟨i, before⟩ := Fin.ne_of_lt after
    have cancel := transvection_cancel different (-factor)
    rw [neg_neg] at cancel
    have first := @toMatrix_colAdd n n H ⟨j, by omega⟩ ⟨i, before⟩ factor
    have second := @toMatrix_rowAdd n n U ⟨i, before⟩ ⟨j, by omega⟩ (-factor)
    exact product cancel first second

theorem matrixHermite_spec (mat : LambdaMatrix) (n : Nat) :
    ∃ H U, matrixHermite mat n = some (H, U) ∧
      toMatrix n n mat = toMatrix n n H * toMatrix n n U ∧ IsUnit (toMatrix n n U).det ∧
      (toMatrix n n H).IsLowerTriangular := by
  have first : toMatrix n n mat = toMatrix n n mat * toMatrix n n matrixId ∧
      IsUnit (toMatrix n n matrixId).det := by
    rw [toMatrix_id, Matrix.mul_one, Matrix.det_one]
    exact ⟨rfl, isUnit_one⟩
  obtain ⟨H, U, ran, ⟨product, unimodular⟩, lower⟩ :=
    triangularize_spec (hermiteCompanion_keeps n mat) first
  exact ⟨H, U, ran, product, unimodular, fun i k after => (lower i i.isLt).2 k after k.isLt⟩

section Rows

variable {α : Type} (follow : Nat → Int → α → α)

/-- The loop that clears `S[i + 1][j]`, with the steps that the second matrix takes. -/
def clearEntryBy (n i : Nat) (j : Fin n) (S : LambdaMatrix) (U : α) : LambdaMatrix × α :=
  if S (i + 1) j = 0 then (S, U)
  else
    let factor := euclidFactor (S i j) (S (i + 1) j)
    clearEntryBy n i j (euclidRows S n i factor) (follow i factor U)
termination_by (S (i + 1) j).natAbs
decreasing_by
  rw [euclidRows_lower S i _ j.isLt, euclidFactor_eq]
  have remainder : S i j - (S i j).tdiv (S (i + 1) j) * S (i + 1) j =
      (S i j).tmod (S (i + 1) j) := by
    rw [mul_comm, ← Int.tmod_def]
  rw [remainder, Int.natAbs_tmod]
  exact Nat.mod_lt _ (Int.natAbs_pos.mpr ‹_›)

/-- The loop over the rows below the row `i0`, from the last one up. -/
def clearColumnBy (n i0 : Nat) (j : Fin n) : Nat → LambdaMatrix → α → LambdaMatrix × α
  | 0, S, U => (S, U)
  | rows + 1, S, U =>
    let (S, U) := clearEntryBy follow n (i0 + rows) j S U
    clearColumnBy n i0 j rows S U

def echelonColumn (m n : Nat) (state : Nat × LambdaMatrix × α) (j : Fin n) :
    Nat × LambdaMatrix × α :=
  let (i0, S, U) := state
  if firstNz (S j) m i0 < m then (i0 + 1, clearColumnBy follow n i0 j (m - (i0 + 1)) S U)
  else state

/-- The state before the column `j`. -/
def echelonState (m n : Nat) (A : LambdaMatrix) (start : α) (j : Nat) : Nat × LambdaMatrix × α :=
  ((List.finRange n).take j).foldl (echelonColumn follow m n) (0, A, start)

end Rows

/-- The step of `lambda_matrix_left_hermite` on `V`. -/
def euclidCols (V : LambdaMatrix) (m i : Nat) (factor : Int) : LambdaMatrix :=
  colExchange (colAdd V m i (i + 1) factor) m (i + 1) i

/-- The row where the reduction of the column `j` starts, and the matrix before it. -/
def round (A : LambdaMatrix) (m n j : Nat) : Nat × LambdaMatrix :=
  let state := echelonState (fun _ _ second => second) m n A () j
  (state.1, state.2.1)

/-- `lambda_matrix_left_hermite`: the matrices `S` and `V`. -/
def leftHermite (A : LambdaMatrix) (m n : Nat) : LambdaMatrix × LambdaMatrix :=
  (echelonState (fun i factor V => euclidCols V m i factor) m n A matrixId n).2

theorem clearEntry_eq (m n i : Nat) (j : Fin n) (S U : LambdaMatrix) :
    clearEntry m n i j S U =
      clearEntryBy (fun i factor U => euclidRows U m i factor) n i j S U := by
  fun_induction clearEntry m n i j S U with
  | case1 S U clear => rw [clearEntryBy, if_pos clear]
  | case2 S U entry factor ih =>
    rw [clearEntryBy, if_neg entry]
    exact ih

theorem clearColumn_eq (m n i0 : Nat) (j : Fin n) (rows : Nat) (S U : LambdaMatrix) :
    clearColumn m n i0 j rows S U =
      clearColumnBy (fun i factor U => euclidRows U m i factor) n i0 j rows S U := by
  induction rows generalizing S U with
  | zero => rfl
  | succ rows ih =>
    rw [clearColumn, clearColumnBy, ← clearEntry_eq]
    exact ih _ _

theorem rightHermite_eq (A : LambdaMatrix) (m n : Nat) :
    rightHermite A m n =
      (echelonState (fun i factor U => euclidRows U m i factor) m n A matrixId n).2 := by
  have column : hermiteColumn m n =
      echelonColumn (fun i factor U => euclidRows U m i factor) m n := by
    funext state j
    rw [hermiteColumn, echelonColumn, clearColumn_eq]
  rw [rightHermite, echelonState, column, List.take_of_length_le List.length_finRange.le]

section Product

variable {α : Type} {follow : Nat → Int → α → α} {m n : Nat} {related : LambdaMatrix → α → Prop}

theorem clearEntryBy_keeps {i : Nat} (j : Fin n) {S : LambdaMatrix} {U : α}
    (keeps : ∀ S U factor, related S U → related (euclidRows S n i factor) (follow i factor U))
    (start : related S U) :
    related (clearEntryBy follow n i j S U).1 (clearEntryBy follow n i j S U).2 := by
  fun_induction clearEntryBy follow n i j S U with
  | case1 S U clear => exact start
  | case2 S U entry factor ih =>
    exact ih (keeps S U factor start)

theorem clearColumnBy_keeps {i0 : Nat} (j : Fin n) {rows : Nat} {S : LambdaMatrix} {U : α}
    (keeps : ∀ i, i < i0 + rows → ∀ S U factor, related S U →
      related (euclidRows S n i factor) (follow i factor U)) (start : related S U) :
    related (clearColumnBy follow n i0 j rows S U).1 (clearColumnBy follow n i0 j rows S U).2 := by
  induction rows generalizing S U with
  | zero => exact start
  | succ rows ih =>
    apply ih
    · intro i before
      exact keeps i (by omega)
    · exact clearEntryBy_keeps j (keeps (i0 + rows) (by omega)) start

theorem echelonState_keeps {A : LambdaMatrix} {first : α}
    (keeps : ∀ i, i + 1 < m → ∀ S U factor, related S U →
      related (euclidRows S n i factor) (follow i factor U)) (start : related A first) (j : Nat) :
    related (echelonState follow m n A first j).2.1 (echelonState follow m n A first j).2.2 := by
  have columns : ∀ (list : List (Fin n)) (state : Nat × LambdaMatrix × α),
      related state.2.1 state.2.2 →
      related (list.foldl (echelonColumn follow m n) state).2.1
        (list.foldl (echelonColumn follow m n) state).2.2 := by
    intro list
    induction list with
    | nil => exact fun _ kept => kept
    | cons j list ih =>
      rintro ⟨i0, S, U⟩ kept
      apply ih
      rw [echelonColumn]
      split
      · next found =>
          obtain ⟨k, after, before, -⟩ := (firstNz_lt_iff m _ _).mp found
          exact clearColumnBy_keeps j (fun i below => keeps i (by omega)) kept
      · exact kept
  exact columns _ _ start

theorem toMatrix_euclidRows {i : Nat} (inside : i + 1 < m) (S : LambdaMatrix) (factor : Int) :
    toMatrix m n (euclidRows S n i factor) =
      (Matrix.swap ℤ ⟨i + 1, inside⟩ ⟨i, Nat.lt_of_succ_lt inside⟩ : Matrix (Fin m) (Fin m) ℤ) *
        ((Matrix.transvection ⟨i, Nat.lt_of_succ_lt inside⟩ ⟨i + 1, inside⟩ (-factor) :
          Matrix (Fin m) (Fin m) ℤ) * toMatrix m n S) := by
  have added := @toMatrix_rowAdd m n S ⟨i + 1, inside⟩ ⟨i, Nat.lt_of_succ_lt inside⟩ (-factor)
  have exchanged := @toMatrix_rowExchange m n (rowAdd S n (i + 1) i (-factor)) ⟨i + 1, inside⟩
    ⟨i, Nat.lt_of_succ_lt inside⟩
  rw [← added, ← exchanged]
  rfl

theorem toMatrix_euclidCols {i : Nat} (inside : i + 1 < m) (V : LambdaMatrix) (factor : Int) :
    toMatrix m m (euclidCols V m i factor) =
      toMatrix m m V * Matrix.transvection ⟨i, Nat.lt_of_succ_lt inside⟩ ⟨i + 1, inside⟩ factor *
        Matrix.swap ℤ ⟨i + 1, inside⟩ ⟨i, Nat.lt_of_succ_lt inside⟩ := by
  have added := @toMatrix_colAdd m m V ⟨i, Nat.lt_of_succ_lt inside⟩ ⟨i + 1, inside⟩ factor
  have exchanged := @toMatrix_colExchange m m (colAdd V m i (i + 1) factor) ⟨i + 1, inside⟩
    ⟨i, Nat.lt_of_succ_lt inside⟩
  rw [← added, ← exchanged]
  rfl

theorem isUnit_det_swap (a b : Fin m) : IsUnit (Matrix.swap ℤ a b).det :=
  IsUnit.of_mul_eq_one _ (by rw [← Matrix.det_mul, Matrix.swap_mul_self, Matrix.det_one])

theorem rightHermite_product (A : LambdaMatrix) (m n : Nat) :
    toMatrix m m (rightHermite A m n).2 * toMatrix m n A = toMatrix m n (rightHermite A m n).1 ∧
      IsUnit (toMatrix m m (rightHermite A m n).2).det := by
  rw [rightHermite_eq]
  have keeps : ∀ i, i + 1 < m → ∀ S U factor,
      (toMatrix m m U * toMatrix m n A = toMatrix m n S ∧ IsUnit (toMatrix m m U).det) →
      toMatrix m m (euclidRows U m i factor) * toMatrix m n A =
          toMatrix m n (euclidRows S n i factor) ∧
        IsUnit (toMatrix m m (euclidRows U m i factor)).det := by
    rintro i inside S U factor ⟨product, unimodular⟩
    rw [toMatrix_euclidRows inside, toMatrix_euclidRows inside, Matrix.mul_assoc,
      Matrix.mul_assoc, product, Matrix.det_mul, Matrix.det_mul,
      Matrix.det_transvection_of_ne _ _ (Fin.ne_of_lt (Nat.lt_succ_self i)), one_mul]
    exact ⟨rfl, (isUnit_det_swap _ _).mul unimodular⟩
  refine echelonState_keeps keeps ?_ n
  rw [toMatrix_id, Matrix.one_mul, Matrix.det_one]
  exact ⟨rfl, isUnit_one⟩

theorem leftHermite_product (A : LambdaMatrix) (m n : Nat) :
    toMatrix m n A = toMatrix m m (leftHermite A m n).2 * toMatrix m n (leftHermite A m n).1 ∧
      IsUnit (toMatrix m m (leftHermite A m n).2).det := by
  have keeps : ∀ i, i + 1 < m → ∀ S V factor,
      (toMatrix m n A = toMatrix m m V * toMatrix m n S ∧ IsUnit (toMatrix m m V).det) →
      toMatrix m n A =
          toMatrix m m (euclidCols V m i factor) * toMatrix m n (euclidRows S n i factor) ∧
        IsUnit (toMatrix m m (euclidCols V m i factor)).det := by
    rintro i inside S V factor ⟨product, unimodular⟩
    have different : (⟨i, Nat.lt_of_succ_lt inside⟩ : Fin m) ≠ ⟨i + 1, inside⟩ :=
      Fin.ne_of_lt (Nat.lt_succ_self i)
    have cancel := transvection_cancel different (-factor)
    rw [neg_neg] at cancel
    rw [toMatrix_euclidRows inside, toMatrix_euclidCols inside, Matrix.det_mul, Matrix.det_mul,
      Matrix.det_transvection_of_ne _ _ different, mul_one]
    refine ⟨?_, unimodular.mul (isUnit_det_swap _ _)⟩
    rw [Matrix.mul_assoc _ (Matrix.swap ℤ _ _), ← Matrix.mul_assoc (Matrix.swap ℤ _ _),
      Matrix.swap_mul_self, Matrix.one_mul, Matrix.mul_assoc, ← Matrix.mul_assoc _ _ (toMatrix m n S),
      cancel, Matrix.one_mul, product]
  refine echelonState_keeps keeps ?_ n
  rw [toMatrix_id, Matrix.one_mul, Matrix.det_one]
  exact ⟨rfl, isUnit_one⟩

end Product

section Echelon

variable {α : Type} {follow : Nat → Int → α → α} {m n i0 j : Nat} {S : LambdaMatrix}

/-- The reduction of the first `j` columns, whose nonzero rows are the first `i0`. -/
structure Reduced (m j i0 : Nat) (S : LambdaMatrix) : Prop where
  inside : i0 ≤ m
  zero : ∀ i, i0 ≤ i → i < m → ∀ k, k < j → S i k = 0
  nonzero : ∀ i, i < i0 → ∃ k, k < j ∧ S i k ≠ 0
  echelon : ∀ i1 i2, i1 < i2 → i2 < m → ∀ k2, k2 < j → (∀ k1, k1 < k2 → S i1 k1 = 0) →
    S i2 k2 = 0

/-- The column `j` has a nonzero element below the reduced rows. -/
def ColumnNonzero (m i0 j : Nat) (S : LambdaMatrix) : Prop :=
  ∃ i, i0 ≤ i ∧ i < m ∧ S i j ≠ 0

theorem Reduced.skip (reduced : Reduced m j i0 S) (zero : ¬ ColumnNonzero m i0 j S) :
    Reduced m (j + 1) i0 S where
  inside := reduced.inside
  zero := by
    intro i after before k column
    rcases Nat.lt_succ_iff_lt_or_eq.mp column with earlier | rfl
    · exact reduced.zero i after before k earlier
    · by_contra nonzero
      exact zero ⟨i, after, before, nonzero⟩
  nonzero := by
    intro i before
    obtain ⟨k, column, nonzero⟩ := reduced.nonzero i before
    exact ⟨k, by omega, nonzero⟩
  echelon := by
    intro i1 i2 order before k2 column left
    rcases Nat.lt_succ_iff_lt_or_eq.mp column with earlier | rfl
    · exact reduced.echelon i1 i2 order before k2 earlier left
    · by_cases upper : i1 < i0
      · obtain ⟨k, columnK, nonzero⟩ := reduced.nonzero i1 upper
        exact absurd (left k columnK) nonzero
      · by_contra nonzero
        exact zero ⟨i2, by omega, before, nonzero⟩

structure Cleared (m n i0 j : Nat) (S S' : LambdaMatrix) : Prop where
  above : ∀ i, i < i0 → S' i = S i
  zero : ∀ k, k < n → (∀ i, i0 ≤ i → i < m → S i k = 0) →
    ∀ i, i0 ≤ i → i < m → S' i k = 0
  below : ∀ i, i0 < i → i < m → S' i j = 0
  pivot : ColumnNonzero m i0 j S → S' i0 j ≠ 0

theorem Reduced.clear (reduced : Reduced m j i0 S) (inside : j < n) {S' : LambdaMatrix}
    (cleared : Cleared m n i0 j S S') (nonzero : ColumnNonzero m i0 j S) :
    Reduced m (j + 1) (i0 + 1) S' where
  inside := by
    obtain ⟨i, after, before, -⟩ := nonzero
    omega
  zero := by
    intro i after before k column
    rcases Nat.lt_succ_iff_lt_or_eq.mp column with earlier | rfl
    · exact cleared.zero k (by omega) (fun i after before => reduced.zero i after before k earlier) i
        (by omega) before
    · exact cleared.below i after before
  nonzero := by
    intro i before
    rcases Nat.lt_succ_iff_lt_or_eq.mp before with upper | rfl
    · obtain ⟨k, column, entry⟩ := reduced.nonzero i upper
      exact ⟨k, by omega, by rwa [cleared.above i upper]⟩
    · exact ⟨j, Nat.lt_succ_self j, cleared.pivot nonzero⟩
  echelon := by
    intro i1 i2 order before k2 column left
    by_cases upper : i1 < i0
    · rw [cleared.above i1 upper] at left
      rcases Nat.lt_succ_iff_lt_or_eq.mp column with earlier | rfl
      · by_cases both : i2 < i0
        · rw [cleared.above i2 both]
          exact reduced.echelon i1 i2 order before k2 earlier left
        · exact cleared.zero k2 (by omega) (fun i after before => reduced.zero i after before k2 earlier) i2
            (by omega) before
      · obtain ⟨k, columnK, entry⟩ := reduced.nonzero i1 upper
        exact absurd (left k columnK) entry
    · rcases Nat.lt_succ_iff_lt_or_eq.mp column with earlier | rfl
      · exact cleared.zero k2 (by omega) (fun i after before => reduced.zero i after before k2 earlier) i2
          (by omega) before
      · exact cleared.below i2 (by omega) before

theorem euclidRows_other (S : LambdaMatrix) (n i : Nat) (factor : Int) {r : Nat} (upper : r ≠ i)
    (lower : r ≠ i + 1) : euclidRows S n i factor r = S r := by
  funext k
  simp [euclidRows, rowExchange, rowAdd, lower, upper]

theorem clearEntryBy_spec (follow : Nat → Int → α → α) (i : Nat) (j : Fin n) (S : LambdaMatrix)
    (U : α) :
    (∀ r, r ≠ i → r ≠ i + 1 → (clearEntryBy follow n i j S U).1 r = S r) ∧
      (∀ k, k < n → S i k = 0 → S (i + 1) k = 0 →
        (clearEntryBy follow n i j S U).1 i k = 0 ∧
          (clearEntryBy follow n i j S U).1 (i + 1) k = 0) ∧
      (clearEntryBy follow n i j S U).1 (i + 1) j = 0 ∧
      (S i j ≠ 0 ∨ S (i + 1) j ≠ 0 → (clearEntryBy follow n i j S U).1 i j ≠ 0) := by
  fun_induction clearEntryBy follow n i j S U with
  | case1 S U clear =>
    exact ⟨fun _ _ _ => rfl, fun _ _ upper lower => ⟨upper, lower⟩, clear,
      fun pair => pair.resolve_right (not_not.mpr clear)⟩
  | case2 S U entry factor ih =>
    obtain ⟨other, zero, below, pivot⟩ := ih
    refine ⟨?_, ?_, below, fun _ => pivot ?_⟩
    · intro r upper lower
      rw [other r upper lower, euclidRows_other S n i factor upper lower]
    · intro k column upper lower
      apply zero k column
      · rw [euclidRows_upper, lower]
      · rw [euclidRows_lower S i factor column, upper, lower, mul_zero, sub_zero]
    · left
      rwa [euclidRows_upper]

theorem clearColumnBy_spec (follow : Nat → Int → α → α) (j : Fin n) (rows : Nat)
    (S : LambdaMatrix) (U : α) :
    (∀ r, r < i0 ∨ i0 + rows < r → (clearColumnBy follow n i0 j rows S U).1 r = S r) ∧
      (∀ k, k < n → (∀ r, i0 ≤ r → r ≤ i0 + rows → S r k = 0) →
        ∀ r, i0 ≤ r → r ≤ i0 + rows → (clearColumnBy follow n i0 j rows S U).1 r k = 0) ∧
      (∀ r, i0 < r → r ≤ i0 + rows → (clearColumnBy follow n i0 j rows S U).1 r j = 0) ∧
      ((∃ r, i0 ≤ r ∧ r ≤ i0 + rows ∧ S r j ≠ 0) →
        (clearColumnBy follow n i0 j rows S U).1 i0 j ≠ 0) := by
  induction rows generalizing S U with
  | zero =>
    refine ⟨fun _ _ => rfl, fun k _ zero => zero, fun r after before => by omega, ?_⟩
    rintro ⟨r, after, before, nonzero⟩
    obtain rfl : r = i0 := by omega
    exact nonzero
  | succ rows ih =>
    obtain ⟨otherE, zeroE, belowE, pivotE⟩ := clearEntryBy_spec follow (i0 + rows) j S U
    obtain ⟨other, zero, below, pivot⟩ := ih
      (clearEntryBy follow n (i0 + rows) j S U).1 (clearEntryBy follow n (i0 + rows) j S U).2
    rw [clearColumnBy]
    refine ⟨?_, ?_, ?_, ?_⟩
    · intro r outside
      rw [other r (by omega), otherE r (by omega) (by omega)]
    · intro k column empty r after before
      obtain ⟨upper, lower⟩ := zeroE k column (empty _ (by omega) (by omega))
        (empty _ (by omega) (by omega))
      by_cases last : r = i0 + rows + 1
      · subst last
        rw [other _ (by omega)]
        exact lower
      · apply zero k column _ r after (by omega)
        intro l afterL beforeL
        by_cases entry : l = i0 + rows
        · rw [entry, upper]
        · rw [otherE l entry (by omega)]
          exact empty l afterL (by omega)
    · intro r after before
      by_cases last : r = i0 + rows + 1
      · subst last
        rw [other _ (by omega)]
        exact belowE
      · exact below r after (by omega)
    · rintro ⟨r, after, before, nonzero⟩
      apply pivot
      by_cases entry : r = i0 + rows ∨ r = i0 + rows + 1
      · refine ⟨i0 + rows, by omega, le_refl _, pivotE ?_⟩
        rcases entry with rfl | rfl
        · exact Or.inl nonzero
        · exact Or.inr nonzero
      · exact ⟨r, after, by omega, by rwa [otherE r (by omega) (by omega)]⟩

theorem cleared_clearColumnBy (follow : Nat → Int → α → α) (j : Fin n) (below : i0 < m)
    (S : LambdaMatrix) (U : α) :
    Cleared m n i0 j S (clearColumnBy follow n i0 j (m - (i0 + 1)) S U).1 := by
  obtain ⟨other, zero, clear, pivot⟩ := clearColumnBy_spec follow j (m - (i0 + 1)) S U
  refine ⟨fun r upper => other r (Or.inl upper), ?_, ?_, ?_⟩
  · intro k column empty r after before
    exact zero k column (fun r after before => empty r after (by omega)) r after (by omega)
  · intro r after before
    exact clear r after (by omega)
  · rintro ⟨r, after, before, nonzero⟩
    exact pivot ⟨r, after, by omega, nonzero⟩

/-- The search for a nonzero element in the row `j`, from the column `i0` on. -/
def RowNonzero (n i0 j : Nat) (S : LambdaMatrix) : Prop :=
  ∃ k, i0 ≤ k ∧ k < n ∧ S j k ≠ 0

/-- The elements that the search reads: the row is one of the matrix, and the elements up to
the first nonzero one are. -/
def ReadsInside (m n i0 j : Nat) (S : LambdaMatrix) : Prop :=
  j < m ∧ ∀ k, i0 ≤ k → k < m → (∀ l, i0 ≤ l → l < k → S j l = 0) → k < n

/-- The row `j` has a nonzero element exactly when the column `j` has one, and when there are
more rows than columns the search ends inside the row. -/
def RowShowsColumn (m n i0 j : Nat) (S : LambdaMatrix) : Prop :=
  j < m ∧ (RowNonzero n i0 j S ↔ ColumnNonzero m i0 j S) ∧ (n < m → i0 < m → RowNonzero n i0 j S)

theorem readsInside_iff (fits : n ≤ m) (row : j < m) :
    ReadsInside m n i0 j S ↔ (n < m → i0 < m → RowNonzero n i0 j S) := by
  constructor
  · rintro ⟨-, inside⟩ more below
    by_contra empty
    have zero : ∀ l, i0 ≤ l → l < n → S j l = 0 := by
      intro l after before
      by_contra nonzero
      exact empty ⟨l, after, before, nonzero⟩
    have outside := inside (max i0 n) (le_max_left _ _) (max_lt below more)
      (fun l after before => zero l after (by omega))
    omega
  · refine fun found => ⟨row, fun k after before zero => ?_⟩
    by_contra outside
    obtain ⟨l, afterL, beforeL, nonzero⟩ := found (by omega) (by omega)
    exact nonzero (zero l afterL (by omega))

theorem ReadsInside.found_iff (reads : ReadsInside m n i0 j S) (fits : n ≤ m) :
    firstNz (S j) m i0 < m ↔ RowNonzero n i0 j S := by
  constructor
  · intro found
    by_contra empty
    obtain ⟨k, after, before, nonzero⟩ := (firstNz_lt_iff m _ _).mp found
    have outside : n ≤ k := by
      by_contra inside
      exact empty ⟨k, after, by omega, nonzero⟩
    exact empty ((readsInside_iff fits reads.1).mp reads (by omega) (by omega))
  · rintro ⟨k, after, before, nonzero⟩
    exact (firstNz_lt_iff m _ _).mpr ⟨k, after, by omega, nonzero⟩

theorem echelonState_succ (follow : Nat → Int → α → α) (m : Nat) (A : LambdaMatrix) (first : α)
    (j : Fin n) :
    echelonState follow m n A first (j + 1) =
      echelonColumn follow m n (echelonState follow m n A first j) j := by
  have last : (List.finRange n)[(j : Nat)]? = some j := by
    rw [List.getElem?_eq_getElem (by rw [List.length_finRange]; exact j.isLt), List.getElem_finRange]
    rfl
  rw [echelonState, List.take_add_one, last, List.foldl_append]
  rfl

theorem clearEntryBy_fst (follow : Nat → Int → α → α) (i : Nat) (j : Fin n) (S : LambdaMatrix)
    (U : α) (other : Unit) :
    (clearEntryBy follow n i j S U).1 = (clearEntryBy (fun _ _ second => second) n i j S other).1 := by
  fun_induction clearEntryBy follow n i j S U with
  | case1 S U clear => rw [clearEntryBy, if_pos clear]
  | case2 S U entry factor ih =>
    rw [ih]
    conv_rhs => rw [clearEntryBy, if_neg entry]

theorem clearColumnBy_fst (follow : Nat → Int → α → α) (i0 : Nat) (j : Fin n) (rows : Nat)
    (S : LambdaMatrix) (U : α) (other : Unit) :
    (clearColumnBy follow n i0 j rows S U).1 =
      (clearColumnBy (fun _ _ second => second) n i0 j rows S other).1 := by
  induction rows generalizing S U other with
  | zero => rfl
  | succ rows ih =>
    rw [clearColumnBy, clearColumnBy]
    dsimp only
    rw [ih _ _ (), clearEntryBy_fst follow _ _ _ _ other]

theorem echelonState_eq_round (follow : Nat → Int → α → α) (A : LambdaMatrix) (first : α)
    {j : Nat} (inside : j ≤ n) :
    ((echelonState follow m n A first j).1, (echelonState follow m n A first j).2.1) =
      round A m n j := by
  induction j with
  | zero => rfl
  | succ j ih =>
    obtain ⟨same, rows⟩ := Prod.mk.inj (ih (by omega))
    rw [round, echelonState_succ follow m A first ⟨j, inside⟩,
      echelonState_succ _ m A () ⟨j, inside⟩]
    dsimp only at same rows ⊢
    rw [echelonColumn, echelonColumn]
    dsimp only
    rw [same, rows]
    split
    · dsimp only
      rw [clearColumnBy_fst follow _ _ _ _ _ ()]
    · dsimp only

theorem round_succ (A : LambdaMatrix) (m : Nat) (inside : j < n) :
    round A m n (j + 1) = if firstNz ((round A m n j).2 j) m (round A m n j).1 < m
      then ((round A m n j).1 + 1, (clearColumnBy (fun _ _ second => second) n (round A m n j).1
        ⟨j, inside⟩ (m - ((round A m n j).1 + 1)) (round A m n j).2 ()).1)
      else round A m n j := by
  rw [round, echelonState_succ _ m A () ⟨j, inside⟩, echelonColumn]
  dsimp only
  split
  · next found => exact (if_pos found).symm
  · next missing => exact (if_neg missing).symm

theorem Reduced.round_iff {A : LambdaMatrix} (inside : j < n) (fits : n ≤ m)
    (reads : ReadsInside m n (round A m n j).1 j (round A m n j).2)
    (reduced : Reduced m j (round A m n j).1 (round A m n j).2) :
    Reduced m (j + 1) (round A m n (j + 1)).1 (round A m n (j + 1)).2 ↔
      (RowNonzero n (round A m n j).1 j (round A m n j).2 ↔
        ColumnNonzero m (round A m n j).1 j (round A m n j).2) := by
  rw [round_succ A m inside]
  by_cases found : RowNonzero n (round A m n j).1 j (round A m n j).2
  · rw [if_pos ((reads.found_iff fits).mpr found)]
    dsimp only
    have below : (round A m n j).1 < m := by
      obtain ⟨k, after, before, -⟩ := found
      omega
    have cleared := cleared_clearColumnBy (fun _ _ second => second) ⟨j, inside⟩ below
      (round A m n j).2 ()
    constructor
    · refine fun kept => ⟨fun _ => ?_, fun _ => found⟩
      by_contra zero
      obtain ⟨k, column, nonzero⟩ := kept.nonzero _ (Nat.lt_succ_self _)
      apply nonzero
      apply cleared.zero k (by omega) _ _ (le_refl _) below
      intro i after before
      rcases Nat.lt_succ_iff_lt_or_eq.mp column with earlier | rfl
      · exact reduced.zero i after before k earlier
      · by_contra entry
        exact zero ⟨i, after, before, entry⟩
    · exact fun right => reduced.clear inside cleared (right.mp found)
  · rw [if_neg fun search => found ((reads.found_iff fits).mp search)]
    constructor
    · intro kept
      refine ⟨fun nonzero => absurd nonzero found, ?_⟩
      rintro ⟨i, after, before, nonzero⟩
      exact absurd (kept.zero i after before j (Nat.lt_succ_self j)) nonzero
    · exact fun right => reduced.skip fun nonzero => found (right.mpr nonzero)

/-- The searches of the decompositions stay inside the matrix. -/
def SearchesInside (A : LambdaMatrix) (m n : Nat) : Prop :=
  ∀ j, j < n → ReadsInside m n (round A m n j).1 j (round A m n j).2

/-- Each round searches the row where the source of the algorithm has the column. -/
def RowsShowColumns (A : LambdaMatrix) (m n : Nat) : Prop :=
  ∀ j, j < n → RowShowsColumn m n (round A m n j).1 j (round A m n j).2

def RoundsReduce (A : LambdaMatrix) (m n : Nat) : Prop :=
  ∀ j, j ≤ n → Reduced m j (round A m n j).1 (round A m n j).2

theorem reduced_zero (A : LambdaMatrix) (m : Nat) : Reduced m 0 0 A :=
  ⟨Nat.zero_le m, fun _ _ _ k column => absurd column (Nat.not_lt_zero k),
    fun i before => absurd before (Nat.not_lt_zero i),
    fun _ _ _ _ k column => absurd column (Nat.not_lt_zero k)⟩

theorem roundsReduce_iff (A : LambdaMatrix) (m n : Nat) :
    SearchesInside A m n ∧ RoundsReduce A m n ↔ RowsShowColumns A m n := by
  have rows : (∀ j, j < n → j < m) → n ≤ m := by
    intro inside
    cases n with
    | zero => exact Nat.zero_le m
    | succ n => exact inside n (Nat.lt_succ_self n)
  constructor
  · rintro ⟨reads, reduces⟩ j inside
    have fits := rows fun j inside => (reads j inside).1
    exact ⟨(reads j inside).1,
      (Reduced.round_iff inside fits (reads j inside) (reduces j inside.le)).mp
        (reduces (j + 1) inside),
      (readsInside_iff fits (reads j inside).1).mp (reads j inside)⟩
  · intro shows
    have fits := rows fun j inside => (shows j inside).1
    have reads : SearchesInside A m n := fun j inside =>
      (readsInside_iff fits (shows j inside).1).mpr (shows j inside).2.2
    refine ⟨reads, fun j => ?_⟩
    induction j with
    | zero => exact fun _ => reduced_zero A m
    | succ j ih =>
      intro inside
      exact (Reduced.round_iff inside fits (reads j inside)
        (ih (by omega))).mpr (shows j inside).2.1

theorem clearEntryBy_congr (follow : Nat → Int → α → α) {i : Nat} (inside : i + 1 < m) (j : Fin n)
    (S S' : LambdaMatrix) (U : α) (same : toMatrix m n S = toMatrix m n S') :
    toMatrix m n (clearEntryBy follow n i j S U).1 =
        toMatrix m n (clearEntryBy follow n i j S' U).1 ∧
      (clearEntryBy follow n i j S U).2 = (clearEntryBy follow n i j S' U).2 := by
  revert S'
  fun_induction clearEntryBy follow n i j S U with
  | case1 S U clear =>
    intro S' same
    have lower : S (i + 1) j = S' (i + 1) j := congrFun (congrFun same ⟨i + 1, inside⟩) j
    rw [clearEntryBy, if_pos (lower ▸ clear)]
    exact ⟨same, rfl⟩
  | case2 S U entry factor ih =>
    intro S' same
    have lower : S (i + 1) j = S' (i + 1) j := congrFun (congrFun same ⟨i + 1, inside⟩) j
    have upper : S i j = S' i j := congrFun (congrFun same ⟨i, Nat.lt_of_succ_lt inside⟩) j
    have step : clearEntryBy follow n i j S' U =
        clearEntryBy follow n i j (euclidRows S' n i factor) (follow i factor U) := by
      rw [clearEntryBy, if_neg (lower ▸ entry), ← upper, ← lower]
    rw [step]
    refine ih _ ?_
    rw [toMatrix_euclidRows inside, toMatrix_euclidRows inside, same]

theorem clearColumnBy_congr (follow : Nat → Int → α → α) (j : Fin n) {rows : Nat}
    (inside : i0 + rows < m) {S S' : LambdaMatrix} (U : α)
    (same : toMatrix m n S = toMatrix m n S') :
    toMatrix m n (clearColumnBy follow n i0 j rows S U).1 =
        toMatrix m n (clearColumnBy follow n i0 j rows S' U).1 ∧
      (clearColumnBy follow n i0 j rows S U).2 = (clearColumnBy follow n i0 j rows S' U).2 := by
  induction rows generalizing S S' U with
  | zero => exact ⟨same, rfl⟩
  | succ rows ih =>
    obtain ⟨cleared, followed⟩ :=
      clearEntryBy_congr follow (show i0 + rows + 1 < m from inside) j S S' U same
    rw [clearColumnBy, clearColumnBy]
    dsimp only
    rw [followed]
    exact ih (by omega) _ cleared

theorem ReadsInside.congr {S' : LambdaMatrix} (reads : ReadsInside m n i0 j S)
    (same : toMatrix m n S = toMatrix m n S') :
    firstNz (S j) m i0 < m ↔ firstNz (S' j) m i0 < m := by
  have entry (k : Nat) (column : k < n) : S j k = S' j k :=
    congrFun (congrFun same ⟨j, reads.1⟩) ⟨k, column⟩
  rw [firstNz_lt_iff, firstNz_lt_iff]
  constructor
  · intro found
    obtain ⟨⟨after, before, nonzero⟩, least⟩ := Nat.find_spec found, fun l => Nat.find_min found
    have column := reads.2 _ after before fun l afterL earlier => by
      by_contra nonzeroL
      exact least l earlier ⟨afterL, earlier.trans before, nonzeroL⟩
    exact ⟨_, after, before, entry _ column ▸ nonzero⟩
  · rintro ⟨k, after, before, nonzero⟩
    by_contra missing
    have zero (l : Nat) (afterL : i0 ≤ l) (beforeL : l < m) : S j l = 0 := by
      by_contra nonzeroL
      exact missing ⟨l, afterL, beforeL, nonzeroL⟩
    have column := reads.2 k after before fun l afterL earlier => zero l afterL (by omega)
    exact nonzero (entry k column ▸ zero k after before)

/-- Only elements of the matrix are read where the searches stay inside of it. -/
theorem SearchesInside.congr {A B : LambdaMatrix} (searches : SearchesInside A m n)
    (same : toMatrix m n A = toMatrix m n B) (follow : Nat → Int → α → α) (first : α) (j : Nat)
    (inside : j ≤ n) :
    (echelonState follow m n A first j).1 = (echelonState follow m n B first j).1 ∧
      toMatrix m n (echelonState follow m n A first j).2.1 =
        toMatrix m n (echelonState follow m n B first j).2.1 ∧
      (echelonState follow m n A first j).2.2 = (echelonState follow m n B first j).2.2 := by
  induction j with
  | zero => exact ⟨rfl, same, rfl⟩
  | succ j ih =>
    obtain ⟨rows, elements, followed⟩ := ih (by omega)
    have reads := searches j inside
    rw [← echelonState_eq_round follow A first (by omega)] at reads
    rw [echelonState_succ follow m A first ⟨j, inside⟩, echelonState_succ follow m B first
      ⟨j, inside⟩, echelonColumn, echelonColumn]
    dsimp only at reads ⊢
    simp only [← rows, ← followed, ← reads.congr elements]
    split
    · rename_i found
      obtain ⟨k, after, before, -⟩ := (firstNz_lt_iff m _ _).mp found
      refine ⟨rfl, clearColumnBy_congr follow ⟨j, inside⟩ ?_ _ elements⟩
      omega
    · exact ⟨rfl, elements, rfl⟩

theorem Reduced.isRowEchelon (reduced : Reduced m n i0 S) : (toMatrix m n S).IsRowEchelon := by
  intro i1 i2 order k2 left
  exact reduced.echelon i1 i2 order i2.isLt k2 k2.isLt fun k1 before =>
    left ⟨k1, before.trans k2.isLt⟩ before

theorem rightHermite_fst (A : LambdaMatrix) (m n : Nat) :
    (rightHermite A m n).1 = (round A m n n).2 := by
  rw [rightHermite_eq]
  exact (Prod.mk.inj (echelonState_eq_round _ A matrixId (le_refl n))).2

theorem leftHermite_fst (A : LambdaMatrix) (m n : Nat) :
    (leftHermite A m n).1 = (round A m n n).2 :=
  (Prod.mk.inj (echelonState_eq_round _ A matrixId (le_refl n))).2

end Echelon

/-- The factors always multiply to the matrix and are unimodular.  The rounds of the right and
the left decomposition reduce the columns one after the other, reading only elements of the
matrix, exactly when the searched rows show what is in the columns, and then the result is an
echelon matrix.  Where the searches stay inside the matrix, nothing else is read either. -/
theorem hermite_decompositions (A : LambdaMatrix) (m n : Nat) :
    (∃ H U, matrixHermite A n = some (H, U) ∧
      toMatrix n n A = toMatrix n n H * toMatrix n n U ∧ IsUnit (toMatrix n n U).det ∧
      (toMatrix n n H).IsLowerTriangular) ∧
    (toMatrix m m (rightHermite A m n).2 * toMatrix m n A = toMatrix m n (rightHermite A m n).1 ∧
      IsUnit (toMatrix m m (rightHermite A m n).2).det) ∧
    (toMatrix m n A = toMatrix m m (leftHermite A m n).2 * toMatrix m n (leftHermite A m n).1 ∧
      IsUnit (toMatrix m m (leftHermite A m n).2).det) ∧
    (SearchesInside A m n ∧ RoundsReduce A m n ↔ RowsShowColumns A m n) ∧
    (RowsShowColumns A m n → (toMatrix m n (rightHermite A m n).1).IsRowEchelon ∧
      (toMatrix m n (leftHermite A m n).1).IsRowEchelon) ∧
    ∀ B, SearchesInside A m n → toMatrix m n A = toMatrix m n B →
      (toMatrix m n (rightHermite A m n).1 = toMatrix m n (rightHermite B m n).1 ∧
        (rightHermite A m n).2 = (rightHermite B m n).2) ∧
      toMatrix m n (leftHermite A m n).1 = toMatrix m n (leftHermite B m n).1 ∧
        (leftHermite A m n).2 = (leftHermite B m n).2 := by
  refine ⟨matrixHermite_spec A n, rightHermite_product A m n, leftHermite_product A m n,
    roundsReduce_iff A m n, fun shows => ?_, fun B searches same => ?_⟩
  · have reduced := ((roundsReduce_iff A m n).mpr shows).2 n (le_refl n)
    rw [rightHermite_fst, leftHermite_fst]
    exact ⟨reduced.isRowEchelon, reduced.isRowEchelon⟩
  · rw [rightHermite_eq, rightHermite_eq]
    exact ⟨(searches.congr same _ _ n le_rfl).2, (searches.congr same _ _ n le_rfl).2⟩

/-- A step of Euclid's algorithm makes the identity of this matrix. -/
example : RowsShowColumns (fun i j => if i = 1 ∧ j = 1 then 0 else 1) 2 2 := by
  let A : LambdaMatrix := fun i j => if i = 1 ∧ j = 1 then 0 else 1
  have second : (round A 2 2 1).1 = 1 ∧ (round A 2 2 1).2 1 1 ≠ 0 := by
    have first : round A 2 2 0 = (0, A) := rfl
    rw [round_succ A 2 Nat.zero_lt_two, first,
      if_pos ((firstNz_lt_iff 2 _ _).mpr ⟨0, le_refl 0, Nat.zero_lt_two, by decide⟩)]
    refine ⟨rfl, ?_⟩
    dsimp only
    rw [clearColumnBy, clearEntryBy, if_neg (by decide), clearEntryBy, if_pos (by decide)]
    decide
  intro j inside
  obtain rfl | rfl : j = 0 ∨ j = 1 := by omega
  · exact ⟨by decide, iff_of_true ⟨0, by decide⟩ ⟨0, by decide⟩, by omega⟩
  · exact ⟨by decide, iff_of_true ⟨1, second.1.le, by decide, second.2⟩
      ⟨1, second.1.le, by decide, second.2⟩, by omega⟩

/-- The zero row hides the nonzero element of the first column. -/
theorem hermite_not_echelon :
    ¬ ∀ (A : LambdaMatrix) (m n : Nat), (toMatrix m n (rightHermite A m n).1).IsRowEchelon ∧
      (toMatrix m n (leftHermite A m n).1).IsRowEchelon := by
  intro claim
  let A : LambdaMatrix := fun i j => if i = 1 ∧ j = 0 then 1 else 0
  have first : round A 2 2 1 = (0, A) := by
    rw [round_succ A 2 Nat.zero_lt_two, if_neg]
    · rfl
    · rw [firstNz_lt_iff]
      rintro ⟨k, -, -, nonzero⟩
      have zero : A 0 k = 0 := if_neg fun both => Nat.zero_ne_one both.1
      exact nonzero zero
  have second : (round A 2 2 2).2 = A := by
    rw [round_succ A 2 Nat.one_lt_two, first, if_pos]
    · dsimp only
      rw [clearColumnBy, clearEntryBy, if_pos]
      · rfl
      · exact if_neg fun both => Nat.one_ne_zero both.2
    · exact (firstNz_lt_iff 2 _ _).mpr ⟨0, le_refl 0, Nat.zero_lt_two, by decide⟩
  have echelon := (claim A 2 2).1
  rw [rightHermite_fst, second] at echelon
  have zero : toMatrix 2 2 A 1 0 = 0 :=
    echelon Fin.zero_lt_one fun k before => absurd before (Fin.not_lt_zero k)
  exact one_ne_zero zero

end GccCil.Gcc.Lambda
