import Mathlib.LinearAlgebra.Matrix.Block
import GccCil.Gcc.LambdaSweep

/-!
# The inverse of an integer matrix

`lambda_matrix_inverse`, which returns the determinant and the inverse
multiplied by it.
-/

namespace GccCil.Gcc.Lambda

open GccCil.Lib

/-- "`factor = -1 * row[i]; if (row[j] != 1) factor /= row[j];`", with `none` for
a division by zero. -/
def inverseFactor (a b : Int) : Option Int :=
  let factor := -1 * a
  if b ≠ 1 then
    if b = 0 then none else some (factor.tdiv b)
  else some factor

theorem inverseFactor_eq (a b : Int) (positive : 0 < b) :
    inverseFactor a b = some (-(a.tdiv b)) := by
  rw [inverseFactor]
  by_cases one : b = 1
  · rw [if_neg (not_not.mpr one), one, Int.tdiv_one, neg_one_mul]
  · rw [if_pos one, if_neg positive.ne', neg_one_mul, Int.neg_tdiv]

def inverseCompanion (n : Nat) : Companion LambdaMatrix where
  negate c1 inv := colNegate inv n c1
  exchange col1 col2 inv := colExchange inv n col1 col2
  add c1 c2 const1 inv := colAdd inv n c1 c2 const1
  factor := inverseFactor
  factor_eq := inverseFactor_eq

def scaleColumns (n j : Nat) (diagonal : Int) (inv : LambdaMatrix) : LambdaMatrix :=
  let inv := (List.range j).foldl (fun inv i => colMc inv n i diagonal) inv
  (List.range' (j + 1) (n - (j + 1))).foldl (fun inv i => colMc inv n i diagonal) inv

def clearRow (n j : Nat) : Nat → LambdaMatrix × LambdaMatrix → LambdaMatrix × LambdaMatrix
  | 0, state => state
  | i + 1, (temp, inv) =>
    if temp j i ≠ 0 then
      let factor := -temp j i
      clearRow n j i (colAdd temp n j i factor, colAdd inv n j i factor)
    else clearRow n j i (temp, inv)

def substituteRow (n : Nat) (state : Int × LambdaMatrix × LambdaMatrix) (j : Nat) :
    Option (Int × LambdaMatrix × LambdaMatrix) :=
  let (determinant, temp, inv) := state
  let diagonal := temp j j
  if diagonal = 0 then none
  else
    let determinant := determinant * diagonal
    if diagonal ≠ 1 then
      let inv := scaleColumns n j diagonal inv
      let temp := Function.update temp j (Function.update (temp j) j 1)
      some (determinant, clearRow n j j (temp, inv))
    else some (determinant, clearRow n j j (temp, inv))

def backSubstitute (n : Nat) : Nat → Int × LambdaMatrix × LambdaMatrix →
    Option (Int × LambdaMatrix × LambdaMatrix)
  | 0, state => some state
  | j + 1, state => do backSubstitute n j (← substituteRow n state j)

/-- `lambda_matrix_inverse_hard` -/
def matrixInverseHard (mat : LambdaMatrix) (n : Nat) : Option (Int × LambdaMatrix) := do
  let (temp, inv) ← triangularize (inverseCompanion n) n mat matrixId
  let (determinant, _, inv) ← backSubstitute n n (1, temp, inv)
  return (determinant, inv)

/-- `lambda_matrix_inverse` -/
def matrixInverse (mat : LambdaMatrix) (n : Nat) : Option (Int × LambdaMatrix) :=
  if n = 2 then
    let a := mat 0 0
    let b := mat 1 0
    let c := mat 0 1
    let d := mat 1 1
    let inv : LambdaMatrix := fun i j =>
      if i = 0 then if j = 0 then d else -c
      else if j = 0 then -b else a
    let det := a * d - b * c
    if det < 0 then some (det * -1, fun i j => inv i j * -1) else some (det, inv)
  else matrixInverseHard mat n

section BackSubstitution

variable {n j : Nat} {mat temp inv : LambdaMatrix}

theorem foldl_colMc (columns : List Nat) (distinct : columns.Nodup) (diagonal : Int)
    (inv : LambdaMatrix) {r : Nat} (row : r < n) (c : Nat) :
    columns.foldl (fun inv i => colMc inv n i diagonal) inv r c =
      if c ∈ columns then inv r c * diagonal else inv r c := by
  induction columns generalizing inv with
  | nil => simp
  | cons i columns ih =>
    obtain ⟨fresh, distinct⟩ := List.nodup_cons.mp distinct
    rw [List.foldl_cons, ih distinct]
    by_cases same : c = i
    · subst same
      rw [if_neg fresh, if_pos List.mem_cons_self, colMc, if_pos ⟨row, rfl⟩]
    · simp only [colMc, same, and_false, if_false, List.mem_cons, false_or]

theorem scaleColumns_apply (diagonal : Int) (inv : LambdaMatrix) {r c : Nat} (row : r < n)
    (column : c < n) (j : Nat) :
    scaleColumns n j diagonal inv r c = if c = j then inv r c else inv r c * diagonal := by
  rw [scaleColumns, foldl_colMc _ List.nodup_range' _ _ row, foldl_colMc _ List.nodup_range _ _ row]
  simp only [List.mem_range'_1, List.mem_range]
  rcases lt_trichotomy c j with below | rfl | above
  · rw [if_neg (by omega), if_pos below, if_neg below.ne]
  · rw [if_neg (by omega), if_neg (lt_irrefl c), if_pos rfl]
  · rw [if_pos (by omega), if_neg (by omega), if_neg above.ne']

theorem clearRow_spec {M : Matrix (Fin n) (Fin n) ℤ} {determinant : Int} (inside : j < n)
    {count : Nat} (before : count ≤ j)
    (column : ∀ r, r < n → temp r j = if r = j then 1 else 0)
    (product : M * toMatrix n n inv = determinant • toMatrix n n temp) :
    M * toMatrix n n (clearRow n j count (temp, inv)).2 =
        determinant • toMatrix n n (clearRow n j count (temp, inv)).1 ∧
      ∀ r, r < n → ∀ k, (clearRow n j count (temp, inv)).1 r k =
        if r = j ∧ k < count then 0 else temp r k := by
  induction count generalizing temp inv with
  | zero =>
    refine ⟨product, fun r row k => ?_⟩
    rw [if_neg fun both => Nat.not_lt_zero k both.2]
    rfl
  | succ i ih =>
    by_cases zero : temp j i = 0
    · rw [clearRow, if_neg (not_not.mpr zero)]
      obtain ⟨kept, entries⟩ := ih (by omega) column product
      refine ⟨kept, fun r row k => ?_⟩
      rw [entries r row]
      by_cases last : r = j ∧ k = i
      · obtain ⟨rfl, rfl⟩ := last
        rw [zero, ite_self, ite_self]
      · exact if_congr (by omega) rfl rfl
    · rw [clearRow, if_pos zero]
      have added : ∀ r, r < n → ∀ k, colAdd temp n j i (-temp j i) r k =
          if r = j ∧ k = i then 0 else temp r k := by
        intro r row k
        rw [colAdd]
        by_cases same : k = i
        · subst same
          rw [if_pos ⟨row, rfl⟩, column r row]
          by_cases diagonal : r = j
          · rw [if_pos diagonal, if_pos ⟨diagonal, rfl⟩, diagonal]
            ring
          · rw [if_neg diagonal, if_neg fun both => diagonal both.1]
            ring
        · rw [if_neg fun both => same both.2, if_neg fun both => same both.2]
      have column' : ∀ r, r < n → colAdd temp n j i (-temp j i) r j = if r = j then 1 else 0 := by
        intro r row
        rw [added r row, if_neg fun both => by omega]
        exact column r row
      have product' : M * toMatrix n n (colAdd inv n j i (-temp j i)) =
          determinant • toMatrix n n (colAdd temp n j i (-temp j i)) := by
        have first := @toMatrix_colAdd n n inv ⟨j, inside⟩ ⟨i, by omega⟩ (-temp j i)
        have second := @toMatrix_colAdd n n temp ⟨j, inside⟩ ⟨i, by omega⟩ (-temp j i)
        dsimp only at first second
        rw [first, second, ← Matrix.mul_assoc, product, Matrix.smul_mul]
      obtain ⟨kept, entries⟩ := ih (by omega) column' product'
      refine ⟨kept, fun r row k => ?_⟩
      rw [entries r row, added r row]
      by_cases last : r = j ∧ k = i
      · rw [if_pos last, ite_self, if_pos ⟨last.1, by omega⟩]
      · rw [if_neg last]
        exact if_congr (by omega) rfl rfl

/-- The state before the rows below `j` are substituted: the multiple of the
matrix that the columns have become, with the rows from `j` on finished. -/
structure Substituted (M : Matrix (Fin n) (Fin n) ℤ) (diagonal : Nat → Int) (j : Nat)
    (determinant : Int) (temp inv : LambdaMatrix) : Prop where
  product : M * toMatrix n n inv = determinant • toMatrix n n temp
  determinant_eq : determinant = ∏ i ∈ Finset.Ico j n, diagonal i
  lower : ∀ i, i < j → ∀ k, i < k → k < n → temp i k = 0
  diagonal_eq : ∀ i, i < j → temp i i = diagonal i
  finished : ∀ i, j ≤ i → i < n → ∀ k, k < n → temp i k = if i = k then 1 else 0

variable {M : Matrix (Fin n) (Fin n) ℤ} {diagonal : Nat → Int} {determinant : Int}

theorem Substituted.column (substituted : Substituted M diagonal (j + 1) determinant temp inv)
    (inside : j < n) {r : Nat} (row : r < n) (other : r ≠ j) : temp r j = 0 := by
  rcases Nat.lt_or_gt_of_ne other with above | below
  · exact substituted.lower r (by omega) j above inside
  · rw [substituted.finished r below row j inside, if_neg other]

theorem Substituted.clearRow (substituted : Substituted M diagonal (j + 1) determinant temp inv)
    (inside : j < n) {temp1 inv1 : LambdaMatrix}
    (entries : ∀ r k, temp1 r k = if r = j ∧ k = j then 1 else temp r k)
    (product : M * toMatrix n n inv1 = (determinant * temp j j) • toMatrix n n temp1) :
    Substituted M diagonal j (determinant * temp j j) (clearRow n j j (temp1, inv1)).1
      (clearRow n j j (temp1, inv1)).2 := by
  obtain ⟨kept, cleared⟩ := clearRow_spec inside (le_refl j) (by
    intro r row
    rw [entries]
    by_cases same : r = j
    · rw [if_pos ⟨same, rfl⟩, if_pos same]
    · rw [if_neg fun both => same both.1, if_neg same, substituted.column inside row same]) product
  refine ⟨kept, ?_, ?_, ?_, ?_⟩
  · rw [substituted.determinant_eq, substituted.diagonal_eq j (Nat.lt_succ_self j),
      Finset.prod_eq_prod_Ico_succ_bot inside, mul_comm]
  · intro i before k after column
    rw [cleared i (by omega), if_neg fun both => by omega, entries,
      if_neg fun both => by omega]
    exact substituted.lower i (by omega) k after column
  · intro i before
    rw [cleared i (by omega), if_neg fun both => by omega, entries,
      if_neg fun both => by omega]
    exact substituted.diagonal_eq i (by omega)
  · intro i after before k column
    rw [cleared i before, entries]
    rcases Nat.eq_or_lt_of_le after with rfl | later
    · rcases lt_trichotomy k j with below | rfl | above
      · rw [if_pos ⟨rfl, below⟩, if_neg below.ne']
      · rw [if_neg fun both => lt_irrefl k both.2, if_pos ⟨rfl, rfl⟩, if_pos rfl]
      · rw [if_neg fun both => by omega, if_neg fun both => by omega, if_neg above.ne]
        exact substituted.lower j (Nat.lt_succ_self j) k above column
    · rw [if_neg fun both => by omega, if_neg fun both => by omega]
      exact substituted.finished i later before k column

theorem Substituted.scale (substituted : Substituted M diagonal (j + 1) determinant temp inv)
    (inside : j < n) :
    M * toMatrix n n (scaleColumns n j (temp j j) inv) =
      (determinant * temp j j) •
        toMatrix n n (Function.update temp j (Function.update (temp j) j 1)) := by
  have before : ∀ r c, (M * toMatrix n n inv) r c = determinant * temp r c := by
    intro r c
    rw [substituted.product]
    rfl
  ext r c
  rw [Matrix.smul_apply, toMatrix_apply, smul_eq_mul]
  by_cases same : (c : Nat) = j
  · have scaled : (M * toMatrix n n (scaleColumns n j (temp j j) inv)) r c =
        (M * toMatrix n n inv) r c := by
      rw [Matrix.mul_apply, Matrix.mul_apply]
      refine Finset.sum_congr rfl fun k _ => ?_
      rw [toMatrix_apply, toMatrix_apply, scaleColumns_apply _ _ k.isLt c.isLt, if_pos same]
    rw [scaled, before, same]
    by_cases row : (r : Nat) = j
    · rw [row, Function.update_self, Function.update_self, mul_one]
    · rw [Function.update_of_ne row, substituted.column inside r.isLt row, mul_zero, mul_zero]
  · have scaled : (M * toMatrix n n (scaleColumns n j (temp j j) inv)) r c =
        (M * toMatrix n n inv) r c * temp j j := by
      rw [Matrix.mul_apply, Matrix.mul_apply, Finset.sum_mul]
      refine Finset.sum_congr rfl fun k _ => ?_
      rw [toMatrix_apply, toMatrix_apply, scaleColumns_apply _ _ k.isLt c.isLt, if_neg same,
        mul_assoc]
    rw [scaled, before]
    have entry : Function.update temp j (Function.update (temp j) j 1) r c = temp r c := by
      by_cases row : (r : Nat) = j
      · rw [row, Function.update_self, Function.update_of_ne same]
      · rw [Function.update_of_ne row]
    rw [entry]
    ring

theorem substituteRow_spec (substituted : Substituted M diagonal (j + 1) determinant temp inv)
    (inside : j < n) (nonzero : diagonal j ≠ 0) :
    ∃ determinant' temp' inv',
      substituteRow n (determinant, temp, inv) j = some (determinant', temp', inv') ∧
        Substituted M diagonal j determinant' temp' inv' := by
  have element : temp j j ≠ 0 := by
    rwa [substituted.diagonal_eq j (Nat.lt_succ_self j)]
  rw [substituteRow]
  dsimp only
  rw [if_neg element]
  by_cases one : temp j j = 1
  · rw [if_neg (not_not.mpr one)]
    refine ⟨_, _, _, rfl, substituted.clearRow inside (fun r k => ?_) ?_⟩
    · by_cases both : r = j ∧ k = j
      · rw [if_pos both, both.1, both.2, one]
      · rw [if_neg both]
    · rw [one, mul_one]
      exact substituted.product
  · rw [if_pos one]
    refine ⟨_, _, _, rfl, substituted.clearRow inside (fun r k => ?_) (substituted.scale inside)⟩
    by_cases row : r = j
    · subst row
      rw [Function.update_self]
      by_cases column : k = r
      · subst column
        rw [Function.update_self, if_pos ⟨rfl, rfl⟩]
      · rw [Function.update_of_ne column, if_neg fun both => column both.2]
    · rw [Function.update_of_ne row, if_neg fun both => row both.1]

theorem backSubstitute_spec (inside : j ≤ n) (nonzero : ∀ i, i < n → diagonal i ≠ 0)
    (substituted : Substituted M diagonal j determinant temp inv) :
    ∃ temp' inv',
      backSubstitute n j (determinant, temp, inv) =
          some (∏ i ∈ Finset.range n, diagonal i, temp', inv') ∧
        M * toMatrix n n inv' = (∏ i ∈ Finset.range n, diagonal i) • (1 : Matrix _ _ ℤ) := by
  induction j generalizing determinant temp inv with
  | zero =>
    have total : determinant = ∏ i ∈ Finset.range n, diagonal i := by
      rw [substituted.determinant_eq, Finset.range_eq_Ico]
    refine ⟨temp, inv, by rw [← total]; rfl, ?_⟩
    rw [substituted.product, total]
    congr 1
    ext r c
    rw [toMatrix_apply, substituted.finished r (Nat.zero_le _) r.isLt c c.isLt, Matrix.one_apply]
    exact if_congr Fin.val_inj rfl rfl
  | succ j ih =>
    obtain ⟨determinant', temp', inv', ran, next⟩ :=
      substituteRow_spec substituted inside (nonzero j inside)
    rw [backSubstitute, ran]
    exact ih (Nat.le_of_lt inside) next

end BackSubstitution

section Inverse

variable {n : Nat} {mat : LambdaMatrix}

/-- A positive multiple of the inverse, by the absolute value of the determinant. -/
def IsInverse (n : Nat) (mat : LambdaMatrix) (d : Int) (inv : LambdaMatrix) : Prop :=
  0 < d ∧ d = |(toMatrix n n mat).det| ∧ toMatrix n n mat * toMatrix n n inv = d • (1 : Matrix _ _ ℤ)

theorem inverseCompanion_keeps (n : Nat) (mat : LambdaMatrix) (j : Nat) :
    Keeps (inverseCompanion n) n j (fun temp inv =>
      toMatrix n n temp = toMatrix n n mat * toMatrix n n inv ∧ IsUnit (toMatrix n n inv).det) := by
  have product : ∀ {temp inv : LambdaMatrix} {E : Matrix (Fin n) (Fin n) ℤ}
      {temp' inv' : LambdaMatrix}, IsUnit E.det →
      toMatrix n n temp' = toMatrix n n temp * E → toMatrix n n inv' = toMatrix n n inv * E →
      toMatrix n n temp = toMatrix n n mat * toMatrix n n inv ∧ IsUnit (toMatrix n n inv).det →
      toMatrix n n temp' = toMatrix n n mat * toMatrix n n inv' ∧ IsUnit (toMatrix n n inv').det := by
    intro temp inv E temp' inv' unit first second ⟨related, unimodular⟩
    rw [first, second, related, Matrix.mul_assoc, Matrix.det_mul]
    exact ⟨rfl, unimodular.mul unit⟩
  constructor
  · intro temp inv i after before
    exact product (IsUnit.of_mul_eq_one _
        (by rw [← Matrix.det_mul, negation_mul_self, Matrix.det_one]))
      (toMatrix_colNegate temp ⟨i, before⟩) (toMatrix_colNegate inv ⟨i, before⟩)
  · intro temp inv i after before
    exact product (IsUnit.of_mul_eq_one _
        (by rw [← Matrix.det_mul, Matrix.swap_mul_self, Matrix.det_one]))
      (toMatrix_colExchange temp ⟨j, by omega⟩ ⟨i, before⟩)
      (toMatrix_colExchange inv ⟨j, by omega⟩ ⟨i, before⟩)
  · intro temp inv i factor after before
    have different : (⟨j, by omega⟩ : Fin n) ≠ ⟨i, before⟩ := Fin.ne_of_lt after
    exact product (by rw [Matrix.det_transvection_of_ne _ _ different]; exact isUnit_one)
      (toMatrix_colAdd temp ⟨j, by omega⟩ ⟨i, before⟩ factor)
      (toMatrix_colAdd inv ⟨j, by omega⟩ ⟨i, before⟩ factor)

theorem matrixInverseHard_isInverse (nonsingular : (toMatrix n n mat).det ≠ 0) :
    ∃ d inv, matrixInverseHard mat n = some (d, inv) ∧ IsInverse n mat d inv := by
  have first : toMatrix n n mat = toMatrix n n mat * toMatrix n n matrixId ∧
      IsUnit (toMatrix n n matrixId).det := by
    rw [toMatrix_id, Matrix.mul_one, Matrix.det_one]
    exact ⟨rfl, isUnit_one⟩
  obtain ⟨temp, inv, ran, ⟨product, unimodular⟩, lower⟩ :=
    triangularize_spec (inverseCompanion_keeps n mat) first
  have diagonal : (toMatrix n n temp).det = ∏ i ∈ Finset.range n, temp i i := by
    rw [Matrix.det_of_isLowerTriangular, Finset.prod_range]
    · rfl
    · intro i k after
      exact (lower i i.isLt).2 k after k.isLt
  have unit : |(toMatrix n n inv).det| = 1 := Int.isUnit_iff_abs_eq.mp unimodular
  have magnitude : |(toMatrix n n mat).det| = ∏ i ∈ Finset.range n, temp i i :=
    calc |(toMatrix n n mat).det|
        = |(toMatrix n n temp).det| := by rw [product, Matrix.det_mul, abs_mul, unit, mul_one]
      _ = ∏ i ∈ Finset.range n, temp i i := by
          rw [diagonal]
          exact abs_of_nonneg (Finset.prod_nonneg fun i row =>
            (lower i (Finset.mem_range.mp row)).1)
  have nonzero : ∀ i, i < n → temp i i ≠ 0 := by
    intro i row zero
    have empty : |(toMatrix n n mat).det| = 0 :=
      magnitude.trans (Finset.prod_eq_zero (Finset.mem_range.mpr row) zero)
    exact nonsingular (abs_eq_zero.mp empty)
  have start : Substituted (toMatrix n n mat) (fun i => temp i i) n 1 temp inv :=
    ⟨by rw [one_smul, product], by rw [Finset.Ico_self, Finset.prod_empty],
      fun i before => (lower i before).2, fun i _ => rfl,
      fun i after before => absurd before (not_lt.mpr after)⟩
  obtain ⟨temp', inv', finished, inverse⟩ := backSubstitute_spec (le_refl n) nonzero start
  refine ⟨_, inv', ?_, ?_, magnitude.symm, inverse⟩
  · rw [matrixInverseHard, ran]
    simp [finished]
  · exact magnitude ▸ abs_pos.mpr nonsingular

theorem matrixInverse_two (nonsingular : (toMatrix 2 2 mat).det ≠ 0) :
    ∃ d inv, matrixInverse mat 2 = some (d, inv) ∧ IsInverse 2 mat d inv := by
  have value : (toMatrix 2 2 mat).det = mat 0 0 * mat 1 1 - mat 1 0 * mat 0 1 := by
    rw [Matrix.det_fin_two, mul_comm (mat 1 0)]
    rfl
  rw [value] at nonsingular
  rw [matrixInverse, if_pos rfl]
  dsimp only
  by_cases negative : mat 0 0 * mat 1 1 - mat 1 0 * mat 0 1 < 0
  · rw [if_pos negative]
    refine ⟨_, _, rfl, by omega, by rw [value, abs_of_neg negative, mul_neg_one], ?_⟩
    ext i j
    fin_cases i <;> fin_cases j <;>
      simp [Matrix.mul_apply, Fin.sum_univ_two, toMatrix_apply] <;> ring
  · rw [if_neg negative]
    refine ⟨_, _, rfl, by omega, by rw [value, abs_of_nonneg (not_lt.mp negative)], ?_⟩
    ext i j
    fin_cases i <;> fin_cases j <;>
      simp [Matrix.mul_apply, Fin.sum_univ_two, toMatrix_apply] <;> ring

/-- On every matrix that has an inverse, both functions return a positive multiple of it and
the absolute value of the determinant; no division is by zero. -/
theorem matrixInverse_isInverse (nonsingular : (toMatrix n n mat).det ≠ 0) :
    (∃ d inv, matrixInverse mat n = some (d, inv) ∧ IsInverse n mat d inv) ∧
      ∃ d inv, matrixInverseHard mat n = some (d, inv) ∧ IsInverse n mat d inv := by
  refine ⟨?_, matrixInverseHard_isInverse nonsingular⟩
  by_cases two : n = 2
  · subst two
    exact matrixInverse_two nonsingular
  · rw [matrixInverse, if_neg two]
    exact matrixInverseHard_isInverse nonsingular

theorem matrixInverse_isInverse_three :
    (∃ d inv, matrixInverse (fun i j => if i = j then 2 else 1) 3 = some (d, inv) ∧
        IsInverse 3 (fun i j => if i = j then 2 else 1) d inv) ∧
      ∃ d inv, matrixInverseHard (fun i j => if i = j then 2 else 1) 3 = some (d, inv) ∧
        IsInverse 3 (fun i j => if i = j then 2 else 1) d inv :=
  matrixInverse_isInverse (by
    rw [Matrix.det_fin_three]
    decide)

end Inverse

end GccCil.Gcc.Lambda
