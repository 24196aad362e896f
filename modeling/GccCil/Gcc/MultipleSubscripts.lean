import GccCil.Gcc.ConstantSubscript
import GccCil.Gcc.LambdaMatrix
import Mathlib.Algebra.GCDMonoid.Finset
import Mathlib.Algebra.GCDMonoid.Nat
import Mathlib.Algebra.Order.Group.MinMax
import Mathlib.Algebra.Order.Ring.Abs
import Mathlib.Order.Interval.Finset.Nat

/-!
# Subscripts in several loops

`analyze_miv_subscript` of `tree-data-ref.c`, for two access functions with the
same steps in the same loops.  The reduction of the steps computes with the type
`int`, which wraps around.
-/

namespace GccCil.Gcc.Subscript

open GccCil.Gcc.Lambda

/-- The steps of an access function in its loops, the outermost chrec first. -/
abbrev Evolutions := List (Nat × Int)

/-- The subscript in an iteration of each loop. -/
def subscriptAt (init : Int) (evolutions : Evolutions) (iteration : Nat → Int) : Int :=
  init + (evolutions.map fun evolution => evolution.2 * iteration evolution.1).sum

def chrecStepsDivideConstantP (evolutions : Evolutions) (cst : Int) : Bool :=
  evolutions.all fun evolution => treeFoldDividesP evolution.2 cst

/-- The column that `initialize_matrix_A` fills with the steps of both functions. -/
def matrixSteps (evolutions : Evolutions) : LambdaMatrix := fun i j =>
  if j = 0 then
    if i < evolutions.length then wrapInt ((evolutions.map Prod.snd).getD i 0)
    else wrapInt (-(evolutions.map Prod.snd).getD (i - evolutions.length) 0)
  else 0

/-- The factor of `lambda_matrix_right_hermite`; the product that gives its sign wraps, too. -/
def intFactor (a b : Int) : Int :=
  let sigma := if wrapInt (a * b) < 0 then -1 else 1
  wrapInt (sigma * (wrapInt |a|).tdiv (wrapInt |b|))

/-- `lambda_matrix_row_add` -/
def intRowAdd (mat : LambdaMatrix) (n r1 r2 : Nat) (const1 : Int) : LambdaMatrix := fun i j =>
  if i = r2 ∧ j < n then wrapInt (mat i j + const1 * mat r1 j) else mat i j

/-- `lambda_matrix_row_negate` -/
def intRowNegate (mat : LambdaMatrix) (n r1 : Nat) : LambdaMatrix := fun i j =>
  if i = r1 ∧ j < n then wrapInt (mat i j * -1) else mat i j

/-- One step on the rows `i` and `i + 1`. -/
def intRows (mat : LambdaMatrix) (n i : Nat) (factor : Int) : LambdaMatrix :=
  rowExchange (intRowAdd mat n (i + 1) i (wrapInt (-factor))) (i + 1) i

/-- The loop that clears `S[i + 1][j]`, for at most so many turns. -/
def intEntry (m n i : Nat) (j : Fin n) :
    Nat → LambdaMatrix → LambdaMatrix → Option (LambdaMatrix × LambdaMatrix)
  | 0, _, _ => none
  | turns + 1, S, U =>
    if S (i + 1) j = 0 then some (S, U)
    else
      let factor := intFactor (S i j) (S (i + 1) j)
      intEntry m n i j turns (intRows S n i factor) (intRows U m i factor)

/-- The loop over the rows below the row `i0`, from the last one up. -/
def intColumn (turns m n i0 : Nat) (j : Fin n) :
    Nat → LambdaMatrix → LambdaMatrix → Option (LambdaMatrix × LambdaMatrix)
  | 0, S, U => some (S, U)
  | rows + 1, S, U => do
      let (S, U) ← intEntry m n (i0 + rows) j turns S U
      intColumn turns m n i0 j rows S U

/-- The step of `lambda_matrix_right_hermite` for a column. -/
def intHermiteColumn (turns m n : Nat) (state : Nat × LambdaMatrix × LambdaMatrix) (j : Fin n) :
    Option (Nat × LambdaMatrix × LambdaMatrix) :=
  let (i0, S, U) := state
  if firstNz (S j) m i0 < m then
    (intColumn turns m n i0 j (m - (i0 + 1)) S U).map fun result => (i0 + 1, result)
  else some state

/-- `lambda_matrix_right_hermite` in ints; it need not end if a product wraps around. -/
def intHermite (turns : Nat) (A : LambdaMatrix) (m n : Nat) :
    Option (LambdaMatrix × LambdaMatrix) :=
  ((List.finRange n).foldlM (intHermiteColumn turns m n) (0, A, matrixId)).map Prod.snd

/-- The first and the last solution on the line `(i0, j0) + t * (i1, j1)`, for
positive `i1` and `j1`. -/
def intLine (niter i0 j0 i1 j1 : Int) : Overlaps :=
  let ceil (x y : Int) : Int := (wrapInt (x + y - 1)).tdiv y
  let tau1 := max (ceil (-i0) i1) (ceil (-j0) j1)
  let tau2 := min ((wrapInt (niter - i0)).tdiv i1) ((wrapInt (niter - j0)).tdiv j1)
  let x0 := wrapInt (i1 * tau1 + i0)
  let y0 := wrapInt (j1 * tau1 + j0)
  let minMultiple := min (x0.tdiv i1) (y0.tdiv j1)
  let x0 := wrapInt (x0 - i1 * minMultiple)
  let y0 := wrapInt (y0 - j1 * minMultiple)
  let tau1 := (wrapInt (x0 - i0)).tdiv i1
  let lastConflict := wrapInt (tau2 - tau1)
  if x0 > niter ∨ y0 > niter then .chrecKnown
  else .functions (.polynomial x0 i1) (.polynomial y0 j1) (some lastConflict)

/-- The branch of `analyze_subscript_affine_affine` for univariate functions with the same step. -/
def analyzeSameStep (numiter : Option Int) (step gamma gcdAlphaBeta : Int) (U : LambdaMatrix) :
    Overlaps :=
  if wrapInt step = 0 then .chrecDontKnow
  else match numiter with
    | none => .chrecDontKnow
    | some niter =>
      let i0 := (wrapInt (U 0 0 * gamma)).tdiv gcdAlphaBeta
      let j0 := (wrapInt (U 0 1 * gamma)).tdiv gcdAlphaBeta
      let i1 := U 1 0
      let j1 := U 1 1
      if (i1 = 0 ∧ i0 < 0) ∨ (j1 = 0 ∧ j0 < 0) then .chrecKnown
      else if 0 < i1 then
        if 0 < j1 then intLine (wrapInt niter) i0 j0 i1 j1 else .chrecDontKnow
      else .chrecDontKnow

/-- `analyze_subscript_affine_affine` for functions with the same steps and different initial
conditions. -/
def analyzeSameSteps (turns : Nat) (numberOfIters : Nat → Option Int) (evolutions : Evolutions)
    (initA initB : Int) : Option Overlaps := do
  let gamma := wrapInt (initB - initA)
  let (S, U) ← intHermite turns (matrixSteps evolutions) (2 * evolutions.length) 1
  let (gcdAlphaBeta, U) :=
    if S 0 0 < 0 then (wrapInt (S 0 0 * -1), intRowNegate U (2 * evolutions.length) 0)
    else (S 0 0, U)
  if intDividesP gcdAlphaBeta gamma = false then some .chrecKnown
  else match evolutions with
    | [(loop, step)] => some (analyzeSameStep (numberOfIters loop) step gamma gcdAlphaBeta U)
    | _ => some .chrecDontKnow

/-- `analyze_miv_subscript` for functions whose difference is a constant. -/
def analyzeMivSubscript (turns : Nat) (numberOfIters : Nat → Option Int) (evolutions : Evolutions)
    (initA initB : Int) : Option Overlaps :=
  let difference := wrapInt (initA - initB)
  if difference = 0 then
    some (.functions (.constant 0) (.constant 0)
      (evolutions.head?.bind fun top => numberOfIters top.1))
  else if chrecStepsDivideConstantP evolutions difference = false then some .chrecKnown
  else analyzeSameSteps turns numberOfIters evolutions initA initB

section Reduction

abbrev intMax : Int := 2147483647

theorem wrapInt_of_abs {x : Int} (fits : |x| ≤ intMax) : wrapInt x = x := by
  obtain ⟨above, below⟩ := abs_le.mp fits
  rw [intMax] at above below
  exact wrapInt_eq (show -2147483648 ≤ x by omega) (by omega)

theorem wrapInt_neg {x : Int} (above : intMin < wrapInt x) : wrapInt (-x) = -wrapInt x := by
  obtain ⟨-, below⟩ := wrapInt_range x
  change -2147483648 < wrapInt x at above
  have same : wrapInt (-x) = wrapInt (-wrapInt x) := by
    rw [wrapInt, wrapInt, wrapInt, Int.bmod_neg_bmod]
  rw [same]
  exact wrapInt_of_abs (abs_le.mpr ⟨show -2147483647 ≤ -wrapInt x by omega,
    show -wrapInt x ≤ 2147483647 by omega⟩)

theorem abs_wrapInt_le (x : Int) : |wrapInt x| ≤ |x| := by
  obtain ⟨above, below⟩ := wrapInt_range x
  by_cases fits : |x| ≤ intMax
  · rw [wrapInt_of_abs fits]
  · refine (abs_le.mpr ⟨?_, ?_⟩ : |wrapInt x| ≤ 2147483648).trans (not_le.mp fits)
    · exact above
    · exact below.le

theorem abs_le_of_dvd {a b : Int} (nonzero : b ≠ 0) (divides : a ∣ b) : |a| ≤ |b| :=
  Int.le_of_dvd (abs_pos.mpr nonzero) ((abs_dvd_abs a b).mpr divides)

theorem abs_tdiv_le (a b : Int) : |a.tdiv b| ≤ |a| := by
  rw [Int.abs_eq_natAbs, Int.abs_eq_natAbs, Int.natAbs_tdiv]
  exact_mod_cast Nat.div_le_self _ _

theorem intFactor_eq {a b : Int} (upper : |a| ≤ intMax) (lower : |b| ≤ intMax)
    (fits : |a * b| ≤ intMax) : intFactor a b = a.tdiv b := by
  have magnitude : ∀ {x : Int}, |x| ≤ intMax → wrapInt |x| = |x| := fun fits =>
    wrapInt_of_abs (by rwa [abs_abs])
  rw [intFactor, wrapInt_of_abs fits, magnitude upper, magnitude lower,
    Int.tdiv_eq_ediv_of_nonneg (abs_nonneg a)]
  change wrapInt (euclidFactor a b) = _
  rw [euclidFactor_eq]
  exact wrapInt_of_abs ((abs_tdiv_le a b).trans upper)

theorem intRows_upper (mat : LambdaMatrix) (n i : Nat) (factor : Int) :
    intRows mat n i factor i = mat (i + 1) := by
  funext j
  simp [intRows, rowExchange, intRowAdd]

theorem intRows_other (mat : LambdaMatrix) (n i : Nat) (factor : Int) {r : Nat} (upper : r ≠ i)
    (lower : r ≠ i + 1) : intRows mat n i factor r = mat r := by
  funext j
  simp [intRows, rowExchange, intRowAdd, upper, lower]

theorem intRows_lower (mat : LambdaMatrix) {n : Nat} (i : Nat) (factor : Int) {j : Nat}
    (column : j < n) :
    intRows mat n i factor (i + 1) j = wrapInt (mat i j - factor * mat (i + 1) j) := by
  have same : wrapInt (mat i j + wrapInt (-factor) * mat (i + 1) j) =
      wrapInt (mat i j - factor * mat (i + 1) j) := by
    rw [wrapInt, wrapInt, wrapInt, ← Int.add_bmod_bmod, Int.bmod_mul_bmod, Int.add_bmod_bmod,
      neg_mul, ← sub_eq_add_neg]
  rw [← same]
  simp [intRows, rowExchange, intRowAdd, column]

theorem intEntry_divides {m i turns : Nat} {S U S' U' : LambdaMatrix} (upper : |S i 0| ≤ intMax)
    (lower : |S (i + 1) 0| ≤ intMax) (fits : |S i 0 * S (i + 1) 0| ≤ intMax)
    (ends : intEntry m 1 i 0 turns S U = some (S', U')) :
    (∀ r, r ≠ i → r ≠ i + 1 → S' r = S r) ∧ S' i 0 ∣ S i 0 ∧ S' i 0 ∣ S (i + 1) 0 := by
  induction turns generalizing S U with
  | zero => cases ends
  | succ turns ih =>
    rw [intEntry] at ends
    change (if S (i + 1) 0 = 0 then _ else _) = _ at ends
    split at ends
    · rename_i clear
      cases ends
      exact ⟨fun _ _ _ => rfl, dvd_rfl, clear ▸ dvd_zero _⟩
    · rename_i nonzero
      have factor : intFactor (S i 0) (S (i + 1) 0) = (S i 0).tdiv (S (i + 1) 0) :=
        intFactor_eq upper lower fits
      change intEntry m 1 i 0 turns (intRows S 1 i (intFactor (S i 0) (S (i + 1) 0))) _ = _ at ends
      rw [factor] at ends
      have small : |(S i 0).tmod (S (i + 1) 0)| ≤ |S i 0| := by
        rw [Int.abs_eq_natAbs, Int.abs_eq_natAbs, Int.natAbs_tmod]
        exact_mod_cast Nat.mod_le _ _
      have remainder : intRows S 1 i ((S i 0).tdiv (S (i + 1) 0)) (i + 1) 0 =
          (S i 0).tmod (S (i + 1) 0) := by
        rw [intRows_lower S i _ Nat.zero_lt_one, mul_comm, ← Int.tmod_def]
        exact wrapInt_of_abs (small.trans upper)
      have first : intRows S 1 i ((S i 0).tdiv (S (i + 1) 0)) i 0 = S (i + 1) 0 := by
        rw [intRows_upper]
      obtain ⟨others, dividesLower, dividesRest⟩ := @ih
        (intRows S 1 i ((S i 0).tdiv (S (i + 1) 0))) _ (by rwa [first])
        (by rw [remainder]; exact small.trans upper) (by
          rw [first, remainder, abs_mul, mul_comm]
          rw [abs_mul] at fits
          exact (mul_le_mul_of_nonneg_right small (abs_nonneg _)).trans fits) ends
      rw [first] at dividesLower
      rw [remainder] at dividesRest
      refine ⟨fun r notUpper notLower => ?_, ?_, dividesLower⟩
      · rw [others r notUpper notLower, intRows_other S 1 i _ notUpper notLower]
      · rw [← Int.mul_tdiv_add_tmod (S i 0) (S (i + 1) 0)]
        exact dvd_add (dividesLower.mul_right _) dividesRest

theorem intColumn_divides {turns m rows : Nat} {S U S' U' : LambdaMatrix}
    (nonzero : ∀ k, k ≤ rows → S k 0 ≠ 0) (bounded : ∀ k, k ≤ rows → |S k 0| ≤ intMax)
    (fits : ∀ i, i < rows → ∀ divisor, (∀ k, i < k → k ≤ rows → divisor ∣ S k 0) →
      |S i 0 * divisor| ≤ intMax)
    (ends : intColumn turns m 1 0 0 rows S U = some (S', U')) :
    ∀ k, k ≤ rows → S' 0 0 ∣ S k 0 := by
  induction rows generalizing S U with
  | zero =>
    cases ends
    intro k first
    rw [Nat.le_zero.mp first]
  | succ rows ih =>
    rw [intColumn, Nat.zero_add] at ends
    obtain ⟨⟨S1, U1⟩, entry, rest⟩ := Option.bind_eq_some_iff.mp ends
    have pair : |S rows 0 * S (rows + 1) 0| ≤ intMax := by
      refine fits rows (Nat.lt_succ_self _) _ fun k after before => ?_
      rw [Nat.le_antisymm before after]
    obtain ⟨others, dividesUpper, dividesLower⟩ := intEntry_divides
      (bounded rows (Nat.le_succ _)) (bounded (rows + 1) le_rfl) pair entry
    have above : ∀ k, k < rows → S1 k = S k := fun k inside => others k (by omega) (by omega)
    have keeps : ∀ k, k ≤ rows → S1 k 0 ∣ S k 0 := by
      intro k inside
      rcases Nat.lt_or_eq_of_le inside with before | rfl
      · rw [above k before]
      · exact dividesUpper
    have answer := @ih S1 U1
      (fun k inside zero => nonzero k (by omega) (zero_dvd_iff.mp (zero ▸ keeps k inside)))
      (fun k inside => (abs_le_of_dvd (nonzero k (by omega)) (keeps k inside)).trans
        (bounded k (by omega)))
      (fun i before divisor divides => by
        rw [above i before]
        refine fits i (by omega) divisor fun k after inside => ?_
        rcases Nat.lt_or_eq_of_le inside with before' | rfl
        · exact (divides k after (by omega)).trans (keeps k (by omega))
        · exact (divides rows before le_rfl).trans dividesLower) rest
    intro k inside
    rcases Nat.lt_or_eq_of_le inside with before | rfl
    · exact (answer k (by omega)).trans (keeps k (by omega))
    · exact (answer rows le_rfl).trans dividesLower

/-- No product of an entry of the column with the greatest common divisor of those below it
overflows an `int`. -/
def ProductsFit (A : LambdaMatrix) (m : Nat) : Prop :=
  ∀ i, i < m → |A i 0| * (Finset.Ico (i + 1) m).gcd (fun k => A k 0) ≤ intMax

theorem intHermite_column {turns m : Nat} {A : LambdaMatrix} (rows : 0 < m)
    (nonzero : A 0 0 ≠ 0) :
    intHermite turns A m 1 = intColumn turns m 1 0 0 (m - 1) A matrixId := by
  have start : firstNz (A 0) m 0 = 0 := by
    rw [firstNz, if_neg]
    exact fun found => nonzero found.2
  have column : intHermiteColumn turns m 1 (0, A, matrixId) 0 =
      (intColumn turns m 1 0 0 (m - 1) A matrixId).map fun result => (1, result) := by
    rw [intHermiteColumn]
    change (if firstNz (A 0) m 0 < m then _ else _) = _
    rw [start, if_pos rows]
  rw [intHermite]
  change (intHermiteColumn turns m 1 (0, A, matrixId) 0 >>= pure).map Prod.snd = _
  rw [bind_pure, column, Option.map_map]
  exact Option.map_id_apply

theorem intHermite_divides {turns m : Nat} {A S U : LambdaMatrix} (rows : 0 < m)
    (nonzero : ∀ k, k < m → A k 0 ≠ 0) (bounded : ∀ k, k < m → |A k 0| ≤ intMax)
    (fits : ProductsFit A m) (ends : intHermite turns A m 1 = some (S, U)) :
    ∀ k, k < m → S 0 0 ∣ A k 0 := by
  rw [intHermite_column rows (nonzero 0 rows)] at ends
  intro k inside
  refine intColumn_divides (fun k inside => nonzero k (by omega))
    (fun k inside => bounded k (by omega)) ?_ ends k (by omega)
  intro i before divisor divides
  have common : divisor ∣ (Finset.Ico (i + 1) m).gcd (fun k => A k 0) := by
    refine Finset.dvd_gcd fun k member => ?_
    obtain ⟨after, below⟩ := Finset.mem_Ico.mp member
    exact divides k after (by omega)
  have positive : (Finset.Ico (i + 1) m).gcd (fun k => A k 0) ≠ 0 := fun zero =>
    nonzero (i + 1) (by omega) (Finset.gcd_eq_zero_iff.mp zero (i + 1)
      (Finset.mem_Ico.mpr ⟨le_rfl, by omega⟩))
  have magnitude : |(Finset.Ico (i + 1) m).gcd (fun k => A k 0)| =
      (Finset.Ico (i + 1) m).gcd (fun k => A k 0) := by
    rw [Int.abs_eq_normalize, Finset.normalize_gcd]
  rw [abs_mul]
  refine (mul_le_mul_of_nonneg_left ?_ (abs_nonneg _)).trans (fits i (by omega))
  rw [← magnitude]
  exact abs_le_of_dvd positive common

end Reduction

section Answer

variable {numberOfIters : Nat → Option Int} {evolutions : Evolutions} {initA initB : Int}

/-- The iterations of the loops of an access function. -/
def InDomain (numberOfIters : Nat → Option Int) (evolutions : Evolutions)
    (iteration : Nat → Int) : Prop :=
  ∀ evolution ∈ evolutions, IsIteration (numberOfIters evolution.1) (iteration evolution.1)

def Independent (numberOfIters : Nat → Option Int) (evolutions : Evolutions)
    (initA initB : Int) : Prop :=
  ∀ x y, InDomain numberOfIters evolutions x → InDomain numberOfIters evolutions y →
    subscriptAt initA evolutions x ≠ subscriptAt initB evolutions y

/-- Distances between iterations for which the steps make up the difference. -/
def Solvable (numberOfIters : Nat → Option Int) (evolutions : Evolutions)
    (difference : Int) : Prop :=
  ∃ distance : Nat → Int,
    (∀ evolution ∈ evolutions, ∀ n ∈ numberOfIters evolution.1, |distance evolution.1| ≤ n) ∧
    (evolutions.map fun evolution => evolution.2 * distance evolution.1).sum = difference

theorem sum_sub (evolutions : Evolutions) (x y : Nat → Int) :
    (evolutions.map fun evolution => evolution.2 * (x evolution.1 - y evolution.1)).sum =
      (evolutions.map fun evolution => evolution.2 * x evolution.1).sum -
        (evolutions.map fun evolution => evolution.2 * y evolution.1).sum := by
  induction evolutions with
  | nil => rfl
  | cons evolution rest ih =>
    rw [List.map_cons, List.map_cons, List.map_cons, List.sum_cons, List.sum_cons, List.sum_cons,
      ih]
    ring

theorem independent_iff :
    Independent numberOfIters evolutions initA initB ↔
      ¬ Solvable numberOfIters evolutions (initB - initA) := by
  constructor
  · rintro independent ⟨distance, bounded, solves⟩
    refine independent (fun loop => max (distance loop) 0) (fun loop => max (-distance loop) 0)
      ?_ ?_ ?_
    · intro evolution member
      refine ⟨le_max_right _ _, fun n known => max_le ?_ ?_⟩
      · exact (le_abs_self _).trans (bounded evolution member n known)
      · exact (abs_nonneg _).trans (bounded evolution member n known)
    · intro evolution member
      refine ⟨le_max_right _ _, fun n known => max_le ?_ ?_⟩
      · exact (neg_le_abs _).trans (bounded evolution member n known)
      · exact (abs_nonneg _).trans (bounded evolution member n known)
    · have apart : ∀ loop, max (distance loop) 0 - max (-distance loop) 0 = distance loop :=
        fun loop => max_zero_sub_max_neg_zero_eq_self (distance loop)
      have difference := sum_sub evolutions (fun loop => max (distance loop) 0)
        fun loop => max (-distance loop) 0
      simp only [apart] at difference
      rw [subscriptAt, subscriptAt]
      omega
  · intro none x y inX inY same
    apply none
    refine ⟨fun loop => x loop - y loop, ?_, ?_⟩
    · intro evolution member n known
      obtain ⟨lowX, highX⟩ := inX evolution member
      obtain ⟨lowY, highY⟩ := inY evolution member
      have belowX := highX n known
      have belowY := highY n known
      change |x evolution.1 - y evolution.1| ≤ n
      exact abs_le.mpr ⟨by omega, by omega⟩
    · rw [sum_sub]
      rw [subscriptAt, subscriptAt] at same
      omega

theorem chrecStepsDivideConstantP_iff {difference : Int} (above : intMin < difference)
    (nonzero : difference ≠ 0) :
    chrecStepsDivideConstantP evolutions difference = true ↔
      ∀ evolution ∈ evolutions, 0 < evolution.2 ∧ evolution.2 ∣ difference := by
  rw [chrecStepsDivideConstantP, List.all_eq_true]
  refine forall₂_congr fun evolution _ => ?_
  by_cases positive : 0 < evolution.2
  · rw [treeFoldDividesP_of_pos positive above.le, and_iff_left above.ne', and_iff_right positive]
  · rw [treeFoldDividesP_of_nonpos (not_lt.mp positive) above nonzero]
    exact iff_of_false Bool.false_ne_true fun both => positive both.1


/-- What the analysis of the steps computes fits an `int`: the negation of the difference, the
products of the reduction, and the number of iterations of a single loop. -/
structure StepsFit (numberOfIters : Nat → Option Int) (evolutions : Evolutions)
    (initA initB : Int) : Prop where
  difference : intMin < wrapInt (initA - initB)
  products : ProductsFit (matrixSteps evolutions) (2 * evolutions.length)
  single : ∀ loop step, evolutions = [(loop, step)] → ∀ n ∈ numberOfIters loop, n ≤ intMax

theorem matrixSteps_step (positive : ∀ evolution ∈ evolutions, 0 < evolution.2 ∧
    evolution.2 ≤ intMax) {k : Nat} (inside : k < 2 * evolutions.length) :
    ∃ evolution ∈ evolutions, |matrixSteps evolutions k 0| = evolution.2 := by
  have entry : ∀ {i : Nat} (below : i < evolutions.length) (sign : Int), |sign| = 1 →
      |wrapInt (sign * (evolutions.map Prod.snd).getD i 0)| = evolutions[i].2 := by
    intro i below sign unit
    obtain ⟨above, fits⟩ := positive evolutions[i] (List.getElem_mem below)
    have magnitude : |sign * evolutions[i].2| = evolutions[i].2 := by
      rw [abs_mul, unit, one_mul, abs_of_pos above]
    rw [List.getD_eq_getElem?_getD, List.getElem?_map, List.getElem?_eq_getElem below]
    change |wrapInt (sign * evolutions[i].2)| = _
    rw [wrapInt_of_abs (magnitude.le.trans fits), magnitude]
  rw [matrixSteps, if_pos rfl]
  split
  · rename_i below
    refine ⟨evolutions[k], List.getElem_mem below, ?_⟩
    rw [← entry below 1 (by decide), one_mul]
  · rename_i above
    have below : k - evolutions.length < evolutions.length := by omega
    refine ⟨evolutions[k - evolutions.length], List.getElem_mem below, ?_⟩
    rw [← entry below (-1) (by decide), neg_one_mul]

theorem intHermite_matrixSteps {turns : Nat} {S U : LambdaMatrix}
    (positive : ∀ evolution ∈ evolutions, 0 < evolution.2 ∧ evolution.2 ≤ intMax)
    (fits : ProductsFit (matrixSteps evolutions) (2 * evolutions.length))
    (ends : intHermite turns (matrixSteps evolutions) (2 * evolutions.length) 1 = some (S, U))
    {evolution : Nat × Int} {rest : Evolutions} (top : evolutions = evolution :: rest) :
    S 0 0 ∣ evolution.2 := by
  have rows : 0 < 2 * evolutions.length := by
    rw [top, List.length_cons]
    omega
  have entry := fun k inside => @matrixSteps_step evolutions positive k inside
  have divides := intHermite_divides rows
    (fun k inside zero => by
      obtain ⟨evolution, member, magnitude⟩ := entry k inside
      rw [zero, abs_zero] at magnitude
      exact absurd (positive evolution member).1 (by omega))
    (fun k inside => by
      obtain ⟨evolution, member, magnitude⟩ := entry k inside
      rw [magnitude]
      exact (positive evolution member).2) fits ends 0 rows
  subst top
  obtain ⟨above, small⟩ := positive evolution List.mem_cons_self
  change S 0 0 ∣ wrapInt evolution.2 at divides
  rwa [wrapInt_of_abs (by rwa [abs_of_pos above])] at divides

section OneLoop

variable {step : Int}

theorem intHermite_single {turns loop : Nat} {S U : LambdaMatrix} (positive : 0 < step)
    (square : step * step ≤ intMax)
    (ends : intHermite turns (matrixSteps [(loop, step)]) 2 1 = some (S, U)) :
    S 0 0 = -step ∧ U 0 0 = 0 ∧ U 0 1 = 1 ∧ U 1 0 = 1 ∧ U 1 1 = 1 := by
  have small : |step| ≤ intMax := by
    rw [abs_of_pos positive]
    exact (le_mul_of_one_le_left positive.le positive).trans square
  have upper : matrixSteps [(loop, step)] 0 0 = step := wrapInt_of_abs small
  have lower : matrixSteps [(loop, step)] (0 + 1) 0 = -step :=
    wrapInt_of_abs (show |-step| ≤ intMax by rwa [abs_neg])
  have factor : intFactor (matrixSteps [(loop, step)] 0 0) (matrixSteps [(loop, step)] (0 + 1) 0) =
      -1 := by
    rw [upper, lower, intFactor_eq small (by rwa [abs_neg])
      (by rwa [mul_neg, abs_neg, abs_of_nonneg (mul_self_nonneg step)]), Int.tdiv_neg,
      Int.tdiv_self positive.ne']
  rw [intHermite_column (by decide) (by rw [upper]; exact positive.ne')] at ends
  obtain ⟨result, entry, rfl⟩ : ∃ result, intEntry 2 1 0 0 turns (matrixSteps [(loop, step)])
      matrixId = some result ∧ result = (S, U) := by
    obtain ⟨result, entry, same⟩ := Option.bind_eq_some_iff.mp ends
    exact ⟨result, entry, Option.some.inj same⟩
  cases turns with
  | zero => cases entry
  | succ turns =>
    rw [intEntry] at entry
    change (if matrixSteps [(loop, step)] (0 + 1) 0 = 0 then _ else intEntry 2 1 0 0 turns
      (intRows _ 1 0 (intFactor (matrixSteps [(loop, step)] 0 0)
        (matrixSteps [(loop, step)] (0 + 1) 0))) (intRows _ 2 0 (intFactor
        (matrixSteps [(loop, step)] 0 0) (matrixSteps [(loop, step)] (0 + 1) 0)))) = _ at entry
    rw [factor, if_neg (by omega)] at entry
    cases turns with
    | zero => cases entry
    | succ turns =>
      have clear : intRows (matrixSteps [(loop, step)]) 1 0 (-1) (0 + 1) 0 = 0 := by
        rw [intRows_lower _ _ _ (by decide), upper, lower, neg_one_mul, neg_neg, sub_self]
        rfl
      rw [intEntry] at entry
      change (if intRows (matrixSteps [(loop, step)]) 1 0 (-1) (0 + 1) 0 = 0 then _ else _) = _
        at entry
      rw [if_pos clear] at entry
      cases entry
      refine ⟨?_, ?_, ?_, ?_, ?_⟩
      · rw [intRows_upper, lower]
      · rw [intRows_upper]
        rfl
      · rw [intRows_upper]
        rfl
      · exact intRows_lower matrixId 0 (-1) (by decide)
      · exact intRows_lower matrixId 0 (-1) (by decide)

theorem intLine_unit {niter start : Int} (fits : |start| ≤ intMax)
    (known : intLine niter 0 start 1 1 = .chrecKnown) : niter < |start| := by
  obtain ⟨above, below⟩ := abs_le.mp fits
  rw [intMax] at above below
  have small : ∀ {x : Int}, -2147483648 ≤ x → x < 2147483648 → wrapInt x = x := wrapInt_eq
  have tau : max ((wrapInt (-0 + 1 - 1)).tdiv 1) ((wrapInt (-start + 1 - 1)).tdiv 1) =
      max 0 (-start) := by
    rw [add_sub_cancel_right, add_sub_cancel_right, Int.tdiv_one, Int.tdiv_one, neg_zero,
      small (by omega) (by omega), small (by omega) (by omega)]
  have first : wrapInt (1 * max 0 (-start) + 0) = max 0 (-start) := by
    rw [one_mul, add_zero, small (by omega) (by omega)]
  have second : wrapInt (1 * max 0 (-start) + start) = max start 0 := by
    rw [one_mul, max_add, zero_add, neg_add_cancel, small (by omega) (by omega)]
  have multiple : min ((max 0 (-start)).tdiv 1) ((max start 0).tdiv 1) = 0 := by
    rw [Int.tdiv_one, Int.tdiv_one]
    omega
  simp only [intLine, tau, first, second, multiple, mul_zero, sub_zero] at known
  rw [small (x := max 0 (-start)) (by omega) (by omega),
    small (x := max start 0) (by omega) (by omega)] at known
  split at known
  · rename_i outside
    rcases outside with left | right
    · exact left.trans_le (max_le (abs_nonneg start) (neg_le_abs start))
    · exact right.trans_le (max_le (le_abs_self start) (abs_nonneg start))
  · cases known

theorem ProductsFit.square {loop : Nat} (positive : 0 < step) (small : step ≤ intMax)
    (fits : ProductsFit (matrixSteps [(loop, step)]) 2) : step * step ≤ intMax := by
  have upper : matrixSteps [(loop, step)] 0 0 = step :=
    wrapInt_of_abs (show |step| ≤ intMax by rwa [abs_of_pos positive])
  have lower : matrixSteps [(loop, step)] 1 0 = -step :=
    wrapInt_of_abs (show |-step| ≤ intMax by rwa [abs_neg, abs_of_pos positive])
  have first := fits 0 (by decide)
  rw [Nat.zero_add, Nat.Ico_succ_singleton, Finset.gcd_singleton, ← Int.abs_eq_normalize, upper,
    lower, abs_neg, abs_of_pos positive] at first
  exact first

theorem analyzeSameStep_known {turns loop : Nat} {numiter : Option Int} {gamma : Int}
    {S U : LambdaMatrix} (positive : 0 < step) (square : step * step ≤ intMax)
    (above : -intMax ≤ gamma) (below : gamma ≤ intMax)
    (ends : intHermite turns (matrixSteps [(loop, step)]) 2 1 = some (S, U))
    (known : analyzeSameStep numiter step gamma step (intRowNegate U 2 0) = .chrecKnown) :
    ∃ niter, numiter = some niter ∧ wrapInt niter < |(-gamma).tdiv step| := by
  obtain ⟨-, u00, u01, u10, u11⟩ := intHermite_single positive square ends
  have small : |step| ≤ intMax := by
    rw [abs_of_pos positive]
    exact (le_mul_of_one_le_left positive.le positive).trans square
  have first : intRowNegate U 2 0 0 0 = 0 := by
    simp [intRowNegate, u00, wrapInt]
  have second : intRowNegate U 2 0 0 1 = -1 := by
    simp only [intRowNegate, u01]
    decide
  have kernel : intRowNegate U 2 0 1 0 = 1 ∧ intRowNegate U 2 0 1 1 = 1 := by
    simp [intRowNegate, u10, u11]
  rw [analyzeSameStep.eq_def, wrapInt_of_abs small, if_neg positive.ne'] at known
  cases numiter with
  | none => cases known
  | some niter =>
    refine ⟨niter, rfl, ?_⟩
    have negated : wrapInt (-1 * gamma) = -gamma := by
      rw [neg_one_mul]
      exact wrapInt_of_abs (abs_le.mpr ⟨by omega, by omega⟩)
    have zero : (wrapInt (0 * gamma)).tdiv step = 0 := by
      rw [zero_mul]
      exact Int.zero_tdiv step
    dsimp only at known
    rw [first, second, kernel.1, kernel.2, negated, zero, if_neg (by omega), if_pos one_pos,
      if_pos one_pos] at known
    refine intLine_unit ((abs_tdiv_le _ _).trans ?_) known
    rw [abs_neg]
    exact abs_le.mpr ⟨above, below⟩

end OneLoop

theorem analyzeSameSteps_known {turns : Nat} (nonzero : wrapInt (initA - initB) ≠ 0)
    (divide : chrecStepsDivideConstantP evolutions (wrapInt (initA - initB)) = true)
    (fits : StepsFit numberOfIters evolutions initA initB) (evolves : evolutions ≠ [])
    (known : analyzeSameSteps turns numberOfIters evolutions initA initB = some .chrecKnown) :
    Independent numberOfIters evolutions initA initB := by
  have each := (chrecStepsDivideConstantP_iff fits.difference nonzero).mp divide
  have magnitude : |wrapInt (initA - initB)| ≤ intMax := by
    have above := fits.difference
    have below := (wrapInt_range (initA - initB)).2
    change -2147483648 < _ at above
    exact abs_le.mpr ⟨show -2147483647 ≤ _ by omega, show _ ≤ (2147483647 : Int) by omega⟩
  have gamma : wrapInt (initB - initA) = -wrapInt (initA - initB) := by
    rw [← wrapInt_neg fits.difference, neg_sub]
  have positive : ∀ evolution ∈ evolutions, 0 < evolution.2 ∧ evolution.2 ≤ intMax := by
    intro evolution member
    obtain ⟨above, divides⟩ := each evolution member
    refine ⟨above, (le_abs_self _).trans ((abs_le_of_dvd nonzero divides).trans magnitude)⟩
  rw [analyzeSameSteps] at known
  obtain ⟨⟨S, U⟩, ends, answer⟩ := Option.bind_eq_some_iff.mp known
  obtain ⟨⟨loop, step⟩, rest, rfl⟩ := List.exists_cons_of_ne_nil evolves
  obtain ⟨stepPositive, stepDivides⟩ := each (loop, step) List.mem_cons_self
  have pivot := intHermite_matrixSteps positive fits.products ends rfl
  dsimp only at answer stepPositive stepDivides pivot
  have pivotFits : |S 0 0| ≤ intMax := by
    refine (abs_le_of_dvd stepPositive.ne' pivot).trans ?_
    rw [abs_of_pos stepPositive]
    exact (positive _ List.mem_cons_self).2
  have sign : (if S 0 0 < 0 then (wrapInt (S 0 0 * -1), intRowNegate U (2 * (rest.length + 1)) 0)
      else (S 0 0, U)) = (|S 0 0|, if S 0 0 < 0 then intRowNegate U (2 * (rest.length + 1)) 0
        else U) := by
    split
    · rename_i negative
      rw [abs_of_neg negative, mul_neg_one,
        wrapInt_of_abs (show |-S 0 0| ≤ intMax by rwa [abs_neg])]
    · rename_i nonneg
      rw [abs_of_nonneg (not_lt.mp nonneg)]
  have found : intDividesP |S 0 0| (wrapInt (initB - initA)) = true := by
    rw [intDividesP, beq_iff_eq, gamma]
    exact Int.tmod_eq_zero_of_dvd (dvd_neg.mpr (((abs_dvd _ _).mpr pivot).trans stepDivides))
  rw [List.length_cons, sign] at answer
  dsimp only at answer
  rw [found, if_neg (by decide)] at answer
  cases rest with
  | cons second rest => cases answer
  | nil =>
    have square := fits.products.square stepPositive (positive _ List.mem_cons_self).2
    obtain ⟨reduced, -⟩ := intHermite_single stepPositive square ends
    rw [reduced, if_pos (by omega), abs_neg, abs_of_pos stepPositive, gamma] at answer
    obtain ⟨above, below⟩ := abs_le.mp magnitude
    obtain ⟨niter, iterations, short⟩ := analyzeSameStep_known stepPositive square
      (neg_le_neg below) (neg_le.mp above) ends (Option.some.inj answer)
    rw [neg_neg] at short
    rw [independent_iff]
    rintro ⟨distance, bounded, solves⟩
    have within := bounded (loop, step) List.mem_cons_self niter iterations
    have numberFits : wrapInt niter = niter := wrapInt_of_abs <| by
      rw [abs_of_nonneg ((abs_nonneg _).trans within)]
      exact fits.single loop step rfl niter iterations
    rw [numberFits] at short
    rw [List.map_singleton, List.sum_singleton] at solves
    have whole : |wrapInt (initA - initB)| = step * |(wrapInt (initA - initB)).tdiv step| := by
      rw [← abs_of_pos stepPositive, ← abs_mul, abs_of_pos stepPositive,
        Int.mul_tdiv_cancel' stepDivides]
    have reaches := abs_wrapInt_le (initA - initB)
    rw [abs_sub_comm, ← solves, whole, abs_mul, abs_of_pos stepPositive] at reaches
    exact absurd (le_of_mul_le_mul_left reaches stepPositive) (not_le.mpr (within.trans_lt short))

/-- The answer that there is no overlap is right if the folded difference is zero, if each single
step is found to divide it and the analysis that follows fits an `int`, or if no bounded distances
make up the difference.  Where nothing overflows it is right in no other case. -/
theorem analyzeMivSubscript_independent (numberOfIters : Nat → Option Int) {evolutions : Evolutions}
    (initA initB : Int) (evolves : evolutions ≠ []) :
    ((wrapInt (initA - initB) = 0 ∨
        (chrecStepsDivideConstantP evolutions (wrapInt (initA - initB)) = true ∧
          StepsFit numberOfIters evolutions initA initB) ∨
        ¬ Solvable numberOfIters evolutions (initB - initA)) →
      ∀ turns, analyzeMivSubscript turns numberOfIters evolutions initA initB = some .chrecKnown →
        Independent numberOfIters evolutions initA initB) ∧
    ((chrecStepsDivideConstantP evolutions (wrapInt (initA - initB)) = true →
        StepsFit numberOfIters evolutions initA initB) →
      (∀ turns, analyzeMivSubscript turns numberOfIters evolutions initA initB = some .chrecKnown →
        Independent numberOfIters evolutions initA initB) →
      wrapInt (initA - initB) = 0 ∨
        (chrecStepsDivideConstantP evolutions (wrapInt (initA - initB)) = true ∧
          StepsFit numberOfIters evolutions initA initB) ∨
        ¬ Solvable numberOfIters evolutions (initB - initA)) := by
  constructor
  · intro condition turns known
    by_cases zero : wrapInt (initA - initB) = 0
    · rw [analyzeMivSubscript, if_pos zero] at known
      cases known
    · rcases condition.resolve_left zero with ⟨divide, fits⟩ | none
      · rw [analyzeMivSubscript, if_neg zero, divide, if_neg (by decide)] at known
        exact analyzeSameSteps_known zero divide fits evolves known
      · exact independent_iff.mpr none
  · intro computes right
    by_cases zero : wrapInt (initA - initB) = 0
    · exact .inl zero
    · cases divide : chrecStepsDivideConstantP evolutions (wrapInt (initA - initB)) with
      | true => exact .inr (.inl ⟨rfl, computes divide⟩)
      | false =>
        refine .inr (.inr (independent_iff.mp (right 0 ?_)))
        rw [analyzeMivSubscript, if_neg zero, if_pos divide]

/-- `{{0, +, 2}_1, +, 4}_2` against the same from 1, with ten iterations of both loops. -/
theorem analyzeMivSubscript_independent_parity :
    ((wrapInt (0 - 1) = 0 ∨
        (chrecStepsDivideConstantP [(2, 4), (1, 2)] (wrapInt (0 - 1)) = true ∧
          StepsFit (fun _ => some 10) [(2, 4), (1, 2)] 0 1) ∨
        ¬ Solvable (fun _ => some 10) [(2, 4), (1, 2)] (1 - 0)) →
      ∀ turns, analyzeMivSubscript turns (fun _ => some 10) [(2, 4), (1, 2)] 0 1 =
          some .chrecKnown →
        Independent (fun _ => some 10) [(2, 4), (1, 2)] 0 1) ∧
    ((chrecStepsDivideConstantP [(2, 4), (1, 2)] (wrapInt (0 - 1)) = true →
        StepsFit (fun _ => some 10) [(2, 4), (1, 2)] 0 1) →
      (∀ turns, analyzeMivSubscript turns (fun _ => some 10) [(2, 4), (1, 2)] 0 1 =
          some .chrecKnown →
        Independent (fun _ => some 10) [(2, 4), (1, 2)] 0 1) →
      wrapInt (0 - 1) = 0 ∨
        (chrecStepsDivideConstantP [(2, 4), (1, 2)] (wrapInt (0 - 1)) = true ∧
          StepsFit (fun _ => some 10) [(2, 4), (1, 2)] 0 1) ∨
        ¬ Solvable (fun _ => some 10) [(2, 4), (1, 2)] (1 - 0)) :=
  @analyzeMivSubscript_independent (fun _ => some 10) [(2, 4), (1, 2)] 0 1 (List.cons_ne_nil _ _)

/-- With a step whose square wraps around, the reduction ends with a pivot that does not divide it. -/
example : analyzeMivSubscript 40 (fun _ => some 10) [(2, 1075001311), (1, 1075001311)] 0
    1075001311 = some .chrecKnown := by decide +kernel

/-- `{{0, +, 2}_1, +, 3}_2` against the same from 1: 3 is the subscript of both, in the
iteration 1 of loop 2 of the first and of loop 1 of the second. -/
theorem analyzeMivSubscript_combination :
    analyzeMivSubscript 0 (fun _ => some 10) [(2, 3), (1, 2)] 0 1 = some .chrecKnown ∧
      ¬ Independent (fun _ => some 10) [(2, 3), (1, 2)] 0 1 := by
  have difference : wrapInt (0 - 1) = -1 := by decide
  have divide : ¬ chrecStepsDivideConstantP [(2, 3), (1, 2)] (-1) = true := by
    rw [chrecStepsDivideConstantP_iff (by decide) (by decide)]
    intro each
    exact absurd (each (2, 3) List.mem_cons_self).2 (by decide)
  constructor
  · rw [analyzeMivSubscript, difference]
    change (if (-1 : Int) = 0 then _ else if _ then _ else _) = _
    rw [if_neg (by decide), if_pos (Bool.not_eq_true _ ▸ divide)]
  · intro independent
    refine independent (fun loop => if loop = 2 then 1 else 0) (fun loop => if loop = 1 then 1 else 0)
      ?_ ?_ (by decide)
    · intro evolution _
      refine ⟨?_, fun n known => ?_⟩
      · dsimp only
        split <;> decide
      · rw [← Option.some.inj known]
        dsimp only
        split <;> decide
    · intro evolution _
      refine ⟨?_, fun n known => ?_⟩
      · dsimp only
        split <;> decide
      · rw [← Option.some.inj known]
        dsimp only
        split <;> decide

end Answer

end GccCil.Gcc.Subscript
