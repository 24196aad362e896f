import Mathlib.Tactic
import GccCil.Gcc.SubscriptOverlap

/-!
# The overlaps are the common iterations

Every common iteration is on a line that the unimodular reduction of the steps
gives, and the analysis finds the first one without negative coordinates.  It
compares this one with the smaller number of iterations, also if the loops are
different.
-/

namespace GccCil.Gcc.Subscript

open GccCil.Gcc.Lambda

section Line

theorem exists_multiple_of_coprime {i j u v : Int} (coprime : IsCoprime i j) (nonzero : i ≠ 0)
    (proportional : j * u = i * v) : ∃ t, u = i * t ∧ v = j * t := by
  have divides : i ∣ j * u := ⟨v, proportional⟩
  obtain ⟨t, rfl⟩ := coprime.dvd_of_dvd_mul_left divides
  refine ⟨t, rfl, ?_⟩
  apply mul_left_cancel₀ nonzero
  rw [← proportional]
  ring

/-- The points of the line without negative coordinates lie behind one of them
that is too close to an axis for another step back. -/
theorem nonneg_of_behind {x y i j t : Int} (iPositive : 0 < i) (jPositive : 0 < j)
    (least : x < i ∨ y < j) (first : 0 ≤ x + i * t) (second : 0 ≤ y + j * t) : 0 ≤ t := by
  by_contra negative
  have back : t ≤ -1 := by omega
  have xStep : i * t ≤ -i := by
    calc i * t ≤ i * -1 := mul_le_mul_of_nonneg_left back iPositive.le
      _ = -i := by ring
  have yStep : j * t ≤ -j := by
    calc j * t ≤ j * -1 := mul_le_mul_of_nonneg_left back jPositive.le
      _ = -j := by ring
  omega

end Line

section Reduction

variable {stepA stepB : Int}

structure ReducedSteps (stepA stepB : Int) (reduced : Int × LambdaMatrix) : Prop where
  positive : 0 < reduced.1
  combination : reduced.2 0 0 * stepA - reduced.2 0 1 * stepB = reduced.1
  dividesA : reduced.1 ∣ stepA
  dividesB : reduced.1 ∣ stepB
  kernel : 0 < stepA * stepB → reduced.2 1 0 * reduced.1 = |stepB| ∧
    reduced.2 1 1 * reduced.1 = |stepA|

theorem produces_steps {S U : LambdaMatrix} (produces : Produces (matrixA stepA stepB) S U 2 1) :
    S 0 0 = U 0 0 * stepA - U 0 1 * stepB ∧ S 1 0 = U 1 0 * stepA - U 1 1 * stepB := by
  have first := produces 0 (by decide) 0 (by decide)
  have second := produces 1 (by decide) 0 (by decide)
  rw [Finset.sum_range_succ, Finset.sum_range_one] at first second
  simp only [matrixA, if_true, one_ne_zero, if_false] at first second
  constructor
  · rw [first]
    ring
  · rw [second]
    ring

theorem reduceSteps_spec (nonzero : stepA ≠ 0) :
    ReducedSteps stepA stepB (reduceSteps stepA stepB) := by
  have start : matrixA stepA stepB 0 0 = stepA := rfl
  have produces := rightHermite_produces (matrixA stepA stepB) 2 1
  have clears := clearEntry_clears (matrixA stepA stepB) matrixId
  obtain ⟨e, unit, det, signs⟩ := clearEntry_det (matrixA stepA stepB) matrixId stepA 1
    (one_mul 1) (by simp [matrixId])
  rw [← rightHermite_pair (by rwa [start])] at clears det signs
  rw [reduceSteps]
  generalize rightHermite (matrixA stepA stepB) 2 1 = result at *
  obtain ⟨S, U⟩ := result
  dsimp only at *
  obtain ⟨row0, row1⟩ := produces_steps produces
  rw [clears] at row1
  have scaledA : e * stepA = U 1 1 * S 0 0 := by
    rw [← det, row0]
    linear_combination U 0 1 * row1
  have scaledB : e * stepB = U 1 0 * S 0 0 := by
    rw [← det, row0]
    linear_combination U 0 0 * row1
  have stepAEq : stepA = S 0 0 * (e * U 1 1) := by linear_combination e * scaledA - stepA * unit
  have stepBEq : stepB = S 0 0 * (e * U 1 0) := by linear_combination e * scaledB - stepB * unit
  have pivot : S 0 0 ≠ 0 := by
    intro zero
    rw [zero, zero_mul] at stepAEq
    exact nonzero stepAEq
  -- both entries of the second row are positive
  have kernel : 0 < stepA * stepB → U 1 0 * |S 0 0| = |stepB| ∧ U 1 1 * |S 0 0| = |stepA| := by
    intro sameSign
    have pivotSign := signs (by rw [start, one_mul]; exact mul_self_pos.mpr nonzero)
      (by change 1 * stepA * -stepB ≤ 0; linarith)
    have square : 0 < S 0 0 * S 0 0 := mul_self_pos.mpr pivot
    have firstPositive : 0 < U 1 1 := by
      rw [scaledA, mul_assoc] at pivotSign
      exact (pos_iff_pos_of_mul_pos pivotSign).mpr square
    have secondPositive : 0 < U 1 0 := by
      have product : stepA * stepB = U 1 0 * (U 1 1 * (S 0 0 * S 0 0)) := by
        linear_combination (-stepA * stepB) * unit + e * stepB * scaledA +
          U 1 1 * S 0 0 * scaledB
      rw [product] at sameSign
      exact (pos_iff_pos_of_mul_pos sameSign).mpr (mul_pos firstPositive square)
    have magnitude : |e| = 1 := by
      rcases Int.eq_one_or_neg_one_of_mul_eq_one' unit with ⟨rfl, -⟩ | ⟨rfl, -⟩
      · rfl
      · rfl
    constructor
    · rw [stepBEq, abs_mul, abs_mul, magnitude, abs_of_pos secondPositive]
      ring
    · rw [stepAEq, abs_mul, abs_mul, magnitude, abs_of_pos firstPositive]
      ring
  split
  · rename_i negative
    have magnitude := abs_of_neg negative
    refine ⟨neg_pos.mpr negative, ?_, ?_, ?_, ?_⟩
    · change -U 0 0 * stepA - -U 0 1 * stepB = -S 0 0
      rw [row0]
      ring
    · exact (neg_dvd).mpr ⟨_, stepAEq⟩
    · exact (neg_dvd).mpr ⟨_, stepBEq⟩
    · rw [magnitude] at kernel
      exact kernel
  · rename_i nonneg
    have magnitude := abs_of_nonneg (not_lt.mp nonneg)
    refine ⟨lt_of_le_of_ne (not_lt.mp nonneg) pivot.symm, row0.symm, ⟨_, stepAEq⟩, ⟨_, stepBEq⟩, ?_⟩
    rw [magnitude] at kernel
    exact kernel

end Reduction

section Line

variable {niter i0 j0 i1 j1 : Int}

theorem le_mul_ceil {x y : Int} (positive : 0 < y) : x ≤ y * ceil x y := by
  have division := Int.mul_tdiv_add_tmod (x + y - 1) y
  have remainder := Int.tmod_lt_of_pos (x + y - 1) positive
  rw [ceil]
  linarith

theorem overlapsOnLine_spec (niter i0 j0 : Int) (iPositive : 0 < i1) (jPositive : 0 < j1) :
    ∃ x0 y0 t last, x0 = i0 + i1 * t ∧ y0 = j0 + j1 * t ∧ 0 ≤ x0 ∧ 0 ≤ y0 ∧
      (x0 < i1 ∨ y0 < j1) ∧
      overlapsOnLine niter i0 j0 i1 j1 =
        if x0 > niter ∨ y0 > niter then .chrecKnown
        else .functions (.polynomial x0 i1) (.polynomial y0 j1) (some last) := by
  have tau := le_max_left (ceil (-i0) i1) (ceil (-j0) j1)
  have tau' := le_max_right (ceil (-i0) i1) (ceil (-j0) j1)
  generalize tauEq : max (ceil (-i0) i1) (ceil (-j0) j1) = tau1 at tau tau'
  have xNonneg : 0 ≤ i1 * tau1 + i0 := by
    have reached := (le_mul_ceil (x := -i0) iPositive).trans (mul_le_mul_of_nonneg_left tau iPositive.le)
    linarith
  have yNonneg : 0 ≤ j1 * tau1 + j0 := by
    have reached := (le_mul_ceil (x := -j0) jPositive).trans (mul_le_mul_of_nonneg_left tau' jPositive.le)
    linarith
  generalize multipleEq : min ((i1 * tau1 + i0).tdiv i1) ((j1 * tau1 + j0).tdiv j1) = multiple
  have xDivision := Int.mul_tdiv_add_tmod (i1 * tau1 + i0) i1
  have yDivision := Int.mul_tdiv_add_tmod (j1 * tau1 + j0) j1
  have xRemainder := Int.tmod_nonneg i1 xNonneg
  have yRemainder := Int.tmod_nonneg j1 yNonneg
  have xSmall := Int.tmod_lt_of_pos (i1 * tau1 + i0) iPositive
  have ySmall := Int.tmod_lt_of_pos (j1 * tau1 + j0) jPositive
  have xMultiple : i1 * multiple ≤ i1 * (i1 * tau1 + i0).tdiv i1 :=
    mul_le_mul_of_nonneg_left (multipleEq ▸ min_le_left _ _) iPositive.le
  have yMultiple : j1 * multiple ≤ j1 * (j1 * tau1 + j0).tdiv j1 :=
    mul_le_mul_of_nonneg_left (multipleEq ▸ min_le_right _ _) jPositive.le
  refine ⟨i1 * tau1 + i0 - i1 * multiple, j1 * tau1 + j0 - j1 * multiple, tau1 - multiple,
    min (floorDiv (niter - i0) i1) (floorDiv (niter - j0) j1) -
      (i1 * tau1 + i0 - i1 * multiple - i0).tdiv i1,
    by ring, by ring, by linarith, by linarith, ?_, ?_⟩
  · rcases min_choice ((i1 * tau1 + i0).tdiv i1) ((j1 * tau1 + j0).tdiv j1) with first | second
    · left
      rw [← multipleEq, first]
      linarith
    · right
      rw [← multipleEq, second]
      linarith
  · simp only [overlapsOnLine, tauEq, multipleEq]

end Line

section Answer

variable {chrecA chrecB : AffineChrec} {niterA niterB : Int}

/-- What an answer says about the iterations that touch the same element. -/
def Describes (chrecA chrecB : AffineChrec) (niterA niterB : Int) : Overlaps → Prop
  | .chrecKnown => ∀ x y, 0 ≤ x → x ≤ niterA → 0 ≤ y → y ≤ niterB →
      chrecA.subscript x ≠ chrecB.subscript y
  | .chrecDontKnow => True
  | .functions overlapsA overlapsB lastConflicts =>
    (∀ x y, 0 ≤ x → x ≤ niterA → 0 ≤ y → y ≤ niterB →
      chrecA.subscript x = chrecB.subscript y →
      ∃ k, 0 ≤ k ∧ x = overlapsA.iteration k ∧ y = overlapsB.iteration k) ∧
    ∀ k, 0 ≤ k → (∀ last ∈ lastConflicts, k ≤ last) →
      chrecA.subscript (overlapsA.iteration k) = chrecB.subscript (overlapsB.iteration k)

def MeetsOnce (chrecA chrecB : AffineChrec) (niterA niterB : Int) : Prop :=
  ∀ x y, 0 ≤ x → x ≤ niterA → 0 ≤ y → y ≤ niterB →
    chrecA.subscript x = chrecB.subscript y → x = 0 ∧ y = 0

/-- If the loops have common iterations, they have some within the smaller
number of iterations. -/
def ReachedInBoth (chrecA chrecB : AffineChrec) (niterA niterB : Int) : Prop :=
  (∃ x y, 0 ≤ x ∧ x ≤ niterA ∧ 0 ≤ y ∧ y ≤ niterB ∧
    chrecA.subscript x = chrecB.subscript y) →
  ∃ x y, 0 ≤ x ∧ x ≤ min niterA niterB ∧ 0 ≤ y ∧ y ≤ min niterA niterB ∧
    chrecA.subscript x = chrecB.subscript y

theorem gcd_eq (a b : Int) : gcd a b = Int.gcd a b := by
  have loop : ∀ x y, gcdLoop x y = Nat.gcd x y := by
    intro x y
    fun_induction gcdLoop x y with
    | case1 x y positive hypothesis => rw [hypothesis, ← Nat.gcd_rec]
    | case2 x y zero =>
      rw [Nat.eq_zero_of_not_pos zero, Nat.gcd_zero_left]
  rw [gcd, loop]
  rfl

theorem gcd_cofactors (stepA stepB : Int) (nonzero : stepA ≠ 0) :
    0 < gcd stepA stepB ∧ stepA = gcd stepA stepB * stepA.tdiv (gcd stepA stepB) ∧
      stepB = gcd stepA stepB * stepB.tdiv (gcd stepA stepB) ∧
      IsCoprime (stepB.tdiv (gcd stepA stepB)) (stepA.tdiv (gcd stepA stepB)) := by
  have positive : 0 < gcd stepA stepB := by
    rw [gcd_eq]
    exact_mod_cast Int.gcd_pos_of_ne_zero_left _ nonzero
  have bezout : gcd stepA stepB = stepA * Int.gcdA stepA stepB + stepB * Int.gcdB stepA stepB := by
    rw [gcd_eq]
    exact Int.gcd_eq_gcd_ab stepA stepB
  obtain ⟨a, first⟩ : gcd stepA stepB ∣ stepA := by
    rw [gcd_eq]
    exact Int.gcd_dvd_left ..
  obtain ⟨b, second⟩ : gcd stepA stepB ∣ stepB := by
    rw [gcd_eq]
    exact Int.gcd_dvd_right ..
  generalize gcd stepA stepB = divisor at *
  have quoA : stepA.tdiv divisor = a := by rw [first, Int.mul_tdiv_cancel_left _ positive.ne']
  have quoB : stepB.tdiv divisor = b := by rw [second, Int.mul_tdiv_cancel_left _ positive.ne']
  rw [quoA, quoB]
  refine ⟨positive, first, second, Int.gcdB stepA stepB, Int.gcdA stepA stepB, ?_⟩
  apply mul_left_cancel₀ positive.ne'
  linear_combination -bezout - Int.gcdA stepA stepB * first - Int.gcdB stepA stepB * second

theorem univar_describes (sameInit : chrecA.init = chrecB.init) (evolvesA : chrecA.step ≠ 0)
    (evolvesB : chrecB.step ≠ 0) (niter : Int)
    (once : chrecA.step < 0 → chrecB.step < 0 → MeetsOnce chrecA chrecB niterA niterB) :
    Describes chrecA chrecB niterA niterB
      (computeOverlapStepsForAffineUnivar niter chrecA.step chrecB.step) := by
  have meet : ∀ x y, chrecA.subscript x = chrecB.subscript y ↔
      chrecA.step * x = chrecB.step * y := by
    intro x y
    rw [AffineChrec.subscript, AffineChrec.subscript, sameInit, add_right_inj]
  rw [computeOverlapStepsForAffineUnivar]
  split
  · rename_i sameSign
    obtain ⟨positive, stepA, stepB, coprime⟩ :=
      gcd_cofactors chrecA.step chrecB.step evolvesA
    dsimp only
    generalize chrecA.step.tdiv (gcd chrecA.step chrecB.step) = a at *
    generalize chrecB.step.tdiv (gcd chrecA.step chrecB.step) = b at *
    generalize gcd chrecA.step chrecB.step = divisor at *
    have bNonzero : b ≠ 0 := by
      rintro rfl
      exact evolvesB (by rw [stepB, mul_zero])
    refine ⟨?_, fun k _ _ => ?_⟩
    · intro x y xLower xUpper yLower yUpper common
      have proportional : a * x = b * y := by
        apply mul_left_cancel₀ positive.ne'
        have scaled := (meet x y).mp common
        rw [stepA, stepB] at scaled
        linear_combination scaled
      obtain ⟨t, rfl, rfl⟩ := exists_multiple_of_coprime coprime bNonzero proportional
      rcases sameSign with ⟨aPositive, bPositive⟩ | ⟨aNegative, bNegative⟩
      · have cofactor : 0 < b := by
          rw [stepB] at bPositive
          exact (pos_iff_pos_of_mul_pos bPositive).mp positive
        refine ⟨t, ?_, (zero_add _).symm, (zero_add _).symm⟩
        by_contra negative
        exact absurd xLower (not_le.mpr (mul_neg_of_pos_of_neg cofactor (not_le.mp negative)))
      · obtain ⟨xZero, yZero⟩ := once aNegative bNegative _ _ xLower xUpper yLower yUpper common
        refine ⟨0, le_refl 0, ?_, ?_⟩
        · simp [xZero, OverlapFunction.iteration]
        · simp [yZero, OverlapFunction.iteration]
    · rw [meet, stepA, stepB]
      simp only [OverlapFunction.iteration]
      ring
  · rename_i otherSign
    refine ⟨?_, fun k _ _ => (meet 0 0).mpr (by ring)⟩
    intro x y xLower _ yLower _ common
    have proportional := (meet x y).mp common
    -- the sides of the equation have opposite signs
    obtain ⟨xZero, yZero⟩ : chrecA.step * x = 0 ∧ chrecB.step * y = 0 := by
      rcases lt_or_gt_of_ne evolvesA with negative | positive
      · have positive : 0 < chrecB.step := by omega
        have lower := mul_nonpos_of_nonpos_of_nonneg negative.le xLower
        have upper := mul_nonneg positive.le yLower
        omega
      · have negative : chrecB.step < 0 := by omega
        have upper := mul_nonneg positive.le xLower
        have lower := mul_nonpos_of_nonpos_of_nonneg negative.le yLower
        omega
    exact ⟨0, le_refl 0, (mul_eq_zero.mp xZero).resolve_left evolvesA,
      (mul_eq_zero.mp yZero).resolve_left evolvesB⟩

theorem line_describes (sameSign : 0 < chrecA.step * chrecB.step) {divisor : Int} {U : LambdaMatrix}
    (reduced : ReducedSteps chrecA.step chrecB.step (divisor, U))
    (divides : divisor ∣ chrecB.init - chrecA.init)
    (bound : ReachedInBoth chrecA chrecB niterA niterB) :
    0 < U 1 0 ∧ 0 < U 1 1 ∧
      Describes chrecA chrecB niterA niterB (overlapsOnLine (min niterA niterB)
        ((U 0 0 * (chrecB.init - chrecA.init)).tdiv divisor)
        ((U 0 1 * (chrecB.init - chrecA.init)).tdiv divisor) (U 1 0) (U 1 1)) := by
  obtain ⟨positive, combination, dividesA, dividesB, kernel⟩ := reduced
  dsimp only at *
  obtain ⟨kernelB, kernelA⟩ := kernel sameSign
  obtain ⟨quotient, gamma⟩ := divides
  obtain ⟨nonzeroA, nonzeroB⟩ := mul_ne_zero_iff.mp sameSign.ne'
  have iPositive : 0 < U 1 0 := by
    have product : 0 < U 1 0 * divisor := kernelB ▸ abs_pos.mpr nonzeroB
    exact (pos_iff_pos_of_mul_pos product).mpr positive
  have jPositive : 0 < U 1 1 := by
    have product : 0 < U 1 1 * divisor := kernelA ▸ abs_pos.mpr nonzeroA
    exact (pos_iff_pos_of_mul_pos product).mpr positive
  refine ⟨iPositive, jPositive, ?_⟩
  -- the steps are the kernel times the divisor, up to a common sign
  obtain ⟨sign, unit, stepA, stepB⟩ : ∃ sign : Int, sign * sign = 1 ∧
      chrecA.step = sign * (U 1 1 * divisor) ∧ chrecB.step = sign * (U 1 0 * divisor) := by
    rcases pos_and_pos_or_neg_and_neg_of_mul_pos sameSign with ⟨first, second⟩ | ⟨first, second⟩
    · refine ⟨1, one_mul 1, ?_, ?_⟩
      · rw [kernelA, abs_of_pos first, one_mul]
      · rw [kernelB, abs_of_pos second, one_mul]
    · refine ⟨-1, by norm_num, ?_, ?_⟩
      · rw [kernelA, abs_of_neg first, neg_one_mul, neg_neg]
      · rw [kernelB, abs_of_neg second, neg_one_mul, neg_neg]
  have start : ∀ entry : Int, (entry * (chrecB.init - chrecA.init)).tdiv divisor =
      entry * quotient := by
    intro entry
    rw [gamma, mul_left_comm, Int.mul_tdiv_cancel_left _ positive.ne']
  rw [start, start]
  have coprime : IsCoprime (U 1 0) (U 1 1) := by
    refine ⟨-(U 0 1 * sign), U 0 0 * sign, mul_left_cancel₀ positive.ne' ?_⟩
    rw [stepA, stepB] at combination
    linear_combination combination
  -- a pair of iterations is common if and only if it is on the line
  have meet : ∀ x y, chrecA.subscript x = chrecB.subscript y ↔
      U 1 1 * (x - U 0 0 * quotient) = U 1 0 * (y - U 0 1 * quotient) := by
    intro x y
    have particular : chrecA.step * (U 0 0 * quotient) - chrecB.step * (U 0 1 * quotient) =
        chrecB.init - chrecA.init := by
      rw [gamma]
      linear_combination quotient * combination
    rw [AffineChrec.subscript, AffineChrec.subscript]
    constructor
    · intro common
      apply mul_left_cancel₀ positive.ne'
      have scaled : chrecA.step * (x - U 0 0 * quotient) = chrecB.step * (y - U 0 1 * quotient) := by
        linear_combination common - particular
      rw [stepA, stepB] at scaled
      linear_combination sign * scaled -
        divisor * (U 1 1 * (x - U 0 0 * quotient) - U 1 0 * (y - U 0 1 * quotient)) * unit
    · intro onLine
      have scaled : chrecA.step * (x - U 0 0 * quotient) = chrecB.step * (y - U 0 1 * quotient) := by
        rw [stepA, stepB]
        linear_combination sign * divisor * onLine
      linear_combination scaled + particular
  obtain ⟨x0, y0, t, last, xStart, yStart, xNonneg, yNonneg, least, answer⟩ :=
    overlapsOnLine_spec (min niterA niterB) (U 0 0 * quotient) (U 0 1 * quotient) iPositive jPositive
  have behind : ∀ x y, 0 ≤ x → 0 ≤ y → chrecA.subscript x = chrecB.subscript y →
      ∃ k, 0 ≤ k ∧ x = x0 + U 1 0 * k ∧ y = y0 + U 1 1 * k := by
    intro x y xLower yLower common
    obtain ⟨s, first, second⟩ := exists_multiple_of_coprime coprime iPositive.ne' ((meet x y).mp common)
    have xEq : x = x0 + U 1 0 * (s - t) := by
      rw [xStart]
      linear_combination first
    have yEq : y = y0 + U 1 1 * (s - t) := by
      rw [yStart]
      linear_combination second
    exact ⟨s - t, nonneg_of_behind iPositive jPositive least (xEq ▸ xLower) (yEq ▸ yLower), xEq, yEq⟩
  rw [answer]
  split
  · rename_i outside
    intro x y xLower xUpper yLower yUpper common
    obtain ⟨x', y', xLower', xUpper', yLower', yUpper', common'⟩ :=
      bound ⟨x, y, xLower, xUpper, yLower, yUpper, common⟩
    obtain ⟨k, nonneg, xEq, yEq⟩ := behind x' y' xLower' yLower' common'
    have xStep := mul_nonneg iPositive.le nonneg
    have yStep := mul_nonneg jPositive.le nonneg
    rcases outside with xOutside | yOutside
    · linarith
    · linarith
  · refine ⟨fun x y xLower _ yLower _ common => behind x y xLower yLower common, fun k _ _ => ?_⟩
    rw [meet]
    simp only [OverlapFunction.iteration]
    rw [xStart, yStart]
    ring

theorem gcdTest_describes {divisor : Int} {U : LambdaMatrix}
    (reduced : ReducedSteps chrecA.step chrecB.step (divisor, U))
    (fails : intDividesP divisor (chrecB.init - chrecA.init) = false) :
    Describes chrecA chrecB niterA niterB .chrecKnown := by
  intro x y _ _ _ _ common
  have divides : divisor ∣ chrecB.init - chrecA.init := by
    have difference : chrecB.init - chrecA.init = chrecA.step * x - chrecB.step * y := by
      rw [AffineChrec.subscript, AffineChrec.subscript] at common
      linarith
    rw [difference]
    exact dvd_sub (reduced.dividesA.mul_right x) (reduced.dividesB.mul_right y)
  rw [intDividesP, Int.tmod_eq_zero_of_dvd divides] at fails
  cases fails

/-- The answer for two evolutions.  The same evolution of one loop is answered
with the constants zero and no last conflict, which stands for an overlap in
each iteration; otherwise the answer describes the common iterations. -/
theorem analyze_describes (numberOfIters : Nat → Option Int) (chrecA chrecB : AffineChrec)
    (niterA niterB : Int) (itersA : numberOfIters chrecA.loop = some niterA)
    (itersB : numberOfIters chrecB.loop = some niterB) (evolvesA : chrecA.step ≠ 0)
    (evolvesB : chrecB.step ≠ 0) :
    (chrecA = chrecB →
      analyzeSubscriptAffineAffine numberOfIters chrecA chrecB =
        .functions (.constant 0) (.constant 0) none ∧
      ∀ x y, chrecA.subscript x = chrecB.subscript y ↔ x = y) ∧
    (chrecA ≠ chrecB →
      (chrecA.init = chrecB.init → chrecA.step < 0 → chrecB.step < 0 →
        MeetsOnce chrecA chrecB niterA niterB) →
      (chrecA.init ≠ chrecB.init → 0 < chrecA.step * chrecB.step →
        ReachedInBoth chrecA chrecB niterA niterB) →
      Describes chrecA chrecB niterA niterB
        (analyzeSubscriptAffineAffine numberOfIters chrecA chrecB)) := by
  constructor
  · rintro rfl
    refine ⟨if_pos rfl, fun x y => ?_⟩
    rw [AffineChrec.subscript, AffineChrec.subscript, add_right_inj, mul_right_inj' evolvesA]
  intro different once bound
  rw [analyzeSubscriptAffineAffine, if_neg different, itersA, itersB]
  dsimp only
  by_cases sameInit : chrecB.init - chrecA.init = 0
  · rw [if_pos sameInit]
    have same : chrecA.init = chrecB.init := by omega
    exact univar_describes same evolvesA evolvesB _ (once same)
  · rw [if_neg sameInit]
    have reduced : ReducedSteps chrecA.step chrecB.step (reduceSteps chrecA.step chrecB.step) :=
      reduceSteps_spec evolvesA
    generalize reduceSteps chrecA.step chrecB.step = result at reduced ⊢
    obtain ⟨divisor, U⟩ := result
    dsimp only
    split
    · rename_i fails
      exact gcdTest_describes reduced fails
    · rename_i divides
      split
      · rename_i signs
        have sameSign : 0 < chrecA.step * chrecB.step := by
          rcases signs with ⟨first, second⟩ | ⟨first, second⟩
          · exact mul_pos first second
          · exact mul_pos_of_neg_of_neg first second
        have divided : divisor ∣ chrecB.init - chrecA.init := by
          apply Int.dvd_of_tmod_eq_zero
          simpa [intDividesP] using divides
        obtain ⟨iPositive, jPositive, describes⟩ := line_describes sameSign reduced divided
          (bound (by omega) sameSign)
        rw [if_neg (by omega), if_pos iPositive, if_pos jPositive]
        exact describes
      · exact True.intro

/-- Every third element against every second one, in loops of ten iterations. -/
theorem strided_describes :
    Describes ⟨1, 3, 2⟩ ⟨2, 1, 3⟩ 10 10
      (analyzeSubscriptAffineAffine (fun _ => some 10) ⟨1, 3, 2⟩ ⟨2, 1, 3⟩) :=
  (analyze_describes (fun _ => some 10) ⟨1, 3, 2⟩ ⟨2, 1, 3⟩ 10 10 rfl rfl (by decide)
    (by decide)).2 (by decide) (fun same => by cases same) fun _ _ common => common

/-- The same access in one loop overlaps in its second iteration, too. -/
theorem sameAccess_not_describes :
    ¬ Describes ⟨1, 0, 1⟩ ⟨1, 0, 1⟩ 1 1
      (analyzeSubscriptAffineAffine (fun _ => some 1) ⟨1, 0, 1⟩ ⟨1, 0, 1⟩) := by
  intro describes
  obtain ⟨k, -, first, -⟩ := describes.1 1 1 (by decide) (by decide) (by decide) (by decide) rfl
  cases first

end Answer

end GccCil.Gcc.Subscript
