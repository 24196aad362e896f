import GccCil.Gcc.SubscriptOverlap
import Mathlib.Algebra.Order.Ring.Abs
import Mathlib.Tactic.Linarith

/-!
# Constant against affine subscripts

`analyze_siv_subscript_cst_affine` of `tree-data-ref.c`, for trees of type
`int`.  Their arithmetic wraps around.
-/

namespace GccCil.Gcc.Subscript

/-- The smallest value of an `int`. -/
abbrev intMin : Int := -2147483648

/-- The value of the type `int` that a folded expression gets. -/
def wrapInt (x : Int) : Int := x.bmod 4294967296

theorem fmod_of_neg (a : Int) {b : Int} (negative : b < 0) : b < a.fmod b ∧ a.fmod b ≤ 0 := by
  have positive : 0 < -b := Int.neg_pos_of_neg negative
  have above := Int.fmod_nonneg_of_pos (-a) positive
  have below := Int.fmod_lt_of_pos (-a) positive
  rw [Int.neg_fmod_neg] at above below
  omega

/-- The loop of `tree_fold_gcd`; `b` is never zero. -/
def treeFoldGcdLoop (a b : Int) : Int :=
  if a.fmod b = 0 ∨ b = 0 then b else treeFoldGcdLoop b (a.fmod b)
termination_by b.natAbs
decreasing_by
  rename_i goesOn
  have nonzero : b ≠ 0 := fun zero => goesOn (Or.inr zero)
  rcases lt_or_gt_of_ne nonzero with negative | positive
  · have bounds := fmod_of_neg a negative
    omega
  · have below := Int.fmod_lt_of_pos a positive
    have above := Int.fmod_nonneg_of_pos a positive
    omega

def treeFoldGcd (a b : Int) : Int :=
  if a = 0 then b
  else if b = 0 then a
  else
    let a := if a < 0 then wrapInt (a * -1) else a
    let b := if b < 0 then wrapInt (b * -1) else b
    treeFoldGcdLoop a b

def treeFoldDividesP (a b : Int) : Bool := a == treeFoldGcd a b

/-- `chrec_is_positive` of a constant: its sign is known. -/
def chrecIsPositive (chrec : Int) : Bool := decide (0 < chrec)

/-- The end of `analyze_siv_subscript_cst_affine` where the step may divide the difference. -/
def weakZeroSiv (numiter : Option Int) (step difference magnitude : Int) : Overlaps :=
  if treeFoldDividesP step difference then
    let overlapsB := wrapInt (magnitude.tdiv step)
    -- weak-zero siv test to see if the overlap is outside the loop bounds
    if numiter.any fun n => n < overlapsB then .chrecKnown
    else .functions (.constant 0) (.constant overlapsB) (some 1)
  else .chrecKnown

/-- `analyze_siv_subscript_cst_affine`; `numberOfIters` is `get_number_of_iters_for_loop`. -/
def analyzeSivSubscriptCstAffine (numberOfIters : Nat → Option Int) (chrecA : Int)
    (chrecB : AffineChrec) : Overlaps :=
  let difference := wrapInt (chrecB.init - chrecA)
  let numiter := numberOfIters chrecB.loop
  if chrecIsPositive difference = false then
    if chrecIsPositive chrecB.step then
      weakZeroSiv numiter chrecB.step difference (wrapInt |difference|)
    else .chrecKnown
  else
    if chrecIsPositive chrecB.step = false then
      weakZeroSiv numiter chrecB.step difference difference
    else .chrecKnown

theorem wrapInt_range (x : Int) : intMin ≤ wrapInt x ∧ wrapInt x < 2147483648 := by
  have above := @Int.le_bmod x 4294967296 (by decide)
  have below := @Int.bmod_lt x 4294967296 (by decide)
  rw [wrapInt, intMin]
  omega

theorem wrapInt_eq {x : Int} (above : intMin ≤ x) (below : x < 2147483648) : wrapInt x = x := by
  rw [intMin] at above
  exact Int.bmod_eq_of_le (by omega) (by omega)

theorem treeFoldGcdLoop_of_pos {a b : Int} (nonneg : 0 ≤ a) (positive : 0 < b) :
    treeFoldGcdLoop a b = Int.gcd a b := by
  fun_induction treeFoldGcdLoop a b with
  | case1 a b ends =>
    have divides := Int.dvd_of_fmod_eq_zero (ends.resolve_right positive.ne')
    exact (Int.gcd_eq_right positive.le divides).symm
  | case2 a b goesOn ih =>
    have above := Int.fmod_nonneg_of_pos a positive
    rw [ih positive.le (by omega), Int.fmod_def, Int.gcd_sub_mul_left_right,
      Int.gcd_comm]

theorem treeFoldGcdLoop_pos {a b : Int} (positive : 0 < b) : 0 < treeFoldGcdLoop a b := by
  fun_induction treeFoldGcdLoop a b with
  | case1 a b ends => exact positive
  | case2 a b goesOn ih =>
    have above := Int.fmod_nonneg_of_pos a positive
    exact ih (by omega)

theorem treeFoldGcdLoop_neg {a b : Int} (negative : b < 0) : treeFoldGcdLoop a b < 0 := by
  fun_induction treeFoldGcdLoop a b with
  | case1 a b ends => exact negative
  | case2 a b goesOn ih =>
    have bounds := fmod_of_neg a negative
    exact ih (by omega)

/-- A positive step is found to divide a value of type `int` if it does, but for the smallest one,
which has no negation. -/
theorem treeFoldDividesP_of_pos {step difference : Int} (positive : 0 < step)
    (above : intMin ≤ difference) :
    treeFoldDividesP step difference = true ↔ step ∣ difference ∧ difference ≠ intMin := by
  rw [treeFoldDividesP, beq_iff_eq, treeFoldGcd, if_neg positive.ne']
  by_cases zero : difference = 0
  · rw [if_pos zero, zero]
    exact iff_of_true rfl ⟨dvd_zero step, by decide⟩
  · rw [if_neg zero, if_neg (not_lt.mpr positive.le)]
    dsimp only
    by_cases smallest : difference = intMin
    · have negative := treeFoldGcdLoop_neg (a := step) (show wrapInt (intMin * -1) < 0 by decide)
      rw [smallest, if_pos (by decide)]
      exact iff_of_false (by omega) fun both => both.2 rfl
    · have magnitude : (if difference < 0 then wrapInt (difference * -1) else difference) =
          |difference| := by
        split
        · next negative =>
            change difference ≠ -2147483648 at smallest
            change -2147483648 ≤ difference at above
            rw [abs_of_neg negative, mul_neg_one]
            exact wrapInt_eq (show -2147483648 ≤ -difference by omega) (by omega)
        · next nonneg => rw [abs_of_nonneg (not_lt.mp nonneg)]
      rw [magnitude, treeFoldGcdLoop_of_pos positive.le (abs_pos.mpr zero), eq_comm,
        Int.gcd_eq_left_iff_dvd positive.le, dvd_abs, and_iff_left smallest]

theorem treeFoldDividesP_zero {difference : Int} (nonzero : difference ≠ 0) :
    treeFoldDividesP 0 difference = false := by
  rw [treeFoldDividesP, treeFoldGcd, if_pos rfl, beq_eq_false_iff_ne]
  exact nonzero.symm

theorem treeFoldDividesP_of_nonpos {step difference : Int} (nonpos : step ≤ 0)
    (above : intMin < difference) (nonzero : difference ≠ 0) :
    treeFoldDividesP step difference = false := by
  by_cases zero : step = 0
  · rw [zero]
    exact treeFoldDividesP_zero nonzero
  · have found : 0 < treeFoldGcd step difference := by
      rw [treeFoldGcd, if_neg zero, if_neg nonzero]
      apply treeFoldGcdLoop_pos
      split
      · next negative =>
          change -2147483648 < difference at above
          rw [wrapInt_eq (show -2147483648 ≤ difference * -1 by omega) (by omega)]
          omega
      · omega
    rw [treeFoldDividesP, beq_eq_false_iff_ne]
    omega

def IsIteration (numiter : Option Int) (y : Int) : Prop := 0 ≤ y ∧ ∀ n ∈ numiter, y ≤ n

/-- What an answer says about the iterations that touch the constant subscript. -/
def DescribesConstant (numiter : Option Int) (chrecA : Int) (chrecB : AffineChrec) :
    Overlaps → Prop
  | .chrecKnown => ∀ y, IsIteration numiter y → chrecB.subscript y ≠ chrecA
  | .functions _ (.constant y) _ => IsIteration numiter y ∧ chrecB.subscript y = chrecA
  | .functions _ (.polynomial _ _) _ | .chrecDontKnow => True

def StepsOnto (numiter : Option Int) (step difference : Int) : Prop :=
  step ∣ difference ∧ IsIteration numiter ((-difference).tdiv step)

section Answer

variable {numiter : Option Int} {chrecA : Int} {chrecB : AffineChrec}

theorem subscript_eq_iff (evolves : chrecB.step ≠ 0) (y : Int) :
    chrecB.subscript y = chrecA ↔
      chrecB.step ∣ chrecB.init - chrecA ∧ y = (-(chrecB.init - chrecA)).tdiv chrecB.step := by
  rw [AffineChrec.subscript]
  constructor
  · intro touches
    have difference : -(chrecB.init - chrecA) = chrecB.step * y := by linarith
    refine ⟨⟨-y, by linarith⟩, ?_⟩
    rw [difference, Int.mul_tdiv_cancel_left _ evolves]
  · rintro ⟨⟨q, difference⟩, rfl⟩
    rw [difference, ← mul_neg, Int.mul_tdiv_cancel_left _ evolves]
    linarith

theorem no_overlap_iff (evolves : chrecB.step ≠ 0) :
    (∀ y, IsIteration numiter y → chrecB.subscript y ≠ chrecA) ↔
      ¬ StepsOnto numiter chrecB.step (chrecB.init - chrecA) := by
  constructor
  · rintro never ⟨divides, iteration⟩
    exact never _ iteration ((subscript_eq_iff evolves _).mpr ⟨divides, rfl⟩)
  · intro never y iteration touches
    obtain ⟨divides, rfl⟩ := (subscript_eq_iff evolves y).mp touches
    exact never ⟨divides, iteration⟩

/-- The step steps onto the difference that is computed, and the answer is that iteration. -/
def AnswersIteration (numiter : Option Int) (step difference : Int) : Prop :=
  0 < step ∧ difference ≤ 0 ∧ difference ≠ intMin ∧ StepsOnto numiter step difference

theorem weakZeroSiv_of_pos {step difference : Int} (positive : 0 < step)
    (above : intMin ≤ difference) (nonpos : difference ≤ 0) :
    (AnswersIteration numiter step difference →
      weakZeroSiv numiter step difference (wrapInt |difference|) =
        .functions (.constant 0) (.constant ((-difference).tdiv step)) (some 1)) ∧
    (¬ AnswersIteration numiter step difference →
      weakZeroSiv numiter step difference (wrapInt |difference|) = .chrecKnown) := by
  have divides := treeFoldDividesP_of_pos positive above
  have quotient : difference ≠ intMin →
      wrapInt ((wrapInt |difference|).tdiv step) = (-difference).tdiv step := by
    intro negatable
    change difference ≠ -2147483648 at negatable
    change -2147483648 ≤ difference at above
    have nonneg : 0 ≤ -difference := by omega
    have small : (-difference).tdiv step ≤ -difference := Int.tdiv_le_self step nonneg
    have quotientNonneg : 0 ≤ (-difference).tdiv step := Int.tdiv_nonneg nonneg positive.le
    rw [abs_of_nonpos nonpos, wrapInt_eq (x := -difference) (show -2147483648 ≤ _ by omega) (by omega),
      wrapInt_eq (show -2147483648 ≤ _ by omega) (by omega)]
  rw [weakZeroSiv]
  by_cases found : step ∣ difference ∧ difference ≠ intMin
  · rw [if_pos (divides.mpr found)]
    dsimp only
    rw [quotient found.2]
    have quotientNonneg : 0 ≤ (-difference).tdiv step :=
      Int.tdiv_nonneg (by omega) positive.le
    have iteration : (numiter.any fun n => decide (n < (-difference).tdiv step)) = true ↔
        ¬ IsIteration numiter ((-difference).tdiv step) := by
      rw [IsIteration, and_iff_right quotientNonneg]
      cases numiter with
      | none => simp
      | some n => simp
    by_cases outside : (numiter.any fun n => decide (n < (-difference).tdiv step)) = true
    · rw [if_pos outside]
      exact ⟨fun answers => absurd answers.2.2.2.2 (iteration.mp outside), fun _ => rfl⟩
    · rw [if_neg outside]
      refine ⟨fun _ => rfl, fun none => absurd ?_ none⟩
      exact ⟨positive, nonpos, found.2, found.1, not_not.mp (mt iteration.mpr outside)⟩
  · rw [if_neg (mt divides.mp found)]
    refine ⟨fun answers => ?_, fun _ => rfl⟩
    exact absurd ⟨answers.2.2.2.1, answers.2.2.1⟩ found

theorem analyzeSivSubscriptCstAffine_answers (numberOfIters : Nat → Option Int) (chrecA : Int)
    (chrecB : AffineChrec) :
    (AnswersIteration (numberOfIters chrecB.loop) chrecB.step (wrapInt (chrecB.init - chrecA)) →
      analyzeSivSubscriptCstAffine numberOfIters chrecA chrecB = .functions (.constant 0)
        (.constant ((-wrapInt (chrecB.init - chrecA)).tdiv chrecB.step)) (some 1)) ∧
    (¬ AnswersIteration (numberOfIters chrecB.loop) chrecB.step
        (wrapInt (chrecB.init - chrecA)) →
      analyzeSivSubscriptCstAffine numberOfIters chrecA chrecB = .chrecKnown) := by
  have above := (wrapInt_range (chrecB.init - chrecA)).1
  rw [analyzeSivSubscriptCstAffine]
  generalize wrapInt (chrecB.init - chrecA) = difference at *
  by_cases positive : 0 < difference
  · rw [chrecIsPositive, decide_eq_true positive, if_neg (by decide)]
    refine ⟨fun answers => absurd positive (not_lt.mpr answers.2.1), fun _ => ?_⟩
    by_cases forward : 0 < chrecB.step
    · rw [chrecIsPositive, decide_eq_true forward, if_neg (by decide)]
    · rw [chrecIsPositive, decide_eq_false forward, if_pos rfl, weakZeroSiv,
        treeFoldDividesP_of_nonpos (not_lt.mp forward)
          (lt_trans (by decide) positive) positive.ne', if_neg (by decide)]
  · rw [chrecIsPositive, decide_eq_false positive, if_pos rfl]
    by_cases forward : 0 < chrecB.step
    · rw [chrecIsPositive, decide_eq_true forward, if_pos rfl]
      exact weakZeroSiv_of_pos forward above (not_lt.mp positive)
    · rw [chrecIsPositive, decide_eq_false forward, if_neg (by decide)]
      exact ⟨fun answers => absurd answers.1 forward, fun _ => rfl⟩

/-- For operands of type `int`, the answer is right if and only if the step is positive and the
difference fits, or the step does not step onto the difference (nor, in a wrong answer, onto the
wrapped one). -/
theorem analyzeSivSubscriptCstAffine_iff (numberOfIters : Nat → Option Int) (chrecA : Int)
    {chrecB : AffineChrec} (evolves : chrecB.step ≠ 0) :
    DescribesConstant (numberOfIters chrecB.loop) chrecA chrecB
        (analyzeSivSubscriptCstAffine numberOfIters chrecA chrecB) ↔
      (0 < chrecB.step ∧ intMin < chrecB.init - chrecA ∧ chrecB.init - chrecA < 2147483648) ∨
      (¬ StepsOnto (numberOfIters chrecB.loop) chrecB.step (chrecB.init - chrecA) ∧
        ¬ AnswersIteration (numberOfIters chrecB.loop) chrecB.step
          (wrapInt (chrecB.init - chrecA))) := by
  obtain ⟨iteration, known⟩ := analyzeSivSubscriptCstAffine_answers numberOfIters chrecA chrecB
  have exactly : intMin < chrecB.init - chrecA → chrecB.init - chrecA < 2147483648 →
      wrapInt (chrecB.init - chrecA) = chrecB.init - chrecA :=
    fun above below => wrapInt_eq above.le below
  by_cases answers : AnswersIteration (numberOfIters chrecB.loop) chrecB.step
      (wrapInt (chrecB.init - chrecA))
  · rw [iteration answers, or_iff_left (fun both => both.2 answers)]
    obtain ⟨forward, nonpos, negatable, divides, isIteration⟩ := answers
    have range := wrapInt_range (chrecB.init - chrecA)
    rw [and_iff_right forward]
    change (IsIteration _ _ ∧ _) ↔ _
    rw [and_iff_right isIteration, subscript_eq_iff evolves]
    constructor
    · rintro ⟨exact, same⟩
      have product := Int.mul_tdiv_cancel' ((dvd_neg).mpr exact)
      have wrapped := Int.mul_tdiv_cancel' ((dvd_neg).mpr divides)
      rw [same, product] at wrapped
      exact ⟨by omega, by omega⟩
    · rintro ⟨above, below⟩
      have difference := exactly above below
      rw [difference] at divides ⊢
      exact ⟨divides, rfl⟩
  · rw [known answers, and_iff_left answers]
    change (∀ y, _ → _) ↔ _
    rw [no_overlap_iff evolves]
    refine ⟨Or.inr, ?_⟩
    rintro (⟨forward, above, below⟩ | never)
    · rintro ⟨divides, isIteration⟩
      apply answers
      rw [exactly above below]
      refine ⟨forward, ?_, above.ne', divides, isIteration⟩
      have product := Int.mul_tdiv_cancel' ((dvd_neg).mpr divides)
      have nonneg := mul_nonneg forward.le isIteration.1
      omega
    · exact never

/-- The constant 12 against `{10, +, 1}`, in a loop of ten iterations. -/
theorem analyzeSivSubscriptCstAffine_iff_twelve :
    DescribesConstant (some 10) 12 ⟨1, 10, 1⟩
        (analyzeSivSubscriptCstAffine (fun _ => some 10) 12 ⟨1, 10, 1⟩) ↔
      (0 < (1 : Int) ∧ intMin < 10 - 12 ∧ 10 - 12 < (2147483648 : Int)) ∨
      (¬ StepsOnto (some 10) 1 (10 - 12) ∧ ¬ AnswersIteration (some 10) 1 (wrapInt (10 - 12))) :=
  @analyzeSivSubscriptCstAffine_iff (fun _ => some 10) 12 ⟨1, 10, 1⟩ (by decide)

/-- The constant 3 against `{10, +, -1}`, which touches it in the iteration 7. -/
theorem analyzeSivSubscriptCstAffine_decreasing :
    analyzeSivSubscriptCstAffine (fun _ => none) 3 ⟨1, 10, -1⟩ = .chrecKnown ∧
      AffineChrec.subscript ⟨1, 10, -1⟩ 7 = 3 :=
  ⟨(analyzeSivSubscriptCstAffine_answers (fun _ => none) 3 ⟨1, 10, -1⟩).2
    fun answers => absurd answers.1 (by decide), by decide⟩

end Answer

end GccCil.Gcc.Subscript
