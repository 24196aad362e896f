import GccCil.Gcc.DivCompare

/-!
# The number of iterations of loops with step one

`number_of_iterations_special` of `tree-ssa-loop-niter.c` recognizes loops whose
induction variable grows or shrinks by one.  The expressions that it builds are given by
their values: the arithmetic of the type wraps around, and the number of iterations is
converted to the unsigned type.
-/

namespace GccCil.Gcc.LoopIterations

open GccCil.Lib RangeTest DivCompare

structure Step where
  value : Int
  constantOverflow : Bool := false
  deriving DecidableEq, Repr

/-- `zero_p`; `NULL_TREE` is a zero step. -/
def zeroP : Option Step → Bool
  | none => true
  | some step => step.value == 0

def integerOnep (step : Step) : Bool := !step.constantOverflow && step.value == 1

/-- `integer_all_onesp`, which looks at the bits of the mode. -/
def integerAllOnesp (type : CstType) (step : Step) : Bool :=
  !step.constantOverflow &&
    (step.value == -1 || type.unsigned && step.value == 2 ^ type.modeBits - 1)

/-- The values of a `struct tree_niter_desc`. -/
structure TreeNiterDesc where
  assumptions : Bool
  mayBeZero : Bool
  niter : Int
  additionalInfo : Bool
  deriving DecidableEq, Repr

/-- What the function does: it fills in a description, it returns false, or the code is not
one that it expects. -/
inductive Answer where
  | recognized (desc : TreeNiterDesc)
  | notRecognized
  | unreachable
  deriving DecidableEq, Repr

/-- `fold_convert` to the unsigned type. -/
def toUnsigned (type : CstType) (x : Int) : Int := wrap true type.precision x

/-- `number_of_iterations_special` after the exchange of `>` and `>=`.  For a pointer the
limits of the type are not looked at. -/
def numberOfIterationsOrdered (pointer : Bool) (type : CstType) (base0 : Int) (step0 : Option Step)
    (code : CompareCode) (base1 : Int) (step1 : Option Step) : Answer :=
  let recognized (assumptions mayBeZero : Bool) (niter : Int) : Answer :=
    .recognized
      { assumptions := assumptions, mayBeZero := mayBeZero
        niter := toUnsigned type (type.reduce niter), additionalInfo := true }
  let notEqual (base0 : Int) (step0 : Option Step) (base1 : Int) : Answer :=
    if step0.any integerOnep then recognized true false (base1 - base0)
    else if step0.any (integerAllOnesp type) then recognized true false (base0 - base1)
    else .notRecognized
  match code with
  | .ne =>
    if zeroP step0 then
      if zeroP step1 then .notRecognized else notEqual base1 step1 base0
    else if !zeroP step1 then .notRecognized
    else notEqual base0 step0 base1
  | .lt =>
    if (step0.any integerOnep && zeroP step1) ||
        (step1.any (integerAllOnesp type) && zeroP step0) then
      recognized true (decide (base0 > base1)) (base1 - base0)
    else .notRecognized
  | .le =>
    if step0.any integerOnep && zeroP step1 then
      let next := type.reduce (base1 + 1)
      recognized (pointer || base1 != type.typeMax) (decide (base0 > next)) (next - base0)
    else if step1.any (integerAllOnesp type) && zeroP step0 then
      let previous := type.reduce (base0 - 1)
      recognized (pointer || base0 != type.typeMin) (decide (previous > base1)) (base1 - previous)
    else .notRecognized
  | .eq | .gt | .ge => .unreachable

def numberOfIterationsSpecial (pointer : Bool) (type : CstType) (base0 : Int) (step0 : Option Step)
    (code : CompareCode) (base1 : Int) (step1 : Option Step) : Answer :=
  -- Make < comparison from > ones.
  if code = .ge ∨ code = .gt then
    numberOfIterationsOrdered pointer type base1 step1 (swapTreeComparison code) base0 step0
  else numberOfIterationsOrdered pointer type base0 step0 code base1 step1

/-- An induction variable after `k` steps. -/
def inductionValue (type : CstType) (base : Int) (step : Option Step) (k : Nat) : Int :=
  type.reduce (base + k * (step.map Step.value).getD 0)

/-- The loop continues after `k` rounds. -/
def Continues (type : CstType) (base0 : Int) (step0 : Option Step) (code : CompareCode)
    (base1 : Int) (step1 : Option Step) (k : Nat) : Prop :=
  code.holds (inductionValue type base0 step0 k) (inductionValue type base1 step1 k) = true

/-- The loop is left after exactly `n` rounds. -/
def Executes (type : CstType) (base0 : Int) (step0 : Option Step) (code : CompareCode)
    (base1 : Int) (step1 : Option Step) (n : Nat) : Prop :=
  (∀ k < n, Continues type base0 step0 code base1 step1 k) ∧
    ¬Continues type base0 step0 code base1 step1 n

def TreeNiterDesc.Describes (desc : TreeNiterDesc) (executes : Nat → Prop) : Prop :=
  desc.assumptions = true →
    (desc.mayBeZero = false → ∃ n : Nat, desc.niter = (n : Int) ∧ executes n) ∧
    (desc.mayBeZero = true → executes 0)

section Values

variable {type : CstType} {base x : Int} {step : Option Step}

theorem HasValue.contains (hasValue : type.HasValue x) : type.toIntType.Contains x :=
  ⟨type.min_le.trans hasValue.1, hasValue.2.trans type.le_max⟩

theorem reduce_eq (hasValue : type.HasValue x) : type.reduce x = x :=
  Vrp.IntType.wrap_eq (HasValue.contains hasValue)

theorem value_of_zeroP (isZero : zeroP step = true) : (step.map Step.value).getD 0 = 0 := by
  cases step with
  | none => rfl
  | some step => exact beq_iff_eq.mp isZero

theorem value_of_onep (isOne : step.any integerOnep = true) :
    (step.map Step.value).getD 0 = 1 := by
  cases step with
  | none => cases isOne
  | some step => exact beq_iff_eq.mp (Bool.and_eq_true_iff.mp isOne).2

theorem value_of_allOnesp (isOnes : step.any (integerAllOnesp type) = true) :
    (step.map Step.value).getD 0 ≡ -1 [ZMOD (2 ^ type.precision : Nat)] := by
  cases step with
  | none => cases isOnes
  | some step =>
    obtain ⟨_, isOnes⟩ := Bool.and_eq_true_iff.mp isOnes
    obtain minusOne | mask := Bool.or_eq_true_iff.mp isOnes
    · exact beq_iff_eq.mp minusOne ▸ rfl
    · obtain ⟨_, isMask⟩ := Bool.and_eq_true_iff.mp mask
      rw [Option.map_some, Option.getD_some, beq_iff_eq.mp isMask]
      have divides : ((2 ^ type.precision : Nat) : Int) ∣ 2 ^ type.modeBits := by
        exact_mod_cast pow_dvd_pow 2 type.fits
      have := (Int.modEq_zero_iff_dvd.mpr divides).sub_right 1
      rwa [zero_sub] at this

theorem inductionValue_still (isZero : zeroP step = true) (hasValue : type.HasValue base)
    (k : Nat) : inductionValue type base step k = base := by
  rw [inductionValue, value_of_zeroP isZero, Int.mul_zero, Int.add_zero, reduce_eq hasValue]

theorem inductionValue_up (isOne : step.any integerOnep = true) (k : Nat)
    (hasValue : type.HasValue (base + k)) : inductionValue type base step k = base + k := by
  rw [inductionValue, value_of_onep isOne, Int.mul_one, reduce_eq hasValue]

theorem inductionValue_down (isOnes : step.any (integerAllOnesp type) = true) (k : Nat)
    (hasValue : type.HasValue (base - k)) : inductionValue type base step k = base - k := by
  have congruent := ((value_of_allOnesp isOnes).mul_left (k : Int)).add_left base
  rw [Int.mul_neg_one, ← sub_eq_add_neg] at congruent
  rw [inductionValue, CstType.reduce, wrap_congr _ congruent]
  exact reduce_eq hasValue

theorem reduce_eq_iff {bound : Int} (hasValue : type.HasValue bound) :
    type.reduce x = bound ↔ x ≡ bound [ZMOD (2 ^ type.precision : Nat)] := by
  rw [← wrap_eq_wrap_iff type.unsigned, ← CstType.reduce, ← CstType.reduce, reduce_eq hasValue]

theorem toUnsigned_reduce (x : Int) :
    toUnsigned type (type.reduce x) = x % (2 ^ type.precision : Nat) :=
  wrap_congr true (wrap_modEq _ _ _)

theorem toUnsigned_reduce_of_lt (notNegative : 0 ≤ x) (fits : x < (2 ^ type.precision : Nat)) :
    toUnsigned type (type.reduce x) = x := by
  rw [toUnsigned_reduce, Int.emod_eq_of_lt notNegative fits]

theorem sub_lt {y : Int} (xValue : type.HasValue x) (yValue : type.HasValue y) :
    x - y < (2 ^ type.precision : Nat) := by
  have xFits := (Vrp.IntType.contains_iff _ _).mp (HasValue.contains xValue)
  have yFits := (Vrp.IntType.contains_iff _ _).mp (HasValue.contains yValue)
  cases isUnsigned : type.unsigned with
  | false =>
    rw [isUnsigned, inRange_signed] at xFits yFits
    omega
  | true =>
    rw [isUnsigned, inRange_unsigned] at xFits yFits
    omega

/-- An induction variable that meets the bound after `distance` steps, modulo the
precision, meets it first after the remainder of the distance. -/
theorem counts {bound distance : Int} {value : Nat → Int}
    (meets : ∀ k : Nat, value k = bound ↔ (k : Int) ≡ distance [ZMOD (2 ^ type.precision : Nat)]) :
    ∃ n : Nat, toUnsigned type (type.reduce distance) = (n : Int) ∧ (∀ k < n, value k ≠ bound) ∧
      value n = bound := by
  have positive : (0 : Int) < (2 ^ type.precision : Nat) := by
    exact_mod_cast Nat.two_pow_pos type.precision
  obtain ⟨n, isN⟩ := Int.eq_ofNat_of_zero_le (Int.emod_nonneg distance positive.ne')
  have less := Int.emod_lt_of_pos distance positive
  have congruent : (n : Int) ≡ distance [ZMOD (2 ^ type.precision : Nat)] :=
    isN ▸ Int.mod_modEq distance _
  refine ⟨n, (toUnsigned_reduce distance).trans isN, fun k earlier equal => ?_, (meets n).mpr congruent⟩
  have same : (k : Int) % (2 ^ type.precision : Nat) = (n : Int) % (2 ^ type.precision : Nat) :=
    ((meets k).mp equal).trans congruent.symm
  rw [Int.emod_eq_of_lt (by omega) (by omega), Int.emod_eq_of_lt (by omega) (by omega)] at same
  omega

end Values

section Cases

variable {type : CstType} {base0 base1 : Int} {step0 step1 : Option Step}

theorem executes_iff_of_holds {code : CompareCode} {n : Nat} :
    Executes type base0 step0 code base1 step1 n ↔
      (∀ k < n, code.holds (inductionValue type base0 step0 k)
        (inductionValue type base1 step1 k) = true) ∧
      code.holds (inductionValue type base0 step0 n) (inductionValue type base1 step1 n) = false := by
  rw [Executes, Continues, Bool.not_eq_true]
  rfl

theorem notEqual_executes (value1 : type.HasValue base1)
    (isZero : zeroP step1 = true) {distance : Int}
    (steps : step0.any integerOnep = true ∧ distance = base1 - base0 ∨
      step0.any (integerAllOnesp type) = true ∧ distance = base0 - base1) :
    ∃ n : Nat, toUnsigned type (type.reduce distance) = (n : Int) ∧
      Executes type base0 step0 .ne base1 step1 n := by
  have meets (k : Nat) : inductionValue type base0 step0 k = base1 ↔
      (k : Int) ≡ distance [ZMOD (2 ^ type.precision : Nat)] := by
    rw [inductionValue, reduce_eq_iff value1]
    obtain ⟨isOne, rfl⟩ | ⟨isOnes, rfl⟩ := steps
    · rw [value_of_onep isOne, Int.mul_one, Int.add_comm base0]
      constructor
      · intro congruent
        have := congruent.sub_right base0
        rwa [Int.add_sub_cancel] at this
      · intro congruent
        have := congruent.add_right base0
        rwa [Int.sub_add_cancel] at this
    · have moved := ((value_of_allOnesp isOnes).mul_left (k : Int)).add_left base0
      rw [Int.mul_neg_one, ← sub_eq_add_neg] at moved
      constructor
      · intro congruent
        have := (moved.symm.trans congruent).sub_left base0
        rwa [sub_sub_cancel] at this
      · intro congruent
        have := congruent.sub_left base0
        rw [sub_sub_cancel] at this
        exact moved.trans this
  obtain ⟨n, isN, before, meetsAt⟩ := counts meets
  refine ⟨n, isN, executes_iff_of_holds.mpr ⟨fun k earlier => ?_, ?_⟩⟩
  · rw [inductionValue_still isZero value1]
    exact bne_iff_ne.mpr (before k earlier)
  · rw [inductionValue_still isZero value1, meetsAt]
    exact bne_self_eq_false _

theorem inductionValue_zero (step : Option Step) (value0 : type.HasValue base0) :
    inductionValue type base0 step 0 = base0 := by
  rw [inductionValue, Nat.cast_zero, Int.zero_mul, Int.add_zero, reduce_eq value0]

theorem executes_zero {code : CompareCode} (value0 : type.HasValue base0)
    (value1 : type.HasValue base1) (leaves : code.holds base0 base1 = false) :
    Executes type base0 step0 code base1 step1 0 := by
  refine executes_iff_of_holds.mpr ⟨fun k none => absurd none (Nat.not_lt_zero k), ?_⟩
  rwa [inductionValue_zero step0 value0, inductionValue_zero step1 value1]

theorem up_executes {code : CompareCode} (isOne : step0.any integerOnep = true)
    (isZero : zeroP step1 = true) (value0 : type.HasValue base0) (value1 : type.HasValue base1)
    {n : Nat} (last : type.HasValue (base0 + n))
    (before : ∀ k : Nat, k < n → code.holds (base0 + k) base1 = true)
    (leaves : code.holds (base0 + n) base1 = false) :
    Executes type base0 step0 code base1 step1 n := by
  have value {k : Nat} (le : k ≤ n) : inductionValue type base0 step0 k = base0 + k := by
    refine inductionValue_up isOne k ⟨?_, ?_⟩
    · exact value0.1.trans (by omega)
    · exact le_trans (by omega) last.2
  refine executes_iff_of_holds.mpr ⟨fun k earlier => ?_, ?_⟩
  · rw [inductionValue_still isZero value1, value earlier.le]
    exact before k earlier
  · rw [inductionValue_still isZero value1, value le_rfl]
    exact leaves

theorem down_executes {code : CompareCode} (isOnes : step1.any (integerAllOnesp type) = true)
    (isZero : zeroP step0 = true) (value0 : type.HasValue base0) (value1 : type.HasValue base1)
    {n : Nat} (last : type.HasValue (base1 - n))
    (before : ∀ k : Nat, k < n → code.holds base0 (base1 - k) = true)
    (leaves : code.holds base0 (base1 - n) = false) :
    Executes type base0 step0 code base1 step1 n := by
  have value {k : Nat} (le : k ≤ n) : inductionValue type base1 step1 k = base1 - k := by
    refine inductionValue_down isOnes k ⟨?_, ?_⟩
    · exact last.1.trans (by omega)
    · exact le_trans (by omega) value1.2
  refine executes_iff_of_holds.mpr ⟨fun k earlier => ?_, ?_⟩
  · rw [inductionValue_still isZero value0, value earlier.le]
    exact before k earlier
  · rw [inductionValue_still isZero value0, value le_rfl]
    exact leaves

theorem less_executes (value0 : type.HasValue base0) (value1 : type.HasValue base1)
    (steps : step0.any integerOnep = true ∧ zeroP step1 = true ∨
      step1.any (integerAllOnesp type) = true ∧ zeroP step0 = true)
    (le : base0 ≤ base1) :
    ∃ n : Nat, toUnsigned type (type.reduce (base1 - base0)) = (n : Int) ∧
      Executes type base0 step0 .lt base1 step1 n := by
  obtain ⟨n, isN⟩ := Int.eq_ofNat_of_zero_le (Int.sub_nonneg_of_le le)
  refine ⟨n, ?_, ?_⟩
  · rw [toUnsigned_reduce_of_lt (Int.sub_nonneg_of_le le) (sub_lt value1 value0), isN]
  · obtain ⟨isOne, isZero⟩ | ⟨isOnes, isZero⟩ := steps
    · have last : base0 + n = base1 := by omega
      refine up_executes isOne isZero value0 value1 (last ▸ value1) (fun k earlier => ?_) ?_
      · exact decide_eq_true (by omega)
      · exact decide_eq_false (by omega)
    · have last : base1 - n = base0 := by omega
      refine down_executes isOnes isZero value0 value1 (last ▸ value0) (fun k earlier => ?_) ?_
      · exact decide_eq_true (by omega)
      · exact decide_eq_false (by omega)

theorem lessEqual_up_executes (value0 : type.HasValue base0) (value1 : type.HasValue base1)
    (isOne : step0.any integerOnep = true) (isZero : zeroP step1 = true)
    (next : type.HasValue (base1 + 1)) (le : base0 ≤ base1 + 1) :
    ∃ n : Nat, toUnsigned type (type.reduce (base1 + 1 - base0)) = (n : Int) ∧
      Executes type base0 step0 .le base1 step1 n := by
  obtain ⟨n, isN⟩ := Int.eq_ofNat_of_zero_le (Int.sub_nonneg_of_le le)
  refine ⟨n, ?_, ?_⟩
  · rw [toUnsigned_reduce_of_lt (Int.sub_nonneg_of_le le) (sub_lt next value0), isN]
  · have last : base0 + n = base1 + 1 := by omega
    refine up_executes isOne isZero value0 value1 (last ▸ next) (fun k earlier => ?_) ?_
    · exact decide_eq_true (by omega)
    · exact decide_eq_false (by omega)

theorem lessEqual_down_executes (value0 : type.HasValue base0) (value1 : type.HasValue base1)
    (isOnes : step1.any (integerAllOnesp type) = true) (isZero : zeroP step0 = true)
    (previous : type.HasValue (base0 - 1)) (le : base0 - 1 ≤ base1) :
    ∃ n : Nat, toUnsigned type (type.reduce (base1 - (base0 - 1))) = (n : Int) ∧
      Executes type base0 step0 .le base1 step1 n := by
  obtain ⟨n, isN⟩ := Int.eq_ofNat_of_zero_le (Int.sub_nonneg_of_le le)
  refine ⟨n, ?_, ?_⟩
  · rw [toUnsigned_reduce_of_lt (Int.sub_nonneg_of_le le) (sub_lt value1 previous), isN]
  · have last : base1 - n = base0 - 1 := by omega
    refine down_executes isOnes isZero value0 value1 (last ▸ previous) (fun k earlier => ?_) ?_
    · exact decide_eq_true (by omega)
    · exact decide_eq_false (by omega)

theorem holds_swap (code : CompareCode) (x y : Int) :
    (swapTreeComparison code).holds y x = code.holds x y := by
  cases code with
  | eq => exact Bool.beq_comm
  | ne => exact congrArg not Bool.beq_comm
  | lt | le | gt | ge => rfl

theorem executes_swap (code : CompareCode) :
    Executes type base1 step1 (swapTreeComparison code) base0 step0 =
      Executes type base0 step0 code base1 step1 := by
  funext n
  simp only [Executes, Continues, holds_swap]

theorem recognized_describes {executes : Nat → Prop} {assumptions mayBeZero : Bool} {niter : Int}
    {desc : TreeNiterDesc}
    (recognized : Answer.recognized ⟨assumptions, mayBeZero, toUnsigned type (type.reduce niter), true⟩ =
      .recognized desc)
    (counted : assumptions = true → mayBeZero = false →
      ∃ n : Nat, toUnsigned type (type.reduce niter) = (n : Int) ∧ executes n)
    (left : assumptions = true → mayBeZero = true → executes 0) : desc.Describes executes := by
  cases recognized
  exact fun holds => ⟨counted holds, left holds⟩

theorem notEqual_describes {desc : TreeNiterDesc} (value1 : type.HasValue base1)
    (isZero : zeroP step1 = true)
    (recognizes :
      (if step0.any integerOnep then
        Answer.recognized ⟨true, false, toUnsigned type (type.reduce (base1 - base0)), true⟩
      else if step0.any (integerAllOnesp type) then
        .recognized ⟨true, false, toUnsigned type (type.reduce (base0 - base1)), true⟩
      else .notRecognized) = .recognized desc) :
    desc.Describes (Executes type base0 step0 .ne base1 step1) := by
  by_cases isOne : step0.any integerOnep = true
  · rw [if_pos isOne] at recognizes
    exact recognized_describes recognizes
      (fun _ _ => notEqual_executes value1 isZero (.inl ⟨isOne, rfl⟩)) (fun _ zero => by cases zero)
  · rw [if_neg isOne] at recognizes
    by_cases isOnes : step0.any (integerAllOnesp type) = true
    · rw [if_pos isOnes] at recognizes
      exact recognized_describes recognizes
        (fun _ _ => notEqual_executes value1 isZero (.inr ⟨isOnes, rfl⟩)) (fun _ zero => by cases zero)
    · rw [if_neg isOnes] at recognizes
      cases recognizes

theorem ordered_describes {code : CompareCode} {desc : TreeNiterDesc}
    (value0 : type.HasValue base0) (value1 : type.HasValue base1)
    (answers : numberOfIterationsOrdered false type base0 step0 code base1 step1 =
      .recognized desc) :
    desc.Describes (Executes type base0 step0 code base1 step1) := by
  cases code with
  | ne =>
    rw [numberOfIterationsOrdered] at answers
    dsimp only at answers
    by_cases isZero0 : zeroP step0 = true
    · rw [if_pos isZero0] at answers
      by_cases isZero1 : zeroP step1 = true
      · rw [if_pos isZero1] at answers
        cases answers
      · rw [if_neg isZero1] at answers
        rw [← executes_swap]
        exact notEqual_describes value0 isZero0 answers
    · rw [if_neg isZero0] at answers
      by_cases isZero1 : zeroP step1 = true
      · rw [isZero1, Bool.not_true, if_neg Bool.false_ne_true] at answers
        exact notEqual_describes value1 isZero1 answers
      · rw [Bool.not_eq_true] at isZero1
        rw [isZero1, Bool.not_false, if_pos rfl] at answers
        cases answers
  | lt =>
    rw [numberOfIterationsOrdered] at answers
    dsimp only at answers
    split at answers
    · rename_i steps
      rw [Bool.or_eq_true, Bool.and_eq_true, Bool.and_eq_true] at steps
      refine recognized_describes answers (fun _ notZero => ?_) (fun _ zero => ?_)
      · exact less_executes value0 value1 steps (not_lt.mp (of_decide_eq_false notZero))
      · have greater : base1 < base0 := of_decide_eq_true zero
        exact executes_zero value0 value1 (decide_eq_false greater.not_gt)
    · cases answers
  | le =>
    rw [numberOfIterationsOrdered] at answers
    dsimp only at answers
    by_cases up : (step0.any integerOnep && zeroP step1) = true
    · rw [if_pos up] at answers
      obtain ⟨isOne, isZero⟩ := Bool.and_eq_true_iff.mp up
      have next (holds : (false || base1 != type.typeMax) = true) :
          type.HasValue (base1 + 1) ∧ type.reduce (base1 + 1) = base1 + 1 := by
        have notLast := bne_iff_ne.mp holds
        have hasNext : type.HasValue (base1 + 1) :=
          ⟨value1.1.trans (by omega), by have := value1.2; omega⟩
        exact ⟨hasNext, reduce_eq hasNext⟩
      refine recognized_describes answers (fun holds notZero => ?_) (fun holds zero => ?_)
      · obtain ⟨hasNext, isNext⟩ := next holds
        rw [isNext] at notZero ⊢
        exact lessEqual_up_executes value0 value1 isOne isZero hasNext
          (not_lt.mp (of_decide_eq_false notZero))
      · rw [(next holds).2] at zero
        have greater : base1 + 1 < base0 := of_decide_eq_true zero
        exact executes_zero value0 value1 (decide_eq_false (by omega))
    · rw [if_neg up] at answers
      by_cases down : (step1.any (integerAllOnesp type) && zeroP step0) = true
      · rw [if_pos down] at answers
        obtain ⟨isOnes, isZero⟩ := Bool.and_eq_true_iff.mp down
        have previous (holds : (false || base0 != type.typeMin) = true) :
            type.HasValue (base0 - 1) ∧ type.reduce (base0 - 1) = base0 - 1 := by
          have notFirst := bne_iff_ne.mp holds
          have hasPrevious : type.HasValue (base0 - 1) :=
            ⟨by have := value0.1; omega, le_trans (by omega) value0.2⟩
          exact ⟨hasPrevious, reduce_eq hasPrevious⟩
        refine recognized_describes answers (fun holds notZero => ?_) (fun holds zero => ?_)
        · obtain ⟨hasPrevious, isPrevious⟩ := previous holds
          rw [isPrevious] at notZero ⊢
          exact lessEqual_down_executes value0 value1 isOnes isZero hasPrevious
            (not_lt.mp (of_decide_eq_false notZero))
        · rw [(previous holds).2] at zero
          have greater : base1 < base0 - 1 := of_decide_eq_true zero
          exact executes_zero value0 value1 (decide_eq_false (by omega))
      · rw [if_neg down] at answers
        cases answers
  | eq => cases answers
  | gt => cases answers
  | ge => cases answers

end Cases

/-- Where the function recognizes a loop of an integer type and the assumptions that it
writes down hold for the bases, the loop executes as many rounds as it says, or none at
all where it may be zero. -/
theorem numberOfIterationsSpecial_describes (type : CstType) (base0 base1 : Int)
    (value0 : type.HasValue base0) (value1 : type.HasValue base1) (step0 step1 : Option Step)
    (code : CompareCode) (desc : TreeNiterDesc)
    (recognizes : numberOfIterationsSpecial false type base0 step0 code base1 step1 =
      .recognized desc) (assumptions : desc.assumptions = true) :
    (desc.mayBeZero = false →
      ∃ n : Nat, desc.niter = (n : Int) ∧ Executes type base0 step0 code base1 step1 n) ∧
    (desc.mayBeZero = true → Executes type base0 step0 code base1 step1 0) := by
  rw [numberOfIterationsSpecial] at recognizes
  by_cases greater : code = .ge ∨ code = .gt
  · rw [if_pos greater] at recognizes
    rw [← executes_swap]
    exact ordered_describes value1 value0 recognizes assumptions
  · rw [if_neg greater] at recognizes
    exact ordered_describes value0 value1 recognizes assumptions

/-- Counting from -5 to 9, both inside. -/
theorem numberOfIterationsSpecial_describes_fifteen :
    Executes intType (-5) (some { value := 1 }) .le 9 none 15 := by
  have answers : numberOfIterationsSpecial false intType (-5) (some { value := 1 }) .le 9 none =
      .recognized ⟨true, false, 15, true⟩ := by decide
  obtain ⟨n, isN, executes⟩ := (numberOfIterationsSpecial_describes intType (-5) 9
    (by constructor <;> decide) (by constructor <;> decide) (some { value := 1 }) none .le _
    answers rfl).1 rfl
  cases isN
  exact executes

end GccCil.Gcc.LoopIterations
