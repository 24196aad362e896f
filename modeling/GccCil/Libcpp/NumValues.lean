import GccCil.Libcpp.NumDivision

/-!
# The values of the operators

A number of a precision has a value in its signedness.  The operators of `expr.c` compute
the values that C gives them, reduced to the precision.
-/

namespace GccCil.Libcpp

variable {part precision : Nat}

/-- What a target has for `PART_PRECISION` and the precision of `intmax_t`. -/
structure Widths (part precision : Nat) : Prop where
  large : 1 < precision
  even : 2 ∣ part
  whole : precision ≤ part ∨ precision = 2 * part

theorem Widths.positive (widths : Widths part precision) : 0 < precision :=
  Nat.zero_lt_of_lt widths.large

theorem Widths.fits (widths : Widths part precision) : precision ≤ 2 * part := by
  obtain small | full := widths.whole
  · exact small.trans (Nat.le_mul_of_pos_left part Nat.zero_lt_two)
  · exact full.le

theorem Widths.wide (widths : Widths part precision) : precision ≤ 2 ^ part := by
  refine widths.fits.trans ?_
  cases part with
  | zero => exact Nat.zero_le 1
  | succ part =>
    rw [pow_succ']
    exact Nat.mul_le_mul_left 2 Nat.lt_two_pow_self

def wrapTo (precision : Nat) (unsigned : Bool) (x : Int) : Int :=
  if unsigned then (BitVec.ofInt precision x).toNat else (BitVec.ofInt precision x).toInt

structure HasValue (num : CppNum part) (precision : Nat) (unsigned : Bool) (x : Int) : Prop where
  trimmed : num.Trimmed precision
  signedness : num.unsignedp = unsigned
  value : num.value precision unsigned = x

section

variable {num lhs rhs : CppNum part} {unsigned : Bool}

theorem CppNum.Trimmed.value_word (positive : 0 < precision) (trimmed : num.Trimmed precision)
    (unsigned : Bool) : num.value precision unsigned =
      if unsigned then ((num.word precision).toNat : Int) else (num.word precision).toInt := by
  cases unsigned with
  | true => exact congrArg Nat.cast trimmed.word_toNat.symm
  | false => exact (trimmed.word_toInt positive).symm

theorem word_of_modEq (trimmed : num.Trimmed precision) {x : Int}
    (same : (num.toNat : Int) ≡ x [ZMOD (2 ^ precision : Nat)]) :
    num.word precision = BitVec.ofInt precision x := by
  apply BitVec.eq_of_toNat_eq
  rw [trimmed.word_toNat, BitVec.toNat_ofInt, ← trimmed.toNat_eq same, Int.toNat_natCast]

theorem value_of_modEq (positive : 0 < precision) (trimmed : num.Trimmed precision) {x : Int}
    (same : (num.toNat : Int) ≡ x [ZMOD (2 ^ precision : Nat)]) (unsigned : Bool) :
    num.value precision unsigned = wrapTo precision unsigned x := by
  rw [trimmed.value_word positive, word_of_modEq trimmed same]
  rfl

theorem hasValue_of_modEq (positive : 0 < precision) (trimmed : num.Trimmed precision)
    (signedness : num.unsignedp = unsigned) {x : Int}
    (same : (num.toNat : Int) ≡ x [ZMOD (2 ^ precision : Nat)]) :
    HasValue num precision unsigned (wrapTo precision unsigned x) :=
  ⟨trimmed, signedness, value_of_modEq positive trimmed same unsigned⟩

theorem HasValue.modEq {x : Int} (hasValue : HasValue num precision unsigned x) :
    (num.toNat : Int) ≡ x [ZMOD (2 ^ precision : Nat)] :=
  hasValue.value ▸ (num.value_modEq unsigned).symm

theorem value_eq_iff (positive : 0 < precision) (lhsTrimmed : lhs.Trimmed precision)
    (rhsTrimmed : rhs.Trimmed precision) (unsigned : Bool) :
    lhs.value precision unsigned = rhs.value precision unsigned ↔ lhs.toNat = rhs.toNat := by
  rw [lhsTrimmed.value_word positive, rhsTrimmed.value_word positive, ← lhsTrimmed.word_toNat,
    ← rhsTrimmed.word_toNat]
  cases unsigned with
  | true => exact Int.ofNat_inj
  | false => exact BitVec.toInt_inj.trans BitVec.toNat_inj.symm

theorem parts_zero (num : CppNum part) :
    (num.high == 0 && num.low == 0) = decide (num.toNat = 0) := by
  rw [Bool.eq_iff_iff, decide_eq_true_iff, ← numZerop_iff, numZerop, Bool.and_eq_true, beq_iff_eq,
    beq_iff_eq, beq_iff_eq, and_comm]
  exact BitVec.or_eq_zero_iff.symm

theorem numMagnitude_unsignedp (num : CppNum part) (unsignedp : Bool) (precision : Nat) :
    (numMagnitude num unsignedp precision).1.unsignedp = num.unsignedp := by
  rw [numMagnitude]
  split
  · exact numNegate_unsignedp num precision
  · rfl

theorem numShift_eq (lhs rhs : CppNum part) (leftward : Bool) (precision : Nat) :
    numShift lhs rhs leftward precision =
      let count := numMagnitude rhs rhs.unsignedp precision
      let n := if count.1.high != 0 then 2 ^ part - 1 else count.1.low.toNat
      if leftward != count.2 then numLshift lhs precision n else numRshift lhs precision n := by
  rw [numShift, numMagnitude]
  cases !rhs.unsignedp && !numPositive rhs precision <;> rfl

theorem numRshift_unsignedp (num : CppNum part) (precision n : Nat) :
    (numRshift num precision n).unsignedp = num.unsignedp := by
  simp only [numRshift, rshiftExtend, numTrim_unsignedp]
  split_ifs <;> rfl

/-- The operators `&` and `|`, else `^`. -/
def Op.bits (op : Op) (left right : BitVec precision) : BitVec precision :=
  if op = .and then left &&& right else if op = .or then left ||| right else left ^^^ right

structure Operands (lhs rhs : CppNum part) (precision : Nat) (unsigned : Bool) (x y : Int) :
    Prop where
  lhsTrimmed : lhs.Trimmed precision
  rhsTrimmed : rhs.Trimmed precision
  usual : (lhs.unsignedp || rhs.unsignedp) = unsigned
  lhsValue : lhs.value precision unsigned = x
  rhsValue : rhs.value precision unsigned = y

theorem Operands.modEq {x y : Int} (operands : Operands lhs rhs precision unsigned x y) :
    (lhs.toNat : Int) ≡ x [ZMOD (2 ^ precision : Nat)] ∧
      (rhs.toNat : Int) ≡ y [ZMOD (2 ^ precision : Nat)] :=
  ⟨operands.lhsValue ▸ (lhs.value_modEq unsigned).symm,
    operands.rhsValue ▸ (rhs.value_modEq unsigned).symm⟩

variable (widths : Widths part precision)
include widths

theorem CppNum.Trimmed.zerop_eq (trimmed : num.Trimmed precision) (unsigned : Bool) :
    numZerop num = decide (num.value precision unsigned = 0) := by
  have same : num.value precision unsigned ≡ num.toNat [ZMOD (2 ^ precision : Nat)] :=
    num.value_modEq unsigned
  rw [Bool.eq_iff_iff, numZerop_iff, decide_eq_true_iff]
  constructor
  · intro zero
    have vanishes : (num.toNat : Int) ≡ 0 [ZMOD (2 ^ precision : Nat)] := by rw [zero]; rfl
    rw [value_of_modEq widths.positive trimmed vanishes]
    cases unsigned <;> simp [wrapTo]
  · intro zero
    rw [zero] at same
    exact Int.ofNat_inj.mp ((trimmed.toNat_eq same.symm).trans (Int.zero_emod _))

theorem HasValue.zerop_eq {x : Int} (hasValue : HasValue num precision unsigned x) :
    numZerop num = decide (x = 0) := by
  rw [hasValue.trimmed.zerop_eq widths unsigned, hasValue.value]

theorem hasValue_ofBool (value : Bool) :
    HasValue (numOfBool part value) precision false value.toNat := by
  have positive : 0 < part := by
    have fits := widths.large.trans_le widths.fits
    omega
  have one : 1 < 2 ^ part := Nat.one_lt_two_pow positive.ne'
  have half : 1 < 2 ^ (precision - 1) := Nat.one_lt_two_pow (Nat.sub_ne_zero_of_lt widths.large)
  have double := two_pow_pred widths.positive
  have toNat : (numOfBool part value).toNat = value.toNat := by
    cases value <;> simp [numOfBool, CppNum.toNat, Nat.mod_eq_of_lt one]
  have small : value.toNat < 2 ^ (precision - 1) := (Bool.toNat_le value).trans_lt half
  refine ⟨by rw [CppNum.Trimmed, toNat]; omega, rfl, ?_⟩
  change CppNum.toInt precision _ = _
  rw [CppNum.toInt, toNat, if_pos small]

theorem numNegate_value (signedness : num.unsignedp = unsigned) :
    HasValue (numNegate num precision) precision unsigned
      (wrapTo precision unsigned (-num.value precision unsigned)) :=
  hasValue_of_modEq widths.positive (numNegate_trimmed widths.fits num)
    ((numNegate_unsignedp num precision).trans signedness)
    ((numNegate_modEq widths.fits num).trans (num.value_modEq unsigned).symm.neg)

theorem numCompl_value (signedness : num.unsignedp = unsigned) :
    HasValue (numUnaryOp num .compl precision) precision unsigned
      (wrapTo precision unsigned (-num.value precision unsigned - 1)) := by
  have parts : (CppNum.toNat { num with high := ~~~num.high, low := ~~~num.low } : Int) ≡
      -num.toNat - 1 [ZMOD (2 ^ (2 * part) : Nat)] := by
    have low := num.low.isLt
    have lowPart : ((~~~num.low).toNat : Int) = (2 ^ part : Nat) - 1 - num.low.toNat := by
      rw [BitVec.toNat_not]
      omega
    refine (parts_modEq _ lowPart (part_not_modEq num.high)).trans
      (Int.modEq_iff_dvd.mpr ⟨0, ?_⟩)
    rw [CppNum.toNat]
    push_cast
    ring
  obtain ⟨trimmed, isUnsigned, value⟩ := hasValue_of_modEq widths.positive
    (numTrim_trimmed widths.fits { num with high := ~~~num.high, low := ~~~num.low })
    ((numTrim_unsignedp _ _).trans signedness)
    ((numTrim_modEq widths.fits parts).trans ((num.value_modEq unsigned).symm.neg.sub rfl))
  exact ⟨trimmed, isUnsigned, value⟩

theorem seenDivisor_eq (divisor : Nat) : seenDivisor part precision divisor = divisor := by
  have whole := widths.whole
  rw [seenDivisor]
  split
  case isTrue both =>
      obtain ⟨above, small⟩ := both
      rw [show precision - part = part by omega, Nat.mod_eq_of_lt small]
  case isFalse => rfl

theorem divisionResult_value {left right : Int} (natural : unsigned = true → 0 ≤ left ∧ 0 ≤ right)
    {remainder quotient : CppNum part} (divides : quotient.toNat = left.natAbs / right.natAbs)
    (remains : remainder.toNat = left.natAbs % right.natAbs)
    (leftSmall : left.natAbs < 2 ^ precision) (signedness : quotient.unsignedp = unsigned) :
    HasValue (divisionResult .div unsigned (decide (left < 0)) (decide (right < 0)) precision
        remainder quotient) precision unsigned (wrapTo precision unsigned (left.tdiv right)) ∧
      HasValue (divisionResult .mod unsigned (decide (left < 0)) (decide (right < 0)) precision
        remainder quotient) precision unsigned (wrapTo precision unsigned (left.tmod right)) := by
  constructor
  · have trimmed : quotient.Trimmed precision := by
      rw [CppNum.Trimmed, divides]
      exact (Nat.div_le_self _ _).trans_lt leftSmall
    rw [divisionResult_div natural, tdiv_eq_withSign, ← divides]
    obtain ⟨trimmed, isUnsigned, value⟩ := hasValue_of_modEq widths.positive
      (applySign_trimmed widths.fits _ trimmed) ((applySign_unsignedp _ _ _).trans signedness)
      (applySign_modEq widths.fits _ quotient)
    exact ⟨trimmed, isUnsigned, value⟩
  · have trimmed : CppNum.Trimmed precision
        { remainder with unsignedp := unsigned, overflow := false } := by
      change remainder.toNat < _
      rw [remains]
      exact (Nat.mod_le _ _).trans_lt leftSmall
    have shape : divisionResult .mod unsigned (decide (left < 0)) (decide (right < 0)) precision
        remainder quotient = applySign (decide (left < 0))
          { remainder with unsignedp := unsigned, overflow := false } precision := by
      cases decide (left < 0) <;> rfl
    rw [shape, tmod_eq_withSign, ← remains]
    exact hasValue_of_modEq widths.positive (applySign_trimmed widths.fits _ trimmed)
      (applySign_unsignedp _ _ _) (applySign_modEq widths.fits _ _)

theorem numShift_trimmed (lhs rhs : CppNum part) (leftward : Bool) :
    (numShift lhs rhs leftward precision).Trimmed precision ∧
      (numShift lhs rhs leftward precision).unsignedp = lhs.unsignedp := by
  simp only [numShift_eq]
  split
  · exact ⟨numLshift_trimmed widths.fits _ _, numLshift_unsignedp _ _ _⟩
  · exact ⟨numRshift_trimmed widths.fits _ _, numRshift_unsignedp _ _ _⟩

theorem numShift_value (trimmed : lhs.Trimmed precision) (signedness : lhs.unsignedp = unsigned)
    {count : Int} (isCount : HasValue rhs precision rhs.unsignedp count) (nonneg : 0 ≤ count)
    (below : count < precision) (leftward : Bool) :
    HasValue (numShift lhs rhs leftward precision) precision unsigned
      (wrapTo precision unsigned (if leftward
        then lhs.value precision unsigned * (2 ^ count.toNat : Nat)
        else lhs.value precision unsigned / (2 ^ count.toNat : Nat))) := by
  obtain ⟨magnitude, sign⟩ := numMagnitude_toNat widths.positive widths.fits isCount.trimmed
    rhs.unsignedp
  rw [isCount.value] at magnitude sign
  rw [decide_eq_false (not_lt.mpr nonneg)] at sign
  have small : (numMagnitude rhs rhs.unsignedp precision).1.toNat < 2 ^ part := by
    have wide := widths.wide
    omega
  have high : ((numMagnitude rhs rhs.unsignedp precision).1.high != 0) = false := by
    rw [part_bne_zero_iff, CppNum.high_toNat, Nat.div_eq_of_lt small]
  have low : (numMagnitude rhs rhs.unsignedp precision).1.low.toNat = count.toNat := by
    rw [CppNum.low_toNat, Nat.mod_eq_of_lt small, magnitude]
    omega
  simp only [numShift_eq, sign, high, low]
  subst signedness
  cases leftward with
  | true =>
    refine hasValue_of_modEq widths.positive (numLshift_trimmed widths.fits lhs _)
      (numLshift_unsignedp lhs precision _) ?_
    change ((numLshift lhs precision count.toNat).toNat : Int) ≡ _ [ZMOD _]
    rw [numLshift_toNat widths.fits, Int.natCast_mod, Int.natCast_mul]
    exact (Int.mod_modEq _ _).trans ((lhs.value_modEq lhs.unsignedp).symm.mul_right _)
  | false =>
    refine hasValue_of_modEq widths.positive (numRshift_trimmed widths.fits lhs _)
      (numRshift_unsignedp lhs precision _) ?_
    change ((numRshift lhs precision count.toNat).toNat : Int) ≡ _ [ZMOD _]
    rw [numRshift_toNat widths.positive widths.fits trimmed]
    exact Int.mod_modEq _ _

variable {x y : Int} (operands : Operands lhs rhs precision unsigned x y)
include operands

theorem numPlus_value :
    HasValue (numPlus lhs rhs precision) precision unsigned (wrapTo precision unsigned (x + y)) :=
  hasValue_of_modEq widths.positive (numPlus_trimmed widths.fits lhs rhs)
    ((numPlus_unsignedp lhs rhs precision).trans operands.usual)
    ((numPlus_modEq widths.fits lhs rhs).trans (operands.modEq.1.add operands.modEq.2))

theorem numMinus_value : HasValue (numBinaryOp lhs rhs .minus precision) precision unsigned
    (wrapTo precision unsigned (x - y)) := by
  rw [Int.sub_eq_add_neg]
  exact hasValue_of_modEq widths.positive (numPlus_trimmed widths.fits lhs _)
    ((numPlus_unsignedp lhs _ precision).trans
      ((numNegate_unsignedp rhs precision).symm ▸ operands.usual))
    ((numPlus_modEq widths.fits lhs _).trans (operands.modEq.1.add
      ((numNegate_modEq widths.fits rhs).trans operands.modEq.2.neg)))

theorem numMul_value :
    HasValue (numMul lhs rhs precision) precision unsigned (wrapTo precision unsigned (x * y)) := by
  have value := numMul_computes_value widths.positive widths.fits widths.even operands.lhsTrimmed
    operands.rhsTrimmed unsigned operands.usual.symm
  rw [operands.lhsValue, operands.rhsValue] at value
  refine hasValue_of_modEq widths.positive ?_ operands.usual (value ▸ Int.mod_modEq _ _)
  have bound := Int.emod_lt_of_pos (x * y) (Int.natCast_pos.mpr (Nat.two_pow_pos precision))
  rw [← value] at bound
  exact Int.ofNat_lt.mp bound

theorem numBitwiseOp_value (op : Op) : HasValue (numBitwiseOp lhs rhs op) precision unsigned
    (wrapTo precision unsigned (op.bits (lhs.word precision) (rhs.word precision)).toNat) := by
  have toNat : (numBitwiseOp lhs rhs op).toNat =
      (op.bits (lhs.word precision) (rhs.word precision)).toNat := by
    have bit : ∀ {num : CppNum part}, num.Trimmed precision → ∀ i,
        (num.word precision).getLsbD i = num.toNat.testBit i := by
      intro num trimmed i
      rw [BitVec.getLsbD, trimmed.word_toNat]
    apply Nat.eq_of_testBit_eq
    intro i
    have lhsBit := bit operands.lhsTrimmed i
    have rhsBit := bit operands.rhsTrimmed i
    rw [CppNum.toNat_testBit] at lhsBit rhsBit ⊢
    rw [BitVec.testBit_toNat, Op.bits, numBitwiseOp]
    split_ifs at lhsBit rhsBit ⊢ <;> simp [lhsBit, rhsBit]
  refine hasValue_of_modEq widths.positive ?_ ?_ (by rw [toNat])
  · rw [CppNum.Trimmed, toNat]
    exact BitVec.isLt _
  · rw [← operands.usual]
    unfold numBitwiseOp
    split_ifs <;> rfl

theorem numGreaterEq_eq : numGreaterEq lhs rhs precision = decide (y ≤ x) := by
  have magnitude := numGreaterEq_iff { lhs with unsignedp := true } rhs precision rfl
  have lhsSign := numPositive_iff widths.positive widths.fits operands.lhsTrimmed
  have rhsSign := numPositive_iff widths.positive widths.fits operands.rhsTrimmed
  have lhsBelow : lhs.toNat < 2 ^ precision := operands.lhsTrimmed
  have rhsBelow : rhs.toNat < 2 ^ precision := operands.rhsTrimmed
  change _ ↔ rhs.toNat ≤ lhs.toNat at magnitude
  rw [Bool.eq_iff_iff, decide_eq_true_iff, ← operands.lhsValue, ← operands.rhsValue]
  simp only [numGreaterEq, Bool.true_or, if_true, operands.usual] at magnitude ⊢
  cases unsigned with
  | true =>
    rw [if_pos rfl, magnitude]
    exact Int.ofNat_le.symm
  | false =>
    rw [if_neg Bool.false_ne_true]
    change _ ↔ rhs.toInt precision ≤ lhs.toInt precision
    rw [CppNum.toInt, CppNum.toInt]
    cases lhsPositive : numPositive lhs precision <;>
      cases rhsPositive : numPositive rhs precision <;>
      simp only [lhsPositive, rhsPositive, Bool.false_eq_true, false_iff, true_iff, not_lt]
        at lhsSign rhsSign <;>
      simp only [bne_self_eq_false, Bool.true_bne, Bool.false_bne, Bool.not_false,
        Bool.false_eq_true, if_true, if_false, magnitude, true_iff, false_iff] <;>
      split_ifs <;> omega

theorem numEq_eq : numEq lhs rhs = decide (x = y) := by
  rw [Bool.eq_iff_iff, numEq_iff, decide_eq_true_iff, ← operands.lhsValue, ← operands.rhsValue,
    value_eq_iff widths.positive operands.lhsTrimmed operands.rhsTrimmed]

theorem numInequalityOp_eq :
    numInequalityOp lhs rhs .greaterEq precision = numOfBool part (decide (y ≤ x)) ∧
      numInequalityOp lhs rhs .less precision = numOfBool part (decide (x < y)) ∧
      numInequalityOp lhs rhs .greater precision = numOfBool part (decide (y < x)) ∧
      numInequalityOp lhs rhs .lessEq precision = numOfBool part (decide (x ≤ y)) := by
  simp only [numInequalityOp, numGreaterEq_eq widths operands, numEq_eq widths operands,
    reduceCtorEq, if_true, if_false]
  refine ⟨trivial, congrArg _ ?_, congrArg _ ?_, congrArg _ ?_⟩
  · rw [← decide_not]
    exact decide_eq_decide.mpr not_le
  · rw [← decide_not, ← Bool.decide_and]
    exact decide_eq_decide.mpr (lt_iff_le_and_ne.trans (and_congr_right' ne_comm)).symm
  · rw [← decide_not, ← Bool.decide_or]
    exact decide_eq_decide.mpr ((or_congr_left not_le).trans le_iff_lt_or_eq.symm)

theorem numExtremes_value :
    HasValue (numBinaryOp lhs rhs .min precision) precision unsigned (if x < y then x else y) ∧
      HasValue (numBinaryOp lhs rhs .max precision) precision unsigned
        (if x < y then y else x) := by
  simp only [numBinaryOp, numGreaterEq_eq widths operands]
  obtain ⟨lhsTrimmed, rhsTrimmed, usual, lhsValue, rhsValue⟩ := operands
  by_cases less : x < y
  · rw [decide_eq_false (not_le.mpr less), if_pos less, if_pos less]
    exact ⟨⟨lhsTrimmed, usual, lhsValue⟩, ⟨rhsTrimmed, usual, rhsValue⟩⟩
  · rw [decide_eq_true (not_lt.mp less), if_neg less, if_neg less]
    exact ⟨⟨rhsTrimmed, usual, rhsValue⟩, ⟨lhsTrimmed, usual, lhsValue⟩⟩

/-- A quotient or a remainder.  For a divisor of zero it is the magnitude of the dividend, which
keeps its own signedness. -/
theorem numDivOp_value {op : Op} (operator : op = .div ∨ op = .mod) :
    ∃ num, numDivOp lhs rhs op precision = some num ∧ num.Trimmed precision ∧
      (y = 0 → num.unsignedp = lhs.unsignedp) ∧
      (y ≠ 0 → HasValue num precision unsigned
        (wrapTo precision unsigned (if op = .div then x.tdiv y else x.tmod y))) := by
  obtain ⟨lhsTrimmed, rhsTrimmed, usual, rfl, rfl⟩ := operands
  have positive := widths.positive
  have dividend := numMagnitude_toNat positive widths.fits lhsTrimmed unsigned
  have divisor := numMagnitude_toNat positive widths.fits rhsTrimmed unsigned
  have leftSmall := CppNum.value_natAbs_lt positive lhsTrimmed unsigned
  have rightSmall := CppNum.value_natAbs_lt positive rhsTrimmed unsigned
  rw [← dividend.1] at leftSmall
  rw [← divisor.1] at rightSmall
  have natural : unsigned = true →
      0 ≤ lhs.value precision unsigned ∧ 0 ≤ rhs.value precision unsigned := by
    rintro rfl
    exact ⟨lhs.value_nonneg, rhs.value_nonneg⟩
  have division := numDivOp_eq lhs rhs op precision
  simp only [usual, dividend.2, divisor.2, parts_zero, divisor.1, Int.natAbs_eq_zero] at division
  by_cases zero : rhs.value precision unsigned = 0
  · rw [decide_eq_true zero, if_pos rfl] at division
    exact ⟨_, division, leftSmall, fun _ => numMagnitude_unsignedp _ _ _,
      fun nonzero => absurd zero nonzero⟩
  · rw [decide_eq_false zero, if_neg Bool.false_ne_true] at division
    have outcome := divideMagnitudes_eq positive widths.fits leftSmall rightSmall unsigned
    rw [seenDivisor_eq widths, dividend.1, divisor.1] at outcome
    obtain ⟨vanishes, -⟩ | ⟨-, remainder, quotient, ends, remains, divides, signedness⟩ := outcome
    · exact absurd (Int.natAbs_eq_zero.mp vanishes) zero
    · rw [ends] at division
      rw [dividend.1] at leftSmall
      obtain ⟨isQuotient, isRemainder⟩ :=
        divisionResult_value widths natural divides remains leftSmall signedness
      refine ⟨_, division, ?_, fun vanishes => absurd vanishes zero, fun _ => ?_⟩
      · obtain rfl | rfl := operator
        · exact isQuotient.trimmed
        · exact isRemainder.trimmed
      · obtain rfl | rfl := operator
        · exact isQuotient
        · exact isRemainder

end

end GccCil.Libcpp
