import GccCil.Gcc.LongDivision
import GccCil.Gcc.RangeSoundness

/-!
# The rounding of two-word division

`div_and_round_double` refines the division of integers that the value ranges
are computed with: its quotient and its remainder are those of the integers,
modulo the two words.  With that the directed divisions are exact, and the
division to nearest is exact where its test is.
-/

namespace GccCil.Gcc.FoldConst

open GccCil.Lib DoubleInt

variable {half : Nat}

def DivCode.rounding : DivCode → Vrp.ArithCode
  | .truncDiv | .truncMod => .truncDiv
  | .floorDiv | .floorMod => .floorDiv
  | .ceilDiv | .ceilMod => .ceilDiv
  | .roundDiv | .roundMod => .roundDiv
  | .exactDiv => .exactDiv

theorem value_neg_iff (uns : Bool) (x : DoubleInt (2 * half)) :
    (!uns && x.high.slt 0#_) = true ↔ x.value uns < 0 := by
  cases uns with
  | true => simp
  | false =>
    rw [BitVec.slt_zero_eq_msb, Bool.not_false, Bool.true_and, msb_iff]
    rfl

theorem two_lt_modulus (positive : 0 < half) : 2 < 2 ^ (2 * (2 * half)) := by
  calc 2 < 2 ^ 2 := by decide
    _ ≤ 2 ^ (2 * (2 * half)) := Nat.pow_le_pow_right (by decide) (by omega)

theorem toNat_magnitude (positive : 0 < half) (uns : Bool) (x : DoubleInt (2 * half)) :
    (if !uns && x.high.slt 0#_ then (negDouble x).1 else x).toNat = (x.value uns).natAbs := by
  have fits := value_inRange (show 0 < 2 * half by omega) uns x
  by_cases negative : (!uns && x.high.slt 0#_) = true
  · rw [if_pos negative]
    rw [value_neg_iff] at negative
    cases uns with
    | true => exact absurd negative (not_lt.mpr (Int.natCast_nonneg _))
    | false =>
      rw [inRange_signed] at fits
      zify
      rw [negDouble_value false, toNat_ofInt, abs_of_neg negative]
      exact Int.emod_eq_of_lt (by omega) (by omega)
  · rw [if_neg negative]
    rw [value_neg_iff] at negative
    zify
    rw [abs_of_nonneg (not_lt.mp negative)]
    cases uns with
    | true => rfl
    | false =>
      have nonneg : ¬ x.high.msb = true := fun sign => negative (x.msb_iff.mp sign)
      rw [value_signed, toInt_eq, if_neg nonneg]

theorem signed_quotient (positive : 0 < half) (uns : Bool) (num den : DoubleInt (2 * half))
    (nonzero : den.value uns ≠ 0) :
    let numNeg := !uns && num.high.slt 0#_
    let denNeg := !uns && den.high.slt 0#_
    let quo := divideMagnitudes (if numNeg then (negDouble num).1 else num)
      (if denNeg then (negDouble den).1 else den)
    (if numNeg != denNeg then (negDouble quo).1 else quo) =
      ofInt (2 * half) ((num.value uns).tdiv (den.value uns)) := by
  intro numNeg denNeg quo
  have magnitude : quo =
      ofInt (2 * half) (((num.value uns).natAbs : Int).tdiv (den.value uns).natAbs) := by
    rw [eq_ofInt_iff, divideMagnitudes_spec positive (by
      rw [toNat_magnitude positive]
      exact Int.natAbs_ne_zero.mpr nonzero), toNat_magnitude positive, toNat_magnitude positive]
    rfl
  have signOf (x : DoubleInt (2 * half)) : x.value uns =
      if !uns && x.high.slt 0#_ then -((x.value uns).natAbs : Int) else (x.value uns).natAbs := by
    by_cases negative : (!uns && x.high.slt 0#_) = true
    · rw [if_pos negative]
      rw [value_neg_iff] at negative
      omega
    · rw [if_neg negative]
      rw [value_neg_iff] at negative
      omega
  rw [signOf num, signOf den, magnitude]
  change _ = ofInt _ (Int.tdiv (if numNeg = true then _ else _) (if denNeg = true then _ else _))
  cases numNeg <;> cases denNeg <;>
    simp [negDouble_ofInt, Int.neg_tdiv, Int.tdiv_neg]

theorem remainder_ofInt (positive : 0 < half) (uns : Bool) (num den : DoubleInt (2 * half))
    (quo : Int) :
    remainder num (ofInt (2 * half) quo) den =
      ofInt (2 * half) (num.value uns - quo * den.value uns) := by
  have product : (mulDouble (ofInt (2 * half) quo) den).1 =
      ofInt (2 * half) (quo * den.value uns) := by
    conv_lhs => rw [← ofInt_value uns den]
    exact mulDouble_ofInt positive _ _
  rw [remainder, product, negDouble_ofInt]
  conv_lhs => rw [← ofInt_value uns num]
  rw [addDouble_ofInt, sub_eq_add_neg]

theorem stepDown_ofInt (quo : Int) :
    stepDown (ofInt (2 * half) quo) = ofInt (2 * half) (quo - 1) := by
  rw [stepDown, ← ofInt_neg_one, addDouble_ofInt, sub_eq_add_neg]

theorem stepUp_ofInt (positive : 0 < half) (quo : Int) :
    stepUp (ofInt (2 * half) quo) = ofInt (2 * half) (quo + 1) := by
  have one : ofInt (2 * half) ((1 : Nat) : Int) = { low := 1#_, high := 0#_ } :=
    ofInt_natCast (Nat.one_lt_two_pow (by omega))
  rw [stepUp, ← one, addDouble_ofInt]
  rfl

theorem slt_ofInt (positive : 0 < half) (i : Int) :
    (ofInt (2 * half) i).high.slt 0#_ = decide (Vrp.signedDouble (2 * half) i < 0) := by
  rw [Bool.eq_iff_iff, decide_eq_true_iff, BitVec.slt_zero_eq_msb, msb_iff, ← value_signed,
    value_ofInt (show 0 < 2 * half by omega)]
  rfl

theorem toNat_ofInt_eq (i : Int) :
    ((ofInt (2 * half) i).toNat : Int) = Vrp.unsignedDouble (2 * half) i :=
  toNat_ofInt i

theorem absolute_ofInt (positive : 0 < half) (i : Int) :
    (if (ofInt (2 * half) i).high.slt 0#_ then (negDouble (ofInt (2 * half) i)).1
      else ofInt (2 * half) i) =
      ofInt (2 * half) (if Vrp.signedDouble (2 * half) i < 0 then -i else i) := by
  rw [slt_ofInt positive, negDouble_ofInt]
  split <;> rename_i sign <;> simp only [decide_eq_true_eq] at sign <;> simp [sign]

theorem roundsAway_ofInt (positive : 0 < half) (rem den : Int) :
    roundsAway (ofInt (2 * half) rem) (ofInt (2 * half) den) =
      decide (Vrp.unsignedDouble (2 * half)
          (if Vrp.signedDouble (2 * half) den < 0 then -den else den) <
        Vrp.unsignedDouble (2 * half)
          (2 * if Vrp.signedDouble (2 * half) rem < 0 then -rem else rem)) := by
  have two : ofInt (2 * half) ((2 : Nat) : Int) = { low := 2#_, high := 0#_ } :=
    ofInt_natCast (by
      calc 2 < 2 ^ 2 := by decide
        _ ≤ 2 ^ (2 * half) := Nat.pow_le_pow_right (by decide) (by omega))
  rw [roundsAway, absolute_ofInt positive, absolute_ofInt positive]
  rw [← two, mulDouble_ofInt positive, Bool.eq_iff_iff, decide_eq_true_iff, decide_eq_true_iff,
    ← toNat_lt_toNat_iff, ← Int.ofNat_lt, toNat_ofInt_eq, toNat_ofInt_eq]
  rfl

theorem clear_ofInt_iff {rem : Int}
    (small : |rem| < (2 ^ (2 * (2 * half)) : Nat)) :
    ((ofInt (2 * half) rem).low = 0#_ ∧ (ofInt (2 * half) rem).high = 0#_) ↔ rem = 0 := by
  have zero : ofInt (2 * half) rem = ofInt (2 * half) 0 ↔
      (ofInt (2 * half) rem).low = 0#_ ∧ (ofInt (2 * half) rem).high = 0#_ := by
    rw [ofInt_zero, DoubleInt.ext_iff]
  rw [← zero, ofInt_eq_ofInt_iff, Int.modEq_zero_iff_dvd]
  constructor
  · exact fun divides => Int.eq_zero_of_abs_lt_dvd divides small
  · rintro rfl
    exact dvd_zero _

theorem abs_tmod_lt (positive : 0 < half) (uns : Bool) (num den : DoubleInt (2 * half))
    (nonzero : den.value uns ≠ 0) :
    |(num.value uns).tmod (den.value uns)| < (2 ^ (2 * (2 * half)) : Nat) := by
  have fits := value_inRange (show 0 < 2 * half by omega) uns den
  have bounded : |den.value uns| ≤ (2 ^ (2 * (2 * half)) : Nat) := by
    rw [abs_le]
    cases uns with
    | true =>
      rw [inRange_unsigned] at fits
      omega
    | false =>
      rw [inRange_signed] at fits
      omega
  exact (Vrp.tmod_bounds nonzero).1.trans_le bounded

theorem sign_eq_decide (uns : Bool) (x : DoubleInt (2 * half)) :
    (!uns && x.high.slt 0#_) = decide (x.value uns < 0) := by
  rw [Bool.eq_iff_iff, value_neg_iff, decide_eq_true_iff]

theorem quoNeg_eq (uns : Bool) (num den : DoubleInt (2 * half)) :
    ((!uns && num.high.slt 0#_) != (!uns && den.high.slt 0#_)) =
      Vrp.quoNeg uns (num.value uns) (den.value uns) := by
  rw [sign_eq_decide, sign_eq_decide, Vrp.quoNeg]
  cases uns with
  | true =>
    rw [value_unsigned, value_unsigned, decide_eq_false (not_lt.mpr (Int.natCast_nonneg _)),
      decide_eq_false (not_lt.mpr (Int.natCast_nonneg _))]
    rfl
  | false => rw [Bool.not_false, Bool.true_and]

theorem magnitude_eq (positive : 0 < half) (uns : Bool) (den : DoubleInt (2 * half)) :
    (if !uns && den.high.slt 0#_ then (negDouble den).1 else den) =
      ofInt (2 * half) (if uns then den.value uns else |den.value uns|) := by
  rw [eq_ofInt_iff, toNat_magnitude positive, Int.natCast_natAbs]
  cases uns with
  | true =>
    rw [if_pos rfl, value_unsigned, abs_of_nonneg (Int.natCast_nonneg _)]
  | false => rw [if_neg (by decide)]

theorem ite_some_getD {α : Type*} (condition : Prop) [Decidable condition] (new old : α) :
    (if condition then some new else none).getD old = if condition then new else old := by
  split <;> rfl

theorem roundQuotient_spec (positive : 0 < half) (code : DivCode) (uns : Bool)
    (num den : DoubleInt (2 * half)) (nonzero : den.value uns ≠ 0) :
    (roundQuotient code ((!uns && num.high.slt 0#_) != (!uns && den.high.slt 0#_))
        (ofInt (2 * half) ((num.value uns).tdiv (den.value uns)))
        (ofInt (2 * half) ((num.value uns).tmod (den.value uns)))
        (if !uns && den.high.slt 0#_ then (negDouble den).1 else den)).getD
          (ofInt (2 * half) ((num.value uns).tdiv (den.value uns))) =
      ofInt (2 * half)
        (Vrp.divAndRoundDouble (2 * half) uns code.rounding (num.value uns) (den.value uns)) := by
  have clear_ := clear_ofInt_iff (abs_tmod_lt positive uns num den nonzero)
  rw [quoNeg_eq, magnitude_eq positive]
  generalize num.value uns = x at *
  generalize den.value uns = y at *
  have floor : (if Vrp.quoNeg uns x y = true ∧ ¬ x.tmod y = 0 then
      some (stepDown (ofInt (2 * half) (x.tdiv y))) else none).getD (ofInt (2 * half) (x.tdiv y)) =
      ofInt (2 * half) (Vrp.divAndRoundDouble (2 * half) uns .floorDiv x y) := by
    change _ = ofInt _ (if Vrp.quoNeg uns x y = true ∧ x.tmod y ≠ 0 then x.tdiv y - 1 else x.tdiv y)
    rw [stepDown_ofInt]
    split <;> rfl
  have ceiling : (if (!Vrp.quoNeg uns x y) = true ∧ ¬ x.tmod y = 0 then
      some (stepUp (ofInt (2 * half) (x.tdiv y))) else none).getD (ofInt (2 * half) (x.tdiv y)) =
      ofInt (2 * half) (Vrp.divAndRoundDouble (2 * half) uns .ceilDiv x y) := by
    change _ = ofInt _ (if Vrp.quoNeg uns x y = false ∧ x.tmod y ≠ 0 then x.tdiv y + 1 else x.tdiv y)
    rw [stepUp_ofInt positive]
    simp only [Bool.not_eq_true']
    split <;> rfl
  have nearest : (if roundsAway (ofInt (2 * half) (x.tmod y))
        (ofInt (2 * half) (if uns = true then y else |y|)) = true then
      some (if (ofInt (2 * half) (x.tdiv y)).high.slt 0#_ = true then
        stepDown (ofInt (2 * half) (x.tdiv y)) else stepUp (ofInt (2 * half) (x.tdiv y)))
      else none).getD (ofInt (2 * half) (x.tdiv y)) =
      ofInt (2 * half) (Vrp.divAndRoundDouble (2 * half) uns .roundDiv x y) := by
    rw [stepUp_ofInt positive, stepDown_ofInt, slt_ofInt positive, roundsAway_ofInt positive]
    simp only [Vrp.divAndRoundDouble, decide_eq_true_eq]
    rw [ite_some_getD, apply_ite (ofInt (2 * half)), apply_ite (ofInt (2 * half))]
  cases code with
  | truncDiv => rfl
  | truncMod => rfl
  | exactDiv => rfl
  | floorDiv => simpa only [roundQuotient, clear_, DivCode.rounding] using floor
  | floorMod => simpa only [roundQuotient, clear_, DivCode.rounding] using floor
  | ceilDiv => simpa only [roundQuotient, clear_, DivCode.rounding] using ceiling
  | ceilMod => simpa only [roundQuotient, clear_, DivCode.rounding] using ceiling
  | roundDiv => exact nearest
  | roundMod => exact nearest

theorem value_ne_zero_iff (uns : Bool) (x : DoubleInt (2 * half)) :
    x.value uns ≠ 0 ↔ ¬ (x.high = 0#_ ∧ x.low = 0#_) := by
  rw [ne_eq, not_iff_not, and_comm]
  constructor
  · intro zero
    have stored := ofInt_value uns x
    rw [zero, ofInt_zero] at stored
    rw [← stored]
    exact ⟨rfl, rfl⟩
  · rintro ⟨low, high⟩
    cases uns <;> simp [DoubleInt.value, DoubleInt.toNat, DoubleInt.toInt, low, high]

theorem divAndRoundDouble_refines (positive : 0 < half) (code : DivCode) (uns : Bool)
    (num den : DoubleInt (2 * half)) (nonzero : den.value uns ≠ 0) :
    let quo := Vrp.divAndRoundDouble (2 * half) uns code.rounding (num.value uns) (den.value uns)
    (divAndRoundDouble code uns num den).quo = ofInt (2 * half) quo ∧
      (divAndRoundDouble code uns num den).rem =
        ofInt (2 * half) (num.value uns - quo * den.value uns) := by
  have notZero := (value_ne_zero_iff uns den).mp nonzero
  have quotient := signed_quotient positive uns num den nonzero
  have rounded := roundQuotient_spec positive code uns num den nonzero
  have trial : remainder num (ofInt (2 * half) ((num.value uns).tdiv (den.value uns))) den =
      ofInt (2 * half) ((num.value uns).tmod (den.value uns)) := by
    rw [remainder_ofInt positive uns, Int.tmod_def, mul_comm (Int.tdiv _ _)]
  intro quo
  rw [← remainder_ofInt positive]
  dsimp only at quotient
  simp only [divAndRoundDouble, notZero, decide_false, Bool.false_eq_true, if_false, quotient,
    trial]
  rw [← rounded]
  split <;> rename_i adjusted
  · rw [adjusted]
    exact ⟨rfl, trial.symm⟩
  · rw [adjusted]
    exact ⟨rfl, rfl⟩

theorem divAndRoundDouble_overflow (positive : 0 < half) (code : DivCode) (uns : Bool)
    (num den : DoubleInt (2 * half)) (nonzero : den.value uns ≠ 0) :
    (divAndRoundDouble code uns num den).overflow = true ↔
      uns = false ∧ 2 * num.toInt = -(2 ^ (2 * (2 * half)) : Nat) ∧ den.toInt = -1 := by
  have wordPositive : 0 < 2 * half := by omega
  have notZero := (value_ne_zero_iff uns den).mp nonzero
  have modulus := Nat.two_pow_pos (2 * (2 * half))
  have minusOne : (den.low &&& den.high == BitVec.allOnes (2 * half)) = true ↔ den.toInt = -1 := by
    have fits : InRange false (2 * (2 * half)) (-1) := by
      rw [inRange_signed]
      have := two_lt_modulus positive
      omega
    rw [beq_iff_eq, BitVec.and_eq_allOnes_iff, ← BitVec.neg_one_eq_allOnes]
    constructor
    · rintro ⟨low, high⟩
      have stored : den = ofInt (2 * half) (-1) := by
        rw [ofInt_neg_one, DoubleInt.ext_iff]
        exact ⟨low, high⟩
      rw [stored]
      exact value_ofInt_of_inRange wordPositive fits
    · intro value
      have stored := ofInt_toInt den
      rw [value, ofInt_neg_one] at stored
      rw [← stored]
      exact ⟨rfl, rfl⟩
  have flag : (divAndRoundDouble code uns num den).overflow =
      (!uns && num.high.slt 0#_ && (negDouble num).2 &&
        (den.low &&& den.high == BitVec.allOnes (2 * half))) := by
    simp only [divAndRoundDouble, notZero, decide_false, Bool.false_eq_true, if_false,
      Bool.false_or]
    split <;> rfl
  rw [flag, Bool.and_eq_true, Bool.and_eq_true, minusOne, negDouble_overflow wordPositive,
    value_neg_iff]
  cases uns with
  | true => simp
  | false =>
    rw [value_signed]
    constructor
    · exact fun ⟨⟨_, least⟩, divisor⟩ => ⟨rfl, least, divisor⟩
    · exact fun ⟨_, least, divisor⟩ => ⟨⟨by omega, least⟩, divisor⟩

theorem quotient_inRange_iff (positive : 0 < half) (code : Vrp.ArithCode)
    (num den : DoubleInt (2 * half)) (nonzero : den.toInt ≠ 0) :
    ¬ InRange false (2 * (2 * half)) (Vrp.roundRatio code ((num.toInt : ℚ) / den.toInt)) ↔
      2 * num.toInt = -(2 ^ (2 * (2 * half)) : Nat) ∧ den.toInt = -1 := by
  have fits := (inRange_signed _ _).mp (value_inRange (show 0 < 2 * half by omega) false num)
  have modulus := two_lt_modulus positive
  rw [value_signed] at fits
  have magnitude := abs_le.mp (Vrp.exactValue_div_abs code num.toInt den.toInt)
  rw [inRange_signed]
  constructor
  · intro outside
    have least : 2 * num.toInt = -(2 ^ (2 * (2 * half)) : Nat) := by
      rcases abs_cases num.toInt with ⟨same, _⟩ | ⟨same, _⟩ <;> omega
    refine ⟨least, ?_⟩
    by_contra other
    obtain ⟨quarter, quarterEq⟩ : 4 ∣ 2 ^ (2 * (2 * half)) :=
      (pow_dvd_pow 2 (show 2 ≤ 2 * (2 * half) by omega))
    have ratio : (num.toInt : ℚ) / den.toInt ≤ ((quarter : Int) : ℚ) := by
      have dividend : (num.toInt : ℚ) = -2 * (quarter : Int) := by
        have : num.toInt = -2 * (quarter : Int) := by omega
        exact_mod_cast this
      have nonneg : (0 : ℚ) ≤ (quarter : Int) := by positivity
      rcases lt_or_gt_of_ne nonzero with negative | above
      · have divisor : (den.toInt : ℚ) ≤ -2 := by
          exact_mod_cast (show den.toInt ≤ -2 by omega)
        rw [div_le_iff_of_neg (by linarith), dividend]
        nlinarith
      · have divisor : (0 : ℚ) < den.toInt := by exact_mod_cast above
        exact (div_nonpos_of_nonpos_of_nonneg (by linarith) divisor.le).trans nonneg
    have bound := Vrp.roundRatio_mono code ratio
    rw [Vrp.roundRatio_intCast] at bound
    rw [abs_of_neg (show num.toInt < 0 by omega)] at magnitude
    omega
  · rintro ⟨least, minusOne⟩
    rw [minusOne]
    have ratio : ((num.toInt : Int) : ℚ) / ((-1 : Int) : ℚ) = ((-num.toInt : Int) : ℚ) := by
      push_cast
      rw [div_neg, div_one]
    rw [ratio, Vrp.roundRatio_intCast]
    omega

/-- Truncating, flooring, ceiling and exact division are exact, and overflow is
reported for the quotient that is not representable. -/
theorem directedDivision_exact (positive : 0 < half) (code : DivCode) (uns : Bool)
    (num den : DoubleInt (2 * half)) (directed : code.rounding ≠ .roundDiv)
    (nonzero : den.value uns ≠ 0) :
    let quo := Vrp.roundRatio code.rounding ((num.value uns : ℚ) / den.value uns)
    let result := divAndRoundDouble code uns num den
    result.quo = ofInt (2 * half) quo ∧
      result.rem = ofInt (2 * half) (num.value uns - quo * den.value uns) ∧
      (result.overflow = true ↔ uns = false ∧ ¬ InRange false (2 * (2 * half)) quo) ∧
      (result.overflow = true ↔
        uns = false ∧ 2 * num.toInt = -(2 ^ (2 * (2 * half)) : Nat) ∧ den.toInt = -1) := by
  intro quo result
  have plain : uns = true → 0 ≤ num.value uns ∧ 0 ≤ den.value uns := by
    rintro rfl
    exact ⟨Int.natCast_nonneg _, Int.natCast_nonneg _⟩
  have rounded : Vrp.divAndRoundDouble (2 * half) uns code.rounding (num.value uns)
      (den.value uns) = quo := by
    cases code with
    | truncDiv => exact Vrp.tdiv_eq_roundRatio nonzero
    | truncMod => exact Vrp.tdiv_eq_roundRatio nonzero
    | exactDiv => exact Vrp.tdiv_eq_roundRatio nonzero
    | floorDiv => exact Vrp.floorDiv_eq_roundRatio nonzero plain
    | floorMod => exact Vrp.floorDiv_eq_roundRatio nonzero plain
    | ceilDiv => exact Vrp.ceilDiv_eq_roundRatio nonzero plain
    | ceilMod => exact Vrp.ceilDiv_eq_roundRatio nonzero plain
    | roundDiv => exact absurd rfl directed
    | roundMod => exact absurd rfl directed
  obtain ⟨quotient, remainder⟩ := divAndRoundDouble_refines positive code uns num den nonzero
  rw [rounded] at quotient remainder
  have overflow := divAndRoundDouble_overflow positive code uns num den nonzero
  refine ⟨quotient, remainder, ?_, overflow⟩
  rw [overflow]
  cases uns with
  | true => simp
  | false =>
    exact and_congr_right fun _ =>
      (quotient_inRange_iff positive code.rounding num den nonzero).symm

theorem directedDivision_exact_floor :
    let num := ofInt (2 * 32) (-(2 ^ 127))
    let den := ofInt (2 * 32) (2 ^ 64 + 1)
    let quo := Vrp.roundRatio (DivCode.rounding .floorDiv)
      ((num.value false : ℚ) / den.value false)
    let result := divAndRoundDouble .floorDiv false num den
    result.quo = ofInt (2 * 32) quo ∧
      result.rem = ofInt (2 * 32) (num.value false - quo * den.value false) ∧
      (result.overflow = true ↔ false = false ∧ ¬ InRange false (2 * (2 * 32)) quo) ∧
      (result.overflow = true ↔
        false = false ∧ 2 * num.toInt = -(2 ^ (2 * (2 * 32)) : Nat) ∧ den.toInt = -1) :=
  directedDivision_exact (by decide) .floorDiv false _ _ (by decide) (by decide)

end GccCil.Gcc.FoldConst
