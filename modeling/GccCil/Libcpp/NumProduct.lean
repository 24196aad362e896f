import GccCil.Libcpp.NumArithmetic
import Mathlib.Tactic.LinearCombination
import Mathlib.Tactic.Zify

/-!
# Preprocessor multiplication

The product of two parts is exact.  That of two numbers adds the crossed
products to its high part; what these additions carry out of it is not noticed
by the overflow flag.
-/

namespace GccCil.Libcpp

variable {part : Nat}

section Halves

variable {half : Nat}

theorem lowPart_toNat (even : part = half + half) (x : BitVec part) :
    (lowPart x).toNat = x.toNat % 2 ^ half := by
  have mask : ((~~~0 : BitVec part) >>> (part / 2)).toNat = 2 ^ half - 1 := by
    rw [show part / 2 = part - half by omega]
    exact ones_shift_toNat (by omega)
  rw [lowPart, BitVec.toNat_and, mask, Nat.and_two_pow_sub_one_eq_mod]

theorem highPart_toNat (even : part = half + half) (x : BitVec part) :
    (highPart x).toNat = x.toNat / 2 ^ half := by
  rw [highPart, BitVec.toNat_ushiftRight, Nat.shiftRight_eq_div_pow,
    show part / 2 = half by omega]

theorem two_pow_halves (even : part = half + half) : 2 ^ part = 2 ^ half * 2 ^ half := by
  rw [even, pow_add]

theorem half_mul_toNat (even : part = half + half) {x y : BitVec part}
    (first : x.toNat < 2 ^ half) (second : y.toNat < 2 ^ half) :
    (x * y).toNat = x.toNat * y.toNat := by
  have inside := Nat.mul_lt_mul'' first second
  rw [← two_pow_halves even] at inside
  rw [BitVec.toNat_mul, Nat.mod_eq_of_lt inside]

theorem half_shift_toNat (even : part = half + half) {x : BitVec part}
    (small : x.toNat < 2 ^ half) : (x <<< (part / 2)).toNat = 2 ^ half * x.toNat := by
  have inside := Nat.mul_lt_mul_of_pos_right small (Nat.two_pow_pos half)
  rw [← two_pow_halves even] at inside
  rw [BitVec.toNat_shiftLeft, Nat.shiftLeft_eq, show part / 2 = half by omega,
    Nat.mod_eq_of_lt inside, Nat.mul_comm]

end Halves

theorem add_high_modEq (high low x : BitVec part) (unsignedp overflow : Bool) :
    (CppNum.toNat ⟨high + x, low, unsignedp, overflow⟩ : Int) ≡
      CppNum.toNat ⟨high, low, unsignedp, overflow⟩ + (2 ^ part : Nat) * (x.toNat : Int)
      [ZMOD (2 ^ (2 * part) : Nat)] := by
  refine (parts_modEq _ rfl (part_add_modEq high x)).trans (Int.modEq_iff_dvd.mpr ⟨0, ?_⟩)
  rw [CppNum.toNat]
  push_cast
  ring

theorem add_low_modEq (high low x : BitVec part) (unsignedp overflow : Bool) :
    (CppNum.toNat ⟨if (low + x).ult low then high + 1 else high, low + x, unsignedp, overflow⟩ :
        Int) ≡
      CppNum.toNat ⟨high, low, unsignedp, overflow⟩ + x.toNat [ZMOD (2 ^ (2 * part) : Nat)] := by
  refine (parts_modEq _ (low_add low x) (part_carry_modEq _ high)).trans
    (Int.modEq_iff_dvd.mpr ⟨0, ?_⟩)
  rw [CppNum.toNat]
  push_cast
  ring

theorem CppNum.toNat_eq_of_modEq {num : CppNum part} {value : Nat} (small : value < 2 ^ (2 * part))
    (same : (num.toNat : Int) ≡ value [ZMOD (2 ^ (2 * part) : Nat)]) : num.toNat = value := by
  have residue := Int.natCast_modEq_iff.mp same
  rwa [Nat.ModEq, Nat.mod_eq_of_lt num.toNat_lt, Nat.mod_eq_of_lt small] at residue

theorem part_mul_lt (x y : BitVec part) : x.toNat * y.toNat < 2 ^ (2 * part) := by
  rw [Nat.two_mul, pow_add]
  exact Nat.mul_lt_mul'' x.isLt y.isLt

theorem numPartMul_toNat (even : 2 ∣ part) (x y : BitVec part) :
    (numPartMul x y).toNat = x.toNat * y.toNat := by
  obtain ⟨half, twice⟩ := even
  rw [Nat.two_mul] at twice
  have power := two_pow_halves twice
  have positive := Nat.two_pow_pos half
  have lowSmall : ∀ z : BitVec part, (lowPart z).toNat < 2 ^ half := fun z => by
    rw [lowPart_toNat twice]
    exact Nat.mod_lt _ positive
  have highSmall : ∀ z : BitVec part, (highPart z).toNat < 2 ^ half := fun z => by
    rw [highPart_toNat twice]
    have inside := z.isLt
    rw [power] at inside
    exact Nat.div_lt_of_lt_mul inside
  have split : ∀ z : BitVec part,
      (z.toNat : Int) = (lowPart z).toNat + (2 ^ half : Nat) * (highPart z).toNat := fun z => by
    rw [lowPart_toNat twice, highPart_toNat twice]
    exact_mod_cast (Nat.mod_add_div _ _).symm
  refine CppNum.toNat_eq_of_modEq (part_mul_lt x y) ?_
  have highs := fun high low =>
    (add_high_modEq _ low (highPart (highPart x * lowPart y)) true false).trans
      ((add_high_modEq high low (highPart (lowPart x * highPart y)) true false).add_right _)
  have lows := (add_low_modEq _ _ (lowPart (highPart x * lowPart y) <<< (part / 2)) true false).trans
    ((add_low_modEq (highPart x * highPart y) (lowPart x * lowPart y)
      (lowPart (lowPart x * highPart y) <<< (part / 2)) true false).add_right _)
  refine ((highs _ _).trans ((lows.add_right _).add_right _)).trans (Int.modEq_iff_dvd.mpr ⟨0, ?_⟩)
  rw [half_shift_toNat twice (lowSmall _), half_shift_toNat twice (lowSmall _), CppNum.toNat]
  have middle0 := split (lowPart x * highPart y)
  have middle1 := split (highPart x * lowPart y)
  rw [half_mul_toNat twice (lowSmall x) (highSmall y)] at middle0
  rw [half_mul_toNat twice (highSmall x) (lowSmall y)] at middle1
  rw [half_mul_toNat twice (lowSmall x) (lowSmall y),
    half_mul_toNat twice (highSmall x) (highSmall y), power]
  push_cast at *
  rw [split x, split y]
  linear_combination (2 ^ half : Int) * middle0 + (2 ^ half : Int) * middle1

section Product

variable {precision : Nat} {lhs rhs num : CppNum part}

def untrimmedProduct (lhs rhs : CppNum part) : CppNum part :=
  { numPartMul lhs.low rhs.low with
    high := (numPartMul lhs.low rhs.low).high + (numPartMul lhs.high rhs.low).low +
      (numPartMul lhs.low rhs.high).low }

/-- A crossed product has a high part, or both high parts are set. -/
def crossed (lhs rhs : CppNum part) : Bool :=
  (lhs.high != 0 && rhs.high != 0) || (numPartMul lhs.high rhs.low).high != 0 ||
    (numPartMul lhs.low rhs.high).high != 0

theorem untrimmedProduct_modEq (even : 2 ∣ part) (lhs rhs : CppNum part) :
    ((untrimmedProduct lhs rhs).toNat : Int) ≡ lhs.toNat * rhs.toNat
      [ZMOD (2 ^ (2 * part) : Nat)] := by
  have highs := (add_high_modEq _ _ (numPartMul lhs.low rhs.high).low true false).trans
    ((add_high_modEq (numPartMul lhs.low rhs.low).high (numPartMul lhs.low rhs.low).low
      (numPartMul lhs.high rhs.low).low true false).add_right _)
  refine highs.trans ?_
  have product : CppNum.toNat ⟨(numPartMul lhs.low rhs.low).high, (numPartMul lhs.low rhs.low).low,
      true, false⟩ = lhs.low.toNat * rhs.low.toNat := numPartMul_toNat even _ _
  have cross0 := numPartMul_toNat even lhs.high rhs.low
  have cross1 := numPartMul_toNat even lhs.low rhs.high
  have power : (2 ^ (2 * part) : Nat) = 2 ^ part * 2 ^ part := by rw [Nat.two_mul, pow_add]
  rw [product, power]
  refine Int.modEq_iff_dvd.mpr ⟨(numPartMul lhs.high rhs.low).high.toNat +
    (numPartMul lhs.low rhs.high).high.toNat + lhs.high.toNat * rhs.high.toNat, ?_⟩
  rw [CppNum.toNat, CppNum.toNat]
  rw [CppNum.toNat] at cross0 cross1
  zify at cross0 cross1
  push_cast
  linear_combination (-2 ^ part : Int) * cross0 - (2 ^ part : Int) * cross1

theorem crossed_eq_false_iff (even : 2 ∣ part) (lhs rhs : CppNum part) :
    crossed lhs rhs = false ↔
      (lhs.high.toNat = 0 ∨ rhs.high.toNat = 0) ∧
        lhs.high.toNat * rhs.low.toNat < 2 ^ part ∧ lhs.low.toNat * rhs.high.toNat < 2 ^ part := by
  have positive := Nat.two_pow_pos part
  have cross : ∀ x y : BitVec part, ((numPartMul x y).high != 0) = false ↔
      x.toNat * y.toNat < 2 ^ part := by
    intro x y
    rw [part_bne_zero_iff, CppNum.high_toNat, numPartMul_toNat even, Nat.div_eq_zero_iff]
    omega
  rw [crossed, Bool.or_eq_false_iff, Bool.or_eq_false_iff, Bool.and_eq_false_iff,
    part_bne_zero_iff, part_bne_zero_iff, cross, cross, and_assoc]

theorem CppNum.mul_lt_of_plain (even : 2 ∣ part) (plain : crossed lhs rhs = false) :
    lhs.toNat * rhs.toNat < 2 * 2 ^ (2 * part) := by
  obtain ⟨high, cross0, cross1⟩ := (crossed_eq_false_iff even lhs rhs).mp plain
  have low := part_mul_lt lhs.low rhs.low
  have power : (2 ^ (2 * part) : Nat) = 2 ^ part * 2 ^ part := by rw [Nat.two_mul, pow_add]
  have expand : lhs.toNat * rhs.toNat = lhs.low.toNat * rhs.low.toNat +
      2 ^ part * (lhs.high.toNat * rhs.low.toNat + lhs.low.toNat * rhs.high.toNat) +
      2 ^ (2 * part) * (lhs.high.toNat * rhs.high.toNat) := by
    rw [CppNum.toNat, CppNum.toNat, power]
    ring
  have middle : 2 ^ part * (lhs.high.toNat * rhs.low.toNat + lhs.low.toNat * rhs.high.toNat) <
      2 ^ (2 * part) := by
    rw [power]
    refine Nat.mul_lt_mul_of_pos_left ?_ (Nat.two_pow_pos part)
    cases high with
    | inl zero => simpa [zero] using cross1
    | inr zero => simpa [zero] using cross0
  have highs : lhs.high.toNat * rhs.high.toNat = 0 := Nat.mul_eq_zero.mpr high
  rw [expand, highs, Nat.mul_zero]
  omega

theorem untrimmedProduct_toNat (even : 2 ∣ part) (plain : crossed lhs rhs = false) :
    (untrimmedProduct lhs rhs).toNat = if 2 ^ (2 * part) ≤ lhs.toNat * rhs.toNat
      then lhs.toNat * rhs.toNat - 2 ^ (2 * part) else lhs.toNat * rhs.toNat := by
  have bound := CppNum.mul_lt_of_plain even plain
  have same := untrimmedProduct_modEq even lhs rhs
  rw [← Int.natCast_mul] at same
  have residue := Int.natCast_modEq_iff.mp same
  rw [Nat.ModEq, Nat.mod_eq_of_lt (CppNum.toNat_lt _)] at residue
  rw [residue]
  split
  case isTrue carried => rw [Nat.mod_eq_sub_mod carried, Nat.mod_eq_of_lt (by omega)]
  case isFalse whole => exact Nat.mod_eq_of_lt (by omega)

theorem numMagnitude_toNat (positive : 0 < precision) (fits : precision ≤ 2 * part)
    (trimmed : num.Trimmed precision) (unsignedp : Bool) :
    (numMagnitude num unsignedp precision).1.toNat = (num.value precision unsignedp).natAbs ∧
      (numMagnitude num unsignedp precision).2 =
        decide (num.value precision unsignedp < 0) := by
  have double := two_pow_pred positive
  have below : num.toNat < 2 ^ precision := trimmed
  have half := Nat.two_pow_pos (precision - 1)
  have sign := numPositive_iff positive fits trimmed
  cases unsignedp with
  | true =>
    have natural : num.value precision true = num.toNat := rfl
    rw [natural]
    exact ⟨rfl, (decide_eq_false (by omega)).symm⟩
  | false =>
    have signed : num.value precision false = num.toInt precision := rfl
    rw [signed, CppNum.toInt]
    by_cases nonnegative : numPositive num precision = true
    · have small := sign.mp nonnegative
      have itself : numMagnitude num false precision = (num, false) := by
        simp [numMagnitude, nonnegative]
      rw [itself, if_pos small]
      exact ⟨(Int.natAbs_natCast _).symm, (decide_eq_false (by omega)).symm⟩
    · have large : ¬ num.toNat < 2 ^ (precision - 1) := mt sign.mpr nonnegative
      have negated : numMagnitude num false precision = (numNegate num precision, true) := by
        simp [numMagnitude, nonnegative]
      rw [negated, if_neg large, numNegate_toNat fits trimmed, if_neg (by omega)]
      exact ⟨by omega, (decide_eq_true (by omega)).symm⟩

def applySign (negate : Bool) (num : CppNum part) (precision : Nat) : CppNum part :=
  if negate then numNegate num precision else num

def withSign (negate : Bool) (magnitude : Int) : Int := if negate then -magnitude else magnitude

theorem representable_withSign (negate : Bool) (magnitude : Nat) :
    Representable precision (withSign negate magnitude) ↔
      magnitude < 2 ^ (precision - 1) + negate.toNat := by
  have half := Nat.two_pow_pos (precision - 1)
  cases negate with
  | false =>
    simp only [withSign, Representable, Bool.false_eq_true, if_false, Bool.toNat_false]
    omega
  | true =>
    simp only [withSign, Representable, if_true, Bool.toNat_true]
    omega

theorem withSign_mul (left right : Int) :
    withSign (decide (left < 0) != decide (right < 0)) (left.natAbs * right.natAbs) =
      left * right := by
  by_cases first : left < 0 <;> by_cases second : right < 0
  all_goals
    simp only [withSign, first, second, decide_true, decide_false, bne_self_eq_false, Bool.bne_true,
      Bool.bne_false, Bool.not_false, Bool.false_eq_true, if_true, if_false]
  · rw [Int.ofNat_natAbs_of_nonpos first.le, Int.ofNat_natAbs_of_nonpos second.le]
    ring
  · rw [Int.ofNat_natAbs_of_nonpos first.le, Int.natAbs_of_nonneg (by omega)]
    ring
  · rw [Int.natAbs_of_nonneg (by omega), Int.ofNat_natAbs_of_nonpos second.le]
    ring
  · rw [Int.natAbs_of_nonneg (by omega), Int.natAbs_of_nonneg (by omega)]

theorem applySign_modEq (fits : precision ≤ 2 * part) (negate : Bool) (num : CppNum part) :
    ((applySign negate num precision).toNat : Int) ≡ withSign negate num.toNat
      [ZMOD (2 ^ precision : Nat)] := by
  cases negate with
  | false => rfl
  | true => exact numNegate_modEq fits num

theorem applySign_trimmed (fits : precision ≤ 2 * part) (negate : Bool)
    (trimmed : num.Trimmed precision) : (applySign negate num precision).Trimmed precision := by
  cases negate with
  | false => exact trimmed
  | true => exact numNegate_trimmed fits num

theorem applySign_unsignedp (negate : Bool) (num : CppNum part) (precision : Nat) :
    (applySign negate num precision).unsignedp = num.unsignedp := by
  cases negate with
  | false => rfl
  | true => exact numNegate_unsignedp num precision

theorem applySign_overflow (positive : 0 < precision) (fits : precision ≤ 2 * part)
    (negate : Bool) (trimmed : num.Trimmed precision) :
    ((numPositive (applySign negate num precision) precision != !negate) &&
        !numZerop (applySign negate num precision)) = true ↔
      ¬ Representable precision (withSign negate num.toNat) := by
  have double := two_pow_pred positive
  have below : num.toNat < 2 ^ precision := trimmed
  have half := Nat.two_pow_pos (precision - 1)
  have sign := numPositive_iff positive fits (applySign_trimmed fits negate trimmed)
  rw [Bool.and_eq_true, bne_iff_ne, Bool.not_eq_true', ← Bool.not_eq_true, numZerop_iff]
  cases negate with
  | false =>
    rw [Bool.not_false, ne_eq, sign, Representable]
    simp only [withSign, applySign, Bool.false_eq_true, if_false]
    omega
  | true =>
    rw [Bool.not_true, ne_eq, Bool.not_eq_false, sign, Representable]
    simp only [withSign, applySign, if_true]
    rw [numNegate_toNat fits trimmed]
    split_ifs <;> omega

theorem numMul_eq (lhs rhs : CppNum part) (precision : Nat) :
    numMul lhs rhs precision =
      let unsignedp := lhs.unsignedp || rhs.unsignedp
      let left := numMagnitude lhs unsignedp precision
      let right := numMagnitude rhs unsignedp precision
      let whole := untrimmedProduct left.1 right.1
      let trimmed := numTrim whole precision
      let result := applySign (left.2 != right.2) trimmed precision
      { result with
        overflow := !unsignedp && ((crossed left.1 right.1 || !numEq trimmed whole) ||
          ((numPositive result precision != !(left.2 != right.2)) && !numZerop result))
        unsignedp := unsignedp } :=
  rfl

theorem numMul_computes_value (positive : 0 < precision) (fits : precision ≤ 2 * part)
    (even : 2 ∣ part) (lhsTrimmed : lhs.Trimmed precision) (rhsTrimmed : rhs.Trimmed precision)
    (unsignedp : Bool) (usual : unsignedp = (lhs.unsignedp || rhs.unsignedp)) :
    ((numMul lhs rhs precision).toNat : Int) =
      lhs.value precision unsignedp * rhs.value precision unsignedp % (2 ^ precision : Nat) := by
  subst usual
  obtain ⟨left, leftSign⟩ :=
    numMagnitude_toNat positive fits lhsTrimmed (lhs.unsignedp || rhs.unsignedp)
  obtain ⟨right, rightSign⟩ :=
    numMagnitude_toNat positive fits rhsTrimmed (lhs.unsignedp || rhs.unsignedp)
  rw [numMul_eq]
  refine (applySign_trimmed fits _ (numTrim_trimmed fits _)).toNat_eq ?_
  refine (applySign_modEq fits _ _).trans ?_
  rw [leftSign, rightSign, ← withSign_mul]
  have whole := numTrim_modEq fits (untrimmedProduct_modEq even
    (numMagnitude lhs (lhs.unsignedp || rhs.unsignedp) precision).1
    (numMagnitude rhs (lhs.unsignedp || rhs.unsignedp) precision).1)
  rw [left, right] at whole
  cases (decide (lhs.value precision (lhs.unsignedp || rhs.unsignedp) < 0) !=
      decide (rhs.value precision (lhs.unsignedp || rhs.unsignedp) < 0)) with
  | false => exact whole
  | true => exact whole.neg

theorem CppNum.le_mul_of_crossed (even : 2 ∣ part) (wide : crossed lhs rhs = true) :
    2 ^ (2 * part) ≤ lhs.toNat * rhs.toNat := by
  have power : (2 ^ (2 * part) : Nat) = 2 ^ part * 2 ^ part := by rw [Nat.two_mul, pow_add]
  rw [← Bool.not_eq_false, crossed_eq_false_iff even] at wide
  have lhsHigh : 2 ^ part * lhs.high.toNat ≤ lhs.toNat := Nat.le_add_left _ _
  have rhsHigh : 2 ^ part * rhs.high.toNat ≤ rhs.toNat := Nat.le_add_left _ _
  have lhsLow : lhs.low.toNat ≤ lhs.toNat := Nat.le_add_right _ _
  have rhsLow : rhs.low.toNat ≤ rhs.toNat := Nat.le_add_right _ _
  rw [power]
  by_cases both : lhs.high.toNat = 0 ∨ rhs.high.toNat = 0
  · by_cases first : lhs.high.toNat * rhs.low.toNat < 2 ^ part
    · have second : 2 ^ part ≤ lhs.low.toNat * rhs.high.toNat := by
        by_contra small
        exact wide ⟨both, first, not_le.mp small⟩
      calc 2 ^ part * 2 ^ part ≤ 2 ^ part * (lhs.low.toNat * rhs.high.toNat) :=
            Nat.mul_le_mul_left _ second
        _ = lhs.low.toNat * (2 ^ part * rhs.high.toNat) := by ring
        _ ≤ lhs.toNat * rhs.toNat := Nat.mul_le_mul lhsLow rhsHigh
    · calc 2 ^ part * 2 ^ part ≤ 2 ^ part * (lhs.high.toNat * rhs.low.toNat) :=
            Nat.mul_le_mul_left _ (not_lt.mp first)
        _ = 2 ^ part * lhs.high.toNat * rhs.low.toNat := by ring
        _ ≤ lhs.toNat * rhs.toNat := Nat.mul_le_mul lhsHigh rhsLow
  · rw [not_or] at both
    have lhsPart : 2 ^ part ≤ lhs.toNat :=
      (Nat.le_mul_of_pos_right _ (Nat.pos_of_ne_zero both.1)).trans lhsHigh
    have rhsPart : 2 ^ part ≤ rhs.toNat :=
      (Nat.le_mul_of_pos_right _ (Nat.pos_of_ne_zero both.2)).trans rhsHigh
    exact Nat.mul_le_mul lhsPart rhsPart

theorem numMul_overflow (positive : 0 < precision) (fits : precision ≤ 2 * part)
    (signed : (lhs.unsignedp || rhs.unsignedp) = false) :
    (numMul lhs rhs precision).overflow = true ↔
      crossed (numMagnitude lhs false precision).1 (numMagnitude rhs false precision).1 = true ∨
        ¬ Representable precision
          (withSign ((numMagnitude lhs false precision).2 != (numMagnitude rhs false precision).2)
            (untrimmedProduct (numMagnitude lhs false precision).1
              (numMagnitude rhs false precision).1).toNat) := by
  have double := two_pow_pred positive
  have half := Nat.two_pow_pos (precision - 1)
  rw [numMul_eq, signed]
  simp only [Bool.not_false, Bool.true_and, Bool.or_eq_true (crossed _ _ || _)]
  rw [applySign_overflow positive fits _ (numTrim_trimmed fits _), Bool.or_eq_true, or_assoc]
  refine or_congr_right ?_
  rw [Bool.not_eq_true', ← Bool.not_eq_true, numEq_iff, numTrim_toNat fits,
    Nat.mod_eq_iff_lt (Nat.two_pow_pos precision).ne']
  generalize (untrimmedProduct _ _).toNat = whole
  by_cases inside : whole < 2 ^ precision
  · rw [Nat.mod_eq_of_lt inside]
    simp only [inside, not_true, false_or]
  · have large : ∀ negate, ¬ Representable precision (withSign negate whole) := by
      intro negate
      have sign := negate.toNat_le
      rw [representable_withSign]
      omega
    simp only [inside, not_false_iff, true_or, large]

theorem untrimmedProduct_test (positive : 0 < precision) (fits : precision ≤ 2 * part)
    (even : 2 ∣ part) (lhs rhs : CppNum part) (negate : Bool) :
    ((crossed lhs rhs = true ∨
        ¬ Representable precision (withSign negate (untrimmedProduct lhs rhs).toNat)) ↔
      ¬ Representable precision (withSign negate (lhs.toNat * rhs.toNat : Nat))) ↔
      ¬ (crossed lhs rhs = false ∧ 2 ^ (2 * part) ≤ lhs.toNat * rhs.toNat ∧
        Representable precision
          (withSign negate (lhs.toNat * rhs.toNat - 2 ^ (2 * part) : Nat))) := by
  have double := two_pow_pred positive
  have half := Nat.two_pow_pos (precision - 1)
  have modulus : 2 ^ precision ≤ 2 ^ (2 * part) := Nat.pow_le_pow_right (by decide) fits
  have sign := negate.toNat_le
  rw [representable_withSign, representable_withSign, representable_withSign]
  cases wide : crossed lhs rhs with
  | true =>
    have large := CppNum.le_mul_of_crossed even wide
    simp only [true_or, true_iff, Bool.true_eq_false, false_and, not_false_iff, iff_true]
    omega
  | false =>
    rw [untrimmedProduct_toNat even wide]
    simp only [Bool.false_eq_true, false_or, true_and]
    split
    case isTrue carried => omega
    case isFalse whole => omega

/-- A carry out of the high part is lost, and what is left is representable. -/
def CarryLost (part precision : Nat) (left right : Int) : Prop :=
  (left.natAbs / 2 ^ part = 0 ∨ right.natAbs / 2 ^ part = 0) ∧
    left.natAbs / 2 ^ part * (right.natAbs % 2 ^ part) < 2 ^ part ∧
    left.natAbs % 2 ^ part * (right.natAbs / 2 ^ part) < 2 ^ part ∧
    2 ^ (2 * part) ≤ left.natAbs * right.natAbs ∧
    Representable precision
      (withSign (decide (left < 0) != decide (right < 0))
        (left.natAbs * right.natAbs - 2 ^ (2 * part) : Nat))

instance (part precision : Nat) (left right : Int) :
    Decidable (CarryLost part precision left right) :=
  inferInstanceAs (Decidable (_ ∧ _))

/-- The product is always right.  The flag of a signed one is, unless a carry is lost. -/
theorem numMul_computes_iff (positive : 0 < precision) (fits : precision ≤ 2 * part)
    (even : 2 ∣ part) (lhsTrimmed : lhs.Trimmed precision) (rhsTrimmed : rhs.Trimmed precision)
    (unsignedp : Bool) (usual : unsignedp = (lhs.unsignedp || rhs.unsignedp)) :
    Computes precision unsignedp
        (lhs.value precision unsignedp * rhs.value precision unsignedp)
        (numMul lhs rhs precision) ↔
      ¬ (unsignedp = false ∧ CarryLost part precision (lhs.toInt precision)
        (rhs.toInt precision)) := by
  subst usual
  have residue := numMul_computes_value positive fits even lhsTrimmed rhsTrimmed _ rfl
  cases signs : lhs.unsignedp || rhs.unsignedp with
  | true =>
    rw [signs] at residue
    refine iff_of_true ⟨signs, residue, ?_⟩ ?_
    · rintro ⟨⟩
    · rintro ⟨⟨⟩, -⟩
  | false =>
    rw [signs] at residue
    have test := untrimmedProduct_test positive fits even
      (numMagnitude lhs false precision).1 (numMagnitude rhs false precision).1
      ((numMagnitude lhs false precision).2 != (numMagnitude rhs false precision).2)
    obtain ⟨left, leftSign⟩ := numMagnitude_toNat positive fits lhsTrimmed false
    obtain ⟨right, rightSign⟩ := numMagnitude_toNat positive fits rhsTrimmed false
    rw [← numMul_overflow positive fits signs, crossed_eq_false_iff even] at test
    simp only [CppNum.high_toNat, CppNum.low_toNat] at test
    rw [left, right, leftSign, rightSign, Int.natCast_mul, withSign_mul] at test
    have condition : ((numMul lhs rhs precision).overflow = true ↔
          ¬ Representable precision (lhs.value precision false * rhs.value precision false)) ↔
        ¬ CarryLost part precision (lhs.toInt precision) (rhs.toInt precision) := by
      refine test.trans (not_congr ?_)
      rw [CarryLost, and_assoc, and_assoc]
      rfl
    constructor
    · rintro computes ⟨-, lost⟩
      exact condition.mp (computes.flag rfl) lost
    · intro kept
      exact ⟨signs, residue, fun _ => condition.mpr fun lost => kept ⟨rfl, lost⟩⟩

theorem numMul_computes_iff_minimum :
    Computes 64 false
      (CppNum.value 64 false (⟨0x80000000, 0, false, false⟩ : CppNum 32) *
        CppNum.value 64 false (⟨0xffffffff, 0xffffffff, false, false⟩ : CppNum 32))
      (numMul (⟨0x80000000, 0, false, false⟩ : CppNum 32)
        ⟨0xffffffff, 0xffffffff, false, false⟩ 64) :=
  (@numMul_computes_iff 32 64 ⟨0x80000000, 0, false, false⟩
    ⟨0xffffffff, 0xffffffff, false, false⟩ (by decide) (by decide) (by decide)
    (show _ < _ by decide) (show _ < _ by decide) false rfl).mpr
    (by decide)

/-- The high part of this product is `2 ^ 32`. -/
theorem numMul_loses_carry :
    ¬ Computes 64 false
      (CppNum.value 64 false (⟨1, 0x55555556, false, false⟩ : CppNum 32) *
        CppNum.value 64 false (⟨0, 0xc0000000, false, false⟩ : CppNum 32))
      (numMul (⟨1, 0x55555556, false, false⟩ : CppNum 32) ⟨0, 0xc0000000, false, false⟩ 64) := by
  intro computes
  have flagged := (computes.flag rfl).mpr (by decide)
  revert flagged
  decide

end Product

end GccCil.Libcpp
