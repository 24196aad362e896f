import GccCil.Lib.TwosComplement
import GccCil.Libcpp.Num
import Mathlib.Data.Int.ModEq
import Mathlib.Tactic.Ring

/-!
# Preprocessor arithmetic on integers

A `cpp_num` is read as the number that its two parts make, and as the signed
number of its precision.  Trimming, negation and addition are described by what
they do to these numbers; the overflow flag of an addition is derived from three
signs, of which that of the subtrahend is the sign of its negation.
-/

namespace GccCil.Libcpp

open GccCil.Lib

variable {part : Nat}

namespace CppNum

def toNat (num : CppNum part) : Nat := num.low.toNat + 2 ^ part * num.high.toNat

def Trimmed (precision : Nat) (num : CppNum part) : Prop := num.toNat < 2 ^ precision

def toInt (precision : Nat) (num : CppNum part) : Int :=
  if num.toNat < 2 ^ (precision - 1) then num.toNat else num.toNat - (2 ^ precision : Nat)

def value (precision : Nat) (unsignedp : Bool) (num : CppNum part) : Int :=
  if unsignedp then num.toNat else num.toInt precision

theorem toNat_lt (num : CppNum part) : num.toNat < 2 ^ (2 * part) := by
  have low := num.low.isLt
  have high := Nat.mul_le_mul_left (2 ^ part) (Nat.succ_le_of_lt num.high.isLt)
  rw [Nat.two_mul, pow_add, toNat]
  rw [Nat.mul_succ] at high
  omega

theorem toNat_testBit (num : CppNum part) (i : Nat) :
    num.toNat.testBit i =
      if i < part then num.low.getLsbD i else num.high.getLsbD (i - part) := by
  rw [toNat, Nat.add_comm, Nat.testBit_two_pow_mul_add _ num.low.isLt]
  rfl

theorem low_toNat (num : CppNum part) : num.low.toNat = num.toNat % 2 ^ part := by
  rw [toNat, Nat.add_mul_mod_self_left, Nat.mod_eq_of_lt num.low.isLt]

theorem high_toNat (num : CppNum part) : num.high.toNat = num.toNat / 2 ^ part := by
  rw [toNat, Nat.add_mul_div_left _ _ (Nat.two_pow_pos part), Nat.div_eq_of_lt num.low.isLt,
    Nat.zero_add]

theorem toNat_eq_iff (left right : CppNum part) :
    left.toNat = right.toNat ↔ left.low = right.low ∧ left.high = right.high := by
  constructor
  · intro same
    constructor
    · exact BitVec.eq_of_toNat_eq (by rw [low_toNat, low_toNat, same])
    · exact BitVec.eq_of_toNat_eq (by rw [high_toNat, high_toNat, same])
  · rintro ⟨lows, highs⟩
    rw [toNat, toNat, lows, highs]

end CppNum

theorem numEq_iff (num1 num2 : CppNum part) :
    numEq num1 num2 = true ↔ num1.toNat = num2.toNat := by
  rw [numEq, CppNum.toNat_eq_iff, Bool.and_eq_true, beq_iff_eq, beq_iff_eq]

theorem numZerop_iff (num : CppNum part) : numZerop num = true ↔ num.toNat = 0 := by
  have parts : num.toNat = 0 ↔ num.low = 0 ∧ num.high = 0 := by
    rw [show (0 : Nat) = CppNum.toNat ⟨(0 : BitVec part), 0, false, false⟩ by simp [CppNum.toNat],
      CppNum.toNat_eq_iff]
  rw [numZerop, parts, beq_iff_eq]
  exact BitVec.or_eq_zero_iff

theorem bit_toNat {count : Nat} (small : count < part) :
    ((1 <<< count : Nat) : BitVec part).toNat = 2 ^ count := by
  have below : 2 ^ count < 2 ^ part := Nat.pow_lt_pow_right (by decide) small
  change (1 <<< count) % 2 ^ part = 2 ^ count
  rw [Nat.shiftLeft_eq, Nat.one_mul, Nat.mod_eq_of_lt below]

theorem lowMask_toNat {count : Nat} (small : count < part) :
    (lowMask part count).toNat = 2 ^ count - 1 := by
  have below : 2 ^ count < 2 ^ part := Nat.pow_lt_pow_right (by decide) small
  have one : 1 < 2 ^ part := lt_of_le_of_lt Nat.one_le_two_pow below
  have oneNat : (1 : BitVec part).toNat = 1 := by simp [Nat.mod_eq_of_lt one]
  rw [lowMask, BitVec.toNat_sub_of_le, bit_toNat small, oneNat]
  rw [BitVec.le_def, bit_toNat small, oneNat]
  exact Nat.one_le_two_pow

theorem and_lowMask_toNat {count : Nat} (small : count < part) (x : BitVec part) :
    (x &&& lowMask part count).toNat = x.toNat % 2 ^ count := by
  rw [BitVec.toNat_and, lowMask_toNat small, Nat.and_two_pow_sub_one_eq_mod]

theorem ones_shift_toNat {count : Nat} (fits : count ≤ part) :
    ((~~~0 : BitVec part) >>> (part - count)).toNat = 2 ^ count - 1 := by
  have power : 2 ^ part = 2 ^ (part - count) * 2 ^ count := by
    rw [← pow_add, Nat.sub_add_cancel fits]
  have first := Nat.two_pow_pos (part - count)
  have second := Nat.two_pow_pos count
  rw [BitVec.toNat_ushiftRight, BitVec.toNat_not, Nat.shiftRight_eq_div_pow,
    show (0 : BitVec part).toNat = 0 from BitVec.toNat_ofNat 0 part ▸ Nat.zero_mod _, Nat.sub_zero,
    power]
  refine Nat.div_eq_of_lt_le ?_ ?_
  · rw [Nat.mul_comm, Nat.mul_sub, Nat.mul_one]
    omega
  · rw [Nat.sub_add_cancel second, Nat.mul_comm]
    exact Nat.sub_lt (Nat.mul_pos second first) Nat.one_pos

theorem numTrim_toNat {precision : Nat} (fits : precision ≤ 2 * part) (num : CppNum part) :
    (numTrim num precision).toNat = num.toNat % 2 ^ precision := by
  rw [numTrim]
  split
  case isTrue above =>
    split
    case isTrue inside =>
      have power : 2 ^ precision = 2 ^ part * 2 ^ (precision - part) := by
        rw [← pow_add, Nat.add_sub_cancel' above.le]
      rw [CppNum.toNat, and_lowMask_toNat inside, CppNum.toNat, power,
        Nat.mod_mul, Nat.add_mul_mod_self_left, Nat.add_mul_div_left _ _ (Nat.two_pow_pos part),
        Nat.mod_eq_of_lt num.low.isLt, Nat.div_eq_of_lt num.low.isLt, Nat.zero_add]
    case isFalse whole =>
      obtain rfl : precision = 2 * part := by omega
      exact (Nat.mod_eq_of_lt num.toNat_lt).symm
  case isFalse below =>
    split
    case isTrue inside =>
      have divides : 2 ^ precision ∣ 2 ^ part := pow_dvd_pow 2 inside.le
      rw [CppNum.toNat, and_lowMask_toNat inside, CppNum.toNat, Nat.add_mod,
        Nat.mod_eq_zero_of_dvd (divides.mul_right _)]
      simp
    case isFalse same =>
      obtain rfl : precision = part := by omega
      rw [CppNum.toNat, CppNum.toNat, Nat.add_mul_mod_self_left, Nat.mod_eq_of_lt num.low.isLt]
      simp

@[simp]
theorem numTrim_unsignedp (num : CppNum part) (precision : Nat) :
    (numTrim num precision).unsignedp = num.unsignedp := by
  unfold numTrim
  split <;> split <;> rfl

@[simp]
theorem numTrim_overflow (num : CppNum part) (precision : Nat) :
    (numTrim num precision).overflow = num.overflow := by
  unfold numTrim
  split <;> split <;> rfl

theorem numTrim_trimmed {precision : Nat} (fits : precision ≤ 2 * part) (num : CppNum part) :
    (numTrim num precision).Trimmed precision := by
  rw [CppNum.Trimmed, numTrim_toNat fits]
  exact Nat.mod_lt _ (Nat.two_pow_pos precision)

theorem bit_getLsbD {count : Nat} (small : count < part) (i : Nat) :
    ((1 <<< count : Nat) : BitVec part).getLsbD i = decide (i = count) := by
  rw [BitVec.getLsbD, bit_toNat small, Nat.testBit_two_pow]
  exact decide_eq_decide.mpr eq_comm

theorem and_bit_eq_zero {count : Nat} (small : count < part) (x : BitVec part) :
    x &&& ((1 <<< count : Nat) : BitVec part) = 0 ↔ x.getLsbD count = false := by
  have only := @bit_getLsbD part count small
  constructor
  · intro zero
    have bit := congrArg (fun y => BitVec.getLsbD y count) zero
    rw [BitVec.getLsbD_and, only] at bit
    simpa using bit
  · intro clear
    apply BitVec.eq_of_getLsbD_eq
    intro i inside
    rw [BitVec.getLsbD_and, only]
    by_cases here : i = count
    · simp [here, clear]
    · simp [here]

theorem numPositive_iff {precision : Nat} (positive : 0 < precision) (fits : precision ≤ 2 * part)
    {num : CppNum part} (trimmed : num.Trimmed precision) :
    numPositive num precision = true ↔ num.toNat < 2 ^ (precision - 1) := by
  have bit : numPositive num precision = true ↔ num.toNat.testBit (precision - 1) = false := by
    rw [numPositive, CppNum.toNat_testBit]
    split
    case isTrue above =>
      rw [if_neg (by omega), beq_iff_eq, and_bit_eq_zero (by omega)]
      rw [show precision - 1 - part = precision - part - 1 by omega]
    case isFalse below =>
      rw [if_pos (by omega), beq_iff_eq, and_bit_eq_zero (by omega)]
  rw [bit]
  constructor
  · intro clear
    by_contra large
    have double : num.toNat < 2 * 2 ^ (precision - 1) := by
      rw [← pow_succ', Nat.sub_add_cancel positive]
      exact trimmed
    have one : num.toNat / 2 ^ (precision - 1) = 1 := by
      exact Nat.div_eq_of_lt_le (by omega) (by omega)
    rw [Nat.testBit_eq_decide_div_mod_eq, one] at clear
    cases clear
  · exact Nat.testBit_lt_two_pow

theorem numPositive_iff_toInt {precision : Nat} (positive : 0 < precision)
    (fits : precision ≤ 2 * part) {num : CppNum part} (trimmed : num.Trimmed precision) :
    numPositive num precision = true ↔ 0 ≤ num.toInt precision := by
  rw [numPositive_iff positive fits trimmed, CppNum.toInt]
  have below : num.toNat < 2 ^ precision := trimmed
  split <;> omega

section Values

variable {precision : Nat} {num : CppNum part}

theorem two_pow_pred (positive : 0 < precision) : 2 ^ precision = 2 * 2 ^ (precision - 1) := by
  rw [← pow_succ', Nat.sub_add_cancel positive]

def Representable (precision : Nat) (x : Int) : Prop :=
  -(2 ^ (precision - 1) : Nat) ≤ x ∧ x < (2 ^ (precision - 1) : Nat)

instance (precision : Nat) (x : Int) : Decidable (Representable precision x) :=
  inferInstanceAs (Decidable (_ ∧ _))

theorem CppNum.toInt_representable (positive : 0 < precision) (trimmed : num.Trimmed precision) :
    Representable precision (num.toInt precision) := by
  have double := two_pow_pred positive
  have below : num.toNat < 2 ^ precision := trimmed
  rw [CppNum.toInt, Representable]
  split <;> omega

theorem CppNum.value_modEq (unsignedp : Bool) (num : CppNum part) :
    num.value precision unsignedp ≡ num.toNat [ZMOD (2 ^ precision : Nat)] := by
  cases unsignedp with
  | true => rfl
  | false =>
    simp only [CppNum.value, CppNum.toInt, Bool.false_eq_true, if_false]
    split
    · rfl
    · exact Int.modEq_iff_dvd.mpr ⟨1, by omega⟩

theorem Representable.eq_of_modEq (positive : 0 < precision) {x y : Int}
    (first : Representable precision x) (second : Representable precision y)
    (same : x ≡ y [ZMOD (2 ^ precision : Nat)]) : x = y := by
  have double := two_pow_pred positive
  have inRange : ∀ z, Representable precision z → Lib.InRange false precision z := by
    rintro z ⟨low, high⟩
    rw [Lib.inRange_signed]
    omega
  exact Lib.eq_of_modEq_of_inRange (inRange x first) (inRange y second) same

theorem CppNum.Trimmed.toNat_eq (trimmed : num.Trimmed precision) {x : Int}
    (same : (num.toNat : Int) ≡ x [ZMOD (2 ^ precision : Nat)]) :
    (num.toNat : Int) = x % (2 ^ precision : Nat) := by
  rw [← same, Int.emod_eq_of_lt (Int.natCast_nonneg _) (by exact_mod_cast trimmed)]

end Values

theorem numTrim_modEq {precision : Nat} (fits : precision ≤ 2 * part) {num : CppNum part}
    {x : Int} (same : (num.toNat : Int) ≡ x [ZMOD (2 ^ (2 * part) : Nat)]) :
    ((numTrim num precision).toNat : Int) ≡ x [ZMOD (2 ^ precision : Nat)] := by
  have divides : ((2 ^ precision : Nat) : Int) ∣ (2 ^ (2 * part) : Nat) := by
    exact_mod_cast pow_dvd_pow 2 fits
  rw [numTrim_toNat fits, Int.natCast_mod]
  exact (Int.mod_modEq _ _).trans (same.of_dvd divides)

section Parts

variable {x y : BitVec part}

theorem part_bne_zero_iff (x : BitVec part) : (x != 0) = false ↔ x.toNat = 0 := by
  rw [bne_eq_false_iff_eq, BitVec.toNat_eq]
  simp

theorem part_add_modEq (x y : BitVec part) :
    ((x + y).toNat : Int) ≡ x.toNat + y.toNat [ZMOD (2 ^ part : Nat)] := by
  rw [BitVec.toNat_add, Int.natCast_mod, Int.natCast_add]
  exact Int.mod_modEq _ _

theorem part_one_modEq (part : Nat) :
    ((1 : BitVec part).toNat : Int) ≡ 1 [ZMOD (2 ^ part : Nat)] := by
  rw [show (1 : BitVec part).toNat = 1 % 2 ^ part from rfl, Int.natCast_mod]
  exact Int.mod_modEq _ _

theorem part_not_modEq (x : BitVec part) :
    ((~~~x).toNat : Int) ≡ -x.toNat - 1 [ZMOD (2 ^ part : Nat)] := by
  have inside := x.isLt
  rw [BitVec.toNat_not]
  exact Int.modEq_iff_dvd.mpr ⟨-1, by omega⟩

theorem part_carry_modEq (carry : Bool) (x : BitVec part) :
    ((if carry then x + 1 else x).toNat : Int) ≡ x.toNat + carry.toNat
      [ZMOD (2 ^ part : Nat)] := by
  cases carry with
  | false => simp [Int.ModEq]
  | true => exact (part_add_modEq x 1).trans ((part_one_modEq part).add_left _)

theorem high_modEq {z : Int} (same : (x.toNat : Int) ≡ z [ZMOD (2 ^ part : Nat)]) :
    (2 ^ part : Nat) * (x.toNat : Int) ≡ (2 ^ part : Nat) * z [ZMOD (2 ^ (2 * part) : Nat)] := by
  rw [Nat.two_mul, pow_add, Int.natCast_mul]
  exact same.mul_left'

end Parts

theorem parts_modEq (num : CppNum part) {low high : Int} (lows : (num.low.toNat : Int) = low)
    (highs : (num.high.toNat : Int) ≡ high [ZMOD (2 ^ part : Nat)]) :
    (num.toNat : Int) ≡ low + (2 ^ part : Nat) * high [ZMOD (2 ^ (2 * part) : Nat)] := by
  rw [CppNum.toNat, Int.natCast_add, Int.natCast_mul, lows]
  exact (high_modEq highs).add_left _

theorem low_negate (x : BitVec part) :
    ((~~~x + 1).toNat : Int) = (2 ^ part : Nat) * (1 - (~~~x + 1 == 0).toNat) - x.toNat := by
  have inside := x.isLt
  rw [show ~~~x + 1 = -x from (BitVec.neg_eq_not_add x).symm]
  by_cases zero : x = 0
  · subst zero
    simp
  · have nonzero : x.toNat ≠ 0 := fun same => zero (BitVec.eq_of_toNat_eq (by simpa using same))
    have negated : (-x == 0) = false := by
      rw [beq_eq_false_iff_ne]
      exact fun vanishes => zero (BitVec.neg_eq_zero_iff.mp vanishes)
    rw [negated, BitVec.toNat_neg, Nat.mod_eq_of_lt (by omega)]
    simp only [Bool.toNat_false]
    omega

theorem negate_parts (num : CppNum part) :
    (CppNum.toNat { num with
      high := if ~~~num.low + 1 == 0 then ~~~num.high + 1 else ~~~num.high
      low := ~~~num.low + 1 } : Int) ≡ -num.toNat [ZMOD (2 ^ (2 * part) : Nat)] := by
  have high := (part_carry_modEq (~~~num.low + 1 == 0) (~~~num.high)).trans
    ((part_not_modEq num.high).add_right _)
  refine (parts_modEq _ (low_negate num.low) high).trans (Int.modEq_iff_dvd.mpr ⟨0, ?_⟩)
  rw [CppNum.toNat]
  push_cast
  ring

theorem numNegate_modEq {precision : Nat} (fits : precision ≤ 2 * part) (num : CppNum part) :
    ((numNegate num precision).toNat : Int) ≡ -num.toNat [ZMOD (2 ^ precision : Nat)] :=
  numTrim_modEq fits (negate_parts num)

theorem numNegate_trimmed {precision : Nat} (fits : precision ≤ 2 * part) (num : CppNum part) :
    (numNegate num precision).Trimmed precision :=
  numTrim_trimmed fits _

@[simp]
theorem numNegate_unsignedp (num : CppNum part) (precision : Nat) :
    (numNegate num precision).unsignedp = num.unsignedp :=
  numTrim_unsignedp _ precision

theorem low_add (x y : BitVec part) :
    ((x + y).toNat : Int) = x.toNat + y.toNat - (2 ^ part : Nat) * ((x + y).ult x).toNat := by
  have first := x.isLt
  have second := y.isLt
  rw [BitVec.ult, BitVec.toNat_add]
  by_cases carries : 2 ^ part ≤ x.toNat + y.toNat
  · have rest : (x.toNat + y.toNat) % 2 ^ part = x.toNat + y.toNat - 2 ^ part := by
      rw [Nat.mod_eq_sub_mod carries, Nat.mod_eq_of_lt (by omega)]
    rw [rest, decide_eq_true (by omega)]
    simp only [Bool.toNat_true]
    omega
  · rw [Nat.mod_eq_of_lt (by omega), decide_eq_false (by omega)]
    simp only [Bool.toNat_false]
    omega

def untrimmedSum (lhs rhs : CppNum part) : CppNum part :=
  ⟨if (lhs.low + rhs.low).ult lhs.low then lhs.high + rhs.high + 1 else lhs.high + rhs.high,
    lhs.low + rhs.low, lhs.unsignedp || rhs.unsignedp, false⟩

theorem untrimmedSum_modEq (lhs rhs : CppNum part) :
    ((untrimmedSum lhs rhs).toNat : Int) ≡ lhs.toNat + rhs.toNat
      [ZMOD (2 ^ (2 * part) : Nat)] := by
  have high := (part_carry_modEq ((lhs.low + rhs.low).ult lhs.low) (lhs.high + rhs.high)).trans
    ((part_add_modEq lhs.high rhs.high).add_right _)
  refine (parts_modEq _ (low_add lhs.low rhs.low) high).trans (Int.modEq_iff_dvd.mpr ⟨0, ?_⟩)
  rw [CppNum.toNat, CppNum.toNat]
  push_cast
  ring

theorem numPlus_eq (lhs rhs : CppNum part) (precision : Nat) :
    numPlus lhs rhs precision =
      { numTrim (untrimmedSum lhs rhs) precision with
        overflow := !(numTrim (untrimmedSum lhs rhs) precision).unsignedp &&
          (numPositive lhs precision == numPositive rhs precision &&
            numPositive lhs precision !=
              numPositive (numTrim (untrimmedSum lhs rhs) precision) precision) } := by
  have flagged : ∀ (trimmed : CppNum part) (flag : Bool), trimmed.overflow = false →
      (if trimmed.unsignedp then trimmed else { trimmed with overflow := flag }) =
        { trimmed with overflow := !trimmed.unsignedp && flag } := by
    rintro ⟨high, low, unsignedp, overflow⟩ flag rfl
    cases unsignedp with
    | true => simp only [if_true, Bool.not_true, Bool.false_and]
    | false => simp only [Bool.false_eq_true, if_false, Bool.not_false, Bool.true_and]
  exact flagged (numTrim (untrimmedSum lhs rhs) precision)
    (numPositive lhs precision == numPositive rhs precision &&
      numPositive lhs precision !=
        numPositive (numTrim (untrimmedSum lhs rhs) precision) precision)
    (numTrim_overflow _ precision)

theorem numPlus_modEq {precision : Nat} (fits : precision ≤ 2 * part) (lhs rhs : CppNum part) :
    ((numPlus lhs rhs precision).toNat : Int) ≡ lhs.toNat + rhs.toNat
      [ZMOD (2 ^ precision : Nat)] := by
  rw [numPlus_eq]
  exact numTrim_modEq fits (untrimmedSum_modEq lhs rhs)

theorem numPlus_trimmed {precision : Nat} (fits : precision ≤ 2 * part) (lhs rhs : CppNum part) :
    (numPlus lhs rhs precision).Trimmed precision := by
  rw [numPlus_eq]
  exact numTrim_trimmed fits _

section Overflow

variable {precision : Nat} {lhs rhs num : CppNum part}

theorem CppNum.toInt_modEq (num : CppNum part) :
    num.toInt precision ≡ num.toNat [ZMOD (2 ^ precision : Nat)] :=
  CppNum.value_modEq false num

theorem CppNum.toInt_eq_min_iff (positive : 0 < precision) (trimmed : num.Trimmed precision) :
    num.toInt precision = -(2 ^ (precision - 1) : Nat) ↔ num.toNat = 2 ^ (precision - 1) := by
  have double := two_pow_pred positive
  have below : num.toNat < 2 ^ precision := trimmed
  rw [CppNum.toInt]
  split <;> omega

theorem numNegate_toNat (fits : precision ≤ 2 * part) (trimmed : num.Trimmed precision) :
    (numNegate num precision).toNat = if num.toNat = 0 then 0 else 2 ^ precision - num.toNat := by
  have below : num.toNat < 2 ^ precision := trimmed
  have residue := (numNegate_trimmed fits num).toNat_eq (numNegate_modEq fits num)
  split
  case isTrue zero =>
    rw [zero] at residue
    simpa using residue
  case isFalse nonzero =>
    have shifted : (-(num.toNat : Int)) % (2 ^ precision : Nat) =
        (2 ^ precision : Nat) - num.toNat := by
      rw [← Int.add_emod_right, Int.emod_eq_of_lt (by omega) (by omega)]
      omega
    omega

theorem numNegate_toInt (positive : 0 < precision) (fits : precision ≤ 2 * part)
    (trimmed : num.Trimmed precision) :
    (numNegate num precision).toInt precision =
      if num.toNat = 2 ^ (precision - 1) then num.toInt precision else -num.toInt precision := by
  have double := two_pow_pred positive
  have below : num.toNat < 2 ^ precision := trimmed
  have half := Nat.two_pow_pos (precision - 1)
  rw [CppNum.toInt, CppNum.toInt, numNegate_toNat fits trimmed]
  split_ifs <;> omega

theorem numNegate_overflow (positive : 0 < precision) (fits : precision ≤ 2 * part)
    (trimmed : num.Trimmed precision) (signed : num.unsignedp = false) :
    (numNegate num precision).overflow = true ↔
      ¬ Representable precision (-num.toInt precision) := by
  have double := two_pow_pred positive
  have below : num.toNat < 2 ^ precision := trimmed
  have half := Nat.two_pow_pos (precision - 1)
  have flag : (numNegate num precision).overflow =
      (!(numNegate num precision).unsignedp && numEq (numNegate num precision) num &&
        !numZerop (numNegate num precision)) := rfl
  have equal : (numNegate num precision).overflow = true ↔
      (numNegate num precision).toNat = num.toNat ∧ (numNegate num precision).toNat ≠ 0 := by
    rw [flag, numNegate_unsignedp, signed, Bool.not_false, Bool.true_and, Bool.and_eq_true,
      numEq_iff, Bool.not_eq_true', ← Bool.not_eq_true, numZerop_iff]
  rw [equal, numNegate_toNat fits trimmed, Representable, CppNum.toInt]
  split_ifs <;> omega

theorem numPlus_overflow (positive : 0 < precision) (fits : precision ≤ 2 * part)
    (lhsTrimmed : lhs.Trimmed precision) (rhsTrimmed : rhs.Trimmed precision)
    (signed : (lhs.unsignedp || rhs.unsignedp) = false) :
    (numPlus lhs rhs precision).overflow = true ↔
      ¬ Representable precision (lhs.toInt precision + rhs.toInt precision) := by
  have double := two_pow_pred positive
  have half := Nat.two_pow_pos (precision - 1)
  have flag : (numPlus lhs rhs precision).overflow = true ↔
      (numPositive lhs precision = numPositive rhs precision ∧
        numPositive lhs precision ≠ numPositive (numPlus lhs rhs precision) precision) := by
    rw [numPlus_eq]
    simp only [numTrim_unsignedp, untrimmedSum, signed, Bool.not_false, Bool.true_and,
      Bool.and_eq_true, beq_iff_eq, bne_iff_ne]
    rfl
  have resultTrimmed : (numPlus lhs rhs precision).Trimmed precision :=
    numPlus_trimmed fits lhs rhs
  have lhsSign := numPositive_iff_toInt positive fits lhsTrimmed
  have rhsSign := numPositive_iff_toInt positive fits rhsTrimmed
  have resultSign := numPositive_iff_toInt positive fits resultTrimmed
  have lhsRange := CppNum.toInt_representable positive lhsTrimmed
  have rhsRange := CppNum.toInt_representable positive rhsTrimmed
  have resultRange := CppNum.toInt_representable positive resultTrimmed
  have congruent : (numPlus lhs rhs precision).toInt precision ≡
      lhs.toInt precision + rhs.toInt precision [ZMOD (2 ^ precision : Nat)] :=
    ((CppNum.toInt_modEq _).trans (numPlus_modEq fits lhs rhs)).trans
      ((CppNum.toInt_modEq lhs).symm.add (CppNum.toInt_modEq rhs).symm)
  -- The result is the sum or one modulus away from it.
  have result : ∀ wraps : Int, Representable precision
      (lhs.toInt precision + rhs.toInt precision + (2 ^ precision : Nat) * wraps) →
      (numPlus lhs rhs precision).toInt precision =
        lhs.toInt precision + rhs.toInt precision + (2 ^ precision : Nat) * wraps := by
    intro wraps representable
    refine resultRange.eq_of_modEq positive representable (congruent.trans ?_)
    exact Int.modEq_iff_dvd.mpr ⟨wraps, by ring⟩
  have same := result 0
  have above := result (-1)
  have below := result 1
  rw [flag, ← Bool.coe_iff_coe, lhsSign, rhsSign, ne_eq, ← Bool.coe_iff_coe, lhsSign, resultSign]
  simp only [Representable] at *
  omega

end Overflow

/-- The result of an operation of the given signedness whose exact value is `x`. -/
structure Computes (precision : Nat) (unsignedp : Bool) (x : Int) (result : CppNum part) :
    Prop where
  signedness : result.unsignedp = unsignedp
  residue : (result.toNat : Int) = x % (2 ^ precision : Nat)
  flag : unsignedp = false → (result.overflow = true ↔ ¬ Representable precision x)

section Computes

variable {precision : Nat} {lhs rhs num : CppNum part}

@[simp]
theorem numPlus_unsignedp (lhs rhs : CppNum part) (precision : Nat) :
    (numPlus lhs rhs precision).unsignedp = (lhs.unsignedp || rhs.unsignedp) := by
  rw [numPlus_eq]
  exact numTrim_unsignedp _ precision

theorem numPlus_computes (positive : 0 < precision) (fits : precision ≤ 2 * part)
    (lhsTrimmed : lhs.Trimmed precision) (rhsTrimmed : rhs.Trimmed precision) :
    Computes precision (lhs.unsignedp || rhs.unsignedp)
      (lhs.value precision (lhs.unsignedp || rhs.unsignedp) +
        rhs.value precision (lhs.unsignedp || rhs.unsignedp))
      (numPlus lhs rhs precision) where
  signedness := numPlus_unsignedp lhs rhs precision
  residue := by
    refine (numPlus_trimmed fits lhs rhs).toNat_eq ((numPlus_modEq fits lhs rhs).trans ?_)
    exact (CppNum.value_modEq _ lhs).symm.add (CppNum.value_modEq _ rhs).symm
  flag := by
    intro signed
    rw [signed]
    exact numPlus_overflow positive fits lhsTrimmed rhsTrimmed signed

theorem numNegate_computes (positive : 0 < precision) (fits : precision ≤ 2 * part)
    (trimmed : num.Trimmed precision) :
    Computes precision num.unsignedp (-num.value precision num.unsignedp)
      (numNegate num precision) where
  signedness := numNegate_unsignedp num precision
  residue := by
    refine (numNegate_trimmed fits num).toNat_eq ((numNegate_modEq fits num).trans ?_)
    exact (CppNum.value_modEq _ num).symm.neg
  flag := by
    intro signed
    rw [signed]
    exact numNegate_overflow positive fits trimmed signed

theorem numMinus_overflow (positive : 0 < precision) (fits : precision ≤ 2 * part)
    (lhsTrimmed : lhs.Trimmed precision) (rhsTrimmed : rhs.Trimmed precision)
    (signed : (lhs.unsignedp || rhs.unsignedp) = false) :
    ((numBinaryOp lhs rhs .minus precision).overflow = true ↔
        ¬ Representable precision (lhs.toInt precision - rhs.toInt precision)) ↔
      rhs.toInt precision ≠ -(2 ^ (precision - 1) : Nat) := by
  have half := Nat.two_pow_pos (precision - 1)
  have lhsRange := CppNum.toInt_representable positive lhsTrimmed
  have flag := numPlus_overflow positive fits lhsTrimmed (numNegate_trimmed fits rhs)
    (by rwa [numNegate_unsignedp])
  have least := CppNum.toInt_eq_min_iff positive rhsTrimmed
  change ((numPlus lhs (numNegate rhs precision) precision).overflow = true ↔ _) ↔ _
  rw [flag, numNegate_toInt positive fits rhsTrimmed]
  simp only [Representable] at *
  split_ifs <;> omega

/-- Sums and negations are right.  A difference is, unless it is signed and the
subtrahend is the minimum: that one is not changed by its negation. -/
theorem numBinaryOp_additive (positive : 0 < precision) (fits : precision ≤ 2 * part)
    (lhsTrimmed : lhs.Trimmed precision) (rhsTrimmed : rhs.Trimmed precision)
    (unsignedp : Bool) (usual : unsignedp = (lhs.unsignedp || rhs.unsignedp)) :
    Computes precision unsignedp
        (lhs.value precision unsignedp + rhs.value precision unsignedp)
        (numBinaryOp lhs rhs .plus precision) ∧
      (Computes precision unsignedp
          (lhs.value precision unsignedp - rhs.value precision unsignedp)
          (numBinaryOp lhs rhs .minus precision) ↔
        ¬ (unsignedp = false ∧ rhs.toInt precision = -(2 ^ (precision - 1) : Nat))) ∧
      Computes precision rhs.unsignedp (-rhs.value precision rhs.unsignedp)
        (numNegate rhs precision) := by
  subst usual
  refine ⟨numPlus_computes positive fits lhsTrimmed rhsTrimmed, ⟨?_, ?_⟩,
    numNegate_computes positive fits rhsTrimmed⟩
  · rintro computes ⟨signed, least⟩
    have flag := computes.flag signed
    rw [signed] at flag
    exact (numMinus_overflow positive fits lhsTrimmed rhsTrimmed signed).mp flag least
  · intro apart
    refine ⟨?_, ?_, ?_⟩
    · exact (numPlus_unsignedp _ _ precision).trans (by rw [numNegate_unsignedp])
    · refine (numPlus_trimmed fits _ _).toNat_eq ((numPlus_modEq fits _ _).trans ?_)
      rw [sub_eq_add_neg]
      exact (CppNum.value_modEq _ lhs).symm.add
        ((numNegate_modEq fits rhs).trans (CppNum.value_modEq _ rhs).symm.neg)
    · intro signed
      rw [signed]
      exact (numMinus_overflow positive fits lhsTrimmed rhsTrimmed signed).mpr
        fun least => apart ⟨signed, least⟩

theorem numBinaryOp_additive_byte :
    Computes 8 false (0 - 1) (numBinaryOp (⟨0, 0, false, false⟩ : CppNum 64)
      ⟨0, 1, false, false⟩ .minus 8) :=
  (@numBinaryOp_additive 64 8 ⟨0, 0, false, false⟩ ⟨0, 1, false, false⟩ (by decide) (by decide)
    (show _ < _ by decide) (show _ < _ by decide) false rfl).2.1.mpr (by decide)

/-- Zero less the minimum is not representable and not flagged. -/
theorem numBinaryOp_minus_minimum :
    ¬ Computes 64 false
      (CppNum.value 64 false (⟨0, 0, false, false⟩ : CppNum 64) -
        CppNum.value 64 false (⟨0, 0x8000000000000000, false, false⟩ : CppNum 64))
      (numBinaryOp (⟨0, 0, false, false⟩ : CppNum 64) ⟨0, 0x8000000000000000, false, false⟩
        .minus 64) := by
  intro computes
  have flagged := (computes.flag rfl).mpr (by decide)
  revert flagged
  decide

end Computes

end GccCil.Libcpp
