import Mathlib.Tactic
import GccCil.Lib.BoxExtremes
import GccCil.Gcc.ValueRange

/-!
# Ranges of arithmetic expressions

The computed range contains every result when no end point wraps unseen.
Unsigned products, and with `-fwrapv` unsigned sums and differences, wrap
without being seen, and `ROUND_DIV_EXPR` is folded wrongly for some operands.
-/

namespace GccCil.Gcc.Vrp

open GccCil.Lib

section Types

variable {type : IntType}

theorem IntType.contains_unsigned (unsigned : type.unsigned = true) (value : Int) :
    type.Contains value ↔ 0 ≤ value ∧ value < (2 ^ type.precision : Nat) := by
  rw [IntType.Contains, minValue, maxValue, if_pos unsigned, if_pos unsigned]
  push_cast
  omega

theorem IntType.modulus_eq (type : IntType) :
    ((2 ^ type.precision : Nat) : Int) = 2 * 2 ^ (type.precision - 1) := by
  have positive := type.positive
  have double : 2 ^ type.precision = 2 * 2 ^ (type.precision - 1) := by
    rw [← pow_succ', Nat.sub_add_cancel positive]
  rw [double]
  push_cast
  rfl

theorem IntType.contains_iff (type : IntType) (value : Int) :
    type.Contains value ↔ InRange type.unsigned type.precision value := by
  cases unsigned : type.unsigned with
  | true => rw [contains_unsigned unsigned, inRange_unsigned]
  | false =>
    have modulus := type.modulus_eq
    rw [IntType.Contains, minValue, maxValue, unsigned, inRange_signed, modulus]
    simp only [Bool.false_eq_true, if_false]
    omega

theorem IntType.wrap_eq {value : Int} (contains : type.Contains value) :
    wrap type.unsigned type.precision value = value :=
  wrap_eq_of_inRange ((type.contains_iff value).mp contains)

theorem IntType.min_le_zero (type : IntType) : type.minValue ≤ 0 := by
  rw [minValue]
  split
  · exact le_refl 0
  · have power : (0 : Int) < 2 ^ (type.precision - 1) := by positivity
    omega

theorem IntType.zero_le_max (type : IntType) : 0 ≤ type.maxValue := by
  rw [maxValue]
  have power : (0 : Int) < 2 ^ (type.precision - 1) := by positivity
  have modulus := type.modulus_eq
  push_cast at modulus
  split
  · omega
  · omega

theorem IntType.max_eq (signed : type.unsigned = false) :
    type.maxValue = -type.minValue - 1 := by
  rw [maxValue, minValue, signed]
  simp only [Bool.false_eq_true, if_false]
  omega

def clamp (type : IntType) (value : Int) : Int := max type.minValue (min type.maxValue value)

theorem clamp_of_contains {value : Int} (contains : type.Contains value) :
    clamp type value = value := by
  have lower := contains.1
  have upper := contains.2
  rw [clamp]
  omega

theorem clamp_le {bound value : Int} (le : bound ≤ value) (contains : type.Contains value) :
    clamp type bound ≤ value := by
  have lower := contains.1
  rw [clamp]
  omega

theorem le_clamp {bound value : Int} (le : value ≤ bound) (contains : type.Contains value) :
    value ≤ clamp type bound := by
  have upper := contains.2
  rw [clamp]
  omega

end Types

section Quotients

variable {x y : Int}

theorem tmod_bounds (nonzero : y ≠ 0) :
    |x.tmod y| < |y| ∧ (0 ≤ x → 0 ≤ x.tmod y) ∧ (x ≤ 0 → x.tmod y ≤ 0) := by
  refine ⟨?_, Int.tmod_nonneg y, fun nonpos => ?_⟩
  · rw [← Int.natCast_natAbs, ← Int.natCast_natAbs, Int.natAbs_tmod]
    exact_mod_cast Nat.mod_lt _ (Int.natAbs_pos.mpr nonzero)
  · have opposite := Int.tmod_nonneg (a := -x) y (by omega)
    rw [Int.neg_tmod] at opposite
    omega

theorem ratio_eq (nonzero : y ≠ 0) : (x : ℚ) / y = x.tdiv y + (x.tmod y : ℚ) / y := by
  have cast : (y : ℚ) ≠ 0 := by exact_mod_cast nonzero
  have division : (x : ℚ) = y * x.tdiv y + x.tmod y := by
    exact_mod_cast (Int.mul_tdiv_add_tmod x y).symm
  field_simp
  linarith

theorem fraction_bounds (nonzero : y ≠ 0) :
    |(x.tmod y : ℚ) / y| < 1 ∧ (0 ≤ (x : ℚ) / y → 0 ≤ (x.tmod y : ℚ) / y) ∧
      ((x : ℚ) / y ≤ 0 → (x.tmod y : ℚ) / y ≤ 0) := by
  obtain ⟨small, ofNonneg, ofNonpos⟩ := tmod_bounds (x := x) nonzero
  have castPositive : (0 : ℚ) < |(y : ℚ)| := abs_pos.mpr (by exact_mod_cast nonzero)
  refine ⟨?_, fun nonneg => ?_, fun nonpos => ?_⟩
  · rw [abs_div, div_lt_one castPositive]
    exact_mod_cast small
  · rcases lt_or_gt_of_ne nonzero with negative | positive
    · have divisor : (y : ℚ) < 0 := by exact_mod_cast negative
      have dividend : (x : ℚ) ≤ 0 := by
        by_contra above
        exact absurd nonneg (not_le.mpr (div_neg_of_pos_of_neg (not_le.mp above) divisor))
      exact div_nonneg_of_nonpos (by exact_mod_cast ofNonpos (by exact_mod_cast dividend))
        divisor.le
    · have divisor : (0 : ℚ) < y := by exact_mod_cast positive
      have dividend : (0 : ℚ) ≤ x := by
        by_contra below
        exact absurd nonneg (not_le.mpr (div_neg_of_neg_of_pos (not_le.mp below) divisor))
      exact div_nonneg (by exact_mod_cast ofNonneg (by exact_mod_cast dividend)) divisor.le
  · rcases lt_or_gt_of_ne nonzero with negative | positive
    · have divisor : (y : ℚ) < 0 := by exact_mod_cast negative
      have dividend : (0 : ℚ) ≤ x := by
        by_contra below
        exact absurd nonpos (not_le.mpr (div_pos_of_neg_of_neg (not_le.mp below) divisor))
      exact div_nonpos_of_nonneg_of_nonpos
        (by exact_mod_cast ofNonneg (by exact_mod_cast dividend)) divisor.le
    · have divisor : (0 : ℚ) < y := by exact_mod_cast positive
      have dividend : (x : ℚ) ≤ 0 := by
        by_contra above
        exact absurd nonpos (not_le.mpr (div_pos (not_le.mp above) divisor))
      exact div_nonpos_of_nonpos_of_nonneg
        (by exact_mod_cast ofNonpos (by exact_mod_cast dividend)) divisor.le

def quoNeg (uns : Bool) (x y : Int) : Bool := !uns && (decide (x < 0) != decide (y < 0))

theorem ratio_nonneg {uns : Bool} (plain : uns = true → 0 ≤ x ∧ 0 ≤ y)
    (positive : quoNeg uns x y = false) : 0 ≤ (x : ℚ) / y := by
  cases uns with
  | true => exact div_nonneg (by exact_mod_cast (plain rfl).1) (by exact_mod_cast (plain rfl).2)
  | false =>
    have sameSign : decide (x < 0) = decide (y < 0) := by simpa [quoNeg] using positive
    rcases lt_or_ge x 0 with negative | nonneg
    · have divisor : y < 0 := by simpa [negative] using sameSign.symm
      exact div_nonneg_of_nonpos (by exact_mod_cast negative.le) (by exact_mod_cast divisor.le)
    · have divisor : 0 ≤ y := by simpa [not_lt.mpr nonneg] using sameSign.symm
      exact div_nonneg (by exact_mod_cast nonneg) (by exact_mod_cast divisor)

theorem ratio_nonpos {uns : Bool} (negative : quoNeg uns x y = true) : (x : ℚ) / y ≤ 0 := by
  obtain ⟨_, differ⟩ : uns = false ∧ (decide (x < 0) != decide (y < 0)) = true := by
    simpa [quoNeg] using negative
  have otherSign : decide (x < 0) ≠ decide (y < 0) := by simpa using differ
  rcases lt_or_ge x 0 with negative | nonneg
  · have divisor : 0 ≤ y := by
      by_contra below
      exact otherSign (by simp [negative, not_le.mp below])
    exact div_nonpos_of_nonpos_of_nonneg (by exact_mod_cast negative.le) (by exact_mod_cast divisor)
  · have divisor : y ≤ 0 := by
      by_contra above
      exact otherSign (by simp [not_lt.mpr nonneg, (not_le.mp above).le])
    exact div_nonpos_of_nonneg_of_nonpos (by exact_mod_cast nonneg) (by exact_mod_cast divisor)

theorem floor_add_eq {quo : Int} (shift : Int) {fraction : ℚ} (lower : (shift : ℚ) ≤ fraction)
    (upper : fraction < shift + 1) : ⌊(quo : ℚ) + fraction⌋ = quo + shift := by
  rw [Int.floor_eq_iff]
  push_cast
  constructor
  · linarith
  · linarith

theorem ceil_add_eq {quo : Int} (shift : Int) {fraction : ℚ} (lower : (shift : ℚ) - 1 < fraction)
    (upper : fraction ≤ shift) : ⌈(quo : ℚ) + fraction⌉ = quo + shift := by
  rw [Int.ceil_eq_iff]
  push_cast
  constructor
  · linarith
  · linarith

theorem fraction_ne_zero (nonzero : y ≠ 0) (rem : x.tmod y ≠ 0) : (x.tmod y : ℚ) / y ≠ 0 :=
  div_ne_zero (by exact_mod_cast rem) (by exact_mod_cast nonzero)

theorem tdiv_eq_roundRatio (nonzero : y ≠ 0) : x.tdiv y = roundRatio .truncDiv ((x : ℚ) / y) := by
  obtain ⟨small, ofNonneg, ofNonpos⟩ := fraction_bounds (x := x) nonzero
  obtain ⟨lower, upper⟩ := abs_lt.mp small
  simp only [roundRatio]
  split
  · rename_i nonneg
    rw [ratio_eq nonzero, floor_add_eq 0 (by simpa using ofNonneg nonneg) (by simpa using upper),
      add_zero]
  · rename_i negative
    rw [ratio_eq nonzero, ceil_add_eq 0 (by simpa using lower)
      (by simpa using ofNonpos (not_le.mp negative).le), add_zero]

variable {hostBits : Nat} {uns : Bool}

theorem floorDiv_eq_roundRatio (nonzero : y ≠ 0) (plain : uns = true → 0 ≤ x ∧ 0 ≤ y) :
    divAndRoundDouble hostBits uns .floorDiv x y = roundRatio .floorDiv ((x : ℚ) / y) := by
  obtain ⟨small, ofNonneg, ofNonpos⟩ := fraction_bounds (x := x) nonzero
  obtain ⟨lower, upper⟩ := abs_lt.mp small
  change (if quoNeg uns x y = true ∧ x.tmod y ≠ 0 then x.tdiv y - 1 else x.tdiv y) = ⌊_⌋
  rw [ratio_eq nonzero]
  split
  · rename_i adjusts
    have nonpos := ofNonpos (ratio_nonpos adjusts.1)
    have below := lt_of_le_of_ne nonpos (fraction_ne_zero nonzero adjusts.2)
    rw [floor_add_eq (-1) (by push_cast; exact lower.le) (by push_cast; linarith)]
    rfl
  · rename_i exact_
    rw [floor_add_eq 0 ?_ (by simpa using upper), add_zero]
    by_cases rem : x.tmod y = 0
    · simp [rem]
    · have positive : quoNeg uns x y = false := by
        rw [Bool.eq_false_iff]
        exact fun negative => exact_ ⟨negative, rem⟩
      simpa using ofNonneg (ratio_nonneg plain positive)

theorem ceilDiv_eq_roundRatio (nonzero : y ≠ 0) (plain : uns = true → 0 ≤ x ∧ 0 ≤ y) :
    divAndRoundDouble hostBits uns .ceilDiv x y = roundRatio .ceilDiv ((x : ℚ) / y) := by
  obtain ⟨small, ofNonneg, ofNonpos⟩ := fraction_bounds (x := x) nonzero
  obtain ⟨lower, upper⟩ := abs_lt.mp small
  change (if quoNeg uns x y = false ∧ x.tmod y ≠ 0 then x.tdiv y + 1 else x.tdiv y) = ⌈_⌉
  rw [ratio_eq nonzero]
  split
  · rename_i adjusts
    have nonneg := ofNonneg (ratio_nonneg plain adjusts.1)
    have above := lt_of_le_of_ne nonneg (fraction_ne_zero nonzero adjusts.2).symm
    rw [ceil_add_eq 1 (by push_cast; linarith) (by push_cast; exact upper.le)]
  · rename_i exact_
    rw [ceil_add_eq 0 (by simpa using lower) ?_, add_zero]
    by_cases rem : x.tmod y = 0
    · simp [rem]
    · have negative : quoNeg uns x y = true := by
        rw [← Bool.not_eq_false]
        exact fun positive => exact_ ⟨positive, rem⟩
      simpa using ofNonpos (ratio_nonpos negative)

/-- The operands that `ROUND_DIV_EXPR` is folded right for.  The ratio is not between two
integers, and it is not a negative number next to zero that rounds to minus one.  An unsigned
divisor with the sign bit of a double word is negated before twice the remainder is compared with
it, and a remainder of the sign bit alone is doubled to zero. -/
def RoundsRight (hostBits : Nat) (uns : Bool) (x y : Int) : Prop :=
  if uns = true ∧ 2 ^ (2 * hostBits - 1) ≤ y then
    x.tmod y ≠ 2 ^ (2 * hostBits - 1) ∧
      (x.tmod y < 2 ^ (2 * hostBits - 1) →
        (2 * 2 ^ (2 * hostBits - 1) - y < 2 * x.tmod y ↔ y ≤ 2 * x.tmod y))
  else 2 * |x.tmod y| ≠ |y| ∧ ¬ (quoNeg uns x y = true ∧ |x| < |y| ∧ |y| < 2 * |x|)

theorem signedDouble_eq {value : Int} (positive : 0 < hostBits)
    (lower : -2 ^ (2 * hostBits - 1) ≤ value) (upper : value < 2 ^ (2 * hostBits - 1)) :
    signedDouble hostBits value = value := by
  apply wrap_eq_of_inRange
  have double : 2 ^ (2 * hostBits) = 2 * 2 ^ (2 * hostBits - 1) := by
    rw [← pow_succ']
    congr 1
    omega
  rw [inRange_signed, double]
  push_cast
  omega

theorem unsignedDouble_eq {value : Int} (nonneg : 0 ≤ value)
    (upper : value < (2 ^ (2 * hostBits) : Nat)) : unsignedDouble hostBits value = value := by
  apply wrap_eq_of_inRange
  rw [inRange_unsigned]
  exact ⟨nonneg, upper⟩

def FitsDouble (hostBits : Nat) (uns : Bool) (x : Int) : Prop :=
  if uns then 0 ≤ x ∧ x < 2 * 2 ^ (2 * hostBits - 1)
  else -2 ^ (2 * hostBits - 1) ≤ x ∧ x < 2 ^ (2 * hostBits - 1)

theorem absDen_eq (positive : 0 < hostBits) (fits : FitsDouble hostBits uns y)
    (small : uns = true → y < 2 ^ (2 * hostBits - 1)) :
    (let den := if uns then y else |y|
     unsignedDouble hostBits (if signedDouble hostBits den < 0 then -den else den)) = |y| := by
  have double : ((2 ^ (2 * hostBits) : Nat) : Int) = 2 * 2 ^ (2 * hostBits - 1) := by
    push_cast
    rw [← pow_succ']
    congr 1
    omega
  have power : (0 : Int) < 2 ^ (2 * hostBits - 1) := by positivity
  have magnitude : (if uns then y else |y|) = |y| := by
    cases uns with
    | true => exact (abs_of_nonneg (show 0 ≤ y ∧ _ from fits).1).symm
    | false => rfl
  have bounded : |y| ≤ 2 ^ (2 * hostBits - 1) := by
    cases uns with
    | true =>
      rw [abs_of_nonneg (show 0 ≤ y ∧ _ from fits).1]
      exact (small rfl).le
    | false =>
      have bounds : -2 ^ (2 * hostBits - 1) ≤ y ∧ y < 2 ^ (2 * hostBits - 1) := fits
      exact abs_le.mpr ⟨bounds.1, bounds.2.le⟩
  have nonneg := abs_nonneg y
  dsimp only
  rw [magnitude]
  rcases lt_or_eq_of_le bounded with below | atLimit
  · rw [signedDouble_eq positive (by omega) below, if_neg (by omega),
      unsignedDouble_eq nonneg (by omega)]
  · have limit : signedDouble hostBits |y| = -2 ^ (2 * hostBits - 1) := by
      have congruent : |y| ≡ -2 ^ (2 * hostBits - 1) [ZMOD (2 ^ (2 * hostBits) : Nat)] := by
        rw [Int.modEq_iff_dvd, double]
        exact ⟨-1, by rw [atLimit]; ring⟩
      rw [signedDouble, wrap_congr false congruent]
      exact signedDouble_eq positive (le_refl _) (by omega)
    have negated : unsignedDouble hostBits (-|y|) = |y| := by
      have congruent : -|y| ≡ |y| [ZMOD (2 ^ (2 * hostBits) : Nat)] := by
        rw [Int.modEq_iff_dvd, double]
        exact ⟨1, by rw [atLimit]; ring⟩
      rw [unsignedDouble, wrap_congr true congruent]
      exact unsignedDouble_eq nonneg (by omega)
    rw [limit, if_pos (by omega), negated]

theorem roundDiv_eq (positive : 0 < hostBits) (nonzero : y ≠ 0) (xFits : FitsDouble hostBits uns x)
    (yFits : FitsDouble hostBits uns y) (small : uns = true → y < 2 ^ (2 * hostBits - 1)) :
    divAndRoundDouble hostBits uns .roundDiv x y =
      if |y| < 2 * |x.tmod y| then (if x.tdiv y < 0 then x.tdiv y - 1 else x.tdiv y + 1)
      else x.tdiv y := by
  have double : ((2 ^ (2 * hostBits) : Nat) : Int) = 2 * 2 ^ (2 * hostBits - 1) := by
    push_cast
    rw [← pow_succ']
    congr 1
    omega
  obtain ⟨remSmall, _, _⟩ := tmod_bounds (x := x) nonzero
  have bounded : |y| ≤ 2 ^ (2 * hostBits - 1) := by
    cases uns with
    | true =>
      rw [abs_of_nonneg (show 0 ≤ y ∧ _ from yFits).1]
      exact (small rfl).le
    | false =>
      have bounds : -2 ^ (2 * hostBits - 1) ≤ y ∧ y < 2 ^ (2 * hostBits - 1) := yFits
      exact abs_le.mpr ⟨bounds.1, bounds.2.le⟩
  have remBounds := abs_lt.mp (remSmall.trans_le bounded)
  have absRem : (if signedDouble hostBits (x.tmod y) < 0 then -x.tmod y else x.tmod y) =
      |x.tmod y| := by
    rw [signedDouble_eq positive remBounds.1.le remBounds.2]
    split
    · exact (abs_of_neg ‹_›).symm
    · exact (abs_of_nonneg (not_lt.mp ‹_›)).symm
  have twice : unsignedDouble hostBits (2 * |x.tmod y|) = 2 * |x.tmod y| :=
    unsignedDouble_eq (by positivity) (by omega)
  have magnitude := absDen_eq positive yFits small
  simp only [divAndRoundDouble, absRem, twice]
  dsimp only at magnitude
  rw [magnitude]
  split
  · rename_i rounds
    have large : 2 ≤ |y| := by
      have remNonneg := abs_nonneg (x.tmod y)
      omega
    have divisorAbs := Int.natCast_natAbs y
    have dividendAbs := Int.natCast_natAbs x
    have quoAbs := Int.natCast_natAbs (x.tdiv y)
    have half : (x.tdiv y).natAbs ≤ x.natAbs / 2 := by
      rw [Int.natAbs_tdiv]
      exact Nat.div_le_div_left (by omega) (by decide)
    have dividend : |x| < 2 * 2 ^ (2 * hostBits - 1) := by
      have power : (0 : Int) < 2 ^ (2 * hostBits - 1) := by positivity
      cases uns with
      | true =>
        have bounds : 0 ≤ x ∧ x < 2 * 2 ^ (2 * hostBits - 1) := xFits
        rw [abs_of_nonneg bounds.1]
        exact bounds.2
      | false =>
        have bounds : -2 ^ (2 * hostBits - 1) ≤ x ∧ x < 2 ^ (2 * hostBits - 1) := xFits
        rw [abs_lt]
        omega
    have quoBounds : |x.tdiv y| < 2 ^ (2 * hostBits - 1) := by omega
    rw [signedDouble_eq positive (by linarith [(abs_lt.mp quoBounds).1]) (abs_lt.mp quoBounds).2]
  · rfl

theorem nearest_eq (nonzero : y ≠ 0) :
    roundRatio .roundDiv ((x : ℚ) / y) =
      if |y| ≤ 2 * |x.tmod y| then (if 0 ≤ (x : ℚ) / y then x.tdiv y + 1 else x.tdiv y - 1)
      else x.tdiv y := by
  obtain ⟨fractionSmall, ofNonneg, ofNonpos⟩ := fraction_bounds (x := x) nonzero
  obtain ⟨lower, upper⟩ := abs_lt.mp fractionSmall
  have divisor : (0 : ℚ) < ((|y| : Int) : ℚ) := by exact_mod_cast abs_pos.mpr nonzero
  have castAbs : |(x.tmod y : ℚ) / y| = (|x.tmod y| : Int) / (|y| : Int) := by
    push_cast
    rw [abs_div]
  simp only [roundRatio]
  by_cases rounds : |y| ≤ 2 * |x.tmod y|
  · have large : (1 : ℚ) / 2 ≤ |(x.tmod y : ℚ) / y| := by
      rw [castAbs, div_le_div_iff₀ (by norm_num) divisor]
      have cast : ((|y| : Int) : ℚ) ≤ 2 * ((|x.tmod y| : Int) : ℚ) := by exact_mod_cast rounds
      linarith
    rw [if_pos rounds]
    split
    · rename_i nonneg
      rw [abs_of_nonneg (ofNonneg nonneg)] at large
      rw [ratio_eq nonzero, add_assoc,
        floor_add_eq 1 (by push_cast; linarith) (by push_cast; linarith)]
    · rename_i negative
      rw [abs_of_nonpos (ofNonpos (not_le.mp negative).le)] at large
      rw [ratio_eq nonzero, add_sub_assoc,
        ceil_add_eq (-1) (by push_cast; linarith) (by push_cast; linarith)]
      rfl
  · have small : |(x.tmod y : ℚ) / y| < 1 / 2 := by
      rw [castAbs, div_lt_div_iff₀ divisor (by norm_num)]
      have cast : 2 * ((|x.tmod y| : Int) : ℚ) < ((|y| : Int) : ℚ) := by
        exact_mod_cast not_le.mp rounds
      linarith
    obtain ⟨lowerHalf, upperHalf⟩ := abs_lt.mp small
    rw [if_neg rounds]
    split
    · rename_i nonneg
      have fractionNonneg := ofNonneg nonneg
      rw [ratio_eq nonzero, add_assoc,
        floor_add_eq 0 (by push_cast; linarith) (by push_cast; linarith), add_zero]
    · rename_i negative
      have fractionNonpos := ofNonpos (not_le.mp negative).le
      rw [ratio_eq nonzero, add_sub_assoc,
        ceil_add_eq 0 (by push_cast; linarith) (by push_cast; linarith), add_zero]

theorem tdiv_of_abs_lt (small : |x| < |y|) : x.tdiv y = 0 ∧ x.tmod y = x := by
  have zero : x.tdiv y = 0 := by
    rw [← Int.natAbs_eq_zero, Int.natAbs_tdiv]
    exact Nat.div_eq_of_lt (by zify; exact small)
  have division := Int.mul_tdiv_add_tmod x y
  rw [zero, mul_zero, zero_add] at division
  exact ⟨zero, division⟩

theorem tdiv_neg_iff (nonzero : y ≠ 0) (plain : uns = true → 0 ≤ x ∧ 0 ≤ y)
    (rounds : x.tmod y ≠ 0) :
    (x.tdiv y < 0 ↔ ¬ 0 ≤ (x : ℚ) / y) ↔ ¬ (quoNeg uns x y = true ∧ |x| < |y|) := by
  obtain ⟨fractionSmall, ofNonneg, ofNonpos⟩ := fraction_bounds (x := x) nonzero
  obtain ⟨lower, upper⟩ := abs_lt.mp fractionSmall
  have ratio := ratio_eq (x := x) nonzero
  obtain ⟨remSmall, _, _⟩ := tmod_bounds (x := x) nonzero
  have division := Int.mul_tdiv_add_tmod x y
  have signIff : quoNeg uns x y = true ↔ ¬ 0 ≤ (x : ℚ) / y := by
    constructor
    · intro negative nonneg
      have zero := le_antisymm (ratio_nonpos negative) nonneg
      have dividend : (x : ℚ) = 0 := by
        rcases div_eq_zero_iff.mp zero with dividend | divisor
        · exact dividend
        · exact absurd (by exact_mod_cast divisor) nonzero
      have : x = 0 := by exact_mod_cast dividend
      exact rounds (by simp [this])
    · intro negative
      rw [← Bool.not_eq_false]
      exact fun positive => negative (ratio_nonneg plain positive)
  rw [signIff]
  by_cases negative : 0 ≤ (x : ℚ) / y
  · simp only [negative, not_true_eq_false, iff_false, false_and, not_false_eq_true, iff_true,
      not_lt]
    by_contra below
    have quo : (x.tdiv y : ℚ) ≤ -1 := by exact_mod_cast Int.le_sub_one_of_lt (not_le.mp below)
    linarith
  · simp only [negative, not_false_eq_true, iff_true, true_and, not_lt]
    have quoNonpos : x.tdiv y ≤ 0 := by
      by_contra above
      have quo : (1 : ℚ) ≤ x.tdiv y := by exact_mod_cast not_le.mp above
      linarith
    constructor
    · intro below
      by_contra small
      have zero := (tdiv_of_abs_lt (not_le.mp small)).1
      omega
    · intro large
      by_contra above
      have zero : x.tdiv y = 0 := by omega
      rw [zero, mul_zero, zero_add] at division
      rw [division] at remSmall
      exact absurd remSmall (not_lt.mpr large)

theorem signedDouble_of_nonneg {value : Int} (positive : 0 < hostBits) (nonneg : 0 ≤ value)
    (upper : value < 2 * 2 ^ (2 * hostBits - 1)) :
    signedDouble hostBits value < 0 ↔ 2 ^ (2 * hostBits - 1) ≤ value := by
  have double : ((2 ^ (2 * hostBits) : Nat) : Int) = 2 * 2 ^ (2 * hostBits - 1) := by
    push_cast
    rw [← pow_succ']
    congr 1
    omega
  rcases lt_or_ge value (2 ^ (2 * hostBits - 1)) with small | large
  · rw [signedDouble_eq positive (by omega) small]
    omega
  · have congruent : value ≡ value - (2 ^ (2 * hostBits) : Nat) [ZMOD (2 ^ (2 * hostBits) : Nat)] :=
      Int.modEq_iff_dvd.mpr ⟨-1, by ring⟩
    rw [signedDouble, wrap_congr false congruent]
    have folded : signedDouble hostBits (value - (2 ^ (2 * hostBits) : Nat)) =
        value - (2 ^ (2 * hostBits) : Nat) := signedDouble_eq positive (by omega) (by omega)
    rw [signedDouble] at folded
    omega

theorem roundDiv_eq_large (positive : 0 < hostBits) (xFits : FitsDouble hostBits true x)
    (yFits : FitsDouble hostBits true y) (large : 2 ^ (2 * hostBits - 1) ≤ y)
    (right : RoundsRight hostBits true x y) :
    divAndRoundDouble hostBits true .roundDiv x y =
      if y ≤ 2 * x.tmod y then x.tdiv y + 1 else x.tdiv y := by
  obtain ⟨notLimit, compares⟩ : x.tmod y ≠ 2 ^ (2 * hostBits - 1) ∧ _ := by
    rw [RoundsRight, if_pos ⟨rfl, large⟩] at right
    exact right
  have xBounds : 0 ≤ x ∧ x < 2 * 2 ^ (2 * hostBits - 1) := xFits
  have yBounds : 0 ≤ y ∧ y < 2 * 2 ^ (2 * hostBits - 1) := yFits
  have double : ((2 ^ (2 * hostBits) : Nat) : Int) = 2 * 2 ^ (2 * hostBits - 1) := by
    push_cast
    rw [← pow_succ']
    congr 1
    omega
  have limit : (2 : Int) ≤ 2 ^ (2 * hostBits - 1) :=
    le_self_pow₀ (by decide) (by omega)
  have remNonneg : 0 ≤ x.tmod y := Int.tmod_nonneg y xBounds.1
  have remSmall : x.tmod y < y := Int.tmod_lt_of_pos x (by omega)
  have quoSmall : x.tdiv y < 2 := by
    rw [Int.tdiv_eq_ediv_of_nonneg xBounds.1]
    exact Int.ediv_lt_of_lt_mul (by omega) (by omega)
  have quoNonneg : 0 ≤ x.tdiv y := Int.tdiv_nonneg xBounds.1 yBounds.1
  have quoSign : ¬ signedDouble hostBits (x.tdiv y) < 0 := by
    rw [signedDouble_of_nonneg positive quoNonneg (by omega)]
    omega
  have absDen : unsignedDouble hostBits (-y) = 2 * 2 ^ (2 * hostBits - 1) - y := by
    have congruent : -y ≡ 2 * 2 ^ (2 * hostBits - 1) - y [ZMOD (2 ^ (2 * hostBits) : Nat)] :=
      Int.modEq_iff_dvd.mpr ⟨1, by rw [double]; ring⟩
    rw [unsignedDouble, wrap_congr true congruent]
    exact unsignedDouble_eq (by omega) (by omega)
  simp only [divAndRoundDouble, if_true, if_neg quoSign,
    if_pos ((signedDouble_of_nonneg positive yBounds.1 yBounds.2).mpr large), absDen]
  refine if_congr ?_ rfl rfl
  rcases lt_or_gt_of_ne notLimit with small | beyond
  · rw [if_neg (by rw [signedDouble_of_nonneg positive remNonneg (by omega)]; omega),
      unsignedDouble_eq (by omega) (by omega)]
    exact compares small
  · have twice : unsignedDouble hostBits (2 * -x.tmod y) =
        2 * (2 * 2 ^ (2 * hostBits - 1)) - 2 * x.tmod y := by
      have congruent : 2 * -x.tmod y ≡ 2 * (2 * 2 ^ (2 * hostBits - 1)) - 2 * x.tmod y
          [ZMOD (2 ^ (2 * hostBits) : Nat)] := Int.modEq_iff_dvd.mpr ⟨2, by rw [double]; ring⟩
      rw [unsignedDouble, wrap_congr true congruent]
      exact unsignedDouble_eq (by omega) (by omega)
    rw [if_pos (by rw [signedDouble_of_nonneg positive remNonneg (by omega)]; omega), twice]
    constructor
    · intro _
      omega
    · intro _
      omega

theorem roundDiv_eq_roundRatio (positive : 0 < hostBits) (nonzero : y ≠ 0)
    (xFits : FitsDouble hostBits uns x) (yFits : FitsDouble hostBits uns y)
    (right : RoundsRight hostBits uns x y) :
    divAndRoundDouble hostBits uns .roundDiv x y = roundRatio .roundDiv ((x : ℚ) / y) := by
  by_cases large : uns = true ∧ 2 ^ (2 * hostBits - 1) ≤ y
  · obtain ⟨rfl, large⟩ := large
    have nonneg : 0 ≤ x ∧ 0 ≤ y := ⟨xFits.1, yFits.1⟩
    have ratio : 0 ≤ (x : ℚ) / y :=
      div_nonneg (by exact_mod_cast nonneg.1) (by exact_mod_cast nonneg.2)
    rw [roundDiv_eq_large positive xFits yFits large right, nearest_eq nonzero, if_pos ratio,
      abs_of_nonneg nonneg.2, abs_of_nonneg (Int.tmod_nonneg y nonneg.1)]
  rw [RoundsRight, if_neg large] at right
  obtain ⟨noTie, notNextToZero⟩ := right
  rw [roundDiv_eq positive nonzero xFits yFits
    (fun unsigned => not_le.mp fun le => large ⟨unsigned, le⟩), nearest_eq nonzero]
  have strict : |y| < 2 * |x.tmod y| ↔ |y| ≤ 2 * |x.tmod y| :=
    ⟨le_of_lt, fun le => lt_of_le_of_ne le fun tie => noTie tie.symm⟩
  simp only [strict]
  split
  · rename_i rounds
    have divisorPositive := abs_pos.mpr nonzero
    have remNonzero : x.tmod y ≠ 0 := by
      intro zero
      rw [zero, abs_zero] at rounds
      omega
    have plain : uns = true → 0 ≤ x ∧ 0 ≤ y := by
      rintro rfl
      exact ⟨xFits.1, yFits.1⟩
    have sign : x.tdiv y < 0 ↔ ¬ 0 ≤ (x : ℚ) / y := by
      rw [tdiv_neg_iff nonzero plain remNonzero]
      rintro ⟨negative, close⟩
      refine notNextToZero ⟨negative, close, ?_⟩
      rwa [← strict, (tdiv_of_abs_lt close).2] at rounds
    simp only [sign]
    split <;> simp_all
  · rfl

theorem roundRatio_mono (code : ArithCode) : Monotone (roundRatio code) := by
  intro r s le
  have truncMono : (if 0 ≤ r then ⌊r⌋ else ⌈r⌉) ≤ (if 0 ≤ s then ⌊s⌋ else ⌈s⌉) := by
    split
    · rename_i nonneg
      rw [if_pos (nonneg.trans le)]
      exact Int.floor_le_floor le
    · rename_i negative
      have rounds : ⌈r⌉ ≤ 0 := Int.ceil_le.mpr (by exact_mod_cast (not_le.mp negative).le)
      split
      · exact rounds.trans (Int.floor_nonneg.mpr ‹_›)
      · exact Int.ceil_le_ceil le
  cases code with
  | floorDiv => exact Int.floor_le_floor le
  | ceilDiv => exact Int.ceil_le_ceil le
  | roundDiv =>
    simp only [roundRatio]
    split
    · rename_i nonneg
      rw [if_pos (nonneg.trans le)]
      exact Int.floor_le_floor (by linarith)
    · rename_i negative
      have rounds : ⌈r - 1 / 2⌉ ≤ 0 := Int.ceil_le.mpr (by push_cast; linarith [not_le.mp negative])
      split
      · exact rounds.trans (Int.floor_nonneg.mpr (by linarith [show 0 ≤ s from ‹_›]))
      · exact Int.ceil_le_ceil (by linarith)
  | plus => exact truncMono
  | minus => exact truncMono
  | mult => exact truncMono
  | truncDiv => exact truncMono
  | exactDiv => exact truncMono
  | min => exact truncMono
  | max => exact truncMono

end Quotients

section Corners

variable {a b c d x y : Int}

theorem mul_box (lowerX : a ≤ x) (upperX : x ≤ b) (lowerY : c ≤ y) (upperY : y ≤ d) :
    (∃ x' y', (x' = a ∨ x' = b) ∧ (y' = c ∨ y' = d) ∧ x' * y' ≤ x * y) ∧
      ∃ x' y', (x' = a ∨ x' = b) ∧ (y' = c ∨ y' = d) ∧ x * y ≤ x' * y' := by
  apply box_corners _ _ lowerX upperX lowerY upperY
  · intro y _ _
    rcases le_total 0 y with nonneg | nonpos
    · exact .inl fun _ _ _ _ le => mul_le_mul_of_nonneg_right le nonneg
    · exact .inr fun _ _ _ _ le => mul_le_mul_of_nonpos_right le nonpos
  · intro x _ _
    rcases le_total 0 x with nonneg | nonpos
    · exact .inl fun _ _ _ _ le => mul_le_mul_of_nonneg_left le nonneg
    · exact .inr fun _ _ _ _ le => mul_le_mul_of_nonpos_left le nonpos

theorem ratio_box (noZero : 0 < c ∨ d < 0) (lowerX : a ≤ x) (upperX : x ≤ b) (lowerY : c ≤ y)
    (upperY : y ≤ d) :
    (∃ x' y', (x' = a ∨ x' = b) ∧ (y' = c ∨ y' = d) ∧ (x' : ℚ) / y' ≤ (x : ℚ) / y) ∧
      ∃ x' y', (x' = a ∨ x' = b) ∧ (y' = c ∨ y' = d) ∧ (x : ℚ) / y ≤ (x' : ℚ) / y' := by
  apply box_corners (f := fun x y : Int => (x : ℚ) / y) _ _ lowerX upperX lowerY upperY
  · intro y lower upper
    rcases noZero with positive | negative
    · refine .inl fun _ _ _ _ le => div_le_div_of_nonneg_right (by exact_mod_cast le) ?_
      exact_mod_cast positive.le.trans lower
    · refine .inr fun _ _ _ _ le => div_le_div_of_nonpos_of_le ?_ (by exact_mod_cast le)
      exact_mod_cast upper.trans negative.le
  · intro x _ _
    have inverse : AntitoneOn (fun y : Int => ((y : ℚ))⁻¹) (Set.Icc c d) := by
      intro y yIn z zIn le
      rcases noZero with positive | negative
      · exact inv_anti₀ (by exact_mod_cast positive.trans_le yIn.1) (by exact_mod_cast le)
      · exact (inv_le_inv_of_neg (by exact_mod_cast zIn.2.trans_lt negative)
          (by exact_mod_cast yIn.2.trans_lt negative)).mpr (by exact_mod_cast le)
    simp only [div_eq_mul_inv]
    rcases le_total 0 x with nonneg | nonpos
    · exact .inr fun _ yIn _ zIn le =>
        mul_le_mul_of_nonneg_left (inverse yIn zIn le) (by exact_mod_cast nonneg)
    · exact .inl fun _ yIn _ zIn le =>
        mul_le_mul_of_nonpos_left (inverse yIn zIn le) (by exact_mod_cast nonpos)

end Corners

end GccCil.Gcc.Vrp
