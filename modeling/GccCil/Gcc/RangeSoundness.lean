import Mathlib.Tactic
import GccCil.Gcc.RangeArithmetic

/-!
# Soundness of the ranges of arithmetic expressions

The end points decide about a whole box unless an unsigned operation wraps
unseen, as products do and with `-fwrapv` also sums and differences, or a
`ROUND_DIV_EXPR` is folded wrongly.
-/

namespace GccCil.Gcc.Vrp

open GccCil.Lib

section Exact

variable {x y : Int}

/-- The result in unbounded arithmetic, for the operands that have one. -/
def exactValue (code : ArithCode) (x y : Int) : Int :=
  match code with
  | .plus => x + y
  | .minus => x - y
  | .mult => x * y
  | .min => min x y
  | .max => max x y
  | code => roundRatio code ((x : ℚ) / y)

theorem roundRatio_intCast (code : ArithCode) (n : Int) : roundRatio code n = n := by
  have floor : ⌊(n : ℚ) + 1 / 2⌋ = n := by
    rw [Int.floor_eq_iff]
    constructor
    · linarith
    · linarith
  have ceil : ⌈(n : ℚ) - 1 / 2⌉ = n := by
    rw [Int.ceil_eq_iff]
    constructor
    · linarith
    · linarith
  cases code <;> simp only [roundRatio, Int.floor_intCast, Int.ceil_intCast, floor, ceil, ite_self]

theorem exactResult_eq {code : ArithCode} {result : Int}
    (defined : exactResult code x y = some result) :
    result = exactValue code x y ∧ (code.isDiv = true → y ≠ 0) := by
  have divided : ∀ code : ArithCode, (if y = 0 then none else
      some (roundRatio code ((x : ℚ) / y))) = some result →
      result = roundRatio code ((x : ℚ) / y) ∧ y ≠ 0 := by
    intro code equation
    split at equation
    · cases equation
    · exact ⟨(Option.some.inj equation).symm, ‹_›⟩
  cases code with
  | plus => exact ⟨(Option.some.inj defined).symm, fun isDiv => by cases isDiv⟩
  | minus => exact ⟨(Option.some.inj defined).symm, fun isDiv => by cases isDiv⟩
  | mult => exact ⟨(Option.some.inj defined).symm, fun isDiv => by cases isDiv⟩
  | min => exact ⟨(Option.some.inj defined).symm, fun isDiv => by cases isDiv⟩
  | max => exact ⟨(Option.some.inj defined).symm, fun isDiv => by cases isDiv⟩
  | truncDiv => exact (divided _ defined).imp_right fun nonzero _ => nonzero
  | floorDiv => exact (divided _ defined).imp_right fun nonzero _ => nonzero
  | ceilDiv => exact (divided _ defined).imp_right fun nonzero _ => nonzero
  | roundDiv => exact (divided _ defined).imp_right fun nonzero _ => nonzero
  | exactDiv =>
    simp only [exactResult] at defined
    split at defined
    · rename_i divides
      obtain ⟨⟨quo, rfl⟩, nonzero⟩ := divides
      have cast : (y : ℚ) ≠ 0 := by exact_mod_cast nonzero
      have ratio : ((y * quo : Int) : ℚ) / y = (quo : ℚ) := by
        push_cast
        field_simp
      have value : exactValue .exactDiv (y * quo) y = quo := by
        change roundRatio .exactDiv (((y * quo : Int) : ℚ) / y) = quo
        rw [ratio, roundRatio_intCast]
      rw [value]
      refine ⟨?_, fun _ => nonzero⟩
      rw [← Option.some.inj defined]
      exact Int.mul_ediv_cancel_left quo nonzero
    · cases defined

theorem exactValue_div_abs (code : ArithCode) (x y : Int) :
    |roundRatio code ((x : ℚ) / y)| ≤ |x| := by
  have magnitude : |(x : ℚ) / y| ≤ |(x : ℚ)| := by
    rcases eq_or_ne y 0 with rfl | nonzero
    · simp
    · have divisor : (1 : ℚ) ≤ |(y : ℚ)| := by
        exact_mod_cast Int.one_le_abs nonzero
      rw [abs_div]
      exact div_le_self (abs_nonneg _) divisor
  obtain ⟨lower, upper⟩ := abs_le.mp magnitude
  rw [abs_le]
  constructor
  · calc -|x| = roundRatio code ((-|x| : Int) : ℚ) := (roundRatio_intCast code _).symm
      _ ≤ roundRatio code ((x : ℚ) / y) := roundRatio_mono code (by push_cast; exact lower)
  · calc roundRatio code ((x : ℚ) / y) ≤ roundRatio code ((|x| : Int) : ℚ) :=
          roundRatio_mono code (by push_cast; exact upper)
      _ = |x| := roundRatio_intCast code _

variable {hostBits : Nat} {type : IntType}

theorem fitsDouble_of_contains (fits : type.precision ≤ 2 * hostBits) (contains : type.Contains x) :
    FitsDouble hostBits type.unsigned x := by
  have positive := type.positive
  have wide : (2 : Int) ^ (type.precision - 1) ≤ 2 ^ (2 * hostBits - 1) :=
    pow_le_pow_right₀ (by decide) (by omega)
  have modulus := type.modulus_eq
  push_cast at modulus
  obtain ⟨lower, upper⟩ := contains
  rw [IntType.minValue] at lower
  rw [IntType.maxValue] at upper
  rw [FitsDouble]
  cases unsigned : type.unsigned with
  | true =>
    rw [unsigned] at lower upper
    simp only [if_true] at lower upper ⊢
    omega
  | false =>
    rw [unsigned] at lower upper
    simp only [Bool.false_eq_true, if_false] at lower upper ⊢
    omega

theorem foldValue_eq {code : ArithCode} (fits : type.precision ≤ 2 * hostBits)
    (xIn : type.Contains x) (yIn : type.Contains y) (nonzero : code.isDiv = true → y ≠ 0)
    (right : code = .roundDiv → RoundsRight hostBits type.unsigned x y) :
    foldValue hostBits type.unsigned code x y = exactValue code x y := by
  have plain : type.unsigned = true → 0 ≤ x ∧ 0 ≤ y := by
    intro unsigned
    exact ⟨((IntType.contains_unsigned unsigned x).mp xIn).1,
      ((IntType.contains_unsigned unsigned y).mp yIn).1⟩
  cases code with
  | plus => rfl
  | minus => rfl
  | mult => rfl
  | min =>
    simp only [foldValue, exactValue]
    omega
  | max =>
    simp only [foldValue, exactValue]
    omega
  | truncDiv =>
    have divisor := nonzero rfl
    simp only [foldValue, if_neg divisor]
    exact tdiv_eq_roundRatio divisor
  | exactDiv =>
    have divisor := nonzero rfl
    simp only [foldValue, if_neg divisor]
    exact tdiv_eq_roundRatio divisor
  | floorDiv =>
    have divisor := nonzero rfl
    simp only [foldValue, if_neg divisor]
    exact floorDiv_eq_roundRatio divisor plain
  | ceilDiv =>
    have divisor := nonzero rfl
    simp only [foldValue, if_neg divisor]
    exact ceilDiv_eq_roundRatio divisor plain
  | roundDiv =>
    have divisor := nonzero rfl
    have positive := type.positive
    simp only [foldValue, if_neg divisor]
    exact roundDiv_eq_roundRatio (by omega) divisor (fitsDouble_of_contains fits xIn)
      (fitsDouble_of_contains fits yIn) (right rfl)

end Exact

section EndPoints

variable {hostBits : Nat} {wrapv : Bool} {type : IntType} {x y : Int}

/-- Whether a wrap of the operation cannot be missed by `vrpIntConstBinop`. -/
def WrapsSeen (wrapv : Bool) (type : IntType) (code : ArithCode) : Prop :=
  type.unsigned = true → ((code = .plus ∨ code = .minus) → wrapv = false) ∧ code ≠ .mult

theorem div_contains_unsigned (unsigned : type.unsigned = true) (xIn : type.Contains x)
    (yIn : type.Contains y) (code : ArithCode) :
    type.Contains (roundRatio code ((x : ℚ) / y)) := by
  rw [IntType.contains_unsigned unsigned] at xIn yIn ⊢
  have small := exactValue_div_abs code x y
  rw [abs_of_nonneg xIn.1] at small
  have nonneg : roundRatio code ((0 : Int) : ℚ) ≤ roundRatio code ((x : ℚ) / y) := by
    apply roundRatio_mono code
    push_cast
    exact div_nonneg (by exact_mod_cast xIn.1) (by exact_mod_cast yIn.1)
  rw [roundRatio_intCast] at nonneg
  exact ⟨nonneg, ((le_abs_self _).trans small).trans_lt xIn.2⟩

theorem clamp_of_overflow {code : ArithCode} (signed : type.unsigned = false)
    (xIn : type.Contains x) (yIn : type.Contains y)
    (outside : ¬ type.Contains (exactValue code x y)) :
    clamp type (exactValue code x y) =
      if (code = .mult ∧ x.sign = y.sign) ∨ (code = .plus ∧ 0 < x.sign) ∨
        (code = .minus ∧ 0 ≤ x.sign) ∨ code.isDiv = true then type.maxValue
      else type.minValue := by
  have limits := IntType.max_eq signed
  have nonneg := type.zero_le_max
  obtain ⟨xLower, xUpper⟩ := xIn
  obtain ⟨yLower, yUpper⟩ := yIn
  have above : ∀ {value : Int}, type.maxValue < value → clamp type value = type.maxValue := by
    intro value above
    rw [clamp]
    omega
  have below : ∀ {value : Int}, value < type.minValue → clamp type value = type.minValue := by
    intro value below
    rw [clamp]
    omega
  have divided : ∀ code : ArithCode,
      ¬ type.Contains (roundRatio code ((x : ℚ) / y)) →
      clamp type (roundRatio code ((x : ℚ) / y)) = type.maxValue := by
    intro code outside
    have small := exactValue_div_abs code x y
    have dividend : |x| ≤ -type.minValue := abs_le.mpr ⟨by omega, by omega⟩
    obtain ⟨lower, upper⟩ := abs_le.mp (small.trans dividend)
    apply above
    rw [IntType.Contains] at outside
    omega
  rw [IntType.Contains] at outside
  cases code with
  | plus =>
    simp only [exactValue] at outside ⊢
    simp only [reduceCtorEq, false_and, true_and, false_or, ArithCode.isDiv, or_false,
      Int.sign_pos_iff]
    split
    · exact above (by omega)
    · exact below (by omega)
  | minus =>
    simp only [exactValue] at outside ⊢
    simp only [reduceCtorEq, false_and, true_and, false_or, ArithCode.isDiv, or_false,
      Int.sign_nonneg_iff]
    split
    · exact above (by omega)
    · exact below (by omega)
  | mult =>
    simp only [exactValue] at outside ⊢
    simp only [reduceCtorEq, false_and, true_and, ArithCode.isDiv, or_false]
    have product : (x * y).sign = x.sign * y.sign := Int.sign_mul x y
    split
    · rename_i same
      apply above
      have nonneg : 0 ≤ x * y := by
        rw [← Int.sign_nonneg_iff, product, same]
        exact mul_self_nonneg _
      omega
    · rename_i different
      apply below
      have nonpos : x * y ≤ 0 := by
        by_contra positive
        have sameSign : x.sign * y.sign = 1 := by
          rw [← product]
          exact Int.sign_eq_one_of_pos (not_le.mp positive)
        rcases Int.eq_one_or_neg_one_of_mul_eq_one' sameSign with ⟨first, second⟩ | ⟨first, second⟩
        · exact different (first.trans second.symm)
        · exact different (first.trans second.symm)
      omega
  | min =>
    simp only [exactValue] at outside
    omega
  | max =>
    simp only [exactValue] at outside
    omega
  | truncDiv => exact divided .truncDiv outside
  | floorDiv => exact divided .floorDiv outside
  | ceilDiv => exact divided .ceilDiv outside
  | exactDiv => exact divided .exactDiv outside
  | roundDiv => exact divided .roundDiv outside

theorem compareValues_eq (x y : Int) :
    compareValues ⟨x, false⟩ ⟨y, false⟩ = if x < y then -1 else if x = y then 0 else 1 := rfl

theorem foldedUnsigned (unsigned : type.unsigned = true) (code : ArithCode) (x y : Int) :
    intConstBinop hostBits type code x y =
      ⟨wrap true type.precision (foldValue hostBits true code x y), false⟩ := by
  rw [intConstBinop, unsigned]
  rfl

theorem binop_value_unsigned (unsigned : type.unsigned = true) (code : ArithCode) (x y : Int) :
    (vrpIntConstBinop hostBits type wrapv code x y).value =
      (intConstBinop hostBits type code x y).value := by
  simp only [vrpIntConstBinop, unsigned, if_true]
  split
  · rfl
  · split
    · rfl
    · rfl

theorem plus_contains (unsigned : type.unsigned = true) (noWrapv : wrapv = false)
    (xIn : type.Contains x) (yIn : type.Contains y)
    (unflagged : (vrpIntConstBinop hostBits type wrapv .plus x y).overflow = false) :
    type.Contains (x + y) := by
  rw [IntType.contains_unsigned unsigned] at xIn yIn ⊢
  simp only [vrpIntConstBinop, noWrapv, unsigned, Bool.false_eq_true, if_false, if_true,
    foldedUnsigned unsigned, foldValue, compareValues_eq, true_and, reduceCtorEq,
    false_and, or_false] at unflagged
  rw [wrap_unsigned] at unflagged
  by_contra wraps
  have wrapped : (x + y) % (2 ^ type.precision : Nat) = x + y - (2 ^ type.precision : Nat) := by
    rw [← Int.sub_emod_right]
    exact Int.emod_eq_of_lt (by omega) (by omega)
  rw [wrapped] at unflagged
  rw [if_pos (show x + y - (2 ^ type.precision : Nat) < x by omega)] at unflagged
  simp at unflagged

theorem minus_contains (unsigned : type.unsigned = true) (noWrapv : wrapv = false)
    (xIn : type.Contains x) (yIn : type.Contains y)
    (unflagged : (vrpIntConstBinop hostBits type wrapv .minus x y).overflow = false) :
    type.Contains (x - y) := by
  rw [IntType.contains_unsigned unsigned] at xIn yIn ⊢
  simp only [vrpIntConstBinop, noWrapv, unsigned, Bool.false_eq_true, if_false, if_true,
    foldedUnsigned unsigned, foldValue, compareValues_eq, true_and, reduceCtorEq,
    false_and, false_or] at unflagged
  rw [wrap_unsigned] at unflagged
  by_contra wraps
  have wrapped : (x - y) % (2 ^ type.precision : Nat) = x - y + (2 ^ type.precision : Nat) := by
    rw [← Int.add_emod_right]
    exact Int.emod_eq_of_lt (by omega) (by omega)
  rw [wrapped] at unflagged
  rw [if_neg (show ¬ x - y + (2 ^ type.precision : Nat) < x by omega),
    if_neg (show ¬ x - y + (2 ^ type.precision : Nat) = x by omega)] at unflagged
  simp at unflagged

theorem binop_clamped {code : ArithCode} (signed : type.unsigned = false)
    (xIn : type.Contains x) (yIn : type.Contains y) (nonzero : code.isDiv = true → y ≠ 0)
    (folded : foldValue hostBits type.unsigned code x y = exactValue code x y) :
    vrpIntConstBinop hostBits type false code x y = ⟨clamp type (exactValue code x y), false⟩ := by
  have divisor : (code.isDiv && y == 0) = false := by
    cases isDiv : code.isDiv with
    | false => rfl
    | true => simpa using nonzero isDiv
  have plain : intConstBinop hostBits type code x y =
      ⟨wrap type.unsigned type.precision (exactValue code x y),
        decide (¬ type.Contains (exactValue code x y))⟩ := by
    simp only [intConstBinop, divisor, Bool.or_false]
    rw [folded, signed]
    rfl
  simp only [vrpIntConstBinop, plain, signed, Bool.false_eq_true, if_false, decide_eq_true_eq]
  by_cases contains : type.Contains (exactValue code x y)
  · rw [if_neg (not_not.mpr contains), clamp_of_contains contains, ← signed,
      IntType.wrap_eq contains]
    simp [contains, signed]
  · rw [if_pos contains, clamp_of_overflow signed xIn yIn contains]
    split
    · rfl
    · rfl

theorem binop_spec {code : ArithCode} (fits : type.precision ≤ 2 * hostBits)
    (xIn : type.Contains x) (yIn : type.Contains y) (nonzero : code.isDiv = true → y ≠ 0)
    (right : code = .roundDiv → RoundsRight hostBits type.unsigned x y)
    (seen : WrapsSeen wrapv type code)
    (unflagged : (vrpIntConstBinop hostBits type wrapv code x y).overflow = false) :
    (vrpIntConstBinop hostBits type wrapv code x y).value = clamp type (exactValue code x y) ∧
      ((type.unsigned || wrapv) = true → type.Contains (exactValue code x y)) := by
  have folded := foldValue_eq fits xIn yIn nonzero right
  have divisor : (code.isDiv && y == 0) = false := by
    cases isDiv : code.isDiv with
    | false => rfl
    | true => simpa using nonzero isDiv
  have inside : type.Contains (exactValue code x y) →
      (intConstBinop hostBits type code x y).value = clamp type (exactValue code x y) := by
    intro contains
    simp only [intConstBinop, folded]
    rw [clamp_of_contains contains, IntType.wrap_eq contains]
  cases unsigned : type.unsigned with
  | false =>
    have overflow : (intConstBinop hostBits type code x y).overflow =
        decide (¬ type.Contains (exactValue code x y)) := by
      simp only [intConstBinop, divisor, Bool.or_false]
      rw [folded, unsigned]
      rfl
    cases wrapv with
    | true =>
      simp only [vrpIntConstBinop, if_true] at unflagged ⊢
      rw [overflow] at unflagged
      have contains : type.Contains (exactValue code x y) := by simpa using unflagged
      exact ⟨inside contains, fun _ => contains⟩
    | false =>
      refine ⟨?_, fun wraps => by cases wraps⟩
      rw [binop_clamped unsigned xIn yIn nonzero folded]
  | true =>
    have contains : type.Contains (exactValue code x y) := by
      obtain ⟨noWrapv, noMult⟩ := seen unsigned
      cases code with
      | plus => exact plus_contains unsigned (noWrapv (.inl rfl)) xIn yIn unflagged
      | minus => exact minus_contains unsigned (noWrapv (.inr rfl)) xIn yIn unflagged
      | mult => exact absurd rfl noMult
      | min =>
        change type.Contains (min x y)
        rcases min_choice x y with first | second
        · rwa [first]
        · rwa [second]
      | max =>
        change type.Contains (max x y)
        rcases max_choice x y with first | second
        · rwa [first]
        · rwa [second]
      | truncDiv => exact div_contains_unsigned unsigned xIn yIn .truncDiv
      | floorDiv => exact div_contains_unsigned unsigned xIn yIn .floorDiv
      | ceilDiv => exact div_contains_unsigned unsigned xIn yIn .ceilDiv
      | exactDiv => exact div_contains_unsigned unsigned xIn yIn .exactDiv
      | roundDiv => exact div_contains_unsigned unsigned xIn yIn .roundDiv
    refine ⟨?_, fun _ => contains⟩
    rw [binop_value_unsigned unsigned]
    exact inside contains

end EndPoints

section Bounds

theorem compareValues_spec {x y : Cst} (first : x.overflow = false) (second : y.overflow = false) :
    (compareValues x y = -1 ↔ x.value < y.value) ∧ (compareValues x y = 0 ↔ x.value = y.value) ∧
      (compareValues x y = 1 ↔ y.value < x.value) ∧ compareValues x y ≠ -2 ∧
      compareValues x y ≠ 2 := by
  have outcome : compareValues x y =
      if x.value < y.value then -1 else if x.value = y.value then 0 else 1 := by
    rw [compareValues, first, second]
    rfl
  rw [outcome]
  rcases lt_trichotomy x.value y.value with less | equal | greater
  · rw [if_pos less]
    omega
  · rw [if_neg (by omega), if_pos equal]
    omega
  · rw [if_neg (by omega), if_neg (by omega)]
    omega

def Unflagged (bounds : Cst × Cst) : Prop :=
  bounds.1.overflow = false ∧ bounds.2.overflow = false

theorem extremes_cons {min max next : Cst} {rest : List Cst}
    (unflagged : Unflagged (extremes min max (next :: rest))) :
    Unflagged (min, max) ∧ next.overflow = false ∧
      extremes min max (next :: rest) =
        extremes (if next.value < min.value then next else min)
          (if max.value < next.value then next else max) rest := by
  by_cases flagged : (min.overflow || max.overflow) = true
  · rw [extremes, if_pos flagged] at unflagged
    rw [unflagged.1, unflagged.2] at flagged
    cases flagged
  by_cases nextFlagged : next.overflow = true
  · rw [extremes, if_neg flagged, if_pos nextFlagged] at unflagged
    rw [unflagged.1] at nextFlagged
    cases nextFlagged
  rw [Bool.not_eq_true] at flagged nextFlagged
  obtain ⟨minUnflagged, maxUnflagged⟩ := Bool.or_eq_false_iff.mp flagged
  obtain ⟨less, -⟩ := compareValues_spec nextFlagged minUnflagged
  obtain ⟨-, -, greater, -⟩ := compareValues_spec nextFlagged maxUnflagged
  refine ⟨⟨minUnflagged, maxUnflagged⟩, nextFlagged, ?_⟩
  rw [extremes, flagged, nextFlagged]
  simp only [Bool.false_eq_true, if_false, less, greater]

theorem extremes_bounds {min max : Cst} {rest : List Cst} (ordered : min.value ≤ max.value)
    (unflagged : Unflagged (extremes min max rest)) :
    ∀ val ∈ min :: max :: rest, val.overflow = false ∧
      (extremes min max rest).1.value ≤ val.value ∧
      val.value ≤ (extremes min max rest).2.value := by
  induction rest generalizing min max with
  | nil =>
    intro val member
    rcases List.mem_pair.mp member with rfl | rfl
    · exact ⟨unflagged.1, le_refl _, ordered⟩
    · exact ⟨unflagged.2, ordered, le_refl _⟩
  | cons next rest hypothesis =>
    obtain ⟨bounds, nextUnflagged, step⟩ := extremes_cons unflagged
    rw [step] at unflagged ⊢
    have lower : (if next.value < min.value then next else min).value ≤ next.value ∧
        (if next.value < min.value then next else min).value ≤ min.value := by
      split
      · exact ⟨le_refl _, by omega⟩
      · exact ⟨by omega, le_refl _⟩
    have upper : next.value ≤ (if max.value < next.value then next else max).value ∧
        max.value ≤ (if max.value < next.value then next else max).value := by
      split
      · exact ⟨le_refl _, by omega⟩
      · exact ⟨by omega, le_refl _⟩
    have loop := hypothesis (lower.1.trans upper.1) unflagged
    have first := loop _ (List.mem_cons_self ..)
    have second := loop _ (List.mem_cons_of_mem _ (List.mem_cons_self ..))
    intro val member
    rcases List.mem_cons.mp member with rfl | member
    · exact ⟨bounds.1, first.2.1.trans lower.2, ordered.trans (upper.2.trans second.2.2)⟩
    rcases List.mem_cons.mp member with rfl | member
    · exact ⟨bounds.2, (first.2.1.trans lower.2).trans ordered, upper.2.trans second.2.2⟩
    rcases List.mem_cons.mp member with rfl | member
    · exact ⟨nextUnflagged, first.2.1.trans lower.1, upper.1.trans second.2.2⟩
    · exact loop val (List.mem_cons_of_mem _ (List.mem_cons_of_mem _ member))

theorem rangeOfBounds_eq (kind : RangeKind) {min max : Cst} (unflagged : Unflagged (min, max)) :
    rangeOfBounds kind min max =
      if max.value < min.value then .varying else .bounds kind min.value max.value := by
  obtain ⟨-, -, greater, known, -⟩ := compareValues_spec unflagged.1 unflagged.2
  have neither : ¬ (min.overflow || max.overflow) = true := by
    rw [unflagged.1, unflagged.2]
    simp
  rw [rangeOfBounds, if_neg neither]
  simp only [known, false_or, greater]

theorem rangeOfBounds_of_flagged (kind : RangeKind) {min max : Cst}
    (flagged : ¬ Unflagged (min, max)) : rangeOfBounds kind min max = .varying := by
  rw [rangeOfBounds, if_pos]
  by_contra neither
  rw [Bool.not_eq_true] at neither
  exact flagged (Bool.or_eq_false_iff.mp neither)

theorem extremes_unflagged {min max : Cst} {rest : List Cst}
    (unflagged : ∀ val ∈ min :: max :: rest, val.overflow = false) :
    Unflagged (extremes min max rest) := by
  induction rest generalizing min max with
  | nil => exact ⟨unflagged min (by simp), unflagged max (by simp)⟩
  | cons next rest hypothesis =>
    rw [extremes, unflagged min (by simp), unflagged max (by simp), unflagged next (by simp)]
    simp only [Bool.or_self, Bool.false_eq_true, if_false]
    apply hypothesis
    intro val member
    apply unflagged
    rcases List.mem_cons.mp member with rfl | member
    · split <;> simp
    rcases List.mem_cons.mp member with rfl | member
    · split <;> simp
    · simp [member]

theorem extremes_mem {min max : Cst} {rest : List Cst}
    (unflagged : Unflagged (extremes min max rest)) :
    (extremes min max rest).1 ∈ min :: max :: rest ∧
      (extremes min max rest).2 ∈ min :: max :: rest := by
  induction rest generalizing min max with
  | nil => simp [extremes]
  | cons next rest hypothesis =>
    obtain ⟨-, -, step⟩ := extremes_cons unflagged
    rw [step] at unflagged ⊢
    have sublist : ∀ val, val ∈ (if next.value < min.value then next else min) ::
        (if max.value < next.value then next else max) :: rest →
        val ∈ min :: max :: next :: rest := by
      intro val member
      rcases List.mem_cons.mp member with rfl | member
      · split <;> simp
      rcases List.mem_cons.mp member with rfl | member
      · split <;> simp
      · simp [member]
    exact (hypothesis unflagged).imp (sublist _) (sublist _)

theorem rangeOfBounds_contains {min max : Cst} {result : Int}
    (inside : Unflagged (min, max) → min.value ≤ max.value →
      min.value ≤ result ∧ result ≤ max.value) :
    (rangeOfBounds .range min max).Contains result := by
  by_cases unflagged : Unflagged (min, max)
  · rw [rangeOfBounds_eq .range unflagged]
    split
    · exact True.intro
    · exact inside unflagged (not_lt.mp ‹_›)
  · rw [rangeOfBounds_of_flagged .range unflagged]
    exact True.intro

theorem rangeIncludesZeroP_iff (min max : Int) :
    rangeIncludesZeroP min max ↔ min ≤ 0 ∧ 0 ≤ max := by
  obtain ⟨-, zeroFirst, greater, known, notTwo⟩ :=
    compareValues_spec (x := ⟨0, false⟩) (y := ⟨min, false⟩) rfl rfl
  obtain ⟨less, zeroSecond, -, knownSecond, notTwoSecond⟩ :=
    compareValues_spec (x := ⟨0, false⟩) (y := ⟨max, false⟩) rfl rfl
  rw [rangeIncludesZeroP, valueInsideRange]
  simp only [known, notTwo, knownSecond, notTwoSecond, or_self, if_false, zeroFirst, greater, less,
    zeroSecond]
  split
  · simp only [true_iff]
    omega
  · simp only [zero_ne_one, false_iff]
    omega

variable {hostBits : Nat} {wrapv : Bool} {type : IntType} {code : ArithCode}
  {kind : RangeKind} {a b c d : Int}

def crossOperations (binop : Int → Int → Cst) (a b c d : Int) : List Cst :=
  [if d ≠ c then some (binop a d) else none,
    if b ≠ a then some (binop b c) else none,
    if a ≠ b ∧ c ≠ d then some (binop b d) else none].filterMap id

def crossBounds (binop : Int → Int → Cst) (a b c d : Int) : Cst × Cst :=
  extremes (binop a c) (binop a c) (crossOperations binop a b c d)

theorem corners_mem (binop : Int → Int → Cst) (a b c d : Int) {x y : Int} (xEnd : x = a ∨ x = b)
    (yEnd : y = c ∨ y = d) :
    binop x y ∈ binop a c :: crossOperations binop a b c d := by
  rw [crossOperations]
  rcases xEnd with rfl | rfl
  · rcases yEnd with rfl | rfl
    · exact List.mem_cons_self ..
    · by_cases same : y = c
      · simp [same]
      · simp [same]
  · rcases yEnd with rfl | rfl
    · by_cases same : x = a
      · simp [same]
      · simp [same]
    · by_cases sameX : a = x
      · by_cases sameY : c = y
        · simp [sameX, sameY]
        · simp [sameX, Ne.symm sameY]
      · by_cases sameY : c = y
        · simp [Ne.symm sameX, sameY]
        · simp [sameX, sameY]

theorem mem_corners {binop : Int → Int → Cst} {a b c d : Int} {val : Cst}
    (member : val ∈ binop a c :: crossOperations binop a b c d) :
    ∃ x y, (x = a ∨ x = b) ∧ (y = c ∨ y = d) ∧ val = binop x y := by
  rcases List.mem_cons.mp member with rfl | member
  · exact ⟨a, c, .inl rfl, .inl rfl, rfl⟩
  obtain ⟨entry, listed, present⟩ := List.mem_filterMap.mp member
  simp only [List.mem_cons, List.not_mem_nil, or_false] at listed
  rcases listed with rfl | rfl | rfl
  · split at present
    · exact ⟨a, d, .inl rfl, .inr rfl, (Option.some.inj present).symm⟩
    · cases present
  · split at present
    · exact ⟨b, c, .inr rfl, .inl rfl, (Option.some.inj present).symm⟩
    · cases present
  · split at present
    · exact ⟨b, d, .inr rfl, .inr rfl, (Option.some.inj present).symm⟩
    · cases present

theorem extractArith_cross (cross : code = .mult ∨ code.isDiv = true)
    (divisor : code.isDiv = true → ¬ (c ≤ 0 ∧ 0 ≤ d)) :
    extractArith hostBits wrapv type code .range a b c d =
      rangeOfBounds .range (crossBounds (vrpIntConstBinop hostBits type wrapv code) a b c d).1
        (crossBounds (vrpIntConstBinop hostBits type wrapv code) a b c d).2 := by
  have noZero := fun isDiv => mt (rangeIncludesZeroP_iff c d).mp (divisor isDiv)
  cases code with
  | plus => rcases cross with is | is <;> cases is
  | minus => rcases cross with is | is <;> cases is
  | min => rcases cross with is | is <;> cases is
  | max => rcases cross with is | is <;> cases is
  | mult => rfl
  | truncDiv => simp [extractArith, noZero rfl, crossBounds, crossOperations]
  | floorDiv => simp [extractArith, noZero rfl, crossBounds, crossOperations]
  | ceilDiv => simp [extractArith, noZero rfl, crossBounds, crossOperations]
  | roundDiv => simp [extractArith, noZero rfl, crossBounds, crossOperations]
  | exactDiv => simp [extractArith, noZero rfl, crossBounds, crossOperations]

theorem extractArith_zero (isDiv : code.isDiv = true) (zero : c ≤ 0 ∧ 0 ≤ d) :
    extractArith hostBits wrapv type code kind a b c d = .varying := by
  have includes := (rangeIncludesZeroP_iff c d).mpr zero
  cases code with
  | plus => cases isDiv
  | minus => cases isDiv
  | mult => cases isDiv
  | min => cases isDiv
  | max => cases isDiv
  | truncDiv => simp [extractArith, includes]
  | floorDiv => simp [extractArith, includes]
  | ceilDiv => simp [extractArith, includes]
  | roundDiv => simp [extractArith, includes]
  | exactDiv => simp [extractArith, includes]

theorem cross_contains {result : Int} (cross : code = .mult ∨ code.isDiv = true)
    (divisor : code.isDiv = true → ¬ (c ≤ 0 ∧ 0 ≤ d))
    (inside : (∀ x y, (x = a ∨ x = b) → (y = c ∨ y = d) →
        (vrpIntConstBinop hostBits type wrapv code x y).overflow = false) →
      (∃ x y, (x = a ∨ x = b) ∧ (y = c ∨ y = d) ∧
        (vrpIntConstBinop hostBits type wrapv code x y).value ≤ result) ∧
      ∃ x y, (x = a ∨ x = b) ∧ (y = c ∨ y = d) ∧
        result ≤ (vrpIntConstBinop hostBits type wrapv code x y).value) :
    (extractArith hostBits wrapv type code .range a b c d).Contains result := by
  rw [extractArith_cross cross divisor]
  apply rangeOfBounds_contains
  intro unflagged _
  have bounds := extremes_bounds (le_refl _) unflagged
  have corner : ∀ x y, (x = a ∨ x = b) → (y = c ∨ y = d) → _ := fun x y xEnd yEnd =>
    bounds _ (List.mem_cons_of_mem _
      (corners_mem (vrpIntConstBinop hostBits type wrapv code) a b c d xEnd yEnd))
  obtain ⟨⟨x, y, xEnd, yEnd, below⟩, x', y', xEnd', yEnd', above⟩ :=
    inside fun x y xEnd yEnd => (corner x y xEnd yEnd).1
  exact ⟨(corner x y xEnd yEnd).2.1.trans below, above.trans (corner x' y' xEnd' yEnd').2.2⟩

end Bounds

section Soundness

variable {hostBits : Nat} {wrapv : Bool} {type : IntType} {code : ArithCode} {a b c d x y : Int}

theorem exactValue_cross (cross : code = .mult ∨ code.isDiv = true)
    (divisor : code.isDiv = true → ¬ (c ≤ 0 ∧ 0 ≤ d)) (lowerX : a ≤ x) (upperX : x ≤ b)
    (lowerY : c ≤ y) (upperY : y ≤ d) :
    (∃ x' y', (x' = a ∨ x' = b) ∧ (y' = c ∨ y' = d) ∧
        exactValue code x' y' ≤ exactValue code x y) ∧
      ∃ x' y', (x' = a ∨ x' = b) ∧ (y' = c ∨ y' = d) ∧
        exactValue code x y ≤ exactValue code x' y' := by
  have ratios : ∀ code : ArithCode, ¬ (c ≤ 0 ∧ 0 ≤ d) →
      (∃ x' y', (x' = a ∨ x' = b) ∧ (y' = c ∨ y' = d) ∧
        roundRatio code ((x' : ℚ) / y') ≤ roundRatio code ((x : ℚ) / y)) ∧
      ∃ x' y', (x' = a ∨ x' = b) ∧ (y' = c ∨ y' = d) ∧
        roundRatio code ((x : ℚ) / y) ≤ roundRatio code ((x' : ℚ) / y') := by
    intro code divisor
    obtain ⟨⟨x', y', xEnd, yEnd, below⟩, x'', y'', xEnd', yEnd', above⟩ :=
      ratio_box (by omega) lowerX upperX lowerY upperY
    exact ⟨⟨x', y', xEnd, yEnd, roundRatio_mono code below⟩,
      x'', y'', xEnd', yEnd', roundRatio_mono code above⟩
  cases code with
  | plus => rcases cross with is | is <;> cases is
  | minus => rcases cross with is | is <;> cases is
  | min => rcases cross with is | is <;> cases is
  | max => rcases cross with is | is <;> cases is
  | mult => exact mul_box lowerX upperX lowerY upperY
  | truncDiv => exact ratios .truncDiv (divisor rfl)
  | floorDiv => exact ratios .floorDiv (divisor rfl)
  | ceilDiv => exact ratios .ceilDiv (divisor rfl)
  | exactDiv => exact ratios .exactDiv (divisor rfl)
  | roundDiv => exact ratios .roundDiv (divisor rfl)

theorem opResult_between {lower upper result : Int}
    (below : lower ≤ exactValue code x y) (above : exactValue code x y ≤ upper)
    (lowerIn : (type.unsigned || wrapv) = true → type.Contains lower)
    (upperIn : (type.unsigned || wrapv) = true → type.Contains upper)
    (defined : opResult wrapv type code x y = some result) :
    clamp type lower ≤ result ∧ result ≤ clamp type upper := by
  obtain ⟨value, exact_, fitted⟩ := Option.bind_eq_some_iff.mp defined
  obtain ⟨rfl, -⟩ := exactResult_eq exact_
  split at fitted
  · rename_i wraps
    have contains : type.Contains (exactValue code x y) :=
      ⟨(lowerIn wraps).1.trans below, above.trans (upperIn wraps).2⟩
    rw [IntType.wrap_eq contains] at fitted
    cases fitted
    exact ⟨clamp_le below contains, le_clamp above contains⟩
  · split at fitted
    · rename_i contains
      cases fitted
      exact ⟨clamp_le below contains, le_clamp above contains⟩
    · cases fitted

structure ProperRange (type : IntType) (min max : Int) : Prop where
  lower : type.Contains min
  upper : type.Contains max
  ordered : min ≤ max

theorem ProperRange.ends (proper : ProperRange type a b) (isEnd : x = a ∨ x = b) :
    type.Contains x := by
  rcases isEnd with rfl | rfl
  · exact proper.lower
  · exact proper.upper

/-- The range of a sum, a minimum or a maximum holds what the like ends bound,
and that of a difference what the opposite ends bound. -/
theorem parallel_contains {result : Int} (parallel : code = .plus ∨ code = .min ∨ code = .max)
    (inside : Unflagged (vrpIntConstBinop hostBits type wrapv code a c,
        vrpIntConstBinop hostBits type wrapv code b d) →
      (vrpIntConstBinop hostBits type wrapv code a c).value ≤
        (vrpIntConstBinop hostBits type wrapv code b d).value →
      (vrpIntConstBinop hostBits type wrapv code a c).value ≤ result ∧
        result ≤ (vrpIntConstBinop hostBits type wrapv code b d).value) :
    (extractArith hostBits wrapv type code .range a b c d).Contains result := by
  rcases parallel with rfl | rfl | rfl
  · exact rangeOfBounds_contains inside
  · exact rangeOfBounds_contains inside
  · exact rangeOfBounds_contains inside

theorem minus_range_contains {result : Int}
    (inside : Unflagged (vrpIntConstBinop hostBits type wrapv .minus a d,
        vrpIntConstBinop hostBits type wrapv .minus b c) →
      (vrpIntConstBinop hostBits type wrapv .minus a d).value ≤
        (vrpIntConstBinop hostBits type wrapv .minus b c).value →
      (vrpIntConstBinop hostBits type wrapv .minus a d).value ≤ result ∧
        result ≤ (vrpIntConstBinop hostBits type wrapv .minus b c).value) :
    (extractArith hostBits wrapv type .minus .range a b c d).Contains result :=
  rangeOfBounds_contains inside

theorem sound_of_seen (fits : type.precision ≤ 2 * hostBits) (first : ProperRange type a b)
    (second : ProperRange type c d) (seen : WrapsSeen wrapv type code)
    (right : code = .roundDiv → (c ≤ 0 ∧ 0 ≤ d) ∨
      ∀ x y, (x = a ∨ x = b) → (y = c ∨ y = d) → RoundsRight hostBits type.unsigned x y)
    {result : Int} (lowerX : a ≤ x) (upperX : x ≤ b) (lowerY : c ≤ y) (upperY : y ≤ d)
    (defined : opResult wrapv type code x y = some result) :
    (extractArith hostBits wrapv type code .range a b c d).Contains result := by
  by_cases parallel : code = .plus ∨ code = .min ∨ code = .max
  · apply parallel_contains parallel
    intro unflagged _
    have noDiv : code.isDiv ≠ true := by rcases parallel with rfl | rfl | rfl <;> simp [ArithCode.isDiv]
    have noRound : code ≠ .roundDiv := by rcases parallel with rfl | rfl | rfl <;> simp
    obtain ⟨lowerValue, lowerIn⟩ := binop_spec fits first.lower second.lower
      (fun isDiv => absurd isDiv noDiv) (fun round => absurd round noRound) seen unflagged.1
    obtain ⟨upperValue, upperIn⟩ := binop_spec fits first.upper second.upper
      (fun isDiv => absurd isDiv noDiv) (fun round => absurd round noRound) seen unflagged.2
    rw [lowerValue, upperValue]
    refine opResult_between ?_ ?_ lowerIn upperIn defined
    · rcases parallel with rfl | rfl | rfl
      · exact add_le_add lowerX lowerY
      · exact min_le_min lowerX lowerY
      · exact max_le_max lowerX lowerY
    · rcases parallel with rfl | rfl | rfl
      · exact add_le_add upperX upperY
      · exact min_le_min upperX upperY
      · exact max_le_max upperX upperY
  by_cases minus : code = .minus
  · subst minus
    apply minus_range_contains
    intro unflagged _
    obtain ⟨lowerValue, lowerIn⟩ := binop_spec fits first.lower second.upper
      (fun isDiv => by cases isDiv) (fun round => by cases round) seen unflagged.1
    obtain ⟨upperValue, upperIn⟩ := binop_spec fits first.upper second.lower
      (fun isDiv => by cases isDiv) (fun round => by cases round) seen unflagged.2
    rw [lowerValue, upperValue]
    refine opResult_between ?_ ?_ lowerIn upperIn defined
    · exact sub_le_sub lowerX upperY
    · exact sub_le_sub upperX lowerY
  have cross : code = .mult ∨ code.isDiv = true := by
    cases code <;> simp_all [ArithCode.isDiv]
  by_cases zero : code.isDiv = true ∧ c ≤ 0 ∧ 0 ≤ d
  · rw [extractArith_zero zero.1 zero.2]
    exact True.intro
  · have divisor : code.isDiv = true → ¬ (c ≤ 0 ∧ 0 ≤ d) := fun isDiv both => zero ⟨isDiv, both⟩
    apply cross_contains cross divisor
    intro unflagged
    have spec := fun x y (xEnd : x = a ∨ x = b) (yEnd : y = c ∨ y = d) =>
      binop_spec fits (first.ends xEnd) (second.ends yEnd)
        (fun isDiv isZero => divisor isDiv (by have := second.ordered; omega))
        (fun round => (right round).resolve_left (divisor (by rw [round]; rfl)) x y xEnd yEnd)
        seen (unflagged x y xEnd yEnd)
    obtain ⟨⟨x', y', xEnd, yEnd, below⟩, x'', y'', xEnd', yEnd', above⟩ :=
      exactValue_cross cross divisor lowerX upperX lowerY upperY
    obtain ⟨lowerValue, lowerIn⟩ := spec x' y' xEnd yEnd
    obtain ⟨upperValue, upperIn⟩ := spec x'' y'' xEnd' yEnd'
    obtain ⟨low, high⟩ := opResult_between below above lowerIn upperIn defined
    exact ⟨⟨x', y', xEnd, yEnd, lowerValue.trans_le low⟩,
      x'', y'', xEnd', yEnd', high.trans_eq upperValue.symm⟩

theorem emod_le_emod_of_block {lower value upper modulus : Int} (positive : 0 < modulus)
    (below : lower ≤ value) (above : value ≤ upper) (block : lower / modulus = upper / modulus) :
    lower % modulus ≤ value % modulus ∧ value % modulus ≤ upper % modulus := by
  have first := Int.ediv_le_ediv positive below
  have second := Int.ediv_le_ediv positive above
  have quotient : value / modulus = lower / modulus := by omega
  have lowerSplit := Int.emod_add_mul_ediv lower modulus
  have valueSplit := Int.emod_add_mul_ediv value modulus
  have upperSplit := Int.emod_add_mul_ediv upper modulus
  rw [quotient] at valueSplit
  rw [← block] at upperSplit
  constructor
  · linarith
  · linarith

theorem block_of_emod_le {lower upper modulus : Int} (positive : 0 < modulus)
    (ordered : lower ≤ upper) (near : upper - lower < modulus)
    (residues : lower % modulus ≤ upper % modulus) : lower / modulus = upper / modulus := by
  have quotients := Int.ediv_le_ediv positive ordered
  have lowerSplit := Int.emod_add_mul_ediv lower modulus
  have upperSplit := Int.emod_add_mul_ediv upper modulus
  by_contra different
  have step : lower / modulus + 1 ≤ upper / modulus := by omega
  have scaled := mul_le_mul_of_nonneg_left step positive.le
  rw [mul_add, mul_one] at scaled
  linarith

theorem opResult_unsigned (unsigned : type.unsigned = true) {result : Int}
    (defined : opResult wrapv type code x y = some result) :
    result = exactValue code x y % (2 ^ type.precision : Nat) := by
  obtain ⟨value, exact_, fitted⟩ := Option.bind_eq_some_iff.mp defined
  obtain ⟨rfl, -⟩ := exactResult_eq exact_
  rw [unsigned, Bool.true_or, if_pos rfl] at fitted
  exact (Option.some.inj fitted).symm

theorem binop_unsigned (unsigned : type.unsigned = true)
    (wraps : code = .plus ∨ code = .minus ∨ code = .mult) (x y : Int) :
    (vrpIntConstBinop hostBits type wrapv code x y).value =
      exactValue code x y % (2 ^ type.precision : Nat) := by
  rw [binop_value_unsigned unsigned, foldedUnsigned unsigned, wrap_unsigned]
  rcases wraps with rfl | rfl | rfl
  · rfl
  · rfl
  · rfl

theorem wrapping_sound (unsigned : type.unsigned = true) {lower upper result : Int}
    (below : lower ≤ exactValue code x y)
    (above : exactValue code x y ≤ upper) (near : upper - lower < (2 ^ type.precision : Nat))
    (residues : lower % (2 ^ type.precision : Nat) ≤ upper % (2 ^ type.precision : Nat))
    (defined : opResult wrapv type code x y = some result) :
    lower % (2 ^ type.precision : Nat) ≤ result ∧
      result ≤ upper % (2 ^ type.precision : Nat) := by
  have positive : (0 : Int) < (2 ^ type.precision : Nat) := by positivity
  rw [opResult_unsigned unsigned defined]
  exact emod_le_emod_of_block positive below above
    (block_of_emod_le positive (below.trans above) near residues)

/-- The operands for which the end points decide: unsigned products that do not
wrap apart, unsigned sums and differences that with `-fwrapv` do not take every
value, and ends that `ROUND_DIV_EXPR` is folded right for. -/
def EndsDecide (hostBits : Nat) (wrapv : Bool) (type : IntType) (code : ArithCode)
    (a b c d : Int) : Prop :=
  match code with
  | .plus | .minus =>
    type.unsigned = true → wrapv = true → (b - a) + (d - c) < (2 ^ type.precision : Nat)
  | .mult => type.unsigned = true →
      -- all operands are ends
      (b ≤ a + 1 ∧ d ≤ c + 1) ∨
      -- all products wrap equally often
      a * c / (2 ^ type.precision : Nat) = b * d / (2 ^ type.precision : Nat) ∨
      -- a wrap is seen
      (wrapv = false ∧ ∃ x y, (x = a ∨ x = b) ∧ (y = c ∨ y = d) ∧
        x * y % (2 ^ type.precision : Nat) < x)
  | .roundDiv => (c ≤ 0 ∧ 0 ≤ d) ∨
      ∀ x y, (x = a ∨ x = b) → (y = c ∨ y = d) → RoundsRight hostBits type.unsigned x y
  | .truncDiv | .floorDiv | .ceilDiv | .exactDiv | .min | .max => True

theorem mult_flagged (unsigned : type.unsigned = true) (noWrapv : wrapv = false)
    (less : x * y % (2 ^ type.precision : Nat) < x) :
    (vrpIntConstBinop hostBits type wrapv .mult x y).overflow = true := by
  simp only [vrpIntConstBinop, noWrapv, unsigned, Bool.false_eq_true, if_false, if_true,
    foldedUnsigned unsigned, foldValue, compareValues_eq, or_true, true_and, reduceCtorEq,
    false_and, or_false]
  rw [wrap_unsigned, if_pos less]
  simp

theorem mult_sound (unsigned : type.unsigned = true) (first : ProperRange type a b)
    (second : ProperRange type c d) (decide_ : EndsDecide hostBits wrapv type .mult a b c d)
    {result : Int} (lowerX : a ≤ x) (upperX : x ≤ b) (lowerY : c ≤ y) (upperY : y ≤ d)
    (defined : opResult wrapv type .mult x y = some result) :
    (extractArith hostBits wrapv type .mult .range a b c d).Contains result := by
  have positive : (0 : Int) < (2 ^ type.precision : Nat) := by positivity
  apply cross_contains (.inl rfl) (fun isDiv => by cases isDiv)
  intro unflagged
  have residue : ∀ x y, (vrpIntConstBinop hostBits type wrapv .mult x y).value =
      x * y % (2 ^ type.precision : Nat) := binop_unsigned unsigned (.inr (.inr rfl))
  rw [opResult_unsigned unsigned defined]
  rcases decide_ unsigned with ⟨narrowX, narrowY⟩ | block | ⟨noWrapv, x', y', xEnd, yEnd, less⟩
  · have xEnd : x = a ∨ x = b := by omega
    have yEnd : y = c ∨ y = d := by omega
    exact ⟨⟨x, y, xEnd, yEnd, (residue x y).le⟩, x, y, xEnd, yEnd, (residue x y).ge⟩
  · have nonnegA := ((IntType.contains_unsigned unsigned a).mp first.lower).1
    have nonnegC := ((IntType.contains_unsigned unsigned c).mp second.lower).1
    have below : a * c ≤ x * y := mul_le_mul lowerX lowerY nonnegC (nonnegA.trans lowerX)
    have above : x * y ≤ b * d := mul_le_mul upperX upperY (nonnegC.trans lowerY)
      (nonnegA.trans first.ordered)
    obtain ⟨low, high⟩ := emod_le_emod_of_block positive below above block
    exact ⟨⟨a, c, .inl rfl, .inl rfl, (residue a c).trans_le low⟩,
      b, d, .inr rfl, .inr rfl, high.trans_eq (residue b d).symm⟩
  · have flagged : (vrpIntConstBinop hostBits type wrapv .mult x' y').overflow = true :=
      mult_flagged unsigned noWrapv less
    rw [unflagged x' y' xEnd yEnd] at flagged
    cases flagged

theorem sound_of_endsDecide (fits : type.precision ≤ 2 * hostBits) (first : ProperRange type a b)
    (second : ProperRange type c d) (decides : EndsDecide hostBits wrapv type code a b c d) :
    RangeSound hostBits wrapv type (.arith code) (.bounds .range a b) (.bounds .range c d) := by
  rintro x y result - - ⟨lowerX, upperX⟩ ⟨lowerY, upperY⟩ defined
  change (extractArith hostBits wrapv type code .range a b c d).Contains result
  by_cases seen : WrapsSeen wrapv type code
  · refine sound_of_seen fits first second seen ?_ lowerX upperX lowerY upperY defined
    rintro rfl
    exact decides
  obtain ⟨unsigned, missed⟩ := Classical.not_imp.mp seen
  by_cases mult : code = .mult
  · subst mult
    exact mult_sound unsigned first second decides lowerX upperX lowerY upperY defined
  obtain ⟨wraps, wrapvSet⟩ : (code = .plus ∨ code = .minus) ∧ wrapv = true := by
    by_contra neither
    refine missed ⟨fun wraps => ?_, mult⟩
    by_contra wrapvSet
    exact neither ⟨wraps, by simpa using wrapvSet⟩
  rcases wraps with rfl | rfl
  · have near := decides unsigned wrapvSet
    apply parallel_contains (.inl rfl)
    rw [binop_unsigned unsigned (.inl rfl), binop_unsigned unsigned (.inl rfl)]
    intro _ residues
    refine wrapping_sound unsigned ?_ ?_ ?_ residues defined
    · exact add_le_add lowerX lowerY
    · exact add_le_add upperX upperY
    · change b + d - (a + c) < _
      omega
  · have near := decides unsigned wrapvSet
    apply minus_range_contains
    rw [binop_unsigned unsigned (.inr (.inl rfl)), binop_unsigned unsigned (.inr (.inl rfl))]
    intro _ residues
    refine wrapping_sound unsigned ?_ ?_ ?_ residues defined
    · exact sub_le_sub lowerX upperY
    · exact sub_le_sub upperX lowerY
    · change b - c - (a - d) < _
      omega

theorem exists_sum {value : Int} (first : a ≤ b) (second : c ≤ d) (below : a + c ≤ value)
    (above : value ≤ b + d) : ∃ x y, a ≤ x ∧ x ≤ b ∧ c ≤ y ∧ y ≤ d ∧ x + y = value :=
  ⟨max a (value - d), value - max a (value - d), by omega⟩

theorem binop_wrapv (unsigned : type.unsigned = true) (code : ArithCode) (x y : Int) :
    vrpIntConstBinop hostBits type true code x y =
      ⟨foldValue hostBits true code x y % (2 ^ type.precision : Nat), false⟩ := by
  rw [vrpIntConstBinop, if_pos rfl, foldedUnsigned unsigned, wrap_unsigned]

/-- Sums over ranges that are wide together take the greatest value, which the
computed range does not hold. -/
theorem plus_unsound (unsigned : type.unsigned = true) (first : ProperRange type a b)
    (second : ProperRange type c d) (wide : (2 ^ type.precision : Nat) ≤ (b - a) + (d - c)) :
    ¬ RangeSound hostBits true type (.arith .plus) (.bounds .range a b) (.bounds .range c d) := by
  intro sound
  have lowerA := (IntType.contains_unsigned unsigned a).mp first.lower
  have upperB := (IntType.contains_unsigned unsigned b).mp first.upper
  have lowerC := (IntType.contains_unsigned unsigned c).mp second.lower
  have upperD := (IntType.contains_unsigned unsigned d).mp second.upper
  obtain ⟨x, y, lowerX, upperX, lowerY, upperY, sum⟩ :
      ∃ x y, a ≤ x ∧ x ≤ b ∧ c ≤ y ∧ y ≤ d ∧ x + y = ((2 ^ type.precision : Nat) : Int) - 1 :=
    exists_sum first.ordered second.ordered (by omega) (by omega)
  have xIn : type.Contains x := ⟨first.lower.1.trans lowerX, upperX.trans first.upper.2⟩
  have yIn : type.Contains y := ⟨second.lower.1.trans lowerY, upperY.trans second.upper.2⟩
  have defined : exprResult true type (.arith .plus) x y =
      some (((2 ^ type.precision : Nat) : Int) - 1) := by
    change (if (type.unsigned || true) = true then some (wrap type.unsigned type.precision (x + y))
      else _) = _
    rw [Bool.or_true, if_pos rfl, unsigned, wrap_unsigned, sum]
    rw [Int.emod_eq_of_lt (by omega) (by omega)]
  have inside := sound x y _ xIn yIn ⟨lowerX, upperX⟩ ⟨lowerY, upperY⟩ defined
  change (rangeOfBounds .range (vrpIntConstBinop hostBits type true .plus a c)
    (vrpIntConstBinop hostBits type true .plus b d)).Contains _ at inside
  rw [binop_wrapv unsigned, binop_wrapv unsigned, rangeOfBounds_eq .range ⟨rfl, rfl⟩] at inside
  have stays : (a + c) % (2 ^ type.precision : Nat) = a + c :=
    Int.emod_eq_of_lt (by omega) (by omega)
  have wrapped : (b + d) % (2 ^ type.precision : Nat) = b + d - (2 ^ type.precision : Nat) := by
    rw [← Int.sub_emod_right]
    exact Int.emod_eq_of_lt (by omega) (by omega)
  simp only [foldValue, stays, wrapped] at inside
  rw [if_neg (by omega)] at inside
  obtain ⟨-, above⟩ := inside
  omega

/-- Differences over ranges that are wide together take the value zero, which
the computed range does not hold. -/
theorem minus_unsound (unsigned : type.unsigned = true) (first : ProperRange type a b)
    (second : ProperRange type c d) (wide : (2 ^ type.precision : Nat) ≤ (b - a) + (d - c)) :
    ¬ RangeSound hostBits true type (.arith .minus) (.bounds .range a b)
      (.bounds .range c d) := by
  intro sound
  have lowerA := (IntType.contains_unsigned unsigned a).mp first.lower
  have upperB := (IntType.contains_unsigned unsigned b).mp first.upper
  have lowerC := (IntType.contains_unsigned unsigned c).mp second.lower
  have upperD := (IntType.contains_unsigned unsigned d).mp second.upper
  have meet : max a c ≤ b ∧ max a c ≤ d ∧ a ≤ max a c ∧ c ≤ max a c := by omega
  obtain ⟨upperX, upperY, lowerX, lowerY⟩ := meet
  have xIn : type.Contains (max a c) := ⟨first.lower.1.trans lowerX, upperX.trans first.upper.2⟩
  have defined : exprResult true type (.arith .minus) (max a c) (max a c) = some 0 := by
    change (if (type.unsigned || true) = true then
      some (wrap type.unsigned type.precision (max a c - max a c)) else _) = _
    rw [Bool.or_true, if_pos rfl, unsigned, wrap_unsigned, sub_self, Int.zero_emod]
  have inside := sound _ _ _ xIn xIn ⟨lowerX, upperX⟩ ⟨lowerY, upperY⟩ defined
  change (rangeOfBounds .range (vrpIntConstBinop hostBits type true .minus a d)
    (vrpIntConstBinop hostBits type true .minus b c)).Contains _ at inside
  rw [binop_wrapv unsigned, binop_wrapv unsigned, rangeOfBounds_eq .range ⟨rfl, rfl⟩] at inside
  have wrapped : (a - d) % (2 ^ type.precision : Nat) = a - d + (2 ^ type.precision : Nat) := by
    rw [← Int.add_emod_right]
    exact Int.emod_eq_of_lt (by omega) (by omega)
  have stays : (b - c) % (2 ^ type.precision : Nat) = b - c :=
    Int.emod_eq_of_lt (by omega) (by omega)
  simp only [foldValue, stays, wrapped] at inside
  rw [if_neg (by omega)] at inside
  obtain ⟨below, -⟩ := inside
  omega

/-- The range of an arithmetic expression holds every result if the end points
decide, and for the operations other than products and `ROUND_DIV_EXPR` only if
they do. -/
theorem rangeSound_of_endsDecide (hostBits : Nat) (wrapv : Bool) (type : IntType)
    (code : ArithCode) (a b c d : Int) (fits : type.precision ≤ 2 * hostBits)
    (first : ProperRange type a b) (second : ProperRange type c d) :
    (EndsDecide hostBits wrapv type code a b c d →
      RangeSound hostBits wrapv type (.arith code) (.bounds .range a b) (.bounds .range c d)) ∧
    (code ≠ .mult → code ≠ .roundDiv →
      RangeSound hostBits wrapv type (.arith code) (.bounds .range a b) (.bounds .range c d) →
      EndsDecide hostBits wrapv type code a b c d) := by
  refine ⟨sound_of_endsDecide fits first second, fun noMult noRound sound => ?_⟩
  cases code with
  | plus =>
    intro unsigned wrapvSet
    subst wrapvSet
    by_contra wide
    exact plus_unsound unsigned first second (not_lt.mp wide) sound
  | minus =>
    intro unsigned wrapvSet
    subst wrapvSet
    by_contra wide
    exact minus_unsound unsigned first second (not_lt.mp wide) sound
  | mult => exact absurd rfl noMult
  | roundDiv => exact absurd rfl noRound
  | truncDiv => exact True.intro
  | floorDiv => exact True.intro
  | ceilDiv => exact True.intro
  | exactDiv => exact True.intro
  | min => exact True.intro
  | max => exact True.intro

/-- The products of unsigned values from 2 to 5 with values from 3 to 7. -/
theorem smallProducts_rangeSound :
    RangeSound 32 false ⟨true, 32, by decide⟩ (.arith .mult) (.bounds .range 2 5)
      (.bounds .range 3 7) :=
  (rangeSound_of_endsDecide 32 false ⟨true, 32, by decide⟩ .mult 2 5 3 7 (by decide)
    ⟨by decide, by decide, by decide⟩ ⟨by decide, by decide, by decide⟩).1
    fun _ => .inr (.inl (by decide))

/-- Unsigned products of values from 1 to 65537 wrap unseen at 65537 by 65537. -/
theorem wrappingProducts_not_rangeSound :
    ¬ RangeSound 32 false ⟨true, 32, by decide⟩ (.arith .mult) (.bounds .range 1 65537)
      (.bounds .range 1 65537) := by
  intro sound
  have inside := sound 65535 65535 4294836225 (by decide) (by decide) (by decide) (by decide)
    (by decide)
  revert inside
  decide

end Soundness

end GccCil.Gcc.Vrp
