import Mathlib.Tactic
import GccCil.Gcc.RangeSoundness

/-!
# Value ranges of unary expressions

`extract_range_from_unary_expr` of `tree-vrp.c` for expressions of integer type.
-/

namespace GccCil.Gcc.Vrp

open GccCil.Lib

structure SizedType extends IntType where
  size : Nat
  deriving DecidableEq

inductive UnaryCode where
  | negate | abs | nop | convert
  | fixTrunc | fixCeil | fixFloor | fixRound | float | bitNot | nonLvalue | conj
  deriving DecidableEq, Repr

/-- The unary expressions for which no range is determined. -/
def UnaryCode.refused : UnaryCode → Bool
  | .negate | .abs | .nop | .convert => false
  | .fixTrunc | .fixCeil | .fixFloor | .fixRound | .float | .bitNot | .nonLvalue | .conj => true

/-- `fold_negate_const`.  Overflow is recorded for signed types only. -/
def foldNegateConst (type : IntType) (x : Int) : Cst where
  value := wrap type.unsigned type.precision (-x)
  overflow := !type.unsigned && decide (¬ type.Contains (-x))

def foldAbsConst (type : IntType) (x : Int) : Cst :=
  if type.unsigned then ⟨x, false⟩
  else if -1 < x then ⟨x, false⟩
  else ⟨wrap type.unsigned type.precision (-x), decide (¬ type.Contains (-x))⟩

/-- `fold_convert_const_int_from_int` -/
def foldConvertConst (outer : IntType) (x : Int) : Cst where
  value := wrap outer.unsigned outer.precision x
  overflow := !outer.unsigned && decide (¬ outer.Contains x)

/-- `tree_int_cst_equal`, which compares the two words of the constants. -/
def treeIntCstEqual (hostBits : Nat) (x y : Int) : Bool :=
  unsignedDouble hostBits x == unsignedDouble hostBits y

/-- The end of the function: limits that are swapped or cannot be compared leave no range. -/
def rangeOfLimits (kind : RangeKind) (min max : Cst) : ValueRange :=
  if compareValues min max = -2 ∨ compareValues min max = 1 then .varying
  else .bounds kind min.value max.value

/-- The range of a `NEGATE_EXPR`. -/
def extractNegate (wrapv : Bool) (type : IntType) (kind : RangeKind) (min0 max0 : Int) :
    ValueRange :=
  if type.unsigned then
    rangeOfLimits kind (foldNegateConst type min0) (foldNegateConst type max0)
  else
    rangeOfLimits kind
      (if max0 = type.maxValue ∧ wrapv = false then ⟨type.minValue, false⟩
        else foldNegateConst type max0)
      (if min0 = type.minValue ∧ wrapv = false then ⟨type.maxValue, false⟩
        else foldNegateConst type min0)

/-- The range of an `ABS_EXPR`. -/
def extractAbs (hostBits : Nat) (wrapv : Bool) (type : IntType) (kind : RangeKind)
    (min0 max0 : Int) : ValueRange :=
  if type.unsigned then
    rangeOfLimits kind (foldAbsConst type min0) (foldAbsConst type max0)
  else if wrapv = true ∧ ((kind = .range ∧ min0 = type.minValue) ∨
      (kind = .antiRange ∧ min0 ≠ type.minValue ∧ ¬ rangeIncludesZeroP min0 max0)) then .varying
  else
    let min := if min0 = type.minValue then ⟨type.maxValue, false⟩ else foldAbsConst type min0
    let max := foldAbsConst type max0
    let cmp := compareValues min max
    match kind with
    | .antiRange =>
      if rangeIncludesZeroP min0 max0 then
        -- the lower of the two values
        let max := if cmp ≠ 1 then min else max
        let min := if wrapv = true ∧ min0 ≠ type.minValue then
            intConstBinop hostBits type .plus type.minValue 1
          else ⟨type.minValue, false⟩
        rangeOfLimits .antiRange min max
      else rangeOfLimits .range ⟨0, false⟩ ⟨type.maxValue, false⟩
    | .range =>
      if rangeIncludesZeroP min0 max0 then
        rangeOfLimits .range ⟨0, false⟩ (if cmp = 1 then min else max)
      else if cmp = 1 then rangeOfLimits .range max min
      else rangeOfLimits .range min max

/-- The range of a `NOP_EXPR` or a `CONVERT_EXPR`. -/
def extractConvert (hostBits : Nat) (inner outer : SizedType) (kind : RangeKind)
    (min0 max0 : Int) : ValueRange :=
  let min := foldConvertConst outer.toIntType min0
  let max := foldConvertConst outer.toIntType max0
  if kind = .range ∧ treeIntCstEqual hostBits min.value min0 ∧
      treeIntCstEqual hostBits max.value max0 ∧ compareValues min max ≤ 0 ∧
      -1 ≤ compareValues min max then
    .bounds .range min.value max.value
  else if inner.size ≠ outer.size ∨ inner.precision ≠ outer.precision then .varying
  else rangeOfLimits kind min max

/-- `extract_range_from_unary_expr` for an operand of type `inner` with range `vr0`. -/
def extractRangeFromUnaryExpr (hostBits : Nat) (wrapv : Bool) (inner outer : SizedType)
    (code : UnaryCode) (vr0 : ValueRange) : ValueRange :=
  if code.refused then .varying
  else match vr0 with
  | .undefined => .undefined
  | .varying => .varying
  | .bounds kind min0 max0 =>
    match code with
    | .nop | .convert => extractConvert hostBits inner outer kind min0 max0
    | .negate => extractNegate wrapv outer.toIntType kind min0 max0
    | .abs => extractAbs hostBits wrapv outer.toIntType kind min0 max0
    | _ => .varying

/-- The result of arithmetic in a type: unsigned types and, with `-fwrapv`, signed ones wrap;
else a result outside the type is undefined. -/
def fitResult (wrapv : Bool) (type : IntType) (value : Int) : Option Int :=
  if (type.unsigned || wrapv) = true then some (wrap type.unsigned type.precision value)
  else if type.Contains value then some value
  else none

def unaryResult (wrapv : Bool) (outer : IntType) (code : UnaryCode) (x : Int) : Option Int :=
  match code with
  | .negate => fitResult wrapv outer (-x)
  | .abs => fitResult wrapv outer |x|
  | .nop | .convert => some (wrap outer.unsigned outer.precision x)
  | _ => none

/-- Every result for an operand in its range is in the computed range. -/
def UnarySound (hostBits : Nat) (wrapv : Bool) (inner outer : SizedType) (code : UnaryCode)
    (vr0 : ValueRange) : Prop :=
  ∀ x result, inner.Contains x → vr0.Contains x →
    unaryResult wrapv outer.toIntType code x = some result →
    (extractRangeFromUnaryExpr hostBits wrapv inner outer code vr0).Contains result

section Limits

variable {hostBits : Nat} {wrapv : Bool} {type : IntType} {kind : RangeKind} {a b x result : Int}

theorem rangeOfLimits_contains {min max : Cst}
    (inside : min.overflow = false → max.overflow = false → min.value ≤ max.value →
      (ValueRange.bounds kind min.value max.value).Contains result) :
    (rangeOfLimits kind min max).Contains result := by
  rw [rangeOfLimits]
  split
  · trivial
  · next comparable =>
      obtain ⟨notUnknown, notGreater⟩ := not_or.mp comparable
      rw [compareValues] at notUnknown notGreater
      cases minOverflow : min.overflow with
      | true => simp [minOverflow] at notUnknown
      | false =>
        cases maxOverflow : max.overflow with
        | true => simp [maxOverflow] at notUnknown
        | false =>
          refine inside minOverflow maxOverflow ?_
          by_contra greater
          apply notGreater
          rw [minOverflow, maxOverflow, Bool.or_false, if_neg Bool.false_ne_true,
            if_neg (by omega), if_neg (by omega)]

theorem rangeOfLimits_eq (low high : Int) :
    rangeOfLimits kind ⟨low, false⟩ ⟨high, false⟩ =
      if low ≤ high then .bounds kind low high else .varying := by
  rw [rangeOfLimits, compareValues, Bool.or_false, if_neg Bool.false_ne_true]
  dsimp only
  by_cases less : low < high
  · rw [if_pos less, if_pos less.le, if_neg (by decide)]
  · by_cases equal : low = high
    · rw [if_neg less, if_pos equal, if_pos equal.le, if_neg (by decide)]
    · rw [if_neg less, if_neg equal, if_pos (Or.inr rfl), if_neg (by omega)]

theorem compareValues_eq_one {x y : Int} : compareValues ⟨x, false⟩ ⟨y, false⟩ = 1 ↔ y < x := by
  rw [compareValues, Bool.or_false, if_neg Bool.false_ne_true]
  dsimp only
  split
  · next less => exact iff_of_false (by decide) (by omega)
  · split
    · next equal => exact iff_of_false (by decide) (by omega)
    · exact iff_of_true rfl (by omega)

end Limits

section Signed

variable {hostBits : Nat} {wrapv : Bool} {type : IntType} {kind : RangeKind} {a b x result : Int}

theorem contains_neg_iff (signed : type.unsigned = false) (contains : type.Contains x) :
    type.Contains (-x) ↔ x ≠ type.minValue := by
  have ends := IntType.max_eq signed
  have lower := contains.1
  have upper := contains.2
  rw [IntType.Contains]
  omega

theorem wrap_neg_min (signed : type.unsigned = false) :
    wrap type.unsigned type.precision (-type.minValue) = type.minValue := by
  have least : type.minValue = -2 ^ (type.precision - 1) := by
    rw [IntType.minValue, signed, if_neg Bool.false_ne_true]
  have contains : type.Contains type.minValue :=
    ⟨le_rfl, type.min_le_zero.trans type.zero_le_max⟩
  calc wrap type.unsigned type.precision (-type.minValue)
      = wrap type.unsigned type.precision type.minValue := by
        apply wrap_congr
        rw [Int.modEq_iff_dvd, type.modulus_eq, least]
        exact ⟨-1, by ring⟩
    _ = type.minValue := IntType.wrap_eq contains

theorem fitResult_signed (signed : type.unsigned = false) {value : Int}
    (fits : value = -type.minValue ∨ type.Contains value)
    (defined : fitResult wrapv type value = some result) :
    (type.Contains value ∧ result = value) ∨
      (wrapv = true ∧ value = -type.minValue ∧ result = type.minValue) := by
  rw [fitResult, signed, Bool.false_or] at defined
  by_cases contains : type.Contains value
  · left
    refine ⟨contains, ?_⟩
    rw [if_pos contains, ← signed, IntType.wrap_eq contains, ite_self] at defined
    exact (Option.some.inj defined).symm
  · right
    have least := fits.resolve_right contains
    rw [if_neg contains] at defined
    split at defined
    · next wraps =>
        rw [least, ← signed, wrap_neg_min signed] at defined
        exact ⟨wraps, least, (Option.some.inj defined).symm⟩
    · cases defined

theorem foldNegateConst_value (signed : type.unsigned = false) (contains : type.Contains x)
    (exactly : (foldNegateConst type x).overflow = false) :
    (foldNegateConst type x).value = -x ∧ x ≠ type.minValue := by
  rw [foldNegateConst, signed] at exactly
  have fits : type.Contains (-x) := by simpa using exactly
  refine ⟨IntType.wrap_eq fits, (contains_neg_iff signed contains).mp fits⟩

theorem foldAbsConst_value (signed : type.unsigned = false) (contains : type.Contains x) :
    (x ≠ type.minValue → foldAbsConst type x = ⟨|x|, false⟩) ∧
      (foldAbsConst type type.minValue).overflow = true := by
  have least := type.min_le_zero
  have minContains : type.Contains type.minValue :=
    ⟨le_rfl, type.min_le_zero.trans type.zero_le_max⟩
  constructor
  · intro notLeast
    have fits := (contains_neg_iff signed contains).mpr notLeast
    rw [foldAbsConst, signed, if_neg Bool.false_ne_true]
    split
    · rw [abs_of_nonneg (by omega)]
    · have folded := IntType.wrap_eq fits
      rw [signed] at folded
      rw [folded, abs_of_nonpos (by omega), decide_eq_false (not_not.mpr fits)]
  · have power : 0 < (2 : Int) ^ (type.precision - 1) := by positivity
    have negative : ¬ -1 < type.minValue := by
      rw [IntType.minValue, signed, if_neg Bool.false_ne_true]
      omega
    rw [foldAbsConst, signed, if_neg Bool.false_ne_true, if_neg negative]
    exact decide_eq_true fun fits => (contains_neg_iff signed minContains).mp fits rfl

theorem negated_contains (signed : type.unsigned = false) (proper : ProperRange type a b) (xIn : type.Contains x) {low high : Int}
    (below : low = -b ∨ (low = type.minValue ∧ b = type.maxValue ∧ wrapv = false))
    (above : high = -a ∨ (high = type.maxValue ∧ a = type.minValue ∧ wrapv = false))
    (aIn : type.minValue < a ∨ wrapv = false)
    (member : (ValueRange.bounds kind a b).Contains x)
    (results : (type.Contains (-x) ∧ result = -x) ∨
      (wrapv = true ∧ -x = -type.minValue ∧ result = type.minValue)) :
    (ValueRange.bounds kind low high).Contains result := by
  have ends := IntType.max_eq signed
  have least := xIn.1
  have greatest := xIn.2
  have upper := proper.upper.2
  have resultIn : type.minValue ≤ result ∧ result ≤ type.maxValue := by
    rcases results with ⟨contains, rfl⟩ | ⟨-, -, rfl⟩
    · exact contains
    · omega
  cases kind with
  | range =>
    change low ≤ result ∧ result ≤ high
    change a ≤ x ∧ x ≤ b at member
    rcases results with ⟨contains, rfl⟩ | ⟨wraps, isLeast, rfl⟩
    · rcases below with below | below <;> rcases above with above | above <;> omega
    · simp only [wraps, Bool.true_eq_false, and_false, or_false] at below above aIn
      omega
  | antiRange =>
    change result < low ∨ high < result
    change x < a ∨ b < x at member
    rcases results with ⟨contains, rfl⟩ | ⟨wraps, isLeast, rfl⟩
    · rcases below with below | below <;> rcases above with above | above <;> omega
    · simp only [wraps, Bool.true_eq_false, and_false, or_false] at below above aIn
      omega

theorem extractNegate_signed (signed : type.unsigned = false) (proper : ProperRange type a b)
    (xIn : type.Contains x) (member : (ValueRange.bounds kind a b).Contains x)
    (defined : fitResult wrapv type (-x) = some result) :
    (extractNegate wrapv type kind a b).Contains result := by
  have fits : -x = -type.minValue ∨ type.Contains (-x) := by
    rw [contains_neg_iff signed xIn]
    omega
  have results := fitResult_signed signed fits defined
  rw [extractNegate, signed, if_neg Bool.false_ne_true]
  refine rangeOfLimits_contains fun lowFits highFits _ => ?_
  have lower := proper.lower.1
  refine negated_contains signed proper xIn ?_ ?_ ?_ member results
  · by_cases isEnd : b = type.maxValue ∧ wrapv = false
    · rw [if_pos isEnd]
      exact Or.inr ⟨rfl, isEnd⟩
    · rw [if_neg isEnd] at lowFits ⊢
      exact Or.inl (foldNegateConst_value signed proper.upper lowFits).1
  · by_cases isEnd : a = type.minValue ∧ wrapv = false
    · rw [if_pos isEnd]
      exact Or.inr ⟨rfl, isEnd⟩
    · rw [if_neg isEnd] at highFits ⊢
      exact Or.inl (foldNegateConst_value signed proper.lower highFits).1
  · split at highFits
    · next isEnd => exact Or.inr isEnd.2
    · have notLeast := (foldNegateConst_value signed proper.lower highFits).2
      exact Or.inl (by omega)

theorem absolute_range {low high : Int} (bounds : a ≤ x ∧ x ≤ b) (fits : |x| ≤ type.maxValue)
    (below : low ≤ |x|) (above : high = max (min |a| type.maxValue) |b|) :
    (ValueRange.bounds .range low high).Contains |x| := by
  refine ⟨below, ?_⟩
  rw [above, le_max_iff, le_min_iff]
  rcases abs_cases x with ⟨absX, signX⟩ | ⟨absX, signX⟩ <;>
    rcases abs_cases a with ⟨absA, signA⟩ | ⟨absA, signA⟩ <;>
    rcases abs_cases b with ⟨absB, signB⟩ | ⟨absB, signB⟩ <;> omega

theorem extractAbs_signed (signed : type.unsigned = false) (proper : ProperRange type a b)
    (xIn : type.Contains x) (member : (ValueRange.bounds kind a b).Contains x)
    (defined : fitResult wrapv type |x| = some result) :
    (extractAbs hostBits wrapv type kind a b).Contains result := by
  have ends := IntType.max_eq signed
  have nonneg := type.zero_le_max
  have least := xIn.1
  have greatest := xIn.2
  have magnitude := abs_cases x
  have fits : |x| = -type.minValue ∨ type.Contains |x| := by
    rw [IntType.Contains]
    omega
  have results := fitResult_signed signed fits defined
  obtain ⟨foldA, -⟩ := foldAbsConst_value signed proper.lower
  obtain ⟨foldB, foldLeast⟩ := foldAbsConst_value signed proper.upper
  have lowest : (if a = type.minValue then ⟨type.maxValue, false⟩ else foldAbsConst type a) =
      (⟨min |a| type.maxValue, false⟩ : Cst) := by
    have lower := proper.lower
    split
    · next isLeast =>
        rw [isLeast, abs_of_nonpos type.min_le_zero, min_eq_right (by omega)]
    · next notLeast =>
        have inType := (contains_neg_iff signed lower).mpr notLeast
        have small : |a| ≤ type.maxValue := abs_le'.mpr ⟨lower.2, inType.2⟩
        rw [foldA notLeast, min_eq_left small]
  have plus_one : intConstBinop hostBits type .plus type.minValue 1 =
      ⟨type.minValue + 1, false⟩ := by
    have inType : type.Contains (type.minValue + 1) := ⟨by omega, by omega⟩
    have folded : intConstBinop hostBits type .plus type.minValue 1 =
        ⟨wrap type.unsigned type.precision (type.minValue + 1),
          !type.unsigned && (decide (¬ type.Contains (type.minValue + 1)) || false)⟩ := rfl
    rw [folded, IntType.wrap_eq inType, decide_eq_false (not_not.mpr inType), Bool.or_false,
      Bool.and_false]
  rw [extractAbs, signed, if_neg Bool.false_ne_true, lowest]
  split
  · trivial
  · next useful =>
    rw [rangeIncludesZeroP_iff] at useful
    cases kind with
    | antiRange =>
      change x < a ∨ b < x at member
      simp only [reduceCtorEq, false_and, true_and, false_or] at useful
      dsimp only
      by_cases zero : rangeIncludesZeroP a b
      · rw [if_pos zero]
        rw [rangeIncludesZeroP_iff] at zero
        rw [foldB (by omega), plus_one]
        refine rangeOfLimits_contains fun _ _ _ => ?_
        change result < _ ∨ _ < result
        have magnitudeA := abs_cases a
        have magnitudeB := abs_cases b
        rcases results with ⟨contains, rfl⟩ | ⟨wraps, isLeast, rfl⟩
        · right
          simp only [ne_eq, compareValues_eq_one]
          split
          · dsimp only
            omega
          · dsimp only
            omega
        · left
          rw [if_pos ⟨wraps, by omega⟩]
          exact Int.lt_succ _
      · rw [if_neg zero]
        rw [rangeIncludesZeroP_iff] at zero
        refine rangeOfLimits_contains fun _ _ _ => ?_
        change 0 ≤ result ∧ result ≤ type.maxValue
        rcases results with ⟨contains, rfl⟩ | ⟨wraps, isLeast, rfl⟩
        · exact ⟨abs_nonneg x, contains.2⟩
        · have first : a = type.minValue := by
            by_contra notLeast
            exact useful ⟨wraps, notLeast, zero⟩
          have lower := proper.upper.1
          omega
    | range =>
      change a ≤ x ∧ x ≤ b at member
      simp only [reduceCtorEq, false_and, true_and, or_false] at useful
      have lower := proper.lower.1
      obtain ⟨contains, rfl⟩ : type.Contains |x| ∧ result = |x| := by
        refine results.resolve_right ?_
        rintro ⟨wraps, isLeast, -⟩
        exact useful ⟨wraps, by omega⟩
      dsimp only
      by_cases zero : rangeIncludesZeroP a b
      · rw [if_pos zero]
        rw [rangeIncludesZeroP_iff] at zero
        rw [foldB (by omega)]
        refine rangeOfLimits_contains fun _ _ _ => ?_
        refine absolute_range member contains.2 (abs_nonneg x) ?_
        simp only [compareValues_eq_one]
        split
        · dsimp only
          omega
        · dsimp only
          omega
      · rw [if_neg zero]
        rw [rangeIncludesZeroP_iff] at zero
        have magnitudeA := abs_cases a
        have magnitudeB := abs_cases b
        by_cases isLeast : b = type.minValue
        · have reversed : ∀ min : Cst, compareValues min (foldAbsConst type b) = -2 := by
            intro min
            rw [compareValues, isLeast, foldLeast, Bool.or_true, if_pos rfl]
          rw [reversed, if_neg (by decide), rangeOfLimits, reversed, if_pos (Or.inl rfl)]
          trivial
        · rw [foldB isLeast]
          split
          · refine rangeOfLimits_contains fun _ _ ordered => ?_
            refine absolute_range member contains.2 ?_ ?_
            · dsimp only at ordered ⊢
              omega
            · dsimp only at ordered ⊢
              omega
          · refine rangeOfLimits_contains fun _ _ ordered => ?_
            refine absolute_range member contains.2 ?_ ?_
            · dsimp only at ordered ⊢
              omega
            · dsimp only at ordered ⊢
              omega

end Signed

section Conversion

variable {hostBits : Nat} {outer : IntType} {a b x low high modulus : Int}

theorem same_distance (lowMoved : low ≡ a [ZMOD modulus]) (highMoved : high ≡ b [ZMOD modulus])
    (ordered : a ≤ b) (short : b - a < modulus) (newOrdered : low ≤ high)
    (newShort : high - low < modulus) : high - low = b - a := by
  have divides : modulus ∣ (high - low) - (b - a) := by
    obtain ⟨k, lowEq⟩ := lowMoved.symm.dvd
    obtain ⟨l, highEq⟩ := highMoved.symm.dvd
    exact ⟨l - k, by rw [mul_sub, ← lowEq, ← highEq]; ring⟩
  have small : |(high - low) - (b - a)| < modulus := abs_lt.mpr ⟨by omega, by omega⟩
  have same := Int.eq_zero_of_abs_lt_dvd divides small
  omega

theorem wrap_between {w : Nat} (narrow : outer.precision ≤ w) (lowIn : outer.Contains low)
    (highIn : outer.Contains high) (lowMoved : low ≡ a [ZMOD (2 ^ w : Nat)])
    (apart : high - low = b - a) (member : a ≤ x ∧ x ≤ b) :
    wrap outer.unsigned outer.precision x = x + (low - a) := by
  have inType : outer.Contains (x + (low - a)) := by
    have lower := lowIn.1
    have upper := highIn.2
    exact ⟨by omega, by omega⟩
  rw [← IntType.wrap_eq inType]
  apply wrap_congr
  apply modEq_of_le narrow
  have moved := lowMoved.symm.sub_right a
  rw [sub_self] at moved
  simpa using (moved.add_left x)

theorem sub_lt_modulus {type : IntType} {w : Nat} (narrow : type.precision ≤ w)
    (lowIn : type.Contains low) (highIn : type.Contains high) : high - low < (2 ^ w : Nat) := by
  have wider : 2 ^ type.precision ≤ 2 ^ w := Nat.pow_le_pow_right Nat.two_pos narrow
  have lower := (type.contains_iff low).mp lowIn
  have upper := (type.contains_iff high).mp highIn
  cases unsigned : type.unsigned with
  | true =>
    rw [unsigned, inRange_unsigned] at lower upper
    omega
  | false =>
    rw [unsigned, inRange_signed] at lower upper
    omega

theorem compareValues_limits {min max : Cst} (atMost : compareValues min max ≤ 0)
    (atLeast : -1 ≤ compareValues min max) : min.value ≤ max.value := by
  rw [compareValues] at atMost atLeast
  split at atMost
  · next unknown =>
      rw [if_pos unknown] at atLeast
      omega
  · split at atMost
    · omega
    · split at atMost
      · omega
      · omega

theorem extractConvert_sound {inner outer : SizedType} {kind : RangeKind}
    (innerFits : inner.precision ≤ 2 * hostBits) (outerFits : outer.precision ≤ 2 * hostBits)
    (proper : ProperRange inner.toIntType a b) (xIn : inner.Contains x)
    (member : (ValueRange.bounds kind a b).Contains x) :
    (extractConvert hostBits inner outer kind a b).Contains
      (wrap outer.unsigned outer.precision x) := by
  have inType : ∀ y, outer.Contains (wrap outer.unsigned outer.precision y) := by
    intro y
    rw [IntType.contains_iff]
    exact wrap_inRange outer.positive _ _
  rw [extractConvert]
  split
  · next simple =>
      obtain ⟨rfl, sameA, sameB, atMost, atLeast⟩ := simple
      have ordered := compareValues_limits atMost atLeast
      have movedA := (wrap_eq_wrap_iff true).mp (beq_iff_eq.mp sameA)
      have movedB := (wrap_eq_wrap_iff true).mp (beq_iff_eq.mp sameB)
      have apart : wrap outer.unsigned outer.precision b - wrap outer.unsigned outer.precision a =
          b - a := same_distance movedA movedB proper.ordered
        (sub_lt_modulus innerFits proper.lower proper.upper) ordered
        (sub_lt_modulus outerFits (inType a) (inType b))
      rw [wrap_between outerFits (inType a) (inType b) movedA apart member]
      obtain ⟨above, below⟩ := member
      change wrap outer.unsigned outer.precision a ≤ _ ∧
        _ ≤ wrap outer.unsigned outer.precision b
      exact ⟨by omega, by omega⟩
  · split
    · trivial
    · next sameSize =>
        have samePrecision : inner.precision = outer.precision :=
          not_not.mp (not_or.mp sameSize).2
        refine rangeOfLimits_contains fun _ _ ordered => ?_
        have moved := fun y => wrap_modEq outer.unsigned outer.precision y
        have apart := same_distance (moved a) (moved b) proper.ordered
          (sub_lt_modulus samePrecision.le proper.lower proper.upper) ordered
          (sub_lt_modulus le_rfl (inType a) (inType b))
        change _ ≤ _ at ordered
        dsimp only [foldConvertConst] at apart ordered ⊢
        cases kind with
        | range =>
          rw [wrap_between le_rfl (inType a) (inType b) (moved a) apart member]
          obtain ⟨above, below⟩ := member
          exact ⟨by omega, by omega⟩
        | antiRange =>
          by_contra inside
          obtain ⟨above, below⟩ := not_or.mp inside
          have within : a ≤ wrap outer.unsigned outer.precision x -
                (wrap outer.unsigned outer.precision a - a) ∧
              wrap outer.unsigned outer.precision x -
                (wrap outer.unsigned outer.precision a - a) ≤ b := ⟨by omega, by omega⟩
          have residue : wrap outer.unsigned outer.precision x -
              (wrap outer.unsigned outer.precision a - a) ≡ x
              [ZMOD (2 ^ inner.precision : Nat)] := by
            rw [samePrecision]
            simpa using (moved x).sub ((moved a).sub_right a)
          have wholeInner : inner.Contains (wrap outer.unsigned outer.precision x -
              (wrap outer.unsigned outer.precision a - a)) :=
            ⟨proper.lower.1.trans within.1, within.2.trans proper.upper.2⟩
          have same := eq_of_modEq_of_inRange ((inner.contains_iff _).mp wholeInner)
            ((inner.contains_iff _).mp xIn) residue
          rw [same] at within
          rcases member with before | behind
          · omega
          · omega

end Conversion

section Unsigned

variable {hostBits : Nat} {wrapv : Bool} {type : IntType} {kind : RangeKind} {a b x result : Int}

/-- The unsigned ranges whose negation wraps around at one end only, which is not noticed. -/
def NegatesAcrossZero (type : IntType) (kind : RangeKind) (a b : Int) : Prop :=
  type.unsigned = true ∧ a = 0 ∧
    (kind = .range ∧ 2 ≤ b ∨ kind = .antiRange ∧ 1 ≤ b ∧ b < type.maxValue)

theorem wrap_neg_unsigned (unsigned : type.unsigned = true) (contains : type.Contains x) :
    wrap type.unsigned type.precision (-x) = if x = 0 then 0 else type.maxValue + 1 - x := by
  obtain ⟨lower, upper⟩ := (type.contains_unsigned unsigned x).mp contains
  have greatest : type.maxValue + 1 = (2 ^ type.precision : Nat) := by
    rw [IntType.maxValue, if_pos unsigned]
    push_cast
    ring
  split
  · next zero =>
      rw [zero, neg_zero, unsigned, wrap_unsigned, Int.zero_emod]
  · next nonzero =>
      rw [greatest, unsigned, wrap_unsigned, ← Int.add_emod_right]
      rw [Int.emod_eq_of_lt (by omega) (by omega)]
      ring

theorem extractNegate_unsigned (unsigned : type.unsigned = true) :
    extractNegate wrapv type kind a b =
      if wrap type.unsigned type.precision (-a) ≤ wrap type.unsigned type.precision (-b) then
        .bounds kind (wrap type.unsigned type.precision (-a))
          (wrap type.unsigned type.precision (-b))
      else .varying := by
  have folded : ∀ y, foldNegateConst type y = ⟨wrap type.unsigned type.precision (-y), false⟩ := by
    intro y
    rw [foldNegateConst, unsigned]
    rfl
  rw [extractNegate, if_pos unsigned, folded, folded, rangeOfLimits_eq]

theorem fitResult_unsigned (unsigned : type.unsigned = true) (value : Int) :
    fitResult wrapv type value = some (wrap type.unsigned type.precision value) := by
  rw [fitResult, unsigned, Bool.true_or, if_pos rfl]

theorem extractNegate_unsigned_iff (unsigned : type.unsigned = true)
    (proper : ProperRange type a b) :
    (∀ x result, type.Contains x → (ValueRange.bounds kind a b).Contains x →
        fitResult wrapv type (-x) = some result →
        (extractNegate wrapv type kind a b).Contains result) ↔
      ¬ NegatesAcrossZero type kind a b := by
  have nonneg : type.minValue = 0 := by rw [IntType.minValue, if_pos unsigned]
  have lower := proper.lower
  have upper := proper.upper
  have ordered := proper.ordered
  rw [IntType.Contains, nonneg] at lower upper
  have negated := fun y contains => @wrap_neg_unsigned type y unsigned contains
  rw [extractNegate_unsigned unsigned, negated a proper.lower, negated b proper.upper]
  constructor
  · rintro sound ⟨-, rfl, across⟩
    have nonzero : b ≠ 0 := by
      rcases across with ⟨-, across⟩ | ⟨-, across, -⟩
      · omega
      · omega
    rw [if_pos rfl, if_neg nonzero, if_pos (by omega)] at sound
    rcases across with ⟨rfl, across⟩ | ⟨rfl, across⟩
    · have oneIn : type.Contains 1 := ⟨by omega, by omega⟩
      have found := sound 1 _ oneIn ⟨by omega, by omega⟩ (fitResult_unsigned unsigned _)
      rw [negated 1 oneIn, if_neg (by decide)] at found
      have below := found.2
      omega
    · have nextIn : type.Contains (b + 1) := ⟨by omega, by omega⟩
      have found := sound (b + 1) _ nextIn (Or.inr (by omega)) (fitResult_unsigned unsigned _)
      rw [negated _ nextIn, if_neg (by omega)] at found
      rcases found with before | behind
      · omega
      · omega
  · intro noAcross x result xIn member defined
    rw [fitResult_unsigned unsigned, negated x xIn] at defined
    rw [← Option.some.inj defined]
    rw [IntType.Contains, nonneg] at xIn
    rw [NegatesAcrossZero, and_iff_right unsigned] at noAcross
    by_cases limits : (if a = 0 then 0 else type.maxValue + 1 - a) ≤
        if b = 0 then 0 else type.maxValue + 1 - b
    · rw [if_pos limits]
      cases kind with
      | range =>
        change a ≤ x ∧ x ≤ b at member
        simp only [reduceCtorEq, false_and, true_and, or_false] at noAcross
        refine ⟨?_, ?_⟩
        · split_ifs at limits ⊢ <;> omega
        · split_ifs at limits ⊢ <;> omega
      | antiRange =>
        change x < a ∨ b < x at member
        simp only [reduceCtorEq, false_and, true_and, false_or] at noAcross
        change _ < _ ∨ _ < _
        split_ifs at limits ⊢ <;> omega
    · rw [if_neg limits]
      trivial

theorem extractAbs_unsigned (unsigned : type.unsigned = true) (proper : ProperRange type a b)
    (xIn : type.Contains x) (member : (ValueRange.bounds kind a b).Contains x)
    (defined : fitResult wrapv type |x| = some result) :
    (extractAbs hostBits wrapv type kind a b).Contains result := by
  have nonneg := ((type.contains_unsigned unsigned x).mp xIn).1
  rw [fitResult_unsigned unsigned, abs_of_nonneg nonneg, IntType.wrap_eq xIn] at defined
  rw [extractAbs, if_pos unsigned, foldAbsConst, if_pos unsigned, foldAbsConst, if_pos unsigned,
    rangeOfLimits_eq, if_pos proper.ordered, ← Option.some.inj defined]
  exact member

end Unsigned

/-- The range of a negation, an absolute value or a conversion holds every result if and only if
no unsigned range is negated across zero. -/
theorem extractRangeFromUnaryExpr_sound_iff (hostBits : Nat) (wrapv : Bool)
    {inner outer : SizedType} {code : UnaryCode} {kind : RangeKind} {a b : Int}
    (handled : code.refused = false)
    (sameType : code = .negate ∨ code = .abs → inner = outer)
    (innerFits : inner.precision ≤ 2 * hostBits) (outerFits : outer.precision ≤ 2 * hostBits)
    (proper : ProperRange inner.toIntType a b) :
    UnarySound hostBits wrapv inner outer code (.bounds kind a b) ↔
      ¬ (code = .negate ∧ NegatesAcrossZero outer.toIntType kind a b) := by
  have convert : (∀ x, inner.Contains x → (ValueRange.bounds kind a b).Contains x →
      (extractConvert hostBits inner outer kind a b).Contains
        (wrap outer.unsigned outer.precision x)) :=
    fun x xIn member => extractConvert_sound innerFits outerFits proper xIn member
  cases code with
  | nop =>
    refine iff_of_true ?_ (by simp)
    rintro x result xIn member defined
    rw [← Option.some.inj defined]
    exact convert x xIn member
  | convert =>
    refine iff_of_true ?_ (by simp)
    rintro x result xIn member defined
    rw [← Option.some.inj defined]
    exact convert x xIn member
  | negate =>
    obtain rfl := sameType (Or.inl rfl)
    rw [and_iff_right rfl]
    cases unsigned : inner.unsigned with
    | true => exact extractNegate_unsigned_iff unsigned proper
    | false =>
      refine iff_of_true ?_ fun across => ?_
      · exact fun x result xIn member defined =>
          extractNegate_signed unsigned proper xIn member defined
      · exact absurd across.1 (by rw [unsigned]; decide)
  | abs =>
    obtain rfl := sameType (Or.inr rfl)
    refine iff_of_true ?_ (by simp)
    cases unsigned : inner.unsigned with
    | true =>
      intro x result xIn member defined
      exact extractAbs_unsigned unsigned proper xIn member defined
    | false =>
      exact fun x result xIn member defined =>
        extractAbs_signed unsigned proper xIn member defined
  | _ => cases handled

/-- Negation of the `unsigned int` values from 0 to 1. -/
theorem extractRangeFromUnaryExpr_sound_iff_int :
    UnarySound 32 false ⟨⟨true, 32, by decide⟩, 32⟩ ⟨⟨true, 32, by decide⟩, 32⟩ .negate
        (.bounds .range 0 1) ↔
      ¬ (UnaryCode.negate = .negate ∧ NegatesAcrossZero ⟨true, 32, by decide⟩ .range 0 1) :=
  extractRangeFromUnaryExpr_sound_iff 32 false rfl (fun _ => rfl) (by decide) (by decide)
    ⟨by decide, by decide, by decide⟩

/-- The range of `-x` for `x` from 0 to 5 does not hold the negation of 1. -/
theorem extractRangeFromUnaryExpr_unsigned_negation :
    extractRangeFromUnaryExpr 32 false ⟨⟨true, 32, by decide⟩, 32⟩ ⟨⟨true, 32, by decide⟩, 32⟩
        .negate (.bounds .range 0 5) = .bounds .range 0 4294967291 ∧
      unaryResult false ⟨true, 32, by decide⟩ .negate 1 = some 4294967295 ∧
      ¬ UnarySound 32 false ⟨⟨true, 32, by decide⟩, 32⟩ ⟨⟨true, 32, by decide⟩, 32⟩ .negate
        (.bounds .range 0 5) := by
  refine ⟨by decide, by decide, fun sound => ?_⟩
  have found := sound 1 4294967295 (by decide) (by decide) (by decide)
  revert found
  decide

end GccCil.Gcc.Vrp
