import Mathlib.Tactic
import GccCil.Gcc.RangeSoundness

/-!
# Anti-ranges and truth values

The operation is applied to the end points, and the kind of the operands'
ranges is kept.  For anti-ranges and for exclusive or this is sound only for
some operands.
-/

namespace GccCil.Gcc.Vrp

variable {hostBits : Nat} {wrapv : Bool} {type : IntType} {kind : RangeKind} {code : ArithCode}
  {a b c d x y : Int}

/-- An operand's range with bounds: they are ordered values of the type, and an
anti-range does not exclude every value. -/
structure ProperOperand (type : IntType) (kind : RangeKind) (min max : Int) : Prop where
  bounds : ProperRange type min max
  nonempty : kind = .antiRange → ¬ (min = type.minValue ∧ max = type.maxValue)

/-- The operands that an expression code has: any anti-ranges for arithmetic,
ranges of truth values for boolean operations. -/
def OperandsFor (type : IntType) (kind : RangeKind) : TreeCode → Prop
  | .arith _ => kind = .antiRange
  | .truth _ => type.unsigned = true ∧ type.precision = 1
  | .other => False

/-- The products of values on the far sides of two anti-ranges are undefined or
outside of the products of the end points. -/
def FarSidesApart (type : IntType) (a b c d : Int) : Prop :=
  (a ≤ 0 ∧ 0 ≤ b) ∧ (c ≤ 0 ∧ 0 ≤ d) ∧
    (b = type.maxValue ∨ d = type.maxValue ∨ type.maxValue < (b + 1) * (d + 1) ∨
      a * c < (b + 1) * (d + 1)) ∧
    (a = type.minValue ∨ c = type.minValue ∨ type.maxValue < (a - 1) * (c - 1) ∨
      b * d < (a - 1) * (c - 1)) ∧
    (b = type.maxValue ∨ c = type.minValue ∨ (b + 1) * (c - 1) < type.minValue ∨
      (b + 1) * (c - 1) < a * d) ∧
    (a = type.minValue ∨ d = type.maxValue ∨ (a - 1) * (d + 1) < type.minValue ∨
      (a - 1) * (d + 1) < b * c)

/-- The operands for which the kind of the ranges may be kept. -/
def KeepsKind (wrapv : Bool) (type : IntType) (kind : RangeKind) (code : TreeCode)
    (a b c d : Int) : Prop :=
  match code with
  | .arith .mult => (type.unsigned || wrapv) = true ∨ FarSidesApart type a b c d
  | .arith .min => a = c ∨ (d = type.maxValue ∧ c < a) ∨ (b = type.maxValue ∧ a < c)
  | .arith .max => b = d ∨ (c = type.minValue ∧ b < d) ∨ (a = type.minValue ∧ d < b)
  | .truth .xor => kind = .range ∧ ¬ (a < b ∧ c < d)
  | .truth _ => kind = .range ∨ a = c
  | _ => True

theorem minMax_contains (parallel : code = .min ∨ code = .max) (xIn : type.Contains x)
    (yIn : type.Contains y) : type.Contains (exactValue code x y) := by
  rcases parallel with rfl | rfl
  · exact ⟨le_min xIn.1 yIn.1, (min_le_left x y).trans xIn.2⟩
  · exact ⟨xIn.1.trans (le_max_left x y), max_le xIn.2 yIn.2⟩

theorem binop_minMax (parallel : code = .min ∨ code = .max) (xIn : type.Contains x)
    (yIn : type.Contains y) :
    vrpIntConstBinop hostBits type wrapv code x y = ⟨exactValue code x y, false⟩ := by
  have contains := minMax_contains parallel xIn yIn
  have folded : foldValue hostBits type.unsigned code x y = exactValue code x y := by
    rcases parallel with rfl | rfl
    · simp only [foldValue, exactValue]
      omega
    · simp only [foldValue, exactValue]
      omega
  have codes : code.isDiv = false ∧ code ≠ .plus ∧ code ≠ .mult ∧ code ≠ .minus := by
    rcases parallel with rfl | rfl
    · decide
    · decide
  have plain : intConstBinop hostBits type code x y = ⟨exactValue code x y, false⟩ := by
    simp only [intConstBinop, folded, IntType.wrap_eq contains, contains, codes.1]
    simp
  simp only [vrpIntConstBinop, plain, codes.2.1, codes.2.2.1, codes.2.2.2]
  simp

theorem extractArith_minMax (parallel : code = .min ∨ code = .max) (first : ProperRange type a b)
    (second : ProperRange type c d) :
    extractArith hostBits wrapv type code kind a b c d =
      .bounds kind (exactValue code a c) (exactValue code b d) := by
  have bounds : extractArith hostBits wrapv type code kind a b c d =
      rangeOfBounds kind (vrpIntConstBinop hostBits type wrapv code a c)
        (vrpIntConstBinop hostBits type wrapv code b d) := by
    rcases parallel with rfl | rfl
    · rfl
    · rfl
  have ordered : exactValue code a c ≤ exactValue code b d := by
    rcases parallel with rfl | rfl
    · exact min_le_min first.ordered second.ordered
    · exact max_le_max first.ordered second.ordered
  rw [bounds, binop_minMax parallel first.lower second.lower,
    binop_minMax parallel first.upper second.upper, rangeOfBounds_eq kind ⟨rfl, rfl⟩]
  exact if_neg (not_lt.mpr ordered)

theorem opResult_minMax (parallel : code = .min ∨ code = .max) (xIn : type.Contains x)
    (yIn : type.Contains y) :
    opResult wrapv type code x y = some (exactValue code x y) := by
  have contains := minMax_contains parallel xIn yIn
  have exact_ : exactResult code x y = some (exactValue code x y) := by
    rcases parallel with rfl | rfl
    · rfl
    · rfl
  rw [opResult, exact_, Option.bind_some, IntType.wrap_eq contains, if_pos contains, ite_self]

theorem minMax_sound_iff (parallel : code = .min ∨ code = .max) (first : ProperRange type a b)
    (second : ProperRange type c d) :
    RangeSound hostBits wrapv type (.arith code) (.bounds .antiRange a b)
        (.bounds .antiRange c d) ↔
      ∀ x y, type.Contains x → type.Contains y → (x < a ∨ b < x) → (y < c ∨ d < y) →
        exactValue code x y < exactValue code a c ∨ exactValue code b d < exactValue code x y := by
  have computed : extractRangeFromBinaryExpr hostBits wrapv type (.arith code)
      (.bounds .antiRange a b) (.bounds .antiRange c d) =
      .bounds .antiRange (exactValue code a c) (exactValue code b d) :=
    extractArith_minMax parallel first second
  rw [RangeSound, computed]
  constructor
  · intro sound x y xIn yIn xOut yOut
    exact sound x y _ xIn yIn xOut yOut (opResult_minMax parallel xIn yIn)
  · intro outside x y result xIn yIn xOut yOut defined
    have value : some result = some (exactValue code x y) :=
      defined.symm.trans (opResult_minMax parallel xIn yIn)
    cases value
    exact outside x y xIn yIn xOut yOut

theorem min_sound_iff (first : ProperRange type a b) (second : ProperRange type c d) :
    RangeSound hostBits wrapv type (.arith .min) (.bounds .antiRange a b)
        (.bounds .antiRange c d) ↔
      a = c ∨ (d = type.maxValue ∧ c < a) ∨ (b = type.maxValue ∧ a < c) := by
  rw [minMax_sound_iff (.inl rfl) first second]
  obtain ⟨⟨aLower, aUpper⟩, ⟨bLower, bUpper⟩, orderedX⟩ := first
  obtain ⟨⟨cLower, cUpper⟩, ⟨dLower, dUpper⟩, orderedY⟩ := second
  simp only [exactValue]
  constructor
  · intro outside
    by_contra neither
    -- the lesser lower end, and a value above the other anti-range
    rcases lt_or_ge a c with less | greater
    · have result := outside (b + 1) a ⟨by omega, by omega⟩ ⟨aLower, aUpper⟩ (.inr (by omega))
        (.inl less)
      omega
    · have result := outside c (d + 1) ⟨cLower, cUpper⟩ ⟨by omega, by omega⟩ (.inl (by omega))
        (.inr (by omega))
      omega
  · rintro keeps x y ⟨-, xUpper⟩ ⟨-, yUpper⟩ xOut yOut
    simp only [min_lt_iff, lt_min_iff]
    omega

theorem max_sound_iff (first : ProperRange type a b) (second : ProperRange type c d) :
    RangeSound hostBits wrapv type (.arith .max) (.bounds .antiRange a b)
        (.bounds .antiRange c d) ↔
      b = d ∨ (c = type.minValue ∧ b < d) ∨ (a = type.minValue ∧ d < b) := by
  rw [minMax_sound_iff (.inr rfl) first second]
  obtain ⟨⟨aLower, aUpper⟩, ⟨bLower, bUpper⟩, orderedX⟩ := first
  obtain ⟨⟨cLower, cUpper⟩, ⟨dLower, dUpper⟩, orderedY⟩ := second
  simp only [exactValue]
  constructor
  · intro outside
    by_contra neither
    -- the greater upper end, and a value below the other anti-range
    rcases lt_or_ge b d with less | greater
    · have result := outside d (c - 1) ⟨dLower, dUpper⟩ ⟨by omega, by omega⟩ (.inr less)
        (.inl (by omega))
      omega
    · have result := outside (a - 1) b ⟨by omega, by omega⟩ ⟨bLower, bUpper⟩ (.inl (by omega))
        (.inr (by omega))
      omega
  · rintro keeps x y ⟨xLower, -⟩ ⟨yLower, -⟩ xOut yOut
    simp only [lt_max_iff, max_lt_iff]
    omega

structure CornerBounds (type : IntType) (a b c d min max : Int) : Prop where
  corner : ∀ x y, (x = a ∨ x = b) → (y = c ∨ y = d) →
    min ≤ clamp type (x * y) ∧ clamp type (x * y) ≤ max
  minCorner : ∃ x y, (x = a ∨ x = b) ∧ (y = c ∨ y = d) ∧ min = clamp type (x * y)
  maxCorner : ∃ x y, (x = a ∨ x = b) ∧ (y = c ∨ y = d) ∧ max = clamp type (x * y)

section Products

variable (signed : type.unsigned = false)

include signed

theorem extractArith_mult (first : ProperRange type a b) (second : ProperRange type c d) :
    ∃ min max, extractArith hostBits false type .mult .antiRange a b c d =
        .bounds .antiRange min max ∧ CornerBounds type a b c d min max := by
  have fold : ∀ x y, (x = a ∨ x = b) → (y = c ∨ y = d) →
      vrpIntConstBinop hostBits type false .mult x y = ⟨clamp type (x * y), false⟩ := by
    intro x y xEnd yEnd
    exact binop_clamped signed (first.ends xEnd) (second.ends yEnd) (fun isDiv => by cases isDiv) rfl
  have allUnflagged : ∀ val ∈ vrpIntConstBinop hostBits type false .mult a c ::
      crossOperations (vrpIntConstBinop hostBits type false .mult) a b c d,
      val.overflow = false := by
    intro val member
    obtain ⟨x, y, xEnd, yEnd, rfl⟩ := mem_corners member
    rw [fold x y xEnd yEnd]
  have unflagged : Unflagged (crossBounds (vrpIntConstBinop hostBits type false .mult) a b c d) := by
    apply extremes_unflagged
    intro val member
    rcases List.mem_cons.mp member with rfl | member
    · exact allUnflagged _ (List.mem_cons_self ..)
    · exact allUnflagged _ member
  have bounds := extremes_bounds (le_refl _) unflagged
  obtain ⟨minMember, maxMember⟩ := extremes_mem unflagged
  have corner : ∀ x y, (x = a ∨ x = b) → (y = c ∨ y = d) → _ := fun x y xEnd yEnd =>
    bounds _ (List.mem_cons_of_mem _
      (corners_mem (vrpIntConstBinop hostBits type false .mult) a b c d xEnd yEnd))
  have isCorner : ∀ val, val ∈ vrpIntConstBinop hostBits type false .mult a c ::
      vrpIntConstBinop hostBits type false .mult a c ::
      crossOperations (vrpIntConstBinop hostBits type false .mult) a b c d →
      ∃ x y, (x = a ∨ x = b) ∧ (y = c ∨ y = d) ∧ val.value = clamp type (x * y) := by
    intro val member
    obtain ⟨x, y, xEnd, yEnd, rfl⟩ : ∃ x y, (x = a ∨ x = b) ∧ (y = c ∨ y = d) ∧
        val = vrpIntConstBinop hostBits type false .mult x y := by
      rcases List.mem_cons.mp member with rfl | member
      · exact ⟨a, c, .inl rfl, .inl rfl, rfl⟩
      · exact mem_corners member
    exact ⟨x, y, xEnd, yEnd, by rw [fold x y xEnd yEnd]⟩
  refine ⟨_, _, ?_, ?_, isCorner _ minMember, isCorner _ maxMember⟩
  · have swapped := (corner a c (.inl rfl) (.inl rfl)).2
    have computed : extractArith hostBits false type .mult .antiRange a b c d =
        rangeOfBounds .antiRange
          (crossBounds (vrpIntConstBinop hostBits type false .mult) a b c d).1
          (crossBounds (vrpIntConstBinop hostBits type false .mult) a b c d).2 := by
      simp [extractArith, signed, crossBounds, crossOperations]
    rw [computed]
    exact (rangeOfBounds_eq .antiRange unflagged).trans
      (if_neg (not_lt.mpr (swapped.1.trans swapped.2)))
  · intro x y xEnd yEnd
    have inside := (corner x y xEnd yEnd).2
    rwa [fold x y xEnd yEnd] at inside

theorem exists_clamped_product {u v : Int} (uIn : type.Contains u) (vIn : type.Contains v)
    (first : u ≠ 0) (second : v ≠ 0) :
    ∃ x y, type.Contains x ∧ type.Contains y ∧ (0 < u → x < 0) ∧ (u < 0 → 0 ≤ x) ∧
      (0 < v → y < 0) ∧ (v < 0 → 0 ≤ y) ∧ x * y = clamp type (u * v) := by
  have limits := IntType.max_eq signed
  have zeroMax := type.zero_le_max
  obtain ⟨uLower, uUpper⟩ := uIn
  obtain ⟨vLower, vUpper⟩ := vIn
  have negated : type.minValue < u → type.minValue < v → type.Contains (u * v) →
      ∃ x y, type.Contains x ∧ type.Contains y ∧ (0 < u → x < 0) ∧ (u < 0 → 0 ≤ x) ∧
        (0 < v → y < 0) ∧ (v < 0 → 0 ≤ y) ∧ x * y = clamp type (u * v) := by
    intro uAbove vAbove contains
    refine ⟨-u, -v, ⟨by omega, by omega⟩, ⟨by omega, by omega⟩, by omega, by omega, by omega,
      by omega, ?_⟩
    rw [neg_mul_neg, clamp_of_contains contains]
  rcases lt_or_gt_of_ne first with uNegative | uPositive
  · rcases lt_or_gt_of_ne second with vNegative | vPositive
    · by_cases fits : u * v ≤ type.maxValue
      · have uSmall : -u ≤ u * v := by nlinarith
        have vSmall : -v ≤ u * v := by nlinarith
        exact negated (by omega) (by omega) ⟨by omega, fits⟩
      · refine ⟨min 1 type.maxValue, type.maxValue, ⟨by omega, by omega⟩, ⟨by omega, by omega⟩,
          by omega, by omega, by omega, by omega, ?_⟩
        rw [show clamp type (u * v) = type.maxValue by rw [clamp]; omega]
        rcases eq_or_lt_of_le zeroMax with zero | positive
        · rw [← zero, mul_zero]
        · rw [min_eq_left (by omega), one_mul]
    · by_cases fits : type.minValue < u * v
      · have uSmall : u * v ≤ u := by nlinarith
        have vSmall : u * v ≤ -v := by nlinarith
        exact negated (by omega) (by omega) ⟨by omega, by omega⟩
      · refine ⟨1, type.minValue, ⟨by omega, by omega⟩, ⟨by omega, by omega⟩,
          by omega, by omega, by omega, by omega, ?_⟩
        rw [one_mul, clamp]
        omega
  · rcases lt_or_gt_of_ne second with vNegative | vPositive
    · by_cases fits : type.minValue < u * v
      · have uSmall : u * v ≤ -u := by nlinarith
        have vSmall : u * v ≤ v := by nlinarith
        exact negated (by omega) (by omega) ⟨by omega, by omega⟩
      · refine ⟨type.minValue, 1, ⟨by omega, by omega⟩, ⟨by omega, by omega⟩,
          by omega, by omega, by omega, by omega, ?_⟩
        rw [mul_one, clamp]
        omega
    · by_cases fits : u * v ≤ type.maxValue
      · have nonneg : 0 ≤ u * v := by positivity
        exact negated (by omega) (by omega) ⟨by omega, fits⟩
      · refine ⟨-1, -type.maxValue, ⟨by omega, by omega⟩, ⟨by omega, by omega⟩,
          by omega, by omega, by omega, by omega, ?_⟩
        rw [neg_mul_neg, one_mul, clamp]
        omega

end Products

theorem mult_sound_iff_outside (signed : type.unsigned = false) {min max : Int}
    (computed : extractArith hostBits false type .mult .antiRange a b c d =
      .bounds .antiRange min max) :
    RangeSound hostBits false type (.arith .mult) (.bounds .antiRange a b)
        (.bounds .antiRange c d) ↔
      ∀ x y, type.Contains x → type.Contains y → (x < a ∨ b < x) → (y < c ∨ d < y) →
        type.Contains (x * y) → x * y < min ∨ max < x * y := by
  have range : extractRangeFromBinaryExpr hostBits false type (.arith .mult)
      (.bounds .antiRange a b) (.bounds .antiRange c d) = .bounds .antiRange min max := computed
  have result : ∀ x y, exprResult false type (.arith .mult) x y =
      if type.Contains (x * y) then some (x * y) else none := by
    intro x y
    change (if (type.unsigned || false) = true then _ else _) = _
    rw [signed]
    rfl
  rw [RangeSound, range]
  constructor
  · intro sound x y xIn yIn xOut yOut contains
    exact sound x y _ xIn yIn xOut yOut (by rw [result, if_pos contains])
  · intro outside x y value xIn yIn xOut yOut defined
    rw [result] at defined
    split at defined
    · cases defined
      exact outside x y xIn yIn xOut yOut ‹_›
    · cases defined

theorem ProperOperand.exists_outside (proper : ProperOperand type .antiRange a b) :
    ∃ x, type.Contains x ∧ (x < a ∨ b < x) := by
  obtain ⟨⟨⟨aLower, aUpper⟩, ⟨bLower, bUpper⟩, ordered⟩, nonempty⟩ := proper
  by_cases lower : a = type.minValue
  · have upper : b ≠ type.maxValue := fun upper => nonempty rfl ⟨lower, upper⟩
    exact ⟨b + 1, ⟨by omega, by omega⟩, .inr (by omega)⟩
  · exact ⟨a - 1, ⟨by omega, by omega⟩, .inl (by omega)⟩

theorem clamp_contains (type : IntType) (value : Int) : type.Contains (clamp type value) := by
  have lower := type.min_le_zero
  have upper := type.zero_le_max
  constructor
  · rw [clamp]
    omega
  · rw [clamp]
    omega

theorem clamp_nonpos (type : IntType) {value : Int} (nonpos : value ≤ 0) : value ≤ clamp type value ∧
    clamp type value ≤ 0 := by
  have lower := type.min_le_zero
  have upper := type.zero_le_max
  rw [clamp]
  omega

theorem clamp_nonneg (type : IntType) {value : Int} (nonneg : 0 ≤ value) : clamp type value ≤ value ∧
    0 ≤ clamp type value := by
  have lower := type.min_le_zero
  have upper := type.zero_le_max
  rw [clamp]
  omega

theorem CornerBounds.zero_between {min max : Int} (bounds : CornerBounds type a b c d min max)
    (zero : (a ≤ 0 ∧ 0 ≤ b) ∨ (c ≤ 0 ∧ 0 ≤ d)) : min ≤ 0 ∧ 0 ≤ max := by
  obtain ⟨nonpos, nonneg⟩ : (∃ x y, (x = a ∨ x = b) ∧ (y = c ∨ y = d) ∧ x * y ≤ 0) ∧
      ∃ x y, (x = a ∨ x = b) ∧ (y = c ∨ y = d) ∧ 0 ≤ x * y := by
    rcases zero with ⟨lower, upper⟩ | ⟨lower, upper⟩
    · rcases le_total 0 c with positive | negative
      · exact ⟨⟨a, c, .inl rfl, .inl rfl, mul_nonpos_of_nonpos_of_nonneg lower positive⟩,
          b, c, .inr rfl, .inl rfl, mul_nonneg upper positive⟩
      · exact ⟨⟨b, c, .inr rfl, .inl rfl, mul_nonpos_of_nonneg_of_nonpos upper negative⟩,
          a, c, .inl rfl, .inl rfl, mul_nonneg_of_nonpos_of_nonpos lower negative⟩
    · rcases le_total 0 a with positive | negative
      · exact ⟨⟨a, c, .inl rfl, .inl rfl, mul_nonpos_of_nonneg_of_nonpos positive lower⟩,
          a, d, .inl rfl, .inr rfl, mul_nonneg positive upper⟩
      · exact ⟨⟨a, d, .inl rfl, .inr rfl, mul_nonpos_of_nonpos_of_nonneg negative upper⟩,
          a, c, .inl rfl, .inl rfl, mul_nonneg_of_nonpos_of_nonpos negative lower⟩
  obtain ⟨x, y, xEnd, yEnd, product⟩ := nonpos
  obtain ⟨x', y', xEnd', yEnd', product'⟩ := nonneg
  exact ⟨(bounds.corner x y xEnd yEnd).1.trans (clamp_nonpos type product).2,
    (clamp_nonneg type product').2.trans (bounds.corner x' y' xEnd' yEnd').2⟩

theorem CornerBounds.zero_of_outside {min max : Int} (signed : type.unsigned = false)
    (bounds : CornerBounds type a b c d min max)
    (first : ProperOperand type .antiRange a b) (second : ProperOperand type .antiRange c d)
    (outside : ∀ x y, type.Contains x → type.Contains y → (x < a ∨ b < x) → (y < c ∨ d < y) →
      type.Contains (x * y) → x * y < min ∨ max < x * y) :
    (a ≤ 0 ∧ 0 ≤ b) ∧ (c ≤ 0 ∧ 0 ≤ d) := by
  have zeroIn : type.Contains 0 := ⟨type.min_le_zero, type.zero_le_max⟩
  -- a product with zero lies between the bounds if the other range includes zero
  have zeroFirst : (c ≤ 0 ∧ 0 ≤ d) → a ≤ 0 ∧ 0 ≤ b := by
    intro zero
    by_contra excluded
    obtain ⟨y, yIn, yOut⟩ := second.exists_outside
    have between := bounds.zero_between (.inr zero)
    have product := outside 0 y zeroIn yIn (by omega) yOut (by rwa [zero_mul])
    rw [zero_mul] at product
    omega
  have zeroSecond : (a ≤ 0 ∧ 0 ≤ b) → c ≤ 0 ∧ 0 ≤ d := by
    intro zero
    by_contra excluded
    obtain ⟨x, xIn, xOut⟩ := first.exists_outside
    have between := bounds.zero_between (.inl zero)
    have product := outside x 0 xIn zeroIn xOut (by omega) (by rwa [mul_zero])
    rw [mul_zero] at product
    omega
  by_contra neither
  have firstExcludes : ¬ (a ≤ 0 ∧ 0 ≤ b) := fun zero => neither ⟨zero, zeroSecond zero⟩
  have secondExcludes : ¬ (c ≤ 0 ∧ 0 ≤ d) := fun zero => neither ⟨zeroFirst zero, zero⟩
  obtain ⟨u, uEnd, uNonzero, uPositive, uNegative⟩ :
      ∃ u, (u = a ∨ u = b) ∧ u ≠ 0 ∧ (0 < a → 0 < u) ∧ (b < 0 → u < 0) := by
    have ordered := first.bounds.ordered
    rcases lt_or_ge 0 a with positive | nonpos
    · exact ⟨a, .inl rfl, by omega, fun _ => positive, fun _ => by omega⟩
    · exact ⟨b, .inr rfl, by omega, fun _ => by omega, fun negative => negative⟩
  obtain ⟨v, vEnd, vNonzero, vPositive, vNegative⟩ :
      ∃ v, (v = c ∨ v = d) ∧ v ≠ 0 ∧ (0 < c → 0 < v) ∧ (d < 0 → v < 0) := by
    have ordered := second.bounds.ordered
    rcases lt_or_ge 0 c with positive | nonpos
    · exact ⟨c, .inl rfl, by omega, fun _ => positive, fun _ => by omega⟩
    · exact ⟨d, .inr rfl, by omega, fun _ => by omega, fun negative => negative⟩
  obtain ⟨x, y, xIn, yIn, xBelow, xAbove, yBelow, yAbove, product⟩ :=
    exists_clamped_product signed (first.bounds.ends uEnd) (second.bounds.ends vEnd) uNonzero
      vNonzero
  have between := bounds.corner u v uEnd vEnd
  have xOut : x < a ∨ b < x := by
    rcases not_and_or.mp firstExcludes with positive | negative
    · exact .inl ((xBelow (uPositive (not_le.mp positive))).trans (not_le.mp positive))
    · exact .inr ((not_le.mp negative).trans_le (xAbove (uNegative (not_le.mp negative))))
  have yOut : y < c ∨ d < y := by
    rcases not_and_or.mp secondExcludes with positive | negative
    · exact .inl ((yBelow (vPositive (not_le.mp positive))).trans (not_le.mp positive))
    · exact .inr ((not_le.mp negative).trans_le (yAbove (vNegative (not_le.mp negative))))
  have contains := clamp_contains type (u * v)
  rw [← product] at between contains
  rcases outside x y xIn yIn xOut yOut contains with below | above
  · exact absurd between.1 (not_le.mpr below)
  · exact absurd between.2 (not_le.mpr above)

theorem CornerBounds.farSidesApart {min max : Int} (bounds : CornerBounds type a b c d min max)
    (first : ProperRange type a b) (second : ProperRange type c d)
    (zero : (a ≤ 0 ∧ 0 ≤ b) ∧ (c ≤ 0 ∧ 0 ≤ d))
    (outside : ∀ x y, type.Contains x → type.Contains y → (x < a ∨ b < x) → (y < c ∨ d < y) →
      type.Contains (x * y) → x * y < min ∨ max < x * y) :
    FarSidesApart type a b c d := by
  obtain ⟨⟨aNonpos, bNonneg⟩, cNonpos, dNonneg⟩ := zero
  obtain ⟨⟨aLower, aUpper⟩, ⟨bLower, bUpper⟩, -⟩ := first
  obtain ⟨⟨cLower, cUpper⟩, ⟨dLower, dUpper⟩, -⟩ := second
  have between := bounds.zero_between (.inl ⟨aNonpos, bNonneg⟩)
  have minLower := type.min_le_zero
  have maxUpper := type.zero_le_max
  -- a positive product that a corner reaches, and a negative one
  have positive : ∀ {x y u v : Int}, (u = a ∨ u = b) → (v = c ∨ v = d) → type.Contains x →
      type.Contains y → (x < a ∨ b < x) → (y < c ∨ d < y) → 0 < x * y → x * y ≤ type.maxValue →
      ¬ x * y ≤ u * v := by
    intro x y u v uEnd vEnd xIn yIn xOut yOut product fits reaches
    have corner := (bounds.corner u v uEnd vEnd).2
    have contains : type.Contains (x * y) := ⟨by omega, fits⟩
    have reached := le_clamp reaches contains
    have result := outside x y xIn yIn xOut yOut contains
    omega
  have negative : ∀ {x y u v : Int}, (u = a ∨ u = b) → (v = c ∨ v = d) → type.Contains x →
      type.Contains y → (x < a ∨ b < x) → (y < c ∨ d < y) → x * y < 0 → type.minValue ≤ x * y →
      ¬ u * v ≤ x * y := by
    intro x y u v uEnd vEnd xIn yIn xOut yOut product fits reaches
    have corner := (bounds.corner u v uEnd vEnd).1
    have contains : type.Contains (x * y) := ⟨fits, by omega⟩
    have reached := clamp_le reaches contains
    have result := outside x y xIn yIn xOut yOut contains
    omega
  refine ⟨⟨aNonpos, bNonneg⟩, ⟨cNonpos, dNonneg⟩, ?_, ?_, ?_, ?_⟩
  · by_contra near
    have product : 0 < (b + 1) * (d + 1) := mul_pos (by omega) (by omega)
    exact positive (.inl rfl) (.inl rfl) ⟨by omega, by omega⟩ ⟨by omega, by omega⟩
      (.inr (by omega)) (.inr (by omega)) product (by omega) (show _ ≤ a * c by omega)
  · by_contra near
    have product : 0 < (a - 1) * (c - 1) := mul_pos_of_neg_of_neg (by omega) (by omega)
    exact positive (.inr rfl) (.inr rfl) ⟨by omega, by omega⟩ ⟨by omega, by omega⟩
      (.inl (by omega)) (.inl (by omega)) product (by omega) (show _ ≤ b * d by omega)
  · by_contra near
    have product : (b + 1) * (c - 1) < 0 := mul_neg_of_pos_of_neg (by omega) (by omega)
    exact negative (.inl rfl) (.inr rfl) ⟨by omega, by omega⟩ ⟨by omega, by omega⟩
      (.inr (by omega)) (.inl (by omega)) product (by omega) (show a * d ≤ _ by omega)
  · by_contra near
    have product : (a - 1) * (d + 1) < 0 := mul_neg_of_neg_of_pos (by omega) (by omega)
    exact negative (.inr rfl) (.inl rfl) ⟨by omega, by omega⟩ ⟨by omega, by omega⟩
      (.inl (by omega)) (.inr (by omega)) product (by omega) (show b * c ≤ _ by omega)

theorem far_product {u v : Int} (uNonneg : 0 ≤ u) (vNonneg : 0 ≤ v) (first : u + 1 ≤ x)
    (second : v + 1 ≤ y) : (u + 1) * (v + 1) ≤ x * y ∧ u * v < (u + 1) * (v + 1) := by
  constructor
  · exact mul_le_mul first second (by omega) (by omega)
  · linarith

theorem CornerBounds.outside_of_farSidesApart {min max : Int}
    (bounds : CornerBounds type a b c d min max) (apart : FarSidesApart type a b c d)
    (xIn : type.Contains x) (yIn : type.Contains y) (xOut : x < a ∨ b < x)
    (yOut : y < c ∨ d < y) (contains : type.Contains (x * y)) : x * y < min ∨ max < x * y := by
  obtain ⟨⟨aNonpos, bNonneg⟩, ⟨cNonpos, dNonneg⟩, upper, lower, right, left⟩ := apart
  obtain ⟨xLower, xUpper⟩ := xIn
  obtain ⟨yLower, yUpper⟩ := yIn
  obtain ⟨productLower, productUpper⟩ := contains
  have ac : 0 ≤ a * c := mul_nonneg_of_nonpos_of_nonpos aNonpos cNonpos
  have bd : 0 ≤ b * d := mul_nonneg bNonneg dNonneg
  have ad : a * d ≤ 0 := mul_nonpos_of_nonpos_of_nonneg aNonpos dNonneg
  have bc : b * c ≤ 0 := mul_nonpos_of_nonneg_of_nonpos bNonneg cNonpos
  have acClamp := clamp_nonneg type ac
  have bdClamp := clamp_nonneg type bd
  have adClamp := clamp_nonpos type ad
  have bcClamp := clamp_nonpos type bc
  have above : 0 < x * y → a * c < x * y → b * d < x * y → max < x * y := by
    intro positive overAc overBd
    obtain ⟨u, v, rfl | rfl, rfl | rfl, corner⟩ := bounds.maxCorner
    · omega
    · omega
    · omega
    · omega
  have below : x * y < 0 → x * y < a * d → x * y < b * c → x * y < min := by
    intro negative underAd underBc
    obtain ⟨u, v, rfl | rfl, rfl | rfl, corner⟩ := bounds.minCorner
    · omega
    · omega
    · omega
    · omega
  rcases xOut with xLeft | xRight
  · rcases yOut with yLeft | yRight
    · clear upper right left
      obtain ⟨far, own⟩ := far_product (neg_nonneg.mpr aNonpos) (neg_nonneg.mpr cNonpos)
        (show -a + 1 ≤ -x by omega) (show -c + 1 ≤ -y by omega)
      have far : (a - 1) * (c - 1) ≤ x * y := by linarith only [far]
      have own : a * c < (a - 1) * (c - 1) := by linarith only [own]
      exact .inr (above (by omega) (by omega) (by omega))
    · clear upper lower right
      obtain ⟨far, own⟩ := far_product (neg_nonneg.mpr aNonpos) dNonneg
        (show -a + 1 ≤ -x by omega) (show d + 1 ≤ y by omega)
      have far : x * y ≤ (a - 1) * (d + 1) := by linarith only [far]
      have own : (a - 1) * (d + 1) < a * d := by linarith only [own]
      exact .inl (below (by omega) (by omega) (by omega))
  · rcases yOut with yLeft | yRight
    · clear upper lower left
      obtain ⟨far, own⟩ := far_product bNonneg (neg_nonneg.mpr cNonpos)
        (show b + 1 ≤ x by omega) (show -c + 1 ≤ -y by omega)
      have far : x * y ≤ (b + 1) * (c - 1) := by linarith only [far]
      have own : (b + 1) * (c - 1) < b * c := by linarith only [own]
      exact .inl (below (by omega) (by omega) (by omega))
    · clear lower right left
      obtain ⟨far, own⟩ := far_product bNonneg dNonneg
        (show b + 1 ≤ x by omega) (show d + 1 ≤ y by omega)
      exact .inr (above (by omega) (by omega) (by omega))

theorem mult_sound_iff (signed : type.unsigned = false)
    (first : ProperOperand type .antiRange a b) (second : ProperOperand type .antiRange c d) :
    RangeSound hostBits false type (.arith .mult) (.bounds .antiRange a b)
        (.bounds .antiRange c d) ↔ FarSidesApart type a b c d := by
  obtain ⟨min, max, computed, bounds⟩ :
      ∃ min max, extractArith hostBits false type .mult .antiRange a b c d =
        .bounds .antiRange min max ∧ CornerBounds type a b c d min max :=
    extractArith_mult signed first.bounds second.bounds
  rw [mult_sound_iff_outside signed computed]
  constructor
  · intro outside
    have zero := bounds.zero_of_outside signed first second outside
    exact bounds.farSidesApart first.bounds second.bounds zero outside
  · intro apart x y xIn yIn xOut yOut contains
    exact bounds.outside_of_farSidesApart apart xIn yIn xOut yOut contains

/-- Every result of a boolean operation is in the computed range. -/
def TruthSound (kind : RangeKind) (code : TruthCode) (a b c d : Int) : Prop :=
  ∀ x ∈ [0, 1], ∀ y ∈ [0, 1], (ValueRange.bounds kind a b).Contains x →
    (ValueRange.bounds kind c d).Contains y →
    (rangeOfBounds kind ⟨foldTruth code a c, false⟩ ⟨foldTruth code b d, false⟩).Contains
      (truthResult code x y)

instance (kind : RangeKind) (code : TruthCode) (a b c d : Int) :
    Decidable (TruthSound kind code a b c d) := by
  unfold TruthSound
  infer_instance

theorem truthSound_iff (kind : RangeKind) (code : TruthCode) :
    ∀ a ∈ [0, 1], ∀ b ∈ [0, 1], ∀ c ∈ [0, 1], ∀ d ∈ [0, 1], a ≤ b → c ≤ d →
      (kind = .antiRange → a = b ∧ c = d) →
      (TruthSound kind code a b c d ↔
        if code = .xor then kind = .range ∧ ¬ (a < b ∧ c < d) else kind = .range ∨ a = c) := by
  cases kind with
  | range => cases code <;> decide
  | antiRange => cases code <;> decide

theorem truth_sound_iff (unsigned : type.unsigned = true) (bool : type.precision = 1)
    (code : TruthCode) (first : ProperOperand type kind a b)
    (second : ProperOperand type kind c d) :
    RangeSound hostBits wrapv type (.truth code) (.bounds kind a b) (.bounds kind c d) ↔
      KeepsKind wrapv type kind (.truth code) a b c d := by
  have value : ∀ x, type.Contains x ↔ x ∈ [0, 1] := by
    intro x
    rw [IntType.contains_unsigned unsigned, bool, List.mem_pair]
    omega
  have limits : type.minValue = 0 ∧ type.maxValue = 1 := by
    rw [IntType.minValue, IntType.maxValue, if_pos unsigned, if_pos unsigned, bool]
    exact ⟨rfl, rfl⟩
  have single : ∀ {min max}, ProperOperand type kind min max → kind = .antiRange → min = max := by
    intro min max proper anti
    obtain ⟨⟨⟨lower, _⟩, ⟨_, upper⟩, ordered⟩, nonempty⟩ := proper
    have proper := nonempty anti
    rw [limits.1] at lower proper
    rw [limits.2] at upper proper
    omega
  have sound : RangeSound hostBits wrapv type (.truth code) (.bounds kind a b)
      (.bounds kind c d) ↔ TruthSound kind code a b c d := by
    have computed : extractRangeFromBinaryExpr hostBits wrapv type (.truth code)
        (.bounds kind a b) (.bounds kind c d) =
        rangeOfBounds kind ⟨foldTruth code a c, false⟩ ⟨foldTruth code b d, false⟩ := by
      simp [extractRangeFromBinaryExpr]
    rw [RangeSound, computed]
    constructor
    · intro sound x xIn y yIn xRange yRange
      exact sound x y _ ((value x).mpr xIn) ((value y).mpr yIn) xRange yRange rfl
    · intro sound x y result xIn yIn xRange yRange defined
      cases defined
      exact sound x ((value x).mp xIn) y ((value y).mp yIn) xRange yRange
  rw [sound, truthSound_iff kind code a ((value a).mp first.bounds.lower) b
    ((value b).mp first.bounds.upper) c ((value c).mp second.bounds.lower) d
    ((value d).mp second.bounds.upper) first.bounds.ordered second.bounds.ordered
    fun anti => ⟨single first anti, single second anti⟩]
  cases code with
  | andif => rfl
  | orif => rfl
  | and => rfl
  | or => rfl
  | xor => rfl

theorem sound_of_varying {code : TreeCode} {vr0 vr1 : ValueRange}
    (varying : extractRangeFromBinaryExpr hostBits wrapv type code vr0 vr1 = .varying) :
    RangeSound hostBits wrapv type code vr0 vr1 := by
  intro x y result _ _ _ _ _
  rw [varying]
  exact True.intro

/-- The (anti-)range of an arithmetic or boolean expression holds every result
exactly for the operands for which the kind may be kept. -/
theorem rangeSound_iff_keepsKind (hostBits : Nat) (wrapv : Bool) (type : IntType)
    (kind : RangeKind) (code : TreeCode) (a b c d : Int) (operands : OperandsFor type kind code)
    (first : ProperOperand type kind a b) (second : ProperOperand type kind c d) :
    RangeSound hostBits wrapv type code (.bounds kind a b) (.bounds kind c d) ↔
      KeepsKind wrapv type kind code a b c d := by
  cases code with
  | other => cases operands
  | truth code => exact truth_sound_iff operands.1 operands.2 code first second
  | arith code =>
    cases operands
    cases code with
    | plus => exact iff_of_true (sound_of_varying rfl) True.intro
    | minus => exact iff_of_true (sound_of_varying rfl) True.intro
    | truncDiv => exact iff_of_true (sound_of_varying rfl) True.intro
    | floorDiv => exact iff_of_true (sound_of_varying rfl) True.intro
    | ceilDiv => exact iff_of_true (sound_of_varying rfl) True.intro
    | exactDiv => exact iff_of_true (sound_of_varying rfl) True.intro
    | roundDiv => exact iff_of_true (sound_of_varying rfl) True.intro
    | min => exact min_sound_iff first.bounds second.bounds
    | max => exact max_sound_iff first.bounds second.bounds
    | mult =>
      by_cases wraps : (type.unsigned || wrapv) = true
      · refine iff_of_true (sound_of_varying ?_) (.inl wraps)
        simp [extractRangeFromBinaryExpr, extractArith, Bool.or_comm wrapv, wraps]
      · obtain ⟨signed, noWrapv⟩ := Bool.or_eq_false_iff.mp (Bool.eq_false_iff.mpr wraps)
        subst noWrapv
        rw [mult_sound_iff signed first second]
        exact (or_iff_right wraps).symm

/-- Products of numbers of type `int` that are not in ~[-5, 5]. -/
theorem farFactors_rangeSound :
    RangeSound 32 false ⟨false, 32, by decide⟩ (.arith .mult) (.bounds .antiRange (-5) 5)
      (.bounds .antiRange (-5) 5) := by
  have operand : ProperOperand ⟨false, 32, by decide⟩ .antiRange (-5) 5 :=
    ⟨⟨by decide, by decide, by decide⟩, by decide⟩
  have apart : FarSidesApart ⟨false, 32, by decide⟩ (-5) 5 (-5) 5 :=
    ⟨by decide, by decide, .inr (.inr (.inr (by decide))), .inr (.inr (.inr (by decide))),
      .inr (.inr (.inr (by decide))), .inr (.inr (.inr (by decide)))⟩
  have keeps : KeepsKind false ⟨false, 32, by decide⟩ .antiRange (.arith .mult) (-5) 5 (-5) 5 :=
    .inr apart
  have operands : OperandsFor ⟨false, 32, by decide⟩ .antiRange (.arith .mult) := rfl
  have kept := rangeSound_iff_keepsKind 32 false ⟨false, 32, by decide⟩ .antiRange (.arith .mult)
    (-5) 5 (-5) 5 operands operand operand
  exact kept.mpr keeps

/-- Factors other than one may have the product one. -/
theorem notOne_not_rangeSound :
    ¬ RangeSound 32 false ⟨false, 32, by decide⟩ (.arith .mult) (.bounds .antiRange 1 1)
      (.bounds .antiRange 1 1) := by
  intro sound
  have inside := sound (-1) (-1) 1 (by decide) (by decide) (by decide) (by decide) (by decide)
  revert inside
  decide

end GccCil.Gcc.Vrp
