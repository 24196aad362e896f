import GccCil.Gcc.DivCompare

/-!
# The bounds of a quotient

The bounds that `fold_div_compare` computes are the least and the greatest dividend
of the quotient, with an overflow flag where these leave the type.  In an unsigned type
of two words the flags are those of the words read as signed, and a bound without a flag
may be off by a multiple of the values.  The folded comparison decides the one of the
quotient exactly where a bound that is flagged lies on the side that the comparison
takes for granted, and one that is not compares like the dividend.
-/

namespace GccCil.Gcc.DivCompare

open GccCil.Lib OpenBounds FoldConst FoldConst.DoubleInt
open RangeTest (CompareCode Check Operand TypeHooks)

variable {w half : Nat} {etype : RangeTest.CstType}

structure IsConstant (etype : RangeTest.CstType) (c : IntCst w) : Prop where
  typed : c.type = wordType etype
  fits : fitBits c.type c.int = c.int
  overflow : c.overflow = false

def leastDividend (etype : RangeTest.CstType) (divisor quotient : Int) : Int :=
  if etype.unsigned then divisor * quotient else firstDividend divisor quotient

/-- The lower bound is flagged: the least dividend is not in the type, or it is computed
from a signed divisor that is marked by an overflow before. -/
def LowOverflows (etype : RangeTest.CstType) (marked : Bool) (divisor quotient : Int) : Prop :=
  ¬ etype.toIntType.Contains (leastDividend etype divisor quotient) ∨
    etype.unsigned = false ∧ marked = true ∧ divisor * quotient ≤ 0

def HighOverflows (etype : RangeTest.CstType) (marked : Bool) (divisor quotient : Int) : Prop :=
  ¬ etype.toIntType.Contains (lastDividend divisor quotient) ∨
    etype.unsigned = false ∧ marked = true ∧ 0 ≤ divisor * quotient

/-- A type whose constants fill two words, which the overflow tests read as signed. -/
def Whole (w : Nat) (etype : RangeTest.CstType) : Prop :=
  etype.unsigned = true ∧ etype.precision = 2 * w

instance (w : Nat) (etype : RangeTest.CstType) : Decidable (Whole w etype) :=
  inferInstanceAs (Decidable (_ ∧ _))

/-- The computed bounds: whether they are flagged, and what they are if they are not. -/
structure Ends where
  low : Prop
  high : Prop
  lo : Int
  hi : Int

def plainEnds (etype : RangeTest.CstType) (marked : Bool) (divisor quotient : Int) : Ends where
  low := LowOverflows etype marked divisor quotient
  high := HighOverflows etype marked divisor quotient
  lo := leastDividend etype divisor quotient
  hi := lastDividend divisor quotient

def wholeEnds (w : Nat) (divisor quotient : Int) : Ends where
  low := ¬ InRange false (2 * w) (wrap false (2 * w) divisor * wrap false (2 * w) quotient)
  high :=
    ¬ InRange false (2 * w) (wrap false (2 * w) divisor * wrap false (2 * w) quotient) ∨
      ¬ InRange false (2 * w)
        (wrap false (2 * w) (divisor * quotient) + wrap false (2 * w) (divisor - 1))
  lo := wrap true (2 * w) (divisor * quotient)
  hi := wrap true (2 * w) (lastDividend divisor quotient)

def ends (w : Nat) (etype : RangeTest.CstType) (marked : Bool) (divisor quotient : Int) : Ends :=
  if Whole w etype then wholeEnds w divisor quotient else plainEnds etype marked divisor quotient

theorem plain_wordType (fits : etype.precision ≤ 2 * w) : Plain w (wordType etype) := ⟨rfl, fits⟩

section Constants

variable {c : IntCst w}

theorem ofInt_toCst (etype : RangeTest.CstType) (c : IntCst w) :
    ofInt w (toCst etype c).value = c.int :=
  ofInt_value etype.unsigned c.int

theorem inRange_words {uns : Bool} {prec : Nat} (fits : prec ≤ 2 * w) {i : Int}
    (inRange : InRange uns prec i) : InRange uns (2 * w) i := by
  cases uns with
  | false => exact inRange_signed_mono fits inRange
  | true =>
    have wider := Nat.pow_le_pow_right (show 0 < 2 by decide) fits
    rw [inRange_unsigned] at inRange ⊢
    omega

theorem IsConstant.inRange (positive : 0 < w) (fits : etype.precision ≤ 2 * w)
    (constant : IsConstant etype c) :
    InRange etype.unsigned etype.precision (toCst etype c).value := by
  have stored := constant.fits
  rw [constant.typed, ← ofInt_toCst etype c, fitBits_ofInt (plain_wordType fits)] at stored
  change ofInt w (wrap etype.unsigned etype.precision _) = _ at stored
  have wrapped := wrap_inRange etype.positive etype.unsigned (toCst etype c).value
  have same := congrArg (DoubleInt.value etype.unsigned) stored
  rw [value_ofInt_of_inRange positive (inRange_words fits wrapped), ofInt_toCst] at same
  have unchanged : wrap etype.unsigned etype.precision (toCst etype c).value =
      (toCst etype c).value := same
  rwa [unchanged] at wrapped

end Constants

section Bounds

variable {arg01 arg1 : IntCst (2 * half)} {c1 c2 : Int}

theorem treeIntCstSgn_eq (positive : 0 < w) (fits : etype.precision ≤ 2 * w) {c : IntCst w}
    (constant : IsConstant etype c) : treeIntCstSgn c = SignType.sign (toCst etype c).value := by
  have inRange := constant.inRange positive fits
  have isZero : (c.int.low = 0#w ∧ c.int.high = 0#w) ↔ (toCst etype c).value = 0 := by
    have zero := ofInt_zero w
    constructor
    · rintro ⟨low, high⟩
      have words : c.int = ofInt w 0 := by
        rw [zero, DoubleInt.ext_iff]
        exact ⟨low, high⟩
      change c.int.value etype.unsigned = 0
      rw [words, value_ofInt positive, wrap_eq_of_inRange]
      cases etype.unsigned with
      | true =>
        have := Nat.two_pow_pos (2 * w)
        rw [inRange_unsigned]
        omega
      | false =>
        have := Nat.two_pow_pos (2 * w)
        rw [inRange_signed]
        omega
    · intro value
      have words := ofInt_toCst etype c
      rw [value, zero] at words
      rw [← words]
      exact ⟨rfl, rfl⟩
  rw [treeIntCstSgn]
  by_cases zero : (toCst etype c).value = 0
  · rw [if_pos (isZero.mpr zero), zero, sign_zero]
    rfl
  · rw [if_neg fun words => zero (isZero.mp words), constant.typed]
    change (if etype.unsigned = true then _ else _) = _
    cases unsigned : etype.unsigned with
    | true =>
      rw [unsigned, inRange_unsigned] at inRange
      rw [if_pos rfl, sign_pos (by omega)]
      rfl
    | false =>
      have negative : (toCst etype c).value < 0 ↔ c.int.high.slt 0#w = true := by
        rw [BitVec.slt_zero_eq_msb, msb_iff]
        change c.int.value etype.unsigned < 0 ↔ _
        rw [unsigned, value_signed]
      rw [if_neg Bool.false_ne_true]
      by_cases below : (toCst etype c).value < 0
      · rw [if_pos (negative.mp below), sign_neg below]
        rfl
      · rw [if_neg fun high => below (negative.mpr high), sign_pos (by omega)]
        rfl

theorem words_product (positive : 0 < half) (fits : etype.precision ≤ 2 * (2 * half))
    (narrow : etype.unsigned = true → etype.precision < 2 * (2 * half))
    (word1 : arg01.int = ofInt (2 * half) c1) (word2 : arg1.int = ofInt (2 * half) c2)
    (inRange1 : InRange etype.unsigned etype.precision c1)
    (inRange2 : InRange etype.unsigned etype.precision c2) :
    arg01.int.toInt * arg1.int.toInt = c1 * c2 := by
  have read : ∀ {i : Int}, InRange false (2 * (2 * half)) i →
      (ofInt (2 * half) i).toInt = i := fun inRange =>
    value_ofInt_of_inRange (show 0 < 2 * half by omega) inRange
  have plain : Plain (2 * half) (wordType etype) := plain_wordType fits
  have seen : ∀ i, Seen (2 * half) (wordType etype) i := fun i unsigned => .inl (narrow unsigned)
  rw [word1, word2, read (inRange_double plain (seen c1) inRange1),
    read (inRange_double plain (seen c2) inRange2)]

theorem product_stands (positive : 0 < half) (fits : etype.precision ≤ 2 * (2 * half))
    (narrow : etype.unsigned = true → etype.precision < 2 * (2 * half))
    (word1 : arg01.int = ofInt (2 * half) c1) (word2 : arg1.int = ofInt (2 * half) c2)
    (inRange1 : InRange etype.unsigned etype.precision c1)
    (inRange2 : InRange etype.unsigned etype.precision c2) :
    Stands (wordType etype) (product (wordType etype) arg01 arg1) (c1 * c2)
      (¬ InRange etype.unsigned etype.precision (c1 * c2)) := by
  have plain : Plain (2 * half) (wordType etype) := plain_wordType fits
  have seen : Seen (2 * half) (wordType etype) (c1 * c2) := fun unsigned => .inl (narrow unsigned)
  obtain ⟨stored, overflow⟩ := mulDouble_spec positive arg01.int arg1.int
  rw [words_product positive fits narrow word1 word2 inRange1 inRange2] at stored overflow
  refine (forceFitType_stands plain (.inl (by decide)) fun clean _ => ?_).congr ?_
  · refine ⟨stored, not_not.mp fun outside => ?_, seen⟩
    exact Bool.false_ne_true (clean.symm.trans (overflow.mpr outside))
  · have outside : ¬ InRange false (2 * (2 * half)) (c1 * c2) →
        ¬ InRange etype.unsigned etype.precision (c1 * c2) :=
      fun outside inRange => outside (inRange_double plain seen inRange)
    rw [overflow]
    change _ ∨ _ ∨ ¬ InRange etype.unsigned etype.precision (c1 * c2) ↔ _
    simp only [Bool.false_eq_true, false_or, or_iff_right_iff_imp]
    exact outside

theorem unsignedBound_stands (positive : 0 < half) (fits : etype.precision ≤ 2 * (2 * half))
    (unsigned : etype.unsigned = true) (narrow : etype.precision < 2 * (2 * half))
    {prod tmp : IntCst (2 * half)} (inRange1 : InRange etype.unsigned etype.precision c1)
    (inRange2 : InRange etype.unsigned etype.precision c2) (nonzero : c1 ≠ 0)
    (product : Stands (wordType etype) prod (c1 * c2)
      (¬ InRange etype.unsigned etype.precision (c1 * c2)))
    (word : tmp.int = ofInt (2 * half) (c1 - 1)) (marked : Bool) :
    Stands (wordType etype)
      (forceFitType { type := wordType etype, int := (addDouble prod.int tmp.int).1 } (-1)
        ((addDouble prod.int tmp.int).2 || prod.overflow) prod.constantOverflow)
      (lastDividend c1 c2) (HighOverflows etype marked c1 c2) := by
  have plain : Plain (2 * half) (wordType etype) := plain_wordType fits
  have range1 := (inRange_unsigned _ _).mp (unsigned ▸ inRange1)
  have range2 := (inRange_unsigned _ _).mp (unsigned ▸ inRange2)
  have nonneg := mul_nonneg range1.1 range2.1
  have last : lastDividend c1 c2 = c1 * c2 + (c1 - 1) := by
    rw [lastDividend, if_neg (not_lt.mpr nonneg), abs_of_nonneg range1.1]
  have isSeen : Seen (2 * half) (wordType etype) (lastDividend c1 c2) := fun _ => .inl narrow
  have less : InRange false (2 * (2 * half)) (c1 - 1) := by
    have seen : Seen (2 * half) (wordType etype) (c1 - 1) := fun _ => .inl narrow
    refine inRange_double plain seen ?_
    change InRange etype.unsigned etype.precision (c1 - 1)
    rw [unsigned, inRange_unsigned]
    omega
  have sum : InRange etype.unsigned etype.precision (c1 * c2) →
      (addDouble prod.int tmp.int).1 = ofInt (2 * half) (lastDividend c1 c2) ∧
        ((addDouble prod.int tmp.int).2 = true ↔
          ¬ InRange false (2 * (2 * half)) (lastDividend c1 c2)) := by
    intro inside
    have value1 := value_ofInt_of_inRange (show 0 < 2 * half by omega)
      (product.inWords (not_not.mpr inside))
    have value2 := value_ofInt_of_inRange (show 0 < 2 * half by omega) less
    rw [value_signed] at value1 value2
    rw [addDouble_overflow (by omega), product.int (not_not.mpr inside), word, addDouble_ofInt,
      value1, value2, last]
    exact ⟨rfl, Iff.rfl⟩
  refine (forceFitType_stands plain (.inl (by decide)) fun clean cleanConst => ?_).congr ?_
  · rw [Bool.or_eq_false_iff] at clean
    have inside : InRange etype.unsigned etype.precision (c1 * c2) := by
      by_contra outside
      have flag := product.overflows.mpr outside
      rw [clean.2] at flag
      cases flag
    obtain ⟨stored, overflow⟩ := sum inside
    refine ⟨stored, not_not.mp fun outside => ?_, isSeen⟩
    exact Bool.false_ne_true (clean.1.symm.trans (overflow.mpr outside))
  · have marks := product.marked
    have isContained := etype.toIntType.contains_iff (lastDividend c1 c2)
    have bigger : ¬ InRange etype.unsigned etype.precision (c1 * c2) →
        ¬ InRange etype.unsigned etype.precision (lastDividend c1 c2) := by
      intro outside inside
      rw [unsigned, inRange_unsigned] at outside inside
      omega
    have words : ¬ InRange false (2 * (2 * half)) (lastDividend c1 c2) →
        ¬ InRange etype.unsigned etype.precision (lastDividend c1 c2) :=
      fun outside inside => outside (inRange_double plain isSeen inside)
    rw [HighOverflows, isContained, Bool.or_eq_true]
    constructor
    · rintro ((flag | flag) | flag | flag)
      · by_cases inside : InRange etype.unsigned etype.precision (c1 * c2)
        · exact .inl (words ((sum inside).2.mp flag))
        · exact .inl (bigger inside)
      · exact .inl (bigger (product.overflows.mp flag))
      · exact .inl (bigger (marks.mp (.inr flag)))
      · exact .inl flag
    · rintro (outside | ⟨signed, _⟩)
      · exact .inr (.inr outside)
      · rw [unsigned] at signed
        cases signed

/-- The flags of the bounds of a signed type, by the sign of the product: `product` is that
of the bound that is the product, `moved` that of the other one. -/
theorem signedFlags (signed : etype.unsigned = false) (marked : Bool) (nonzero : c1 ≠ 0) :
    let inside := InRange etype.unsigned etype.precision
    let rest := |c1| - 1
    (c1 * c2 < 0 →
      ((¬ inside (c1 * c2) ∨ marked = true ∨ ¬ inside (c1 * c2 - rest)) ↔
        LowOverflows etype marked c1 c2) ∧
      (¬ inside (c1 * c2) ↔ HighOverflows etype marked c1 c2)) ∧
    (0 < c1 * c2 →
      (¬ inside (c1 * c2) ↔ LowOverflows etype marked c1 c2) ∧
      ((¬ inside (c1 * c2) ∨ marked = true ∨ ¬ inside (c1 * c2 + rest)) ↔
        HighOverflows etype marked c1 c2)) ∧
    (c1 * c2 = 0 →
      ((marked = true ∨ ¬ inside (-rest)) ↔ LowOverflows etype marked c1 c2) ∧
      ((marked = true ∨ ¬ inside rest) ↔ HighOverflows etype marked c1 c2)) := by
  intro inside rest
  have magnitude := abs_pos.mpr nonzero
  have isContained : ∀ i, etype.toIntType.Contains i ↔ inside i :=
    fun i => etype.toIntType.contains_iff i
  have bounds : ∀ i, inside i ↔
      -(2 ^ etype.precision : Nat) ≤ 2 * i ∧ 2 * i < (2 ^ etype.precision : Nat) := by
    intro i
    change InRange etype.unsigned etype.precision i ↔ _
    rw [signed, inRange_signed]
  unfold LowOverflows HighOverflows leastDividend
  simp only [isContained, signed, Bool.false_eq_true, if_false, true_and]
  rw [firstDividend, lastDividend]
  refine ⟨fun below => ?_, fun above => ?_, fun zero => ?_⟩
  · rw [if_neg (by omega), if_pos below]
    have farther : ¬ inside (c1 * c2) → ¬ inside (c1 * c2 - rest) := by
      rw [bounds, bounds]
      omega
    refine ⟨?_, ?_⟩
    · constructor
      · rintro (outside | isMarked | outside)
        · exact .inl (farther outside)
        · exact .inr ⟨isMarked, below.le⟩
        · exact .inl outside
      · rintro (outside | ⟨isMarked, _⟩)
        · exact .inr (.inr outside)
        · exact .inr (.inl isMarked)
    · exact ⟨.inl, fun either => either.elim id fun both => absurd both.2 (not_le.mpr below)⟩
  · rw [if_pos above, if_neg (by omega)]
    have farther : ¬ inside (c1 * c2) → ¬ inside (c1 * c2 + rest) := by
      rw [bounds, bounds]
      omega
    refine ⟨?_, ?_⟩
    · exact ⟨.inl, fun either => either.elim id fun both => absurd both.2 (not_le.mpr above)⟩
    · constructor
      · rintro (outside | isMarked | outside)
        · exact .inl (farther outside)
        · exact .inr ⟨isMarked, above.le⟩
        · exact .inl outside
      · rintro (outside | ⟨isMarked, _⟩)
        · exact .inr (.inr outside)
        · exact .inr (.inl isMarked)
  · rw [if_neg (by omega), if_neg (by omega), zero, Int.zero_sub, Int.zero_add]
    refine ⟨?_, ?_⟩
    · rw [or_comm]
      exact or_congr_right (and_iff_left (le_refl 0)).symm
    · rw [or_comm]
      exact or_congr_right (and_iff_left (le_refl 0)).symm

structure BoundsStand (etype : RangeTest.CstType) (marked : Bool) (c1 c2 : Int) (bounds : Bounds w) :
    Prop where
  lo : Stands (wordType etype) bounds.lo (leastDividend etype c1 c2)
    (LowOverflows etype marked c1 c2)
  hi : Stands (wordType etype) bounds.hi (lastDividend c1 c2) (HighOverflows etype marked c1 c2)

theorem signedBounds_stand (signed : etype.unsigned = false) (marked : Bool) (nonzero : c1 ≠ 0)
    {bounds : Bounds w}
    (below : c1 * c2 < 0 →
      Stands (wordType etype) bounds.lo (c1 * c2 - (|c1| - 1))
        (¬ InRange etype.unsigned etype.precision (c1 * c2) ∨ marked = true ∨
          ¬ InRange etype.unsigned etype.precision (c1 * c2 - (|c1| - 1))) ∧
      Stands (wordType etype) bounds.hi (c1 * c2)
        (¬ InRange etype.unsigned etype.precision (c1 * c2)))
    (above : 0 < c1 * c2 →
      Stands (wordType etype) bounds.lo (c1 * c2)
        (¬ InRange etype.unsigned etype.precision (c1 * c2)) ∧
      Stands (wordType etype) bounds.hi (c1 * c2 + (|c1| - 1))
        (¬ InRange etype.unsigned etype.precision (c1 * c2) ∨ marked = true ∨
          ¬ InRange etype.unsigned etype.precision (c1 * c2 + (|c1| - 1))))
    (at_ : c1 * c2 = 0 →
      Stands (wordType etype) bounds.lo (-(|c1| - 1))
        (marked = true ∨ ¬ InRange etype.unsigned etype.precision (-(|c1| - 1))) ∧
      Stands (wordType etype) bounds.hi (|c1| - 1)
        (marked = true ∨ ¬ InRange etype.unsigned etype.precision (|c1| - 1))) :
    BoundsStand etype marked c1 c2 bounds := by
  obtain ⟨flagsBelow, flagsAbove, flagsAt⟩ := @signedFlags etype c1 c2 signed marked nonzero
  have least : leastDividend etype c1 c2 = firstDividend c1 c2 := by
    rw [leastDividend, signed, if_neg Bool.false_ne_true]
  rcases Int.lt_trichotomy (c1 * c2) 0 with negative | zero | positive
  · obtain ⟨lo, hi⟩ := below negative
    have first : firstDividend c1 c2 = c1 * c2 - (|c1| - 1) := if_neg (by omega)
    have last : lastDividend c1 c2 = c1 * c2 := if_pos negative
    exact ⟨least.trans first ▸ lo.congr (flagsBelow negative).1,
      last ▸ hi.congr (flagsBelow negative).2⟩
  · obtain ⟨lo, hi⟩ := at_ zero
    have first : firstDividend c1 c2 = -(|c1| - 1) := by
      rw [firstDividend, if_neg (by omega), zero, Int.zero_sub]
    have last : lastDividend c1 c2 = |c1| - 1 := by
      rw [lastDividend, if_neg (by omega), zero, Int.zero_add]
    exact ⟨least.trans first ▸ lo.congr (flagsAt zero).1, last ▸ hi.congr (flagsAt zero).2⟩
  · obtain ⟨lo, hi⟩ := above positive
    have first : firstDividend c1 c2 = c1 * c2 := if_pos positive
    have last : lastDividend c1 c2 = c1 * c2 + (|c1| - 1) := if_neg (by omega)
    exact ⟨least.trans first ▸ lo.congr (flagsAbove positive).1,
      last ▸ hi.congr (flagsAbove positive).2⟩

theorem decremented_int (positive : 0 < half) (fits : etype.precision ≤ 2 * (2 * half))
    (truncated wide : Bool) (integerType : CstType) (unsigned : etype.unsigned = true)
    (typed : arg01.type = wordType etype) (word : arg01.int = ofInt (2 * half) c1)
    (inRange : InRange etype.unsigned etype.precision c1) (nonzero : c1 ≠ 0) :
    (intConstBinop truncated wide .minus arg01 (integerOne integerType) false).int =
      ofInt (2 * half) (c1 - 1) := by
  have oneWord : (integerOne integerType : IntCst (2 * half)).int = ofInt (2 * half) 1 :=
    (ofInt_one (by omega)).symm
  have range := (inRange_unsigned _ _).mp (unsigned ▸ inRange)
  rw [intConstBinop, finishBinop_int, if_neg Bool.false_ne_true, typed]
  change fitBits (wordType etype) (addDouble arg01.int (negDouble _).1).1 = _
  rw [oneWord, word, negDouble_ofInt, addDouble_ofInt, ← sub_eq_add_neg,
    fitBits_ofInt (plain_wordType fits)]
  refine congrArg (ofInt (2 * half)) (wrap_eq_of_inRange ?_)
  change InRange etype.unsigned etype.precision (c1 - 1)
  rw [unsigned, inRange_unsigned]
  omega

theorem divBounds_spec (positive : 0 < half) (fits : etype.precision ≤ 2 * (2 * half))
    (narrow : etype.unsigned = true → etype.precision < 2 * (2 * half))
    (truncated wide : Bool) (integerType : CstType) (code : CompareCode)
    (constant1 : IsConstant etype arg01) (constant2 : IsConstant etype arg1)
    (value1 : (toCst etype arg01).value = c1) (value2 : (toCst etype arg1).value = c2)
    (nonzero : c1 ≠ 0) :
    let bounds := divBounds truncated wide integerType (wordType etype) code arg01 arg1
    bounds.code = (if c1 < 0 then swapTreeComparison code else code) ∧
      BoundsStand etype arg01.constantOverflow c1 c2 bounds := by
  have inRange1 := constant1.inRange (by omega) fits
  have inRange2 := constant2.inRange (by omega) fits
  have word1 := (ofInt_toCst etype arg01).symm
  have word2 := (ofInt_toCst etype arg1).symm
  have sign1 := treeIntCstSgn_eq (by omega) fits constant1
  have sign2 := treeIntCstSgn_eq (by omega) fits constant2
  rw [value1] at inRange1 word1 sign1
  rw [value2] at inRange2 word2 sign2
  have plain : Plain (2 * half) (wordType etype) := plain_wordType fits
  have prod := product_stands positive fits narrow word1 word2 inRange1 inRange2
  have oneWord : (integerOne integerType : IntCst (2 * half)).int = ofInt (2 * half) 1 :=
    (ofInt_one (by omega)).symm
  intro bounds
  cases unsigned : etype.unsigned with
  | true =>
    have range1 := (inRange_unsigned _ _).mp (unsigned ▸ inRange1)
    have isBounds : bounds = _ := if_pos unsigned
    have tmpWord := decremented_int positive fits truncated wide integerType unsigned
      constant1.typed word1 inRange1 nonzero
    rw [isBounds]
    refine ⟨(if_neg (by omega)).symm, ?_, ?_⟩
    · have least : leastDividend etype c1 c2 = c1 * c2 := if_pos unsigned
      dsimp only
      rw [least]
      refine prod.congr ?_
      rw [LowOverflows, least, etype.toIntType.contains_iff, unsigned]
      exact ⟨.inl, fun either => either.elim id fun both => by cases both.1⟩
    · exact unsignedBound_stands positive fits unsigned (narrow unsigned) inRange1 inRange2 nonzero
        prod tmpWord _
  | false =>
    have typeSigned : (wordType etype).unsigned = false := unsigned
    have notFlagged : ∀ {i : Int} {f : Prop}, InRange etype.unsigned etype.precision i →
        (f ∨ False ∨ ¬ InRange etype.unsigned etype.precision i ↔ f) := by
      intro i f inside
      simp only [inside, not_true, or_false]
    have holds1 : Holds arg01 c1 (arg01.constantOverflow = true) := by
      refine ⟨by rw [constant1.overflow]; simp, fun _ => word1, fun _ => ?_⟩
      rw [unsigned] at inRange1
      exact inRange_signed_mono fits inRange1
    have holdsOne : Holds (integerOne integerType : IntCst (2 * half)) 1 False := by
      refine ⟨iff_false_right nofun |>.mpr (by simp [integerOne]), fun _ => oneWord, fun _ => ?_⟩
      have modulus := two_lt_modulus positive
      rw [inRange_signed]
      omega
    have range1 := (inRange_signed _ _).mp (unsigned ▸ inRange1)
    have notUnsigned : ¬ (wordType etype).unsigned = true := by
      rw [typeSigned]
      decide
    rcases lt_or_gt_of_ne nonzero with divisor | divisor
    · have isNeg : ¬ treeIntCstSgn arg01 ≠ .neg := by
        rw [sign1, sign_neg divisor]
        decide
      have isBounds : bounds = negativeBounds truncated wide (wordType etype) code
          (product (wordType etype) arg01 arg1)
          (intConstBinop truncated wide .plus arg01 (integerOne integerType) false)
          (treeIntCstSgn arg1) := (if_neg notUnsigned).trans (if_neg isNeg)
      have inside : InRange etype.unsigned etype.precision (c1 + 1) := by
        rw [unsigned, inRange_signed]
        omega
      have tmp := (plus_stands positive truncated wide plain typeSigned constant1.typed holds1
        holdsOne).congr (notFlagged inside)
      have rest : |c1| - 1 = -(c1 + 1) := by
        rw [abs_of_neg divisor]
        omega
      rw [isBounds, if_pos divisor]
      refine ⟨by cases treeIntCstSgn arg1 <;> rfl,
        signedBounds_stand unsigned _ nonzero (fun below => ?_) (fun above => ?_) fun zero => ?_⟩
      · have quotient : 0 < c2 := by
          rcases mul_neg_iff.mp below with both | both <;> omega
        rw [sign2, sign_pos quotient, rest, sub_neg_eq_add]
        exact ⟨plus_stands positive truncated wide plain typeSigned prod.typed prod.toHolds
          tmp.toHolds, prod⟩
      · have quotient : c2 < 0 := by
          rcases mul_pos_iff.mp above with both | both <;> omega
        rw [sign2, sign_neg quotient, rest, ← sub_eq_add_neg]
        exact ⟨prod, minus_stands positive truncated wide plain typeSigned prod.typed prod.toHolds
          tmp.toHolds⟩
      · have quotient : c2 = 0 := (Int.mul_eq_zero.mp zero).resolve_left nonzero
        rw [sign2, quotient, sign_zero, rest, neg_neg]
        exact ⟨tmp.congr (by simp [inside]), negate_stands (by omega) plain typeSigned tmp⟩
    · have isPos : treeIntCstSgn arg01 ≠ .neg := by
        rw [sign1, sign_pos divisor]
        decide
      have isBounds : bounds = positiveBounds truncated wide (wordType etype) code
          (product (wordType etype) arg01 arg1)
          (intConstBinop truncated wide .minus arg01 (integerOne integerType) false)
          (treeIntCstSgn arg1) := (if_neg notUnsigned).trans (if_pos isPos)
      have inside : InRange etype.unsigned etype.precision (c1 - 1) := by
        rw [unsigned, inRange_signed]
        omega
      have tmp := (minus_stands positive truncated wide plain typeSigned constant1.typed holds1
        holdsOne).congr (notFlagged inside)
      rw [isBounds, if_neg (by omega)]
      refine ⟨by cases treeIntCstSgn arg1 <;> rfl,
        signedBounds_stand unsigned _ nonzero (fun below => ?_) (fun above => ?_) fun zero => ?_⟩
      · have quotient : c2 < 0 := by
          rcases mul_neg_iff.mp below with both | both <;> omega
        rw [sign2, sign_neg quotient, abs_of_pos divisor]
        exact ⟨minus_stands positive truncated wide plain typeSigned prod.typed prod.toHolds
          tmp.toHolds, prod⟩
      · have quotient : 0 < c2 := by
          rcases mul_pos_iff.mp above with both | both <;> omega
        rw [sign2, sign_pos quotient, abs_of_pos divisor]
        exact ⟨prod, plus_stands positive truncated wide plain typeSigned prod.typed prod.toHolds
          tmp.toHolds⟩
      · have quotient : c2 = 0 := (Int.mul_eq_zero.mp zero).resolve_left nonzero
        rw [sign2, quotient, sign_zero, abs_of_pos divisor]
        exact ⟨negate_stands (by omega) plain typeSigned tmp, tmp.congr (by simp [inside])⟩

/-- A constant is flagged, or it is the integer as a constant of the type. -/
structure Shows (etype : RangeTest.CstType) (c : IntCst w) (i : Int) (flagged : Prop) : Prop where
  overflow : (toCst etype c).overflow = true ↔ flagged
  value : ¬ flagged → toCst etype c = { type := etype, value := i }

theorem Stands.shows (positive : 0 < w) (fits : etype.precision ≤ 2 * w) {c : IntCst w} {i : Int}
    {flagged : Prop} (stands : Stands (wordType etype) c i flagged) : Shows etype c i flagged := by
  refine ⟨stands.overflows, fun clean => ?_⟩
  have inRange : InRange etype.unsigned etype.precision i := stands.inRange clean
  have unmarked := mt stands.marked.mp clean
  rw [not_or, Bool.not_eq_true, Bool.not_eq_true] at unmarked
  rw [toCst, stands.int clean, value_ofInt_of_inRange positive (inRange_words fits inRange),
    unmarked.1, unmarked.2]

theorem forceFitType_whole (positive : 0 < w) (whole : Whole w etype) (x : DoubleInt w)
    (overflowed overflowedConst : Bool) :
    forceFitType { type := wordType etype, int := x } (-1) overflowed overflowedConst =
      { type := wordType etype, int := x, overflow := overflowed || overflowedConst
        constantOverflow := overflowed || overflowedConst } := by
  have same : fitBits (wordType etype) x = x := by
    have inRange := value_inRange positive true x
    rw [← whole.2, ← whole.1] at inRange
    rw [← ofInt_value etype.unsigned x, fitBits_ofInt (plain_wordType whole.2.le)]
    exact congrArg (ofInt w) (wrap_eq_of_inRange inRange)
  unfold forceFitType
  dsimp only
  rw [same, bne_self_eq_false, Bool.or_false]
  cases overflowed <;> cases overflowedConst <;> rfl

theorem shows_whole (positive : 0 < w) (whole : Whole w etype) {c : IntCst w} {i : Int}
    {flagged : Prop} (overflow : c.overflow = true ↔ flagged)
    (constantOverflow : c.constantOverflow = c.overflow) (int : ¬ flagged → c.int = ofInt w i) :
    Shows etype c (wrap true (2 * w) i) flagged := by
  refine ⟨overflow, fun clean => ?_⟩
  have unflagged : c.overflow = false := Bool.eq_false_iff.mpr (mt overflow.mp clean)
  rw [toCst, int clean, whole.1, value_ofInt positive, constantOverflow, unflagged]

theorem divBounds_whole (positive : 0 < half) (whole : Whole (2 * half) etype)
    (truncated wide : Bool) (integerType : CstType) (code : CompareCode)
    (constant1 : IsConstant etype arg01) (value1 : (toCst etype arg01).value = c1)
    (value2 : (toCst etype arg1).value = c2) (nonzero : c1 ≠ 0) (nonneg2 : 0 ≤ c2) :
    let bounds := divBounds truncated wide integerType (wordType etype) code arg01 arg1
    let ends := wholeEnds (2 * half) c1 c2
    bounds.code = code ∧ Shows etype bounds.lo ends.lo ends.low ∧
      Shows etype bounds.hi ends.hi ends.high := by
  have wordsPositive : 0 < 2 * half := by omega
  have inRange1 := constant1.inRange wordsPositive whole.2.le
  have word1 := (ofInt_toCst etype arg01).symm
  have word2 := (ofInt_toCst etype arg1).symm
  rw [value1] at inRange1 word1
  rw [value2] at word2
  have signed : ∀ i, (ofInt (2 * half) i).toInt = wrap false (2 * (2 * half)) i :=
    value_ofInt wordsPositive false
  have tmpWord := decremented_int positive whole.2.le truncated wide integerType whole.1
    constant1.typed word1 inRange1 nonzero
  obtain ⟨stored, overflow⟩ := mulDouble_spec positive arg01.int arg1.int
  rw [word1, word2, signed, signed] at stored overflow
  have isProduct : ofInt (2 * half)
      (wrap false (2 * (2 * half)) c1 * wrap false (2 * (2 * half)) c2) =
        ofInt (2 * half) (c1 * c2) :=
    ofInt_eq_ofInt_iff.mpr ((wrap_modEq false _ c1).mul (wrap_modEq false _ c2))
  rw [isProduct] at stored
  have prod : product (wordType etype) arg01 arg1 =
      { type := wordType etype, int := ofInt (2 * half) (c1 * c2)
        overflow := (mulDouble arg01.int arg1.int).2
        constantOverflow := (mulDouble arg01.int arg1.int).2 } := by
    rw [product, forceFitType_whole wordsPositive whole, Bool.or_false, word1, word2, stored]
  intro bounds ends
  have isBounds : bounds = _ := if_pos whole.1
  rw [isBounds]
  dsimp only
  rw [prod, tmpWord, addDouble_ofInt, forceFitType_whole wordsPositive whole]
  have range1 := (inRange_unsigned _ _).mp (whole.1 ▸ inRange1)
  have last : lastDividend c1 c2 = c1 * c2 + (c1 - 1) := by
    rw [lastDividend, if_neg (not_lt.mpr (mul_nonneg range1.1 nonneg2)), abs_of_nonneg range1.1]
  refine ⟨rfl, shows_whole wordsPositive whole (word1 ▸ word2 ▸ overflow) rfl fun _ => rfl, ?_⟩
  refine shows_whole wordsPositive whole ?_ rfl fun _ => by rw [last]
  have sum := addDouble_overflow wordsPositive (ofInt (2 * half) (c1 * c2))
    (ofInt (2 * half) (c1 - 1))
  rw [signed, signed] at sum
  dsimp only
  rw [Bool.or_assoc, Bool.or_self, Bool.or_eq_true, sum, word1, word2, overflow, or_comm]
  rfl

end Bounds

def Related (code : CompareCode) (first last v : Int) : Prop :=
  match code with
  | .eq => first ≤ v ∧ v ≤ last
  | .ne => ¬ (first ≤ v ∧ v ≤ last)
  | .lt => v < first
  | .le => v ≤ last
  | .gt => last < v
  | .ge => first ≤ v

/-- A bound that is flagged lies where the comparison takes it to be, the lower one below
the type and the upper one above it; one that is not compares like the dividend that it
stands for. -/
def TakenRight (code : CompareCode) (ends : Ends) (first last v : Int) : Prop :=
  match code with
  | .lt | .ge => (ends.low → first ≤ v) ∧ (¬ ends.low → (v < ends.lo ↔ v < first))
  | .le | .gt => (ends.high → v ≤ last) ∧ (¬ ends.high → (v ≤ ends.hi ↔ v ≤ last))
  | .eq | .ne =>
    (ends.low → ends.high → ¬ (first ≤ v ∧ v ≤ last)) ∧
      (ends.low → ¬ ends.high → (v ≤ ends.hi ↔ first ≤ v ∧ v ≤ last)) ∧
      (ends.high → ¬ ends.low → (ends.lo ≤ v ↔ first ≤ v ∧ v ≤ last))

section Compare

variable {hooks : TypeHooks} {integerTypeNode : RangeTest.CstType} {wrapv : Bool}
  {code : CompareCode} {c1 c2 first last v : Int}

theorem holds_tdiv_iff (nonzero : c1 ≠ 0) (inRange : InRange etype.unsigned etype.precision v)
    (product : etype.unsigned = true → 0 ≤ c1 * c2) :
    code.holds (v.tdiv c1) c2 = true ↔
      Related (if c1 < 0 then swapTreeComparison code else code) (leastDividend etype c1 c2)
        (lastDividend c1 c2) v := by
  have least : (v < leastDividend etype c1 c2 ↔ v < firstDividend c1 c2) := by
    rw [leastDividend]
    cases unsigned : etype.unsigned with
    | false => rw [if_neg Bool.false_ne_true]
    | true =>
      have nonneg := product unsigned
      have magnitude := abs_pos.mpr nonzero
      rw [unsigned, inRange_unsigned] at inRange
      rw [if_pos rfl, firstDividend]
      split <;> omega
  have equal := @tdiv_eq_iff c1 c2 v nonzero
  rcases lt_or_gt_of_ne nonzero with divisor | divisor
  · have below := @tdiv_lt_iff_of_neg c1 c2 v divisor
    have above := @lt_tdiv_iff_of_neg c1 c2 v divisor
    rw [if_pos divisor]
    cases code with
    | eq | ne | lt | le | gt | ge =>
      simp only [CompareCode.holds, swapTreeComparison, Related, beq_iff_eq, bne_iff_ne,
        decide_eq_true_iff]
      omega
  · have below := @tdiv_lt_iff c1 c2 v divisor
    have above := @lt_tdiv_iff c1 c2 v divisor
    rw [if_neg (by omega)]
    cases code with
    | eq | ne | lt | le | gt | ge =>
      simp only [CompareCode.holds, Related, beq_iff_eq, bne_iff_ne, decide_eq_true_iff]
      omega

theorem decides_truth (b : Bool) (p : Prop) :
    (Check.truth b).Decides wrapv v p ↔ (b = true ↔ p) := by
  constructor
  · rintro ⟨_, ⟨⟩, same⟩
    exact same
  · exact fun same => ⟨b, rfl, same⟩

theorem decides_compare (c : RangeTest.Cst) (p : Prop) :
    (Check.compare code (.exp etype) c).Decides wrapv v p ↔
      (code.holds v c.value = true ↔ p) := by
  constructor
  · rintro ⟨_, ⟨⟩, same⟩
    exact same
  · exact fun same => ⟨_, rfl, same⟩

theorem rangeCheck_iff (ordered : first ≤ last) (firstInBase : RangeTest.InBase hooks etype first)
    (lastInBase : RangeTest.InBase hooks etype last) {inP : Bool} {check : Check}
    (built : RangeTest.buildRangeCheck hooks integerTypeNode wrapv
      (decide (({ type := etype, value := first } : RangeTest.Cst) =
        { type := etype, value := last })) inP (.exp etype)
      (some { type := etype, value := first }) (some { type := etype, value := last }) = some check)
    (hasValue : etype.HasValue v) :
    check.Decides wrapv v (first ≤ v ∧ v ≤ last ↔ inP = true) ↔ ¬ (wrapv = false ∧
      RangeTest.Exposed hooks integerTypeNode etype (decide (first = last))
        { type := etype, value := first } { type := etype, value := last } v) := by
  have sameNode : decide (({ type := etype, value := first } : RangeTest.Cst) =
      { type := etype, value := last }) = decide (first = last) :=
    decide_eq_decide.mpr ⟨congrArg RangeTest.Cst.value, fun same => by rw [same]⟩
  rw [sameNode] at built
  have testable : RangeTest.Range.Testable hooks etype (decide (first = last))
      { inP := inP, low := some { type := etype, value := first }
        high := some { type := etype, value := last } } := by
    refine ⟨?_, ?_, ?_, fun same => by rw [of_decide_eq_true same]⟩
    · rintro _ ⟨⟩
      exact ⟨rfl, firstInBase⟩
    · rintro _ ⟨⟩
      exact ⟨rfl, lastInBase⟩
    · rintro ⟨_, ⟨⟩, _, ⟨⟩, less⟩
      exact absurd less (not_lt.mpr ordered)
  have checked := RangeTest.buildRangeCheck_iff hooks integerTypeNode testable built hasValue
  have holds : RangeTest.Range.Holds { inP := inP
                                       low := some { type := etype, value := first }
                                       high := some { type := etype, value := last } } v ↔
      (first ≤ v ∧ v ≤ last ↔ inP = true) :=
    iff_congr (and_congr (above_some _ v) (below_some _ v)) Iff.rfl
  rw [propext holds] at checked
  rw [checked]
  refine not_congr (and_congr_right fun _ => ⟨?_, fun exposed => ⟨_, rfl, _, rfl, exposed⟩⟩)
  rintro ⟨_, ⟨⟩, _, ⟨⟩, exposed⟩
  exact exposed

theorem oneBound_iff {flag taken : Bool} {flagged p q : Prop} {c : RangeTest.Cst} {check : Check}
    (isFlag : flag = true ↔ flagged) (right : ¬ flagged → (code.holds v c.value = true ↔ q))
    (compared : (if flag then some (.truth taken) else some (.compare code (.exp etype) c)) =
      some check) :
    check.Decides wrapv v p ↔ (flagged → (taken = true ↔ p)) ∧ (¬ flagged → (q ↔ p)) := by
  by_cases isFlagged : flagged
  · rw [if_pos (isFlag.mpr isFlagged), Option.some.injEq] at compared
    rw [← compared, decides_truth]
    simp only [isFlagged, true_implies, not_true, false_implies, and_true]
  · rw [if_neg (mt isFlag.mp isFlagged), Option.some.injEq] at compared
    rw [← compared, decides_compare, propext (right isFlagged)]
    simp only [isFlagged, false_implies, not_false_eq_true, true_implies, true_and]

/-- A comparison with both bounds, with one if the other is flagged, or the truth value
that stands for it if both are. -/
theorem twoBounds_iff {lowFlag highFlag taken : Bool} {low high p pLow pHigh q : Prop}
    {codeLow codeHigh : CompareCode} {lo hi : RangeTest.Cst} {range : Option Check} {check : Check}
    (isLow : lowFlag = true ↔ low) (isHigh : highFlag = true ↔ high)
    (rightLow : ¬ low → (codeLow.holds v lo.value = true ↔ pLow))
    (rightHigh : ¬ high → (codeHigh.holds v hi.value = true ↔ pHigh))
    (ranged : ¬ low → ¬ high → range = some check → (check.Decides wrapv v p ↔ q))
    (compared : (if lowFlag && highFlag then some (.truth taken)
      else if highFlag then some (.compare codeLow (.exp etype) lo)
      else if lowFlag then some (.compare codeHigh (.exp etype) hi)
      else range) = some check) :
    check.Decides wrapv v p ↔
      (low → high → (taken = true ↔ p)) ∧ (low → ¬ high → (pHigh ↔ p)) ∧
        (high → ¬ low → (pLow ↔ p)) ∧ (¬ low → ¬ high → q) := by
  by_cases low_ : low
  · rw [isLow.mpr low_, Bool.true_and] at compared
    by_cases high_ : high
    · rw [if_pos (isHigh.mpr high_), Option.some.injEq] at compared
      rw [← compared, decides_truth]
      simp only [low_, high_, not_true, false_implies, true_implies, implies_true, and_true]
    · rw [if_neg (mt isHigh.mp high_), if_neg (mt isHigh.mp high_), if_pos rfl,
        Option.some.injEq] at compared
      rw [← compared, decides_compare, propext (rightHigh high_)]
      simp only [low_, high_, not_true, not_false_eq_true, false_implies, true_implies,
        implies_true, and_true, true_and]
  · rw [Bool.eq_false_iff.mpr (mt isLow.mp low_), Bool.false_and,
      if_neg Bool.false_ne_true] at compared
    by_cases high_ : high
    · rw [if_pos (isHigh.mpr high_), Option.some.injEq] at compared
      rw [← compared, decides_compare, propext (rightLow low_)]
      simp only [low_, high_, not_true, not_false_eq_true, false_implies, true_implies,
        implies_true, and_true, true_and]
    · rw [if_neg (mt isHigh.mp high_), if_neg Bool.false_ne_true] at compared
      rw [ranged low_ high_ compared]
      simp only [low_, high_, not_false_eq_true, false_implies, true_implies, implies_true,
        true_and]

/-- The comparison with the bounds decides the relation that it was made for, except where
a bound is not where the comparison takes it to be, or where the range check overflows. -/
theorem compareBounds_iff {bounds : Bounds w} {ends : Ends}
    (lo : Shows etype bounds.lo ends.lo ends.low) (hi : Shows etype bounds.hi ends.hi ends.high)
    (kept : bounds.code = .eq ∨ bounds.code = .ne → ¬ ends.low → ¬ ends.high →
      ends.lo = first ∧ ends.hi = last ∧ first ≤ last ∧
        RangeTest.InBase hooks etype first ∧ RangeTest.InBase hooks etype last)
    {check : Check} (compared :
      compareBounds hooks integerTypeNode wrapv etype bounds = some check)
    (hasValue : etype.HasValue v) :
    check.Decides wrapv v (Related bounds.code first last v) ↔
      TakenRight bounds.code ends first last v ∧
        (bounds.code = .eq ∨ bounds.code = .ne → ¬ ends.low → ¬ ends.high → ¬ (wrapv = false ∧
          RangeTest.Exposed hooks integerTypeNode etype (decide (first = last))
            { type := etype, value := first } { type := etype, value := last } v)) := by
  have loFlag := lo.overflow
  have hiFlag := hi.overflow
  have loValue : ¬ ends.low → (toCst etype bounds.lo).value = ends.lo := fun clean =>
    congrArg RangeTest.Cst.value (lo.value clean)
  have hiValue : ¬ ends.high → (toCst etype bounds.hi).value = ends.hi := fun clean =>
    congrArg RangeTest.Cst.value (hi.value clean)
  have ranged : ∀ {inP : Bool} {p : Prop}, (p ↔ (first ≤ v ∧ v ≤ last ↔ inP = true)) →
      ¬ ends.low → ¬ ends.high →
      RangeTest.buildRangeCheck hooks integerTypeNode wrapv
        (decide (toCst etype bounds.lo = toCst etype bounds.hi)) inP (.exp etype)
        (some (toCst etype bounds.lo)) (some (toCst etype bounds.hi)) = some check →
      (bounds.code = .eq ∨ bounds.code = .ne) →
      (check.Decides wrapv v p ↔ ¬ (wrapv = false ∧
        RangeTest.Exposed hooks integerTypeNode etype (decide (first = last))
          { type := etype, value := first } { type := etype, value := last } v)) := by
    intro inP p same notLow notHigh built isEquality
    obtain ⟨isFirst, isLast, ordered, loInBase, hiInBase⟩ := kept isEquality notLow notHigh
    rw [lo.value notLow, hi.value notHigh, isFirst, isLast] at built
    rw [propext same]
    exact rangeCheck_iff ordered loInBase hiInBase built hasValue
  have below : ¬ ends.low →
      (CompareCode.holds .lt v (toCst etype bounds.lo).value = true ↔ v < ends.lo) := by
    intro notLow
    rw [loValue notLow]
    exact decide_eq_true_iff
  have notBelow : ¬ ends.low →
      (CompareCode.holds .ge v (toCst etype bounds.lo).value = true ↔ ends.lo ≤ v) := by
    intro notLow
    rw [loValue notLow]
    exact decide_eq_true_iff
  have notAbove : ¬ ends.high →
      (CompareCode.holds .le v (toCst etype bounds.hi).value = true ↔ v ≤ ends.hi) := by
    intro notHigh
    rw [hiValue notHigh]
    exact decide_eq_true_iff
  have above : ¬ ends.high →
      (CompareCode.holds .gt v (toCst etype bounds.hi).value = true ↔ ends.hi < v) := by
    intro notHigh
    rw [hiValue notHigh]
    exact decide_eq_true_iff
  unfold compareBounds at compared
  cases isCode : bounds.code with
  | lt =>
    rw [isCode] at compared
    rw [oneBound_iff loFlag below compared]
    simp [Related, TakenRight]
  | ge =>
    rw [isCode] at compared
    rw [oneBound_iff loFlag notBelow compared]
    have same : (ends.lo ≤ v ↔ first ≤ v) ↔ (v < ends.lo ↔ v < first) := by
      rw [← not_lt, ← not_lt, not_iff_not]
    simp [Related, TakenRight, same]
  | le =>
    rw [isCode] at compared
    rw [oneBound_iff hiFlag notAbove compared]
    simp [Related, TakenRight]
  | gt =>
    rw [isCode] at compared
    rw [oneBound_iff hiFlag above compared]
    have same : (ends.hi < v ↔ last < v) ↔ (v ≤ ends.hi ↔ v ≤ last) := by
      rw [← not_le, ← not_le, not_iff_not]
    simp [Related, TakenRight, same]
  | eq =>
    rw [isCode] at compared
    have both : Related .eq first last v ↔ (first ≤ v ∧ v ≤ last ↔ true = true) := by
      simp [Related]
    rw [twoBounds_iff loFlag hiFlag notBelow notAbove (fun notLow notHigh built =>
      ranged both notLow notHigh built (.inl isCode)) compared]
    simp only [Related, TakenRight, Bool.false_eq_true, true_or, true_implies]
    by_cases isLow : ends.low <;> by_cases isHigh : ends.high <;> simp [isLow, isHigh]
  | ne =>
    rw [isCode] at compared
    have both : Related .ne first last v ↔ (first ≤ v ∧ v ≤ last ↔ false = true) := by
      simp [Related]
    rw [twoBounds_iff loFlag hiFlag below above (fun notLow notHigh built =>
      ranged both notLow notHigh built (.inr isCode)) compared]
    simp only [Related, TakenRight, or_true, true_implies]
    by_cases isLow : ends.low <;> by_cases isHigh : ends.high <;> simp [isLow, isHigh] <;> omega

/-- A range check is asked for bounds that are values of the type of which the type is a
subrange. -/
def Based (w : Nat) (hooks : TypeHooks) (etype : RangeTest.CstType) (code : CompareCode)
    (marked : Bool) (c1 c2 : Int) : Prop :=
  code = .eq ∨ code = .ne → ¬ (ends w etype marked c1 c2).low →
    ¬ (ends w etype marked c1 c2).high → ∀ base, hooks.treeType etype = some base →
      base.HasValue (leastDividend etype c1 c2) ∧ base.HasValue (lastDividend c1 c2)

/-- A range check is asked for a greatest dividend that the type has; in an unsigned type
of two words that is more than that no bound is flagged. -/
def Measured (w : Nat) (etype : RangeTest.CstType) (code : CompareCode) (c1 c2 : Int) : Prop :=
  code = .eq ∨ code = .ne → Whole w etype → ¬ (wholeEnds w c1 c2).low →
    ¬ (wholeEnds w c1 c2).high → lastDividend c1 c2 < (2 ^ (2 * w) : Nat)

/-- Whether the folded comparison is right at a value of the dividend. -/
def FoldsRight (w : Nat) (hooks : TypeHooks) (integerTypeNode : RangeTest.CstType) (wrapv : Bool)
    (etype : RangeTest.CstType) (code : CompareCode) (marked : Bool) (c1 c2 v : Int) : Prop :=
  let ends := ends w etype marked c1 c2
  let first := leastDividend etype c1 c2
  let last := lastDividend c1 c2
  TakenRight (if c1 < 0 then swapTreeComparison code else code) ends first last v ∧
  (code = .eq ∨ code = .ne → ¬ ends.low → ¬ ends.high → ¬ (wrapv = false ∧
      RangeTest.Exposed hooks integerTypeNode etype (decide (first = last))
        { type := etype, value := first } { type := etype, value := last } v))

theorem swapTreeComparison_equality (c1 : Int) :
    (if c1 < 0 then swapTreeComparison code else code) = .eq ∨
      (if c1 < 0 then swapTreeComparison code else code) = .ne ↔ code = .eq ∨ code = .ne := by
  split
  · cases code <;> decide
  · rfl

theorem divBounds_shows (positive : 0 < half) (fits : etype.precision ≤ 2 * (2 * half))
    (truncated wide : Bool) (integerType : CstType) (code : CompareCode)
    {arg01 arg1 : IntCst (2 * half)} (constant1 : IsConstant etype arg01)
    (constant2 : IsConstant etype arg1) (nonzero : (toCst etype arg01).value ≠ 0) :
    let bounds := divBounds truncated wide integerType (wordType etype) code arg01 arg1
    let computed := ends (2 * half) etype arg01.constantOverflow (toCst etype arg01).value
      (toCst etype arg1).value
    bounds.code =
        (if (toCst etype arg01).value < 0 then swapTreeComparison code else code) ∧
      Shows etype bounds.lo computed.lo computed.low ∧
      Shows etype bounds.hi computed.hi computed.high := by
  have inRange1 := constant1.inRange (by omega) fits
  have inRange2 := constant2.inRange (by omega) fits
  intro bounds computed
  by_cases whole : Whole (2 * half) etype
  · rw [whole.1, inRange_unsigned] at inRange1 inRange2
    rw [show computed = wholeEnds _ _ _ from if_pos whole, if_neg (by omega)]
    exact divBounds_whole positive whole truncated wide integerType code constant1 rfl rfl nonzero
      inRange2.1
  · obtain ⟨isCode, stand⟩ := divBounds_spec positive fits
      (fun unsigned => lt_of_le_of_ne fits fun same => whole ⟨unsigned, same⟩) truncated wide
      integerType code constant1 constant2 rfl rfl nonzero
    rw [show computed = plainEnds _ _ _ _ from if_neg whole]
    exact ⟨isCode, stand.lo.shows (by omega) fits, stand.hi.shows (by omega) fits⟩

theorem ends_exact {marked : Bool} (nonneg : etype.unsigned = true → 0 ≤ c1 * c2)
    (ordered : leastDividend etype c1 c2 ≤ lastDividend c1 c2)
    (measured : Measured w etype code c1 c2) (isEquality : code = .eq ∨ code = .ne)
    (notLow : ¬ (ends w etype marked c1 c2).low) (notHigh : ¬ (ends w etype marked c1 c2).high) :
    ((ends w etype marked c1 c2).lo = leastDividend etype c1 c2 ∧
        (ends w etype marked c1 c2).hi = lastDividend c1 c2) ∧
      etype.toIntType.Contains (leastDividend etype c1 c2) ∧
      etype.toIntType.Contains (lastDividend c1 c2) := by
  by_cases whole : Whole w etype
  · have isWhole : ends w etype marked c1 c2 = wholeEnds w c1 c2 := if_pos whole
    rw [isWhole] at notLow notHigh ⊢
    have least : leastDividend etype c1 c2 = c1 * c2 := if_pos whole.1
    have bound := measured isEquality whole notLow notHigh
    have product := nonneg whole.1
    rw [least] at ordered
    have firstInRange : InRange true (2 * w) (c1 * c2) :=
      (inRange_unsigned _ _).mpr ⟨product, by omega⟩
    have lastInRange : InRange true (2 * w) (lastDividend c1 c2) :=
      (inRange_unsigned _ _).mpr ⟨by omega, bound⟩
    rw [etype.toIntType.contains_iff, etype.toIntType.contains_iff, least]
    change _ ∧ InRange etype.unsigned etype.precision _ ∧ InRange etype.unsigned etype.precision _
    rw [whole.1, whole.2]
    exact ⟨⟨wrap_eq_of_inRange firstInRange, wrap_eq_of_inRange lastInRange⟩, firstInRange,
      lastInRange⟩
  · have isPlain : ends w etype marked c1 c2 = plainEnds etype marked c1 c2 := if_neg whole
    rw [isPlain] at notLow notHigh ⊢
    exact ⟨⟨rfl, rfl⟩, not_not.mp fun outside => notLow (.inl outside),
      not_not.mp fun outside => notHigh (.inl outside)⟩

/-- The folded comparison decides the comparison of the quotient exactly where it folds
right. -/
theorem foldDivCompare_iff (positive : 0 < half) (fits : etype.precision ≤ 2 * (2 * half))
    (truncated wide : Bool) (hooks : TypeHooks) (integerTypeNode : RangeTest.CstType)
    {arg01 arg1 : IntCst (2 * half)} (constant1 : IsConstant etype arg01)
    (constant2 : IsConstant etype arg1) (nonzero : (toCst etype arg01).value ≠ 0)
    (measured : Measured (2 * half) etype code (toCst etype arg01).value
      (toCst etype arg1).value)
    (based : Based (2 * half) hooks etype code arg01.constantOverflow (toCst etype arg01).value
      (toCst etype arg1).value)
    {check : Check} (folded : foldDivCompare truncated wide hooks integerTypeNode wrapv etype code
      arg01 arg1 = some check) (hasValue : etype.HasValue v) :
    check.Decides wrapv v
        (code.holds (v.tdiv (toCst etype arg01).value) (toCst etype arg1).value = true) ↔
      FoldsRight (2 * half) hooks integerTypeNode wrapv etype code arg01.constantOverflow
        (toCst etype arg01).value (toCst etype arg1).value v := by
  have inRange1 := constant1.inRange (by omega) fits
  have inRange2 := constant2.inRange (by omega) fits
  have inRangeV := (etype.toIntType.contains_iff v).mp hasValue.contains
  obtain ⟨isCode, lo, hi⟩ := divBounds_shows positive fits truncated wide
    (wordType integerTypeNode) code constant1 constant2 nonzero
  generalize (toCst etype arg01).value = c1 at *
  generalize (toCst etype arg1).value = c2 at *
  have product : etype.unsigned = true → 0 ≤ c1 * c2 := by
    intro unsigned
    rw [unsigned, inRange_unsigned] at inRange1 inRange2
    exact mul_nonneg inRange1.1 inRange2.1
  have ordered : leastDividend etype c1 c2 ≤ lastDividend c1 c2 := by
    have ends := firstDividend_le_lastDividend nonzero c2
    have magnitude := abs_pos.mpr nonzero
    rw [leastDividend]
    split
    · rename_i unsigned
      have nonneg := product unsigned
      rw [lastDividend, if_neg (by omega)]
      omega
    · exact ends
  rw [propext (holds_tdiv_iff nonzero inRangeV product), ← isCode]
  have equality := @swapTreeComparison_equality code c1
  rw [← isCode] at equality
  rw [compareBounds_iff lo hi (fun isEquality notLow notHigh => ?_) folded hasValue, FoldsRight,
    isCode, propext (swapTreeComparison_equality c1)]
  obtain ⟨⟨isFirst, isLast⟩, firstIn, lastIn⟩ :=
    ends_exact product ordered measured (equality.mp isEquality) notLow notHigh
  have bases := based (equality.mp isEquality) notLow notHigh
  exact ⟨isFirst, isLast, ordered, ⟨firstIn, fun base isBase => (bases base isBase).1⟩,
    ⟨lastIn, fun base isBase => (bases base isBase).2⟩⟩

end Compare

section Examples

/-- A constant of the type `int` and one of the type `unsigned int`, on a host with words
of 64 bits. -/
def intWords (value : Int) : IntCst (2 * 32) :=
  { type := wordType RangeTest.intType, int := ofInt (2 * 32) value }

def uintWords (value : Int) : IntCst (2 * 32) :=
  { type := wordType (RangeTest.unsignedVersion RangeTest.intType), int := ofInt (2 * 32) value }

/-- `x / -3 < 5` is `x > -15`. -/
theorem foldDivCompare_iff_int :
    ∃ check, foldDivCompare false true RangeTest.plainHooks RangeTest.intType false
        RangeTest.intType .lt (intWords (-3)) (intWords 5) = some check ∧
      check.Decides false (-14)
        (CompareCode.holds .lt (Int.tdiv (-14) (toCst RangeTest.intType (intWords (-3))).value)
          (toCst RangeTest.intType (intWords 5)).value = true) := by
  refine ⟨.compare .gt (.exp RangeTest.intType) { type := RangeTest.intType, value := -15 },
    by decide, ?_⟩
  refine (foldDivCompare_iff (show 0 < 32 by decide) (by decide) false true RangeTest.plainHooks
    RangeTest.intType ⟨rfl, by decide, rfl⟩ ⟨rfl, by decide, rfl⟩
    (by decide) (fun _ whole => by cases whole.1) (fun _ _ _ _ isBase => by cases isBase)
    (by decide) ⟨by decide, by decide⟩).mpr ⟨?_, fun equality => ?_⟩
  · have isNegative : (toCst RangeTest.intType (intWords (-3))).value < 0 := by decide
    have notWhole : ¬ Whole (2 * 32) RangeTest.intType := by decide
    rw [if_pos isNegative, ends, if_neg notWhole]
    refine ⟨fun high => absurd high ?_, fun _ => Iff.rfl⟩
    change ¬ HighOverflows _ _ _ _
    unfold HighOverflows
    decide
  · rcases equality with isCode | isCode
    · cases isCode
    · cases isCode

/-- `x / 2 < 3000000000` is folded to false for `unsigned int`, but it is true. -/
theorem foldDivCompare_wrong :
    let uint := RangeTest.unsignedVersion RangeTest.intType
    IsConstant uint (uintWords 2) ∧ IsConstant uint (uintWords 3000000000) ∧
      foldDivCompare false true RangeTest.plainHooks RangeTest.intType false uint .lt (uintWords 2)
        (uintWords 3000000000) = some (.truth false) ∧ uint.HasValue 0 ∧
      CompareCode.holds .lt (Int.tdiv 0 (toCst uint (uintWords 2)).value)
        (toCst uint (uintWords 3000000000)).value = true ∧
      ¬ (Check.truth false).Decides false 0
        (CompareCode.holds .lt (Int.tdiv 0 (toCst uint (uintWords 2)).value)
          (toCst uint (uintWords 3000000000)).value = true) := by
  refine ⟨⟨rfl, by decide, rfl⟩, ⟨rfl, by decide, rfl⟩, by decide,
    ⟨by decide, by decide⟩, by decide, ?_⟩
  rw [decides_truth]
  decide

end Examples

end GccCil.Gcc.DivCompare
