import GccCil.Gcc.IntConstBinop
import GccCil.Gcc.RangeCheck
import GccCil.Lib.QuotientInterval

/-!
# Comparisons of a quotient

`fold_div_compare` of `fold-const.c` makes a comparison of `X / C1` with a constant
into a comparison of `X` with the least or the greatest dividend of that quotient.
A dividend that leaves the type is marked as an overflow, and the comparison is
folded to a truth value that is right if the lower bound leaves the type below and
the upper bound leaves it above.
-/

namespace GccCil.Gcc.DivCompare

open GccCil.Lib OpenBounds FoldConst FoldConst.DoubleInt
open RangeTest (CompareCode Check Operand TypeHooks)

variable {w half : Nat}

theorem precision_pos (etype : RangeTest.CstType) : 0 < etype.precision := etype.positive

def wordType (etype : RangeTest.CstType) : CstType where
  precision := etype.precision
  unsigned := etype.unsigned
  sizetype := false
  positive := precision_pos etype

def toCst (etype : RangeTest.CstType) (c : IntCst w) : RangeTest.Cst where
  type := etype
  value := c.int.value etype.unsigned
  overflow := c.overflow
  constantOverflow := c.constantOverflow

def treeIntCstSgn (t : IntCst w) : SignType :=
  if t.int.low = 0#w ∧ t.int.high = 0#w then .zero
  else if t.type.unsigned then .pos
  else if t.int.high.slt 0#w then .neg
  else .pos

def swapTreeComparison : CompareCode → CompareCode
  | .eq => .eq
  | .ne => .ne
  | .gt => .lt
  | .ge => .le
  | .lt => .gt
  | .le => .ge

/-- `fold_negate_const` of an integer. -/
def foldNegateConst (arg0 : IntCst w) (type : CstType) : IntCst w :=
  let negated := negDouble arg0.int
  forceFitType { type := type, int := negated.1 } 1
    ((negated.2 || arg0.overflow) && !type.unsigned) arg0.constantOverflow

/-- What `fold_div_compare` finds before it looks at the comparison. -/
structure Bounds (w : Nat) where
  code : CompareCode
  lo : IntCst w
  hi : IntCst w

section Fold

variable (truncated wide : Bool) (integerType : CstType)

/-- `integer_one_node`, in words. -/
def integerOne : IntCst w := { type := integerType, int := { low := 1#w, high := 0#w } }

def product (type : CstType) (arg01 arg1 : IntCst (2 * half)) : IntCst (2 * half) :=
  let folded := mulDouble arg01.int arg1.int
  forceFitType { type := type, int := folded.1 } (-1) folded.2 false

def positiveBounds (type : CstType) (code : CompareCode) (prod tmp : IntCst (2 * half)) :
    SignType → Bounds (2 * half)
  | .neg => { code := code, lo := intConstBinop truncated wide .minus prod tmp false, hi := prod }
  | .zero => { code := code, lo := foldNegateConst tmp type, hi := tmp }
  | .pos => { code := code, lo := prod, hi := intConstBinop truncated wide .plus prod tmp false }

def negativeBounds (type : CstType) (code : CompareCode) (prod tmp : IntCst (2 * half)) :
    SignType → Bounds (2 * half)
  | .neg =>
    { code := swapTreeComparison code, lo := prod
      hi := intConstBinop truncated wide .minus prod tmp false }
  | .zero => { code := swapTreeComparison code, lo := tmp, hi := foldNegateConst tmp type }
  | .pos =>
    { code := swapTreeComparison code, lo := intConstBinop truncated wide .plus prod tmp false
      hi := prod }

def divBounds (type : CstType) (code : CompareCode) (arg01 arg1 : IntCst (2 * half)) :
    Bounds (2 * half) :=
  let prod := product type arg01 arg1
  if type.unsigned then
    let tmp := intConstBinop truncated wide .minus arg01 (integerOne integerType) false
    let folded := addDouble prod.int tmp.int
    { code := code
      lo := prod
      hi := forceFitType { type := type, int := folded.1 } (-1) (folded.2 || prod.overflow)
        prod.constantOverflow }
  else if treeIntCstSgn arg01 ≠ .neg then
    positiveBounds truncated wide type code prod
      (intConstBinop truncated wide .minus arg01 (integerOne integerType) false)
      (treeIntCstSgn arg1)
  else
    negativeBounds truncated wide type code prod
      (intConstBinop truncated wide .plus arg01 (integerOne integerType) false)
      (treeIntCstSgn arg1)

/-- The comparison of the dividend with the bounds.  Constants that are equal may as
well be one node. -/
def compareBounds (hooks : TypeHooks) (integerTypeNode : RangeTest.CstType) (wrapv : Bool)
    (etype : RangeTest.CstType) (bounds : Bounds w) : Option Check :=
  let arg00 := Operand.exp etype
  let lo := toCst etype bounds.lo
  let hi := toCst etype bounds.hi
  let rangeCheck (inP : Bool) :=
    RangeTest.buildRangeCheck hooks integerTypeNode wrapv (decide (lo = hi)) inP arg00 (some lo)
      (some hi)
  match bounds.code with
  | .eq =>
    if lo.overflow && hi.overflow then some (.truth false)
    else if hi.overflow then some (.compare .ge arg00 lo)
    else if lo.overflow then some (.compare .le arg00 hi)
    else rangeCheck true
  | .ne =>
    if lo.overflow && hi.overflow then some (.truth true)
    else if hi.overflow then some (.compare .lt arg00 lo)
    else if lo.overflow then some (.compare .gt arg00 hi)
    else rangeCheck false
  | .lt => if lo.overflow then some (.truth false) else some (.compare .lt arg00 lo)
  | .le => if hi.overflow then some (.truth true) else some (.compare .le arg00 hi)
  | .gt => if hi.overflow then some (.truth false) else some (.compare .gt arg00 hi)
  | .ge => if lo.overflow then some (.truth true) else some (.compare .ge arg00 lo)

/-- `fold_div_compare`, of a quotient whose operands have the type `etype`. -/
def foldDivCompare (hooks : TypeHooks) (integerTypeNode : RangeTest.CstType) (wrapv : Bool)
    (etype : RangeTest.CstType) (code : CompareCode) (arg01 arg1 : IntCst (2 * half)) :
    Option Check :=
  compareBounds hooks integerTypeNode wrapv etype
    (divBounds truncated wide (wordType integerTypeNode) (wordType etype) code arg01 arg1)

end Fold

section Stands

variable {type : CstType}

/-- A type whose constants fit two words, with the bits beyond the precision clear or
copies of the sign. -/
structure Plain (w : Nat) (type : CstType) : Prop where
  sizetype : type.sizetype = false
  fits : type.precision ≤ 2 * w

/-- An integer that the words, read as signed, show as it is unless it does not fit the
type either. -/
def Seen (w : Nat) (type : CstType) (i : Int) : Prop :=
  type.unsigned = true → type.precision < 2 * w ∨ InRange false (2 * w) i ∧ 0 ≤ i

/-- A constant has the integer in its words, unless it is flagged. -/
structure Holds (c : IntCst w) (i : Int) (flagged : Prop) : Prop where
  marked : c.overflow = true ∨ c.constantOverflow = true ↔ flagged
  int : ¬ flagged → c.int = ofInt w i
  inWords : ¬ flagged → InRange false (2 * w) i

structure Stands (type : CstType) (c : IntCst w) (i : Int) (flagged : Prop) : Prop extends
    Holds c i flagged where
  typed : c.type = type
  overflows : c.overflow = true ↔ flagged
  inRange : ¬ flagged → InRange type.unsigned type.precision i

theorem Stands.congr {c : IntCst w} {i : Int} {flagged flagged' : Prop}
    (stands : Stands type c i flagged) (same : flagged ↔ flagged') : Stands type c i flagged' :=
  propext same ▸ stands

theorem Stands.of_flagged {c : IntCst w} {i : Int} {flagged : Prop} (typed : c.type = type)
    (overflow : c.overflow = true) (isFlagged : flagged) : Stands type c i flagged :=
  ⟨⟨iff_of_true (.inl overflow) isFlagged, fun clean => absurd isFlagged clean,
    fun clean => absurd isFlagged clean⟩, typed, iff_of_true overflow isFlagged,
    fun clean => absurd isFlagged clean⟩

theorem inRange_double (plain : Plain w type) {i : Int} (seen : Seen w type i)
    (inRange : InRange type.unsigned type.precision i) : InRange false (2 * w) i := by
  cases unsigned : type.unsigned with
  | false =>
    rw [unsigned] at inRange
    exact inRange_signed_mono plain.fits inRange
  | true =>
    obtain narrow | both := seen unsigned
    · rw [unsigned, inRange_unsigned] at inRange
      have doubled := Nat.pow_le_pow_right (show 0 < 2 by decide)
        (show type.precision + 1 ≤ 2 * w by omega)
      rw [pow_succ] at doubled
      rw [inRange_signed]
      omega
    · exact both.1

theorem fitBits_ofInt (plain : Plain w type) (i : Int) :
    fitBits type (ofInt w i) = ofInt w (wrap type.unsigned type.precision i) := by
  have extended : (!type.signExtended) = type.unsigned := by
    rw [CstType.signExtended, plain.sizetype, Bool.or_false, Bool.not_not]
  rw [fitBits_eq, extended]
  exact congrArg (ofInt w) (wrap_congr _ (modEq_of_le plain.fits (eq_ofInt_iff.mp rfl)))

theorem fitBits_ofInt_eq_iff (plain : Plain w type) {i : Int} (inWords : InRange false (2 * w) i)
    (seen : Seen w type i) :
    fitBits type (ofInt w i) = ofInt w i ↔ InRange type.unsigned type.precision i := by
  rw [fitBits_ofInt plain]
  constructor
  · intro same
    have congruent := ofInt_eq_ofInt_iff.mp same
    have wrapped := wrap_inRange type.positive type.unsigned i
    by_cases whole : type.unsigned = true ∧ type.precision = 2 * w
    · rw [whole.1, whole.2, inRange_unsigned]
      obtain narrow | both := seen whole.1
      · omega
      · rw [inRange_signed] at inWords
        omega
    · have seenWrapped : Seen w type (wrap type.unsigned type.precision i) := by
        exact fun unsigned =>
          .inl (lt_of_le_of_ne plain.fits fun same => whole ⟨unsigned, same⟩)
      have equal := eq_of_modEq_of_inRange (inRange_double plain seenWrapped wrapped) inWords
        congruent
      exact equal ▸ wrapped
  · exact fun inRange => congrArg (ofInt w) (wrap_eq_of_inRange inRange)

theorem forceFitType_stands (plain : Plain w type) {x : DoubleInt w} {i : Int}
    {overflowable : Int} {overflowed overflowedConst : Bool}
    (visible : overflowable < 0 ∨ 0 < overflowable ∧ type.unsigned = false)
    (seen : overflowed = false → overflowedConst = false →
      x = ofInt w i ∧ InRange false (2 * w) i ∧ Seen w type i) :
    Stands type (forceFitType { type := type, int := x } overflowable overflowed overflowedConst) i
      (overflowed = true ∨ overflowedConst = true ∨ ¬ InRange type.unsigned type.precision i) := by
  have shown : (decide (overflowable < 0) ||
      (decide (0 < overflowable) && type.signExtended)) = true := by
    rw [Bool.or_eq_true, Bool.and_eq_true, decide_eq_true_iff, decide_eq_true_iff,
      CstType.signExtended, plain.sizetype, Bool.or_false, Bool.not_eq_true']
    exact visible
  by_cases flags : overflowed = true ∨ overflowedConst = true
  · have entered : (overflowed || overflowedConst || fitBits type x != x) = true := by
      rw [Bool.or_eq_true, Bool.or_eq_true]
      exact .inl flags
    have isFlagged : overflowed = true ∨ overflowedConst = true ∨
        ¬ InRange type.unsigned type.precision i := by tauto
    unfold forceFitType
    dsimp only
    rw [if_pos entered, Bool.or_assoc, shown, Bool.or_true, if_pos rfl]
    exact .of_flagged rfl rfl isFlagged
  · rw [not_or, Bool.not_eq_true, Bool.not_eq_true] at flags
    obtain ⟨notOver, notConst⟩ := flags
    obtain ⟨rfl, inWords, isSeen⟩ := seen notOver notConst
    subst notOver notConst
    have same := fitBits_ofInt_eq_iff plain inWords isSeen
    unfold forceFitType
    dsimp only
    rw [Bool.false_or, Bool.false_or, Bool.false_or, shown, if_pos rfl]
    by_cases inRange : InRange type.unsigned type.precision i
    · rw [same.mpr inRange, bne_self_eq_false, if_neg Bool.false_ne_true]
      refine ⟨⟨?_, fun _ => rfl, fun _ => inWords⟩, rfl, ?_, fun _ => inRange⟩
      · simp [inRange]
      · simp [inRange]
    · have changed : (fitBits type (ofInt w i) != ofInt w i) = true :=
        bne_iff_ne.mpr fun equal => inRange (same.mp equal)
      have isFlagged : false = true ∨ false = true ∨
          ¬ InRange type.unsigned type.precision i := .inr (.inr inRange)
      rw [changed, if_pos rfl]
      exact .of_flagged rfl rfl isFlagged

theorem subDouble_overflow (positive : 0 < w) (x y : DoubleInt w) :
    overflowSumSign (addDouble x (negDouble y).1).1.high y.high x.high = true ↔
      ¬ InRange false (2 * w) (x.toInt - y.toInt) := by
  have difference : (addDouble x (negDouble y).1).1 = ofInt w (x.toInt - y.toInt) := by
    have negated := negDouble_value false y
    have total := addDouble_value false x (negDouble y).1
    rw [value_signed] at negated total
    rw [total, ofInt_eq_ofInt_iff, sub_eq_add_neg, negated]
    exact Int.ModEq.add_left _ ((value_modEq false _).trans (eq_ofInt_iff.mp rfl))
  generalize (addDouble x (negDouble y).1).1 = z at *
  have sum : (addDouble z y).1 = x := by
    have total := addDouble_value false z y
    rw [total, value_signed, value_signed, difference]
    conv_rhs => rw [← ofInt_toInt x]
    rw [ofInt_eq_ofInt_iff]
    have stored : (ofInt w (x.toInt - y.toInt)).toInt ≡ x.toInt - y.toInt
        [ZMOD (2 ^ (2 * w) : Nat)] := (value_modEq false _).trans (eq_ofInt_iff.mp rfl)
    have added := stored.add_right y.toInt
    rwa [Int.sub_add_cancel] at added
  have flag : (addDouble z y).2 = overflowSumSign z.high y.high (addDouble z y).1.high := rfl
  rw [sum] at flag
  rw [← flag, addDouble_overflow positive, not_iff_not]
  have inRangeX := value_inRange positive false x
  have inRangeZ := value_inRange positive false z
  have congruent : z.toInt ≡ x.toInt - y.toInt [ZMOD (2 ^ (2 * w) : Nat)] := by
    rw [difference]
    exact (value_modEq false _).trans (eq_ofInt_iff.mp rfl)
  have restored : z.toInt + y.toInt ≡ x.toInt [ZMOD (2 ^ (2 * w) : Nat)] := by
    have added := congruent.add_right y.toInt
    rwa [Int.sub_add_cancel] at added
  constructor
  · intro inRange
    have equal := eq_of_modEq_of_inRange inRange inRangeX restored
    have same : x.toInt - y.toInt = z.toInt := by rw [value_signed] at equal; omega
    rw [same]
    exact inRangeZ
  · intro inRange
    have equal := eq_of_modEq_of_inRange inRangeZ inRange congruent
    have same : z.toInt + y.toInt = x.toInt := by rw [value_signed] at equal; omega
    rw [same]
    exact inRangeX

theorem finishBinop_stands (plain : Plain w type) (signed : type.unsigned = false)
    {c d : IntCst w} {i j k : Int} {f g : Prop} (typed : c.type = type) (first : Holds c i f)
    (second : Holds d j g) {folded : DoubleInt w × Bool}
    (computes : ¬ f → ¬ g → folded.1 = ofInt w k ∧
      (folded.2 = true ↔ ¬ InRange false (2 * w) k)) :
    Stands type (finishBinop c d false folded) k
      (f ∨ g ∨ ¬ InRange type.unsigned type.precision k) := by
  have extended : type.signExtended = true := by rw [CstType.signExtended, signed]; rfl
  have seen : Seen w type k := fun unsigned => by rw [signed] at unsigned; cases unsigned
  unfold finishBinop
  rw [if_neg Bool.false_ne_true, typed, extended, Bool.true_and]
  refine (forceFitType_stands plain (.inr ⟨by decide, signed⟩) fun clean cleanConst => ?_).congr ?_
  · rw [Bool.or_eq_false_iff, Bool.or_eq_false_iff] at clean
    rw [Bool.or_eq_false_iff] at cleanConst
    have notF : ¬ f := by
      rw [← first.marked, clean.1.2, cleanConst.1]
      decide
    have notG : ¬ g := by
      rw [← second.marked, clean.2, cleanConst.2]
      decide
    obtain ⟨stored, overflow⟩ := computes notF notG
    rw [clean.1.1] at overflow
    exact ⟨stored, not_not.mp fun outside => Bool.false_ne_true (overflow.mpr outside), seen⟩
  · have marked1 := first.marked
    have marked2 := second.marked
    simp only [Bool.or_eq_true]
    by_cases clean : f ∨ g
    · tauto
    · rw [not_or] at clean
      have overflow := (computes clean.1 clean.2).2
      have outside : ¬ InRange false (2 * w) k → ¬ InRange type.unsigned type.precision k :=
        fun outside inRange => outside (inRange_double plain seen inRange)
      tauto

theorem plus_stands {half : Nat} (positive : 0 < half) (truncated wide : Bool)
    (plain : Plain (2 * half) type) (signed : type.unsigned = false)
    {c d : IntCst (2 * half)} {i j : Int} {f g : Prop} (typed : c.type = type) (first : Holds c i f)
    (second : Holds d j g) :
    Stands type (intConstBinop truncated wide .plus c d false) (i + j)
      (f ∨ g ∨ ¬ InRange type.unsigned type.precision (i + j)) := by
  refine finishBinop_stands plain signed typed first second fun notF notG => ?_
  change (addDouble c.int d.int).1 = _ ∧ ((addDouble c.int d.int).2 = true ↔ _)
  have value1 := value_ofInt_of_inRange (show 0 < 2 * half by omega) (first.inWords notF)
  have value2 := value_ofInt_of_inRange (show 0 < 2 * half by omega) (second.inWords notG)
  rw [addDouble_overflow (by omega), first.int notF, second.int notG, addDouble_ofInt]
  rw [value_signed] at value1 value2
  rw [value1, value2]
  exact ⟨rfl, Iff.rfl⟩

theorem minus_stands {half : Nat} (positive : 0 < half) (truncated wide : Bool)
    (plain : Plain (2 * half) type) (signed : type.unsigned = false)
    {c d : IntCst (2 * half)} {i j : Int} {f g : Prop} (typed : c.type = type) (first : Holds c i f)
    (second : Holds d j g) :
    Stands type (intConstBinop truncated wide .minus c d false) (i - j)
      (f ∨ g ∨ ¬ InRange type.unsigned type.precision (i - j)) := by
  refine finishBinop_stands plain signed typed first second fun notF notG => ?_
  have value1 := value_ofInt_of_inRange (show 0 < 2 * half by omega) (first.inWords notF)
  have value2 := value_ofInt_of_inRange (show 0 < 2 * half by omega) (second.inWords notG)
  rw [value_signed] at value1 value2
  have overflow := subDouble_overflow (show 0 < 2 * half by omega) c.int d.int
  rw [first.int notF, second.int notG] at overflow
  rw [value1, value2] at overflow
  change (addDouble c.int (negDouble d.int).1).1 = _ ∧
    (overflowSumSign (addDouble c.int (negDouble d.int).1).1.high d.int.high c.int.high = true ↔ _)
  rw [first.int notF, second.int notG]
  refine ⟨?_, overflow⟩
  rw [negDouble_ofInt, addDouble_ofInt]
  rfl

theorem negate_stands (positive : 0 < w) (plain : Plain w type) (signed : type.unsigned = false)
    {c : IntCst w} {i : Int} {f : Prop} (stands : Stands type c i f) :
    Stands type (foldNegateConst c type) (-i)
      (f ∨ ¬ InRange type.unsigned type.precision (-i)) := by
  have overflow : ¬ f → ((negDouble c.int).2 = true ↔ ¬ InRange false (2 * w) (-i)) := by
    intro clean
    have inWords := stands.inWords clean
    have value := value_ofInt_of_inRange positive inWords
    rw [value_signed] at value
    rw [negDouble_overflow positive, stands.int clean, value, inRange_signed]
    rw [inRange_signed] at inWords
    omega
  have seen : Seen w type (-i) := fun unsigned => by rw [signed] at unsigned; cases unsigned
  unfold foldNegateConst
  dsimp only
  rw [signed, Bool.not_false, Bool.and_true]
  have marked := stands.marked
  have flagged := stands.overflows
  have forced := @forceFitType_stands w type plain (negDouble c.int).1 (-i) 1
    ((negDouble c.int).2 || c.overflow) c.constantOverflow (.inr ⟨by decide, signed⟩)
    fun clean cleanConst => by
      rw [Bool.or_eq_false_iff] at clean
      have notF : ¬ f := by
        rw [← flagged, clean.2]
        decide
      refine ⟨by rw [stands.int notF, negDouble_ofInt], not_not.mp fun outside => ?_, seen⟩
      exact Bool.false_ne_true (clean.1.symm.trans ((overflow notF).mpr outside))
  rw [signed] at forced
  refine forced.congr ?_
  rw [Bool.or_eq_true]
  by_cases clean : f
  · tauto
  · have isOverflow := overflow clean
    have outside : ¬ InRange false (2 * w) (-i) → ¬ InRange false type.precision (-i) :=
      fun outside inRange => outside (inRange_double plain seen (signed.symm ▸ inRange))
    tauto

end Stands

end GccCil.Gcc.DivCompare
