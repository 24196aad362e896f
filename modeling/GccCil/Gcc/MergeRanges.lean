import GccCil.Gcc.RangeArithmetic
import GccCil.Lib.OpenBounds

/-!
# Merging of ranges

`merge_ranges` of `fold-const.c` makes one range of two ranges that a value has
to satisfy.  Some of its results start just after an upper bound or end just
before a lower bound of an argument; a bound at the end of the type has no such
neighbour, and the step wraps around without being seen.
-/

namespace GccCil.Gcc.RangeTest

open GccCil.Lib OpenBounds

inductive TypeCode where
  | integer | enumeral | boolean | char | pointer
  deriving DecidableEq, Repr

/-- A type of constants, with `TYPE_MIN_VALUE`, `TYPE_MAX_VALUE` and the bits of
its mode. -/
structure CstType extends Vrp.IntType where
  code : TypeCode
  typeMin : Int
  typeMax : Int
  modeBits : Nat
  min_le : toIntType.minValue ≤ typeMin
  le_max : typeMax ≤ toIntType.maxValue
  nonempty : typeMin ≤ typeMax
  fits : precision ≤ modeBits
  deriving DecidableEq

def CstType.HasValue (type : CstType) (v : Int) : Prop := type.typeMin ≤ v ∧ v ≤ type.typeMax

/-- An `INTEGER_CST`. -/
structure Cst where
  type : CstType
  value : Int
  overflow : Bool := false
  constantOverflow : Bool := false
  deriving DecidableEq

def CstType.reduce (type : CstType) (x : Int) : Int := wrap type.unsigned type.precision x

def intFitsTypeP (c : Cst) (type : CstType) : Bool :=
  decide (type.typeMin ≤ c.value) && decide (c.value ≤ type.typeMax)

def integerZeroNode (integerTypeNode : CstType) : Cst := { type := integerTypeNode, value := 0 }

/-- `integer_zerop`. -/
def Cst.isZero (c : Cst) : Bool := !c.constantOverflow && c.value == 0

/-- A value made to fit a type, with the flags that `force_fit_type` sets. -/
def forceFit (type : CstType) (value : Int) (overflowable overflowed overflowedConst : Bool) :
    Cst :=
  let fitted := wrap type.unsigned type.precision value
  let touched := overflowed || overflowedConst || fitted != value
  let overflow := touched && (overflowed || overflowable && !type.unsigned)
  { type := type, value := fitted, overflow := overflow
    constantOverflow := overflow || overflowedConst }

/-- `fold_convert` to an integer type. -/
def foldConvert (type : CstType) (arg : Cst) : Cst :=
  if type = arg.type then arg
  else forceFit type arg.value (arg.type.code != .pointer) arg.overflow arg.constantOverflow

inductive StepCode where
  | plus | minus
  deriving DecidableEq, Repr

inductive CompareCode where
  | eq | ne | lt | le | gt | ge
  deriving DecidableEq, Repr

/-- What a sum or a difference is before it is made to fit its type. -/
def StepCode.apply : StepCode → Int → Int → Int
  | .plus, x, y => x + y
  | .minus, x, y => x - y

def CompareCode.holds : CompareCode → Int → Int → Bool
  | .eq, x, y => x == y
  | .ne, x, y => x != y
  | .lt, x, y => decide (x < y)
  | .le, x, y => decide (x ≤ y)
  | .gt, x, y => decide (y < x)
  | .ge, x, y => decide (y ≤ x)

/-- `fold_build2` of a sum or a difference of constants of one type. -/
def foldStep (code : StepCode) (type : CstType) (arg0 arg1 : Cst) : Cst :=
  foldConvert type (forceFit arg0.type (code.apply arg0.value arg1.value) true
    (arg0.overflow || arg1.overflow) (arg0.constantOverflow || arg1.constantOverflow))

/-- `range_binop` with a sum or a difference: a missing argument is infinite. -/
def rangeBinop (code : StepCode) (type : Option CstType) (arg0 arg1 : Option Cst) : Option Cst :=
  match arg0, arg1 with
  | some arg0, some arg1 =>
    some (foldStep code (type.getD arg0.type) arg0 (foldConvert arg0.type arg1))
  | _, _ => none

/-- Minus one for a missing lower bound, one for a missing upper bound and zero
for a bound that is there. -/
def sgn (arg : Option Cst) (upper : Bool) : Int :=
  if arg.isSome then 0 else if upper then 1 else -1

/-- `integer_onep` of `range_binop` with a comparison, whose missing arguments
are upper or lower bounds. -/
def rangeCompare (code : CompareCode) (arg0 : Option Cst) (upper0 : Bool) (arg1 : Option Cst)
    (upper1 : Bool) : Bool :=
  match arg0, arg1 with
  | some arg0, some arg1 => code.holds arg0.value (foldConvert arg0.type arg1).value
  | _, _ => code.holds (sgn arg0 upper0) (sgn arg1 upper1)

structure Range where
  inP : Bool
  low : Option Cst
  high : Option Cst
  deriving DecidableEq

/-- `integer_one_node`, of the type `integer_type_node`. -/
def integerOneNode (integerTypeNode : CstType) : Cst := { type := integerTypeNode, value := 1 }

def canonicalLow : Option Cst → Option Cst
  | none => none
  | some low =>
    let isMin := low.value == low.type.typeMin
    match low.type.code with
    | .enumeral =>
      if low.type.precision = low.type.modeBits ∧ isMin = true then none else some low
    | .integer | .char => if isMin then none else some low
    | .pointer => if low.type.unsigned && low.isZero then none else some low
    | .boolean => some low

variable (integerTypeNode : CstType)

def canonicalHigh : Option Cst → Option Cst
  | none => none
  | some high =>
    let isMax := high.value == high.type.typeMax
    match high.type.code with
    | .enumeral =>
      if high.type.precision = high.type.modeBits ∧ isMax = true then none else some high
    | .integer | .char => if isMax then none else some high
    | .pointer =>
      let next := rangeBinop .plus none (some high) (some (integerOneNode integerTypeNode))
      if high.type.unsigned && next.any Cst.isZero then none else some high
    | .boolean => some high

/-- The cases of `merge_ranges`, after range 0 is the range that starts first. -/
def mergeOrdered (lowequal highequal : Bool) (range0 range1 : Range) : Option Range :=
  let one := some (integerOneNode integerTypeNode)
  let low0 := range0.low
  let high0 := range0.high
  let low1 := range1.low
  let high1 := range1.high
  let noOverlap := rangeCompare .lt high0 true low1 false
  let subset := rangeCompare .le high1 true high0 true
  match range0.inP, range1.inP with
  | true, true =>
    if noOverlap then some { inP := false, low := none, high := none }
    else if subset then some { inP := true, low := low1, high := high1 }
    else some { inP := true, low := low1, high := high0 }
  | true, false =>
    if noOverlap then some { inP := true, low := low0, high := high0 }
    else if lowequal && highequal then some { inP := false, low := none, high := none }
    else if subset && lowequal then
      some { inP := true, low := rangeBinop .plus none high1 one, high := high0 }
    else if !subset || highequal then
      some { inP := true, low := low0, high := rangeBinop .minus none low1 one }
    else none
  | false, true =>
    if noOverlap then some { inP := true, low := low1, high := high1 }
    else if subset || highequal then some { inP := false, low := none, high := none }
    else some { inP := true, low := rangeBinop .plus none high0 one, high := high1 }
  | false, false =>
    if noOverlap then
      if rangeCompare .eq (rangeBinop .plus none high0 one) true low1 false then
        some { inP := false, low := low0, high := high1 }
      else if canonicalLow low0 = none ∧ canonicalHigh integerTypeNode high1 = none then
        -- the ranges leave a gap, but nothing before and behind it
        match rangeBinop .plus none high0 one, rangeBinop .minus none low1 one with
        | some low, some high => some { inP := true, low := some low, high := some high }
        | _, _ => none
      else none
    else if subset then some { inP := false, low := low0, high := high0 }
    else some { inP := false, low := low0, high := high1 }

def mergeRanges (range0 range1 : Range) : Option Range :=
  let lowequal := range0.low.isNone && range1.low.isNone ||
    rangeCompare .eq range0.low false range1.low false
  let highequal := range0.high.isNone && range1.high.isNone ||
    rangeCompare .eq range0.high true range1.high true
  -- Make range 0 be the range that starts first, or ends last if they start at
  -- the same value.
  if rangeCompare .gt range0.low false range1.low false ||
      lowequal && rangeCompare .gt range1.high true range0.high true then
    mergeOrdered integerTypeNode lowequal highequal range1 range0
  else mergeOrdered integerTypeNode lowequal highequal range0 range1

def bound (c : Option Cst) : Option Int := c.map Cst.value

def Range.Holds (range : Range) (v : Int) : Prop :=
  Within (bound range.low) (bound range.high) v ↔ range.inP = true

def OfType (type : CstType) (c : Option Cst) : Prop :=
  ∀ cst ∈ c, cst.type = type ∧ type.toIntType.Contains cst.value

/-- The bounds are constants of the type, the lower one not above the upper one. -/
structure Range.Proper (type : CstType) (range : Range) : Prop where
  low : OfType type range.low
  high : OfType type range.high
  ordered : ¬ Apart (bound range.high) (bound range.low)

section Compare

variable {type : CstType} {arg0 arg1 : Option Cst}

theorem foldConvert_ofType {c : Cst} (same : c.type = type) : foldConvert type c = c :=
  if_pos same.symm

@[simp]
theorem forceFit_type (type : CstType) (value : Int)
    (overflowable overflowed overflowedConst : Bool) :
    (forceFit type value overflowable overflowed overflowedConst).type = type := rfl

theorem rangeCompare_some (code : CompareCode) {c0 c1 : Cst} (upper0 upper1 : Bool)
    (of0 : OfType type (some c0)) (of1 : OfType type (some c1)) :
    rangeCompare code (some c0) upper0 (some c1) upper1 = code.holds c0.value c1.value := by
  have same : c1.type = c0.type := (of1 c1 rfl).1.trans (of0 c0 rfl).1.symm
  rw [rangeCompare, foldConvert_ofType same]

theorem lowerGT_iff (of0 : OfType type arg0) (of1 : OfType type arg1) :
    rangeCompare .gt arg0 false arg1 false = true ↔ ¬ LowerLE (bound arg0) (bound arg1) := by
  cases arg0 with
  | none => cases arg1 <;> simp [rangeCompare, sgn, CompareCode.holds, LowerLE, bound]
  | some c0 =>
    cases arg1 with
    | none => simp [rangeCompare, sgn, CompareCode.holds, LowerLE, bound]
    | some c1 =>
      rw [rangeCompare_some _ _ _ of0 of1]
      simp [CompareCode.holds, LowerLE, bound]

theorem upperLE_iff (of0 : OfType type arg0) (of1 : OfType type arg1) :
    rangeCompare .le arg0 true arg1 true = true ↔ UpperLE (bound arg0) (bound arg1) := by
  cases arg1 with
  | none => cases arg0 <;> simp [rangeCompare, sgn, CompareCode.holds, UpperLE, bound]
  | some c1 =>
    cases arg0 with
    | none => simp [rangeCompare, sgn, CompareCode.holds, UpperLE, bound]
    | some c0 =>
      rw [rangeCompare_some _ _ _ of0 of1]
      simp [CompareCode.holds, UpperLE, bound]

theorem upperGT_iff (of0 : OfType type arg0) (of1 : OfType type arg1) :
    rangeCompare .gt arg0 true arg1 true = true ↔ ¬ UpperLE (bound arg0) (bound arg1) := by
  rw [← upperLE_iff of0 of1]
  cases arg0 <;> cases arg1 <;> simp [rangeCompare, sgn, CompareCode.holds]

theorem apart_iff (of0 : OfType type arg0) (of1 : OfType type arg1) :
    rangeCompare .lt arg0 true arg1 false = true ↔ Apart (bound arg0) (bound arg1) := by
  cases arg0 with
  | none => cases arg1 <;> simp [rangeCompare, sgn, CompareCode.holds, Apart, bound]
  | some c0 =>
    cases arg1 with
    | none => simp [rangeCompare, sgn, CompareCode.holds, Apart, bound]
    | some c1 =>
      rw [rangeCompare_some _ _ _ of0 of1]
      simp [CompareCode.holds, Apart, bound]

theorem equal_iff (upper : Bool) (of0 : OfType type arg0) (of1 : OfType type arg1) :
    (arg0.isNone && arg1.isNone || rangeCompare .eq arg0 upper arg1 upper) = true ↔
      bound arg0 = bound arg1 := by
  cases arg0 with
  | none => cases arg1 <;> cases upper <;> simp [rangeCompare, sgn, CompareCode.holds, bound]
  | some c0 =>
    cases arg1 with
    | none => cases upper <;> simp [rangeCompare, sgn, CompareCode.holds, bound]
    | some c1 =>
      rw [rangeCompare_some _ _ _ of0 of1]
      simp [CompareCode.holds, bound]

end Compare

section Steps

variable {type : CstType} {c : Cst}

theorem foldConvert_one_modEq (type : CstType) :
    (foldConvert type (integerOneNode integerTypeNode)).value ≡ 1
      [ZMOD (2 ^ type.precision : Nat)] := by
  rw [foldConvert]
  split
  · rfl
  · exact wrap_modEq type.unsigned type.precision 1

theorem rangeBinop_one (code : StepCode) (of : OfType type (some c)) :
    ∃ next, rangeBinop code none (some c) (some (integerOneNode integerTypeNode)) = some next ∧
      next.type = type ∧
      next.value = wrap type.unsigned type.precision (code.apply c.value 1) := by
  obtain ⟨rfl, _⟩ := of c rfl
  refine ⟨_, rfl, ?_⟩
  rw [Option.getD_none, foldStep, foldConvert_ofType (forceFit_type _ _ _ _ _)]
  have one := foldConvert_one_modEq integerTypeNode c.type
  refine ⟨rfl, wrap_congr c.type.unsigned ?_⟩
  cases code with
  | plus => exact Int.ModEq.add_left c.value one
  | minus => exact Int.ModEq.sub_left c.value one

theorem modulus_eq (type : CstType) :
    type.toIntType.maxValue + 1 = type.toIntType.minValue + (2 ^ type.precision : Nat) := by
  have modulus := type.toIntType.modulus_eq
  rw [Vrp.IntType.maxValue, Vrp.IntType.minValue]
  push_cast at modulus ⊢
  split <;> omega

theorem min_le_max (type : CstType) : type.toIntType.minValue ≤ type.toIntType.maxValue :=
  (type.min_le.trans type.nonempty).trans type.le_max

theorem contains_max (type : CstType) : type.toIntType.Contains type.toIntType.maxValue :=
  ⟨min_le_max type, le_refl _⟩

theorem contains_min (type : CstType) : type.toIntType.Contains type.toIntType.minValue :=
  ⟨le_refl _, min_le_max type⟩

theorem bound_successor (of : OfType type (some c)) :
    bound (rangeBinop .plus none (some c) (some (integerOneNode integerTypeNode))) =
      some (if c.value = type.toIntType.maxValue then type.toIntType.minValue
        else c.value + 1) := by
  obtain ⟨next, step, _, value⟩ := rangeBinop_one integerTypeNode .plus of
  have contains := (of c rfl).2
  rw [step, bound, Option.map_some, value]
  congr 1
  split
  case isTrue last =>
      rw [← type.toIntType.wrap_eq (contains_min type)]
      refine wrap_congr _ (Int.modEq_iff_dvd.mpr ⟨-1, ?_⟩)
      have modulus := modulus_eq type
      rw [StepCode.apply, last]
      omega
  case isFalse inside =>
      exact type.toIntType.wrap_eq ⟨by have := contains.1; rw [StepCode.apply]; omega,
        by have := contains.2; rw [StepCode.apply]; omega⟩

theorem bound_predecessor (of : OfType type (some c)) :
    bound (rangeBinop .minus none (some c) (some (integerOneNode integerTypeNode))) =
      some (if c.value = type.toIntType.minValue then type.toIntType.maxValue
        else c.value - 1) := by
  obtain ⟨next, step, _, value⟩ := rangeBinop_one integerTypeNode .minus of
  have contains := (of c rfl).2
  rw [step, bound, Option.map_some, value]
  congr 1
  split
  case isTrue first =>
      rw [← type.toIntType.wrap_eq (contains_max type)]
      refine wrap_congr _ (Int.modEq_iff_dvd.mpr ⟨1, ?_⟩)
      have modulus := modulus_eq type
      rw [StepCode.apply, first]
      omega
  case isFalse inside =>
      exact type.toIntType.wrap_eq ⟨by have := contains.1; rw [StepCode.apply]; omega,
        by have := contains.2; rw [StepCode.apply]; omega⟩

theorem ofType_step (code : StepCode) (of : OfType type (some c)) :
    OfType type (rangeBinop code none (some c) (some (integerOneNode integerTypeNode))) := by
  obtain ⟨next, step, typed, value⟩ := rangeBinop_one integerTypeNode code of
  rw [step]
  rintro _ ⟨⟩
  refine ⟨typed, (type.toIntType.contains_iff _).mpr ?_⟩
  rw [value]
  exact wrap_inRange type.positive type.unsigned _

theorem above_successor (of : OfType type (some c))
    (inside : c.value ≠ type.toIntType.maxValue) (v : Int) :
    Above (bound (rangeBinop .plus none (some c) (some (integerOneNode integerTypeNode)))) v ↔
      ¬ Below (bound (some c)) v := by
  rw [bound_successor integerTypeNode of, if_neg inside, above_some, bound, Option.map_some,
    below_some]
  omega

theorem below_predecessor (of : OfType type (some c))
    (inside : c.value ≠ type.toIntType.minValue) (v : Int) :
    Below (bound (rangeBinop .minus none (some c) (some (integerOneNode integerTypeNode)))) v ↔
      ¬ Above (bound (some c)) v := by
  rw [bound_predecessor integerTypeNode of, if_neg inside, below_some, bound, Option.map_some,
    above_some]
  omega

theorem above_wrapped (of : OfType type (some c)) (last : c.value = type.toIntType.maxValue)
    {v : Int} (has : type.HasValue v) :
    Above (bound (rangeBinop .plus none (some c) (some (integerOneNode integerTypeNode)))) v := by
  rw [bound_successor integerTypeNode of, if_pos last, above_some]
  exact type.min_le.trans has.1

theorem below_wrapped (of : OfType type (some c)) (first : c.value = type.toIntType.minValue)
    {v : Int} (has : type.HasValue v) :
    Below (bound (rangeBinop .minus none (some c) (some (integerOneNode integerTypeNode)))) v := by
  rw [bound_predecessor integerTypeNode of, if_pos first, below_some]
  exact has.2.trans type.le_max

theorem CstType.HasValue.contains {v : Int} (has : type.HasValue v) :
    type.toIntType.Contains v :=
  ⟨type.min_le.trans has.1, has.2.trans type.le_max⟩

theorem above_of_canonicalLow {low : Option Cst} (of : OfType type low)
    (removed : canonicalLow low = none) {v : Int} (has : type.HasValue v) :
    Above (bound low) v := by
  cases low with
  | none => exact above_none v
  | some l =>
    obtain ⟨rfl, _⟩ := of l rfl
    have least : l.value = l.type.typeMin ∨ l.type.unsigned = true ∧ l.value = 0 := by
      simp only [canonicalLow, Cst.isZero] at removed
      cases code : l.type.code <;> simp_all
    rw [bound, Option.map_some, above_some]
    rcases least with atMin | ⟨unsigned, zero⟩
    · rw [atMin]
      exact has.1
    · rw [zero]
      exact ((Vrp.IntType.contains_unsigned unsigned v).mp has.contains).1

theorem below_of_canonicalHigh {high : Option Cst} (of : OfType type high)
    (removed : canonicalHigh integerTypeNode high = none) {v : Int} (has : type.HasValue v) :
    Below (bound high) v := by
  cases high with
  | none => exact below_none v
  | some h =>
    have successor := bound_successor integerTypeNode of
    obtain ⟨next, step, _, _⟩ := rangeBinop_one integerTypeNode .plus of
    obtain ⟨rfl, contains⟩ := of h rfl
    have greatest : h.value = h.type.typeMax ∨ h.type.unsigned = true ∧ next.value = 0 := by
      simp only [canonicalHigh, step, Option.any_some, Cst.isZero] at removed
      cases code : h.type.code <;> simp_all
    rw [step, bound, Option.map_some] at successor
    have value := Option.some.inj successor
    rw [bound, Option.map_some, below_some]
    rcases greatest with atMax | ⟨unsigned, zero⟩
    · rw [atMax]
      exact has.2
    · have nonneg := ((Vrp.IntType.contains_unsigned unsigned h.value).mp contains).1
      rw [zero] at value
      split at value
      case isTrue last =>
          rw [last]
          exact has.contains.2
      case isFalse => omega

theorem upper_of_max_le {high : Option Cst} (of : OfType type high)
    (beyond : UpperLE (some type.toIntType.maxValue) (bound high)) :
    bound high = none ∨ bound high = some type.toIntType.maxValue := by
  cases high with
  | none => exact .inl rfl
  | some h =>
    have above := (upperLE_some _ _).mp beyond
    have below := (of h rfl).2.2
    exact .inr (congrArg some (le_antisymm below above))

theorem lower_of_le_min {low : Option Cst} (of : OfType type low)
    (before : LowerLE (bound low) (some type.toIntType.minValue)) :
    bound low = none ∨ bound low = some type.toIntType.minValue := by
  cases low with
  | none => exact .inl rfl
  | some l =>
    have below := (lowerLE_some _ _).mp before
    have above := (of l rfl).2.1
    exact .inr (congrArg some (le_antisymm below above))

end Steps

theorem Range.holds_in {range : Range} (included : range.inP = true) (v : Int) :
    range.Holds v ↔ Within (bound range.low) (bound range.high) v := by
  rw [Range.Holds, included]
  exact iff_true_right rfl

theorem Range.holds_out {range : Range} (excluded : range.inP = false) (v : Int) :
    range.Holds v ↔ ¬ Within (bound range.low) (bound range.high) v := by
  rw [Range.Holds, excluded]
  exact iff_false_right Bool.false_ne_true

/-- The included range lies in the excluded one and reaches an end of the type
that only the excluded one names. -/
def Swallowed (type : CstType) (inner outer : Range) : Prop :=
  inner.inP = true ∧ outer.inP = false ∧
    (bound inner.high = none ∧ bound outer.high = some type.toIntType.maxValue ∧
        LowerLE (bound outer.low) (bound inner.low) ∨
      bound inner.low = none ∧ bound outer.low = some type.toIntType.minValue ∧
        UpperLE (bound inner.high) (bound outer.high))

/-- Proper ranges of one type, of which the first starts first, or ends last if
they start at the same value. -/
structure InOrder (type : CstType) (range0 range1 : Range) : Prop where
  first : range0.Proper type
  second : range1.Proper type
  start : LowerLE (bound range0.low) (bound range1.low)
  last : bound range0.low = bound range1.low →
    UpperLE (bound range1.high) (bound range0.high)

section Ordered

variable {type : CstType} {range0 range1 range : Range} {lowequal highequal : Bool}

def Intersects (range range0 range1 : Range) (v : Int) : Prop :=
  range.Holds v ↔ range0.Holds v ∧ range1.Holds v

theorem noValue_holds {range : Range} (empty : range = { inP := false, low := none, high := none })
    (v : Int) : ¬ range.Holds v := by
  rw [Range.holds_out (by rw [empty]), empty]
  exact fun outside => outside ⟨above_none v, below_none v⟩

theorem merge_in_in (order : InOrder type range0 range1) (in0 : range0.inP = true)
    (in1 : range1.inP = true)
    (merged : mergeOrdered integerTypeNode lowequal highequal range0 range1 = some range)
    (v : Int) : Intersects range range0 range1 v := by
  rw [Intersects, Range.holds_in in0, Range.holds_in in1]
  have apart := apart_iff order.first.high order.second.low
  have subset := upperLE_iff order.second.high order.first.high
  simp only [mergeOrdered, in0, in1] at merged
  split at merged
  case isTrue noOverlap =>
      exact iff_of_false (noValue_holds (Option.some.inj merged).symm v)
        (inter_of_apart (apart.mp noOverlap))
  case isFalse =>
      split at merged
      case isTrue inside =>
          rw [← Option.some.inj merged, Range.holds_in rfl]
          exact inter_of_subset order.start (subset.mp inside)
      case isFalse outside =>
          rw [← Option.some.inj merged, Range.holds_in rfl]
          exact inter_of_overlap order.start
            (upperLE_of_not (mt subset.mpr outside))

theorem swallowed_iff_of_start (start : LowerLE (bound range0.low) (bound range1.low))
    (in0 : range0.inP = true) (out1 : range1.inP = false) :
    Swallowed type range0 range1 ↔
      bound range0.low = bound range1.low ∧ bound range0.high = none ∧
          bound range1.high = some type.toIntType.maxValue ∨
        bound range0.low = none ∧ bound range1.low = some type.toIntType.minValue ∧
          UpperLE (bound range0.high) (bound range1.high) := by
  constructor
  · rintro ⟨_, _, ⟨highest, named, inside⟩ | lowest⟩
    · exact .inl ⟨lowerLE_antisymm start inside, highest, named⟩
    · exact .inr lowest
  · rintro (⟨same, highest, named⟩ | lowest)
    · exact ⟨in0, out1, .inl ⟨highest, named, lowerLE_of_eq same.symm⟩⟩
    · exact ⟨in0, out1, .inr lowest⟩

theorem OfType.contains {c : Option Cst} (of : OfType type c) {x : Int} (named : bound c = some x) :
    type.toIntType.Contains x := by
  obtain ⟨cst, here, rfl⟩ := Option.map_eq_some_iff.mp named
  exact (of cst here).2

theorem behind_iff (order : InOrder type range0 range1)
    (shorter : UpperLE (bound range1.high) (bound range0.high))
    (same : bound range0.low = bound range1.low)
    (different : bound range0.high ≠ bound range1.high) :
    (∀ v, type.HasValue v →
      (Within (bound (rangeBinop .plus none range1.high (some (integerOneNode integerTypeNode))))
          (bound range0.high) v ↔
        Within (bound range0.low) (bound range0.high) v ∧
          ¬ Within (bound range1.low) (bound range1.high) v)) ↔
      ¬ (bound range0.high = none ∧ bound range1.high = some type.toIntType.maxValue) := by
  cases named : range1.high with
  | none =>
    rw [named] at shorter different
    exact absurd shorter.eq_none different
  | some c =>
    have of := named ▸ order.second.high
    have ordered := named ▸ order.second.ordered
    rw [named] at shorter different
    by_cases last : c.value = type.toIntType.maxValue
    · have swallowed : bound range0.high = none ∧ bound (some c) = some type.toIntType.maxValue := by
        have named : bound (some c) = some type.toIntType.maxValue := congrArg some last
        rw [named] at shorter different
        exact ⟨(upper_of_max_le order.first.high shorter).resolve_right different, named⟩
      refine iff_of_false (fun holds => ?_) (fun inside => inside swallowed)
      have has : type.HasValue type.typeMin := ⟨le_refl _, type.nonempty⟩
      have left := (holds type.typeMin has).mp
        ⟨above_wrapped integerTypeNode of last has, by rw [swallowed.1]; exact below_none _⟩
      apply left.2
      rw [← same, swallowed.2, Within, below_some]
      exact ⟨left.1.1, has.contains.2⟩
    · refine iff_of_true (fun v _ => ?_) ?_
      · rw [Within, above_successor integerTypeNode of last]
        exact diff_of_subset ordered order.start (lowerLE_of_eq same.symm)
      · rintro ⟨_, highest⟩
        exact last (Option.some.inj highest)

theorem before_iff (order : InOrder type range0 range1)
    (meet : ¬ Apart (bound range0.high) (bound range1.low))
    (beyond : UpperLE (bound range0.high) (bound range1.high))
    (different : bound range0.low ≠ bound range1.low) :
    (∀ v, type.HasValue v →
      (Within (bound range0.low)
          (bound (rangeBinop .minus none range1.low (some (integerOneNode integerTypeNode)))) v ↔
        Within (bound range0.low) (bound range0.high) v ∧
          ¬ Within (bound range1.low) (bound range1.high) v)) ↔
      ¬ (bound range0.low = none ∧ bound range1.low = some type.toIntType.minValue) := by
  have start := order.start
  cases named : range1.low with
  | none =>
    rw [named] at start different
    exact absurd start.eq_none different
  | some c =>
    have of := named ▸ order.second.low
    rw [named] at start different meet
    by_cases first : c.value = type.toIntType.minValue
    · have swallowed : bound range0.low = none ∧ bound (some c) = some type.toIntType.minValue := by
        have named : bound (some c) = some type.toIntType.minValue := congrArg some first
        rw [named] at start different
        exact ⟨(lower_of_le_min order.first.low start).resolve_right different, named⟩
      refine iff_of_false (fun holds => ?_) (fun inside => inside swallowed)
      have has : type.HasValue type.typeMin := ⟨le_refl _, type.nonempty⟩
      have left := (holds type.typeMin has).mp
        ⟨by rw [swallowed.1]; exact above_none _, below_wrapped integerTypeNode of first has⟩
      apply left.2
      rw [swallowed.2, Within, above_some]
      exact ⟨has.contains.1, left.1.2.of_upperLE beyond⟩
    · refine iff_of_true (fun v _ => ?_) ?_
      · rw [Within, below_predecessor integerTypeNode of first]
        exact diff_of_overlap meet beyond
      · rintro ⟨_, lowest⟩
        exact first (Option.some.inj lowest)

theorem merge_in_out (order : InOrder type range0 range1) (in0 : range0.inP = true)
    (out1 : range1.inP = false)
    (lows : lowequal = true ↔ bound range0.low = bound range1.low)
    (highs : highequal = true ↔ bound range0.high = bound range1.high)
    (merged : mergeOrdered integerTypeNode lowequal highequal range0 range1 = some range) :
    (∀ v, type.HasValue v → Intersects range range0 range1 v) ↔
      ¬ Swallowed type range0 range1 := by
  have apart := apart_iff order.first.high order.second.low
  have subset := upperLE_iff order.second.high order.first.high
  simp only [Intersects, Range.holds_in in0, Range.holds_out out1,
    swallowed_iff_of_start order.start in0 out1]
  simp only [mergeOrdered, in0, out1] at merged
  split at merged
  case isTrue noOverlap =>
      have meets := apart.mp noOverlap
      refine iff_of_true (fun v _ => ?_) ?_
      · rw [← Option.some.inj merged, Range.holds_in rfl]
        exact diff_of_apart meets
      · obtain ⟨h, upper, l, lower, less⟩ := meets
        rintro (⟨_, highest, _⟩ | ⟨_, lowest, _⟩)
        · rw [highest] at upper
          cases upper
        · have contains := (order.first.high.contains upper).1
          rw [lowest] at lower
          cases lower
          omega
  case isFalse noOverlap =>
      have meet := mt apart.mpr noOverlap
      split at merged
      case isTrue equal =>
          rw [Bool.and_eq_true, lows, highs] at equal
          refine iff_of_true (fun v _ => ?_) ?_
          · refine iff_of_false (noValue_holds (Option.some.inj merged).symm v) ?_
            rw [equal.1, equal.2]
            exact fun ⟨inside, outside⟩ => outside inside
          · rw [equal.1, equal.2]
            rintro (⟨_, highest, named⟩ | ⟨lowest, named, _⟩)
            · exact absurd (highest.symm.trans named) nofun
            · exact absurd (lowest.symm.trans named) nofun
      case isFalse different =>
          rw [Bool.and_eq_true, lows, highs, not_and] at different
          split at merged
          case isTrue ends =>
              rw [Bool.and_eq_true, subset, lows] at ends
              obtain ⟨shorter, same⟩ := ends
              rw [← Option.some.inj merged]
              simp only [Range.holds_in]
              rw [behind_iff integerTypeNode order shorter same (different same), not_iff_not]
              constructor
              · exact fun ⟨highest, named⟩ => .inl ⟨same, highest, named⟩
              · rintro (⟨_, highest, named⟩ | ⟨lowest, named, _⟩)
                · exact ⟨highest, named⟩
                · exact absurd (lowest.symm.trans (same.trans named)) nofun
          case isFalse ends =>
              rw [Bool.and_eq_true, subset, lows, not_and] at ends
              split at merged
              case isTrue reaches =>
                  rw [Bool.or_eq_true, Bool.not_eq_true', ← Bool.not_eq_true, subset, highs]
                    at reaches
                  have beyond : UpperLE (bound range0.high) (bound range1.high) := by
                    rcases reaches with longer | same
                    · exact upperLE_of_not longer
                    · exact upperLE_of_eq same
                  have lowsDiffer : bound range0.low ≠ bound range1.low := by
                    intro same
                    exact ends (order.last same) same
                  rw [← Option.some.inj merged]
                  simp only [Range.holds_in]
                  rw [before_iff integerTypeNode order meet beyond lowsDiffer, not_iff_not]
                  constructor
                  · exact fun ⟨lowest, named⟩ => .inr ⟨lowest, named, beyond⟩
                  · rintro (⟨same, _⟩ | ⟨lowest, named, _⟩)
                    · exact absurd same lowsDiffer
                    · exact ⟨lowest, named⟩
              case isFalse => cases merged

theorem swallowed_iff_of_end (start : LowerLE (bound range0.low) (bound range1.low))
    (out0 : range0.inP = false) (in1 : range1.inP = true) :
    Swallowed type range1 range0 ↔
      bound range1.high = none ∧ bound range0.high = some type.toIntType.maxValue := by
  constructor
  · rintro ⟨_, _, ⟨highest, named, _⟩ | ⟨lowest, named, _⟩⟩
    · exact ⟨highest, named⟩
    · rw [lowest] at start
      exact absurd (named.symm.trans start.eq_none) nofun
  · exact fun ⟨highest, named⟩ => ⟨in1, out0, .inl ⟨highest, named, start⟩⟩

theorem rest_iff (order : InOrder type range0 range1)
    (meet : ¬ Apart (bound range0.high) (bound range1.low))
    (longer : ¬ UpperLE (bound range1.high) (bound range0.high)) :
    (∀ v, type.HasValue v →
      (Within (bound (rangeBinop .plus none range0.high (some (integerOneNode integerTypeNode))))
          (bound range1.high) v ↔
        ¬ Within (bound range0.low) (bound range0.high) v ∧
          Within (bound range1.low) (bound range1.high) v)) ↔
      ¬ (bound range1.high = none ∧ bound range0.high = some type.toIntType.maxValue) := by
  cases named : range0.high with
  | none =>
    rw [named] at longer
    exact absurd upperLE_none longer
  | some c =>
    have of := named ▸ order.first.high
    rw [named] at longer meet
    by_cases last : c.value = type.toIntType.maxValue
    · have greatest : bound (some c) = some type.toIntType.maxValue := congrArg some last
      rw [greatest] at longer
      have swallowed : bound range1.high = none := by
        rcases upper_of_max_le order.second.high (upperLE_of_not longer) with highest | same
        · exact highest
        · exact absurd (upperLE_of_eq same) longer
      refine iff_of_false (fun holds => ?_) (fun inside => inside ⟨swallowed, greatest⟩)
      have has : type.HasValue type.typeMin := ⟨le_refl _, type.nonempty⟩
      have left := (holds type.typeMin has).mp
        ⟨above_wrapped integerTypeNode of last has, by rw [swallowed]; exact below_none _⟩
      apply left.1
      rw [greatest, Within, below_some]
      exact ⟨left.2.1.of_lowerLE order.start, has.contains.2⟩
    · refine iff_of_true (fun v _ => ?_) ?_
      · rw [Within, above_successor integerTypeNode of last]
        exact rest_of_overlap meet order.start
      · rintro ⟨_, highest⟩
        exact last (Option.some.inj highest)

theorem merge_out_in (order : InOrder type range0 range1) (out0 : range0.inP = false)
    (in1 : range1.inP = true)
    (highs : highequal = true ↔ bound range0.high = bound range1.high)
    (merged : mergeOrdered integerTypeNode lowequal highequal range0 range1 = some range) :
    (∀ v, type.HasValue v → Intersects range range0 range1 v) ↔
      ¬ Swallowed type range1 range0 := by
  have apart := apart_iff order.first.high order.second.low
  have subset := upperLE_iff order.second.high order.first.high
  simp only [Intersects, Range.holds_out out0, Range.holds_in in1,
    swallowed_iff_of_end order.start out0 in1]
  simp only [mergeOrdered, out0, in1] at merged
  split at merged
  case isTrue noOverlap =>
      have meets := apart.mp noOverlap
      refine iff_of_true (fun v _ => ?_) ?_
      · rw [← Option.some.inj merged, Range.holds_in rfl]
        exact rest_of_apart meets
      · obtain ⟨h, upper, l, lower, less⟩ := meets
        rintro ⟨_, highest⟩
        have contains := (order.second.low.contains lower).2
        rw [highest] at upper
        cases upper
        omega
  case isFalse noOverlap =>
      split at merged
      case isTrue covered =>
          rw [Bool.or_eq_true, subset, highs] at covered
          have inside : UpperLE (bound range1.high) (bound range0.high) :=
            covered.elim id fun same => upperLE_of_eq same.symm
          refine iff_of_true (fun v _ => ?_) ?_
          · exact iff_of_false (noValue_holds (Option.some.inj merged).symm v)
              (rest_of_subset order.start inside)
          · rintro ⟨highest, named⟩
            rw [highest] at inside
            exact absurd (named.symm.trans inside.eq_none) nofun
      case isFalse covered =>
          rw [Bool.or_eq_true, subset, not_or] at covered
          rw [← Option.some.inj merged]
          simp only [Range.holds_in]
          exact rest_iff integerTypeNode order (mt apart.mpr noOverlap) covered.1

theorem merge_out_out (order : InOrder type range0 range1) (out0 : range0.inP = false)
    (out1 : range1.inP = false)
    (merged : mergeOrdered integerTypeNode lowequal highequal range0 range1 = some range)
    (v : Int) (has : type.HasValue v) : Intersects range range0 range1 v := by
  have apart := apart_iff order.first.high order.second.low
  have subset := upperLE_iff order.second.high order.first.high
  rw [Intersects, Range.holds_out out0, Range.holds_out out1]
  simp only [mergeOrdered, out0, out1] at merged
  split at merged
  case isTrue noOverlap =>
      have meets := apart.mp noOverlap
      obtain ⟨h, upper, l, lower, less⟩ := id meets
      obtain ⟨c0, high0, rfl⟩ := Option.map_eq_some_iff.mp upper
      obtain ⟨c1, low1, rfl⟩ := Option.map_eq_some_iff.mp lower
      have of0 := high0 ▸ order.first.high
      have of1 := low1 ▸ order.second.low
      have notLast : c0.value ≠ type.toIntType.maxValue := by
        have := (of1 c1 rfl).2.2
        omega
      have notFirst : c1.value ≠ type.toIntType.minValue := by
        have := (of0 c0 rfl).2.1
        omega
      have reaches : Below (bound range0.high) v → Below (bound range1.high) v := fun below =>
        by_contra fun behind =>
          meets.not_above below (above_of_not_below order.second.ordered behind)
      rw [high0, low1] at merged
      split at merged
      case isTrue adjacent =>
          rw [← Option.some.inj merged, Range.holds_out rfl]
          refine union_of_overlap (fun behind => ?_) order.start reaches
          have following := bound_successor integerTypeNode of0
          obtain ⟨next, step, _, _⟩ := rangeBinop_one integerTypeNode .plus of0
          have ofNext := step ▸ ofType_step integerTypeNode .plus of0
          rw [step, rangeCompare_some _ _ _ ofNext of1] at adjacent
          rw [step, bound, Option.map_some, if_neg notLast] at following
          have value := Option.some.inj following
          have same : next.value = c1.value := by simpa [CompareCode.holds] using adjacent
          rw [high0, bound, Option.map_some, below_some] at behind
          rw [low1, bound, Option.map_some, above_some]
          omega
      case isFalse =>
          split at merged
          case isTrue removed =>
              have above := above_of_canonicalLow order.first.low removed.1 has
              have below := below_of_canonicalHigh integerTypeNode order.second.high removed.2 has
              obtain ⟨next, stepUp, _, _⟩ := rangeBinop_one integerTypeNode .plus of0
              obtain ⟨previous, stepDown, _, _⟩ := rangeBinop_one integerTypeNode .minus of1
              have behind := above_successor integerTypeNode of0 notLast v
              have before := below_predecessor integerTypeNode of1 notFirst v
              rw [stepUp, stepDown] at merged
              rw [stepUp, ← high0] at behind
              rw [stepDown, ← low1] at before
              rw [← Option.some.inj merged, Range.holds_in rfl, Within, behind, before]
              exact gap_of_apart above below
          case isFalse => cases merged
  case isFalse noOverlap =>
      have meet := mt apart.mpr noOverlap
      split at merged
      case isTrue inside =>
          rw [← Option.some.inj merged, Range.holds_out rfl]
          exact union_of_subset order.start (subset.mp inside)
      case isFalse outside =>
          rw [← Option.some.inj merged, Range.holds_out rfl]
          exact union_of_overlap (above_of_not_below meet) order.start
            (fun below => below.of_upperLE (upperLE_of_not (mt subset.mpr outside)))

theorem mergeOrdered_iff (order : InOrder type range0 range1)
    (lows : lowequal = true ↔ bound range0.low = bound range1.low)
    (highs : highequal = true ↔ bound range0.high = bound range1.high)
    (merged : mergeOrdered integerTypeNode lowequal highequal range0 range1 = some range) :
    (∀ v, type.HasValue v → Intersects range range0 range1 v) ↔
      ¬ (Swallowed type range0 range1 ∨ Swallowed type range1 range0) := by
  have notInner {inner outer : Range} (excluded : inner.inP = false) :
      ¬ Swallowed type inner outer := fun ⟨included, _⟩ =>
    absurd (included.symm.trans excluded) nofun
  have notOuter {inner outer : Range} (included : outer.inP = true) :
      ¬ Swallowed type inner outer := fun ⟨_, excluded, _⟩ =>
    absurd (included.symm.trans excluded) nofun
  cases p0 : range0.inP with
  | true =>
    cases p1 : range1.inP with
    | true =>
      exact iff_of_true (fun v _ => merge_in_in integerTypeNode order p0 p1 merged v)
        (not_or.mpr ⟨notOuter p1, notOuter p0⟩)
    | false =>
      rw [or_iff_left (notInner p1)]
      exact merge_in_out integerTypeNode order p0 p1 lows highs merged
  | false =>
    cases p1 : range1.inP with
    | true =>
      rw [or_iff_right (notInner p0)]
      exact merge_out_in integerTypeNode order p0 p1 highs merged
    | false =>
      exact iff_of_true (merge_out_out integerTypeNode order p0 p1 merged)
        (not_or.mpr ⟨notInner p0, notInner p1⟩)

end Ordered

/-- The merged range is the intersection of the two ranges, unless an included
range reaches an end of the type that only the other, excluded range names. -/
theorem mergeRanges_iff {type : CstType} {range0 range1 range : Range}
    (proper0 : range0.Proper type) (proper1 : range1.Proper type)
    (merged : mergeRanges integerTypeNode range0 range1 = some range) :
    (∀ v, type.HasValue v → (range.Holds v ↔ range0.Holds v ∧ range1.Holds v)) ↔
      ¬ (Swallowed type range0 range1 ∨ Swallowed type range1 range0) := by
  have lows := equal_iff false proper0.low proper1.low
  have highs := equal_iff true proper0.high proper1.high
  have lowGT := lowerGT_iff proper0.low proper1.low
  have highGT := upperGT_iff proper1.high proper0.high
  rw [mergeRanges] at merged
  split at merged
  case isTrue swapped =>
      rw [Bool.or_eq_true, Bool.and_eq_true, lowGT, lows, highGT] at swapped
      have order : InOrder type range1 range0 := by
        refine ⟨proper1, proper0, ?_, fun same => ?_⟩
        · rcases swapped with later | ⟨same, _⟩
          · exact lowerLE_of_not later
          · exact lowerLE_of_eq same.symm
        · rcases swapped with later | ⟨_, longer⟩
          · exact absurd (lowerLE_of_eq same.symm) later
          · exact upperLE_of_not longer
      have intersection := mergeOrdered_iff integerTypeNode order (lows.trans eq_comm)
        (highs.trans eq_comm) merged
      rw [or_comm, ← intersection]
      exact forall₂_congr fun v _ => by rw [Intersects, and_comm]
  case isFalse ordered =>
      rw [Bool.or_eq_true, Bool.and_eq_true, lowGT, lows, highGT, not_or, not_not, not_and,
        not_not] at ordered
      exact mergeOrdered_iff integerTypeNode ⟨proper0, proper1, ordered.1, ordered.2⟩ lows highs
        merged

section Examples

/-- The type `int`. -/
def intType : CstType where
  unsigned := false
  precision := 32
  positive := by decide
  code := .integer
  typeMin := -2147483648
  typeMax := 2147483647
  modeBits := 32
  min_le := by decide
  le_max := by decide
  nonempty := by decide
  fits := by decide

def intCst (value : Int) : Option Cst := some { type := intType, value := value }

theorem ofType_intCst {value : Int} (contains : intType.toIntType.Contains value) :
    OfType intType (intCst value) := by
  rintro _ ⟨⟩
  exact ⟨rfl, contains⟩

theorem ofType_none (type : CstType) : OfType type none :=
  fun cst isSome => absurd isSome (Option.not_mem_none cst)

/-- `+ [-, 9]` without `- [3, 9]` is `+ [-, 2]`. -/
theorem mergeRanges_iff_int :
    mergeRanges intType { inP := true, low := none, high := intCst 9 }
        { inP := false, low := intCst 3, high := intCst 9 } =
      some { inP := true, low := none, high := intCst 2 } ∧
    ∀ v, intType.HasValue v →
      (Range.Holds { inP := true, low := none, high := intCst 2 } v ↔
        Range.Holds { inP := true, low := none, high := intCst 9 } v ∧
          Range.Holds { inP := false, low := intCst 3, high := intCst 9 } v) :=
  have merged : mergeRanges intType { inP := true, low := none, high := intCst 9 }
      { inP := false, low := intCst 3, high := intCst 9 } =
      some { inP := true, low := none, high := intCst 2 } := by decide
  ⟨merged, (mergeRanges_iff intType
    ⟨ofType_none _, ofType_intCst (by decide), by rintro ⟨_, _, _, ⟨⟩, _⟩⟩
    ⟨ofType_intCst (by decide), ofType_intCst (by decide), by
      rintro ⟨_, ⟨⟩, _, ⟨⟩, less⟩
      exact absurd less (by decide)⟩
    merged).mpr (by
      rintro (⟨_, _, ⟨⟨⟩, _⟩ | ⟨_, ⟨⟩, _⟩⟩ | ⟨⟨⟩, _⟩))⟩

/-- `x >= 5` and `x > INT_MAX` are `+ [5, -]` and `- [-, INT_MAX]`.  Nothing satisfies
both, but seven is in the merged range `+ [INT_MIN, -]`. -/
theorem mergeRanges_wraps :
    let range0 : Range := { inP := true, low := intCst 5, high := none }
    let range1 : Range := { inP := false, low := none, high := intCst 2147483647 }
    range0.Proper intType ∧ range1.Proper intType ∧
      ∃ range, mergeRanges intType range0 range1 = some range ∧ intType.HasValue 7 ∧
        range.Holds 7 ∧ ¬ (range0.Holds 7 ∧ range1.Holds 7) := by
  refine ⟨⟨ofType_intCst (by decide), ofType_none _, by rintro ⟨_, ⟨⟩, _⟩⟩,
    ⟨ofType_none _, ofType_intCst (by decide), by rintro ⟨_, _, _, ⟨⟩, _⟩⟩,
    { inP := true
      low := some { type := intType, value := -2147483648, overflow := true,
                    constantOverflow := true }
      high := none }, by decide, ⟨by decide, by decide⟩, ?_, ?_⟩
  · rw [Range.holds_in rfl]
    exact ⟨(above_some _ _).mpr (by decide), below_none 7⟩
  · rintro ⟨_, outside⟩
    rw [Range.holds_out rfl] at outside
    exact outside ⟨above_none 7, (below_some _ _).mpr (by decide)⟩

end Examples

end GccCil.Gcc.RangeTest
