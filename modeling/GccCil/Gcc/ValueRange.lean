import Mathlib.Algebra.Order.Floor.Ring
import Mathlib.Data.Rat.Floor
import GccCil.Lib.TwosComplement

/-!
# Value ranges of binary expressions

The part of `tree-vrp.c` that computes the value range of a binary expression
from the constant ranges of its operands, with the constant folding of
`fold-const.c` that it rests on.  Constants are integers; a folded constant
carries its `TREE_OVERFLOW` flag.
-/

namespace GccCil.Gcc.Vrp

open GccCil.Lib

structure IntType where
  unsigned : Bool
  precision : Nat
  positive : 0 < precision
  deriving DecidableEq

/-- `TYPE_MIN_VALUE`. -/
def IntType.minValue (type : IntType) : Int :=
  if type.unsigned then 0 else -2 ^ (type.precision - 1)

/-- `TYPE_MAX_VALUE`. -/
def IntType.maxValue (type : IntType) : Int :=
  if type.unsigned then 2 ^ type.precision - 1 else 2 ^ (type.precision - 1) - 1

def IntType.Contains (type : IntType) (value : Int) : Prop :=
  type.minValue ≤ value ∧ value ≤ type.maxValue

instance (type : IntType) (value : Int) : Decidable (type.Contains value) := by
  unfold IntType.Contains
  infer_instance

inductive ArithCode where
  | plus | minus | mult | truncDiv | floorDiv | ceilDiv | exactDiv | roundDiv | min | max
  deriving DecidableEq, Repr

inductive TruthCode where
  | andif | orif | and | or | xor
  deriving DecidableEq, Repr

inductive TreeCode where
  | arith (code : ArithCode)
  | truth (code : TruthCode)
  | other
  deriving DecidableEq, Repr

def ArithCode.isDiv : ArithCode → Bool
  | .truncDiv | .floorDiv | .ceilDiv | .exactDiv | .roundDiv => true
  | .plus | .minus | .mult | .min | .max => false

structure Cst where
  value : Int
  overflow : Bool
  deriving DecidableEq, Repr

section Folding

-- the bits of a `HOST_WIDE_INT`, of which a constant has two
variable (hostBits : Nat)

def signedDouble (x : Int) : Int := wrap false (2 * hostBits) x

def unsignedDouble (x : Int) : Int := wrap true (2 * hostBits) x

/-- The quotient of `div_and_round_double` for a divisor other than zero. -/
def divAndRoundDouble (uns : Bool) (code : ArithCode) (num den : Int) : Int :=
  let quo := num.tdiv den
  let rem := num.tmod den
  -- the sign of the ratio; unsigned operands have none
  let quoNeg : Bool := !uns && (decide (num < 0) != decide (den < 0))
  match code with
  | .floorDiv => if quoNeg = true ∧ rem ≠ 0 then quo - 1 else quo
  | .ceilDiv => if quoNeg = false ∧ rem ≠ 0 then quo + 1 else quo
  | .roundDiv =>
    let absRem := if signedDouble hostBits rem < 0 then -rem else rem
    let den := if uns then den else |den|
    let absDen := if signedDouble hostBits den < 0 then -den else den
    if unsignedDouble hostBits absDen < unsignedDouble hostBits (2 * absRem) then
      if signedDouble hostBits quo < 0 then quo - 1 else quo + 1
    else quo
  | _ => quo

/-- The operation of `int_const_binop` before its result is made to fit. -/
def foldValue (uns : Bool) (code : ArithCode) (x y : Int) : Int :=
  match code with
  | .plus => x + y
  | .minus => x - y
  | .mult => x * y
  | .min => if x < y then x else y
  | .max => if x < y then y else x
  | code => divAndRoundDouble hostBits uns code x (if y = 0 then 1 else y)

variable (type : IntType)

/-- `int_const_binop`, which makes its result fit the type.  Only signed
overflow is recorded. -/
def intConstBinop (code : ArithCode) (x y : Int) : Cst :=
  let value := foldValue hostBits type.unsigned code x y
  { value := wrap type.unsigned type.precision value
    overflow := !type.unsigned && (decide (¬ type.Contains value) || (code.isDiv && y == 0)) }

/-- `compare_values` on constants. -/
def compareValues (x y : Cst) : Int :=
  if x.overflow || y.overflow then -2
  else if x.value < y.value then -1
  else if x.value = y.value then 0
  else 1

def vrpIntConstBinop (wrapv : Bool) (code : ArithCode) (val1 val2 : Int) : Cst :=
  let res := intConstBinop hostBits type code val1 val2
  if wrapv then res
  else if type.unsigned then
    let checkz := compareValues res ⟨val1, false⟩
    if ((code = .plus ∨ code = .mult) ∧ ¬ (checkz = 1 ∨ checkz = 0)) ∨
        (code = .minus ∧ ¬ (checkz = 0 ∨ checkz = -1)) then { res with overflow := true }
    else res
  else if res.overflow then
    if (code = .mult ∧ val1.sign = val2.sign) ∨ (code = .plus ∧ 0 < val1.sign) ∨
        (code = .minus ∧ 0 ≤ val1.sign) ∨ code.isDiv = true then ⟨type.maxValue, false⟩
    else ⟨type.minValue, false⟩
  else res

end Folding

/-- A boolean operation on constants, as `fold_binary` folds it. -/
def foldTruth (code : TruthCode) (x y : Int) : Int :=
  match code with
  | .andif => if x = 0 then x else y
  | .and => if x ≠ 0 then y else if y ≠ 0 then x else y
  | .orif => if x ≠ 0 then x else y
  | .or => if x = 0 then y else if y = 0 then x else y
  -- the second operand is dropped or inverts the first
  | .xor => if y = 0 then x else if x = 0 then 1 else 0

inductive RangeKind where
  | range | antiRange
  deriving DecidableEq, Repr

/-- `value_range_t` with constant bounds. -/
inductive ValueRange where
  | undefined
  | varying
  | bounds (kind : RangeKind) (min max : Int)
  deriving DecidableEq, Repr

def ValueRange.Contains : ValueRange → Int → Prop
  | .undefined, _ => False
  | .varying, _ => True
  | .bounds .range min max, value => min ≤ value ∧ value ≤ max
  | .bounds .antiRange min max, value => value < min ∨ max < value

instance (range : ValueRange) (value : Int) : Decidable (range.Contains value) := by
  cases range with
  | undefined => exact inferInstanceAs (Decidable False)
  | varying => exact inferInstanceAs (Decidable True)
  | bounds kind min max =>
    cases kind with
    | range => exact inferInstanceAs (Decidable (min ≤ value ∧ value ≤ max))
    | antiRange => exact inferInstanceAs (Decidable (value < min ∨ max < value))

/-- `value_inside_range`, which does not look at the kind of the range. -/
def valueInsideRange (val min max : Int) : Int :=
  let cmp1 := compareValues ⟨val, false⟩ ⟨min, false⟩
  let cmp2 := compareValues ⟨val, false⟩ ⟨max, false⟩
  if cmp1 = -2 ∨ cmp1 = 2 then -2
  else if cmp2 = -2 ∨ cmp2 = 2 then -2
  else if (cmp1 = 0 ∨ cmp1 = 1) ∧ (cmp2 = -1 ∨ cmp2 = 0) then 1
  else 0

def rangeIncludesZeroP (min max : Int) : Prop := valueInsideRange 0 min max = 1

instance (min max : Int) : Decidable (rangeIncludesZeroP min max) := by
  unfold rangeIncludesZeroP
  infer_instance

def extremes : Cst → Cst → List Cst → Cst × Cst
  | min, max, [] => (min, max)
  | min, max, val :: rest =>
    if min.overflow || max.overflow then (min, max)
    else if val.overflow then (val, val)
    else extremes (if compareValues val min = -1 then val else min)
      (if compareValues val max = 1 then val else max) rest

def rangeOfBounds (kind : RangeKind) (min max : Cst) : ValueRange :=
  if min.overflow || max.overflow then .varying
  else if compareValues min max = -2 ∨ compareValues min max = 1 then .varying
  else .bounds kind min.value max.value

section Extract

variable (hostBits : Nat) (wrapv : Bool) (type : IntType)

/-- The range of an arithmetic expression whose operands have ranges of one kind. -/
def extractArith (code : ArithCode) (kind : RangeKind) (min0 max0 min1 max1 : Int) : ValueRange :=
  let binop := vrpIntConstBinop hostBits type wrapv code
  match code with
  | .plus =>
    if kind = .antiRange then .varying
    else rangeOfBounds kind (binop min0 min1) (binop max0 max1)
  | .min | .max => rangeOfBounds kind (binop min0 min1) (binop max0 max1)
  | .minus =>
    if kind = .antiRange then .varying
    else rangeOfBounds kind (binop min0 max1) (binop max0 min1)
  | code =>
    if code = .mult ∧ kind = .antiRange ∧ (wrapv || type.unsigned) = true then .varying
    else if code ≠ .mult ∧ (kind = .antiRange ∨ rangeIncludesZeroP min1 max1) then .varying
    else
      let val := [
        if max1 ≠ min1 then some (binop min0 max1) else none,
        if max0 ≠ min0 then some (binop max0 min1) else none,
        if min0 ≠ max0 ∧ min1 ≠ max1 then some (binop max0 max1) else none]
      let (min, max) := extremes (binop min0 min1) (binop min0 min1) (val.filterMap id)
      rangeOfBounds kind min max

/-- `extract_range_from_binary_expr` for an expression of integer type whose
operands have the ranges `vr0` and `vr1`. -/
def extractRangeFromBinaryExpr (code : TreeCode) (vr0 vr1 : ValueRange) : ValueRange :=
  if code = .other then .varying
  else match vr0, vr1 with
  | .undefined, _ | _, .undefined => .undefined
  | .varying, _ | _, .varying => .varying
  | .bounds kind0 min0 max0, .bounds kind1 min1 max1 =>
    if kind0 ≠ kind1 then .varying
    else match code with
    | .arith code => extractArith hostBits wrapv type code kind0 min0 max0 min1 max1
    | .truth code =>
      rangeOfBounds kind0 ⟨foldTruth code min0 min1, false⟩ ⟨foldTruth code max0 max1, false⟩
    | .other => .varying

end Extract

/-- The integer next to a ratio in the direction of a division code; a ratio
between two integers is rounded away from zero. -/
def roundRatio (code : ArithCode) (ratio : ℚ) : Int :=
  match code with
  | .floorDiv => ⌊ratio⌋
  | .ceilDiv => ⌈ratio⌉
  | .roundDiv => if 0 ≤ ratio then ⌊ratio + 1 / 2⌋ else ⌈ratio - 1 / 2⌉
  | _ => if 0 ≤ ratio then ⌊ratio⌋ else ⌈ratio⌉

def exactResult (code : ArithCode) (x y : Int) : Option Int :=
  match code with
  | .plus => some (x + y)
  | .minus => some (x - y)
  | .mult => some (x * y)
  | .min => some (min x y)
  | .max => some (max x y)
  | .exactDiv => if y ∣ x ∧ y ≠ 0 then some (x / y) else none
  | code => if y = 0 then none else some (roundRatio code ((x : ℚ) / y))

/-- The result of an operation on values of the type: unsigned types and, with
`-fwrapv`, signed ones wrap; else a result outside the type is undefined. -/
def opResult (wrapv : Bool) (type : IntType) (code : ArithCode) (x y : Int) : Option Int :=
  (exactResult code x y).bind fun value =>
    if (type.unsigned || wrapv) = true then some (wrap type.unsigned type.precision value)
    else if type.Contains value then some value
    else none

def truthResult (code : TruthCode) (x y : Int) : Int :=
  let result : Bool := match code with
    | .andif | .and => x ≠ 0 && y ≠ 0
    | .orif | .or => x ≠ 0 || y ≠ 0
    | .xor => (x ≠ 0) != (y ≠ 0)
  if result then 1 else 0

def exprResult (wrapv : Bool) (type : IntType) : TreeCode → Int → Int → Option Int
  | .arith code, x, y => opResult wrapv type code x y
  | .truth code, x, y => some (truthResult code x y)
  | .other, _, _ => none

/-- Every result for operands in their ranges is in the computed range. -/
def RangeSound (hostBits : Nat) (wrapv : Bool) (type : IntType) (code : TreeCode)
    (vr0 vr1 : ValueRange) : Prop :=
  ∀ x y result, type.Contains x → type.Contains y → vr0.Contains x → vr1.Contains y →
    exprResult wrapv type code x y = some result →
    (extractRangeFromBinaryExpr hostBits wrapv type code vr0 vr1).Contains result

end GccCil.Gcc.Vrp
