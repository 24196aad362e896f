import Mathlib.Data.BitVec

/-!
# Preprocessor numbers

A `cpp_num` has two parts of `part` bits, the width of `HOST_WIDE_INT`, of
which `precision` bits are in use.  This file has the arithmetic of `expr.c` on
them.
-/

namespace GccCil.Libcpp

/-- The operators of `optab`, in its order. -/
inductive Op where
  | eq
  | not
  | greater
  | less
  | plus
  | minus
  | mult
  | div
  | mod
  | and
  | or
  | xor
  | rshift
  | lshift
  | min
  | max
  | compl
  | andAnd
  | orOr
  | query
  | colon
  | comma
  | openParen
  | closeParen
  | eof
  | eqEq
  | notEq
  | greaterEq
  | lessEq
  | uplus
  | uminus
  deriving DecidableEq, Repr

structure CppNum (part : Nat) where
  high : BitVec part
  low : BitVec part
  unsignedp : Bool
  overflow : Bool
  deriving DecidableEq, Repr

section

variable {part : Nat}

def numZerop (num : CppNum part) : Bool := (num.low ||| num.high) == 0

def numEq (num1 num2 : CppNum part) : Bool := num1.low == num2.low && num1.high == num2.high

/-- The low `count` bits set. -/
def lowMask (part count : Nat) : BitVec part := (1 <<< count) - 1

def numTrim (num : CppNum part) (precision : Nat) : CppNum part :=
  if precision > part then
    if precision - part < part then
      { num with high := num.high &&& lowMask part (precision - part) }
    else num
  else if precision < part then
    { num with low := num.low &&& lowMask part precision, high := 0 }
  else { num with high := 0 }

def numPositive (num : CppNum part) (precision : Nat) : Bool :=
  if precision > part then (num.high &&& (1 <<< (precision - part - 1))) == 0
  else (num.low &&& (1 <<< (precision - 1))) == 0

def numNegate (num : CppNum part) (precision : Nat) : CppNum part :=
  let low := ~~~num.low + 1
  let high := if low == 0 then ~~~num.high + 1 else ~~~num.high
  let negated := numTrim { num with high := high, low := low } precision
  { negated with
    overflow := !negated.unsignedp && numEq negated num && !numZerop negated }

def numGreaterEq (pa pb : CppNum part) (precision : Nat) : Bool :=
  let magnitude := pb.high.ult pa.high || (pa.high == pb.high && pb.low.ule pa.low)
  if pa.unsignedp || pb.unsignedp then magnitude
  else if numPositive pa precision != numPositive pb precision then numPositive pa precision
  else magnitude

def numBitwiseOp (lhs rhs : CppNum part) (op : Op) : CppNum part :=
  let unsignedp := lhs.unsignedp || rhs.unsignedp
  if op = .and then ⟨lhs.high &&& rhs.high, lhs.low &&& rhs.low, unsignedp, false⟩
  else if op = .or then ⟨lhs.high ||| rhs.high, lhs.low ||| rhs.low, unsignedp, false⟩
  else ⟨lhs.high ^^^ rhs.high, lhs.low ^^^ rhs.low, unsignedp, false⟩

def numOfBool (part : Nat) (value : Bool) : CppNum part :=
  ⟨0, if value then 1 else 0, false, false⟩

def numInequalityOp (lhs rhs : CppNum part) (op : Op) (precision : Nat) : CppNum part :=
  let gte := numGreaterEq lhs rhs precision
  if op = .greaterEq then numOfBool part gte
  else if op = .less then numOfBool part (!gte)
  else if op = .greater then numOfBool part (gte && !numEq lhs rhs)
  else numOfBool part (!gte || numEq lhs rhs)

def numEqualityOp (lhs rhs : CppNum part) (op : Op) : CppNum part :=
  numOfBool part (if op = .notEq then !numEq lhs rhs else numEq lhs rhs)

/-- The sign extension at the start of `num_rshift`. -/
def rshiftExtend (num : CppNum part) (precision : Nat) (signMask : BitVec part) : CppNum part :=
  if precision < part then
    { num with high := signMask, low := num.low ||| signMask <<< precision }
  else if precision < 2 * part then
    { num with high := num.high ||| signMask <<< (precision - part) }
  else num

def numRshift (num : CppNum part) (precision n : Nat) : CppNum part :=
  let signMask : BitVec part := if num.unsignedp || numPositive num precision then 0 else ~~~0
  let shifted :=
    if n ≥ precision then { num with high := signMask, low := signMask }
    else
      let num := rshiftExtend num precision signMask
      let (num, n) := if n ≥ part then ({ num with low := num.high, high := signMask }, n - part)
        else (num, n)
      if n ≠ 0 then
        { num with
          low := num.low >>> n ||| num.high <<< (part - n)
          high := num.high >>> n ||| signMask <<< (part - n) }
      else num
  { numTrim shifted precision with overflow := false }

def numLshift (num : CppNum part) (precision n : Nat) : CppNum part :=
  if n ≥ precision then
    { num with overflow := !num.unsignedp && !numZerop num, high := 0, low := 0 }
  else
    let (moved, m) := if n ≥ part then ({ num with high := num.low, low := 0 }, n - part)
      else (num, n)
    let moved := if m ≠ 0 then
        { moved with
          high := moved.high <<< m ||| moved.low >>> (part - m)
          low := moved.low <<< m }
      else moved
    let moved := numTrim moved precision
    if moved.unsignedp then { moved with overflow := false }
    else { moved with overflow := !numEq num (numRshift moved precision n) }

def numUnaryOp (num : CppNum part) (op : Op) (precision : Nat) : CppNum part :=
  match op with
  | .uplus => { num with overflow := false }
  | .uminus => numNegate num precision
  | .compl =>
    { numTrim { num with high := ~~~num.high, low := ~~~num.low } precision with
      overflow := false }
  | _ => numOfBool part (numZerop num)

/-- The addition of `num_binary_op`. -/
def numPlus (lhs rhs : CppNum part) (precision : Nat) : CppNum part :=
  let low := lhs.low + rhs.low
  let high := if low.ult lhs.low then lhs.high + rhs.high + 1 else lhs.high + rhs.high
  let result := numTrim ⟨high, low, lhs.unsignedp || rhs.unsignedp, false⟩ precision
  if result.unsignedp then result
  else
    let lhsp := numPositive lhs precision
    { result with
      overflow := lhsp == numPositive rhs precision && lhsp != numPositive result precision }

/-- The shifts of `num_binary_op`: a negative shift is one the other way. -/
def numShift (lhs rhs : CppNum part) (left : Bool) (precision : Nat) : CppNum part :=
  let negative := !rhs.unsignedp && !numPositive rhs precision
  let count := if negative then numNegate rhs precision else rhs
  let n := if count.high != 0 then 2 ^ part - 1 else count.low.toNat
  if left != negative then numLshift lhs precision n else numRshift lhs precision n

def numBinaryOp (lhs rhs : CppNum part) (op : Op) (precision : Nat) : CppNum part :=
  match op with
  | .lshift => numShift lhs rhs true precision
  | .rshift => numShift lhs rhs false precision
  | .min =>
    { (if numGreaterEq lhs rhs precision then rhs else lhs) with
      unsignedp := lhs.unsignedp || rhs.unsignedp }
  | .max =>
    { (if numGreaterEq lhs rhs precision then lhs else rhs) with
      unsignedp := lhs.unsignedp || rhs.unsignedp }
  | .minus => numPlus lhs (numNegate rhs precision) precision
  | .plus => numPlus lhs rhs precision
  | _ => rhs

/-- `LOW_PART` and `HIGH_PART`. -/
def lowPart (num : BitVec part) : BitVec part := num &&& ((~~~0 : BitVec part) >>> (part / 2))

def highPart (num : BitVec part) : BitVec part := num >>> (part / 2)

def numPartMul (lhs rhs : BitVec part) : CppNum part :=
  let low := lowPart lhs * lowPart rhs
  let high := highPart lhs * highPart rhs
  let middle0 := lowPart lhs * highPart rhs
  let middle1 := highPart lhs * lowPart rhs
  let low0 := low + lowPart middle0 <<< (part / 2)
  let high := if low0.ult low then high + 1 else high
  let low1 := low0 + lowPart middle1 <<< (part / 2)
  let high := if low1.ult low0 then high + 1 else high
  ⟨high + highPart middle0 + highPart middle1, low1, true, false⟩

def numMagnitude (num : CppNum part) (unsignedp : Bool) (precision : Nat) : CppNum part × Bool :=
  if !unsignedp && !numPositive num precision then (numNegate num precision, true)
  else (num, false)

def numMul (lhs rhs : CppNum part) (precision : Nat) : CppNum part :=
  let unsignedp := lhs.unsignedp || rhs.unsignedp
  let (lhs, lhsNegative) := numMagnitude lhs unsignedp precision
  let (rhs, rhsNegative) := numMagnitude rhs unsignedp precision
  let negate := lhsNegative != rhsNegative
  let product := numPartMul lhs.low rhs.low
  let cross0 := numPartMul lhs.high rhs.low
  let cross1 := numPartMul lhs.low rhs.high
  let whole := { product with high := product.high + cross0.low + cross1.low }
  let result := numTrim whole precision
  let overflow := (lhs.high != 0 && rhs.high != 0) || cross0.high != 0 || cross1.high != 0 ||
    !numEq result whole
  let result := if negate then numNegate result precision else result
  { result with
    overflow := !unsignedp && (overflow ||
      ((numPositive result precision != !negate) && !numZerop result))
    unsignedp := unsignedp }

/-- The loop that looks for the highest set bit of a part, from bit `i` down.
It does not end when there is none. -/
def findHighBit (rhs : BitVec part) : Nat → Option Nat
  | 0 => if rhs.getLsbD 0 then some 0 else none
  | i + 1 => if rhs.getLsbD (i + 1) then some (i + 1) else findHighBit rhs i

/-- The division loop: `sub` is the divisor shifted left by `i`. -/
def divideLoop (precision : Nat) : Nat → CppNum part → CppNum part → CppNum part →
    CppNum part × CppNum part
  | i, lhs, sub, result =>
    let (lhs, result) := if numGreaterEq lhs sub precision then
        (numBinaryOp lhs sub .minus precision,
          if i ≥ part then { result with high := result.high ||| 1 <<< (i - part) }
          else { result with low := result.low ||| 1 <<< i })
      else (lhs, result)
    match i with
    | 0 => (lhs, result)
    | i + 1 =>
      divideLoop precision i lhs
        { sub with
          low := sub.low >>> 1 ||| sub.high <<< (part - 1)
          high := sub.high >>> 1 }
        result

/-- `num_div_op`; `none` where it does not end. -/
def numDivOp (lhs rhs : CppNum part) (op : Op) (precision : Nat) : Option (CppNum part) :=
  let unsignedp := lhs.unsignedp || rhs.unsignedp
  let (lhs, lhsNeg) := numMagnitude lhs unsignedp precision
  let (rhs, rhsNeg) := numMagnitude rhs unsignedp precision
  let negate := lhsNeg != rhsNeg
  if rhs.high == 0 && rhs.low == 0 then some lhs
  else do
    let i ← if rhs.high != 0 then
        (findHighBit rhs.high (precision - 1 - part)).map (· + part)
      else findHighBit rhs.low (if precision > part then precision - part - 1 else precision - 1)
    let rhs := { rhs with unsignedp := true }
    let lhs := { lhs with unsignedp := true }
    let i := precision - i - 1
    let sub := numLshift rhs precision i
    let (lhs, result) := divideLoop precision i lhs sub ⟨0, 0, unsignedp, false⟩
    if op = .div then
      let result := if !unsignedp && negate then numNegate result precision else result
      return { result with
        overflow := !unsignedp && (numPositive result precision != !negate) }
    else
      let lhs := { lhs with unsignedp := unsignedp, overflow := false }
      return if lhsNeg then numNegate lhs precision else lhs

end

end GccCil.Libcpp
