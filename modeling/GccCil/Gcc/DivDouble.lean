import GccCil.Gcc.MulDouble

/-!
# Division of two-word integers

`div_and_round_double` of `fold-const.c`.  The magnitudes are divided digit by
digit over half words, with a short division for a divisor of one digit and a
long division, normalized and estimated from the leading digits, for the rest.
The quotient then gets its sign and is rounded by the remainder that is left.
-/

namespace GccCil.Gcc.FoldConst

open GccCil.Lib DoubleInt

inductive DivCode where
  | truncDiv | truncMod | floorDiv | floorMod | ceilDiv | ceilMod | roundDiv | roundMod | exactDiv
  deriving DecidableEq, Repr

variable {half : Nat}

/-- The quotient digits and the remainder after the first `count` steps of the
division by a divisor of one digit, highest digit first. -/
def shortDivide (num : Digits half) (lden : BitVec (2 * half)) :
    Nat → Digits half × BitVec (2 * half)
  | 0 => (fun _ => 0#_, 0#_)
  | count + 1 =>
    let state := shortDivide num lden count
    let i := 3 - count
    let work := num i + state.2 * base half
    (Function.update state.1 i (work / lden), work % lden)

/-- The highest nonzero digit of the divisor, from digit `i` down. -/
def denHiSig (den : Digits half) : Nat → Nat
  | 0 => 0
  | i + 1 => if den (i + 1) ≠ 0#_ then i + 1 else denHiSig den i

def scaleStep (scale : BitVec (2 * half)) (_ : Nat) (digit carry : BitVec (2 * half)) :
    BitVec (2 * half) × BitVec (2 * half) :=
  let work := digit * scale + carry
  (lowpart work, highpart work)

/-- One step of the subtraction of `quo_est` times the divisor.  The borrow is
added to the carry of the product. -/
def subtractStep (quoEst : BitVec (2 * half)) (den : Digits half) (j : Nat)
    (num carry : BitVec (2 * half)) : BitVec (2 * half) × BitVec (2 * half) :=
  let product := quoEst * den j + carry
  let work := num - lowpart product
  (lowpart work, highpart product + if highpart work ≠ 0#_ then 1#_ else 0#_)

def addBackStep (den : Digits half) (j : Nat) (num carry : BitVec (2 * half)) :
    BitVec (2 * half) × BitVec (2 * half) :=
  let work := num + den j + carry
  (lowpart work, highpart work)

def estimate (num den : Digits half) (numHiSig hiSig : Nat) : BitVec (2 * half) :=
  let work := num numHiSig * base half + num (numHiSig - 1)
  let quoEst := if num numHiSig ≠ den hiSig then work / den hiSig else base half - 1#_
  let tmp := work - quoEst * den hiSig
  if tmp < base half ∧ tmp * base half + num (numHiSig - 2) < den (hiSig - 1) * quoEst then
    quoEst - 1#_
  else quoEst

/-- One round of the main loop: the remaining dividend and the digit `i` of the
quotient. -/
def divideDigit (den : Digits half) (hiSig i : Nat) (num : Digits half) :
    Digits half × BitVec (2 * half) :=
  let numHiSig := i + hiSig + 1
  let quoEst := estimate num den numHiSig hiSig
  let (num, carry) := carryPass (subtractStep quoEst den) i num 0#_ (hiSig + 1)
  if (num numHiSig).slt carry then
    let (num, carry) := carryPass (addBackStep den) i num 0#_ (hiSig + 1)
    (Function.update num numHiSig (num numHiSig + carry), quoEst - 1#_)
  else (num, quoEst)

/-- The main loop, for the quotient digits below `count`. -/
def divideLoop (den : Digits half) (hiSig : Nat) : Nat → Digits half → Digits half → Digits half
  | 0, _, quo => quo
  | i + 1, num, quo =>
    let (num, quoEst) := divideDigit den hiSig i num
    divideLoop den hiSig i num (Function.update quo i quoEst)

def longDivide (num den : Digits half) : Digits half :=
  let hiSig := denHiSig den 3
  let scale := base half / (den hiSig + 1#_)
  if 1#_ < scale then
    let (num, carry) := carryPass (scaleStep scale) 0 num 0#_ 4
    let num := Function.update num 4 carry
    let den := (carryPass (scaleStep scale) 0 den 0#_ 4).1
    let hiSig := (List.range 4).foldl (fun hiSig i => if den i ≠ 0#_ then i else hiSig) hiSig
    divideLoop den hiSig (4 - hiSig) num fun _ => 0#_
  else divideLoop den hiSig (4 - hiSig) num fun _ => 0#_

def divideMagnitudes (num den : DoubleInt (2 * half)) : DoubleInt (2 * half) :=
  if num.high = 0#_ ∧ den.high = 0#_ then
    -- single precision
    { low := num.low / den.low, high := 0#_ }
  else if num.high = 0#_ then
    -- trivial case: dividend < divisor
    { low := 0#_, high := 0#_ }
  else if den.high = 0#_ ∧ den.low < base half then
    decode (shortDivide (encode num) den.low 4).1
  else decode (longDivide (encode num) (encode den))

structure Division (w : Nat) where
  quo : DoubleInt w
  rem : DoubleInt w
  overflow : Bool
  deriving DecidableEq, Repr

/-- `num - quo * den`. -/
def remainder (num quo den : DoubleInt (2 * half)) : DoubleInt (2 * half) :=
  (addDouble num (negDouble (mulDouble quo den).1).1).1

/-- The test of `ROUND_DIV_EXPR`: whether the divisor is less than twice the
remainder, both as magnitudes. -/
def roundsAway (rem den : DoubleInt (2 * half)) : Bool :=
  let absRem := if rem.high.slt 0#_ then (negDouble rem).1 else rem
  let absDen := if den.high.slt 0#_ then (negDouble den).1 else den
  let twice := (mulDouble { low := 2#_, high := 0#_ } absRem).1
  absDen.high < twice.high ∨ absDen.high = twice.high ∧ absDen.low < twice.low

/-- `quo - 1`. -/
def stepDown (quo : DoubleInt (2 * half)) : DoubleInt (2 * half) :=
  (addDouble quo { low := -1#_, high := -1#_ }).1

/-- `quo + 1`. -/
def stepUp (quo : DoubleInt (2 * half)) : DoubleInt (2 * half) :=
  (addDouble quo { low := 1#_, high := 0#_ }).1

/-- The quotient moved as the code says, if it has to move; `den` is the
divisor without its sign. -/
def roundQuotient (code : DivCode) (quoNeg : Bool) (quo rem den : DoubleInt (2 * half)) :
    Option (DoubleInt (2 * half)) :=
  let exact := rem.low = 0#_ ∧ rem.high = 0#_
  match code with
  | .truncDiv | .truncMod | .exactDiv => none
  | .floorDiv | .floorMod => if quoNeg ∧ ¬ exact then some (stepDown quo) else none
  | .ceilDiv | .ceilMod => if !quoNeg ∧ ¬ exact then some (stepUp quo) else none
  | .roundDiv | .roundMod =>
    if roundsAway rem den then
      some (if quo.high.slt 0#_ then stepDown quo else stepUp quo)
    else none

def divAndRoundDouble (code : DivCode) (uns : Bool) (numOrig denOrig : DoubleInt (2 * half)) :
    Division (2 * half) :=
  let zero : Bool := denOrig.high = 0#_ ∧ denOrig.low = 0#_
  let den := if zero then { denOrig with low := 1#_ } else denOrig
  let numNeg := !uns && numOrig.high.slt 0#_
  let denNeg := !uns && den.high.slt 0#_
  let overflow := zero ||
    numNeg && (negDouble numOrig).2 && (den.low &&& den.high == BitVec.allOnes _)
  let quoNeg := numNeg != denNeg
  let num := if numNeg then (negDouble numOrig).1 else numOrig
  let den := if denNeg then (negDouble den).1 else den
  let quo := divideMagnitudes num den
  let quo := if quoNeg then (negDouble quo).1 else quo
  let rem := remainder numOrig quo denOrig
  match roundQuotient code quoNeg quo rem den with
  | none => { quo := quo, rem := rem, overflow := overflow }
  | some quo => { quo := quo, rem := remainder numOrig quo denOrig, overflow := overflow }

end GccCil.Gcc.FoldConst
