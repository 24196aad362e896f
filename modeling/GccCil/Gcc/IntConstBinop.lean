import GccCil.Gcc.DivisionRounding
import GccCil.Gcc.ShiftDouble

/-!
# Folding of integer constants

`int_const_binop` and `force_fit_type` of `fold-const.c`.  The divisions have
shortcuts for operands of one word, for the divisor one and for equal operands.
They are compared here with the division of two words that they stand for: only
the remainder of `CEIL_MOD_EXPR` differs.
-/

namespace GccCil.Gcc.FoldConst

open GccCil.Lib DoubleInt

variable {w half : Nat}

structure CstType where
  precision : Nat
  unsigned : Bool
  sizetype : Bool
  positive : 0 < precision

theorem CstType.eq_iff {type other : CstType} : type = other ↔
    type.precision = other.precision ∧ type.unsigned = other.unsigned ∧
      type.sizetype = other.sizetype := by
  cases type
  cases other
  simp

instance : DecidableEq CstType := fun _ _ => decidable_of_iff' _ CstType.eq_iff

/-- An `INTEGER_CST`. -/
structure IntCst (w : Nat) where
  type : CstType
  int : DoubleInt w
  overflow : Bool := false
  constantOverflow : Bool := false
  deriving DecidableEq

def CstType.signExtended (type : CstType) : Bool := !type.unsigned || type.sizetype

def clearBeyond (prec : Nat) (x : DoubleInt w) : DoubleInt w :=
  if 2 * w ≤ prec then x
  else if w < prec then
    { x with high := x.high &&& ~~~(BitVec.allOnes w <<< (prec - w)) }
  else
    { low := if prec < w then x.low &&& ~~~(BitVec.allOnes w <<< prec) else x.low, high := 0#w }

def extendSign (prec : Nat) (x : DoubleInt w) : DoubleInt w :=
  if 2 * w ≤ prec then x
  else if w < prec then
    if x.high &&& (1#w <<< (prec - w - 1)) ≠ 0#w then
      { x with high := x.high ||| (BitVec.allOnes w <<< (prec - w)) }
    else x
  else if prec = w then
    if x.low.slt 0#w then { x with high := BitVec.allOnes w } else x
  else if x.low &&& (1#w <<< (prec - 1)) ≠ 0#w then
    { low := x.low ||| (BitVec.allOnes w <<< prec), high := BitVec.allOnes w }
  else x

def fitBits (type : CstType) (x : DoubleInt w) : DoubleInt w :=
  if type.signExtended then extendSign type.precision (clearBeyond type.precision x)
  else clearBeyond type.precision x

def forceFitType (t : IntCst w) (overflowable : Int) (overflowed overflowedConst : Bool) :
    IntCst w :=
  let int := fitBits t.type t.int
  if overflowed || overflowedConst || int != t.int then
    -- `build_int_cst_wide` sets no flags
    if overflowed || decide (overflowable < 0) ||
        (decide (0 < overflowable) && t.type.signExtended) then
      { type := t.type, int := int, overflow := true, constantOverflow := true }
    else { type := t.type, int := int, constantOverflow := overflowedConst }
  else t

inductive BinopCode where
  | bitIor | bitXor | bitAnd | rshift | lshift | rrotate | lrotate | plus | minus | mult
  | division (code : DivCode) | min | max
  deriving DecidableEq

/-- The guard of the shortcut for a common special case: a positive divisor and
a nonnegative dividend of one word. -/
def oneWord (arg1 arg2 : IntCst w) : Bool :=
  arg2.int.high == 0#w && (0#w).slt arg2.int.low && !arg1.constantOverflow &&
    !arg2.constantOverflow && arg1.int.high == 0#w && (0#w).sle arg1.int.low

def generalDivision (code : DivCode) (uns : Bool) (arg1 arg2 : IntCst (2 * half)) :
    DoubleInt (2 * half) × Bool :=
  let division := divAndRoundDouble code uns arg1.int arg2.int
  match code with
  | .truncDiv | .floorDiv | .ceilDiv | .roundDiv | .exactDiv => (division.quo, division.overflow)
  | .truncMod | .floorMod | .ceilMod | .roundMod => (division.rem, division.overflow)

/-- The case of `ROUND_DIV_EXPR`, into which the other divisions fall through. -/
def divisionCase (code : DivCode) (uns : Bool) (arg1 arg2 : IntCst (2 * half)) :
    DoubleInt (2 * half) × Bool :=
  if arg2.int.high = 0#_ ∧ arg2.int.low = 1#_ then (arg1.int, false)
  else if arg1.int.low = arg2.int.low ∧ arg1.int.high = arg2.int.high ∧
      ¬ (arg1.int.low = 0#_ ∧ arg1.int.high = 0#_) then ({ low := 1#_, high := 0#_ }, false)
  else generalDivision code uns arg1 arg2

/-- The division and modulus cases of `int_const_binop`. -/
def foldDivision (code : DivCode) (uns : Bool) (arg1 arg2 : IntCst (2 * half)) :
    DoubleInt (2 * half) × Bool :=
  let int1l := arg1.int.low
  let int2l := arg2.int.low
  match code with
  | .truncDiv | .floorDiv | .ceilDiv | .exactDiv =>
    if oneWord arg1 arg2 then
      let int1l := if code = .ceilDiv then int1l + (int2l - 1#_) else int1l
      ({ low := int1l / int2l, high := 0#_ }, false)
    else divisionCase code uns arg1 arg2
  | .roundDiv => divisionCase code uns arg1 arg2
  | .truncMod | .floorMod | .ceilMod =>
    if oneWord arg1 arg2 then
      let int1l := if code = .ceilMod then int1l + (int2l - 1#_) else int1l
      ({ low := int1l % int2l, high := 0#_ }, false)
    else generalDivision code uns arg1 arg2
  | .roundMod => generalDivision code uns arg1 arg2

def lessDouble (uns : Bool) (x y : DoubleInt w) : Bool :=
  if uns then x.high < y.high || x.high == y.high && x.low < y.low
  else x.high.slt y.high || x.high == y.high && x.low < y.low

/-- The switch of `int_const_binop`.  `truncated` is `SHIFT_COUNT_TRUNCATED`,
and `wide` whether `HOST_WIDE_INT` is wider than `unsigned int`. -/
def foldBinop (truncated wide : Bool) (code : BinopCode) (arg1 arg2 : IntCst (2 * half)) :
    DoubleInt (2 * half) × Bool :=
  let x := arg1.int
  let y := arg2.int
  let uns := arg1.type.unsigned
  let prec := arg1.type.precision
  match code with
  | .bitIor => ({ low := x.low ||| y.low, high := x.high ||| y.high }, false)
  | .bitXor => ({ low := x.low ^^^ y.low, high := x.high ^^^ y.high }, false)
  | .bitAnd => ({ low := x.low &&& y.low, high := x.high &&& y.high }, false)
  | .rshift => (lshiftDouble truncated x (-y.low).toInt prec (!uns), false)
  | .lshift => (lshiftDouble truncated x y.low.toInt prec (!uns), false)
  | .rrotate => (lrotateDouble truncated wide x (-y.low).toInt prec, false)
  | .lrotate => (lrotateDouble truncated wide x y.low.toInt prec, false)
  | .plus => addDouble x y
  | .minus =>
    let difference := (addDouble x (negDouble y).1).1
    (difference, overflowSumSign difference.high y.high x.high)
  | .mult => mulDouble x y
  | .division code => foldDivision code uns arg1 arg2
  | .min => (if lessDouble uns x y then x else y, false)
  | .max => (if lessDouble uns x y then y else x, false)

/-- The constant that `int_const_binop` builds at its end. -/
def finishBinop (arg1 arg2 : IntCst w) (notrunc : Bool) (folded : DoubleInt w × Bool) : IntCst w :=
  let type := arg1.type
  let overflow := type.signExtended && folded.2 || arg1.overflow || arg2.overflow
  let constantOverflow := arg1.constantOverflow || arg2.constantOverflow
  let t : IntCst w := { type := type, int := folded.1 }
  if notrunc then
    if overflow then { t with overflow := true, constantOverflow := true }
    else { t with constantOverflow := constantOverflow }
  else forceFitType t 1 overflow constantOverflow

def intConstBinop (truncated wide : Bool) (code : BinopCode) (arg1 arg2 : IntCst (2 * half))
    (notrunc : Bool) : IntCst (2 * half) :=
  finishBinop arg1 arg2 notrunc (foldBinop truncated wide code arg1 arg2)

theorem bit_clearBeyond (prec : Nat) (x : DoubleInt w) {i : Nat} (inside : i < 2 * w) :
    bit (clearBeyond prec x) i = (decide (i < prec) && bit x i) := by
  have cleared (word : BitVec w) (bits : Nat) {j : Nat} (inWord : j < w) :
      (word &&& ~~~(BitVec.allOnes w <<< bits)).getLsbD j =
        (decide (j < bits) && word.getLsbD j) := by
    by_cases below : j < bits
    · simp [below, inWord]
    · simp [below, inWord]
  rw [clearBeyond]
  by_cases long : 2 * w ≤ prec
  · rw [if_pos long, decide_eq_true (by omega), Bool.true_and]
  rw [if_neg long]
  by_cases high : w < prec
  · rw [if_pos high, bit, bit]
    by_cases low : i < w
    · rw [if_pos low, if_pos low, decide_eq_true (by omega), Bool.true_and]
    · rw [if_neg low, if_neg low, cleared _ _ (by omega)]
      simp only [show i - w < prec - w ↔ i < prec by omega]
  · rw [if_neg high, bit, bit]
    by_cases low : i < w
    · rw [if_pos low, if_pos low]
      split
      · exact cleared _ _ low
      · rw [decide_eq_true (by omega), Bool.true_and]
    · rw [if_neg low, decide_eq_false (by omega), Bool.false_and]
      exact BitVec.getLsbD_zero

theorem bit_extendSign (prec : Nat) (positive : 0 < prec) (x : DoubleInt w) {i : Nat}
    (inside : i < 2 * w) :
    bit (extendSign prec x) i = (bit x i || decide (prec ≤ i) && bit x (prec - 1)) := by
  have filled (word : BitVec w) (bits : Nat) {j : Nat} (inWord : j < w) :
      (word ||| (BitVec.allOnes w <<< bits)).getLsbD j =
        (word.getLsbD j || decide (bits ≤ j)) := by
    by_cases below : j < bits
    · simp [below, inWord]
    · simp [below, inWord, Nat.le_of_not_lt below]
  rw [extendSign]
  by_cases long : 2 * w ≤ prec
  · rw [if_pos long, decide_eq_false (by omega), Bool.false_and, Bool.or_false]
  rw [if_neg long]
  by_cases high : w < prec
  · rw [if_pos high]
    have sign : bit x (prec - 1) = x.high.getLsbD (prec - w - 1) := by
      rw [bit, if_neg (by omega)]
      congr 1
      omega
    rw [sign]
    split
    case isTrue set =>
      rw [(testBit_iff x.high (by omega)).mp set, Bool.and_true, bit, bit]
      by_cases low : i < w
      · rw [if_pos low, if_pos low, decide_eq_false (by omega), Bool.or_false]
      · rw [if_neg low, if_neg low, filled _ _ (by omega)]
        simp only [show prec - w ≤ i - w ↔ prec ≤ i by omega]
    case isFalse clear =>
      rw [testBit_iff x.high (by omega), Bool.not_eq_true] at clear
      rw [clear, Bool.and_false, Bool.or_false]
  · rw [if_neg high]
    have sign : bit x (prec - 1) = x.low.getLsbD (prec - 1) := by rw [bit, if_pos (by omega)]
    rw [sign]
    by_cases word : prec = w
    · subst word
      rw [if_pos rfl, BitVec.slt_zero_eq_msb, BitVec.msb_eq_getLsbD_last]
      cases x.low.getLsbD (prec - 1) with
      | true =>
        rw [if_pos rfl, Bool.and_true, bit, bit]
        by_cases low : i < prec
        · rw [if_pos low, if_pos low, decide_eq_false (by omega), Bool.or_false]
        · rw [if_neg low, if_neg low, decide_eq_true (by omega), Bool.or_true]
          exact BitVec.getLsbD_allOnes ▸ decide_eq_true (by omega)
      | false => rw [if_neg Bool.false_ne_true, Bool.and_false, Bool.or_false]
    · rw [if_neg word]
      split
      case isTrue set =>
        rw [(testBit_iff x.low (by omega)).mp set, Bool.and_true, bit, bit]
        by_cases low : i < w
        · rw [if_pos low, if_pos low, filled _ _ low]
        · rw [if_neg low, if_neg low, decide_eq_true (by omega), Bool.or_true]
          exact BitVec.getLsbD_allOnes ▸ decide_eq_true (by omega)
      case isFalse clear =>
        rw [testBit_iff x.low (by omega), Bool.not_eq_true] at clear
        rw [clear, Bool.and_false, Bool.or_false]

theorem bit_fitBits (type : CstType) (x : DoubleInt w) {i : Nat} (inside : i < 2 * w) :
    bit (fitBits type x) i =
      if i < type.precision then bit x i
      else type.signExtended && bit x (type.precision - 1) := by
  have positive := type.positive
  rw [fitBits]
  cases type.signExtended with
  | true =>
    rw [if_pos rfl, bit_extendSign _ positive _ inside, bit_clearBeyond _ _ inside]
    by_cases within : i < type.precision
    · simp [within, Nat.not_le_of_lt within]
    · rw [bit_clearBeyond _ _ (by omega)]
      simp [within, Nat.le_of_not_lt within, positive]
  | false =>
    rw [if_neg Bool.false_ne_true, bit_clearBeyond _ _ inside]
    by_cases within : i < type.precision <;> simp [within]

theorem fitBits_eq (type : CstType) (x : DoubleInt w) :
    fitBits type x = ofInt w (wrap (!type.signExtended) type.precision x.toNat) := by
  have positive := type.positive
  let v := BitVec.ofNat type.precision x.toNat
  have bits (i : Nat) : v.getLsbD i = (decide (i < type.precision) && bit x i) := by
    rw [BitVec.getLsbD_ofNat, testBit_toNat]
  have stored : ofInt w (wrap (!type.signExtended) type.precision x.toNat) =
      if type.signExtended then signExtended w v else zeroExtended w v := by
    cases type.signExtended with
    | true => exact congrArg (ofInt w) (BitVec.toInt_ofNat' x.toNat).symm
    | false => exact congrArg (ofInt w) (congrArg Nat.cast (BitVec.toNat_ofNat x.toNat _)).symm
  rw [stored]
  apply eq_of_bit_eq
  intro i inside
  rw [bit_fitBits _ _ inside]
  cases type.signExtended with
  | true =>
    rw [if_pos rfl, bit_signExtended _ inside, BitVec.msb_eq_getLsbD_last, bits, bits]
    by_cases within : i < type.precision <;> simp [within, positive]
  | false =>
    rw [if_neg Bool.false_ne_true, bit_zeroExtended _ inside, bits]
    by_cases within : i < type.precision <;> simp [within]

theorem mod_eq_of_fitBits_eq {type : CstType} {x y : DoubleInt w}
    (same : fitBits type x = fitBits type y) :
    x.toNat % 2 ^ type.precision = y.toNat % 2 ^ type.precision := by
  apply Nat.eq_of_testBit_eq
  intro i
  rw [Nat.testBit_mod_two_pow, Nat.testBit_mod_two_pow, testBit_toNat, testBit_toNat]
  by_cases within : i < type.precision
  · rcases Nat.lt_or_ge i (2 * w) with inside | outside
    · have equal := congrArg (bit · i) same
      simp only [bit_fitBits _ _ inside, within, if_true] at equal
      rw [equal]
    · rw [bit_of_le x outside, bit_of_le y outside]
  · simp [within]

theorem toNat_lt_of_fits {type : CstType} {x : DoubleInt w} (positive : 0 < w)
    (fits : fitBits type x = x) (nonneg : x.high.msb = false) :
    x.toNat < 2 ^ type.precision := by
  have top : bit x (2 * w - 1) = false := by
    rw [bit, if_neg (by omega), ← nonneg, BitVec.msb_eq_getLsbD_last]
    congr 1
    omega
  have beyond (i : Nat) (inside : i < 2 * w) (outside : type.precision ≤ i) :
      bit x i = (type.signExtended && bit x (type.precision - 1)) := by
    conv_lhs => rw [← fits]
    rw [bit_fitBits _ _ inside, if_neg (Nat.not_lt.mpr outside)]
  apply Nat.lt_pow_two_of_testBit
  intro i outside
  rw [testBit_toNat]
  rcases Nat.lt_or_ge i (2 * w) with inside | above
  · rw [beyond i inside outside, ← beyond (2 * w - 1) (by omega) (by omega), top]
  · exact bit_of_le x above

/-- The operands of the shortcut are their low words, read in any signedness,
and no sum of them leaves the word. -/
theorem oneWord_spec {arg1 arg2 : IntCst w} (guard : oneWord arg1 arg2 = true) :
    (∀ uns, arg1.int.value uns = arg1.int.low.toNat) ∧
      (∀ uns, arg2.int.value uns = arg2.int.low.toNat) ∧
      0 < arg2.int.low.toNat ∧ 2 * arg1.int.low.toNat < 2 ^ w ∧
      2 * arg2.int.low.toNat < 2 ^ w := by
  simp only [oneWord, Bool.and_eq_true, beq_iff_eq, BitVec.slt_iff_toInt_lt,
    BitVec.sle_iff_toInt_le, BitVec.toInt_zero] at guard
  obtain ⟨⟨⟨⟨⟨high2, positive2⟩, _⟩, _⟩, high1⟩, nonneg1⟩ := guard
  have value (x : DoubleInt w) (high : x.high = 0#w) (uns : Bool) :
      x.value uns = x.low.toNat := by
    cases uns <;> simp [DoubleInt.value, DoubleInt.toNat, DoubleInt.toInt, high]
  have bound1 := arg1.int.low.isLt
  have bound2 := arg2.int.low.isLt
  rw [BitVec.toInt_eq_toNat_cond] at positive2 nonneg1
  exact ⟨value _ high1, value _ high2, by split at positive2 <;> omega,
    by split at nonneg1 <;> omega, by split at positive2 <;> omega⟩

theorem rounded_of_dvd (hostBits : Nat) (uns : Bool) (code : Vrp.ArithCode) {x y : Int}
    (exact_ : x.tmod y = 0) : Vrp.divAndRoundDouble hostBits uns code x y = x.tdiv y := by
  have notAway (den : Int) : ¬ Vrp.unsignedDouble hostBits den < Vrp.unsignedDouble hostBits 0 := by
    have nonneg : 0 ≤ Vrp.unsignedDouble hostBits den := Int.emod_nonneg _ (by positivity)
    simpa [Vrp.unsignedDouble] using nonneg
  cases code <;> simp [Vrp.divAndRoundDouble, exact_, notAway]

theorem ceil_eq_div {x y : Nat} (positive : 0 < y) :
    (if x % y ≠ 0 then x / y + 1 else x / y) = (x + (y - 1)) / y := by
  have division := Nat.div_add_mod x y
  have small := Nat.mod_lt x positive
  have sum : x + (y - 1) = (x % y + (y - 1)) + y * (x / y) := by omega
  rw [sum, Nat.add_mul_div_left _ _ positive]
  split
  case isTrue inexact =>
      have once : (x % y + (y - 1)) / y = 1 :=
        Nat.div_eq_of_lt_le (by omega) (by omega)
      omega
  case isFalse exact_ =>
      rw [not_not.mp exact_, Nat.zero_add, Nat.div_eq_of_lt (show y - 1 < y by omega),
        Nat.zero_add]

theorem rounded_natCast (hostBits : Nat) (uns : Bool) {code : DivCode} {x y : Nat}
    (positive : 0 < y) (directed : code.rounding ≠ .roundDiv) :
    Vrp.divAndRoundDouble hostBits uns code.rounding x y =
      ((if code.rounding = .ceilDiv then x + (y - 1) else x) / y : Nat) := by
  have quotient : Int.tdiv x y = (x / y : Nat) := (Int.ofNat_tdiv x y).symm
  have remainder : Int.tmod x y = (x % y : Nat) := (Int.ofNat_tmod x y).symm
  have noSign : (!uns && (decide ((x : Int) < 0) != decide ((y : Int) < 0))) = false := by
    have nonneg (n : Nat) : decide ((n : Int) < 0) = false := by simp
    rw [nonneg, nonneg]
    exact Bool.and_false _
  have ceiling : Vrp.divAndRoundDouble hostBits uns .ceilDiv x y = ((x + (y - 1)) / y : Nat) := by
    rw [← ceil_eq_div positive, apply_ite (Nat.cast : Nat → Int)]
    simp only [Vrp.divAndRoundDouble, noSign, quotient, remainder, true_and, ne_eq,
      Nat.cast_eq_zero]
    rfl
  cases code <;> simp_all [Vrp.divAndRoundDouble, DivCode.rounding]

def DivCode.isMod : DivCode → Bool
  | .truncDiv | .floorDiv | .ceilDiv | .roundDiv | .exactDiv => false
  | .truncMod | .floorMod | .ceilMod | .roundMod => true

theorem generalDivision_eq (positive : 0 < half) (code : DivCode) (uns : Bool)
    (arg1 arg2 : IntCst (2 * half)) (nonzero : arg2.int.value uns ≠ 0)
    (noOverflow : arg2.int.toInt = -1 → 2 * arg1.int.toInt ≠ -(2 ^ (2 * (2 * half)) : Nat)) :
    let quo := Vrp.divAndRoundDouble (2 * half) uns code.rounding (arg1.int.value uns)
      (arg2.int.value uns)
    generalDivision code uns arg1 arg2 =
      (ofInt (2 * half) (if code.isMod then arg1.int.value uns - quo * arg2.int.value uns else quo),
        false) := by
  intro quo
  obtain ⟨quotient, remainder⟩ := divAndRoundDouble_refines positive code uns arg1.int arg2.int nonzero
  have flag : (divAndRoundDouble code uns arg1.int arg2.int).overflow = false := by
    rw [← Bool.not_eq_true, divAndRoundDouble_overflow positive code uns _ _ nonzero]
    exact fun ⟨_, least, minusOne⟩ => noOverflow minusOne least
  cases code <;> exact Prod.ext (by assumption) flag

theorem ofInt_one (positive : 0 < w) : ofInt w 1 = { low := 1#w, high := 0#w } :=
  ofInt_natCast (Nat.one_lt_two_pow (by omega))

theorem divisionCase_eq (positive : 0 < half) {code : DivCode} (quotient : code.isMod = false)
    (uns : Bool) (arg1 arg2 : IntCst (2 * half)) :
    divisionCase code uns arg1 arg2 = generalDivision code uns arg1 arg2 := by
  have modulus := two_lt_modulus positive
  have oneFits (uns : Bool) : InRange uns (2 * (2 * half)) 1 := by
    cases uns with
    | true => rw [inRange_unsigned]; omega
    | false => rw [inRange_signed]; omega
  rw [divisionCase]
  split
  case isTrue one =>
      have divisor (uns : Bool) : arg2.int.value uns = 1 := by
        have stored : arg2.int = ofInt (2 * half) 1 := by
          rw [ofInt_one (by omega), DoubleInt.ext_iff]
          exact ⟨one.2, one.1⟩
        rw [stored]
        exact value_ofInt_of_inRange (by omega) (oneFits uns)
      have signed : arg2.int.toInt = 1 := divisor false
      rw [generalDivision_eq positive code uns arg1 arg2 (by rw [divisor]; decide) (by omega), divisor,
        rounded_of_dvd _ _ _ (Int.tmod_one _), quotient, if_neg Bool.false_ne_true, Int.tdiv_one,
        ofInt_value]
  case isFalse =>
      split
      case isTrue equal =>
          obtain ⟨low, high, clear⟩ := equal
          have same : arg1.int = arg2.int := DoubleInt.ext low high
          have nonzero : arg2.int.value uns ≠ 0 := by
            rw [value_ne_zero_iff, ← same]
            exact fun zero => clear ⟨zero.2, zero.1⟩
          have four : 2 ^ 2 ≤ 2 ^ (2 * (2 * half)) := Nat.pow_le_pow_right (by decide) (by omega)
          rw [generalDivision_eq positive code uns arg1 arg2 nonzero (by rw [same]; omega), same,
            rounded_of_dvd _ _ _ (Int.tmod_self), quotient, if_neg Bool.false_ne_true,
            Int.tdiv_self nonzero, ofInt_one (by omega)]
      case isFalse => rfl

theorem ofInt_toNat_low (x : BitVec w) :
    ofInt w (x.toNat : Int) = { low := x, high := 0#w } := by
  rw [ofInt_natCast x.isLt, BitVec.ofNat_toNat, BitVec.setWidth_eq]

theorem preAdd_toNat (positive : 0 < w) {x y : BitVec w} (divisor : 0 < y.toNat)
    (fits : x.toNat + y.toNat ≤ 2 ^ w) : (x + (y - 1#w)).toNat = x.toNat + (y.toNat - 1) := by
  have small := y.isLt
  have one := toNat_one positive
  have less : (y - 1#w).toNat = y.toNat - 1 := by
    rw [BitVec.toNat_sub_of_le (by rw [BitVec.le_def]; omega), one]
  rw [BitVec.toNat_add, less, Nat.mod_eq_of_lt (by omega)]

theorem foldDivision_oneWord {code : DivCode} (directed : code.rounding ≠ .roundDiv) (uns : Bool)
    {arg1 arg2 : IntCst (2 * half)} (guard : oneWord arg1 arg2 = true) :
    let int1l := if code.rounding = .ceilDiv then arg1.int.low + (arg2.int.low - 1#_)
      else arg1.int.low
    foldDivision code uns arg1 arg2 =
      ({ low := if code.isMod then int1l % arg2.int.low else int1l / arg2.int.low, high := 0#_ },
        false) := by
  cases code with
  | roundDiv => exact absurd rfl directed
  | roundMod => exact absurd rfl directed
  | _ => exact if_pos guard

theorem oneWord_division (positive : 0 < half) (code : DivCode)
    (directed : code.rounding ≠ .roundDiv) (uns : Bool) {arg1 arg2 : IntCst (2 * half)}
    (guard : oneWord arg1 arg2 = true) :
    let rest := if code = .ceilMod then arg2.int.low.toNat - 1 else 0
    ∃ stored : Nat, stored < 2 ^ (2 * half) ∧
      foldDivision code uns arg1 arg2 = (ofInt (2 * half) stored, false) ∧
      generalDivision code uns arg1 arg2 =
        (ofInt (2 * half) ((stored : Int) - (rest : Nat)), false) := by
  obtain ⟨dividend, divisor, divisorPositive, small1, small2⟩ := oneWord_spec guard
  have added := preAdd_toNat (by omega) divisorPositive
    (show arg1.int.low.toNat + arg2.int.low.toNat ≤ 2 ^ (2 * half) by omega)
  have general := generalDivision_eq positive code uns arg1 arg2
    (by rw [divisor]; omega) (by rw [← value_signed, divisor]; omega)
  rw [dividend, divisor, rounded_natCast _ _ divisorPositive directed] at general
  intro rest
  refine ⟨(foldDivision code uns arg1 arg2).1.low.toNat, BitVec.isLt _, ?_, ?_⟩
  · rw [ofInt_toNat_low, foldDivision_oneWord directed uns guard]
  rw [general, foldDivision_oneWord directed uns guard]
  have dividendWord : (if code.rounding = .ceilDiv then arg1.int.low + (arg2.int.low - 1#_)
      else arg1.int.low).toNat = if code.rounding = .ceilDiv then
        arg1.int.low.toNat + (arg2.int.low.toNat - 1) else arg1.int.low.toNat := by
    rw [apply_ite BitVec.toNat, added]
  cases modulus : code.isMod with
  | false =>
    have noRest : rest = 0 := if_neg (by rintro rfl; cases modulus)
    simp only [Bool.false_eq_true, if_false, BitVec.toNat_udiv, dividendWord, noRest]
    rw [Nat.cast_zero, sub_zero]
  | true =>
    have restEq : rest = if code.rounding = .ceilDiv then arg2.int.low.toNat - 1 else 0 := by
      cases code <;> first | rfl | cases modulus
    simp only [if_true, BitVec.toNat_umod, dividendWord, restEq]
    generalize arg1.int.low.toNat = x at *
    generalize arg2.int.low.toNat = y at *
    congr 2
    split
    · have division : (y : Int) * ((x + (y - 1)) / y : Nat) + ((x + (y - 1)) % y : Nat) =
          x + (y - 1 : Nat) := by exact_mod_cast Nat.div_add_mod (x + (y - 1)) y
      linarith
    · have division : (y : Int) * (x / y : Nat) + (x % y : Nat) = x := by
        exact_mod_cast Nat.div_add_mod x y
      rw [Nat.cast_zero]
      linarith

/-- The folded value is that of the division, but for `CEIL_MOD_EXPR` in the
shortcut for a common special case. -/
theorem foldDivision_eq (positive : 0 < half) (code : DivCode) (uns : Bool)
    (arg1 arg2 : IntCst (2 * half))
    (sound : ¬ (code = .ceilMod ∧ oneWord arg1 arg2 = true ∧ arg2.int.low ≠ 1#_)) :
    foldDivision code uns arg1 arg2 = generalDivision code uns arg1 arg2 := by
  by_cases directed : code.rounding = .roundDiv
  · cases code with
    | roundDiv => exact divisionCase_eq positive rfl uns arg1 arg2
    | roundMod => rfl
    | _ => cases directed
  by_cases guard : oneWord arg1 arg2 = true
  · obtain ⟨stored, _, folded, general⟩ := oneWord_division positive code directed uns guard
    have noRest : (if code = .ceilMod then arg2.int.low.toNat - 1 else 0) = 0 := by
      split
      case isTrue ceilMod =>
          have one : arg2.int.low = 1#_ := by
            by_contra other
            exact sound ⟨ceilMod, guard, other⟩
          rw [one, toNat_one (by omega)]
      case isFalse => rfl
    rw [folded, general, noRest, Nat.cast_zero, sub_zero]
  · cases code with
    | truncDiv | floorDiv | ceilDiv | exactDiv =>
      exact (if_neg guard).trans (divisionCase_eq positive rfl uns arg1 arg2)
    | truncMod | floorMod | ceilMod => exact if_neg guard
    | _ => exact absurd rfl directed

theorem forceFitType_type (t : IntCst w) (overflowable : Int) (overflowed overflowedConst : Bool) :
    (forceFitType t overflowable overflowed overflowedConst).type = t.type := by
  unfold forceFitType
  dsimp only
  split
  · split <;> rfl
  · rfl

theorem forceFitType_int (t : IntCst w) (overflowable : Int) (overflowed overflowedConst : Bool) :
    (forceFitType t overflowable overflowed overflowedConst).int = fitBits t.type t.int := by
  unfold forceFitType
  dsimp only
  split
  · split <;> rfl
  · next unchanged =>
      simp only [Bool.or_eq_true, not_or, bne_iff_ne, ne_eq, not_not] at unchanged
      exact unchanged.2.symm

theorem finishBinop_int (arg1 arg2 : IntCst w) (notrunc : Bool) (folded : DoubleInt w × Bool) :
    (finishBinop arg1 arg2 notrunc folded).int =
      if notrunc then folded.1 else fitBits arg1.type folded.1 := by
  cases notrunc with
  | true =>
    simp only [finishBinop, if_true]
    split <;> rfl
  | false => exact forceFitType_int _ _ _ _

theorem finished_ne {prec : Nat} {stored rest : Nat} (small : rest < 2 ^ prec)
    (inWords : rest < 2 ^ (2 * w)) (nonzero : rest ≠ 0) :
    (ofInt w stored).toNat % 2 ^ prec ≠ (ofInt w (stored - rest : Int)).toNat % 2 ^ prec := by
  intro same
  have congruent : (stored : Int) ≡ stored - rest [ZMOD (2 ^ min prec (2 * w) : Nat)] := by
    have narrow (i : Int) : ((ofInt w i).toNat : Int) ≡ i [ZMOD (2 ^ min prec (2 * w) : Nat)] :=
      modEq_of_le (min_le_right _ _) (eq_ofInt_iff.mp rfl)
    have middle : ((ofInt w stored).toNat : Int) ≡ (ofInt w (stored - rest : Int)).toNat
        [ZMOD (2 ^ min prec (2 * w) : Nat)] :=
      modEq_of_le (min_le_left _ _) (by exact_mod_cast same)
    exact (narrow _).symm.trans (middle.trans (narrow _))
  have divides : ((2 ^ min prec (2 * w) : Nat) : Int) ∣ rest := by
    simpa using congruent.symm.dvd
  have below : rest < 2 ^ min prec (2 * w) := by
    rcases min_choice prec (2 * w) with choice | choice <;> rw [choice] <;> assumption
  exact nonzero (Nat.eq_zero_of_dvd_of_lt (by exact_mod_cast divides) below)

theorem finishBinop_ne (positive : 0 < half) {arg1 arg2 : IntCst (2 * half)}
    (fits : fitBits arg1.type arg2.int = arg2.int) (guard : oneWord arg1 arg2 = true)
    (notOne : arg2.int.low ≠ 1#_) (notrunc : Bool) :
    (finishBinop arg1 arg2 notrunc (foldDivision .ceilMod arg1.type.unsigned arg1 arg2)).int ≠
      (finishBinop arg1 arg2 notrunc
        (generalDivision .ceilMod arg1.type.unsigned arg1 arg2)).int := by
  obtain ⟨stored, _, folded, general⟩ :=
    oneWord_division positive .ceilMod (by decide) arg1.type.unsigned guard
  obtain ⟨_, divisor, divisorPositive, _, _⟩ := oneWord_spec guard
  rw [if_pos rfl] at general
  rw [finishBinop_int, finishBinop_int, folded, general]
  have value : arg2.int.toNat = arg2.int.low.toNat := Int.ofNat_inj.mp (divisor true)
  have bound := arg2.int.toNat_lt
  rw [value] at bound
  have nonzero : arg2.int.low.toNat - 1 ≠ 0 := by
    intro zero
    apply notOne
    apply BitVec.eq_of_toNat_eq
    rw [toNat_one (by omega)]
    omega
  cases notrunc with
  | true =>
    simp only [if_true]
    intro same
    exact finished_ne (by omega) (by omega) nonzero
      (congrArg (fun x : DoubleInt (2 * half) => x.toNat % 2 ^ (2 * (2 * half))) same)
  | false =>
    simp only [Bool.false_eq_true, if_false]
    intro same
    have nonneg : arg2.int.high.msb = false := by
      rw [← Bool.not_eq_true, msb_iff, ← value_signed, divisor]
      omega
    have small := toNat_lt_of_fits (by omega) fits nonneg
    rw [value] at small
    exact finished_ne (by omega) (by omega) nonzero (mod_eq_of_fitBits_eq same)

/-- A folded division is the constant that `div_and_round_double` and
`force_fit_type` make, but for `CEIL_MOD_EXPR` in the shortcut for a common
special case: its remainder is not negative. -/
theorem intConstBinop_division_iff (positive : 0 < half) (truncated wide : Bool) (code : DivCode)
    (arg1 arg2 : IntCst (2 * half)) (notrunc : Bool)
    (fits : fitBits arg1.type arg2.int = arg2.int) :
    let folded := intConstBinop truncated wide (.division code) arg1 arg2 notrunc
    let divided := finishBinop arg1 arg2 notrunc
      (generalDivision code arg1.type.unsigned arg1 arg2)
    let condition := ¬ (code = .ceilMod ∧ oneWord arg1 arg2 = true ∧ arg2.int.low ≠ 1#_)
    (folded.int = divided.int ↔ condition) ∧ (condition → folded = divided) := by
  intro folded divided condition
  have whole : condition → folded = divided := fun sound =>
    congrArg (finishBinop arg1 arg2 notrunc)
      (foldDivision_eq positive code arg1.type.unsigned arg1 arg2 sound)
  refine ⟨⟨?_, fun sound => congrArg IntCst.int (whole sound)⟩, whole⟩
  rintro same ⟨rfl, guard, notOne⟩
  exact finishBinop_ne positive fits guard notOne notrunc same

section Examples

theorem precision_int : 0 < 32 := by decide

/-- A constant of the type `int` on a host with words of 64 bits. -/
def intCst (value : Int) : IntCst (2 * 32) :=
  { type := { precision := 32, unsigned := false, sizetype := false, positive := precision_int }
    int := ofInt (2 * 32) value }

/-- `-7 CEIL_DIV_EXPR 4` goes to the division of two words. -/
theorem intConstBinop_division_iff_int :
    (intConstBinop false true (.division .ceilDiv) (intCst (-7)) (intCst 4) false).int =
      (finishBinop (intCst (-7)) (intCst 4) false
        (generalDivision .ceilDiv false (intCst (-7)) (intCst 4))).int :=
  (intConstBinop_division_iff (show 0 < 32 by decide) false true .ceilDiv (intCst (-7)) (intCst 4)
    false (by decide)).1.mpr (by decide)

/-- `7 CEIL_MOD_EXPR 4` is folded to the two of `10 % 4`, where the remainder of
the quotient two is minus one. -/
theorem ceilMod_shortcut_wrong :
    fitBits (intCst 7).type (intCst 7).int = (intCst 7).int ∧
      fitBits (intCst 4).type (intCst 4).int = (intCst 4).int ∧
      (intConstBinop false true (.division .ceilMod) (intCst 7) (intCst 4) false).int =
        (intCst 2).int ∧
      (finishBinop (intCst 7) (intCst 4) false
        (generalDivision .ceilMod false (intCst 7) (intCst 4))).int = (intCst (-1)).int := by
  decide

end Examples

end GccCil.Gcc.FoldConst
