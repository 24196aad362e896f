import GccCil.Lib.TwosComplement

/-!
# Two-word integers

The two-word constants of `fold-const.c` and their addition and negation.  A
constant is two host words; `value` reads it in the signedness asked for and
`ofInt` stores an integer modulo the two words.  Every operation is described
by what it does to `ofInt`, so that the algorithms built from these operations
can be read as arithmetic on integers.
-/

namespace GccCil.Gcc.FoldConst

open GccCil.Lib

/-- A constant as two `HOST_WIDE_INT` pieces of `w` bits. -/
@[ext]
structure DoubleInt (w : Nat) where
  low : BitVec w
  high : BitVec w
  deriving DecidableEq, Repr

namespace DoubleInt

variable {w : Nat}

def toNat (x : DoubleInt w) : Nat := x.low.toNat + 2 ^ w * x.high.toNat

def toInt (x : DoubleInt w) : Int := x.low.toNat + 2 ^ w * x.high.toInt

def value (uns : Bool) (x : DoubleInt w) : Int := if uns then x.toNat else x.toInt

def ofInt (w : Nat) (x : Int) : DoubleInt w :=
  { low := BitVec.ofInt w x, high := BitVec.ofInt w (x / (2 ^ w : Nat)) }

@[simp]
theorem value_unsigned (x : DoubleInt w) : x.value true = x.toNat := rfl

@[simp]
theorem value_signed (x : DoubleInt w) : x.value false = x.toInt := rfl

theorem pow_two_mul (w : Nat) : 2 ^ (2 * w) = 2 ^ w * 2 ^ w := by
  rw [Nat.two_mul, pow_add]

theorem toNat_lt (x : DoubleInt w) : x.toNat < 2 ^ (2 * w) := by
  have low := x.low.isLt
  have high := Nat.mul_le_mul_left (2 ^ w) (Nat.succ_le_of_lt x.high.isLt)
  rw [pow_two_mul, toNat]
  rw [Nat.mul_succ] at high
  omega

theorem toNat_injective {x y : DoubleInt w} (same : x.toNat = y.toNat) : x = y := by
  have lowX := x.low.isLt
  have lowY := y.low.isLt
  simp only [toNat] at same
  have lows : x.low.toNat = y.low.toNat := by
    have := congrArg (· % 2 ^ w) same
    simpa [Nat.add_mul_mod_self_left, Nat.mod_eq_of_lt lowX, Nat.mod_eq_of_lt lowY] using this
  have highs : x.high.toNat = y.high.toNat := by
    rw [lows] at same
    exact Nat.eq_of_mul_eq_mul_left (Nat.two_pow_pos w) (Nat.add_left_cancel same)
  exact DoubleInt.ext (BitVec.eq_of_toNat_eq lows) (BitVec.eq_of_toNat_eq highs)

theorem toInt_eq (x : DoubleInt w) :
    x.toInt = if x.high.msb then (x.toNat : Int) - (2 ^ (2 * w) : Nat) else x.toNat := by
  rw [toInt, BitVec.toInt_eq_msb_cond, toNat, pow_two_mul]
  split <;> push_cast <;> ring

theorem value_modEq (uns : Bool) (x : DoubleInt w) :
    x.value uns ≡ x.toNat [ZMOD (2 ^ (2 * w) : Nat)] := by
  cases uns with
  | true => rfl
  | false =>
    rw [value_signed, toInt_eq]
    split
    · exact Int.sub_modulus_modEq_iff.mpr rfl
    · rfl

theorem msb_iff (x : DoubleInt w) : x.high.msb = true ↔ x.toInt < 0 := by
  have bound := x.toNat_lt
  rw [toInt_eq]
  split
  case isTrue negative =>
      simp only [negative, true_iff]
      omega
  case isFalse positive => exact iff_of_false positive (by omega)

theorem value_inRange (positive : 0 < w) (uns : Bool) (x : DoubleInt w) :
    InRange uns (2 * w) (x.value uns) := by
  cases uns with
  | true =>
    have bound := x.toNat_lt
    rw [inRange_unsigned, value_unsigned]
    omega
  | false =>
    have low := x.low.isLt
    have lower := x.high.le_two_mul_toInt
    have upper := x.high.two_mul_toInt_lt
    have even : 2 ^ w = 2 * 2 ^ (w - 1) := by rw [← pow_succ', Nat.sub_add_cancel positive]
    rw [inRange_signed, value_signed, toInt, pow_two_mul]
    push_cast
    have wordPositive : (0 : Int) < 2 ^ w := by positivity
    have evenInt : (2 : Int) ^ w = 2 * 2 ^ (w - 1) := by exact_mod_cast even
    have top : 2 * x.high.toInt + 2 ≤ 2 ^ w := by omega
    constructor
    · nlinarith
    · zify at low
      nlinarith

theorem toNat_ofInt (x : Int) : ((ofInt w x).toNat : Int) = x % (2 ^ (2 * w) : Nat) := by
  have wordPositive : (0 : Int) < (2 ^ w : Nat) := by exact_mod_cast Nat.two_pow_pos w
  have low := Int.emod_nonneg x (ne_of_gt wordPositive)
  have high := Int.emod_nonneg (x / (2 ^ w : Nat)) (ne_of_gt wordPositive)
  have split := Int.mul_ediv_add_emod x (2 ^ w : Nat)
  have splitHigh := Int.mul_ediv_add_emod (x / (2 ^ w : Nat)) (2 ^ w : Nat)
  have words : ((ofInt w x).toNat : Int) =
      x % (2 ^ w : Nat) + (2 ^ w : Nat) * (x / (2 ^ w : Nat) % (2 ^ w : Nat)) := by
    simp only [toNat, ofInt, BitVec.toNat_ofInt]
    push_cast
    rw [Int.toNat_of_nonneg (by exact_mod_cast low), Int.toNat_of_nonneg (by exact_mod_cast high)]
  have congruent : ((ofInt w x).toNat : Int) ≡ x [ZMOD (2 ^ (2 * w) : Nat)] := by
    rw [Int.modEq_iff_dvd, words, pow_two_mul]
    refine ⟨x / (2 ^ w : Nat) / (2 ^ w : Nat), ?_⟩
    push_cast at split splitHigh ⊢
    linear_combination -split - 2 ^ w * splitHigh
  rw [← congruent.eq]
  have bound := (ofInt w x).toNat_lt
  exact (Int.emod_eq_of_lt (Int.natCast_nonneg _) (Int.ofNat_lt.mpr bound)).symm

theorem eq_ofInt_iff {x : DoubleInt w} {i : Int} :
    x = ofInt w i ↔ (x.toNat : Int) ≡ i [ZMOD (2 ^ (2 * w) : Nat)] := by
  constructor
  · rintro rfl
    rw [toNat_ofInt]
    exact Int.mod_modEq _ _
  · intro congruent
    apply toNat_injective
    zify
    rw [toNat_ofInt, ← congruent.eq]
    exact (Int.emod_eq_of_lt (Int.natCast_nonneg _) (Int.ofNat_lt.mpr x.toNat_lt)).symm

theorem ofInt_congr {i j : Int} (congruent : i ≡ j [ZMOD (2 ^ (2 * w) : Nat)]) :
    ofInt w i = ofInt w j :=
  eq_ofInt_iff.mpr ((eq_ofInt_iff.mp rfl).trans congruent)

theorem ofInt_eq_ofInt_iff {i j : Int} :
    ofInt w i = ofInt w j ↔ i ≡ j [ZMOD (2 ^ (2 * w) : Nat)] := by
  rw [eq_ofInt_iff]
  exact ⟨fun congruent => (eq_ofInt_iff.mp rfl).symm.trans congruent,
    fun congruent => (eq_ofInt_iff.mp rfl).trans congruent⟩

@[simp]
theorem ofInt_toNat (x : DoubleInt w) : ofInt w x.toNat = x := (eq_ofInt_iff.mpr rfl).symm

@[simp]
theorem ofInt_value (uns : Bool) (x : DoubleInt w) : ofInt w (x.value uns) = x :=
  (eq_ofInt_iff.mpr (value_modEq uns x).symm).symm

@[simp]
theorem ofInt_toInt (x : DoubleInt w) : ofInt w x.toInt = x := ofInt_value false x

theorem value_ofInt (positive : 0 < w) (uns : Bool) (i : Int) :
    (ofInt w i).value uns = wrap uns (2 * w) i := by
  have stored := (value_modEq uns (ofInt w i)).trans (eq_ofInt_iff.mp rfl)
  rw [← wrap_eq_of_inRange (value_inRange positive uns (ofInt w i))]
  exact wrap_congr uns stored

theorem value_ofInt_of_inRange (positive : 0 < w) {uns : Bool} {i : Int}
    (fits : InRange uns (2 * w) i) : (ofInt w i).value uns = i := by
  rw [value_ofInt positive, wrap_eq_of_inRange fits]

theorem ofInt_zero (w : Nat) : ofInt w 0 = { low := 0#w, high := 0#w } := by
  simp [ofInt]

theorem ofInt_neg_one (w : Nat) : ofInt w (-1) = { low := -1#w, high := -1#w } := by
  have quotient : (-1 : Int) / (2 ^ w : Nat) = -1 := by
    rw [Int.neg_one_ediv, Int.sign_eq_one_of_pos (by exact_mod_cast Nat.two_pow_pos w)]
  rw [ofInt, quotient, BitVec.ofInt_neg]
  rfl

theorem ofInt_natCast {n : Nat} (small : n < 2 ^ w) :
    ofInt w n = { low := BitVec.ofNat w n, high := 0#w } := by
  rw [ofInt, ← Int.natCast_ediv, Nat.div_eq_of_lt small, BitVec.ofInt_natCast]
  rfl

theorem toNat_lt_toNat_iff (x y : DoubleInt w) :
    x.toNat < y.toNat ↔ x.high < y.high ∨ x.high = y.high ∧ x.low < y.low := by
  have lowX := x.low.isLt
  have lowY := y.low.isLt
  rw [BitVec.lt_def, BitVec.lt_def, ← BitVec.toNat_inj, toNat, toNat]
  rcases Nat.lt_trichotomy x.high.toNat y.high.toNat with less | same | greater
  · have := Nat.mul_le_mul_left (2 ^ w) (Nat.succ_le_of_lt less)
    rw [Nat.mul_succ] at this
    omega
  · rw [same]
    omega
  · have := Nat.mul_le_mul_left (2 ^ w) (Nat.succ_le_of_lt greater)
    rw [Nat.mul_succ] at this
    omega

end DoubleInt

variable {w : Nat}

theorem toNat_one (positive : 0 < w) : (1#w).toNat = 1 := by
  rw [BitVec.toNat_ofNat, Nat.mod_eq_of_lt (Nat.one_lt_two_pow (by omega))]

def overflowSumSign (a b sum : BitVec w) : Bool := (~~~(a ^^^ b) &&& (a ^^^ sum)).slt 0#w

/-- `add_double`: the sum, and whether it overflows. -/
def addDouble (x y : DoubleInt w) : DoubleInt w × Bool :=
  let low := x.low + y.low
  let high := x.high + y.high + (if low < x.low then 1#w else 0#w)
  ({ low := low, high := high }, overflowSumSign x.high y.high high)

/-- `neg_double`: the negation, and whether it overflows. -/
def negDouble (x : DoubleInt w) : DoubleInt w × Bool :=
  if x.low = 0#w then
    ({ low := 0#w, high := -x.high }, (-x.high &&& x.high).slt 0#w)
  else
    ({ low := -x.low, high := ~~~x.high }, false)

open DoubleInt

theorem carried_modEq {base low high first second carry : Nat}
    (lowWord : first = low + base * carry) (highWord : high ≡ second + carry [MOD base]) :
    (low + base * high : Nat) ≡ first + base * second [ZMOD (base * base : Nat)] := by
  obtain ⟨quotient, quotientEq⟩ := (Nat.modEq_iff_dvd.mp highWord)
  rw [Int.modEq_iff_dvd]
  refine ⟨quotient, ?_⟩
  push_cast at quotientEq ⊢
  rw [lowWord]
  push_cast
  linear_combination (base : Int) * quotientEq

theorem addDouble_modEq (x y : DoubleInt w) :
    ((addDouble x y).1.toNat : Int) ≡ x.toNat + y.toNat [ZMOD (2 ^ (2 * w) : Nat)] := by
  have lowX := x.low.isLt
  have lowY := y.low.isLt
  have wordPositive := Nat.two_pow_pos w
  let carry := if x.low + y.low < x.low then 1 else 0
  have lowWord : x.low.toNat + y.low.toNat = (x.low + y.low).toNat + 2 ^ w * carry := by
    have sum := Nat.mod_add_div (x.low.toNat + y.low.toNat) (2 ^ w)
    simp only [carry, BitVec.lt_def, BitVec.toNat_add]
    rcases Nat.lt_or_ge (x.low.toNat + y.low.toNat) (2 ^ w) with below | above
    · rw [Nat.mod_eq_of_lt below, if_neg (by omega)]
      omega
    · rw [Nat.mod_eq_sub_mod above, Nat.mod_eq_of_lt (by omega), if_pos (by omega)]
      omega
  have highWord : (addDouble x y).1.high.toNat ≡ x.high.toNat + y.high.toNat + carry
      [MOD 2 ^ w] := by
    simp only [addDouble, carry, BitVec.toNat_add]
    split
    · simp [Nat.ModEq, Nat.add_mod]
    · simp [Nat.ModEq]
  have total := carried_modEq lowWord highWord
  rw [pow_two_mul]
  refine total.trans (congrArg (· % _) ?_)
  simp only [DoubleInt.toNat]
  push_cast
  ring

theorem addDouble_ofInt (i j : Int) :
    (addDouble (ofInt w i) (ofInt w j)).1 = ofInt w (i + j) := by
  rw [eq_ofInt_iff]
  exact (addDouble_modEq _ _).trans
    ((eq_ofInt_iff.mp rfl).add (eq_ofInt_iff.mp rfl))

theorem negDouble_modEq (x : DoubleInt w) :
    ((negDouble x).1.toNat : Int) ≡ -x.toNat [ZMOD (2 ^ (2 * w) : Nat)] := by
  have low := x.low.isLt
  have high := x.high.isLt
  rw [pow_two_mul, Int.modEq_iff_dvd, negDouble]
  split
  case isTrue zero =>
    have lowZero : x.low.toNat = 0 := by simp [zero]
    have negated := Nat.mod_add_div (2 ^ w - x.high.toNat) (2 ^ w)
    refine ⟨(2 ^ w - x.high.toNat) / 2 ^ w - 1, ?_⟩
    simp only [DoubleInt.toNat, BitVec.toNat_neg, lowZero, BitVec.toNat_zero]
    zify [Nat.le_of_lt high] at negated ⊢
    linear_combination (-(2 : Int) ^ w) * negated
  case isFalse nonzero =>
    have lowPositive : x.low.toNat ≠ 0 := fun zero => nonzero (BitVec.eq_of_toNat_eq zero)
    refine ⟨-1, ?_⟩
    simp only [DoubleInt.toNat, BitVec.toNat_neg, BitVec.toNat_not]
    rw [Nat.mod_eq_of_lt (by omega)]
    have complement : 2 ^ w - 1 - x.high.toNat + x.high.toNat + 1 = 2 ^ w := by omega
    zify [Nat.le_of_lt low] at complement ⊢
    linear_combination (-(2 : Int) ^ w) * complement

theorem negDouble_ofInt (i : Int) : (negDouble (ofInt w i)).1 = ofInt w (-i) := by
  rw [eq_ofInt_iff]
  exact (negDouble_modEq _).trans (Int.ModEq.neg (eq_ofInt_iff.mp rfl))

theorem addDouble_value (uns : Bool) (x y : DoubleInt w) :
    (addDouble x y).1 = ofInt w (x.value uns + y.value uns) := by
  conv_lhs => rw [← ofInt_value uns x, ← ofInt_value uns y]
  exact addDouble_ofInt _ _

theorem negDouble_value (uns : Bool) (x : DoubleInt w) :
    (negDouble x).1 = ofInt w (-x.value uns) := by
  conv_lhs => rw [← ofInt_value uns x]
  exact negDouble_ofInt _

theorem addDouble_overflow (positive : 0 < w) (x y : DoubleInt w) :
    (addDouble x y).2 = true ↔ ¬ InRange false (2 * w) (x.toInt + y.toInt) := by
  have rangeX := (inRange_signed _ _).mp (value_inRange positive false x)
  have rangeY := (inRange_signed _ _).mp (value_inRange positive false y)
  have rangeSum := (inRange_signed _ _).mp (value_inRange positive false (addDouble x y).1)
  have sum : (addDouble x y).1.toInt ≡ x.toInt + y.toInt [ZMOD (2 ^ (2 * w) : Nat)] := by
    have stored := value_ofInt positive false (x.toInt + y.toInt)
    rw [← value_signed x, ← value_signed y, ← addDouble_value] at stored
    rw [← value_signed, stored]
    exact wrap_modEq _ _ _
  obtain ⟨quotient, difference⟩ := Int.modEq_iff_dvd.mp sum
  have flag : (addDouble x y).2 = true ↔
      (x.toInt < 0 ↔ y.toInt < 0) ∧ ¬ (x.toInt < 0 ↔ (addDouble x y).1.toInt < 0) := by
    rw [← msb_iff, ← msb_iff, ← msb_iff]
    simp only [addDouble, overflowSumSign, BitVec.slt_zero_eq_msb, BitVec.msb_and,
      BitVec.msb_not, BitVec.msb_xor]
    generalize x.high.msb = signX
    generalize y.high.msb = signY
    generalize (x.high + y.high + if x.low + y.low < x.low then 1#w else 0#w).msb = signSum
    revert signX signY signSum
    simp only [positive, decide_true]
    decide
  rw [flag, inRange_signed]
  simp only [value_signed] at rangeX rangeY rangeSum
  have near : quotient = -1 ∨ quotient = 0 ∨ quotient = 1 := by
    have modulus : (0 : Int) < (2 ^ (2 * w) : Nat) := by exact_mod_cast Nat.two_pow_pos _
    have lower : -2 < quotient := by
      by_contra far
      nlinarith
    have upper : quotient < 2 := by
      by_contra far
      nlinarith
    omega
  rcases near with rfl | rfl | rfl <;> omega

theorem negDouble_overflow (positive : 0 < w) (x : DoubleInt w) :
    (negDouble x).2 = true ↔ 2 * x.toInt = -(2 ^ (2 * w) : Nat) := by
  have rangeX := (inRange_signed _ _).mp (value_inRange positive false x)
  have modulus := Nat.two_pow_pos (2 * w)
  have negated : (negDouble x).1.toInt = wrap false (2 * w) (-x.toInt) := by
    rw [← value_signed x, ← value_ofInt positive false, ← negDouble_value, value_signed]
  have flag : (negDouble x).2 = true ↔ (x.toInt < 0 ∧ (negDouble x).1.toInt < 0) := by
    rw [← msb_iff, ← msb_iff, negDouble]
    split
    case isTrue zero =>
      simp only [BitVec.slt_zero_eq_msb, BitVec.msb_and, Bool.and_eq_true]
      exact and_comm
    case isFalse nonzero =>
      simp only [BitVec.msb_not, positive, decide_true, Bool.true_and]
      cases x.high.msb <;> decide
  simp only [value_signed] at rangeX
  rw [flag, negated]
  by_cases least : 2 * x.toInt = -(2 ^ (2 * w) : Nat)
  · have same : wrap false (2 * w) (-x.toInt) = x.toInt := by
      refine Eq.trans (wrap_congr false ?_) (wrap_eq_of_inRange (value_inRange positive false x))
      exact Int.modEq_iff_dvd.mpr ⟨-1, by omega⟩
    rw [same]
    omega
  · rw [wrap_eq_of_inRange ((inRange_signed _ _).mpr (by omega))]
    omega

end GccCil.Gcc.FoldConst
