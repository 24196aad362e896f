import GccCil.Gcc.DoubleInt
import GccCil.Lib.Positional

/-!
# Multiplication of two-word integers

`mul_double` of `fold-const.c`.  Both operands are cut into four half words,
multiplied by rows into eight half words, and the low four are the result.
The top four are corrected for the signs of the operands and compared with
the sign of the result to detect overflow.
-/

namespace GccCil.Gcc.FoldConst

open GccCil.Lib DoubleInt

variable {half : Nat}

abbrev Digits (half : Nat) := Nat → BitVec (2 * half)

def base (half : Nat) : BitVec (2 * half) := 1#(2 * half) <<< half

def lowpart (x : BitVec (2 * half)) : BitVec (2 * half) := x &&& (base half - 1#(2 * half))

def highpart (x : BitVec (2 * half)) : BitVec (2 * half) := x >>> half

/-- `encode`, into an array that is clear above the four words. -/
def encode (x : DoubleInt (2 * half)) : Digits half
  | 0 => lowpart x.low
  | 1 => highpart x.low
  | 2 => lowpart x.high
  | 3 => highpart x.high
  | _ => 0#(2 * half)

def decode (words : Digits half) : DoubleInt (2 * half) :=
  { low := words 0 + words 1 * base half, high := words 2 + words 3 * base half }

def IsDigit (x : BitVec (2 * half)) : Prop := x.toNat < 2 ^ half

/-- The number in the first `count` half words of an array. -/
def digitsValue (words : Digits half) (count : Nat) : Nat :=
  numeral (2 ^ half) (fun i => (words i).toNat) count

theorem toNat_base (positive : 0 < half) : (base half).toNat = 2 ^ half := by
  have one : 1 % 2 ^ (2 * half) = 1 := Nat.mod_eq_of_lt (Nat.one_lt_two_pow (by omega))
  have fits : 2 ^ half < 2 ^ (2 * half) := Nat.pow_lt_pow_right (by omega) (by omega)
  simp [base, Nat.shiftLeft_eq, one, Nat.mod_eq_of_lt fits]

theorem toNat_base_sub_one (positive : 0 < half) :
    (base half - 1#(2 * half)).toNat = 2 ^ half - 1 := by
  have one : 1 < 2 ^ (2 * half) := Nat.one_lt_two_pow (by omega)
  rw [BitVec.toNat_sub_of_le, toNat_base positive, BitVec.toNat_ofNat, Nat.mod_eq_of_lt one]
  rw [BitVec.le_def, toNat_base positive, BitVec.toNat_ofNat, Nat.mod_eq_of_lt one]
  exact Nat.one_le_two_pow

theorem toNat_lowpart (positive : 0 < half) (x : BitVec (2 * half)) :
    (lowpart x).toNat = x.toNat % 2 ^ half := by
  rw [lowpart, BitVec.toNat_and, toNat_base_sub_one positive, Nat.and_two_pow_sub_one_eq_mod]

theorem toNat_highpart (x : BitVec (2 * half)) :
    (highpart x).toNat = x.toNat / 2 ^ half := by
  simp [highpart, Nat.shiftRight_eq_div_pow]

theorem isDigit_lowpart (positive : 0 < half) (x : BitVec (2 * half)) : IsDigit (lowpart x) := by
  rw [IsDigit, toNat_lowpart positive]
  exact Nat.mod_lt _ (Nat.two_pow_pos _)

theorem isDigit_highpart (x : BitVec (2 * half)) : IsDigit (highpart x) := by
  have bound := x.isLt
  rw [pow_two_mul] at bound
  rw [IsDigit, toNat_highpart]
  exact Nat.div_lt_of_lt_mul bound

theorem lowpart_add_highpart (positive : 0 < half) (x : BitVec (2 * half)) :
    (lowpart x).toNat + 2 ^ half * (highpart x).toNat = x.toNat := by
  rw [toNat_lowpart positive, toNat_highpart]
  exact Nat.mod_add_div _ _

theorem isDigit_encode (positive : 0 < half) (x : DoubleInt (2 * half)) (i : Nat) :
    IsDigit (encode x i) := by
  unfold encode
  split
  · exact isDigit_lowpart positive _
  · exact isDigit_highpart _
  · exact isDigit_lowpart positive _
  · exact isDigit_highpart _
  · simp [IsDigit]

theorem digitsValue_encode (positive : 0 < half) (x : DoubleInt (2 * half)) :
    digitsValue (encode x) 4 = x.toNat := by
  have low := lowpart_add_highpart positive x.low
  have high := lowpart_add_highpart positive x.high
  simp only [digitsValue, numeral_succ, numeral_zero, encode, DoubleInt.toNat, pow_two_mul]
  rw [← low, ← high]
  ring

theorem toNat_pair (positive : 0 < half) {low high : BitVec (2 * half)} (lowDigit : IsDigit low)
    (highDigit : IsDigit high) :
    (low + high * base half).toNat = low.toNat + high.toNat * 2 ^ half := by
  have scaled := Nat.mul_le_mul_right (2 ^ half) (Nat.succ_le_of_lt highDigit)
  rw [Nat.succ_mul] at scaled
  have fits : low.toNat + high.toNat * 2 ^ half < 2 ^ (2 * half) := by
    rw [pow_two_mul]
    unfold IsDigit at lowDigit
    omega
  have product : (high * base half).toNat = high.toNat * 2 ^ half := by
    rw [BitVec.toNat_mul, toNat_base positive]
    exact Nat.mod_eq_of_lt (Nat.lt_of_le_of_lt (Nat.le_add_left _ _) fits)
  rw [BitVec.toNat_add, product, Nat.mod_eq_of_lt fits]

theorem toNat_decode (positive : 0 < half) {words : Digits half}
    (digits : ∀ i < 4, IsDigit (words i)) : (decode words).toNat = digitsValue words 4 := by
  simp only [decode, DoubleInt.toNat, digitsValue, numeral_succ, numeral_zero]
  rw [toNat_pair positive (digits 0 (by omega)) (digits 1 (by omega)),
    toNat_pair positive (digits 2 (by omega)) (digits 3 (by omega)), pow_two_mul]
  ring

theorem carryPass_exact
    (step : Nat → BitVec (2 * half) → BitVec (2 * half) → BitVec (2 * half) × BitVec (2 * half))
    (offset count : Nat) (words : Digits half) (exact : Nat → Nat)
    (keeps : ∀ i < count, ∀ carry, IsDigit carry →
      IsDigit (step i (words (offset + i)) carry).1 ∧
        IsDigit (step i (words (offset + i)) carry).2 ∧
        (step i (words (offset + i)) carry).1.toNat +
          2 ^ half * (step i (words (offset + i)) carry).2.toNat = exact i + carry.toNat) :
    (∀ i < count, IsDigit ((carryPass step offset words 0#_ count).1 (offset + i))) ∧
      IsDigit (carryPass step offset words 0#_ count).2 ∧
      digitsValue (fun i => (carryPass step offset words 0#_ count).1 (offset + i)) count +
        (2 ^ half) ^ count * (carryPass step offset words 0#_ count).2.toNat =
          numeral (2 ^ half) exact count := by
  have initial : IsDigit 0#(2 * half) := by simp [IsDigit]
  obtain ⟨digits, carry, total⟩ := carryPass_spec step offset words (fun x => (x.toNat : Int))
    (fun x => (x.toNat : Int)) (2 ^ half : Nat) (fun i => (exact i : Int)) initial
    (fun i below carry carryHalf => by
      obtain ⟨low, high, balance⟩ := keeps i below carry carryHalf
      exact ⟨low, high, by exact_mod_cast balance⟩)
  refine ⟨digits, carry, ?_⟩
  rw [← natCast_numeral, ← natCast_numeral] at total
  zify
  simpa [digitsValue] using total

theorem digitsValue_append (words : Digits half) (low high : Nat) :
    digitsValue words (low + high) =
      digitsValue words low +
        (2 ^ half) ^ low * digitsValue (fun i => words (low + i)) high :=
  numeral_append _ _ _ _

theorem digitsValue_congr {first second : Digits half} {count : Nat}
    (same : ∀ i < count, first i = second i) :
    digitsValue first count = digitsValue second count :=
  numeral_congr fun i below => congrArg BitVec.toNat (same i below)

theorem digitsValue_pass
    (step : Nat → BitVec (2 * half) → BitVec (2 * half) → BitVec (2 * half) × BitVec (2 * half))
    (offset count : Nat) (words : Digits half) (carry : BitVec (2 * half)) :
    digitsValue (carryPass step offset words carry count).1 (offset + count) =
      digitsValue words offset + (2 ^ half) ^ offset *
        digitsValue (fun i => (carryPass step offset words carry count).1 (offset + i)) count := by
  rw [digitsValue_append, digitsValue_congr fun i below =>
    carryPass_frame step offset words carry count (Or.inl below)]

/-- One step of a row: `carry += arg1[i] * arg2[j]; carry += prod[k]`, split
into the digit that is stored and the next carry. -/
def mulStep (digit : BitVec (2 * half)) (arg2 : Digits half) (j : Nat)
    (prod carry : BitVec (2 * half)) : BitVec (2 * half) × BitVec (2 * half) :=
  let work := carry + digit * arg2 j + prod
  (lowpart work, highpart work)

/-- The product after the first `rows` rows. -/
def mulRows (arg1 arg2 : Digits half) : Nat → Digits half
  | 0 => fun _ => 0#(2 * half)
  | i + 1 =>
    let row := carryPass (mulStep (arg1 i) arg2) i (mulRows arg1 arg2 i) 0#(2 * half) 4
    Function.update row.1 (i + 4) row.2

/-- `mul_double`: the product, and whether it overflows as signed. -/
def mulDouble (x y : DoubleInt (2 * half)) : DoubleInt (2 * half) × Bool :=
  let prod := mulRows (encode x) (encode y) 4
  let result := decode prod
  let top := decode fun i => prod (4 + i)
  let top := if x.high.slt 0#_ then (addDouble (negDouble y).1 top).1 else top
  let top := if y.high.slt 0#_ then (addDouble (negDouble x).1 top).1 else top
  let disagrees := if result.high.slt 0#_ then ~~~(top.low &&& top.high) else top.low ||| top.high
  (result, disagrees != 0#_)

theorem mulStep_spec (positive : 0 < half) {digit : BitVec (2 * half)} {arg2 : Digits half}
    {j : Nat} {prod carry : BitVec (2 * half)} (digitHalf : IsDigit digit)
    (argHalf : IsDigit (arg2 j)) (prodHalf : IsDigit prod) (carryHalf : IsDigit carry) :
    IsDigit (mulStep digit arg2 j prod carry).1 ∧ IsDigit (mulStep digit arg2 j prod carry).2 ∧
      (mulStep digit arg2 j prod carry).1.toNat +
        2 ^ half * (mulStep digit arg2 j prod carry).2.toNat =
          digit.toNat * (arg2 j).toNat + prod.toNat + carry.toNat := by
  refine ⟨isDigit_lowpart positive _, isDigit_highpart _, ?_⟩
  have product : digit.toNat * (arg2 j).toNat ≤ (2 ^ half - 1) * (2 ^ half - 1) :=
    Nat.mul_le_mul (Nat.le_sub_one_of_lt digitHalf) (Nat.le_sub_one_of_lt argHalf)
  have room : (2 ^ half - 1) * (2 ^ half - 1) + 2 * (2 ^ half - 1) + 1 = 2 ^ (2 * half) := by
    obtain ⟨last, lastEq⟩ : ∃ last, 2 ^ half = last + 1 :=
      ⟨2 ^ half - 1, (Nat.sub_add_cancel (Nat.two_pow_pos half)).symm⟩
    rw [pow_two_mul, lastEq, Nat.add_sub_cancel]
    ring
  unfold IsDigit at prodHalf carryHalf
  rw [mulStep, lowpart_add_highpart positive, BitVec.toNat_add, BitVec.toNat_add,
    BitVec.toNat_mul, Nat.add_mod_mod, Nat.mod_add_mod, Nat.mod_eq_of_lt (by omega)]
  omega

theorem mulRows_spec (positive : 0 < half) {arg1 arg2 : Digits half}
    (digits1 : ∀ i, IsDigit (arg1 i)) (digits2 : ∀ i, IsDigit (arg2 i)) (rows : Nat) :
    (∀ i < rows + 4, IsDigit (mulRows arg1 arg2 rows i)) ∧
      digitsValue (mulRows arg1 arg2 rows) (rows + 4) =
        digitsValue arg1 rows * digitsValue arg2 4 := by
  induction rows with
  | zero =>
    refine ⟨fun i _ => by simp [mulRows, IsDigit], ?_⟩
    simp [digitsValue, mulRows, numeral_const_zero]
  | succ rows ih =>
    obtain ⟨digits, total⟩ := ih
    obtain ⟨window, carry, balance⟩ := carryPass_exact (mulStep (arg1 rows) arg2) rows 4
      (mulRows arg1 arg2 rows)
      (fun j => (arg1 rows).toNat * (arg2 j).toNat + (mulRows arg1 arg2 rows (rows + j)).toNat)
      (fun j below carry carryHalf =>
        mulStep_spec positive (digits1 rows) (digits2 j) (digits (rows + j) (by omega)) carryHalf)
    rw [numeral_add, numeral_mul] at balance
    have below := digitsValue_pass (mulStep (arg1 rows) arg2) rows 4 (mulRows arg1 arg2 rows) 0#_
    rw [digitsValue_append] at total
    have inside : ∀ i < rows + 4, mulRows arg1 arg2 (rows + 1) i =
        (carryPass (mulStep (arg1 rows) arg2) rows (mulRows arg1 arg2 rows) 0#_ 4).1 i :=
      fun i below => Function.update_of_ne (Nat.ne_of_lt below) _ _
    have last : mulRows arg1 arg2 (rows + 1) (rows + 4) =
        (carryPass (mulStep (arg1 rows) arg2) rows (mulRows arg1 arg2 rows) 0#_ 4).2 :=
      Function.update_self _ _ _
    refine ⟨?_, ?_⟩
    · intro i bound
      rcases Nat.lt_or_ge i (rows + 4) with early | late
      · rw [inside i early]
        rcases Nat.lt_or_ge i rows with outside | within
        · rw [carryPass_frame _ _ _ _ _ (Or.inl outside)]
          exact digits i early
        · obtain ⟨j, rfl⟩ := Nat.exists_eq_add_of_le within
          exact window j (by omega)
      · obtain rfl : i = rows + 4 := by omega
        rw [last]
        exact carry
    · have split : digitsValue (mulRows arg1 arg2 (rows + 1)) (rows + 1 + 4) =
          digitsValue (mulRows arg1 arg2 (rows + 1)) (rows + 4) +
            (mulRows arg1 arg2 (rows + 1) (rows + 4)).toNat * (2 ^ half) ^ (rows + 4) := by
        rw [Nat.add_right_comm]
        rfl
      have next : digitsValue arg1 (rows + 1) =
          digitsValue arg1 rows + (arg1 rows).toNat * (2 ^ half) ^ rows := rfl
      rw [split, last, digitsValue_congr inside, below, next, Nat.add_mul, ← total, pow_add]
      zify at balance ⊢
      simp only [digitsValue] at *
      linear_combination (2 ^ half) ^ rows * balance

theorem mulRows_encode (positive : 0 < half) (x y : DoubleInt (2 * half)) :
    (decode (mulRows (encode x) (encode y) 4)).toNat + 2 ^ (2 * (2 * half)) *
      (decode fun i => mulRows (encode x) (encode y) 4 (4 + i)).toNat = x.toNat * y.toNat := by
  obtain ⟨digits, total⟩ := mulRows_spec positive (isDigit_encode positive x)
    (isDigit_encode positive y) 4
  rw [digitsValue_encode positive, digitsValue_encode positive, digitsValue_append] at total
  rw [toNat_decode positive fun i below => digits i (by omega),
    toNat_decode positive fun i below => digits (4 + i) (by omega), ← total, ← pow_mul,
    show half * 4 = 2 * (2 * half) by omega]

theorem disagrees_eq_zero_iff {w : Nat} (x : DoubleInt w) (negative : Bool) :
    (if negative then ~~~(x.low &&& x.high) else x.low ||| x.high) = 0#w ↔
      x = ofInt w (if negative then -1 else 0) := by
  cases negative with
  | true =>
    rw [if_pos rfl, if_pos rfl, ofInt_neg_one, BitVec.neg_one_eq_allOnes, ← BitVec.not_allOnes,
      BitVec.not_inj, BitVec.and_eq_allOnes_iff, DoubleInt.ext_iff]
  | false =>
    rw [if_neg (by decide), if_neg (by decide), ofInt_zero, BitVec.or_eq_zero_iff, DoubleInt.ext_iff]

theorem inRange_iff_top {bits : Nat} {low top : Int} (nonneg : 0 ≤ low)
    (below : low < (2 ^ bits : Nat)) :
    InRange false bits (low + (2 ^ bits : Nat) * top) ↔
      top = if (2 ^ bits : Nat) ≤ 2 * low then -1 else 0 := by
  rw [inRange_signed]
  generalize ((2 ^ bits : Nat) : Int) = modulus at *
  constructor
  · rintro ⟨lower, upper⟩
    have atLeast : -2 < top := by
      by_contra far
      nlinarith
    have atMost : top < 1 := by
      by_contra far
      nlinarith
    obtain rfl | rfl : top = -1 ∨ top = 0 := by omega
    · rw [if_pos (by omega)]
    · rw [if_neg (by omega)]
  · rintro rfl
    split <;> omega

theorem top_bounds {bits : Nat} {first second low top : Int} (firstFits : InRange false bits first)
    (secondFits : InRange false bits second) (nonneg : 0 ≤ low) (below : low < (2 ^ bits : Nat))
    (product : first * second = low + (2 ^ bits : Nat) * top) :
    -(2 ^ bits : Nat) < 2 * (top + 1) ∧ 2 * top < (2 ^ bits : Nat) := by
  rw [inRange_signed] at firstFits secondFits
  generalize ((2 ^ bits : Nat) : Int) = modulus at *
  have magnitude : |2 * first| * |2 * second| ≤ modulus * modulus :=
    mul_le_mul (abs_le.mpr ⟨by omega, by omega⟩) (abs_le.mpr ⟨by omega, by omega⟩)
      (abs_nonneg _) (by omega)
  rw [← abs_mul, abs_le] at magnitude
  constructor
  · by_contra far
    nlinarith
  · by_contra far
    nlinarith

/-- What a constant read as unsigned exceeds its signed reading by. -/
def signCarry {w : Nat} (x : DoubleInt w) : Int := if x.high.msb then 1 else 0

theorem toInt_eq_signCarry {w : Nat} (x : DoubleInt w) :
    x.toInt = x.toNat - signCarry x * (2 ^ (2 * w) : Nat) := by
  rw [toInt_eq, signCarry]
  split <;> ring

theorem corrected_eq {w : Nat} (x y : DoubleInt w) (top : Int) :
    (if x.high.slt 0#w then (addDouble (negDouble y).1 (ofInt w top)).1 else ofInt w top) =
      ofInt w (top - signCarry x * y.toNat) := by
  rw [BitVec.slt_zero_eq_msb, signCarry]
  split
  · rw [negDouble_value true, addDouble_ofInt]
    congr 1
    rw [value_unsigned]
    ring
  · congr 1
    ring

theorem mulDouble_spec (positive : 0 < half) (x y : DoubleInt (2 * half)) :
    (mulDouble x y).1 = ofInt (2 * half) (x.toInt * y.toInt) ∧
      ((mulDouble x y).2 = true ↔
        ¬ InRange false (2 * (2 * half)) (x.toInt * y.toInt)) := by
  have words := mulRows_encode positive x y
  let result := decode (mulRows (encode x) (encode y) 4)
  let top : Int := (decode fun i => mulRows (encode x) (encode y) 4 (4 + i)).toNat
  let corrected := top - signCarry x * y.toNat - signCarry y * x.toNat +
    signCarry x * signCarry y * (2 ^ (2 * (2 * half)) : Nat)
  have product : x.toInt * y.toInt =
      result.toNat + (2 ^ (2 * (2 * half)) : Nat) * corrected := by
    rw [toInt_eq_signCarry, toInt_eq_signCarry]
    zify at words
    simp only [corrected, top, result]
    push_cast at words ⊢
    linear_combination -words
  have stored : (mulDouble x y).1 = ofInt (2 * half) (x.toInt * y.toInt) := by
    rw [eq_ofInt_iff, product]
    exact (Int.add_mul_emod_self_left _ _ _).symm
  refine ⟨stored, ?_⟩
  have topStored : (mulDouble x y).2 = true ↔
      ¬ ofInt (2 * half) corrected = ofInt (2 * half) (if result.high.msb then -1 else 0) := by
    have asInt : (decode fun i => mulRows (encode x) (encode y) 4 (4 + i)) =
        ofInt (2 * half) top := (ofInt_toNat _).symm
    have modified : ofInt (2 * half) corrected =
        ofInt (2 * half) (top - signCarry x * y.toNat - signCarry y * x.toNat) :=
      ofInt_congr (Int.add_mul_emod_self_right _ _ _)
    rw [modified, ← disagrees_eq_zero_iff, mulDouble]
    simp only [asInt, corrected_eq, bne_iff_ne]
    rw [BitVec.slt_zero_eq_msb]
  have fits := value_inRange (w := 2 * half) (by omega) false
  obtain ⟨lower, upper⟩ := top_bounds (fits x) (fits y) (Int.natCast_nonneg _)
    (Int.ofNat_lt.mpr result.toNat_lt) product
  have signs : (result.high.msb = true) ↔
      ((2 ^ (2 * (2 * half)) : Nat) : Int) ≤ 2 * (result.toNat : Int) := by
    have range := (inRange_signed _ _).mp (fits result)
    have below := result.toNat_lt
    rw [value_signed, toInt_eq] at range
    by_cases negative : result.high.msb = true
    · rw [if_pos negative] at range
      exact iff_of_true negative (by omega)
    · rw [if_neg negative] at range
      exact iff_of_false negative (by omega)
  rw [topStored, product,
    inRange_iff_top (Int.natCast_nonneg _) (Int.ofNat_lt.mpr result.toNat_lt), not_iff_not,
    ofInt_eq_ofInt_iff, Int.modEq_iff_dvd]
  have modulus : (1 : Int) < (2 ^ (2 * (2 * half)) : Nat) := by
    exact_mod_cast Nat.one_lt_two_pow (by omega)
  simp only [signs]
  constructor
  · intro divides
    have near : |(if ((2 ^ (2 * (2 * half)) : Nat) : Int) ≤ 2 * (result.toNat : Int) then -1
        else 0) - corrected| < (2 ^ (2 * (2 * half)) : Nat) := by
      rw [abs_lt]
      split <;> omega
    have := Int.eq_zero_of_abs_lt_dvd divides near
    omega
  · intro equality
    rw [equality, sub_self]
    exact dvd_zero _

theorem mulDouble_ofInt (positive : 0 < half) (i j : Int) :
    (mulDouble (ofInt (2 * half) i) (ofInt (2 * half) j)).1 = ofInt (2 * half) (i * j) := by
  rw [(mulDouble_spec positive _ _).1, ofInt_eq_ofInt_iff]
  exact ((value_modEq false _).trans (eq_ofInt_iff.mp rfl)).mul
    ((value_modEq false _).trans (eq_ofInt_iff.mp rfl))

/-- The product modulo the two words, and an overflow flag for exactly the
signed products outside of their range. -/
theorem mulDouble_exact (positive : 0 < half) (x y : DoubleInt (2 * half)) :
    ((mulDouble x y).1.toNat : Int) = x.toInt * y.toInt % (2 ^ (2 * (2 * half)) : Nat) ∧
      ((mulDouble x y).2 = true ↔
        ¬ (-2 ^ (2 * (2 * half) - 1) ≤ x.toInt * y.toInt ∧
          x.toInt * y.toInt < 2 ^ (2 * (2 * half) - 1))) := by
  obtain ⟨product, overflow⟩ := mulDouble_spec positive x y
  have double : ((2 ^ (2 * (2 * half)) : Nat) : Int) = 2 * 2 ^ (2 * (2 * half) - 1) := by
    push_cast
    rw [← pow_succ']
    congr 1
    omega
  refine ⟨by rw [product, toNat_ofInt], ?_⟩
  rw [overflow, inRange_signed, double]
  omega

theorem mulDouble_exact_minimum :
    let x := ofInt (2 * 32) (-(2 ^ 127))
    let y := ofInt (2 * 32) (-1)
    ((mulDouble x y).1.toNat : Int) = x.toInt * y.toInt % (2 ^ (2 * (2 * 32)) : Nat) ∧
      ((mulDouble x y).2 = true ↔
        ¬ (-2 ^ (2 * (2 * 32) - 1) ≤ x.toInt * y.toInt ∧
          x.toInt * y.toInt < 2 ^ (2 * (2 * 32) - 1))) :=
  mulDouble_exact (by decide) _ _

end GccCil.Gcc.FoldConst
