import GccCil.Libcpp.NumProduct
import GccCil.Libcpp.NumShift

/-!
# Preprocessor integer literals

Digits are appended to the low part as long as this cannot leave the precision,
and to both parts by `append_digit` from then on.  A digit appended to a number
of two parts is exact up to the precision, and its flag says whether it is
exact; the flags of all digits together say whether the numeral fits.
-/

namespace GccCil.Libcpp

/-- The radix of a type of `cpp_classify_number`. -/
inductive Radix where
  | decimal
  | hex
  | octal
  deriving DecidableEq, Repr

namespace Radix

def base : Radix → Nat
  | decimal => 10
  | hex => 16
  | octal => 8

def skipped : Radix → Nat
  | decimal => 0
  | hex => 2
  | octal => 1

end Radix

inductive LiteralDiagnostic where
  | tooLarge
  | soLargeThatUnsigned
  deriving DecidableEq, Repr

def isDigit (c : UInt8) : Bool := 48 ≤ c && c ≤ 57

def isXDigit (c : UInt8) : Bool := isDigit c || (65 ≤ c && c ≤ 70) || (97 ≤ c && c ≤ 102)

/-- `_hex_value`, with `_hex_bad` for other characters. -/
def hexValue (c : UInt8) : Nat :=
  if isDigit c then c.toNat - 48
  else if 65 ≤ c && c ≤ 70 then c.toNat - 55
  else if 97 ≤ c && c ≤ 102 then c.toNat - 87
  else 99

def readsDigit (base : Nat) (c : UInt8) : Bool := isDigit c || (base == 16 && isXDigit c)

section

variable {part : Nat}

def appendDigit (num : CppNum part) (digit base precision : Nat) : CppNum part :=
  let shift := if base = 16 then 4 else 3
  let overflow := num.high >>> (part - shift) != 0
  let high := num.high <<< shift ||| num.low >>> (part - shift)
  let low := num.low <<< shift
  let (addHigh, addLow) :=
    if base = 10 then (num.high <<< 1 + num.low >>> (part - 1), num.low <<< 1) else (0, 0)
  let addHigh := if (addLow + BitVec.ofNat part digit).ult addLow then addHigh + 1 else addHigh
  let addLow := addLow + BitVec.ofNat part digit
  let addHigh := if (low + addLow).ult low then addHigh + 1 else addHigh
  let overflow := overflow || (high + addHigh).ult high
  let result := ⟨high + addHigh, low + addLow, num.unsignedp, overflow⟩
  let trimmed := numTrim result precision
  { trimmed with overflow := trimmed.overflow || !numEq trimmed result }

def fastMax (part precision base : Nat) : BitVec part :=
  let max : BitVec part :=
    if precision < part then (~~~0 : BitVec part) >>> (part - precision) else ~~~0
  (max - BitVec.ofNat part base + 1) / BitVec.ofNat part base + 1

/-- The loop over the digits: the number, and whether a digit overflowed. -/
def readDigits (base precision : Nat) :
    List UInt8 → BitVec part → CppNum part → Bool → CppNum part × Bool
  | [], _, result, overflow => (result, overflow)
  | c :: rest, max, result, overflow =>
    if readsDigit base c then
      if result.low.ult max then
        readDigits base precision rest max
          { result with
            low := result.low * BitVec.ofNat part base + BitVec.ofNat part (hexValue c) }
          overflow
      else
        let result := appendDigit result (hexValue c) base precision
        readDigits base precision rest 0 result (overflow || result.overflow)
    else (result, overflow)

/-- `cpp_interpret_integer` on the text of a token.  `traditional` says that a
directive is read in traditional mode. -/
def cppInterpretInteger (part precision : Nat) (text : List UInt8) (unsignedp : Bool)
    (radix : Radix) (traditional : Bool) : CppNum part × List LiteralDiagnostic :=
  match text with
  | [c] => (⟨0, BitVec.ofInt part (c.toNat - 48), unsignedp, false⟩, [])
  | _ =>
    let (result, overflow) := readDigits radix.base precision (text.drop radix.skipped)
      (fastMax part precision radix.base) ⟨0, 0, unsignedp, false⟩ false
    if overflow then (result, [.tooLarge])
    else if !result.unsignedp && !traditional && !numPositive result precision then
      ({ result with unsignedp := true },
        if radix.base = 10 then [.soLargeThatUnsigned] else [])
    else (result, [])

theorem shiftUp_toNat (num : CppNum part) {n : Nat} (small : n < part) :
    CppNum.toNat { num with
      high := num.high <<< n ||| num.low >>> (part - n)
      low := num.low <<< n } = num.toNat * 2 ^ n % 2 ^ (2 * part) := by
  apply Nat.eq_of_testBit_eq
  intro i
  rw [Nat.testBit_mod_two_pow, Nat.testBit_mul_two_pow]
  by_cases inside : i < 2 * part
  · rw [CppNum.toNat_testBit_eq_bit, CppNum.toNat_testBit_eq_bit, shiftUp_bit num small inside]
    simp [inside]
  · rw [CppNum.toNat_testBit_eq_bit, CppNum.bit_above _ _ inside]
    simp [inside]

theorem double_toNat (wide : 1 < part) (num : CppNum part) :
    CppNum.toNat { num with
      high := num.high <<< 1 + num.low >>> (part - 1)
      low := num.low <<< 1 } = num.toNat * 2 % 2 ^ (2 * part) := by
  have apart : num.high <<< 1 &&& num.low >>> (part - 1) = 0 := by
    apply BitVec.eq_of_getLsbD_eq
    intro i inside
    rw [BitVec.getLsbD_and, BitVec.getLsbD_shiftLeft, BitVec.getLsbD_ushiftRight]
    by_cases zero : i < 1
    · simp [zero]
    · rw [BitVec.getLsbD_of_ge num.low _ (by omega)]
      simp
  rw [BitVec.add_eq_or_of_and_eq_zero _ _ apart]
  exact shiftUp_toNat num wide

def addDigit (addend : CppNum part) (digit : BitVec part) : CppNum part :=
  { addend with
    high := if (addend.low + digit).ult addend.low then addend.high + 1 else addend.high
    low := addend.low + digit }

def addLowPart (num addend : CppNum part) : CppNum part :=
  { addend with
    high := if (num.low + addend.low).ult num.low then addend.high + 1 else addend.high
    low := num.low + addend.low }

def addHighPart (num addend : CppNum part) (overflow : Bool) : CppNum part :=
  { addend with
    high := num.high + addend.high
    overflow := overflow || (num.high + addend.high).ult num.high }

theorem addLowPart_modEq {digit : BitVec part} {num addend : CppNum part} {added : Int}
    (same : (addend.toNat : Int) ≡ added [ZMOD (2 ^ (2 * part) : Nat)]) :
    ((addLowPart num (addDigit addend digit)).toNat : Int) ≡
      num.low.toNat + (added + digit.toNat) [ZMOD (2 ^ (2 * part) : Nat)] := by
  have digits := (add_low_modEq addend.high addend.low digit addend.unsignedp
    addend.overflow).trans (same.add_right digit.toNat)
  have lows := add_low_modEq (addDigit addend digit).high num.low (addDigit addend digit).low
    addend.unsignedp addend.overflow
  have swap : (CppNum.toNat ⟨(addDigit addend digit).high, num.low, addend.unsignedp,
        addend.overflow⟩ : Int) + (addDigit addend digit).low.toNat =
      num.low.toNat + (addDigit addend digit).toNat := by
    rw [CppNum.toNat, CppNum.toNat]
    push_cast
    ring
  rw [swap] at lows
  exact lows.trans (digits.add_left _)

theorem addHighPart_spec {digit : BitVec part} {num addend : CppNum part} {whole added : Nat}
    {overflow : Bool} (shifted : num.toNat = whole % 2 ^ (2 * part))
    (same : (addend.toNat : Int) ≡ added [ZMOD (2 ^ (2 * part) : Nat)])
    (lost : overflow = true ↔ 2 ^ (2 * part) ≤ whole)
    (small : whole < 2 ^ (2 * part) →
      num.low.toNat + (added + digit.toNat) < 2 ^ (2 * part)) :
    (addHighPart num (addLowPart num (addDigit addend digit)) overflow).toNat =
        (whole + (added + digit.toNat)) % 2 ^ (2 * part) ∧
      ((addHighPart num (addLowPart num (addDigit addend digit)) overflow).overflow = true ↔
        2 ^ (2 * part) ≤ whole + (added + digit.toNat)) := by
  have lows : ((addLowPart num (addDigit addend digit)).toNat : Int) ≡ _ [ZMOD _] :=
    addLowPart_modEq same
  have carry := low_add num.high (addLowPart num (addDigit addend digit)).high
  have total : ((addHighPart num (addLowPart num (addDigit addend digit)) overflow).toNat : Int) =
      (addLowPart num (addDigit addend digit)).toNat + (2 ^ part : Nat) * num.high.toNat -
        (2 ^ (2 * part) : Nat) *
          ((num.high + (addLowPart num (addDigit addend digit)).high).ult num.high).toNat := by
    rw [CppNum.toNat, CppNum.toNat, addHighPart]
    push_cast at carry ⊢
    rw [carry, Nat.two_mul, pow_add]
    ring
  have parts : (num.toNat : Int) = num.low.toNat + (2 ^ part : Nat) * num.high.toNat := by
    rw [CppNum.toNat]
    push_cast
    rfl
  have inside := (addHighPart num (addLowPart num (addDigit addend digit)) overflow).toNat_lt
  constructor
  · have whole' : (num.toNat : Int) ≡ whole [ZMOD (2 ^ (2 * part) : Nat)] := by
      rw [shifted, Int.natCast_mod]
      exact Int.mod_modEq _ _
    have sum : ((addHighPart num (addLowPart num (addDigit addend digit)) overflow).toNat : Int) ≡
        (whole + (added + digit.toNat) : Nat) [ZMOD (2 ^ (2 * part) : Nat)] := by
      rw [total]
      refine ((lows.add_right _).sub (Int.modEq_zero_iff_dvd.mpr (Dvd.intro _ rfl))).trans ?_
      rw [sub_zero, add_right_comm, ← parts]
      push_cast
      exact whole'.add_right _
    have residue := Int.natCast_modEq_iff.mp sum
    rwa [Nat.ModEq, Nat.mod_eq_of_lt inside] at residue
  · change (overflow || (num.high + (addLowPart num (addDigit addend digit)).high).ult num.high) =
      true ↔ _
    rw [Bool.or_eq_true, lost]
    by_cases large : 2 ^ (2 * part) ≤ whole
    · exact iff_of_true (.inl large) (by omega)
    · rw [Nat.mod_eq_of_lt (not_le.mp large)] at shifted
      have exact' : (addLowPart num (addDigit addend digit)).toNat =
          num.low.toNat + (added + digit.toNat) :=
        CppNum.toNat_eq_of_modEq (small (not_le.mp large)) (by exact_mod_cast lows)
      rw [exact'] at total
      generalize (num.high + (addLowPart num (addDigit addend digit)).high).ult num.high =
        carried at total ⊢
      cases carried with
      | true =>
        rw [Bool.toNat_true, Nat.cast_one, mul_one] at total
        simp only [or_true, true_iff]
        omega
      | false =>
        rw [Bool.toNat_false, Nat.cast_zero, mul_zero, sub_zero] at total
        simp only [Bool.false_eq_true, or_false]
        omega

theorem trim_spec {precision : Nat} (fits : precision ≤ 2 * part) {num : CppNum part} {value : Nat}
    (same : num.toNat = value % 2 ^ (2 * part))
    (flag : num.overflow = true ↔ 2 ^ (2 * part) ≤ value) :
    CppNum.toNat { numTrim num precision with
        overflow := (numTrim num precision).overflow || !numEq (numTrim num precision) num } =
        value % 2 ^ precision ∧
      (((numTrim num precision).overflow || !numEq (numTrim num precision) num) = true ↔
        2 ^ precision ≤ value) := by
  have modulus : 2 ^ precision ≤ 2 ^ (2 * part) := Nat.pow_le_pow_right (by decide) fits
  have trimmed := numTrim_toNat fits num
  have divides : 2 ^ precision ∣ 2 ^ (2 * part) := pow_dvd_pow 2 fits
  constructor
  · change (numTrim num precision).toNat = _
    rw [trimmed, same, Nat.mod_mod_of_dvd _ divides]
  · rw [numTrim_overflow, Bool.or_eq_true, flag, Bool.not_eq_true', ← Bool.not_eq_true, numEq_iff,
      trimmed, Nat.mod_eq_iff_lt (Nat.two_pow_pos precision).ne', same]
    by_cases large : 2 ^ (2 * part) ≤ value
    · exact iff_of_true (.inl large) (modulus.trans large)
    · rw [Nat.mod_eq_of_lt (not_le.mp large)]
      omega

theorem lost_iff (num : CppNum part) {shift : Nat} (small : shift ≤ part) :
    (num.high >>> (part - shift) != 0) = true ↔ 2 ^ (2 * part) ≤ num.toNat * 2 ^ shift := by
  have power : 2 ^ (2 * part) = 2 ^ part * 2 ^ (part - shift) * 2 ^ shift := by
    rw [← pow_add, ← pow_add]
    congr 1
    omega
  have positive := Nat.two_pow_pos shift
  rw [← Bool.not_eq_false, part_bne_zero_iff, BitVec.toNat_ushiftRight, Nat.shiftRight_eq_div_pow,
    CppNum.high_toNat, Nat.div_div_eq_div_mul, Nat.div_eq_zero_iff, power,
    Nat.mul_le_mul_right_iff positive]
  have modulus := Nat.mul_pos (Nat.two_pow_pos part) (Nat.two_pow_pos (part - shift))
  omega

theorem appended_spec {precision : Nat} (bits : 8 ≤ part) (fits : precision ≤ 2 * part)
    (num addend : CppNum part) {shift factor digit : Nat} (least : 3 ≤ shift) (most : shift ≤ 4)
    (twice : factor ≤ 2)
    (same : (addend.toNat : Int) ≡ (num.toNat * factor : Nat) [ZMOD (2 ^ (2 * part) : Nat)])
    (small : digit < 16) :
    let shifted : CppNum part := { num with
      high := num.high <<< shift ||| num.low >>> (part - shift)
      low := num.low <<< shift }
    let result := addHighPart shifted
      (addLowPart shifted (addDigit addend (BitVec.ofNat part digit)))
      (num.high >>> (part - shift) != 0)
    CppNum.toNat { numTrim result precision with
        overflow := (numTrim result precision).overflow || !numEq (numTrim result precision) result } =
        (num.toNat * (2 ^ shift + factor) + digit) % 2 ^ precision ∧
      (((numTrim result precision).overflow || !numEq (numTrim result precision) result) = true ↔
        2 ^ precision ≤ num.toNat * (2 ^ shift + factor) + digit) := by
  intro shifted result
  have power : 2 ^ (2 * part) = 2 ^ part * 2 ^ part := by rw [Nat.two_mul, pow_add]
  have wide : 256 ≤ 2 ^ part := (by decide : 256 = 2 ^ 8) ▸ Nat.pow_le_pow_right (by decide) bits
  have digits : (BitVec.ofNat part digit).toNat = digit := by
    rw [BitVec.toNat_ofNat, Nat.mod_eq_of_lt (by omega)]
  have eight : 2 ^ 3 ≤ 2 ^ shift := Nat.pow_le_pow_right (by decide) least
  have room : num.toNat * 2 ^ shift < 2 ^ (2 * part) →
      shifted.low.toNat + (num.toNat * factor + (BitVec.ofNat part digit).toNat) <
        2 ^ (2 * part) := by
    intro inside
    have low := shifted.low.isLt
    have whole := Nat.mul_le_mul_left num.toNat eight
    have added := Nat.mul_le_mul_left num.toNat twice
    have square := Nat.mul_le_mul_right (2 ^ part) wide
    rw [digits]
    omega
  obtain ⟨residue, flag⟩ := addHighPart_spec (shiftUp_toNat num (by omega)) same
    (lost_iff num (by omega)) room
  have value : num.toNat * 2 ^ shift + (num.toNat * factor + (BitVec.ofNat part digit).toNat) =
      num.toNat * (2 ^ shift + factor) + digit := by
    rw [digits]
    ring
  rw [value] at residue flag
  exact trim_spec fits residue flag

theorem appendDigit_spec {precision : Nat} (bits : 8 ≤ part) (fits : precision ≤ 2 * part)
    (num : CppNum part) {digit : Nat} (small : digit < 16) (radix : Radix) :
    (appendDigit num digit radix.base precision).toNat =
        (num.toNat * radix.base + digit) % 2 ^ precision ∧
      ((appendDigit num digit radix.base precision).overflow = true ↔
        2 ^ precision ≤ num.toNat * radix.base + digit) := by
  have zero : (CppNum.toNat (⟨0, 0, num.unsignedp, num.overflow⟩ : CppNum part) : Int) ≡
      (num.toNat * 0 : Nat) [ZMOD (2 ^ (2 * part) : Nat)] := by
    simp [CppNum.toNat, Int.ModEq]
  have double : (CppNum.toNat { num with
        high := num.high <<< 1 + num.low >>> (part - 1), low := num.low <<< 1 } : Int) ≡
      (num.toNat * 2 : Nat) [ZMOD (2 ^ (2 * part) : Nat)] := by
    rw [double_toNat (by omega), Int.natCast_mod]
    exact Int.mod_modEq _ _
  cases radix with
  | decimal =>
    have ten := @appended_spec part precision bits fits num _ 3 2 digit (by decide) (by decide)
      (by decide) double small
    rw [show 2 ^ 3 + 2 = Radix.decimal.base from rfl] at ten
    exact ten
  | hex =>
    have sixteen := @appended_spec part precision bits fits num _ 4 0 digit (by decide)
      (by decide) (by decide) zero small
    rw [show 2 ^ 4 + 0 = Radix.hex.base from rfl] at sixteen
    exact sixteen
  | octal =>
    have eight := @appended_spec part precision bits fits num _ 3 0 digit (by decide)
      (by decide) (by decide) zero small
    rw [show 2 ^ 3 + 0 = Radix.octal.base from rfl] at eight
    exact eight

theorem fastMax_toNat {precision base : Nat} (bits : 8 ≤ part) (radix : 1 < base)
    (small : base ≤ 16) (wide : base ≤ 2 ^ precision) :
    (fastMax part precision base).toNat = 2 ^ (min precision part) / base := by
  have large : 256 ≤ 2 ^ part := (by decide : 256 = 2 ^ 8) ▸ Nat.pow_le_pow_right (by decide) bits
  have bound : 2 ^ (min precision part) ≤ 2 ^ part :=
    Nat.pow_le_pow_right (by decide) (min_le_right _ _)
  have enough : base ≤ 2 ^ (min precision part) := by
    rcases le_total precision part with narrow | within
    · rwa [min_eq_left narrow]
    · rw [min_eq_right within]
      omega
  have max : (if precision < part then (~~~0 : BitVec part) >>> (part - precision)
      else ~~~0).toNat = 2 ^ (min precision part) - 1 := by
    split
    case isTrue narrow =>
      rw [ones_shift_toNat narrow.le, min_eq_left narrow.le]
    case isFalse within =>
      have ones := ones_shift_toNat (le_refl part)
      rw [Nat.sub_self, BitVec.ushiftRight_zero] at ones
      rw [ones, min_eq_right (not_lt.mp within)]
  have baseNat : (BitVec.ofNat part base).toNat = base := by
    rw [BitVec.toNat_ofNat, Nat.mod_eq_of_lt (by omega)]
  have one : (1 : BitVec part).toNat = 1 := by
    rw [show (1 : BitVec part).toNat = 1 % 2 ^ part from rfl, Nat.mod_eq_of_lt (by omega)]
  have quotient : (2 ^ (min precision part) - base) / base + 1 = 2 ^ (min precision part) / base := by
    rw [Nat.div_eq_sub_div (by omega) enough]
  have difference : ((if precision < part then (~~~0 : BitVec part) >>> (part - precision)
      else ~~~0) - BitVec.ofNat part base + 1).toNat = 2 ^ (min precision part) - base := by
    rw [BitVec.toNat_add, BitVec.toNat_sub, max, baseNat, one, Nat.mod_add_mod,
      show 2 ^ part - base + (2 ^ (min precision part) - 1) + 1 =
        2 ^ part + (2 ^ (min precision part) - base) by omega,
      Nat.add_mod_left, Nat.mod_eq_of_lt (by omega)]
  have bounded : 2 ^ (min precision part) / base < 2 ^ part :=
    (Nat.div_lt_self (Nat.two_pow_pos _) radix).trans_le bound
  rw [fastMax, BitVec.toNat_add, BitVec.toNat_udiv, difference, baseNat, one, quotient,
    Nat.mod_eq_of_lt bounded]

theorem CppNum.toNat_of_high {num : CppNum part} (empty : num.high = 0) :
    num.toNat = num.low.toNat := by
  rw [CppNum.toNat, empty]
  simp

theorem CppNum.eq_of_toNat {left right : CppNum part} (same : left.toNat = right.toNat)
    (signedness : left.unsignedp = right.unsignedp) (flags : left.overflow = right.overflow) :
    left = right := by
  obtain ⟨low, high⟩ := (CppNum.toNat_eq_iff left right).mp same
  cases left
  cases right
  simp only at low high signedness flags
  subst low high signedness flags
  rfl

theorem appendDigit_unsignedp (num : CppNum part) (digit base precision : Nat) :
    (appendDigit num digit base precision).unsignedp = num.unsignedp :=
  numTrim_unsignedp _ precision

theorem fast_toNat {precision : Nat} (bits : 8 ≤ part) (radix : Radix)
    (wide : radix.base ≤ 2 ^ precision) {low : BitVec part} {digit : Nat}
    (small : digit < radix.base) (fast : low.ult (fastMax part precision radix.base) = true) :
    (low * BitVec.ofNat part radix.base + BitVec.ofNat part digit).toNat =
        low.toNat * radix.base + digit ∧
      low.toNat * radix.base + digit < 2 ^ precision := by
  have bounds : 1 < radix.base ∧ radix.base ≤ 16 := by cases radix <;> decide
  have large : 256 ≤ 2 ^ part := (by decide : 256 = 2 ^ 8) ▸ Nat.pow_le_pow_right (by decide) bits
  rw [BitVec.ult, decide_eq_true_iff, fastMax_toNat bits bounds.1 bounds.2 wide] at fast
  have inside : low.toNat * radix.base + digit < 2 ^ (min precision part) := by
    have room := Nat.mul_le_mul_right radix.base (Nat.succ_le_of_lt fast)
    have whole := Nat.div_mul_le_self (2 ^ (min precision part)) radix.base
    rw [Nat.succ_mul] at room
    omega
  have partBound := inside.trans_le (Nat.pow_le_pow_right (by decide) (min_le_right precision part))
  have precisionBound :=
    inside.trans_le (Nat.pow_le_pow_right (by decide) (min_le_left precision part))
  refine ⟨?_, precisionBound⟩
  rw [BitVec.toNat_add, BitVec.toNat_mul, BitVec.toNat_ofNat, BitVec.toNat_ofNat,
    Nat.mod_eq_of_lt (show radix.base < 2 ^ part by omega),
    Nat.mod_eq_of_lt (show digit < 2 ^ part by omega), Nat.mod_add_mod, Nat.mod_eq_of_lt partBound]

theorem appendDigit_fast {precision : Nat} (bits : 8 ≤ part) (fits : precision ≤ 2 * part)
    (radix : Radix) (wide : radix.base ≤ 2 ^ precision) {num : CppNum part} (empty : num.high = 0)
    {digit : Nat} (small : digit < radix.base)
    (fast : num.low.ult (fastMax part precision radix.base) = true) :
    appendDigit num digit radix.base precision =
      { num with
        low := num.low * BitVec.ofNat part radix.base + BitVec.ofNat part digit
        overflow := false } := by
  obtain ⟨exact', inside⟩ := fast_toNat bits radix wide small fast
  have digits : digit < 16 := small.trans_le (by cases radix <;> decide)
  obtain ⟨residue, flag⟩ := appendDigit_spec bits fits num digits radix
  rw [CppNum.toNat_of_high empty, Nat.mod_eq_of_lt inside] at residue
  rw [CppNum.toNat_of_high empty] at flag
  refine CppNum.eq_of_toNat ?_ (appendDigit_unsignedp num digit radix.base precision) ?_
  · rw [residue, CppNum.toNat_of_high (by exact empty), exact']
  · rw [Bool.eq_false_iff, ne_eq, flag]
    omega

def numeralValue (base : Nat) (digits : List UInt8) (value : Nat) : Nat :=
  digits.foldl (fun value c => value * base + hexValue c) value

/-- The state of the loop after digits of a value.  One part is used as long as
the value fits. -/
structure Read (radix : Radix) (precision value : Nat) (max : BitVec part) (result : CppNum part)
    (overflow : Bool) : Prop where
  residue : result.toNat = value % 2 ^ precision
  flag : overflow = true ↔ 2 ^ precision ≤ value
  fast : max ≠ 0 →
    max = fastMax part precision radix.base ∧ result.high = 0 ∧ value < 2 ^ precision

theorem Read.append {precision value : Nat} {max : BitVec part} {result : CppNum part}
    {overflow : Bool} {radix : Radix} (bits : 8 ≤ part) (fits : precision ≤ 2 * part)
    (read : Read radix precision value max result overflow) {digit : Nat}
    (small : digit < radix.base) :
    Read radix precision (value * radix.base + digit) 0
      (appendDigit result digit radix.base precision)
      (overflow || (appendDigit result digit radix.base precision).overflow) := by
  have digits : digit < 16 := small.trans_le (by cases radix <;> decide)
  have positive : 1 ≤ radix.base := by cases radix <;> decide
  obtain ⟨residue, flag⟩ := appendDigit_spec bits fits result digits radix
  rw [read.residue] at residue flag
  refine ⟨?_, ?_, fun nonzero => absurd rfl nonzero⟩
  · rw [residue, Nat.add_mod, Nat.mod_mul_mod, ← Nat.add_mod]
  · rw [Bool.or_eq_true, read.flag, flag]
    have grows := Nat.mul_le_mul_left value positive
    by_cases large : 2 ^ precision ≤ value
    · exact iff_of_true (.inl large) (by omega)
    · rw [Nat.mod_eq_of_lt (not_le.mp large)]
      exact or_iff_right large

theorem Read.fastStep {precision value : Nat} {max : BitVec part} {result : CppNum part}
    {overflow : Bool} {radix : Radix} (bits : 8 ≤ part) (wide : radix.base ≤ 2 ^ precision)
    (read : Read radix precision value max result overflow) {digit : Nat}
    (small : digit < radix.base) (fast : result.low.ult max = true) :
    Read radix precision (value * radix.base + digit) max
      { result with
        low := result.low * BitVec.ofNat part radix.base + BitVec.ofNat part digit } overflow := by
  have nonzero : max ≠ 0 := by
    rintro rfl
    simp [BitVec.ult] at fast
  obtain ⟨isMax, empty, fits⟩ := read.fast nonzero
  rw [isMax] at fast
  obtain ⟨exact', inside⟩ := fast_toNat bits radix wide small fast
  have itself := read.residue
  rw [CppNum.toNat_of_high empty, Nat.mod_eq_of_lt fits] at itself
  rw [itself] at exact' inside
  refine ⟨?_, ?_, fun _ => ⟨isMax, empty, inside⟩⟩
  · rw [CppNum.toNat_of_high (by exact empty), exact', Nat.mod_eq_of_lt inside]
  · rw [read.flag]
    omega

theorem readDigits_spec {precision : Nat} (bits : 8 ≤ part) (fits : precision ≤ 2 * part)
    (radix : Radix) (wide : radix.base ≤ 2 ^ precision) {digits rest : List UInt8}
    (valid : ∀ c ∈ digits, readsDigit radix.base c = true ∧ hexValue c < radix.base)
    (ends : ∀ c ∈ rest.head?, readsDigit radix.base c = false) {value : Nat} {max : BitVec part}
    {result : CppNum part} {overflow : Bool}
    (read : Read radix precision value max result overflow) :
    ∃ last, Read radix precision (numeralValue radix.base digits value) last
      (readDigits radix.base precision (digits ++ rest) max result overflow).1
      (readDigits radix.base precision (digits ++ rest) max result overflow).2 := by
  induction digits generalizing value max result overflow with
  | nil =>
    refine ⟨max, ?_⟩
    cases rest with
    | nil => exact read
    | cons c rest =>
      have stops : readsDigit radix.base c = false := ends c rfl
      rw [List.nil_append, readDigits, if_neg (by rw [stops]; exact Bool.false_ne_true)]
      exact read
  | cons c digits ih =>
    obtain ⟨reads, small⟩ := valid c List.mem_cons_self
    have others := fun d member => valid d (List.mem_cons_of_mem c member)
    rw [List.cons_append, readDigits, if_pos reads]
    by_cases fast : result.low.ult max = true
    · rw [if_pos fast]
      exact ih others (read.fastStep bits wide small fast)
    · rw [if_neg fast]
      exact ih others (read.append bits fits small)

def Radix.Leads : Radix → List UInt8 → Prop
  | decimal, lead => lead = []
  | hex, lead => lead = [48, 120] ∨ lead = [48, 88]
  | octal, lead => lead = [48]

theorem Radix.Leads.length_eq {radix : Radix} {lead : List UInt8} (leads : radix.Leads lead) :
    lead.length = radix.skipped := by
  cases radix with
  | decimal => rw [show lead = [] from leads]; rfl
  | hex =>
    obtain rfl | rfl := leads
    · rfl
    · rfl
  | octal => rw [show lead = [48] from leads]; rfl

theorem cppInterpretInteger_of_long (precision : Nat) {text : List UInt8} (long : text.length ≠ 1)
    (unsignedp : Bool) (radix : Radix) (traditional : Bool) :
    (cppInterpretInteger part precision text unsignedp radix traditional).1.toNat =
        (readDigits radix.base precision (text.drop radix.skipped)
          (fastMax part precision radix.base) ⟨0, 0, unsignedp, false⟩ false).1.toNat ∧
      (LiteralDiagnostic.tooLarge ∈
          (cppInterpretInteger part precision text unsignedp radix traditional).2 ↔
        (readDigits radix.base precision (text.drop radix.skipped)
          (fastMax part precision radix.base) ⟨0, 0, unsignedp, false⟩ false).2 = true) := by
  have loop : cppInterpretInteger part precision text unsignedp radix traditional =
      let (result, overflow) := readDigits radix.base precision (text.drop radix.skipped)
        (fastMax part precision radix.base) ⟨0, 0, unsignedp, false⟩ false
      if overflow then (result, [.tooLarge])
      else if !result.unsignedp && !traditional && !numPositive result precision then
        ({ result with unsignedp := true },
          if radix.base = 10 then [.soLargeThatUnsigned] else [])
      else (result, []) := by
    match text, long with
    | [], _ => rfl
    | _ :: _ :: _, _ => rfl
  rw [loop]
  cases readDigits radix.base precision (text.drop radix.skipped)
    (fastMax part precision radix.base) ⟨0, 0, unsignedp, false⟩ false with
  | mk result overflow =>
    cases overflow with
    | true => simp
    | false =>
      by_cases large : (!result.unsignedp && !traditional && !numPositive result precision) = true
      · simp only [Bool.false_eq_true, if_false, large, if_true]
        refine ⟨rfl, ?_⟩
        split <;> simp
      · simp only [Bool.false_eq_true, if_false, large]
        simp

theorem cppInterpretInteger_single (bits : 8 ≤ part) (precision : Nat) {c : UInt8}
    (digit : isDigit c = true) (unsignedp : Bool) (radix : Radix) (traditional : Bool) :
    (cppInterpretInteger part precision [c] unsignedp radix traditional).1.toNat = hexValue c ∧
      (cppInterpretInteger part precision [c] unsignedp radix traditional).2 = [] := by
  refine ⟨?_, rfl⟩
  have large : 256 ≤ 2 ^ part := (by decide : 256 = 2 ^ 8) ▸ Nat.pow_le_pow_right (by decide) bits
  have bound : 48 ≤ c.toNat ∧ c.toNat ≤ 57 := by
    rw [isDigit, Bool.and_eq_true, decide_eq_true_iff, decide_eq_true_iff] at digit
    exact digit
  have low : (BitVec.ofInt part ((c.toNat : Int) - 48)).toNat = c.toNat - 48 := by
    rw [BitVec.toNat_ofInt, Int.emod_eq_of_lt (by omega) (by omega)]
    omega
  change CppNum.toNat ⟨0, BitVec.ofInt part ((c.toNat : Int) - 48), unsignedp, false⟩ = _
  rw [CppNum.toNat_of_high rfl, low, hexValue, if_pos digit]

/-- A literal has the value of its numeral up to the precision, and is diagnosed
when the numeral is too large for it. -/
theorem cppInterpretInteger_correct {precision : Nat} (bits : 8 ≤ part)
    (fits : precision ≤ 2 * part) (radix : Radix) (wide : radix.base ≤ 2 ^ precision)
    {lead digits rest : List UInt8} (leads : radix.Leads lead)
    (numeral : radix = .decimal → digits ≠ [])
    (valid : ∀ c ∈ digits, readsDigit radix.base c = true ∧ hexValue c < radix.base)
    (ends : ∀ c ∈ rest.head?, readsDigit radix.base c = false) (unsignedp traditional : Bool) :
    (cppInterpretInteger part precision (lead ++ digits ++ rest) unsignedp radix
        traditional).1.toNat = numeralValue radix.base digits 0 % 2 ^ precision ∧
      (LiteralDiagnostic.tooLarge ∈ (cppInterpretInteger part precision (lead ++ digits ++ rest)
          unsignedp radix traditional).2 ↔
        2 ^ precision ≤ numeralValue radix.base digits 0) ∧
      ∀ (num : CppNum part) (digit : Nat), num.high = 0 → digit < radix.base →
        num.low.ult (fastMax part precision radix.base) = true →
        appendDigit num digit radix.base precision =
          { num with
            low := num.low * BitVec.ofNat part radix.base + BitVec.ofNat part digit
            overflow := false } := by
  rw [← and_assoc]
  refine ⟨?_, fun num digit empty small fast => appendDigit_fast bits fits radix wide empty small
    fast⟩
  by_cases single : (lead ++ digits ++ rest).length = 1
  · -- A digit of a decimal numeral, or the zero of an octal one.
    have one : ∃ c, lead ++ digits ++ rest = [c] ∧ isDigit c = true ∧
        hexValue c = numeralValue radix.base digits 0 ∧ hexValue c < radix.base := by
      rw [List.length_append, List.length_append, leads.length_eq] at single
      cases radix with
      | decimal =>
        obtain ⟨c, others, rfl⟩ := List.exists_cons_of_ne_nil (numeral rfl)
        have lengths : others.length = 0 ∧ rest.length = 0 := by
          simp only [List.length_cons, Radix.skipped] at single
          omega
        obtain ⟨reads, small⟩ := valid c List.mem_cons_self
        rw [List.length_eq_zero_iff, List.length_eq_zero_iff] at lengths
        rw [show lead = [] from leads, lengths.1, lengths.2]
        refine ⟨c, rfl, ?_, ?_, small⟩
        · simpa [readsDigit, Radix.base] using reads
        · simp [numeralValue]
      | hex =>
        simp only [Radix.skipped] at single
        omega
      | octal =>
        have lengths : digits.length = 0 ∧ rest.length = 0 := by
          simp only [Radix.skipped] at single
          omega
        rw [List.length_eq_zero_iff, List.length_eq_zero_iff] at lengths
        rw [show lead = [48] from leads, lengths.1, lengths.2]
        exact ⟨48, rfl, by decide, rfl, by decide⟩
    obtain ⟨c, text, digit, value, small⟩ := one
    obtain ⟨result, diagnostics⟩ :=
      @cppInterpretInteger_single part bits precision c digit unsignedp radix traditional
    rw [text, result, diagnostics, ← value, Nat.mod_eq_of_lt (small.trans_le wide)]
    exact ⟨rfl, iff_of_false List.not_mem_nil (by omega)⟩
  · obtain ⟨result, diagnostics⟩ :=
      @cppInterpretInteger_of_long part precision _ single unsignedp radix traditional
    have start : Read radix precision 0 (fastMax part precision radix.base)
        (⟨0, 0, unsignedp, false⟩ : CppNum part) false := by
      have positive := Nat.two_pow_pos precision
      refine ⟨by simp [CppNum.toNat], iff_of_false Bool.false_ne_true (by omega), fun _ =>
        ⟨rfl, rfl, positive⟩⟩
    obtain ⟨last, read⟩ := readDigits_spec bits fits radix wide valid ends start
    have text : (lead ++ digits ++ rest).drop radix.skipped = digits ++ rest := by
      rw [List.append_assoc, ← leads.length_eq, List.drop_left]
    rw [result, diagnostics, text]
    exact ⟨read.residue, read.flag⟩

set_option maxRecDepth 8000 in
/-- `0x1ffu` in eight bits. -/
theorem cppInterpretInteger_correct_hex :
    (cppInterpretInteger 64 8 [48, 120, 49, 102, 102, 117] true .hex false).1.toNat =
      numeralValue 16 [49, 102, 102] 0 % 2 ^ 8 :=
  (@cppInterpretInteger_correct 64 8 (by decide) (by decide) .hex (by decide) [48, 120]
    [49, 102, 102] [117] (.inl rfl) (by decide) (by decide) (by decide) true
    false).1

/-- In three bits the digit eight is neither reduced nor diagnosed. -/
theorem cppInterpretInteger_three_bits :
    (cppInterpretInteger 64 3 [56] false .decimal false).1.toNat ≠ numeralValue 10 [56] 0 % 2 ^ 3 ∧
      ¬ (LiteralDiagnostic.tooLarge ∈ (cppInterpretInteger 64 3 [56] false .decimal false).2 ↔
        2 ^ 3 ≤ numeralValue 10 [56] 0) := by
  decide

end

end GccCil.Libcpp
