import GccCil.Libcpp.NumProduct
import GccCil.Libcpp.NumShift

/-!
# Preprocessor division

The search for the highest bit of the divisor starts below the highest bit of
the low part when the precision ends inside the high part, so that the division
uses only the bits of the divisor that it has seen.  By these it divides
exactly.
-/

namespace GccCil.Libcpp

variable {part precision : Nat} {lhs rhs num : CppNum part}

theorem log2_unique {n i : Nat} (low : 2 ^ i ≤ n) (high : n < 2 ^ (i + 1)) : n.log2 = i :=
  (Nat.log2_eq_iff (by have := Nat.two_pow_pos i; omega)).mpr ⟨low, high⟩

theorem mod_two_pow_testBit (x i : Nat) :
    x % 2 ^ (i + 1) = x % 2 ^ i + 2 ^ i * (x.testBit i).toNat := by
  rw [Nat.mod_pow_succ, Nat.toNat_testBit]

theorem findHighBit_eq (x : BitVec part) (start : Nat) :
    findHighBit x start = if x.toNat % 2 ^ (start + 1) = 0 then none
      else some (x.toNat % 2 ^ (start + 1)).log2 := by
  induction start with
  | zero =>
    rw [findHighBit, mod_two_pow_testBit, BitVec.getLsbD]
    cases x.toNat.testBit 0 with
    | true => simp [Nat.mod_one, log2_unique (n := 1) (i := 0)]
    | false => simp [Nat.mod_one]
  | succ start ih =>
    rw [findHighBit, mod_two_pow_testBit, BitVec.getLsbD, ih]
    have below := Nat.mod_lt x.toNat (Nat.two_pow_pos (start + 1))
    cases x.toNat.testBit (start + 1) with
    | true =>
      have positive := Nat.two_pow_pos (start + 1)
      rw [if_pos rfl, Bool.toNat_true, Nat.mul_one, if_neg (by omega),
        log2_unique (i := start + 1) (by omega) (by rw [Nat.pow_succ 2 (start + 1)]; omega)]
    | false =>
      simp only [Bool.false_eq_true, if_false, Bool.toNat_false, Nat.mul_zero, Nat.add_zero]

def seenDivisor (part precision divisor : Nat) : Nat :=
  if part < precision ∧ divisor < 2 ^ part then divisor % 2 ^ (precision - part) else divisor

/-- The search of `num_div_op`. -/
def highBit (rhs : CppNum part) (precision : Nat) : Option Nat :=
  if rhs.high != 0 then (findHighBit rhs.high (precision - 1 - part)).map (· + part)
  else findHighBit rhs.low (if precision > part then precision - part - 1 else precision - 1)

theorem highBit_eq (positive : 0 < precision) (trimmed : rhs.Trimmed precision) :
    highBit rhs precision = if seenDivisor part precision rhs.toNat = 0 then none
      else some (seenDivisor part precision rhs.toNat).log2 := by
  have below : rhs.toNat < 2 ^ precision := trimmed
  have modulus := Nat.two_pow_pos part
  have low := CppNum.low_toNat rhs
  have high := CppNum.high_toNat rhs
  have zero := part_bne_zero_iff rhs.high
  rw [high, Nat.div_eq_zero_iff] at zero
  rw [highBit]
  by_cases small : rhs.toNat < 2 ^ part
  · rw [zero.mpr (.inr small), if_neg Bool.false_ne_true, findHighBit_eq, low,
      Nat.mod_eq_of_lt small]
    by_cases above : part < precision
    · have seen : seenDivisor part precision rhs.toNat =
          rhs.toNat % 2 ^ (precision - part) := if_pos ⟨above, small⟩
      rw [seen, if_pos above, Nat.sub_add_cancel (by omega)]
    · have seen : seenDivisor part precision rhs.toNat = rhs.toNat :=
        if_neg fun both => above both.1
      rw [seen, if_neg above, Nat.sub_add_cancel positive, Nat.mod_eq_of_lt below]
  · have seen : seenDivisor part precision rhs.toNat = rhs.toNat := if_neg fun both => small both.2
    have above : part < precision := by
      by_contra within
      exact small (below.trans_le (Nat.pow_le_pow_right (by decide) (not_lt.mp within)))
    have inside : rhs.toNat / 2 ^ part < 2 ^ (precision - part) := by
      rw [Nat.div_lt_iff_lt_mul modulus, ← pow_add, Nat.sub_add_cancel above.le]
      exact below
    have present : rhs.toNat / 2 ^ part ≠ 0 := by
      rw [ne_eq, Nat.div_eq_zero_iff]
      omega
    have set : (rhs.high != 0) = true := by
      rw [← Bool.not_eq_false, zero]
      omega
    rw [seen, if_pos set, findHighBit_eq, high,
      show precision - 1 - part + 1 = precision - part by omega, Nat.mod_eq_of_lt inside,
      if_neg present, if_neg (by omega), Option.map_some]
    congr 1
    have top := Nat.log2_self_le present
    have bound := Nat.lt_log2_self (n := rhs.toNat / 2 ^ part)
    symm
    refine log2_unique ?_ ?_
    · rw [pow_add]
      exact (Nat.mul_le_mul_right _ top).trans (Nat.div_mul_le_self _ _)
    · rw [show (rhs.toNat / 2 ^ part).log2 + part + 1 =
        (rhs.toNat / 2 ^ part).log2 + 1 + part by omega, pow_add]
      exact (Nat.div_lt_iff_lt_mul modulus).mp bound

theorem numGreaterEq_iff (lhs rhs : CppNum part) (precision : Nat)
    (unsigned : lhs.unsignedp = true) :
    numGreaterEq lhs rhs precision = true ↔ rhs.toNat ≤ lhs.toNat := by
  have magnitude : numGreaterEq lhs rhs precision =
      (rhs.high.ult lhs.high || (lhs.high == rhs.high && rhs.low.ule lhs.low)) := by
    simp [numGreaterEq, unsigned]
  have lhsLow := lhs.low.isLt
  have rhsLow := rhs.low.isLt
  rw [magnitude, Bool.or_eq_true, Bool.and_eq_true, beq_iff_eq, BitVec.toNat_eq, BitVec.ult,
    BitVec.ule, decide_eq_true_iff, decide_eq_true_iff, CppNum.toNat, CppNum.toNat]
  obtain less | same | greater := Nat.lt_trichotomy rhs.high.toNat lhs.high.toNat
  · have gap := Nat.mul_le_mul_left (2 ^ part) less
    rw [Nat.mul_succ] at gap
    omega
  · rw [same]
    omega
  · have gap := Nat.mul_le_mul_left (2 ^ part) greater
    rw [Nat.mul_succ] at gap
    omega

theorem numMinus_toNat (fits : precision ≤ 2 * part) (lhsTrimmed : lhs.Trimmed precision)
    (within : rhs.toNat ≤ lhs.toNat) :
    (numBinaryOp lhs rhs .minus precision).toNat = lhs.toNat - rhs.toNat := by
  have below : lhs.toNat < 2 ^ precision := lhsTrimmed
  have residue := (numPlus_trimmed fits lhs (numNegate rhs precision)).toNat_eq
    ((numPlus_modEq fits lhs (numNegate rhs precision)).trans
      ((numNegate_modEq fits rhs).add_left _))
  rw [Int.emod_eq_of_lt (by omega) (by omega)] at residue
  change (numPlus lhs (numNegate rhs precision) precision).toNat = _
  omega

def setBit (num : CppNum part) (i : Nat) : CppNum part :=
  if i ≥ part then { num with high := num.high ||| 1 <<< (i - part) }
  else { num with low := num.low ||| 1 <<< i }

theorem setBit_unsignedp (num : CppNum part) (i : Nat) :
    (setBit num i).unsignedp = num.unsignedp := by
  unfold setBit
  split <;> rfl

theorem setBit_toNat {i : Nat} (inside : i < 2 * part) (clear : num.toNat % 2 ^ (i + 1) = 0) :
    (setBit num i).toNat = num.toNat + 2 ^ i := by
  obtain ⟨above, multiple⟩ := Nat.dvd_of_mod_eq_zero clear
  have small : 2 ^ i < 2 ^ (i + 1) := Nat.pow_lt_pow_right (by decide) (Nat.lt_succ_self i)
  rw [multiple, Nat.two_pow_add_eq_or_of_lt small, ← multiple]
  apply Nat.eq_of_testBit_eq
  intro j
  rw [Nat.testBit_or, Nat.testBit_two_pow, CppNum.toNat_testBit, CppNum.toNat_testBit]
  by_cases high : i ≥ part
  · rw [setBit, if_pos high]
    by_cases low : j < part
    · simp [low, show ¬ i = j by omega]
    · rw [if_neg low, if_neg low, BitVec.getLsbD_or, bit_getLsbD (by omega)]
      congr 1
      exact decide_eq_decide.mpr (by omega)
  · rw [setBit, if_neg high]
    by_cases low : j < part
    · rw [if_pos low, if_pos low, BitVec.getLsbD_or, bit_getLsbD (by omega)]
      congr 1
      exact decide_eq_decide.mpr (by omega)
    · simp [low, show ¬ i = j by omega]

def halve (num : CppNum part) : CppNum part :=
  { num with
    low := num.low >>> 1 ||| num.high <<< (part - 1)
    high := num.high >>> 1 }

theorem halve_toNat (positive : 0 < part) (num : CppNum part) :
    (halve num).toNat = num.toNat / 2 := by
  apply Nat.eq_of_testBit_eq
  intro i
  have shifted := shiftDown_bit num false (n := 1) positive i
  rw [CppNum.toNat_testBit_eq_bit, Nat.testBit_div_two, CppNum.toNat_testBit_eq_bit,
    Nat.add_comm i 1, ← shifted, halve]
  simp [signPart]

def divideStep (precision i : Nat) (lhs sub result : CppNum part) : CppNum part × CppNum part :=
  if numGreaterEq lhs sub precision then
    (numBinaryOp lhs sub .minus precision, setBit result i)
  else (lhs, result)

theorem divideLoop_zero (lhs sub result : CppNum part) :
    divideLoop precision 0 lhs sub result = divideStep precision 0 lhs sub result := by
  rw [divideLoop]
  rfl

theorem divideLoop_succ (i : Nat) (lhs sub result : CppNum part) :
    divideLoop precision (i + 1) lhs sub result =
      divideLoop precision i (divideStep precision (i + 1) lhs sub result).1 (halve sub)
        (divideStep precision (i + 1) lhs sub result).2 := by
  rw [divideLoop]
  rfl

/-- The dividend is less than the divisor shifted once more, and the quotient
so far has no bit that is still to be decided. -/
structure Dividing (precision i divisor : Nat) (lhs sub result : CppNum part) : Prop where
  unsigned : lhs.unsignedp = true
  trimmed : lhs.Trimmed precision
  shifted : sub.toNat = divisor * 2 ^ i
  bound : lhs.toNat < divisor * 2 ^ (i + 1)
  clear : result.toNat % 2 ^ (i + 1) = 0

theorem divideStep_spec (fits : precision ≤ 2 * part) {i divisor : Nat} (inside : i < 2 * part)
    {lhs sub result : CppNum part} (dividing : Dividing precision i divisor lhs sub result) :
    ∃ bit, lhs.toNat = (divideStep precision i lhs sub result).1.toNat + divisor * (bit * 2 ^ i) ∧
      (divideStep precision i lhs sub result).1.toNat < divisor * 2 ^ i ∧
      (divideStep precision i lhs sub result).2.toNat = result.toNat + bit * 2 ^ i ∧
      (divideStep precision i lhs sub result).1.unsignedp = true ∧
      (divideStep precision i lhs sub result).1.Trimmed precision ∧
      (divideStep precision i lhs sub result).2.unsignedp = result.unsignedp := by
  obtain ⟨unsigned, trimmed, shifted, bound, clear⟩ := dividing
  rw [pow_succ, ← Nat.mul_assoc] at bound
  by_cases greater : sub.toNat ≤ lhs.toNat
  · have step : divideStep precision i lhs sub result =
        (numBinaryOp lhs sub .minus precision, setBit result i) :=
      if_pos ((numGreaterEq_iff lhs sub precision unsigned).mpr greater)
    have difference := numMinus_toNat fits trimmed greater
    refine ⟨1, ?_⟩
    rw [step, Nat.one_mul]
    dsimp only
    refine ⟨by omega, by omega, setBit_toNat inside clear, ?_, numPlus_trimmed fits _ _,
      setBit_unsignedp _ _⟩
    exact (numPlus_unsignedp lhs _ precision).trans (by rw [unsigned, Bool.true_or])
  · have step : divideStep precision i lhs sub result = (lhs, result) :=
      if_neg (mt (numGreaterEq_iff lhs sub precision unsigned).mp greater)
    refine ⟨0, ?_⟩
    rw [step, Nat.zero_mul, Nat.mul_zero]
    dsimp only
    exact ⟨rfl, by omega, rfl, unsigned, trimmed, rfl⟩

theorem divideLoop_spec (fits : precision ≤ 2 * part) {divisor : Nat} (nonzero : 0 < divisor)
    {i : Nat} (inside : i < 2 * part) {lhs sub result : CppNum part}
    (dividing : Dividing precision i divisor lhs sub result) :
    (divideLoop precision i lhs sub result).1.toNat = lhs.toNat % divisor ∧
      (divideLoop precision i lhs sub result).2.toNat = result.toNat + lhs.toNat / divisor ∧
      (divideLoop precision i lhs sub result).2.unsignedp = result.unsignedp := by
  induction i generalizing lhs sub result with
  | zero =>
    obtain ⟨bit, dividend, remainder, quotient, -, -, signedness⟩ :=
      divideStep_spec fits inside dividing
    rw [pow_zero, Nat.mul_one] at dividend remainder quotient
    rw [divideLoop_zero, quotient, signedness, dividend, Nat.add_mul_mod_self_left,
      Nat.mod_eq_of_lt remainder, Nat.add_mul_div_left _ _ nonzero, Nat.div_eq_of_lt remainder,
      Nat.zero_add]
    exact ⟨rfl, rfl, rfl⟩
  | succ i ih =>
    obtain ⟨bit, dividend, remainder, quotient, unsigned, trimmed, signedness⟩ :=
      divideStep_spec fits inside dividing
    have rest : Dividing precision i divisor (divideStep precision (i + 1) lhs sub result).1
        (halve sub) (divideStep precision (i + 1) lhs sub result).2 := by
      refine ⟨unsigned, trimmed, ?_, remainder, ?_⟩
      · rw [halve_toNat (by omega), dividing.shifted, pow_succ, ← Nat.mul_assoc,
          Nat.mul_div_cancel _ (by decide)]
      · have clear := Nat.dvd_of_mod_eq_zero dividing.clear
        rw [quotient]
        refine Nat.mod_eq_zero_of_dvd (Nat.dvd_add ?_ (Dvd.intro_left _ rfl))
        exact (pow_dvd_pow 2 (Nat.le_succ (i + 1))).trans clear
    obtain ⟨remainders, quotients, signs⟩ := ih (by omega) rest
    rw [divideLoop_succ, remainders, quotients, signs, signedness, quotient, dividend,
      Nat.add_mul_mod_self_left, Nat.add_mul_div_left _ _ nonzero]
    exact ⟨rfl, by omega, rfl⟩

def divideMagnitudes (lhs rhs : CppNum part) (precision : Nat) (unsignedp : Bool) :
    Option (CppNum part × CppNum part) := do
  let i ← highBit rhs precision
  return divideLoop precision (precision - i - 1) { lhs with unsignedp := true }
    (numLshift { rhs with unsignedp := true } precision (precision - i - 1))
    ⟨0, 0, unsignedp, false⟩

theorem numLshift_seen (fits : precision ≤ 2 * part) {i : Nat}
    (low : 2 ^ i ≤ seenDivisor part precision rhs.toNat)
    (high : seenDivisor part precision rhs.toNat < 2 ^ (i + 1)) (inside : i < precision) :
    (numLshift rhs precision (precision - i - 1)).toNat =
      seenDivisor part precision rhs.toNat * 2 ^ (precision - i - 1) := by
  have power : 2 ^ precision = 2 ^ (i + 1) * 2 ^ (precision - i - 1) := by
    rw [← pow_add]
    congr 1
    omega
  have seen : rhs.toNat % 2 ^ (i + 1) = seenDivisor part precision rhs.toNat := by
    rw [seenDivisor] at low high ⊢
    split at low
    case isTrue unseen =>
      rw [if_pos unseen] at high ⊢
      have below : i < precision - part := (Nat.pow_lt_pow_iff_right (by decide)).mp
        (low.trans_lt (Nat.mod_lt _ (Nat.two_pow_pos _)))
      rw [← Nat.mod_mod_of_dvd _ (pow_dvd_pow 2 (Nat.succ_le_of_lt below)),
        Nat.mod_eq_of_lt high]
    case isFalse whole =>
      rw [if_neg whole] at high ⊢
      exact Nat.mod_eq_of_lt high
  rw [numLshift_toNat fits, power, Nat.mul_mod_mul_right, seen]

theorem seenDivisor_le (part precision divisor : Nat) :
    seenDivisor part precision divisor ≤ divisor := by
  rw [seenDivisor]
  split
  case isTrue => exact Nat.mod_le _ _
  case isFalse => exact le_rfl

theorem divideMagnitudes_eq (positive : 0 < precision) (fits : precision ≤ 2 * part)
    (lhsTrimmed : lhs.Trimmed precision) (rhsTrimmed : rhs.Trimmed precision) (unsignedp : Bool) :
    (seenDivisor part precision rhs.toNat = 0 ∧
        divideMagnitudes lhs rhs precision unsignedp = none) ∨
      (seenDivisor part precision rhs.toNat ≠ 0 ∧ ∃ remainder quotient,
        divideMagnitudes lhs rhs precision unsignedp = some (remainder, quotient) ∧
        remainder.toNat = lhs.toNat % seenDivisor part precision rhs.toNat ∧
        quotient.toNat = lhs.toNat / seenDivisor part precision rhs.toNat ∧
        quotient.unsignedp = unsignedp) := by
  have search := highBit_eq positive rhsTrimmed
  by_cases zero : seenDivisor part precision rhs.toNat = 0
  · rw [if_pos zero] at search
    exact .inl ⟨zero, by rw [divideMagnitudes, search]; rfl⟩
  · rw [if_neg zero] at search
    have low := Nat.log2_self_le zero
    have high := Nat.lt_log2_self (n := seenDivisor part precision rhs.toNat)
    have inside : (seenDivisor part precision rhs.toNat).log2 < precision :=
      (Nat.pow_lt_pow_iff_right (by decide)).mp
        ((low.trans (seenDivisor_le _ _ _)).trans_lt rhsTrimmed)
    generalize (seenDivisor part precision rhs.toNat).log2 = i at *
    have below : lhs.toNat < 2 ^ precision := lhsTrimmed
    have dividing : Dividing precision (precision - i - 1)
        (seenDivisor part precision rhs.toNat) { lhs with unsignedp := true }
        (numLshift { rhs with unsignedp := true } precision (precision - i - 1))
        (⟨0, 0, unsignedp, false⟩ : CppNum part) := by
      refine ⟨rfl, lhsTrimmed, numLshift_seen fits low high inside, ?_, by simp [CppNum.toNat]⟩
      have power : 2 ^ precision = 2 ^ i * 2 ^ (precision - i - 1 + 1) := by
        rw [← pow_add]
        congr 1
        omega
      rw [power] at below
      exact below.trans_le (Nat.mul_le_mul_right _ low)
    obtain ⟨remainder, quotient, signedness⟩ :=
      divideLoop_spec fits (Nat.pos_of_ne_zero zero) (by omega) dividing
    refine .inr ⟨zero, _, _, by rw [divideMagnitudes, search]; rfl, remainder, ?_, signedness⟩
    rw [quotient]
    simp [CppNum.toNat]

def divisionResult (op : Op) (unsignedp lhsNeg rhsNeg : Bool) (precision : Nat)
    (remainder quotient : CppNum part) : CppNum part :=
  if op = .div then
    let result :=
      if !unsignedp && (lhsNeg != rhsNeg) then numNegate quotient precision else quotient
    { result with
      overflow := !unsignedp && (numPositive result precision != !(lhsNeg != rhsNeg)) }
  else
    let lhs := { remainder with unsignedp := unsignedp, overflow := false }
    if lhsNeg then numNegate lhs precision else lhs

theorem numDivOp_eq (lhs rhs : CppNum part) (op : Op) (precision : Nat) :
    numDivOp lhs rhs op precision =
      let unsignedp := lhs.unsignedp || rhs.unsignedp
      let left := numMagnitude lhs unsignedp precision
      let right := numMagnitude rhs unsignedp precision
      if right.1.high == 0 && right.1.low == 0 then some left.1
      else (divideMagnitudes left.1 right.1 precision unsignedp).map fun out =>
        divisionResult op unsignedp left.2 right.2 precision out.1 out.2 := by
  simp only [numDivOp, divideMagnitudes, highBit, divisionResult]
  split
  case isTrue => rfl
  case isFalse =>
    split
    case isTrue =>
      cases findHighBit (numMagnitude rhs (lhs.unsignedp || rhs.unsignedp) precision).1.high
        (precision - 1 - part) with
      | none => rfl
      | some i =>
        by_cases division : op = .div
        · simp only [division, if_true]
          rfl
        · simp only [division, if_false]
          rfl
    case isFalse =>
      cases findHighBit (numMagnitude rhs (lhs.unsignedp || rhs.unsignedp) precision).1.low
        (if precision > part then precision - part - 1 else precision - 1) with
      | none => rfl
      | some i =>
        by_cases division : op = .div
        · simp only [division, if_true]
          rfl
        · simp only [division, if_false]
          rfl

theorem decide_ofNat_neg (n : Nat) : decide (Int.ofNat n < 0) = false :=
  decide_eq_false (not_lt.mpr (Int.natCast_nonneg n))

theorem decide_negSucc_neg (n : Nat) : decide (Int.negSucc n < 0) = true :=
  decide_eq_true (Int.negSucc_lt_zero n)

theorem tdiv_eq_withSign (left right : Int) :
    left.tdiv right = withSign (decide (left < 0) != decide (right < 0))
      (left.natAbs / right.natAbs : Nat) := by
  cases left <;> cases right <;> simp only [decide_ofNat_neg, decide_negSucc_neg] <;> rfl

theorem tmod_eq_withSign (left right : Int) :
    left.tmod right = withSign (decide (left < 0)) (left.natAbs % right.natAbs : Nat) := by
  cases left <;> cases right <;> simp only [decide_ofNat_neg, decide_negSucc_neg] <;> rfl

theorem withSign_emod_inj (negate : Bool) {first second : Nat} (firstSmall : first < 2 ^ precision)
    (secondSmall : second < 2 ^ precision) :
    withSign negate first % (2 ^ precision : Nat) = withSign negate second % (2 ^ precision : Nat) ↔
      first = second := by
  refine ⟨fun same => ?_, fun same => by rw [same]⟩
  have congruent : (first : Int) ≡ second [ZMOD (2 ^ precision : Nat)] := by
    cases negate with
    | false => exact same
    | true => exact (Int.neg_modEq_neg).mp same
  have residue := Int.natCast_modEq_iff.mp congruent
  rwa [Nat.ModEq, Nat.mod_eq_of_lt firstSmall, Nat.mod_eq_of_lt secondSmall] at residue

/-- The magnitudes divide by what was seen of the divisor as by the divisor. -/
def SeenSuffices (op : Op) (dividend seen divisor : Nat) : Prop :=
  seen = divisor ∨ dividend < seen ∨
    (op = .mod ∧ dividend % divisor < seen ∧ seen ∣ dividend - dividend % divisor)

instance (op : Op) (dividend seen divisor : Nat) :
    Decidable (SeenSuffices op dividend seen divisor) :=
  inferInstanceAs (Decidable (_ ∨ _))

theorem seenDivisor_double {divisor : Nat} (unseen : seenDivisor part precision divisor ≠ divisor) :
    2 * seenDivisor part precision divisor < divisor := by
  rw [seenDivisor] at unseen ⊢
  split at unseen
  case isTrue partial' =>
    rw [if_pos partial']
    have bound := Nat.mod_lt divisor (Nat.two_pow_pos (precision - part))
    have large : 2 ^ (precision - part) ≤ divisor := by
      by_contra small
      exact unseen (Nat.mod_eq_of_lt (not_le.mp small))
    have rest := Nat.mod_eq_sub_mod large
    have fits := Nat.mod_le (divisor - 2 ^ (precision - part)) (2 ^ (precision - part))
    omega
  case isFalse whole => exact absurd rfl unseen

theorem seenSuffices_div {dividend seen divisor : Nat} (nonzero : seen ≠ 0)
    (double : seen ≠ divisor → 2 * seen < divisor) :
    dividend / seen = dividend / divisor ↔ SeenSuffices .div dividend seen divisor := by
  constructor
  · intro same
    by_contra fails
    simp only [SeenSuffices, reduceCtorEq, false_and, or_false, not_or, not_lt] at fails
    have positive : 0 < dividend / seen := Nat.div_pos fails.2 (Nat.pos_of_ne_zero nonzero)
    have seenBound := Nat.lt_mul_div_succ dividend (Nat.pos_of_ne_zero nonzero)
    have divisorBound := Nat.mul_div_le dividend divisor
    rw [← same] at divisorBound
    have wide := Nat.mul_le_mul_right (dividend / seen) (double fails.1).le
    have more : seen * (dividend / seen + 1) ≤ 2 * seen * (dividend / seen) := by
      rw [Nat.mul_comm 2, Nat.mul_assoc]
      exact Nat.mul_le_mul_left seen (by omega)
    omega
  · rintro (same | small | ⟨⟨⟩, -⟩)
    · rw [same]
    · by_cases same : seen = divisor
      · rw [same]
      · have wide := double same
        rw [Nat.div_eq_of_lt small, Nat.div_eq_of_lt (by omega)]

theorem seenSuffices_mod {dividend seen divisor : Nat} (nonzero : seen ≠ 0)
    (double : seen ≠ divisor → 2 * seen < divisor) :
    dividend % seen = dividend % divisor ↔ SeenSuffices .mod dividend seen divisor := by
  have remainder := Nat.mod_le dividend divisor
  constructor
  · intro same
    refine .inr (.inr ⟨rfl, ?_, ?_⟩)
    · rw [← same]
      exact Nat.mod_lt _ (Nat.pos_of_ne_zero nonzero)
    · rw [← same]
      exact Nat.dvd_sub_mod dividend
  · rintro (same | small | ⟨-, bound, quotient, multiple⟩)
    · rw [same]
    · by_cases same : seen = divisor
      · rw [same]
      · have wide := double same
        rw [Nat.mod_eq_of_lt small, Nat.mod_eq_of_lt (by omega)]
    · have whole : dividend = dividend % divisor + seen * quotient := by omega
      calc dividend % seen = (dividend % divisor + seen * quotient) % seen := by rw [← whole]
        _ = dividend % divisor := by rw [Nat.add_mul_mod_self_left, Nat.mod_eq_of_lt bound]

structure Divides (precision : Nat) (unsignedp : Bool) (op : Op) (left right : Int)
    (result : CppNum part) : Prop where
  signedness : result.unsignedp = unsignedp
  residue : (result.toNat : Int) =
    (if op = .div then left.tdiv right else left.tmod right) % (2 ^ precision : Nat)
  flag : result.overflow = true ↔
    unsignedp = false ∧ op = .div ∧ ¬ Representable precision (left.tdiv right)

/-- A signed quotient is zero and its operands have different signs. -/
def FalseAlarm (op : Op) (unsignedp : Bool) (left right : Int) : Prop :=
  op = .div ∧ unsignedp = false ∧ ¬ (left < 0 ↔ right < 0) ∧ left.natAbs < right.natAbs

instance (op : Op) (unsignedp : Bool) (left right : Int) :
    Decidable (FalseAlarm op unsignedp left right) :=
  inferInstanceAs (Decidable (_ ∧ _))

section Result

variable {remainder quotient : CppNum part} {left right : Int} {unsignedp : Bool} {seen : Nat}

theorem divisionResult_div (natural : unsignedp = true → 0 ≤ left ∧ 0 ≤ right)
    (remainder quotient : CppNum part) (precision : Nat) :
    divisionResult .div unsignedp (decide (left < 0)) (decide (right < 0)) precision remainder
        quotient =
      { applySign (decide (left < 0) != decide (right < 0)) quotient precision with
        overflow := !unsignedp &&
          (numPositive (applySign (decide (left < 0) != decide (right < 0)) quotient precision)
            precision != !(decide (left < 0) != decide (right < 0))) } := by
  cases unsignedp with
  | false => rfl
  | true =>
    obtain ⟨first, second⟩ := natural rfl
    rw [decide_eq_false (not_lt.mpr first), decide_eq_false (not_lt.mpr second)]
    rfl

theorem quotient_flag (positive : 0 < precision) (fits : precision ≤ 2 * part) (negate : Bool)
    (trimmed : quotient.Trimmed precision) :
    ((numPositive (applySign negate quotient precision) precision != !negate) = true ↔
        ¬ Representable precision (withSign negate quotient.toNat)) ↔
      ¬ (negate = true ∧ quotient.toNat = 0) := by
  have half := Nat.two_pow_pos (precision - 1)
  have below : quotient.toNat < 2 ^ precision := trimmed
  have test := applySign_overflow positive fits negate trimmed
  have sign := numPositive_iff positive fits (applySign_trimmed fits negate trimmed)
  have zero : (applySign negate quotient precision).toNat = 0 ↔ quotient.toNat = 0 := by
    cases negate with
    | false => rfl
    | true =>
      rw [applySign, if_pos rfl, numNegate_toNat fits trimmed]
      split_ifs <;> omega
  rw [Bool.and_eq_true, Bool.not_eq_true', ← Bool.not_eq_true, numZerop_iff, zero] at test
  rw [representable_withSign] at test ⊢
  by_cases vanishes : quotient.toNat = 0
  · rw [zero.mpr vanishes] at sign
    rw [sign.mpr half, vanishes]
    cases negate with
    | false => simp
    | true => simp
  · rw [← test]
    simp [vanishes]

theorem divides_div_iff (positive : 0 < precision) (fits : precision ≤ 2 * part)
    (leftSmall : left.natAbs < 2 ^ precision) (nonzero : right.natAbs ≠ 0)
    (natural : unsignedp = true → 0 ≤ left ∧ 0 ≤ right)
    (signedness : quotient.unsignedp = unsignedp)
    (value : quotient.toNat = left.natAbs / seen) :
    Divides precision unsignedp .div left right (divisionResult .div unsignedp
        (decide (left < 0)) (decide (right < 0)) precision remainder quotient) ↔
      left.natAbs / seen = left.natAbs / right.natAbs ∧
        ¬ FalseAlarm .div unsignedp left right := by
  have trimmed : quotient.Trimmed precision := by
    rw [CppNum.Trimmed, value]
    exact (Nat.div_le_self _ _).trans_lt leftSmall
  have bound := (Nat.div_le_self left.natAbs right.natAbs).trans_lt leftSmall
  have negates : (decide (left < 0) != decide (right < 0)) = true ↔ ¬ (left < 0 ↔ right < 0) := by
    rw [bne_iff_ne, ne_eq, decide_eq_decide]
  have quotientZero : left.natAbs / right.natAbs = 0 ↔ left.natAbs < right.natAbs := by
    rw [Nat.div_eq_zero_iff]
    omega
  have residue : ((applySign (decide (left < 0) != decide (right < 0)) quotient precision).toNat :
        Int) = left.tdiv right % (2 ^ precision : Nat) ↔
      left.natAbs / seen = left.natAbs / right.natAbs := by
    rw [(applySign_trimmed fits _ trimmed).toNat_eq (applySign_modEq fits _ quotient), value,
      tdiv_eq_withSign]
    exact withSign_emod_inj _ (value ▸ trimmed) bound
  have flag := quotient_flag positive fits (decide (left < 0) != decide (right < 0)) trimmed
  rw [divisionResult_div natural]
  constructor
  · intro divides
    have same := residue.mp divides.residue
    refine ⟨same, ?_⟩
    rintro ⟨-, signed, signs, small⟩
    rw [value, same, ← tdiv_eq_withSign] at flag
    refine flag.mp ?_ ⟨negates.mpr signs, quotientZero.mpr small⟩
    have test := divides.flag
    simpa only [signed, Bool.not_false, Bool.true_and, true_and] using test
  · rintro ⟨same, quiet⟩
    refine ⟨?_, residue.mpr same, ?_⟩
    · exact (applySign_unsignedp _ quotient precision).trans signedness
    · cases unsignedp with
      | true => simp
      | false =>
        simp only [Bool.not_false, Bool.true_and, true_and]
        rw [tdiv_eq_withSign, ← same, ← value]
        refine flag.mpr ?_
        rintro ⟨negate, zero⟩
        rw [value, same, quotientZero] at zero
        exact quiet ⟨rfl, rfl, negates.mp negate, zero⟩

theorem divides_mod_iff (positive : 0 < precision) (fits : precision ≤ 2 * part)
    (leftSmall : left.natAbs < 2 ^ precision) (seenNonzero : seen ≠ 0)
    (natural : unsignedp = true → 0 ≤ left ∧ 0 ≤ right)
    (half : unsignedp = false → seen ≤ 2 ^ (precision - 1))
    (value : remainder.toNat = left.natAbs % seen) :
    Divides precision unsignedp .mod left right (divisionResult .mod unsignedp
        (decide (left < 0)) (decide (right < 0)) precision remainder quotient) ↔
      left.natAbs % seen = left.natAbs % right.natAbs := by
  have shape : divisionResult .mod unsignedp (decide (left < 0)) (decide (right < 0)) precision
      remainder quotient = applySign (decide (left < 0))
        { remainder with unsignedp := unsignedp, overflow := false } precision := by
    cases decide (left < 0) <;> rfl
  have remainderBound := Nat.mod_lt left.natAbs (Nat.pos_of_ne_zero seenNonzero)
  have trimmed : CppNum.Trimmed precision
      { remainder with unsignedp := unsignedp, overflow := false } := by
    change remainder.toNat < _
    rw [value]
    exact (Nat.mod_le _ _).trans_lt leftSmall
  have bound := (Nat.mod_le left.natAbs right.natAbs).trans_lt leftSmall
  have residue : ((applySign (decide (left < 0))
        { remainder with unsignedp := unsignedp, overflow := false } precision).toNat : Int) =
        left.tmod right % (2 ^ precision : Nat) ↔
      left.natAbs % seen = left.natAbs % right.natAbs := by
    rw [(applySign_trimmed fits _ trimmed).toNat_eq (applySign_modEq fits _ _),
      tmod_eq_withSign]
    change withSign _ (remainder.toNat : Nat) % _ = _ ↔ _
    rw [value]
    exact withSign_emod_inj _ ((Nat.mod_le _ _).trans_lt leftSmall) bound
  have quiet : (applySign (decide (left < 0))
      { remainder with unsignedp := unsignedp, overflow := false } precision).overflow = false := by
    cases sign : decide (left < 0) with
    | false => rfl
    | true =>
      have signed : unsignedp = false := by
        cases unsignedp with
        | false => rfl
        | true => exact absurd (of_decide_eq_true sign) (not_lt.mpr (natural rfl).1)
      have small := half signed
      have flag := numNegate_overflow positive fits trimmed signed
      have itself : CppNum.toInt precision
          { remainder with unsignedp := unsignedp, overflow := false } =
            (left.natAbs % seen : Nat) := by
        rw [CppNum.toInt]
        change (if remainder.toNat < _ then (remainder.toNat : Int) else _) = _
        rw [value, if_pos (by omega)]
      rw [itself, Representable] at flag
      rw [applySign, if_pos rfl, Bool.eq_false_iff, ne_eq, flag]
      omega
  rw [shape]
  constructor
  · exact fun divides => residue.mp divides.residue
  · intro same
    refine ⟨applySign_unsignedp _ _ precision, residue.mpr same, ?_⟩
    rw [quiet]
    simp

end Result

theorem CppNum.value_nonneg (num : CppNum part) : 0 ≤ num.value precision true :=
  Int.natCast_nonneg num.toNat

theorem CppNum.value_natAbs_le (positive : 0 < precision) (trimmed : num.Trimmed precision)
    {unsignedp : Bool} (signed : unsignedp = false) :
    (num.value precision unsignedp).natAbs ≤ 2 ^ (precision - 1) := by
  have represents := CppNum.toInt_representable positive trimmed
  rw [Representable] at represents
  rw [signed]
  change (num.toInt precision).natAbs ≤ _
  omega

theorem CppNum.value_natAbs_lt (positive : 0 < precision) (trimmed : num.Trimmed precision)
    (unsignedp : Bool) : (num.value precision unsignedp).natAbs < 2 ^ precision := by
  cases unsignedp with
  | true => exact trimmed
  | false =>
    have double := two_pow_pred positive
    have half := Nat.two_pow_pos (precision - 1)
    have small := CppNum.value_natAbs_le positive trimmed rfl
    omega

theorem CppNum.value_ne_zero (trimmed : num.Trimmed precision) (nonzero : num.toNat ≠ 0)
    (unsignedp : Bool) : (num.value precision unsignedp).natAbs ≠ 0 := by
  have below : num.toNat < 2 ^ precision := trimmed
  intro zero
  rw [Int.natAbs_eq_zero] at zero
  cases unsignedp with
  | true => exact nonzero (Int.natCast_eq_zero.mp zero)
  | false =>
    change num.toInt precision = 0 at zero
    rw [CppNum.toInt] at zero
    split at zero <;> omega

theorem SeenSuffices.of_zero {op : Op} {dividend divisor : Nat} (nonzero : divisor ≠ 0) :
    ¬ SeenSuffices op dividend 0 divisor := by
  rintro (same | small | ⟨-, small, -⟩)
  · exact nonzero same.symm
  · exact Nat.not_lt_zero _ small
  · exact Nat.not_lt_zero _ small

/-- Division is right when what was seen of the divisor suffices and the sign
test gives no false alarm; otherwise it goes wrong or does not end. -/
theorem numDivOp_iff (positive : 0 < precision) (fits : precision ≤ 2 * part)
    (lhsTrimmed : lhs.Trimmed precision) (rhsTrimmed : rhs.Trimmed precision)
    (nonzero : rhs.toNat ≠ 0) (op : Op) (operator : op = .div ∨ op = .mod)
    (unsignedp : Bool) (usual : unsignedp = (lhs.unsignedp || rhs.unsignedp)) :
    (∃ result, numDivOp lhs rhs op precision = some result ∧
        Divides precision unsignedp op (lhs.value precision unsignedp)
          (rhs.value precision unsignedp) result) ↔
      SeenSuffices op (lhs.value precision unsignedp).natAbs
          (seenDivisor part precision (rhs.value precision unsignedp).natAbs)
          (rhs.value precision unsignedp).natAbs ∧
        ¬ FalseAlarm op unsignedp (lhs.value precision unsignedp)
          (rhs.value precision unsignedp) := by
  have natural : unsignedp = true →
      0 ≤ lhs.value precision unsignedp ∧ 0 ≤ rhs.value precision unsignedp := by
    rintro rfl
    exact ⟨lhs.value_nonneg, rhs.value_nonneg⟩
  have lhsSmall := CppNum.value_natAbs_lt positive lhsTrimmed unsignedp
  have rhsSmall := CppNum.value_natAbs_lt positive rhsTrimmed unsignedp
  have rhsNonzero := CppNum.value_ne_zero rhsTrimmed nonzero unsignedp
  obtain ⟨left, leftSign⟩ := numMagnitude_toNat positive fits lhsTrimmed unsignedp
  obtain ⟨right, rightSign⟩ := numMagnitude_toNat positive fits rhsTrimmed unsignedp
  have divisor : ((numMagnitude rhs unsignedp precision).1.high == 0 &&
      (numMagnitude rhs unsignedp precision).1.low == 0) = false := by
    rw [Bool.eq_false_iff, ne_eq, Bool.and_eq_true, beq_iff_eq, beq_iff_eq]
    rintro ⟨high, low⟩
    rw [← right, CppNum.toNat, high, low] at rhsNonzero
    exact rhsNonzero (by simp)
  have division := numDivOp_eq lhs rhs op precision
  simp only [← usual] at division
  rw [divisor, if_neg Bool.false_ne_true, leftSign, rightSign] at division
  have outcome := divideMagnitudes_eq positive fits
    (show (numMagnitude lhs unsignedp precision).1.Trimmed precision by
      rw [CppNum.Trimmed, left]; exact lhsSmall)
    (show (numMagnitude rhs unsignedp precision).1.Trimmed precision by
      rw [CppNum.Trimmed, right]; exact rhsSmall) unsignedp
  rw [left, right] at outcome
  obtain ⟨zero, endless⟩ | ⟨seenNonzero, remainder, quotient, ends, remains, divides, signedness⟩ :=
    outcome
  · rw [division, endless, zero]
    refine iff_of_false ?_ fun both => SeenSuffices.of_zero rhsNonzero both.1
    rintro ⟨result, ⟨⟩, -⟩
  · rw [division, ends]
    have single : ∀ (result : CppNum part) (good : CppNum part → Prop),
        (∃ other, some result = some other ∧ good other) ↔ good result := by
      intro result good
      simp
    refine (single _ _).trans ?_
    obtain rfl | rfl := operator
    · rw [← seenSuffices_div seenNonzero seenDivisor_double]
      exact divides_div_iff positive fits lhsSmall rhsNonzero natural signedness divides
    · rw [← seenSuffices_mod seenNonzero seenDivisor_double]
      refine (divides_mod_iff positive fits lhsSmall seenNonzero natural ?_ remains).trans ?_
      · exact fun signed => (seenDivisor_le _ _ _).trans
          (CppNum.value_natAbs_le positive rhsTrimmed signed)
      · exact (and_iff_left (by rintro ⟨⟨⟩, -⟩)).symm

theorem numDivOp_iff_minus_seven :
    ∃ result, numDivOp (⟨0, 0xfffffffffffffff9, false, false⟩ : CppNum 64) ⟨0, 2, false, false⟩ .mod
        64 = some result ∧
      Divides 64 false .mod
        (CppNum.value 64 false (⟨0, 0xfffffffffffffff9, false, false⟩ : CppNum 64))
        (CppNum.value 64 false (⟨0, 2, false, false⟩ : CppNum 64)) result :=
  (@numDivOp_iff 64 64 ⟨0, 0xfffffffffffffff9, false, false⟩ ⟨0, 2, false, false⟩ (by decide)
    (by decide) (show _ < _ by decide) (show _ < _ by decide) (by decide) .mod
    (.inr rfl) false rfl).mpr (by decide)

/-- Minus one half is flagged; one by 256 in forty bits does not end. -/
theorem numDivOp_minus_half :
    (¬ ∃ result, numDivOp (⟨0, 0xffffffffffffffff, false, false⟩ : CppNum 64)
        ⟨0, 2, false, false⟩ .div 64 = some result ∧
      Divides 64 false .div
        (CppNum.value 64 false (⟨0, 0xffffffffffffffff, false, false⟩ : CppNum 64))
        (CppNum.value 64 false (⟨0, 2, false, false⟩ : CppNum 64)) result) ∧
      numDivOp (⟨0, 1, false, false⟩ : CppNum 32) ⟨0, 256, false, false⟩ .div 40 = none := by
  constructor
  · rintro ⟨result, divided, divides⟩
    have flagged : (numDivOp (⟨0, 0xffffffffffffffff, false, false⟩ : CppNum 64)
        ⟨0, 2, false, false⟩ .div 64).map CppNum.overflow = some true := by
      decide
    rw [divided, Option.map_some, Option.some_inj] at flagged
    obtain ⟨-, -, overflows⟩ := divides.flag.mp flagged
    exact overflows (by decide)
  · decide

end GccCil.Libcpp
